import Mathlib.Order.Lattice
import Mathlib.Data.List.Perm.Basic

/-! Iterators: the interface, and the iterators that are put together from others, the
merging one and the two-level one. What an iterator delivers from where it stands is a
list, and a move is described by the list it leads to. -/
namespace LevelDB

/-- The virtual functions of `Iterator`; `current` is `Valid`, `key` and `value` in one. -/
structure IteratorOps (σ E T : Type) where
  current : σ → Option E
  seekToFirst : σ → σ
  seekToLast : σ → σ
  seek : T → σ → σ
  next : σ → σ
  prev : σ → σ

section Interface
variable {σ E T : Type} (ops : IteratorOps σ E T)

/-- From here repeated `Next` delivers exactly this list. -/
def Delivers : σ → List E → Prop
  | s, [] => ops.current s = none
  | s, e :: rest => ops.current s = some e ∧ Delivers (ops.next s) rest

variable {ops}

theorem Delivers.current {s : σ} {items : List E} (delivers : Delivers ops s items) :
    ops.current s = items.head? := by
  cases items with
  | nil => exact delivers
  | cons e items => exact delivers.1

theorem Delivers.unique {s : σ} {items others : List E} (one : Delivers ops s items)
    (two : Delivers ops s others) : items = others := by
  induction items generalizing s others with
  | nil =>
    cases others with
    | nil => rfl
    | cons e others =>
      have clash := one.symm.trans two.1
      cases clash
  | cons e items ih =>
    cases others with
    | nil =>
      have clash := two.symm.trans one.1
      cases clash
    | cons e' others =>
      have same := Option.some.inj (one.1.symm.trans two.1)
      rw [same,ih one.2 two.2]

/-- The forward moves of iterators over lists. `Over` ties the state of an iterator to the
list it is over, wherever it stands. -/
structure Forward [LinearOrder T] (ops : IteratorOps σ E T) (key : E → T) (Over : σ → List E → Prop) :
    Prop where
  first : ∀ s items, Over s items → Delivers ops (ops.seekToFirst s) items
  seek : ∀ s items t, Over s items →
    Delivers ops (ops.seek t s) (items.dropWhile fun e => decide (key e < t))

/-- Two kinds of iterators behind one interface. -/
def IteratorOps.sum {τ : Type} (left : IteratorOps σ E T) (right : IteratorOps τ E T) :
    IteratorOps (σ ⊕ τ) E T where
  current := Sum.elim left.current right.current
  seekToFirst := Sum.map left.seekToFirst right.seekToFirst
  seekToLast := Sum.map left.seekToLast right.seekToLast
  seek t := Sum.map (left.seek t) (right.seek t)
  next := Sum.map left.next right.next
  prev := Sum.map left.prev right.prev

theorem delivers_inl {τ : Type} {left : IteratorOps σ E T} {right : IteratorOps τ E T} {s : σ}
    {items : List E} (delivers : Delivers left s items) : Delivers (left.sum right) (.inl s) items := by
  induction items generalizing s with
  | nil => exact delivers
  | cons e items ih => exact ⟨delivers.1,ih delivers.2⟩

theorem delivers_inr {τ : Type} {left : IteratorOps σ E T} {right : IteratorOps τ E T} {s : τ}
    {items : List E} (delivers : Delivers right s items) : Delivers (left.sum right) (.inr s) items := by
  induction items generalizing s with
  | nil => exact delivers
  | cons e items ih => exact ⟨delivers.1,ih delivers.2⟩

theorem Forward.sum {τ : Type} [LinearOrder T] {left : IteratorOps σ E T} {right : IteratorOps τ E T}
    {key : E → T} {L : σ → List E → Prop} {R : τ → List E → Prop} (one : Forward left key L)
    (two : Forward right key R) :
    Forward (left.sum right) key fun s items => s.elim (L · items) (R · items) := by
  constructor
  · rintro (s | s) items spent
    · exact delivers_inl (one.first s items spent)
    · exact delivers_inr (two.first s items spent)
  · rintro (s | s) items t spent
    · exact delivers_inl (one.seek s items t spent)
    · exact delivers_inr (two.seek s items t spent)

end Interface

/-- A list and a position in it; past the end the iterator is not valid. Memtables and
tables are iterated this way. -/
structure ListIter (E : Type) where
  items : List E
  index : Nat

section Lists
variable {E T : Type} [LinearOrder T] (key : E → T)

def ListIter.new (items : List E) : ListIter E := ⟨items,items.length⟩

def ListIter.ops : IteratorOps (ListIter E) E T where
  current s := s.items[s.index]?
  seekToFirst s := { s with index := 0 }
  seekToLast s := { s with index := s.items.length - 1 }
  seek t s := { s with index := s.items.findIdx fun e => !decide (key e < t) }
  next s := { s with index := s.index + 1 }
  prev s := { s with index := if s.index = 0 then s.items.length else s.index - 1 }

theorem ListIter.delivers (s : ListIter E) : Delivers (ListIter.ops key) s (s.items.drop s.index) := by
  generalize rest : s.items.drop s.index = items
  induction items generalizing s with
  | nil =>
    have past := List.drop_eq_nil_iff.mp rest
    exact List.getElem?_eq_none past
  | cons e items ih =>
    have here : s.items[s.index]? = some e := by
      rw [← List.head?_drop,rest]
      rfl
    refine ⟨here,ih _ ?_⟩
    show s.items.drop (s.index + 1) = items
    rw [← List.drop_drop,rest]
    rfl

theorem ListIter.forward :
    Forward (ListIter.ops key) key fun (s : ListIter E) items => s.items = items := by
  constructor
  · rintro s items rfl
    exact ListIter.delivers key { s with index := 0 }
  · rintro s items t rfl
    rw [List.dropWhile_eq_drop_findIdx_not]
    exact ListIter.delivers key { s with index := s.items.findIdx fun e => !decide (key e < t) }

end Lists

/-- `MergingIterator`: the child that is the current one, and the direction. -/
structure MergingIterator (σ : Type) where
  children : List σ
  current : Option Nat
  forward : Bool

section Merging
variable {σ E T : Type} [LinearOrder T] (child : IteratorOps σ E T) (key : E → T)

/-- One pass of the loop of `FindSmallest`: a later child is taken only if its key is smaller. -/
def takeSmaller (i : Nat) : Option E → Option (Nat × E) → Option (Nat × E)
  | none, best => best
  | some e, none => some (i,e)
  | some e, some (j,b) => if key e < key b then some (i,e) else some (j,b)

def findSmallest : Nat → Option (Nat × E) → List σ → Option (Nat × E)
  | _, best, [] => best
  | i, best, c :: rest => findSmallest (i + 1) (takeSmaller key i (child.current c) best) rest

/-- The loop of `FindLargest`, which starts with the last child. -/
def findLargest : Nat → List σ → Option (Nat × E)
  | _, [] => none
  | i, c :: rest =>
    match child.current c, findLargest (i + 1) rest with
    | none, best => best
    | some e, none => some (i,e)
    | some e, some (j,b) => if key b < key e then some (i,e) else some (j,b)

namespace MergingIterator

def new (children : List σ) : MergingIterator σ := ⟨children,none,true⟩

def entry (m : MergingIterator σ) : Option E :=
  (m.current.bind fun i => m.children[i]?).bind child.current

def smallest (children : List σ) : MergingIterator σ :=
  ⟨children,(findSmallest child key 0 none children).map (·.1),true⟩

def largest (children : List σ) : MergingIterator σ :=
  ⟨children,(findLargest child key 0 children).map (·.1),false⟩

/-- All children but the current one, moved with respect to the current key. -/
def turn (m : MergingIterator σ) (move : E → σ → σ) : List σ :=
  match m.entry child with
  | none => m.children
  | some e => m.children.mapIdx fun i c => if m.current = some i then c else move e c

/-- A child is put after the key. -/
def putAfter (e : E) (c : σ) : σ :=
  let c := child.seek (key e) c
  if (child.current c).any fun at_ => decide (key at_ = key e) then child.next c else c

/-- A child is put before the key. -/
def putBefore (e : E) (c : σ) : σ :=
  let c := child.seek (key e) c
  if (child.current c).isSome then child.prev c else child.seekToLast c

def moveCurrent (move : σ → σ) (current : Option Nat) (children : List σ) : List σ :=
  match current with
  | none => children
  | some i => children.modify i move

def next (m : MergingIterator σ) : MergingIterator σ :=
  let children := if m.forward then m.children else m.turn child (putAfter child key)
  smallest child key (moveCurrent child.next m.current children)

def prev (m : MergingIterator σ) : MergingIterator σ :=
  let children := if m.forward then m.turn child (putBefore child key) else m.children
  largest child key (moveCurrent child.prev m.current children)

def ops : IteratorOps (MergingIterator σ) E T where
  current := entry child
  seekToFirst m := smallest child key (m.children.map child.seekToFirst)
  seekToLast m := largest child key (m.children.map child.seekToLast)
  seek t m := smallest child key (m.children.map (child.seek t))
  next := next child key
  prev := prev child key

end MergingIterator

variable {child key}

variable (key) in
theorem takeSmaller_some (i : Nat) (e : E) (best : Option (Nat × E)) :
    ∃ next, takeSmaller key i (some e) best = some next ∧ (next = (i,e) ∨ best = some next) ∧
      (∀ held, best = some held → key next.2 ≤ key held.2) ∧ key next.2 ≤ key e := by
  cases best with
  | none => exact ⟨(i,e),rfl,.inl rfl,by simp,le_rfl⟩
  | some held =>
    by_cases less : key e < key held.2
    · exact ⟨(i,e),by simp [takeSmaller,less],.inl rfl,by simpa using le_of_lt less,le_rfl⟩
    · exact ⟨held,by simp [takeSmaller,less],.inr rfl,by simp,not_lt.mp less⟩

/-- `FindSmallest` finds a child whose key no other child is below. -/
theorem findSmallest_spec (child : IteratorOps σ E T) (key : E → T) (i : Nat) (best : Option (Nat × E)) (children : List σ) :
    match findSmallest child key i best children with
    | none => best = none ∧ ∀ c ∈ children, child.current c = none
    | some (j,b) => (best = some (j,b) ∨ ∃ k, j = i + k ∧ (children[k]?).bind child.current = some b) ∧
        (∀ held, best = some held → key b ≤ key held.2) ∧
        ∀ c ∈ children, ∀ e, child.current c = some e → key b ≤ key e := by
  induction children generalizing i best with
  | nil =>
    rw [findSmallest]
    cases best with
    | none => simp
    | some best => simp
  | cons c children ih =>
    rw [findSmallest]
    have shift : ∀ (j : Nat) (b : E), (∃ k, j = i + 1 + k ∧ (children[k]?).bind child.current = some b) →
        ∃ k, j = i + k ∧ ((c :: children)[k]?).bind child.current = some b := by
      rintro j b ⟨k,rfl,at_⟩
      exact ⟨k + 1,by omega,by simpa using at_⟩
    cases here : child.current c with
    | none =>
      rw [takeSmaller]
      have rest := ih (i + 1) best
      cases found : findSmallest child key (i + 1) best children with
      | none =>
        simp only [found] at rest ⊢
        exact ⟨rest.1,by simpa [here] using rest.2⟩
      | some result =>
        simp only [found] at rest ⊢
        refine ⟨rest.1.imp_right (shift _ _),rest.2.1,?_⟩
        intro d member e current
        rcases List.mem_cons.mp member with rfl | later
        · cases here.symm.trans current
        · exact rest.2.2 d later e current
    | some e =>
      obtain ⟨next,step,fromHere,notWorse,notWorseHere⟩ := takeSmaller_some key i e best
      rw [step]
      have rest := ih (i + 1) (some next)
      cases found : findSmallest child key (i + 1) (some next) children with
      | none =>
        simp only [found] at rest
        cases rest.1
      | some result =>
        simp only [found] at rest ⊢
        obtain ⟨source,below,least⟩ := rest
        have better := below next rfl
        refine ⟨?_,fun held was => le_trans better (notWorse held was),?_⟩
        · rcases source with same | later
          · obtain rfl := Option.some.inj same
            rcases fromHere with isHere | was
            · obtain ⟨index,entry⟩ := Prod.mk.inj isHere
              exact .inr ⟨0,index,by simpa [entry] using here⟩
            · exact .inl was
          · exact .inr (shift _ _ later)
        · intro d member a current
          rcases List.mem_cons.mp member with rfl | later
          · obtain rfl := Option.some.inj (here.symm.trans current)
            exact le_trans better notWorseHere
          · exact least d later a current

theorem modify_append (left right : List σ) (c : σ) (f : σ → σ) :
    (left ++ c :: right).modify left.length f = left ++ f c :: right := by
  induction left with
  | nil => rfl
  | cons a left ih => simpa using ih

theorem forall₂_getElem {α β : Type} {R : α → β → Prop} {xs : List α} {ys : List β}
    (related : List.Forall₂ R xs ys) {k : Nat} {x : α} (at_ : xs[k]? = some x) :
    ∃ left right y left' right', xs = left ++ x :: right ∧ ys = left' ++ y :: right' ∧ left.length = k ∧
      List.Forall₂ R left left' ∧ R x y ∧ List.Forall₂ R right right' := by
  induction related generalizing k with
  | nil => simp at at_
  | @cons a b xs ys head tail ih =>
    cases k with
    | zero =>
      obtain rfl := Option.some.inj at_
      exact ⟨[],xs,b,[],ys,rfl,rfl,rfl,.nil,head,tail⟩
    | succ k =>
      obtain ⟨left,right,y,left',right',rfl,rfl,length,before,here,after⟩ := ih (by simpa using at_)
      exact ⟨a :: left,right,y,b :: left',right',rfl,rfl,by simp [length],.cons head before,here,after⟩

/-- The merging iterator delivers what its children have still to deliver, in order. -/
theorem smallest_delivers (items : List E) (children : List σ) (rests : List (List E))
    (delivers : List.Forall₂ (Delivers child) children rests)
    (sorted : ∀ rest ∈ rests, rest.Pairwise fun a b => key a < key b)
    (ordered : items.Pairwise fun a b => key a < key b) (same : items.Perm rests.flatten) :
    Delivers (MergingIterator.ops child key) (MergingIterator.smallest child key children) items := by
  induction items generalizing children rests with
  | nil =>
    have nothing : findSmallest child key 0 none children = none := by
      have spec := findSmallest_spec child key 0 none children
      cases found : findSmallest child key 0 none children with
      | none => rfl
      | some result =>
        simp only [found,reduceCtorEq,false_or] at spec
        obtain ⟨⟨k,-,at_⟩,-⟩ := spec
        obtain ⟨c,here,current⟩ := Option.bind_eq_some_iff.mp at_
        obtain ⟨-,-,rest,left,right,-,rfl,-,-,from_,-⟩ := forall₂_getElem delivers here
        have empty : rest = [] := by
          have all := List.Perm.nil_eq same
          simp at all
          exact all.2.1
        subst empty
        cases from_.symm.trans current
    show (MergingIterator.smallest child key children).entry child = none
    simp [MergingIterator.entry,MergingIterator.smallest,nothing]
  | cons e items ih =>
    obtain ⟨least,later⟩ := List.pairwise_cons.mp ordered
    have unique : ∀ a ∈ rests.flatten, key a ≤ key e → a = e := by
      intro a member le
      rcases List.mem_cons.mp (same.mem_iff.mpr member) with rfl | after
      · rfl
      · exact absurd (least a after) (not_lt.mpr le)
    -- the child that has `e` is at it
    have spec := findSmallest_spec child key 0 none children
    obtain ⟨c,hc,current⟩ : ∃ c ∈ children, child.current c = some e := by
      obtain ⟨rest,hr,he⟩ := List.mem_flatten.mp (same.mem_iff.mp List.mem_cons_self)
      obtain ⟨k,at_⟩ := List.mem_iff_getElem?.mp hr
      obtain ⟨left,right,c,left',right',rfl,rfl,-,-,from_,-⟩ := forall₂_getElem delivers.flip at_
      refine ⟨c,by simp,?_⟩
      have from_ : Delivers child c rest := from_
      cases rest with
      | nil => cases he
      | cons a rest =>
        have le : key a ≤ key e := by
          rcases List.mem_cons.mp he with rfl | after
          · exact le_rfl
          · exact le_of_lt ((List.pairwise_cons.mp (sorted _ hr)).1 e after)
        rw [← unique a (by simp) le]
        exact from_.1
    cases found : findSmallest child key 0 none children with
    | none =>
      simp only [found] at spec
      cases (spec.2 c hc).symm.trans current
    | some result =>
      obtain ⟨j,b⟩ := result
      simp only [found,reduceCtorEq,false_or,false_implies,implies_true,true_and,Nat.zero_add] at spec
      obtain ⟨⟨k,rfl,at_⟩,below⟩ := spec
      obtain ⟨d,here,entry⟩ := Option.bind_eq_some_iff.mp at_
      obtain ⟨left,right,rest,left',right',rfl,rfl,length,before,from_,after⟩ := forall₂_getElem delivers here
      have head : rest.head? = some b := from_.current.symm.trans entry
      obtain ⟨tail,rfl⟩ := List.head?_eq_some_iff.mp head
      obtain rfl := unique b (by simp) (below c hc e current)
      refine ⟨?_,?_⟩
      · show (MergingIterator.smallest child key _).entry child = some b
        simp only [MergingIterator.entry,MergingIterator.smallest,found,Option.map_some,Option.bind_some]
        exact at_
      · show Delivers _ (MergingIterator.next child key _) items
        simp only [MergingIterator.next,MergingIterator.smallest,found,Option.map_some,if_true,
          MergingIterator.moveCurrent,← length,modify_append]
        refine ih _ (left' ++ tail :: right') (List.rel_append before (.cons from_.2 after)) ?_ later ?_
        · intro part member
          rcases List.mem_append.mp member with early | late
          · exact sorted part (List.mem_append_left _ early)
          · rcases List.mem_cons.mp late with rfl | late
            · exact (List.pairwise_cons.mp (sorted (b :: part) (by simp))).2
            · exact sorted part (by simp [late])
        · have moved : (b :: items).Perm (b :: (left' ++ tail :: right').flatten) := by
            refine same.trans ?_
            simp only [List.flatten_append,List.flatten_cons,List.cons_append]
            exact List.perm_middle
          exact moved.cons_inv

theorem dropWhile_eq_filter (items : List E) (sorted : items.Pairwise fun a b => key a < key b) (t : T) :
    (items.dropWhile fun e => decide (key e < t)) = items.filter fun e => !decide (key e < t) := by
  induction items with
  | nil => rfl
  | cons e items ih =>
    obtain ⟨below,rest⟩ := List.pairwise_cons.mp sorted
    by_cases less : key e < t
    · simp [less,ih rest]
    · have all : ∀ a ∈ items, !decide (key a < t) := by
        intro a member
        simpa using le_trans (not_lt.mp less) (le_of_lt (below a member))
      simp [less,List.filter_eq_self.mpr all]

/-- A merging iterator is over the sorted union of what its children are over. -/
structure MergingIterator.Over (key : E → T) (Child : σ → List E → Prop) (m : MergingIterator σ)
    (items : List E) : Prop where
  children : ∃ lists, List.Forall₂ Child m.children lists ∧
    (∀ list ∈ lists, list.Pairwise fun a b => key a < key b) ∧ items.Perm lists.flatten
  ordered : items.Pairwise fun a b => key a < key b

theorem merging_forward {Over : σ → List E → Prop} (forward : Forward child key Over) :
    Forward (MergingIterator.ops child key) key (MergingIterator.Over key Over) := by
  constructor
  · rintro m items ⟨⟨lists,spent,sorted,same⟩,ordered⟩
    have delivers : List.Forall₂ (Delivers child) (m.children.map child.seekToFirst) lists := by
      rw [List.forall₂_map_left_iff]
      exact spent.imp fun s list is => forward.first s list is
    exact smallest_delivers items _ lists delivers sorted ordered same
  · rintro m items t ⟨⟨lists,spent,sorted,same⟩,ordered⟩
    have delivers : List.Forall₂ (Delivers child) (m.children.map (child.seek t))
        (lists.map fun list => list.dropWhile fun e => decide (key e < t)) := by
      rw [List.forall₂_map_left_iff,List.forall₂_map_right_iff]
      exact spent.imp fun s list is => forward.seek s list t is
    refine smallest_delivers _ _ _ delivers ?_ ?_ ?_
    · intro rest member
      obtain ⟨list,hl,rfl⟩ := List.mem_map.mp member
      exact (sorted list hl).sublist (List.dropWhile_sublist _)
    · exact ordered.sublist (List.dropWhile_sublist _)
    · have parts : (lists.map fun list => list.dropWhile fun e => decide (key e < t)) =
          lists.map fun list => list.filter fun e => !decide (key e < t) :=
        List.map_congr_left fun list hl => dropWhile_eq_filter list (sorted list hl) t
      rw [parts,dropWhile_eq_filter items ordered,← List.filter_flatten]
      exact same.filter _

end Merging

/-- `TwoLevelIterator`: the index, and the data iterator with the handle it was made for.
The loops that skip empty blocks make at most `blocks` passes over the index. -/
structure TwoLevelIterator (ι H δ : Type) where
  index : ι
  data : Option (H × δ)
  blocks : Nat

section TwoLevel
variable {ι H δ E T : Type} [LinearOrder T] [DecidableEq H] (index : IteratorOps ι H T)
  (data : IteratorOps δ E T) (block : H → δ)

namespace TwoLevelIterator

def initDataBlock (s : TwoLevelIterator ι H δ) : TwoLevelIterator ι H δ :=
  match index.current s.index with
  | none => { s with data := none }
  | some h =>
    if s.data.any fun held => decide (held.1 = h) then s else { s with data := some (h,block h) }

def mapData (move : δ → δ) (s : TwoLevelIterator ι H δ) : TwoLevelIterator ι H δ :=
  { s with data := s.data.map fun held => (held.1,move held.2) }

def entry (s : TwoLevelIterator ι H δ) : Option E := s.data.bind fun held => data.current held.2

/-- `SkipEmptyDataBlocksForward`. -/
def skipForward : Nat → TwoLevelIterator ι H δ → TwoLevelIterator ι H δ
  | 0, s => s
  | fuel + 1, s =>
    if (s.entry data).isSome then s
    else if (index.current s.index).isNone then { s with data := none }
    else skipForward fuel
      (({ s with index := index.next s.index }.initDataBlock index block).mapData data.seekToFirst)

/-- `SkipEmptyDataBlocksBackward`. -/
def skipBackward : Nat → TwoLevelIterator ι H δ → TwoLevelIterator ι H δ
  | 0, s => s
  | fuel + 1, s =>
    if (s.entry data).isSome then s
    else if (index.current s.index).isNone then { s with data := none }
    else skipBackward fuel
      (({ s with index := index.prev s.index }.initDataBlock index block).mapData data.seekToLast)

def forth (s : TwoLevelIterator ι H δ) : TwoLevelIterator ι H δ :=
  s.skipForward index data block (s.blocks + 2)

def back (s : TwoLevelIterator ι H δ) : TwoLevelIterator ι H δ :=
  s.skipBackward index data block (s.blocks + 2)

def ops : IteratorOps (TwoLevelIterator ι H δ) E T where
  current := entry data
  seekToFirst s := (({ s with index := index.seekToFirst s.index }.initDataBlock index block).mapData
    data.seekToFirst).forth index data block
  seekToLast s := (({ s with index := index.seekToLast s.index }.initDataBlock index block).mapData
    data.seekToLast).back index data block
  seek t s := (({ s with index := index.seek t s.index }.initDataBlock index block).mapData
    (data.seek t)).forth index data block
  next s := (s.mapData data.next).forth index data block
  prev s := (s.mapData data.prev).back index data block

end TwoLevelIterator

variable {index data block}

section Blocks
variable {contents : H → List E} {Over : δ → List E → Prop} (fresh : ∀ h, Over (block h) (contents h))
include fresh

omit [LinearOrder T] in
/-- With a handle at the index, the data iterator is on its block. -/
theorem initDataBlock_data {s : TwoLevelIterator ι H δ}
    (cached : ∀ held, s.data = some held → Over held.2 (contents held.1)) {h : H}
    (at_ : index.current s.index = some h) :
    ∃ d, s.initDataBlock index block = { s with data := some (h,d) } ∧ Over d (contents h) := by
  rw [TwoLevelIterator.initDataBlock,at_]
  cases held : s.data with
  | none => exact ⟨block h,by simp,fresh h⟩
  | some pair =>
    by_cases same : pair.1 = h
    · subst same
      refine ⟨pair.2,?_,cached pair held⟩
      obtain ⟨index,data,blocks⟩ := s
      simp_all
    · exact ⟨block h,by simp [same],fresh h⟩

variable {key : E → T} (forward : Forward data key Over)
  (stays : ∀ s items, Over s items → Over (data.seekToFirst s) items ∧ Over (data.next s) items)
include forward stays

/-- Block after block: the rest of the one at hand, then the blocks that follow. -/
theorem skipForward_delivers (handles : List H) (s : TwoLevelIterator ι H δ) (h held : H) (d : δ)
    (rest : List E) (fuel : Nat) (indexed : Delivers index s.index (h :: handles))
    (there : s.data = some (held,d)) (spent : Over d (contents held)) (delivers : Delivers data d rest)
    (room : handles.length ≤ s.blocks) (enough : handles.length + 2 ≤ fuel) :
    Delivers (TwoLevelIterator.ops index data block) (s.skipForward index data block fuel)
      (rest ++ handles.flatMap contents) := by
  induction handles generalizing s h held d rest fuel with
  | nil =>
    induction rest generalizing s d fuel with
    | nil =>
      obtain ⟨fuel,rfl⟩ : ∃ n, fuel = n + 2 := ⟨fuel - 2,by simp at enough; omega⟩
      have valid : index.current s.index = some h := indexed.1
      have over_ : index.current (index.next s.index) = none := indexed.2
      have invalid : data.current d = none := delivers
      show TwoLevelIterator.entry data _ = none
      simp [TwoLevelIterator.skipForward,TwoLevelIterator.entry,there,invalid,valid,over_,
        TwoLevelIterator.initDataBlock,TwoLevelIterator.mapData]
    | cons e rest ih =>
      obtain ⟨fuel,rfl⟩ : ∃ n, fuel = n + 1 := ⟨fuel - 1,by simp at enough; omega⟩
      have entry : s.entry data = some e := by
        rw [TwoLevelIterator.entry,there]
        exact delivers.1
      rw [TwoLevelIterator.skipForward,if_pos (by rw [entry]; rfl)]
      refine ⟨entry,?_⟩
      exact ih (s.mapData data.next) (data.next d) _ indexed (by simp [TwoLevelIterator.mapData,there])
        (stays _ _ spent).2 delivers.2 (Nat.zero_le _) (by simp)
  | cons next handles outer =>
    induction rest generalizing s d fuel with
    | nil =>
      obtain ⟨fuel,rfl⟩ : ∃ n, fuel = n + 1 := ⟨fuel - 1,by simp at enough; omega⟩
      have valid : index.current s.index = some h := indexed.1
      have invalid : s.entry data = none := by
        rw [TwoLevelIterator.entry,there]
        exact delivers
      obtain ⟨d',init,spent'⟩ := initDataBlock_data fresh
        (s := { s with index := index.next s.index })
        (by intro pair same; obtain rfl := Option.some.inj (there.symm.trans same); exact spent) indexed.2.1
      rw [TwoLevelIterator.skipForward,if_neg (by simp [invalid]),if_neg (by simp [valid]),init,
        List.nil_append,List.flatMap_cons]
      exact outer _ next next (data.seekToFirst d') _ fuel indexed.2
        (by simp [TwoLevelIterator.mapData]) (stays _ _ spent').1 (forward.first _ _ spent')
        (by simp [TwoLevelIterator.mapData] at room ⊢; omega) (by simp at enough; omega)
    | cons e rest ih =>
      obtain ⟨fuel,rfl⟩ : ∃ n, fuel = n + 1 := ⟨fuel - 1,by simp at enough; omega⟩
      have entry : s.entry data = some e := by
        rw [TwoLevelIterator.entry,there]
        exact delivers.1
      rw [TwoLevelIterator.skipForward,if_pos (by rw [entry]; rfl)]
      refine ⟨entry,?_⟩
      exact ih (s.mapData data.next) (data.next d) _ indexed (by simp [TwoLevelIterator.mapData,there])
        (stays _ _ spent).2 delivers.2 room (by simp [TwoLevelIterator.mapData] at room ⊢; omega)

end Blocks

end TwoLevel

end LevelDB
