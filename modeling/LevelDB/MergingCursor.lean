import LevelDB.Cursor

/-! The merging iterator as a cursor over the sorted union of its children's lists. In
forward direction every child is at its first entry that is not before the current one,
in reverse direction at its last that is not after it. -/
namespace LevelDB

section Lists
variable {E T : Type} [LinearOrder T] {key : E → T}

/-- The place of the last of the first `n` entries; the end if there is none. -/
def backPosition (length n : Nat) : Nat := if n = 0 then length else n - 1

/-- The entries that a downward closed predicate holds of are the first of a sorted list. -/
theorem prefix_iff {p : E → Bool} (down : ∀ a b, key a ≤ key b → p b = true → p a = true) {list : List E}
    (sorted : list.Pairwise fun a b => key a < key b) {i : Nat} {e : E} (here : list[i]? = some e) :
    p e = true ↔ i < list.countP p := by
  induction list generalizing i with
  | nil => cases here
  | cons a list ih =>
    obtain ⟨below,rest⟩ := List.pairwise_cons.mp sorted
    by_cases first : p a = true
    · rw [List.countP_cons_of_pos first]
      cases i with
      | zero =>
        obtain rfl := Option.some.inj here
        simp [first]
      | succ i =>
        rw [ih rest here]
        omega
    · have none : list.countP p = 0 := by
        rw [List.countP_eq_zero]
        intro b member hit
        exact first (down a b (le_of_lt (below b member)) hit)
      have not : p e ≠ true := by
        intro hit
        rcases List.mem_cons.mp (List.mem_of_getElem? here) with rfl | later
        · exact first hit
        · exact first (down a e (le_of_lt (below e later)) hit)
      rw [List.countP_cons_of_neg first,none]
      simp [not]

theorem down_lt (t : T) : ∀ a b : E, key a ≤ key b → decide (key b < t) = true → decide (key a < t) = true := by
  simpa using fun a b le lt => lt_of_le_of_lt le lt

theorem down_le (t : T) : ∀ a b : E, key a ≤ key b → decide (key b ≤ t) = true → decide (key a ≤ t) = true := by
  simpa using fun a b le le' => le_trans le le'

/-- An entry stands behind those that are smaller. -/
theorem getElem_countP {list : List E} (sorted : list.Pairwise fun a b => key a < key b) {e : E} (member : e ∈ list) :
    list[list.countP fun a => decide (key a < key e)]? = some e := by
  induction list with
  | nil => cases member
  | cons a list ih =>
    obtain ⟨below,rest⟩ := List.pairwise_cons.mp sorted
    rcases List.mem_cons.mp member with rfl | later
    · have none : list.countP (fun b => decide (key b < key e)) = 0 := by
        rw [List.countP_eq_zero]
        simpa using fun b hb => le_of_lt (below b hb)
      rw [List.countP_cons_of_neg (by simp),none]
      rfl
    · rw [List.countP_cons_of_pos (by simpa using below e later),List.getElem?_cons_succ]
      exact ih rest later

theorem countP_le_of_mem {list : List E} (sorted : list.Pairwise fun a b => key a < key b) {e : E} (member : e ∈ list) :
    (list.countP fun a => decide (key a ≤ key e)) = (list.countP fun a => decide (key a < key e)) + 1 := by
  induction list with
  | nil => cases member
  | cons a list ih =>
    obtain ⟨below,rest⟩ := List.pairwise_cons.mp sorted
    rcases List.mem_cons.mp member with rfl | later
    · have none : ∀ b ∈ list, ¬key b ≤ key e := fun b hb => not_le.mpr (below b hb)
      rw [List.countP_cons_of_pos (by simp),List.countP_cons_of_neg (by simp),
        List.countP_eq_zero.mpr (by simpa using none),
        List.countP_eq_zero.mpr (by simpa using fun b hb => le_of_lt (below b hb))]
    · have less := below e later
      rw [List.countP_cons_of_pos (by simpa using le_of_lt less),List.countP_cons_of_pos (by simpa using less),ih rest later]

theorem countP_le_of_ne {list : List E} {e : E} (ne : ∀ a ∈ list, key a ≠ key e) :
    (list.countP fun a => decide (key a ≤ key e)) = list.countP fun a => decide (key a < key e) := by
  refine List.countP_congr fun a member => ?_
  simpa using ⟨fun le => lt_of_le_of_ne le (ne a member),le_of_lt⟩

/-- A seek skips the entries that are smaller. -/
theorem findIdx_eq_countP {list : List E} (sorted : list.Pairwise fun a b => key a < key b) (t : T) :
    (list.findIdx fun e => !decide (key e < t)) = list.countP fun e => decide (key e < t) := by
  apply findIdx_eq List.countP_le_length
  · intro e member
    obtain ⟨i,here⟩ := List.mem_iff_getElem?.mp member
    obtain ⟨inside,same⟩ := List.getElem?_eq_some_iff.mp here
    have less : i < list.countP fun e => decide (key e < t) := by
      rw [List.length_take] at inside
      omega
    rw [List.getElem?_take_of_lt less] at here
    simpa using (prefix_iff (down_lt t) sorted here).mpr less
  · intro e here less
    exact lt_irrefl _ ((prefix_iff (down_lt t) sorted here).mp (by simpa using less))

/-- Before the entries that `p` does not hold of comes the last one it holds of. -/
theorem getElem_backPosition {p : E → Bool} (down : ∀ a b, key a ≤ key b → p b = true → p a = true) {list : List E}
    (sorted : list.Pairwise fun a b => key a < key b) :
    (list[backPosition list.length (list.countP p)]? = none ∧ ∀ a ∈ list, p a ≠ true) ∨
    ∃ e, list[backPosition list.length (list.countP p)]? = some e ∧ p e = true ∧ ∀ a ∈ list, p a = true → key a ≤ key e := by
  have most := List.countP_le_length (p := p) (l := list)
  by_cases none : list.countP p = 0
  · left
    rw [backPosition,if_pos none]
    exact ⟨List.getElem?_eq_none le_rfl,List.countP_eq_zero.mp none⟩
  · right
    rw [backPosition,if_neg none]
    have inside : list.countP p - 1 < list.length := by omega
    have here := List.getElem?_eq_getElem inside
    refine ⟨_,here,(prefix_iff down sorted here).mpr (by omega),?_⟩
    intro a member hit
    obtain ⟨i,there⟩ := List.mem_iff_getElem?.mp member
    have before := (prefix_iff down sorted there).mp hit
    obtain ⟨hi,rfl⟩ := List.getElem?_eq_some_iff.mp there
    rcases Nat.eq_or_lt_of_le (Nat.le_sub_one_of_lt before) with equal | less
    · exact le_of_eq (by simp only [equal])
    · exact le_of_lt (List.pairwise_iff_getElem.mp sorted _ _ hi inside less)

end Lists

/-- The children stand at these places of their lists. -/
def Stand {σ E : Type} (Spot : List E → σ → Nat → Prop) (place : List E → Nat) (children : List σ) (lists : List (List E)) :
    Prop :=
  List.Forall₂ (fun c list => Spot list c (place list)) children lists

theorem forall₂_mapIdx {α β γ : Type} {R : α → β → Prop} {S : γ → β → Prop} {xs : List α} {ys : List β} (f : Nat → α → γ)
    (related : List.Forall₂ R xs ys)
    (step : ∀ i x y, xs[i]? = some x → ys[i]? = some y → R x y → S (f i x) y) : List.Forall₂ S (xs.mapIdx f) ys := by
  induction related generalizing f with
  | nil => exact .nil
  | cons head tail ih =>
    rw [List.mapIdx_cons]
    refine .cons (step 0 _ _ rfl rfl head) (ih (fun i => f (i + 1)) ?_)
    exact fun i x y hx hy => step (i + 1) x y hx hy

theorem forall₂_modify {α β : Type} {R S : α → β → Prop} {xs : List α} {ys : List β} {k : Nat} {f : α → α}
    (related : List.Forall₂ R xs ys) (moved : ∀ x y, ys[k]? = some y → R x y → S (f x) y)
    (others : ∀ i x y, i ≠ k → ys[i]? = some y → R x y → S x y) : List.Forall₂ S (xs.modify k f) ys := by
  induction related generalizing k with
  | nil => simp
  | @cons a b xs ys head tail ih =>
    cases k with
    | zero =>
      refine .cons (moved a b rfl head) ?_
      refine List.forall₂_iff_get.mpr ⟨tail.length_eq,fun i hx hy => ?_⟩
      exact others (i + 1) _ _ (Nat.succ_ne_zero i) (by simp [hy]) (tail.get hx hy)
    | succ k =>
      refine .cons (others 0 a b (Nat.succ_ne_zero k).symm rfl head) (ih ?_ ?_)
      · exact fun x y here => moved x y here
      · exact fun i x y ne here => others (i + 1) x y (by simpa using ne) here

section Merging
variable {σ E T : Type} [LinearOrder T] {child : IteratorOps σ E T} {key : E → T}

/-- `FindLargest` finds a child whose key no other child is above. -/
theorem findLargest_spec (child : IteratorOps σ E T) (key : E → T) (i : Nat) (children : List σ) :
    (findLargest child key i children = none ∧ ∀ c ∈ children, child.current c = none) ∨
    ∃ k b, findLargest child key i children = some (i + k,b) ∧ (children[k]?).bind child.current = some b ∧
      ∀ c ∈ children, ∀ e, child.current c = some e → key e ≤ key b := by
  induction children generalizing i with
  | nil => exact .inl ⟨rfl,by simp⟩
  | cons c children ih =>
    rw [findLargest]
    cases here : child.current c with
    | none =>
      rcases ih (i + 1) with ⟨found,invalid⟩ | ⟨k,b,found,at_,above⟩
      · exact .inl ⟨found,by simpa [here] using invalid⟩
      · refine .inr ⟨k + 1,b,by rw [found]; simp; omega,by simpa using at_,?_⟩
        simpa [here] using above
    | some e =>
      right
      rcases ih (i + 1) with ⟨found,invalid⟩ | ⟨k,b,found,at_,above⟩
      · refine ⟨0,e,by simp [found],by simpa using here,?_⟩
        intro d member a shows
        rcases List.mem_cons.mp member with rfl | later
        · rw [Option.some.inj (here.symm.trans shows)]
        · cases (invalid d later).symm.trans shows
      · by_cases larger : key b < key e
        · refine ⟨0,e,by simp [found,larger],by simpa using here,?_⟩
          intro d member a shows
          rcases List.mem_cons.mp member with rfl | later
          · rw [Option.some.inj (here.symm.trans shows)]
          · exact (above d later a shows).trans larger.le
        · refine ⟨k + 1,b,by simp [found,larger]; omega,by simpa using at_,?_⟩
          intro d member a shows
          rcases List.mem_cons.mp member with rfl | later
          · rw [← Option.some.inj (here.symm.trans shows)]
            exact not_lt.mp larger
          · exact above d later a shows

/-- The children are cursors over sorted lists without a common key, and `items` are
their union. -/
structure MergingIterator.Fits (child : IteratorOps σ E T) (key : E → T) (Spot : List E → σ → Nat → Prop)
    (lists : List (List E)) (items : List E) : Prop where
  cursors : ∀ list ∈ lists, IsCursor child key list (Spot list)
  sorted : ∀ list ∈ lists, list.Pairwise fun a b => key a < key b
  apart : lists.Pairwise fun one two => ∀ a ∈ one, ∀ b ∈ two, key a ≠ key b
  ordered : items.Pairwise fun a b => key a < key b
  union : items.Perm lists.flatten

/-- Where the merging iterator stands. -/
inductive MergingIterator.At (child : IteratorOps σ E T) (key : E → T) (Spot : List E → σ → Nat → Prop)
    (lists : List (List E)) (items : List E) : MergingIterator σ → Nat → Prop
  | forth {children : List σ} {k : Nat} {e : E} (member : e ∈ items)
      (shows : (children[k]?).bind child.current = some e)
      (stand : Stand Spot (fun list => list.countP fun a => decide (key a < key e)) children lists) :
      At child key Spot lists items ⟨children,some k,true⟩ (items.countP fun a => decide (key a < key e))
  | back {children : List σ} {k : Nat} {e : E} (member : e ∈ items)
      (shows : (children[k]?).bind child.current = some e)
      (stand : Stand Spot (fun list => backPosition list.length (list.countP fun a => decide (key a ≤ key e))) children lists) :
      At child key Spot lists items ⟨children,some k,false⟩ (items.countP fun a => decide (key a < key e))
  | spent {children : List σ} {forward : Bool}
      (somewhere : List.Forall₂ (fun c list => ∃ i, Spot list c i) children lists) :
      At child key Spot lists items ⟨children,none,forward⟩ items.length

namespace MergingIterator
variable {Spot : List E → σ → Nat → Prop} {lists : List (List E)} {items : List E}

theorem Fits.mem (fits : Fits child key Spot lists items) {e : E} :
    e ∈ items ↔ ∃ list ∈ lists, e ∈ list := by
  rw [fits.union.mem_iff,List.mem_flatten]

/-- What the child of a list shows. -/
theorem Fits.current_of_stand (fits : Fits child key Spot lists items) {place : List E → Nat} {children : List σ}
    (stand : Stand Spot place children lists) {list : List E} (member : list ∈ lists) :
    ∃ c ∈ children, child.current c = list[place list]? := by
  obtain ⟨k,there⟩ := List.mem_iff_getElem?.mp member
  obtain ⟨left,right,c,left',right',rfl,rfl,-,-,stands,-⟩ := forall₂_getElem stand.flip there
  exact ⟨c,by simp,(fits.cursors list member).current stands⟩

theorem Fits.current_child (fits : Fits child key Spot lists items) {place : List E → Nat} {children : List σ}
    (stand : Stand Spot place children lists) {c : σ} (member : c ∈ children) :
    ∃ list ∈ lists, child.current c = list[place list]? := by
  obtain ⟨k,there⟩ := List.mem_iff_getElem?.mp member
  obtain ⟨left,right,list,left',right',rfl,rfl,-,-,stands,-⟩ := forall₂_getElem stand there
  have inside : list ∈ left' ++ list :: right' := by simp
  exact ⟨list,inside,(fits.cursors list inside).current stands⟩

theorem Stand.somewhere {place : List E → Nat} {children : List σ} (stand : Stand Spot place children lists) :
    List.Forall₂ (fun c list => ∃ i, Spot list c i) children lists :=
  stand.imp fun _ list stands => ⟨place list,stands⟩

theorem Stand.congr {place place' : List E → Nat} {children : List σ} (stand : Stand Spot place children lists)
    (same : ∀ list ∈ lists, place list = place' list) : Stand Spot place' children lists := by
  induction stand with
  | nil => exact .nil
  | cons head tail ih =>
    refine .cons ?_ (ih fun list member => same list (List.mem_cons_of_mem _ member))
    rw [← same _ List.mem_cons_self]
    exact head

/-- With every child at its first entry not in `p`, `FindSmallest` ends at the first such
entry of all. -/
theorem smallest_at (fits : Fits child key Spot lists items) {p : E → Bool}
    (down : ∀ a b, key a ≤ key b → p b = true → p a = true) {children : List σ}
    (stand : Stand Spot (fun list => list.countP p) children lists) :
    MergingIterator.At child key Spot lists items (smallest child key children) (items.countP p) := by
  have spec := findSmallest_spec child key 0 none children
  rw [smallest]
  cases found : findSmallest child key 0 none children with
  | none =>
    simp only [found,true_and] at spec
    have all : ∀ e ∈ items, p e = true := by
      intro e member
      obtain ⟨list,hl,he⟩ := fits.mem.mp member
      obtain ⟨c,hc,shows⟩ := fits.current_of_stand stand hl
      rw [spec c hc] at shows
      obtain ⟨i,here⟩ := List.mem_iff_getElem?.mp he
      have past := List.getElem?_eq_none_iff.mp shows.symm
      exact (prefix_iff down (fits.sorted list hl) here).mpr
        (lt_of_lt_of_le (List.getElem?_eq_some_iff.mp here).1 past)
    rw [List.countP_eq_length.mpr all]
    exact .spent (Stand.somewhere stand)
  | some best =>
    obtain ⟨place,b⟩ := best
    simp only [found,reduceCtorEq,false_or,false_implies,implies_true,true_and,Nat.zero_add] at spec
    obtain ⟨⟨k,rfl,shows⟩,least⟩ := spec
    obtain ⟨c,here,current⟩ := Option.bind_eq_some_iff.mp shows
    obtain ⟨list,hl,at_⟩ := fits.current_child stand (List.mem_of_getElem? here)
    rw [current] at at_
    have outside : p b ≠ true := by
      rw [Ne,prefix_iff down (fits.sorted list hl) at_.symm]
      exact lt_irrefl _
    -- of all entries not in `p` the one found is the smallest
    have same : ∀ a ∈ items, p a = decide (key a < key b) := by
      intro a member
      rw [Bool.eq_iff_iff,decide_eq_true_eq]
      constructor
      · intro hit
        by_contra not
        exact outside (down b a (not_lt.mp not) hit)
      · intro less
        by_contra not
        obtain ⟨other,ho,ha⟩ := fits.mem.mp member
        obtain ⟨d,hd,shown⟩ := fits.current_of_stand stand ho
        obtain ⟨i,there⟩ := List.mem_iff_getElem?.mp ha
        have above := not_lt.mp ((prefix_iff down (fits.sorted other ho) there).not.mp not)
        obtain ⟨e,first⟩ : ∃ e, other[other.countP p]? = some e :=
          ⟨_,List.getElem?_eq_getElem (lt_of_le_of_lt above (List.getElem?_eq_some_iff.mp there).1)⟩
        have le : key e ≤ key a := by
          obtain ⟨hi,rfl⟩ := List.getElem?_eq_some_iff.mp there
          obtain ⟨hj,rfl⟩ := List.getElem?_eq_some_iff.mp first
          rcases Nat.eq_or_lt_of_le above with equal | lt
          · exact le_of_eq (by simp only [equal])
          · exact le_of_lt (List.pairwise_iff_getElem.mp (fits.sorted other ho) _ i hj hi lt)
        exact absurd (lt_of_lt_of_le less (least d hd e (shown.trans first))) (not_lt_of_ge le)
    have inItems : b ∈ items := fits.mem.mpr ⟨list,hl,List.mem_of_getElem? at_.symm⟩
    rw [List.countP_congr fun a ha => by rw [same a ha]]
    refine .forth inItems shows (Stand.congr stand fun list hl => ?_)
    exact List.countP_congr fun a ha => by rw [same a (fits.mem.mpr ⟨list,hl,ha⟩)]

/-- With every child at its last entry in `p`, `FindLargest` ends at the last such entry of
all. -/
theorem largest_at (fits : Fits child key Spot lists items) {p : E → Bool}
    (down : ∀ a b, key a ≤ key b → p b = true → p a = true) {children : List σ}
    (stand : Stand Spot (fun list => backPosition list.length (list.countP p)) children lists) :
    MergingIterator.At child key Spot lists items (largest child key children)
      (backPosition items.length (items.countP p)) := by
  rw [largest]
  rcases findLargest_spec child key 0 children with ⟨found,invalid⟩ | ⟨k,b,found,shows,above⟩
  · have none : ∀ e ∈ items, p e ≠ true := by
      intro e member
      obtain ⟨list,hl,he⟩ := fits.mem.mp member
      obtain ⟨c,hc,shows⟩ := fits.current_of_stand stand hl
      rw [invalid c hc] at shows
      rcases getElem_backPosition down (fits.sorted list hl) with ⟨-,outside⟩ | ⟨a,here,-⟩
      · exact outside e he
      · cases shows.trans here
    rw [found,List.countP_eq_zero.mpr none,backPosition,if_pos rfl]
    exact .spent (Stand.somewhere stand)
  · rw [Nat.zero_add] at found
    obtain ⟨c,here,current⟩ := Option.bind_eq_some_iff.mp shows
    obtain ⟨list,hl,at_⟩ := fits.current_child stand (List.mem_of_getElem? here)
    have at_ := at_.symm.trans current
    have inItems : b ∈ items := fits.mem.mpr ⟨list,hl,List.mem_of_getElem? at_⟩
    have inside : p b = true := by
      rcases getElem_backPosition down (fits.sorted list hl) with ⟨nothing,-⟩ | ⟨e,there,hit,-⟩
      · cases nothing.symm.trans at_
      · obtain rfl := Option.some.inj (there.symm.trans at_)
        exact hit
    -- of all entries in `p` the one found is the largest
    have same : ∀ a ∈ items, p a = decide (key a ≤ key b) := by
      intro a member
      rw [Bool.eq_iff_iff,decide_eq_true_eq]
      constructor
      · intro hit
        obtain ⟨other,ho,ha⟩ := fits.mem.mp member
        obtain ⟨d,hd,shown⟩ := fits.current_of_stand stand ho
        rcases getElem_backPosition down (fits.sorted other ho) with ⟨-,outside⟩ | ⟨e,there,-,most⟩
        · exact absurd hit (outside a ha)
        · exact (most a ha hit).trans (above d hd e (shown.trans there))
      · intro le
        exact down a b le inside
    have back : backPosition items.length (items.countP p) = items.countP fun a => decide (key a < key b) := by
      rw [List.countP_congr fun a ha => by rw [same a ha],countP_le_of_mem fits.ordered inItems]
      rfl
    rw [found,back]
    refine .back inItems shows (Stand.congr stand fun list hl => ?_)
    rw [List.countP_congr fun a ha => by rw [same a (fits.mem.mpr ⟨list,hl,ha⟩)]]

/-- The list of the child that shows an entry is the only one with its key. -/
theorem Fits.own (fits : Fits child key Spot lists items) {place : List E → Nat} {children : List σ}
    (stand : Stand Spot place children lists) {k : Nat} {e : E} (shows : (children[k]?).bind child.current = some e) :
    (∀ list, lists[k]? = some list → e ∈ list) ∧
      ∀ i list, i ≠ k → lists[i]? = some list → ∀ a ∈ list, key a ≠ key e := by
  obtain ⟨c,here,current⟩ := Option.bind_eq_some_iff.mp shows
  obtain ⟨left,right,list,left',right',rfl,rfl,length,before,stands,-⟩ := forall₂_getElem stand here
  have own : (left' ++ list :: right')[k]? = some list := by
    rw [← length,before.length_eq]
    simp
  have member : e ∈ list := by
    rw [(fits.cursors list (by simp)).current stands] at current
    exact List.mem_of_getElem? current
  constructor
  · intro list' there
    obtain rfl := Option.some.inj (own.symm.trans there)
    exact member
  · intro i other ne there a ha same
    obtain ⟨hk,atK⟩ := List.getElem?_eq_some_iff.mp own
    obtain ⟨hi,atI⟩ := List.getElem?_eq_some_iff.mp there
    rcases lt_or_gt_of_ne ne with less | greater
    · exact List.pairwise_iff_getElem.mp fits.apart i k hi hk less a (by rw [atI]; exact ha) e (by rw [atK]; exact member) same
    · exact List.pairwise_iff_getElem.mp fits.apart k i hk hi greater e (by rw [atK]; exact member) a
        (by rw [atI]; exact ha) same.symm

theorem putAfter_at {list : List E} (cursor : IsCursor child key list (Spot list)) (sorted : list.Pairwise fun a b => key a < key b)
    {e : E} (ne : ∀ a ∈ list, key a ≠ key e) {c : σ} {i : Nat} (stands : Spot list c i) :
    Spot list (putAfter child key e c) (list.countP fun a => decide (key a < key e)) := by
  have sought := cursor.seek (key e) stands
  rw [findIdx_eq_countP sorted] at sought
  have other : ((child.current (child.seek (key e) c)).any fun at_ => decide (key at_ = key e)) = false := by
    rw [cursor.current sought,Option.any_eq_false]
    intro a here
    simpa using ne a (List.mem_of_getElem? here)
  simpa only [putAfter,other,Bool.false_eq_true,if_false] using sought

theorem putBefore_at {list : List E} (cursor : IsCursor child key list (Spot list)) (sorted : list.Pairwise fun a b => key a < key b)
    {e : E} {c : σ} {i : Nat} (stands : Spot list c i) :
    Spot list (putBefore child key e c) (backPosition list.length (list.countP fun a => decide (key a < key e))) := by
  have sought := cursor.seek (key e) stands
  rw [findIdx_eq_countP sorted] at sought
  rw [putBefore,cursor.current sought]
  by_cases inside : (list.countP fun a => decide (key a < key e)) < list.length
  · rw [if_pos (by simpa using inside)]
    exact cursor.prev sought inside
  · rw [if_neg (by simpa using inside)]
    have all := le_antisymm List.countP_le_length (not_lt.mp inside)
    have last : backPosition list.length list.length = list.length - 1 := by
      rw [backPosition]
      split <;> omega
    rw [all,last]
    exact cursor.last sought

theorem Fits.inside (fits : Fits child key Spot lists items) {i : Nat} {list : List E} (there : lists[i]? = some list) :
    list ∈ lists ∧ IsCursor child key list (Spot list) ∧ list.Pairwise fun a b => key a < key b :=
  have member := List.mem_of_getElem? there
  ⟨member,fits.cursors list member,fits.sorted list member⟩

/-- After a turn from reverse to forward the children stand where they would in forward
direction. -/
theorem turn_forth (fits : Fits child key Spot lists items) {children : List σ} {k : Nat} {e : E}
    (shows : (children[k]?).bind child.current = some e)
    (stand : Stand Spot (fun list => backPosition list.length (list.countP fun a => decide (key a ≤ key e))) children lists) :
    Stand Spot (fun list => list.countP fun a => decide (key a < key e))
      (MergingIterator.turn child ⟨children,some k,false⟩ (putAfter child key)) lists := by
  obtain ⟨own,others⟩ := fits.own stand shows
  simp only [turn,entry,Option.bind_some,shows]
  refine forall₂_mapIdx _ stand fun i c list _ there stands => ?_
  beta_reduce at stands ⊢
  obtain ⟨-,cursor,sorted⟩ := fits.inside there
  by_cases here : k = i
  · subst here
    rw [if_pos rfl]
    rw [countP_le_of_mem sorted (own list there)] at stands
    exact stands
  · rw [if_neg (by simpa using here)]
    exact putAfter_at cursor sorted (others i list (Ne.symm here) there) stands

theorem turn_back (fits : Fits child key Spot lists items) {children : List σ} {k : Nat} {e : E}
    (shows : (children[k]?).bind child.current = some e)
    (stand : Stand Spot (fun list => list.countP fun a => decide (key a < key e)) children lists) :
    Stand Spot (fun list => backPosition list.length (list.countP fun a => decide (key a ≤ key e)))
      (MergingIterator.turn child ⟨children,some k,true⟩ (putBefore child key)) lists := by
  obtain ⟨own,others⟩ := fits.own stand shows
  simp only [turn,entry,Option.bind_some,shows]
  refine forall₂_mapIdx _ stand fun i c list _ there stands => ?_
  beta_reduce at stands ⊢
  obtain ⟨-,cursor,sorted⟩ := fits.inside there
  by_cases here : k = i
  · subst here
    rw [if_pos rfl,countP_le_of_mem sorted (own list there)]
    exact stands
  · rw [if_neg (by simpa using here),countP_le_of_ne (others i list (Ne.symm here) there)]
    exact putBefore_at cursor sorted stands

/-- Once the current child has gone on, every child is at its first entry after the current
one. -/
theorem advance (fits : Fits child key Spot lists items) {children : List σ} {k : Nat} {e : E}
    (own : ∀ list, lists[k]? = some list → e ∈ list)
    (others : ∀ i list, i ≠ k → lists[i]? = some list → ∀ a ∈ list, key a ≠ key e)
    (stand : Stand Spot (fun list => list.countP fun a => decide (key a < key e)) children lists) :
    Stand Spot (fun list => list.countP fun a => decide (key a ≤ key e)) (children.modify k child.next) lists := by
  refine forall₂_modify stand ?_ ?_
  · intro c list there stands
    beta_reduce at stands ⊢
    obtain ⟨-,cursor,sorted⟩ := fits.inside there
    rw [countP_le_of_mem sorted (own list there)]
    exact cursor.next stands (List.getElem?_eq_some_iff.mp (getElem_countP sorted (own list there))).1
  · intro i c list ne there stands
    beta_reduce at stands ⊢
    rw [countP_le_of_ne (others i list ne there)]
    exact stands

theorem retreat (fits : Fits child key Spot lists items) {children : List σ} {k : Nat} {e : E}
    (own : ∀ list, lists[k]? = some list → e ∈ list)
    (others : ∀ i list, i ≠ k → lists[i]? = some list → ∀ a ∈ list, key a ≠ key e)
    (stand : Stand Spot (fun list => backPosition list.length (list.countP fun a => decide (key a ≤ key e))) children lists) :
    Stand Spot (fun list => backPosition list.length (list.countP fun a => decide (key a < key e)))
      (children.modify k child.prev) lists := by
  refine forall₂_modify stand ?_ ?_
  · intro c list there stands
    beta_reduce at stands ⊢
    obtain ⟨-,cursor,sorted⟩ := fits.inside there
    rw [countP_le_of_mem sorted (own list there)] at stands
    exact cursor.prev stands (List.getElem?_eq_some_iff.mp (getElem_countP sorted (own list there))).1
  · intro i c list ne there stands
    beta_reduce at stands ⊢
    rw [countP_le_of_ne (others i list ne there)] at stands
    exact stands

theorem next_at (fits : Fits child key Spot lists items) {m : MergingIterator σ} {i : Nat}
    (stands : MergingIterator.At child key Spot lists items m i) (inside : i < items.length) :
    MergingIterator.At child key Spot lists items (next child key m) (i + 1) := by
  cases stands with
  | spent somewhere => exact absurd inside (lt_irrefl _)
  | @forth children k e member shows stand =>
    obtain ⟨own,others⟩ := fits.own stand shows
    rw [← countP_le_of_mem fits.ordered member]
    exact smallest_at fits (down_le (key e)) (advance fits own others stand)
  | @back children k e member shows stand =>
    obtain ⟨own,others⟩ := fits.own stand shows
    rw [← countP_le_of_mem fits.ordered member]
    exact smallest_at fits (down_le (key e)) (advance fits own others (turn_forth fits shows stand))

theorem prev_at (fits : Fits child key Spot lists items) {m : MergingIterator σ} {i : Nat}
    (stands : MergingIterator.At child key Spot lists items m i) (inside : i < items.length) :
    MergingIterator.At child key Spot lists items (prev child key m) (backPosition items.length i) := by
  cases stands with
  | spent somewhere => exact absurd inside (lt_irrefl _)
  | @forth children k e member shows stand =>
    obtain ⟨own,others⟩ := fits.own stand shows
    exact largest_at fits (down_lt (key e)) (retreat fits own others (turn_back fits shows stand))
  | @back children k e member shows stand =>
    obtain ⟨own,others⟩ := fits.own stand shows
    exact largest_at fits (down_lt (key e)) (retreat fits own others stand)

theorem At.somewhere {m : MergingIterator σ} {i : Nat} (stands : MergingIterator.At child key Spot lists items m i) :
    List.Forall₂ (fun c list => ∃ i, Spot list c i) m.children lists := by
  cases stands with
  | spent somewhere => exact somewhere
  | forth member shows stand => exact Stand.somewhere stand
  | back member shows stand => exact Stand.somewhere stand

/-- All children are moved alike. -/
theorem map_stand (fits : Fits child key Spot lists items) {children : List σ} {move : σ → σ} {place : List E → Nat}
    (somewhere : List.Forall₂ (fun c list => ∃ i, Spot list c i) children lists)
    (moved : ∀ list ∈ lists, IsCursor child key list (Spot list) → ∀ c i, Spot list c i → Spot list (move c) (place list)) :
    Stand Spot place (children.map move) lists := by
  have cursors := fits.cursors
  clear fits
  induction somewhere with
  | nil => exact .nil
  | @cons c list children lists head tail ih =>
    obtain ⟨i,stands⟩ := head
    refine .cons (moved list List.mem_cons_self (cursors list List.mem_cons_self) c i stands) (ih ?_ ?_)
    · exact fun list member => moved list (List.mem_cons_of_mem _ member)
    · exact fun list member => cursors list (List.mem_cons_of_mem _ member)

/-- The merging iterator is a cursor over the union. -/
theorem isCursor (fits : Fits child key Spot lists items) :
    IsCursor (MergingIterator.ops child key) key items (MergingIterator.At child key Spot lists items) := by
  constructor
  · intro m i stands
    cases stands with
    | spent somewhere =>
      rw [List.getElem?_eq_none le_rfl]
      rfl
    | forth member shows stand =>
      rw [getElem_countP fits.ordered member]
      exact shows
    | back member shows stand =>
      rw [getElem_countP fits.ordered member]
      exact shows
  · intro m i stands
    have zero : ∀ list : List E, list.countP (fun _ => false) = 0 := by simp
    have start := map_stand fits stands.somewhere fun list _ cursor c i => cursor.first
    have at_ := smallest_at fits (fun _ _ _ => id) (Stand.congr start fun list _ => (zero list).symm)
    rw [zero] at at_
    exact at_
  · intro m i stands
    have all : ∀ list : List E, backPosition list.length (list.countP fun _ => true) = list.length - 1 := by
      intro list
      rw [List.countP_true,backPosition]
      split <;> omega
    have finish := map_stand fits stands.somewhere fun list _ cursor c i => cursor.last
    have at_ := largest_at fits (fun _ _ _ => id) (Stand.congr finish fun list _ => (all list).symm)
    rw [all] at at_
    exact at_
  · intro m i t stands
    rw [findIdx_eq_countP fits.ordered]
    have sought := map_stand fits stands.somewhere fun list _ cursor c i => cursor.seek t
    exact smallest_at fits (down_lt t)
      (Stand.congr sought fun list member => findIdx_eq_countP (fits.sorted list member) t)
  · intro m i stands inside
    exact next_at fits stands inside
  · intro m i stands inside
    exact prev_at fits stands inside

end MergingIterator

end Merging

/-- What `NewMergingIterator` returns. -/
inductive Merged (σ T : Type) where
  | empty
  | single (iter : σ)
  | merging (iter : MergingIterator (IteratorWrapper σ T))

section Wrapped
variable {σ T V : Type} [LinearOrder T] (child : IteratorOps σ (T × V) T)

namespace Merged

def ops : IteratorOps (Merged σ T) (T × V) T where
  current
    | empty => none
    | single c => child.current c
    | merging m => (MergingIterator.ops (IteratorWrapper.ops child) Prod.fst).current m
  seekToFirst
    | empty => empty
    | single c => single (child.seekToFirst c)
    | merging m => merging ((MergingIterator.ops (IteratorWrapper.ops child) Prod.fst).seekToFirst m)
  seekToLast
    | empty => empty
    | single c => single (child.seekToLast c)
    | merging m => merging ((MergingIterator.ops (IteratorWrapper.ops child) Prod.fst).seekToLast m)
  seek t
    | empty => empty
    | single c => single (child.seek t c)
    | merging m => merging ((MergingIterator.ops (IteratorWrapper.ops child) Prod.fst).seek t m)
  next
    | empty => empty
    | single c => single (child.next c)
    | merging m => merging ((MergingIterator.ops (IteratorWrapper.ops child) Prod.fst).next m)
  prev
    | empty => empty
    | single c => single (child.prev c)
    | merging m => merging ((MergingIterator.ops (IteratorWrapper.ops child) Prod.fst).prev m)

end Merged

def Merged.newMergingIterator : List σ → Merged σ T
  | [] => .empty
  | [c] => .single c
  | children => .merging (MergingIterator.new (children.map (IteratorWrapper.set child)))

/-- The lists merged in the order of their keys. -/
def sortedUnion (lists : List (List (T × V))) : List (T × V) :=
  lists.flatten.mergeSort fun a b => decide (a.1 ≤ b.1)

variable {child}

theorem sortedUnion_sorted {lists : List (List (T × V))} (sorted : ∀ list ∈ lists, list.Pairwise fun a b => a.1 < b.1)
    (apart : lists.Pairwise fun one two => ∀ a ∈ one, ∀ b ∈ two, a.1 ≠ b.1) :
    (sortedUnion lists).Pairwise fun a b => a.1 < b.1 := by
  have different : (sortedUnion lists).Pairwise fun a b => a.1 ≠ b.1 := by
    refine (List.Perm.pairwise_iff (fun ne same => ne same.symm) (List.mergeSort_perm _ _)).mpr ?_
    rw [List.pairwise_flatten]
    exact ⟨fun list member => (sorted list member).imp ne_of_lt,apart⟩
  have ordered : (sortedUnion lists).Pairwise fun a b => decide (a.1 ≤ b.1) = true :=
    List.pairwise_mergeSort (by simpa using fun a _ b _ c _ => le_trans) (by simpa using fun a _ b _ => le_total a b) _
  exact (different.and ordered).imp fun both => lt_of_le_of_ne (of_decide_eq_true both.2) both.1

/-- What `NewMergingIterator` returns for cursors without a common key is a cursor over
their sorted union. -/
theorem newMergingIterator_stands {children : List σ} {lists : List (List (T × V))}
    (stand : List.Forall₂ (fun c list => ∃ i, StandsAt child Prod.fst list c i) children lists)
    (sorted : ∀ list ∈ lists, list.Pairwise fun a b => a.1 < b.1)
    (apart : lists.Pairwise fun one two => ∀ a ∈ one, ∀ b ∈ two, a.1 ≠ b.1) :
    ∃ i, StandsAt (Merged.ops child) Prod.fst (sortedUnion lists) (Merged.newMergingIterator child children) i := by
  have ordered := sortedUnion_sorted sorted apart
  have union : (sortedUnion lists).Perm lists.flatten := List.mergeSort_perm _ _
  cases stand with
  | nil =>
    refine ⟨0,fun s i => s = .empty ∧ i = 0,?_,rfl,rfl⟩
    have nothing : sortedUnion ([] : List (List (T × V))) = [] := by simp [sortedUnion]
    rw [nothing]
    constructor
    · rintro s i ⟨rfl,rfl⟩
      rfl
    · rintro s i ⟨rfl,rfl⟩
      exact ⟨rfl,rfl⟩
    · rintro s i ⟨rfl,rfl⟩
      exact ⟨rfl,rfl⟩
    · rintro s i t ⟨rfl,rfl⟩
      exact ⟨rfl,rfl⟩
    · rintro s i ⟨rfl,rfl⟩ inside
      cases inside
    · rintro s i ⟨rfl,rfl⟩ inside
      cases inside
  | @cons c list children lists head tail =>
    cases tail with
    | nil =>
      obtain ⟨i,At,cursor,stands⟩ := head
      have same : sortedUnion [list] = list := by
        refine List.Perm.eq_of_pairwise (fun a b _ _ one two => absurd (lt_trans one two) (lt_irrefl _)) ordered
          (sorted list List.mem_cons_self) (by simpa using union)
      rw [same]
      exact ⟨i,_,cursor.within Merged.single (fun _ => rfl) (fun m _ => by cases m <;> rfl),c,rfl,stands⟩
    | @cons d other children lists next tail =>
      have cursor := MergingIterator.isCursor ⟨fun part _ => IteratorWrapper.isCursor child part,sorted,apart,ordered,union⟩
      refine ⟨_,_,cursor.within Merged.merging (fun _ => rfl) (fun m _ => by cases m <;> rfl),_,rfl,
        .spent ?_⟩
      rw [List.forall₂_map_left_iff]
      refine List.Forall₂.imp ?_ (List.Forall₂.cons head (.cons next tail))
      rintro c list ⟨i,stands⟩
      exact ⟨i,c,rfl,stands⟩

/-- Whatever moves are made, the merging iterator shows what a cursor over the sorted union
shows. -/
theorem newMergingIterator_shows (child : IteratorOps σ (T × V) T) (children : List σ) (lists : List (List (T × V)))
    (stand : List.Forall₂ (fun c list => ∃ i, StandsAt child Prod.fst list c i) children lists)
    (sorted : ∀ list ∈ lists, list.Pairwise fun a b => a.1 < b.1)
    (apart : lists.Pairwise fun one two => ∀ a ∈ one, ∀ b ∈ two, a.1 ≠ b.1) :
    ∃ i, ∀ moves, Legal (Merged.ops child) (Merged.newMergingIterator child children) moves →
      (Merged.ops child).current ((Merged.ops child).run moves (Merged.newMergingIterator child children)) =
        (ListIter.ops Prod.fst).current ((ListIter.ops Prod.fst).run moves ⟨sortedUnion lists,i⟩) := by
  obtain ⟨i,At,cursor,stands⟩ := newMergingIterator_stands stand sorted apart
  exact ⟨i,fun moves legal => cursor.shows moves stands legal⟩

/-- Two lists, turned in between. -/
theorem newMergingIterator_shows_two :
    ∃ i, ∀ moves : List (Move Nat),
      Legal (Merged.ops (ListIter.ops Prod.fst))
        (Merged.newMergingIterator (ListIter.ops Prod.fst) [ListIter.new [(1,'a'),(3,'c')],ListIter.new [(2,'b')]]) moves →
      (Merged.ops (ListIter.ops Prod.fst)).current ((Merged.ops (ListIter.ops Prod.fst)).run moves
          (Merged.newMergingIterator (ListIter.ops Prod.fst) [ListIter.new [(1,'a'),(3,'c')],ListIter.new [(2,'b')]])) =
        (ListIter.ops Prod.fst).current ((ListIter.ops Prod.fst).run moves ⟨sortedUnion [[(1,'a'),(3,'c')],[(2,'b')]],i⟩) := by
  have each : ∀ list : List (Nat × Char), ∃ i, StandsAt (ListIter.ops Prod.fst) Prod.fst list (ListIter.new list) i :=
    fun list => ⟨_,_,listIter_isCursor Prod.fst list,rfl⟩
  exact newMergingIterator_shows _ _ _ (.cons (each _) (.cons (each _) .nil)) (by simp) (by decide)

end Wrapped

end LevelDB
