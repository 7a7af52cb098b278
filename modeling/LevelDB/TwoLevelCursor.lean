import LevelDB.Cursor
import Mathlib.Data.List.Induction
import Mathlib.Data.List.Nodup

/-! A two-level iterator as a cursor. The index is a cursor over the blocks, each block has
one over its entries, and an index key lies between its block and the next; then the whole
is a cursor over the entries of all blocks, one block behind the other. Blocks may be
empty. -/
namespace LevelDB

/-- The same iterator, seen through a function of its entries. -/
def IteratorOps.mapEntry {σ E F T : Type} (f : E → F) (ops : IteratorOps σ E T) : IteratorOps σ F T :=
  { ops with current := fun s => (ops.current s).map f }

/-- An iterator over the blocks that shows their handles only. -/
structure IsIndex {ι X H T : Type} [LinearOrder T] (ops : IteratorOps ι H T) (keyX : X → T) (handle : X → H) (blocks : List X)
    (AtX : ι → Nat → Prop) : Prop where
  current : ∀ {s i}, AtX s i → ops.current s = blocks[i]?.map handle
  first : ∀ {s i}, AtX s i → AtX (ops.seekToFirst s) 0
  last : ∀ {s i}, AtX s i → AtX (ops.seekToLast s) (blocks.length - 1)
  seek : ∀ {s i} t, AtX s i → AtX (ops.seek t s) (blocks.findIdx fun x => !decide (keyX x < t))
  next : ∀ {s i}, AtX s i → i < blocks.length → AtX (ops.next s) (i + 1)
  prev : ∀ {s i}, AtX s i → i < blocks.length → AtX (ops.prev s) (if i = 0 then blocks.length else i - 1)

/-- A cursor over the index entries, seen through the handle of an entry. -/
theorem IsCursor.isIndex {σ X E H T : Type} [LinearOrder T] {ops : IteratorOps σ E T} {key : E → T} {blocks : List X} {entry : X → E}
    {At : σ → Nat → Prop} (cursor : IsCursor ops key (blocks.map entry) At) (handle : E → H) :
    IsIndex (ops.mapEntry handle) (fun x => key (entry x)) (fun x => handle (entry x)) blocks At := by
  constructor
  · intro s i stands
    show (ops.current s).map handle = _
    rw [cursor.current stands,List.getElem?_map,Option.map_map]
    rfl
  · intro s i stands
    exact cursor.first stands
  · intro s i stands
    have last := cursor.last stands
    rw [List.length_map] at last
    exact last
  · intro s i t stands
    have found := cursor.seek t stands
    rw [List.findIdx_map] at found
    exact found
  · intro s i stands inside
    exact cursor.next stands (by rw [List.length_map]; exact inside)
  · intro s i stands inside
    have back := cursor.prev stands (by rw [List.length_map]; exact inside)
    rw [List.length_map] at back
    exact back

/-- What index and blocks have to satisfy. -/
structure TwoLevelIterator.Fits {ι X H δ E T : Type} [LinearOrder T] (index : IteratorOps ι H T) (keyX : X → T) (blocks : List X)
    (AtX : ι → Nat → Prop) (handle : X → H) (data : IteratorOps δ E T) (key : E → T) (block : H → δ) (contents : X → List E)
    (AtB : X → δ → Nat → Prop) : Prop where
  index : IsIndex index keyX handle blocks AtX
  data : ∀ x ∈ blocks, IsCursor data key (contents x) (AtB x)
  fresh : ∀ x ∈ blocks, ∃ i, AtB x (block (handle x)) i
  distinct : ∀ x ∈ blocks, ∀ y ∈ blocks, handle x = handle y → x = y
  upper : ∀ x ∈ blocks, ∀ e ∈ contents x, key e ≤ keyX x
  lower : blocks.Pairwise fun x y => ∀ e ∈ contents y, keyX x < key e

section TwoLevel
variable {ι X H δ E T : Type} {index : IteratorOps ι H T} {keyX : X → T} {blocks : List X} {AtX : ι → Nat → Prop} {handle : X → H}
  {data : IteratorOps δ E T} {key : E → T} {block : H → δ} {contents : X → List E} {AtB : X → δ → Nat → Prop}

/-- Where the iterator stands: at an entry of a block, with the index at the block, or at
the end without a block. -/
inductive TwoLevelIterator.At (blocks : List X) (AtX : ι → Nat → Prop) (handle : X → H) (contents : X → List E)
    (AtB : X → δ → Nat → Prop) : TwoLevelIterator ι H δ → Nat → Prop
  | entry {s : TwoLevelIterator ι H δ} {before after : List X} {x : X} {d : δ} {i : Nat} (split : blocks = before ++ x :: after)
      (indexed : AtX s.index before.length) (there : s.data = some (handle x,d)) (stands : AtB x d i)
      (inside : i < (contents x).length) : At blocks AtX handle contents AtB s ((before.flatMap contents).length + i)
  | spent {s : TwoLevelIterator ι H δ} {j : Nat} (indexed : AtX s.index j) (none : s.data = none) :
      At blocks AtX handle contents AtB s (blocks.flatMap contents).length

namespace TwoLevelIterator
variable [LinearOrder T] (fits : Fits index keyX blocks AtX handle data key block contents AtB)

/-- A data iterator at hand is one of a block. -/
def Held (blocks : List X) (handle : X → H) (AtB : X → δ → Nat → Prop) (s : TwoLevelIterator ι H δ) : Prop :=
  ∀ held, s.data = some held → ∃ x ∈ blocks, held.1 = handle x ∧ ∃ i, AtB x held.2 i

omit [LinearOrder T] in
theorem At.held {s : TwoLevelIterator ι H δ} {p : Nat} (stands : At blocks AtX handle contents AtB s p) : Held blocks handle AtB s := by
  intro held same
  cases stands with
  | @entry before after x d i split indexed there stands inside =>
    obtain rfl := Option.some.inj (there.symm.trans same)
    exact ⟨x,by rw [split]; simp,rfl,i,stands⟩
  | spent indexed none =>
    rw [none] at same
    cases same

omit [LinearOrder T] in
theorem At.indexed {s : TwoLevelIterator ι H δ} {p : Nat} (stands : At blocks AtX handle contents AtB s p) : ∃ j, AtX s.index j := by
  cases stands with
  | entry split indexed there stands inside => exact ⟨_,indexed⟩
  | spent indexed none => exact ⟨_,indexed⟩

omit [LinearOrder T] in
theorem getElem_split {before after : List X} {x : X} (split : blocks = before ++ x :: after) : blocks[before.length]? = some x := by
  rw [split]
  simp

variable [DecidableEq H]
include fits

theorem initDataBlock_none {s : TwoLevelIterator ι H δ} (indexed : AtX s.index blocks.length) :
    s.initDataBlock index block = { s with data := none } := by
  have gone : index.current s.index = none := by
    rw [fits.index.current indexed,List.getElem?_length]
    rfl
  rw [initDataBlock,gone]

theorem initDataBlock_some {s : TwoLevelIterator ι H δ} {x : X} {j : Nat} (held : Held blocks handle AtB s) (indexed : AtX s.index j)
    (here : blocks[j]? = some x) :
    ∃ d i, s.initDataBlock index block = { s with data := some (handle x,d) } ∧ AtB x d i := by
  have member : x ∈ blocks := List.mem_of_getElem? here
  have current : index.current s.index = some (handle x) := by
    rw [fits.index.current indexed,here]
    rfl
  obtain ⟨i,fresh⟩ := fits.fresh x member
  rw [initDataBlock,current]
  cases data_ : s.data with
  | none => exact ⟨block (handle x),i,by simp,fresh⟩
  | some pair =>
    obtain ⟨y,member',handle_,i',stands⟩ := held pair data_
    by_cases same : pair.1 = handle x
    · obtain rfl : y = x := fits.distinct y member' x member (handle_.symm.trans same)
      refine ⟨pair.2,i',?_,stands⟩
      obtain ⟨index_,_,blocks_⟩ := s
      obtain ⟨one,two⟩ := pair
      subst same
      subst data_
      simp
    · exact ⟨block (handle x),i,by simp [same],fresh⟩

omit [DecidableEq H] in
theorem entry_eq {s : TwoLevelIterator ι H δ} {x : X} {d : δ} {i : Nat} (member : x ∈ blocks) (there : s.data = some (handle x,d))
    (stands : AtB x d i) : s.entry data = (contents x)[i]? := by
  rw [entry,there]
  exact (fits.data x member).current stands

/-- Past the last block there is nothing to skip. -/
theorem skipForward_none {s : TwoLevelIterator ι H δ} (indexed : AtX s.index blocks.length) (none_ : s.data = none) (fuel : Nat) :
    At blocks AtX handle contents AtB (s.skipForward index data block (fuel + 1)) (blocks.flatMap contents).length := by
  have gone : index.current s.index = none := by
    rw [fits.index.current indexed,List.getElem?_length]
    rfl
  have empty : s.entry data = none := by rw [entry,none_]; rfl
  rw [skipForward,empty,gone]
  exact .spent indexed rfl

theorem skipBackward_none {s : TwoLevelIterator ι H δ} (indexed : AtX s.index blocks.length) (none_ : s.data = none) (fuel : Nat) :
    At blocks AtX handle contents AtB (s.skipBackward index data block (fuel + 1)) (blocks.flatMap contents).length := by
  have gone : index.current s.index = none := by
    rw [fits.index.current indexed,List.getElem?_length]
    rfl
  have empty : s.entry data = none := by rw [entry,none_]; rfl
  rw [skipBackward,empty,gone]
  exact .spent indexed rfl

/-- At an entry there is nothing to skip. -/
theorem skipForward_entry {s : TwoLevelIterator ι H δ} {before after : List X} {x : X} {d : δ} {i : Nat}
    (split : blocks = before ++ x :: after) (indexed : AtX s.index before.length) (there : s.data = some (handle x,d))
    (stands : AtB x d i) (inside : i < (contents x).length) (fuel : Nat) :
    At blocks AtX handle contents AtB (s.skipForward index data block (fuel + 1))
      ((before.flatMap contents).length + i) := by
  have member : x ∈ blocks := by rw [split]; simp
  have present := entry_eq fits member there stands
  rw [List.getElem?_eq_getElem inside] at present
  rw [skipForward,present]
  exact .entry split indexed there stands inside

theorem skipBackward_entry {s : TwoLevelIterator ι H δ} {before after : List X} {x : X} {d : δ} {i : Nat}
    (split : blocks = before ++ x :: after) (indexed : AtX s.index before.length) (there : s.data = some (handle x,d))
    (stands : AtB x d i) (inside : i < (contents x).length) (fuel : Nat) :
    At blocks AtX handle contents AtB (s.skipBackward index data block (fuel + 1))
      ((before.flatMap contents).length + i) := by
  have member : x ∈ blocks := by rw [split]; simp
  have present := entry_eq fits member there stands
  rw [List.getElem?_eq_getElem inside] at present
  rw [skipBackward,present]
  exact .entry split indexed there stands inside

omit [DecidableEq H] in
/-- At the end of a block the index is still at the block. -/
theorem at_end {s : TwoLevelIterator ι H δ} {before after : List X} {x : X} {d : δ} (split : blocks = before ++ x :: after)
    (indexed : AtX s.index before.length) (there : s.data = some (handle x,d)) (stands : AtB x d (contents x).length) :
    s.entry data = none ∧ index.current s.index = some (handle x) ∧ ∀ i : ι, Held blocks handle AtB { s with index := i } := by
  have member : x ∈ blocks := by rw [split]; simp
  refine ⟨?_,?_,?_⟩
  · rw [entry_eq fits member there stands,List.getElem?_length]
  · rw [fits.index.current indexed,getElem_split split]
    rfl
  · intro i pair same
    obtain rfl := Option.some.inj (there.symm.trans same)
    exact ⟨x,member,rfl,_,stands⟩

/-- From the end of a block on to the first entry behind it. -/
theorem skipForward_at {s : TwoLevelIterator ι H δ} {before after : List X} {x : X} {d : δ} {i fuel : Nat}
    (split : blocks = before ++ x :: after) (indexed : AtX s.index before.length) (there : s.data = some (handle x,d))
    (stands : AtB x d i) (bound : i ≤ (contents x).length) (enough : after.length + 2 ≤ fuel) :
    At blocks AtX handle contents AtB (s.skipForward index data block fuel) ((before.flatMap contents).length + i) := by
  induction after generalizing s before x d i fuel with
  | nil =>
    obtain ⟨fuel,rfl⟩ : ∃ k, fuel = k + 2 := ⟨fuel - 2,by omega⟩
    rcases Nat.lt_or_eq_of_le bound with inside | rfl
    · exact skipForward_entry fits split indexed there stands inside _
    · obtain ⟨empty,valid,-⟩ := at_end fits split indexed there stands
      have total : (before.flatMap contents).length + (contents x).length = (blocks.flatMap contents).length := by
        rw [split,List.flatMap_append,List.flatMap_singleton,List.length_append]
      have next := fits.index.next indexed (by rw [split]; simp)
      have ends : before.length + 1 = blocks.length := by rw [split]; simp
      rw [ends] at next
      rw [total,skipForward,empty,valid]
      simp only [Option.isSome_none,Option.isNone_some,Bool.false_eq_true,if_false]
      rw [initDataBlock_none fits next]
      exact skipForward_none fits next rfl _
  | cons y after ih =>
    obtain ⟨fuel,rfl⟩ : ∃ k, fuel = k + 2 := ⟨fuel - 2,by omega⟩
    rcases Nat.lt_or_eq_of_le bound with inside | rfl
    · exact skipForward_entry fits split indexed there stands inside _
    · obtain ⟨empty,valid,held⟩ := at_end fits split indexed there stands
      have split' : blocks = (before ++ [x]) ++ y :: after := by rw [split]; simp
      have total : (before.flatMap contents).length + (contents x).length = ((before ++ [x]).flatMap contents).length + 0 := by
        rw [List.flatMap_append,List.flatMap_singleton,List.length_append,Nat.add_zero]
      have next : AtX (index.next s.index) (before ++ [x]).length := by
        rw [List.length_append]
        exact fits.index.next indexed (by rw [split]; simp)
      obtain ⟨d',i',init,stands'⟩ := initDataBlock_some fits (held _) next (getElem_split split')
      have member' : y ∈ blocks := by rw [split]; simp
      rw [total,skipForward,empty,valid]
      simp only [Option.isSome_none,Option.isNone_some,Bool.false_eq_true,if_false]
      rw [init]
      exact ih split' next rfl ((fits.data y member').first stands') (Nat.zero_le _) (by rw [List.length_cons] at enough; omega)

/-- From before the first entry of a block back to the last one before it. -/
theorem skipBackward_at {s : TwoLevelIterator ι H δ} {before after : List X} {x : X} {d : δ} {fuel : Nat}
    (split : blocks = before ++ x :: after) (indexed : AtX s.index before.length) (there : s.data = some (handle x,d))
    (stands : AtB x d (contents x).length) (enough : before.length + 2 ≤ fuel) :
    At blocks AtX handle contents AtB (s.skipBackward index data block fuel)
      (if (before.flatMap contents).length = 0 then (blocks.flatMap contents).length else (before.flatMap contents).length - 1) := by
  induction before using List.reverseRecOn generalizing s after x d fuel with
  | nil =>
    obtain ⟨fuel,rfl⟩ : ∃ k, fuel = k + 2 := ⟨fuel - 2,by omega⟩
    obtain ⟨empty,valid,-⟩ := at_end fits split indexed there stands
    have prev := fits.index.prev indexed (by rw [split]; simp)
    rw [if_pos List.length_nil] at prev
    rw [if_pos (show ([].flatMap contents).length = 0 from rfl),skipBackward,empty,valid]
    simp only [Option.isSome_none,Option.isNone_some,Bool.false_eq_true,if_false]
    rw [initDataBlock_none fits prev]
    exact skipBackward_none fits prev rfl _
  | append_singleton front y ih =>
    obtain ⟨fuel,rfl⟩ : ∃ k, fuel = k + 2 := ⟨fuel - 2,by omega⟩
    obtain ⟨empty,valid,held⟩ := at_end fits split indexed there stands
    have prev := fits.index.prev indexed (by rw [split]; simp)
    have split' : blocks = front ++ y :: (x :: after) := by rw [split]; simp
    have member' : y ∈ blocks := by rw [split']; simp
    have total : ((front ++ [y]).flatMap contents).length = (front.flatMap contents).length + (contents y).length := by simp
    rw [if_neg (by simp),List.length_append,List.length_singleton,Nat.add_sub_cancel] at prev
    obtain ⟨d',i',init,stands'⟩ := initDataBlock_some fits (held _) prev (getElem_split split')
    have last := (fits.data y member').last stands'
    rw [total,skipBackward,empty,valid]
    simp only [Option.isSome_none,Option.isNone_some,Bool.false_eq_true,if_false]
    rw [init]
    rcases Nat.eq_zero_or_pos (contents y).length with none | some_
    · rw [none] at last ⊢
      refine ih split' prev rfl (by rw [none]; exact last) ?_
      rw [List.length_append,List.length_singleton] at enough
      omega
    · rw [if_neg (by omega),Nat.add_sub_assoc some_]
      exact skipBackward_entry fits split' prev rfl last (by omega) _

/-- After a move of the index the data iterator is on the block there. -/
theorem seek_forth {s : TwoLevelIterator ι H δ} {move : δ → δ} {j p : Nat} (room : blocks.length ≤ s.blocks)
    (held : Held blocks handle AtB s) (indexed : AtX s.index j)
    (ends : j = blocks.length → p = (blocks.flatMap contents).length)
    (inside : ∀ before x after, blocks = before ++ x :: after → before.length = j → ∀ d i, AtB x d i →
      ∃ i', AtB x (move d) i' ∧ i' ≤ (contents x).length ∧ (before.flatMap contents).length + i' = p) (bound : j ≤ blocks.length) :
    At blocks AtX handle contents AtB (((s.initDataBlock index block).mapData move).forth index data block) p := by
  rcases Nat.lt_or_eq_of_le bound with low | rfl
  · have split : blocks = blocks.take j ++ blocks[j] :: blocks.drop (j + 1) := by
      rw [← List.drop_eq_getElem_cons low,List.take_append_drop]
    have length : (blocks.take j).length = j := List.length_take_of_le bound
    obtain ⟨d,i,init,stands⟩ := initDataBlock_some fits held indexed (List.getElem?_eq_getElem low)
    obtain ⟨i',stands',bound',rfl⟩ := inside _ _ _ split length d i stands
    have enough : (blocks.drop (j + 1)).length + 2 ≤ s.blocks + 2 := by
      rw [List.length_drop]
      omega
    rw [init]
    exact skipForward_at fits split (by rw [length]; exact indexed) rfl stands' bound' enough
  · rw [ends rfl,initDataBlock_none fits indexed]
    exact skipForward_none fits (s := mapData move { s with data := none }) indexed rfl _

omit [DecidableEq H] in
/-- All blocks the index has passed hold smaller entries only. -/
theorem smaller_before {t : T} {before : List X} (passed : before = blocks.take (blocks.findIdx fun x => !decide (keyX x < t))) :
    ∀ e ∈ before.flatMap contents, key e < t := by
  intro e member
  obtain ⟨x,inside,entry⟩ := List.mem_flatMap.mp member
  rw [passed] at inside
  exact lt_of_le_of_lt (fits.upper x (List.mem_of_mem_take inside) e entry) (lt_of_mem_take_findIdx blocks t x inside)

omit [DecidableEq H] in
/-- A seek ends in the block that the index gives, or before the first entry of the next. -/
theorem findIdx_flatMap {t : T} {before after : List X} {x : X} (split : blocks = before ++ x :: after)
    (length : before.length = blocks.findIdx fun x => !decide (keyX x < t)) :
    ((blocks.flatMap contents).findIdx fun e => !decide (key e < t)) =
      (before.flatMap contents).length + (contents x).findIdx fun e => !decide (key e < t) := by
  have flat : blocks.flatMap contents = before.flatMap contents ++ (contents x ++ after.flatMap contents) := by
    rw [split,List.flatMap_append,List.flatMap_cons]
  have bound : (contents x).findIdx (fun e => !decide (key e < t)) ≤ (contents x).length := List.findIdx_le_length
  have passed : before = blocks.take (blocks.findIdx fun x => !decide (keyX x < t)) := by
    rw [← length,split,List.take_left]
  have above : ¬keyX x < t := not_lt_of_findIdx (by rw [← length]; exact getElem_split split)
  refine findIdx_eq ?_ ?_ ?_
  · rw [flat,List.length_append,List.length_append]
    omega
  · intro e member
    rw [flat,List.take_length_add_append,List.take_append_of_le_length bound] at member
    rcases List.mem_append.mp member with earlier | here
    · exact smaller_before fits passed e earlier
    · exact lt_of_mem_take_findIdx (contents x) t e here
  · intro e there
    rw [flat,List.getElem?_append_right (Nat.le_add_right _ _),Nat.add_sub_cancel_left] at there
    rcases Nat.lt_or_eq_of_le bound with inside | ends
    · rw [List.getElem?_append_left inside] at there
      exact not_lt_of_findIdx there
    · rw [ends,List.getElem?_append_right (le_refl _)] at there
      obtain ⟨y,member,entry⟩ := List.mem_flatMap.mp (List.mem_of_getElem? there)
      have order := fits.lower
      rw [split,List.pairwise_append,List.pairwise_cons] at order
      exact not_lt.mpr (le_of_lt (lt_of_le_of_lt (not_lt.mp above) (order.2.1.1 y member e entry)))

omit [LinearOrder T] fits in
theorem initDataBlock_blocks (s : TwoLevelIterator ι H δ) : (s.initDataBlock index block).blocks = s.blocks := by
  rw [initDataBlock]
  split
  · rfl
  · split <;> rfl

omit [LinearOrder T] fits in
theorem skipForward_blocks (fuel : Nat) (s : TwoLevelIterator ι H δ) :
    (s.skipForward index data block fuel).blocks = s.blocks := by
  induction fuel generalizing s with
  | zero => rfl
  | succ fuel ih =>
    rw [skipForward]
    split
    · rfl
    · split
      · rfl
      · exact (ih _).trans (initDataBlock_blocks _)

omit [LinearOrder T] fits in
theorem skipBackward_blocks (fuel : Nat) (s : TwoLevelIterator ι H δ) :
    (s.skipBackward index data block fuel).blocks = s.blocks := by
  induction fuel generalizing s with
  | zero => rfl
  | succ fuel ih =>
    rw [skipBackward]
    split
    · rfl
    · split
      · rfl
      · exact (ih _).trans (initDataBlock_blocks _)

omit [LinearOrder T] fits in
theorem move_blocks (m : Move T) (s : TwoLevelIterator ι H δ) :
    ((TwoLevelIterator.ops index data block).move m s).blocks = s.blocks := by
  cases m <;>
    simp [IteratorOps.move,ops,forth,back,mapData,skipForward_blocks,skipBackward_blocks,initDataBlock_blocks]

/-- With as many passes as there are blocks. -/
theorem isCursor : IsCursor (TwoLevelIterator.ops index data block) key (blocks.flatMap contents) fun s p =>
    blocks.length ≤ s.blocks ∧ At blocks AtX handle contents AtB s p := by
  constructor
  · rintro s p ⟨-,stands⟩
    show s.entry data = _
    cases stands with
    | @entry before after x d i split indexed there stands inside =>
      rw [entry_eq fits (by rw [split]; simp) there stands,split]
      simp [List.getElem?_append_right,List.getElem?_append_left inside]
    | spent indexed none =>
      rw [List.getElem?_length,entry,none]
      rfl
  · rintro s p ⟨room,stands⟩
    obtain ⟨j,indexed⟩ := stands.indexed
    refine ⟨room.trans_eq (move_blocks .first s).symm,?_⟩
    refine seek_forth fits (j := 0) room stands.held (fits.index.first indexed) ?_ ?_ (Nat.zero_le _)
    · intro empty
      rw [List.eq_nil_of_length_eq_zero empty.symm]
      rfl
    · intro before x after split length d i stands
      obtain rfl := List.eq_nil_of_length_eq_zero length
      exact ⟨0,(fits.data x (by rw [split]; simp)).first stands,Nat.zero_le _,rfl⟩
  · rintro s p ⟨room,stands⟩
    obtain ⟨j,indexed⟩ := stands.indexed
    have last := fits.index.last indexed
    refine ⟨room.trans_eq (move_blocks .last s).symm,?_⟩
    show At blocks AtX handle contents AtB (back _ data block ((initDataBlock index block
      { s with index := index.seekToLast s.index }).mapData data.seekToLast)) _
    rcases List.eq_nil_or_concat blocks with empty | ⟨front,x,split⟩
    · have nothing : blocks.length - 1 = blocks.length := by rw [empty]; rfl
      have zero : (blocks.flatMap contents).length - 1 = (blocks.flatMap contents).length := by rw [empty]; rfl
      rw [nothing] at last
      rw [zero,initDataBlock_none fits last]
      exact skipBackward_none fits last rfl _
    · rw [List.concat_eq_append] at split
      have member : x ∈ blocks := by rw [split]; simp
      have place : blocks.length - 1 = front.length := by rw [split]; simp
      have total : (blocks.flatMap contents).length = (front.flatMap contents).length + (contents x).length := by
        rw [split,List.flatMap_append,List.flatMap_singleton,List.length_append]
      rw [place] at last
      obtain ⟨d,i,init,stands'⟩ := initDataBlock_some fits (s := { s with index := index.seekToLast s.index }) stands.held last
        (getElem_split split)
      have end_ := (fits.data x member).last stands'
      rw [init]
      rcases Nat.eq_zero_or_pos (contents x).length with none | some_
      · rw [none] at end_
        have enough : front.length + 2 ≤ s.blocks + 2 := by omega
        have same : (if (front.flatMap contents).length = 0 then (blocks.flatMap contents).length
            else (front.flatMap contents).length - 1) = (blocks.flatMap contents).length - 1 := by
          rw [total,none]
          split <;> omega
        rw [← same]
        exact skipBackward_at fits split last rfl (by rw [none]; exact end_) enough
      · rw [total,Nat.add_sub_assoc some_]
        exact skipBackward_entry fits split last rfl end_ (by omega) _
  · rintro s p t ⟨room,stands⟩
    obtain ⟨j,indexed⟩ := stands.indexed
    refine ⟨room.trans_eq (move_blocks (.seek t) s).symm,?_⟩
    refine seek_forth fits (j := blocks.findIdx fun x => !decide (keyX x < t)) room stands.held (fits.index.seek t indexed) ?_ ?_ List.findIdx_le_length
    · intro ends
      refine findIdx_eq (le_refl _) ?_ ?_
      · rw [List.take_length]
        exact smaller_before fits (by rw [ends,List.take_length])
      · intro e there
        rw [List.getElem?_length] at there
        cases there
    · intro before x after split length d i stands
      exact ⟨_,(fits.data x (by rw [split]; simp)).seek t stands,List.findIdx_le_length,(findIdx_flatMap fits split length).symm⟩
  · rintro s p ⟨room,stands⟩ inside
    refine ⟨room.trans_eq (move_blocks .next s).symm,?_⟩
    cases stands with
    | @entry before after x d i split indexed there stands low =>
      have member : x ∈ blocks := by rw [split]; simp
      have enough : after.length + 2 ≤ s.blocks + 2 := by
        rw [split,List.length_append,List.length_cons] at room
        omega
      exact skipForward_at fits (s := s.mapData data.next) split indexed (by rw [mapData,there]; rfl)
        ((fits.data x member).next stands low) low enough
    | spent indexed none => exact absurd inside (lt_irrefl _)
  · rintro s p ⟨room,stands⟩ inside
    refine ⟨room.trans_eq (move_blocks .prev s).symm,?_⟩
    cases stands with
    | @entry before after x d i split indexed there stands low =>
      have member : x ∈ blocks := by rw [split]; simp
      have moved := (fits.data x member).prev stands low
      have held : (s.mapData data.prev).data = some (handle x,data.prev d) := by rw [mapData,there]; rfl
      rcases Nat.eq_zero_or_pos i with rfl | pos
      · have enough : before.length + 2 ≤ s.blocks + 2 := by
          rw [split,List.length_append,List.length_cons] at room
          omega
        rw [if_pos rfl] at moved
        exact skipBackward_at fits (s := s.mapData data.prev) split indexed held moved enough
      · rw [if_neg (by omega)] at moved
        rw [if_neg (by omega),Nat.add_sub_assoc pos]
        exact skipBackward_entry fits (s := s.mapData data.prev) split indexed held moved (by omega) _
    | spent indexed none => exact absurd inside (lt_irrefl _)

end TwoLevelIterator

end TwoLevel

/-- A data block: its key and its handle in the index, and its entries. -/
structure DataBlock (T H V : Type) where
  indexKey : T
  handle : H
  contents : List (T × V)

section Claim
variable {ι δ T H V : Type} [LinearOrder T] [DecidableEq H] (indexIter : IteratorOps ι (T × H) T) (dataIter : IteratorOps δ (T × V) T)
  (blockFunction : H → δ)

/-- `NewTwoLevelIterator`; its loops over the index make at most `limit` passes. -/
def newTwoLevelIterator (index : ι) (limit : Nat) : TwoLevelIterator (IteratorWrapper ι T) H (IteratorWrapper δ T) :=
  ⟨IteratorWrapper.set indexIter index,none,limit⟩

def twoLevelOps : IteratorOps (TwoLevelIterator (IteratorWrapper ι T) H (IteratorWrapper δ T)) (T × V) T :=
  TwoLevelIterator.ops ((IteratorWrapper.ops indexIter).mapEntry Prod.snd) (IteratorWrapper.ops dataIter) fun h =>
    IteratorWrapper.set dataIter (blockFunction h)

variable {indexIter dataIter blockFunction} {blocks : List (DataBlock T H V)}

omit [DecidableEq H] in
/-- Index keys that increase from block to block bound all blocks behind. -/
theorem bounded_below (increasing : blocks.Pairwise fun b c => b.indexKey < c.indexKey)
    (lower : blocks.IsChain fun b c => ∀ e ∈ c.contents, b.indexKey < e.1) :
    blocks.Pairwise fun b c => ∀ e ∈ c.contents, b.indexKey < e.1 := by
  rw [List.pairwise_iff_getElem] at increasing ⊢
  intro i j hi hj less e member
  obtain ⟨k,rfl⟩ := Nat.exists_eq_add_of_lt less
  have before := List.isChain_iff_getElem.mp lower (i + k) hj e member
  rcases Nat.eq_zero_or_pos k with rfl | pos
  · exact before
  · exact (increasing i (i + k) hi (by omega) (by omega)).trans before

/-- Whatever moves are made, and whichever blocks are empty, the two-level iterator shows
what a cursor over all entries shows. -/
theorem twoLevelIterator_shows (index : ι) (limit : Nat) (room : blocks.length ≤ limit)
    (stands : ∃ i, StandsAt indexIter Prod.fst (blocks.map fun b => (b.indexKey,b.handle)) index i)
    (reads : ∀ b ∈ blocks, ∃ i, StandsAt dataIter Prod.fst b.contents (blockFunction b.handle) i)
    (distinct : (blocks.map (·.handle)).Nodup) (increasing : blocks.Pairwise fun b c => b.indexKey < c.indexKey)
    (upper : ∀ b ∈ blocks, ∀ e ∈ b.contents, e.1 ≤ b.indexKey)
    (lower : blocks.IsChain fun b c => ∀ e ∈ c.contents, b.indexKey < e.1)
    (moves : List (Move T))
    (legal : Legal (twoLevelOps indexIter dataIter blockFunction) (newTwoLevelIterator indexIter index limit) moves) :
    (twoLevelOps indexIter dataIter blockFunction).current
        ((twoLevelOps indexIter dataIter blockFunction).run moves (newTwoLevelIterator indexIter index limit)) =
      (ListIter.ops Prod.fst).current ((ListIter.ops Prod.fst).run moves (ListIter.new (blocks.flatMap (·.contents)))) := by
  have fits : TwoLevelIterator.Fits ((IteratorWrapper.ops indexIter).mapEntry Prod.snd) (·.indexKey) blocks
      (IteratorWrapper.At indexIter (blocks.map fun b => (b.indexKey,b.handle))) (·.handle) (IteratorWrapper.ops dataIter) Prod.fst
      (fun h => IteratorWrapper.set dataIter (blockFunction h)) (·.contents) fun b => IteratorWrapper.At dataIter b.contents := by
    constructor
    · exact (IteratorWrapper.isCursor indexIter (blocks.map fun b => (b.indexKey,b.handle))).isIndex Prod.snd
    · intro b member
      exact IteratorWrapper.isCursor dataIter b.contents
    · intro b member
      obtain ⟨i,read⟩ := reads b member
      exact ⟨i,_,rfl,read⟩
    · intro b hb c hc same
      exact List.inj_on_of_nodup_map distinct hb hc same
    · exact upper
    · exact bounded_below increasing lower
  obtain ⟨i,at_⟩ := stands
  have start : TwoLevelIterator.At blocks (IteratorWrapper.At indexIter (blocks.map fun b => (b.indexKey,b.handle))) (·.handle)
      (·.contents) (fun b => IteratorWrapper.At dataIter b.contents) (newTwoLevelIterator indexIter index limit)
      (blocks.flatMap (·.contents)).length :=
    .spent ⟨index,rfl,at_⟩ rfl
  exact (TwoLevelIterator.isCursor fits).shows moves ⟨room,start⟩ legal

/-- An empty block between two others. -/
def blocksAround : List (DataBlock Nat Nat Char) := [⟨2,10,[(1,'a'),(2,'b')]⟩,⟨4,20,[]⟩,⟨6,30,[(5,'c')]⟩]

/-- The block of a handle is read. -/
def readAround (handle : Nat) : ListIter (Nat × Char) :=
  ListIter.new ((blocksAround.find? fun b => b.handle == handle).elim [] (·.contents))

/-- The iterator of these three blocks, before any move. -/
def iteratorAround : TwoLevelIterator (IteratorWrapper (ListIter (Nat × Nat)) Nat) Nat (IteratorWrapper (ListIter (Nat × Char)) Nat) :=
  newTwoLevelIterator (ListIter.ops Prod.fst) (ListIter.new (blocksAround.map fun b => (b.indexKey,b.handle))) 3

/-- Across the empty block forward, backward, and forward again. -/
theorem twoLevelIterator_shows_around :
    (twoLevelOps (ListIter.ops Prod.fst) (ListIter.ops Prod.fst) readAround).current
      ((twoLevelOps (ListIter.ops Prod.fst) (ListIter.ops Prod.fst) readAround).run [.seek 3,.prev,.last,.prev,.next] iteratorAround) =
      some (5,'c') := by
  have reads : ∀ b ∈ blocksAround, ∃ i, StandsAt (ListIter.ops Prod.fst) Prod.fst b.contents (readAround b.handle) i := by
    simp only [blocksAround,List.forall_mem_cons,List.not_mem_nil,false_implies,implies_true,and_true]
    exact ⟨⟨_,_,listIter_isCursor Prod.fst _,rfl⟩,⟨_,_,listIter_isCursor Prod.fst _,rfl⟩,_,_,listIter_isCursor Prod.fst _,rfl⟩
  have seen : (ListIter.ops Prod.fst).current ((ListIter.ops Prod.fst).run [.seek 3,.prev,.last,.prev,.next]
      (ListIter.new (blocksAround.flatMap (·.contents)))) = some (5,'c') := by decide
  rw [← seen]
  apply twoLevelIterator_shows _ 3 (by decide) ⟨_,_,listIter_isCursor Prod.fst _,rfl⟩ reads (by decide) (by decide) (by decide)
    (by decide)
  exact ⟨by decide,by decide,by decide,trivial⟩

end Claim

end LevelDB
