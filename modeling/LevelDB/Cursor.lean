import LevelDB.Iterator
import Mathlib.Data.List.TakeWhile

/-! Iterators as cursors over a list, in both directions. A cursor stands at a position of
the list; past the last one it is not valid, and it gets there from either end. Whatever
moves like that shows the same as the list itself in every run. -/
namespace LevelDB

inductive Move (T : Type) where
  | first | last | seek (target : T) | next | prev

section Moves
variable {σ E T : Type} (ops : IteratorOps σ E T)

def IteratorOps.move : Move T → σ → σ
  | .first => ops.seekToFirst
  | .last => ops.seekToLast
  | .seek t => ops.seek t
  | .next => ops.next
  | .prev => ops.prev

def IteratorOps.run (moves : List (Move T)) (s : σ) : σ := moves.foldl (fun s m => ops.move m s) s

/-- `Next` and `Prev` are called on a valid iterator only. -/
def Legal : σ → List (Move T) → Prop
  | _, [] => True
  | s, .next :: rest => (ops.current s).isSome ∧ Legal (ops.next s) rest
  | s, .prev :: rest => (ops.current s).isSome ∧ Legal (ops.prev s) rest
  | s, m :: rest => Legal (ops.move m s) rest

end Moves

/-- The iterator is a cursor over the list; `At` says at which position its states stand. -/
structure IsCursor {σ E T : Type} [LinearOrder T] (ops : IteratorOps σ E T) (key : E → T) (items : List E)
    (At : σ → Nat → Prop) : Prop where
  current : ∀ {s i}, At s i → ops.current s = items[i]?
  first : ∀ {s i}, At s i → At (ops.seekToFirst s) 0
  last : ∀ {s i}, At s i → At (ops.seekToLast s) (items.length - 1)
  seek : ∀ {s i} t, At s i → At (ops.seek t s) (items.findIdx fun e => !decide (key e < t))
  next : ∀ {s i}, At s i → i < items.length → At (ops.next s) (i + 1)
  prev : ∀ {s i}, At s i → i < items.length → At (ops.prev s) (if i = 0 then items.length else i - 1)

section Cursor
variable {σ E T : Type} [LinearOrder T] {ops : IteratorOps σ E T} {key : E → T} {items : List E}
  {At : σ → Nat → Prop}

theorem IsCursor.valid (cursor : IsCursor ops key items At) {s : σ} {i : Nat} (stands : At s i)
    (valid : (ops.current s).isSome) : i < items.length := by
  rw [cursor.current stands] at valid
  obtain ⟨e,here⟩ := Option.isSome_iff_exists.mp valid
  exact (List.getElem?_eq_some_iff.mp here).1

theorem listIter_isCursor (key : E → T) (items : List E) :
    IsCursor (ListIter.ops key) key items fun s i => s = ⟨items,i⟩ := by
  constructor
  · rintro s i rfl
    rfl
  · rintro s i rfl
    rfl
  · rintro s i rfl
    rfl
  · rintro s i t rfl
    rfl
  · rintro s i rfl -
    rfl
  · rintro s i rfl -
    rfl

/-- A cursor follows the iterator of the list through every run. -/
theorem IsCursor.follows (cursor : IsCursor ops key items At) (moves : List (Move T)) {s : σ} {i : Nat} (stands : At s i)
    (legal : Legal ops s moves) : ∃ j, At (ops.run moves s) j ∧ (ListIter.ops key).run moves ⟨items,i⟩ = ⟨items,j⟩ := by
  induction moves generalizing s i with
  | nil => exact ⟨i,stands,rfl⟩
  | cons m moves ih =>
    cases m with
    | first => exact ih (cursor.first stands) legal
    | last => exact ih (cursor.last stands) legal
    | seek t => exact ih (cursor.seek t stands) legal
    | next => exact ih (cursor.next stands (cursor.valid stands legal.1)) legal.2
    | prev => exact ih (cursor.prev stands (cursor.valid stands legal.1)) legal.2

theorem IsCursor.shows (cursor : IsCursor ops key items At) (moves : List (Move T)) {s : σ} {i : Nat} (stands : At s i)
    (legal : Legal ops s moves) :
    ops.current (ops.run moves s) = (ListIter.ops key).current ((ListIter.ops key).run moves ⟨items,i⟩) := by
  obtain ⟨j,stands',same⟩ := cursor.follows moves stands legal
  rw [cursor.current stands',same]
  rfl

/-- The iterator behaves as a cursor over the list, and stands at this position now. -/
def StandsAt (ops : IteratorOps σ E T) (key : E → T) (items : List E) (s : σ) (i : Nat) : Prop :=
  ∃ At, IsCursor ops key items At ∧ At s i

theorem standsAt_isCursor (ops : IteratorOps σ E T) (key : E → T) (items : List E) :
    IsCursor ops key items (StandsAt ops key items) := by
  constructor
  · rintro s i ⟨At,cursor,stands⟩
    exact cursor.current stands
  · rintro s i ⟨At,cursor,stands⟩
    exact ⟨At,cursor,cursor.first stands⟩
  · rintro s i ⟨At,cursor,stands⟩
    exact ⟨At,cursor,cursor.last stands⟩
  · rintro s i t ⟨At,cursor,stands⟩
    exact ⟨At,cursor,cursor.seek t stands⟩
  · rintro s i ⟨At,cursor,stands⟩ inside
    exact ⟨At,cursor,cursor.next stands inside⟩
  · rintro s i ⟨At,cursor,stands⟩ inside
    exact ⟨At,cursor,cursor.prev stands inside⟩

/-- An iterator that passes every move on to a cursor is one. -/
theorem IsCursor.within {τ : Type} (cursor : IsCursor ops key items At) {outer : IteratorOps τ E T} (wrap : σ → τ)
    (shows : ∀ s, outer.current (wrap s) = ops.current s)
    (moves : ∀ m s, outer.move m (wrap s) = wrap (ops.move m s)) :
    IsCursor outer key items fun t i => ∃ s, t = wrap s ∧ At s i := by
  constructor
  · rintro t i ⟨s,rfl,stands⟩
    rw [shows,cursor.current stands]
  · rintro t i ⟨s,rfl,stands⟩
    exact ⟨_,moves .first s,cursor.first stands⟩
  · rintro t i ⟨s,rfl,stands⟩
    exact ⟨_,moves .last s,cursor.last stands⟩
  · rintro t i target ⟨s,rfl,stands⟩
    exact ⟨_,moves (.seek target) s,cursor.seek target stands⟩
  · rintro t i ⟨s,rfl,stands⟩ inside
    exact ⟨_,moves .next s,cursor.next stands inside⟩
  · rintro t i ⟨s,rfl,stands⟩ inside
    exact ⟨_,moves .prev s,cursor.prev stands inside⟩

end Cursor

/-- `IteratorWrapper`: the iterator, and its key as of the last `Update`. -/
structure IteratorWrapper (σ T : Type) where
  iter : σ
  key_ : Option T

namespace IteratorWrapper
variable {σ T V : Type} (child : IteratorOps σ (T × V) T)

/-- `Set` of an iterator, and `Update` after a move of it. -/
def set (iter : σ) : IteratorWrapper σ T := ⟨iter,(child.current iter).map (·.1)⟩

/-- The key shown is the saved one, the value is asked from the iterator. -/
def current (w : IteratorWrapper σ T) : Option (T × V) :=
  w.key_.bind fun k => (child.current w.iter).map fun e => (k,e.2)

def ops : IteratorOps (IteratorWrapper σ T) (T × V) T where
  current := current child
  seekToFirst w := set child (child.seekToFirst w.iter)
  seekToLast w := set child (child.seekToLast w.iter)
  seek t w := set child (child.seek t w.iter)
  next w := set child (child.next w.iter)
  prev w := set child (child.prev w.iter)

theorem current_set (c : σ) : (ops child).current (set child c) = child.current c := by
  cases shown : child.current c <;> simp [ops,current,set,shown]

/-- The saved key is the one of the iterator after every move. -/
theorem move_set (m : Move T) (c : σ) : (ops child).move m (set child c) = set child (child.move m c) := by
  cases m <;> rfl

/-- The wrapper of an iterator that stands there. -/
def At [LinearOrder T] (list : List (T × V)) (w : IteratorWrapper σ T) (i : Nat) : Prop :=
  ∃ c, w = set child c ∧ StandsAt child Prod.fst list c i

theorem isCursor [LinearOrder T] (list : List (T × V)) : IsCursor (ops child) Prod.fst list (At child list) :=
  (standsAt_isCursor child Prod.fst list).within (set child) (current_set child) (move_set child)

end IteratorWrapper

section Sorted
variable {E T : Type} [LinearOrder T] {key : E → T} {items : List E}

/-- In a sorted list the elements behind one are those with larger keys. -/
theorem drop_eq_filter (sorted : items.Pairwise fun a b => key a < key b) {i : Nat} {e : E} (here : items[i]? = some e) :
    items.drop (i + 1) = items.filter fun a => key e < key a := by
  induction items generalizing i with
  | nil => cases here
  | cons a items ih =>
    obtain ⟨less,rest⟩ := List.pairwise_cons.mp sorted
    cases i with
    | zero =>
      obtain rfl : a = e := Option.some.inj here
      rw [List.drop_succ_cons,List.drop_zero,List.filter_cons_of_neg (by simp),List.filter_eq_self.mpr]
      exact fun b member => decide_eq_true (less b member)
    | succ i =>
      have larger : ¬key e < key a := not_lt.mpr (le_of_lt (less e (List.mem_of_getElem? here)))
      rw [List.drop_succ_cons,ih rest here,List.filter_cons_of_neg (by simpa using larger)]

/-- Those before it have smaller ones. -/
theorem take_eq_filter (sorted : items.Pairwise fun a b => key a < key b) {i : Nat} {e : E} (here : items[i]? = some e) :
    items.take i = items.filter fun a => key a < key e := by
  induction items generalizing i with
  | nil => cases here
  | cons a items ih =>
    obtain ⟨less,rest⟩ := List.pairwise_cons.mp sorted
    cases i with
    | zero =>
      obtain rfl : a = e := Option.some.inj here
      symm
      rw [List.take_zero,List.filter_eq_nil_iff]
      intro b member
      rcases List.mem_cons.mp member with rfl | later
      · simp
      · simpa using le_of_lt (less b later)
    | succ i =>
      have smaller : key a < key e := less e (List.mem_of_getElem? here)
      rw [List.take_succ_cons,ih rest here,List.filter_cons_of_pos (by simpa using smaller)]

/-- A seek goes to the first element that is not smaller. -/
theorem drop_findIdx (sorted : items.Pairwise fun a b => key a < key b) (t : T) :
    items.drop (items.findIdx fun e => !decide (key e < t)) = items.filter fun a => t ≤ key a := by
  rw [← List.dropWhile_eq_drop_findIdx_not,dropWhile_eq_filter items sorted]
  refine List.filter_congr fun a _ => ?_
  rw [← decide_not,decide_eq_decide]
  exact not_lt

theorem lt_of_mem_take_findIdx (items : List E) (t : T) :
    ∀ e ∈ items.take (items.findIdx fun e => !decide (key e < t)), key e < t := by
  intro e member
  rw [← List.takeWhile_eq_take_findIdx_not] at member
  simpa using List.mem_takeWhile_imp member

theorem not_lt_of_findIdx {t : T} {e : E} (here : items[items.findIdx fun e => !decide (key e < t)]? = some e) : ¬key e < t := by
  obtain ⟨inside,same⟩ := List.getElem?_eq_some_iff.mp here
  have found := List.findIdx_getElem (w := inside)
  rw [same] at found
  simpa using found

/-- Where a seek ends, found by going through the list. -/
theorem findIdx_eq {i : Nat} {t : T} (inside : i ≤ items.length) (smaller : ∀ e ∈ items.take i, key e < t)
    (stop : ∀ e, items[i]? = some e → ¬key e < t) : (items.findIdx fun e => !decide (key e < t)) = i := by
  have none : (items.take i).findIdx (fun e => !decide (key e < t)) = (items.take i).length := by
    rw [List.findIdx_eq_length]
    intro e member
    simpa using smaller e member
  have first : (items.drop i).findIdx (fun e => !decide (key e < t)) = 0 := by
    cases rest : items.drop i with
    | nil => rfl
    | cons e more =>
      have here : items[i]? = some e := by
        have head := congrArg (fun list => list[0]?) rest
        simpa using head
      simp [List.findIdx_cons,stop e here]
  conv_lhs => rw [← List.take_append_drop i items]
  rw [List.findIdx_append,if_neg (by rw [none]; exact lt_irrefl _),first,List.length_take,Nat.zero_add,Nat.min_eq_left inside]

theorem filter_append_filter (sorted : items.Pairwise fun a b => key a < key b) (t : T) :
    items = items.filter (fun a => key a < t) ++ items.filter fun a => t ≤ key a := by
  induction items with
  | nil => rfl
  | cons a items ih =>
    obtain ⟨less,rest⟩ := List.pairwise_cons.mp sorted
    by_cases smaller : key a < t
    · rw [List.filter_cons_of_pos (by simpa using smaller),List.filter_cons_of_neg (by simpa using smaller),List.cons_append,
        ← ih rest]
    · have none : (a :: items).filter (fun b => key b < t) = [] := by
        refine List.filter_eq_nil_iff.mpr fun b member => ?_
        rcases List.mem_cons.mp member with rfl | later
        · simpa using smaller
        · simpa using le_trans (not_lt.mp smaller) (le_of_lt (less b later))
      have all : (a :: items).filter (fun b => t ≤ key b) = a :: items := by
        refine List.filter_eq_self.mpr fun b member => ?_
        rcases List.mem_cons.mp member with rfl | later
        · simpa using smaller
        · simpa using le_trans (not_lt.mp smaller) (le_of_lt (less b later))
      rw [none,all,List.nil_append]

end Sorted

end LevelDB
