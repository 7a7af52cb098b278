import Mathlib.Data.List.Nodup
import Mathlib.Logic.Function.Basic

/-! Circular doubly linked lists. A node is its address; every list has a head that is no
element, and the links of all lists lie in two maps. -/
namespace LevelDB

variable {α : Type}

structure Links (α : Type) where
  next : α → α
  prev : α → α

/-- From `a` the links go through the list to `b`, and back. -/
def Links.Path (k : Links α) : α → List α → α → Prop
  | a, [], b => k.next a = b ∧ k.prev b = a
  | a, x :: l, b => k.next a = x ∧ k.prev x = a ∧ k.Path x l b

/-- The list with this head has these elements. -/
structure Links.Ring (k : Links α) (head : α) (l : List α) : Prop where
  path : k.Path head l head
  nodup : (head :: l).Nodup

namespace Links
open Function (update update_self update_of_ne)
variable {k k' : Links α} {a b x head : α} {l r : List α}

theorem path_append : k.Path a (l ++ x :: r) b ↔ k.Path a l x ∧ k.Path x r b := by
  induction l generalizing a with
  | nil =>
    simp only [List.nil_append,Path]
    exact and_assoc.symm
  | cons y l ih => simp only [List.cons_append,Path,ih,and_assoc]

/-- A path looks at the successors of its first nodes and the predecessors of its last. -/
theorem Path.congr (path : k.Path a l b) (next : ∀ x ∈ a :: l, k'.next x = k.next x)
    (prev : ∀ x ∈ b :: l, k'.prev x = k.prev x) : k'.Path a l b := by
  induction l generalizing a with
  | nil =>
    obtain ⟨forth,back⟩ := path
    exact ⟨(next a List.mem_cons_self).trans forth,(prev b List.mem_cons_self).trans back⟩
  | cons y l ih =>
    obtain ⟨forth,back,rest⟩ := path
    refine ⟨(next a List.mem_cons_self).trans forth,(prev y (by simp)).trans back,ih rest ?_ ?_⟩
    · intro x member
      exact next x (List.mem_cons_of_mem a member)
    · intro x member
      rcases List.mem_cons.mp member with rfl | inside
      · exact prev x List.mem_cons_self
      · exact prev x (List.mem_cons_of_mem b (List.mem_cons_of_mem y inside))

/-- The node before the end of a path. -/
theorem Path.last (path : k.Path a l b) : k.prev b ∈ a :: l := by
  induction l generalizing a with
  | nil => exact List.mem_cons.mpr (.inl path.2)
  | cons y l ih => exact List.mem_cons_of_mem a (ih path.2.2)

theorem Path.first (path : k.Path a l b) : k.next a ∈ b :: l := by
  cases l with
  | nil => exact List.mem_cons.mpr (.inl path.1)
  | cons y l => exact List.mem_cons_of_mem b (List.mem_cons.mpr (.inl path.1))

theorem Ring.prev_mem (ring : k.Ring head l) : k.prev head ∈ head :: l := ring.path.last

/-- A list is empty if its head is its own successor. -/
theorem Ring.next_head (ring : k.Ring head l) : k.next head = head ↔ l = [] := by
  cases l with
  | nil => simpa using ring.path.1
  | cons y l =>
    have forth : k.next head = y := ring.path.1
    have apart := ring.nodup
    simp only [List.nodup_cons,List.mem_cons,not_or] at apart
    simp only [forth,reduceCtorEq,iff_false]
    exact fun same => apart.1.1 same.symm

theorem Ring.next_cons (ring : k.Ring head (x :: l)) : k.next head = x := ring.path.1

/-- The neighbours of an element are on its list. -/
theorem Ring.neighbours (ring : k.Ring head l) (member : x ∈ l) : k.next x ∈ head :: l ∧ k.prev x ∈ head :: l := by
  obtain ⟨l,r,rfl⟩ := List.append_of_mem member
  obtain ⟨before,after⟩ := path_append.mp ring.path
  have first := after.first
  have last := before.last
  simp only [List.mem_cons,List.mem_append] at first last ⊢
  tauto

/-- The last node of a path is sent elsewhere. -/
theorem Path.redirect (path : k.Path a l b) (distinct : (a :: l).Nodup) {c : α} (forth : k'.next (k.prev b) = c)
    (back : k'.prev c = k.prev b) (next : ∀ x ∈ a :: l, x ≠ k.prev b → k'.next x = k.next x)
    (prev : ∀ x ∈ l, k'.prev x = k.prev x) : k'.Path a l c := by
  induction l generalizing a with
  | nil =>
    rw [path.2] at forth back
    exact ⟨forth,back⟩
  | cons y l ih =>
    obtain ⟨apart,distinct⟩ := List.nodup_cons.mp distinct
    have other : a ≠ k.prev b := fun same => apart (same ▸ path.2.2.last)
    refine ⟨(next a List.mem_cons_self other).trans path.1,(prev y List.mem_cons_self).trans path.2.1,?_⟩
    apply ih path.2.2 distinct
    · intro x member
      exact next x (List.mem_cons_of_mem a member)
    · intro x member
      exact prev x (List.mem_cons_of_mem y member)

section Moves
variable [DecidableEq α]

/-- Take a node out of the list it is on. -/
def remove (k : Links α) (e : α) : Links α :=
  ⟨update k.next (k.prev e) (k.next e),update k.prev (k.next e) (k.prev e)⟩

/-- Put a node just before the head of a list. -/
def append (k : Links α) (head e : α) : Links α :=
  ⟨update (update k.next e head) (k.prev head) e,update (update k.prev e (k.prev head)) head e⟩

theorem Ring.remove (ring : k.Ring head l) (member : x ∈ l) : (k.remove x).Ring head (l.erase x) := by
  refine ⟨?_,ring.nodup.sublist (List.erase_sublist.cons_cons head)⟩
  obtain ⟨l,r,rfl⟩ := List.append_of_mem member
  have distinct := ring.nodup
  obtain ⟨before,after⟩ := path_append.mp ring.path
  simp only [List.nodup_cons,List.mem_append,List.mem_cons,List.nodup_append,not_or] at distinct
  obtain ⟨⟨outside,apart,outside'⟩,left,⟨once,right⟩,cross⟩ := distinct
  have fresh : x ∉ l := fun inside => cross x inside x (.inl rfl) rfl
  rw [List.erase_append_right _ fresh,List.erase_cons_head]
  -- The two neighbours of `x` now point at each other; all other links are as before.
  have low : k.prev x ∈ head :: l := before.last
  have high : k.next x ∈ head :: r := after.first
  have start : (k.remove x).Path head l (k.next x) := by
    apply before.redirect (List.nodup_cons.mpr ⟨outside,left⟩)
    · exact update_self _ _ _
    · exact update_self _ _ _
    · intro y _ other
      exact update_of_ne other _ _
    · intro y inside
      refine update_of_ne (fun same => ?_) _ _
      rcases List.mem_cons.mp high with first | later
      · exact outside (first ▸ same ▸ inside)
      · exact cross y inside y (.inr (same ▸ later)) rfl
  cases r with
  | nil =>
    rw [List.append_nil]
    exact after.1 ▸ start
  | cons z r =>
    obtain ⟨forth,-,rest⟩ := after
    rw [forth] at start
    refine path_append.mpr ⟨start,rest.congr ?_ ?_⟩
    · intro y inside
      refine update_of_ne (fun same => ?_) _ _
      rcases List.mem_cons.mp low with first | earlier
      · exact outside' (first ▸ same ▸ inside)
      · exact cross y (same ▸ earlier) y (.inr inside) rfl
    · intro y inside
      refine update_of_ne (fun same => ?_) _ _
      rw [forth] at same
      rcases List.mem_cons.mp inside with first | later
      · exact outside' (by simp [← first,same])
      · exact (List.nodup_cons.mp right).1 (same ▸ later)

theorem Ring.append (ring : k.Ring head l) (fresh : x ∉ head :: l) : (k.append head x).Ring head (l ++ [x]) := by
  obtain ⟨outside,distinct⟩ := List.nodup_cons.mp ring.nodup
  obtain ⟨other,absent⟩ := not_or.mp (List.mem_cons.not.mp fresh)
  have last := ring.prev_mem
  refine ⟨path_append.mpr ⟨ring.path.redirect ring.nodup ?_ ?_ ?_ ?_,?_,?_⟩,?_⟩
  · exact update_self _ _ _
  · exact (update_of_ne other _ _).trans (update_self _ _ _)
  · intro y inside elsewhere
    have apart : y ≠ x := fun same => fresh (same ▸ inside)
    exact (update_of_ne elsewhere _ _).trans (update_of_ne apart _ _)
  · intro y inside
    have apart : y ≠ x := fun same => absent (same ▸ inside)
    have apart' : y ≠ head := fun same => outside (same ▸ inside)
    exact (update_of_ne apart' _ _).trans (update_of_ne apart _ _)
  · have apart : x ≠ k.prev head := fun same => fresh (same ▸ last)
    exact (update_of_ne apart _ _).trans (update_self _ _ _)
  · exact update_self _ _ _
  · have perm : (x :: head :: l).Perm (head :: (l ++ [x])) := by
      refine (List.Perm.swap head x l).trans (List.Perm.cons head ?_)
      exact (List.perm_append_singleton x l).symm
    exact perm.nodup_iff.mp (List.nodup_cons.mpr ⟨fresh,ring.nodup⟩)

section Frame
variable {other : α} {m : List α}

/-- A list keeps its elements when a node of another list is taken out. -/
theorem Ring.remove_other (ring : k.Ring head l) (elsewhere : k.Ring other m) (member : x ∈ m)
    (apart : ∀ y ∈ other :: m, y ∉ head :: l) : (k.remove x).Ring head l := by
  obtain ⟨after,before⟩ := elsewhere.neighbours member
  refine ⟨ring.path.congr ?_ ?_,ring.nodup⟩
  · intro y inside
    have other : y ≠ k.prev x := fun same => apart _ before (same ▸ inside)
    exact update_of_ne other _ _
  · intro y inside
    have other : y ≠ k.next x := fun same => apart _ after (same ▸ inside)
    exact update_of_ne other _ _

theorem Ring.append_other (ring : k.Ring head l) (elsewhere : k.Ring other m) (fresh : x ∉ head :: l)
    (apart : ∀ y ∈ other :: m, y ∉ head :: l) : (k.append other x).Ring head l := by
  refine ⟨ring.path.congr ?_ ?_,ring.nodup⟩
  · intro y inside
    have first : y ≠ k.prev other := fun same => apart _ elsewhere.prev_mem (same ▸ inside)
    have second : y ≠ x := fun same => fresh (same ▸ inside)
    exact (update_of_ne first _ _).trans (update_of_ne second _ _)
  · intro y inside
    have first : y ≠ other := fun same => apart other List.mem_cons_self (same ▸ inside)
    have second : y ≠ x := fun same => fresh (same ▸ inside)
    exact (update_of_ne first _ _).trans (update_of_ne second _ _)

/-- A node goes from one list to the end of another. -/
theorem Ring.move (ring : k.Ring head l) (target : k.Ring other m) (member : x ∈ l)
    (apart : ∀ y ∈ head :: l, y ∉ other :: m) :
    ((k.remove x).append other x).Ring head (l.erase x) ∧ ((k.remove x).append other x).Ring other (m ++ [x]) := by
  have left : (k.remove x).Ring head (l.erase x) := ring.remove member
  have right : (k.remove x).Ring other m := target.remove_other ring member apart
  obtain ⟨first,distinct⟩ := List.nodup_cons.mp ring.nodup
  have gone : x ∉ head :: l.erase x := by
    intro inside
    rcases List.mem_cons.mp inside with rfl | inside
    · exact first member
    · exact (distinct.mem_erase_iff.mp inside).1 rfl
  refine ⟨left.append_other right gone ?_,right.append (apart x (List.mem_cons_of_mem head member))⟩
  intro y inside inside'
  exact apart y (List.Sublist.subset (List.erase_sublist.cons_cons head) inside') inside

end Frame

end Moves

end Links

end LevelDB
