import Mathlib.Data.List.Nodup
import Mathlib.Data.List.Sort
import Mathlib.Order.UpperLower.Basic

/-! Singly linked lists, by the pointers of their nodes, and the places of nodes in sorted ones. -/
namespace LevelDB

variable {α β : Type}

/-- The pointers lead through the nodes of the list in this order, and the last one to none. -/
def Chain (next : α → Option (Option α)) : List α → Prop
  | [] => True
  | x :: l => next x = some l.head? ∧ Chain next l

namespace Chain
variable {next next' : α → Option (Option α)} {l r : List α} {x p : α}

theorem right (chain : Chain next (l ++ r)) : Chain next r := by
  induction l with
  | nil => exact chain
  | cons y l ih => exact ih chain.2

theorem next_eq (chain : Chain next (l ++ x :: r)) : next x = some r.head? := chain.right.1

theorem congr (chain : Chain next l) (same : ∀ x ∈ l, next' x = next x) : Chain next' l := by
  induction l with
  | nil => trivial
  | cons y l ih =>
    obtain ⟨first,rest⟩ := chain
    constructor
    · exact (same y List.mem_cons_self).trans first
    · exact ih rest fun x member => same x (List.mem_cons_of_mem y member)

/-- A node that points where `p` pointed is linked in by the pointer of `p`. -/
theorem link (chain : Chain next (l ++ p :: r)) (nodup : (l ++ p :: r).Nodup) (fresh : x ∉ l ++ p :: r)
    (ready : next x = some r.head?) (linked : next' p = some (some x)) (same : ∀ y, y ≠ p → next' y = next y) :
    Chain next' (l ++ p :: x :: r) := by
  induction l with
  | nil =>
    have apart : p ∉ r := (List.nodup_cons.mp nodup).1
    have other : x ≠ p := fun equal => fresh (equal ▸ List.mem_cons_self)
    refine ⟨linked,(same x other).trans ready,?_⟩
    apply chain.2.congr
    intro y member
    exact same y fun equal => apart (equal ▸ member)
  | cons y l ih =>
    obtain ⟨first,rest⟩ := chain
    obtain ⟨apart,nodup⟩ := List.nodup_cons.mp nodup
    have other : y ≠ p := fun equal => apart (equal ▸ by simp)
    constructor
    · rw [same y other,first]
      cases l <;> rfl
    · exact ih rest nodup fun member => fresh (List.mem_cons_of_mem y member)

end Chain

/-- The list, cut after a node: up to it all places are in the set, from there on none is. -/
structure CutAt (place : α → β) (below : Set β) (list : List α) (x : α) (after : List α) : Prop where
  cut : ∃ l, list = l ++ x :: after
  left : place x ∈ below
  right : ∀ y ∈ after, place y ∉ below

theorem CutAt.congr {place place' : α → β} {below : Set β} {list after : List α} {x : α} (cut : CutAt place below list x after)
    (same : ∀ y ∈ list, place' y = place y) : CutAt place' below list x after := by
  obtain ⟨⟨l,rfl⟩,left,right⟩ := cut
  refine ⟨⟨l,rfl⟩,?_,?_⟩
  · rw [same x (by simp)]
    exact left
  · intro y member
    rw [same y (by simp [member])]
    exact right y member

section Sorted
variable [Preorder β] {place : α → β} {below : Set β} {list after : List α} {x y : α}

/-- In a sorted list it is enough to look at the node and the one behind it. -/
theorem CutAt.of_head (sorted : list.Pairwise fun x y => place x < place y) (lower : IsLowerSet below) {l : List α}
    (cut : list = l ++ x :: after) (left : place x ∈ below) (right : ∀ y ∈ after.head?, place y ∉ below) :
    CutAt place below list x after := by
  refine ⟨⟨l,cut⟩,left,?_⟩
  subst cut
  have rest := (List.pairwise_cons.mp (List.pairwise_append.mp sorted).2.1).2
  cases after with
  | nil => simp
  | cons z after =>
    have high := right z rfl
    intro y member
    rcases List.mem_cons.mp member with rfl | behind
    · exact high
    · exact fun inside => high (lower ((List.pairwise_cons.mp rest).1 y behind).le inside)

theorem CutAt.before (cut : CutAt place below list x after) (sorted : list.Pairwise fun x y => place x < place y)
    (lower : IsLowerSet below) : ∀ y ∈ list, y ∉ after → place y ∈ below := by
  obtain ⟨⟨l,rfl⟩,left,-⟩ := cut
  intro y member outside
  rcases List.mem_append.mp member with before | behind
  · exact lower ((List.pairwise_append.mp sorted).2.2 y before x List.mem_cons_self).le left
  · rcases List.mem_cons.mp behind with rfl | behind
    · exact left
    · exact absurd behind outside

end Sorted

/-- A place between two neighbours is taken in order. -/
theorem pairwise_insert {r : α → α → Prop} {l : List α} {after : List α} {p x : α} (sorted : (l ++ p :: after).Pairwise r)
    (trans : ∀ {a b c}, r a b → r b c → r a c) (above : r p x) (below : ∀ y ∈ after, r x y) : (l ++ p :: x :: after).Pairwise r := by
  obtain ⟨left,right,cross⟩ := List.pairwise_append.mp sorted
  obtain ⟨first,rest⟩ := List.pairwise_cons.mp right
  apply List.pairwise_append.mpr
  refine ⟨left,List.pairwise_cons.mpr ⟨?_,List.pairwise_cons.mpr ⟨below,rest⟩⟩,?_⟩
  · intro y member
    rcases List.mem_cons.mp member with rfl | behind
    · exact above
    · exact first y behind
  · intro a member b inside
    rcases List.mem_cons.mp inside with rfl | inside
    · exact cross a member b List.mem_cons_self
    · rcases List.mem_cons.mp inside with rfl | behind
      · exact trans (cross a member p List.mem_cons_self) above
      · exact cross a member b (List.mem_cons_of_mem p behind)

/-! A list cut at a property is searched at the cut. -/

theorem find?_of_cut {left right : List α} {q : α → Bool} (before : ∀ a ∈ left, q a = false) (behind : ∀ a ∈ right, q a = true) :
    (left ++ right).find? q = right.head? := by
  have none : left.find? q = none := List.find?_eq_none.mpr fun a member => by simp [before a member]
  rw [List.find?_append,none,Option.none_or]
  cases right with
  | nil => rfl
  | cons a right => exact List.find?_cons_of_pos (behind a List.mem_cons_self)

theorem filter_of_cut {left right : List α} {q : α → Bool} (before : ∀ a ∈ left, q a = true) (behind : ∀ a ∈ right, q a = false) :
    (left ++ right).filter q = left := by
  have none : right.filter q = [] := List.filter_eq_nil_iff.mpr fun a member => by simp [behind a member]
  rw [List.filter_append,none,List.append_nil]
  exact List.filter_eq_self.mpr before

end LevelDB
