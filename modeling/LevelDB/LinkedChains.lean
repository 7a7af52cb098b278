import Mathlib.Data.List.Nodup
import Mathlib.Logic.Function.Basic

/-! Singly linked chains. A node is its address, and the links of all chains lie in one map. -/
namespace LevelDB

variable {α : Type}

/-- From the pointer `p` the links go through the list to the pointer `q`. -/
def Trail (next : α → Option α) : Option α → List α → Option α → Prop
  | p, [], q => p = q
  | p, x :: l, q => p = some x ∧ Trail next (next x) l q

namespace Trail
open Function (update update_self update_of_ne)
variable {next next' : α → Option α} {p q m : Option α} {l r : List α} {x : α}

theorem append : Trail next p (l ++ r) q ↔ ∃ m, Trail next p l m ∧ Trail next m r q := by
  induction l generalizing p with
  | nil => simp [Trail]
  | cons y l ih => simp only [List.cons_append,Trail,ih,exists_and_left,and_assoc]

/-- A trail looks at the links of its own nodes. -/
theorem congr (trail : Trail next p l q) (same : ∀ x ∈ l, next' x = next x) : Trail next' p l q := by
  induction l generalizing p with
  | nil => exact trail
  | cons y l ih =>
    have here : next' y = next y := same y List.mem_cons_self
    refine ⟨trail.1,?_⟩
    simp only [here]
    exact ih trail.2 fun x member => same x (List.mem_cons_of_mem y member)

theorem head (trail : Trail next p l none) : p = l.head? := by
  cases l with
  | nil => exact trail
  | cons y l => exact trail.1

/-- The last link is sent elsewhere. -/
theorem redirect [DecidableEq α] (trail : Trail next p (l ++ [x]) q) (outside : x ∉ l) :
    Trail (update next x m) p (l ++ [x]) m := by
  obtain ⟨r,before,found,-⟩ := append.mp trail
  have kept : Trail (update next x m) p l r := by
    apply before.congr
    intro y member
    have other : y ≠ x := by
      rintro rfl
      exact outside member
    exact update_of_ne other ..
  have last : update next x m x = m := update_self ..
  exact append.mpr ⟨r,kept,found,last⟩

end Trail

/-- Every chain begins at its head and ends at the null pointer. -/
structure Chains (next : α → Option α) (heads : List (Option α)) (chains : List (List α)) : Prop where
  length : heads.length = chains.length
  trail : ∀ {i : Nat} {p l}, heads[i]? = some p → chains[i]? = some l → Trail next p l none

namespace Chains
variable {next next' : α → Option α} {heads : List (Option α)} {chains : List (List α)} {p : Option α} {l : List α} {i : Nat}

theorem found (linked : Chains next heads chains) (here : chains[i]? = some l) : heads[i]? = some l.head? := by
  have bound : i < heads.length := by
    have bound := (List.getElem?_eq_some_iff.mp here).1
    have same := linked.length
    omega
  have head := linked.trail (List.getElem?_eq_getElem bound) here
  simp only [List.getElem?_eq_getElem bound,head.head]

/-- Links of other nodes do not matter. -/
theorem congr (linked : Chains next heads chains) (same : ∀ x ∈ chains.flatten, next' x = next x) :
    Chains next' heads chains := by
  refine ⟨linked.length,?_⟩
  intro i p l head chain
  apply (linked.trail head chain).congr
  intro x member
  exact same x (List.mem_flatten.mpr ⟨l,List.mem_of_getElem? chain,member⟩)

/-- The chain of one head is replaced, and the links of the others are kept. -/
theorem set (linked : Chains next heads chains) (trail : Trail next' p l none)
    (same : ∀ j l, j ≠ i → chains[j]? = some l → ∀ x ∈ l, next' x = next x) :
    Chains next' (heads.set i p) (chains.set i l) := by
  constructor
  · simpa using linked.length
  · intro j p' l' head chain
    by_cases here : i = j
    · subst here
      simp only [List.getElem?_set_self'] at head chain
      obtain ⟨_,-,rfl⟩ := Option.map_eq_some_iff.mp head
      obtain ⟨_,-,rfl⟩ := Option.map_eq_some_iff.mp chain
      exact trail
    · simp only [List.getElem?_set_ne here] at head chain
      exact (linked.trail head chain).congr (same j l' (Ne.symm here) chain)

/-- The links of one chain change, and its head stays. -/
theorem keep (linked : Chains next heads chains) (head : heads[i]? = some p) (trail : Trail next' p l none)
    (same : ∀ j l, j ≠ i → chains[j]? = some l → ∀ x ∈ l, next' x = next x) :
    Chains next' heads (chains.set i l) := by
  have unchanged : heads.set i p = heads := by
    obtain ⟨bound,there⟩ := List.getElem?_eq_some_iff.mp head
    simp only [← there,List.set_getElem_self]
  simpa only [unchanged] using linked.set trail same

end Chains

end LevelDB
