import Mathlib.Data.List.Basic

/-! Traces of events: what each event of a trace finds in front of it. -/
namespace LevelDB

variable {E : Type}

/-- Each event has the property with the events before it. -/
def EachAfter (P : List E → E → Prop) (t : List E) : Prop :=
  ∀ before e after, t = before ++ e :: after → P before e

namespace EachAfter
variable {P Q : List E → E → Prop} {t more : List E}

theorem nil : EachAfter P [] := by
  intro before e after split
  simp at split

theorem append (old : EachAfter P t) (new : EachAfter (fun before => P (t ++ before)) more) :
    EachAfter P (t ++ more) := by
  intro before e after split
  rcases List.append_eq_append_iff.mp split with ⟨middle,rfl,inside⟩ | ⟨middle,inside,rest⟩
  · exact new middle e after inside
  · cases middle with
    | nil =>
      rw [List.append_nil] at inside
      subst inside
      simpa using new [] e after (by simpa using rest.symm)
    | cons x middle =>
      obtain ⟨rfl,rfl⟩ := List.cons_eq_cons.mp rest
      exact old before e middle inside

/-- Events that are no concern of the property. -/
theorem of_mem (each : ∀ before, ∀ e ∈ t, P before e) : EachAfter P t := by
  rintro before e after rfl
  exact each before e (by simp)

theorem imp (each : EachAfter P t) (weaker : ∀ before e, P before e → Q before e) : EachAfter Q t :=
  fun before e after split => weaker before e (each before e after split)

end EachAfter

end LevelDB
