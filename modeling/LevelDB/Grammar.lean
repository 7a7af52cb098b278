import Mathlib.Data.List.Basic

/-! Readers and what they accept. A reader takes a value off the front of a list of tokens;
it recognizes a form when it succeeds exactly on the lists that start with tokens of that form. -/
namespace LevelDB.Grammar

variable {τ α β γ : Type}

/-- The reader takes off exactly the tokens of the form. -/
def Recognizes (read : List τ → Option (α × List τ)) (form : List τ → α → Prop) : Prop :=
  ∀ input a rest, read input = some (a,rest) ↔ ∃ tokens, input = tokens ++ rest ∧ form tokens a

/-- One form after another. -/
def Then (first : List τ → α → Prop) (second : α → List τ → β → Prop) (tokens : List τ) (b : β) : Prop :=
  ∃ a left right, tokens = left ++ right ∧ first left a ∧ second a right b

theorem Recognizes.bind {read : List τ → Option (α × List τ)} {form : List τ → α → Prop}
    {read' : α → List τ → Option (β × List τ)} {form' : α → List τ → β → Prop} (first : Recognizes read form)
    (second : ∀ a, Recognizes (read' a) (form' a)) :
    Recognizes (fun input => (read input).bind fun r => read' r.1 r.2) (Then form form') := by
  intro input b rest
  constructor
  · intro done
    obtain ⟨⟨a,middle⟩,started,ended⟩ := Option.bind_eq_some_iff.mp done
    obtain ⟨left,rfl,hleft⟩ := (first input a middle).mp started
    obtain ⟨right,rfl,hright⟩ := (second a middle b rest).mp ended
    exact ⟨left ++ right,by rw [List.append_assoc],a,left,right,rfl,hleft,hright⟩
  · rintro ⟨_,rfl,a,left,right,rfl,hleft,hright⟩
    have started := (first (left ++ right ++ rest) a (right ++ rest)).mpr ⟨left,by rw [List.append_assoc],hleft⟩
    have ended := (second a (right ++ rest) b rest).mpr ⟨right,rfl,hright⟩
    change (read (left ++ right ++ rest)).bind _ = _
    rw [started]
    exact ended

/-- The value is checked. -/
theorem Recognizes.guard {read : List τ → Option (α × List τ)} {form : List τ → α → Prop} (reads : Recognizes read form)
    (p : α → Prop) [DecidablePred p] :
    Recognizes (fun input => (read input).bind fun r => if p r.1 then some r else none) fun tokens a => form tokens a ∧ p a := by
  intro input a rest
  constructor
  · intro done
    obtain ⟨⟨a',rest'⟩,started,ended⟩ := Option.bind_eq_some_iff.mp done
    by_cases holds : p a'
    · rw [if_pos holds] at ended
      cases ended
      obtain ⟨tokens,rfl,formed⟩ := (reads input a rest).mp started
      exact ⟨tokens,rfl,formed,holds⟩
    · rw [if_neg holds] at ended
      cases ended
  · rintro ⟨tokens,rfl,formed,holds⟩
    have started := (reads (tokens ++ rest) a rest).mpr ⟨tokens,rfl,formed⟩
    change (read (tokens ++ rest)).bind _ = _
    rw [started]
    exact if_pos holds

theorem Recognizes.map {read : List τ → Option (α × List τ)} {form : List τ → α → Prop} (reads : Recognizes read form) (f : α → β) :
    Recognizes (fun input => (read input).map fun r => (f r.1,r.2)) fun tokens b => ∃ a, form tokens a ∧ f a = b := by
  intro input b rest
  constructor
  · intro done
    obtain ⟨⟨a,rest'⟩,started,ended⟩ := Option.map_eq_some_iff.mp done
    cases ended
    obtain ⟨tokens,rfl,formed⟩ := (reads input a rest').mp started
    exact ⟨tokens,rfl,a,formed,rfl⟩
  · rintro ⟨tokens,rfl,a,formed,rfl⟩
    have started := (reads (tokens ++ rest) a rest).mpr ⟨tokens,rfl,formed⟩
    change (read (tokens ++ rest)).map _ = _
    rw [started]
    rfl

/-- What is read back from tokens of the form. -/
theorem Recognizes.append {read : List τ → Option (α × List τ)} {form : List τ → α → Prop} (reads : Recognizes read form)
    {tokens : List τ} {a : α} (formed : form tokens a) (rest : List τ) : read (tokens ++ rest) = some (a,rest) :=
  (reads _ _ _).mpr ⟨tokens,rfl,formed⟩

/-- A form that was cut off is refused. -/
theorem Recognizes.truncated {read : List τ → Option (α × List τ)} {form : List τ → α → Prop} (reads : Recognizes read form)
    {tokens whole : List τ} {a : α} (formed : form whole a) (part : tokens <+: whole) (proper : tokens ≠ whole) :
    read tokens = none := by
  obtain ⟨missing,rfl⟩ := part
  cases answer : read tokens with
  | none => rfl
  | some r =>
    obtain ⟨first,rfl,inner⟩ := (reads tokens r.1 r.2).mp answer
    have early := reads.append inner (r.2 ++ missing)
    have late := reads.append formed []
    rw [List.append_nil,List.append_assoc] at late
    rw [late,Option.some.injEq,Prod.mk.injEq] at early
    have none := (List.append_eq_nil_iff.mp early.2.symm).2
    exact absurd (by rw [none,List.append_nil]) proper

/-- A list of values, each with its tokens. -/
inductive Many (form : List τ → α → Prop) : List τ → List α → Prop
  | nil : Many form [] []
  | cons {tokens rest : List τ} {a : α} {l : List α} (head : form tokens a) (tail : Many form rest l) :
    Many form (tokens ++ rest) (a :: l)

theorem Many.append {form : List τ → α → Prop} {left right : List τ} {l m : List α} (first : Many form left l)
    (second : Many form right m) : Many form (left ++ right) (l ++ m) := by
  induction first with
  | nil => exact second
  | cons head tail ih =>
    rw [List.append_assoc]
    exact .cons head ih

theorem Many.single {form : List τ → α → Prop} {tokens : List τ} {a : α} (formed : form tokens a) :
    Many form tokens [a] := by
  simpa using Many.cons formed Many.nil

theorem Many.flatMap {form : List τ → β → Prop} {encode : α → List τ} {value : α → β} {l : List α}
    (formed : ∀ a ∈ l, form (encode a) (value a)) : Many form (l.flatMap encode) (l.map value) := by
  induction l with
  | nil => exact .nil
  | cons a l ih =>
    rw [List.flatMap_cons,List.map_cons]
    exact .cons (formed a List.mem_cons_self) (ih fun b hb => formed b (List.mem_cons_of_mem a hb))

theorem Many.optional {form : List τ → β → Prop} {encode : α → List τ} {value : α → β} {o : Option α}
    (formed : ∀ a ∈ o, form (encode a) (value a)) : Many form (o.elim [] encode) (o.toList.map value) := by
  cases o with
  | none => exact .nil
  | some a => exact .single (formed a rfl)

end LevelDB.Grammar
