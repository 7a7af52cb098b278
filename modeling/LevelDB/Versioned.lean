import Mathlib.Data.Set.Finite.Lemmas

/-! Timestamped records. A set of records, each with a key, a time and perhaps a
value, answers a read of a key as of a time by its newest record. The laws say when
two sets answer alike: when newer layers are put on top, and when obsolete records
are dropped. -/
namespace LevelDB.Versioned

variable {α κ τ ν : Type*} [LinearOrder τ] (key : α → κ) (time : α → τ) (value : α → Option ν)

/-- `a` is the newest record of `k` in `S` as of time `s`. -/
structure IsNewest (S : Set α) (k : κ) (s : τ) (a : α) : Prop where
  member : a ∈ S
  same : key a = k
  visible : time a ≤ s
  newest : ∀ b ∈ S, key b = k → time b ≤ s → time b ≤ time a

/-- Nothing of `k` is in `S` as of time `s`. -/
def Absent (S : Set α) (k : κ) (s : τ) : Prop := ∀ a ∈ S, key a = k → ¬time a ≤ s

/-- `S` answers `r` for `k` as of `s`: the value of the newest record, and nothing if
that record is a deletion or there is none. -/
def Reads (S : Set α) (k : κ) (s : τ) (r : Option ν) : Prop :=
  (∃ a, IsNewest key time S k s a ∧ value a = r) ∨ (Absent key time S k s ∧ r = none)

/-- Of one key no two records have one time. -/
def Distinct (S : Set α) : Prop := ∀ a ∈ S, ∀ b ∈ S, key a = key b → time a = time b → a = b

/-- Every record of `P` is newer than every record of `Q` of the same key. -/
def Newer (P Q : Set α) : Prop := ∀ a ∈ P, ∀ b ∈ Q, key a = key b → time b < time a

/-- `T` keeps enough of `S` to answer every read as of `floor` or later. -/
structure Covers (T S : Set α) (floor : τ) : Prop where
  subset : T ⊆ S
  reads : ∀ k s r, floor ≤ s → Reads key time value S k s r → Reads key time value T k s r

variable {key time value}

omit [LinearOrder τ] in
theorem Distinct.mono {S T : Set α} (distinct : Distinct key time S) (subset : T ⊆ S) :
    Distinct key time T :=
  fun a ha b hb => distinct a (subset ha) b (subset hb)

theorem Newer.mono {P P' Q Q' : Set α} (newer : Newer key time P Q) (left : P' ⊆ P)
    (right : Q' ⊆ Q) : Newer key time P' Q' :=
  fun a ha b hb => newer a (left ha) b (right hb)

theorem IsNewest.not_absent {S : Set α} {k : κ} {s : τ} {a : α} (newest : IsNewest key time S k s a) :
    ¬Absent key time S k s :=
  fun absent => absent a newest.member newest.same newest.visible

theorem Reads.unique {S : Set α} {k : κ} {s : τ} {r r' : Option ν}
    (distinct : Distinct key time S) (first : Reads key time value S k s r)
    (second : Reads key time value S k s r') : r = r' := by
  rcases first with ⟨a,ha,rfl⟩ | ⟨absent,rfl⟩
  · rcases second with ⟨b,hb,rfl⟩ | ⟨absent,-⟩
    · have times : time a = time b := le_antisymm
        (hb.newest a ha.member ha.same ha.visible) (ha.newest b hb.member hb.same hb.visible)
      rw [distinct a ha.member b hb.member (ha.same.trans hb.same.symm) times]
    · exact absurd absent ha.not_absent
  · rcases second with ⟨b,hb,-⟩ | ⟨-,rfl⟩
    · exact absurd absent hb.not_absent
    · rfl

/-- A finite set answers every read. -/
theorem Reads.exists {S : Set α} (finite : S.Finite) (k : κ) (s : τ) :
    ∃ r, Reads key time value S k s r := by
  by_cases absent : Absent key time S k s
  · exact ⟨none,.inr ⟨absent,rfl⟩⟩
  · simp only [Absent,not_forall,not_not] at absent
    obtain ⟨a,member,same,visible⟩ := absent
    have part : {b ∈ S | key b = k ∧ time b ≤ s}.Finite := finite.subset fun b hb => hb.1
    obtain ⟨m,⟨hm,keyed,seen⟩,top⟩ := Set.exists_max_image _ time part ⟨a,member,same,visible⟩
    exact ⟨value m,.inl ⟨m,⟨hm,keyed,seen,fun b hb hk hs => top b ⟨hb,hk,hs⟩⟩,rfl⟩⟩

/-- The newest record of the upper layer is the newest of both. -/
theorem IsNewest.upper {P Q : Set α} {k : κ} {s : τ} {a : α} (newer : Newer key time P Q)
    (newest : IsNewest key time P k s a) : IsNewest key time (P ∪ Q) k s a := by
  refine ⟨.inl newest.member,newest.same,newest.visible,?_⟩
  rintro b (hb | hb) same visible
  · exact newest.newest b hb same visible
  · exact le_of_lt (newer a newest.member b hb (newest.same.trans same.symm))

/-- If the upper layer has nothing, the lower one decides. -/
theorem IsNewest.lower {P Q : Set α} {k : κ} {s : τ} {a : α} (absent : Absent key time P k s)
    (newest : IsNewest key time Q k s a) : IsNewest key time (P ∪ Q) k s a := by
  refine ⟨.inr newest.member,newest.same,newest.visible,?_⟩
  rintro b (hb | hb) same visible
  · exact absurd visible (absent b hb same)
  · exact newest.newest b hb same visible

theorem Absent.union {P Q : Set α} {k : κ} {s : τ} (upper : Absent key time P k s)
    (lower : Absent key time Q k s) : Absent key time (P ∪ Q) k s := by
  rintro a (ha | ha)
  · exact upper a ha
  · exact lower a ha

theorem Reads.lower {P Q : Set α} {k : κ} {s : τ} {r : Option ν} (absent : Absent key time P k s)
    (reads : Reads key time value Q k s r) : Reads key time value (P ∪ Q) k s r := by
  rcases reads with ⟨a,newest,rfl⟩ | ⟨none,rfl⟩
  · exact .inl ⟨a,newest.lower absent,rfl⟩
  · exact .inr ⟨absent.union none,rfl⟩

/-- A read as of a time depends on what is there by then. -/
theorem Reads.visible {S T : Set α} {k : κ} {s : τ} {r : Option ν} (same : ∀ a, time a ≤ s → (a ∈ S ↔ a ∈ T))
    (reads : Reads key time value S k s r) : Reads key time value T k s r := by
  rcases reads with ⟨a,newest,rfl⟩ | ⟨absent,none⟩
  · refine .inl ⟨a,⟨(same a newest.visible).mp newest.member,newest.same,newest.visible,?_⟩,rfl⟩
    exact fun b hb keyed visible => newest.newest b ((same b visible).mpr hb) keyed visible
  · exact .inr ⟨fun a ha keyed visible => absent a ((same a visible).mpr ha) keyed visible,none⟩

theorem Covers.refl (S : Set α) (floor : τ) : Covers key time value S S floor :=
  ⟨Set.Subset.rfl,fun _ _ _ _ reads => reads⟩

theorem Covers.trans {S T U : Set α} {floor : τ} (first : Covers key time value U T floor)
    (second : Covers key time value T S floor) : Covers key time value U S floor :=
  ⟨first.subset.trans second.subset,
    fun k s r above reads => first.reads k s r above (second.reads k s r above reads)⟩

theorem Covers.raise {S T : Set α} {floor higher : τ} (covers : Covers key time value T S floor)
    (le : floor ≤ higher) : Covers key time value T S higher :=
  ⟨covers.subset,fun k s r above => covers.reads k s r (le.trans above)⟩

/-- A layer of newer records on top of both keeps the answers alike. -/
theorem Covers.layer {S T P : Set α} {floor : τ} (covers : Covers key time value T S floor)
    (newer : Newer key time P S) : Covers key time value (P ∪ T) (P ∪ S) floor := by
  refine ⟨Set.union_subset_union_right P covers.subset,?_⟩
  rintro k s r above (⟨a,newest,rfl⟩ | ⟨absent,rfl⟩)
  · have newerT : Newer key time P T := newer.mono Set.Subset.rfl covers.subset
    rcases newest.member with upper | lower
    · left
      refine ⟨a,IsNewest.upper newerT ⟨upper,newest.same,newest.visible,?_⟩,rfl⟩
      exact fun b hb => newest.newest b (.inl hb)
    · have none : Absent key time P k s := by
        intro b hb same visible
        have later := newer b hb a lower (same.trans newest.same.symm)
        exact absurd (newest.newest b (.inl hb) same visible) (not_le_of_gt later)
      have below : Reads key time value S k s (value a) :=
        .inl ⟨a,⟨lower,newest.same,newest.visible,fun b hb => newest.newest b (.inr hb)⟩,rfl⟩
      exact (covers.reads k s _ above below).lower none
  · have below : Reads key time value S k s (none : Option ν) :=
      .inr ⟨fun b hb => absent b (.inr hb),rfl⟩
    exact (covers.reads k s _ above below).lower fun b hb => absent b (.inl hb)

/-- What may be dropped from `S` so that reads as of `floor` or later stay the same: a
record under a kept one that is already visible, and a record at or under a visible
deletion below which nothing is kept. -/
def Obsolete (key : α → κ) (time : α → τ) (value : α → Option ν) (S T : Set α) (floor : τ) (d : α) : Prop :=
  (∃ a ∈ T, key a = key d ∧ time d < time a ∧ time a ≤ floor) ∨
    ∃ a ∈ S, key a = key d ∧ time d ≤ time a ∧ time a ≤ floor ∧ value a = none ∧
      ∀ b ∈ T, key b = key a → time a < time b

theorem covers_of_obsolete {S T : Set α} {floor : τ} (distinct : Distinct key time S)
    (subset : T ⊆ S) (obsolete : ∀ d ∈ S, d ∉ T → Obsolete key time value S T floor d) :
    Covers key time value T S floor := by
  refine ⟨subset,?_⟩
  rintro k s r above (⟨a,newest,rfl⟩ | ⟨absent,rfl⟩)
  · by_cases kept : a ∈ T
    · exact .inl ⟨a,⟨kept,newest.same,newest.visible,fun b hb => newest.newest b (subset hb)⟩,rfl⟩
    rcases obsolete a newest.member kept with
      ⟨b,hb,same,later,seen⟩ | ⟨b,hb,same,later,seen,deleted,alone⟩
    · have := newest.newest b (subset hb) (same.trans newest.same) (seen.trans above)
      exact absurd later (not_lt_of_ge this)
    · have earlier := newest.newest b hb (same.trans newest.same) (seen.trans above)
      have equal : b = a := distinct b hb a newest.member same (le_antisymm earlier later)
      subst equal
      right
      refine ⟨?_,deleted⟩
      intro c hc keyed visible
      have after := alone c hc (keyed.trans newest.same.symm)
      exact absurd (newest.newest c (subset hc) keyed visible) (not_le_of_gt after)
  · exact .inr ⟨fun b hb => absent b (subset hb),rfl⟩

end LevelDB.Versioned
