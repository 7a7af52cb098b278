import LevelDB.VersionLookup

/-! The level of a flush. `PickLevelForMemTableOutput` pushes a table below level 0 only
past levels where no file meets its range of user keys. -/
namespace LevelDB

variable {K V : Type} [LinearOrder K]

/-- The file and the range of user keys share no user key. -/
def Misses (smallest largest : K) (f : FileMetaData K) : Prop :=
  f.largest.userKey < smallest ∨ largest < f.smallest.userKey

section Flush
variable {v : Version K} {tables : Tables K V}

theorem Version.Wf.misses_of_no_overlap (wf : v.Wf tables) (level : Nat) (smallest largest : K)
    (none : v.overlapInLevel level (some smallest) (some largest) = false) :
    ∀ f ∈ v.files level, Misses smallest largest f := by
  unfold Version.overlapInLevel someFileOverlapsRange at none
  by_cases zero : level = 0
  · subst zero
    intro f hf
    simp only [lt_irrefl,decide_false,Bool.false_eq_true,if_false,List.any_eq_false] at none
    have out := none f hf
    simp only [afterFile,beforeFile,Option.any_some,Bool.not_eq_true',Bool.or_eq_false_iff,
      decide_eq_false_iff_not] at out
    by_contra met
    simp only [Misses,not_or] at met
    exact out met
  have deep : 1 ≤ level := by omega
  have positive : 0 < level := deep
  simp only [positive,decide_true,if_true] at none
  obtain ⟨before,after,split,index,below,above⟩ := findFile_spec (v.files level)
    (lookupKey smallest kMaxSequenceNumber) (wf.largest_sorted level deep)
  have left : ∀ f ∈ before, f.largest.userKey < smallest := by
    intro f hf
    have member : f ∈ v.files level := by rw [split]; exact List.mem_append_left _ hf
    have holds := wf.holds level f member
    obtain ⟨e,he,largest⟩ := holds.exists_largest
    have lt := below f hf
    rw [largest] at lt ⊢
    by_contra ge
    have reached : lookupKey smallest kMaxSequenceNumber ≤ e.key := by
      rw [lookup_le]
      rcases lt_or_eq_of_le (not_lt.mp ge) with beyond | same
      · exact .inl beyond
      · exact .inr ⟨same,holds.bounded e he⟩
    exact absurd lt (not_lt_of_ge reached)
  intro f hf
  rw [split] at hf
  rcases List.mem_append.mp hf with early | late
  · exact .inl (left f early)
  right
  rw [index,split,List.getElem?_append_right (le_refl _),Nat.sub_self] at none
  obtain ⟨g,rest,rfl⟩ := List.exists_cons_of_ne_nil (List.ne_nil_of_mem late)
  simp only [List.getElem?_cons_zero,Bool.not_eq_false',beforeFile,Option.any_some,
    decide_eq_true_eq] at none
  rcases List.mem_cons.mp late with rfl | later
  · exact none
  · have pairs := wf.disjoint level deep
    rw [split] at pairs
    have lt := (List.pairwise_cons.mp (List.pairwise_append.mp pairs).2.1).1 f later
    have range := (wf.holds level g (by rw [split]; simp)).range
    exact lt_of_lt_of_le none (InternalKey.userKey_le (range.trans lt.le))

theorem Version.Wf.pickLevelLoop_spec (wf : v.Wf tables) (o : Options K V) (smallest largest : K)
    (fuel level : Nat) (missed : ∀ l, l ≤ level → ∀ f ∈ v.files l, Misses smallest largest f) :
    v.pickLevelLoop o smallest largest fuel level ≤ level + fuel ∧
      ∀ l, l ≤ v.pickLevelLoop o smallest largest fuel level →
        ∀ f ∈ v.files l, Misses smallest largest f := by
  induction fuel generalizing level with
  | zero => exact ⟨le_refl _,missed⟩
  | succ fuel ih =>
    rw [Version.pickLevelLoop]
    split
    · exact ⟨by omega,missed⟩
    · rename_i free
      split
      · exact ⟨by omega,missed⟩
      · have next : ∀ l, l ≤ level + 1 → ∀ f ∈ v.files l, Misses smallest largest f := by
          intro l hl
          rcases Nat.lt_or_eq_of_le hl with lower | rfl
          · exact missed l (by omega)
          · exact wf.misses_of_no_overlap _ _ _ (by simpa using free)
        obtain ⟨bound,all⟩ := ih (level + 1) next
        exact ⟨by omega,all⟩

theorem pickLevel_lt (v : Version K) (o : Options K V) (smallest largest : K) :
    v.pickLevelForMemTableOutput o smallest largest < kNumLevels := by
  have loop : ∀ fuel level, v.pickLevelLoop o smallest largest fuel level ≤ level + fuel := by
    intro fuel
    induction fuel with
    | zero => exact fun _ => le_rfl
    | succ fuel ih =>
      intro level
      rw [Version.pickLevelLoop]
      split
      · omega
      · split
        · omega
        · have := ih (level + 1)
          omega
  rw [Version.pickLevelForMemTableOutput]
  split
  · decide
  · exact (loop _ _).trans_lt (by decide)

/-- A flush below level 0 misses every file down to its level. -/
theorem Version.Wf.pickLevel_spec (wf : v.Wf tables) (o : Options K V) (smallest largest : K) :
    v.pickLevelForMemTableOutput o smallest largest ≤ kMaxMemCompactLevel ∧
      (1 ≤ v.pickLevelForMemTableOutput o smallest largest →
        ∀ l, l ≤ v.pickLevelForMemTableOutput o smallest largest →
          ∀ f ∈ v.files l, Misses smallest largest f) := by
  unfold Version.pickLevelForMemTableOutput
  split
  · exact ⟨Nat.zero_le _,by omega⟩
  · rename_i free
    obtain ⟨bound,all⟩ := wf.pickLevelLoop_spec o smallest largest kMaxMemCompactLevel 0 (by
      intro l hl
      obtain rfl : l = 0 := by omega
      exact wf.misses_of_no_overlap 0 _ _ (by simpa using free))
    exact ⟨by omega,fun _ => all⟩

end Flush

end LevelDB
