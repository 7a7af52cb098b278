import LevelDB.Reachable
import Mathlib.Data.PFun

/-! The inputs of a compaction, for any version with deeper levels in order. The loops
that collect them end; files that are left out hold newer entries or none of the same user
keys; growth at the upper level takes no other files of the next one. -/
namespace LevelDB

variable {K V : Type} [LinearOrder K]

/-- The loop of `GetOverlappingInputs`, pass by pass. -/
def overlappingPass (level : Nat) (files : List (FileMetaData K)) :
    (Option K × Option K) →. List (FileMetaData K) ⊕ (Option K × Option K) :=
  fun range => Part.some (scanOverlapping level range.1 range.2 files [])

/-- The loop of `AddBoundaryInputs`, one boundary file at a time. -/
def boundaryPass (files : List (FileMetaData K)) : (InternalKey K × List (FileMetaData K)) →.
    List (FileMetaData K) ⊕ (InternalKey K × List (FileMetaData K)) :=
  fun s => Part.some <| match findSmallestBoundaryFile files s.1 with
    | some f => .inr (f.largest,s.2 ++ [f])
    | none => .inl s.2

section Loops

theorem overlappingLoop_ends (level : Nat) (files : List (FileMetaData K)) (fuel : Nat)
    (first last : Option K) (enough : restarts files first last < fuel) :
    overlappingLoop level files fuel first last ∈ (overlappingPass level files).fix (first,last) := by
  induction fuel generalizing first last with
  | zero => omega
  | succ fuel ih =>
    rw [overlappingLoop]
    rcases scanOverlapping_spec level first last files [] with
      ⟨result,-⟩ | ⟨-,f,member,-,⟨u,rfl,low,result⟩ | ⟨u,rfl,high,result⟩⟩
    · apply PFun.fix_stop
      simp [overlappingPass,result]
    · have fewer := restarts_first last low member
      have again : .inr (some f.smallest.userKey,last) ∈ overlappingPass level files (some u,last) := by
        simp [overlappingPass,result]
      rw [PFun.fix_fwd_eq again,result]
      exact ih _ _ (by omega)
    · have fewer := restarts_last first high member
      have again : .inr (first,some f.largest.userKey) ∈ overlappingPass level files (first,some u) := by
        simp [overlappingPass,result]
      rw [PFun.fix_fwd_eq again,result]
      exact ih _ _ (by omega)

/-- A search for overlapping files ends with the files that the model finds. -/
theorem getOverlappingInputs_ends (v : Version K) (level : Nat) (first last : Option (InternalKey K)) :
    v.getOverlappingInputs level first last ∈ (overlappingPass level (v.files level)).fix
      (first.map (·.userKey),last.map (·.userKey)) :=
  overlappingLoop_ends level _ _ _ _ (Nat.lt_succ_of_le (restarts_le _ _ _))

theorem addBoundaryLoop_ends (files : List (FileMetaData K)) (range : ∀ f ∈ files, f.smallest ≤ f.largest)
    (fuel : Nat) (key : InternalKey K) (inputs : List (FileMetaData K))
    (enough : files.countP (fun f => decide (key < f.smallest)) < fuel) :
    addBoundaryLoop files fuel key inputs ∈ (boundaryPass files).fix (key,inputs) := by
  induction fuel generalizing key inputs with
  | zero => omega
  | succ fuel ih =>
    rw [addBoundaryLoop]
    have spec := findSmallestBoundaryFile_spec files key
    cases found : findSmallestBoundaryFile files key with
    | none =>
      apply PFun.fix_stop
      simp [boundaryPass,found]
    | some b =>
      rw [found] at spec
      obtain ⟨member,boundary,-⟩ := spec
      have beyond := boundary.1.trans_le (range b member)
      have fewer : files.countP (fun f => decide (b.largest < f.smallest)) <
          files.countP fun f => decide (key < f.smallest) := by
        apply countP_lt _ _ files ?_ b member
        · simpa using range b member
        · simpa using boundary.1
        · simpa using fun f _ => beyond.trans
      have again : .inr (b.largest,inputs ++ [b]) ∈ boundaryPass files (key,inputs) := by
        simp [boundaryPass,found]
      rw [PFun.fix_fwd_eq again]
      exact ih _ _ (by omega)

/-- The search for boundary files ends with the files that the model finds. -/
theorem addBoundaryInputs_ends (files inputs : List (FileMetaData K))
    (range : ∀ f ∈ files, f.smallest ≤ f.largest) (key : InternalKey K)
    (largest : findLargestKey inputs = some key) :
    addBoundaryInputs files inputs ∈ (boundaryPass files).fix (key,inputs) := by
  have result : addBoundaryInputs files inputs = addBoundaryLoop files (files.length + 1) key inputs := by
    simp [addBoundaryInputs,largest]
  rw [result]
  exact addBoundaryLoop_ends files range _ key inputs (Nat.lt_succ_of_le List.countP_le_length)

end Loops

/-- The range of user keys of the files meets that of `h`. -/
def MeetsHull (files : List (FileMetaData K)) (h : FileMetaData K) : Prop :=
  ∃ f ∈ files, ∃ g ∈ files, f.smallest.userKey ≤ h.largest.userKey ∧ h.smallest.userKey ≤ g.largest.userKey

/-- Of each user key that `f` shares with the files it has newer entries: greater in
sequence number and type, so in sequence number if no two entries share one. -/
def OnlyNewer (v : Version K) (tables : Tables K V) (f : FileMetaData K) (files : List (FileMetaData K)) :
    Prop :=
  ∀ a ∈ tables f.number, ∀ g ∈ files, ∀ b ∈ tables g.number, a.userKey = b.userKey →
    b.key.tag < a.key.tag ∧ (Distinct (v.entries tables) → b.sequence < a.sequence)

section Parents
variable {v : Version K} {level : Nat} {inputs0 : List (FileMetaData K)}

theorem Version.Sorted.mem_parents (sorted : v.Sorted) (nonempty : inputs0 ≠ []) {h : FileMetaData K}
    (member : h ∈ v.files (level + 1)) (met : MeetsHull inputs0 h) : h ∈ v.parentInputs level inputs0 := by
  obtain ⟨before,after,split,left,right,-⟩ := sorted.parentInputs_spec level inputs0 nonempty
  obtain ⟨f,hf,g,hg,low,high⟩ := met
  rw [split] at member
  rcases List.mem_append.mp member with early | late
  · rcases List.mem_append.mp early with front | inner
    · exact absurd (left h front f hf) (not_lt_of_ge low)
    · exact inner
  · exact absurd (right h late g hg) (not_lt_of_ge high)

/-- The boundary files of the files of the next level are among them. -/
theorem Version.Sorted.parents_boundary (sorted : v.Sorted) (nonempty : inputs0 ≠ []) :
    ∀ f ∈ v.parentInputs level inputs0, ∀ g ∈ v.files (level + 1), Boundary f.largest g →
      g ∈ v.parentInputs level inputs0 := by
  obtain ⟨before,after,split,-,-,apart,-⟩ := sorted.parentInputs_spec level inputs0 nonempty
  have pairs := sorted.disjoint (level + 1) (by omega)
  intro f hf g hg boundary
  rw [split] at hg pairs
  rcases List.mem_append.mp hg with early | late
  · rcases List.mem_append.mp early with front | inner
    · have before := (List.pairwise_append.mp (List.pairwise_append.mp pairs).1).2.2 g front f hf
      have range : f.smallest ≤ f.largest := sorted.range (level + 1) f (by rw [split]; simp [hf])
      have range' : g.smallest ≤ g.largest := sorted.range (level + 1) g (by rw [split]; simp [front])
      exact absurd (boundary.1.trans_le range') (not_lt_of_ge (before.le.trans range))
    · exact inner
  · exact absurd boundary.2 (apart g late f hf).ne'

/-- More files of a level take more of the next. -/
theorem Version.Sorted.parents_mono (sorted : v.Sorted) {more : List (FileMetaData K)}
    (nonempty : inputs0 ≠ []) (subset : ∀ f ∈ inputs0, f ∈ more) :
    ∀ h ∈ v.parentInputs level inputs0, h ∈ v.parentInputs level more := by
  obtain ⟨lo,hi,range,⟨f,hf,low⟩,-,⟨g,hg,high⟩,-⟩ := getRange_spec inputs0 nonempty
  have nonempty' : more ≠ [] := List.ne_nil_of_mem (subset f hf)
  obtain ⟨first,last,found,-,deep,-⟩ := getOverlappingInputs_spec v (level + 1) (some lo) (some hi)
  obtain ⟨rfl,rfl⟩ := deep (by omega)
  apply addBoundaryInputs_within
  · simp only [range,Option.map_some,found]
    intro h hh
    obtain ⟨member,hits⟩ := List.mem_filter.mp hh
    obtain ⟨above,below⟩ := (meets_iff _ _ _).mp hits
    apply sorted.mem_parents nonempty' member
    refine ⟨f,subset f hf,g,subset g hg,?_,?_⟩
    · rw [low]
      exact above _ rfl
    · rw [high]
      exact below _ rfl
  · exact sorted.parents_boundary nonempty'

theorem Version.Sorted.nodup (sorted : v.Sorted) (deep : 1 ≤ level) : (v.files level).Nodup := by
  refine (sorted.disjoint level deep).imp_of_mem ?_
  rintro f g hf - lt rfl
  exact absurd lt (not_lt_of_ge (sorted.range level f hf))

/-- Grown inputs bring the same files of the next level. -/
theorem Version.Sorted.setup_parents (sorted : v.Sorted) (o : Options K V) {c : Compaction K}
    {chosen : List (FileMetaData K)} (setup : v.Setup o c chosen) :
    c.inputs1 = v.parentInputs c.level c.inputs0 ∧
      ∀ h, h ∈ c.inputs1 ↔ h ∈ v.parentInputs c.level (addBoundaryInputs (v.files c.level) chosen) := by
  obtain ⟨chain,result,closed,-⟩ := sorted.closed_of_segment setup.segment setup.nonempty
  set inputs0 := addBoundaryInputs (v.files c.level) chosen with hinputs0
  rw [← result] at closed
  have parts : c.inputs0 = (v.expandInputs o c.level inputs0 (v.parentInputs c.level inputs0)).1 ∧
      c.inputs1 = (v.expandInputs o c.level inputs0 (v.parentInputs c.level inputs0)).2 := by
    constructor
    · rw [setup.result]; rfl
    · rw [setup.result]; rfl
  rcases v.expandInputs_cases o c.level inputs0 with stay | ⟨grow,same⟩
  · rw [stay] at parts
    rw [parts.1,parts.2]
    exact ⟨rfl,fun h => Iff.rfl⟩
  · rw [grow] at parts
    rw [parts.1,parts.2]
    refine ⟨rfl,fun h => ?_⟩
    obtain ⟨parents,-⟩ := sorted.closed_parents c.level inputs0 closed.nonempty
    obtain ⟨subset,-,-⟩ := sorted.grown_spec c.level inputs0 (v.parentInputs c.level inputs0)
      closed.nonempty (fun _ hf => closed.sublist.subset hf) fun _ hf => parents.subset hf
    have mono := @Version.Sorted.parents_mono _ _ _ c.level _ sorted _ closed.nonempty subset
    have nodup : (v.files (c.level + 1)).Nodup := sorted.nodup (Nat.le_add_left 1 c.level)
    exact (((nodup.sublist parents).subperm mono).perm_of_length_le same.le).mem_iff.symm

end Parents

section Claim
variable {v : Version K} {tables : Tables K V} {c : Compaction K}

/-- The meta data of each file bound the keys of its table. -/
def Version.Bounds (v : Version K) (tables : Tables K V) : Prop :=
  ∀ level, ∀ f ∈ v.files level, ∀ e ∈ tables f.number, f.smallest ≤ e.key ∧ e.key ≤ f.largest

theorem Version.Bounds.onlyNewer (bounds : v.Bounds tables) {level : Nat} {f : FileMetaData K}
    {files : List (FileMetaData K)} (member : f ∈ v.files level) (own : ∀ g ∈ files, g ∈ v.files level)
    (beside : ∀ g ∈ files, f.largest < g.smallest ∨ g.largest.userKey < f.smallest.userKey) :
    OnlyNewer v tables f files := by
  intro a ha g hg b hb same
  obtain ⟨low,high⟩ := bounds level f member a ha
  obtain ⟨low',high'⟩ := bounds level g (own g hg) b hb
  rcases beside g hg with lt | lt
  · have before : a.key < b.key := high.trans_lt (lt.trans_le low')
    refine ⟨?_,fun distinct => ?_⟩
    · rcases (InternalKey.lt_iff _ _).mp before with user | ⟨-,tag⟩
      · exact absurd same user.ne
      · exact tag
    · have le := sequence_le_of_key_le same before.le
      refine lt_of_le_of_ne le fun equal => ?_
      have one := distinct a ⟨level,f,member,ha⟩ b ⟨level,g,own g hg,hb⟩ same equal.symm
      exact absurd before (by rw [one]; exact lt_irrefl _)
  · have user := (InternalKey.userKey_le high').trans_lt (lt.trans_le (InternalKey.userKey_le low))
    exact absurd same user.ne'

/-- The inputs of a compaction are closed. -/
theorem compaction_inputs_closed (o : Options K V) (sorted : v.Sorted) (bounds : v.Bounds tables)
    (nodup0 : (v.files 0).Nodup)
    (separate : ∀ level level' f, f ∈ v.files level → f ∈ v.files level' → level = level')
    (built : v.Builds o c) :
    (∀ level first last, v.getOverlappingInputs level first last ∈
      (overlappingPass level (v.files level)).fix (first.map (·.userKey),last.map (·.userKey))) ∧
    (∀ level inputs key, findLargestKey inputs = some key →
      addBoundaryInputs (v.files level) inputs ∈ (boundaryPass (v.files level)).fix (key,inputs)) ∧
    c.inputs.Nodup ∧ (∀ f ∈ c.inputs0, f ∈ v.files c.level) ∧ (∀ f ∈ c.inputs1, f ∈ v.files (c.level + 1)) ∧
    (∀ f ∈ v.files c.level, f ∉ c.inputs0 → OnlyNewer v tables f c.inputs0) ∧
    (∀ h ∈ v.files (c.level + 1), MeetsHull c.inputs0 h → h ∈ c.inputs1) ∧
    (∀ h ∈ v.files (c.level + 1), h ∉ c.inputs1 → OnlyNewer v tables h c.inputs1) ∧
    (∃ chosen, v.Setup o c chosen) ∧ ∀ chosen, v.Setup o c chosen →
      ∀ h, h ∈ c.inputs1 ↔ h ∈ v.parentInputs c.level (addBoundaryInputs (v.files c.level) chosen) := by
  obtain ⟨chosen,setup⟩ := built.setup sorted
  obtain ⟨closed,-⟩ := setup.closed sorted
  obtain ⟨parents,-⟩ := sorted.setup_parents o setup
  have own := fun f hf => closed.own.sublist.subset (a := f) hf
  have next := fun f hf => closed.parents.subset (a := f) hf
  refine ⟨getOverlappingInputs_ends v,?_,?_,own,next,?_,?_,?_,⟨chosen,setup⟩,
    fun chosen setup => (sorted.setup_parents o setup).2⟩
  · exact fun level inputs key => addBoundaryInputs_ends _ _ (sorted.range level) key
  · have nodup : ∀ level, (v.files level).Nodup := by
      intro level
      cases level with
      | zero => exact nodup0
      | succ level => exact sorted.nodup (Nat.succ_pos level)
    refine List.nodup_append.mpr ⟨(nodup _).sublist closed.own.sublist,(nodup _).sublist closed.parents,?_⟩
    rintro f hf g hg rfl
    have level := separate _ _ f (own f hf) (next f hg)
    omega
  · exact fun f hf out => bounds.onlyNewer hf own (closed.own.beside f hf out)
  · intro h hh met
    rw [parents]
    exact sorted.mem_parents closed.own.nonempty hh met
  · intro h hh out
    apply bounds.onlyNewer hh next
    intro g hg
    have member : g ∈ c.inputs := List.mem_append_right _ hg
    exact (closed.around h hh out).imp (fun left => left g member) fun right => right g member

end Claim

section Small

/-- Two files of level 1 share the user key 7, and a file of level 2 spans it. -/
def boundaryVersion : Version Nat := ⟨fun level =>
  if level = 1 then [⟨1,3,⟨6,4,.value⟩,⟨7,3,.value⟩⟩,⟨2,3,⟨7,2,.value⟩,⟨8,4,.value⟩⟩]
  else if level = 2 then [⟨3,3,⟨5,1,.value⟩,⟨8,1,.value⟩⟩] else []⟩

theorem boundaryVersion_cases (level : Nat) (f : FileMetaData Nat) (member : f ∈ boundaryVersion.files level) :
    level = 1 ∧ f = ⟨1,3,⟨6,4,.value⟩,⟨7,3,.value⟩⟩ ∨ level = 1 ∧ f = ⟨2,3,⟨7,2,.value⟩,⟨8,4,.value⟩⟩ ∨
      level = 2 ∧ f = ⟨3,3,⟨5,1,.value⟩,⟨8,1,.value⟩⟩ := by
  by_cases one : level = 1
  · simpa [boundaryVersion,one] using member
  · by_cases two : level = 2
    · simpa [boundaryVersion,two] using member
    · simp [boundaryVersion,one,two] at member

theorem boundaryVersion_sorted : boundaryVersion.Sorted := by
  constructor
  · intro level f member
    rcases boundaryVersion_cases level f member with ⟨-,rfl⟩ | ⟨-,rfl⟩ | ⟨-,rfl⟩ <;> decide
  · intro level deep
    by_cases one : level = 1
    · subst one
      decide
    · by_cases two : level = 2 <;> simp [boundaryVersion,one,two]

def boundaryTables : Tables Nat Nat := fun n =>
  if n = 1 then [⟨6,4,some 1⟩,⟨7,3,some 1⟩] else if n = 2 then [⟨7,2,some 2⟩,⟨8,4,some 2⟩]
  else [⟨5,1,some 3⟩,⟨7,1,none⟩,⟨8,1,some 3⟩]

/-- The second file of level 1 joins the first, though only the first was picked. -/
theorem boundary_inputs_closed :
    let c := boundaryVersion.pickCompaction smallOptions (fun _ => none) (.size 1)
    c.inputs.map (·.number) = [1,2,3] ∧ c.inputs.Nodup := by
  intro c
  have built : boundaryVersion.Builds smallOptions c := .pick (fun _ => none) (.size 1) (by decide)
  have bounds : boundaryVersion.Bounds boundaryTables := by
    intro level f member
    rcases boundaryVersion_cases level f member with ⟨-,rfl⟩ | ⟨-,rfl⟩ | ⟨-,rfl⟩ <;> decide
  obtain ⟨-,-,nodup,-⟩ := compaction_inputs_closed smallOptions boundaryVersion_sorted bounds List.nodup_nil (by
      intro level level' f member member'
      rcases boundaryVersion_cases level f member with ⟨rfl,rfl⟩ | ⟨rfl,rfl⟩ | ⟨rfl,rfl⟩ <;>
        rcases boundaryVersion_cases level' _ member' with ⟨rfl,same⟩ | ⟨rfl,same⟩ | ⟨rfl,same⟩ <;>
        first
        | rfl
        | cases same) built
  exact ⟨by decide,nodup⟩

end Small

end LevelDB
