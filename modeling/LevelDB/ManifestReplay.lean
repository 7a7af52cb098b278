import LevelDB.Recovery
import LevelDB.VersionBuilder

/-! The manifest and the version set in memory. `LogAndApply` builds one version per edit,
`Recover` feeds all edits to one builder, and a new manifest begins with a snapshot. Both
come to the same files, compact pointers and numbers. -/
namespace LevelDB

variable {K : Type} [LinearOrder K]

section Snapshot

theorem flatMap_range_single {α : Type} (n l : Nat) (x : Nat → List α) :
    (List.range n).flatMap (fun k => if k = l then x k else []) = if l < n then x l else [] := by
  induction n with
  | zero => simp
  | succ n ih =>
    rw [List.range_succ,List.flatMap_append,ih]
    rcases Nat.lt_trichotomy l n with lt | rfl | gt
    · simp [lt,Nat.lt_succ_of_lt lt,Nat.ne_of_gt lt]
    · simp
    · have : ¬l < n + 1 := by omega
      simp [Nat.not_lt.mpr gt.le,this,Nat.ne_of_lt gt]

omit [LinearOrder K] in
theorem snapshot_newAt (vs : VersionSet K) (levels : ∀ l, kNumLevels ≤ l → vs.current.files l = [])
    (l : Nat) : vs.snapshot.newAt l = vs.current.files l := by
  have each : ∀ k, (((vs.current.files k).map (k,·)).filterMap fun n : Nat × FileMetaData K =>
      if n.1 = l then some n.2 else none) = if k = l then vs.current.files k else [] := by
    intro k
    rw [List.filterMap_map]
    by_cases same : k = l <;> simp [same]
  rw [VersionEdit.newAt,VersionSet.snapshot,List.filterMap_flatMap]
  simp only [each]
  rw [flatMap_range_single]
  split
  · rfl
  · rename_i deep
    exact (levels l (not_lt.mp deep)).symm

/-- The snapshot of a version, applied to nothing, is the version. -/
theorem VersionSet.apply_snapshot (vs : VersionSet K)
    (levels : ∀ l, kNumLevels ≤ l → vs.current.files l = []) (order : ∀ l, InOrder (vs.current.files l))
    (named : ∀ l, ∀ f ∈ vs.current.files l, ∀ g ∈ vs.current.files l, g.number = f.number → g = f) :
    Version.empty.apply vs.snapshot = vs.current := by
  have newAt := snapshot_newAt vs levels
  have spec := Version.empty.mem_apply vs.snapshot (fun l => List.Pairwise.nil)
    ⟨fun l f _ g hg => absurd hg List.not_mem_nil,fun l f _ g hg => absurd hg List.not_mem_nil,
      by simpa only [newAt] using named⟩
  have files : (Version.empty.apply vs.snapshot).files = vs.current.files := by
    funext l
    refine InOrder.ext (spec.1 l) (order l) fun f => ?_
    rw [spec.2,newAt]
    simp [Version.empty]
  exact congrArg Version.mk files

end Snapshot

section Pointers

omit [LinearOrder K] in
/-- A pointer is the last one that the edit sets, or the old one. -/
theorem setPointers_apply (pointer : Nat → Option (InternalKey K)) (e : VersionEdit K) (l : Nat) :
    setPointers pointer e l =
      ((e.compactPointers.reverse.find? fun c => c.1 == l).map (·.2)).or (pointer l) := by
  obtain ⟨_,_,_,_,pointers,_,_⟩ := e
  simp only [setPointers]
  induction pointers using List.reverseRecOn with
  | nil => rfl
  | append_singleton rest c ih =>
    rw [List.foldl_append,List.foldl_cons,List.foldl_nil,List.reverse_concat,List.find?_cons]
    by_cases here : c.1 = l
    · simp [← here]
    · rw [Function.update_of_ne (Ne.symm here),ih]
      simp only [beq_eq_false_iff_ne.mpr here]

omit [LinearOrder K] in
theorem setPointers_twice (pointer : Nat → Option (InternalKey K)) (e : VersionEdit K) :
    setPointers (setPointers pointer e) e = setPointers pointer e := by
  funext l
  simp only [setPointers_apply]
  cases (e.compactPointers.reverse.find? fun c => c.1 == l).map (·.2) <;> rfl

omit [LinearOrder K] in
theorem setPointers_deep {pointer : Nat → Option (InternalKey K)} {e : VersionEdit K}
    (old : ∀ l, kNumLevels ≤ l → pointer l = none) (new : ∀ c ∈ e.compactPointers, c.1 < kNumLevels)
    (l : Nat) (deep : kNumLevels ≤ l) : setPointers pointer e l = none := by
  have none : e.compactPointers.reverse.find? (fun c => c.1 == l) = none := by
    refine List.find?_eq_none.mpr fun c hc => ?_
    have := new c (List.mem_reverse.mp hc)
    simp only [beq_iff_eq]
    omega
  rw [setPointers_apply,none,old l deep]
  rfl

omit [LinearOrder K] in
/-- A snapshot holds all compact pointers. -/
theorem setPointers_snapshot (vs : VersionSet K) (levels : ∀ l, kNumLevels ≤ l → vs.compactPointer l = none) :
    setPointers (fun _ => none) vs.snapshot = vs.compactPointer := by
  have upTo : ∀ n (l : Nat), ((List.range n).flatMap fun level =>
      (vs.compactPointer level).toList.map (level,·)).foldl
        (fun (p : Nat → Option (InternalKey K)) c => Function.update p c.1 (some c.2)) (fun _ => none) l =
          if l < n then vs.compactPointer l else none := by
    intro n
    induction n with
    | zero => simp
    | succ n ih =>
      intro l
      rw [List.range_succ,List.flatMap_append,List.foldl_append,List.flatMap_singleton]
      cases pointer : vs.compactPointer n with
      | none =>
        rw [Option.toList_none,List.map_nil,List.foldl_nil,ih]
        rcases Nat.lt_trichotomy l n with lt | rfl | gt
        · simp [lt,Nat.lt_succ_of_lt lt]
        · simp [pointer]
        · simp [Nat.not_lt.mpr gt.le,Nat.not_lt.mpr (Nat.succ_le_of_lt gt)]
      | some key =>
        rw [Option.toList_some,List.map_singleton,List.foldl_cons,List.foldl_nil]
        by_cases here : l = n
        · subst here
          simp [pointer]
        · rw [Function.update_of_ne here,ih]
          have iff : l < n ↔ l < n + 1 := by omega
          simp only [iff]
  funext l
  rw [setPointers,VersionSet.snapshot,upTo]
  split
  · rfl
  · rename_i deep
    exact (levels l (not_lt.mp deep)).symm

end Pointers

/-- What is recovered from some edits is the version `v`; a number names one file. -/
structure Recovered.Tracks (file : Nat → Option (FileMetaData K)) (r : Recovered K) (v : Version K) : Prop where
  base : r.builder.base = Version.empty
  builder : r.builder.Wf
  named : ∀ l, ∀ f ∈ r.builder.added l, file f.number = some f
  version : r.builder.saveTo = v

/-- The files an edit adds to a level are not there, and a number names one file. -/
structure VersionEdit.Adds (file : Nat → Option (FileMetaData K)) (e : VersionEdit K) (v : Version K) : Prop where
  named : ∀ n ∈ e.newFiles, file n.2.number = some n.2
  absent : ∀ n ∈ e.newFiles, ∀ g ∈ v.files n.1, g.number ≠ n.2.number

section Tracks
variable {file : Nat → Option (FileMetaData K)} {r : Recovered K} {v : Version K} {e : VersionEdit K}

omit [LinearOrder K] in
theorem eq_of_named {f g : FileMetaData K} (first : file f.number = some f) (second : file g.number = some g)
    (same : g.number = f.number) : g = f := by
  rw [same,first] at second
  exact (Option.some.inj second).symm

theorem Recovered.Tracks.named_version (tracks : r.Tracks file v) {l : Nat} {f : FileMetaData K}
    (member : f ∈ v.files l) : file f.number = some f := by
  rw [← tracks.version,mem_saveTo,tracks.base] at member
  rcases member.1 with old | new
  · cases old
  · exact tracks.named l f new

theorem Recovered.Tracks.inOrder (tracks : r.Tracks file v) (l : Nat) : InOrder (v.files l) := by
  rw [← tracks.version]
  exact tracks.builder.inOrder l

theorem Recovered.start_tracks (file : Nat → Option (FileMetaData K)) : Recovered.start.Tracks file Version.empty :=
  ⟨rfl,Builder.new_wf _ fun _ => List.Pairwise.nil,fun _ _ hf => absurd hf List.not_mem_nil,
    newBuilder_saveTo _⟩

/-- One more edit is read, also one that brings a deleted file back. -/
theorem Recovered.Tracks.step (tracks : r.Tracks file v) (adds : e.Adds file v) :
    (r.step e).Tracks file (v.apply e) := by
  have named : ∀ l, ∀ f ∈ e.newAt l, file f.number = some f :=
    fun l f hf => adds.named (l,f) ((mem_newAt e l f).mp hf)
  have fresh : e.FreshFor r.builder := by
    refine ⟨?_,fun l f hf g hg => eq_of_named (named l f hf) (tracks.named l g hg),
      fun l f hf g hg => eq_of_named (named l f hf) (named l g hg)⟩
    intro l f _ g hg
    rw [tracks.base] at hg
    cases hg
  refine ⟨(r.builder.apply_base e).trans tracks.base,(tracks.builder.apply fresh).1,?_,?_⟩
  · intro l f hf
    rcases ((tracks.builder.apply_added fresh l).2 f).mp hf with new | old
    · exact named l f new
    · exact tracks.named l f old
  · rw [← tracks.version]
    refine tracks.builder.apply_saveTo fresh fun l f hf g hg => ?_
    rw [tracks.version] at hg
    exact adds.absent (l,f) ((mem_newAt e l f).mp hf) g hg

end Tracks

/-- `VersionSet::Recover` on the edits of a manifest. -/
def recoverEdits (edits : List (VersionEdit K)) : Option (VersionSet K) :=
  (edits.foldl Recovered.step Recovered.start).versionSet

def VersionSet.newFileNumber (vs : VersionSet K) : Nat × VersionSet K :=
  (vs.nextFileNumber,{ vs with nextFileNumber := vs.nextFileNumber + 1 })

def VersionSet.reuseFileNumber (vs : VersionSet K) (number : Nat) : VersionSet K :=
  if vs.nextFileNumber = number + 1 then { vs with nextFileNumber := number } else vs

/-- A version set, the edits in the manifest that `CURRENT` names, the file numbers that
were handed out, and those of them that were before the last edit. -/
structure Descriptor (K : Type) where
  versions : VersionSet K
  edits : List (VersionEdit K)
  handed : List Nat
  recorded : List Nat

/-- After `NewDB`. -/
def Descriptor.initial : Descriptor K := ⟨⟨Version.empty,3,2,0,0,0,fun _ => none⟩,[newDbEdit],[],[]⟩

/-- `LogAndApply`, which may have to start a new manifest. -/
def Descriptor.logAndApply (d : Descriptor K) (e : VersionEdit K) (newManifest : Bool) : Descriptor K :=
  let c := d.versions.logAndApply e
  -- `Builder::Apply` sets the compact pointers before the snapshot is written
  let versions := { d.versions with compactPointer := setPointers d.versions.compactPointer e }
  ⟨versions.install c,(if newManifest then [versions.snapshot] else d.edits) ++ [c.edit],d.handed,d.handed⟩

inductive DescriptorAction (K : Type) where
  | newFileNumber
  /-- A number that is given back at once, since its file could not be made. -/
  | retractFileNumber
  | setLastSequence (sequence : Nat)
  | logAndApply (e : VersionEdit K) (newManifest : Bool)
  /-- Another process opens the database. -/
  | recover

def Descriptor.step (d : Descriptor K) : DescriptorAction K → Option (Descriptor K)
  | .newFileNumber =>
    let (number,versions) := d.versions.newFileNumber
    some { d with versions, handed := d.handed ++ [number] }
  | .retractFileNumber =>
    let (number,versions) := d.versions.newFileNumber
    some { d with versions := versions.reuseFileNumber number, handed := d.handed ++ [number] }
  | .setLastSequence sequence =>
    some { d with versions := { d.versions with lastSequence := sequence } }
  | .logAndApply e newManifest => some (d.logAndApply e newManifest)
  | .recover => (recoverEdits d.edits).map fun versions =>
    { d with versions, handed := d.recorded }

/-- An edit that may be applied: its levels exist, and the files it adds are not there. -/
structure VersionEdit.Applies (file : Nat → Option (FileMetaData K)) (e : VersionEdit K) (v : Version K) : Prop
    extends e.Adds file v where
  levels : ∀ n ∈ e.newFiles, n.1 < kNumLevels
  pointers : ∀ c ∈ e.compactPointers, c.1 < kNumLevels

/-- The states that sequences of edits lead to. -/
inductive Descriptor.Reaches (file : Nat → Option (FileMetaData K)) : Descriptor K → Prop
  | initial : Reaches file .initial
  | step {d d' : Descriptor K} (a : DescriptorAction K) (before : Reaches file d)
    (applies : ∀ e newManifest, a = .logAndApply e newManifest → e.Applies file d.versions.current)
    (step : d.step a = some d') : Reaches file d'

/-- The manifest stands for the version set, up to numbers that no edit has recorded. -/
structure Descriptor.Inv (file : Nat → Option (FileMetaData K)) (d : Descriptor K) (r : Recovered K) : Prop where
  tracks : r.Tracks file d.versions.current
  levels : ∀ l, kNumLevels ≤ l → d.versions.current.files l = []
  pointers : r.compactPointer = d.versions.compactPointer
  pointerLevels : ∀ l, kNumLevels ≤ l → d.versions.compactPointer l = none
  log : r.logNumber = some d.versions.logNumber
  prev : r.prevLogNumber.getD 0 = d.versions.prevLogNumber
  last : r.lastSequence.isSome
  next : ∃ next, r.nextFileNumber = some next ∧ next ≤ d.versions.nextFileNumber ∧ ∀ n ∈ d.recorded, n ≤ next
  handed : ∀ n ∈ d.handed, n ≤ d.versions.nextFileNumber

section Descriptor
variable {file : Nat → Option (FileMetaData K)} {d d' : Descriptor K}

theorem Descriptor.initial_inv (file : Nat → Option (FileMetaData K)) :
    Descriptor.initial.Inv file (Recovered.start.step newDbEdit) := by
  have tracks := (Recovered.start_tracks file).step (e := newDbEdit)
    ⟨fun n hn => absurd hn List.not_mem_nil,fun n hn => absurd hn List.not_mem_nil⟩
  have nothing : Version.empty.apply (newDbEdit : VersionEdit K) = Version.empty := newBuilder_saveTo _
  rw [nothing] at tracks
  exact ⟨tracks,fun _ _ => rfl,rfl,fun _ _ => rfl,rfl,rfl,rfl,⟨2,rfl,Nat.le_succ 2,by simp [initial]⟩,by simp [initial]⟩

/-- The levels of a version stay within bounds. -/
theorem Version.apply_levels {v : Version K} {e : VersionEdit K} {r : Recovered K} (tracks : r.Tracks file v)
    (applies : e.Applies file v) (levels : ∀ l, kNumLevels ≤ l → v.files l = []) (l : Nat)
    (deep : kNumLevels ≤ l) : (v.apply e).files l = [] := by
  refine List.eq_nil_iff_forall_not_mem.mpr fun f hf => ?_
  obtain ⟨-,spec⟩ := v.mem_apply e tracks.inOrder
    ⟨fun l f hf g hg => applies.absent (l,f) ((mem_newAt e l f).mp hf) g hg,
      fun _ _ _ _ hg => absurd hg List.not_mem_nil,
      fun l f hf g hg => eq_of_named (applies.named (l,f) ((mem_newAt e l f).mp hf))
        (applies.named (l,g) ((mem_newAt e l g).mp hg))⟩
  rcases (spec l f).mp hf with new | ⟨old,-⟩
  · have := applies.levels (l,f) ((mem_newAt e l f).mp new)
    simp only at this
    omega
  · rw [levels l deep] at old
    cases old

/-- What is recovered from the records in front of an edit: those that were there, or the
snapshot that a new manifest begins with. -/
theorem Descriptor.Inv.manifest {r : Recovered K} (inv : d.Inv file r) {e : VersionEdit K}
    (applies : e.Applies file d.versions.current) (newManifest : Bool)
    (isR : d.edits.foldl Recovered.step Recovered.start = r) :
    ∃ r', (if newManifest then [{ d.versions with
        compactPointer := setPointers d.versions.compactPointer e }.snapshot] else d.edits).foldl
          Recovered.step Recovered.start = r' ∧ r'.Tracks file d.versions.current ∧
        setPointers r'.compactPointer e = setPointers d.versions.compactPointer e := by
  cases newManifest with
  | false => exact ⟨r,isR,inv.tracks,by rw [inv.pointers]⟩
  | true =>
    set vs : VersionSet K := { d.versions with
      compactPointer := setPointers d.versions.compactPointer e } with hvs
    have members : ∀ n ∈ vs.snapshot.newFiles, n.2 ∈ d.versions.current.files n.1 := by
      intro n hn
      obtain ⟨level,-,there⟩ := List.mem_flatMap.mp hn
      obtain ⟨f,hf,rfl⟩ := List.mem_map.mp there
      exact hf
    have tracks := (Recovered.start_tracks file).step (e := vs.snapshot)
      ⟨fun n hn => inv.tracks.named_version (members n hn),fun _ _ _ hg => absurd hg List.not_mem_nil⟩
    have whole : Version.empty.apply vs.snapshot = d.versions.current :=
      vs.apply_snapshot inv.levels inv.tracks.inOrder fun l f hf g hg =>
        eq_of_named (inv.tracks.named_version hf) (inv.tracks.named_version hg)
    have pointers : setPointers (fun _ => none) vs.snapshot = vs.compactPointer :=
      setPointers_snapshot vs (setPointers_deep inv.pointerLevels applies.pointers)
    rw [whole] at tracks
    refine ⟨Recovered.start.step vs.snapshot,rfl,tracks,?_⟩
    show setPointers (setPointers (fun _ => none) vs.snapshot) e = _
    rw [pointers,hvs,setPointers_twice]

theorem Descriptor.Inv.logAndApply {r : Recovered K} (inv : d.Inv file r) {e : VersionEdit K}
    (applies : e.Applies file d.versions.current) (newManifest : Bool)
    (isR : d.edits.foldl Recovered.step Recovered.start = r) :
    ∃ r', (d.logAndApply e newManifest).edits.foldl Recovered.step Recovered.start = r' ∧
      (d.logAndApply e newManifest).Inv file r' ∧
      r'.lastSequence = some d.versions.lastSequence ∧
      r'.nextFileNumber = some d.versions.nextFileNumber := by
  obtain ⟨r',isR',tracks,pointers⟩ := inv.manifest applies newManifest isR
  refine ⟨r'.step (d.versions.logAndApply e).edit,?_,?_,rfl,rfl⟩
  · rw [Descriptor.logAndApply,List.foldl_append,isR']
    rfl
  · have completed : (d.versions.logAndApply e).edit.Applies file d.versions.current :=
      ⟨⟨applies.named,applies.absent⟩,applies.levels,applies.pointers⟩
    exact ⟨tracks.step completed.toAdds,Version.apply_levels tracks completed inv.levels,pointers,
      setPointers_deep inv.pointerLevels applies.pointers,rfl,rfl,rfl,
      ⟨_,rfl,le_rfl,inv.handed⟩,inv.handed⟩

/-- `Recover` returns what the invariant says. -/
theorem Descriptor.Inv.recovers {r : Recovered K} (inv : d.Inv file r)
    (isR : d.edits.foldl Recovered.step Recovered.start = r) {next last : Nat}
    (isNext : r.nextFileNumber = some next) (isLast : r.lastSequence = some last) :
    recoverEdits d.edits = some { d.versions with
      nextFileNumber := next + 1
      manifestFileNumber := next
      lastSequence := last } := by
  rw [recoverEdits,isR,Recovered.versionSet,isNext,inv.log,isLast]
  simp [inv.tracks.version,inv.prev,inv.pointers]

theorem Descriptor.Inv.step {r : Recovered K} (inv : d.Inv file r)
    (isR : d.edits.foldl Recovered.step Recovered.start = r) {a : DescriptorAction K}
    (applies : ∀ e newManifest, a = .logAndApply e newManifest → e.Applies file d.versions.current)
    (step : d.step a = some d') :
    ∃ r', d'.edits.foldl Recovered.step Recovered.start = r' ∧ d'.Inv file r' := by
  obtain ⟨next,isNext,le,recorded⟩ := inv.next
  cases a with
  | newFileNumber =>
    cases step
    refine ⟨r,isR,inv.tracks,inv.levels,inv.pointers,inv.pointerLevels,inv.log,inv.prev,inv.last,
      ⟨next,isNext,le.trans (Nat.le_succ _),recorded⟩,fun n hn => ?_⟩
    rcases List.mem_append.mp hn with old | new
    · exact (inv.handed n old).trans (Nat.le_succ _)
    · rw [List.mem_singleton.mp new]
      exact Nat.le_succ _
  | retractFileNumber =>
    have same : d.versions.newFileNumber.2.reuseFileNumber d.versions.newFileNumber.1 = d.versions := by
      simp [VersionSet.newFileNumber,VersionSet.reuseFileNumber]
    simp only [Descriptor.step,same,Option.some.injEq] at step
    subst step
    refine ⟨r,isR,inv.tracks,inv.levels,inv.pointers,inv.pointerLevels,inv.log,inv.prev,inv.last,
      ⟨next,isNext,le,recorded⟩,fun n hn => ?_⟩
    rcases List.mem_append.mp hn with old | new
    · exact inv.handed n old
    · exact (List.mem_singleton.mp new).le
  | setLastSequence sequence =>
    cases step
    exact ⟨r,isR,inv.tracks,inv.levels,inv.pointers,inv.pointerLevels,inv.log,inv.prev,inv.last,
      ⟨next,isNext,le,recorded⟩,inv.handed⟩
  | logAndApply e newManifest =>
    cases step
    obtain ⟨r',isR',inv',-⟩ := inv.logAndApply (applies e newManifest rfl) newManifest isR
    exact ⟨r',isR',inv'⟩
  | recover =>
    obtain ⟨last,isLast⟩ := Option.isSome_iff_exists.mp inv.last
    simp only [Descriptor.step,inv.recovers isR isNext isLast,Option.map_some,Option.some.injEq] at step
    subst step
    exact ⟨r,isR,inv.tracks,inv.levels,inv.pointers,inv.pointerLevels,inv.log,inv.prev,inv.last,
      ⟨next,isNext,Nat.le_succ _,recorded⟩,fun n hn => (recorded n hn).trans (Nat.le_succ _)⟩

theorem Descriptor.Reaches.inv (reaches : d.Reaches file) :
    ∃ r, d.edits.foldl Recovered.step Recovered.start = r ∧ d.Inv file r := by
  induction reaches with
  | initial => exact ⟨_,rfl,Descriptor.initial_inv file⟩
  | step a before applies step ih =>
    obtain ⟨r,isR,inv⟩ := ih
    exact inv.step isR applies step

/-- After any sequence of edits, with new manifests started anywhere, `Recover` yields the
version set in memory and a next file number above all that were handed out. -/
theorem recover_eq_live (file : Nat → Option (FileMetaData K)) (d : Descriptor K) (reaches : d.Reaches file)
    (e : VersionEdit K) (applies : e.Applies file d.versions.current) (newManifest : Bool) :
    ∃ vs, recoverEdits (d.logAndApply e newManifest).edits = some vs ∧
      (∀ level, vs.current.files level = (d.logAndApply e newManifest).versions.current.files level) ∧
      vs.compactPointer = (d.logAndApply e newManifest).versions.compactPointer ∧
      vs.logNumber = (d.logAndApply e newManifest).versions.logNumber ∧
      vs.prevLogNumber = (d.logAndApply e newManifest).versions.prevLogNumber ∧
      vs.lastSequence = (d.logAndApply e newManifest).versions.lastSequence ∧
      ∀ n ∈ (d.logAndApply e newManifest).handed, n < vs.nextFileNumber := by
  obtain ⟨r,isR,inv⟩ := reaches.inv
  obtain ⟨r',isR',inv',isLast,isNext⟩ := inv.logAndApply applies newManifest isR
  exact ⟨_,inv'.recovers isR' isNext isLast,fun _ => rfl,rfl,rfl,rfl,rfl,
    fun n hn => Nat.lt_succ_of_le (inv.handed n hn)⟩

/-- A table that was added at level 0 is moved to level 1, in a new manifest. -/
theorem recover_eq_live_moved :
    let f : FileMetaData Nat := ⟨3,10,⟨1,2,.value⟩,⟨5,1,.value⟩⟩
    let add : VersionEdit Nat := VersionEdit.empty.addFile 0 f
    let move : VersionEdit Nat := (VersionEdit.empty.addFile 1 f).removeFile 0 3
    let d := (Descriptor.initial.logAndApply add false).logAndApply move true
    ∃ vs, recoverEdits d.edits = some vs ∧ vs.current.files 0 = [] ∧ vs.current.files 1 = [f] := by
  intro f add move d
  have added : (Descriptor.initial.logAndApply add false).Reaches fun _ => some f := by
    refine .step (.logAndApply add false) .initial ?_ rfl
    rintro _ _ ⟨⟩
    refine ⟨⟨by simp [add,VersionEdit.addFile,VersionEdit.empty],?_⟩,?_,?_⟩
    · exact fun _ _ _ hg => absurd hg List.not_mem_nil
    · simp [add,VersionEdit.addFile,VersionEdit.empty,kNumLevels]
    · simp [add,VersionEdit.addFile,VersionEdit.empty]
  obtain ⟨vs,isVs,files,-⟩ := recover_eq_live (fun _ => some f) _ added move
    ⟨⟨by simp [move,VersionEdit.addFile,VersionEdit.removeFile,VersionEdit.empty],by decide⟩,by decide,by decide⟩
    true
  exact ⟨vs,isVs,(files 0).trans (by decide),(files 1).trans (by decide)⟩

end Descriptor

end LevelDB
