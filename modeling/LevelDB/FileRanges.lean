import LevelDB.FileRecovery

/-! Level 0 holds tables of memtables only, and a memtable is in order. So in every state
that the database reaches, also after failures, a file of level 0 begins no later than it ends. -/
namespace LevelDB

variable {K V : Type} [LinearOrder K]

def FileMetaData.Ranged (f : FileMetaData K) : Prop := f.smallest.userKey ≤ f.largest.userKey

def Version.Ranged (v : Version K) : Prop := ∀ f ∈ v.files 0, f.Ranged

def VersionEdit.Ranged (e : VersionEdit K) : Prop := ∀ f, (0,f) ∈ e.newFiles → f.Ranged

def Disk.Ranged (d : Disk K V) : Prop := ∀ n m, d.manifests n = some m → ∀ r ∈ m.records, r.edit.Ranged

structure Core.Ranged (c : Core K V) : Prop where
  disk : c.disk.Ranged
  mem : OrderedEntries c.mem
  imm : ∀ imm, c.imm = some imm → OrderedEntries imm
  current : c.versions.current.Ranged
  commit : ∀ commit, c.job.commit = some commit → commit.edit.Ranged ∧ commit.version.Ranged

section Builders
variable {v : Version K} {e : VersionEdit K}

theorem mem_of_insertFile {f g : FileMetaData K} {files : List (FileMetaData K)} (member : g ∈ insertFile f files) :
    g = f ∨ g ∈ files := by
  induction files with
  | nil => exact .inl (List.mem_singleton.mp member)
  | cons h rest ih =>
    simp only [insertFile] at member
    split at member
    · exact List.mem_cons.mp member
    · split at member
      · rcases List.mem_cons.mp member with rfl | later
        · exact .inr List.mem_cons_self
        · exact (ih later).imp_right (List.mem_cons_of_mem h)
      · exact .inr member

/-- A file that a builder adds is of the edit. -/
theorem mem_of_addAll (ns : List (Nat × FileMetaData K)) {b : Builder K} {level : Nat} {f : FileMetaData K}
    (member : f ∈ (ns.foldl (fun b n => b.add n.1 n.2) b).added level) : (level,f) ∈ ns ∨ f ∈ b.added level := by
  induction ns generalizing b with
  | nil => exact .inr member
  | cons n ns ih =>
    obtain ⟨at_,g⟩ := n
    rcases ih member with new | old
    · exact .inl (List.mem_cons_of_mem _ new)
    · by_cases here : level = at_
      · subst here
        simp only [Builder.add,Function.update_self] at old
        rcases mem_of_insertFile old with rfl | before
        · exact .inl List.mem_cons_self
        · exact .inr before
      · simp only [Builder.add,Function.update_of_ne here] at old
        exact .inr old

theorem Builder.mem_of_apply {b : Builder K} {level : Nat} {f : FileMetaData K} (member : f ∈ (b.apply e).added level) :
    (level,f) ∈ e.newFiles ∨ f ∈ b.added level := by
  simpa only [(deleteAll_base e.deletedFiles b).2] using mem_of_addAll e.newFiles member

theorem Version.Ranged.apply (ranged : v.Ranged) (new : e.Ranged) : (v.apply e).Ranged := by
  intro f member
  rcases ((mem_saveTo _ 0 f).mp member).1 with old | added
  · simp only [Builder.apply_base] at old
    exact ranged f old
  · rcases Builder.mem_of_apply added with fresh | absurd
    · exact new f fresh
    · cases absurd

/-- What is recovered from edits. -/
theorem ranged_recovered (edits : List (VersionEdit K)) (ranged : ∀ e ∈ edits, e.Ranged) :
    (edits.foldl Recovered.step Recovered.start).builder.saveTo.Ranged := by
  have built : ∀ r : Recovered K, r.builder.base = Version.empty → (∀ f ∈ r.builder.added 0, f.Ranged) →
      (edits.foldl Recovered.step r).builder.base = Version.empty ∧
        ∀ f ∈ (edits.foldl Recovered.step r).builder.added 0, f.Ranged := by
    induction edits with
    | nil => exact fun _ base added => ⟨base,added⟩
    | cons e edits ih =>
      intro r base added
      apply ih fun e' later => ranged e' (List.mem_cons_of_mem e later)
      · exact (Builder.apply_base r.builder e).trans base
      · intro f member
        rcases Builder.mem_of_apply member with new | old
        · exact ranged e List.mem_cons_self f new
        · exact added f old
  obtain ⟨base,added⟩ := built .start rfl (by rintro f ⟨⟩)
  intro f member
  rcases ((mem_saveTo _ 0 f).mp member).1 with old | new
  · simp only [base] at old
    cases old
  · exact added f new

theorem versionSet_current {r : Recovered K} {vs : VersionSet K} (found : r.versionSet = some vs) :
    vs.current = r.builder.saveTo := by
  simp only [Recovered.versionSet,Option.bind_eq_bind,Option.bind_eq_some_iff,Option.some.injEq] at found
  obtain ⟨next,-,log,-,last,-,rfl⟩ := found
  rfl

theorem recovered_ranged {m : ManifestFile K V} {vs : VersionSet K} (read : m.recover = some vs)
    (ranged : ∀ r ∈ m.records, r.edit.Ranged) : vs.current.Ranged := by
  have same := versionSet_current read
  simp only [same]
  apply ranged_recovered
  intro e member
  obtain ⟨r,there,rfl⟩ := List.mem_map.mp member
  exact ranged r there

theorem VersionSet.snapshot_ranged {vs : VersionSet K} (ranged : vs.current.Ranged) : vs.snapshot.Ranged := by
  intro f member
  simp only [VersionSet.snapshot,List.mem_flatMap,List.mem_map,Prod.mk.injEq] at member
  obtain ⟨level,-,g,there,rfl,rfl⟩ := member
  exact ranged g there

/-- The file of a memtable. -/
theorem outputFile_ranged {o : Options K V} {number : Nat} {entries : List (Entry K V)} {f : FileMetaData K}
    (made : outputFile o number entries = some f) (ordered : OrderedEntries entries) : f.Ranged := by
  obtain ⟨-,⟨a,first,low⟩,b,last,high⟩ := outputFile_spec made
  obtain ⟨rest,rfl⟩ := List.head?_eq_some_iff.mp first
  have order : a.key ≤ b.key := by
    rcases List.mem_cons.mp (List.mem_of_getLast? last) with rfl | later
    · exact le_refl _
    · exact (List.pairwise_cons.mp ordered).1 b later
  simpa only [FileMetaData.Ranged,low,high] using InternalKey.userKey_le order

theorem VersionEdit.Flushes.ranged {o : Options K V} {number level log : Nat} {imm : MemTable K V}
    (flushes : e.Flushes o number level log imm) (ordered : OrderedEntries imm) : e.Ranged := by
  intro f member
  simp only [flushes.new,List.mem_map,Option.mem_toList,Prod.mk.injEq] at member
  obtain ⟨g,made,-,rfl⟩ := member
  exact outputFile_ranged made ordered

theorem VersionSet.logAndApply_ranged {vs : VersionSet K} (ranged : vs.current.Ranged) (new : e.Ranged) :
    (vs.logAndApply e).edit.Ranged ∧ (vs.logAndApply e).version.Ranged :=
  ⟨new,ranged.apply new⟩

end Builders

section Disks
variable {d d' : Disk K V}

theorem Disk.Ranged.kept (ranged : d.Ranged) (same : d'.manifests = d.manifests) : d'.Ranged := by
  intro n m there
  exact ranged n m (same ▸ there)

omit [LinearOrder K] in
theorem withTable_manifests (d : Disk K V) (n : Nat) (entries : List (Entry K V)) (synced : Bool) :
    (d.withTable n entries synced).manifests = d.manifests := by
  unfold Disk.withTable
  split <;> rfl

omit [LinearOrder K] in
theorem setTables_manifests (outputs : List (Nat × List (Entry K V))) (d : Disk K V) :
    (d.setTables outputs).manifests = d.manifests := by
  induction outputs generalizing d with
  | nil => rfl
  | cons out rest ih => exact ih (d.setTable out.1 ⟨out.2,true⟩)

theorem Disk.Ranged.remove (ranged : d.Ranged) (f : FileName) : (d.remove f).Ranged := by
  cases f with
  | log n | table n | temp n => exact ranged
  | current => exact ranged
  | manifest n =>
    intro k m there
    by_cases same : k = n
    · simp [Disk.remove,same] at there
    · exact ranged k m (by simpa [Disk.remove,same] using there)

theorem Disk.Ranged.setManifest (ranged : d.Ranged) (number : Nat) {m : ManifestFile K V}
    (records : ∀ r ∈ m.records, r.edit.Ranged) : (d.setManifest number m).Ranged := by
  intro n m' there
  by_cases same : n = number
  · simp only [Disk.setManifest,same,Function.update_self,Option.some.injEq] at there
    exact there ▸ records
  · exact ranged n m' (by simpa [Disk.setManifest,same] using there)

theorem Disk.Ranged.updateManifest (ranged : d.Ranged) (number : Nat) {f : ManifestFile K V → ManifestFile K V}
    (records : ∀ m : ManifestFile K V, (∀ r ∈ m.records, r.edit.Ranged) → ∀ r ∈ (f m).records, r.edit.Ranged) :
    (d.updateManifest number f).Ranged := by
  intro n m there
  by_cases same : n = number
  · subst same
    simp only [Disk.updateManifest,Function.update_self] at there
    obtain ⟨old,before,rfl⟩ := Option.map_eq_some_iff.mp there
    exact records old (ranged n old before)
  · exact ranged n m (by simpa [Disk.updateManifest,same] using there)

theorem Disk.Ranged.appendManifest (ranged : d.Ranged) (number : Nat) {r : ManifestRecord K V} (new : r.edit.Ranged) :
    (d.updateManifest number (ManifestFile.append r)).Ranged := by
  apply ranged.updateManifest
  intro m old r' member
  rcases List.mem_append.mp member with before | last
  · exact old r' before
  · exact List.mem_singleton.mp last ▸ new

theorem Disk.Ranged.syncManifest (ranged : d.Ranged) (number : Nat) : (d.updateManifest number ManifestFile.sync).Ranged :=
  ranged.updateManifest number fun _ old => old

theorem Disk.Ranged.crash (ranged : d.Ranged) (cut : Cut) : (d.crash cut).Ranged := by
  intro n m there
  obtain ⟨old,before,rfl⟩ := Option.map_eq_some_iff.mp there
  intro r member
  exact ranged n old before r (List.mem_of_mem_take member)

end Disks

section Steps
variable {o : Options K V} {loose : Bool} {held : List (Version K)} {c c' : Core K V}

theorem Core.Ranged.step (ranged : c.Ranged) (step : Core.Step o loose held c c') : c'.Ranged := by
  obtain ⟨disk,mem,imm,current,commit⟩ := ranged
  have quiet : ∀ {job : Job K V}, job.commit = none → ∀ commit, job.commit = some commit →
      commit.edit.Ranged ∧ commit.version.Ranged := by
    intro job idle commit isCommit
    cases idle.symm.trans isCommit
  cases step with
  | error => exact ⟨disk,mem,imm,current,commit⟩
  | start => exact ⟨disk,mem,imm,current,commit⟩
  | switch =>
    refine ⟨disk,List.Pairwise.nil,?_,current,commit⟩
    rintro _ ⟨⟩
    exact mem
  | log => exact ⟨disk,mem,imm,current,commit⟩
  | syncLog => exact ⟨disk,mem,imm,current,commit⟩
  | insert => exact ⟨disk,insertInto_ordered _ mem,imm,current,commit⟩
  | finish => exact ⟨disk,mem,imm,current,commit⟩
  | beginFlush => exact ⟨disk,mem,imm,current,quiet rfl⟩
  | writeTable => exact ⟨disk.kept (withTable_manifests _ _ _ _),mem,imm,current,quiet rfl⟩
  | syncTable job isImm flushes =>
    refine ⟨disk.kept (withTable_manifests _ _ _ _),mem,imm,current,?_⟩
    rintro _ ⟨⟩
    exact VersionSet.logAndApply_ranged current (flushes.ranged (imm _ isImm))
  | flushFails =>
    refine ⟨?_,mem,imm,current,quiet (resume_commit _)⟩
    exact disk.remove (.table _)
  | move job fine within single =>
    refine ⟨disk,mem,imm,current,?_⟩
    rintro _ ⟨⟩
    apply VersionSet.logAndApply_ranged current
    intro f member
    simp [Compaction.moveEdit] at member
  | compact => exact ⟨disk,mem,imm,current,quiet rfl⟩
  | advance =>
    refine ⟨?_,mem,imm,?_,quiet rfl⟩
    · apply disk.kept
      simp only [setTables_manifests]
      split <;> rfl
    · dsimp only
      split <;> exact current
  | finishCompaction =>
    refine ⟨disk.kept (setTables_manifests _ _),mem,imm,current,?_⟩
    rintro _ ⟨⟩
    apply VersionSet.logAndApply_ranged current
    intro f member
    simp [CompactionState.edit] at member
  | compactionFails => exact ⟨disk,mem,imm,current,quiet rfl⟩
  | appendManifest isCommit stage edit =>
    obtain ⟨new,version⟩ := commit _ isCommit
    refine ⟨disk.appendManifest _ (edit ▸ new),mem,imm,current,?_⟩
    intro commit' isCommit'
    cases (setCommit_commit isCommit).symm.trans isCommit'
    exact ⟨new,version⟩
  | syncManifest isCommit =>
    refine ⟨disk.syncManifest _,mem,imm,current,?_⟩
    intro commit' isCommit'
    have unchanged := commit _ isCommit
    cases (setCommit_commit isCommit).symm.trans isCommit'
    exact unchanged
  | commitFails => exact ⟨disk,mem,imm,current,quiet (resume_commit _)⟩
  | install isCommit =>
    refine ⟨disk,mem,?_,(commit _ isCommit).2,quiet (resume_commit _)⟩
    intro imm' isImm
    split at isImm
    · cases isImm
    · exact imm imm' isImm
  | collect => exact ⟨disk,mem,imm,current,quiet rfl⟩
  | removeFile => exact ⟨disk.remove _,mem,imm,current,commit⟩
  | removeDone => exact ⟨disk,mem,imm,current,quiet (resume_commit _)⟩

theorem Core.Ranged.run (ranged : c.Ranged) (steps : Relation.ReflTransGen (Core.Step o loose held) c c') : c'.Ranged := by
  induction steps with
  | refl => exact ranged
  | tail _ step ih => exact ih.step step

end Steps

/-- What `DB::Open` has in hand. -/
def Opening.Ranged : Opening K V → Prop
  | .replay r => r.versions.current.Ranged ∧ r.edit.Ranged ∧ ∀ mem, r.mem = some mem → OrderedEntries mem
  | .commit versions _ c _ => versions.current.Ranged ∧ c.edit.Ranged ∧ c.version.Ranged
  | _ => True

structure State.Ranged (s : State K V) : Prop where
  disk : s.disk.Ranged
  opening : ∀ p, s.process = .opening p → p.Ranged
  running : ∀ db, s.process = .running db → (db.core s.disk).Ranged

section Runs
variable {o : Options K V} {s s' : State K V} {db : Db K V} {l : Label K V}

theorem State.Ranged.initial : (State.initial : State K V).Ranged :=
  ⟨by rintro n m ⟨⟩,by rintro p ⟨⟩,by rintro db ⟨⟩⟩

theorem State.Ranged.crash (ranged : s.Ranged) (cut : Cut) : (s.crash cut).Ranged :=
  ⟨ranged.disk.crash cut,by rintro p ⟨⟩,by rintro db ⟨⟩⟩

/-- Where the process goes on to open the database. -/
theorem State.Ranged.stillOpening {p : Opening K V} (disk : s.disk.Ranged) (process : s.process = .opening p)
    (ranged : p.Ranged) : s.Ranged := by
  refine ⟨disk,?_,?_⟩
  · intro p' same
    cases process.symm.trans same
    exact ranged
  · intro db same
    cases process.symm.trans same

/-- Where it runs. -/
theorem State.Ranged.stillRunning {c : Core K V} (ranged : c.Ranged) (leads : Core.Leads o true [] c s) : s.Ranged := by
  obtain ⟨db,running,steps⟩ := leads
  have core := ranged.run steps
  refine ⟨core.disk,?_,?_⟩
  · intro p same
    cases running.symm.trans same
  · intro db' same
    cases running.symm.trans same
    exact core

theorem State.Ranged.openDb (ranged : s.Ranged) (step : s.openDb = some s') : s'.Ranged := by
  simp only [State.openDb] at step
  split at step
  · split at step
    · cases step
      exact .stillOpening ranged.disk rfl trivial
    · cases step
      apply State.Ranged.stillOpening (p := .newDb .sync) _ rfl trivial
      apply ranged.disk.setManifest
      intro r member
      cases List.mem_singleton.mp member
      rintro f ⟨⟩
  · cases step

theorem State.Ranged.newDb (ranged : s.Ranged) (step : s.newDb = some s') : s'.Ranged := by
  simp only [State.newDb] at step
  split at step
  · cases step
    exact .stillOpening (p := .newDb (.setCurrent .create)) (ranged.disk.syncManifest 1) rfl trivial
  · rename_i op process
    cases step
    have disk : (s.setCurrentFile 1 op).disk.Ranged := by
      rw [State.setCurrentFile_disk]
      exact ranged.disk.kept setCurrentFile_manifests
    refine .stillOpening disk rfl ?_
    split <;> trivial
  · cases step

theorem State.Ranged.recover (ranged : s.Ranged) (step : s.recover = some s') : s'.Ranged := by
  simp only [State.recover] at step
  split at step
  · split at step
    · cases step
      exact .stillOpening (p := .failed) ranged.disk rfl trivial
    · rename_i vs found
      split at step
      · cases step
        obtain ⟨m,named,read⟩ := Option.bind_eq_some_iff.mp found
        obtain ⟨n,-,there⟩ := Option.bind_eq_some_iff.mp named
        refine .stillOpening ranged.disk rfl ⟨recovered_ranged read (ranged.disk n m there),by rintro f ⟨⟩,by rintro mem ⟨⟩⟩
      · cases step
        exact .stillOpening (p := .failed) ranged.disk rfl trivial
  · cases step

theorem State.Ranged.replay (ranged : s.Ranged) (step : s.replay o = some s') : s'.Ranged := by
  obtain ⟨r,process,outcome⟩ := replay_cases step
  obtain ⟨current,edit,mem⟩ := ranged.opening _ process
  have filled : OrderedEntries (r.mem.getD []) := by
    cases here : r.mem with
    | none => exact List.Pairwise.nil
    | some entries => exact mem entries here
  obtain ⟨n,-,rfl⟩ | ⟨n,-,rfl⟩ | ⟨b,rest,-,-,rfl⟩ | ⟨-,-,-,rfl⟩ | ⟨n,rest,-,-,-,-,rfl⟩ | ⟨-,-,-,-,rfl⟩ := outcome
  · refine .stillOpening ?_ (State.writeTable_process ..) ⟨current,edit,mem⟩
    simpa only [State.writeTable_disk] using ranged.disk.kept (withTable_manifests s.disk n (r.mem.getD []) false)
  · refine .stillOpening (ranged.disk.kept (withTable_manifests ..)) rfl ⟨current,?_,by rintro mem ⟨⟩⟩
    cases made : outputFile o n (r.mem.getD []) with
    | none => exact edit
    | some f =>
      intro g member
      rcases List.mem_append.mp member with old | new
      · exact edit g old
      · cases List.mem_singleton.mp new
        exact outputFile_ranged made filled
  · have next : ∀ mem, some (b.insertInto (r.mem.getD [])) = some mem → OrderedEntries mem := by
      rintro _ ⟨⟩
      exact insertInto_ordered b filled
    refine .stillOpening (p := .replay (r.insert o b rest)) ranged.disk rfl ?_
    simp only [Replay.insert]
    split
    · exact ⟨current,edit,next⟩
    · exact ⟨current,edit,next⟩
  · exact .stillOpening (p := .replay r.beginTable) ranged.disk rfl ⟨current,edit,mem⟩
  · refine .stillOpening ranged.disk rfl ⟨?_,edit,mem⟩
    simp only [VersionSet.markFileNumberUsed]
    split <;> exact current
  · have ranged' : (State.openLog s r).Ranged := by
      refine .stillOpening ranged.disk rfl ⟨current,?_⟩
      exact VersionSet.logAndApply_ranged current edit
    exact ranged'

theorem State.Ranged.openCommit (o : Options K V) (ranged : s.Ranged) (step : s.openCommit = some s') : s'.Ranged := by
  rw [State.openCommit] at step
  split at step
  · rename_i versions log c stage process
    obtain ⟨current,edit,version⟩ := ranged.opening _ process
    cases stage with
    | create =>
      cases step
      apply State.Ranged.stillOpening (p := .commit versions log c .append) _ rfl ⟨current,edit,version⟩
      apply ranged.disk.setManifest
      intro r member
      cases List.mem_singleton.mp member
      exact VersionSet.snapshot_ranged current
    | append =>
      cases step
      exact .stillOpening (p := .commit versions log c .sync) (ranged.disk.appendManifest _ edit) rfl ⟨current,edit,version⟩
    | sync =>
      cases step
      exact .stillOpening (p := .commit versions log c (.setCurrent .create)) (ranged.disk.syncManifest _) rfl ⟨current,edit,version⟩
    | setCurrent op =>
      cases step
      have disk : (s.setCurrentFile versions.manifestFileNumber op).disk.Ranged := by
        rw [State.setCurrentFile_disk]
        exact ranged.disk.kept setCurrentFile_manifests
      exact .stillOpening disk rfl ⟨current,edit,version⟩
    | install =>
      cases step
      have core : ((Db.new (versions.install c) log : Db K V).core s.disk).Ranged :=
        ⟨ranged.disk,List.Pairwise.nil,by rintro _ ⟨⟩,version,by rintro _ ⟨⟩⟩
      have leads : Core.Leads o true [] ((Db.new (versions.install c) log : Db K V).core s.disk) _ :=
        removeObsoleteFiles_leads s (Db.new (versions.install c) log) none (fun _ => false) (by simp)
      exact .stillRunning core leads
  · cases step

theorem State.Ranged.step (ranged : s.Ranged) (manual : s.Manual) (step : s.step o l = some s') : s'.Ranged := by
  obtain ⟨cut,rfl,rfl⟩ | ⟨db,process,step⟩ | ⟨-,step⟩ := step_cases step
  · exact ranged.crash cut
  · have leads : Core.Leads o true [] (db.core s.disk) s' :=
      core_step process (manual db process) (.inl rfl) (by simp) step
    exact .stillRunning (ranged.running db process) leads
  · cases l with
    | openDb => exact ranged.openDb step
    | newDb => exact ranged.newDb step
    | recover => exact ranged.recover step
    | replay => exact ranged.replay step
    | openCommit => exact ranged.openCommit o step
    | _ => cases step

/-- The files of level 0 in every state that is reached, whatever fails on the way. -/
theorem ranged_of_run {ls : List (Label K V)} (run : State.initial.run o ls = some s) : s.Ranged :=
  (State.Files.of_run .initial run fun _ _ _ _ manual step ranged => ranged.step manual step).2.2

end Runs

end LevelDB
