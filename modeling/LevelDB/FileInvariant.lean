import LevelDB.ReferencedFiles

/-! The files of an open database. Every version that someone refers to is kept, and so
is every version that a crash could bring back; the numbers that are handed out name
nothing else. This holds also after failures of any I/O, and while no failure is known
the manifest ends in the current version. -/
namespace LevelDB

variable {K V : Type} [LinearOrder K]

/-- The versions that are referenced, or about to be. -/
def Core.Live (c : Core K V) (held : List (Version K)) (v : Version K) : Prop :=
  v = c.versions.current ∨ v ∈ held ∨ (∃ x, c.job.outer = some x ∧ v = x.compaction.inputVersion) ∨
    ∃ commit, c.job.commit = some commit ∧ v = commit.version

/-- A compaction under way: its outputs have numbers that name no file yet. -/
structure Core.Working (c : Core K V) (file : Nat → Option (FileMetaData K)) (x : CompactionState K V) :
    Prop where
  deep : x.compaction.level + 1 < kNumLevels
  free : ∀ n ∈ x.files.map (·.1), file n = none
  below : ∀ n ∈ x.files.map (·.1), n < c.versions.nextFileNumber
  pending : ∀ n ∈ x.files.map (·.1), n ∈ c.pendingOutputs
  ascending : (x.files.map (·.1)).Pairwise (· < ·)
  written : ∀ out ∈ x.outputs, c.disk.tables out.1 = some ⟨out.2,true⟩

/-- An edit on its way through `LogAndApply`. -/
structure Core.Commits (o : Options K V) (c : Core K V) (file : Nat → Option (FileMetaData K))
    (m : ManifestFile K V) (commit : Commit K) : Prop where
  completes : ∃ log next last, commit.edit.Completes log next last ∧ log < next ∧
    next ≤ c.versions.nextFileNumber ∧ c.versions.manifestFileNumber < next ∧
    (∀ n, (recoverRecords m.records).builder.Uses n → n < next) ∧
    ∀ n ∈ commit.edit.newFiles, n.2.Kept o file c.disk ∧ n.2.number < next
  version : commit.stage = .append → commit.version = c.versions.current.apply commit.edit
  places : commit.stage = .append → commit.edit.Places file c.versions.current ∧
    commit.edit.Places file (recoverRecords m.records).version

/-- Files that are being removed. -/
structure Core.Doomed (c : Core K V) (held : List (Version K)) (m : ManifestFile K V)
    (doomed : FileName → Bool) (outer : Option (CompactionState K V)) : Prop where
  log : ∀ n, doomed (.log n) → n < c.versions.logNumber ∧ n ≠ c.versions.prevLogNumber
  manifest : ∀ n, doomed (.manifest n) → n < c.versions.manifestFileNumber
  currentFile : doomed .current = false
  live : ∀ n, doomed (.table n) → ∀ v, c.Live held v → n ∉ v.numbers
  recorded : ∀ n, doomed (.table n) → ∀ k, m.synced ≤ k → k ≤ m.records.length → n ∉ (m.upTo k).version.numbers
  pending : ∀ n, doomed (.table n) → n ∉ c.pendingOutputs
  outputs : ∀ n, doomed (.table n) → ∀ x, outer = some x → n ∉ x.files.map (·.1)

structure Core.JobFiles (o : Options K V) (c : Core K V) (held : List (Version K))
    (file : Nat → Option (FileMetaData K)) (m : ManifestFile K V) : Prop where
  outer : ∀ x, c.job.outer = some x → c.Working file x
  commit : ∀ commit, c.job.commit = some commit → c.Commits o file m commit
  flush : ∀ n stage outer, c.job = .flush n stage outer → file n = none ∧ n < c.versions.nextFileNumber ∧
    ∀ x, outer = some x → n ∉ x.files.map (·.1)
  doomed : ∀ doomed outer, c.job = .remove doomed outer → c.Doomed held m doomed outer

/-- The version that the last record of the manifest should lead to. -/
def Core.recorded (c : Core K V) : Version K :=
  match c.job.commit with
  | some commit => if commit.stage = .append then c.versions.current else commit.version
  | none => c.versions.current

structure Core.Linked (c : Core K V) (m : ManifestFile K V) : Prop where
  version : (recoverRecords m.records).version = c.recorded
  synced : (∀ commit, c.job.commit = some commit → commit.stage ≠ .sync) → m.synced = m.records.length
  appended : ∀ commit, c.job.commit = some commit → commit.stage = .sync →
    m.records.length = m.synced + 1 ∧ (m.upTo m.synced).version = c.versions.current

structure Core.Files (o : Options K V) (loose : Bool) (held : List (Version K))
    (file : Nat → Option (FileMetaData K)) (c : Core K V) (m : ManifestFile K V) : Prop where
  disk : c.disk.Files o file c.versions.manifestFileNumber m
  below : ∀ n f, file n = some f → n < c.versions.nextFileNumber
  manifest : c.versions.manifestFileNumber < c.versions.nextFileNumber
  logs : ∀ l ∈ c.disk.logs, l.number < c.versions.nextFileNumber
  logfile : c.logfileNumber < c.versions.nextFileNumber
  logNumber : c.versions.logNumber < c.versions.nextFileNumber
  prev : c.versions.prevLogNumber = 0
  live : ∀ v, c.Live held v → v.Kept o file c.disk
  job : c.JobFiles o held file m
  linked : loose = false ∨ c.bgError = false → c.Linked m

section Frames
variable {o : Options K V} {loose : Bool} {held : List (Version K)} {file : Nat → Option (FileMetaData K)}
  {c c' : Core K V} {m : ManifestFile K V} {x : CompactionState K V}

omit [LinearOrder K] in
/-- A compaction goes on while other files are written. -/
theorem Core.Working.carry (working : c.Working file x)
    (next : c.versions.nextFileNumber ≤ c'.versions.nextFileNumber)
    (pending : ∀ n ∈ x.files.map (·.1), n ∈ c.pendingOutputs → n ∈ c'.pendingOutputs)
    (tables : ∀ n ∈ x.outputs.map (·.1), c'.disk.tables n = c.disk.tables n) : c'.Working file x :=
  ⟨working.deep,working.free,fun n hn => (working.below n hn).trans_le next,
    fun n hn => pending n hn (working.pending n hn),working.ascending,
    fun out member => (tables out.1 (List.mem_map_of_mem member)).trans (working.written out member)⟩

theorem Core.Commits.carry {commit : Commit K} (commits : c.Commits o file m commit)
    (next : c.versions.nextFileNumber ≤ c'.versions.nextFileNumber)
    (number : c'.versions.manifestFileNumber = c.versions.manifestFileNumber)
    (current : c'.versions.current = c.versions.current)
    (kept : ∀ f : FileMetaData K, f.Kept o file c.disk → f.Kept o file c'.disk) : c'.Commits o file m commit := by
  obtain ⟨log,upTo,last,completes,isLog,le,manifest,used,new⟩ := commits.completes
  refine ⟨⟨log,upTo,last,completes,isLog,le.trans next,by rw [number]; exact manifest,used,
    fun n hn => ⟨kept n.2 (new n hn).1,(new n hn).2⟩⟩,?_,?_⟩
  · rw [current]
    exact commits.version
  · rw [current]
    exact commits.places

/-- Writers do not disturb the files: they make logs only, with numbers of their own. -/
theorem Core.Files.carry (files : c.Files o loose held file m) (job : c'.job = c.job)
    (current : c'.versions.current = c.versions.current)
    (number : c'.versions.manifestFileNumber = c.versions.manifestFileNumber)
    (logNumber : c'.versions.logNumber = c.versions.logNumber)
    (prev : c'.versions.prevLogNumber = c.versions.prevLogNumber)
    (pending : c'.pendingOutputs = c.pendingOutputs)
    (next : c.versions.nextFileNumber ≤ c'.versions.nextFileNumber)
    (logfile : c'.logfileNumber < c'.versions.nextFileNumber) (error : c'.bgError = false → c.bgError = false)
    (onDisk : c'.disk.currentFile = c.disk.currentFile) (manifests : c'.disk.manifests = c.disk.manifests)
    (tables : c'.disk.tables = c.disk.tables) (increasing : (c'.disk.logs.map (·.number)).Pairwise (· < ·))
    (logs : ∀ l ∈ c'.disk.logs, 0 < l.number ∧ l.number < c'.versions.nextFileNumber) :
    c'.Files o loose held file m := by
  have live : ∀ v, c'.Live held v → c.Live held v := by
    intro v
    simp only [Core.Live,job,current]
    exact fun same => same
  have kept : ∀ f : FileMetaData K, f.Kept o file c.disk → f.Kept o file c'.disk :=
    fun f hf => hf.frame (by rw [tables]) rfl
  refine ⟨⟨onDisk.trans (files.disk.named.trans (congrArg (fun n => some (NameFile.line n)) number.symm)),?_,files.disk.synced,?_,increasing,
      fun l hl => (logs l hl).1⟩,
    fun n f named => (files.below n f named).trans_le next,by rw [number]; exact files.manifest.trans_le next,
    fun l hl => (logs l hl).2,logfile,by rw [logNumber]; exact files.logNumber.trans_le next,prev.trans files.prev,
    fun v hv => (files.live v (live v hv)).frame (fun _ _ _ => by rw [tables]) fun _ _ _ => rfl,
    ⟨?_,?_,?_,?_⟩,?_⟩
  · rw [manifests,number]
    exact files.disk.manifest
  · intro k low high
    rw [number]
    exact (files.disk.restores k low high).frame (fun _ _ _ => by rw [tables]) fun _ _ => rfl
  · intro x outer
    rw [job] at outer
    exact (files.job.outer x outer).carry next (fun n _ member => by rw [pending]; exact member) fun _ _ => by rw [tables]
  · intro commit isCommit
    rw [job] at isCommit
    exact (files.job.commit commit isCommit).carry next number current kept
  · intro n stage outer isJob
    rw [job] at isJob
    obtain ⟨free,below,apart⟩ := files.job.flush n stage outer isJob
    exact ⟨free,below.trans_le next,apart⟩
  · intro doomed outer isJob
    rw [job] at isJob
    have old := files.job.doomed doomed outer isJob
    refine ⟨?_,?_,old.currentFile,fun n hn v hv => old.live n hn v (live v hv),old.recorded,?_,old.outputs⟩
    · rw [logNumber,prev]
      exact old.log
    · rw [number]
      exact old.manifest
    · rw [pending]
      exact old.pending
  · intro fine
    have linked := files.linked (fine.imp id error)
    refine ⟨?_,?_,?_⟩
    · rw [linked.version,Core.recorded,Core.recorded,job,current]
    · rw [job]
      exact linked.synced
    · rw [job,current]
      exact linked.appended

end Frames

section Writers
variable {o : Options K V} {loose : Bool} {held : List (Version K)} {file : Nat → Option (FileMetaData K)}
  {c : Core K V} {m : ManifestFile K V}

theorem Core.Files.logs_spec (files : c.Files o loose held file m) :
    ∀ l ∈ c.disk.logs, 0 < l.number ∧ l.number < c.versions.nextFileNumber :=
  fun l hl => ⟨files.disk.positive l hl,files.logs l hl⟩

theorem Core.Files.updateLog (files : c.Files o loose held file m) (f : LogFile K V → LogFile K V)
    (same : ∀ l, (f l).number = l.number) :
    { c with disk := c.disk.updateLog c.logfileNumber f }.Files o loose held file m := by
  have numbers := updateLog_numbers c.disk c.logfileNumber f same
  refine files.carry rfl rfl rfl rfl rfl rfl le_rfl files.logfile (fun fine => fine) rfl rfl rfl ?_ ?_
  · show ((c.disk.updateLog c.logfileNumber f).logs.map (·.number)).Pairwise (· < ·)
    rw [numbers]
    exact files.disk.increasing
  · intro l hl
    have member : l.number ∈ (c.disk.updateLog c.logfileNumber f).logs.map (·.number) := List.mem_map_of_mem hl
    rw [numbers] at member
    obtain ⟨old,ho,number⟩ := List.mem_map.mp member
    rw [← number]
    exact files.logs_spec old ho

theorem Core.Files.switch (files : c.Files o loose held file m) :
    Core.Files o loose held file { c with
      disk := c.disk.newLog c.versions.nextFileNumber
      mem := []
      imm := some c.mem
      logfileNumber := c.versions.nextFileNumber
      versions := { c.versions with nextFileNumber := c.versions.nextFileNumber + 1 } } m := by
  refine files.carry rfl rfl rfl rfl rfl rfl (Nat.le_succ _) (Nat.lt_succ_self _) (fun fine => fine) rfl rfl rfl ?_ ?_
  · simp only [Disk.newLog,List.map_append,List.map_cons,List.map_nil]
    refine List.pairwise_append.mpr ⟨files.disk.increasing,List.pairwise_singleton _ _,?_⟩
    intro a ha b hb
    obtain ⟨l,hl,rfl⟩ := List.mem_map.mp ha
    rw [List.mem_singleton.mp hb]
    exact files.logs l hl
  · intro l hl
    rcases List.mem_append.mp hl with old | new
    · exact ⟨(files.logs_spec l old).1,(files.logs l old).trans (Nat.lt_succ_self _)⟩
    · rw [List.mem_singleton.mp new]
      exact ⟨Nat.zero_lt_of_lt files.manifest,Nat.lt_succ_self _⟩

end Writers

section Flush
variable {o : Options K V} {loose : Bool} {held : List (Version K)} {file : Nat → Option (FileMetaData K)}
  {c : Core K V} {m : ManifestFile K V} {outer : Option (CompactionState K V)}

theorem Core.Files.free_next (files : c.Files o loose held file m) : file c.versions.nextFileNumber = none := by
  cases named : file c.versions.nextFileNumber with
  | none => rfl
  | some f => exact absurd (files.below _ f named) (lt_irrefl _)

/-- While nothing is committed, the manifest ends in the current version. -/
theorem Core.Linked.quiet {c' : Core K V} (linked : c.Linked m) (before : c.job.commit = none)
    (after : c'.job.commit = none) (current : c'.versions.current = c.versions.current) : c'.Linked m := by
  refine ⟨?_,fun _ => linked.synced fun commit isCommit => ?_,fun commit isCommit => ?_⟩
  · rw [linked.version,Core.recorded,Core.recorded,before,after,current]
  · rw [before] at isCommit
    cases isCommit
  · rw [after] at isCommit
    cases isCommit

omit [LinearOrder K] in
theorem resume_commit (outer : Option (CompactionState K V)) : (Job.resume outer).commit = none := by
  cases outer <;> rfl

theorem Core.Files.beginFlush (files : c.Files o loose held file m) (job : c.job = .resume outer) :
    Core.Files o loose held file { c with
      versions := { c.versions with nextFileNumber := c.versions.nextFileNumber + 1 }
      job := .flush c.versions.nextFileNumber .write outer
      pendingOutputs := c.versions.nextFileNumber :: c.pendingOutputs } m := by
  have inner : c.job.outer = outer := by rw [job,resume_outer]
  have next := Nat.le_succ c.versions.nextFileNumber
  refine ⟨files.disk,fun n f named => (files.below n f named).trans_le next,files.manifest.trans_le next,
    fun l hl => (files.logs l hl).trans_le next,files.logfile.trans_le next,files.logNumber.trans_le next,
    files.prev,?_,⟨?_,by rintro _ ⟨⟩,?_,by rintro _ _ ⟨⟩⟩,?_⟩
  · rintro v (rfl | here | ⟨x,isOuter,rfl⟩ | ⟨commit,isCommit,rfl⟩)
    · exact files.live _ (.inl rfl)
    · exact files.live v (.inr (.inl here))
    · exact files.live _ (.inr (.inr (.inl ⟨x,inner.trans isOuter,rfl⟩)))
    · cases isCommit
  · intro x isOuter
    exact (files.job.outer x (inner.trans isOuter)).carry next (fun n _ member => List.mem_cons_of_mem _ member)
      fun _ _ => rfl
  · rintro _ _ _ ⟨⟩
    refine ⟨files.free_next,Nat.lt_succ_self _,fun x isOuter member => ?_⟩
    exact absurd ((files.job.outer x (inner.trans isOuter)).below _ member) (lt_irrefl _)
  · exact fun fine => (files.linked fine).quiet (by rw [job,resume_commit]) rfl rfl

/-- The table of a flush is written or removed: its number names no file. -/
theorem Core.Files.flushTable {c' : Core K V} {n : Nat} {stage : BuildStage} (stage' : BuildStage)
    (files : c.Files o loose held file m) (job : c.job = .flush n stage outer)
    (touches : c.disk.Touches c'.disk (· = n)) (versions : c'.versions = c.versions)
    (logfile : c'.logfileNumber = c.logfileNumber)
    (pending : ∀ k, k ≠ n → k ∈ c.pendingOutputs → k ∈ c'.pendingOutputs)
    (job' : c'.job = .flush n stage' outer ∨ c'.job = .resume outer)
    (error : c'.bgError = false → c.bgError = false) : c'.Files o loose held file m := by
  obtain ⟨free,below,apart⟩ := files.job.flush n stage outer job
  have isFree : ∀ k, k = n → file k = none := by rintro _ rfl; exact free
  have outer' : c'.job.outer = outer := by
    rcases job' with same | same
    · rw [same]; rfl
    · rw [same,resume_outer]
  have commit' : c'.job.commit = none := by
    rcases job' with same | same
    · rw [same]; rfl
    · rw [same,resume_commit]
  have inner : c.job.outer = outer := by rw [job]; rfl
  refine ⟨?_,by rw [versions]; exact files.below,by rw [versions]; exact files.manifest,?_,
    by rw [versions,logfile]; exact files.logfile,by rw [versions]; exact files.logNumber,
    by rw [versions]; exact files.prev,?_,⟨?_,?_,?_,?_⟩,?_⟩
  · rw [versions]
    exact files.disk.free touches isFree
  · rw [touches.logs,versions]
    exact files.logs
  · rintro v (rfl | here | ⟨x,isOuter,rfl⟩ | ⟨commit,isCommit,rfl⟩)
    · rw [versions]
      exact (files.live _ (.inl rfl)).free touches isFree
    · exact (files.live v (.inr (.inl here))).free touches isFree
    · rw [outer'] at isOuter
      exact (files.live _ (.inr (.inr (.inl ⟨x,inner.trans isOuter,rfl⟩)))).free touches isFree
    · rw [commit'] at isCommit
      cases isCommit
  · intro x isOuter
    rw [outer'] at isOuter
    refine (files.job.outer x (inner.trans isOuter)).carry (by rw [versions]) (fun k member => pending k ?_) fun k member => ?_
    · rintro rfl
      exact apart x isOuter member
    · refine touches.tables k ?_
      rintro rfl
      exact apart x isOuter (x.outputs_subset _ member)
  · intro commit isCommit
    rw [commit'] at isCommit
    cases isCommit
  · intro k stage'' outer'' isJob
    rcases job' with same | same
    · rw [same] at isJob
      cases isJob
      rw [versions]
      exact ⟨free,below,apart⟩
    · rw [same] at isJob
      cases outer <;> cases isJob
  · intro doomed outer'' isJob
    rcases job' with same | same
    · rw [same] at isJob
      cases isJob
    · rw [same] at isJob
      cases outer <;> cases isJob
  · intro fine
    exact (files.linked (fine.imp id error)).quiet (by rw [job]; rfl) commit' (by rw [versions])

end Flush

section Commit
variable {o : Options K V} {loose : Bool} {held : List (Version K)} {file file' : Nat → Option (FileMetaData K)}
  {c : Core K V} {m : ManifestFile K V}

theorem Core.Files.used (files : c.Files o loose held file m) {n : Nat}
    (uses : (recoverRecords m.records).builder.Uses n) : ∃ f, file n = some f := by
  obtain ⟨l,f,hf,rfl⟩ := uses
  exact ⟨f,files.disk.whole.tracks.named l f hf⟩

/-- Files with new numbers can go anywhere. -/
theorem Version.Kept.places {v : Version K} {e : VersionEdit K} {d : Disk K V} (kept : v.Kept o file d)
    (named : ∀ n ∈ e.newFiles, file' n.2.number = some n.2) (level : ∀ n ∈ e.newFiles, n.1 < kNumLevels)
    (new : ∀ n ∈ e.newFiles, file n.2.number = none)
    (once : ∀ n ∈ e.newFiles, ∀ n' ∈ e.newFiles, n.2.number = n'.2.number → n.1 = n'.1) : e.Places file' v := by
  refine ⟨named,level,fun n hn l g hg same => ?_,once⟩
  have old := (kept.files l g hg).named
  rw [same,new n hn] at old
  cases old

/-- The first half of `LogAndApply`, with the tables of the edit on the disk. -/
theorem Core.Files.commit {c' : Core K V} {S : Nat → Prop} {e : VersionEdit K}
    (files : c.Files o loose held file m) (before : c.job.commit = none)
    (names : ∀ n f, file n = some f → file' n = some f)
    (below : ∀ n f, file' n = some f → n < c.versions.nextFileNumber)
    (touches : c.disk.Touches c'.disk S) (free : ∀ n, S n → file n = none)
    (versions : ∃ pointer, c'.versions = { c.versions with compactPointer := pointer })
    (logfile : c'.logfileNumber = c.logfileNumber) (error : c'.bgError = c.bgError)
    (isCommit : c'.job.commit = some (c.versions.logAndApply e))
    (outer : ∀ x, c'.job.outer = some x → c.job.outer = some x ∧ c'.Working file' x)
    (log : ∀ n, e.logNumber = some n → n < c.versions.nextFileNumber) (prev : e.prevLogNumber.getD 0 = 0)
    (places : e.Places file' c.versions.current) (again : e.Places file' (recoverRecords m.records).version)
    (new : ∀ n ∈ e.newFiles, n.2.Kept o file' c'.disk) : c'.Files o loose held file' m := by
  obtain ⟨pointer,same⟩ := versions
  have kept : ∀ v : Version K, v.Kept o file c.disk → v.Kept o file' c'.disk := by
    intro v hv
    refine (hv.free touches free).frame (fun _ _ _ => rfl) fun l f hf => ?_
    rw [(hv.files l f hf).named]
    exact names _ _ (hv.files l f hf).named
  have current : c'.versions.current = c.versions.current := by rw [same]
  have next : c'.versions.nextFileNumber = c.versions.nextFileNumber := by rw [same]
  have number : c'.versions.manifestFileNumber = c.versions.manifestFileNumber := by rw [same]
  have noJob : ∀ job : Job K V, job.commit = none → c'.job ≠ job := by
    rintro job none rfl
    rw [none] at isCommit
    cases isCommit
  have isKept : ((c.versions.logAndApply e).version).Kept o file' c'.disk :=
    (kept _ (files.live _ (.inl rfl))).apply (e := (c.versions.logAndApply e).edit)
      ⟨places.named,places.level,places.moved,places.once⟩ new
  refine ⟨?_,by rw [next]; exact below,by rw [next,number]; exact files.manifest,?_,by rw [next,logfile]; exact files.logfile,
    by rw [same]; exact files.logNumber,by rw [same]; exact files.prev,?_,⟨fun x hx => (outer x hx).2,?_,?_,?_⟩,?_⟩
  · rw [number]
    refine (files.disk.free touches free).frame rfl rfl (List.Sublist.refl _) (fun _ _ _ _ _ => rfl) fun n uses => ?_
    obtain ⟨f,named⟩ := files.used uses
    rw [named]
    exact names n f named
  · rw [touches.logs,next]
    exact files.logs
  · rintro v (rfl | here | ⟨x,isOuter,rfl⟩ | ⟨commit,isCommit',rfl⟩)
    · rw [current]
      exact kept _ (files.live _ (.inl rfl))
    · exact kept v (files.live v (.inr (.inl here)))
    · exact kept _ (files.live _ (.inr (.inr (.inl ⟨x,(outer x isOuter).1,rfl⟩))))
    · rw [isCommit] at isCommit'
      cases isCommit'
      exact isKept
  · intro commit isCommit'
    rw [isCommit] at isCommit'
    cases isCommit'
    refine ⟨⟨e.logNumber.getD c.versions.logNumber,c.versions.nextFileNumber,c.versions.lastSequence,
      ⟨rfl,?_,rfl,rfl⟩,?_,next.ge,by rw [number]; exact files.manifest,?_,?_⟩,?_,?_⟩
    · show (some (e.prevLogNumber.getD c.versions.prevLogNumber)).getD 0 = 0
      rw [files.prev]
      exact prev
    · cases isLog : e.logNumber with
      | none => exact files.logNumber
      | some n => exact log n isLog
    · intro n uses
      obtain ⟨f,named⟩ := files.used uses
      exact files.below n f named
    · intro n hn
      exact ⟨new n hn,below _ _ (new n hn).named⟩
    · rw [current]
      exact fun _ => rfl
    · rw [current]
      exact fun _ => ⟨⟨places.named,places.level,places.moved,places.once⟩,⟨again.named,again.level,again.moved,again.once⟩⟩
  · intro n stage x isJob
    exact absurd isJob (noJob _ rfl)
  · intro doomed x isJob
    exact absurd isJob (noJob _ rfl)
  · intro fine
    have linked := files.linked (by rwa [error] at fine)
    refine ⟨?_,fun _ => linked.synced fun commit some => ?_,?_⟩
    · rw [linked.version,Core.recorded,Core.recorded,before,isCommit,current]
      rfl
    · rw [before] at some
      cases some
    · intro commit isCommit' stage
      rw [isCommit] at isCommit'
      cases isCommit'
      cases stage

/-- The files that tables with these numbers and entries become. -/
def register (o : Options K V) (outs : List (Nat × List (Entry K V))) (file : Nat → Option (FileMetaData K))
    (n : Nat) : Option (FileMetaData K) :=
  ((outs.find? fun out => out.1 == n).bind fun out => outputFile o out.1 out.2).or (file n)

section Register
variable {outs : List (Nat × List (Entry K V))} {n : Nat} {f : FileMetaData K}

omit [LinearOrder K] in
theorem register_other (other : n ∉ outs.map (·.1)) : register o outs file n = file n := by
  have none : outs.find? (fun out => out.1 == n) = none := by
    refine List.find?_eq_none.mpr fun out member same => other ?_
    rw [← (beq_iff_eq.mp same)]
    exact List.mem_map_of_mem member
  rw [register,none]
  rfl

omit [LinearOrder K] in
theorem register_names (free : ∀ n ∈ outs.map (·.1), file n = none) (named : file n = some f) :
    register o outs file n = some f := by
  rw [register_other,named]
  intro member
  rw [free n member] at named
  cases named

omit [LinearOrder K] in
theorem register_below (bound : Nat) (outputs : ∀ n ∈ outs.map (·.1), n < bound)
    (old : ∀ n f, file n = some f → n < bound) (named : register o outs file n = some f) : n < bound := by
  by_cases member : n ∈ outs.map (·.1)
  · exact outputs n member
  · rw [register_other member] at named
    exact old n f named

omit [LinearOrder K] in
theorem register_output {out : Nat × List (Entry K V)} (distinct : (outs.map (·.1)).Pairwise (· < ·))
    (member : out ∈ outs) (isFile : outputFile o out.1 out.2 = some f) :
    register o outs file out.1 = some f := by
  have found : outs.find? (fun x => x.1 == out.1) = some out := by
    induction outs with
    | nil => cases member
    | cons first rest ih =>
      obtain ⟨lower,tail⟩ := List.pairwise_cons.mp distinct
      rcases List.mem_cons.mp member with rfl | later
      · simp
      · have ne : first.1 ≠ out.1 := (lower out.1 (List.mem_map_of_mem later)).ne
        rw [List.find?_cons,beq_eq_false_iff_ne.mpr ne]
        exact ih tail later
  rw [register,found]
  simp [isFile]

end Register

omit [LinearOrder K] in
theorem Core.Working.rename {x : CompactionState K V} (working : c.Working file x)
    (free : ∀ n ∈ x.files.map (·.1), file' n = none) : c.Working file' x :=
  ⟨working.deep,free,working.below,working.pending,working.ascending,working.written⟩

theorem Core.Files.syncTable {n level : Nat} {outer : Option (CompactionState K V)} {imm : MemTable K V}
    {e : VersionEdit K} (files : c.Files o loose held file m) (job : c.job = .flush n .sync outer)
    (flushes : e.Flushes o n level c.logfileNumber imm) :
    Core.Files o loose held (register o [(n,imm)] file) { c with
      disk := c.disk.withTable n imm true
      job := .commitFlush (c.versions.logAndApply e) outer
      pendingOutputs := c.pendingOutputs.erase n } m := by
  obtain ⟨free,below,apart⟩ := files.job.flush n .sync outer job
  have touches := withTable_touches c.disk n imm true
  have isFree : ∀ k ∈ [(n,imm)].map (·.1), file k = none := by simpa using free
  have member : ∀ k ∈ e.newFiles, k.1 = level ∧ k.2.number = n ∧ outputFile o n imm = some k.2 := by
    intro k hk
    rw [flushes.new] at hk
    obtain ⟨f,hf,rfl⟩ := List.mem_map.mp hk
    have isFile := Option.mem_toList.mp hf
    exact ⟨rfl,(outputFile_spec isFile).1,isFile⟩
  have named : ∀ k ∈ e.newFiles, register o [(n,imm)] file k.2.number = some k.2 := by
    intro k hk
    rw [(member k hk).2.1]
    exact register_output (List.pairwise_singleton _ _) List.mem_cons_self (member k hk).2.2
  have places : ∀ v : Version K, v.Kept o file c.disk → e.Places (register o [(n,imm)] file) v := by
    intro v kept
    refine kept.places named (fun k hk => ?_) (fun k hk => ?_) fun k hk k' hk' _ => ?_
    · rw [(member k hk).1]
      exact flushes.level
    · rw [(member k hk).2.1]
      exact free
    · rw [(member k hk).1,(member k' hk').1]
  refine files.commit (by rw [job]; rfl) (fun _ _ => register_names isFree)
    (fun _ _ => register_below _ (by simpa using below) files.below) touches (by rintro _ rfl; exact free) ⟨_,rfl⟩ rfl rfl rfl
    ?_ ?_ (by rw [flushes.prev]; rfl) (places _ (files.live _ (.inl rfl))) (places _ files.disk.whole.kept) ?_
  · rintro x isOuter
    have inner : outer = some x := isOuter
    have isOuter' : c.job.outer = some x := by rw [job]; exact inner
    refine ⟨isOuter',((files.job.outer x isOuter').rename fun k hk => ?_).carry le_rfl (fun k hk => ?_) fun k hk => ?_⟩
    · rw [register_other]
      · exact (files.job.outer x isOuter').free k hk
      · simp only [List.map_cons,List.map_nil,List.mem_singleton]
        rintro rfl
        exact apart x inner hk
    · refine (List.mem_erase_of_ne ?_).mpr
      rintro rfl
      exact apart x inner hk
    · refine touches.tables k ?_
      rintro rfl
      exact apart x inner (x.outputs_subset _ hk)
  · intro k isLog
    rw [flushes.log] at isLog
    cases isLog
    exact files.logfile
  · intro k hk
    refine ⟨named k hk,imm,?_,?_⟩
    · rw [(member k hk).2.1]
      refine withTable_written c.disk n imm true ?_
      rintro rfl
      exact absurd (member k hk).2.2 (by simp [outputFile])
    · rw [(member k hk).2.1]
      exact (member k hk).2.2

omit [LinearOrder K] in
/-- The last output is written: all of them are on the disk. -/
theorem Core.Working.all_written {x : CompactionState K V} (working : c.Working file x) :
    ∀ out ∈ x.files, (c.disk.setTables x.building.toList).tables out.1 = some ⟨out.2,true⟩ := by
  have split : (x.outputs.map (·.1)).Pairwise (· < ·) ∧ (x.building.toList.map (·.1)).Pairwise (· < ·) ∧
      ∀ a ∈ x.outputs.map (·.1), ∀ b ∈ x.building.toList.map (·.1), a < b := by
    have ascending := working.ascending
    rw [CompactionState.files,List.map_append] at ascending
    exact List.pairwise_append.mp ascending
  intro out member
  rcases List.mem_append.mp member with old | new
  · rw [(setTables_touches c.disk x.building.toList).tables out.1 fun hit =>
      absurd (split.2.2 _ (List.mem_map_of_mem old) _ hit) (lt_irrefl _)]
    exact working.written out old
  · exact setTables_written c.disk x.building.toList split.2.1 out new

theorem Core.Files.finishCompaction {x : CompactionState K V} (files : c.Files o loose held file m)
    (job : c.job = .compact x) :
    Core.Files o loose held (register o x.files file) { c with
      disk := c.disk.setTables x.building.toList
      job := .commitCompaction x.finishOutput (c.versions.logAndApply (x.finishOutput.edit o)) } m := by
  have working := files.job.outer x (by rw [job]; rfl)
  have touches := setTables_touches c.disk x.building.toList
  have built : ∀ n ∈ x.building.toList.map (·.1), n ∈ x.files.map (·.1) := by
    intro n hn
    simp only [CompactionState.files,List.map_append]
    exact List.mem_append_right _ hn
  have written := working.all_written
  have member : ∀ k ∈ (x.finishOutput.edit o).newFiles, k.1 = x.compaction.level + 1 ∧
      ∃ out ∈ x.files, out.1 = k.2.number ∧ outputFile o out.1 out.2 = some k.2 := by
    intro k hk
    obtain ⟨f,hf,rfl⟩ := List.mem_map.mp hk
    obtain ⟨out,ho,isFile⟩ := List.mem_filterMap.mp hf
    exact ⟨rfl,out,ho,(outputFile_spec isFile).1.symm,isFile⟩
  have named : ∀ k ∈ (x.finishOutput.edit o).newFiles, register o x.files file k.2.number = some k.2 := by
    intro k hk
    obtain ⟨-,out,ho,same,isFile⟩ := member k hk
    rw [← same]
    exact register_output working.ascending ho isFile
  have places : ∀ v : Version K, v.Kept o file c.disk → (x.finishOutput.edit o).Places (register o x.files file) v := by
    intro v kept
    refine kept.places named (fun k hk => ?_) (fun k hk => ?_) fun k hk k' hk' _ => ?_
    · rw [(member k hk).1]
      exact working.deep
    · obtain ⟨-,out,ho,same,-⟩ := member k hk
      rw [← same]
      exact working.free _ (List.mem_map_of_mem ho)
    · rw [(member k hk).1,(member k' hk').1]
  refine files.commit (by rw [job]; rfl) (fun _ _ => register_names working.free)
    (fun _ _ => register_below _ working.below files.below) touches (fun n hn => working.free n (built n hn)) ⟨_,rfl⟩ rfl rfl
    rfl (by rintro _ ⟨⟩) (by rintro _ ⟨⟩) rfl (places _ (files.live _ (.inl rfl))) (places _ files.disk.whole.kept) ?_
  intro k hk
  obtain ⟨-,out,ho,same,isFile⟩ := member k hk
  exact ⟨named k hk,out.2,by rw [← same]; exact written out ho,by rw [← same]; exact isFile⟩

theorem Core.Files.move {x : Compaction K} {f : FileMetaData K} (files : c.Files o loose held file m)
    (job : c.job = .idle) (fine : c.bgError = false) (within : x.Within c.versions.current)
    (single : x.inputs0 = [f]) (pointer : Nat → Option (InternalKey K)) :
    Core.Files o loose held file { c with
      versions := { c.versions with compactPointer := pointer }
      job := .move (c.versions.logAndApply x.moveEdit) } m := by
  have kept := files.live _ (.inl rfl)
  have here : f ∈ c.versions.current.files x.level := within.own f (by rw [single]; exact List.mem_cons_self)
  have newFiles : x.moveEdit.newFiles = [(x.level + 1,f)] := by rw [Compaction.moveEdit,single]; rfl
  have deleted : x.moveEdit.deletedFiles = [(x.level,f.number)] := by rw [Compaction.moveEdit,single]; rfl
  have places : x.moveEdit.Places file c.versions.current := by
    refine ⟨?_,?_,?_,?_⟩ <;> simp only [newFiles,deleted,List.mem_singleton,forall_eq]
    · exact (kept.files _ f here).named
    · exact within.level
    · intro l g hg same
      have level := kept.unique l x.level g hg f here same
      exact ⟨by omega,by rw [level,same]⟩
    · exact fun _ => trivial
  have recorded : (recoverRecords m.records).version = c.versions.current := by
    rw [(files.linked (.inr fine)).version,Core.recorded,job]
    rfl
  refine files.commit (by rw [job]; rfl) (fun _ _ named => named) files.below (Disk.Touches.refl _ fun _ => False)
    (fun _ none => none.elim) ⟨pointer,rfl⟩ rfl rfl rfl (by rintro _ ⟨⟩) (by rintro _ ⟨⟩) rfl places (recorded ▸ places) ?_
  intro k hk
  rw [newFiles,List.mem_singleton] at hk
  rw [hk]
  exact kept.files _ f here

end Commit

section Compaction
variable {o : Options K V} {loose : Bool} {held : List (Version K)} {file : Nat → Option (FileMetaData K)}
  {c : Core K V} {m : ManifestFile K V} {x : CompactionState K V}

theorem Core.Files.compact {x : Compaction K} (files : c.Files o loose held file m) (job : c.job = .idle)
    (within : x.Within c.versions.current) (isManual : Bool) (snapshot : Nat)
    (pointer : Nat → Option (InternalKey K)) :
    Core.Files o loose held file { c with
      versions := { c.versions with compactPointer := pointer }
      job := .compact (.start x isManual snapshot c.disk.table) } m := by
  refine ⟨files.disk,files.below,files.manifest,files.logs,files.logfile,files.logNumber,files.prev,?_,
    ⟨?_,by rintro _ ⟨⟩,by rintro _ _ _ ⟨⟩,by rintro _ _ ⟨⟩⟩,
    fun fine => (files.linked fine).quiet (by rw [job]; rfl) rfl rfl⟩
  · rintro v (rfl | here | ⟨_,⟨⟩,rfl⟩ | ⟨commit,⟨⟩,rfl⟩)
    · exact files.live _ (.inl rfl)
    · exact files.live v (.inr (.inl here))
    · exact files.live _ (.inl within.version)
  · rintro _ ⟨⟩
    exact ⟨within.level,by simp [CompactionState.files,CompactionState.start],
      by simp [CompactionState.files,CompactionState.start],by simp [CompactionState.files,CompactionState.start],
      by simp [CompactionState.files,CompactionState.start],by simp [CompactionState.start]⟩

theorem Core.Files.advance (files : c.Files o loose held file m) (job : c.job = .compact x)
    (more : x.remaining ≠ []) :
    Core.Files o loose held file { c with
      disk := (if (x.advance o c.versions.nextFileNumber).2
        then c.disk.setTable c.versions.nextFileNumber ⟨[],false⟩ else c.disk).setTables
          ((x.advance o c.versions.nextFileNumber).1.outputs.drop x.outputs.length)
      versions := if (x.advance o c.versions.nextFileNumber).2
        then { c.versions with nextFileNumber := c.versions.nextFileNumber + 1 } else c.versions
      job := .compact (x.advance o c.versions.nextFileNumber).1
      pendingOutputs := if (x.advance o c.versions.nextFileNumber).2
        then c.versions.nextFileNumber :: c.pendingOutputs else c.pendingOutputs } m := by
  obtain ⟨e,rest,head⟩ := List.exists_cons_of_ne_nil more
  have working := files.job.outer x (by rw [job]; rfl)
  obtain ⟨ascending,mine,touches,written⟩ := advance_tables o c.disk head c.versions.nextFileNumber
    working.ascending working.below working.written
  obtain ⟨same,-⟩ := advance_same o c.versions.nextFileNumber head
  have free : ∀ k, k ∈ x.files.map (·.1) ∨ k = c.versions.nextFileNumber → file k = none := by
    rintro k (old | rfl)
    · exact working.free k old
    · exact files.free_next
  set next := x.advance o c.versions.nextFileNumber
  have versions : ∃ n, (if next.2 then { c.versions with nextFileNumber := c.versions.nextFileNumber + 1 }
      else c.versions) = { c.versions with nextFileNumber := n } ∧ c.versions.nextFileNumber ≤ n ∧
      ∀ k ∈ next.1.files.map (·.1), k < n ∧ k ∈ if next.2 then c.versions.nextFileNumber :: c.pendingOutputs
        else c.pendingOutputs := by
    cases opened : next.2 with
    | true =>
      refine ⟨_,rfl,Nat.le_succ _,fun k hk => ?_⟩
      rcases mine k hk with old | ⟨-,rfl⟩
      · exact ⟨(working.below k old).trans (Nat.lt_succ_self _),List.mem_cons_of_mem _ (working.pending k old)⟩
      · exact ⟨Nat.lt_succ_self _,List.mem_cons_self⟩
    | false =>
      refine ⟨_,rfl,le_rfl,fun k hk => ?_⟩
      rcases mine k hk with old | ⟨taken,-⟩
      · exact ⟨working.below k old,working.pending k old⟩
      · rw [opened] at taken
        cases taken
  obtain ⟨n,isNext,le,claimed⟩ := versions
  rw [isNext]
  refine ⟨files.disk.free touches free,fun k f named => (files.below k f named).trans_le le,files.manifest.trans_le le,?_,
    files.logfile.trans_le le,files.logNumber.trans_le le,files.prev,?_,
    ⟨?_,by rintro _ ⟨⟩,by rintro _ _ _ ⟨⟩,by rintro _ _ ⟨⟩⟩,
    fun fine => (files.linked fine).quiet (by rw [job]; rfl) rfl rfl⟩
  · rw [touches.logs]
    exact fun l hl => (files.logs l hl).trans_le le
  · rintro v (rfl | here | ⟨_,⟨⟩,rfl⟩ | ⟨commit,⟨⟩,rfl⟩)
    · exact (files.live _ (.inl rfl)).free touches free
    · exact (files.live v (.inr (.inl here))).free touches free
    · rw [same.compaction]
      exact (files.live _ (.inr (.inr (.inl ⟨x,by rw [job]; rfl,rfl⟩)))).free touches free
  · rintro _ ⟨⟩
    refine ⟨by rw [same.compaction]; exact working.deep,fun k hk => free k ((mine k hk).imp id (·.2)),
      fun k hk => (claimed k hk).1,fun k hk => (claimed k hk).2,ascending,written⟩

/-- The background thread has nothing left to do, or goes on with the compaction around it. -/
theorem Core.Files.resume {c' : Core K V} {outer : Option (CompactionState K V)}
    (files : c.Files o loose held file m) (disk : c'.disk = c.disk)
    (current : c.Live held c'.versions.current) (same : c'.versions.nextFileNumber = c.versions.nextFileNumber ∧
      c'.versions.manifestFileNumber = c.versions.manifestFileNumber ∧ c'.versions.prevLogNumber = 0 ∧
      c'.logfileNumber = c.logfileNumber) (logNumber : c'.versions.logNumber < c.versions.nextFileNumber)
    (job : c'.job = .resume outer) (inner : ∀ x, outer = some x → c.job.outer = some x)
    (pending : ∀ x, outer = some x → ∀ n ∈ x.files.map (·.1), n ∈ c.pendingOutputs → n ∈ c'.pendingOutputs)
    (linked : loose = false ∨ c'.bgError = false → c'.Linked m) : c'.Files o loose held file m := by
  obtain ⟨next,number,prev,logfile⟩ := same
  have outer' : c'.job.outer = outer := by rw [job,resume_outer]
  have commit' : c'.job.commit = none := by rw [job,resume_commit]
  refine ⟨by rw [disk,number]; exact files.disk,by rw [next]; exact files.below,by rw [next,number]; exact files.manifest,
    by rw [disk,next]; exact files.logs,by rw [next,logfile]; exact files.logfile,by rw [next]; exact logNumber,prev,?_,
    ⟨?_,?_,?_,?_⟩,linked⟩
  · rw [disk]
    rintro v (rfl | here | ⟨x,isOuter,rfl⟩ | ⟨commit,isCommit,rfl⟩)
    · exact files.live _ current
    · exact files.live v (.inr (.inl here))
    · exact files.live _ (.inr (.inr (.inl ⟨x,inner x (outer' ▸ isOuter),rfl⟩)))
    · rw [commit'] at isCommit
      cases isCommit
  · intro x isOuter
    rw [outer'] at isOuter
    exact (files.job.outer x (inner x isOuter)).carry next.ge (pending x isOuter) fun _ _ => by rw [disk]
  · intro commit isCommit
    rw [commit'] at isCommit
    cases isCommit
  · intro n stage outer'' isJob
    rw [job] at isJob
    cases outer <;> cases isJob
  · intro doomed outer'' isJob
    rw [job] at isJob
    cases outer <;> cases isJob

theorem Core.Files.compactionFails (files : c.Files o loose held file m)
    (job : c.job = .compact x ∨ loose = true ∧ ∃ commit, c.job = .commitCompaction x commit) (pending : List Nat) :
    Core.Files o loose held file { c with job := .idle, pendingOutputs := pending, bgError := true } m := by
  refine files.resume rfl (.inl rfl) ⟨rfl,rfl,files.prev,rfl⟩ files.logNumber (show _ = Job.resume none from rfl) (by rintro _ ⟨⟩)
    (by rintro _ ⟨⟩) fun strict => ?_
  rcases job with compact | ⟨isLoose,-⟩
  · exact (files.linked (strict.imp id (by rintro ⟨⟩))).quiet (by rw [compact]; rfl) rfl rfl
  · rcases strict with strict | ⟨⟨⟩⟩
    rw [isLoose] at strict
    cases strict

theorem Core.Files.removeDone {outer : Option (CompactionState K V)} {doomed : FileName → Bool}
    (files : c.Files o loose held file m) (job : c.job = .remove doomed outer) :
    Core.Files o loose held file { c with job := .resume outer } m :=
  files.resume rfl (.inl rfl) ⟨rfl,rfl,files.prev,rfl⟩ files.logNumber rfl (fun x isOuter => by rw [job]; exact isOuter)
    (fun _ _ _ _ member => member)
    fun fine => (files.linked fine).quiet (by rw [job]; rfl) (resume_commit outer) rfl

/-- What `RemoveObsoleteFiles` chooses is needed by no version, also after a crash. -/
theorem Core.Files.collect {outer : Option (CompactionState K V)} {doomed : FileName → Bool}
    (files : c.Files o loose held file m) (job : c.job = .resume outer) (fine : c.bgError = false)
    (chooses : c.Chooses held outer doomed) :
    Core.Files o loose held file { c with job := .remove doomed outer } m := by
  have inner : c.job.outer = outer := by rw [job,resume_outer]
  have commit : c.job.commit = none := by rw [job,resume_commit]
  have linked := files.linked (.inr fine)
  have current : (recoverRecords m.records).version = c.versions.current := by
    rw [linked.version,Core.recorded,commit]
  have synced : m.synced = m.records.length := linked.synced fun _ some => by rw [commit] at some; cases some
  have live : ∀ v, Core.Live { c with job := .remove doomed outer } held v → c.Live held v := by
    rintro v (rfl | here | ⟨x,isOuter,rfl⟩ | ⟨_,⟨⟩,-⟩)
    · exact .inl rfl
    · exact .inr (.inl here)
    · exact .inr (.inr (.inl ⟨x,inner.trans isOuter,rfl⟩))
  refine ⟨files.disk,files.below,files.manifest,files.logs,files.logfile,files.logNumber,files.prev,
    fun v hv => files.live v (live v hv),⟨fun x isOuter => ?_,by rintro _ ⟨⟩,by rintro _ _ _ ⟨⟩,?_⟩,
    fun _ => linked.quiet commit rfl rfl⟩
  · exact (files.job.outer x (inner.trans isOuter)).carry le_rfl (fun _ _ member => member) fun _ _ => rfl
  · rintro _ _ ⟨⟩
    refine ⟨chooses.log,chooses.manifest,chooses.currentFile,?_,?_,chooses.pending,?_⟩
    · rintro n hn v (rfl | here | ⟨x,isOuter,rfl⟩ | ⟨_,⟨⟩,-⟩)
      · exact chooses.current n hn
      · exact chooses.held n hn v here
      · exact chooses.outer n hn x isOuter
    · intro n hn k low high
      have whole : k = m.records.length := by omega
      rw [whole,ManifestFile.upTo,List.take_length,current]
      exact chooses.current n hn
    · intro n hn x isOuter member
      exact chooses.pending n hn ((files.job.outer x (inner.trans isOuter)).pending n member)

/-- A file is removed that nothing needs. -/
theorem Core.Files.removeFile {outer : Option (CompactionState K V)} {doomed : FileName → Bool} {f : FileName}
    (files : c.Files o loose held file m) (job : c.job = .remove doomed outer) (isDoomed : doomed f) :
    Core.Files o loose held file { c with disk := c.disk.remove f } m := by
  have old := files.job.doomed doomed outer job
  have inner : c.job.outer = outer := by rw [job]; rfl
  have tables : ∀ n, ¬doomed (.table n) → (c.disk.remove f).tables n = c.disk.tables n := by
    intro n safe
    cases f with
    | table k =>
      have other : n ≠ k := by
        rintro rfl
        exact safe isDoomed
      simp [Disk.remove,other]
    | log k | manifest k | temp k | current => rfl
  have logs : ((c.disk.remove f).logs.map (·.number)).Sublist (c.disk.logs.map (·.number)) := by
    cases f with
    | log k => exact List.filter_sublist.map _
    | table k | manifest k | temp k | current => exact List.Sublist.refl _
  have current : (c.disk.remove f).currentFile = c.disk.currentFile := by
    cases f with
    | current =>
      rw [old.currentFile] at isDoomed
      cases isDoomed
    | log k | table k | manifest k | temp k => rfl
  have manifest : (c.disk.remove f).manifests c.versions.manifestFileNumber =
      c.disk.manifests c.versions.manifestFileNumber := by
    cases f with
    | manifest k =>
      have other := (old.manifest k isDoomed).ne'
      simp [Disk.remove,other]
    | log k | table k | temp k | current => rfl
  refine ⟨files.disk.frame current manifest logs ?_ fun _ _ => rfl,files.below,files.manifest,?_,files.logfile,
    files.logNumber,files.prev,?_,⟨?_,?_,?_,?_⟩,fun fine => (files.linked fine).quiet (by rw [job]; rfl) (by rw [job]; rfl) rfl⟩
  · exact fun k n low high member => tables n fun hn => old.recorded n hn k low high member
  · intro l hl
    obtain ⟨l',hl',same⟩ := List.mem_map.mp (logs.subset (List.mem_map_of_mem hl))
    rw [← same]
    exact files.logs l' hl'
  · intro v hv
    have kept := files.live v hv
    exact kept.frame (fun l g hg => tables _ fun hn => old.live _ hn v hv (kept.mem_numbers hg)) fun _ _ _ => rfl
  · intro x isOuter
    refine (files.job.outer x isOuter).carry le_rfl (fun _ _ member => member) fun n member => tables n fun hn => ?_
    exact old.outputs n hn x (inner.symm.trans isOuter) (x.outputs_subset n member)
  · intro commit isCommit
    have : c.job.commit = some commit := isCommit
    rw [job] at this
    cases this
  · exact files.job.flush
  · intro doomed' outer' isJob
    have same := files.job.doomed doomed' outer' isJob
    exact ⟨same.log,same.manifest,same.currentFile,same.live,same.recorded,same.pending,same.outputs⟩

end Compaction

section Manifest
variable {o : Options K V} {loose : Bool} {held : List (Version K)} {file : Nat → Option (FileMetaData K)}
  {c : Core K V} {m : ManifestFile K V} {commit : Commit K}

theorem Core.Files.commitFails (files : c.Files o loose held file m) (allowed : loose = true) :
    Core.Files o loose held file { c with job := .resume c.job.outer, bgError := true } m := by
  refine files.resume rfl (.inl rfl) ⟨rfl,rfl,files.prev,rfl⟩ files.logNumber rfl (fun _ isOuter => isOuter)
    (fun _ _ _ _ member => member) ?_
  rintro (strict | ⟨⟨⟩⟩)
  rw [allowed] at strict
  cases strict

theorem Core.Files.install (files : c.Files o loose held file m) (isCommit : c.job.commit = some commit)
    (stage : commit.stage = .install) (imm : Option (MemTable K V)) :
    Core.Files o loose held file { c with
      imm := imm
      versions := c.versions.install commit
      job := .resume c.job.outer
      pendingOutputs := c.pendingOutputs.filter fun n => decide (n ∉ c.job.outputs) } m := by
  obtain ⟨log,next,last,completes,isLog,le,-⟩ := (files.job.commit commit isCommit).completes
  have logIs : (c.versions.install commit).logNumber = log := by
    simp [VersionSet.install,completes.log]
  have prev : (c.versions.install commit).prevLogNumber = 0 := by
    rw [VersionSet.install,files.prev]
    exact completes.prev
  refine files.resume rfl (.inr (.inr (.inr ⟨commit,isCommit,rfl⟩))) ⟨rfl,rfl,prev,rfl⟩
    (by show (c.versions.install commit).logNumber < _; rw [logIs]; exact isLog.trans_le le) rfl (fun _ isOuter => isOuter)
    ?_ fun fine => ?_
  · intro x isOuter n _ member
    have none : c.job.outputs = [] := by
      cases job : c.job with
      | commitCompaction y commit' =>
        rw [job] at isOuter
        cases isOuter
      | _ => rfl
    simpa [none] using member
  · have linked := files.linked fine
    refine ⟨?_,fun _ => linked.synced fun commit' isCommit' => ?_,fun commit' isCommit' => ?_⟩
    · rw [linked.version,Core.recorded,Core.recorded,isCommit,resume_commit]
      simp [stage,VersionSet.install]
    · rw [isCommit] at isCommit'
      cases isCommit'
      rw [stage]
      decide
    · have none := resume_commit c.job.outer
      rw [none] at isCommit'
      cases isCommit'

/-- The commit goes on with another manifest. -/
theorem Core.Files.setCommit {m' : ManifestFile K V} {d : Disk K V} {stage : CommitStage}
    (files : c.Files o loose held file m) (isCommit : c.job.commit = some commit) (later : stage ≠ .append)
    (disk : d.Files o file c.versions.manifestFileNumber m') (tables : d.tables = c.disk.tables)
    (logs : d.logs = c.disk.logs) (used : ∀ n, (recoverRecords m'.records).builder.Uses n →
      n < (commit.edit.nextFileNumber.getD 0))
    (linked : loose = false ∨ c.bgError = false →
      Core.Linked { c with disk := d, job := c.job.setCommit { commit with stage } } m') :
    Core.Files o loose held file { c with disk := d, job := c.job.setCommit { commit with stage } } m' := by
  have isCommit' : (c.job.setCommit { commit with stage }).commit = _ := setCommit_commit isCommit
  have noJob : ∀ job : Job K V, job.commit = none → c.job.setCommit { commit with stage } ≠ job := by
    rintro job none rfl
    rw [none] at isCommit'
    cases isCommit'
  have kept : ∀ v : Version K, v.Kept o file c.disk → v.Kept o file d :=
    fun v hv => hv.frame (fun _ _ _ => by rw [tables]) fun _ _ _ => rfl
  refine ⟨disk,files.below,files.manifest,by rw [logs]; exact files.logs,files.logfile,files.logNumber,files.prev,?_,
    ⟨?_,?_,?_,?_⟩,linked⟩
  · rintro v (rfl | here | ⟨x,isOuter,rfl⟩ | ⟨commit',some,rfl⟩)
    · exact kept _ (files.live _ (.inl rfl))
    · exact kept v (files.live v (.inr (.inl here)))
    · exact kept _ (files.live _ (.inr (.inr (.inl ⟨x,(setCommit_outer c.job _).symm.trans isOuter,rfl⟩))))
    · have same := isCommit'.symm.trans some
      cases same
      exact kept _ (files.live _ (.inr (.inr (.inr ⟨commit,isCommit,rfl⟩))))
  · intro x isOuter
    exact (files.job.outer x ((setCommit_outer c.job _).symm.trans isOuter)).carry le_rfl (fun _ _ member => member)
      fun _ _ => by rw [tables]
  · intro commit' some
    have same := isCommit'.symm.trans some
    cases same
    obtain ⟨log,next,last,completes,isLog,le,manifest,-,new⟩ := (files.job.commit commit isCommit).completes
    refine ⟨⟨log,next,last,completes,isLog,le,manifest,fun n uses => ?_,fun n hn => ?_⟩,
      fun first => absurd first later,fun first => absurd first later⟩
    · have := used n uses
      rwa [completes.next] at this
    · exact ⟨(new n hn).1.frame (by rw [tables]) rfl,(new n hn).2⟩
  · exact fun n stage' outer isJob => absurd isJob (noJob _ rfl)
  · exact fun doomed outer isJob => absurd isJob (noJob _ rfl)

omit [LinearOrder K] in
theorem ManifestFile.append_upTo (m : ManifestFile K V) (r : ManifestRecord K V) {k : Nat} (le : k ≤ m.records.length) :
    (m.append r).records.take k = m.records.take k := by
  rw [ManifestFile.append,List.take_append_of_le_length le]

omit [LinearOrder K] in
theorem updateManifest_manifest {d : Disk K V} {number : Nat} (there : d.manifests number = some m)
    (f : ManifestFile K V → ManifestFile K V) : (d.updateManifest number f).manifests number = some (f m) := by
  simp [Disk.updateManifest,there]

theorem Core.Files.appendManifest {r : ManifestRecord K V} (files : c.Files o loose held file m)
    (isCommit : c.job.commit = some commit) (stage : commit.stage = .append) (edit : r.edit = commit.edit) :
    Core.Files o loose held file { c with
      disk := c.disk.updateManifest c.versions.manifestFileNumber (ManifestFile.append r)
      job := c.job.setCommit { commit with stage := .sync } } (m.append r) := by
  have commits := files.job.commit commit isCommit
  obtain ⟨log,next,last,completes,isLog,le,manifest,used,new⟩ := commits.completes
  have places := commits.places stage
  rw [← edit] at completes new places
  have whole := files.disk.whole
  obtain ⟨restores,version,-,isNext,-⟩ := Restores.append (r := r) whole.tracks whole.kept whole.prev used completes places.2
    new isLog manifest
  have length : (m.append r).records.length = m.records.length + 1 := by simp [ManifestFile.append]
  refine files.setCommit isCommit (by decide) ?_ rfl rfl ?_ fun fine => ?_
  · refine ⟨files.disk.named,updateManifest_manifest files.disk.manifest _,?_,?_,files.disk.increasing,files.disk.positive⟩
    · rw [length]
      exact files.disk.synced.trans (Nat.le_succ _)
    · intro k low high
      rcases Nat.lt_or_ge m.records.length k with after | before
      · have last : k = (m.append r).records.length := by omega
        rw [last,List.take_length]
        exact restores.frame (fun _ _ _ => rfl) fun _ _ => rfl
      · rw [m.append_upTo r before]
        exact (files.disk.restores k low before).frame (fun _ _ _ => rfl) fun _ _ => rfl
  · intro n uses
    have below := restores.used n uses
    rw [isNext] at below
    rwa [← edit,completes.next]
  · have linked := files.linked fine
    have synced : m.synced = m.records.length := by
      refine linked.synced fun commit' some => ?_
      rw [isCommit] at some
      cases some
      rw [stage]
      decide
    have current : (recoverRecords m.records).version = c.versions.current := by
      rw [linked.version,Core.recorded,isCommit]
      simp [stage]
    have isCommit' : (c.job.setCommit { commit with stage := .sync }).commit = _ := setCommit_commit isCommit
    refine ⟨?_,fun notSync => absurd rfl (notSync _ isCommit'),fun commit' _ _ => ⟨?_,?_⟩⟩
    · rw [Core.recorded,isCommit']
      show (recoverRecords (m.records ++ [r])).version = _
      rw [version,current,commits.version stage,edit]
      simp
    · rw [length]
      exact congrArg (· + 1) synced.symm
    · show (recoverRecords ((m.append r).records.take m.synced)).version = _
      rw [m.append_upTo r files.disk.synced,synced,List.take_length,current]

theorem Core.Files.syncManifest (files : c.Files o loose held file m) (isCommit : c.job.commit = some commit)
    (stage : commit.stage = .sync) :
    Core.Files o loose held file { c with
      disk := c.disk.updateManifest c.versions.manifestFileNumber ManifestFile.sync
      job := c.job.setCommit { commit with stage := .install } } m.sync := by
  obtain ⟨log,next,last,completes,-,-,-,used,-⟩ := (files.job.commit commit isCommit).completes
  refine files.setCommit isCommit (by decide) ?_ rfl rfl ?_ fun fine => ?_
  · refine ⟨files.disk.named,updateManifest_manifest files.disk.manifest _,le_rfl,?_,files.disk.increasing,
      files.disk.positive⟩
    intro k low high
    exact (files.disk.restores k (files.disk.synced.trans low) high).frame (fun _ _ _ => rfl) fun _ _ => rfl
  · intro n uses
    rw [completes.next]
    exact used n uses
  · have linked := files.linked fine
    have isCommit' : (c.job.setCommit { commit with stage := .install }).commit = _ := setCommit_commit isCommit
    refine ⟨?_,fun _ => rfl,?_⟩
    · have version := linked.version
      rw [Core.recorded,isCommit] at version
      rw [Core.recorded,isCommit']
      simpa [stage,ManifestFile.sync] using version
    · intro commit' some
      have same := isCommit'.symm.trans some
      cases same
      rintro ⟨⟩

end Manifest

/-- A step keeps the files that are needed, whatever fails. -/
theorem Core.Files.step {o : Options K V} {loose : Bool} {held : List (Version K)}
    {file : Nat → Option (FileMetaData K)} {c c' : Core K V} {m : ManifestFile K V}
    (files : c.Files o loose held file m) (step : Core.Step o loose held c c') :
    ∃ file' m', c'.Files o loose held file' m' := by
  have same : ∀ {c' : Core K V}, c'.job = c.job → c'.versions.current = c.versions.current →
      c'.versions.manifestFileNumber = c.versions.manifestFileNumber → c'.versions.logNumber = c.versions.logNumber →
      c'.versions.prevLogNumber = c.versions.prevLogNumber → c'.pendingOutputs = c.pendingOutputs →
      c'.versions.nextFileNumber = c.versions.nextFileNumber → c'.logfileNumber = c.logfileNumber →
      (c'.bgError = false → c.bgError = false) → c'.disk = c.disk → c'.Files o loose held file m := by
    intro c' job current number logNumber prev pending next logfile error disk
    refine files.carry job current number logNumber prev pending next.ge (by rw [next,logfile]; exact files.logfile) error
      (by rw [disk]) (by rw [disk]) (by rw [disk]) (by rw [disk]; exact files.disk.increasing) ?_
    rw [disk,next]
    exact files.logs_spec
  cases step with
  | error => exact ⟨file,m,same rfl rfl rfl rfl rfl rfl rfl rfl (by rintro ⟨⟩) rfl⟩
  | start => exact ⟨file,m,same rfl rfl rfl rfl rfl rfl rfl rfl (fun fine => fine) rfl⟩
  | switch => exact ⟨file,m,files.switch⟩
  | log => exact ⟨file,m,files.updateLog _ fun _ => rfl⟩
  | syncLog => exact ⟨file,m,files.updateLog _ fun _ => rfl⟩
  | insert => exact ⟨file,m,same rfl rfl rfl rfl rfl rfl rfl rfl (fun fine => fine) rfl⟩
  | finish => exact ⟨file,m,same rfl rfl rfl rfl rfl rfl rfl rfl (fun fine => fine) rfl⟩
  | beginFlush job => exact ⟨file,m,files.beginFlush job⟩
  | writeTable job =>
    exact ⟨file,m,files.flushTable .sync job (withTable_touches _ _ _ _) rfl rfl (fun _ _ member => member) (.inl rfl)
      fun fine => fine⟩
  | syncTable job _ flushes => exact ⟨_,m,files.syncTable job flushes⟩
  | flushFails job =>
    refine ⟨file,m,files.flushTable .sync job ⟨rfl,rfl,rfl,fun k other => ?_⟩ rfl rfl ?_ (.inr rfl) (by rintro ⟨⟩)⟩
    · simp [Disk.remove,other]
    · exact fun k other member => (List.mem_erase_of_ne other).mpr member
  | move job fine within single => exact ⟨file,m,files.move job fine within single _⟩
  | compact job within => exact ⟨file,m,files.compact job within _ _ _⟩
  | advance job more => exact ⟨file,m,files.advance job more⟩
  | finishCompaction job => exact ⟨_,m,files.finishCompaction job⟩
  | compactionFails job => exact ⟨file,m,files.compactionFails job _⟩
  | appendManifest isCommit stage edit => exact ⟨file,_,files.appendManifest isCommit stage edit⟩
  | syncManifest isCommit stage => exact ⟨file,_,files.syncManifest isCommit stage⟩
  | commitFails allowed => exact ⟨file,m,files.commitFails allowed⟩
  | install isCommit stage => exact ⟨file,m,files.install isCommit stage _⟩
  | collect job fine chooses => exact ⟨file,m,files.collect job fine chooses⟩
  | removeFile job isDoomed => exact ⟨file,m,files.removeFile job isDoomed⟩
  | removeDone job => exact ⟨file,m,files.removeDone job⟩

theorem Core.Files.run {o : Options K V} {loose : Bool} {held : List (Version K)}
    {file : Nat → Option (FileMetaData K)} {c c' : Core K V} {m : ManifestFile K V}
    (files : c.Files o loose held file m) (steps : Relation.ReflTransGen (Core.Step o loose held) c c') :
    ∃ file' m', c'.Files o loose held file' m' := by
  induction steps with
  | refl => exact ⟨file,m,files⟩
  | tail _ step ih =>
    obtain ⟨file',m',files⟩ := ih
    exact files.step step

/-- The tables of a version that is referenced, or that a crash could bring back, stay as they are. -/
theorem Core.Files.tables_step {o : Options K V} {loose : Bool} {held : List (Version K)}
    {file : Nat → Option (FileMetaData K)} {c c' : Core K V} {m : ManifestFile K V}
    (files : c.Files o loose held file m) (step : Core.Step o loose held c c') {v : Version K}
    (needed : c.Live held v ∨ ∃ k, m.synced ≤ k ∧ k ≤ m.records.length ∧ v = (m.upTo k).version)
    {l : Nat} {f : FileMetaData K} (member : f ∈ v.files l) : c'.disk.tables f.number = c.disk.tables f.number := by
  have kept : v.Kept o file c.disk := by
    rcases needed with live | ⟨k,low,high,rfl⟩
    · exact files.live v live
    · exact (files.disk.restores k low high).kept
  have touched : ∀ {d : Disk K V} {S : Nat → Prop}, c.disk.Touches d S → (∀ n, S n → file n = none) →
      d.tables f.number = c.disk.tables f.number := by
    intro d S touches free
    refine touches.tables _ fun hit => ?_
    have named := (kept.files l f member).named
    rw [free _ hit] at named
    cases named
  have flushed : ∀ {n : Nat} {stage : BuildStage} {outer : Option (CompactionState K V)},
      c.job = .flush n stage outer → ∀ k, k = n → file k = none := by
    rintro n stage outer job _ rfl
    exact (files.job.flush _ stage outer job).1
  cases step with
  | writeTable job => exact touched (withTable_touches _ _ _ _) (flushed job)
  | syncTable job => exact touched (withTable_touches _ _ _ _) (flushed job)
  | @flushFails n stage outer job =>
    have touches : c.disk.Touches (c.disk.remove (.table n)) (· = n) :=
      ⟨rfl,rfl,rfl,fun k other => by simp [Disk.remove,other]⟩
    exact touched touches (flushed job)
  | @advance x job more =>
    obtain ⟨e,rest,head⟩ := List.exists_cons_of_ne_nil more
    have working := files.job.outer x (by rw [job]; rfl)
    obtain ⟨-,-,touches,-⟩ := advance_tables o c.disk head c.versions.nextFileNumber
      working.ascending working.below working.written
    refine touched touches ?_
    rintro k (old | rfl)
    · exact working.free k old
    · exact files.free_next
  | @finishCompaction x job =>
    have working := files.job.outer x (by rw [job]; rfl)
    refine touched (setTables_touches _ _) fun n hn => working.free n ?_
    rw [CompactionState.files,List.map_append]
    exact List.mem_append_right _ hn
  | @removeFile outer doomed g job isDoomed =>
    have old := files.job.doomed doomed outer job
    cases g with
    | log k | manifest k | temp k => rfl
    | current => rfl
    | table k =>
      have other : f.number ≠ k := by
        rintro rfl
        rcases needed with live | ⟨k,low,high,rfl⟩
        · exact old.live _ isDoomed v live (kept.mem_numbers member)
        · exact old.recorded _ isDoomed k low high (kept.mem_numbers member)
      simp [Disk.remove,other]
  | _ => rfl

/-- The tables of a version that readers hold stay as they are. -/
theorem Core.Files.tables_run {o : Options K V} {loose : Bool} {held : List (Version K)}
    {file : Nat → Option (FileMetaData K)} {c c' : Core K V} {m : ManifestFile K V}
    (files : c.Files o loose held file m) (steps : Relation.ReflTransGen (Core.Step o loose held) c c') {v : Version K}
    (isHeld : v ∈ held) {l : Nat} {f : FileMetaData K} (member : f ∈ v.files l) :
    c'.disk.tables f.number = c.disk.tables f.number := by
  induction steps with
  | refl => rfl
  | tail before step ih =>
    obtain ⟨file',m',files'⟩ := files.run before
    exact (files'.tables_step step (.inl (.inr (.inl isHeld))) member).trans ih

end LevelDB
