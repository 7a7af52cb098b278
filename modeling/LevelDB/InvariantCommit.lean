import LevelDB.InvariantBackground

/-! `LogAndApply` keeps the invariant: the record makes the new version durable, the
sync makes the old one unneeded, and only then are files removed. -/
namespace LevelDB

variable {K V : Type} [LinearOrder K]

section Manifest
variable {d : Disk K V} {h : History K V} {number : Nat} {m : ManifestFile K V}

/-- A record that makes a sound version durable is appended to the manifest. -/
theorem Disk.Ok.appendRecord (disk : d.Ok h number m) {e : VersionEdit K} {log next last : Nat}
    (completes : e.Completes log next last) (fits : e.Fits (recoverRecords m.records))
    (sound : Sound d (h.before log).set ((recoverRecords m.records).version.apply e) next last)
    (bounded : ∀ x ∈ (h.before log).set, x.sequence ≤ last) (logs : log < next)
    (more : (recoverRecords m.records).next ≤ next) (manifest : number < next)
    (small : last < kMaxSequenceNumber) (forward : (recoverRecords m.records).log ≤ log) :
    (d.updateManifest number (ManifestFile.append ⟨e,h.before log⟩)).Ok h number
      (m.append ⟨e,h.before log⟩) := by
  set r : ManifestRecord K V := ⟨e,h.before log⟩ with hr
  have last_good := disk.last_good
  have good : Good d h number (m.records ++ [r]) := Good.append last_good.wf
    (fun n uses => (last_good.used n uses).trans_le more) completes fits sound bounded logs manifest small
  have records : (m.append r).records = m.records ++ [r] := rfl
  have length : (m.append r).records.length = m.records.length + 1 := by simp [records]
  have early : ∀ k, k ≤ m.records.length → (m.append r).records.take k = m.records.take k := by
    intro k le
    rw [records,List.take_append_of_le_length le]
  have upTo : ∀ k, k ≤ m.records.length → (m.append r).upTo k = m.upTo k := by
    intro k le
    rw [ManifestFile.upTo,early k le,ManifestFile.upTo]
  have isLog : ((m.append r).upTo (m.append r).records.length).log = log := by
    rw [upTo_length,records,recoverRecords_append]
    simp [Recovered.log,Recovered.step,hr,completes.log]
  refine ⟨disk.named,?_,disk.nonempty,?_,?_,?_,disk.increasing,disk.positive,disk.bounded,?_,?_,?_,disk.ordered,disk.small⟩
  · simp [Disk.updateManifest,disk.manifest]
  · rw [length]
    exact disk.synced.trans (Nat.le_succ _)
  · intro k low high
    rcases Nat.lt_or_ge m.records.length k with all | old
    · have isAll : k = (m.append r).records.length := by omega
      rw [isAll,List.take_length]
      exact good.frame (fun _ _ _ => rfl) rfl
    · rw [early k old]
      exact (disk.good k low old).frame (fun _ _ _ => rfl) rfl
  · intro j k low le high
    rcases Nat.lt_or_ge m.records.length k with all | old
    · have isAll : k = (m.append r).records.length := by omega
      rw [isAll,isLog]
      rcases Nat.lt_or_ge m.records.length j with allJ | oldJ
      · have isAllJ : j = (m.append r).records.length := by omega
        rw [isAllJ,isLog]
      · rw [upTo j oldJ]
        exact (disk.log_le j low oldJ).trans forward
    · rw [upTo j (le.trans old),upTo k old]
      exact disk.forward j k low le old
  · intro l hl late
    rw [show (m.append r).synced = m.synced from rfl,upTo _ disk.synced] at late
    exact disk.part l hl late
  · intro l hl late
    rw [isLog] at late
    exact disk.whole l hl (by rw [upTo_length]; exact forward.trans late)
  · intro x hx late
    rw [isLog] at late
    exact disk.present x hx (by rw [upTo_length]; exact forward.trans late)

theorem Disk.Ok.syncRecords (disk : d.Ok h number m) :
    (d.updateManifest number ManifestFile.sync).Ok h number m.sync := by
  have last_good := disk.last_good
  refine ⟨disk.named,?_,?_,le_rfl,?_,?_,disk.increasing,disk.positive,disk.bounded,?_,?_,?_,disk.ordered,disk.small⟩
  · simp [Disk.updateManifest,disk.manifest]
  · exact disk.nonempty.trans disk.synced
  · intro k low high
    exact (disk.good k (disk.synced.trans low) high).frame (fun _ _ _ => rfl) rfl
  · exact fun j k low le high => disk.forward j k (disk.synced.trans low) le high
  · intro l hl late
    rw [disk.whole l hl late]
  · exact disk.whole
  · exact disk.present

end Manifest

section Commit
variable {d : Disk K V} {h : History K V} {m : ManifestFile K V} {db : Db K V}

/-- What a commit brings, whichever job it belongs to. -/
theorem Db.Ok.commit_spec (ok : db.Ok d h m) {c : Commit K} (isCommit : db.job.commit = some c) :
    ∃ log, Committing d h db m c log ∧ db.versions.logNumber ≤ log ∧ log ≤ db.logfileNumber ∧
      (∀ s, db.job.outer = some s → Installable d c.version s) := by
  have job := ok.job.2
  have logs := ok.memory.logs
  cases hj : db.job with
  | commitFlush commit outer =>
    simp only [hj] at job isCommit
    cases isCommit
    exact ⟨_,job.2.1,logs,le_rfl,job.2.2⟩
  | move commit =>
    simp only [hj] at job isCommit
    cases isCommit
    exact ⟨_,job,le_rfl,logs,by simp [Job.outer]⟩
  | commitCompaction state commit =>
    simp only [hj] at job isCommit
    cases isCommit
    exact ⟨_,job,le_rfl,logs,by simp [Job.outer]⟩
  | idle => simp [hj,Job.commit] at isCommit
  | flush => simp [hj,Job.commit] at isCommit
  | compact => simp [hj,Job.commit] at isCommit
  | remove => simp [hj,Job.commit] at isCommit

/-- The commit moves on to its next stage. -/
theorem Db.Ok.setCommit (ok : db.Ok d h m) {c c' : Commit K} (isCommit : db.job.commit = some c)
    {d' : Disk K V} {m' : ManifestFile K V} (tables : d'.tables = d.tables)
    (version : c'.version = c.version)
    (busy : ∀ s, db.job.outer = some s → InProgress d db m s → InProgress d' db m' s)
    (commits : ∀ log, Committing d h db m c log → Committing d' h db m' c' log) :
    { db with job := db.job.setCommit c' }.JobOk d' h m' := by
  obtain ⟨outer,job⟩ := ok.job
  have carry : ∀ s, db.job.outer = some s →
      InProgress d' { db with job := db.job.setCommit c' } m' s := fun s hs =>
    (busy s hs (outer s hs)).carry rfl le_rfl fun _ _ member => member
  have again : ∀ log, Committing d h db m c log →
      Committing d' h { db with job := db.job.setCommit c' } m' c' log := by
    intro log commit
    have next := commits log commit
    exact ⟨next.completes,next.version,next.fits⟩
  cases hj : db.job with
  | commitFlush commit inner =>
    simp only [hj] at job isCommit carry again
    cases isCommit
    refine ⟨carry,job.1,again _ job.2.1,?_⟩
    intro s hs
    rw [version]
    exact (job.2.2 s hs).tables tables
  | move commit =>
    simp only [hj] at job isCommit carry again
    cases isCommit
    exact ⟨carry,again _ job⟩
  | commitCompaction state commit =>
    simp only [hj] at job isCommit carry again
    cases isCommit
    exact ⟨carry,again _ job⟩
  | idle => simp [hj,Job.commit] at isCommit
  | flush => simp [hj,Job.commit] at isCommit
  | compact => simp [hj,Job.commit] at isCommit
  | remove => simp [hj,Job.commit] at isCommit

/-- The manifest record of a commit. -/
theorem Db.Ok.appendManifest (disk : d.Ok h db.versions.manifestFileNumber m) (ok : db.Ok d h m)
    {c : Commit K} (isCommit : db.job.commit = some c) (stage : c.stage = .append) :
    ∃ m', (d.updateManifest db.versions.manifestFileNumber
        (ManifestFile.append ⟨c.edit,h.before (c.edit.logNumber.getD 0)⟩)).Ok h
          db.versions.manifestFileNumber m' ∧
      { db with job := db.job.setCommit { c with stage := .sync } }.Ok
        (d.updateManifest db.versions.manifestFileNumber
          (ManifestFile.append ⟨c.edit,h.before (c.edit.logNumber.getD 0)⟩)) h m' := by
  obtain ⟨log,commit,logLe,logLe',installable⟩ := ok.commit_spec isCommit
  obtain ⟨next,last,floor,completes,more,bound,lastLe,floorLe,floorLe',sound,seen,logLt,manifest⟩ :=
    commit.completes
  have recordedNow : db.recorded = (db.versions.current,db.versions.logNumber) := by
    simp [Db.recorded,isCommit,stage]
  have version : (recoverRecords m.records).version = db.versions.current := by
    rw [ok.linked.version,recordedNow]
  have logNow : (recoverRecords m.records).log = db.versions.logNumber := by
    rw [ok.linked.log,recordedNow]
  have applied : (recoverRecords m.records).version.apply c.edit = c.version := by
    rw [version,commit.version stage]
  have isLog : c.edit.logNumber.getD 0 = log := by rw [completes.log]; rfl
  rw [isLog]
  set r : ManifestRecord K V := ⟨c.edit,h.before log⟩ with hr
  have fits := commit.fits stage
  have diskNow : (d.updateManifest db.versions.manifestFileNumber (ManifestFile.append r)).Ok h
      db.versions.manifestFileNumber (m.append r) :=
    disk.appendRecord completes fits (by rw [applied]; exact sound.mono le_rfl floorLe) seen logLt more
      manifest (lastLe.trans_lt ok.memory.last) (logNow.trans_le logLe)
  have recovered : recoverRecords (m.append r).records = (recoverRecords m.records).step c.edit :=
    recoverRecords_append m.records r
  obtain ⟨-,stepVersion,uses⟩ := disk.last_good.wf.step fits completes.prev fun l l' f g hf hg same => by
    rw [applied] at hf hg
    exact (sound.wf.unique l l' f g hf hg same).1
  have nextNow : (recoverRecords (m.append r).records).next = next := by
    rw [recovered]
    simp [Recovered.next,Recovered.step,completes.next]
  refine ⟨m.append r,diskNow,ok.memory.carry rfl rfl rfl rfl rfl rfl rfl,
    ok.sound.frame fun _ _ _ => rfl,?_,?_,ok.logged,ok.newest,ok.number⟩
  · have recordedAfter : { db with job := db.job.setCommit { c with stage := .sync } }.recorded =
        (c.version,log) := by
      simp [Db.recorded,setCommit_commit isCommit,isLog]
    refine ⟨?_,?_,?_,?_,ok.linked.prev⟩
    · rw [recordedAfter,recovered,stepVersion,applied]
    · rw [recordedAfter,recovered]
      simp [Recovered.log,Recovered.step,completes.log]
    · intro other
      exact absurd rfl (other _ (setCommit_commit isCommit))
    · rw [nextNow]
      exact bound
  · refine ok.setCommit isCommit rfl rfl ?_ ?_
    · intro s hs busy
      refine ⟨busy.loop,busy.floor,busy.written,busy.numbers,busy.pending,?_,busy.connected⟩
      intro n hn used
      rw [recovered] at used
      rcases uses n used with old | ⟨l,f,hf,same⟩
      · exact busy.unused n hn old
      · rw [applied] at hf
        exact (installable s hs).apart n hn l f hf same
    · intro log' commit'
      obtain ⟨next',last',floor',completes',-,rest⟩ := commit'.completes
      refine ⟨⟨next',last',floor',completes',?_,?_⟩,by simp,by simp⟩
      · rw [nextNow]
        exact (Option.some.inj (completes.next.symm.trans completes'.next)).le
      · obtain ⟨a,b,c',d',e,f⟩ := rest
        exact ⟨a,b,c',d',e.frame fun _ _ _ => rfl,f⟩

theorem Db.Ok.syncManifest (disk : d.Ok h db.versions.manifestFileNumber m) (ok : db.Ok d h m)
    {c : Commit K} (isCommit : db.job.commit = some c) (stage : c.stage = .sync) :
    (d.updateManifest db.versions.manifestFileNumber ManifestFile.sync).Ok h
        db.versions.manifestFileNumber m.sync ∧
      { db with job := db.job.setCommit { c with stage := .install } }.Ok
        (d.updateManifest db.versions.manifestFileNumber ManifestFile.sync) h m.sync := by
  refine ⟨disk.syncRecords,ok.memory.carry rfl rfl rfl rfl rfl rfl rfl,ok.sound.frame fun _ _ _ => rfl,
    ?_,?_,ok.logged,ok.newest,ok.number⟩
  · have same : { db with job := db.job.setCommit { c with stage := .install } }.recorded = db.recorded := by
      simp [Db.recorded,setCommit_commit isCommit,isCommit,stage]
    exact ⟨by rw [same]; exact ok.linked.version,by rw [same]; exact ok.linked.log,fun _ => rfl,ok.linked.next,ok.linked.prev⟩
  · refine ok.setCommit isCommit rfl rfl ?_ ?_
    · exact fun s _ busy =>
        ⟨busy.loop,busy.floor,busy.written,busy.numbers,busy.pending,busy.unused,busy.connected⟩
    · intro log commit
      obtain ⟨next,last,floor,completes,more,a,b,e,f,sound,rest⟩ := commit.completes
      exact ⟨⟨next,last,floor,completes,more,a,b,e,f,sound.frame fun _ _ _ => rfl,rest⟩,by simp,by simp⟩

/-- The end of a flush: the memtable is now in the version. -/
theorem Db.Memory.flushDone {db' : Db K V} (memory : db.Memory h) (mem : db'.mem = db.mem)
    (imm : db'.imm = none) (logfileNumber : db'.logfileNumber = db.logfileNumber)
    (last : db'.versions.lastSequence = db.versions.lastSequence)
    (log : db'.versions.logNumber = db.logfileNumber) (snapshots : db'.snapshots = db.snapshots)
    (leader : db'.leader = db.leader) : db'.Memory h := by
  have pending : db'.pending = db.pending := by simp only [Db.pending,leader,logfileNumber]
  have applied : db'.lastApplied = db.lastApplied := by simp only [Db.lastApplied,leader,last]
  have group : db'.group = db.group := by simp only [Db.group,leader]
  have none : (h.before db.logfileNumber).since db.logfileNumber = [] := by
    refine List.filter_eq_nil_iff.mpr fun r hr => ?_
    have := (List.mem_filter.mp hr).2
    simp only [decide_eq_true_eq] at this ⊢
    omega
  refine ⟨by rw [mem]; exact memory.memSorted,by rw [imm]; exact List.Pairwise.nil,
    by rw [pending,applied,mem,logfileNumber]; exact memory.applied,?_,
    fun _ => by rw [log,logfileNumber],by rw [log,logfileNumber],
    by rw [logfileNumber]; exact memory.newest,by rw [logfileNumber,last]; exact memory.old,
    by rw [group,last]; exact memory.group,by rw [last]; exact memory.last,
    by rw [snapshots]; exact memory.snapshots,by rw [snapshots,last]; exact memory.visible⟩
  rw [imm,logfileNumber,log,none,History.set_nil]
  ext e
  simp

/-- The new version is current, whatever the job goes on to do. -/
theorem Db.Ok.install {db' : Db K V} (ok : db.Ok d h m) {c : Commit K}
    (isCommit : db.job.commit = some c) (stage : c.stage = .install) {log : Nat}
    (commit : Committing d h db m c log) (versions : db'.versions = db.versions.install c)
    (memory : db'.Memory h) (logfileNumber : db'.logfileNumber = db.logfileNumber)
    (snapshots : db'.snapshots = db.snapshots) (noCommit : db'.job.commit = none)
    (job : db'.JobOk d h m) : db'.Ok d h m := by
  obtain ⟨next,last,floor,completes,more,bound,lastLe,floorLe,floorLe',sound,-⟩ := commit.completes
  have current : db'.versions.current = c.version := by rw [versions]; rfl
  have logNumber : db'.versions.logNumber = log := by
    rw [versions]
    simp [VersionSet.install,completes.log]
  have sameNext : db'.versions.nextFileNumber = db.versions.nextFileNumber := by rw [versions]; rfl
  have snapshot : db'.smallestSnapshot = db.smallestSnapshot := by
    simp only [Db.smallestSnapshot,snapshots,versions]
    rfl
  have recordedBefore : db.recorded = (c.version,log) := by
    simp [Db.recorded,isCommit,stage,completes.log]
  have recordedAfter : db'.recorded = (c.version,log) := by
    simp [Db.recorded,noCommit,current,logNumber]
  have prevLogNumber : db'.versions.prevLogNumber = 0 := by
    rw [versions]
    have isPrev := completes.prev
    cases given : c.edit.prevLogNumber with
    | none => simpa [VersionSet.install,given] using ok.linked.prev
    | some n => simpa [VersionSet.install,given] using isPrev
  refine ⟨memory,?_,⟨?_,?_,?_,?_,prevLogNumber⟩,job,?_,?_,?_⟩
  · rw [current,logNumber,sameNext,snapshot]
    exact sound.mono bound floorLe'
  · rw [recordedAfter,ok.linked.version,recordedBefore]
  · rw [recordedAfter,ok.linked.log,recordedBefore]
  · intro _
    refine ok.linked.synced ?_
    intro c' hc'
    rw [isCommit] at hc'
    cases hc'
    rw [stage]
    decide
  · rw [sameNext]
    exact ok.linked.next
  · rw [logfileNumber]; exact ok.logged
  · rw [logfileNumber]; exact ok.newest
  · rw [logfileNumber,sameNext]; exact ok.number

omit [LinearOrder K] in
/-- What `RemoveObsoleteFiles` chooses is obsolete. -/
theorem obsoleteFiles_spec (s : State K V) (db : Db K V) (outer : Option (CompactionState K V))
    (pinned : Nat → Bool) (wf : ∀ l, kNumLevels ≤ l → db.versions.current.files l = [])
    (pending : ∀ c, outer = some c → ∀ n ∈ c.files.map (·.1), n ∈ db.pendingOutputs) :
    Obsolete db (s.obsoleteFiles db outer pinned) outer := by
  refine ⟨?_,?_,Bool.and_false _,?_⟩
  · intro n doomed
    simp only [State.obsoleteFiles,Bool.and_eq_true,decide_eq_true_eq] at doomed
    exact doomed.2.1
  · intro n doomed
    simp only [State.obsoleteFiles,Bool.and_eq_true,decide_eq_true_eq] at doomed
    exact doomed.2
  · intro n doomed
    simp only [State.obsoleteFiles,Bool.and_eq_true,Bool.not_eq_true',Bool.or_eq_false_iff,
      decide_eq_false_iff_not] at doomed
    obtain ⟨-,⟨⟨current,-⟩,notPending⟩,-⟩ := doomed
    constructor
    · intro l f hf same
      have shallow : l < kNumLevels := by
        by_contra deep
        rw [wf l (not_lt.mp deep)] at hf
        cases hf
      rw [List.any_eq_false] at current
      have level := current l (List.mem_range.mpr shallow)
      rw [Bool.not_eq_true,List.any_eq_false] at level
      exact level f hf (by simpa using same)
    · intro c hc member
      exact notPending (pending c hc n member)

/-- The job after an install: nothing, the compaction around it, or the removal of files. -/
theorem Db.JobOk.after {db' : Db K V} {outer : Option (CompactionState K V)}
    (busy : ∀ c, outer = some c → InProgress d db' m c)
    (fits : ∀ c, outer = some c → Installable d db'.versions.current c)
    (job : db'.job = .resume outer ∨ ∃ doomed, db'.job = .remove doomed outer ∧ Obsolete db' doomed outer) :
    db'.JobOk d h m ∧ db'.job.commit = none := by
  rcases job with resume | ⟨doomed,remove,obsolete⟩
  · cases outer with
    | none => exact ⟨⟨by simp [resume,Job.resume,Job.outer],by simp [resume,Job.resume]⟩,by rw [resume]; rfl⟩
    | some c =>
      refine ⟨⟨?_,?_⟩,by rw [resume]; rfl⟩
      · rw [resume]
        exact busy
      · rw [resume]
        exact fits c rfl
  · refine ⟨⟨?_,?_⟩,by rw [remove]; rfl⟩
    · rw [remove]
      exact busy
    · rw [remove]
      exact ⟨obsolete,fits⟩

end Commit

section Remove
variable {d : Disk K V} {h : History K V} {m : ManifestFile K V} {db : Db K V}

/-- Obsolete files are removed. -/
theorem Db.Ok.removeFile (disk : d.Ok h db.versions.manifestFileNumber m) (ok : db.Ok d h m)
    {doomed : FileName → Bool} {outer : Option (CompactionState K V)}
    (job : db.job = .remove doomed outer) (f : FileName) (hit : doomed f = true) :
    (d.remove f).Ok h db.versions.manifestFileNumber m ∧ db.Ok (d.remove f) h m := by
  obtain ⟨busy,obsolete,fits⟩ : (∀ c, outer = some c → InProgress d db m c) ∧ Obsolete db doomed outer ∧
      ∀ c, outer = some c → Installable d db.versions.current c := by
    have := ok.job
    simp only [Db.JobOk,job] at this
    exact this
  obtain ⟨version,log,sync⟩ := ok.linked_idle (by rw [job]; rfl)
  cases f with
  | log n =>
    have small := obsolete.log n hit
    have kept : ∀ l ∈ d.logs, db.versions.logNumber ≤ l.number → l ∈ (d.remove (.log n)).logs := by
      intro l hl late
      refine List.mem_filter.mpr ⟨hl,?_⟩
      simp only [ne_eq,decide_eq_true_eq]
      omega
    have sub : (d.remove (.log n)).logs.Sublist d.logs := List.filter_sublist
    have tables : (d.remove (.log n)).tables = d.tables := rfl
    refine ⟨⟨disk.named,disk.manifest,disk.nonempty,disk.synced,?_,disk.forward,
      disk.increasing.sublist (sub.map _),fun l hl => disk.positive l (sub.subset hl),
      fun l hl => disk.bounded l (sub.subset hl),
      fun l hl => disk.part l (sub.subset hl),fun l hl => disk.whole l (sub.subset hl),?_,disk.ordered,
      disk.small⟩,?_⟩
    · exact fun k low high => (disk.good k low high).frame (fun _ _ _ => rfl) rfl
    · intro r hr late
      obtain ⟨l,hl,same⟩ := disk.present r hr late
      rw [upTo_length,log] at late
      exact ⟨l,kept l hl (by omega),same⟩
    · obtain ⟨l,hl,same⟩ := ok.logged
      have logs := ok.memory.logs
      refine ⟨ok.memory,ok.sound.frame fun _ _ _ => rfl,ok.linked,?_,⟨l,kept l hl (by omega),same⟩,
        fun x hx => ok.newest x (sub.subset hx),ok.number⟩
      exact ok.job.follows ⟨rfl,rfl,rfl,rfl,rfl,rfl,le_rfl,le_rfl,le_rfl,fun some => ⟨some,rfl⟩,le_rfl⟩ tables logs
        fun _ _ => rfl
  | manifest n =>
    have other : db.versions.manifestFileNumber ≠ n := (obsolete.manifest n hit).ne'
    refine ⟨disk.frame rfl (by simp [Disk.remove,other]) rfl fun _ _ _ _ _ _ => rfl,ok.memory,
      ok.sound.frame fun _ _ _ => rfl,ok.linked,?_,ok.logged,ok.newest,ok.number⟩
    exact ok.job.follows ⟨rfl,rfl,rfl,rfl,rfl,rfl,le_rfl,le_rfl,le_rfl,fun some => ⟨some,rfl⟩,le_rfl⟩ rfl
      ok.memory.logs fun _ _ => rfl
  | table n =>
    obtain ⟨notCurrent,notOutput⟩ := obsolete.table n hit
    have touches : d.Touches (d.remove (.table n)) (· = n) :=
      ⟨rfl,rfl,rfl,fun k ne => by simp [Disk.remove,ne]⟩
    have same : ∀ l, ∀ f ∈ db.versions.current.files l,
        (d.remove (.table n)).tables f.number = d.tables f.number :=
      fun l f hf => touches.tables _ (notCurrent l f hf)
    refine ⟨disk.frame rfl rfl rfl ?_,ok.memory,ok.sound.frame same,ok.linked,?_,ok.logged,ok.newest,ok.number⟩
    · intro k low high l f hf
      have isAll : k = m.records.length := by omega
      rw [isAll,List.take_length,version] at hf
      exact same l f hf
    · rw [Db.JobOk,job]
      refine ⟨?_,obsolete,fun c hc => (fits c hc).frame same⟩
      intro c hc
      refine (busy c hc).touch (fits c hc) touches notCurrent ?_
      rintro k member rfl
      exact notOutput c hc (c.outputs_subset _ member)
  | temp n =>
    refine ⟨disk.frame rfl rfl rfl fun _ _ _ _ _ _ => rfl,ok.memory,ok.sound.frame fun _ _ _ => rfl,ok.linked,?_,
      ok.logged,ok.newest,ok.number⟩
    exact ok.job.follows ⟨rfl,rfl,rfl,rfl,rfl,rfl,le_rfl,le_rfl,le_rfl,fun some => ⟨some,rfl⟩,le_rfl⟩ rfl
      ok.memory.logs fun _ _ => rfl
  | current =>
    rw [obsolete.current] at hit
    cases hit

theorem Db.Ok.removeDone (ok : db.Ok d h m) {doomed : FileName → Bool}
    {outer : Option (CompactionState K V)} (job : db.job = .remove doomed outer) :
    { db with job := .resume outer }.Ok d h m := by
  obtain ⟨busy,-,fits⟩ : (∀ c, outer = some c → InProgress d db m c) ∧ Obsolete db doomed outer ∧
      ∀ c, outer = some c → Installable d db.versions.current c := by
    have := ok.job
    simp only [Db.JobOk,job] at this
    exact this
  obtain ⟨version,log,sync⟩ := ok.linked_idle (by rw [job]; rfl)
  have after : { db with job := .resume outer }.JobOk d h m ∧
      { db with job := .resume outer }.job.commit = none :=
    Db.JobOk.after (fun c hc => (busy c hc).carry rfl le_rfl fun _ _ member => member) fits (.inl rfl)
  obtain ⟨jobOk,none⟩ := after
  refine ⟨ok.memory.carry rfl rfl rfl rfl rfl rfl rfl,ok.sound,⟨?_,?_,fun _ => sync,ok.linked.next,ok.linked.prev⟩,jobOk,
    ok.logged,ok.newest,ok.number⟩
  · simp only [Db.recorded,none]
    exact version
  · simp only [Db.recorded,none]
    exact log

end Remove

end LevelDB
