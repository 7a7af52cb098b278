import LevelDB.Invariant

/-! The writers keep the invariant: a record is appended to the log and to the history at
once, the memtable follows, and a switch starts a log newer than all others. -/
namespace LevelDB

variable {K V : Type} [LinearOrder K]

section Logs
variable {d : Disk K V} {h : History K V} {number : Nat} {m : ManifestFile K V}

theorem Disk.Ok.last_good (ok : d.Ok h number m) : Good d h number m.records := by
  have good := ok.good m.records.length ok.synced le_rfl
  rwa [List.take_length] at good

theorem upTo_length (m : ManifestFile K V) : m.upTo m.records.length = recoverRecords m.records := by
  rw [ManifestFile.upTo,List.take_length]

/-- Every log number that a crash may bring back is at most the last one. -/
theorem Disk.Ok.log_le (ok : d.Ok h number m) (k : Nat) (low : m.synced ≤ k)
    (high : k ≤ m.records.length) :
    (recoverRecords (m.records.take k)).log ≤ (recoverRecords m.records).log := by
  have := ok.forward k m.records.length low high le_rfl
  rwa [upTo_length] at this

omit [LinearOrder K] in
theorem updateLog_numbers (d : Disk K V) (n : Nat) (f : LogFile K V → LogFile K V)
    (keeps : ∀ l, (f l).number = l.number) :
    (d.updateLog n f).logs.map (·.number) = d.logs.map (·.number) := by
  simp only [Disk.updateLog,List.map_map]
  refine List.map_congr_left fun l _ => ?_
  by_cases same : l.number = n <;> simp [same,keeps]

/-- The record of a batch, in the log and in the history. -/
theorem Disk.Ok.append (ok : d.Ok h number m) {n : Nat} {b : WriteBatch K V}
    (live : (recoverRecords m.records).log ≤ n) (there : ∃ l ∈ d.logs, l.number = n)
    (ordered : History.Ordered (h ++ [(n,b)])) (small : b.sequence + b.count ≤ kMaxSequenceNumber) :
    (d.updateLog n (LogFile.append b)).Ok (h ++ [(n,b)]) number m := by
  have numbers := updateLog_numbers d n (LogFile.append b) fun _ => rfl
  have logs : ∀ l ∈ (d.updateLog n (LogFile.append b)).logs, ∃ old ∈ d.logs, l.number = old.number ∧
      l.synced = old.synced ∧
      ((old.number = n ∧ l.records = old.records ++ [b]) ∨ (old.number ≠ n ∧ l.records = old.records)) := by
    intro l hl
    obtain ⟨old,ho,rfl⟩ := List.mem_map.mp hl
    by_cases same : old.number = n
    · exact ⟨old,ho,by simp [same,LogFile.append],by simp [same,LogFile.append],
        .inl ⟨same,by simp [same,LogFile.append]⟩⟩
    · exact ⟨old,ho,by simp [same],by simp [same],.inr ⟨same,by simp [same]⟩⟩
  have here : History.inLog (h ++ [(n,b)]) n = h.inLog n ++ [(n,b)] := by
    rw [inLog_append]
    simp [History.inLog]
  have away : ∀ k, k ≠ n → History.inLog (h ++ [(n,b)]) k = h.inLog k := by
    intro k ne
    rw [inLog_append]
    simp [History.inLog,ne.symm]
  have whole : ∀ l ∈ (d.updateLog n (LogFile.append b)).logs, (recoverRecords m.records).log ≤ l.number →
      l.records.map (l.number,·) = History.inLog (h ++ [(n,b)]) l.number := by
    intro l hl late
    obtain ⟨old,ho,same,-,⟨isN,records⟩ | ⟨notN,records⟩⟩ := logs l hl
    · have full := ok.whole old ho (by rw [upTo_length,isN]; exact live)
      rw [same,isN] at *
      rw [here,← full,records]
      simp
    · have full := ok.whole old ho (by rw [upTo_length,← same]; exact late)
      rw [same,away _ notN,records,full]
  refine ⟨ok.named,ok.manifest,ok.nonempty,ok.synced,?_,ok.forward,?_,?_,?_,?_,?_,?_,ordered,?_⟩
  · intro k low high
    refine (ok.good k low high).frame (fun _ _ _ => rfl) ?_
    refine History.before_append _ _ _ ?_
    simp only [List.mem_singleton,forall_eq]
    exact (ok.log_le k low high).trans live
  · rw [numbers]; exact ok.increasing
  · intro l hl
    obtain ⟨old,ho,same,-⟩ := logs l hl
    exact same ▸ ok.positive old ho
  · intro l hl
    obtain ⟨old,ho,-,synced,⟨-,records⟩ | ⟨-,records⟩⟩ := logs l hl
    · have := ok.bounded old ho
      simp only [synced,records,List.length_append]
      omega
    · rw [synced,records]; exact ok.bounded old ho
  · intro l hl late
    by_cases old : (recoverRecords m.records).log ≤ l.number
    · rw [whole l hl old]
    · obtain ⟨o,ho,same,-,⟨isN,records⟩ | ⟨notN,records⟩⟩ := logs l hl
      · omega
      · have full := ok.part o ho (by rw [← same]; exact late)
        rw [same,away _ notN,records]
        exact full
  · intro l hl late
    rw [upTo_length] at late
    exact whole l hl late
  · intro r hr late
    have : r.1 ∈ d.logs.map (·.number) := by
      rcases List.mem_append.mp hr with old | new
      · obtain ⟨l,hl,same⟩ := ok.present r old late
        exact List.mem_map.mpr ⟨l,hl,same⟩
      · rw [List.mem_singleton.mp new]
        exact List.mem_map.mpr there
    rw [← numbers] at this
    exact List.mem_map.mp this
  · intro r hr
    rcases List.mem_append.mp hr with old | new
    · exact ok.small r old
    · rw [List.mem_singleton.mp new]
      exact small

theorem Disk.Ok.sync (ok : d.Ok h number m) (n : Nat) : (d.updateLog n LogFile.sync).Ok h number m := by
  have numbers := updateLog_numbers d n LogFile.sync fun _ => rfl
  have logs : ∀ l ∈ (d.updateLog n LogFile.sync).logs, ∃ old ∈ d.logs, l.number = old.number ∧
      l.records = old.records ∧ (l.synced = old.synced ∨ l.synced = l.records.length) := by
    intro l hl
    obtain ⟨old,ho,rfl⟩ := List.mem_map.mp hl
    by_cases same : old.number = n <;> exact ⟨old,ho,by simp [same,LogFile.sync],by simp [same,LogFile.sync],
      by simp [same,LogFile.sync]⟩
  refine ⟨ok.named,ok.manifest,ok.nonempty,ok.synced,?_,ok.forward,?_,?_,?_,?_,?_,?_,ok.ordered,ok.small⟩
  · exact fun k low high => (ok.good k low high).frame (fun _ _ _ => rfl) rfl
  · rw [numbers]; exact ok.increasing
  · intro l hl
    obtain ⟨old,ho,same,-⟩ := logs l hl
    exact same ▸ ok.positive old ho
  · intro l hl
    obtain ⟨old,ho,-,records,synced | synced⟩ := logs l hl
    · rw [synced,records]; exact ok.bounded old ho
    · rw [synced]
  · intro l hl late
    obtain ⟨old,ho,same,records,-⟩ := logs l hl
    rw [records,same]
    exact ok.part old ho (same ▸ late)
  · intro l hl late
    obtain ⟨old,ho,same,records,-⟩ := logs l hl
    rw [records,same]
    exact ok.whole old ho (same ▸ late)
  · intro r hr late
    obtain ⟨l,hl,same⟩ := ok.present r hr late
    have : r.1 ∈ d.logs.map (·.number) := List.mem_map.mpr ⟨l,hl,same⟩
    rw [← numbers] at this
    exact List.mem_map.mp this

theorem Disk.Ok.newLog (ok : d.Ok h number m) (n : Nat) (newest : ∀ l ∈ d.logs, l.number < n)
    (later : ∀ r ∈ h, r.1 < n) (positive : 0 < n) : (d.newLog n).Ok h number m := by
  have logs : ∀ l ∈ (d.newLog n).logs, l ∈ d.logs ∨ l = ⟨n,[],0⟩ := by
    intro l hl
    rcases List.mem_append.mp hl with old | new
    · exact .inl old
    · exact .inr (List.mem_singleton.mp new)
  have none : h.inLog n = [] := inLog_eq_nil fun r hr => (later r hr).ne
  refine ⟨ok.named,ok.manifest,ok.nonempty,ok.synced,?_,ok.forward,?_,?_,?_,?_,?_,?_,ok.ordered,ok.small⟩
  · exact fun k low high => (ok.good k low high).frame (fun _ _ _ => rfl) rfl
  · simp only [Disk.newLog,List.map_append,List.map_cons,List.map_nil]
    refine List.pairwise_append.mpr ⟨ok.increasing,List.pairwise_singleton _ _,?_⟩
    intro a ha b hb
    obtain ⟨l,hl,rfl⟩ := List.mem_map.mp ha
    rw [List.mem_singleton.mp hb]
    exact newest l hl
  · intro l hl
    rcases logs l hl with old | rfl
    · exact ok.positive l old
    · exact positive
  · intro l hl
    rcases logs l hl with old | rfl
    · exact ok.bounded l old
    · exact le_rfl
  · intro l hl late
    rcases logs l hl with old | rfl
    · exact ok.part l old late
    · simp [none]
  · intro l hl late
    rcases logs l hl with old | rfl
    · exact ok.whole l old late
    · simp [none]
  · intro r hr late
    obtain ⟨l,hl,same⟩ := ok.present r hr late
    exact ⟨l,List.mem_append_left _ hl,same⟩

end Logs

/-- What the background thread does not see of a step: the version set only counts on,
and a flush keeps its memtable and its log. -/
structure Db.Follows (db db' : Db K V) : Prop where
  current : db'.versions.current = db.versions.current
  logNumber : db'.versions.logNumber = db.versions.logNumber
  prevLogNumber : db'.versions.prevLogNumber = db.versions.prevLogNumber
  manifest : db'.versions.manifestFileNumber = db.versions.manifestFileNumber
  job : db'.job = db.job
  pendingOutputs : db'.pendingOutputs = db.pendingOutputs
  next : db.versions.nextFileNumber ≤ db'.versions.nextFileNumber
  last : db.versions.lastSequence ≤ db'.versions.lastSequence
  floor : db.smallestSnapshot ≤ db'.smallestSnapshot
  imm : db.imm.isSome → db'.imm.isSome ∧ db'.logfileNumber = db.logfileNumber
  logs : db.logfileNumber ≤ db'.logfileNumber

section Follows
variable {d d' : Disk K V} {h h' : History K V} {m : ManifestFile K V} {db db' : Db K V}

theorem InProgress.follows {c : CompactionState K V} (busy : InProgress d db m c)
    (follows : db.Follows db') (tables : d'.tables = d.tables) : InProgress d' db' m c := by
  have table : d'.table = d.table := funext fun n => Disk.table_congr (by rw [tables])
  exact ⟨by rw [table]; exact busy.loop,busy.floor.trans follows.floor,
    by rw [tables]; exact busy.written,fun n hn => (busy.numbers n hn).trans_le follows.next,
    by rw [follows.pendingOutputs]; exact busy.pending,busy.unused,busy.connected⟩

theorem Committing.follows {c : Commit K} {log : Nat} (commit : Committing d h db m c log)
    (follows : db.Follows db') (tables : d'.tables = d.tables) (before : h'.before log = h.before log) :
    Committing d' h' db' m c log := by
  obtain ⟨next,last,floor,completes,more,bound,lastLe,floorLe,floorLe',sound,seen,logLt,manifest⟩ :=
    commit.completes
  refine ⟨⟨next,last,floor,completes,more,bound.trans follows.next,lastLe.trans follows.last,floorLe,
    floorLe'.trans follows.floor,?_,?_,logLt,?_⟩,?_,commit.fits⟩
  · rw [before]
    exact sound.frame fun l f _ => by rw [tables]
  · rw [before]; exact seen
  · rw [follows.manifest]; exact manifest
  · rw [follows.current]; exact commit.version

theorem Installable.tables {v : Version K} {c : CompactionState K V} (fits : Installable d v c)
    (tables : d'.tables = d.tables) : Installable d' v c := by
  have table : d'.table = d.table := funext fun n => Disk.table_congr (by rw [tables])
  exact ⟨by rw [table]; exact fits.safe,fits.apart⟩

theorem Db.JobOk.follows (ok : db.JobOk d h m) (follows : db.Follows db')
    (tables : d'.tables = d.tables) (logs : db.versions.logNumber ≤ db.logfileNumber)
    (before : ∀ n, n ≤ db.logfileNumber → h'.before n = h.before n) : db'.JobOk d' h' m := by
  obtain ⟨outer,job⟩ := ok
  rw [Db.JobOk,follows.job]
  refine ⟨fun c hc => (outer c hc).follows follows tables,?_⟩
  cases hj : db.job with
  | idle => trivial
  | flush number stage inner =>
    simp only [hj] at job
    obtain ⟨imm,bound,unused,above,inside⟩ := job
    refine ⟨(follows.imm imm).1,bound.trans_le follows.next,unused,?_,?_⟩
    · rw [follows.current]; exact above
    · intro c hc
      rw [follows.current]
      exact ⟨(inside c hc).1.tables tables,(inside c hc).2⟩
  | commitFlush commit inner =>
    simp only [hj] at job
    obtain ⟨imm,commits,inside⟩ := job
    obtain ⟨imm',log⟩ := follows.imm imm
    refine ⟨imm',?_,fun c hc => (inside c hc).tables tables⟩
    rw [log]
    exact commits.follows follows tables (before _ le_rfl)
  | move commit =>
    simp only [hj] at job
    rw [follows.logNumber]
    exact job.follows follows tables (before _ logs)
  | compact c =>
    simp only [hj] at job
    rw [follows.current]
    exact job.tables tables
  | commitCompaction c commit =>
    simp only [hj] at job
    rw [follows.logNumber]
    exact job.follows follows tables (before _ logs)
  | remove doomed inner =>
    simp only [hj] at job
    obtain ⟨obsolete,inside⟩ := job
    refine ⟨⟨?_,?_,obsolete.current,?_⟩,?_⟩
    · rw [follows.logNumber]; exact obsolete.log
    · rw [follows.manifest]; exact obsolete.manifest
    · rw [follows.current]; exact obsolete.table
    · intro c hc
      rw [follows.current]
      exact (inside c hc).tables tables

theorem Db.Linked.follows (linked : db.Linked m) (follows : db.Follows db') : db'.Linked m := by
  have recorded : db'.recorded = db.recorded := by
    simp only [Db.recorded,follows.job,follows.current,follows.logNumber]
  exact ⟨by rw [recorded]; exact linked.version,by rw [recorded]; exact linked.log,
    by rw [follows.job]; exact linked.synced,linked.next.trans follows.next,
    follows.prevLogNumber.trans linked.prev⟩

/-- A step of a writer keeps the invariant if it keeps the memtables in order. -/
theorem Db.Ok.follows (ok : db.Ok d h m) (follows : db.Follows db') (memory : db'.Memory h')
    (tables : d'.tables = d.tables) (before : ∀ n, n ≤ db.logfileNumber → h'.before n = h.before n)
    (logged : ∃ l ∈ d'.logs, l.number = db'.logfileNumber)
    (newest : ∀ l ∈ d'.logs, l.number ≤ db'.logfileNumber)
    (number : db'.logfileNumber < db'.versions.nextFileNumber) : db'.Ok d' h' m := by
  refine ⟨memory,?_,ok.linked.follows follows,ok.job.follows follows tables ok.memory.logs before,
    logged,newest,number⟩
  rw [follows.current,follows.logNumber,before _ ok.memory.logs]
  exact (ok.sound.frame fun l f _ => by rw [tables]).mono follows.next follows.floor

end Follows

section Steps
variable {d : Disk K V} {h : History K V} {m : ManifestFile K V} {db : Db K V}

/-- Only the leader, the queue and what belongs to them change. -/
structure Db.SameTree (db db' : Db K V) : Prop where
  mem : db'.mem = db.mem
  imm : db'.imm = db.imm
  logfileNumber : db'.logfileNumber = db.logfileNumber
  versions : db'.versions = db.versions
  snapshots : db'.snapshots = db.snapshots
  job : db'.job = db.job
  pendingOutputs : db'.pendingOutputs = db.pendingOutputs

omit [LinearOrder K] in
theorem Db.SameTree.follows {db' : Db K V} (same : db.SameTree db') : db.Follows db' := by
  refine ⟨by rw [same.versions],by rw [same.versions],by rw [same.versions],by rw [same.versions],same.job,
    same.pendingOutputs,by rw [same.versions],by rw [same.versions],?_,?_,by rw [same.logfileNumber]⟩
  · simp only [Db.smallestSnapshot,same.snapshots,same.versions,le_refl]
  · rw [same.imm,same.logfileNumber]
    exact fun some => ⟨some,rfl⟩

/-- A leader that has nothing in the log yet may come and go. -/
theorem Db.Ok.quiet {db' : Db K V} (ok : db.Ok d h m) (same : db.SameTree db')
    (pending : db'.pending = db.pending) (applied : db'.lastApplied = db.lastApplied)
    (group : ∀ g, db'.group = some g → g.batch.sequence = db.versions.lastSequence + 1 ∧
      g.lastSequence = db.versions.lastSequence + g.batch.count ∧ g.lastSequence < kMaxSequenceNumber) :
    db'.Ok d h m := by
  obtain ⟨memSorted,immSorted,split,imm,noImm,logs,newest,old,-,last,snapshots,visible⟩ := ok.memory
  refine ok.follows same.follows ?_ rfl (fun _ _ => rfl) ?_ ?_ ?_
  · refine ⟨by rw [same.mem]; exact memSorted,by rw [same.imm]; exact immSorted,?_,?_,?_,?_,?_,?_,?_,?_,?_,?_⟩
    · rw [pending,applied,same.mem,same.logfileNumber]; exact split
    · rw [same.imm,same.logfileNumber,same.versions]; exact imm
    · rw [same.imm,same.logfileNumber,same.versions]; exact noImm
    · rw [same.logfileNumber,same.versions]; exact logs
    · rw [same.logfileNumber]; exact newest
    · rw [same.logfileNumber,same.versions]; exact old
    · rw [same.versions]; exact group
    · rw [same.versions]; exact last
    · rw [same.snapshots]; exact snapshots
    · rw [same.snapshots,same.versions]; exact visible
  · rw [same.logfileNumber]; exact ok.logged
  · rw [same.logfileNumber]; exact ok.newest
  · rw [same.logfileNumber,same.versions]; exact ok.number

theorem Db.Ok.enter (ok : db.Ok d h m) (writers : List (Writer K V)) :
    { db with writers }.Ok d h m :=
  ok.quiet ⟨rfl,rfl,rfl,rfl,rfl,rfl,rfl⟩ rfl rfl ok.memory.group

/-- A leader that is not yet at the log. -/
theorem Db.Ok.room {force allowDelay : Bool} (ok : db.Ok d h m)
    (before : db.leader = none ∨ ∃ f a, db.leader = some (.room f a)) :
    { db with leader := some (.room force allowDelay) }.Ok d h m := by
  refine ok.quiet ⟨rfl,rfl,rfl,rfl,rfl,rfl,rfl⟩ ?_ ?_ (by simp [Db.group])
  · rcases before with none | ⟨f,a,some⟩
    · simp [Db.pending,none]
    · simp [Db.pending,some]
  · rcases before with none | ⟨f,a,some⟩
    · simp [Db.lastApplied,none]
    · simp [Db.lastApplied,some]

/-- `release` from a leader that has logged nothing. -/
theorem Db.Ok.leave {f a : Bool} (ok : db.Ok d h m) (before : db.leader = some (.room f a))
    (writers : List (Writer K V)) (flushWaiters : List Nat) :
    { db with writers, leader := none, flushWaiters }.Ok d h m :=
  ok.quiet ⟨rfl,rfl,rfl,rfl,rfl,rfl,rfl⟩ (by simp [Db.pending,before]) (by simp [Db.lastApplied,before])
    (by simp [Db.group])

/-- The leader numbers its group. -/
theorem Db.Ok.logging {f a : Bool} (ok : db.Ok d h m) (before : db.leader = some (.room f a))
    (g : Group K V) (writers : List (Writer K V)) (tmpBatch : WriteBatch K V)
    (first : g.batch.sequence = db.versions.lastSequence + 1)
    (last : g.lastSequence = db.versions.lastSequence + g.batch.count)
    (small : g.lastSequence < kMaxSequenceNumber) :
    { db with writers, tmpBatch, leader := some (.logging g) }.Ok d h m := by
  refine ok.quiet ⟨rfl,rfl,rfl,rfl,rfl,rfl,rfl⟩ ?_ ?_ ?_
  · simp [Db.pending,before]
  · simp [Db.lastApplied,before]
  · rintro _ ⟨⟩
    exact ⟨first,last,small⟩

/-- The manifest's log number is not past the log in use. -/
theorem Db.Ok.live (ok : db.Ok d h m) : (recoverRecords m.records).log ≤ db.logfileNumber := by
  have logs := ok.memory.logs
  have commits : ∀ (c : Commit K) (log : Nat), Committing d h db m c log → c.edit.logNumber.getD 0 = log := by
    intro c log commit
    obtain ⟨next,last,floor,completes,-⟩ := commit.completes
    rw [completes.log]
    rfl
  have job := ok.job.2
  rw [ok.linked.log,Db.recorded]
  split
  · rename_i c isCommit
    split
    · exact logs
    · cases hj : db.job with
      | commitFlush commit outer =>
        simp only [hj] at job isCommit
        cases isCommit
        exact (commits _ _ job.2.1).le
      | move commit =>
        simp only [hj] at job isCommit
        cases isCommit
        exact (commits _ _ job).trans_le logs
      | commitCompaction state commit =>
        simp only [hj] at job isCommit
        cases isCommit
        exact (commits _ _ job).trans_le logs
      | idle => simp [hj,Job.commit] at isCommit
      | flush => simp [hj,Job.commit] at isCommit
      | compact => simp [hj,Job.commit] at isCommit
      | remove => simp [hj,Job.commit] at isCommit
  · exact logs

omit [LinearOrder K] in
theorem updateLog_logged {k : Nat} (n : Nat) (f : LogFile K V → LogFile K V)
    (keeps : ∀ l, (f l).number = l.number) :
    (∃ l ∈ (d.updateLog n f).logs, l.number = k) ↔ ∃ l ∈ d.logs, l.number = k := by
  rw [← List.mem_map (f := fun l : LogFile K V => l.number),updateLog_numbers d n f keeps,List.mem_map]

omit [LinearOrder K] in
theorem updateLog_newest {k : Nat} (n : Nat) (f : LogFile K V → LogFile K V)
    (keeps : ∀ l, (f l).number = l.number) (newest : ∀ l ∈ d.logs, l.number ≤ k) :
    ∀ l ∈ (d.updateLog n f).logs, l.number ≤ k := by
  intro l hl
  have member : l.number ∈ (d.updateLog n f).logs.map (·.number) := List.mem_map_of_mem hl
  rw [updateLog_numbers d n f keeps] at member
  obtain ⟨old,ho,same⟩ := List.mem_map.mp member
  rw [← same]
  exact newest old ho

omit [LinearOrder K] in
theorem batch_sequence_lt {b : WriteBatch K V} {last : Nat} (first : b.sequence = last + 1) {e : Entry K V}
    (member : e ∈ b.entries) : last < e.sequence ∧ e.sequence ≤ last + b.count := by
  obtain ⟨i,bound,same,-⟩ := mem_batch_entries member
  omega

/-- The record goes to the log. -/
theorem Db.Ok.addRecord {number : Nat} {g : Group K V} (disk : d.Ok h number m) (ok : db.Ok d h m)
    (before : db.leader = some (.logging g)) (next : Leader K V)
    (after : next = .syncing g ∨ next = .inserting g) :
    (d.updateLog db.logfileNumber (LogFile.append g.batch)).Ok
      (h ++ [(db.logfileNumber,g.batch)]) number m ∧
    { db with leader := some next }.Ok (d.updateLog db.logfileNumber (LogFile.append g.batch))
      (h ++ [(db.logfileNumber,g.batch)]) m := by
  obtain ⟨memSorted,immSorted,⟨applied,split,mem,seen⟩,imm,noImm,logs,newest,old,group,last,snapshots,
    visible⟩ := ok.memory
  have isGroup : db.group = some g := by simp [Db.group,before]
  obtain ⟨first,lastSeq,small⟩ := group g isGroup
  have nothing : db.pending = [] := by simp [Db.pending,before]
  rw [nothing,List.append_nil] at split
  subst split
  have lastApplied : db.lastApplied = db.versions.lastSequence := by simp [Db.lastApplied,before]
  have ordered : History.Ordered (h ++ [(db.logfileNumber,g.batch)]) := by
    refine disk.ordered.append (List.pairwise_singleton _ _) ?_
    intro a ha b hb
    rw [List.mem_singleton.mp hb]
    refine ⟨newest a ha,?_⟩
    intro e he e' he'
    have := seen e (mem_history_set.mpr ⟨a,ha,he⟩)
    have := batch_sequence_lt first he'
    omega
  have keep : ∀ n, n ≤ db.logfileNumber →
      History.before (h ++ [(db.logfileNumber,g.batch)]) n = h.before n := by
    intro n le
    refine History.before_append _ _ _ ?_
    simpa using le
  have same : db.SameTree { db with leader := some next } := ⟨rfl,rfl,rfl,rfl,rfl,rfl,rfl⟩
  have newPending : { db with leader := some next }.pending = [(db.logfileNumber,g.batch)] := by
    rcases after with rfl | rfl <;> rfl
  have newApplied : { db with leader := some next }.lastApplied = db.versions.lastSequence := by
    rcases after with rfl | rfl <;> rfl
  have newGroup : { db with leader := some next }.group = some g := by
    rcases after with rfl | rfl <;> rfl
  refine ⟨disk.append ok.live ok.logged ordered (by omega),?_⟩
  refine ok.follows same.follows ?_ rfl keep ?_ ?_ ok.number
  · refine ⟨memSorted,immSorted,⟨h,by rw [newPending],mem,?_⟩,?_,noImm,logs,?_,?_,?_,last,snapshots,visible⟩
    · rw [newApplied,← lastApplied]; exact seen
    · rw [keep _ le_rfl]; exact imm
    · intro r hr
      rcases List.mem_append.mp hr with early | late
      · exact newest r early
      · rw [List.mem_singleton.mp late]
    · rw [keep _ le_rfl]; exact old
    · intro g' isG
      rw [newGroup] at isG
      cases isG
      exact ⟨first,lastSeq,small⟩
  · exact (updateLog_logged db.logfileNumber (LogFile.append g.batch) fun _ => rfl).mpr ok.logged
  · exact updateLog_newest db.logfileNumber (LogFile.append g.batch) (fun _ => rfl) ok.newest

theorem Db.Ok.syncLog {g : Group K V} (ok : db.Ok d h m) (before : db.leader = some (.syncing g)) :
    { db with leader := some (.inserting g) }.Ok (d.updateLog db.logfileNumber LogFile.sync) h m := by
  have same : db.SameTree { db with leader := some (.inserting g) } := ⟨rfl,rfl,rfl,rfl,rfl,rfl,rfl⟩
  have quiet : { db with leader := some (.inserting g) }.Ok d h m :=
    ok.quiet same (by simp [Db.pending,before]) (by simp [Db.lastApplied,before])
      (by rintro _ ⟨⟩; exact ok.memory.group g (by simp [Db.group,before]))
  refine ok.follows same.follows quiet.memory rfl (fun _ _ => rfl) ?_ ?_ ok.number
  · exact (updateLog_logged db.logfileNumber LogFile.sync fun _ => rfl).mpr ok.logged
  · exact updateLog_newest db.logfileNumber LogFile.sync (fun _ => rfl) ok.newest

/-- The group goes to the memtable. -/
theorem Db.Ok.insertInto {g : Group K V} (ok : db.Ok d h m)
    (before : db.leader = some (.inserting g)) :
    { db with mem := g.batch.insertInto db.mem, leader := some (.finishing g .ok false) }.Ok d h m := by
  obtain ⟨memSorted,immSorted,⟨applied,split,mem,seen⟩,imm,noImm,logs,newest,old,group,last,snapshots,
    visible⟩ := ok.memory
  have isGroup : db.group = some g := by simp [Db.group,before]
  obtain ⟨first,lastSeq,small⟩ := group g isGroup
  have pending : db.pending = [(db.logfileNumber,g.batch)] := by simp [Db.pending,before]
  have lastApplied : db.lastApplied = db.versions.lastSequence := by simp [Db.lastApplied,before]
  rw [pending] at split
  rw [lastApplied] at seen
  have fresh : ∀ a ∈ db.mem, ∀ e ∈ g.batch.entries, a.sequence < e.sequence := by
    intro a ha e he
    have inSet : a ∈ entrySet db.mem := ha
    rw [mem] at inSet
    have := seen a (History.set_mono (History.since_subset _ _) inSet)
    have := batch_sequence_lt first he
    omega
  obtain ⟨sorted,set⟩ := insertInto_spec g.batch memSorted fresh
  have late : History.since [(db.logfileNumber,g.batch)] db.logfileNumber =
      [(db.logfileNumber,g.batch)] := by simp [History.since]
  have batchSet : History.set [(db.logfileNumber,g.batch)] = entrySet g.batch.entries := by
    simp [History.set,History.entries]
  refine ok.follows ⟨rfl,rfl,rfl,rfl,rfl,rfl,le_rfl,le_rfl,le_rfl,fun some => ⟨some,rfl⟩,le_rfl⟩ ?_ rfl
    (fun _ _ => rfl) ok.logged ok.newest ok.number
  refine ⟨sorted,immSorted,⟨h,?_,?_,?_⟩,imm,noImm,logs,newest,old,?_,last,snapshots,visible⟩
  · simp [Db.pending]
  · show entrySet (g.batch.insertInto db.mem) = (h.since db.logfileNumber).set
    rw [set,mem,split]
    simp only [History.since,List.filter_append] at late ⊢
    rw [late,History.set_append,batchSet,Set.union_comm]
  · intro e he
    show e.sequence ≤ g.lastSequence
    rw [split,History.set_append,batchSet] at he
    rcases he with early | new
    · have := seen e early
      omega
    · have := batch_sequence_lt first new
      omega
  · rintro _ ⟨⟩
    exact ⟨first,lastSeq,small⟩

omit [LinearOrder K] in
/-- Snapshots are taken in the order of their sequence numbers. -/
theorem smallestSnapshot_le (db : Db K V) (visible : ∀ s ∈ db.snapshots, s ≤ db.versions.lastSequence) :
    db.smallestSnapshot ≤ db.versions.lastSequence := by
  rw [Db.smallestSnapshot]
  cases hs : db.snapshots with
  | nil => simp
  | cons s rest =>
    simp only [List.head?_cons,Option.getD_some]
    exact visible s (by simp [hs])

theorem Db.Ok.finishWrite {g : Group K V} {status : Status} {syncError : Bool} (ok : db.Ok d h m)
    (before : db.leader = some (.finishing g status syncError)) (writers : List (Writer K V))
    (tmpBatch : WriteBatch K V) (flushWaiters : List Nat) (bgError : Bool) :
    { db with
      writers, tmpBatch, flushWaiters, bgError, leader := none
      versions := { db.versions with lastSequence := g.lastSequence } }.Ok d h m := by
  obtain ⟨memSorted,immSorted,⟨applied,split,mem,seen⟩,imm,noImm,logs,newest,old,group,last,snapshots,
    visible⟩ := ok.memory
  obtain ⟨-,lastSeq,small⟩ := group g (by simp [Db.group,before])
  have pending : db.pending = [] := by simp [Db.pending,before]
  have lastApplied : db.lastApplied = g.lastSequence := by simp [Db.lastApplied,before]
  have up : db.versions.lastSequence ≤ g.lastSequence := by omega
  refine ok.follows ⟨rfl,rfl,rfl,rfl,rfl,rfl,le_rfl,up,?_,fun some => ⟨some,rfl⟩,le_rfl⟩ ?_ rfl
    (fun _ _ => rfl) ok.logged ok.newest ok.number
  · simp only [Db.smallestSnapshot]
    cases db.snapshots with
    | nil => exact up
    | cons s rest => exact le_rfl
  · refine ⟨memSorted,immSorted,⟨applied,?_,mem,?_⟩,imm,noImm,logs,newest,?_,by simp [Db.group],small,
      snapshots,fun s hs => (visible s hs).trans up⟩
    · rw [pending] at split
      exact split
    · rw [lastApplied] at seen
      exact seen
    · exact fun e he => (old e he).trans up

theorem Db.Ok.getSnapshot (ok : db.Ok d h m) :
    { db with snapshots := db.snapshots ++ [db.versions.lastSequence] }.Ok d h m := by
  obtain ⟨memSorted,immSorted,split,imm,noImm,logs,newest,old,group,last,snapshots,visible⟩ := ok.memory
  refine ok.follows ⟨rfl,rfl,rfl,rfl,rfl,rfl,le_rfl,le_rfl,?_,fun some => ⟨some,rfl⟩,le_rfl⟩ ?_ rfl
    (fun _ _ => rfl) ok.logged ok.newest ok.number
  · simp only [Db.smallestSnapshot]
    cases db.snapshots <;> simp
  · refine ⟨memSorted,immSorted,split,imm,noImm,logs,newest,old,group,last,?_,?_⟩
    · refine List.pairwise_append.mpr ⟨snapshots,List.pairwise_singleton _ _,?_⟩
      intro a ha b hb
      rw [List.mem_singleton.mp hb]
      exact visible a ha
    · intro s hs
      rcases List.mem_append.mp hs with early | now
      · exact visible s early
      · rw [List.mem_singleton.mp now]

theorem Db.Ok.releaseSnapshot (ok : db.Ok d h m) (snapshot : Nat) :
    { db with snapshots := db.snapshots.erase snapshot }.Ok d h m := by
  obtain ⟨memSorted,immSorted,split,imm,noImm,logs,newest,old,group,last,snapshots,visible⟩ := ok.memory
  refine ok.follows ⟨rfl,rfl,rfl,rfl,rfl,rfl,le_rfl,le_rfl,?_,fun some => ⟨some,rfl⟩,le_rfl⟩ ?_ rfl
    (fun _ _ => rfl) ok.logged ok.newest ok.number
  · -- the oldest snapshot is the smallest, so what remains is not below it
    simp only [Db.smallestSnapshot]
    cases hs : db.snapshots with
    | nil => simp
    | cons s rest =>
      have first : ∀ x ∈ s :: rest, s ≤ x := by
        rw [hs] at snapshots
        intro x hx
        rcases List.mem_cons.mp hx with rfl | later
        · exact le_rfl
        · exact (List.pairwise_cons.mp snapshots).1 x later
      cases he : (s :: rest).erase snapshot with
      | nil => exact visible s (by simp [hs])
      | cons t more =>
        have member : t ∈ (s :: rest).erase snapshot := by simp [he]
        exact first t (List.mem_of_mem_erase member)
  · refine ⟨memSorted,immSorted,split,imm,noImm,logs,newest,old,group,last,
      snapshots.sublist List.erase_sublist,fun s hs => visible s (List.mem_of_mem_erase hs)⟩

/-- A new log and memtable. -/
theorem Db.Ok.switchMemTable {number : Nat} {force allowDelay : Bool} (disk : d.Ok h number m)
    (ok : db.Ok d h m) (before : db.leader = some (.room force allowDelay)) (noImm : db.imm = none) :
    (d.newLog db.versions.nextFileNumber).Ok h number m ∧
    { db with
      versions := { db.versions with nextFileNumber := db.versions.nextFileNumber + 1 }
      logfileNumber := db.versions.nextFileNumber
      imm := some db.mem
      mem := []
      leader := some (.room false allowDelay)
      logTorn := false }.Ok (d.newLog db.versions.nextFileNumber) h m := by
  obtain ⟨memSorted,immSorted,⟨applied,split,mem,seen⟩,-,noImm',logs,newest,old,group,last,snapshots,
    visible⟩ := ok.memory
  have pending : db.pending = [] := by simp [Db.pending,before]
  rw [pending,List.append_nil] at split
  subst split
  have lastApplied : db.lastApplied = db.versions.lastSequence := by simp [Db.lastApplied,before]
  rw [lastApplied] at seen
  have sameLog := noImm' noImm
  have earlier : ∀ r ∈ h, r.1 < db.versions.nextFileNumber := fun r hr =>
    (newest r hr).trans_lt ok.number
  have all : h.before db.versions.nextFileNumber = h := h.before_all _ earlier
  refine ⟨disk.newLog _ (fun l hl => (ok.newest l hl).trans_lt ok.number) earlier (Nat.zero_lt_of_lt ok.number),?_⟩
  refine ok.follows ⟨rfl,rfl,rfl,rfl,rfl,rfl,Nat.le_succ _,le_rfl,le_rfl,by simp [noImm],ok.number.le⟩ ?_ rfl
    (fun _ _ => rfl) ?_ ?_ (Nat.lt_succ_self _)
  · refine ⟨List.Pairwise.nil,memSorted,⟨h,by simp [Db.pending],?_,?_⟩,?_,by simp,?_,?_,?_,
      by simp [Db.group],last,snapshots,visible⟩
    · show entrySet [] = (h.since db.versions.nextFileNumber).set
      have none : h.since db.versions.nextFileNumber = [] :=
        List.filter_eq_nil_iff.mpr fun r hr => by simpa using earlier r hr
      rw [none]
      rfl
    · exact seen
    · show entrySet db.mem = ((h.before db.versions.nextFileNumber).since db.versions.logNumber).set
      rw [all,sameLog,mem]
    · exact logs.trans ok.number.le
    · exact fun r hr => (earlier r hr).le
    · show ∀ e ∈ (h.before db.versions.nextFileNumber).set, _
      rw [all]
      exact seen
  · exact ⟨⟨db.versions.nextFileNumber,[],0⟩,List.mem_append_right _ (List.mem_singleton_self _),rfl⟩
  · intro l hl
    rcases List.mem_append.mp hl with early | new
    · exact (ok.newest l early).trans ok.number.le
    · rw [List.mem_singleton.mp new]

end Steps

end LevelDB
