import LevelDB.FileRecovery
import LevelDB.SyncedWrites

/-! The logs under group commit. A record goes to the log that is being written, which is
there and is not removed as long as a version needs it; so the logs hold the records of a
session in their order, and what a caller that syncs was told is in the synced part. -/
namespace LevelDB

variable {K V : Type} [LinearOrder K]

/-- No version that comes next needs an earlier log than the current version does. -/
structure Core.Forward (c : Core K V) : Prop where
  logfile : c.logfileNumber < c.versions.nextFileNumber
  logNumber : c.versions.logNumber ≤ c.logfileNumber
  commit : ∀ commit, c.job.commit = some commit →
    c.versions.logNumber ≤ commit.edit.logNumber.getD c.versions.logNumber ∧
      commit.edit.logNumber.getD c.versions.logNumber ≤ c.logfileNumber

/-- The numbers that new files and logs in use have got to. -/
structure Core.Later (c c' : Core K V) : Prop where
  next : c.versions.nextFileNumber ≤ c'.versions.nextFileNumber
  log : c.versions.logNumber ≤ c'.versions.logNumber

section Forward
variable {o : Options K V} {loose : Bool} {held : List (Version K)} {c c' : Core K V}

omit [LinearOrder K] in
/-- Nothing is committed, and the logs are the same. -/
theorem Core.Forward.quiet (forward : c.Forward) (logfile : c'.logfileNumber = c.logfileNumber)
    (log : c'.versions.logNumber = c.versions.logNumber) (next : c.versions.nextFileNumber ≤ c'.versions.nextFileNumber)
    (commit : ∀ commit, c'.job.commit = some commit → c.job.commit = some commit) : c'.Forward ∧ c.Later c' := by
  refine ⟨⟨?_,?_,?_⟩,next,log.ge⟩
  · rw [logfile]
    exact forward.logfile.trans_le next
  · rw [log,logfile]
    exact forward.logNumber
  · intro x isCommit
    rw [log,logfile]
    exact forward.commit x (commit x isCommit)

/-- `LogAndApply` begins: the edit keeps the log number or takes that of the current log. -/
theorem Core.Forward.begin (forward : c.Forward) {e : VersionEdit K} (logfile : c'.logfileNumber = c.logfileNumber)
    (log : c'.versions.logNumber = c.versions.logNumber) (next : c'.versions.nextFileNumber = c.versions.nextFileNumber)
    (isCommit : c'.job.commit = some (c.versions.logAndApply e))
    (isLog : ∀ n, e.logNumber = some n → n = c.logfileNumber) : c'.Forward ∧ c.Later c' := by
  refine ⟨⟨?_,?_,?_⟩,next.ge,log.ge⟩
  · rw [logfile,next]
    exact forward.logfile
  · rw [log,logfile]
    exact forward.logNumber
  · intro x same
    cases isCommit.symm.trans same
    rw [log,logfile]
    show _ ≤ e.logNumber.getD _ ∧ e.logNumber.getD _ ≤ _
    cases number : e.logNumber with
    | none => exact ⟨le_rfl,forward.logNumber⟩
    | some n =>
      rw [isLog n number]
      exact ⟨forward.logNumber,le_rfl⟩

omit [LinearOrder K] in
/-- The commit goes on with the same edit. -/
theorem Core.Forward.setCommit (forward : c.Forward) {commit : Commit K} (isCommit : c.job.commit = some commit)
    (stage : CommitStage) (logfile : c'.logfileNumber = c.logfileNumber) (versions : c'.versions = c.versions)
    (job : c'.job = c.job.setCommit { commit with stage }) : c'.Forward ∧ c.Later c' := by
  refine ⟨⟨?_,?_,?_⟩,by rw [versions],by rw [versions]⟩
  · rw [logfile,versions]
    exact forward.logfile
  · rw [logfile,versions]
    exact forward.logNumber
  · intro x same
    rw [job,setCommit_commit isCommit] at same
    cases same
    rw [versions,logfile]
    exact forward.commit commit isCommit

theorem Core.Forward.step (forward : c.Forward) (step : Core.Step o loose held c c') : c'.Forward ∧ c.Later c' := by
  have resumed : ∀ {outer : Option (CompactionState K V)} {x : Commit K}, (Job.resume outer).commit = some x →
      c.job.commit = some x := by
    intro outer x isCommit
    rw [resume_commit] at isCommit
    cases isCommit
  cases step with
  | error | start | log | syncLog | insert | finish | removeFile =>
    exact forward.quiet rfl rfl le_rfl fun _ same => same
  | switch =>
    refine ⟨⟨Nat.lt_succ_self _,forward.logNumber.trans forward.logfile.le,fun x isCommit => ?_⟩,Nat.le_succ _,le_rfl⟩
    obtain ⟨low,high⟩ := forward.commit x isCommit
    exact ⟨low,high.trans forward.logfile.le⟩
  | beginFlush => exact forward.quiet rfl rfl (Nat.le_succ _) (by rintro _ ⟨⟩)
  | writeTable | compact | compactionFails | collect => exact forward.quiet rfl rfl le_rfl (by rintro _ ⟨⟩)
  | flushFails | commitFails | removeDone => exact forward.quiet rfl rfl le_rfl fun _ => resumed
  | syncTable job isImm flushes =>
    refine forward.begin rfl rfl rfl rfl fun n number => ?_
    cases flushes.log.symm.trans number
    rfl
  | move | finishCompaction => exact forward.begin rfl rfl rfl rfl (by rintro n ⟨⟩)
  | advance =>
    refine forward.quiet rfl ?_ ?_ (by rintro _ ⟨⟩)
    · split <;> rfl
    · split
      · exact Nat.le_succ _
      · exact le_rfl
  | appendManifest isCommit => exact forward.setCommit isCommit .sync rfl rfl rfl
  | syncManifest isCommit => exact forward.setCommit isCommit .install rfl rfl rfl
  | install isCommit stage =>
    obtain ⟨low,high⟩ := forward.commit _ isCommit
    refine ⟨⟨forward.logfile,high,fun x same => ?_⟩,le_rfl,low⟩
    cases (resume_commit _).symm.trans same

theorem Core.Forward.run (forward : c.Forward) (steps : Relation.ReflTransGen (Core.Step o loose held) c c') :
    c'.Forward ∧ c.Later c' := by
  induction steps with
  | refl => exact ⟨forward,le_rfl,le_rfl⟩
  | tail _ step ih =>
    obtain ⟨forward',next,log⟩ := ih
    obtain ⟨forward'',next',log'⟩ := forward'.step step
    exact ⟨forward'',next.trans next',log.trans log'⟩

end Forward

/-- The log that is being written is there. -/
def State.LogOpen (s : State K V) : Prop :=
  match s.process with
  | .opening (.commit _ log _ _) => ∃ l ∈ s.disk.logs, l.number = log
  | .running db => (db.core s.disk).Forward ∧ ∃ l ∈ s.disk.logs, l.number = db.logfileNumber
  | _ => True

section Open
variable {o : Options K V} {s s' : State K V} {db db' : Db K V} {l : Label K V}

/-- Only logs that no version needs are removed. -/
theorem State.Files.doomed_log {loose : Bool} {doomed : FileName → Bool} {outer : Option (CompactionState K V)} {n : Nat}
    (files : s.Files o loose []) (process : s.process = .running db) (job : db.job = .remove doomed outer)
    (isDoomed : doomed (.log n)) : n < db.versions.logNumber := by
  rw [State.Files,process] at files
  obtain ⟨file,m,core⟩ := files
  exact ((core.job.doomed doomed outer job).log n isDoomed).1

/-- A log that a version needs stays. -/
theorem State.Writes.log_stays {loose : Bool} (writes : s.Writes db s' db') (files : s.Files o loose [])
    (process : s.process = .running db) {x : LogFile K V} (member : x ∈ s.disk.logs)
    (needed : db.versions.logNumber ≤ x.number) : ∃ y ∈ s'.disk.logs, y.number = x.number := by
  have updated : ∀ n (f : LogFile K V → LogFile K V), (∀ y, (f y).number = y.number) →
      ∃ y ∈ (s.disk.updateLog n f).logs, y.number = x.number := by
    intro n f same
    refine ⟨if x.number = n then f x else x,List.mem_map.mpr ⟨x,member,rfl⟩,?_⟩
    split
    · exact same x
    · rfl
  cases writes with
  | newLog _ _ disk =>
    rw [disk]
    exact ⟨x,List.mem_append_left _ member,rfl⟩
  | append g leader disk =>
    rw [disk]
    exact updated _ _ fun _ => rfl
  | sync g leader disk =>
    rw [disk]
    exact updated _ _ fun _ => rfl
  | still writes =>
    generalize s'.disk = d' at writes ⊢
    cases writes with
    | nothing logs =>
      rw [logs]
      exact ⟨x,member,rfl⟩
    | appendManifest e => exact ⟨x,member,rfl⟩
    | syncManifest => exact ⟨x,member,rfl⟩
    | remove doomed outer f job isDoomed =>
      refine ⟨x,?_,rfl⟩
      cases f with
      | log n =>
        have early := files.doomed_log process job isDoomed
        exact List.mem_filter.mpr ⟨member,by simpa using (early.trans_le needed).ne'⟩
      | table n | manifest n | temp n => exact member
      | current => exact member

/-- `DB::Open` ends with a new log. -/
theorem State.LogOpen.opened (open_ : s.LogOpen) (files : s.Files o true []) (step : s.stepOpen o l = some s')
    (process : s'.process = .running db) : s'.LogOpen := by
  obtain ⟨versions,log,c,opening,rfl⟩ := stepOpen_running step process
  rw [State.LogOpen,opening] at open_
  rw [State.Files,opening] at files
  obtain ⟨file,opened,-⟩ := files
  have logNumber : (versions.install c).logNumber = log := by simp [VersionSet.install,opened.completes.log]
  have start : Core.Forward ((Db.new (versions.install c) log).core s.disk) :=
    ⟨opened.number,logNumber.le,by rintro _ ⟨⟩⟩
  obtain ⟨db',running,steps⟩ : Core.Leads o true [] ((Db.new (versions.install c) log).core s.disk) _ :=
    removeObsoleteFiles_leads s (Db.new (versions.install c) log) none (fun _ => false) (by simp)
  cases process.symm.trans running
  have forward := (start.run steps).1
  rw [State.LogOpen,process]
  refine ⟨forward,?_⟩
  obtain ⟨job,rfl,-⟩ := removeObsoleteFiles_running process
  rw [removeObsoleteFiles_disk]
  exact open_

theorem State.LogOpen.stepOpen (open_ : s.LogOpen) (files : s.Files o true []) (step : s.stepOpen o l = some s') :
    s'.LogOpen := by
  cases process : s'.process with
  | down =>
    rw [State.LogOpen,process]
    trivial
  | running db => exact open_.opened files step process
  | opening p =>
    cases l with
    | openDb =>
      simp only [State.stepOpen,State.openDb] at step
      split at step
      · cases step
        split <;> trivial
      · cases step
    | newDb =>
      simp only [State.stepOpen,State.newDb] at step
      split at step
      · cases step
        trivial
      · rename_i op opening
        cases step
        cases op <;> trivial
      · cases step
    | recover =>
      simp only [State.stepOpen,State.recover] at step
      split at step
      · cases step
        split
        · trivial
        · split <;> trivial
      · cases step
    | replay =>
      obtain ⟨r,-,outcome⟩ := replay_cases step
      obtain ⟨n,-,rfl⟩ | ⟨n,-,rfl⟩ | ⟨b,rest,-,-,rfl⟩ | ⟨-,-,-,rfl⟩ | ⟨n,rest,-,-,-,-,rfl⟩ | ⟨-,-,-,-,rfl⟩ := outcome
      · rw [State.LogOpen,State.writeTable_process]
        trivial
      · trivial
      · trivial
      · trivial
      · trivial
      · exact ⟨_,List.mem_append_right _ List.mem_cons_self,rfl⟩
    | openCommit =>
      simp only [State.stepOpen,State.openCommit] at step
      split at step
      · rename_i versions log c stage opening
        rw [State.LogOpen,opening] at open_
        split at step <;> cases step
        · exact open_
        · exact open_
        · exact open_
        · rw [State.LogOpen]
          simpa only [State.setCurrentFile_disk,setCurrentFile_logs] using open_
        · obtain ⟨db,running,-⟩ : Core.Leads o true [] ((Db.new (versions.install c) log).core s.disk) _ :=
            removeObsoleteFiles_leads s (Db.new (versions.install c) log) none (fun _ => false) (by simp)
          cases running.symm.trans process
      · cases step
    | _ => cases step

/-- A step of an open database: the log that is being written is there, and the numbers grow. -/
theorem State.LogOpen.stepDb (open_ : s.LogOpen) (files : s.Files o true []) (manual : s.Manual)
    (process : s.process = .running db) (step : s.stepDb o db l = some s') (process' : s'.process = .running db')
    (writes : s.Writes db s' db') : s'.LogOpen ∧ (db.core s.disk).Later (db'.core s'.disk) := by
  rw [State.LogOpen,process] at open_
  obtain ⟨forward,x,member,isLog⟩ := open_
  obtain ⟨db'',running,steps⟩ : Core.Leads o true [] (db.core s.disk) s' :=
    core_step process (manual db process) (.inl rfl) (by simp) step
  cases process'.symm.trans running
  obtain ⟨forward',later⟩ := forward.run steps
  refine ⟨?_,later⟩
  rw [State.LogOpen,process']
  refine ⟨forward',?_⟩
  have stays := writes.log_stays files process member (isLog ▸ forward.logNumber)
  cases writes with
  | newLog _ _ disk _ file =>
    rw [disk,file]
    exact ⟨_,List.mem_append_right _ List.mem_cons_self,rfl⟩
  | still _ _ file | append _ _ _ _ file | sync _ _ _ _ file =>
    rw [file,← isLog]
    exact stays

theorem State.LogOpen.step (open_ : s.LogOpen) (files : s.Files o true []) (manual : s.Manual)
    (step : s.step o l = some s') : s'.LogOpen := by
  obtain ⟨cut,rfl,rfl⟩ | ⟨db,process,step⟩ | ⟨-,step⟩ := step_cases step
  · trivial
  · obtain ⟨db',process',writes⟩ := stepDb_writes process step
    exact (open_.stepDb files manual process step process' writes).1
  · exact open_.stepOpen files step

end Open

/-- What the logs hold of the batches that came into them since a state. -/
structure State.LogsSince (start s : State K V) (db : Db K V) (recent : History K V) : Prop where
  history : s.history = start.history ++ recent
  older : ∀ l ∈ start.disk.logs, l.number < db.versions.nextFileNumber
  below : ∀ r ∈ recent, r.1 ≤ db.logfileNumber
  records : ∀ l ∈ s.disk.logs, l.records = start.disk.recordsOf l.number ++ (recent.inLog l.number).map (·.2)
  present : ∀ r ∈ recent, db.versions.logNumber ≤ r.1 → ∃ l ∈ s.disk.logs, l.number = r.1

/-- The record is in the synced part of its log, unless the log was removed. -/
def Disk.Syncs (d : Disk K V) (r : Nat × WriteBatch K V) : Prop :=
  ∀ l ∈ d.logs, l.number = r.1 → r.2 ∈ l.records.take l.synced

section Logs
variable {o : Options K V} {s₀ s s' : State K V} {db₀ db db' : Db K V} {recent : History K V} {r : Nat × WriteBatch K V}

omit [LinearOrder K] in
theorem recordsOf_new {d : Disk K V} {n : Nat} (new : ∀ l ∈ d.logs, l.number < n) : d.recordsOf n = [] := by
  have none : d.logs.find? (fun l => l.number == n) = none :=
    List.find?_eq_none.mpr fun l member => by simpa using (new l member).ne
  rw [Disk.recordsOf,none]
  rfl

omit [LinearOrder K] in
/-- The background thread leaves the logs as they are, or removes one. -/
theorem Db.BackgroundWrites.logs {d' : Disk K V} (writes : db.BackgroundWrites s.disk d') :
    ∀ l ∈ d'.logs, l ∈ s.disk.logs := by
  cases writes with
  | nothing logs =>
    rw [logs]
    exact fun l member => member
  | appendManifest e => exact fun l member => member
  | syncManifest => exact fun l member => member
  | remove doomed outer f =>
    cases f with
    | log n => exact fun l member => List.mem_of_mem_filter member
    | table n | manifest n | temp n => exact fun l member => member
    | current => exact fun l member => member

theorem State.LogsSince.step (since : s₀.LogsSince s db recent) (open_ : s.LogOpen) (files : s.Files o true [])
    (process : s.process = .running db) (writes : s.Writes db s' db') (later : (db.core s.disk).Later (db'.core s'.disk)) :
    ∃ added, s₀.LogsSince s' db' (recent ++ added) := by
  obtain ⟨history,older,below,records,present⟩ := since
  rw [State.LogOpen,process] at open_
  obtain ⟨forward,current⟩ := open_
  have older' : ∀ l ∈ s₀.disk.logs, l.number < db'.versions.nextFileNumber :=
    fun l member => (older l member).trans_le later.next
  have present' : ∀ r ∈ recent, db'.versions.logNumber ≤ r.1 → ∃ l ∈ s'.disk.logs, l.number = r.1 := by
    intro r member needed
    have needed₀ : db.versions.logNumber ≤ r.1 := le_trans later.log needed
    obtain ⟨x,isLog,number⟩ := present r member needed₀
    exact number ▸ writes.log_stays files process isLog (number ▸ needed₀)
  cases writes with
  | still writes same file =>
    refine ⟨[],?_⟩
    rw [List.append_nil]
    exact ⟨same.trans history,older',by rw [file]; exact below,fun l member => records l (writes.logs l member),present'⟩
  | newLog _ _ disk same file =>
    refine ⟨[],?_⟩
    rw [List.append_nil]
    have fresh : ∀ r ∈ recent, r.1 < db.versions.nextFileNumber := fun r member => (below r member).trans_lt forward.logfile
    refine ⟨same.trans history,older',?_,?_,present'⟩
    · rw [file]
      exact fun r member => (fresh r member).le
    · intro l member
      rw [disk] at member
      rcases List.mem_append.mp member with old | new
      · exact records l old
      · rw [List.mem_singleton.mp new,recordsOf_new older,inLog_eq_nil fun r member => (fresh r member).ne]
        rfl
  | append g leader disk same file =>
    refine ⟨[(db.logfileNumber,g.batch)],?_,older',?_,?_,?_⟩
    · rw [same,history,List.append_assoc]
    · rw [file]
      intro r member
      rcases List.mem_append.mp member with old | new
      · exact below r old
      · rw [List.mem_singleton.mp new]
    · intro l member
      rw [disk] at member
      obtain ⟨x,isLog,rfl⟩ := List.mem_map.mp member
      rw [inLog_append,List.map_append]
      by_cases here : x.number = db.logfileNumber
      · simp only [here,if_true,LogFile.append]
        rw [records x isLog,here]
        simp [History.inLog]
      · simp only [here,if_false]
        rw [records x isLog]
        simp [History.inLog,Ne.symm here]
    · intro r member needed
      rcases List.mem_append.mp member with old | new
      · exact present' r old needed
      · rw [List.mem_singleton.mp new]
        obtain ⟨x,isLog,number⟩ := current
        rw [disk]
        exact ⟨_,List.mem_map.mpr ⟨x,isLog,rfl⟩,by split <;> exact number⟩
  | sync g leader disk same file =>
    refine ⟨[],?_⟩
    rw [List.append_nil]
    refine ⟨same.trans history,older',by rw [file]; exact below,?_,present'⟩
    intro l member
    rw [disk] at member
    obtain ⟨x,isLog,rfl⟩ := List.mem_map.mp member
    split
    · exact records x isLog
    · exact records x isLog

omit [LinearOrder K] in
/-- What is synced stays so. -/
theorem Disk.Syncs.step (syncs : s.disk.Syncs r) (below : r.1 < db.versions.nextFileNumber)
    (writes : s.Writes db s' db') : s'.disk.Syncs r := by
  intro l member number
  cases writes with
  | still writes => exact syncs l (writes.logs l member) number
  | newLog _ _ disk =>
    rw [disk] at member
    rcases List.mem_append.mp member with old | new
    · exact syncs l old number
    · rw [List.mem_singleton.mp new] at number
      exact absurd number below.ne'
  | append g _ disk =>
    rw [disk] at member
    obtain ⟨x,isLog,rfl⟩ := List.mem_map.mp member
    by_cases here : x.number = db.logfileNumber
    · simp only [here,if_true,LogFile.append] at number ⊢
      rw [List.take_append]
      exact List.mem_append_left _ (syncs x isLog (here.trans number))
    · simp only [here,if_false] at number ⊢
      exact syncs x isLog number
  | sync g _ disk =>
    rw [disk] at member
    obtain ⟨x,isLog,rfl⟩ := List.mem_map.mp member
    by_cases here : x.number = db.logfileNumber
    · simp only [here,if_true,LogFile.sync,List.take_length] at number ⊢
      exact List.mem_of_mem_take (syncs x isLog (here.trans number))
    · simp only [here,if_false] at number ⊢
      exact syncs x isLog number

end Logs

/-- The books of the logs in a session: its records are in them, and what is synced or was
acknowledged as synced is synced there. -/
structure State.Logs (start s : State K V) (db : Db K V) (t : List (Event K V)) (recent : History K V) : Prop where
  since : start.LogsSince s db recent
  syncing : ∀ g, db.leader = some (.syncing g) → (db.logfileNumber,g.batch) ∈ recent
  synced : ∀ g, db.Synced g → ∃ r ∈ recent, r.2 = g.batch ∧ s.disk.Syncs r
  acked : ∀ id b first, .returned id .ok true (some b) first ∈ t → ∃ ids, ∃ r ∈ recent, id ∈ ids ∧
    (ids,r.2) ∈ records t ∧ s.disk.Syncs r

section Session
variable {o : Options K V} {s₀ s s' : State K V} {db₀ db db' : Db K V} {recent : History K V} {t t' : List (Event K V)}
  {l : Label K V} {g : Group K V}

omit [LinearOrder K] in
/-- A leader that is about to sync has come from its record. -/
theorem Front.Step.syncing {f f' : Front K V} (step : f.Step o false f') (leader : f'.leader = some (.syncing g)) :
    f.leader = some (.syncing g) ∨ ∃ number, f.leader = some (.logging g) ∧ f'.history = f.history ++ [(number,g.batch)] := by
  cases step with
  | other | enter => exact .inl leader
  | log g' number before =>
    cases sync : f.leaderSync
    · simp [sync] at leader
    · simp only [sync,if_true,Option.some.injEq,Leader.syncing.injEq] at leader
      subst leader
      exact .inr ⟨number,before,rfl⟩
  | logLost _ _ failed | logFails _ _ failed | logLate _ _ _ failed | syncFails _ _ failed => cases failed
  | _ => cases leader

omit [LinearOrder K] in
/-- The record that is about to be synced is in the log that is being written. -/
theorem State.Writes.syncing (writes : s.Writes db s' db') (front : (s.front db).Step o false (s'.front db'))
    (leader : db'.leader = some (.syncing g)) :
    db.leader = some (.syncing g) ∧ db'.logfileNumber = db.logfileNumber ∨
      s'.history = s.history ++ [(db'.logfileNumber,g.batch)] := by
  rcases front.syncing leader with before | ⟨number,before,history⟩
  · have leader₀ : db.leader = some (.syncing g) := before
    cases writes with
    | newLog _ room =>
      rw [leader₀] at room
      cases room
    | still _ _ file | append _ _ _ _ file | sync _ _ _ _ file => exact .inl ⟨leader₀,file⟩
  · have longer : s'.history = s.history ++ [(number,g.batch)] := history
    have grows : s'.history ≠ s.history := by simp [longer]
    cases writes with
    | still _ same | newLog _ _ _ same | sync _ _ _ same => exact absurd same grows
    | append g' _ _ same file =>
      have entry := List.append_cancel_left (same.symm.trans longer)
      rw [file,← (Prod.mk.inj (List.singleton_inj.mp entry)).2]
      exact .inr same

theorem State.Logs.step (logs : s₀.Logs s db t recent) (session : s₀.Session s db₀ db t)
    (session' : s₀.Session s' db₀ db' t') (open_ : s.LogOpen) (files : s.Files o true []) (manual : s.Manual)
    (okay : l.ok = true) (taken : s.stepDb o db l = some s') : ∃ recent', s₀.Logs s' db' t' recent' := by
  obtain ⟨_,process,writes⟩ := stepDb_writes session.running taken
  cases session'.running.symm.trans process
  obtain ⟨_,process,front⟩ := front_step session.running taken
  cases session'.running.symm.trans process
  rw [okay] at front
  have later := (open_.stepDb files manual session.running taken process writes).2
  obtain ⟨added,since⟩ := logs.since.step open_ files session.running writes later
  have forward : (db.core s.disk).Forward := by
    rw [State.LogOpen,session.running] at open_
    exact open_.1
  have stays : ∀ r ∈ recent, s.disk.Syncs r → s'.disk.Syncs r :=
    fun r member syncs => syncs.step ((logs.since.below r member).trans_lt forward.logfile) writes
  obtain ⟨events,trace,acks⟩ := front.acks session.queue
  have isTail : t' = t ++ events := by
    have trace' : s'.trace = s.trace ++ events := trace
    rw [session'.trace,session.trace,List.append_assoc] at trace'
    exact List.append_cancel_left trace'
  refine ⟨recent ++ added,since,fun g leader => ?_,fun g synced => ?_,fun id b first acked => ?_⟩
  · rcases writes.syncing front leader with ⟨before,file⟩ | history
    · rw [file]
      exact List.mem_append_left _ (logs.syncing g before)
    · rw [since.history,logs.since.history,List.append_assoc] at history
      rw [List.append_cancel_left history]
      exact List.mem_append_right _ List.mem_cons_self
  · obtain ⟨-,before | ⟨leader,disk⟩⟩ := stepDb_synced session.running session.queue taken process synced
    · obtain ⟨r,member,isBatch,syncs⟩ := logs.synced g before
      exact ⟨r,List.mem_append_left _ member,isBatch,stays r member syncs⟩
    · -- the log is being synced
      have member := logs.syncing g leader
      refine ⟨(db.logfileNumber,g.batch),List.mem_append_left _ member,rfl,fun l isLog number => ?_⟩
      rw [disk] at isLog
      obtain ⟨x,inside,rfl⟩ := List.mem_map.mp isLog
      by_cases here : x.number = db.logfileNumber
      · simp only [here,if_true,LogFile.sync,List.take_length]
        rw [logs.since.records x inside,here]
        refine List.mem_append_right _ (List.mem_map.mpr ⟨(db.logfileNumber,g.batch),?_,rfl⟩)
        exact List.mem_filter.mpr ⟨member,by simp⟩
      · simp only [here,if_false] at number
  · rw [isTail] at acked
    rcases List.mem_append.mp acked with old | new
    · obtain ⟨ids,r,member,inside,logged,syncs⟩ := logs.acked id b first old
      refine ⟨ids,r,List.mem_append_left _ member,inside,?_,stays r member syncs⟩
      rw [isTail,records_append]
      exact List.mem_append_left _ logged
    · -- the leader of the group has synced its record
      obtain ⟨g,e,leader,inside,isSync,-⟩ := acks id true b first new
      obtain ⟨r,member,isBatch,syncs⟩ := logs.synced g ⟨isSync rfl,.inr ⟨e,leader⟩⟩
      refine ⟨_,r,List.mem_append_left _ member,inside,?_,stays r member syncs⟩
      obtain ⟨groups,waiting,ledger⟩ := session.ledger
      rw [isTail,records_append,ledger.recorded,Front.logged,leader,isBatch]
      simp

theorem State.Session.logs {ls : List (Label K V)} (session : s₀.Session s db₀ db t) (logs : s₀.Logs s db t recent)
    (reached : s.Files o true [] ∧ s.Manual ∧ s.LogOpen) (okay : ∀ l ∈ ls, l.ok = true)
    (noCrash : ∀ l ∈ ls, ∀ cut, l ≠ .crash cut) (run : s.run o ls = some s') (session' : s₀.Session s' db₀ db' t') :
    ∃ recent', s₀.Logs s' db' t' recent' := by
  induction ls generalizing s db t recent with
  | nil =>
    cases run
    cases session.running.symm.trans session'.running
    cases List.append_cancel_left (session.trace.symm.trans session'.trace)
    exact ⟨recent,logs⟩
  | cons l rest ih =>
    obtain ⟨next,step,later⟩ := Option.bind_eq_some_iff.mp run
    obtain ⟨files,manual,open_⟩ := reached
    obtain ⟨db₁,t₁,session₁⟩ := session.step (okay l (by simp)) (noCrash l (by simp)) step
    have taken : s.stepDb o db l = some next := by
      rcases step_cases step with ⟨cut,crash,-⟩ | ⟨db₂,running,taken⟩ | ⟨closed,-⟩
      · exact absurd crash (noCrash l (by simp) cut)
      · cases session.running.symm.trans running
        exact taken
      · exact absurd session.running (closed db)
    obtain ⟨recent₁,logs₁⟩ := logs.step session session₁ open_ files manual (okay l (by simp)) taken
    exact ih session₁ logs₁ ⟨files.step manual (.inl rfl) (fun _ => rfl) (by simp) step,manual.step step,
      open_.step files manual step⟩ (fun l hl => okay l (by simp [hl])) (fun l hl => noCrash l (by simp [hl])) later

theorem State.Logs.begin (reached : s₀.Files o true [] ∧ s₀.Manual ∧ s₀.LogOpen) (running : s₀.process = .running db₀)
    (quiescent : db₀.Quiescent) : s₀.Logs s₀ db₀ [] [] := by
  have files := reached.1
  rw [State.Files,running] at files
  obtain ⟨file,m,core⟩ := files
  refine ⟨⟨(List.append_nil _).symm,core.logs,by rintro _ ⟨⟩,fun l member => ?_,by rintro _ ⟨⟩⟩,fun g leader => ?_,
    fun g synced => ?_,by rintro _ _ _ ⟨⟩⟩
  · have whole : s₀.disk.recordsOf l.number = l.records := recordsOf_eq core.disk.increasing l member
    rw [whole]
    exact (List.append_nil _).symm
  · rw [quiescent.leader] at leader
    cases leader
  · exact (synced.false_of_group (by rw [quiescent.leader]; rfl)).elim

end Session

end LevelDB
