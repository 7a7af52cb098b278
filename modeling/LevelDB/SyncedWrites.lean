import LevelDB.GroupCommit
import LevelDB.TableOrder

/-! Synced writes survive. A record that was synced stays in its log as long as some
manifest that a crash may leave still needs the log, and from then on in the tables that
the manifest names; so it is in every history that a recovery finds, and reads see it. -/
namespace LevelDB

variable {K V : Type} [LinearOrder K]

/-- What the background thread does to the logs, to the manifests and to `CURRENT`. -/
inductive Db.BackgroundWrites (db : Db K V) (d : Disk K V) : Disk K V → Prop
  | nothing {d' : Disk K V} (logs : d'.logs = d.logs) (manifests : d'.manifests = d.manifests)
    (current : d'.currentFile = d.currentFile) : BackgroundWrites db d d'
  | appendManifest (r : ManifestRecord K V) :
    BackgroundWrites db d (d.updateManifest db.versions.manifestFileNumber (ManifestFile.append r))
  | syncManifest : BackgroundWrites db d (d.updateManifest db.versions.manifestFileNumber ManifestFile.sync)
  | remove (doomed : FileName → Bool) (outer : Option (CompactionState K V)) (f : FileName)
    (job : db.job = .remove doomed outer) (isDoomed : doomed f) : BackgroundWrites db d (d.remove f)

/-- What a step of an open database does to them, and to the history with the logs. -/
inductive State.Writes (s : State K V) (db : Db K V) (s' : State K V) (db' : Db K V) : Prop
  | still (disk : db.BackgroundWrites s.disk s'.disk) (history : s'.history = s.history)
    (file : db'.logfileNumber = db.logfileNumber)
  | newLog (imm : db.imm = none) (room : groupOf db.leader = none)
    (disk : s'.disk = s.disk.newLog db.versions.nextFileNumber) (history : s'.history = s.history)
    (file : db'.logfileNumber = db.versions.nextFileNumber)
  | append (g : Group K V) (leader : db.leader = some (.logging g))
    (disk : s'.disk = s.disk.updateLog db.logfileNumber (LogFile.append g.batch))
    (history : s'.history = s.history ++ [(db.logfileNumber,g.batch)]) (file : db'.logfileNumber = db.logfileNumber)
  | sync (g : Group K V) (leader : db.leader = some (.syncing g))
    (disk : s'.disk = s.disk.updateLog db.logfileNumber LogFile.sync) (history : s'.history = s.history)
    (file : db'.logfileNumber = db.logfileNumber)

section Writes
variable {o : Options K V} {s s' : State K V} {db db' : Db K V} {l : Label K V}

omit [LinearOrder K] in
theorem Db.BackgroundWrites.still (same : s'.disk = s.disk) : db.BackgroundWrites s.disk s'.disk := by
  rw [same]
  exact .nothing rfl rfl rfl

omit [LinearOrder K] in
theorem State.Writes.quiet (disk : s'.disk = s.disk) (history : s'.history = s.history)
    (file : db'.logfileNumber = db.logfileNumber) : s.Writes db s' db' := .still (.still disk) history file

omit [LinearOrder K] in
theorem failCommit_disk (s : State K V) (db : Db K V) : (s.failCommit db).disk = s.disk := by
  rw [State.failCommit]
  split <;> exact recordBackgroundError_disk s _

omit [LinearOrder K] in
theorem Db.BackgroundWrites.touches {d d' : Disk K V} {S : Nat → Prop} (touches : d.Touches d' S) :
    db.BackgroundWrites d d' :=
  .nothing touches.logs touches.manifests touches.current

omit [LinearOrder K] in
theorem Db.BackgroundWrites.outputs (d : Disk K V) (n : Nat) (t : TableFile K V)
    (outputs : List (Nat × List (Entry K V))) : db.BackgroundWrites d ((d.setTable n t).setTables outputs) := by
  have touches := setTables_touches (d.setTable n t) outputs
  exact .nothing touches.logs touches.manifests touches.current

theorem background_writes (background : l.background = true) (step : s.stepDb o db l = some s') :
    db.BackgroundWrites s.disk s'.disk := by
  cases l with
  | beginFlush =>
    simp only [State.stepDb,State.beginFlush] at step
    repeat' split at step
    all_goals cases step
    all_goals exact .still rfl
  | buildTable status =>
    simp only [State.stepDb,State.buildTable] at step
    split at step
    · rename_i n stage outer imm job isImm
      split at step
      · cases step
        rw [recordBackgroundError_disk]
        exact .nothing rfl rfl rfl
      split at step <;> cases step
      · rw [State.writeTable_disk]
        exact .touches (withTable_touches s.disk n imm false)
      · rw [withTable_eq]
        exact .touches (withTable_touches s.disk n imm true)
    · cases step
  | pick trigger =>
    simp only [State.stepDb,State.pick] at step
    repeat' split at step
    all_goals cases step
    all_goals exact .still rfl
  | pickManual =>
    simp only [State.stepDb,State.pickManual] at step
    repeat' split at step
    all_goals cases step
    all_goals exact .still rfl
  | advanceCompaction status =>
    simp only [State.stepDb,State.advanceCompaction] at step
    split at step
    · rename_i c job
      split at step
      · cases step
      split at step
      · cases step
        exact .still (recordBackgroundError_disk s _)
      cases opened : (c.advance o db.versions.nextFileNumber).2 <;>
        simp only [opened,if_true,Bool.false_eq_true,if_false] at step <;> split at step <;> cases step
      · exact .touches (setTables_touches s.disk _)
      · rw [State.failCompaction,recordBackgroundError_disk]
        exact .touches (setTables_touches s.disk _)
      · exact .outputs s.disk _ _ _
      · rw [State.failCompaction,recordBackgroundError_disk]
        exact .outputs s.disk _ _ _
    · cases step
  | finishCompaction status =>
    simp only [State.stepDb,State.finishCompaction] at step
    split at step
    · split at step
      · cases step
      split at step <;> cases step
      · exact .still (recordBackgroundError_disk s _)
      · exact .touches (setTables_touches s.disk _)
    · cases step
  | appendManifest status =>
    simp only [State.stepDb,State.appendManifest] at step
    split at step
    · split at step
      · cases step
      split at step
      · cases step
        exact .still (failCommit_disk s db)
      split at step <;> cases step
      · exact .appendManifest _
      · rw [failCommit_disk]
        exact .appendManifest _
    · cases step
  | syncManifest status =>
    simp only [State.stepDb,State.syncManifest] at step
    split at step
    · split at step
      · cases step
      split at step <;> cases step
      · exact .still (failCommit_disk s db)
      · exact .syncManifest
    · cases step
  | installVersion pinned =>
    simp only [State.stepDb,State.installVersion] at step
    split at step
    · split at step
      · cases step
      split at step <;> cases step
      · exact .still (removeObsoleteFiles_disk _ _ _ _)
      · exact .still (removeObsoleteFiles_disk _ _ _ _)
      · exact .still rfl
    · cases step
  | removeFile f =>
    simp only [State.stepDb,State.removeFile] at step
    split at step
    · rename_i doomed outer job
      split at step
      · rename_i isDoomed
        cases step
        exact .remove doomed outer f job isDoomed
      · cases step
    · cases step
  | removeDone =>
    simp only [State.stepDb,State.removeDone] at step
    split at step <;> cases step
    exact .still rfl
  | _ => cases background

omit [LinearOrder K] in
theorem makeRoom_writes {newFile close : Status} (same : s.process = .running db)
    (step : s.makeRoom o db newFile close = some s') : ∃ db', s'.process = .running db' ∧ s.Writes db s' db' := by
  obtain ⟨force,delay,w,rest,leader,-,⟨-,rfl⟩ | ⟨-,rfl⟩ | ⟨-,-,start⟩ | rfl | ⟨-,noImm,-,rfl⟩⟩ := makeRoom_cases step
  · exact ⟨_,rfl,.quiet rfl rfl rfl⟩
  · exact ⟨_,rfl,.quiet rfl rfl rfl⟩
  · obtain ⟨w,rest,-,⟨-,rfl⟩ | ⟨b,-,-,rfl⟩⟩ := startGroup_cases start
    · exact ⟨_,rfl,.quiet rfl rfl rfl⟩
    · refine ⟨_,rfl,.quiet rfl rfl ?_⟩
      cases (buildBatchGroup o db.tmpBatch.updates w b rest).inTmp <;> rfl
  · exact ⟨db,same,.quiet rfl rfl rfl⟩
  · have room : groupOf db.leader = none := by rw [leader]; rfl
    simp only [State.switchMemTable]
    split
    · exact ⟨_,rfl,.newLog noImm room rfl rfl rfl⟩
    · rw [State.recordBackgroundError]
      split
      · exact ⟨_,rfl,.newLog noImm room rfl rfl rfl⟩
      · exact ⟨_,rfl,.newLog noImm room rfl rfl rfl⟩

theorem stepDb_writes (same : s.process = .running db) (step : s.stepDb o db l = some s') :
    ∃ db', s'.process = .running db' ∧ s.Writes db s' db' := by
  cases background : l.background with
  | true =>
    obtain ⟨db',after⟩ := background_step same background step
    exact ⟨db',after.process,.still (background_writes background step) after.history after.same.logfileNumber⟩
  | false =>
    cases l with
    | makeRoom newFile close => exact makeRoom_writes same step
    | addRecord outcome =>
      obtain ⟨g,leader,⟨-,rfl⟩ | ⟨-,rfl⟩ | ⟨-,rfl⟩ | ⟨-,-,rfl⟩⟩ := addRecord_cases step
      · exact ⟨_,rfl,.append g leader rfl rfl rfl⟩
      · exact ⟨_,rfl,.append g leader rfl rfl rfl⟩
      · exact ⟨_,rfl,.quiet rfl rfl rfl⟩
      · exact ⟨_,rfl,.quiet rfl rfl rfl⟩
    | syncLog status =>
      simp only [State.stepDb,State.syncLog] at step
      split at step
      · rename_i g leader
        split at step <;> cases step
        · exact ⟨_,rfl,.sync g leader rfl rfl rfl⟩
        · exact ⟨_,rfl,.quiet rfl rfl rfl⟩
      · cases step
    | enter id batch sync =>
      simp only [State.stepDb,State.enter] at step
      split at step <;> cases step
      exact ⟨_,rfl,.quiet rfl rfl rfl⟩
    | lead =>
      simp only [State.stepDb,State.lead] at step
      split at step <;> cases step
      exact ⟨_,rfl,.quiet rfl rfl rfl⟩
    | insertInto =>
      simp only [State.stepDb,State.insertInto] at step
      split at step <;> cases step
      exact ⟨_,rfl,.quiet rfl rfl rfl⟩
    | finishWrite =>
      simp only [State.stepDb,State.finishWrite] at step
      split at step
      · rename_i g status syncError leader
        cases step
        cases recorded : syncError && !db.bgError <;> exact ⟨_,rfl,.quiet rfl rfl rfl⟩
      · cases step
    | getSnapshot =>
      cases step
      exact ⟨_,rfl,.quiet rfl rfl rfl⟩
    | releaseSnapshot snapshot =>
      cases step
      exact ⟨_,rfl,.quiet rfl rfl rfl⟩
    | awaitFlush id =>
      simp only [State.stepDb,State.awaitFlush] at step
      split at step <;> cases step
      exact ⟨_,rfl,.quiet rfl rfl rfl⟩
    | requestCompaction level first last =>
      simp only [State.stepDb,State.requestCompaction] at step
      split at step <;> cases step
      exact ⟨_,rfl,.quiet rfl rfl rfl⟩
    | crash cut => cases step
    | openDb => cases step
    | newDb => cases step
    | recover => cases step
    | replay => cases step
    | openCommit => cases step
    | _ => cases background

end Writes

/-- A log that some manifest needs which a crash may leave has the record, synced. -/
def Disk.Keeps (d : Disk K V) (r : Nat × WriteBatch K V) : Prop :=
  ∀ number m, d.current = some number → d.manifests number = some m → (m.upTo m.synced).log ≤ r.1 →
    ∃ l ∈ d.logs, l.number = r.1 ∧ r.2 ∈ l.records.take l.synced

section Keeps
variable {d d' : Disk K V} {h : History K V} {number : Nat} {m : ManifestFile K V} {r : Nat × WriteBatch K V}

theorem Disk.Keeps.frame (keeps : d.Keeps r) (logs : d'.logs = d.logs) (manifests : d'.manifests = d.manifests)
    (current : d'.currentFile = d.currentFile) : d'.Keeps r := by
  intro number m isCurrent there late
  rw [Disk.current,current] at isCurrent
  rw [manifests] at there
  rw [logs]
  exact keeps number m isCurrent there late

theorem Disk.Keeps.newLog (keeps : d.Keeps r) (n : Nat) : (d.newLog n).Keeps r := by
  intro number m isCurrent there late
  obtain ⟨l,member,same,inside⟩ := keeps number m isCurrent there late
  exact ⟨l,List.mem_append_left _ member,same,inside⟩

/-- A log may grow, and more of it be synced. -/
theorem Disk.Keeps.updateLog (keeps : d.Keeps r) (n : Nat) (f : LogFile K V → LogFile K V)
    (number : ∀ l, (f l).number = l.number)
    (more : ∀ l ∈ d.logs, l.records.take l.synced ⊆ (f l).records.take (f l).synced) : (d.updateLog n f).Keeps r := by
  intro k m isCurrent there late
  obtain ⟨l,member,same,inside⟩ := keeps k m isCurrent there late
  refine ⟨if l.number = n then f l else l,List.mem_map.mpr ⟨l,member,rfl⟩,?_,?_⟩
  · split
    · rw [number,same]
    · exact same
  · split
    · exact more l member inside
    · exact inside

theorem Disk.Ok.keeps_append (ok : d.Ok h number m) (keeps : d.Keeps r) (n : Nat) (b : WriteBatch K V) :
    (d.updateLog n (LogFile.append b)).Keeps r := by
  refine keeps.updateLog n _ (fun _ => rfl) fun l member => ?_
  show l.records.take l.synced ⊆ (l.records ++ [b]).take l.synced
  rw [List.take_append_of_le_length (ok.bounded l member)]
  exact List.Subset.refl _

theorem Disk.Keeps.sync (keeps : d.Keeps r) (n : Nat) : (d.updateLog n LogFile.sync).Keeps r := by
  refine keeps.updateLog n _ (fun _ => rfl) fun l _ => ?_
  show l.records.take l.synced ⊆ l.records.take l.records.length
  rw [List.take_length]
  exact List.take_subset _ _

theorem Disk.Ok.keeps_appendManifest (ok : d.Ok h number m) (keeps : d.Keeps r) (e : ManifestRecord K V) :
    (d.updateManifest number (ManifestFile.append e)).Keeps r := by
  intro k m' isCurrent there late
  have same : number = k := Option.some.inj (ok.current.symm.trans isCurrent)
  subst same
  have isNew : m.append e = m' := by simpa [Disk.updateManifest,ok.manifest,ManifestFile.append] using there
  subst isNew
  have upTo : (m.append e).upTo m.synced = m.upTo m.synced := by
    show recoverRecords ((m.records ++ [e]).take m.synced) = _
    rw [List.take_append_of_le_length ok.synced,ManifestFile.upTo]
  exact keeps number m ok.current ok.manifest (upTo ▸ late)

theorem Disk.Ok.keeps_syncManifest (ok : d.Ok h number m) (keeps : d.Keeps r) :
    (d.updateManifest number ManifestFile.sync).Keeps r := by
  intro k m' isCurrent there late
  have same : number = k := Option.some.inj (ok.current.symm.trans isCurrent)
  subst same
  have isNew : m.sync = m' := by simpa [Disk.updateManifest,ok.manifest] using there
  subst isNew
  exact keeps number m ok.current ok.manifest ((ok.forward _ _ le_rfl ok.synced le_rfl).trans late)

/-- Files that are not needed may go. -/
theorem Disk.Ok.keeps_remove (ok : d.Ok h number m) (keeps : d.Keeps r) (f : FileName)
    (log : ∀ n, f = .log n → n < (m.upTo m.synced).log) (manifest : f ≠ .manifest number) : (d.remove f).Keeps r := by
  cases f with
  | table n | temp n => exact keeps.frame rfl rfl rfl
  | current =>
    rintro k m' ⟨⟩
  | log n =>
    intro k m' isCurrent there late
    have same : number = k := Option.some.inj (ok.current.symm.trans isCurrent)
    subst same
    have isOld : m = m' := Option.some.inj (ok.manifest.symm.trans there)
    subst isOld
    obtain ⟨l,member,same,inside⟩ := keeps number m ok.current ok.manifest late
    have other : l.number ≠ n := by
      have := log n rfl
      omega
    exact ⟨l,List.mem_filter.mpr ⟨member,by simpa using other⟩,same,inside⟩
  | manifest n =>
    intro k m' isCurrent there late
    have same : number = k := Option.some.inj (ok.current.symm.trans isCurrent)
    subst same
    have other : number ≠ n := fun same => manifest (by rw [same])
    refine keeps number m' ok.current ?_ late
    simpa [Disk.remove,Function.update_of_ne other] using there

/-- A crash does not lose the record. -/
theorem Disk.Ok.keeps_crash (ok : d.Ok h number m) (member : r ∈ h) (keeps : d.Keeps r) (cut : Cut) :
    r ∈ (d.crash cut).history ∧ (d.crash cut).Keeps r := by
  have length := cut_length m (cut (.manifest number)) ok.synced
  have synced : ∀ l ∈ d.logs, l.records.take l.synced =
      (l.cut (cut (.log l.number))).records.take (l.cut (cut (.log l.number))).synced := by
    intro l _
    show l.records.take l.synced = (l.records.take (max l.synced _)).take l.synced
    rw [List.take_take,min_eq_left (le_max_left _ _)]
  have crashed : (d.crash cut).manifests number = some (m.cut (cut (.manifest number))) := by
    simp [Disk.crash,ok.manifest]
  have late : ((m.cut (cut (.manifest number))).upTo m.synced).log = (m.upTo m.synced).log := by
    rw [cut_upTo m _ _ length.1]
  constructor
  · rw [ok.crash_history cut]
    by_cases early : r.1 < Disk.logAfter m (cut (.manifest number))
    · exact List.mem_append_left _ (List.mem_filter.mpr ⟨member,by simpa using early⟩)
    · -- the manifest that is left still needs the log
      have needed : (m.upTo m.synced).log ≤ Disk.logAfter m (cut (.manifest number)) := by
        rw [Disk.logAfter,cut_upTo m _ _ le_rfl]
        exact ok.forward _ _ le_rfl length.1 length.2
      obtain ⟨l,isLog,same,inside⟩ := keeps number m ok.current ok.manifest (by omega)
      refine List.mem_append_right _ ?_
      rw [logHistory_eq,mem_logRecords]
      refine ⟨l.cut (cut (.log l.number)),List.mem_filter.mpr ⟨List.mem_map_of_mem isLog,?_⟩,same,?_⟩
      · have number : (l.cut (cut (.log l.number))).number = r.1 := same
        rw [number]
        simpa using early
      · rw [synced l isLog] at inside
        exact List.mem_of_mem_take inside
  · intro k m' isCurrent there needs
    have same : number = k :=
      Option.some.inj ((Disk.current_line (Disk.crash_line ok.named cut)).symm.trans isCurrent)
    subst same
    cases Option.some.inj (crashed.symm.trans there)
    obtain ⟨l,isLog,same,inside⟩ := keeps number m ok.current ok.manifest (late ▸ needs)
    exact ⟨l.cut (cut (.log l.number)),List.mem_map_of_mem isLog,same,synced l isLog ▸ inside⟩

end Keeps

/-- The record is in the history, and no crash loses it. -/
structure State.Keeps (s : State K V) (r : Nat × WriteBatch K V) : Prop where
  member : r ∈ s.history
  disk : s.disk.Keeps r

section Steps
variable {o : Options K V} {s s' : State K V} {db : Db K V} {l : Label K V} {r : Nat × WriteBatch K V}

/-- While nothing is committed, the manifest is synced and needs the logs that the database
needs. -/
theorem Db.Ok.idle_log {m : ManifestFile K V} (ok : db.Ok s.disk s.history m) (noCommit : db.job.commit = none) :
    (m.upTo m.synced).log = db.versions.logNumber := by
  have synced := ok.linked.synced fun c isCommit => by
    rw [noCommit] at isCommit
    cases isCommit
  rw [synced,upTo_length,ok.linked.log,Db.recorded,noCommit]

theorem Db.Inv.keeps_disk {db' : Db K V} (inv : db.Inv s.disk s.history) (keeps : s.disk.Keeps r)
    (writes : s.Writes db s' db') : s'.disk.Keeps r := by
  obtain ⟨m,disk,ok⟩ := inv
  cases writes with
  | newLog imm room same =>
    rw [same]
    exact keeps.newLog _
  | append g leader same =>
    rw [same]
    exact disk.keeps_append keeps _ _
  | sync g leader same =>
    rw [same]
    exact keeps.sync _
  | still writes =>
    generalize s'.disk = d' at writes ⊢
    cases writes with
    | nothing logs manifests current => exact keeps.frame logs manifests current
    | appendManifest e => exact disk.keeps_appendManifest keeps e
    | syncManifest => exact disk.keeps_syncManifest keeps
    | remove doomed outer f job isDoomed =>
      have jobOk := ok.job.2
      rw [job] at jobOk
      have log := ok.idle_log (by rw [job]; rfl)
      refine disk.keeps_remove keeps f ?_ ?_
      · rintro n rfl
        rw [log]
        exact jobOk.1.log n isDoomed
      · rintro rfl
        exact absurd (jobOk.1.manifest _ isDoomed) (lt_irrefl _)

omit [LinearOrder K] in
theorem Front.Step.history {f f' : Front K V} {fails : Bool} (step : f.Step o fails f') : f.history <+: f'.history := by
  cases step <;> first | exact List.prefix_rfl | exact List.prefix_append _ _

theorem State.Keeps.stepOpen (inv : s.Inv) (keeps : s.Keeps r) (step : s.stepOpen o l = some s') : s'.Keeps r := by
  obtain ⟨member,disk⟩ := keeps
  -- with a record in the history the database was made before
  have made : ¬s.Fresh := fun fresh => by
    rw [fresh.history] at member
    cases member
  cases l with
  | openDb =>
    simp only [State.stepOpen,State.openDb] at step
    split at step
    · rename_i process
      rw [State.Inv,process] at inv
      obtain ⟨number,m,ok⟩ := inv.resolve_left made
      simp only [ok.named] at step
      cases step
      exact ⟨member,disk⟩
    · cases step
  | newDb =>
    simp only [State.stepOpen,State.newDb] at step
    split at step
    · rename_i process
      rw [State.Inv,process] at inv
      exact absurd inv.1 made
    · rename_i process
      rw [State.Inv,process] at inv
      exact absurd inv.1 made
    · cases step
  | recover =>
    simp only [State.stepOpen,State.recover] at step
    split at step
    · cases step
      split
      · exact ⟨member,disk⟩
      · split <;> exact ⟨member,disk⟩
    · cases step
  | replay =>
    obtain ⟨r',process,outcome⟩ := replay_cases step
    obtain ⟨n,table,rfl⟩ | ⟨n,table,rfl⟩ | ⟨b,rest,table,records,rfl⟩ | ⟨table,-,-,rfl⟩ | ⟨n,rest,table,records,mem,logs,rfl⟩ |
      ⟨table,-,mem,logs,rfl⟩ := outcome
    · refine ⟨by rwa [State.writeTable_history],?_⟩
      rw [State.writeTable_disk]
      have touches := withTable_touches s.disk n (r'.mem.getD []) false
      exact disk.frame touches.logs touches.manifests touches.current
    · have touches := withTable_touches s.disk n (r'.mem.getD []) true
      exact ⟨member,disk.frame touches.logs touches.manifests touches.current⟩
    · exact ⟨member,disk⟩
    · exact ⟨member,disk⟩
    · exact ⟨member,disk⟩
    · exact ⟨member,disk.newLog _⟩
  | openCommit =>
    simp only [State.stepOpen,State.openCommit] at step
    split at step
    · rename_i versions log c stage process
      rw [State.Inv,process] at inv
      obtain ⟨opened,manifest,temp,rest⟩ := inv
      -- what is not the current manifest may change
      have beside : ∀ f : Option (ManifestFile K V), stage ≠ .install →
          { s.disk with manifests := Function.update s.disk.manifests versions.manifestFileNumber f }.Keeps r := by
        intro f notInstall number m isCurrent there late
        rw [if_neg notInstall] at rest
        obtain ⟨current,m',ok,other,-⟩ := rest
        have same : current = number := Option.some.inj (ok.current.symm.trans isCurrent)
        subst same
        simp only [Function.update_of_ne other] at there
        exact disk current m isCurrent there late
      cases stage with
      | create =>
        cases step
        exact ⟨member,beside _ (by simp)⟩
      | append =>
        cases step
        exact ⟨member,beside _ (by simp)⟩
      | sync =>
        cases step
        exact ⟨member,beside _ (by simp)⟩
      | setCurrent op =>
        cases step
        refine ⟨by simpa only [State.setCurrentFile_history] using member,?_⟩
        rw [State.setCurrentFile_disk]
        rcases (temp op rfl).advance with ⟨next,-,-,same⟩ | ⟨rfl,named⟩
        · exact disk.frame setCurrentFile_logs setCurrentFile_manifests same
        · intro number m isCurrent there late
          -- the new manifest needs no log of the history
          cases (Disk.current_line named).symm.trans isCurrent
          cases (manifest (by simp)).symm.trans there
          have isLog : ((openManifest s.history versions c (.setCurrent .rename)).upTo 2).log = log := opened.good.2.2.1
          rw [show (openManifest s.history versions c (.setCurrent .rename)).synced = 2 from rfl,isLog] at late
          exact absurd (opened.later r member) (not_lt_of_ge late)
      | install =>
        cases step
        refine ⟨?_,?_⟩
        · simp only [State.removeObsoleteFiles]
          split <;> exact member
        · rw [removeObsoleteFiles_disk]
          exact disk
    · cases step
  | _ => cases step

theorem State.Keeps.step (inv : s.Inv) (keeps : s.Keeps r) (step : s.step o l = some s') : s'.Keeps r := by
  obtain ⟨cut,rfl,rfl⟩ | ⟨db,process,step⟩ | ⟨-,step⟩ := step_cases step
  · rcases inv.disk with fresh | ⟨number,m,ok⟩
    · have member := keeps.member
      rw [fresh.history] at member
      cases member
    · obtain ⟨member,disk⟩ := ok.keeps_crash keeps.member keeps.disk cut
      exact ⟨member,disk⟩
  · obtain ⟨db',-,front⟩ := front_step process step
    obtain ⟨db'',-,writes⟩ := stepDb_writes process step
    exact ⟨front.history.subset keeps.member,(inv.running process).keeps_disk keeps.disk writes⟩
  · exact keeps.stepOpen inv step

end Steps

section Acks
variable {o : Options K V} {s s' : State K V} {db db' : Db K V} {l : Label K V} {g : Group K V}

omit [LinearOrder K] in
/-- A caller's updates keep their numbers in the record of its group. -/
theorem WriteBatch.mem_entries_of_part {b r : WriteBatch K V} {front back : List (K × Option V)} {first : Nat}
    (updates : r.updates = front ++ b.updates ++ back) (isFirst : first = r.sequence + front.length) {e : Entry K V}
    (member : e ∈ (⟨first,b.updates⟩ : WriteBatch K V).entries) : e ∈ r.entries := by
  obtain ⟨i,small,rfl⟩ := List.mem_mapIdx.mp member
  have isUpdate : i < b.updates.length := small
  have place : front.length + i < r.updates.length := by
    rw [updates]
    simp only [List.length_append]
    omega
  refine List.mem_mapIdx.mpr ⟨front.length + i,place,?_⟩
  have same : r.updates[front.length + i] = b.updates[i] := by
    simp only [updates,List.append_assoc]
    rw [List.getElem_append_right (by omega)]
    simp only [Nat.add_sub_cancel_left]
    exact List.getElem_append_left isUpdate
  rw [same,isFirst,Nat.add_assoc]

omit [LinearOrder K] in
/-- A return of a group: which part of the group's updates is the caller's. -/
theorem mem_returns_updates {status status' : Status} {first n id : Nat} {sync : Bool} {b : WriteBatch K V}
    {ws : List (Writer K V)} (member : .returned id status' sync (some b) n ∈ returns status first ws) :
    status' = status ∧ (∃ w ∈ ws, w.id = id ∧ w.sync = sync ∧ w.batch = some b) ∧
      ∃ front back, updatesOf ws = front ++ b.updates ++ back ∧ n = first + front.length := by
  induction ws generalizing first with
  | nil => cases member
  | cons w rest ih =>
    rcases List.mem_cons.mp member with here | later
    · injection here with isId isStatus isSync isBatch isFirst
      exact ⟨isStatus,⟨w,by simp,isId.symm,isSync.symm,isBatch.symm⟩,[],updatesOf rest,by simp [← isBatch],by simp [isFirst]⟩
    · obtain ⟨isStatus,⟨x,inside,isSync⟩,front,back,updates,isFirst⟩ := ih later
      refine ⟨isStatus,⟨x,by simp [inside],isSync⟩,(w.batch.map (·.updates)).getD [] ++ front,back,?_,?_⟩
      · rw [updatesOf_cons,updates]
        simp only [List.append_assoc]
      · rw [isFirst]
        cases batch : w.batch with
        | none => simp
        | some b' => simp [WriteBatch.count,Nat.add_assoc]

omit [LinearOrder K] in
/-- A caller gets its answer from the leader of its group, which has synced if the caller
asked for it. -/
theorem Front.Step.acks {f f' : Front K V} {fails : Bool} (queue : f.Queue) (step : f.Step o fails f') :
    ∃ events, f'.trace = f.trace ++ events ∧ ∀ id sync b first, .returned id .ok sync (some b) first ∈ events →
      ∃ g e, f.leader = some (.finishing g .ok e) ∧ id ∈ batchIds (f.members g) ∧
        (sync = true → f.leaderSync = true) ∧ f'.last = g.lastSequence ∧
        ∃ front back, g.batch.updates = front ++ b.updates ++ back ∧ first = g.batch.sequence + front.length := by
  have noReturn : ∀ {events : List (Event K V)}, (∀ e ∈ events, e.quiet = true) → ∀ id sync b first,
      (.returned id .ok sync (some b) first : Event K V) ∉ events := fun quiet id sync b first member => by
    cases quiet _ member
  cases step with
  | other events bgError quiet error =>
    exact ⟨events,rfl,fun id sync b first member => absurd member (noReturn quiet id sync b first)⟩
  | enter id batch sync fresh => exact ⟨_,rfl,by simp⟩
  | room force delay events bgError before writers quiet error =>
    exact ⟨events,rfl,fun id sync b first member => absurd member (noReturn quiet id sync b first)⟩
  | leave w rest status before writers outcome =>
    refine ⟨_,rfl,fun id sync b first member => ?_⟩
    injection List.mem_singleton.mp member with _ isStatus _ isBatch
    rcases outcome with ⟨-,noBatch⟩ | ⟨failed,-⟩
    · rw [noBatch] at isBatch
      cases isBatch
    · rw [failed] at isStatus
      cases isStatus
  | start w rest b batch g before writers hasBatch group numbered => exact ⟨[],(List.append_nil _).symm,by simp⟩
  | log g number before => exact ⟨_,rfl,by simp⟩
  | logLost g before failed => exact ⟨_,rfl,by simp⟩
  | logFails g before failed => exact ⟨[],(List.append_nil _).symm,by simp⟩
  | logLate g number before failed => exact ⟨_,rfl,by simp⟩
  | sync g before => exact ⟨_,rfl,by simp⟩
  | syncFails g before failed => exact ⟨[],(List.append_nil _).symm,by simp⟩
  | insert g before => exact ⟨_,rfl,by simp⟩
  | finish g status syncError events before quiet =>
    refine ⟨events ++ returns status g.batch.sequence (f.members g),List.append_assoc ..,fun id sync b first acked => ?_⟩
    have new := (List.mem_append.mp acked).resolve_left (noReturn quiet id sync b first)
    obtain ⟨members,rest,commits⟩ := queue.group g (by rw [before]; rfl)
    have split := commits.split queue.ids
    rw [Front.members,split] at new
    obtain ⟨rfl,⟨w,inside,rfl,isSync,isBatch⟩,front,back,updates,isFirst⟩ := mem_returns_updates new
    refine ⟨g,syncError,before,?_,?_,rfl,front,back,commits.updates.trans updates,isFirst⟩
    · rw [Front.members,split]
      exact mem_batchIds inside (by rw [isBatch]; rfl)
    rintro rfl
    by_contra noSync
    have := commits.sync (by simpa using noSync) w inside
    rw [isSync] at this
    cases this

/-- The group has been synced, as its leader asked for. -/
def Db.Synced (db : Db K V) (g : Group K V) : Prop :=
  leaderSync db = true ∧ (db.leader = some (.inserting g) ∨ ∃ syncError, db.leader = some (.finishing g .ok syncError))

omit [LinearOrder K] in
theorem Db.Synced.carry (synced : db'.Synced g) (leader : db'.leader = db.leader) (writers : db'.writers = db.writers) :
    db.Synced g := by
  rw [Db.Synced,leaderSync,leader,writers] at synced
  exact synced

omit [LinearOrder K] in
theorem Db.Synced.group (synced : db.Synced g) : groupOf db.leader = some g := by
  rcases synced.2 with leader | ⟨e,leader⟩ <;> rw [leader] <;> rfl

omit [LinearOrder K] in
/-- A leader that is not in a group has synced nothing. -/
theorem Db.Synced.false_of_group (synced : db.Synced g) (free : groupOf db.leader = none) : False := by
  rw [synced.group] at free
  cases free

theorem stepDb_synced (same : s.process = .running db) (queue : (s.front db).Queue)
    (step : s.stepDb o db l = some s') (running : s'.process = .running db') (synced : db'.Synced g) :
    db'.logfileNumber = db.logfileNumber ∧ (db.Synced g ∨
      db.leader = some (.syncing g) ∧ s'.disk = s.disk.updateLog db.logfileNumber LogFile.sync) := by
  cases background : l.background with
  | true =>
    obtain ⟨db'',after⟩ := background_step same background step
    rw [after.process] at running
    cases running
    exact ⟨after.same.logfileNumber,.inl (synced.carry after.same.leader after.same.writers)⟩
  | false =>
    cases l with
    | enter id batch sync =>
      simp only [State.stepDb,State.enter] at step
      split at step <;> cases step
      cases running
      refine ⟨rfl,.inl ⟨?_,synced.2⟩⟩
      obtain ⟨members,rest,commits⟩ := queue.group g synced.group
      have nonempty : db.writers ≠ [] := by
        rw [show db.writers = members ++ rest from commits.queue]
        simp [commits.nonempty]
      have isSync := synced.1
      rw [leaderSync,List.head?_append_of_ne_nil _ nonempty] at isSync
      exact isSync
    | lead =>
      simp only [State.stepDb,State.lead] at step
      split at step <;> cases step
      cases running
      exact (synced.false_of_group rfl).elim
    | makeRoom newFile close =>
      obtain ⟨force,delay,w,rest,leader,-,⟨-,rfl⟩ | ⟨-,rfl⟩ | ⟨-,-,start⟩ | rfl | ⟨-,-,-,rfl⟩⟩ := makeRoom_cases step
      · cases running
        exact (synced.false_of_group rfl).elim
      · cases running
        exact (synced.false_of_group rfl).elim
      · obtain ⟨w,rest,-,⟨-,rfl⟩ | ⟨b,-,-,rfl⟩⟩ := startGroup_cases start
        · cases running
          exact (synced.false_of_group rfl).elim
        · cases running
          rcases synced.2 with leader | ⟨e,leader⟩ <;> cases leader
      · rw [same] at running
        cases running
        exact (synced.false_of_group (by rw [leader]; rfl)).elim
      · simp only [State.switchMemTable] at running
        split at running
        · cases running
          exact (synced.false_of_group rfl).elim
        · simp only [State.recordBackgroundError] at running
          split at running <;> cases running <;> exact (synced.false_of_group rfl).elim
    | addRecord outcome =>
      have unsynced : ∀ g', ¬({ db with leader := some (db.logged g') } : Db K V).Synced g := by
        rintro g' ⟨isSync,leader⟩
        have sync : leaderSync db = true := isSync
        simp only [Db.logged,sync,if_true] at leader
        rcases leader with leader | ⟨e,leader⟩ <;> cases leader
      obtain ⟨g',-,⟨-,rfl⟩ | ⟨-,rfl⟩ | ⟨-,rfl⟩ | ⟨-,-,rfl⟩⟩ := addRecord_cases step <;> cases running
      · exact (unsynced g' synced).elim
      · rcases synced.2 with leader | ⟨e,leader⟩ <;> cases leader
      · rcases synced.2 with leader | ⟨e,leader⟩ <;> cases leader
      · exact (unsynced g' synced).elim
    | syncLog status =>
      simp only [State.stepDb,State.syncLog] at step
      split at step
      · rename_i g' leader
        split at step <;> cases step <;> cases running
        · rcases synced.2 with same | ⟨e,same⟩ <;> cases same
          exact ⟨rfl,.inr ⟨leader,rfl⟩⟩
        · rcases synced.2 with same | ⟨e,same⟩ <;> cases same
      · cases step
    | insertInto =>
      simp only [State.stepDb,State.insertInto] at step
      split at step
      · rename_i g' leader
        cases step
        cases running
        rcases synced.2 with same | ⟨e,same⟩ <;> cases same
        exact ⟨rfl,.inl ⟨synced.1,.inl leader⟩⟩
      · cases step
    | finishWrite =>
      simp only [State.stepDb,State.finishWrite] at step
      split at step
      · cases step
        cases running
        exact (synced.false_of_group rfl).elim
      · cases step
    | getSnapshot =>
      cases step
      cases running
      exact ⟨rfl,.inl synced⟩
    | releaseSnapshot snapshot =>
      cases step
      cases running
      exact ⟨rfl,.inl synced⟩
    | awaitFlush id =>
      simp only [State.stepDb,State.awaitFlush] at step
      split at step <;> cases step
      cases running
      exact ⟨rfl,.inl synced⟩
    | requestCompaction level first last =>
      simp only [State.stepDb,State.requestCompaction] at step
      split at step <;> cases step
      cases running
      exact ⟨rfl,.inl synced⟩
    | crash cut => cases step
    | openDb => cases step
    | newDb => cases step
    | recover => cases step
    | replay => cases step
    | openCommit => cases step
    | _ => cases background

/-- The record that is being synced is in its log. -/
theorem Db.Ok.syncing {m : ManifestFile K V} (disk : s.disk.Ok s.history db.versions.manifestFileNumber m)
    (ok : db.Ok s.disk s.history m) (leader : db.leader = some (.syncing g)) :
    (db.logfileNumber,g.batch) ∈ s.history ∧ ∃ l ∈ s.disk.logs, l.number = db.logfileNumber ∧ g.batch ∈ l.records := by
  obtain ⟨applied,split,-⟩ := ok.memory.applied
  have member : (db.logfileNumber,g.batch) ∈ s.history := by
    rw [split]
    simp [Db.pending,leader]
  obtain ⟨l,isLog,number⟩ := ok.logged
  refine ⟨member,l,isLog,number,?_⟩
  have whole := disk.whole l isLog (by rw [upTo_length,number]; exact ok.live)
  have inside : (l.number,g.batch) ∈ l.records.map (l.number,·) := by
    rw [whole,number]
    exact List.mem_filter.mpr ⟨member,by simp⟩
  obtain ⟨b,isBatch,same⟩ := List.mem_map.mp inside
  rwa [← (Prod.mk.inj same).2]

/-- What was acknowledged to sync callers stays, and so does what is about to be. -/
structure State.Durable (s : State K V) : Prop where
  acked : ∀ id first b, .returned id .ok true (some b) first ∈ s.trace → ∃ r, s.Keeps r ∧
    (∃ front back, r.2.updates = front ++ b.updates ++ back ∧ first = r.2.sequence + front.length) ∧
    ∀ db, s.process = .running db → ∀ e ∈ r.2.entries, e.sequence ≤ db.versions.lastSequence
  queue : ∀ db, s.process = .running db → (s.front db).Queue
  synced : ∀ db g, s.process = .running db → db.Synced g → s.Keeps (db.logfileNumber,g.batch)

omit [LinearOrder K] in
theorem writeTable_trace (s : State K V) (n : Nat) (entries : MemTable K V) :
    ∃ events, (s.writeTable n entries).trace = s.trace ++ events ∧ ∀ e ∈ events, e.quiet = true := by
  rw [State.writeTable]
  split
  · exact ⟨[],(List.append_nil _).symm,by simp⟩
  · exact ⟨[.created (.table n)],rfl,by simp [Event.quiet,Event.background]⟩

/-- `DB::Open` notes the files it creates. -/
theorem stepOpen_trace (step : s.stepOpen o l = some s') :
    ∃ events, s'.trace = s.trace ++ events ∧ ∀ e ∈ events, e.quiet = true := by
  have nothing : ∀ {t : State K V}, t.trace = s.trace →
      ∃ events, t.trace = s.trace ++ events ∧ ∀ e ∈ events, e.quiet = true :=
    fun same => ⟨[],by rw [same,List.append_nil],by simp⟩
  have created : ∀ {t : State K V} (f : FileName), t.trace = s.trace ++ [.created f] →
      ∃ events, t.trace = s.trace ++ events ∧ ∀ e ∈ events, e.quiet = true :=
    fun f same => ⟨[.created f],same,by simp [Event.quiet,Event.background]⟩
  have setCurrent : ∀ {number : Nat} (op : SetCurrent),
      ∃ events, (State.setCurrentFile s number op).trace = s.trace ++ events ∧ ∀ e ∈ events, e.quiet = true := by
    intro number op
    obtain ⟨events,trace,isCreate⟩ := @State.setCurrentFile_trace K V s number op
    refine ⟨events,trace,fun e member => ?_⟩
    rw [(isCreate e member).2]
    rfl
  cases l with
  | openDb =>
    simp only [State.stepOpen,State.openDb] at step
    split at step
    · cases step
      split
      · exact nothing rfl
      · exact created _ rfl
    · cases step
  | newDb =>
    simp only [State.stepOpen,State.newDb] at step
    split at step <;> cases step
    · exact nothing rfl
    · exact setCurrent _
  | recover =>
    simp only [State.stepOpen,State.recover] at step
    split at step
    · cases step
      split
      · exact nothing rfl
      · split <;> exact nothing rfl
    · cases step
  | replay =>
    obtain ⟨r,process,outcome⟩ := replay_cases step
    obtain ⟨n,table,rfl⟩ | ⟨n,table,rfl⟩ | ⟨b,rest,table,records,rfl⟩ | ⟨table,-,-,rfl⟩ | ⟨n,rest,table,records,mem,logs,rfl⟩ |
      ⟨table,-,mem,logs,rfl⟩ := outcome
    · exact writeTable_trace _ _ _
    · exact nothing rfl
    · exact nothing rfl
    · exact nothing rfl
    · exact nothing rfl
    · exact created _ rfl
  | openCommit =>
    simp only [State.stepOpen,State.openCommit] at step
    split at step
    · split at step <;> cases step
      · exact created _ rfl
      · exact nothing rfl
      · exact nothing rfl
      · exact setCurrent _
      · refine nothing ?_
        rw [State.removeObsoleteFiles]
        split <;> rfl
    · cases step
  | _ => cases step

omit [LinearOrder K] in
theorem Front.Step.last_le {f f' : Front K V} {fails : Bool} (queue : f.Queue) (step : f.Step o fails f') :
    f.last ≤ f'.last := by
  cases step with
  | finish g status syncError events before quiet =>
    obtain ⟨members,rest,commits⟩ := queue.group g (by rw [before]; rfl)
    exact commits.count ▸ Nat.le_add_right _ _
  | _ => exact le_rfl

/-- A database that was just opened has all of its history in tables. -/
theorem Db.Quiescent.bounded {m : ManifestFile K V} (quiescent : db.Quiescent) (ok : db.Ok s.disk s.history m)
    {r : Nat × WriteBatch K V} (member : r ∈ s.history) : ∀ e ∈ r.2.entries, e.sequence ≤ db.versions.lastSequence := by
  obtain ⟨applied,split,-,bounded⟩ := ok.memory.applied
  simp only [Db.pending,Db.lastApplied,quiescent.leader,List.append_nil] at split bounded
  intro e inside
  exact bounded e (mem_history_set.mpr ⟨r,split ▸ member,inside⟩)

theorem State.Durable.stepDb (durable : s.Durable) (inv : s.Inv) (process : s.process = .running db)
    (step : s.step o l = some s') (taken : s.stepDb o db l = some s') : s'.Durable := by
  obtain ⟨db',running,front⟩ := front_step process taken
  have queue := durable.queue db process
  have only : ∀ db'', s'.process = .running db'' → db'' = db' := fun db'' now => by
    rw [running] at now
    cases now
    rfl
  obtain ⟨events,trace,acks⟩ := front.acks queue
  refine ⟨fun id first b acked => ?_,?_,?_⟩
  · rw [show s'.trace = s.trace ++ events from trace] at acked
    rcases List.mem_append.mp acked with old | new
    · obtain ⟨r,keeps,part,bounded⟩ := durable.acked id first b old
      refine ⟨r,keeps.step inv step,part,fun db'' now e inside => ?_⟩
      rw [only db'' now]
      exact (bounded db process e inside).trans (front.last_le queue)
    · -- the leader of the group has synced, so its record is kept
      obtain ⟨g,e,leader,-,isSync,last,front',back,updates,isFirst⟩ := acks id true b first new
      have keeps := durable.synced db g process ⟨isSync rfl,.inr ⟨e,leader⟩⟩
      refine ⟨(db.logfileNumber,g.batch),keeps.step inv step,⟨front',back,updates,isFirst⟩,fun db'' now a inside => ?_⟩
      rw [only db'' now]
      obtain ⟨members,rest,commits⟩ := queue.group g (by rw [show (s.front db).leader = _ from leader]; rfl)
      have isLast : db'.versions.lastSequence = g.lastSequence := last
      rw [isLast,commits.count]
      exact (batch_sequence_lt commits.first inside).2
  · intro db'' now
    rw [only db'' now]
    exact queue.step front
  · intro db'' g now synced
    obtain ⟨sameLog,old | ⟨leader,disk⟩⟩ := stepDb_synced process queue taken now synced
    · rw [sameLog]
      exact (durable.synced db g process old).step inv step
    · obtain ⟨m,diskOk,ok⟩ := inv.running process
      obtain ⟨member,x,isLog,number,inside⟩ := ok.syncing diskOk leader
      rw [sameLog]
      refine ⟨front.history.subset member,fun k m' _ _ _ => ?_⟩
      rw [disk]
      refine ⟨x.sync,List.mem_map.mpr ⟨x,isLog,if_pos number⟩,number,?_⟩
      show g.batch ∈ x.records.take x.records.length
      rwa [List.take_length]

theorem State.Durable.step (durable : s.Durable) (inv : s.Inv) (inv' : s'.Inv) (step : s.step o l = some s') :
    s'.Durable := by
  obtain ⟨cut,rfl,rfl⟩ | ⟨db,process,taken⟩ | ⟨closed,opening⟩ := step_cases step
  · refine ⟨fun id first b acked => ?_,?_,?_⟩
    · obtain ⟨r,keeps,part,-⟩ := durable.acked id first b acked
      exact ⟨r,keeps.step inv step,part,by rintro _ ⟨⟩⟩
    · rintro _ ⟨⟩
    · rintro _ _ ⟨⟩
  · exact durable.stepDb inv process step taken
  · obtain ⟨events,trace,quiet⟩ := stepOpen_trace opening
    refine ⟨fun id first b acked => ?_,fun db process => ?_,fun db g process synced => ?_⟩
    · rw [trace] at acked
      have old := (List.mem_append.mp acked).resolve_right fun new => by cases quiet _ new
      obtain ⟨r,keeps,part,-⟩ := durable.acked id first b old
      have kept := keeps.step inv step
      refine ⟨r,kept,part,fun db process => ?_⟩
      obtain ⟨m,-,ok⟩ := inv'.running process
      exact (stepOpen_quiescent opening process).bounded ok kept.member
    · exact (stepOpen_quiescent opening process).queue s'
    · have leader := (stepOpen_quiescent opening process).leader
      exact (synced.false_of_group (by rw [leader]; rfl)).elim

theorem durable_of_run {ls : List (Label K V)} (okay : ∀ l ∈ ls, l.ok = true)
    (automatic : ∀ l ∈ ls, l.automatic = true) (run : State.initial.run o ls = some s) : s.Durable := by
  have start : (State.initial : State K V).Durable := ⟨by rintro _ _ _ ⟨⟩,by rintro _ ⟨⟩,by rintro _ _ ⟨⟩⟩
  exact (State.Regular.initial.run start okay automatic run fun l _ t t' before after step durable =>
    durable.step before.inv after.inv step).2

/-- Every update of a synced write that was acknowledged, before any number of crashes, is
in the database: `Get` returns it, or a later update of the same key. -/
theorem synced_durable {ls : List (Label K V)} (okay : ∀ l ∈ ls, l.ok = true)
    (automatic : ∀ l ∈ ls, l.automatic = true) (run : State.initial.run o ls = some s)
    (running : s.process = .running db) {id first : Nat} {b : WriteBatch K V}
    (acked : .returned id .ok true (some b) first ∈ s.trace) :
    ∀ e ∈ (⟨first,b.updates⟩ : WriteBatch K V).entries, e ∈ s.history.set ∧
      ∃ e', IsNewest s.history.set e.userKey db.versions.lastSequence e' ∧
        db.get s.disk.table e.userKey db.versions.lastSequence = e'.value ∧
        (e' = e ∨ e.sequence < e'.sequence) := by
  obtain ⟨r,keeps,⟨front,back,updates,isFirst⟩,bounded⟩ := (durable_of_run okay automatic run).acked id first b acked
  intro e member
  have inside : e ∈ r.2.entries := WriteBatch.mem_entries_of_part updates isFirst member
  have isStored : e ∈ s.history.set := mem_history_set.mpr ⟨r,keeps.member,inside⟩
  have visible := bounded db running e inside
  have reads := get_reads_history okay automatic run running e.userKey db.versions.lastSequence (.inl rfl)
  refine ⟨isStored,?_⟩
  rcases reads with ⟨e',newest,value⟩ | ⟨absent,-⟩
  · refine ⟨e',newest,value.symm,?_⟩
    have le := newest.newest e isStored rfl visible
    rcases Nat.eq_or_lt_of_le le with same | later
    · have ordered := (inv_of_run okay automatic run).ordered
      exact .inl (ordered.distinct e' newest.member e isStored newest.same same.symm)
    · exact .inr later
  · exact absurd visible (absent e isStored rfl)

/-- A sync leader takes a caller that does not sync into its group, and a later write is not
synced; a crash loses that write, and another one cuts the recovery short. -/
def syncedRun : List (Label Nat Nat) :=
  openRun ++ [.enter 1 (some ⟨0,[(1,some 1)]⟩) true,.enter 2 (some ⟨0,[(2,some 2)]⟩) false,.lead,.makeRoom .ok .ok,
    .addRecord .ok,.syncLog .ok,.insertInto,.finishWrite] ++ writeRun 3 [(1,some 3)] false 1 ++
    [.crash fun _ => 0,.openDb,.recover,.replay,.replay,.replay] ++ crashRun (fun _ => 0) 6

def Event.syncAck : Event K V → Option (Nat × Nat × WriteBatch K V)
  | .returned id .ok true (some b) first => some (id,first,b)
  | _ => none

theorem synced_durable_twice : ∃ s db, State.initial.run smallOptions syncedRun = some s ∧ s.process = .running db ∧
    ∃ e, IsNewest s.history.set 1 db.versions.lastSequence e ∧
      db.get s.disk.table 1 db.versions.lastSequence = e.value ∧ db.mem = [] := by
  obtain ⟨s,db,run,running,found⟩ := exists_run smallOptions syncedRun
    (fun s db => decide (db.mem = [] ∧ s.trace.filterMap Event.syncAck = [(1,1,⟨0,[(1,some 1)]⟩)])) (by decide +kernel)
  obtain ⟨empty,acks⟩ := of_decide_eq_true found
  obtain ⟨e,member,isAck⟩ := List.mem_filterMap.mp (acks ▸ List.mem_singleton_self _)
  have isReturn : e = .returned 1 .ok true (some ⟨0,[(1,some 1)]⟩) 1 := by
    cases e with
    | returned id status sync batch first =>
      cases status <;> cases sync <;> cases batch <;> cases isAck
      rfl
    | _ => cases isAck
  rw [isReturn] at member
  obtain ⟨-,e',newest,value,-⟩ := synced_durable (by decide) (by decide) run running member ⟨1,1,some 1⟩
    (by decide)
  exact ⟨s,db,run,running,e',newest,value,empty⟩

end Acks

end LevelDB
