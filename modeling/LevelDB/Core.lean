import LevelDB.Steps
import LevelDB.InvariantBackground

/-! An open database without its queue of writers: the files, the memtables, the version
set and the background thread. What a step of the database does to these, also where its
I/O fails, is one step or two here; whether a file is needed and which sequence numbers
are in use can be told from them. -/
namespace LevelDB

variable {K V : Type} [LinearOrder K]

structure Core (K V : Type) where
  disk : Disk K V
  mem : MemTable K V
  imm : Option (MemTable K V)
  logfileNumber : Nat
  versions : VersionSet K
  /-- The batch of the leader from `BuildBatchGroup` to `SetLastSequence`. -/
  group : Option (Group K V)
  job : Job K V
  pendingOutputs : List Nat
  bgError : Bool

def Db.core (db : Db K V) (d : Disk K V) : Core K V :=
  ⟨d,db.mem,db.imm,db.logfileNumber,db.versions,groupOf db.leader,db.job,db.pendingOutputs,db.bgError⟩

/-- What `RemoveObsoleteFiles` may choose to delete while versions in `held` are referenced. -/
structure Core.Chooses (c : Core K V) (held : List (Version K)) (outer : Option (CompactionState K V))
    (doomed : FileName → Bool) : Prop where
  log : ∀ n, doomed (.log n) → n < c.versions.logNumber ∧ n ≠ c.versions.prevLogNumber
  manifest : ∀ n, doomed (.manifest n) → n < c.versions.manifestFileNumber
  currentFile : doomed .current = false
  current : ∀ n, doomed (.table n) → n ∉ c.versions.current.numbers
  held : ∀ n, doomed (.table n) → ∀ v ∈ held, n ∉ v.numbers
  pending : ∀ n, doomed (.table n) → n ∉ c.pendingOutputs
  outer : ∀ n, doomed (.table n) → ∀ s, outer = some s → n ∉ s.compaction.inputVersion.numbers

/-- The edit of a memtable flush. -/
structure VersionEdit.Flushes (o : Options K V) (e : VersionEdit K) (number level log : Nat)
    (imm : MemTable K V) : Prop where
  log : e.logNumber = some log
  prev : e.prevLogNumber = some 0
  deleted : e.deletedFiles = []
  new : e.newFiles = (outputFile o number imm).toList.map (level,·)
  level : level < kNumLevels

def Job.flushes : Job K V → Bool
  | .commitFlush _ _ => true
  | _ => false

/-- The outputs of the compaction whose edit is committed. -/
def Job.outputs : Job K V → List Nat
  | .commitCompaction s _ => s.outputs.map (·.1)
  | _ => []

/-- One step. `loose` allows the manifest to fail; `held` are the versions of readers. -/
inductive Core.Step (o : Options K V) (loose : Bool) (held : List (Version K)) :
    Core K V → Core K V → Prop
  | error {c : Core K V} : Step o loose held c { c with bgError := true }
  | start {c : Core K V} (g : Group K V) (free : c.group = none)
    (first : g.batch.sequence = c.versions.lastSequence + 1)
    (last : g.lastSequence = c.versions.lastSequence + g.batch.count) :
    Step o loose held c { c with group := some g }
  | switch {c : Core K V} (free : c.group = none) (noImm : c.imm = none) :
    Step o loose held c { c with
      disk := c.disk.newLog c.versions.nextFileNumber
      mem := []
      imm := some c.mem
      logfileNumber := c.versions.nextFileNumber
      versions := { c.versions with nextFileNumber := c.versions.nextFileNumber + 1 } }
  | log {c : Core K V} {g : Group K V} (group : c.group = some g) :
    Step o loose held c { c with disk := c.disk.updateLog c.logfileNumber (LogFile.append g.batch) }
  | syncLog {c : Core K V} :
    Step o loose held c { c with disk := c.disk.updateLog c.logfileNumber LogFile.sync }
  | insert {c : Core K V} {g : Group K V} (group : c.group = some g) :
    Step o loose held c { c with mem := g.batch.insertInto c.mem }
  | finish {c : Core K V} {g : Group K V} (group : c.group = some g) :
    Step o loose held c { c with
      versions := { c.versions with lastSequence := g.lastSequence }
      group := none }
  | beginFlush {c : Core K V} {outer : Option (CompactionState K V)} (job : c.job = .resume outer)
    (someImm : c.imm.isSome) :
    Step o loose held c { c with
      versions := { c.versions with nextFileNumber := c.versions.nextFileNumber + 1 }
      job := .flush c.versions.nextFileNumber .write outer
      pendingOutputs := c.versions.nextFileNumber :: c.pendingOutputs }
  | writeTable {c : Core K V} {n : Nat} {outer : Option (CompactionState K V)} {imm : MemTable K V}
    (job : c.job = .flush n .write outer) (isImm : c.imm = some imm) :
    Step o loose held c { c with
      disk := c.disk.withTable n imm false
      job := .flush n .sync outer }
  | syncTable {c : Core K V} {n level : Nat} {outer : Option (CompactionState K V)} {imm : MemTable K V}
    {e : VersionEdit K} (job : c.job = .flush n .sync outer) (isImm : c.imm = some imm)
    (flushes : e.Flushes o n level c.logfileNumber imm) :
    Step o loose held c { c with
      disk := c.disk.withTable n imm true
      job := .commitFlush (c.versions.logAndApply e) outer
      pendingOutputs := c.pendingOutputs.erase n }
  | flushFails {c : Core K V} {n : Nat} {stage : BuildStage} {outer : Option (CompactionState K V)}
    (job : c.job = .flush n stage outer) :
    Step o loose held c { c with
      disk := c.disk.remove (.table n)
      job := .resume outer
      pendingOutputs := c.pendingOutputs.erase n
      bgError := true }
  | move {c : Core K V} {x : Compaction K} {f : FileMetaData K} {pointer : Nat → Option (InternalKey K)}
    (job : c.job = .idle) (fine : c.bgError = false) (within : x.Within c.versions.current)
    (single : x.inputs0 = [f]) :
    Step o loose held c { c with
      versions := { c.versions with compactPointer := pointer }
      job := .move (c.versions.logAndApply x.moveEdit) }
  | compact {c : Core K V} {x : Compaction K} {isManual : Bool} {snapshot : Nat}
    {pointer : Nat → Option (InternalKey K)} (job : c.job = .idle) (within : x.Within c.versions.current) :
    Step o loose held c { c with
      versions := { c.versions with compactPointer := pointer }
      job := .compact (.start x isManual snapshot c.disk.table) }
  | advance {c : Core K V} {x : CompactionState K V} (job : c.job = .compact x) (more : x.remaining ≠ []) :
    Step o loose held c { c with
      disk := (if (x.advance o c.versions.nextFileNumber).2
        then c.disk.setTable c.versions.nextFileNumber ⟨[],false⟩ else c.disk).setTables
          ((x.advance o c.versions.nextFileNumber).1.outputs.drop x.outputs.length)
      versions := if (x.advance o c.versions.nextFileNumber).2
        then { c.versions with nextFileNumber := c.versions.nextFileNumber + 1 } else c.versions
      job := .compact (x.advance o c.versions.nextFileNumber).1
      pendingOutputs := if (x.advance o c.versions.nextFileNumber).2
        then c.versions.nextFileNumber :: c.pendingOutputs else c.pendingOutputs }
  | finishCompaction {c : Core K V} {x : CompactionState K V} (job : c.job = .compact x)
    (done : x.remaining = []) :
    Step o loose held c { c with
      disk := c.disk.setTables x.building.toList
      job := .commitCompaction x.finishOutput (c.versions.logAndApply (x.finishOutput.edit o)) }
  | compactionFails {c : Core K V} {x : CompactionState K V}
    (job : c.job = .compact x ∨ loose = true ∧ ∃ commit, c.job = .commitCompaction x commit) :
    Step o loose held c { c with
      job := .idle
      pendingOutputs := c.pendingOutputs.filter fun n => decide (n ∉ x.finishOutput.outputs.map (·.1))
      bgError := true }
  | appendManifest {c : Core K V} {commit : Commit K} {r : ManifestRecord K V}
    (isCommit : c.job.commit = some commit) (stage : commit.stage = .append) (edit : r.edit = commit.edit) :
    Step o loose held c { c with
      disk := c.disk.updateManifest c.versions.manifestFileNumber (ManifestFile.append r)
      job := c.job.setCommit { commit with stage := .sync } }
  | syncManifest {c : Core K V} {commit : Commit K} (isCommit : c.job.commit = some commit)
    (stage : commit.stage = .sync) :
    Step o loose held c { c with
      disk := c.disk.updateManifest c.versions.manifestFileNumber ManifestFile.sync
      job := c.job.setCommit { commit with stage := .install } }
  | commitFails {c : Core K V} {commit : Commit K} (allowed : loose = true)
    (isCommit : c.job.commit = some commit) (outputs : c.job.outputs = []) :
    Step o loose held c { c with
      job := .resume c.job.outer
      bgError := true }
  | install {c : Core K V} {commit : Commit K} (isCommit : c.job.commit = some commit)
    (stage : commit.stage = .install) :
    Step o loose held c { c with
      imm := if c.job.flushes then none else c.imm
      versions := c.versions.install commit
      job := .resume c.job.outer
      pendingOutputs := c.pendingOutputs.filter fun n => decide (n ∉ c.job.outputs) }
  | collect {c : Core K V} {outer : Option (CompactionState K V)} {doomed : FileName → Bool}
    (job : c.job = .resume outer) (fine : c.bgError = false) (chooses : c.Chooses held outer doomed) :
    Step o loose held c { c with job := .remove doomed outer }
  | removeFile {c : Core K V} {outer : Option (CompactionState K V)} {doomed : FileName → Bool} {f : FileName}
    (job : c.job = .remove doomed outer) (isDoomed : doomed f) :
    Step o loose held c { c with disk := c.disk.remove f }
  | removeDone {c : Core K V} {outer : Option (CompactionState K V)} {doomed : FileName → Bool}
    (job : c.job = .remove doomed outer) :
    Step o loose held c { c with job := .resume outer }

/-- The I/O of the step on the manifest does not fail. -/
def Label.manifestOk : Label K V → Bool
  | .appendManifest status => status == .ok
  | .syncManifest status => status == .ok
  | _ => true

section Simulation
variable {o : Options K V} {loose : Bool} {held : List (Version K)} {s s' : State K V} {db : Db K V}

/-- The steps lead from the core of a database to that of the next state. -/
def Core.Leads (o : Options K V) (loose : Bool) (held : List (Version K)) (c : Core K V) (s : State K V) : Prop :=
  ∃ db, s.process = .running db ∧ Relation.ReflTransGen (Core.Step o loose held) c (db.core s.disk)

theorem Core.Leads.one {c : Core K V} (running : s.process = .running db)
    (step : Core.Step o loose held c (db.core s.disk)) : Core.Leads o loose held c s :=
  ⟨db,running,.single step⟩

theorem Core.Leads.still {c : Core K V} (running : s.process = .running db) (same : db.core s.disk = c) :
    Core.Leads o loose held c s :=
  ⟨db,running,by rw [same]⟩

theorem Core.Leads.head {c c' : Core K V} (step : Core.Step o loose held c c')
    (leads : Core.Leads o loose held c' s) : Core.Leads o loose held c s := by
  obtain ⟨db,running,steps⟩ := leads
  exact ⟨db,running,.head step steps⟩

omit [LinearOrder K] in
theorem recordBackgroundError_core (s : State K V) (db : Db K V) :
    ∃ db', (s.recordBackgroundError db).process = .running db' ∧
      db'.core (s.recordBackgroundError db).disk = { db.core s.disk with bgError := true } := by
  rw [State.recordBackgroundError]
  split
  · rename_i error
    refine ⟨db,rfl,?_⟩
    simp only [Db.core,error]
    rfl
  · exact ⟨_,rfl,rfl⟩

theorem failCompaction_leads (s : State K V) (db : Db K V) {x : CompactionState K V}
    (job : db.job = .compact x ∨ loose = true ∧ ∃ commit, db.job = .commitCompaction x commit) :
    Core.Leads o loose held (db.core s.disk) (s.failCompaction db x) := by
  obtain ⟨db',running,core⟩ := recordBackgroundError_core s { db.cleanup x.finishOutput with job := .idle }
  exact .one running (core ▸ .compactionFails (c := db.core s.disk) job)

theorem failCommit_leads (s : State K V) (db : Db K V) (allowed : loose = true) {commit : Commit K}
    (isCommit : db.job.commit = some commit) :
    Core.Leads o loose held (db.core s.disk) (s.failCommit db) := by
  rw [State.failCommit]
  split
  · rename_i commit' outer job
    obtain ⟨db',running,core⟩ := recordBackgroundError_core s { db with job := .resume outer }
    have outerIs : db.job.outer = outer := by rw [job]; rfl
    refine .one running (core ▸ ?_)
    have step : Core.Step o loose held (db.core s.disk) _ := .commitFails allowed isCommit
      (by simp [Db.core,job,Job.outputs])
    simpa only [Db.core,outerIs] using step
  · rename_i x commit' job
    exact failCompaction_leads s db (.inr ⟨allowed,commit',job⟩)
  · rename_i notFlush notCompaction
    obtain ⟨db',running,core⟩ := recordBackgroundError_core s { db with job := .idle }
    refine .one running (core ▸ ?_)
    cases job : db.job with
    | move commit' =>
      have step : Core.Step o loose held (db.core s.disk) _ := .commitFails allowed isCommit
        (by simp [Db.core,job,Job.outputs])
      simpa only [Db.core,job,Job.outer,Job.resume] using step
    | commitFlush commit' outer => exact absurd job (notFlush commit' outer)
    | commitCompaction x commit' => exact absurd job (notCompaction x commit')
    | _ => simp [job,Job.commit] at isCommit

theorem startGroup_leads (free : groupOf db.leader = none)
    (step : s.startGroup o db = some s') : Core.Leads o loose held (db.core s.disk) s' := by
  obtain ⟨w,rest,-,⟨-,rfl⟩ | ⟨b,-,-,rfl⟩⟩ := startGroup_cases step
  · exact .still rfl (by simp only [Db.core,free]; rfl)
  · refine .one rfl ?_
    set g := buildBatchGroup o db.tmpBatch.updates w b rest
    set batch : WriteBatch K V := ⟨db.versions.lastSequence + 1,g.updates⟩
    have step : Core.Step o loose held (db.core s.disk) _ :=
      .start ⟨batch,g.lastWriter,g.inTmp,db.versions.lastSequence + batch.count⟩ free rfl rfl
    split <;> exact step

omit [LinearOrder K] in
/-- What `RemoveObsoleteFiles` chooses. -/
theorem obsoleteFiles_chooses (s : State K V) (db : Db K V) (outer : Option (CompactionState K V))
    (pinned : Nat → Bool) (pins : ∀ v ∈ held, ∀ n ∈ v.numbers, pinned n = true) :
    (db.core s.disk).Chooses held outer (s.obsoleteFiles db outer pinned) := by
  have inVersion : ∀ (v : Version K) n, ((List.range kNumLevels).any fun level =>
      (v.files level).any fun f => f.number == n) = false → n ∉ v.numbers := by
    intro v n none member
    simp only [Version.numbers,List.mem_flatMap,List.mem_map] at member
    obtain ⟨level,shallow,f,hf,same⟩ := member
    rw [List.any_eq_false] at none
    have here := none level shallow
    rw [Bool.not_eq_true,List.any_eq_false] at here
    exact here f hf (by simpa using same)
  have table : ∀ n, s.obsoleteFiles db outer pinned (.table n) →
      n ∉ db.versions.current.numbers ∧ pinned n = false ∧ n ∉ db.pendingOutputs ∧
        ∀ x, outer = some x → n ∉ x.compaction.inputVersion.numbers := by
    intro n doomed
    simp only [State.obsoleteFiles,Bool.and_eq_true,Bool.not_eq_true',Bool.or_eq_false_iff,
      decide_eq_false_iff_not] at doomed
    obtain ⟨-,⟨⟨current,free⟩,pending⟩,outside⟩ := doomed
    refine ⟨inVersion _ n current,free,pending,?_⟩
    rintro x rfl
    exact inVersion _ n outside
  refine ⟨?_,?_,Bool.and_false _,fun n hn => (table n hn).1,?_,fun n hn => (table n hn).2.2.1,fun n hn => (table n hn).2.2.2⟩
  · intro n doomed
    simp only [State.obsoleteFiles,Bool.and_eq_true,decide_eq_true_eq] at doomed
    exact doomed.2
  · intro n doomed
    simp only [State.obsoleteFiles,Bool.and_eq_true,decide_eq_true_eq] at doomed
    exact doomed.2
  · intro n hn v hv member
    have := pins v hv n member
    rw [(table n hn).2.1] at this
    cases this

theorem removeObsoleteFiles_leads (s : State K V) (db : Db K V) (outer : Option (CompactionState K V))
    (pinned : Nat → Bool) (pins : ∀ v ∈ held, ∀ n ∈ v.numbers, pinned n = true) :
    Core.Leads o loose held { db.core s.disk with job := .resume outer }
      (s.removeObsoleteFiles db outer pinned) := by
  rw [State.removeObsoleteFiles]
  split
  · exact .still rfl rfl
  · rename_i fine
    have chooses := obsoleteFiles_chooses s db outer pinned pins
    exact .one rfl (.collect rfl (by simpa [Db.core] using fine)
      ⟨chooses.log,chooses.manifest,chooses.currentFile,chooses.current,chooses.held,chooses.pending,chooses.outer⟩)

theorem makeRoom_leads (same : s.process = .running db) {newFile close : Status}
    (step : s.makeRoom o db newFile close = some s') : Core.Leads o loose held (db.core s.disk) s' := by
  obtain ⟨force,delay,w,rest,leader,-,outcome⟩ := makeRoom_cases step
  have free : groupOf db.leader = none := by rw [leader]; rfl
  obtain ⟨-,rfl⟩ | ⟨-,rfl⟩ | ⟨-,-,start⟩ | rfl | ⟨-,noImm,-,rfl⟩ := outcome
  · exact .still rfl (by simp only [Db.core,free]; rfl)
  · exact .still rfl (by simp only [Db.core,free]; rfl)
  · exact startGroup_leads free start
  · exact .still same rfl
  · have switch : Core.Step o loose held (db.core s.disk) _ := .switch free noImm
    simp only [State.switchMemTable]
    refine .head switch ?_
    split
    · exact .still rfl (by simp only [Db.core,free]; rfl)
    · obtain ⟨db',running,core⟩ := recordBackgroundError_core
        ({ s with disk := s.disk.newLog db.versions.nextFileNumber }.note (.created (.log db.versions.nextFileNumber)))
        { db with
          versions := { db.versions with nextFileNumber := db.versions.nextFileNumber + 1 }
          logfileNumber := db.versions.nextFileNumber
          imm := some db.mem
          mem := []
          leader := some (.room false delay)
          logTorn := false }
      refine .one running (core ▸ ?_)
      simp only [Db.core,free]
      exact .error

/-- A leader's steps, a failure to write the log included. -/
theorem writer_leads (same : s.process = .running db) {l : Label K V} (writer : l.background = false)
    (step : s.stepDb o db l = some s') : Core.Leads o loose held (db.core s.disk) s' := by
  cases l with
  | enter id batch sync =>
    simp only [State.stepDb,State.enter] at step
    split at step
    · cases step
    · cases step
      exact .still rfl rfl
  | lead =>
    simp only [State.stepDb,State.lead] at step
    split at step
    · rename_i leader writers
      cases step
      exact .still rfl (by simp only [Db.core,leader]; rfl)
    · cases step
  | makeRoom newFile close => exact makeRoom_leads same step
  | addRecord outcome =>
    obtain ⟨g,leader,taken⟩ := addRecord_cases step
    have log : Core.Step o loose held (db.core s.disk) _ := .log (g := g) (by simp [Db.core,leader])
    have core : ∀ (next : Leader K V) torn d, groupOf (some next) = some g →
        Db.core { db with leader := some next, logTorn := torn } d = { db.core s.disk with disk := d } := by
      intro next torn d same
      rw [Db.core,Db.core,leader,same]
      rfl
    obtain ⟨-,rfl⟩ | ⟨-,rfl⟩ | ⟨-,rfl⟩ | ⟨-,-,rfl⟩ := taken
    · exact .one rfl ((core (db.logged g) db.logTorn _ (groupOf_logged db g)).symm ▸ log)
    · exact .one rfl ((core (.finishing g .ioError false) db.logTorn _ rfl).symm ▸ log)
    · exact .still rfl (core _ true _ rfl)
    · -- the memtable gets the batch all the same
      exact .still rfl (core _ db.logTorn _ (groupOf_logged db g))
  | syncLog status =>
    simp only [State.stepDb,State.syncLog] at step
    split at step
    · rename_i g leader
      split at step
      · cases step
        have sync : Core.Step o loose held (db.core s.disk) _ := .syncLog
        refine .one rfl ?_
        simp only [Db.core,leader,groupOf] at sync ⊢
        exact sync
      · cases step
        exact .still rfl (by simp only [Db.core,leader]; rfl)
    · cases step
  | insertInto =>
    simp only [State.stepDb,State.insertInto] at step
    split at step
    · rename_i g leader
      cases step
      have insert : Core.Step o loose held (db.core s.disk) _ := .insert (g := g) (by simp [Db.core,leader])
      refine .one rfl ?_
      simp only [Db.core,leader,groupOf] at insert ⊢
      exact insert
    · cases step
  | finishWrite =>
    simp only [State.stepDb,State.finishWrite] at step
    split at step
    · rename_i g status syncError leader
      cases step
      have finish : Core.Step o loose held (db.core s.disk) _ := .finish (g := g) (by simp [Db.core,leader])
      cases syncError with
      | false =>
        refine .one rfl ?_
        simp only [Bool.or_false] at finish ⊢
        exact finish
      | true =>
        have noted : (if (true && !db.bgError) = true then s.note .errorRecorded else s).disk = s.disk := by
          split <;> rfl
        refine .head finish (.one rfl ?_)
        simp only [State.release,State.setDb,noted,Bool.or_true]
        exact .error
    · cases step
  | getSnapshot =>
    cases step
    exact .still rfl rfl
  | releaseSnapshot snapshot =>
    cases step
    exact .still rfl rfl
  | awaitFlush id =>
    simp only [State.stepDb,State.awaitFlush] at step
    split at step
    · cases step
      exact .still rfl rfl
    · cases step
  | requestCompaction level first last =>
    simp only [State.stepDb,State.requestCompaction] at step
    split at step
    · cases step
      exact .still rfl rfl
    · cases step
  | crash cut => cases step
  | openDb => cases step
  | newDb => cases step
  | recover => cases step
  | replay => cases step
  | openCommit => cases step
  | _ => cases writer

theorem flushEdit_flushes (o : Options K V) (db : Db K V) (n : Nat) (imm : MemTable K V) :
    ∃ level, (flushEdit o db n imm).Flushes o n level db.logfileNumber imm := by
  simp only [flushEdit]
  cases isFile : outputFile o n imm with
  | none => exact ⟨0,rfl,rfl,rfl,by rw [isFile]; rfl,by decide⟩
  | some f => exact ⟨_,rfl,rfl,rfl,by rw [isFile]; rfl,pickLevel_lt _ o _ _⟩

theorem buildTable_leads {status : Status}
    (step : s.buildTable o db status = some s') : Core.Leads o loose held (db.core s.disk) s' := by
  simp only [State.buildTable] at step
  split at step
  · rename_i n stage outer imm job isImm
    split at step
    · cases step
      obtain ⟨db',running,core⟩ := recordBackgroundError_core
        { s with disk := s.disk.remove (.table n) } { db with
          pendingOutputs := db.pendingOutputs.erase n
          job := .resume outer }
      exact .one running (core ▸ .flushFails (c := db.core s.disk) job)
    split at step
    · cases step
      have write : Core.Step o loose held (db.core s.disk) _ := .writeTable job isImm
      refine .one (State.writeTable_process _ _ _) ?_
      rw [State.writeTable_disk]
      exact write
    · cases step
      obtain ⟨level,flushes⟩ := flushEdit_flushes o db n imm
      have sync : Core.Step o loose held (db.core s.disk) _ := .syncTable job isImm flushes
      refine .one rfl ?_
      rw [withTable_eq]
      exact sync
  · cases step

theorem beginFlush_leads (step : s.beginFlush db = some s') :
    Core.Leads o loose held (db.core s.disk) s' := by
  simp only [State.beginFlush] at step
  split at step
  · rename_i imm job isImm
    split at step
    · cases step
    · cases step
      exact .one rfl (.beginFlush (c := db.core s.disk) (show db.job = .resume none from job) (by simp [Db.core,isImm]))
  · rename_i x imm job isImm
    split at step
    · cases step
    · cases step
      exact .one rfl (.beginFlush (c := db.core s.disk) (show db.job = .resume (some x) from job) (by simp [Db.core,isImm]))
  · cases step

theorem pick_leads {trigger : Trigger K} (step : s.pick o db trigger = some s') :
    Core.Leads o loose held (db.core s.disk) s' := by
  simp only [State.pick] at step
  split at step
  · rename_i job imm manual
    split at step
    · cases step
    rename_i allowed
    simp only [not_or,Bool.not_eq_true,Bool.not_eq_false'] at allowed
    have within := pickCompaction_within db.versions.current o db.versions.compactPointer trigger allowed.2
    split at step
    · rename_i trivial
      cases step
      simp only [Compaction.isTrivialMove,Bool.and_eq_true,decide_eq_true_eq] at trivial
      obtain ⟨f,single⟩ := List.length_eq_one_iff.mp trivial.1.1
      exact .one rfl (.move (c := db.core s.disk) job allowed.1 within single)
    · cases step
      exact .one rfl (.compact (c := db.core s.disk) job within)
  · cases step

theorem pickManual_leads
    (manual : ∀ r, db.manualCompaction = some r → r.level + 1 < kNumLevels)
    (step : s.pickManual o db = some s') : Core.Leads o loose held (db.core s.disk) s' := by
  simp only [State.pickManual] at step
  split at step
  · rename_i r job imm isManual
    split at step
    · cases step
    split at step
    · cases step
      exact .still rfl rfl
    · rename_i x chosen
      cases step
      exact .one rfl (.compact (c := db.core s.disk) job
        (compactRange_within _ o r.level (manual r isManual) r.first r.last x chosen))
  · cases step

theorem advanceCompaction_leads {status : Status} (step : s.advanceCompaction o db status = some s') :
    Core.Leads o loose held (db.core s.disk) s' := by
  simp only [State.advanceCompaction] at step
  split at step
  · rename_i x job
    split at step
    · cases step
    rename_i more
    split at step
    · cases step
      exact failCompaction_leads s db (.inl job)
    have advance : Core.Step o loose held (db.core s.disk) _ := .advance job more
    cases opened : (x.advance o db.versions.nextFileNumber).2 with
    | false =>
      simp only [Db.core,opened,Bool.false_eq_true,if_false] at step advance
      split at step
      · cases step
        exact .one rfl advance
      · cases step
        exact .head advance (failCompaction_leads
          { s with disk := s.disk.setTables _ } { db with job := .compact _ } (.inl rfl))
    | true =>
      simp only [Db.core,opened,if_true] at step advance
      split at step
      · cases step
        exact .one rfl advance
      · cases step
        exact .head advance (failCompaction_leads
          ({ s.note (.created (.table db.versions.nextFileNumber)) with
            disk := (s.disk.setTable db.versions.nextFileNumber ⟨[],false⟩).setTables _ })
          { db with
            versions := { db.versions with nextFileNumber := db.versions.nextFileNumber + 1 }
            pendingOutputs := db.versions.nextFileNumber :: db.pendingOutputs
            job := .compact _ } (.inl rfl))
  · cases step

theorem finishCompaction_leads {status : Status} (step : s.finishCompaction o db status = some s') :
    Core.Leads o loose held (db.core s.disk) s' := by
  simp only [State.finishCompaction] at step
  split at step
  · rename_i x job
    split at step
    · cases step
    rename_i done
    split at step
    · cases step
      exact failCompaction_leads s db (.inl job)
    · cases step
      exact .one rfl (.finishCompaction (c := db.core s.disk) job (not_not.mp done))
  · cases step

/-- A record whose append fails late is in the manifest all the same. -/
theorem appendManifest_leads {status : Status} (strict : loose = true ∨ status = .ok)
    (step : s.appendManifest db status = some s') : Core.Leads o loose held (db.core s.disk) s' := by
  simp only [State.appendManifest] at step
  split at step
  · rename_i commit isCommit
    split at step
    · cases step
    rename_i stage
    have append : Core.Step o loose held (db.core s.disk) _ :=
      .appendManifest (r := s.manifestRecord commit.edit) isCommit (not_not.mp stage) rfl
    split at step
    · rename_i failed
      cases step
      exact failCommit_leads s db (strict.resolve_right (by rw [failed]; decide)) isCommit
    split at step
    · cases step
      exact .one rfl append
    · rename_i failed
      cases step
      refine .head append ?_
      rw [← failCommit_setCommit _ db { commit with stage := .sync }]
      exact failCommit_leads ({ s with
          disk := s.disk.updateManifest db.versions.manifestFileNumber
            (ManifestFile.append (s.manifestRecord commit.edit)) }.note .manifestAppended)
        { db with job := db.job.setCommit { commit with stage := .sync } } (strict.resolve_right failed)
        (setCommit_commit isCommit)
  · cases step

theorem syncManifest_leads {status : Status} (strict : loose = true ∨ status = .ok)
    (step : s.syncManifest db status = some s') : Core.Leads o loose held (db.core s.disk) s' := by
  simp only [State.syncManifest] at step
  split at step
  · rename_i commit isCommit
    split at step
    · cases step
    rename_i stage
    split at step
    · rename_i failed
      cases step
      exact failCommit_leads s db (strict.resolve_right failed) isCommit
    · cases step
      exact .one rfl (.syncManifest (c := db.core s.disk) isCommit (not_not.mp stage))
  · cases step

theorem installVersion_leads {pinned : Nat → Bool} (pins : ∀ v ∈ held, ∀ n ∈ v.numbers, pinned n = true)
    (step : s.installVersion db pinned = some s') : Core.Leads o loose held (db.core s.disk) s' := by
  simp only [State.installVersion] at step
  split at step
  · rename_i commit isCommit
    split at step
    · cases step
    rename_i stage
    have install : Core.Step o loose held (db.core s.disk) _ := .install isCommit (not_not.mp stage)
    have all : ∀ pending : List Nat, (pending.filter fun _ => decide ¬False) = pending := by simp
    split at step
    · rename_i commit' outer job
      cases step
      simp only [Db.core,job,Job.flushes,Job.outer,Job.outputs,if_true,List.not_mem_nil,all] at install ⊢
      exact .head install (removeObsoleteFiles_leads (s.note .installed)
        { db with versions := db.versions.install commit, imm := none } outer pinned pins)
    · rename_i x commit' job
      cases step
      simp only [Db.core,job,Job.flushes,Job.outer,Job.outputs,Bool.false_eq_true,if_false] at install ⊢
      exact .head install (removeObsoleteFiles_leads (s.note .installed)
        (({ db with versions := db.versions.install commit } : Db K V).cleanup x) none pinned pins)
    · rename_i notFlush notCompaction
      cases step
      cases job : db.job with
      | move commit' =>
        simp only [Db.core,job,Job.flushes,Job.outer,Job.outputs,Bool.false_eq_true,if_false,List.not_mem_nil,all]
          at install ⊢
        exact .one rfl install
      | commitFlush commit' outer => exact absurd job (notFlush commit' outer)
      | commitCompaction x commit' => exact absurd job (notCompaction x commit')
      | _ => simp [job,Job.commit] at isCommit
  · cases step

/-- A step of an open database is a step of its core, or two, or none. -/
theorem core_step {l : Label K V} (same : s.process = .running db)
    (manual : ∀ r, db.manualCompaction = some r → r.level + 1 < kNumLevels)
    (strict : loose = true ∨ l.manifestOk = true)
    (pins : ∀ pinned, l = .installVersion pinned → ∀ v ∈ held, ∀ n ∈ v.numbers, pinned n = true)
    (step : s.stepDb o db l = some s') : Core.Leads o loose held (db.core s.disk) s' := by
  cases background : l.background with
  | false => exact writer_leads same background step
  | true =>
    cases l with
    | beginFlush => exact beginFlush_leads step
    | buildTable status => exact buildTable_leads step
    | pick trigger => exact pick_leads step
    | pickManual => exact pickManual_leads manual step
    | advanceCompaction status => exact advanceCompaction_leads step
    | finishCompaction status => exact finishCompaction_leads step
    | appendManifest status =>
      exact appendManifest_leads (strict.imp id (by simpa [Label.manifestOk] using ·)) step
    | syncManifest status =>
      exact syncManifest_leads (strict.imp id (by simpa [Label.manifestOk] using ·)) step
    | installVersion pinned => exact installVersion_leads (pins pinned rfl) step
    | removeFile f =>
      simp only [State.stepDb,State.removeFile] at step
      split at step
      · rename_i doomed outer job
        split at step
        · rename_i isDoomed
          cases step
          exact .one same (.removeFile (c := db.core s.disk) job isDoomed)
        · cases step
      · cases step
    | removeDone =>
      simp only [State.stepDb,State.removeDone] at step
      split at step
      · rename_i doomed outer job
        cases step
        exact .one rfl (.removeDone (c := db.core s.disk) job)
      · cases step
    | _ => cases background

end Simulation

end LevelDB
