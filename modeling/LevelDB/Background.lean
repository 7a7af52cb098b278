import LevelDB.Write

/-! The background thread: memtable flushes, compactions and trivial moves, the commit
of their edits by `LogAndApply`, and the removal of obsolete files. -/
namespace LevelDB

variable {K V : Type} [LinearOrder K]

/-- The first half of `LogAndApply`: the edit is completed and the new version built. -/
def VersionSet.logAndApply (vs : VersionSet K) (e : VersionEdit K) : Commit K :=
  let e := { e with
    logNumber := some (e.logNumber.getD vs.logNumber)
    prevLogNumber := some (e.prevLogNumber.getD vs.prevLogNumber)
    nextFileNumber := some vs.nextFileNumber
    lastSequence := some vs.lastSequence }
  ⟨e,vs.current.apply e,.append⟩

/-- The last part of `LogAndApply`: the version becomes the current one. -/
def VersionSet.install (vs : VersionSet K) (c : Commit K) : VersionSet K :=
  { vs with
    current := c.version
    logNumber := c.edit.logNumber.getD vs.logNumber
    prevLogNumber := c.edit.prevLogNumber.getD vs.prevLogNumber }

/-- The sequence number below which no snapshot reads. -/
def Db.smallestSnapshot (db : Db K V) : Nat := db.snapshots.head?.getD db.versions.lastSequence

/-- Back to the loop of the compaction around a flush, if there is one. -/
def Job.resume : Option (CompactionState K V) → Job K V
  | none => .idle
  | some c => .compact c

/-- `MakeRoomForWrite` cannot switch memtables while a flush runs, so `imm_` stays. -/
def State.beginFlush (s : State K V) (db : Db K V) : Option (State K V) :=
  let start (outer : Option (CompactionState K V)) : State K V :=
    let number := db.versions.nextFileNumber
    s.setDb { db with
      versions := { db.versions with nextFileNumber := number + 1 }
      pendingOutputs := number :: db.pendingOutputs
      job := .flush number .write outer }
  match db.job, db.imm with
  | .idle, some _ => if db.bgError then none else some (start none)
  | .compact c, some _ => if c.remaining = [] then none else some (start (some c))
  | _, _ => none

/-- The edit of `CompactMemTable`. A memtable without entries makes no table. -/
def flushEdit (o : Options K V) (db : Db K V) (number : Nat) (imm : MemTable K V) : VersionEdit K :=
  let e := { (VersionEdit.empty : VersionEdit K) with
    logNumber := some db.logfileNumber
    prevLogNumber := some 0 }
  match outputFile o number imm with
  | none => e
  | some f => e.addFile (db.versions.current.pickLevelForMemTableOutput o
      f.smallest.userKey f.largest.userKey) f

/-- The first part of `BuildTable`, which makes no file for no entries. -/
def State.writeTable (s : State K V) (number : Nat) (entries : MemTable K V) : State K V :=
  if entries = [] then s
  else { s with disk := s.disk.setTable number ⟨entries,false⟩ }.note (.created (.table number))

omit [LinearOrder K] in
@[simp] theorem State.writeTable_process (s : State K V) (number : Nat) (entries : MemTable K V) :
    (s.writeTable number entries).process = s.process := by
  cases entries <;> rfl

omit [LinearOrder K] in
@[simp] theorem State.writeTable_history (s : State K V) (number : Nat) (entries : MemTable K V) :
    (s.writeTable number entries).history = s.history := by
  cases entries <;> rfl

/-- The steps of `BuildTable`: the file is written, then synced. A file that fails is
removed. -/
def State.buildTable (o : Options K V) (s : State K V) (db : Db K V) (status : Status) :
    Option (State K V) :=
  match db.job, db.imm with
  | .flush number stage outer, some imm =>
    if status ≠ .ok then
      some ({ s with disk := s.disk.remove (.table number) }.recordBackgroundError { db with
        pendingOutputs := db.pendingOutputs.erase number
        job := .resume outer })
    else match stage with
      | .write => some ((s.setDb { db with job := .flush number .sync outer }).writeTable number imm)
      | .sync =>
        let disk := if imm = [] then s.disk else s.disk.setTable number ⟨imm,true⟩
        some { s with
          disk
          process := .running { db with
            pendingOutputs := db.pendingOutputs.erase number
            job := .commitFlush (db.versions.logAndApply (flushEdit o db number imm)) outer } }
  | _, _ => none

/-- An automatic compaction. A single file without overlap is moved. -/
def State.pick (o : Options K V) (s : State K V) (db : Db K V) (trigger : Trigger K) :
    Option (State K V) :=
  match db.job, db.imm, db.manualCompaction with
  | .idle, none, none =>
    if db.bgError ∨ !db.versions.current.due trigger then none
    else
      let c := db.versions.current.pickCompaction o db.versions.compactPointer trigger
      let versions := { db.versions with
        compactPointer := Function.update db.versions.compactPointer c.level c.compactPointer }
      if c.isTrivialMove o then
        some (s.setDb { db with versions, job := .move (versions.logAndApply c.moveEdit) })
      else some (s.setDb { db with
        versions
        job := .compact (.start c false db.smallestSnapshot s.disk.table) })
  | _, _, _ => none

/-- A manual compaction; it is done if there is nothing in the range. -/
def State.pickManual (o : Options K V) (s : State K V) (db : Db K V) : Option (State K V) :=
  match db.job, db.imm, db.manualCompaction with
  | .idle, none, some m =>
    if db.bgError then none
    else match db.versions.current.compactRange o m.level m.first m.last with
      | none => some (s.setDb { db with manualCompaction := none })
      | some c =>
        let versions := { db.versions with
          compactPointer := Function.update db.versions.compactPointer c.level c.compactPointer }
        some (s.setDb { db with
          versions
          job := .compact (.start c true db.smallestSnapshot s.disk.table) })
  | _, _, _ => none

def Disk.setTables (d : Disk K V) (outputs : List (Nat × List (Entry K V))) : Disk K V :=
  outputs.foldl (fun d out => d.setTable out.1 ⟨out.2,true⟩) d

/-- `CleanupCompaction`. -/
def Db.cleanup (db : Db K V) (c : CompactionState K V) : Db K V :=
  { db with
    pendingOutputs := db.pendingOutputs.filter fun n => decide (n ∉ c.outputs.map (·.1))
    manualCompaction := if c.isManual then none else db.manualCompaction }

/-- The compaction fails: its outputs are abandoned. -/
def State.failCompaction (s : State K V) (db : Db K V) (c : CompactionState K V) : State K V :=
  s.recordBackgroundError { db.cleanup c.finishOutput with job := .idle }

/-- One pass of the loop of `DoCompactionWork`. If the error comes late, the pass has taken
its file number. -/
def State.advanceCompaction (o : Options K V) (s : State K V) (db : Db K V) (status : Status) :
    Option (State K V) :=
  match db.job with
  | .compact c =>
    if c.remaining = [] then none
    else if status = .ioError then some (s.failCompaction db c)
    else
      let number := db.versions.nextFileNumber
      let (next,opened) := c.advance o number
      let s := if opened then { s with disk := s.disk.setTable number ⟨[],false⟩ }.note
          (.created (.table number)) else s
      let db := if opened then { db with
          versions := { db.versions with nextFileNumber := number + 1 }
          pendingOutputs := number :: db.pendingOutputs } else db
      let s := { s with disk := s.disk.setTables (next.outputs.drop c.outputs.length) }
      if status = .ok then some (s.setDb { db with job := .compact next })
      else some (s.failCompaction db next)
  | _ => none

/-- The end of `DoCompactionWork`: the last output, then `InstallCompactionResults`. -/
def State.finishCompaction (o : Options K V) (s : State K V) (db : Db K V) (status : Status) :
    Option (State K V) :=
  match db.job with
  | .compact c =>
    if c.remaining ≠ [] then none
    else if status ≠ .ok then some (s.failCompaction db c)
    else
      let done := c.finishOutput
      some { s with
        disk := s.disk.setTables c.building.toList
        process := .running { db with
          job := .commitCompaction done (db.versions.logAndApply (done.edit o)) } }
  | _ => none

/-- `RemoveObsoleteFiles` chooses what to delete: tables in no live version and not being
written, logs and manifests before the current ones. `pinned` are the tables of versions
that readers hold. -/
def State.obsoleteFiles (s : State K V) (db : Db K V) (outer : Option (CompactionState K V))
    (pinned : Nat → Bool) (f : FileName) : Bool :=
  let inVersion (v : Version K) (n : Nat) : Bool :=
    (List.range kNumLevels).any fun level => (v.files level).any fun f => f.number == n
  let live (n : Nat) : Bool := inVersion db.versions.current n || pinned n || decide (n ∈ db.pendingOutputs) ||
    outer.any fun c => inVersion c.compaction.inputVersion n
  s.disk.contains f && match f with
  | .log n => decide (n < db.versions.logNumber) && decide (n ≠ db.versions.prevLogNumber)
  | .manifest n => decide (n < db.versions.manifestFileNumber)
  | .table n => !live n
  | .temp n => !live n
  | .current => false

def State.removeObsoleteFiles (s : State K V) (db : Db K V) (outer : Option (CompactionState K V))
    (pinned : Nat → Bool) : State K V :=
  if db.bgError then s.setDb { db with job := .resume outer }
  else s.setDb { db with job := .remove (s.obsoleteFiles db outer pinned) outer }

def State.removeFile (s : State K V) (db : Db K V) (f : FileName) : Option (State K V) :=
  match db.job with
  | .remove doomed _ => if doomed f then some { s with disk := s.disk.remove f } else none
  | _ => none

def State.removeDone (s : State K V) (db : Db K V) : Option (State K V) :=
  match db.job with
  | .remove _ outer => some (s.setDb { db with job := .resume outer })
  | _ => none

/-- The compaction that is under way, perhaps around a flush. -/
def Job.outer : Job K V → Option (CompactionState K V)
  | .flush _ _ outer => outer
  | .commitFlush _ outer => outer
  | .compact c => some c
  | .remove _ outer => outer
  | _ => none

def Job.commit : Job K V → Option (Commit K)
  | .commitFlush c _ => some c
  | .move c => some c
  | .commitCompaction _ c => some c
  | _ => none

def Job.setCommit (c : Commit K) : Job K V → Job K V
  | .commitFlush _ outer => .commitFlush c outer
  | .move _ => .move c
  | .commitCompaction s _ => .commitCompaction s c
  | job => job

omit [LinearOrder K] in
theorem setCommit_commit {job : Job K V} {c c' : Commit K} (isCommit : job.commit = some c) :
    (job.setCommit c').commit = some c' := by
  cases job <;> simp_all [Job.commit,Job.setCommit]

omit [LinearOrder K] in
theorem setCommit_outer (job : Job K V) (c : Commit K) : (job.setCommit c).outer = job.outer := by
  cases job <;> rfl

/-- The job fails in `LogAndApply`: the version is not installed. -/
def State.failCommit (s : State K V) (db : Db K V) : State K V :=
  match db.job with
  | .commitFlush _ outer => s.recordBackgroundError { db with job := .resume outer }
  | .commitCompaction c _ => s.failCompaction db c
  | _ => s.recordBackgroundError { db with job := .idle }

/-- The manifest record; its ghost says which history the new version stands for. -/
def State.manifestRecord (s : State K V) (e : VersionEdit K) : ManifestRecord K V :=
  ⟨e,s.history.before (e.logNumber.getD 0)⟩

/-- `AddRecord` on the manifest. After a late error the record is there, but nobody knows. -/
def State.appendManifest (s : State K V) (db : Db K V) (status : Status) : Option (State K V) :=
  match db.job.commit with
  | some c =>
    if c.stage ≠ .append then none
    else if status = .ioError then some (s.failCommit db)
    else
      let s := { s with
        disk := s.disk.updateManifest db.versions.manifestFileNumber
          (ManifestFile.append (s.manifestRecord c.edit)) }.note .manifestAppended
      if status = .ok then
        some (s.setDb { db with job := db.job.setCommit { c with stage := .sync } })
      else some (s.failCommit db)
  | none => none

def State.syncManifest (s : State K V) (db : Db K V) (status : Status) : Option (State K V) :=
  match db.job.commit with
  | some c =>
    if c.stage ≠ .sync then none
    else if status ≠ .ok then some (s.failCommit db)
    else some { s with
      disk := s.disk.updateManifest db.versions.manifestFileNumber ManifestFile.sync
      process := .running { db with job := db.job.setCommit { c with stage := .install } } }
  | none => none

/-- The version is installed, and the job does what it does after that. -/
def State.installVersion (s : State K V) (db : Db K V) (pinned : Nat → Bool) : Option (State K V) :=
  match db.job.commit with
  | some c =>
    if c.stage ≠ .install then none
    else
      let s := s.note .installed
      let db := { db with versions := db.versions.install c }
      match db.job with
      | .commitFlush _ outer => some (s.removeObsoleteFiles { db with imm := none } outer pinned)
      | .commitCompaction c _ => some (s.removeObsoleteFiles (db.cleanup c) none pinned)
      | _ => some (s.setDb { db with job := .idle })
  | none => none

/-- `TEST_CompactRange` asks for a manual compaction. -/
def State.requestCompaction (s : State K V) (db : Db K V) (level : Nat) (first last : Option K) :
    Option (State K V) :=
  if level + 1 < kNumLevels ∧ db.manualCompaction.isNone then
    some (s.setDb { db with manualCompaction := some ⟨level,
      first.map (lookupKey · kMaxSequenceNumber),last.map (⟨·,0,.deletion⟩)⟩ })
  else none

end LevelDB
