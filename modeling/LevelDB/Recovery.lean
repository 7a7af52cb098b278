import LevelDB.Background

/-! A crash, and `DB::Open` after it (with `create_if_missing`, and without
`reuse_logs`): the manifest is read, the logs it still needs are replayed into level-0
tables, and a new log and a new manifest are started. -/
namespace LevelDB

variable {K V : Type} [LinearOrder K]

def newDbEdit : VersionEdit K :=
  { (VersionEdit.empty : VersionEdit K) with
    logNumber := some 0
    nextFileNumber := some 2
    lastSequence := some 0 }

/-- The records of the logs that a manifest with this log number still needs. -/
def Disk.logHistory (d : Disk K V) (logNumber : Nat) : History K V :=
  (d.logs.filter fun l => decide (logNumber ≤ l.number)).flatMap fun l => l.records.map (l.number,·)

/-- What the files stand for: the history covered by the manifest's last record, and the
records of the logs after it. -/
def Disk.history (d : Disk K V) : History K V :=
  match d.current.bind d.manifests with
  | none => []
  | some m =>
    match m.records.getLast?, m.recover with
    | some r, some vs => r.covered ++ d.logHistory vs.logNumber
    | _, _ => []

def State.crash (s : State K V) (cut : Cut) : State K V :=
  { s with
    disk := s.disk.crash cut
    process := .down
    history := (s.disk.crash cut).history }

/-- `DBImpl::Recover` begins; without a `CURRENT` a new database is made. -/
def State.openDb (s : State K V) : Option (State K V) :=
  match s.process with
  | .down => some (match s.disk.currentFile with
    | some _ => { s with process := .opening .recover }
    | none => { s with
      disk := s.disk.setManifest 1 ⟨[⟨newDbEdit,[]⟩],0⟩
      process := .opening (.newDb .sync) }.note (.created (.manifest 1)))
  | _ => none

/-- One file operation of `SetCurrentFile`. -/
def State.setCurrentFile (s : State K V) (number : Nat) (op : SetCurrent) : State K V :=
  let s := { s with disk := s.disk.setCurrentFile number op }
  match op with
  | .create => s.note (.created (.temp number))
  | _ => s

section SetCurrentFile
variable {s : State K V} {number : Nat} {op : SetCurrent}

omit [LinearOrder K] in
@[simp] theorem State.setCurrentFile_disk : (s.setCurrentFile number op).disk = s.disk.setCurrentFile number op := by
  cases op <;> rfl

omit [LinearOrder K] in
@[simp] theorem State.setCurrentFile_history : (s.setCurrentFile number op).history = s.history := by
  cases op <;> rfl

omit [LinearOrder K] in
theorem State.setCurrentFile_trace : ∃ events, (s.setCurrentFile number op).trace = s.trace ++ events ∧
    ∀ e ∈ events, op = .create ∧ e = .created (.temp number) := by
  cases op with
  | create => exact ⟨[.created (.temp number)],rfl,by simp⟩
  | write | sync | rename => exact ⟨[],(List.append_nil _).symm,by simp⟩

end SetCurrentFile

/-- The rest of `NewDB`: the manifest is synced, then `CURRENT` names it. -/
def State.newDb (s : State K V) : Option (State K V) :=
  match s.process with
  | .opening (.newDb .sync) =>
    some { s with
      disk := s.disk.updateManifest 1 ManifestFile.sync
      process := .opening (.newDb (.setCurrent .create)) }
  | .opening (.newDb (.setCurrent op)) =>
    some { s.setCurrentFile 1 op with
      process := .opening (match op.next with
        | some next => .newDb (.setCurrent next)
        | none => .recover) }
  | _ => none

def Version.numbers (v : Version K) : List Nat :=
  (List.range kNumLevels).flatMap fun level => (v.files level).map (·.number)

/-- The logs to replay, in the order of their numbers. -/
def Disk.logsFrom (d : Disk K V) (logNumber prevLog : Nat) : List Nat :=
  ((d.logs.map (·.number)).filter fun n =>
    decide (logNumber ≤ n) || decide (n = prevLog)).insertionSort (· ≤ ·)

/-- `VersionSet::Recover`, and the check that no table is missing. -/
def State.recover (s : State K V) : Option (State K V) :=
  match s.process with
  | .opening .recover =>
    some (match (s.disk.current.bind s.disk.manifests).bind ManifestFile.recover with
    | none => { s with process := .opening .failed }
    | some vs =>
      if vs.current.numbers.all fun n => (s.disk.tables n).isSome then
        { s with process := .opening (.replay ⟨vs,.empty,s.disk.logsFrom vs.logNumber vs.prevLogNumber,
          ((s.disk.logsFrom vs.logNumber vs.prevLogNumber).head?.map s.disk.recordsOf).getD [],none,0,none⟩) }
      else { s with process := .opening .failed })
  | _ => none

/-- `WriteLevel0Table` begins for the memtable of the replay. -/
def Replay.beginTable (r : Replay K V) : Replay K V :=
  let number := r.versions.nextFileNumber
  { r with
    versions := { r.versions with nextFileNumber := number + 1 }
    table := some (number,.write) }

/-- A record of the log goes to the memtable; a full memtable is written out. -/
def Replay.insert (o : Options K V) (r : Replay K V) (b : WriteBatch K V)
    (rest : List (WriteBatch K V)) : Replay K V :=
  let mem := b.insertInto (r.mem.getD [])
  let r := { r with
    records := rest
    mem := some mem
    maxSequence := max r.maxSequence (b.sequence + b.count - 1) }
  if o.writeBufferSize < o.memoryUsage mem then r.beginTable else r

def VersionSet.markFileNumberUsed (vs : VersionSet K) (number : Nat) : VersionSet K :=
  if vs.nextFileNumber ≤ number then { vs with nextFileNumber := number + 1 } else vs

/-- `WriteSnapshot`: the current version as one edit. -/
def VersionSet.snapshot (vs : VersionSet K) : VersionEdit K :=
  { (VersionEdit.empty : VersionEdit K) with
    compactPointers := (List.range kNumLevels).flatMap fun level =>
      (vs.compactPointer level).toList.map (level,·)
    newFiles := (List.range kNumLevels).flatMap fun level =>
      (vs.current.files level).map (level,·) }

/-- All logs are replayed: a new log is made and the edit is complete. -/
def State.openLog (s : State K V) (r : Replay K V) : State K V :=
  let number := r.versions.nextFileNumber
  let versions := { r.versions with
    nextFileNumber := number + 1
    lastSequence := max r.versions.lastSequence r.maxSequence }
  { s with
    disk := s.disk.newLog number
    process := .opening (.commit versions number
      (versions.logAndApply { r.edit with logNumber := some number, prevLogNumber := some 0 })
      .create) }.note (.created (.log number))

/-- One step of the loop of `DBImpl::Recover` and `RecoverLogFile`. -/
def State.replay (o : Options K V) (s : State K V) : Option (State K V) :=
  match s.process with
  | .opening (.replay r) =>
    match r.table, r.records, r.mem, r.logs with
    | some (number,stage), _, mem, _ =>
      let entries := mem.getD []
      match stage with
      | .write => some (State.writeTable { s with
        process := .opening (.replay { r with table := some (number,.sync) }) } number entries)
      | .sync => some { s with
        disk := if entries = [] then s.disk else s.disk.setTable number ⟨entries,true⟩
        process := .opening (.replay { r with
          edit := ((outputFile o number entries).map (r.edit.addFile 0)).getD r.edit
          mem := none
          table := none }) }
    | none, b :: rest, _, _ => some { s with process := .opening (.replay (r.insert o b rest)) }
    | none, [], some _, _ => some { s with process := .opening (.replay r.beginTable) }
    | none, [], none, n :: rest => some { s with process := .opening (.replay { r with
        versions := r.versions.markFileNumberUsed n
        logs := rest
        records := (rest.head?.map s.disk.recordsOf).getD [] }) }
    | none, [], none, [] => some (s.openLog r)
  | _ => none

def Db.new (versions : VersionSet K) (logfileNumber : Nat) : Db K V :=
  { mem := []
    imm := none
    logfileNumber
    versions
    snapshots := []
    writers := []
    leader := none
    tmpBatch := ⟨0,[]⟩
    flushWaiters := []
    job := .idle
    pendingOutputs := []
    manualCompaction := none
    bgError := false
    logTorn := false }

/-- `LogAndApply` and `SetCurrentFile` in `DB::Open`, one file operation at a time. -/
def State.openCommit (s : State K V) : Option (State K V) :=
  match s.process with
  | .opening (.commit versions log c stage) =>
    let number := versions.manifestFileNumber
    match stage with
    | .create => some ({ s with
      disk := s.disk.setManifest number ⟨[⟨versions.snapshot,[]⟩],0⟩
      process := .opening (.commit versions log c .append) }.note (.created (.manifest number)))
    | .append => some { s with
      disk := s.disk.updateManifest number (ManifestFile.append (s.manifestRecord c.edit))
      process := .opening (.commit versions log c .sync) }
    | .sync => some { s with
      disk := s.disk.updateManifest number ManifestFile.sync
      process := .opening (.commit versions log c (.setCurrent .create)) }
    | .setCurrent op => some { s.setCurrentFile number op with
      process := .opening (.commit versions log c (match op.next with
        | some next => .setCurrent next
        | none => .install)) }
    | .install =>
      some (s.removeObsoleteFiles (Db.new (versions.install c) log) none fun _ => false)
  | _ => none

end LevelDB
