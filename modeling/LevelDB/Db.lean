import LevelDB.Disk

/-! The state of `DBImpl`, of the background thread and of the process that opens the
database. Everything between two releases of the mutex is one step; work done without
the mutex is a step of its own. -/
namespace LevelDB

variable {K V : Type} [LinearOrder K]

/-- `lateError` is an I/O error of an operation whose bytes reached the file all the same. -/
inductive Status where
  | ok | ioError | lateError
  deriving DecidableEq, Repr

/-- The outcome of an `AddRecord`. One that fails may leave a part of its record in the log,
and the writer goes on behind it as if the whole were there; a reader that comes to the part
drops what it cannot check, which may take whole records along. -/
inductive Append where
  | ok
  /-- An error: nothing or a part of the record is in the log, and no reader finds it. -/
  | ioError
  /-- An error that came when all of the record was in the log. -/
  | lateError
  /-- No error, but behind a record that failed, where a reader does not find this one. -/
  | lost
  deriving DecidableEq, Repr

/-- A caller of `Write` in `writers_`. A missing batch is `TEST_CompactMemTable`'s. -/
structure Writer (K V : Type) where
  id : Nat
  batch : Option (WriteBatch K V)
  sync : Bool

/-- The batch the leader commits, for the writers up to `lastWriter`. -/
structure Group (K V : Type) where
  batch : WriteBatch K V
  lastWriter : Nat
  inTmp : Bool
  lastSequence : Nat

/-- Where the writer at the head of the queue stands in `Write`. -/
inductive Leader (K V : Type) where
  | room (force allowDelay : Bool)
  | logging (g : Group K V)
  | syncing (g : Group K V)
  | inserting (g : Group K V)
  | finishing (g : Group K V) (status : Status) (syncError : Bool)

/-- The group that the leader commits. -/
@[simp] def groupOf : Option (Leader K V) → Option (Group K V)
  | some (.logging g) => some g
  | some (.syncing g) => some g
  | some (.inserting g) => some g
  | some (.finishing g _ _) => some g
  | _ => none

/-- Where `LogAndApply` stands once the new version is built. -/
inductive CommitStage where
  | append | sync | install
  deriving DecidableEq, Repr

structure Commit (K : Type) where
  edit : VersionEdit K
  version : Version K
  stage : CommitStage

/-- Where `BuildTable` stands. -/
inductive BuildStage where
  | write | sync
  deriving DecidableEq, Repr

/-- What the background thread is doing. A flush and the removal of obsolete files may
run inside the loop of a compaction, then kept in `outer`. -/
inductive Job (K V : Type) where
  | idle
  | flush (number : Nat) (stage : BuildStage) (outer : Option (CompactionState K V))
  | commitFlush (commit : Commit K) (outer : Option (CompactionState K V))
  | move (commit : Commit K)
  | compact (c : CompactionState K V)
  | commitCompaction (c : CompactionState K V) (commit : Commit K)
  | remove (doomed : FileName → Bool) (outer : Option (CompactionState K V))

structure ManualCompaction (K : Type) where
  level : Nat
  first : Option (InternalKey K)
  last : Option (InternalKey K)

structure Db (K V : Type) where
  mem : MemTable K V
  imm : Option (MemTable K V)
  logfileNumber : Nat
  versions : VersionSet K
  /-- Sequence numbers of the live snapshots, oldest first. -/
  snapshots : List Nat
  writers : List (Writer K V)
  leader : Option (Leader K V)
  tmpBatch : WriteBatch K V
  /-- The calls of `TEST_CompactMemTable` whose `Write` has returned. -/
  flushWaiters : List Nat
  job : Job K V
  pendingOutputs : List Nat
  manualCompaction : Option (ManualCompaction K)
  bgError : Bool
  /-- An `AddRecord` on the log has failed. `DBImpl` does not know; it tells which records a
  reader may not find. -/
  logTorn : Bool

/-- What the replay of the logs in `DBImpl::Recover` has reached: the logs still to be
read, the rest of the one being read, and the memtable it fills. -/
structure Replay (K V : Type) where
  versions : VersionSet K
  edit : VersionEdit K
  logs : List Nat
  records : List (WriteBatch K V)
  mem : Option (MemTable K V)
  maxSequence : Nat
  /-- The table that is being written from `mem`. -/
  table : Option (Nat × BuildStage)

/-- The rest of `NewDB`, when its manifest is written. -/
inductive NewDbStage where
  | sync
  | setCurrent (op : SetCurrent)
  deriving DecidableEq, Repr

/-- The stages of `LogAndApply` in `DB::Open`, which starts a new manifest. -/
inductive OpenStage where
  | create | append | sync
  | setCurrent (op : SetCurrent)
  | install
  deriving DecidableEq, Repr

inductive Opening (K V : Type) where
  | newDb (stage : NewDbStage)
  | recover
  | replay (r : Replay K V)
  | commit (versions : VersionSet K) (logfileNumber : Nat) (commit : Commit K) (stage : OpenStage)
  | failed

inductive Process (K V : Type) where
  | down
  | opening (o : Opening K V)
  | running (db : Db K V)

/-- What happened, as far as callers and statements about runs can tell. -/
inductive Event (K V : Type) where
  | entered (id : Nat) (batch : Option (WriteBatch K V)) (sync : Bool)
  | logged (ids : List Nat) (batch : WriteBatch K V)
  | synced
  | applied (ids : List Nat) (batch : WriteBatch K V)
  /-- A return from `Write`, the caller's batch as it is then and the sequence number its
  first update got. -/
  | returned (id : Nat) (status : Status) (sync : Bool) (batch : Option (WriteBatch K V)) (first : Nat)
  | flushed (id : Nat) (status : Status)
  | errorRecorded
  /-- `NewWritableFile`, which truncates a file of this name. -/
  | created (f : FileName)
  | manifestAppended
  | installed
  deriving DecidableEq

def Event.enteredId : Event K V → Option Nat
  | .entered id _ _ => some id
  | _ => none

structure State (K V : Type) where
  disk : Disk K V
  process : Process K V
  /-- The batches of the logs in commit order, without those a crash has lost. -/
  history : History K V
  trace : List (Event K V)

def State.initial : State K V := ⟨Disk.empty,.down,[],[]⟩

def State.note (s : State K V) (e : Event K V) : State K V := { s with trace := s.trace ++ [e] }

omit [LinearOrder K] in
@[simp] theorem State.note_disk (s : State K V) (e : Event K V) : (s.note e).disk = s.disk := rfl

omit [LinearOrder K] in
@[simp] theorem State.note_process (s : State K V) (e : Event K V) : (s.note e).process = s.process := rfl

omit [LinearOrder K] in
@[simp] theorem State.note_history (s : State K V) (e : Event K V) : (s.note e).history = s.history := rfl

def State.setDb (s : State K V) (db : Db K V) : State K V := { s with process := .running db }

/-- `RecordBackgroundError` keeps the first error. -/
def State.recordBackgroundError (s : State K V) (db : Db K V) : State K V :=
  if db.bgError then s.setDb db else (s.setDb { db with bgError := true }).note .errorRecorded

/-- `DBImpl::Get`. -/
def Db.get (db : Db K V) (tables : Tables K V) (user : K) (snapshot : Nat) : Option V :=
  let state := match getFrom db.mem user snapshot with
    | .notFound => match getFrom (db.imm.getD []) user snapshot with
      | .notFound => db.versions.current.get tables user snapshot
      | state => state
    | state => state
  match state with
  | .found v => some v
  | _ => none

end LevelDB
