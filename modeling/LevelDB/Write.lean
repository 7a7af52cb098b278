import LevelDB.Db

/-! `DBImpl::Write`: the queue of writers, `MakeRoomForWrite`, the group that a leader
commits, and `TEST_CompactMemTable`. -/
namespace LevelDB

variable {K V : Type} [LinearOrder K]

/-- `WriteBatchInternal::ByteSize`: a header of 12 bytes and the updates. -/
def Options.byteSize (o : Options K V) (b : WriteBatch K V) : Nat :=
  12 + (b.updates.map o.updateSize).sum

/-- What `BuildBatchGroup` has gathered: the updates of the group, whether they are in
`tmp_batch_`, and the last writer of the group. -/
structure Gathered (K V : Type) where
  updates : List (K × Option V)
  inTmp : Bool
  lastWriter : Nat

/-- The loop over the queue after its head. The first batch that is added moves the
leader's updates behind what `tmp_batch_` holds. -/
def gather (o : Options K V) (leaderSync : Bool) (tmp : List (K × Option V)) (maxSize : Nat) :
    Nat → Gathered K V → List (Writer K V) → Gathered K V
  | _, g, [] => g
  | size, g, w :: rest =>
    if w.sync && !leaderSync then g
    else match w.batch with
      | none => gather o leaderSync tmp maxSize size { g with lastWriter := w.id } rest
      | some b =>
        if maxSize < size + o.byteSize b then g
        else
          let base := if g.inTmp then g.updates else tmp ++ g.updates
          gather o leaderSync tmp maxSize (size + o.byteSize b) ⟨base ++ b.updates,true,w.id⟩ rest

/-- `BuildBatchGroup` for a leader with the batch `b`. -/
def buildBatchGroup (o : Options K V) (tmp : List (K × Option V)) (leader : Writer K V)
    (b : WriteBatch K V) (rest : List (Writer K V)) : Gathered K V :=
  let size := o.byteSize b
  let maxSize := if size ≤ 128 * 1024 then size + 128 * 1024 else 1024 * 1024
  gather o leader.sync tmp maxSize size ⟨b.updates,false,leader.id⟩ rest

/-- The writers of a group, and those that stay in the queue. -/
def splitGroup (lastWriter : Nat) : List (Writer K V) → List (Writer K V) × List (Writer K V)
  | [] => ([],[])
  | w :: rest =>
    if w.id = lastWriter then ([w],rest)
    else let (members,others) := splitGroup lastWriter rest
      (w :: members,others)

def batchIds (ws : List (Writer K V)) : List Nat :=
  ws.filterMap fun w => w.batch.map fun _ => w.id

/-- The returns of the writers of a group, whose updates start at `first`. -/
def returns (status : Status) : Nat → List (Writer K V) → List (Event K V)
  | _, [] => []
  | first, w :: rest =>
    .returned w.id status w.sync w.batch first ::
      returns status (first + (w.batch.elim 0 WriteBatch.count)) rest

/-- The writers without a batch, which go on to wait for the flush. -/
def flushIds (ws : List (Writer K V)) : List Nat :=
  ws.filterMap fun w => if w.batch.isNone then some w.id else none

/-- The end of `Write`: the writers up to the last of the group leave the queue. -/
def State.release (s : State K V) (db : Db K V) (lastWriter : Nat) (status : Status) (first : Nat) :
    State K V :=
  let (members,others) := splitGroup lastWriter db.writers
  let waiting := if status = .ok then flushIds members else []
  let s := s.setDb { db with
    writers := others
    leader := none
    flushWaiters := db.flushWaiters ++ waiting }
  { s with trace := s.trace ++ returns status first members }

/-- A new caller joins the queue; its id names the call. -/
def State.enter (s : State K V) (db : Db K V) (id : Nat) (batch : Option (WriteBatch K V))
    (sync : Bool) : Option (State K V) :=
  if id ∈ s.trace.filterMap Event.enteredId then none
  else some ((s.setDb { db with writers := db.writers ++ [⟨id,batch,sync⟩] }).note
    (.entered id batch sync))

/-- The caller at the head of the queue becomes the leader. -/
def State.lead (s : State K V) (db : Db K V) : Option (State K V) :=
  match db.leader, db.writers with
  | none, w :: _ => some (s.setDb { db with leader := some (.room w.batch.isNone w.batch.isSome) })
  | _, _ => none

/-- The leader goes on once there is room: it numbers the group. Sequence numbers do not
run out (`PackSequenceAndType` asserts it). -/
def State.startGroup (o : Options K V) (s : State K V) (db : Db K V) : Option (State K V) :=
  match db.writers with
  | [] => none
  | w :: rest =>
    match w.batch with
    | none => some (s.release db w.id .ok (db.versions.lastSequence + 1))
    | some b =>
      let g := buildBatchGroup o db.tmpBatch.updates w b rest
      let batch : WriteBatch K V := ⟨db.versions.lastSequence + 1,g.updates⟩
      let last := db.versions.lastSequence + batch.count
      if kMaxSequenceNumber ≤ last then none
      else
        -- a batch of its own is numbered in place, a group in `tmp_batch_`
        let db := if g.inTmp then { db with tmpBatch := batch }
          else { db with writers := { w with batch := some batch } :: rest }
        some (s.setDb { db with leader := some (.logging ⟨batch,g.lastWriter,g.inTmp,last⟩) })

/-- The switch to a new log and memtable; the status of `Close` is only recorded. -/
def State.switchMemTable (s : State K V) (db : Db K V) (close : Status) (allowDelay : Bool) :
    State K V :=
  let number := db.versions.nextFileNumber
  let db := { db with
    versions := { db.versions with nextFileNumber := number + 1 }
    logfileNumber := number
    imm := some db.mem
    mem := []
    leader := some (.room false allowDelay)
    logTorn := false }
  let s := { s with disk := s.disk.newLog number }.note (.created (.log number))
  if close = .ok then s.setDb db else s.recordBackgroundError db

/-- One pass of the loop of `MakeRoomForWrite`, and what follows if it is the last. A pass
that waits changes nothing. -/
def State.makeRoom (o : Options K V) (s : State K V) (db : Db K V) (newFile close : Status) :
    Option (State K V) :=
  match db.leader, db.writers with
  | some (.room force allowDelay), w :: _ =>
    if db.bgError then some (s.release db w.id .ioError (db.versions.lastSequence + 1))
    else if allowDelay ∧ kL0SlowdownWritesTrigger ≤ db.versions.numLevelFiles 0 then
      some (s.setDb { db with leader := some (.room force false) })
    else if !force ∧ o.memoryUsage db.mem ≤ o.writeBufferSize then s.startGroup o db
    else if db.imm.isSome then some s
    else if kL0StopWritesTrigger ≤ db.versions.numLevelFiles 0 then some s
    else if newFile = .ok then some (s.switchMemTable db close allowDelay)
    else some (s.release db w.id .ioError (db.versions.lastSequence + 1))
  | _, _ => none

def groupIds (db : Db K V) (g : Group K V) : List Nat :=
  batchIds (splitGroup g.lastWriter db.writers).1

def leaderSync (db : Db K V) : Bool := (db.writers.head?.map (·.sync)).getD false

/-- Where the leader goes on when `AddRecord` returned no error. -/
def Db.logged (db : Db K V) (g : Group K V) : Leader K V := if leaderSync db then .syncing g else .inserting g

/-- The record is in the log. -/
def State.logRecord (s : State K V) (db : Db K V) (g : Group K V) (next : Leader K V) : State K V :=
  { s with
    disk := s.disk.updateLog db.logfileNumber (LogFile.append g.batch)
    process := .running { db with leader := some next }
    history := s.history ++ [(db.logfileNumber,g.batch)] }.note (.logged (groupIds db g) g.batch)

/-- `AddRecord` and what `Write` makes of its status. A log that was torn is written on. -/
def State.addRecord (s : State K V) (db : Db K V) (outcome : Append) : Option (State K V) :=
  match db.leader with
  | some (.logging g) =>
    match outcome with
    | .ok => some (s.logRecord db g (db.logged g))
    | .lateError => some (s.logRecord db g (.finishing g .ioError false))
    | .ioError => some (s.setDb { db with
        leader := some (.finishing g .ioError false)
        logTorn := true })
    | .lost =>
      if db.logTorn then
        some ((s.setDb { db with leader := some (db.logged g) }).note (.logged (groupIds db g) g.batch))
      else none
  | _ => none

def State.syncLog (s : State K V) (db : Db K V) (status : Status) : Option (State K V) :=
  match db.leader with
  | some (.syncing g) =>
    if status = .ok then
      some ({ s with
        disk := s.disk.updateLog db.logfileNumber LogFile.sync
        process := .running { db with leader := some (.inserting g) } }.note .synced)
    else some (s.setDb { db with leader := some (.finishing g .ioError true) })
  | _ => none

def State.insertInto (s : State K V) (db : Db K V) : Option (State K V) :=
  match db.leader with
  | some (.inserting g) =>
    some ((s.setDb { db with
      mem := g.batch.insertInto db.mem
      leader := some (.finishing g .ok false) }).note (.applied (groupIds db g) g.batch))
  | _ => none

def State.finishWrite (s : State K V) (db : Db K V) : Option (State K V) :=
  match db.leader with
  | some (.finishing g status syncError) =>
    let s := if syncError && !db.bgError then s.note .errorRecorded else s
    let db := { db with
      tmpBatch := if g.inTmp then ⟨0,[]⟩ else db.tmpBatch
      versions := { db.versions with lastSequence := g.lastSequence }
      bgError := db.bgError || syncError }
    some (s.release db g.lastWriter status g.batch.sequence)
  | _ => none

def State.getSnapshot (s : State K V) (db : Db K V) : State K V :=
  s.setDb { db with snapshots := db.snapshots ++ [db.versions.lastSequence] }

def State.releaseSnapshot (s : State K V) (db : Db K V) (snapshot : Nat) : State K V :=
  s.setDb { db with snapshots := db.snapshots.erase snapshot }

/-- The end of `TEST_CompactMemTable`: the wait for `imm_` is over. -/
def State.awaitFlush (s : State K V) (db : Db K V) (id : Nat) : Option (State K V) :=
  if id ∈ db.flushWaiters ∧ (db.imm = none ∨ db.bgError) then
    some ((s.setDb { db with flushWaiters := db.flushWaiters.erase id }).note
      (.flushed id (if db.imm.isNone then .ok else .ioError)))
  else none

end LevelDB
