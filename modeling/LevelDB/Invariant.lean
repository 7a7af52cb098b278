import LevelDB.Durable
import LevelDB.Machine

/-! The invariant of the database. The memtables hold the end of the history, the
current version answers for the rest, and whatever the background thread is doing can
still be finished. It holds while no I/O fails and no flush gets between the inputs of a
manual compaction. -/
namespace LevelDB

variable {K V : Type} [LinearOrder K]

def Db.group (db : Db K V) : Option (Group K V) := groupOf db.leader

/-- What is in the log but not yet in the memtable. -/
def Db.pending (db : Db K V) : History K V :=
  match db.leader with
  | some (.syncing g) => [(db.logfileNumber,g.batch)]
  | some (.inserting g) => [(db.logfileNumber,g.batch)]
  | _ => []

/-- The last sequence number in the memtable; `LastSequence` follows in `finishWrite`. -/
def Db.lastApplied (db : Db K V) : Nat :=
  match db.leader with
  | some (.finishing g _ _) => g.lastSequence
  | _ => db.versions.lastSequence

/-- The memtables and the end of the history. -/
structure Db.Memory (db : Db K V) (h : History K V) : Prop where
  memSorted : SortedEntries db.mem
  immSorted : SortedEntries (db.imm.getD [])
  applied : ∃ applied, h = applied ++ db.pending ∧
    entrySet db.mem = (History.since applied db.logfileNumber).set ∧
    ∀ e ∈ History.set applied, e.sequence ≤ db.lastApplied
  imm : entrySet (db.imm.getD []) = ((h.before db.logfileNumber).since db.versions.logNumber).set
  noImm : db.imm = none → db.versions.logNumber = db.logfileNumber
  logs : db.versions.logNumber ≤ db.logfileNumber
  newest : ∀ r ∈ h, r.1 ≤ db.logfileNumber
  old : ∀ e ∈ (h.before db.logfileNumber).set, e.sequence ≤ db.versions.lastSequence
  group : ∀ g, db.group = some g → g.batch.sequence = db.versions.lastSequence + 1 ∧
    g.lastSequence = db.versions.lastSequence + g.batch.count ∧ g.lastSequence < kMaxSequenceNumber
  last : db.versions.lastSequence < kMaxSequenceNumber
  snapshots : db.snapshots.Pairwise (· ≤ ·)
  visible : ∀ s ∈ db.snapshots, s ≤ db.versions.lastSequence

/-- The outputs of a compaction are its own: finished ones are on the disk, and no
version has them. -/
structure InProgress (d : Disk K V) (db : Db K V) (m : ManifestFile K V) (c : CompactionState K V) :
    Prop where
  loop : ∃ done, c.Loop done ∧
    ∀ e, e ∈ done ++ c.remaining ↔ e ∈ filesSet d.table c.compaction.inputs
  floor : c.smallestSnapshot ≤ db.smallestSnapshot
  written : ∀ out ∈ c.outputs, d.tables out.1 = some ⟨out.2,true⟩
  numbers : ∀ n ∈ c.files.map (·.1), n < db.versions.nextFileNumber
  pending : ∀ n ∈ c.files.map (·.1), n ∈ db.pendingOutputs
  unused : ∀ n ∈ c.files.map (·.1), ¬(recoverRecords m.records).builder.Uses n
  connected : c.isManual = false → HullCovered c.compaction.inputs c.compaction.inputs

/-- The compaction can be installed in the version. -/
structure Installable (d : Disk K V) (v : Version K) (c : CompactionState K V) : Prop where
  safe : c.compaction.Safe v d.table
  apart : ∀ n ∈ c.files.map (·.1), ∀ l, ∀ f ∈ v.files l, f.number ≠ n

/-- A commit whose version answers for the history before the log number of its edit. -/
structure Committing (d : Disk K V) (h : History K V) (db : Db K V) (m : ManifestFile K V)
    (c : Commit K) (log : Nat) : Prop where
  completes : ∃ next last floor, c.edit.Completes log next last ∧
    (recoverRecords m.records).next ≤ next ∧ next ≤ db.versions.nextFileNumber ∧
    last ≤ db.versions.lastSequence ∧ floor ≤ last ∧ floor ≤ db.smallestSnapshot ∧
    Sound d (h.before log).set c.version next floor ∧ (∀ e ∈ (h.before log).set, e.sequence ≤ last) ∧
    log < next ∧ db.versions.manifestFileNumber < next
  version : c.stage = .append → c.version = db.versions.current.apply c.edit
  fits : c.stage = .append → c.edit.Fits (recoverRecords m.records)

/-- What `RemoveObsoleteFiles` deletes is not needed any more. -/
structure Obsolete (db : Db K V) (doomed : FileName → Bool) (outer : Option (CompactionState K V)) :
    Prop where
  log : ∀ n, doomed (.log n) → n < db.versions.logNumber
  manifest : ∀ n, doomed (.manifest n) → n < db.versions.manifestFileNumber
  current : doomed .current = false
  table : ∀ n, doomed (.table n) → (∀ l, ∀ f ∈ db.versions.current.files l, f.number ≠ n) ∧
    ∀ c, outer = some c → n ∉ c.files.map (·.1)

/-- What the background thread is doing can be finished. -/
def Db.JobOk (db : Db K V) (d : Disk K V) (h : History K V) (m : ManifestFile K V) : Prop :=
  (∀ c, db.job.outer = some c → InProgress d db m c) ∧
  match db.job with
  | .idle => True
  | .flush number _ outer => db.imm.isSome ∧ number < db.versions.nextFileNumber ∧
      ¬(recoverRecords m.records).builder.Uses number ∧
      (∀ l, ∀ f ∈ db.versions.current.files l, f.number < number) ∧
      ∀ c, outer = some c → Installable d db.versions.current c ∧ number ∉ c.files.map (·.1)
  | .commitFlush commit outer => db.imm.isSome ∧ Committing d h db m commit db.logfileNumber ∧
      ∀ c, outer = some c → Installable d commit.version c
  | .move commit => Committing d h db m commit db.versions.logNumber
  | .compact c => Installable d db.versions.current c
  | .commitCompaction _ commit => Committing d h db m commit db.versions.logNumber
  | .remove doomed outer => Obsolete db doomed outer ∧
      ∀ c, outer = some c → Installable d db.versions.current c

/-- The version and log number that the manifest's last record stands for. -/
def Db.recorded (db : Db K V) : Version K × Nat :=
  match db.job.commit with
  | some c => if c.stage = .append then (db.versions.current,db.versions.logNumber)
    else (c.version,c.edit.logNumber.getD 0)
  | none => (db.versions.current,db.versions.logNumber)

/-- The manifest and the version set in memory. -/
structure Db.Linked (db : Db K V) (m : ManifestFile K V) : Prop where
  version : (recoverRecords m.records).version = db.recorded.1
  log : (recoverRecords m.records).log = db.recorded.2
  synced : (∀ c, db.job.commit = some c → c.stage ≠ .sync) → m.synced = m.records.length
  next : (recoverRecords m.records).next ≤ db.versions.nextFileNumber
  prev : db.versions.prevLogNumber = 0

structure Db.Ok (db : Db K V) (d : Disk K V) (h : History K V) (m : ManifestFile K V) : Prop where
  memory : db.Memory h
  sound : Sound d (h.before db.versions.logNumber).set db.versions.current
    db.versions.nextFileNumber db.smallestSnapshot
  linked : db.Linked m
  job : db.JobOk d h m
  logged : ∃ l ∈ d.logs, l.number = db.logfileNumber
  newest : ∀ l ∈ d.logs, l.number ≤ db.logfileNumber
  number : db.logfileNumber < db.versions.nextFileNumber

end LevelDB
