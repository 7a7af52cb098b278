import LevelDB.Machine

/-! `RepairDB` after a clean close. The levels are forgotten: every log becomes a table, and
every table that can be read goes to level 0 of a new manifest. -/
namespace LevelDB

variable {K V : Type} [LinearOrder K]

/-- Where the background thread may be when it sees `shutting_down_`: between two jobs, in
the loop of a compaction, which it gives up, or before the commit of a flush. -/
def Job.stopsAtShutdown : Job K V → Bool
  | .idle => true
  | .compact _ => true
  | .commitFlush commit _ => decide (commit.stage = .append)
  | _ => false

/-- `~DBImpl`, once all calls have returned. Files are closed as they are. -/
def State.close (s : State K V) : Option (State K V) :=
  match s.process with
  | .running db =>
    if db.writers.isEmpty && db.leader.isNone && db.job.stopsAtShutdown then
      some { s with process := .down }
    else none
  | _ => none

structure TableInfo (K : Type) where
  file : FileMetaData K
  maxSequence : Nat

structure Repairer (K V : Type) where
  disk : Disk K V
  manifests : List Nat
  tableNumbers : List Nat
  logs : List Nat
  tables : List (TableInfo K)
  nextFileNumber : Nat

def Repairer.new (d : Disk K V) : Repairer K V := ⟨d,[],[],[],[],1⟩

/-- One name in `FindFiles`. The number of a manifest does not count. -/
def Repairer.findFile (r : Repairer K V) : FileName → Repairer K V
  | .manifest n => { r with manifests := r.manifests ++ [n] }
  | .log n => { r with
    logs := r.logs ++ [n]
    nextFileNumber := if r.nextFileNumber < n + 1 then n + 1 else r.nextFileNumber }
  | .table n => { r with
    tableNumbers := r.tableNumbers ++ [n]
    nextFileNumber := if r.nextFileNumber < n + 1 then n + 1 else r.nextFileNumber }
  | .temp n => { r with nextFileNumber := if r.nextFileNumber < n + 1 then n + 1 else r.nextFileNumber }
  | .current => { r with nextFileNumber := if r.nextFileNumber < 0 + 1 then 0 + 1 else r.nextFileNumber }

/-- `FindFiles`, with the directory in the order in which it is listed. -/
def Repairer.findFiles (r : Repairer K V) (filenames : List FileName) : Repairer K V :=
  filenames.foldl Repairer.findFile r

/-- The memtable that the records of a log make. -/
def memOf (records : List (WriteBatch K V)) : MemTable K V :=
  records.foldl (fun mem b => b.insertInto mem) []

/-- A log without updates takes a number but makes no table. -/
def Repairer.convertLogToTable (r : Repairer K V) (log : Nat) : Repairer K V :=
  let mem := memOf (r.disk.recordsOf log)
  let number := r.nextFileNumber
  let r := { r with nextFileNumber := number + 1 }
  if mem = [] then r
  else { r with
    disk := r.disk.setTable number ⟨mem,true⟩
    tableNumbers := r.tableNumbers ++ [number] }

/-- Archived files are gone from the directory. -/
def Repairer.archiveFile (r : Repairer K V) (f : FileName) : Repairer K V :=
  { r with disk := r.disk.remove f }

def Repairer.convertLogFilesToTables (r : Repairer K V) : Repairer K V :=
  r.logs.foldl (fun r log => (r.convertLogToTable log).archiveFile (.log log)) r

/-- A table that cannot be read gives nothing to its copy, which stays behind empty. -/
def Repairer.repairTable (r : Repairer K V) (number : Nat) : Repairer K V :=
  let copy := r.nextFileNumber
  { r with
    disk := (r.disk.setTable copy ⟨[],false⟩).remove (.table number)
    nextFileNumber := copy + 1 }

def largestSequence (entries : List (Entry K V)) : Nat :=
  entries.foldl (fun largest e => if largest < e.sequence then e.sequence else largest) 0

/-- After a clean close only the output of a compaction that was given up is not synced; it
has no footer. Tables have entries. -/
def Repairer.scanTable (o : Options K V) (r : Repairer K V) (number : Nat) : Repairer K V :=
  match r.disk.tables number with
  | none => r
  | some ⟨_,false⟩ => r.repairTable number
  | some ⟨entries,true⟩ =>
    match outputFile o number entries with
    | none => r
    | some file => { r with tables := r.tables ++ [⟨file,largestSequence entries⟩] }

def Repairer.extractMetaData (o : Options K V) (r : Repairer K V) : Repairer K V :=
  r.tableNumbers.foldl (Repairer.scanTable o) r

/-- The edit of `WriteDescriptor`: no log, the largest sequence number of the tables, and
every table at level 0. -/
def Repairer.edit (r : Repairer K V) : VersionEdit K :=
  { (VersionEdit.empty : VersionEdit K) with
    logNumber := some 0
    nextFileNumber := some r.nextFileNumber
    lastSequence := some (r.tables.foldl (fun m t => if m < t.maxSequence then t.maxSequence else m) 0)
    newFiles := r.tables.map fun t => (0,t.file) }

/-- The old manifests are archived, the new one, which is not synced, takes number 1, and
`SetCurrentFile` names it. -/
def Repairer.writeDescriptor (r : Repairer K V) (covered : History K V) : Disk K V :=
  let d := (r.manifests.foldl (fun r n => r.archiveFile (.manifest n)) r).disk
  [SetCurrent.create,.write,.sync,.rename].foldl (fun d step => d.setCurrentFile 1 step)
    (d.setManifest 1 ⟨[⟨r.edit,covered⟩],0⟩)

/-- `Repairer::Run`. -/
def Repairer.run (o : Options K V) (d : Disk K V) (filenames : List FileName) : Repairer K V :=
  (((Repairer.new d).findFiles filenames).convertLogFilesToTables).extractMetaData o

/-- `RepairDB` of a database that no process has open. -/
def State.repairDB (o : Options K V) (s : State K V) (filenames : List FileName) : State K V :=
  { s with disk := (Repairer.run o s.disk filenames).writeDescriptor s.history }

/-- The names that the directory of a database lists, in any order. -/
structure Disk.Lists (d : Disk K V) (filenames : List FileName) : Prop where
  nodup : filenames.Nodup
  contains : ∀ f, f ∈ filenames ↔ d.contains f = true

/-- `DB::Open` of a directory without logs. -/
def reopenRun : List (Label K V) := [.openDb,.recover,.replay] ++ List.replicate 8 .openCommit

end LevelDB
