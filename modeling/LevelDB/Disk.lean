import LevelDB.Compaction

/-! The files of a database and what a crash leaves of them. A log and a manifest are
the records that a reader finds in them: a file cut anywhere is read back as those that
are wholly in front of the cut. A table is its entries. -/
namespace LevelDB

variable {K V : Type} [LinearOrder K]

structure LogFile (K V : Type) where
  number : Nat
  /-- What a reader finds. Records of which an error left only a part are not among these,
  nor are those that a reader drops together with such a part. -/
  records : List (WriteBatch K V)
  /-- How many of the records were in the file at the last `Sync`. -/
  synced : Nat

structure TableFile (K V : Type) where
  entries : List (Entry K V)
  synced : Bool

/-- A batch in a log, with the number of the log. -/
abbrev History (K V : Type) := List (Nat × WriteBatch K V)

def History.entries (h : History K V) : List (Entry K V) := h.flatMap fun r => r.2.entries

/-- The part of the history whose logs a version with this log number no longer needs. -/
def History.before (h : History K V) (logNumber : Nat) : History K V :=
  h.filter fun r => decide (r.1 < logNumber)

/-- One record of a manifest. `covered` is not in the file: it is the history that the
version after this record stands for. -/
structure ManifestRecord (K V : Type) where
  edit : VersionEdit K
  covered : History K V

structure ManifestFile (K V : Type) where
  records : List (ManifestRecord K V)
  synced : Nat

/-- The characters of `MANIFEST-%06llu` and of the newline behind it. -/
def lineLength (manifest : Nat) : Nat := 9 + max 6 (Nat.toDigits 10 manifest).length + 1

/-- `CURRENT`, or the temp file that becomes it: the first `written` characters of the line
for a manifest, `synced` of them at the last `Sync`. -/
structure NameFile where
  manifest : Nat
  written : Nat
  synced : Nat
  deriving DecidableEq

/-- The whole line, synced. -/
def NameFile.line (manifest : Nat) : NameFile := ⟨manifest,lineLength manifest,lineLength manifest⟩

/-- A line without its newline names nothing. -/
def NameFile.names (f : NameFile) : Option Nat := if f.written = lineLength f.manifest then some f.manifest else none

structure Disk (K V : Type) where
  /-- The logs in the order in which they were created. -/
  logs : List (LogFile K V)
  tables : Nat → Option (TableFile K V)
  manifests : Nat → Option (ManifestFile K V)
  currentFile : Option NameFile
  temps : Nat → Option NameFile

def Disk.empty : Disk K V := ⟨[],fun _ => none,fun _ => none,none,fun _ => none⟩

/-- The manifest that `CURRENT` names. -/
def Disk.current (d : Disk K V) : Option Nat := d.currentFile.bind NameFile.names

inductive FileName where
  | log (number : Nat)
  | table (number : Nat)
  | manifest (number : Nat)
  | temp (number : Nat)
  | current
  deriving DecidableEq, Repr

/-- What a read of a table finds; a missing file has nothing. -/
def Disk.table (d : Disk K V) : Tables K V := fun number =>
  ((d.tables number).map (·.entries)).getD []

def Disk.recordsOf (d : Disk K V) (number : Nat) : List (WriteBatch K V) :=
  ((d.logs.find? fun l => l.number == number).map (·.records)).getD []

def Disk.contains (d : Disk K V) : FileName → Bool
  | .log n => d.logs.any fun l => l.number == n
  | .table n => (d.tables n).isSome
  | .manifest n => (d.manifests n).isSome
  | .temp n => (d.temps n).isSome
  | .current => d.currentFile.isSome

def Disk.updateLog (d : Disk K V) (number : Nat) (f : LogFile K V → LogFile K V) : Disk K V :=
  { d with logs := d.logs.map fun l => if l.number = number then f l else l }

def LogFile.append (batch : WriteBatch K V) (l : LogFile K V) : LogFile K V :=
  { l with records := l.records ++ [batch] }

def LogFile.sync (l : LogFile K V) : LogFile K V := { l with synced := l.records.length }

def Disk.newLog (d : Disk K V) (number : Nat) : Disk K V := { d with logs := d.logs ++ [⟨number,[],0⟩] }

def Disk.setTable (d : Disk K V) (number : Nat) (t : TableFile K V) : Disk K V :=
  { d with tables := Function.update d.tables number (some t) }

def Disk.setManifest (d : Disk K V) (number : Nat) (m : ManifestFile K V) : Disk K V :=
  { d with manifests := Function.update d.manifests number (some m) }

def ManifestFile.append (r : ManifestRecord K V) (m : ManifestFile K V) : ManifestFile K V :=
  { m with records := m.records ++ [r] }

def ManifestFile.sync (m : ManifestFile K V) : ManifestFile K V := { m with synced := m.records.length }

def Disk.updateManifest (d : Disk K V) (number : Nat) (f : ManifestFile K V → ManifestFile K V) :
    Disk K V :=
  { d with manifests := Function.update d.manifests number ((d.manifests number).map f) }

/-- The file operations of `SetCurrentFile`. -/
inductive SetCurrent where
  | create | write | sync | rename
  deriving DecidableEq, Repr

def SetCurrent.next : SetCurrent → Option SetCurrent
  | .create => some .write
  | .write => some .sync
  | .sync => some .rename
  | .rename => none

/-- `SetCurrentFile` writes and syncs a temp file and gives it the name `CURRENT`. -/
def Disk.setCurrentFile (d : Disk K V) (number : Nat) : SetCurrent → Disk K V
  | .create => { d with temps := Function.update d.temps number (some ⟨number,0,0⟩) }
  | .write => { d with
      temps := Function.update d.temps number ((d.temps number).map fun f => { f with written := lineLength f.manifest }) }
  | .sync => { d with
      temps := Function.update d.temps number ((d.temps number).map fun f => { f with synced := f.written }) }
  | .rename => { d with
      currentFile := (d.temps number).or d.currentFile
      temps := Function.update d.temps number none }

def Disk.remove (d : Disk K V) : FileName → Disk K V
  | .log n => { d with logs := d.logs.filter fun l => decide (l.number ≠ n) }
  | .table n => { d with tables := Function.update d.tables n none }
  | .manifest n => { d with manifests := Function.update d.manifests n none }
  | .temp n => { d with temps := Function.update d.temps n none }
  | .current => { d with currentFile := none }

/-- How much of each file a crash leaves, where more than what was synced is not certain. -/
abbrev Cut := FileName → Nat

def LogFile.cut (n : Nat) (l : LogFile K V) : LogFile K V :=
  { l with records := l.records.take (max l.synced n) }

def TableFile.cut (n : Nat) (t : TableFile K V) : TableFile K V :=
  if t.synced then t else { t with entries := t.entries.take n }

def ManifestFile.cut (n : Nat) (m : ManifestFile K V) : ManifestFile K V :=
  { m with records := m.records.take (max m.synced n) }

def NameFile.cut (n : Nat) (f : NameFile) : NameFile := { f with written := min f.written (max f.synced n) }

/-- Creations, renames and removals that were done stay done. -/
def Disk.crash (d : Disk K V) (cut : Cut) : Disk K V where
  logs := d.logs.map fun l => l.cut (cut (.log l.number))
  tables := fun n => (d.tables n).map (·.cut (cut (.table n)))
  manifests := fun n => (d.manifests n).map (·.cut (cut (.manifest n)))
  currentFile := d.currentFile.map (·.cut (cut .current))
  temps := fun n => (d.temps n).map (·.cut (cut (.temp n)))

section CurrentFile

omit [LinearOrder K] in
theorem Disk.current_line {d : Disk K V} {number : Nat} (named : d.currentFile = some (.line number)) :
    d.current = some number := by
  rw [Disk.current,named]
  exact if_pos rfl

omit [LinearOrder K] in
/-- `CURRENT` was synced before it got its name. -/
theorem Disk.crash_line {d : Disk K V} {number : Nat} (named : d.currentFile = some (.line number)) (cut : Cut) :
    (d.crash cut).currentFile = some (.line number) := by
  simp only [Disk.crash,named,Option.map_some,NameFile.line,NameFile.cut,Option.some.injEq,NameFile.mk.injEq,true_and,
    and_true]
  exact min_eq_left (le_max_left _ _)

/-- What `SetCurrentFile` has put into its temp file when it comes to this operation. -/
def SetCurrent.Temp (d : Disk K V) (number : Nat) : SetCurrent → Prop
  | .create => True
  | .write => d.temps number = some ⟨number,0,0⟩
  | .sync => d.temps number = some ⟨number,lineLength number,0⟩
  | .rename => d.temps number = some (.line number)

variable {d : Disk K V} {number : Nat} {op : SetCurrent}

omit [LinearOrder K] in
@[simp] theorem setCurrentFile_logs : (d.setCurrentFile number op).logs = d.logs := by
  cases op <;> rfl

omit [LinearOrder K] in
@[simp] theorem setCurrentFile_tables : (d.setCurrentFile number op).tables = d.tables := by
  cases op <;> rfl

omit [LinearOrder K] in
@[simp] theorem setCurrentFile_manifests : (d.setCurrentFile number op).manifests = d.manifests := by
  cases op <;> rfl

omit [LinearOrder K] in
/-- One operation makes the next one possible and leaves `CURRENT` alone, or is the rename of
the whole line. -/
theorem SetCurrent.Temp.advance (temp : op.Temp d number) :
    (∃ next, op.next = some next ∧ next.Temp (d.setCurrentFile number op) number ∧
      (d.setCurrentFile number op).currentFile = d.currentFile) ∨
    op = .rename ∧ (d.setCurrentFile number op).currentFile = some (.line number) := by
  cases op with
  | create => exact .inl ⟨_,rfl,Function.update_self _ _ _,rfl⟩
  | write =>
    refine .inl ⟨_,rfl,(Function.update_self _ _ _).trans ?_,rfl⟩
    rw [show d.temps number = some ⟨number,0,0⟩ from temp]
    rfl
  | sync =>
    refine .inl ⟨_,rfl,(Function.update_self _ _ _).trans ?_,rfl⟩
    rw [show d.temps number = some ⟨number,lineLength number,0⟩ from temp]
    rfl
  | rename =>
    refine .inr ⟨rfl,?_⟩
    simp only [Disk.setCurrentFile,show d.temps number = some (.line number) from temp,Option.some_or]

end CurrentFile

structure VersionSet (K : Type) where
  current : Version K
  nextFileNumber : Nat
  manifestFileNumber : Nat
  lastSequence : Nat
  logNumber : Nat
  prevLogNumber : Nat
  compactPointer : Nat → Option (InternalKey K)

def VersionSet.numLevelFiles (vs : VersionSet K) (level : Nat) : Nat := (vs.current.files level).length

/-- What `VersionSet::Recover` has gathered from the records read so far. -/
structure Recovered (K : Type) where
  builder : Builder K
  compactPointer : Nat → Option (InternalKey K)
  logNumber : Option Nat
  prevLogNumber : Option Nat
  nextFileNumber : Option Nat
  lastSequence : Option Nat

def setPointers (pointer : Nat → Option (InternalKey K)) (e : VersionEdit K) :
    Nat → Option (InternalKey K) :=
  e.compactPointers.foldl (fun p c => Function.update p c.1 (some c.2)) pointer

def Recovered.step (r : Recovered K) (e : VersionEdit K) : Recovered K :=
  ⟨r.builder.apply e,setPointers r.compactPointer e,e.logNumber.or r.logNumber,
    e.prevLogNumber.or r.prevLogNumber,e.nextFileNumber.or r.nextFileNumber,e.lastSequence.or r.lastSequence⟩

def Recovered.start : Recovered K := ⟨Builder.new Version.empty,fun _ => none,none,none,none,none⟩

/-- A manifest that never names a log, a next file and a last sequence is corrupt. The
next manifest takes the first free number. -/
def Recovered.versionSet (r : Recovered K) : Option (VersionSet K) := do
  let next ← r.nextFileNumber
  let log ← r.logNumber
  let last ← r.lastSequence
  some ⟨r.builder.saveTo,next + 1,next,last,log,r.prevLogNumber.getD 0,r.compactPointer⟩

def ManifestFile.recover (m : ManifestFile K V) : Option (VersionSet K) :=
  ((m.records.map (·.edit)).foldl Recovered.step Recovered.start).versionSet

end LevelDB
