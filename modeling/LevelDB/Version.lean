import LevelDB.Format

/-! Versions of the file tree (`db/version_set`): the files of each level, lookups and
overlap tests over them, and the edits that lead from one version to the next. What a
table holds is read by its number. -/
namespace LevelDB

variable {K V : Type} [LinearOrder K]

/-- `allowed_seeks` and the reference count are left out. -/
structure FileMetaData (K : Type) where
  number : Nat
  fileSize : Nat
  smallest : InternalKey K
  largest : InternalKey K
  deriving DecidableEq, Repr

/-- The options, and the sizes that depend on formats not modelled here: what an update
adds to a batch, what the arena of a memtable takes, what a table builder has written
so far and what a finished table takes. -/
structure Options (K V : Type) where
  maxFileSize : Nat
  writeBufferSize : Nat
  updateSize : K × Option V → Nat
  memoryUsage : MemTable K V → Nat
  builderSize : List (Entry K V) → Nat
  tableSize : List (Entry K V) → Nat
  tableSize_pos : ∀ entries, entries ≠ [] → 0 < tableSize entries

def Options.maxGrandParentOverlapBytes (o : Options K V) : Nat := 10 * o.maxFileSize

def Options.expandedCompactionByteSizeLimit (o : Options K V) : Nat := 25 * o.maxFileSize

/-- The table files by number. -/
abbrev Tables (K V : Type) := Nat → List (Entry K V)

def totalFileSize (files : List (FileMetaData K)) : Nat := (files.map (·.fileSize)).sum

structure Version (K : Type) where
  files : Nat → List (FileMetaData K)

def Version.empty : Version K := ⟨fun _ => []⟩

/-- The loop of `FindFile`; the distance halves, so the number of files is fuel enough. -/
def findFileLoop (files : List (FileMetaData K)) (key : InternalKey K) : Nat → Nat → Nat → Nat
  | 0, _, right => right
  | fuel + 1, left, right =>
    if left < right then
      let mid := (left + right) / 2
      match files[mid]? with
      | some f => if f.largest < key then findFileLoop files key fuel (mid + 1) right
        else findFileLoop files key fuel left mid
      | none => right
    else right

def findFile (files : List (FileMetaData K)) (key : InternalKey K) : Nat :=
  findFileLoop files key (files.length + 1) 0 files.length

/-- A missing user key is before all keys. -/
def afterFile (user : Option K) (f : FileMetaData K) : Bool :=
  user.any fun u => decide (f.largest.userKey < u)

/-- A missing user key is after all keys. -/
def beforeFile (user : Option K) (f : FileMetaData K) : Bool :=
  user.any fun u => decide (u < f.smallest.userKey)

def someFileOverlapsRange (disjointSorted : Bool) (files : List (FileMetaData K))
    (smallest largest : Option K) : Bool :=
  if disjointSorted then
    let index := match smallest with
      | some u => findFile files (lookupKey u kMaxSequenceNumber)
      | none => 0
    match files[index]? with
    | some f => !beforeFile largest f
    | none => false
  else files.any fun f => !(afterFile smallest f || beforeFile largest f)

def Version.overlapInLevel (v : Version K) (level : Nat) (smallest largest : Option K) : Bool :=
  someFileOverlapsRange (decide (0 < level)) (v.files level) smallest largest

/-- One pass over the files of a level: the overlapping ones, or the wider range of a
level-0 file that makes the search start again. -/
def scanOverlapping (level : Nat) (first last : Option K) :
    List (FileMetaData K) → List (FileMetaData K) →
      List (FileMetaData K) ⊕ (Option K × Option K)
  | [], inputs => .inl inputs
  | f :: rest, inputs =>
    if afterFile first f || beforeFile last f then scanOverlapping level first last rest inputs
    else if level = 0 ∧ first.any (fun u => decide (f.smallest.userKey < u)) then
      .inr (some f.smallest.userKey,last)
    else if level = 0 ∧ last.any (fun u => decide (u < f.largest.userKey)) then
      .inr (first,some f.largest.userKey)
    else scanOverlapping level first last rest (inputs ++ [f])

/-- Every restart moves an end of the range to the end of another file. -/
def overlappingLoop (level : Nat) (files : List (FileMetaData K)) :
    Nat → Option K → Option K → List (FileMetaData K)
  | 0, _, _ => []
  | fuel + 1, first, last =>
    match scanOverlapping level first last files [] with
    | .inl inputs => inputs
    | .inr (first,last) => overlappingLoop level files fuel first last

def Version.getOverlappingInputs (v : Version K) (level : Nat) (first last : Option (InternalKey K)) :
    List (FileMetaData K) :=
  overlappingLoop level (v.files level) (2 * (v.files level).length + 1)
    (first.map (·.userKey)) (last.map (·.userKey))

/-- The loop of `PickLevelForMemTableOutput`. -/
def Version.pickLevelLoop (o : Options K V) (v : Version K) (smallest largest : K) : Nat → Nat → Nat
  | 0, level => level
  | fuel + 1, level =>
    if v.overlapInLevel (level + 1) (some smallest) (some largest) then level
    else if level + 2 < kNumLevels ∧ o.maxGrandParentOverlapBytes <
        totalFileSize (v.getOverlappingInputs (level + 2)
          (some (lookupKey smallest kMaxSequenceNumber)) (some ⟨largest,0,.deletion⟩)) then level
    else v.pickLevelLoop o smallest largest fuel (level + 1)

def Version.pickLevelForMemTableOutput (o : Options K V) (v : Version K) (smallest largest : K) : Nat :=
  if v.overlapInLevel 0 (some smallest) (some largest) then 0
  else v.pickLevelLoop o smallest largest kMaxMemCompactLevel 0

/-- The level-0 files whose range holds the key, newest first. -/
def Version.overlapping0 (v : Version K) (user : K) : List (FileMetaData K) :=
  ((v.files 0).filter fun f =>
    decide (f.smallest.userKey ≤ user) && decide (user ≤ f.largest.userKey)).insertionSort
    fun a b => b.number ≤ a.number

/-- The one file of a deeper level that may hold the key. -/
def Version.overlappingAt (v : Version K) (user : K) (target : InternalKey K) (level : Nat) :
    List (FileMetaData K) :=
  match (v.files level)[findFile (v.files level) target]? with
  | some f => if user < f.smallest.userKey then [] else [f]
  | none => []

/-- The files that `ForEachOverlapping` visits, in order, unless it is told to stop. -/
def Version.forEachOverlapping (v : Version K) (user : K) (target : InternalKey K) :
    List (FileMetaData K) :=
  v.overlapping0 user ++ (List.range' 1 (kNumLevels - 1)).flatMap (v.overlappingAt user target)

def searchFiles (tables : Tables K V) (user : K) (snapshot : Nat) :
    List (FileMetaData K) → SaverState V
  | [] => .notFound
  | f :: rest =>
    match getFrom (tables f.number) user snapshot with
    | .notFound => searchFiles tables user snapshot rest
    | state => state

def Version.get (v : Version K) (tables : Tables K V) (user : K) (snapshot : Nat) : SaverState V :=
  searchFiles tables user snapshot (v.forEachOverlapping user (lookupKey user snapshot))

/-- The comparator's name is left out. -/
structure VersionEdit (K : Type) where
  logNumber : Option Nat
  prevLogNumber : Option Nat
  nextFileNumber : Option Nat
  lastSequence : Option Nat
  compactPointers : List (Nat × InternalKey K)
  deletedFiles : List (Nat × Nat)
  newFiles : List (Nat × FileMetaData K)

def VersionEdit.empty : VersionEdit K := ⟨none,none,none,none,[],[],[]⟩

def VersionEdit.addFile (e : VersionEdit K) (level : Nat) (f : FileMetaData K) : VersionEdit K :=
  { e with newFiles := e.newFiles ++ [(level,f)] }

def VersionEdit.removeFile (e : VersionEdit K) (level number : Nat) : VersionEdit K :=
  { e with deletedFiles := e.deletedFiles ++ [(level,number)] }

/-- `BySmallestKey`. -/
def BySmallestKey (a b : FileMetaData K) : Prop :=
  a.smallest < b.smallest ∨ a.smallest = b.smallest ∧ a.number < b.number

instance (a b : FileMetaData K) : Decidable (BySmallestKey a b) := by
  unfold BySmallestKey; infer_instance

/-- The changes collected over a base version; `added` are sets in the order of their
smallest keys. -/
structure Builder (K : Type) where
  base : Version K
  deleted : Nat → List Nat
  added : Nat → List (FileMetaData K)

def Builder.new (base : Version K) : Builder K := ⟨base,fun _ => [],fun _ => []⟩

/-- Insertion into a `FileSet`: an equivalent file stays. -/
def insertFile (f : FileMetaData K) : List (FileMetaData K) → List (FileMetaData K)
  | [] => [f]
  | g :: rest =>
    if BySmallestKey f g then f :: g :: rest
    else if BySmallestKey g f then g :: insertFile f rest
    else g :: rest

def Builder.delete (b : Builder K) (level number : Nat) : Builder K :=
  { b with deleted := Function.update b.deleted level (number :: b.deleted level) }

def Builder.add (b : Builder K) (level : Nat) (f : FileMetaData K) : Builder K :=
  { b with
    deleted := Function.update b.deleted level ((b.deleted level).filter (· ≠ f.number))
    added := Function.update b.added level (insertFile f (b.added level)) }

def Builder.apply (b : Builder K) (e : VersionEdit K) : Builder K :=
  let b := e.deletedFiles.foldl (fun b d => b.delete d.1 d.2) b
  e.newFiles.foldl (fun b n => b.add n.1 n.2) b

/-- The merge of `SaveTo`: before an added file go the base files up to its
`upper_bound`. -/
def saveLevel : List (FileMetaData K) → List (FileMetaData K) → List (FileMetaData K)
  | base, [] => base
  | base, a :: added =>
    base.takeWhile (fun b => decide ¬BySmallestKey a b) ++
      a :: saveLevel (base.dropWhile fun b => decide ¬BySmallestKey a b) added

def Builder.saveTo (b : Builder K) : Version K :=
  ⟨fun level => (saveLevel (b.base.files level) (b.added level)).filter
    fun f => decide (f.number ∉ b.deleted level)⟩

/-- The version that `LogAndApply` makes of the current one. -/
def Version.apply (v : Version K) (e : VersionEdit K) : Version K :=
  ((Builder.new v).apply e).saveTo

end LevelDB
