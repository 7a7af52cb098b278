import LevelDB.Version

/-! Compactions: how `VersionSet` chooses the input files, and the loop of
`DoCompactionWork` that merges them, drops what no snapshot can see and cuts the rest
into output files. -/
namespace LevelDB

variable {K V : Type} [LinearOrder K]

def findLargestKey : List (FileMetaData K) → Option (InternalKey K)
  | [] => none
  | f :: rest => some (rest.foldl (fun key g => if key < g.largest then g.largest else key) f.largest)

/-- The file with the smallest start after `key` that starts with the user key of `key`. -/
def findSmallestBoundaryFile (files : List (FileMetaData K)) (key : InternalKey K) :
    Option (FileMetaData K) :=
  files.foldl (fun best f =>
    if key < f.smallest ∧ f.smallest.userKey = key.userKey then
      match best with
      | none => some f
      | some b => if f.smallest < b.smallest then some f else some b
    else best) none

/-- Each boundary file starts after the one before, so a level has fuel enough. -/
def addBoundaryLoop (files : List (FileMetaData K)) :
    Nat → InternalKey K → List (FileMetaData K) → List (FileMetaData K)
  | 0, _, inputs => inputs
  | fuel + 1, key, inputs =>
    match findSmallestBoundaryFile files key with
    | some f => addBoundaryLoop files fuel f.largest (inputs ++ [f])
    | none => inputs

def addBoundaryInputs (files inputs : List (FileMetaData K)) : List (FileMetaData K) :=
  match findLargestKey inputs with
  | none => inputs
  | some key => addBoundaryLoop files (files.length + 1) key inputs

/-- `GetRange` of a list that is not empty. -/
def getRange : List (FileMetaData K) → Option (InternalKey K × InternalKey K)
  | [] => none
  | f :: rest => some (rest.foldl (fun range g =>
      (if g.smallest < range.1 then g.smallest else range.1,
        if range.2 < g.largest then g.largest else range.2)) (f.smallest,f.largest))

structure Compaction (K : Type) where
  level : Nat
  inputs0 : List (FileMetaData K)
  inputs1 : List (FileMetaData K)
  grandparents : List (FileMetaData K)
  inputVersion : Version K
  /-- The next compaction of the level starts after this key. -/
  compactPointer : Option (InternalKey K)

def Compaction.inputs (c : Compaction K) : List (FileMetaData K) := c.inputs0 ++ c.inputs1

/-- The files of the next level that go with `inputs0`. -/
def Version.parentInputs (v : Version K) (level : Nat) (inputs0 : List (FileMetaData K)) :
    List (FileMetaData K) :=
  let range := getRange inputs0
  addBoundaryInputs (v.files (level + 1))
    (v.getOverlappingInputs (level + 1) (range.map (·.1)) (range.map (·.2)))

/-- The larger input set that `SetupOtherInputs` tries: it may not take more files of the
next level, nor too many bytes. -/
def Version.expandInputs (o : Options K V) (v : Version K) (level : Nat)
    (inputs0 inputs1 : List (FileMetaData K)) : List (FileMetaData K) × List (FileMetaData K) :=
  if inputs1 = [] then (inputs0,inputs1)
  else
    let all := getRange (inputs0 ++ inputs1)
    let expanded0 := addBoundaryInputs (v.files level)
      (v.getOverlappingInputs level (all.map (·.1)) (all.map (·.2)))
    if inputs0.length < expanded0.length ∧
        totalFileSize inputs1 + totalFileSize expanded0 < o.expandedCompactionByteSizeLimit then
      let expanded1 := v.parentInputs level expanded0
      if expanded1.length = inputs1.length then (expanded0,expanded1) else (inputs0,inputs1)
    else (inputs0,inputs1)

def Version.setupOtherInputs (o : Options K V) (v : Version K) (level : Nat)
    (chosen : List (FileMetaData K)) : Compaction K :=
  let inputs0 := addBoundaryInputs (v.files level) chosen
  let inputs := v.expandInputs o level inputs0 (v.parentInputs level inputs0)
  let all := getRange (inputs.1 ++ inputs.2)
  let grandparents := if level + 2 < kNumLevels
    then v.getOverlappingInputs (level + 2) (all.map (·.1)) (all.map (·.2)) else []
  ⟨level,inputs.1,inputs.2,grandparents,v,(getRange inputs.1).map (·.2)⟩

/-- What makes `PickCompaction` choose: the level that `Finalize` scored highest, or a file
that was missed by too many seeks. -/
inductive Trigger (K : Type) where
  | size (level : Nat)
  | seek (level : Nat) (file : FileMetaData K)

/-- The scores are floating-point numbers and the seeks are not counted here: any level
but the last may be due, and any file of it. A read charges the first of several files that
it looks into, so of these files only some are ever due. -/
def Version.due (v : Version K) : Trigger K → Bool
  | .size level => decide (level + 1 < kNumLevels) && !(v.files level).isEmpty
  | .seek level file => decide (level + 1 < kNumLevels) && decide (file ∈ v.files level)

/-- The first file after the compact pointer, or the first of the level. -/
def pickFile (pointer : Option (InternalKey K)) (files : List (FileMetaData K)) :
    List (FileMetaData K) :=
  match files.find? (fun f => pointer.all fun key => decide (key < f.largest)) with
  | some f => [f]
  | none => files.take 1

def Version.pickCompaction (o : Options K V) (v : Version K) (pointer : Nat → Option (InternalKey K))
    (trigger : Trigger K) : Compaction K :=
  let (level,chosen) := match trigger with
    | .size level => (level,pickFile (pointer level) (v.files level))
    | .seek level file => (level,[file])
  let chosen := if level = 0 then
      let range := getRange chosen
      v.getOverlappingInputs 0 (range.map (·.1)) (range.map (·.2))
    else chosen
  v.setupOtherInputs o level chosen

/-- The files up to the first that reaches the limit. -/
def takeUpTo (limit : Nat) : Nat → List (FileMetaData K) → List (FileMetaData K)
  | _, [] => []
  | total, f :: rest =>
    f :: if limit ≤ total + f.fileSize then [] else takeUpTo limit (total + f.fileSize) rest

/-- `VersionSet::CompactRange`. -/
def Version.compactRange (o : Options K V) (v : Version K) (level : Nat)
    (first last : Option (InternalKey K)) : Option (Compaction K) :=
  match v.getOverlappingInputs level first last with
  | [] => none
  | inputs => some (v.setupOtherInputs o level
      (if 0 < level then takeUpTo o.maxFileSize 0 inputs else inputs))

def Compaction.isTrivialMove (o : Options K V) (c : Compaction K) : Bool :=
  decide (c.inputs0.length = 1) && decide (c.inputs1.length = 0) &&
    decide (totalFileSize c.grandparents ≤ o.maxGrandParentOverlapBytes)

/-- The merging iterator over two children: what is before the next entry of the left one
comes from the right one. -/
def mergeEntries : List (Entry K V) → List (Entry K V) → List (Entry K V)
  | [], right => right
  | a :: left, right =>
    let before (b : Entry K V) : Bool := decide (b.key < a.key)
    right.takeWhile before ++ a :: mergeEntries left (right.dropWhile before)

/-- What the merging iterator over the inputs delivers: a level-0 file is a child each, and so is
the concatenation of the files of a deeper level. -/
def Compaction.inputEntries (c : Compaction K) (tables : Tables K V) : List (Entry K V) :=
  let files (fs : List (FileMetaData K)) := fs.map fun f => tables f.number
  let children := (if c.level = 0 then files c.inputs0 else [(files c.inputs0).flatten]) ++
    [(files c.inputs1).flatten]
  children.foldr mergeEntries []

structure CompactionState (K V : Type) where
  compaction : Compaction K
  isManual : Bool
  smallestSnapshot : Nat
  /-- What the input iterator has still to deliver. -/
  remaining : List (Entry K V)
  currentUserKey : Option K
  lastSequenceForKey : Nat
  levelPtrs : Nat → Nat
  grandparentIndex : Nat
  seenKey : Bool
  overlappedBytes : Nat
  /-- The finished output files, oldest first, and the one in the builder. -/
  outputs : List (Nat × List (Entry K V))
  building : Option (Nat × List (Entry K V))

def CompactionState.start (c : Compaction K) (isManual : Bool) (smallestSnapshot : Nat)
    (tables : Tables K V) : CompactionState K V :=
  ⟨c,isManual,smallestSnapshot,c.inputEntries tables,none,kMaxSequenceNumber,fun _ => 0,0,false,0,[],none⟩

/-- The loop of `ShouldStopBefore`: the bytes overlapped and the index reached. -/
def skipGrandparents (key : InternalKey K) (seen : Bool) :
    List (FileMetaData K) → Nat → Nat → Nat × Nat
  | [], bytes, index => (bytes,index)
  | g :: rest, bytes, index =>
    if g.largest < key then
      skipGrandparents key seen rest (if seen then bytes + g.fileSize else bytes) (index + 1)
    else (bytes,index)

def CompactionState.shouldStopBefore (o : Options K V) (c : CompactionState K V)
    (key : InternalKey K) : Bool × CompactionState K V :=
  let (bytes,index) := skipGrandparents key c.seenKey
    (c.compaction.grandparents.drop c.grandparentIndex) c.overlappedBytes c.grandparentIndex
  if o.maxGrandParentOverlapBytes < bytes then
    (true,{ c with grandparentIndex := index, seenKey := true, overlappedBytes := 0 })
  else (false,{ c with grandparentIndex := index, seenKey := true, overlappedBytes := bytes })

/-- The inner loop of `IsBaseLevelForKey`: whether the key is in the range of the file
reached, and the pointer to it. -/
def scanBaseLevel (user : K) : List (FileMetaData K) → Nat → Bool × Nat
  | [], ptr => (false,ptr)
  | f :: rest, ptr =>
    if user ≤ f.largest.userKey then (decide (f.smallest.userKey ≤ user),ptr)
    else scanBaseLevel user rest (ptr + 1)

def isBaseLevelLoop (v : Version K) (user : K) : List Nat → (Nat → Nat) → Bool × (Nat → Nat)
  | [], ptrs => (true,ptrs)
  | level :: rest, ptrs =>
    let (inside,ptr) := scanBaseLevel user ((v.files level).drop (ptrs level)) (ptrs level)
    let ptrs := Function.update ptrs level ptr
    if inside then (false,ptrs) else isBaseLevelLoop v user rest ptrs

def deeperLevels (level : Nat) : List Nat := List.range' (level + 2) (kNumLevels - (level + 2))

def CompactionState.isBaseLevelForKey (c : CompactionState K V) (user : K) : Bool × (Nat → Nat) :=
  isBaseLevelLoop c.compaction.inputVersion user (deeperLevels c.compaction.level) c.levelPtrs

/-- Whether the entry is dropped; the pointers move only if the base level was asked for. -/
def CompactionState.dropEntry (c : CompactionState K V) (e : Entry K V) :
    Bool × CompactionState K V :=
  let last := if c.currentUserKey = some e.userKey then c.lastSequenceForKey else kMaxSequenceNumber
  let next := { c with currentUserKey := some e.userKey, lastSequenceForKey := e.sequence }
  if last ≤ c.smallestSnapshot then (true,next)
  else if e.type = .deletion ∧ e.sequence ≤ c.smallestSnapshot then
    let (base,ptrs) := c.isBaseLevelForKey e.userKey
    (base,{ next with levelPtrs := ptrs })
  else (false,next)

def CompactionState.finishOutput (c : CompactionState K V) : CompactionState K V :=
  { c with outputs := c.outputs ++ c.building.toList, building := none }

/-- `OpenCompactionOutputFile` with a new number if no output is open, then `Add`. -/
def CompactionState.addEntry (o : Options K V) (number : Nat) (c : CompactionState K V)
    (e : Entry K V) : CompactionState K V :=
  let entries := (c.building.map (·.2)).getD [] ++ [e]
  let next := { c with building := some ((c.building.map (·.1)).getD number,entries) }
  if o.maxFileSize ≤ o.builderSize entries then next.finishOutput else next

/-- One pass of the loop of `DoCompactionWork`, the nested flush apart, and whether it
took the file number it was offered. -/
def CompactionState.advance (o : Options K V) (number : Nat) (c : CompactionState K V) :
    CompactionState K V × Bool :=
  match c.remaining with
  | [] => (c,false)
  | e :: rest =>
    let (stop,c) := c.shouldStopBefore o e.key
    let c := if stop then c.finishOutput else c
    let (drop,c) := c.dropEntry e
    let c := { c with remaining := rest }
    if drop then (c,false) else (c.addEntry o number e,c.building.isNone)

/-- What `FinishCompactionOutputFile` records of an output. -/
def outputFile (o : Options K V) (number : Nat) (entries : List (Entry K V)) :
    Option (FileMetaData K) := do
  let first ← entries.head?
  let last ← entries.getLast?
  some ⟨number,o.tableSize entries,first.key,last.key⟩

/-- The edit of `InstallCompactionResults`. -/
def CompactionState.edit (o : Options K V) (c : CompactionState K V) : VersionEdit K :=
  { (VersionEdit.empty : VersionEdit K) with
    compactPointers := c.compaction.compactPointer.toList.map fun key => (c.compaction.level,key)
    deletedFiles := c.compaction.inputs0.map (fun f => (c.compaction.level,f.number)) ++
      c.compaction.inputs1.map fun f => (c.compaction.level + 1,f.number)
    newFiles := (c.outputs.filterMap fun out => outputFile o out.1 out.2).map fun f =>
      (c.compaction.level + 1,f) }

/-- The edit of a trivial move. -/
def Compaction.moveEdit (c : Compaction K) : VersionEdit K :=
  { (VersionEdit.empty : VersionEdit K) with
    compactPointers := c.compactPointer.toList.map fun key => (c.level,key)
    deletedFiles := c.inputs0.map fun f => (c.level,f.number)
    newFiles := c.inputs0.map fun f => (c.level + 1,f) }

end LevelDB
