import LevelDB.Db
import LevelDB.Iterator
import LevelDB.VersionLookup

/-! The iterator of a database (`db/db_iter`): `NewInternalIterator` merges the memtables,
the level-0 tables and the deeper levels; `DBIter` shows of each user key the newest
entry that its sequence number sees. -/
namespace LevelDB

variable {K V : Type} [LinearOrder K]

/-- `LevelFileNumIterator`: the files of a level, sought by their largest keys. -/
structure LevelFileNumIterator (K : Type) where
  files : List (FileMetaData K)
  index : Nat

def LevelFileNumIterator.new (files : List (FileMetaData K)) : LevelFileNumIterator K := ⟨files,files.length⟩

/-- The value of an entry is the number and the size of the file. -/
def LevelFileNumIterator.ops : IteratorOps (LevelFileNumIterator K) (Nat × Nat) (InternalKey K) where
  current s := (s.files[s.index]?).map fun f => (f.number,f.fileSize)
  seekToFirst s := { s with index := 0 }
  seekToLast s := { s with index := s.files.length - 1 }
  seek t s := { s with index := findFile s.files t }
  next s := { s with index := s.index + 1 }
  prev s := { s with index := if s.index = 0 then s.files.length else s.index - 1 }

abbrev EntryIter (K V : Type) := ListIter (Entry K V)

abbrev ConcatenatingIterator (K V : Type) := TwoLevelIterator (LevelFileNumIterator K) (Nat × Nat) (EntryIter K V)

def entryOps : IteratorOps (EntryIter K V) (Entry K V) (InternalKey K) := ListIter.ops Entry.key

/-- `GetFileIterator`. -/
def getFileIterator (tables : Tables K V) (handle : Nat × Nat) : EntryIter K V := .new (tables handle.1)

def concatenatingOps (tables : Tables K V) :
    IteratorOps (ConcatenatingIterator K V) (Entry K V) (InternalKey K) :=
  TwoLevelIterator.ops LevelFileNumIterator.ops entryOps (getFileIterator tables)

def newConcatenatingIterator (files : List (FileMetaData K)) : ConcatenatingIterator K V :=
  ⟨.new files,none,files.length⟩

/-- A child of the internal iterator: a memtable, a table or a level. -/
abbrev ChildIter (K V : Type) := EntryIter K V ⊕ ConcatenatingIterator K V

def childOps (tables : Tables K V) : IteratorOps (ChildIter K V) (Entry K V) (InternalKey K) :=
  entryOps.sum (concatenatingOps tables)

/-- `Version::AddIterators`. -/
def Version.addIterators (v : Version K) (tables : Tables K V) : List (ChildIter K V) :=
  ((v.files 0).map fun f => .inl (.new (tables f.number))) ++
    ((List.range' 1 (kNumLevels - 1)).filter fun level => !(v.files level).isEmpty).map fun level =>
      .inr (newConcatenatingIterator (v.files level))

/-- What `NewMergingIterator` returns: a single child is not wrapped. -/
inductive InternalIterator (K V : Type) where
  | empty
  | single (child : ChildIter K V)
  | merging (m : MergingIterator (ChildIter K V))

def newMergingIterator : List (ChildIter K V) → InternalIterator K V
  | [] => .empty
  | [child] => .single child
  | children => .merging (.new children)

def InternalIterator.map (single : ChildIter K V → ChildIter K V)
    (merging : MergingIterator (ChildIter K V) → MergingIterator (ChildIter K V)) :
    InternalIterator K V → InternalIterator K V
  | .empty => .empty
  | .single child => .single (single child)
  | .merging m => .merging (merging m)

def internalOps (tables : Tables K V) :
    IteratorOps (InternalIterator K V) (Entry K V) (InternalKey K) :=
  let child := childOps tables
  let merge := MergingIterator.ops child Entry.key
  { current := fun
      | .empty => none
      | .single c => child.current c
      | .merging m => merge.current m
    seekToFirst := .map child.seekToFirst merge.seekToFirst
    seekToLast := .map child.seekToLast merge.seekToLast
    seek := fun t => .map (child.seek t) (merge.seek t)
    next := .map child.next merge.next
    prev := .map child.prev merge.prev }

/-- The children of the input iterator for one of the two levels; a level without files has none. -/
def inputIterators (tables : Tables K V) (level : Nat) (files : List (FileMetaData K)) : List (ChildIter K V) :=
  if files = [] then []
  else if level = 0 then files.map fun f => .inl (.new (tables f.number))
  else [.inr (newConcatenatingIterator files)]

/-- `VersionSet::MakeInputIterator`. -/
def Compaction.makeInputIterator (c : Compaction K) (tables : Tables K V) : InternalIterator K V :=
  newMergingIterator (inputIterators tables c.level c.inputs0 ++ inputIterators tables (c.level + 1) c.inputs1)

/-- The children of the internal iterator: `mem_`, `imm_` and the current version. -/
def Db.childIterators (db : Db K V) (tables : Tables K V) : List (ChildIter K V) :=
  .inl (.new db.mem) :: (db.imm.toList.map fun imm => .inl (.new imm)) ++
    db.versions.current.addIterators tables

def Db.newInternalIterator (db : Db K V) (tables : Tables K V) : InternalIterator K V :=
  newMergingIterator (db.childIterators tables)

/-- `DBIter` over an internal iterator. `savedKey` and `savedValue` are empty when nothing is
saved; the loops make at most `limit` passes, the number of entries. -/
structure DbIter (σ K V : Type) where
  iter : σ
  sequence : Nat
  forward : Bool
  valid : Bool
  savedKey : Option K
  savedValue : Option V
  limit : Nat

section Cursor
variable {σ : Type} (internal : IteratorOps σ (Entry K V) (InternalKey K))

def DbIter.new (iter : σ) (sequence limit : Nat) : DbIter σ K V := ⟨iter,sequence,true,false,none,none,limit⟩

def DbIter.step (move : σ → σ) (d : DbIter σ K V) : DbIter σ K V := { d with iter := move d.iter }

/-- `FindNextUserEntry`, whose `skip` is `saved_key_`. -/
def DbIter.findNextUserEntry : Nat → Bool → DbIter σ K V → DbIter σ K V
  | 0, _, d => d
  | fuel + 1, skipping, d =>
    match internal.current d.iter with
    | none => { d with valid := false, savedKey := none }
    | some e =>
      if e.sequence ≤ d.sequence then
        match e.value with
        | none => findNextUserEntry fuel true ({ d with savedKey := some e.userKey }.step internal.next)
        | some _ =>
          if skipping && d.savedKey.any fun key => decide (e.userKey ≤ key) then
            findNextUserEntry fuel skipping (d.step internal.next)
          else { d with valid := true, savedKey := none }
      else findNextUserEntry fuel skipping (d.step internal.next)

/-- The loop of `FindPrevUserEntry`; `found` says that the last entry seen is a value. -/
def DbIter.findPrevLoop : Nat → Bool → DbIter σ K V → Bool × DbIter σ K V
  | 0, found, d => (found,d)
  | fuel + 1, found, d =>
    match internal.current d.iter with
    | none => (found,d)
    | some e =>
      if e.sequence ≤ d.sequence then
        if found && d.savedKey.any fun key => decide (e.userKey < key) then (found,d)
        else match e.value with
          | none => findPrevLoop fuel false ({ d with savedKey := none, savedValue := none }.step internal.prev)
          | some v => findPrevLoop fuel true
              ({ d with savedKey := some e.userKey, savedValue := some v }.step internal.prev)
      else findPrevLoop fuel found (d.step internal.prev)

def DbIter.findPrevUserEntry (d : DbIter σ K V) : DbIter σ K V :=
  match d.findPrevLoop internal (d.limit + 1) false with
  | (true,d) => { d with valid := true }
  | (false,d) => { d with valid := false, savedKey := none, savedValue := none, forward := true }

/-- The loop of `Prev` that leaves the entries of the current key. -/
def DbIter.leaveKey (key : K) : Nat → DbIter σ K V → Bool × DbIter σ K V
  | 0, d => (false,d)
  | fuel + 1, d =>
    let d := d.step internal.prev
    match internal.current d.iter with
    | none => (false,d)
    | some e => if e.userKey < key then (true,d) else leaveKey key fuel d

def DbIter.seek (user : K) (d : DbIter σ K V) : DbIter σ K V :=
  let d := { d with
    forward := true
    savedValue := none
    savedKey := some user
    iter := internal.seek (lookupKey user d.sequence) d.iter }
  if (internal.current d.iter).isSome then d.findNextUserEntry internal (d.limit + 1) false
  else { d with valid := false }

def DbIter.seekToFirst (d : DbIter σ K V) : DbIter σ K V :=
  let d := { d with forward := true, savedValue := none, iter := internal.seekToFirst d.iter }
  if (internal.current d.iter).isSome then d.findNextUserEntry internal (d.limit + 1) false
  else { d with valid := false }

def DbIter.seekToLast (d : DbIter σ K V) : DbIter σ K V :=
  { d with forward := false, savedValue := none, iter := internal.seekToLast d.iter }.findPrevUserEntry internal

def DbIter.next (d : DbIter σ K V) : DbIter σ K V :=
  let d := if d.forward then
      { d with savedKey := (internal.current d.iter).map Entry.userKey }.step internal.next
    else { d with
      forward := true
      iter := if (internal.current d.iter).isNone then internal.seekToFirst d.iter else internal.next d.iter }
  if (internal.current d.iter).isSome then d.findNextUserEntry internal (d.limit + 1) true
  else { d with valid := false, savedKey := none }

def DbIter.prev (d : DbIter σ K V) : DbIter σ K V :=
  if d.forward then
    match internal.current d.iter with
    | none => { d with valid := false }
    | some e =>
      match { d with savedKey := some e.userKey }.leaveKey internal e.userKey (d.limit + 1) with
      | (true,d) => { d with forward := false }.findPrevUserEntry internal
      | (false,d) => { d with valid := false, savedKey := none, savedValue := none }
  else d.findPrevUserEntry internal

/-- `Valid`, `key` and `value`. -/
def DbIter.current (d : DbIter σ K V) : Option (K × V) :=
  if !d.valid then none
  else if d.forward then (internal.current d.iter).bind fun e => e.value.map fun v => (e.userKey,v)
  else d.savedKey.bind fun key => d.savedValue.map fun v => (key,v)

def DbIter.ops : IteratorOps (DbIter σ K V) (K × V) K where
  current := DbIter.current internal
  seekToFirst := DbIter.seekToFirst internal
  seekToLast := DbIter.seekToLast internal
  seek := DbIter.seek internal
  next := DbIter.next internal
  prev := DbIter.prev internal

end Cursor

/-- The number of entries under the iterator. -/
def Db.entryCount (db : Db K V) (tables : Tables K V) : Nat :=
  db.mem.length + (db.imm.getD []).length +
    ((List.range kNumLevels).flatMap fun level =>
      (db.versions.current.files level).flatMap fun f => tables f.number).length

/-- `NewIterator` as of a sequence number. -/
def Db.newIterator (db : Db K V) (tables : Tables K V) (sequence : Nat) : DbIter (InternalIterator K V) K V :=
  .new (db.newInternalIterator tables) sequence (db.entryCount tables)

end LevelDB
