import LevelDB.Coding
import LevelDB.Iterator

/-! Blocks (`table/block_builder`, `table/block`). A key is stored without the prefix it
shares with the one before; at restart points it is stored whole, and an array of these
points closes the block. A comparator orders keys by their ranks, which may be anything in
a linear order; a seek compares its target only, so the target is given by its rank. -/
namespace LevelDB.Sstable

def putFixed32 (v : Nat) : Bytes := encodeFixed32 (BitVec.ofNat 32 v)

structure BlockBuilder where
  buffer : Bytes
  restarts : List Nat
  counter : Nat
  lastKey : Bytes
  deriving DecidableEq

/-- The first restart point is at offset 0. -/
def BlockBuilder.new : BlockBuilder := ⟨[],[0],0,[]⟩

def BlockBuilder.isEmpty (b : BlockBuilder) : Bool := b.buffer.isEmpty

def BlockBuilder.currentSizeEstimate (b : BlockBuilder) : Nat := b.buffer.length + b.restarts.length * 4 + 4

/-- How many bytes two keys have in common at the front. -/
def sharedBytes : Bytes → Bytes → Nat
  | a :: as, b :: bs => if a = b then sharedBytes as bs + 1 else 0
  | _, _ => 0

/-- `<shared><non_shared><value_size>`, the rest of the key and the value. -/
def encodeEntry (shared : Nat) (key value : Bytes) : Bytes :=
  encodeVarint32 shared ++ encodeVarint32 (key.length - shared) ++ encodeVarint32 value.length ++ key.drop shared ++ value

def BlockBuilder.add (interval : Nat) (b : BlockBuilder) (key value : Bytes) : BlockBuilder :=
  let goesOn := b.counter < interval
  let shared := if goesOn then sharedBytes b.lastKey key else 0
  { buffer := b.buffer ++ encodeEntry shared key value
    restarts := if goesOn then b.restarts else b.restarts ++ [b.buffer.length]
    counter := (if goesOn then b.counter else 0) + 1
    lastKey := b.lastKey.take shared ++ key.drop shared }

def BlockBuilder.finish (b : BlockBuilder) : Bytes :=
  b.buffer ++ b.restarts.flatMap putFixed32 ++ putFixed32 b.restarts.length

/-- `Block::Iter`. The value is a part of the data; the next entry starts behind it. -/
structure BlockIter where
  data : Bytes
  restarts : Nat
  numRestarts : Nat
  current : Nat
  restartIndex : Nat
  key : Bytes
  valueOffset : Nat
  valueSize : Nat
  status : Option String
  deriving DecidableEq

/-- The three lengths at the front of an entry, with a fast path where each is one byte. -/
def decodeLengths (input : Bytes) : Option (Nat × Nat × Nat × Bytes) :=
  let shared := (input.getD 0 0).toNat
  let nonShared := (input.getD 1 0).toNat
  let valueLength := (input.getD 2 0).toNat
  if shared ||| nonShared ||| valueLength < 128 then some (shared,nonShared,valueLength,input.drop 3)
  else (getVarint32 input).bind fun (shared,rest) => (getVarint32 rest).bind fun (nonShared,rest) =>
    (getVarint32 rest).map fun (valueLength,rest) => (shared,nonShared,valueLength,rest)

/-- `DecodeEntry`, over the bytes up to the limit: the three lengths and what follows them. -/
def decodeEntry (input : Bytes) : Option (Nat × Nat × Nat × Bytes) :=
  if input.length < 3 then none
  else (decodeLengths input).filter fun (_,nonShared,valueLength,rest) =>
    !decide (rest.length % 2^32 < (nonShared + valueLength) % 2^32)

namespace BlockIter

def new (data : Bytes) (restarts numRestarts : Nat) : BlockIter :=
  ⟨data,restarts,numRestarts,restarts,numRestarts,[],0,0,none⟩

def valid (s : BlockIter) : Bool := s.current < s.restarts

def value (s : BlockIter) : Bytes := (s.data.drop s.valueOffset).take s.valueSize

def nextEntryOffset (s : BlockIter) : Nat := (s.valueOffset + s.valueSize) % 2^32

def getRestartPoint (s : BlockIter) (index : Nat) : Nat := (decodeFixed32 (s.data.drop (s.restarts + index * 4))).toNat

def seekToRestartPoint (s : BlockIter) (index : Nat) : BlockIter :=
  { s with key := [], restartIndex := index, valueOffset := s.getRestartPoint index, valueSize := 0 }

def corruptionError (s : BlockIter) : BlockIter :=
  { s with
    current := s.restarts
    restartIndex := s.numRestarts
    status := some "bad entry in block"
    key := []
    valueOffset := 0
    valueSize := 0 }

/-- The restart block in which the current entry falls. -/
def advanceRestart (s : BlockIter) : Nat → Nat → Nat
  | 0, index => index
  | fuel + 1, index =>
    if index + 1 < s.numRestarts ∧ s.getRestartPoint (index + 1) < s.current then s.advanceRestart fuel (index + 1) else index

def parseNextKey (s : BlockIter) : Bool × BlockIter :=
  let s := { s with current := s.nextEntryOffset }
  if s.restarts ≤ s.current then (false,{ s with current := s.restarts, restartIndex := s.numRestarts })
  else match decodeEntry ((s.data.take s.restarts).drop s.current) with
    | none => (false,s.corruptionError)
    | some (shared,nonShared,valueLength,rest) =>
      if s.key.length < shared then (false,s.corruptionError)
      else (true,{ s with
        key := s.key.take shared ++ rest.take nonShared
        valueOffset := s.restarts - rest.length + nonShared
        valueSize := valueLength
        restartIndex := s.advanceRestart s.numRestarts s.restartIndex })

/-- `while (ParseNextKey() && NextEntryOffset() < limit)`. -/
def parseUntil (limit : Nat) : Nat → BlockIter → BlockIter
  | 0, s => s
  | fuel + 1, s =>
    let (more,s) := s.parseNextKey
    if more && decide (s.nextEntryOffset < limit) then parseUntil limit fuel s else s

/-- The loop of `Prev` that goes back to a restart point before the entry. -/
def restartBefore (s : BlockIter) (original : Nat) : Nat → Option Nat
  | 0 => if original ≤ s.getRestartPoint 0 then none else some 0
  | index + 1 => if original ≤ s.getRestartPoint (index + 1) then s.restartBefore original index else some (index + 1)

def next (s : BlockIter) : BlockIter := s.parseNextKey.2

def prev (s : BlockIter) : BlockIter :=
  match s.restartBefore s.current s.restartIndex with
  | none => { s with current := s.restarts, restartIndex := s.numRestarts }
  | some index => (s.seekToRestartPoint index).parseUntil s.current s.data.length

def seekToFirst (s : BlockIter) : BlockIter := (s.seekToRestartPoint 0).parseNextKey.2

def seekToLast (s : BlockIter) : BlockIter :=
  (s.seekToRestartPoint (s.numRestarts - 1)).parseUntil s.restarts s.data.length

section Seek
variable {T : Type} [LinearOrder T] (rank : Bytes → T)

/-- The binary search over the restart points, for the last one with a key before the target. -/
def searchRestart (s : BlockIter) (target : T) : Nat → Nat → Nat → Option Nat
  | 0, left, _ => some left
  | fuel + 1, left, right =>
    if left < right then
      let mid := (left + right + 1) / 2
      match decodeEntry ((s.data.take s.restarts).drop (s.getRestartPoint mid)) with
      | none => none
      | some (shared,nonShared,_,rest) =>
        if shared ≠ 0 then none
        else if rank (rest.take nonShared) < target then s.searchRestart target fuel mid right
        else s.searchRestart target fuel left (mid - 1)
    else some left

/-- The linear search for the first key at or after the target. -/
def searchKey (target : T) : Nat → BlockIter → BlockIter
  | 0, s => s
  | fuel + 1, s =>
    let (more,s) := s.parseNextKey
    if more && decide (rank s.key < target) then searchKey target fuel s else s

def seek (target : T) (s : BlockIter) : BlockIter :=
  if s.valid ∧ rank s.key = target then s
  else
    let before := s.valid && decide (rank s.key < target)
    let left := if before then s.restartIndex else 0
    let right := if s.valid && !before then s.restartIndex else s.numRestarts - 1
    match s.searchRestart rank target s.numRestarts left right with
    | none => s.corruptionError
    | some left =>
      let s := if left = s.restartIndex ∧ before then s else s.seekToRestartPoint left
      searchKey rank target s.data.length s

def ops : IteratorOps BlockIter (Bytes × Bytes) T where
  current s := if s.valid then some (s.key,s.value) else none
  seekToFirst := seekToFirst
  seekToLast := seekToLast
  seek := seek rank
  next := next
  prev := prev

end Seek

end BlockIter

/-- `Block`; a size of zero marks an error. -/
structure Block where
  data : Bytes
  size : Nat
  restartOffset : Nat
  deriving DecidableEq

def Block.numRestarts (b : Block) : Nat := (decodeFixed32 (b.data.drop (b.size - 4))).toNat

def Block.open (contents : Bytes) : Block :=
  let b : Block := ⟨contents,contents.length,0⟩
  if b.size < 4 then { b with size := 0 }
  else if (b.size - 4) / 4 < b.numRestarts then { b with size := 0 }
  else { b with restartOffset := (b.size - (1 + b.numRestarts) * 4) % 2^32 }

/-- What a block gives to iterate with: `Block::Iter`, or `EmptyIterator` with a status. -/
inductive DataIterator where
  | empty (status : Option String)
  | iter (s : BlockIter)
  deriving DecidableEq

def Block.newIterator (b : Block) : DataIterator :=
  if b.size < 4 then .empty (some "bad block contents")
  else if b.numRestarts = 0 then .empty none
  else .iter (.new b.data b.restartOffset b.numRestarts)

namespace DataIterator

def status : DataIterator → Option String
  | empty status => status
  | iter s => s.status

def map (move : BlockIter → BlockIter) : DataIterator → DataIterator
  | empty status => empty status
  | iter s => iter (move s)

def ops {T : Type} [LinearOrder T] (rank : Bytes → T) : IteratorOps DataIterator (Bytes × Bytes) T where
  current
    | empty _ => none
    | iter s => (BlockIter.ops rank).current s
  seekToFirst := map (BlockIter.ops rank).seekToFirst
  seekToLast := map (BlockIter.ops rank).seekToLast
  seek t := map ((BlockIter.ops rank).seek t)
  next := map (BlockIter.ops rank).next
  prev := map (BlockIter.ops rank).prev

end DataIterator

end LevelDB.Sstable
