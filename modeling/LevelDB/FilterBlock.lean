import LevelDB.Block

/-! Filter blocks (`table/filter_block`). A filter covers the keys of all data blocks that
start in the same 2 KiB of the file. Filters are found by the offset of a block, not by its
number. -/
namespace LevelDB.Sstable

/-- `FilterPolicy`; a created filter is appended to what is there. -/
structure FilterPolicy where
  name : Bytes
  createFilter : List Bytes → Bytes
  keyMayMatch : Bytes → Bytes → Bool

def kFilterBaseLg : Nat := 11

def kFilterBase : Nat := 2^kFilterBaseLg

structure FilterBlockBuilder where
  keys : List Bytes
  result : Bytes
  filterOffsets : List Nat
  deriving DecidableEq

/-- How far a count of type `int` makes a loop go. -/
def castInt (n : Nat) : Nat := if n % 2^32 < 2^31 then n % 2^32 else 0

namespace FilterBlockBuilder

def new : FilterBlockBuilder := ⟨[],[],[]⟩

variable (policy : FilterPolicy)

def generateFilter (b : FilterBlockBuilder) : FilterBlockBuilder :=
  let filterOffsets := b.filterOffsets ++ [b.result.length % 2^32]
  if b.keys = [] then { b with filterOffsets := filterOffsets }
  else { keys := [], result := b.result ++ policy.createFilter (b.keys.take (castInt b.keys.length)), filterOffsets := filterOffsets }

/-- `while (filter_index > filter_offsets_.size())`. -/
def generateUntil (filterIndex : Nat) : Nat → FilterBlockBuilder → FilterBlockBuilder
  | 0, b => b
  | fuel + 1, b => if b.filterOffsets.length < filterIndex then generateUntil filterIndex fuel (b.generateFilter policy) else b

def startBlock (blockOffset : Nat) (b : FilterBlockBuilder) : FilterBlockBuilder :=
  generateUntil policy (blockOffset / kFilterBase) (blockOffset / kFilterBase) b

def addKey (key : Bytes) (b : FilterBlockBuilder) : FilterBlockBuilder := { b with keys := b.keys ++ [key] }

/-- The filters, their offsets, the offset of these and the encoding parameter. -/
def encode (b : FilterBlockBuilder) : Bytes :=
  b.result ++ b.filterOffsets.flatMap putFixed32 ++ putFixed32 b.result.length ++ [UInt8.ofNat kFilterBaseLg]

def finish (b : FilterBlockBuilder) : Bytes := if b.keys = [] then b.encode else (b.generateFilter policy).encode

end FilterBlockBuilder

/-- `FilterBlockReader`; the offsets start at `offset` in the data. -/
structure FilterBlockReader where
  data : Bytes
  offset : Nat
  num : Nat
  baseLg : Nat
  deriving DecidableEq

def FilterBlockReader.new (contents : Bytes) : FilterBlockReader :=
  let n := contents.length
  if n < 5 then ⟨[],0,0,0⟩
  else
    let baseLg := (contents.getD (n - 1) 0).toNat
    let lastWord := (decodeFixed32 (contents.drop (n - 5))).toNat
    if n - 5 < lastWord then ⟨[],0,0,baseLg⟩
    else ⟨contents,lastWord,(n - 5 - lastWord) / 4,baseLg⟩

/-- Errors are treated as potential matches; an empty filter matches nothing. -/
def FilterBlockReader.keyMayMatch (policy : FilterPolicy) (r : FilterBlockReader) (blockOffset : Nat) (key : Bytes) : Bool :=
  let index := blockOffset >>> r.baseLg
  if index < r.num then
    let start := (decodeFixed32 (r.data.drop (r.offset + index * 4))).toNat
    let limit := (decodeFixed32 (r.data.drop (r.offset + index * 4 + 4))).toNat
    if start ≤ limit ∧ limit ≤ r.offset then policy.keyMayMatch key ((r.data.drop start).take (limit - start))
    else if start = limit then false
    else true
  else true

end LevelDB.Sstable
