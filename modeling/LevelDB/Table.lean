import LevelDB.FilterBlock
import LevelDB.TwoLevelCursor
import Mathlib.Data.List.Lex

/-! Tables (`table/table_builder`, `table/table`, `table/format`). A file of blocks: the data
blocks, a filter block, the metaindex block, the index block and a footer that finds the last
two. Files are written and read without errors, and blocks are not cached. -/
namespace LevelDB.Sstable

structure BlockHandle where
  offset : Nat
  size : Nat
  deriving DecidableEq

def BlockHandle.encode (h : BlockHandle) : Bytes := encodeVarint64 h.offset ++ encodeVarint64 h.size

def BlockHandle.decode (input : Bytes) : Except String (BlockHandle × Bytes) :=
  match getVarint64 input with
  | none => .error "bad block handle"
  | some (offset,rest) =>
    match getVarint64 rest with
    | none => .error "bad block handle"
    | some (size,rest) => .ok (⟨offset,size⟩,rest)

structure Footer where
  metaindexHandle : BlockHandle
  indexHandle : BlockHandle
  deriving DecidableEq

def Footer.kEncodedLength : Nat := 48

def kTableMagicNumber : Nat := 0xdb4775248b80fb57

/-- The handles are padded to forty bytes. -/
def Footer.encode (f : Footer) : Bytes :=
  (f.metaindexHandle.encode ++ f.indexHandle.encode ++ List.replicate 40 0).take 40 ++
    putFixed32 (kTableMagicNumber % 2^32) ++ putFixed32 (kTableMagicNumber / 2^32)

def Footer.decode (input : Bytes) : Except String Footer :=
  if input.length < kEncodedLength then .error "not an sstable (footer too short)"
  else if (decodeFixed32 (input.drop 44)).toNat * 2^32 + (decodeFixed32 (input.drop 40)).toNat ≠ kTableMagicNumber then
    .error "not an sstable (bad magic number)"
  else do
    let (metaindexHandle,rest) ← BlockHandle.decode input
    let (indexHandle,_) ← BlockHandle.decode rest
    return ⟨metaindexHandle,indexHandle⟩

inductive CompressionType where
  | noCompression | snappyCompression | zstdCompression
  deriving DecidableEq

def CompressionType.code : CompressionType → UInt8
  | .noCompression => 0
  | .snappyCompression => 1
  | .zstdCompression => 2

/-- A codec of the port; it may not be there at all. -/
structure Codec where
  compress : Bytes → Option Bytes
  getUncompressedLength : Bytes → Option Nat
  uncompress : Bytes → Option Bytes

/-- What was compressed is got back. -/
structure Codec.Lawful (c : Codec) : Prop where
  length : ∀ raw packed, c.compress raw = some packed → c.getUncompressedLength packed = some raw.length
  contents : ∀ raw packed, c.compress raw = some packed → c.uncompress packed = some raw

/-- The options a table is built and opened with. The comparator is given by the rank of a
key in a linear order. -/
structure Options (T : Type) where
  rank : Bytes → T
  findShortestSeparator : Bytes → Bytes → Bytes
  findShortSuccessor : Bytes → Bytes
  blockSize : Nat
  blockRestartInterval : Nat
  compression : CompressionType
  snappy : Codec
  zstd : Codec
  filterPolicy : Option FilterPolicy
  paranoidChecks : Bool

/-- The contract of the comparator and of the codecs. -/
structure Options.Lawful {T : Type} [LinearOrder T] (o : Options T) : Prop where
  separator : ∀ start limit, o.rank start < o.rank limit →
    o.rank start ≤ o.rank (o.findShortestSeparator start limit) ∧ o.rank (o.findShortestSeparator start limit) < o.rank limit
  successor : ∀ key, o.rank key ≤ o.rank (o.findShortSuccessor key)
  interval : 1 ≤ o.blockRestartInterval
  snappy : o.snappy.Lawful
  zstd : o.zstd.Lawful

def kBlockTrailerSize : Nat := 5

structure TableBuilder where
  file : Bytes
  offset : Nat
  dataBlock : BlockBuilder
  indexBlock : BlockBuilder
  lastKey : Bytes
  numEntries : Nat
  filterBlock : Option FilterBlockBuilder
  pendingIndexEntry : Bool
  pendingHandle : BlockHandle
  deriving DecidableEq

/-- Type and checksum behind the contents of a block. -/
def trailer (contents : Bytes) (type : CompressionType) : Bytes :=
  type.code :: encodeFixed32 (Crc32c.mask (Crc32c.extend (Crc32c.value contents) [type.code]))

namespace TableBuilder

def writeRawBlock (contents : Bytes) (type : CompressionType) (b : TableBuilder) : BlockHandle × TableBuilder :=
  (⟨b.offset,contents.length⟩,{ b with
    file := b.file ++ contents ++ trailer contents type
    offset := b.offset + (contents.length + kBlockTrailerSize) })

/-- Kept only where it saves an eighth. -/
def pack (codec : Codec) (type : CompressionType) (raw : Bytes) : Bytes × CompressionType :=
  match codec.compress raw with
  | none => (raw,.noCompression)
  | some packed => if packed.length < raw.length - raw.length / 8 then (packed,type) else (raw,.noCompression)

variable {T : Type} (o : Options T)

def blockContents (raw : Bytes) : Bytes × CompressionType :=
  match o.compression with
  | .noCompression => (raw,.noCompression)
  | .snappyCompression => pack o.snappy .snappyCompression raw
  | .zstdCompression => pack o.zstd .zstdCompression raw

/-- `WriteBlock`, over the finished block; its builder is reset by the caller. -/
def writeBlock (raw : Bytes) (b : TableBuilder) : BlockHandle × TableBuilder :=
  b.writeRawBlock (blockContents o raw).1 (blockContents o raw).2

def mapFilter (f : FilterPolicy → FilterBlockBuilder → FilterBlockBuilder) (b : TableBuilder) : TableBuilder :=
  match o.filterPolicy with
  | none => b
  | some policy => { b with filterBlock := b.filterBlock.map (f policy) }

def new : TableBuilder :=
  let filterBlock := o.filterPolicy.map fun policy => FilterBlockBuilder.new.startBlock policy 0
  ⟨[],0,.new,.new,[],0,filterBlock,false,⟨0,0⟩⟩

def flush (b : TableBuilder) : TableBuilder :=
  if b.dataBlock.isEmpty then b
  else
    let (handle,b') := b.writeBlock o b.dataBlock.finish
    let b := { b' with dataBlock := .new, pendingIndexEntry := true, pendingHandle := handle }
    b.mapFilter o fun policy f => f.startBlock policy b.offset

/-- The index entry of the last block, once its key is known. -/
def addIndexEntry (key : Bytes) (b : TableBuilder) : TableBuilder :=
  { b with lastKey := key, indexBlock := b.indexBlock.add 1 key b.pendingHandle.encode, pendingIndexEntry := false }

/-- `Add` up to the test of the size of the block. -/
def addEntry (key value : Bytes) (b : TableBuilder) : TableBuilder :=
  let b := if b.pendingIndexEntry then b.addIndexEntry (o.findShortestSeparator b.lastKey key) else b
  let b := b.mapFilter o fun _ f => f.addKey key
  { b with lastKey := key, numEntries := b.numEntries + 1, dataBlock := b.dataBlock.add o.blockRestartInterval key value }

def add (key value : Bytes) (b : TableBuilder) : TableBuilder :=
  let b := b.addEntry o key value
  if o.blockSize ≤ b.dataBlock.currentSizeEstimate then b.flush o else b

/-- The key of the filter block in the metaindex: `filter.` and the name of the policy. -/
def filterKey (policy : FilterPolicy) : Bytes := [0x66,0x69,0x6c,0x74,0x65,0x72,0x2e] ++ policy.name

def writeFilter (b : TableBuilder) : Option BlockHandle × TableBuilder :=
  match o.filterPolicy, b.filterBlock with
  | some policy, some f =>
    let (handle,b) := b.writeRawBlock (f.finish policy) .noCompression
    (some handle,b)
  | _, _ => (none,b)

def metaindexBlock (filterHandle : Option BlockHandle) : BlockBuilder :=
  match o.filterPolicy, filterHandle with
  | some policy, some handle => BlockBuilder.new.add o.blockRestartInterval (filterKey policy) handle.encode
  | _, _ => .new

/-- The index entry of the last block gets a short key behind all keys. -/
def finishIndex (b : TableBuilder) : TableBuilder :=
  if b.pendingIndexEntry then b.addIndexEntry (o.findShortSuccessor b.lastKey) else b

def finish (b : TableBuilder) : TableBuilder :=
  let b := b.flush o
  let (filterHandle,b) := b.writeFilter o
  let (metaindexHandle,b) := b.writeBlock o (metaindexBlock o filterHandle).finish
  let b := b.finishIndex o
  let (indexHandle,b) := b.writeBlock o b.indexBlock.finish
  let footer := Footer.encode ⟨metaindexHandle,indexHandle⟩
  { b with file := b.file ++ footer, offset := b.offset + footer.length }

end TableBuilder

/-- What is called on a builder before `Finish`. -/
inductive Call where
  | add (key value : Bytes)
  | flush
  deriving DecidableEq

def TableBuilder.call {T : Type} (o : Options T) (b : TableBuilder) : Call → TableBuilder
  | .add key value => b.add o key value
  | .flush => b.flush o

def TableBuilder.run {T : Type} (o : Options T) (calls : List Call) : TableBuilder := calls.foldl (·.call o) (.new o)

/-- The builder right after each entry, before the block is tested for its size: every data
block is whole in one of these states, and so are the keys of every filter. -/
def TableBuilder.states {T : Type} (o : Options T) : TableBuilder → List Call → List TableBuilder
  | _, [] => []
  | b, .add key value :: rest => b.addEntry o key value :: states o (b.add o key value) rest
  | b, .flush :: rest => states o (b.flush o) rest

def Call.entry? : Call → Option (Bytes × Bytes)
  | add key value => some (key,value)
  | flush => none

/-- The entries added by the calls. -/
def added (calls : List Call) : List (Bytes × Bytes) := calls.filterMap Call.entry?

/-- The file after all calls and `Finish`. -/
def buildTable {T : Type} (o : Options T) (calls : List Call) : Bytes := ((TableBuilder.run o calls).finish o).file

/-- `RandomAccessFile::Read`. -/
def read (file : Bytes) (offset n : Nat) : Bytes := (file.drop offset).take n

def unpack (codec : Codec) (name : String) (contents : Bytes) : Except String Bytes :=
  match codec.getUncompressedLength contents with
  | none => .error ("corrupted " ++ name ++ " compressed block length")
  | some ulength =>
    match codec.uncompress contents with
    | none => .error ("corrupted " ++ name ++ " compressed block contents")
    | some raw => .ok (raw.take ulength)

def readBlock {T : Type} (o : Options T) (verifyChecksums : Bool) (file : Bytes) (handle : BlockHandle) : Except String Bytes :=
  let n := handle.size
  let contents := read file handle.offset (n + kBlockTrailerSize)
  if contents.length ≠ n + kBlockTrailerSize then .error "truncated block read"
  else if verifyChecksums ∧ Crc32c.value (contents.take (n + 1)) ≠ Crc32c.unmask (decodeFixed32 (contents.drop (n + 1))) then
    .error "block checksum mismatch"
  else
    let type := contents.getD n 0
    if type = CompressionType.noCompression.code then .ok (contents.take n)
    else if type = CompressionType.snappyCompression.code then unpack o.snappy "snappy" (contents.take n)
    else if type = CompressionType.zstdCompression.code then unpack o.zstd "zstd" (contents.take n)
    else .error "bad block type"

/-- `BytewiseComparator`. -/
def bytewise (key : Bytes) : List Nat := key.map UInt8.toNat

/-- `Table`, open. -/
structure Table where
  file : Bytes
  metaindexHandle : BlockHandle
  filter : Option FilterBlockReader
  indexBlock : Block
  deriving DecidableEq

namespace Table
variable {T : Type} [LinearOrder T] (o : Options T)

def readFilter (filterHandleValue : Bytes) (t : Table) : Table :=
  match BlockHandle.decode filterHandleValue with
  | .error _ => t
  | .ok (handle,_) =>
    match readBlock o o.paranoidChecks t.file handle with
    | .error _ => t
    | .ok contents => { t with filter := some (.new contents) }

/-- `ReadMeta`; the metaindex is ordered by bytes. Its errors are not propagated. -/
def readMeta (footer : Footer) (t : Table) : Table :=
  match o.filterPolicy with
  | none => t
  | some policy =>
    match readBlock o o.paranoidChecks t.file footer.metaindexHandle with
    | .error _ => t
    | .ok contents =>
      let ops := DataIterator.ops bytewise
      let key := TableBuilder.filterKey policy
      match ops.current (ops.seek (bytewise key) (Block.open contents).newIterator) with
      | some (found,value) => if found = key then t.readFilter o value else t
      | none => t

end Table

def Table.open {T : Type} [LinearOrder T] (o : Options T) (file : Bytes) : Except String Table :=
  if file.length < Footer.kEncodedLength then .error "file is too short to be an sstable"
  else do
    let footer ← Footer.decode (read file (file.length - Footer.kEncodedLength) Footer.kEncodedLength)
    let contents ← readBlock o o.paranoidChecks file footer.indexHandle
    return (Table.mk file footer.metaindexHandle none (Block.open contents)).readMeta o footer

namespace Table
variable {T : Type} [LinearOrder T] (o : Options T)

/-- `BlockReader`: from an index value to the iterator of its block. -/
def blockReader (verifyChecksums : Bool) (t : Table) (indexValue : Bytes) : DataIterator :=
  match BlockHandle.decode indexValue with
  | .error status => .empty (some status)
  | .ok (handle,_) =>
    match readBlock o verifyChecksums t.file handle with
    | .error status => .empty (some status)
    | .ok contents => (Block.open contents).newIterator

abbrev Iterator := TwoLevelIterator DataIterator Bytes DataIterator

/-- An index block has no more entries than bytes. -/
def newIterator (t : Table) : Iterator := ⟨t.indexBlock.newIterator,none,t.indexBlock.data.length⟩

def iteratorOps (verifyChecksums : Bool) (t : Table) : IteratorOps Iterator (Bytes × Bytes) T :=
  TwoLevelIterator.ops ((DataIterator.ops o.rank).mapEntry Prod.snd) (DataIterator.ops o.rank) (t.blockReader o verifyChecksums)

/-- `InternalGet`: the entry it hands to `handle_result`, and its status. -/
def internalGet (verifyChecksums : Bool) (t : Table) (key : Bytes) : Option (Bytes × Bytes) × Option String :=
  let ops := DataIterator.ops o.rank
  let iiter := ops.seek (o.rank key) t.indexBlock.newIterator
  match ops.current iiter with
  | none => (none,iiter.status)
  | some (_,handleValue) =>
    let skip := match o.filterPolicy, t.filter, BlockHandle.decode handleValue with
      | some policy, some filter, .ok (handle,_) => !filter.keyMayMatch policy handle.offset key
      | _, _, _ => false
    if skip then (none,iiter.status)
    else
      let blockIter := ops.seek (o.rank key) (t.blockReader o verifyChecksums handleValue)
      (ops.current blockIter,blockIter.status.or iiter.status)

end Table

end LevelDB.Sstable
