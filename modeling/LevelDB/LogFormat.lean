import LevelDB.Crc32c

/-! The log format: `log::Writer` and `log::Reader` over the bytes of one file.
A record is cut into fragments that never cross a 32 KiB block; the reader puts
them together again. Reads of the file never fail here, `Skip` included. -/
namespace LevelDB.Log

inductive RecordType where
  | zero | full | first | middle | last
  deriving DecidableEq, Repr

def RecordType.code : RecordType → UInt8
  | .zero => 0
  | .full => 1
  | .first => 2
  | .middle => 3
  | .last => 4

def kBlockSize : Nat := 32768

/-- Checksum (4 bytes), length (2 bytes), type (1 byte). -/
def kHeaderSize : Nat := 7

/-- The values `ReadPhysicalRecord` adds to the record types. -/
def kEof : Nat := 5
def kBadRecord : Nat := 6

/-- One physical record: its type and the part of the user record it carries. -/
structure Fragment where
  type : RecordType
  payload : Bytes
  deriving DecidableEq, Repr

/-- `EmitPhysicalRecord`: the header and the payload appended to the file. -/
def emitPhysicalRecord (t : RecordType) (data : Bytes) : Bytes :=
  encodeFixed32 (Crc32c.mask (Crc32c.extend (Crc32c.value [t.code]) data)) ++
    [UInt8.ofNat (data.length % 256), UInt8.ofNat (data.length / 256), t.code] ++ data

/-- Zero bytes that fill a block with no room for another header. -/
def trailer (offset : Nat) : Bytes :=
  if kBlockSize - offset < kHeaderSize then List.replicate (kBlockSize - offset) 0 else []

def switchBlock (offset : Nat) : Nat :=
  if kBlockSize - offset < kHeaderSize then 0 else offset

/-- What one pass of the loop of `AddRecord` emits at block offset `offset`, when
`data` is left of the record and `start` says that nothing of it was emitted yet. -/
def fragmentAt (offset : Nat) (start : Bool) (data : Bytes) : Fragment :=
  let avail := kBlockSize - switchBlock offset - kHeaderSize
  let length := if data.length < avail then data.length else avail
  let done : Bool := data.length == length
  let type : RecordType :=
    if start && done then .full else if start then .first else if done then .last else .middle
  ⟨type,data.take length⟩

def Fragment.emit (offset : Nat) (f : Fragment) : Bytes :=
  trailer offset ++ emitPhysicalRecord f.type f.payload

/-- `block_offset_` after the fragment; it moves whether or not the append succeeds. -/
def Fragment.advance (offset : Nat) (f : Fragment) : Nat :=
  switchBlock offset + kHeaderSize + f.payload.length

/-- The fragments of one record. A pass emits no data only when exactly a header is
left in the block, so `data.length + 2` passes are enough. -/
def fragmentsLoop : Nat → Nat → Bool → Bytes → List Fragment
  | 0, _, _, _ => []
  | fuel + 1, offset, start, data =>
    let f := fragmentAt offset start data
    f :: if f.payload.length < data.length
      then fragmentsLoop fuel (f.advance offset) false (data.drop f.payload.length) else []

def fragments (offset : Nat) (data : Bytes) : List Fragment :=
  fragmentsLoop (data.length + 2) offset true data

/-- The bytes of consecutive fragments, the first at block offset `offset`. -/
def layout : Nat → List Fragment → Bytes
  | _, [] => []
  | offset, f :: rest => f.emit offset ++ layout (f.advance offset) rest

def endOffset (offset : Nat) (fs : List Fragment) : Nat := fs.foldl Fragment.advance offset

/-- `log::Writer` with the file it appends to. -/
structure Writer where
  dest : Bytes
  blockOffset : Nat

/-- `Writer(dest, dest_length)`; a new file has length zero. -/
def Writer.open (dest : Bytes) : Writer := ⟨dest,dest.length % kBlockSize⟩

def Writer.addRecord (w : Writer) (data : Bytes) : Writer :=
  let fs := fragments w.blockOffset data
  ⟨w.dest ++ layout w.blockOffset fs,endOffset w.blockOffset fs⟩

def Writer.addRecords (w : Writer) (records : List Bytes) : Writer :=
  records.foldl Writer.addRecord w

/-- Subtraction of `uint64_t`. -/
def sub64 (a b : Nat) : Nat := (a + 2^64 - b % 2^64) % 2^64

structure Reader where
  file : Bytes
  buffer : Bytes
  eof : Bool
  lastRecordOffset : Nat
  endOfBufferOffset : Nat
  initialOffset : Nat
  resyncing : Bool
  checksum : Bool
  /-- The calls of `Reporter::Corruption`, oldest first. -/
  reports : List (Nat × String)

def Reader.new (file : Bytes) (checksum : Bool) (initialOffset : Nat) : Reader :=
  ⟨file,[],false,0,0,initialOffset,decide (0 < initialOffset),checksum,[]⟩

/-- `ReportDrop`; nothing before the initial offset is reported. -/
def Reader.reportDrop (r : Reader) (bytes : Nat) (reason : String) : Reader :=
  if r.initialOffset ≤ sub64 (sub64 r.endOfBufferOffset r.buffer.length) bytes
  then { r with reports := r.reports ++ [(bytes,reason)] } else r

/-- Read the next block; a short one is the last. -/
def Reader.refill (r : Reader) : Reader :=
  let block := r.file.take kBlockSize
  { r with
    file := r.file.drop kBlockSize
    buffer := block
    endOfBufferOffset := r.endOfBufferOffset + block.length
    eof := decide (block.length < kBlockSize) }

def headerLength (buffer : Bytes) : Nat :=
  (buffer.getD 4 0).toNat + 256 * (buffer.getD 5 0).toNat

/-- The type byte is a `char` stored into an `unsigned int`, so it is sign extended. -/
def headerType (buffer : Bytes) : Nat :=
  let c := (buffer.getD 6 0).toNat
  if c < 128 then c else c + 2^32 - 256

def checksumMatches (buffer : Bytes) (length : Nat) : Bool :=
  Crc32c.unmask (decodeFixed32 buffer) == Crc32c.value ((buffer.drop 6).take (1 + length))

/-- `ReadPhysicalRecord` once the buffer holds a whole header. -/
def Reader.parse (r : Reader) : (Nat × Bytes) × Reader :=
  let length := headerLength r.buffer
  let type := headerType r.buffer
  let cleared := { r with buffer := [] }
  if r.buffer.length < kHeaderSize + length then
    if r.eof then ((kEof,[]),cleared)
    else ((kBadRecord,[]),cleared.reportDrop r.buffer.length "bad record length")
  else if type = 0 ∧ length = 0 then ((kBadRecord,[]),cleared)
  else if r.checksum && !checksumMatches r.buffer length then
    ((kBadRecord,[]),cleared.reportDrop r.buffer.length "checksum mismatch")
  else
    let next := { r with buffer := r.buffer.drop (kHeaderSize + length) }
    let start := sub64 (sub64 (sub64 next.endOfBufferOffset next.buffer.length) kHeaderSize) length
    if start < r.initialOffset then ((kBadRecord,[]),next)
    else ((type,(r.buffer.drop kHeaderSize).take length),next)

/-- The loop of `ReadPhysicalRecord` refills at most once: a refill that leaves less
than a header has met the end of the file. -/
def Reader.readPhysicalRecord (r : Reader) : (Nat × Bytes) × Reader :=
  let r := if r.buffer.length < kHeaderSize ∧ r.eof = false then r.refill else r
  if r.buffer.length < kHeaderSize then ((kEof,[]),{ r with buffer := [] }) else r.parse

/-- The loop of `ReadRecord`; `pending` is `scratch` while `in_fragmented_record`. -/
def Reader.readLoop : Nat → Reader → Option Bytes → Nat → Option Bytes × Reader
  | 0, r, _, _ => (none,r)
  | fuel + 1, r, pending, prospective =>
    let ((type,fragment),r) := r.readPhysicalRecord
    let offset := sub64 (sub64 (sub64 r.endOfBufferOffset r.buffer.length) kHeaderSize)
      fragment.length
    if r.resyncing ∧ type = 3 then r.readLoop fuel pending prospective
    else if r.resyncing ∧ type = 4 then
      Reader.readLoop fuel { r with resyncing := false } pending prospective
    else
      let r := { r with resyncing := false }
      let held := pending.getD []
      match type with
      | 1 =>
        let r := if held = [] then r else r.reportDrop held.length "partial record without end(1)"
        (some fragment,{ r with lastRecordOffset := offset })
      | 2 =>
        let r := if held = [] then r else r.reportDrop held.length "partial record without end(2)"
        r.readLoop fuel (some fragment) offset
      | 3 =>
        match pending with
        | none =>
          (r.reportDrop fragment.length "missing start of fragmented record(1)").readLoop
            fuel none prospective
        | some scratch => r.readLoop fuel (some (scratch ++ fragment)) prospective
      | 4 =>
        match pending with
        | none =>
          (r.reportDrop fragment.length "missing start of fragmented record(2)").readLoop
            fuel none prospective
        | some scratch => (some (scratch ++ fragment),{ r with lastRecordOffset := prospective })
      | 5 => (none,r)
      | 6 =>
        match pending with
        | none => r.readLoop fuel none prospective
        | some scratch =>
          (r.reportDrop scratch.length "error in middle of record").readLoop fuel none prospective
      | other =>
        (r.reportDrop (fragment.length + held.length)
          ("unknown record type " ++ toString other)).readLoop fuel none prospective

/-- Skip to the first block that can hold a record at or after the initial offset. -/
def Reader.skipToInitialBlock (r : Reader) : Reader :=
  let inBlock := r.initialOffset % kBlockSize
  let start := (r.initialOffset - inBlock + if kBlockSize - 6 < inBlock then kBlockSize else 0) % 2^64
  { r with endOfBufferOffset := start, file := r.file.drop start }

/-- `ReadRecord`: every pass that does not meet the end takes a header's worth of bytes. -/
def Reader.readRecord (r : Reader) : Option Bytes × Reader :=
  let r := if r.lastRecordOffset < r.initialOffset then r.skipToInitialBlock else r
  r.readLoop (r.file.length + r.buffer.length + 1) none 0

def Reader.readAllLoop : Nat → Reader → List Bytes × Reader
  | 0, r => ([],r)
  | fuel + 1, r =>
    match r.readRecord with
    | (none,r) => ([],r)
    | (some record,r) =>
      let (records,r) := r.readAllLoop fuel
      (record :: records,r)

/-- All records up to the first `false`, read with checksums from offset zero. -/
def readAll (file : Bytes) : List Bytes :=
  ((Reader.new file true 0).readAllLoop (file.length + 1)).1

end LevelDB.Log
