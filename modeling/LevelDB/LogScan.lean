import LevelDB.LogDamage

/-! A reader anywhere in a file, with or without checksums and with any initial offset.
`lookAt` says what the format has at a position; `ReadPhysicalRecord` finds the same. -/
namespace LevelDB.Log

/-- A physical record as it stands in a file: any type byte, any stored checksum. -/
structure Chunk where
  crc : BitVec 32
  type : UInt8
  payload : Bytes
  deriving DecidableEq

def Chunk.body (c : Chunk) : Bytes :=
  encodeFixed32 c.crc ++ [UInt8.ofNat (c.payload.length % 256),UInt8.ofNat (c.payload.length / 256),c.type] ++ c.payload

def Chunk.size (c : Chunk) : Nat := kHeaderSize + c.payload.length

/-- A `char` that is stored into an `unsigned int`. -/
def signExtended (c : UInt8) : Nat := if c.toNat < 128 then c.toNat else c.toNat + 2^32 - 256

/-- The checksum is that of the type and the payload. -/
def Chunk.valid (c : Chunk) : Bool := c.crc == Crc32c.mask (Crc32c.extend (Crc32c.value [c.type]) c.payload)

/-- What the format has at a position of a file: nothing more, bytes up to the end of the
block or of the file that are given up, or a physical record. -/
inductive Found where
  | ends
  | lost (next : Nat) (report : Option (Nat × String))
  | chunk (start : Nat) (type : UInt8) (payload : Bytes)
  deriving DecidableEq

def lookAt (checksum : Bool) (file : Bytes) (p : Nat) : Found :=
  let start := nextHeader p
  let body := (file.drop start).take (kBlockSize - start % kBlockSize)
  let next := start + body.length
  if body.length < kHeaderSize then .ends
  else
    let length := headerLength body
    if body.length < kHeaderSize + length then
      if start % kBlockSize + body.length < kBlockSize then .ends
      else .lost next (some (body.length,"bad record length"))
    else if headerType body = 0 ∧ length = 0 then .lost next none
    else if checksum && !checksumMatches body length then .lost next (some (body.length,"checksum mismatch"))
    else .chunk start (body.getD 6 0) ((body.drop kHeaderSize).take length)

theorem lookAt_lost {checksum : Bool} {file : Bytes} {p q : Nat} {report : Option (Nat × String)}
    (found : lookAt checksum file p = .lost q report) : p < q ∧ q ≤ file.length := by
  have before := le_nextHeader p
  have seven : 0 < kHeaderSize := by decide
  simp only [lookAt] at found
  split at found
  · cases found
  · rename_i long
    have place : nextHeader p + ((file.drop (nextHeader p)).take (kBlockSize - nextHeader p % kBlockSize)).length = q := by
      split at found
      · split at found
        · cases found
        · cases found
          rfl
      · split at found
        · cases found
          rfl
        · split at found
          · cases found
            rfl
          · cases found
    rw [← place]
    rw [List.length_take,List.length_drop] at long ⊢
    omega

theorem lookAt_chunk {checksum : Bool} {file : Bytes} {p start : Nat} {type : UInt8} {payload : Bytes}
    (found : lookAt checksum file p = .chunk start type payload) :
    start = nextHeader p ∧ p < start + kHeaderSize + payload.length ∧
      start + kHeaderSize + payload.length ≤ file.length := by
  have before := le_nextHeader p
  have seven : 0 < kHeaderSize := by decide
  simp only [lookAt] at found
  split at found
  · cases found
  · split at found
    · split at found
      · cases found
      · cases found
    · rename_i long
      split at found
      · cases found
      · split at found
        · cases found
        · cases found
          refine ⟨rfl,by omega,?_⟩
          rw [List.length_take,List.length_drop]
          rw [List.length_take,List.length_drop] at long ⊢
          omega

/-- The reader stands at a position of the file. -/
structure Reader.Over (r : Reader) (file : Bytes) (p : Nat) : Prop where
  stream : r.buffer ++ r.file = file.drop p
  place : r.endOfBufferOffset = p + r.buffer.length
  more : r.eof = false → r.buffer.length = (kBlockSize - p % kBlockSize) % kBlockSize
  last : r.eof = true → r.file = [] ∧ p % kBlockSize + r.buffer.length < kBlockSize

/-- Everything but the place in the file is the same. -/
structure Reader.Kept (r next : Reader) : Prop where
  initialOffset : next.initialOffset = r.initialOffset
  resyncing : next.resyncing = r.resyncing
  checksum : next.checksum = r.checksum
  lastRecordOffset : next.lastRecordOffset = r.lastRecordOffset
  reports : next.reports = r.reports

/-- The block of the next header, which starts at the position, is in the buffer. -/
structure Reader.Ready (r : Reader) (file : Bytes) (start : Nat) : Prop where
  buffer : r.buffer = (file.drop start).take (kBlockSize - start % kBlockSize)
  file : r.file = (file.drop start).drop (kBlockSize - start % kBlockSize)
  place : r.endOfBufferOffset = start + r.buffer.length
  eof : r.eof = decide (start % kBlockSize + r.buffer.length < kBlockSize)

section Load
variable {r : Reader} {file : Bytes} {p start : Nat}

theorem nextHeader_cases (p : Nat) :
    (kBlockSize - p % kBlockSize < kHeaderSize ∧ nextHeader p = p + (kBlockSize - p % kBlockSize) ∧
      nextHeader p % kBlockSize = 0) ∨
    (kHeaderSize ≤ kBlockSize - p % kBlockSize ∧ nextHeader p = p) := by
  rw [nextHeader,trailer_length]
  by_cases short : kBlockSize - p % kBlockSize < kHeaderSize
  · rw [if_pos short]
    refine .inl ⟨short,rfl,?_⟩
    simp only [kBlockSize]
    omega
  · rw [if_neg short]
    exact .inr ⟨Nat.le_of_not_lt short,rfl⟩

theorem Reader.load_kept (r : Reader) : r.Kept r.load := by
  rw [Reader.load]
  split
  · exact ⟨rfl,rfl,rfl,rfl,rfl⟩
  · exact ⟨rfl,rfl,rfl,rfl,rfl⟩

theorem refill_ready (stream : r.file = file.drop start) (place : r.endOfBufferOffset = start)
    (aligned : start % kBlockSize = 0) : r.refill.Ready file start := by
  refine ⟨?_,?_,?_,?_⟩
  · simp only [Reader.refill,stream,aligned,Nat.sub_zero]
  · simp only [Reader.refill,stream,aligned,Nat.sub_zero]
  · simp only [Reader.refill,place]
  · simp only [Reader.refill,aligned,Nat.zero_add]

/-- The next block is loaded when the trailer of this one is passed; otherwise the reader
has met the end of the file. -/
theorem Reader.Over.load (spent : r.Over file p) :
    r.load.Ready file (nextHeader p) ∨
      r.load.buffer.length < kHeaderSize ∧ r.load.file = [] ∧ file.length < nextHeader p + kHeaderSize := by
  have stream := spent.stream
  have total := congrArg List.length stream
  rw [List.length_append,List.length_drop] at total
  have inBlock : p % kBlockSize < kBlockSize := Nat.mod_lt _ (by decide)
  have header : kHeaderSize < kBlockSize := by decide
  cases done : r.eof with
  | true =>
    obtain ⟨none,short⟩ := spent.last done
    have same : r.load = r := by simp [Reader.load,done]
    rw [none,List.append_nil] at stream
    rw [none,List.length_nil] at total
    rw [same]
    rcases nextHeader_cases p with ⟨trailing,next,-⟩ | ⟨room,next⟩
    · right
      exact ⟨by omega,none,by omega⟩
    · left
      rw [next]
      have length : (file.drop p).length ≤ kBlockSize - p % kBlockSize := by rw [← stream]; omega
      refine ⟨?_,?_,spent.place,?_⟩
      · rw [stream,List.take_of_length_le length]
      · rw [none,List.drop_of_length_le length]
      · rw [done]
        exact (decide_eq_true short).symm
  | false =>
    have length := spent.more done
    rcases nextHeader_cases p with ⟨trailing,next,aligned⟩ | ⟨room,next⟩
    · left
      rw [Nat.mod_eq_of_lt (by omega)] at length
      have loaded : r.load = r.refill := by simp [Reader.load,done,length,trailing]
      rw [loaded]
      have rest : r.file = file.drop (nextHeader p) := by
        rw [next,← List.drop_drop,← stream,← length,List.drop_left]
      refine refill_ready rest ?_ aligned
      rw [spent.place,length,next]
    · left
      rw [next]
      by_cases aligned : p % kBlockSize = 0
      · rw [aligned,Nat.sub_zero,Nat.mod_self,List.length_eq_zero_iff] at length
        have loaded : r.load = r.refill := by simp [Reader.load,done,length,kHeaderSize]
        rw [loaded]
        refine refill_ready ?_ ?_ aligned
        · rw [← stream,length,List.nil_append]
        · rw [spent.place,length]
          rfl
      · rw [Nat.mod_eq_of_lt (by omega)] at length
        have loaded : r.load = r := by
          simp only [Reader.load,done,length,Nat.not_lt.mpr room,false_and,if_false]
        rw [loaded]
        refine ⟨?_,?_,spent.place,?_⟩
        · rw [← stream,← length,List.take_left]
        · rw [← stream,← length,List.drop_left]
        · rw [done,length]
          symm
          rw [decide_eq_false_iff_not]
          omega

theorem headerType_getD (buffer : Bytes) : headerType buffer = signExtended (buffer.getD 6 0) := rfl

/-- The rest of the block, or of the file, is given up. -/
theorem Reader.Ready.cleared (ready : r.Ready file start) :
    ({ r with buffer := [] } : Reader).Over file (start + r.buffer.length) := by
  have inBlock : start % kBlockSize < kBlockSize := Nat.mod_lt _ (by decide)
  have length : r.buffer.length = min (kBlockSize - start % kBlockSize) (file.length - start) := by
    rw [ready.buffer,List.length_take,List.length_drop]
  refine ⟨?_,ready.place,fun more => ?_,fun last => ?_⟩
  · rw [List.nil_append,← List.drop_drop]
    show r.file = _
    rw [ready.file]
    rcases Nat.le_total (kBlockSize - start % kBlockSize) (file.length - start) with full | short
    · rw [length,Nat.min_eq_left full]
    · rw [List.drop_of_length_le (by rw [List.length_drop]; omega),
        List.drop_of_length_le (by rw [List.length_drop]; omega)]
  · have more : r.eof = false := more
    rw [ready.eof] at more
    have full := of_decide_eq_false more
    have aligned : (start + r.buffer.length) % kBlockSize = 0 := by
      have whole : start % kBlockSize + r.buffer.length = kBlockSize := by omega
      rw [← Nat.mod_add_mod,whole,Nat.mod_self]
    rw [aligned,Nat.sub_zero,Nat.mod_self]
    rfl
  · have last : r.eof = true := last
    rw [ready.eof] at last
    have short := of_decide_eq_true last
    refine ⟨?_,?_⟩
    · show r.file = []
      rw [ready.file,List.drop_of_length_le]
      rw [List.length_drop]
      omega
    · simp only [List.length_nil,Nat.add_zero]
      exact Nat.mod_lt _ (by decide)

/-- The reader goes on in the same block. -/
theorem Reader.Ready.dropped (ready : r.Ready file start) {n : Nat} (positive : 0 < n) (le : n ≤ r.buffer.length) :
    ({ r with buffer := r.buffer.drop n } : Reader).Over file (start + n) := by
  have inBlock : start % kBlockSize < kBlockSize := Nat.mod_lt _ (by decide)
  have length : r.buffer.length = min (kBlockSize - start % kBlockSize) (file.length - start) := by
    rw [ready.buffer,List.length_take,List.length_drop]
  refine ⟨?_,?_,fun more => ?_,fun last => ?_⟩
  · show r.buffer.drop n ++ r.file = _
    rw [← List.drop_append_of_le_length le,← List.drop_drop]
    congr 1
    rw [ready.buffer,ready.file]
    exact List.take_append_drop _ _
  · show r.endOfBufferOffset = _
    rw [ready.place,List.length_drop]
    omega
  · have more : r.eof = false := more
    rw [ready.eof] at more
    have full := of_decide_eq_false more
    show (r.buffer.drop n).length = _
    rw [List.length_drop]
    have whole : r.buffer.length = kBlockSize - start % kBlockSize := by omega
    rw [whole,← Nat.mod_add_mod]
    rcases Nat.lt_or_eq_of_le (whole ▸ le) with less | same
    · rw [Nat.mod_eq_of_lt (by omega : start % kBlockSize + n < kBlockSize),
        Nat.mod_eq_of_lt (by omega : kBlockSize - (start % kBlockSize + n) < kBlockSize)]
      omega
    · have all : start % kBlockSize + n = kBlockSize := by omega
      rw [all,Nat.mod_self,Nat.sub_zero,Nat.mod_self]
      omega
  · have last : r.eof = true := last
    rw [ready.eof] at last
    have short := of_decide_eq_true last
    refine ⟨?_,?_⟩
    · show r.file = []
      rw [ready.file,List.drop_of_length_le]
      rw [List.length_drop]
      omega
    · show (start + n) % kBlockSize + (r.buffer.drop n).length < kBlockSize
      rw [List.length_drop,← Nat.mod_add_mod,Nat.mod_eq_of_lt (by omega : start % kBlockSize + n < kBlockSize)]
      omega

end Load

theorem sub64_eq {a b : Nat} (le : b ≤ a) (small : a < 2^64) : sub64 a b = a - b := by
  rw [sub64,Nat.mod_eq_of_lt (by omega : b < 2^64)]
  omega

theorem Reader.reportDrop_reports (r : Reader) (bytes : Nat) (reason : String) (start : r.initialOffset = 0) :
    (r.reportDrop bytes reason).reports = r.reports ++ [(bytes,reason)] := by
  rw [Reader.reportDrop,start,if_pos (Nat.zero_le _)]

section Physical
variable {r : Reader} {file : Bytes} {p : Nat}

theorem Reader.Over.reported (spent : r.Over file p) (n : Nat) (reason : String) : (r.reportDrop n reason).Over file p := by
  rw [Reader.reportDrop]
  split
  · exact ⟨spent.stream,spent.place,spent.more,spent.last⟩
  · exact spent

/-- What `ReadPhysicalRecord` answers and where it stops. -/
inductive Reader.Reads (r : Reader) (file : Bytes) (p : Nat) : Prop
  | ends (found : lookAt r.checksum file p = .ends) (next : Reader) (answer : r.readPhysicalRecord = ((kEof,[]),next))
    (kept : r.Kept next) (buffer : next.buffer = []) (rest : next.file = [])
  | lost (q : Nat) (report : Option (Nat × String)) (found : lookAt r.checksum file p = .lost q report) (next : Reader)
    (past : p < q) (inside : q ≤ file.length) (spent : next.Over file q) (kept : r.Kept next)
    (answer : r.readPhysicalRecord = ((kBadRecord,[]),report.elim next fun x => next.reportDrop x.1 x.2))
  | chunk (type : UInt8) (payload : Bytes) (found : lookAt r.checksum file p = .chunk (nextHeader p) type payload)
    (next : Reader) (inside : nextHeader p + kHeaderSize + payload.length ≤ file.length)
    (spent : next.Over file (nextHeader p + kHeaderSize + payload.length)) (kept : r.Kept next)
    (answer : r.readPhysicalRecord =
      (if sub64 (sub64 (sub64 next.endOfBufferOffset next.buffer.length) kHeaderSize) payload.length < r.initialOffset
        then (kBadRecord,[]) else (signExtended type,payload),next))

theorem Reader.Over.reads (spent : r.Over file p) : r.Reads file p := by
  have kept := r.load_kept
  have before := le_nextHeader p
  rcases spent.load with ready | ⟨short,rest,ends⟩
  · have length : r.load.buffer.length = min (kBlockSize - nextHeader p % kBlockSize) (file.length - nextHeader p) := by
      rw [ready.buffer,List.length_take,List.length_drop]
    have answer := readPhysicalRecord_eq r
    have found : lookAt r.checksum file p = lookAt r.checksum file p := rfl
    nth_rewrite 2 [lookAt] at found
    simp only [← ready.buffer] at found
    by_cases header : r.load.buffer.length < kHeaderSize
    · rw [if_pos header] at answer found
      refine .ends found _ answer ⟨kept.initialOffset,kept.resyncing,kept.checksum,kept.lastRecordOffset,kept.reports⟩ rfl ?_
      show r.load.file = []
      rw [ready.file,List.drop_of_length_le]
      rw [List.length_drop]
      have : kHeaderSize ≤ kBlockSize - nextHeader p % kBlockSize := by
        rcases nextHeader_cases p with ⟨-,-,aligned⟩ | ⟨room,same⟩
        · rw [aligned]
          decide
        · rw [same]
          exact room
      omega
    · have seven : 0 < kHeaderSize := by decide
      rw [if_neg header] at answer found
      have cleared := ready.cleared
      have keeps : r.Kept { r.load with buffer := [] } :=
        ⟨kept.initialOffset,kept.resyncing,kept.checksum,kept.lastRecordOffset,kept.reports⟩
      simp only [Reader.parse] at answer
      by_cases long : r.load.buffer.length < kHeaderSize + headerLength r.load.buffer
      · rw [if_pos long] at answer found
        by_cases last : nextHeader p % kBlockSize + r.load.buffer.length < kBlockSize
        · have eof : r.load.eof = true := by rw [ready.eof,decide_eq_true last]
          rw [if_pos last] at found
          rw [if_pos eof] at answer
          refine .ends found _ answer keeps rfl ?_
          show r.load.file = []
          rw [ready.file,List.drop_of_length_le]
          rw [List.length_drop]
          omega
        · have eof : ¬r.load.eof = true := by
            rw [ready.eof,decide_eq_true_eq]
            exact last
          rw [if_neg last] at found
          rw [if_neg eof] at answer
          exact .lost _ _ found _ (by omega) (by omega) cleared keeps answer
      · rw [if_neg long] at answer found
        by_cases empty : headerType r.load.buffer = 0 ∧ headerLength r.load.buffer = 0
        · rw [if_pos empty] at answer found
          exact .lost _ _ found _ (by omega) (by omega) cleared keeps answer
        · rw [if_neg empty] at answer found
          rw [← kept.checksum] at found
          by_cases mismatch : (r.load.checksum && !checksumMatches r.load.buffer (headerLength r.load.buffer)) = true
          · rw [if_pos mismatch] at answer found
            rw [kept.checksum] at found
            exact .lost _ _ found _ (by omega) (by omega) cleared keeps answer
          · rw [if_neg mismatch] at answer found
            rw [kept.checksum] at found
            have size : ((r.load.buffer.drop kHeaderSize).take (headerLength r.load.buffer)).length =
                headerLength r.load.buffer := by
              rw [List.length_take,List.length_drop]
              omega
            have dropped := ready.dropped (n := kHeaderSize + headerLength r.load.buffer) (by omega)
              (by omega)
            refine .chunk _ _ found { r.load with buffer := r.load.buffer.drop (kHeaderSize + headerLength r.load.buffer) }
              ?_ ?_ ⟨kept.initialOffset,kept.resyncing,kept.checksum,kept.lastRecordOffset,kept.reports⟩ ?_
            · rw [size]
              omega
            · rw [size,Nat.add_assoc]
              exact dropped
            · rw [answer,size,← kept.initialOffset]
              split
              · rfl
              · rfl
  · have none : lookAt r.checksum file p = .ends := by
      rw [lookAt]
      simp only [List.length_take,List.length_drop]
      rw [if_pos (by omega)]
    refine .ends none { r.load with buffer := [] } (by rw [readPhysicalRecord_eq,if_pos short]) ?_ rfl rest
    exact ⟨kept.initialOffset,kept.resyncing,kept.checksum,kept.lastRecordOffset,kept.reports⟩

end Physical

section Chunks
variable {c : Chunk} {tail : Bytes}

@[simp] theorem Chunk.body_length (c : Chunk) : c.body.length = c.size := by
  simp [Chunk.body,Chunk.size,encodeFixed32,kHeaderSize]
  omega

theorem headerLength_chunk (small : c.payload.length < 65536) : headerLength (c.body ++ tail) = c.payload.length := by
  have high : c.payload.length / 256 < 256 := by omega
  simp [headerLength,Chunk.body,encodeFixed32,Nat.mod_eq_of_lt high]
  omega

theorem type_chunk : (c.body ++ tail).getD 6 0 = c.type := by simp [Chunk.body,encodeFixed32]

theorem payload_chunk : ((c.body ++ tail).drop kHeaderSize).take c.payload.length = c.payload := by
  simp [Chunk.body,encodeFixed32,kHeaderSize]

theorem checksum_chunk : checksumMatches (c.body ++ tail) c.payload.length = c.valid := by
  have stored : decodeFixed32 (c.body ++ tail) = c.crc := by
    simp only [Chunk.body,List.append_assoc]
    exact decodeFixed32_encodeFixed32 _ _
  have covered : ((c.body ++ tail).drop 6).take (1 + c.payload.length) = [c.type] ++ c.payload := by
    simp [Chunk.body,encodeFixed32,Nat.add_comm 1]
  have whole : Crc32c.value ([c.type] ++ c.payload) = Crc32c.extend (Crc32c.value [c.type]) c.payload :=
    (Crc32c.extend_append _ _ _).symm
  rw [checksumMatches,stored,covered,whole,Chunk.valid,Bool.eq_iff_iff,beq_iff_eq,beq_iff_eq]
  constructor
  · intro same
    rw [← same,Crc32c.mask_unmask]
  · intro same
    rw [same,Crc32c.unmask_mask]

end Chunks

def Chunk.advance (offset : Nat) (c : Chunk) : Nat := switchBlock offset + c.size

/-- The bytes of consecutive physical records, the first at block offset `offset`. -/
def layoutChunks : Nat → List Chunk → Bytes
  | _, [] => []
  | offset, c :: rest => trailer offset ++ (c.body ++ layoutChunks (c.advance offset) rest)

/-- They stay inside their blocks, and none is a zero record without data. -/
def ChunksFit : Nat → List Chunk → Prop
  | _, [] => True
  | offset, c :: rest => (c.advance offset ≤ kBlockSize ∧ ¬(c.type = 0 ∧ c.payload = [])) ∧ ChunksFit (c.advance offset) rest

/-- From the position on, the file holds these physical records and nothing more. -/
structure Ahead (file : Bytes) (p offset : Nat) (cs : List Chunk) : Prop where
  bytes : file.drop p = layoutChunks offset cs
  bound : offset ≤ kBlockSize
  same : offset % kBlockSize = p % kBlockSize
  fit : ChunksFit offset cs

section Ahead
variable {file : Bytes} {p offset : Nat} {c : Chunk} {cs : List Chunk} {checksum : Bool}

theorem Ahead.lookAt_nil (ahead : Ahead file p offset []) : lookAt checksum file p = .ends := by
  have before := le_nextHeader p
  have length := congrArg List.length ahead.bytes
  rw [List.length_drop] at length
  have none : layoutChunks offset [] = [] := rfl
  rw [none,List.length_nil] at length
  rw [lookAt]
  simp only [List.length_take,List.length_drop]
  rw [if_pos (by simp only [kHeaderSize]; omega)]

/-- The next physical record is found and the others are ahead of its end. -/
theorem Ahead.lookAt_cons (ahead : Ahead file p offset (c :: cs)) (accepted : checksum = true → c.valid = true) :
    lookAt checksum file p = .chunk (nextHeader p) c.type c.payload ∧
      Ahead file (nextHeader p + kHeaderSize + c.payload.length) (c.advance offset) cs := by
  obtain ⟨header,here,-⟩ := nextHeader_spec ahead.bound ahead.same
  obtain ⟨⟨room,notZero⟩,rest⟩ := ahead.fit
  have bytes := ahead.bytes
  simp only [layoutChunks] at bytes
  have body : file.drop (nextHeader p) = c.body ++ layoutChunks (c.advance offset) cs := by
    rw [header,← List.drop_drop,bytes,List.drop_left]
  have fits : c.size ≤ kBlockSize - nextHeader p % kBlockSize := by
    rw [← here]
    simp only [Chunk.advance] at room
    omega
  have block : (file.drop (nextHeader p)).take (kBlockSize - nextHeader p % kBlockSize) = c.body ++
      (layoutChunks (c.advance offset) cs).take (kBlockSize - nextHeader p % kBlockSize - c.size) := by
    rw [body,List.take_append,c.body_length,List.take_of_length_le (by rw [c.body_length]; exact fits)]
  have small : c.payload.length < 65536 := by
    simp only [Chunk.size,kBlockSize] at fits
    omega
  have size : c.size = kHeaderSize + c.payload.length := rfl
  constructor
  · rw [lookAt]
    simp only [block,headerLength_chunk small,type_chunk,payload_chunk,checksum_chunk,headerType_getD,List.length_append,
      c.body_length]
    have zero : ¬(signExtended c.type = 0 ∧ c.payload.length = 0) := by
      rintro ⟨type,payload⟩
      refine notZero ⟨?_,List.length_eq_zero_iff.mp payload⟩
      have bound := c.type.toNat_lt
      have isZero : c.type.toNat = 0 := by
        rw [signExtended] at type
        split at type
        · exact type
        · omega
      exact UInt8.toNat_inj.mp isZero
    have mismatch : ¬(checksum && !c.valid) = true := by
      cases checksum with
      | false => simp
      | true => simp [accepted rfl]
    rw [if_neg (by omega),if_neg (by omega),if_neg zero,if_neg mismatch]
  · refine ⟨?_,room,?_,rest⟩
    · rw [Nat.add_assoc,← size,← List.drop_drop,body,← c.body_length,List.drop_left]
    · rw [Nat.add_assoc,← size,Chunk.advance,here,Nat.mod_add_mod]

theorem length_le_layoutChunks (offset : Nat) (cs : List Chunk) : cs.length ≤ (layoutChunks offset cs).length := by
  induction cs generalizing offset with
  | nil => exact Nat.zero_le _
  | cons c cs ih =>
    have rest := ih (c.advance offset)
    simp only [layoutChunks,List.length_append,List.length_cons,Chunk.body_length,Chunk.size,kHeaderSize]
    omega

theorem Ahead.length_le (ahead : Ahead file p offset cs) : cs.length ≤ file.length - p := by
  have least := length_le_layoutChunks offset cs
  rw [← ahead.bytes,List.length_drop] at least
  exact least

end Ahead

/-- The physical record that a writer emits. -/
def Fragment.chunk (f : Fragment) : Chunk :=
  ⟨Crc32c.mask (Crc32c.extend (Crc32c.value [f.type.code]) f.payload),f.type.code,f.payload⟩

theorem Fragment.chunk_valid (f : Fragment) : f.chunk.valid = true := beq_self_eq_true _

theorem layoutChunks_fragments (offset : Nat) (fs : List Fragment) :
    layoutChunks offset (fs.map Fragment.chunk) = layout offset fs := by
  induction fs generalizing offset with
  | nil => rfl
  | cons f fs ih =>
    simp only [List.map_cons,layoutChunks,layout,Fragment.emit,List.append_assoc]
    rw [show f.chunk.advance offset = f.advance offset from (Nat.add_assoc _ _ _).symm,ih]
    rfl

theorem chunksFit_append (offset : Nat) (left right : List Chunk) :
    ChunksFit offset (left ++ right) ↔ ChunksFit offset left ∧ ChunksFit (left.foldl Chunk.advance offset) right := by
  induction left generalizing offset with
  | nil => simp [ChunksFit]
  | cons c left ih => simp [ChunksFit,ih,and_assoc]

theorem layoutChunks_append (offset : Nat) (left right : List Chunk) :
    layoutChunks offset (left ++ right) = layoutChunks offset left ++ layoutChunks (left.foldl Chunk.advance offset) right := by
  induction left generalizing offset with
  | nil => rfl
  | cons c left ih => simp [layoutChunks,ih]

theorem chunksFit_fragments (offset : Nat) (fs : List Fragment) (fits : FitsAll offset (fs.map .fragment))
    (known : ∀ f ∈ fs, f.type ≠ .zero) : ChunksFit offset (fs.map Fragment.chunk) := by
  induction fs generalizing offset with
  | nil => trivial
  | cons f fs ih =>
    obtain ⟨⟨room,-⟩,rest⟩ := fits
    have same : f.chunk.advance offset = f.advance offset := (Nat.add_assoc _ _ _).symm
    refine ⟨⟨by rw [same]; exact room,?_⟩,?_⟩
    · rintro ⟨zero,-⟩
      have type := known f List.mem_cons_self
      have code : f.type.code = 0 := zero
      cases kind : f.type with
      | zero => exact type kind
      | full => simp [kind,RecordType.code] at code
      | first => simp [kind,RecordType.code] at code
      | middle => simp [kind,RecordType.code] at code
      | last => simp [kind,RecordType.code] at code
    · rw [same]
      exact ih _ rest fun g hg => known g (List.mem_cons_of_mem _ hg)

/-- The fragments of a record, or of the rest of one: their types and the data they carry. -/
inductive Chain : Bool → Bytes → List Fragment → Prop
  | full (data : Bytes) : Chain true data [⟨.full,data⟩]
  | last (data : Bytes) : Chain false data [⟨.last,data⟩]
  | first (part : Bytes) {data : Bytes} {fs : List Fragment} (more : Chain false data fs) :
    Chain true (part ++ data) (⟨.first,part⟩ :: fs)
  | middle (part : Bytes) {data : Bytes} {fs : List Fragment} (more : Chain false data fs) :
    Chain false (part ++ data) (⟨.middle,part⟩ :: fs)

section Chain
variable {start : Bool} {data : Bytes} {fs : List Fragment}

theorem fragmentsLoop_chain (fuel offset : Nat) (start : Bool) (data : Bytes) (bound : offset ≤ kBlockSize)
    (enough : passes offset data ≤ fuel) : Chain start data (fragmentsLoop fuel offset start data) := by
  induction fuel generalizing offset start data with
  | zero =>
    unfold passes at enough
    split at enough <;> omega
  | succ fuel ih =>
    have type := fragmentAt_type offset start data
    have payload := fragmentAt_payload offset start data
    have decrease := passes_decrease offset start data bound
    have fits := (fragmentAt_fits offset start data bound).1
    rw [fragmentsLoop]
    generalize fragmentAt offset start data = f at type payload decrease fits ⊢
    obtain ⟨kind,part⟩ := f
    simp only at type payload decrease
    have parts : part ++ data.drop part.length = data := by
      rw [payload,List.length_take]
      rcases Nat.le_total data.length (kBlockSize - switchBlock offset - kHeaderSize) with short | long
      · simp [List.take_of_length_le short,Nat.min_eq_right short]
      · simp [Nat.min_eq_left long]
    by_cases more : part.length < data.length
    · have rest := ih _ false (data.drop part.length) fits (by have := decrease more; omega)
      simp only [more,if_true] at type ⊢
      cases start with
      | true =>
        simp only [if_true] at type
        subst type
        have chain := Chain.first part rest
        rwa [parts] at chain
      | false =>
        simp only [Bool.false_eq_true,if_false] at type
        subst type
        have chain := Chain.middle part rest
        rwa [parts] at chain
    · have whole : part = data := by
        rw [List.drop_of_length_le (by omega),List.append_nil] at parts
        exact parts
      subst whole
      simp only [more,if_false] at type ⊢
      cases start with
      | true =>
        simp only [if_true] at type
        subst type
        exact .full part
      | false =>
        simp only [Bool.false_eq_true,if_false] at type
        subst type
        exact .last part

theorem fragments_chain (offset : Nat) (data : Bytes) (bound : offset ≤ kBlockSize) : Chain true data (fragments offset data) := by
  have enough : passes offset data ≤ data.length + 2 := by unfold passes; split <;> omega
  exact fragmentsLoop_chain _ offset true data bound enough

theorem Chain.known (chain : Chain start data fs) :
    ∀ f ∈ fs, f.type ≠ .zero := by
  induction chain with
  | full data => simp
  | last data => simp
  | first part more ih => simpa using ih
  | middle part more ih => simpa using ih

theorem stream_known (records : List Bytes) (offset : Nat) (bound : offset ≤ kBlockSize) :
    ∀ f ∈ stream offset records, f.type ≠ .zero := by
  induction records generalizing offset with
  | nil => simp [stream]
  | cons data records ih =>
    have next := stream_end [data] offset bound
    simp only [stream,List.append_nil] at next
    intro f hf
    rcases List.mem_append.mp hf with here | later
    · exact (fragments_chain offset data bound).known f here
    · exact ih _ next f later

end Chain

end LevelDB.Log
