import LevelDB.LogFormat

/-! Reading a stream of physical records. A file is described as the items that were
laid out in it, whole fragments and damaged ends of blocks; the reader delivers what
`assemble` makes of the items, wherever they came from. -/
namespace LevelDB.Log

@[simp] theorem emitPhysicalRecord_length (t : RecordType) (data : Bytes) :
    (emitPhysicalRecord t data).length = kHeaderSize + data.length := by
  simp [emitPhysicalRecord,encodeFixed32,kHeaderSize]
  omega

theorem headerLength_emit (t : RecordType) (data tail : Bytes) (small : data.length < 65536) :
    headerLength (emitPhysicalRecord t data ++ tail) = data.length := by
  have high : data.length / 256 < 256 := by omega
  simp [headerLength,emitPhysicalRecord,encodeFixed32,Nat.mod_eq_of_lt high]
  omega

theorem headerType_emit (t : RecordType) (data tail : Bytes) :
    headerType (emitPhysicalRecord t data ++ tail) = t.code.toNat := by
  cases t <;> simp [headerType,emitPhysicalRecord,encodeFixed32,RecordType.code]

theorem checksum_emit (t : RecordType) (data tail : Bytes) :
    checksumMatches (emitPhysicalRecord t data ++ tail) data.length = true := by
  have stored : decodeFixed32 (emitPhysicalRecord t data ++ tail) =
      Crc32c.mask (Crc32c.extend (Crc32c.value [t.code]) data) := by
    simp only [emitPhysicalRecord,List.append_assoc]
    exact decodeFixed32_encodeFixed32 _ _
  have covered : ((emitPhysicalRecord t data ++ tail).drop 6).take (1 + data.length) =
      [t.code] ++ data := by
    simp [emitPhysicalRecord,encodeFixed32,Nat.add_comm 1]
  simp only [checksumMatches,stored,covered,Crc32c.unmask_mask,Crc32c.value,Crc32c.extend_append,
    beq_self_eq_true]

theorem drop_emit (t : RecordType) (data tail : Bytes) :
    (emitPhysicalRecord t data ++ tail).drop (kHeaderSize + data.length) = tail := by
  rw [← emitPhysicalRecord_length t data,List.drop_left]

theorem payload_emit (t : RecordType) (data tail : Bytes) :
    ((emitPhysicalRecord t data ++ tail).drop kHeaderSize).take data.length = data := by
  simp [emitPhysicalRecord,encodeFixed32,kHeaderSize]

/-- A whole physical record at the front of the buffer is delivered as it was emitted. -/
theorem parse_fragment (r : Reader) (t : RecordType) (data tail : Bytes)
    (buffer : r.buffer = emitPhysicalRecord t data ++ tail) (small : data.length < 65536)
    (start : r.initialOffset = 0) (zero : t = .zero → data ≠ []) :
    r.parse = ((t.code.toNat,data),{ r with buffer := tail }) := by
  have kind : ¬(t.code.toNat = 0 ∧ data.length = 0) := by
    rintro ⟨code,empty⟩
    cases t
    case zero => exact zero rfl (List.length_eq_zero_iff.mp empty)
    all_goals simp [RecordType.code] at code
  simp only [Reader.parse,buffer,headerLength_emit t data tail small,headerType_emit,
    checksum_emit,drop_emit,payload_emit,List.length_append,emitPhysicalRecord_length,start]
  rw [if_neg (by omega),if_neg kind]
  simp

/-- What a buffer that starts with these bytes cannot be read as. -/
def Unreadable (bytes : Bytes) : Prop :=
  kHeaderSize ≤ bytes.length ∧
    (bytes.length < kHeaderSize + headerLength bytes ∨
      (headerType bytes = 0 ∧ headerLength bytes = 0) ∨
      checksumMatches bytes (headerLength bytes) = false)

instance (bytes : Bytes) : Decidable (Unreadable bytes) := by
  unfold Unreadable; infer_instance

/-- What the reader meets next in a file: a physical record, or bytes up to the end of
the block that it cannot read. -/
inductive Item where
  | fragment (f : Fragment)
  | damaged (bytes : Bytes)

/-- The bytes of an item without the trailer in front of it. -/
def Item.body : Item → Bytes
  | .fragment f => emitPhysicalRecord f.type f.payload
  | .damaged bytes => bytes

def Item.emit (offset : Nat) : Item → Bytes
  | .fragment f => f.emit offset
  | .damaged bytes => trailer offset ++ bytes

theorem Item.emit_eq (offset : Nat) (i : Item) : i.emit offset = trailer offset ++ i.body := by
  cases i <;> rfl

def Item.advance (offset : Nat) : Item → Nat
  | .fragment f => f.advance offset
  | .damaged _ => kBlockSize

/-- A fragment stays inside its block; damaged bytes fill theirs to the end. -/
def Item.Fits (offset : Nat) : Item → Prop
  | .fragment f => f.advance offset ≤ kBlockSize ∧ (f.type = .zero → f.payload ≠ [])
  | .damaged bytes => switchBlock offset + bytes.length = kBlockSize ∧ Unreadable bytes

def layoutItems : Nat → List Item → Bytes
  | _, [] => []
  | offset, i :: rest => i.emit offset ++ layoutItems (i.advance offset) rest

def endOfItems (offset : Nat) (items : List Item) : Nat :=
  items.foldl Item.advance offset

def FitsAll : Nat → List Item → Prop
  | _, [] => True
  | offset, i :: rest => i.Fits offset ∧ FitsAll (i.advance offset) rest

/-- One item read with `pending` collected so far: the record it completes, if any,
and what is collected after it. -/
def Item.read (pending : Option Bytes) : Item → Option Bytes × Option Bytes
  | .fragment ⟨.full,payload⟩ => (some payload,none)
  | .fragment ⟨.first,payload⟩ => (none,some payload)
  | .fragment ⟨.middle,payload⟩ => (none,pending.map (· ++ payload))
  | .fragment ⟨.last,payload⟩ => (pending.map (· ++ payload),none)
  | .fragment ⟨.zero,_⟩ => (none,none)
  | .damaged _ => (none,none)

def assemble : Option Bytes → List Item → List Bytes
  | _, [] => []
  | pending, i :: rest => (i.read pending).1.toList ++ assemble (i.read pending).2 rest

/-- The items stand in `bytes` one after the other, then `tail`. The reader does not look
at trailers, so they may hold anything. -/
def Laid : Nat → List Item → Bytes → Bytes → Prop
  | _, [], tail, bytes => bytes = tail
  | offset, i :: rest, tail, bytes => ∃ skip next, skip.length = (trailer offset).length ∧
      bytes = skip ++ (i.body ++ next) ∧ Laid (i.advance offset) rest tail next

theorem laid_layout (offset : Nat) (items : List Item) (tail : Bytes) :
    Laid offset items tail (layoutItems offset items ++ tail) := by
  induction items generalizing offset with
  | nil => rfl
  | cons i items ih =>
    refine ⟨trailer offset,_,rfl,?_,ih (i.advance offset)⟩
    simp [layoutItems,Item.emit_eq]

/-- What `ReadRecord` makes of an item without calling the reporter. -/
def Item.Quiet (pending : Option Bytes) : Item → Prop
  | .fragment ⟨.full,_⟩ => pending.getD [] = []
  | .fragment ⟨.first,_⟩ => pending.getD [] = []
  | .fragment ⟨.middle,_⟩ => pending.isSome
  | .fragment ⟨.last,_⟩ => pending.isSome
  | .fragment ⟨.zero,_⟩ => False
  | .damaged _ => False

def QuietAll : Option Bytes → List Item → Prop
  | _, [] => True
  | pending, i :: rest => i.Quiet pending ∧ QuietAll (i.read pending).2 rest

theorem layoutItems_append (offset : Nat) (left right : List Item) :
    layoutItems offset (left ++ right) =
      layoutItems offset left ++ layoutItems (endOfItems offset left) right := by
  induction left generalizing offset with
  | nil => rfl
  | cons i left ih => simp [layoutItems,endOfItems,ih]

theorem fitsAll_append (offset : Nat) (left right : List Item) :
    FitsAll offset (left ++ right) ↔
      FitsAll offset left ∧ FitsAll (endOfItems offset left) right := by
  induction left generalizing offset with
  | nil => simp [FitsAll,endOfItems]
  | cons i left ih => simp [FitsAll,endOfItems,ih,and_assoc]

theorem endOfItems_append (offset : Nat) (left right : List Item) :
    endOfItems offset (left ++ right) = endOfItems (endOfItems offset left) right := by
  simp [endOfItems]

theorem layoutItems_fragments (offset : Nat) (fs : List Fragment) :
    layoutItems offset (fs.map .fragment) = layout offset fs := by
  induction fs generalizing offset with
  | nil => rfl
  | cons f fs ih => simp [layoutItems,layout,Item.emit,Item.advance,ih]

theorem endOfItems_fragments (offset : Nat) (fs : List Fragment) :
    endOfItems offset (fs.map .fragment) = endOffset offset fs := by
  simp [endOfItems,endOffset,List.foldl_map,Item.advance]

/-- The reader stands at block offset `offset` and `bytes` are still to come. The
buffer ends with its block, or with the file once the short last block is loaded. -/
structure Reader.At (r : Reader) (offset : Nat) (bytes : Bytes) : Prop where
  start : r.initialOffset = 0
  synced : r.resyncing = false
  checked : r.checksum = true
  bound : offset ≤ kBlockSize
  stream : r.buffer ++ r.file = bytes
  more : r.eof = false → r.buffer.length = (kBlockSize - offset) % kBlockSize
  last : r.eof = true → r.file = [] ∧ offset + r.buffer.length < kBlockSize

theorem new_at (file : Bytes) : (Reader.new file true 0).At 0 file := by
  constructor <;> simp [Reader.new]

theorem At.reported (r : Reader) (n : Nat) (reason : String) (at_ : r.At offset bytes) :
    (r.reportDrop n reason).At offset bytes := by
  unfold Reader.reportDrop
  split
  · exact ⟨at_.start,at_.synced,at_.checked,at_.bound,at_.stream,at_.more,at_.last⟩
  · exact at_

/-- The first part of `ReadPhysicalRecord`: the block of the next record is in the buffer. -/
def Reader.load (r : Reader) : Reader :=
  if r.buffer.length < kHeaderSize ∧ r.eof = false then r.refill else r

structure Reader.Loaded (r : Reader) (offset : Nat) (body : Bytes) : Prop where
  start : r.initialOffset = 0
  synced : r.resyncing = false
  checked : r.checksum = true
  buffer : r.buffer = body.take (kBlockSize - offset)
  file : r.file = body.drop (kBlockSize - offset)
  eof : r.eof = decide (offset + body.length < kBlockSize)

theorem trailer_length (offset : Nat) :
    (trailer offset).length = if kBlockSize - offset < kHeaderSize then kBlockSize - offset else 0 := by
  unfold trailer
  split <;> simp

theorem refill_loaded (r : Reader) (body : Bytes) (start : r.initialOffset = 0)
    (synced : r.resyncing = false) (checked : r.checksum = true) (file : r.file = body) :
    r.refill.Loaded 0 body := by
  refine ⟨start,synced,checked,?_,?_,?_⟩
  · simp [Reader.refill,file]
  · simp [Reader.refill,file]
  · simp only [Reader.refill,file,List.length_take,Nat.zero_add,decide_eq_decide]
    omega

theorem load_reports (r : Reader) : r.load.reports = r.reports := by
  unfold Reader.load
  split <;> rfl

/-- Whatever is left of a trailer is skipped, and the next record's block is loaded. -/
theorem At.load (r : Reader) (offset : Nat) (skip body : Bytes)
    (skipped : skip.length = (trailer offset).length) (at_ : r.At offset (skip ++ body)) :
    r.load.Loaded (switchBlock offset) body := by
  have bound := at_.bound
  have stream := congrArg List.length at_.stream
  simp only [trailer_length] at skipped
  simp only [List.length_append,skipped] at stream
  cases done : r.eof
  case true =>
    obtain ⟨file,room⟩ := at_.last done
    simp only [file,List.length_nil] at stream
    by_cases short : kBlockSize - offset < kHeaderSize
    · simp only [short,if_true] at stream
      omega
    · simp only [short,if_false,List.length_eq_zero_iff] at skipped
      have whole : r.buffer = body := by
        have eq := at_.stream
        simpa [file,skipped] using eq
      have loaded : r.load = r := by simp [Reader.load,done]
      have here : switchBlock offset = offset := by simp [switchBlock,short]
      rw [loaded,here]
      refine ⟨at_.start,at_.synced,at_.checked,?_,?_,?_⟩
      · rw [whole,List.take_of_length_le]
        rw [← whole]; omega
      · rw [file,List.drop_of_length_le]
        rw [← whole]; omega
      · rw [done,← whole]; simp [room]
  case false =>
    have length := at_.more done
    by_cases short : kBlockSize - offset < kHeaderSize
    · -- the buffer holds the trailer only, the record starts the next block
      have small : kBlockSize - offset < kBlockSize := by simp only [kHeaderSize,kBlockSize] at *; omega
      simp only [Nat.mod_eq_of_lt small] at length
      have split := at_.stream
      have file : r.file = body := by
        apply List.append_inj_right split
        simp [skipped,short,length]
      have loaded : r.load = r.refill := by simp [Reader.load,done,length,short]
      have here : switchBlock offset = 0 := by simp [switchBlock,short]
      rw [loaded,here]
      exact refill_loaded r body at_.start at_.synced at_.checked file
    · have here : switchBlock offset = offset := by simp [switchBlock,short]
      simp only [short,if_false,List.length_eq_zero_iff] at skipped
      have split := at_.stream
      rw [skipped,List.nil_append] at split
      rw [here]
      by_cases zero : offset = 0
      · subst zero
        rw [Nat.sub_zero,Nat.mod_self,List.length_eq_zero_iff] at length
        have loaded : r.load = r.refill := by simp [Reader.load,done,length,kHeaderSize]
        rw [loaded]
        refine refill_loaded r body at_.start at_.synced at_.checked ?_
        simpa [length] using split
      · have small : kBlockSize - offset < kBlockSize := by omega
        rw [Nat.mod_eq_of_lt small] at length
        have loaded : r.load = r := by
          simp only [Reader.load,done,length,short,false_and,if_false]
        rw [loaded]
        refine ⟨at_.start,at_.synced,at_.checked,?_,?_,?_⟩
        · rw [← split,← length,List.take_left]
        · rw [← split,← length,List.drop_left]
        · have total := congrArg List.length split
          simp only [List.length_append] at total
          rw [done]
          symm
          simp only [decide_eq_false_iff_not]
          omega

theorem readPhysicalRecord_eq (r : Reader) :
    r.readPhysicalRecord = if r.load.buffer.length < kHeaderSize
      then ((kEof,[]),{ r.load with buffer := [] }) else r.load.parse := rfl

/-- A fragment that is whole in the stream is delivered, and the reader stands after it. -/
theorem read_fragment (r : Reader) (offset : Nat) (f : Fragment) (skip tail : Bytes)
    (fits : (Item.fragment f).Fits offset) (skipped : skip.length = (trailer offset).length)
    (at_ : r.At offset (skip ++ (emitPhysicalRecord f.type f.payload ++ tail))) :
    ∃ next : Reader, r.readPhysicalRecord = ((f.type.code.toNat,f.payload),next) ∧
      next.At (f.advance offset) tail ∧ next.reports = r.reports := by
  obtain ⟨inside,zero⟩ := fits
  have size := emitPhysicalRecord_length f.type f.payload
  have loaded := At.load r offset skip _ skipped at_
  unfold Fragment.advance at inside
  set o := switchBlock offset with ho
  have room : (emitPhysicalRecord f.type f.payload).length ≤ kBlockSize - o := by omega
  have buffer : r.load.buffer = emitPhysicalRecord f.type f.payload ++
      tail.take (kBlockSize - o - (emitPhysicalRecord f.type f.payload).length) := by
    rw [loaded.buffer,List.take_append,List.take_of_length_le room]
  have file : r.load.file =
      tail.drop (kBlockSize - o - (emitPhysicalRecord f.type f.payload).length) := by
    rw [loaded.file,List.drop_append,List.drop_of_length_le room,List.nil_append]
  have small : f.payload.length < 65536 := by simp only [kBlockSize] at inside; omega
  refine ⟨{ r.load with
    buffer := tail.take (kBlockSize - o - (emitPhysicalRecord f.type f.payload).length) },?_,?_,
    load_reports r⟩
  · rw [readPhysicalRecord_eq,if_neg,parse_fragment r.load f.type f.payload _ buffer small
      loaded.start zero]
    rw [buffer,List.length_append,size]; omega
  · refine ⟨loaded.start,loaded.synced,loaded.checked,inside,?_,?_,?_⟩
    · rw [file]; exact List.take_append_drop _ _
    · intro more
      have eof := loaded.eof
      rw [show r.load.eof = false from more] at eof
      have full := of_decide_eq_false eof.symm
      simp only [List.length_append,size] at full
      simp only [Fragment.advance,← ho,List.length_take,size]
      rw [Nat.mod_eq_of_lt (by simp only [kHeaderSize,kBlockSize]; omega)]
      omega
    · intro last
      have eof := loaded.eof
      rw [show r.load.eof = true from last] at eof
      have short := of_decide_eq_true eof.symm
      simp only [List.length_append,size] at short
      simp only [Fragment.advance,← ho,file,List.length_take,size]
      refine ⟨List.drop_of_length_le ?_,?_⟩ <;> omega

/-- Damaged bytes up to the end of a block cost that block and nothing more. -/
theorem read_damaged (r : Reader) (offset : Nat) (bytes skip tail : Bytes)
    (fits : (Item.damaged bytes).Fits offset) (skipped : skip.length = (trailer offset).length)
    (at_ : r.At offset (skip ++ (bytes ++ tail))) :
    ∃ next : Reader, r.readPhysicalRecord = ((kBadRecord,[]),next) ∧ next.At kBlockSize tail := by
  obtain ⟨fill,header,bad⟩ := fits
  have loaded := At.load r offset skip _ skipped at_
  have width : kBlockSize - switchBlock offset = bytes.length := by omega
  have buffer : r.load.buffer = bytes := by rw [loaded.buffer,width,List.take_left]
  have file : r.load.file = tail := by rw [loaded.file,width,List.drop_left]
  have eof : r.load.eof = false := by
    rw [loaded.eof,List.length_append]; simp; omega
  have cleared : ({ r.load with buffer := [] } : Reader).At kBlockSize tail := by
    refine ⟨loaded.start,loaded.synced,loaded.checked,Nat.le_refl _,?_,?_,?_⟩
    · simpa using file
    · intro _; simp
    · intro last; simp [eof] at last
  rw [readPhysicalRecord_eq,if_neg (by rw [buffer]; omega)]
  unfold Reader.parse
  simp only [buffer,eof]
  by_cases long : bytes.length < kHeaderSize + headerLength bytes
  · rw [if_pos long]
    exact ⟨_,rfl,At.reported _ _ _ (by simpa [eof] using cleared)⟩
  · rw [if_neg long]
    by_cases empty : headerType bytes = 0 ∧ headerLength bytes = 0
    · rw [if_pos empty]
      exact ⟨_,rfl,by simpa [eof] using cleared⟩
    · have mismatch : checksumMatches bytes (headerLength bytes) = false := by
        rcases bad with h | h | h
        · exact absurd h long
        · exact absurd h empty
        · exact h
      rw [if_neg empty,if_pos (by simp [loaded.checked,mismatch])]
      exact ⟨_,rfl,At.reported _ _ _ (by simpa [eof] using cleared)⟩

theorem At.length (r : Reader) (at_ : r.At offset bytes) :
    r.file.length + r.buffer.length = bytes.length := by
  rw [← at_.stream,List.length_append]
  omega

/-- One pass of the loop of `ReadRecord` over an item of the stream. -/
theorem readLoop_item (r : Reader) (offset : Nat) (i : Item) (skip tail : Bytes) (fits : i.Fits offset)
    (skipped : skip.length = (trailer offset).length) (at_ : r.At offset (skip ++ (i.body ++ tail)))
    (fuel : Nat) (pending : Option Bytes) (prospective : Nat) :
    ∃ next : Reader, next.At (i.advance offset) tail ∧ (i.Quiet pending → next.reports = r.reports) ∧
      (∀ record, (i.read pending).1 = some record →
        r.readLoop (fuel + 1) pending prospective = (some record,next)) ∧
      ((i.read pending).1 = none → ∃ later,
        r.readLoop (fuel + 1) pending prospective = next.readLoop fuel (i.read pending).2 later) := by
  cases i with
  | damaged bytes =>
    obtain ⟨next,physical,after⟩ := read_damaged r offset bytes skip tail fits skipped at_
    cases pending with
    | none =>
      refine ⟨{ next with resyncing := false },?_,fun quiet => quiet.elim,?_,?_⟩
      · exact ⟨after.start,rfl,after.checked,after.bound,after.stream,after.more,after.last⟩
      · intro record impossible; simp [Item.read] at impossible
      · intro _
        exact ⟨prospective,by simp [Reader.readLoop,physical,after.synced,kBadRecord,Item.read]⟩
    | some scratch =>
      refine ⟨{ next with resyncing := false }.reportDrop scratch.length
        "error in middle of record",?_,fun quiet => quiet.elim,?_,?_⟩
      · apply At.reported
        exact ⟨after.start,rfl,after.checked,after.bound,after.stream,after.more,after.last⟩
      · intro record impossible; simp [Item.read] at impossible
      · intro _
        exact ⟨prospective,by simp [Reader.readLoop,physical,after.synced,kBadRecord,Item.read]⟩
  | fragment f =>
    obtain ⟨next,physical,after,same⟩ := read_fragment r offset f skip tail fits skipped at_
    obtain ⟨type,payload⟩ := f
    have clean : ({ next with resyncing := false } : Reader).At
        ((Item.fragment ⟨type,payload⟩).advance offset) tail :=
      ⟨after.start,rfl,after.checked,after.bound,after.stream,after.more,after.last⟩
    have moved (n : Nat) (q : Reader) (h : q.At ((Item.fragment ⟨type,payload⟩).advance offset) tail) :
        ({ q with lastRecordOffset := n } : Reader).At
          ((Item.fragment ⟨type,payload⟩).advance offset) tail :=
      ⟨h.start,h.synced,h.checked,h.bound,h.stream,h.more,h.last⟩
    cases type with
    | zero =>
      refine ⟨_,At.reported _ (payload.length + (pending.getD []).length)
        ("unknown record type " ++ toString 0) clean,fun quiet => quiet.elim,?_,?_⟩
      · intro record impossible; simp [Item.read] at impossible
      · intro _
        exact ⟨prospective,by simp [Reader.readLoop,physical,after.synced,RecordType.code,Item.read]⟩
    | full =>
      by_cases held : pending.getD [] = []
      · refine ⟨_,moved (sub64 (sub64 (sub64 next.endOfBufferOffset next.buffer.length) kHeaderSize)
          payload.length) _ clean,fun _ => same,?_,?_⟩
        · intro record equal
          simp only [Item.read,Option.some.injEq] at equal
          simp [Reader.readLoop,physical,after.synced,RecordType.code,held,equal]
        · intro impossible; simp [Item.read] at impossible
      · refine ⟨_,moved (sub64 (sub64 (sub64 next.endOfBufferOffset next.buffer.length) kHeaderSize)
          payload.length) _ (At.reported _ (pending.getD []).length "partial record without end(1)"
          clean),fun quiet => absurd quiet held,?_,?_⟩
        · intro record equal
          simp only [Item.read,Option.some.injEq] at equal
          simp [Reader.readLoop,physical,after.synced,RecordType.code,held,equal]
        · intro impossible; simp [Item.read] at impossible
    | first =>
      by_cases held : pending.getD [] = []
      · refine ⟨_,clean,fun _ => same,?_,?_⟩
        · intro record impossible; simp [Item.read] at impossible
        · intro _
          exact ⟨_,by simp [Reader.readLoop,physical,after.synced,RecordType.code,held,Item.read]; rfl⟩
      · refine ⟨_,At.reported _ (pending.getD []).length "partial record without end(2)" clean,
          fun quiet => absurd quiet held,?_,?_⟩
        · intro record impossible; simp [Item.read] at impossible
        · intro _
          exact ⟨_,by simp [Reader.readLoop,physical,after.synced,RecordType.code,held,Item.read]; rfl⟩
    | middle =>
      cases pending with
      | none =>
        refine ⟨_,At.reported _ payload.length "missing start of fragmented record(1)" clean,
          fun quiet => (Bool.false_ne_true quiet).elim,?_,?_⟩
        · intro record impossible; simp [Item.read] at impossible
        · intro _
          exact ⟨prospective,by simp [Reader.readLoop,physical,after.synced,RecordType.code,Item.read]⟩
      | some scratch =>
        refine ⟨_,clean,fun _ => same,?_,?_⟩
        · intro record impossible; simp [Item.read] at impossible
        · intro _
          exact ⟨prospective,by simp [Reader.readLoop,physical,after.synced,RecordType.code,Item.read]⟩
    | last =>
      cases pending with
      | none =>
        refine ⟨_,At.reported _ payload.length "missing start of fragmented record(2)" clean,
          fun quiet => (Bool.false_ne_true quiet).elim,?_,?_⟩
        · intro record impossible; simp [Item.read] at impossible
        · intro _
          exact ⟨prospective,by simp [Reader.readLoop,physical,after.synced,RecordType.code,Item.read]⟩
      | some scratch =>
        refine ⟨_,moved prospective _ clean,fun _ => same,?_,?_⟩
        · intro record equal
          simp only [Item.read,Option.map_some,Option.some.injEq] at equal
          simp [Reader.readLoop,physical,after.synced,RecordType.code,equal]
        · intro impossible; simp [Item.read] at impossible

/-- `ReadRecord` runs through items until one completes a record, or through all. -/
theorem readLoop_items (items : List Item) (r : Reader) (offset : Nat) (tail bytes : Bytes)
    (fits : FitsAll offset items) (laid : Laid offset items tail bytes) (at_ : r.At offset bytes)
    (fuel : Nat) (pending : Option Bytes) (prospective : Nat) :
    (∃ (record : Bytes) (before after : List Item) (next : Reader) (left : Bytes),
      items = before ++ after ∧ before ≠ [] ∧ assemble pending items = record :: assemble none after ∧
      r.readLoop (fuel + items.length) pending prospective = (some record,next) ∧
      next.At (endOfItems offset before) left ∧ Laid (endOfItems offset before) after tail left ∧
      (QuietAll pending items → next.reports = r.reports ∧ QuietAll none after)) ∨
    (assemble pending items = [] ∧ ∃ (next : Reader) (held : Option Bytes) (later : Nat),
      r.readLoop (fuel + items.length) pending prospective = next.readLoop fuel held later ∧
      next.At (endOfItems offset items) tail ∧ (QuietAll pending items → next.reports = r.reports)) := by
  induction items generalizing r offset pending prospective bytes with
  | nil =>
    simp only [Laid] at laid
    subst laid
    exact .inr ⟨rfl,r,pending,prospective,rfl,at_,fun _ => rfl⟩
  | cons i items ih =>
    obtain ⟨here,rest⟩ := fits
    obtain ⟨skip,left,skipped,rfl,more⟩ := laid
    obtain ⟨next,after,quiet,returns,continues⟩ :=
      readLoop_item r offset i skip left here skipped at_ (fuel + items.length) pending prospective
    cases out : (i.read pending).1 with
    | some record =>
      have reset : (i.read pending).2 = none := by
        cases i with
        | damaged bytes => rfl
        | fragment f =>
          obtain ⟨type,payload⟩ := f
          cases type <;> simp_all [Item.read]
      refine .inl ⟨record,[i],items,next,left,rfl,by simp,?_,returns record out,after,more,?_⟩
      · simp [assemble,out,reset]
      · rintro ⟨now,later⟩
        exact ⟨quiet now,reset ▸ later⟩
    | none =>
      obtain ⟨later,again⟩ := continues out
      have same : assemble pending (i :: items) = assemble (i.read pending).2 items := by
        simp [assemble,out]
      rw [same,List.length_cons,← Nat.add_assoc,again]
      rcases ih next (i.advance offset) left rest more after (i.read pending).2 later with
        ⟨record,before,after,last,bytes,split,_,assembled,returned,stands,laid,silent⟩ |
        ⟨none,last,held,final,ran,stands,silent⟩
      · refine .inl ⟨record,i :: before,after,last,bytes,by rw [split]; rfl,by simp,assembled,returned,stands,
          laid,?_⟩
        rintro ⟨now,soon⟩
        exact ⟨(silent soon).1.trans (quiet now),(silent soon).2⟩
      · refine .inr ⟨none,last,held,final,ran,stands,?_⟩
        rintro ⟨now,soon⟩
        exact (silent soon).trans (quiet now)

/-- From here `ReadRecord` returns no record; a quiet end is not reported either. -/
def Ends (quiet : Prop) (offset : Nat) (tail : Bytes) : Prop :=
  ∀ r : Reader, r.At offset tail → ∀ (fuel : Nat) (pending : Option Bytes) (prospective : Nat),
    (r.readLoop fuel pending prospective).1 = none ∧
      (quiet → (r.readLoop fuel pending prospective).2.reports = r.reports)

/-- A reader that stands here meets the end of the file. -/
def Dead (offset : Nat) (tail : Bytes) : Prop :=
  ∀ r : Reader, r.At offset tail → r.readPhysicalRecord.1.1 = kEof ∧
    r.readPhysicalRecord.2.resyncing = false ∧ r.readPhysicalRecord.2.reports = r.reports

theorem Dead.ends (dead : Dead offset tail) : Ends True offset tail := by
  intro r at_ fuel pending prospective
  cases fuel with
  | zero => exact ⟨rfl,fun _ => rfl⟩
  | succ fuel =>
    obtain ⟨type,synced,reports⟩ := dead r at_
    simp [Reader.readLoop,type,synced,kEof,reports]

theorem At.readRecord (r : Reader) (at_ : r.At offset bytes) :
    r.readRecord = r.readLoop (bytes.length + 1) none 0 := by
  simp [Reader.readRecord,at_.start,At.length r at_]

/-- Calls of `ReadRecord` that return these records, then false. -/
inductive Reader.Returns : Reader → List Bytes → Reader → Prop
  | done (answer : r.readRecord = (none,last)) : Returns r [] last
  | next (answer : r.readRecord = (some record,later)) (more : Returns later records last) :
    Returns r (record :: records) last

theorem Reader.Returns.readAllLoop {r last : Reader} {records : List Bytes} (returns : r.Returns records last)
    (fuel : Nat) (enough : records.length < fuel) : r.readAllLoop fuel = (records,last) := by
  induction returns generalizing fuel with
  | done answer =>
    cases fuel with
    | zero => omega
    | succ fuel => simp [Reader.readAllLoop,answer]
  | next answer more ih =>
    cases fuel with
    | zero => omega
    | succ fuel => simp [Reader.readAllLoop,answer,ih fuel (by simpa using enough)]

theorem laid_length (items : List Item) (offset : Nat) (tail bytes : Bytes) (fits : FitsAll offset items)
    (laid : Laid offset items tail bytes) : items.length ≤ bytes.length := by
  induction items generalizing offset bytes with
  | nil => simp
  | cons i items ih =>
    obtain ⟨skip,left,-,rfl,more⟩ := laid
    have rest := ih (i.advance offset) left fits.2 more
    have one : 1 ≤ i.body.length := by
      cases i with
      | fragment f => simp [Item.body,kHeaderSize]; omega
      | damaged bytes =>
        have header := fits.1.2.1
        simp only [kHeaderSize] at header
        simp only [Item.body]
        omega
    simp only [List.length_cons,List.length_append]
    omega

/-- The reader returns exactly what the items of the stream amount to. -/
theorem returns_items (count : Nat) (items : List Item) (size : items.length ≤ count) (r : Reader)
    (offset : Nat) (tail bytes : Bytes) (quiet : Prop)
    (fits : FitsAll offset items) (ends : Ends quiet (endOfItems offset items) tail)
    (laid : Laid offset items tail bytes) (at_ : r.At offset bytes) :
    ∃ last, r.Returns (assemble none items) last ∧
      (quiet → QuietAll none items → last.reports = r.reports) := by
  induction count generalizing items r offset bytes with
  | zero =>
    have none : items = [] := List.length_eq_zero_iff.mp (Nat.le_zero.mp size)
    subst none
    simp only [Laid] at laid
    subst laid
    obtain ⟨answer,reports⟩ := ends r at_ (bytes.length + 1) none 0
    rw [← At.readRecord r at_] at answer reports
    exact ⟨r.readRecord.2,.done (by rw [← answer]),fun silent _ => reports silent⟩
  | succ count ih =>
    have room := laid_length items offset tail bytes fits laid
    have split : bytes.length + 1 = bytes.length + 1 - items.length + items.length := by omega
    have read := At.readRecord r at_
    rw [split] at read
    rcases readLoop_items items r offset tail bytes fits laid at_
        (bytes.length + 1 - items.length) none 0 with
      ⟨record,before,after,next,left,parts,some,assembled,returned,stands,rest,silent⟩ |
      ⟨nothing,next,held,later,ran,stands,silent⟩
    · subst parts
      obtain ⟨_,fitsRest⟩ := (fitsAll_append offset before after).mp fits
      rw [endOfItems_append] at ends
      have shorter : after.length ≤ count := by
        have := List.length_pos_of_ne_nil some
        simp only [List.length_append] at size
        omega
      obtain ⟨last,more,reports⟩ := ih after shorter next _ left fitsRest ends rest stands
      refine ⟨last,assembled ▸ .next (read.trans returned) more,?_⟩
      intro isQuiet all
      obtain ⟨now,soon⟩ := silent all
      exact (reports isQuiet soon).trans now
    · obtain ⟨answer,reports⟩ := ends next stands (bytes.length + 1 - items.length) held later
      rw [ran] at read
      rw [← read] at answer reports
      refine ⟨r.readRecord.2,?_,fun isQuiet all => (reports isQuiet).trans (silent all)⟩
      rw [nothing]
      exact .done (by rw [← answer])

theorem assemble_length (items : List Item) (pending : Option Bytes) :
    (assemble pending items).length ≤ items.length := by
  induction items generalizing pending with
  | nil => simp [assemble]
  | cons i items ih =>
    have rest := ih (i.read pending).2
    simp only [assemble,List.length_append,List.length_cons]
    cases (i.read pending).1 <;> simp <;> omega

theorem readAll_items (items : List Item) (tail : Bytes) (fits : FitsAll 0 items)
    (dead : Dead (endOfItems 0 items) tail) :
    readAll (layoutItems 0 items ++ tail) = assemble none items := by
  have laid := laid_layout 0 items tail
  obtain ⟨last,returns,-⟩ := returns_items _ items (Nat.le_refl _) _ 0 tail _ True fits dead.ends laid (new_at _)
  have size := laid_length items 0 tail _ fits laid
  have fewer := assemble_length items none
  rw [readAll,returns.readAllLoop _ (by omega)]

/-- Whatever follows in the file, the records laid out in front of it are delivered. -/
theorem readAllLoop_prefix (fuel : Nat) (items : List Item) (r : Reader) (offset : Nat) (tail bytes : Bytes)
    (fits : FitsAll offset items) (laid : Laid offset items tail bytes) (at_ : r.At offset bytes)
    (enough : items.length < fuel) :
    ∃ rest, (r.readAllLoop fuel).1 = assemble none items ++ rest := by
  induction fuel generalizing items r offset bytes with
  | zero => omega
  | succ fuel ih =>
    have size := laid_length items offset tail bytes fits laid
    have split : bytes.length + 1 = bytes.length + 1 - items.length + items.length := by omega
    rcases readLoop_items items r offset tail bytes fits laid at_
        (bytes.length + 1 - items.length) none 0 with
      ⟨record,before,after,next,left,parts,some,assembled,returned,stands,rest,-⟩ | ⟨nothing,-⟩
    · rw [Reader.readAllLoop,At.readRecord r at_,split]
      subst parts
      obtain ⟨_,later⟩ := (fitsAll_append offset before after).mp fits
      have shorter : after.length < fuel := by
        have := List.length_pos_of_ne_nil some
        simp only [List.length_append] at enough
        omega
      obtain ⟨rest,delivered⟩ := ih after next _ left later rest stands shorter
      exact ⟨rest,by simp only [returned,assembled,delivered,List.cons_append]⟩
    · exact ⟨_,by rw [nothing,List.nil_append]⟩

theorem readAll_prefix (items : List Item) (tail : Bytes) (fits : FitsAll 0 items) :
    ∃ rest, readAll (layoutItems 0 items ++ tail) = assemble none items ++ rest := by
  have laid := laid_layout 0 items tail
  have size := laid_length items 0 tail _ fits laid
  exact readAllLoop_prefix _ items _ 0 tail _ fits laid (new_at _) (by omega)

theorem headerLength_take (bytes : Bytes) (n : Nat) (header : kHeaderSize ≤ n) :
    headerLength (bytes.take n) = headerLength bytes := by
  simp only [kHeaderSize] at header
  have four : 4 < n := by omega
  have five : 5 < n := by omega
  simp [headerLength,List.getD_eq_getElem?_getD,four,five]

theorem parse_eof (r : Reader) (eof : r.eof = true)
    (short : r.buffer.length < kHeaderSize + headerLength r.buffer) :
    r.parse = ((kEof,[]),{ r with buffer := [] }) := by
  simp [Reader.parse,eof,short]

/-- A file that ends inside a fragment, or before it, ends the log there. -/
theorem dead_part (offset : Nat) (f : Fragment) (n : Nat) (fits : f.advance offset ≤ kBlockSize)
    (cut : n < (f.emit offset).length) : Dead offset ((f.emit offset).take n) := by
  intro r at_
  have size := emitPhysicalRecord_length f.type f.payload
  simp only [Fragment.emit,List.length_append,size] at cut
  rw [readPhysicalRecord_eq]
  by_cases part : n < (trailer offset).length
  · -- only a part of the trailer is there: it can only be the last, short block
    have short : kBlockSize - offset < kHeaderSize := by
      by_contra long
      simp [trailer,long] at part
    have width : (trailer offset).length = kBlockSize - offset := by simp [trailer_length,short]
    have total : ((f.emit offset).take n).length = n := by
      rw [List.length_take,Fragment.emit,List.length_append,size]; omega
    have stream := At.length r at_
    rw [total] at stream
    have done : r.eof = true := by
      by_contra more
      have more := Bool.eq_false_iff.mpr more
      have length := at_.more more
      rw [Nat.mod_eq_of_lt (by simp only [kHeaderSize,kBlockSize] at *; omega)] at length
      omega
    have load : r.load = r := by simp [Reader.load,done]
    rw [load,if_pos (by omega)]
    exact ⟨rfl,at_.synced,rfl⟩
  · have body : (f.emit offset).take n =
        trailer offset ++ (emitPhysicalRecord f.type f.payload).take (n - (trailer offset).length) := by
      rw [Fragment.emit,List.take_append,List.take_of_length_le (by omega)]
    rw [body] at at_
    have loaded := At.load r offset _ _ rfl at_
    unfold Fragment.advance at fits
    have length : ((emitPhysicalRecord f.type f.payload).take (n - (trailer offset).length)).length =
        n - (trailer offset).length := by
      rw [List.length_take,size]; omega
    have buffer := loaded.buffer
    rw [List.take_of_length_le (by omega)] at buffer
    have eof : r.load.eof = true := by rw [loaded.eof,length]; simp; omega
    split
    · exact ⟨rfl,loaded.synced,load_reports r⟩
    next header =>
      rw [buffer,length] at header
      rw [parse_eof r.load eof]
      · exact ⟨rfl,loaded.synced,load_reports r⟩
      · have whole := headerLength_emit f.type f.payload [] (by simp only [kBlockSize] at fits; omega)
        rw [List.append_nil] at whole
        rw [buffer,headerLength_take _ _ (by omega),whole,length]
        omega

theorem dead_nil (offset : Nat) (bound : offset ≤ kBlockSize) : Dead offset [] := by
  have fits : Fragment.advance offset ⟨.full,[]⟩ ≤ kBlockSize := by
    simp only [Fragment.advance,switchBlock,List.length_nil]
    split <;> simp only [kBlockSize,kHeaderSize] at * <;> omega
  exact dead_part offset ⟨.full,[]⟩ 0 fits (by simp [Fragment.emit,kHeaderSize])

theorem fragmentAt_payload (offset : Nat) (start : Bool) (data : Bytes) :
    (fragmentAt offset start data).payload =
      data.take (kBlockSize - switchBlock offset - kHeaderSize) := by
  unfold fragmentAt
  by_cases room : data.length < kBlockSize - switchBlock offset - kHeaderSize
  · simp [room,List.take_of_length_le (Nat.le_of_lt room)]
  · simp [room]

theorem switchBlock_le (offset : Nat) (bound : offset ≤ kBlockSize) :
    switchBlock offset + kHeaderSize ≤ kBlockSize := by
  unfold switchBlock
  split <;> simp only [kBlockSize,kHeaderSize] at * <;> omega

/-- The type of a fragment says whether it opens and whether it closes its record. -/
theorem fragmentAt_type (offset : Nat) (start : Bool) (data : Bytes) :
    (fragmentAt offset start data).type =
      if (fragmentAt offset start data).payload.length < data.length
      then (if start then .first else .middle) else (if start then .full else .last) := by
  rw [fragmentAt_payload,List.length_take]
  unfold fragmentAt
  by_cases room : data.length < kBlockSize - switchBlock offset - kHeaderSize
  · cases start <;> simp [room,Nat.min_eq_right (Nat.le_of_lt room)]
  · by_cases exact_ : data.length = kBlockSize - switchBlock offset - kHeaderSize
    · cases start <;> simp [← exact_]
    · have more : kBlockSize - switchBlock offset - kHeaderSize < data.length := by omega
      have least : min (kBlockSize - switchBlock offset - kHeaderSize) data.length < data.length := by
        omega
      cases start <;> simp [room,exact_,least]

theorem fragmentAt_fits (offset : Nat) (start : Bool) (data : Bytes) (bound : offset ≤ kBlockSize) :
    (Item.fragment (fragmentAt offset start data)).Fits offset := by
  have room := switchBlock_le offset bound
  refine ⟨?_,?_⟩
  · rw [Fragment.advance,fragmentAt_payload,List.length_take]
    omega
  · intro zero
    rw [fragmentAt_type] at zero
    split at zero <;> split at zero <;> contradiction

theorem fragmentsLoop_fits (fuel offset : Nat) (start : Bool) (data : Bytes)
    (bound : offset ≤ kBlockSize) :
    FitsAll offset ((fragmentsLoop fuel offset start data).map .fragment) := by
  induction fuel generalizing offset start data with
  | zero => trivial
  | succ fuel ih =>
    have here := fragmentAt_fits offset start data bound
    refine ⟨here,?_⟩
    split
    · exact ih _ _ _ here.1
    · trivial

/-- Passes that the loop of `AddRecord` still needs. -/
def passes (offset : Nat) (data : Bytes) : Nat :=
  data.length + if kBlockSize - switchBlock offset - kHeaderSize = 0 then 2 else 1

/-- A record that does not end here fills its block. -/
theorem fragmentAt_fills (offset : Nat) (start : Bool) (data : Bytes) (bound : offset ≤ kBlockSize)
    (more : (fragmentAt offset start data).payload.length < data.length) :
    (fragmentAt offset start data).advance offset = kBlockSize := by
  have room := switchBlock_le offset bound
  rw [fragmentAt_payload,List.length_take] at more
  rw [Fragment.advance,fragmentAt_payload,List.length_take]
  omega

theorem passes_decrease (offset : Nat) (start : Bool) (data : Bytes) (bound : offset ≤ kBlockSize)
    (more : (fragmentAt offset start data).payload.length < data.length) :
    passes ((fragmentAt offset start data).advance offset)
      (data.drop (fragmentAt offset start data).payload.length) < passes offset data := by
  rw [fragmentAt_fills offset start data bound more]
  have next : switchBlock kBlockSize = 0 := by decide
  simp only [passes,next,List.length_drop]
  rw [if_neg (by decide)]
  rw [fragmentAt_payload,List.length_take] at more ⊢
  split <;> omega

/-- The fragments of a record assemble to the record, after anything. -/
theorem assemble_fragmentsLoop (fuel offset : Nat) (start : Bool) (data : Bytes) (pending : Option Bytes)
    (rest : List Item) (bound : offset ≤ kBlockSize) (enough : passes offset data ≤ fuel)
    (opened : start = false → ∃ scratch, pending = some scratch) :
    assemble pending ((fragmentsLoop fuel offset start data).map .fragment ++ rest) =
      ((if start then [] else pending.getD []) ++ data) :: assemble none rest := by
  induction fuel generalizing offset start data pending with
  | zero => unfold passes at enough; split at enough <;> omega
  | succ fuel ih =>
    set f := fragmentAt offset start data with hf
    have type := fragmentAt_type offset start data
    have payload := fragmentAt_payload offset start data
    rw [← hf] at type payload
    have parts : f.payload ++ data.drop f.payload.length = data := by
      rw [payload,List.length_take]
      rcases Nat.le_total data.length (kBlockSize - switchBlock offset - kHeaderSize) with short | long
      · simp [List.take_of_length_le short,Nat.min_eq_right short]
      · simp [Nat.min_eq_left long]
    rw [fragmentsLoop]
    by_cases more : f.payload.length < data.length
    · have fits := (fragmentAt_fits offset start data bound).1
      have fewer := passes_decrease offset start data bound more
      rw [← hf] at fits fewer
      simp only [← hf,if_pos more] at type ⊢
      simp only [List.map_cons,List.cons_append,assemble]
      cases start with
      | true =>
        have step := ih (f.advance offset) false (data.drop f.payload.length) (some f.payload) fits
          (by omega) (fun _ => ⟨_,rfl⟩)
        simp only [if_true] at type
        rw [show Item.fragment f = .fragment ⟨.first,f.payload⟩ by rw [← type]]
        simpa [Item.read,parts] using step
      | false =>
        obtain ⟨scratch,rfl⟩ := opened rfl
        have step := ih (f.advance offset) false (data.drop f.payload.length)
          (some (scratch ++ f.payload)) fits (by omega) (fun _ => ⟨_,rfl⟩)
        simp only [Bool.false_eq_true,if_false] at type
        rw [show Item.fragment f = .fragment ⟨.middle,f.payload⟩ by rw [← type]]
        simpa [Item.read,parts] using step
    · have whole : f.payload = data := by
        have none : data.drop f.payload.length = [] := List.drop_of_length_le (by omega)
        rw [none,List.append_nil] at parts
        exact parts
      simp only [← hf,if_neg more] at type ⊢
      cases start with
      | true =>
        simp only [if_true] at type
        have shape : f = ⟨.full,data⟩ := by
          rw [← whole,← type]
        simp [shape,assemble,Item.read]
      | false =>
        obtain ⟨scratch,rfl⟩ := opened rfl
        simp only [Bool.false_eq_true,if_false] at type
        have shape : f = ⟨.last,data⟩ := by
          rw [← whole,← type]
        simp [shape,assemble,Item.read]

theorem assemble_fragments (offset : Nat) (data : Bytes) (pending : Option Bytes) (rest : List Item)
    (bound : offset ≤ kBlockSize) :
    assemble pending ((fragments offset data).map .fragment ++ rest) = data :: assemble none rest := by
  have enough : passes offset data ≤ data.length + 2 := by unfold passes; split <;> omega
  simpa [fragments] using assemble_fragmentsLoop (data.length + 2) offset true data pending rest bound enough
    (by simp)

/-- The fragments of consecutive records. -/
def stream : Nat → List Bytes → List Fragment
  | _, [] => []
  | offset, data :: rest =>
    fragments offset data ++ stream (endOffset offset (fragments offset data)) rest

theorem layout_append (offset : Nat) (left right : List Fragment) :
    layout offset (left ++ right) = layout offset left ++ layout (endOffset offset left) right := by
  induction left generalizing offset with
  | nil => rfl
  | cons f left ih => simp [layout,endOffset,ih]

theorem endOffset_append (offset : Nat) (left right : List Fragment) :
    endOffset offset (left ++ right) = endOffset (endOffset offset left) right := by
  simp [endOffset]

/-- A writer session is the layout of its records' fragments. -/
theorem addRecords_eq (records : List Bytes) (w : Writer) :
    w.addRecords records =
      ⟨w.dest ++ layout w.blockOffset (stream w.blockOffset records),
        endOffset w.blockOffset (stream w.blockOffset records)⟩ := by
  induction records generalizing w with
  | nil => simp [Writer.addRecords,stream,layout,endOffset]
  | cons data records ih =>
    have step := ih (w.addRecord data)
    simp only [Writer.addRecords,List.foldl_cons] at step ⊢
    rw [step]
    simp [Writer.addRecord,stream,layout_append,endOffset_append]

theorem fitsAll_end (items : List Item) (offset : Nat) (bound : offset ≤ kBlockSize)
    (fits : FitsAll offset items) : endOfItems offset items ≤ kBlockSize := by
  induction items generalizing offset with
  | nil => exact bound
  | cons i items ih =>
    refine ih (i.advance offset) ?_ fits.2
    cases i with
    | fragment f => exact fits.1.1
    | damaged bytes => exact Nat.le_refl _

theorem stream_fits (records : List Bytes) (offset : Nat) (bound : offset ≤ kBlockSize) :
    FitsAll offset ((stream offset records).map .fragment) := by
  induction records generalizing offset with
  | nil => trivial
  | cons data records ih =>
    have here : FitsAll offset ((fragments offset data).map .fragment) :=
      fragmentsLoop_fits (data.length + 2) offset true data bound
    have next := fitsAll_end _ _ bound here
    rw [endOfItems_fragments] at next
    rw [stream,List.map_append,fitsAll_append,endOfItems_fragments]
    exact ⟨here,ih _ next⟩

theorem stream_end (records : List Bytes) (offset : Nat) (bound : offset ≤ kBlockSize) :
    endOffset offset (stream offset records) ≤ kBlockSize := by
  rw [← endOfItems_fragments]
  exact fitsAll_end _ _ bound (stream_fits records offset bound)

/-- Whatever was collected before, whole records come out as they went in. -/
theorem assemble_stream (records : List Bytes) (offset : Nat) (pending : Option Bytes)
    (bound : offset ≤ kBlockSize) :
    assemble pending ((stream offset records).map .fragment) = records := by
  induction records generalizing offset pending with
  | nil => rfl
  | cons data records ih =>
    have next := stream_end [data] offset bound
    simp only [stream,List.append_nil] at next
    rw [stream,List.map_append,assemble_fragments offset data pending _ bound,ih _ none next]

/-- What is collected after the items. -/
def pendingAfter (pending : Option Bytes) (items : List Item) : Option Bytes :=
  items.foldl (fun held i => (i.read held).2) pending

theorem assemble_append (left right : List Item) (pending : Option Bytes) :
    assemble pending (left ++ right) =
      assemble pending left ++ assemble (pendingAfter pending left) right := by
  induction left generalizing pending with
  | nil => rfl
  | cons i left ih => simp [assemble,pendingAfter,ih]

/-- The offset in the block is the position in the file, up to whole blocks. -/
theorem layout_length (fs : List Fragment) (offset : Nat) (bound : offset ≤ kBlockSize)
    (fits : FitsAll offset (fs.map .fragment)) :
    (offset + (layout offset fs).length) % kBlockSize = endOffset offset fs % kBlockSize := by
  induction fs generalizing offset with
  | nil => simp [layout,endOffset]
  | cons f fs ih =>
    have step := ih (f.advance offset) fits.1.1 fits.2
    have here : (offset + (f.emit offset).length) % kBlockSize = f.advance offset % kBlockSize := by
      rw [Fragment.emit,List.length_append,trailer_length,emitPhysicalRecord_length,Fragment.advance,
        switchBlock]
      by_cases short : kBlockSize - offset < kHeaderSize
      · simp only [short,if_true]
        rw [show offset + (kBlockSize - offset + (kHeaderSize + f.payload.length)) =
          kHeaderSize + f.payload.length + kBlockSize by omega,Nat.add_mod_right,Nat.zero_add]
      · simp only [short,if_false]
        rw [Nat.zero_add,Nat.add_assoc]
    simp only [layout,List.length_append,endOffset,List.foldl_cons]
    rw [← Nat.add_assoc,Nat.add_mod,here,← Nat.add_mod]
    exact step

theorem fragmentAt_switch (a b : Nat) (same : switchBlock a = switchBlock b) (start : Bool)
    (data : Bytes) : fragmentAt a start data = fragmentAt b start data := by
  simp only [fragmentAt,same]

theorem fragmentsLoop_switch (fuel a b : Nat) (same : switchBlock a = switchBlock b) (start : Bool)
    (data : Bytes) : fragmentsLoop fuel a start data = fragmentsLoop fuel b start data := by
  cases fuel with
  | zero => rfl
  | succ fuel => simp only [fragmentsLoop,fragmentAt_switch a b same,Fragment.advance,same]

theorem stream_switch (a b : Nat) (same : switchBlock a = switchBlock b) (records : List Bytes) :
    stream a records = stream b records := by
  cases records with
  | nil => rfl
  | cons data records =>
    have equal : fragments a data = fragments b data :=
      fragmentsLoop_switch _ a b same true data
    have next : endOffset a (fragments b data) = endOffset b (fragments b data) := by
      simp only [fragments,fragmentsLoop,endOffset,List.foldl_cons,Fragment.advance,same]
    simp only [stream,equal,next]

/-- At the end of a block and at the start of the next one the same bytes follow. -/
theorem layout_switch (a b : Nat) (same : switchBlock a = switchBlock b) (f : Fragment)
    (fs : List Fragment) (bytes : Bytes) (trailers : bytes ++ trailer b = trailer a) :
    bytes ++ layout b (f :: fs) = layout a (f :: fs) := by
  simp only [layout,Fragment.emit,Fragment.advance,same,← trailers,List.append_assoc]

end LevelDB.Log
