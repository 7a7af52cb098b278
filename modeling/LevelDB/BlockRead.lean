import LevelDB.TableRoundTrip

/-! `ReadBlock` with the 64-bit arithmetic of its sizes, over the two files of
`util/env_posix`. A read past the object that a pointer points into is wild; an array that
is too large for the allocator is an exception. -/
namespace LevelDB.Sstable

inductive Crash where
  | wildAccess
  | badAlloc
  deriving DecidableEq

/-- What the allocator and `pread` answer. `pread` reads at the offset, less than it is asked
for where it likes, and never past the end of the file. -/
structure Platform (file : Bytes) where
  grants : Nat → Bool
  pread : Nat → Nat → Option Nat
  short : ∀ offset n k, pread offset n = some k → k ≤ n ∧ k ≤ file.length - offset
  size : file.length < 2^64

/-- `PosixRandomAccessFile` and `PosixMmapReadableFile`. -/
inductive RandomAccessFile where
  | posix
  | mmap
  deriving DecidableEq

/-- Into the buffer, which holds what was read, or into the mapping of the file. -/
inductive Pointer where
  | scratch (held : Bytes)
  | mapped (offset : Nat)
  deriving DecidableEq

structure Slice where
  data : Pointer
  size : Nat
  deriving DecidableEq

variable {file : Bytes}

/-- `Read`; without a result it is an I/O error. -/
def RandomAccessFile.read (platform : Platform file) (offset n : Nat) : RandomAccessFile → Option Slice
  | .posix => (platform.pread offset n).map fun k => ⟨.scratch (Sstable.read file offset k),k⟩
  | .mmap => if file.length < (offset + n) % 2^64 then none else some ⟨.mapped offset,n⟩

/-- `data[i]`. -/
def Slice.load (file : Bytes) (s : Slice) (i : Nat) : Except Crash UInt8 :=
  let byte := match s.data with
    | .scratch held => held[i]?
    | .mapped offset => file[offset + i]?
  byte.elim (.error .wildAccess) .ok

def Slice.loads (file : Bytes) (s : Slice) : Nat → Nat → Except Crash Bytes
  | _, 0 => .ok []
  | i, count + 1 => do
    let byte ← s.load file i
    let rest ← s.loads file (i + 1) count
    return byte :: rest

/-- `new char[ulength]` for the uncompressed contents. -/
def unpackGranted (platform : Platform file) (codec : Codec) (name : String) (contents : Bytes) :
    Except Crash (Except String Bytes) :=
  if (codec.getUncompressedLength contents).all platform.grants then .ok (unpack codec name contents) else .error .badAlloc

/-- The checksum behind the type byte against that of the bytes up to it. -/
def checksumMatches (file : Bytes) (s : Slice) (n : Nat) : Except Crash Bool := do
  let stored ← s.loads file (n + 1) 4
  let checked ← s.loads file 0 ((n + 1) % 2^64)
  return decide (Crc32c.value checked = Crc32c.unmask (decodeFixed32 stored))

/-- The `switch` on the type byte. -/
def readTyped {T : Type} (platform : Platform file) (o : Options T) (s : Slice) (n : Nat) : Except Crash (Except String Bytes) := do
  let type ← s.load file n
  if type = CompressionType.noCompression.code then (s.loads file 0 n).map .ok
  else if type = CompressionType.snappyCompression.code then (s.loads file 0 n).bind (unpackGranted platform o.snappy "snappy")
  else if type = CompressionType.zstdCompression.code then (s.loads file 0 n).bind (unpackGranted platform o.zstd "zstd")
  else return .error "bad block type"

/-- The part of `ReadBlock` behind the check of the size. -/
def readContents {T : Type} (platform : Platform file) (o : Options T) (verifyChecksums : Bool) (s : Slice) (n : Nat) :
    Except Crash (Except String Bytes) := do
  let ok ← if verifyChecksums then checksumMatches file s n else .ok true
  if ok then readTyped platform o s n else return .error "block checksum mismatch"

/-- How a call of `ReadBlock` ends, and whether it has looked at the bytes it was given. -/
structure BlockRead where
  accessed : Bool
  outcome : Except Crash (Except String Bytes)

/-- `ReadBlock`; sizes are of type `size_t`. -/
def readBlock64 {T : Type} (platform : Platform file) (f : RandomAccessFile) (o : Options T) (verifyChecksums : Bool)
    (handle : BlockHandle) : BlockRead :=
  let n := handle.size
  let length := (n + kBlockTrailerSize) % 2^64
  if platform.grants length then
    match f.read platform handle.offset length with
    | none => ⟨false,.ok (.error "IO error")⟩
    | some contents =>
      if contents.size ≠ length then ⟨false,.ok (.error "truncated block read")⟩
      else ⟨true,readContents platform o verifyChecksums contents n⟩
  else ⟨false,.error .badAlloc⟩

/-- The block and its trailer are in the file. -/
def InFile (file : Bytes) (handle : BlockHandle) : Prop := handle.offset + handle.size + kBlockTrailerSize ≤ file.length

/-- The bytes of the block, uncompressed as its type says. -/
def storedContents {T : Type} (o : Options T) (file : Bytes) (handle : BlockHandle) : Except String Bytes :=
  let contents := read file handle.offset handle.size
  let type := file.getD (handle.offset + handle.size) 0
  if type = CompressionType.noCompression.code then .ok contents
  else if type = CompressionType.snappyCompression.code then unpack o.snappy "snappy" contents
  else if type = CompressionType.zstdCompression.code then unpack o.zstd "zstd" contents
  else .error "bad block type"

/-- The call stays inside the file: it gives the block that is there, or it returns an error. -/
structure BlockRead.StaysInside {T : Type} (r : BlockRead) (o : Options T) (file : Bytes) (handle : BlockHandle) : Prop where
  inside : r.accessed = true ∨ (∃ contents, r.outcome = .ok (.ok contents)) → InFile file handle
  contents : ∀ contents, r.outcome = .ok (.ok contents) → storedContents o file handle = .ok contents
  returns : ∃ status, r.outcome = .ok status

/-- The 64-bit sums wrap around and let a read through that the file does not have. -/
def PassesWrapped (platform : Platform file) (handle : BlockHandle) : RandomAccessFile → Prop
  | .posix => 2^64 ≤ handle.size + kBlockTrailerSize ∧
      platform.pread handle.offset ((handle.size + kBlockTrailerSize) % 2^64) =
        some ((handle.size + kBlockTrailerSize) % 2^64)
  | .mmap => file.length < handle.offset + handle.size + kBlockTrailerSize ∧
      (handle.offset + (handle.size + kBlockTrailerSize) % 2^64) % 2^64 ≤ file.length

/-- The whole block is read. -/
def Delivers (platform : Platform file) (handle : BlockHandle) : RandomAccessFile → Prop
  | .posix => InFile file handle ∧
      platform.pread handle.offset (handle.size + kBlockTrailerSize) = some (handle.size + kBlockTrailerSize)
  | .mmap => InFile file handle

/-- The checksum in the file, where it is asked for. -/
def ChecksumRight (verifyChecksums : Bool) (file : Bytes) (handle : BlockHandle) : Prop :=
  verifyChecksums = true → Crc32c.value (read file handle.offset (handle.size + 1)) =
    Crc32c.unmask (decodeFixed32 (read file (handle.offset + (handle.size + 1)) 4))

/-- The uncompressed length that a compressed block states. -/
def statedLength {T : Type} (o : Options T) (file : Bytes) (handle : BlockHandle) : Option Nat :=
  let contents := read file handle.offset handle.size
  let type := file.getD (handle.offset + handle.size) 0
  if type = CompressionType.snappyCompression.code then o.snappy.getUncompressedLength contents
  else if type = CompressionType.zstdCompression.code then o.zstd.getUncompressedLength contents
  else none

section Loads
variable {s : Slice} {offset length : Nat}

/-- The slice has these bytes of the file. -/
structure Slice.Holds (file : Bytes) (s : Slice) (offset length : Nat) : Prop where
  within : offset + length ≤ file.length
  load : ∀ i < length, s.load file i = .ok (file.getD (offset + i) 0)

theorem read_cons {i : Nat} (inside : offset + i < file.length) (count : Nat) :
    file.getD (offset + i) 0 :: read file (offset + (i + 1)) count = read file (offset + i) (count + 1) := by
  rw [read,read,List.drop_eq_getElem_cons inside,List.take_succ_cons,List.getD_eq_getElem?_getD,
    List.getElem?_eq_getElem inside]
  rfl

theorem Slice.Holds.loads (holds : s.Holds file offset length) (i count : Nat) (fits : i + count ≤ length) :
    s.loads file i count = .ok (read file (offset + i) count) := by
  induction count generalizing i with
  | zero => simp [Slice.loads,read]
  | succ count ih =>
    have within := holds.within
    have head := holds.load i (by omega)
    have tail := ih (i + 1) (by omega)
    rw [Slice.loads,head,tail,← read_cons (by omega)]
    rfl

theorem read_holds (platform : Platform file) (f : RandomAccessFile) (got : f.read platform offset length = some s)
    (size : s.size = length) (within : offset + length ≤ file.length) : s.Holds file offset length := by
  refine ⟨within,?_⟩
  intro i lt
  have inside : offset + i < file.length := by omega
  cases f with
  | posix =>
    obtain ⟨k,-,rfl⟩ := Option.map_eq_some_iff.mp got
    obtain rfl : k = length := size
    have byte : (read file offset k)[i]? = some file[offset + i] := by
      rw [read,List.getElem?_take_of_lt lt,List.getElem?_drop,List.getElem?_eq_getElem inside]
    simp only [Slice.load,byte,List.getD_eq_getElem?_getD,List.getElem?_eq_getElem inside,Option.elim_some,Option.getD_some]
  | mmap =>
    rw [RandomAccessFile.read] at got
    split at got
    · cases got
    · cases got
      simp only [Slice.load,List.getD_eq_getElem?_getD,List.getElem?_eq_getElem inside,Option.elim_some,Option.getD_some]

end Loads

section Contents
variable {T : Type} (platform : Platform file) (o : Options T) (verifyChecksums : Bool) {s : Slice} {handle : BlockHandle}

theorem checksumMatches_holds (holds : s.Holds file handle.offset (handle.size + kBlockTrailerSize)) (small : handle.size + 5 < 2^64) :
    checksumMatches file s handle.size = .ok (decide (Crc32c.value (read file handle.offset (handle.size + 1)) =
      Crc32c.unmask (decodeFixed32 (read file (handle.offset + (handle.size + 1)) 4)))) := by
  have one := holds.loads (handle.size + 1) 4 (by rw [kBlockTrailerSize])
  have two := holds.loads 0 (handle.size + 1) (by rw [kBlockTrailerSize]; omega)
  rw [checksumMatches,one,Nat.mod_eq_of_lt (by omega),two]
  rfl

theorem readTyped_holds (holds : s.Holds file handle.offset (handle.size + kBlockTrailerSize)) :
    readTyped platform o s handle.size =
      if (statedLength o file handle).all platform.grants then .ok (storedContents o file handle) else .error .badAlloc := by
  have whole := holds.loads 0 handle.size (by omega)
  have type := holds.load handle.size (by rw [kBlockTrailerSize]; omega)
  rw [Nat.add_zero] at whole
  rw [readTyped,type,whole,statedLength,storedContents]
  change (if file.getD (handle.offset + handle.size) 0 = CompressionType.noCompression.code then _ else _) = _
  by_cases plain : file.getD (handle.offset + handle.size) 0 = CompressionType.noCompression.code
  · have others : CompressionType.noCompression.code ≠ CompressionType.snappyCompression.code ∧
        CompressionType.noCompression.code ≠ CompressionType.zstdCompression.code := by decide
    simp only [plain,if_true,others.1,others.2,if_false,Option.all_none]
    rfl
  by_cases snappy : file.getD (handle.offset + handle.size) 0 = CompressionType.snappyCompression.code
  · simp only [snappy,if_true,show CompressionType.snappyCompression.code ≠ CompressionType.noCompression.code by decide,if_false]
    rfl
  by_cases zstd : file.getD (handle.offset + handle.size) 0 = CompressionType.zstdCompression.code
  · simp only [zstd,if_true,show CompressionType.zstdCompression.code ≠ CompressionType.noCompression.code by decide,
      show CompressionType.zstdCompression.code ≠ CompressionType.snappyCompression.code by decide,if_false]
    rfl
  · simp only [plain,snappy,zstd,if_false,Option.all_none,if_true]
    rfl

/-- Of a block that was read whole, the contents are those in the file. -/
theorem readContents_holds (holds : s.Holds file handle.offset (handle.size + kBlockTrailerSize)) (small : handle.size + 5 < 2^64) :
    (¬ChecksumRight verifyChecksums file handle ∧
      readContents platform o verifyChecksums s handle.size = .ok (.error "block checksum mismatch")) ∨
    ChecksumRight verifyChecksums file handle ∧ readContents platform o verifyChecksums s handle.size =
      if (statedLength o file handle).all platform.grants then .ok (storedContents o file handle) else .error .badAlloc := by
  rw [← readTyped_holds platform o holds]
  cases verifyChecksums with
  | false => exact .inr ⟨fun asked => absurd asked (by decide),rfl⟩
  | true =>
    simp only [readContents,if_true,checksumMatches_holds holds small,ChecksumRight,forall_const]
    by_cases right : Crc32c.value (read file handle.offset (handle.size + 1)) =
        Crc32c.unmask (decodeFixed32 (read file (handle.offset + (handle.size + 1)) 4))
    · simp only [right,decide_true]
      exact .inr ⟨trivial,rfl⟩
    · simp only [right,decide_false,not_false_eq_true]
      exact .inl ⟨trivial,rfl⟩

end Contents

section Claim
variable {platform : Platform file} {handle : BlockHandle} {f : RandomAccessFile}

/-- The read succeeds and gives as much as was asked for. -/
def Passes (platform : Platform file) (handle : BlockHandle) (f : RandomAccessFile) : Prop :=
  ∃ s, f.read platform handle.offset ((handle.size + kBlockTrailerSize) % 2^64) = some s ∧
    s.size = (handle.size + kBlockTrailerSize) % 2^64

theorem InFile.small (platform : Platform file) (inside : InFile file handle) :
    (handle.size + kBlockTrailerSize) % 2^64 = handle.size + kBlockTrailerSize := by
  have := platform.size
  rw [InFile] at inside
  exact Nat.mod_eq_of_lt (by omega)

theorem passes_posix (platform : Platform file) (handle : BlockHandle) : Passes platform handle .posix ↔
    platform.pread handle.offset ((handle.size + kBlockTrailerSize) % 2^64) =
      some ((handle.size + kBlockTrailerSize) % 2^64) := by
  constructor
  · rintro ⟨s,got,size⟩
    obtain ⟨k,answer,rfl⟩ := Option.map_eq_some_iff.mp got
    rw [answer]
    exact congrArg some size
  · intro answer
    exact ⟨_,Option.map_eq_some_iff.mpr ⟨_,answer,rfl⟩,rfl⟩

theorem passes_mmap (platform : Platform file) (handle : BlockHandle) : Passes platform handle .mmap ↔
    (handle.offset + (handle.size + kBlockTrailerSize) % 2^64) % 2^64 ≤ file.length := by
  rw [Passes]
  simp only [RandomAccessFile.read]
  constructor
  · rintro ⟨s,got,size⟩
    by_contra outside
    rw [if_pos (not_le.mp outside)] at got
    cases got
  · intro fits
    exact ⟨_,if_neg (not_lt.mpr fits),rfl⟩

theorem Delivers.inFile (delivers : Delivers platform handle f) : InFile file handle := by
  cases f with
  | posix => exact delivers.1
  | mmap => exact delivers

theorem PassesWrapped.not_inFile (wrapped : PassesWrapped platform handle f) : ¬InFile file handle := by
  have := platform.size
  rw [InFile]
  cases f with
  | posix =>
    have := wrapped.1
    omega
  | mmap => exact not_le.mpr wrapped.1

theorem passes_iff : Passes platform handle f ↔ PassesWrapped platform handle f ∨ Delivers platform handle f := by
  cases f with
  | posix =>
    rw [passes_posix]
    constructor
    · intro answer
      by_cases large : 2^64 ≤ handle.size + kBlockTrailerSize
      · exact .inl ⟨large,answer⟩
      · rw [Nat.mod_eq_of_lt (not_le.mp large)] at answer
        refine .inr ⟨?_,answer⟩
        have bound := (platform.short _ _ _ answer).2
        rw [InFile]
        rw [kBlockTrailerSize] at bound ⊢
        omega
    · rintro (wrapped | ⟨inside,answer⟩)
      · exact wrapped.2
      · rw [inside.small platform]
        exact answer
  | mmap =>
    rw [passes_mmap]
    constructor
    · intro fits
      by_cases inside : InFile file handle
      · exact .inr inside
      · exact .inl ⟨not_le.mp inside,fits⟩
    · rintro (wrapped | inside)
      · exact wrapped.2
      · have := platform.size
        rw [InFile.small platform inside]
        change handle.offset + handle.size + kBlockTrailerSize ≤ file.length at inside
        rw [Nat.mod_eq_of_lt (by omega)]
        omega

variable {T : Type} {o : Options T} {verifyChecksums : Bool}

theorem readBlock64_denied (denied : ¬platform.grants ((handle.size + kBlockTrailerSize) % 2^64) = true) :
    readBlock64 platform f o verifyChecksums handle = ⟨false,.error .badAlloc⟩ := by
  simp only [readBlock64,denied]
  rfl

theorem readBlock64_fails (granted : platform.grants ((handle.size + kBlockTrailerSize) % 2^64) = true)
    (fails : ¬Passes platform handle f) : ∃ e, readBlock64 platform f o verifyChecksums handle = ⟨false,.ok (.error e)⟩ := by
  simp only [readBlock64,granted,if_true]
  cases got : f.read platform handle.offset ((handle.size + kBlockTrailerSize) % 2^64) with
  | none => exact ⟨"IO error",rfl⟩
  | some s =>
    have short : s.size ≠ (handle.size + kBlockTrailerSize) % 2^64 := fun size => fails ⟨s,got,size⟩
    exact ⟨"truncated block read",if_pos short⟩

theorem readBlock64_passes (granted : platform.grants ((handle.size + kBlockTrailerSize) % 2^64) = true) {s : Slice}
    (got : f.read platform handle.offset ((handle.size + kBlockTrailerSize) % 2^64) = some s)
    (size : s.size = (handle.size + kBlockTrailerSize) % 2^64) :
    readBlock64 platform f o verifyChecksums handle = ⟨true,readContents platform o verifyChecksums s handle.size⟩ := by
  simp only [readBlock64,granted,if_true,got]
  exact if_neg (not_not.mpr size)

/-- Of a block that is read whole, the call gives the contents, or the error that is there. -/
theorem readBlock64_delivers (granted : platform.grants ((handle.size + kBlockTrailerSize) % 2^64) = true)
    (delivers : Delivers platform handle f) : (readBlock64 platform f o verifyChecksums handle).StaysInside o file handle ↔
      (ChecksumRight verifyChecksums file handle → (statedLength o file handle).all platform.grants = true) := by
  have inside := delivers.inFile
  obtain ⟨s,got,size⟩ := passes_iff.mpr (.inr delivers)
  rw [readBlock64_passes granted got size]
  have small := inside.small platform
  rw [small] at got size
  have within : handle.offset + (handle.size + kBlockTrailerSize) ≤ file.length := by
    rw [← Nat.add_assoc]
    exact inside
  have holds := read_holds platform f got size within
  have length : handle.size + 5 < 2^64 := by
    have := platform.size
    rw [kBlockTrailerSize] at within
    omega
  rcases readContents_holds platform o verifyChecksums holds length with
    ⟨wrong,outcome⟩ | ⟨right,outcome⟩
  · rw [outcome]
    constructor
    · exact fun _ asked => absurd asked wrong
    · intro _
      refine ⟨fun _ => inside,?_,_,rfl⟩
      rintro contents ⟨⟩
  · rw [outcome]
    by_cases granted' : (statedLength o file handle).all platform.grants = true
    · rw [if_pos granted']
      constructor
      · exact fun _ _ => granted'
      · intro _
        refine ⟨fun _ => inside,?_,_,rfl⟩
        intro contents same
        exact Except.ok.inj same
    · rw [if_neg granted']
      constructor
      · rintro ⟨-,-,status,returned⟩
        cases returned
      · exact fun needed => absurd (needed right) granted'

/-- `ReadBlock` stays inside the file just when its arrays can be allocated and no sum that
wraps around lets a read through. -/
theorem readBlock_stays_inside_iff (platform : Platform file) (f : RandomAccessFile) (o : Options T) (verifyChecksums : Bool)
    (handle : BlockHandle) : (readBlock64 platform f o verifyChecksums handle).StaysInside o file handle ↔
      platform.grants ((handle.size + kBlockTrailerSize) % 2^64) = true ∧ ¬PassesWrapped platform handle f ∧
        (Delivers platform handle f → ChecksumRight verifyChecksums file handle →
          (statedLength o file handle).all platform.grants = true) := by
  by_cases granted : platform.grants ((handle.size + kBlockTrailerSize) % 2^64) = true
  · by_cases wrapped : PassesWrapped platform handle f
    · obtain ⟨s,got,size⟩ := passes_iff.mpr (.inl wrapped)
      rw [readBlock64_passes granted got size]
      constructor
      · exact fun stays => absurd (stays.inside (.inl rfl)) wrapped.not_inFile
      · exact fun good => absurd wrapped good.2.1
    · by_cases delivers : Delivers platform handle f
      · rw [readBlock64_delivers granted delivers]
        simp only [granted,wrapped,delivers,not_false_eq_true,true_and,forall_const]
      · have fails : ¬Passes platform handle f := by
          rw [passes_iff]
          exact fun either => either.elim wrapped delivers
        obtain ⟨e,result⟩ : ∃ e, readBlock64 platform f o verifyChecksums handle = ⟨false,.ok (.error e)⟩ :=
          readBlock64_fails granted fails
        rw [result]
        simp only [granted,wrapped,delivers,not_false_eq_true,true_and,false_implies,iff_true]
        refine ⟨?_,?_,_,rfl⟩
        · rintro (accessed | ⟨contents,⟨⟩⟩)
          cases accessed
        · rintro contents ⟨⟩
  · rw [readBlock64_denied granted]
    constructor
    · rintro ⟨-,-,status,returned⟩
      cases returned
    · exact fun good => absurd good.1 granted

/-- Where no sum wraps around and the arrays can be allocated, this is the `ReadBlock` that
tables are read with. -/
theorem readBlock64_eq (granted : platform.grants ((handle.size + kBlockTrailerSize) % 2^64) = true)
    (delivers : Delivers platform handle f) (stated : (statedLength o file handle).all platform.grants = true) :
    readBlock64 platform f o verifyChecksums handle = ⟨true,.ok (readBlock o verifyChecksums file handle)⟩ := by
  have inside := delivers.inFile
  obtain ⟨s,got,size⟩ := passes_iff.mpr (.inr delivers)
  rw [readBlock64_passes granted got size]
  rw [inside.small platform] at got size
  have within : handle.offset + (handle.size + kBlockTrailerSize) ≤ file.length := by
    rw [← Nat.add_assoc]
    exact inside
  have holds := read_holds platform f got size within
  have small : handle.size + 5 < 2^64 := by
    have := platform.size
    rw [kBlockTrailerSize] at within
    omega
  have length : (read file handle.offset (handle.size + kBlockTrailerSize)).length = handle.size + kBlockTrailerSize := by
    rw [read,List.length_take_of_le (by rw [List.length_drop]; omega)]
  have taken : ∀ k ≤ handle.size + kBlockTrailerSize,
      (read file handle.offset (handle.size + kBlockTrailerSize)).take k = read file handle.offset k := by
    intro k le
    rw [read,List.take_take,Nat.min_eq_left le,read]
  have dropped : (read file handle.offset (handle.size + kBlockTrailerSize)).drop (handle.size + 1) =
      read file (handle.offset + (handle.size + 1)) 4 := by
    rw [read,read,List.drop_take,List.drop_drop,kBlockTrailerSize]
    congr 1
    omega
  have byte : (read file handle.offset (handle.size + kBlockTrailerSize)).getD handle.size 0 =
      file.getD (handle.offset + handle.size) 0 := by
    rw [read,List.getD_eq_getElem?_getD,List.getElem?_take_of_lt (by rw [kBlockTrailerSize]; omega),List.getElem?_drop,
      List.getD_eq_getElem?_getD]
  have simple : readBlock o verifyChecksums file handle = if verifyChecksums ∧
      Crc32c.value (read file handle.offset (handle.size + 1)) ≠
        Crc32c.unmask (decodeFixed32 (read file (handle.offset + (handle.size + 1)) 4)) then
      .error "block checksum mismatch" else storedContents o file handle := by
    simp only [readBlock,length,taken (handle.size + 1) (by rw [kBlockTrailerSize]; omega),taken handle.size (by omega),dropped,
      byte,storedContents,ne_eq,not_true_eq_false,if_false]
  congr 1
  rw [simple]
  rcases readContents_holds platform o verifyChecksums holds small with
    ⟨wrong,outcome⟩ | ⟨right,outcome⟩
  · rw [ChecksumRight,Classical.not_imp] at wrong
    rw [outcome,if_pos wrong]
  · rw [outcome,if_pos stated,if_neg]
    exact fun wrong => wrong.2 (right wrong.1)

/-- An allocator with four gigabytes, and a file that is read as far as it goes. -/
def smallPlatform (file : Bytes) (size : file.length < 2^64) : Platform file where
  grants n := decide (n < 2^32)
  pread offset n := some (min n (file.length - offset))
  short := by
    rintro offset n k ⟨⟩
    exact ⟨Nat.min_le_left _ _,Nat.min_le_right _ _⟩
  size := size

/-- A size of 2^64 - 5: the buffer has no byte, `pread` reads none, and the type byte is
looked for in front of the buffer. -/
theorem readBlock_leaves_file :
    ¬(readBlock64 (smallPlatform [1,2,3] (by decide)) .posix sampleOptions false ⟨0,2^64 - 5⟩).StaysInside
      sampleOptions [1,2,3] ⟨0,2^64 - 5⟩ := by
  intro stays
  have inside := stays.inside (.inl rfl)
  rw [InFile] at inside
  exact absurd inside (by decide)

end Claim

end LevelDB.Sstable
