import LevelDB.CodingReads
import LevelDB.MemTable

/-! The pointer-based readers of `util/coding` over a memory in which only some addresses may
be read. They answer from the bytes between the pointer and the limit, as the readers of byte
strings do, whatever lies beyond. -/
namespace LevelDB.Coding

open Encoded

/-- The bytes that may be read. -/
abbrev Memory := Nat → Option UInt8

/-- What a call ends with; without a result it has read where it may not. -/
abbrev Outcome := Option

/-- The loop of `GetVarint32PtrFallback` and `GetVarint64Ptr`, over the values that `shift`
takes; the inner option is the pointer returned. -/
def getVarintPtrLoop (width : Nat) (memory : Memory) (limit : Nat) :
    List Nat → BitVec width → Nat → Outcome (Option (BitVec width × Nat))
  | [], _, _ => some none
  | shift :: shifts, result, p =>
    if p < limit then
      (memory p).bind fun b =>
        let byte := BitVec.ofNat width b.toNat
        if byte &&& 128 ≠ 0 then
          getVarintPtrLoop width memory limit shifts (result ||| ((byte &&& 127) <<< shift)) (p + 1)
        else some (some (result ||| (byte <<< shift),p + 1))
    else some none

def getVarint32PtrFallback (memory : Memory) (p limit : Nat) : Outcome (Option (BitVec 32 × Nat)) :=
  getVarintPtrLoop 32 memory limit [0,7,14,21,28] 0 p

def getVarint64Ptr (memory : Memory) (p limit : Nat) : Outcome (Option (BitVec 64 × Nat)) :=
  getVarintPtrLoop 64 memory limit [0,7,14,21,28,35,42,49,56,63] 0 p

def getVarint32Ptr (memory : Memory) (p limit : Nat) : Outcome (Option (BitVec 32 × Nat)) :=
  if p < limit then
    (memory p).bind fun b =>
      let result := BitVec.ofNat 32 b.toNat
      if result &&& 128 = 0 then some (some (result,p + 1)) else getVarint32PtrFallback memory p limit
  else getVarint32PtrFallback memory p limit

structure Slice where
  data : Nat
  size : Nat
  deriving DecidableEq

/-- `GetVarint32`: the input afterwards, and the value. -/
def getVarint32 (memory : Memory) (input : Slice) : Outcome (Slice × Option (BitVec 32)) :=
  let limit := input.data + input.size
  (getVarint32Ptr memory input.data limit).map fun
    | none => (input,none)
    | some (value,q) => (⟨q,limit - q⟩,some value)

/-- `GetLengthPrefixedSlice`: the input afterwards, which may stand behind the length even if
the call fails, and the result. -/
def getLengthPrefixedSlice (memory : Memory) (input : Slice) : Outcome (Slice × Option Slice) :=
  (getVarint32 memory input).map fun
    | (input,none) => (input,none)
    | (input,some len) =>
      if len.toNat ≤ input.size then
        (⟨input.data + len.toNat,input.size - len.toNat⟩,some ⟨input.data,len.toNat⟩)
      else (input,none)

/-- The bytes lie in memory from the address on. -/
def Stored (memory : Memory) (p : Nat) (bytes : Bytes) : Prop :=
  ∀ i byte, bytes[i]? = some byte → memory (p + i) = some byte

section Loop
variable {memory : Memory} {p : Nat}

theorem Stored.head {byte : UInt8} {rest : Bytes} (stored : Stored memory p (byte :: rest)) : memory p = some byte :=
  stored 0 byte rfl

theorem Stored.tail {byte : UInt8} {rest : Bytes} (stored : Stored memory p (byte :: rest)) :
    Stored memory (p + 1) rest := by
  intro i b found
  have moved := stored (i + 1) b found
  rwa [Nat.add_comm i 1,← Nat.add_assoc] at moved

theorem and_128 : ∀ n < 256, n &&& 128 ≠ 0 ↔ 128 ≤ n := by decide +kernel

section Width
variable {width : Nat} (wide : 8 ≤ width)

include wide

theorem toNat_small {n : Nat} (small : n < 256) : (BitVec.ofNat width n).toNat = n := by
  rw [BitVec.toNat_ofNat]
  exact Nat.mod_eq_of_lt (small.trans_le (Nat.pow_le_pow_right (show 0 < 2 by decide) wide))

theorem toNat_byte (b : UInt8) : (BitVec.ofNat width b.toNat).toNat = b.toNat := toNat_small wide b.toNat_lt

theorem high_bit (b : UInt8) : BitVec.ofNat width b.toNat &&& 128 ≠ 0 ↔ 128 ≤ b.toNat := by
  rw [← and_128 b.toNat b.toNat_lt,ne_eq,← BitVec.toNat_inj,BitVec.toNat_and,toNat_byte wide]
  have := toNat_small wide (n := 128) (by decide)
  simp only [BitVec.ofNat_eq_ofNat,this,BitVec.toNat_ofNat,Nat.zero_mod,ne_eq]

theorem toNat_low (b : UInt8) : (BitVec.ofNat width b.toNat &&& 127).toNat = b.toNat &&& 127 := by
  rw [BitVec.toNat_and,toNat_byte wide]
  exact congrArg _ (toNat_small wide (by decide))

/-- The loop over memory takes from it just the bytes before the limit. -/
theorem getVarintPtrLoop_eq (fuel shift : Nat) (result : BitVec width) (bytes : Bytes)
    (stored : Stored memory p bytes) :
    getVarintPtrLoop width memory (p + bytes.length) (List.range' shift fuel 7) result p =
      some ((getVarintLoop width fuel shift result.toNat bytes).map fun r =>
        (BitVec.ofNat width r.1,p + bytes.length - r.2.length)) := by
  induction fuel generalizing shift result p bytes with
  | zero => rfl
  | succ fuel ih =>
    rw [List.range'_succ]
    cases bytes with
    | nil => simp [getVarintPtrLoop,getVarintLoop]
    | cons byte rest =>
      have limit : p + (byte :: rest).length = p + 1 + rest.length := by
        rw [List.length_cons]
        omega
      rw [getVarintPtrLoop,if_pos (by simp),stored.head,Option.bind_some,getVarintLoop,limit]
      by_cases high : 128 ≤ byte.toNat
      · simp only [if_pos ((high_bit wide byte).mpr high),if_pos high]
        rw [ih (shift + 7) _ rest stored.tail,BitVec.toNat_or,BitVec.toNat_shiftLeft,toNat_low wide]
      · simp only [if_neg (mt (high_bit wide byte).mp high),if_neg high,Option.map_some,Nat.add_sub_cancel]
        congr 3
        apply BitVec.eq_of_toNat_eq
        rw [BitVec.toNat_or,BitVec.toNat_shiftLeft,toNat_byte wide,BitVec.toNat_ofNat]
        exact (Nat.mod_eq_of_lt (Nat.or_lt_two_pow result.isLt (Nat.mod_lt _ (Nat.two_pow_pos width)))).symm

end Width

/-- The test of the first byte alone answers as the loop would. -/
theorem getVarint32Ptr_eq_fallback (memory : Memory) (p limit : Nat) :
    getVarint32Ptr memory p limit = getVarint32PtrFallback memory p limit := by
  unfold getVarint32Ptr
  split
  · rename_i inside
    cases found : memory p with
    | none => simp [getVarint32PtrFallback,getVarintPtrLoop,inside,found]
    | some b =>
      rw [Option.bind_some]
      by_cases low : BitVec.ofNat 32 b.toNat &&& 128 = 0
      · simp only [getVarint32PtrFallback,getVarintPtrLoop,if_pos inside,found,Option.bind_some,low]
        simp
      · simp only [if_neg low]
  · rfl

theorem getVarint32Ptr_eq (bytes : Bytes) (stored : Stored memory p bytes) :
    getVarint32Ptr memory p (p + bytes.length) = some ((LevelDB.getVarint32 bytes).map fun r =>
      (BitVec.ofNat 32 r.1,p + bytes.length - r.2.length)) := by
  rw [getVarint32Ptr_eq_fallback]
  exact getVarintPtrLoop_eq (by decide) 5 0 0 bytes stored

theorem getVarint64Ptr_eq (bytes : Bytes) (stored : Stored memory p bytes) :
    getVarint64Ptr memory p (p + bytes.length) = some ((getVarint64 bytes).map fun r =>
      (BitVec.ofNat 64 r.1,p + bytes.length - r.2.length)) :=
  getVarintPtrLoop_eq (by decide) 10 0 0 bytes stored

end Loop

/-- What a reader over memory makes of what the encoder writes and of other bytes; nothing
is said of the memory behind the bytes. -/
structure Decodes (width bound : Nat) (encode : Nat → Bytes)
    (getPtr : Memory → Nat → Nat → Outcome (Option (BitVec width × Nat))) : Prop where
  undoes : ∀ memory p (v : BitVec width) tail, Stored memory p (encode v.toNat ++ tail) →
    getPtr memory p (p + (encode v.toNat ++ tail).length) = some (some (v,p + varintLength v.toNat))
  truncated : ∀ memory p (v : BitVec width) bytes, bytes <+: encode v.toNat → bytes ≠ encode v.toNat →
    Stored memory p bytes → getPtr memory p (p + bytes.length) = some none
  bounded : ∀ memory p bytes, Stored memory p bytes → ∃ answer, getPtr memory p (p + bytes.length) = some answer ∧
    (answer ≠ none → ∃ byte ∈ bytes.take bound, byte.toNat < 128)

open Grammar in
theorem Decodes.of_reads {width bound : Nat} {encode : Nat → Bytes} {read : Bytes → Option (Nat × Bytes)}
    {getPtr : Memory → Nat → Nat → Outcome (Option (BitVec width × Nat))}
    (reads : Recognizes read (IsVarint width bound)) (encoded : ∀ v < 2^width, IsVarint width bound (encode v) v)
    (length : ∀ v < 2^width, (encode v).length = varintLength v)
    (same : ∀ memory p bytes, Stored memory p bytes → getPtr memory p (p + bytes.length) =
      some ((read bytes).map fun r => (BitVec.ofNat width r.1,p + bytes.length - r.2.length))) :
    Decodes width bound encode getPtr := by
  refine ⟨?_,?_,?_⟩
  · intro memory p v tail stored
    rw [same memory p _ stored,reads.append (encoded v.toNat v.isLt) tail]
    have used : p + (encode v.toNat ++ tail).length - tail.length = p + varintLength v.toNat := by
      rw [List.length_append,length v.toNat v.isLt]
      omega
    simp only [Option.map_some,used,BitVec.ofNat_toNat,BitVec.setWidth_eq]
  · intro memory p v bytes part proper stored
    rw [same memory p _ stored,reads.truncated (encoded v.toNat v.isLt) part proper]
    rfl
  · intro memory p bytes stored
    refine ⟨_,same memory p bytes stored,fun accepted => ?_⟩
    obtain ⟨r,answer⟩ : ∃ r, read bytes = some r := by
      cases answer : read bytes with
      | none => exact absurd (by rw [answer]; rfl) accepted
      | some r => exact ⟨r,rfl⟩
    obtain ⟨front,rfl,varint⟩ := (reads bytes r.1 r.2).mp answer
    obtain ⟨byte,member,low⟩ := varint.form.low
    have early : front <+: (front ++ r.2).take bound :=
      List.prefix_take_iff.mpr ⟨List.prefix_append _ _,varint.short⟩
    exact ⟨byte,early.subset member,low⟩

theorem length_encodeVarint64 {v : Nat} : (encodeVarint64 v).length = varintLength v := length_varintLoop 9 v

theorem getVarint32Ptr_decodes : Decodes 32 5 encodeVarint32 getVarint32Ptr :=
  .of_reads getVarint32_reads (fun _ => isVarint32_encode) (fun _ => length_encodeVarint32)
    fun _ _ => getVarint32Ptr_eq

theorem getVarint64Ptr_decodes : Decodes 64 10 encodeVarint64 getVarint64Ptr :=
  .of_reads getVarint64_reads (fun _ => isVarint64_encode) (fun _ _ => length_encodeVarint64)
    fun _ _ => getVarint64Ptr_eq

section Slices
variable {memory : Memory} {p : Nat}

theorem Stored.append {left right : Bytes} (stored : Stored memory p (left ++ right)) :
    Stored memory p left ∧ Stored memory (p + left.length) right := by
  constructor
  · intro i byte found
    exact stored i byte (List.getElem?_append_left (List.getElem?_eq_some_iff.mp found).1 ▸ found)
  · intro i byte found
    rw [Nat.add_assoc]
    apply stored
    rwa [List.getElem?_append_right (Nat.le_add_right _ _),Nat.add_sub_cancel_left]

theorem getVarint32_none {bytes : Bytes} (stored : Stored memory p bytes) (fails : LevelDB.getVarint32 bytes = none) :
    getVarint32 memory ⟨p,bytes.length⟩ = some (⟨p,bytes.length⟩,none) := by
  rw [getVarint32,getVarint32Ptr_eq bytes stored,fails]
  rfl

theorem getVarint32_some {front rest : Bytes} {v : Nat} (stored : Stored memory p (front ++ rest))
    (reads : LevelDB.getVarint32 (front ++ rest) = some (v,rest)) :
    getVarint32 memory ⟨p,(front ++ rest).length⟩ =
      some (⟨p + front.length,rest.length⟩,some (BitVec.ofNat 32 v)) := by
  have pointer : p + (front ++ rest).length - rest.length = p + front.length := by
    rw [List.length_append]
    omega
  have left : p + (front ++ rest).length - (p + front.length) = rest.length := by
    rw [List.length_append]
    omega
  rw [getVarint32,getVarint32Ptr_eq _ stored,reads]
  simp only [Option.map_some,pointer,left]

/-- The reader of slices answers from the bytes alone; its result and what is left of the
input lie among them. -/
theorem getLengthPrefixedSlice_some {bytes value rest : Bytes} (stored : Stored memory p bytes)
    (reads : LevelDB.getLengthPrefixedSlice bytes = some (value,rest)) :
    ∃ len, bytes = len ++ value ++ rest ∧ IsVarint 32 5 len value.length ∧
      getLengthPrefixedSlice memory ⟨p,bytes.length⟩ =
        some (⟨p + len.length + value.length,rest.length⟩,some ⟨p + len.length,value.length⟩) := by
  obtain ⟨_,rfl,len,rfl,varint⟩ := (getLengthPrefixedSlice_reads bytes value rest).mp reads
  refine ⟨len,rfl,varint,?_⟩
  rw [List.append_assoc] at stored ⊢
  have size : (BitVec.ofNat 32 value.length).toNat = value.length := by
    rw [BitVec.toNat_ofNat]
    exact Nat.mod_eq_of_lt varint.lt
  rw [getLengthPrefixedSlice,getVarint32_some stored (getVarint32_reads.append varint _)]
  simp [size]

theorem getLengthPrefixedSlice_none {bytes : Bytes} (stored : Stored memory p bytes)
    (fails : LevelDB.getLengthPrefixedSlice bytes = none) :
    ∃ input, getLengthPrefixedSlice memory ⟨p,bytes.length⟩ = some (input,none) := by
  cases answer : LevelDB.getVarint32 bytes with
  | none =>
    refine ⟨⟨p,bytes.length⟩,?_⟩
    rw [getLengthPrefixedSlice,getVarint32_none stored answer]
    rfl
  | some r =>
    obtain ⟨front,rfl,varint⟩ := (getVarint32_reads bytes r.1 r.2).mp answer
    have size : (BitVec.ofNat 32 r.1).toNat = r.1 := by
      rw [BitVec.toNat_ofNat]
      exact Nat.mod_eq_of_lt varint.lt
    have short : ¬r.1 ≤ r.2.length := by
      intro enough
      rw [LevelDB.getLengthPrefixedSlice,answer,Option.bind_some] at fails
      simp [enough] at fails
    refine ⟨⟨p + front.length,r.2.length⟩,?_⟩
    rw [getLengthPrefixedSlice,getVarint32_some stored answer]
    simp [size,short]

/-- What `GetLengthPrefixedSlice` makes of what `PutLengthPrefixedSlice` writes and of other
bytes. -/
structure DecodesSlices : Prop where
  undoes : ∀ memory p (value rest : Bytes), value.length < 2^32 →
    Stored memory p (lengthPrefixedSlice value ++ rest) →
    ∃ result input, getLengthPrefixedSlice memory ⟨p,(lengthPrefixedSlice value ++ rest).length⟩ =
        some (input,some result) ∧
      result = ⟨p + varintLength value.length,value.length⟩ ∧ Stored memory result.data value ∧
      input = ⟨result.data + value.length,rest.length⟩ ∧ Stored memory input.data rest
  truncated : ∀ memory p (value bytes : Bytes), value.length < 2^32 → bytes <+: lengthPrefixedSlice value →
    bytes ≠ lengthPrefixedSlice value → Stored memory p bytes →
    ∃ input, getLengthPrefixedSlice memory ⟨p,bytes.length⟩ = some (input,none)
  bounded : ∀ memory p bytes, Stored memory p bytes → getLengthPrefixedSlice memory ⟨p,bytes.length⟩ ≠ none

theorem getLengthPrefixedSlice_decodes : DecodesSlices := by
  refine ⟨?_,?_,?_⟩
  · intro memory p value rest small stored
    have reads := getLengthPrefixedSlice_reads.append (isSlice_encode small) rest
    have prefixed : lengthPrefixedSlice value = encodeVarint32 value.length ++ value := by
      rw [lengthPrefixedSlice,Nat.mod_eq_of_lt small]
    obtain ⟨len,split,-,result⟩ := getLengthPrefixedSlice_some stored reads
    have same : len = encodeVarint32 value.length := by
      rw [prefixed] at split
      exact (List.append_cancel_right (List.append_cancel_right split)).symm
    rw [same,length_encodeVarint32 small] at result
    rw [prefixed,List.append_assoc] at stored
    obtain ⟨-,behind⟩ := stored.append
    rw [length_encodeVarint32 small] at behind
    exact ⟨_,_,result,rfl,behind.append.1,rfl,behind.append.2⟩
  · intro memory p value bytes small part proper stored
    exact getLengthPrefixedSlice_none stored
      (getLengthPrefixedSlice_reads.truncated (isSlice_encode small) part proper)
  · intro memory p bytes stored
    cases answer : LevelDB.getLengthPrefixedSlice bytes with
    | none =>
      obtain ⟨input,result⟩ := getLengthPrefixedSlice_none stored answer
      simp [result]
    | some r =>
      obtain ⟨value,rest⟩ := r
      obtain ⟨len,-,-,result⟩ := getLengthPrefixedSlice_some stored answer
      simp [result]

end Slices

/-- The readers over memory undo the writers, refuse what was cut off and stay before the
limit. -/
theorem codecs_over_memory : Decodes 32 5 encodeVarint32 getVarint32Ptr ∧
    Decodes 64 10 encodeVarint64 getVarint64Ptr ∧ DecodesSlices :=
  ⟨getVarint32Ptr_decodes,getVarint64Ptr_decodes,getLengthPrefixedSlice_decodes⟩

example : getVarint32Ptr (fun a => if a = 7 then some 0x96 else if a = 8 then some 1 else none) 7 9 =
    some (some (150,9)) := by decide

end LevelDB.Coding
