import LevelDB.Coding
import LevelDB.Grammar

/-! What the readers of `util/coding` accept: a varint is bytes with the high bit and one
without, up to the bound of its width, whose groups of seven bits are the value modulo the
width. -/
namespace LevelDB

open Grammar

/-- The value of groups of seven bits, least significant first. -/
def groups : Bytes → Nat
  | [] => 0
  | byte :: rest => byte.toNat % 128 + 128 * groups rest

/-- The high bit of a byte says that more follow. -/
inductive VarintForm : Bytes → Prop
  | last {byte : UInt8} (low : byte.toNat < 128) : VarintForm [byte]
  | more {byte : UInt8} {rest : Bytes} (high : 128 ≤ byte.toNat) (tail : VarintForm rest) : VarintForm (byte :: rest)

theorem VarintForm.low {bytes : Bytes} (form : VarintForm bytes) : ∃ byte ∈ bytes, byte.toNat < 128 := by
  induction form with
  | last low => exact ⟨_,List.mem_singleton_self _,low⟩
  | more _ _ ih =>
    obtain ⟨byte,member,low⟩ := ih
    exact ⟨byte,List.mem_cons_of_mem _ member,low⟩

structure IsVarint (width bound : Nat) (bytes : Bytes) (v : Nat) : Prop where
  form : VarintForm bytes
  short : bytes.length ≤ bound
  value : v = groups bytes % 2^width

theorem VarintForm.ne_nil {bytes : Bytes} (form : VarintForm bytes) : bytes ≠ [] := by
  cases form <;> simp

theorem IsVarint.lt {width bound v : Nat} {bytes : Bytes} (holds : IsVarint width bound bytes v) : v < 2^width := by
  rw [holds.value]
  exact Nat.mod_lt _ (Nat.two_pow_pos width)

/-- The groups that are added stand above the ones that are there. -/
theorem or_group {width shift result x : Nat} (small : result < 2^shift) (fits : result < 2^width) :
    result ||| (x <<< shift) % 2^width = (result + x * 2^shift) % 2^width := by
  rw [Nat.shiftLeft_eq]
  by_cases inside : shift ≤ width
  · obtain ⟨left,rfl⟩ := Nat.exists_eq_add_of_le inside
    have power : 2^(shift + left) = 2^left * 2^shift := by rw [Nat.pow_add,Nat.mul_comm]
    have cut : x * 2^shift % 2^(shift + left) = x % 2^left * 2^shift := by
      rw [power,Nat.mul_mod_mul_right]
    have top : x % 2^left * 2^shift + 2^shift ≤ 2^(shift + left) := by
      rw [power,← Nat.succ_mul]
      exact Nat.mul_le_mul_right _ (Nat.mod_lt _ (Nat.two_pow_pos left))
    have sum : result + x % 2^left * 2^shift < 2^(shift + left) := by omega
    rw [cut,← Nat.shiftLeft_eq,or_shift small,Nat.add_mod,cut,Nat.mod_eq_of_lt fits,Nat.mod_eq_of_lt sum]
  · obtain ⟨left,rfl⟩ := Nat.exists_eq_add_of_lt (Nat.lt_of_not_le inside)
    have none : x * 2^(width + left + 1) % 2^width = 0 := by
      rw [Nat.add_assoc,Nat.pow_add,Nat.mul_left_comm,Nat.mul_mod_right]
    rw [none,Nat.or_zero,Nat.add_mod,none,Nat.add_zero,Nat.mod_mod,Nat.mod_eq_of_lt fits]

theorem or_group_lt {width shift result x : Nat} (small : result < 2^shift) (fits : result < 2^width) (seven : x < 128) :
    result ||| (x <<< shift) % 2^width < 2^(shift + 7) ∧ result ||| (x <<< shift) % 2^width < 2^width := by
  rw [or_group small fits]
  constructor
  · have power : 2^(shift + 7) = 2^shift * 128 := Nat.pow_add 2 shift 7
    have scaled : x * 2^shift ≤ 127 * 2^shift := Nat.mul_le_mul_right _ (by omega)
    have := Nat.mod_le (result + x * 2^shift) (2^width)
    omega
  · exact Nat.mod_lt _ (Nat.two_pow_pos width)

theorem getVarintLoop_iff (width fuel shift result : Nat) (input : Bytes) (v : Nat) (rest : Bytes)
    (small : result < 2^shift) (fits : result < 2^width) :
    getVarintLoop width fuel shift result input = some (v,rest) ↔
      ∃ bytes, input = bytes ++ rest ∧ VarintForm bytes ∧ bytes.length ≤ fuel ∧
        v = (result + groups bytes * 2^shift) % 2^width := by
  induction fuel generalizing shift result input with
  | zero =>
    rw [getVarintLoop]
    constructor
    · intro none
      cases none
    · rintro ⟨bytes,-,form,short,-⟩
      exact absurd (List.length_eq_zero_iff.mp (Nat.le_zero.mp short)) form.ne_nil
  | succ fuel ih =>
    cases input with
    | nil =>
      rw [getVarintLoop]
      constructor
      · intro none
        cases none
      · rintro ⟨bytes,split,form,-⟩
        exact absurd (List.append_eq_nil_iff.mp split.symm).1 form.ne_nil
      · simp
    | cons byte input =>
      rw [getVarintLoop]
      by_cases high : 128 ≤ byte.toNat
      · have seven : byte.toNat &&& 127 = byte.toNat % 128 := Nat.and_two_pow_sub_one_eq_mod byte.toNat 7
        have below : byte.toNat % 128 < 128 := Nat.mod_lt _ (by decide)
        obtain ⟨small',fits'⟩ := or_group_lt (x := byte.toNat % 128) small fits below
        rw [if_pos high,seven,ih _ _ _ small' fits']
        have value : ∀ g, ((result ||| (byte.toNat % 128) <<< shift % 2^width) + g * 2^(shift + 7)) % 2^width =
            (result + (byte.toNat % 128 + 128 * g) * 2^shift) % 2^width := by
          intro g
          have power : 2^(shift + 7) = 128 * 2^shift := by rw [Nat.pow_add,Nat.mul_comm]
          rw [or_group small fits,Nat.mod_add_mod,power,Nat.add_mul,← Nat.mul_assoc,Nat.mul_comm g 128,Nat.add_assoc]
        constructor
        · rintro ⟨bytes,rfl,form,short,same⟩
          exact ⟨byte :: bytes,rfl,.more high form,Nat.succ_le_succ short,same.trans (value _)⟩
        · rintro ⟨bytes,split,form,short,same⟩
          cases form with
          | last low =>
            cases split
            exact absurd high (by omega)
          | more high' tail =>
            cases split
            exact ⟨_,rfl,tail,Nat.le_of_succ_le_succ short,same.trans (value _).symm⟩
      · have low : byte.toNat < 128 := Nat.lt_of_not_le high
        have group : groups [byte] = byte.toNat := by
          rw [groups,groups,Nat.mod_eq_of_lt low,Nat.mul_zero,Nat.add_zero]
        rw [if_neg high,or_group small fits]
        constructor
        · intro done
          cases done
          exact ⟨[byte],rfl,.last low,Nat.succ_le_succ (Nat.zero_le _),by rw [group]⟩
        · rintro ⟨bytes,split,form,short,same⟩
          cases form with
          | last low' =>
            cases split
            rw [same,group]
            rfl
          | more high' tail =>
            cases split
            exact absurd high' high

theorem getVarintLoop_reads (width bound : Nat) : Recognizes (getVarintLoop width bound 0 0) (IsVarint width bound) := by
  intro input v rest
  rw [getVarintLoop_iff width bound 0 0 input v rest (by simp) (Nat.two_pow_pos width)]
  simp only [Nat.pow_zero,Nat.mul_one,Nat.zero_add]
  constructor
  · rintro ⟨bytes,split,form,short,value⟩
    exact ⟨bytes,split,form,short,value⟩
  · rintro ⟨bytes,split,form,short,value⟩
    exact ⟨bytes,split,form,short,value⟩

theorem getVarint32_reads : Recognizes getVarint32 (IsVarint 32 5) := getVarintLoop_reads 32 5

theorem getVarint64_reads : Recognizes getVarint64 (IsVarint 64 10) := getVarintLoop_reads 64 10

theorem isVarint32_encode {v : Nat} (small : v < 2^32) : IsVarint 32 5 (encodeVarint32 v) v := by
  obtain ⟨bytes,same,form⟩ := (getVarint32_reads _ _ _).mp (getVarint32_encode v small [])
  rw [List.append_nil,List.append_nil] at same
  exact same ▸ form

theorem isVarint64_encode {v : Nat} (small : v < 2^64) : IsVarint 64 10 (encodeVarint64 v) v := by
  have read : getVarint64 (encodeVarint64 v ++ []) = some (v,[]) := by
    have loop := getVarintLoop_varintLoop 64 9 10 0 0 v [] (by decide) (by omega) (by omega) (by decide)
    rw [Nat.pow_zero,Nat.mul_one,Nat.zero_add] at loop
    exact loop
  obtain ⟨bytes,same,form⟩ := (getVarint64_reads _ _ _).mp read
  rw [List.append_nil,List.append_nil] at same
  exact same ▸ form

/-- A slice behind its length. -/
def IsSlice (bytes value : Bytes) : Prop := ∃ len, bytes = len ++ value ∧ IsVarint 32 5 len value.length

theorem getLengthPrefixedSlice_reads : Recognizes getLengthPrefixedSlice IsSlice := by
  intro input value rest
  constructor
  · intro done
    obtain ⟨⟨len,after⟩,started,ended⟩ := Option.bind_eq_some_iff.mp done
    obtain ⟨bytes,rfl,varint⟩ := (getVarint32_reads _ _ _).mp started
    by_cases enough : len ≤ after.length
    · simp only [if_pos enough,Option.some.injEq,Prod.mk.injEq] at ended
      obtain ⟨rfl,rfl⟩ := ended
      refine ⟨bytes ++ after.take len,?_,bytes,rfl,?_⟩
      · rw [List.append_assoc,List.take_append_drop]
      · rw [List.length_take_of_le enough]
        exact varint
    · simp only [if_neg enough] at ended
      cases ended
  · rintro ⟨_,rfl,len,rfl,varint⟩
    have started := getVarint32_reads.append varint (value ++ rest)
    rw [getLengthPrefixedSlice,List.append_assoc,started]
    simp

/-- `PutLengthPrefixedSlice`. -/
def lengthPrefixedSlice (value : Bytes) : Bytes := encodeVarint32 (value.length % 2^32) ++ value

theorem isSlice_encode {value : Bytes} (small : value.length < 2^32) : IsSlice (lengthPrefixedSlice value) value := by
  refine ⟨encodeVarint32 (value.length % 2^32),rfl,?_⟩
  rw [Nat.mod_eq_of_lt small]
  exact isVarint32_encode small

theorem IsSlice.length_lt {bytes value : Bytes} (slice : IsSlice bytes value) : value.length < 2^32 := by
  obtain ⟨len,-,varint⟩ := slice
  exact varint.lt

end LevelDB
