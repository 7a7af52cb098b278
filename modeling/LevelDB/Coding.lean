import LevelDB.Crc32c

/-! Varints (`util/coding`): seven bits a byte, least significant first, and the high bit on
every byte but the last. -/
namespace LevelDB

/-- The loop of `EncodeVarint64`; a value below 2^64 goes round nine times at most. -/
def varintLoop : Nat → Nat → Bytes
  | 0, v => [UInt8.ofNat v]
  | fuel + 1, v => if v < 128 then [UInt8.ofNat v] else UInt8.ofNat (v ||| 128) :: varintLoop fuel (v >>> 7)

def encodeVarint64 (v : Nat) : Bytes := varintLoop 9 v

def encodeVarint32 (v : Nat) : Bytes :=
  let more (shift : Nat) := UInt8.ofNat ((v >>> shift) ||| 128)
  let last (shift : Nat) := UInt8.ofNat (v >>> shift)
  if v < 2^7 then [last 0]
  else if v < 2^14 then [more 0,last 7]
  else if v < 2^21 then [more 0,more 7,last 14]
  else if v < 2^28 then [more 0,more 7,more 14,last 21]
  else [more 0,more 7,more 14,more 21,last 28]

/-- The loop of `GetVarint32PtrFallback` and `GetVarint64Ptr`, whose values have `width` bits. -/
def getVarintLoop (width : Nat) : Nat → Nat → Nat → Bytes → Option (Nat × Bytes)
  | 0, _, _, _ => none
  | _, _, _, [] => none
  | fuel + 1, shift, result, byte :: rest =>
    if 128 ≤ byte.toNat then getVarintLoop width fuel (shift + 7) (result ||| ((byte.toNat &&& 127) <<< shift) % 2^width) rest
    else some (result ||| (byte.toNat <<< shift) % 2^width,rest)

/-- `GetVarint32Ptr`; its first test is the first pass of the loop. -/
def getVarint32 (input : Bytes) : Option (Nat × Bytes) := getVarintLoop 32 5 0 0 input

def getVarint64 (input : Bytes) : Option (Nat × Bytes) := getVarintLoop 64 10 0 0 input

def Sstable.decodeFixed64 (input : Bytes) : Nat := (decodeFixed32 input).toNat + (decodeFixed32 (input.drop 4)).toNat * 2^32

def getLengthPrefixedSlice (input : Bytes) : Option (Bytes × Bytes) :=
  (getVarint32 input).bind fun (len,rest) => if len ≤ rest.length then some (rest.take len,rest.drop len) else none

theorem toNat_or_128 (v : Nat) : (UInt8.ofNat (v ||| 128)).toNat = v % 128 + 128 := by
  have low : (v ||| 128) % 128 = v % 128 := by
    have split := Nat.or_mod_two_pow (a := v) (b := 128) (n := 7)
    simpa using split
  have bit : (v ||| 128).testBit 7 = true := by
    rw [Nat.testBit_or,show Nat.testBit 128 7 = true from by decide,Bool.or_true]
  have high : (v ||| 128) / 128 % 2 = 1 := by
    rw [Nat.testBit_eq_decide_div_mod_eq] at bit
    simpa using bit
  rw [UInt8.toNat_ofNat']
  omega

theorem or_shift {result x shift : Nat} (small : result < 2^shift) : result ||| (x <<< shift) = result + x * 2^shift := by
  rw [Nat.shiftLeft_eq,Nat.mul_comm,Nat.or_comm,← Nat.two_pow_add_eq_or_of_lt small,Nat.add_comm]

theorem getVarintLoop_varintLoop (width more fuel shift result v : Nat) (tail : Bytes) (small : result < 2^shift)
    (fits : result + v * 2^shift < 2^width) (room : v < 2^(7 * more + 7)) (enough : more < fuel) :
    getVarintLoop width fuel shift result (varintLoop more v ++ tail) = some (result + v * 2^shift,tail) := by
  induction more generalizing fuel shift result v with
  | zero =>
    obtain ⟨fuel,rfl⟩ : ∃ n, fuel = n + 1 := ⟨fuel - 1,by omega⟩
    have byte : (UInt8.ofNat v).toNat = v := by rw [UInt8.toNat_ofNat',Nat.mod_eq_of_lt (by omega)]
    simp only [varintLoop,List.cons_append,List.nil_append,getVarintLoop,byte]
    rw [if_neg (by omega),Nat.mod_eq_of_lt (by rw [Nat.shiftLeft_eq]; omega),or_shift small]
  | succ more ih =>
    obtain ⟨fuel,rfl⟩ : ∃ n, fuel = n + 1 := ⟨fuel - 1,by omega⟩
    rw [varintLoop]
    by_cases last : v < 128
    · have byte : (UInt8.ofNat v).toNat = v := by rw [UInt8.toNat_ofNat',Nat.mod_eq_of_lt (by omega)]
      rw [if_pos last]
      simp only [List.cons_append,List.nil_append,getVarintLoop,byte]
      rw [if_neg (by omega),Nat.mod_eq_of_lt (by rw [Nat.shiftLeft_eq]; omega),or_shift small]
    · rw [if_neg last]
      have seven : (v % 128 + 128) &&& 127 = v % 128 := by
        rw [show 127 = 2^7 - 1 from rfl,Nat.and_two_pow_sub_one_eq_mod]
        omega
      have shifted : v >>> 7 = v / 128 := Nat.shiftRight_eq_div_pow v 7
      have power : 2^(shift + 7) = 2^shift * 128 := Nat.pow_add 2 shift 7
      have parts : v * 2^shift = v % 128 * 2^shift + v / 128 * 2^(shift + 7) := by
        rw [power,← Nat.mul_assoc,Nat.mul_right_comm,← Nat.add_mul]
        congr 1
        omega
      have below : v % 128 * 2^shift ≤ 127 * 2^shift := Nat.mul_le_mul_right _ (by omega)
      simp only [List.cons_append,getVarintLoop,toNat_or_128,seven]
      rw [if_pos (by omega),Nat.mod_eq_of_lt (by rw [Nat.shiftLeft_eq]; omega),or_shift small,shifted]
      have room' : v / 128 < 2^(7 * more + 7) := by
        rw [Nat.div_lt_iff_lt_mul (by decide),show 128 = 2^7 from rfl,← Nat.pow_add]
        exact room
      rw [ih fuel (shift + 7) _ (v / 128) (by omega) (by omega) room' (by omega),parts,Nat.add_assoc]

theorem getVarint64_encode (v : Nat) (small : v < 2^64) (tail : Bytes) : getVarint64 (encodeVarint64 v ++ tail) = some (v,tail) := by
  have read := getVarintLoop_varintLoop 64 9 10 0 0 v tail (by decide) (by omega) (by omega) (by decide)
  rw [Nat.pow_zero,Nat.mul_one,Nat.zero_add] at read
  exact read

theorem encodeVarint32_eq (v : Nat) (small : v < 2^32) : encodeVarint32 v = varintLoop 4 v := by
  simp only [encodeVarint32,varintLoop,Nat.shiftRight_eq_div_pow,Nat.div_div_eq_div_mul]
  by_cases one : v < 128
  · simp [one]
  · by_cases two : v < 16384
    · simp [one,two,show v / 128 < 128 by omega]
    · by_cases three : v < 2097152
      · simp [one,two,three,show ¬v / 128 < 128 by omega,show v / 16384 < 128 by omega]
      · by_cases four : v < 268435456
        · simp [one,two,three,four,show ¬v / 128 < 128 by omega,show ¬v / 16384 < 128 by omega,show v / 2097152 < 128 by omega]
        · simp [one,two,three,four,show ¬v / 128 < 128 by omega,show ¬v / 16384 < 128 by omega,show ¬v / 2097152 < 128 by omega]

theorem getVarint32_encode (v : Nat) (small : v < 2^32) (tail : Bytes) : getVarint32 (encodeVarint32 v ++ tail) = some (v,tail) := by
  have read := getVarintLoop_varintLoop 32 4 5 0 0 v tail (by decide) (by omega) (by omega) (by decide)
  rw [encodeVarint32_eq v small]
  rw [Nat.pow_zero,Nat.mul_one,Nat.zero_add] at read
  exact read

end LevelDB
