import Mathlib.Algebra.Group.Nat.Defs
import Mathlib.Data.List.Basic
import Mathlib.Tactic.Common

/-! The checksum of `util/crc32c.cc` and the fixed-width little-endian codec of
`util/coding.h`, over byte strings. `extend` is the CRC-32C of the stream, one
byte at a time; the table lookup of `STEP1` is written as the eight shifts it
tabulates. -/
namespace LevelDB

abbrev Bytes := List UInt8

namespace Crc32c

def polynomial : BitVec 32 := 0x82f63b78#32

def kCRC32Xor : BitVec 32 := 0xffffffff#32

def kMaskDelta : BitVec 32 := 0xa282ead8#32

def bitStep (l : BitVec 32) : BitVec 32 :=
  if l.getLsbD 0 then (l >>> 1) ^^^ polynomial else l >>> 1

/-- `kByteExtensionTable[c] ^ (l >> 8)` with `c = (l & 0xff) ^ byte`. -/
def step1 (l : BitVec 32) (byte : UInt8) : BitVec 32 :=
  Nat.repeat bitStep 8 (l ^^^ byte.toBitVec.setWidth 32)

def extend (crc : BitVec 32) (data : Bytes) : BitVec 32 :=
  data.foldl step1 (crc ^^^ kCRC32Xor) ^^^ kCRC32Xor

def value (data : Bytes) : BitVec 32 := extend 0#32 data

/-- Rotate right by 15 bits and add a constant. -/
def mask (crc : BitVec 32) : BitVec 32 := ((crc >>> 15) ||| (crc <<< 17)) + kMaskDelta

def unmask (masked : BitVec 32) : BitVec 32 :=
  let rot := masked - kMaskDelta
  (rot >>> 17) ||| (rot <<< 15)

theorem xor_cancel (l c : BitVec 32) : l ^^^ c ^^^ c = l := by
  rw [BitVec.xor_assoc, BitVec.xor_self, BitVec.xor_zero]

/-- A checksum may be computed in two calls: this is how the writer starts from
the precomputed checksum of the type byte. -/
theorem extend_append (crc : BitVec 32) (left right : Bytes) :
    extend (extend crc left) right = extend crc (left ++ right) := by
  simp only [extend,List.foldl_append,xor_cancel]

theorem unmask_mask (crc : BitVec 32) : unmask (mask crc) = crc := by
  simp only [unmask,mask,BitVec.add_sub_cancel]
  apply BitVec.eq_of_getLsbD_eq
  intro i bound
  simp only [BitVec.getLsbD_or,BitVec.getLsbD_ushiftRight,BitVec.getLsbD_shiftLeft]
  by_cases low : i < 15
  · have a : 17 + i < 32 := by omega
    have b : ¬(17 + i < 17) := by omega
    have c : 15 + (17 + i) ≥ 32 := by omega
    simp [low,a,b,BitVec.getLsbD_of_ge crc _ c]
  · have a : ¬(17 + i < 32) := by omega
    have b : i - 15 < 17 := by omega
    have c : 15 + (17 + i) ≥ 32 := by omega
    have e : 15 + (i - 15) = i := by omega
    simp [low,a,b,e,bound,BitVec.getLsbD_of_ge crc _ c]

theorem mask_unmask (masked : BitVec 32) : mask (unmask masked) = masked := by
  suffices rotated : ∀ rot : BitVec 32,
      (((rot >>> 17) ||| (rot <<< 15)) >>> 15) ||| (((rot >>> 17) ||| (rot <<< 15)) <<< 17) = rot by
    simp only [unmask,mask,rotated,BitVec.sub_add_cancel]
  intro rot
  apply BitVec.eq_of_getLsbD_eq
  intro i bound
  simp only [BitVec.getLsbD_or,BitVec.getLsbD_ushiftRight,BitVec.getLsbD_shiftLeft]
  by_cases low : i < 17
  · have a : 15 + i < 32 := by omega
    have c : 17 + (15 + i) ≥ 32 := by omega
    simp [low,a,BitVec.getLsbD_of_ge rot _ c]
  · have a : ¬(15 + i < 32) := by omega
    have b : i - 17 < 15 := by omega
    have c : 17 + (15 + i) ≥ 32 := by omega
    have e : 17 + (i - 17) = i := by omega
    simp [low,a,b,e,bound,BitVec.getLsbD_of_ge rot _ c]

end Crc32c

/-- `EncodeFixed32`: least significant byte first. -/
def encodeFixed32 (v : BitVec 32) : Bytes :=
  [⟨v.extractLsb' 0 8⟩, ⟨v.extractLsb' 8 8⟩, ⟨v.extractLsb' 16 8⟩, ⟨v.extractLsb' 24 8⟩]

/-- `DecodeFixed32` reads the first four bytes of a slice that has them. -/
def decodeFixed32 : Bytes → BitVec 32
  | a :: b :: c :: d :: _ => d.toBitVec ++ c.toBitVec ++ b.toBitVec ++ a.toBitVec
  | _ => 0#32

theorem decodeFixed32_encodeFixed32 (v : BitVec 32) (tail : Bytes) :
    decodeFixed32 (encodeFixed32 v ++ tail) = v := by
  simp only [encodeFixed32,decodeFixed32,List.cons_append,List.nil_append]
  apply BitVec.eq_of_getLsbD_eq
  intro i bound
  simp only [BitVec.getLsbD_append,BitVec.getLsbD_extractLsb']
  grind

theorem encodeFixed32_decodeFixed32 (a b c d : UInt8) (tail : Bytes) :
    encodeFixed32 (decodeFixed32 (a :: b :: c :: d :: tail)) = [a,b,c,d] := by
  simp only [encodeFixed32,decodeFixed32,List.cons.injEq,and_true]
  refine ⟨?_,?_,?_,?_⟩
  all_goals
    apply UInt8.toBitVec_inj.mp
    apply BitVec.eq_of_getLsbD_eq
    intro i bound
    simp only [BitVec.getLsbD_extractLsb',BitVec.getLsbD_append,bound,decide_true,Bool.true_and]
    grind

end LevelDB
