import LevelDB.FilterCovers

/-! The Bloom filter (`util/bloom`) over the hash of `util/hash`. The builder sets `k` bits
for each key, at places that double hashing gives; the checker asks for the same bits. -/
namespace LevelDB.Sstable

/-- The loop of `Hash`, four bytes at a time, and the `switch` for the bytes that remain. -/
def hashLoop (h : BitVec 32) : Bytes → BitVec 32
  | a :: b :: c :: d :: rest =>
    let h := (h + decodeFixed32 [a,b,c,d]) * 0xc6a4a793#32
    hashLoop (h ^^^ (h >>> 16)) rest
  | [] => h
  | a :: rest =>
    let h := h + BitVec.ofNat 32 ((rest.getD 1 0).toNat <<< 16)
    let h := h + BitVec.ofNat 32 ((rest.getD 0 0).toNat <<< 8)
    let h := (h + BitVec.ofNat 32 a.toNat) * 0xc6a4a793#32
    h ^^^ (h >>> 24)

/-- `Hash` (`util/hash`), similar to murmur hash. -/
def hash (data : Bytes) (seed : BitVec 32) : BitVec 32 :=
  hashLoop (seed ^^^ (BitVec.ofNat 32 data.length * 0xc6a4a793#32)) data

def bloomHash (key : Bytes) : BitVec 32 := hash key 0xbc9f1d34#32

/-- The step of double hashing: the hash rotated right by 17 bits. -/
def bloomDelta (h : BitVec 32) : BitVec 32 := (h >>> 17) ||| (h <<< 15)

def bitMask (bitpos : Nat) : UInt8 := UInt8.ofNat (1 <<< (bitpos % 8))

/-- `array[bitpos / 8] |= (1 << (bitpos % 8))`, where `array` starts at `start`. -/
def setBit (start : Nat) (dst : Bytes) (bitpos : Nat) : Bytes :=
  dst.modify (start + bitpos / 8) (· ||| bitMask bitpos)

def hasBit (array : Bytes) (bitpos : Nat) : Bool := array.getD (bitpos / 8) 0 &&& bitMask bitpos != 0

/-- `BloomFilterPolicy`; the number of probes is clamped when a policy is made. -/
structure BloomFilterPolicy where
  bitsPerKey : Nat
  k : Nat
  low : 1 ≤ k
  high : k ≤ 30

namespace BloomFilterPolicy

/-- The constructor; `probes` is `bits_per_key * 0.69` rounded down. -/
def new (bitsPerKey probes : Nat) : BloomFilterPolicy :=
  ⟨bitsPerKey,min 30 (max 1 probes),by omega,by omega⟩

/-- The size of a filter in bytes; a product of two values of type `int` is no overflow. -/
def filterBytes (p : BloomFilterPolicy) (n : Nat) : Nat := (max 64 (n * p.bitsPerKey) + 7) / 8

/-- The loop of `CreateFilter` over the probes for a key. -/
def addProbes (start bits : Nat) (delta : BitVec 32) : Nat → BitVec 32 → Bytes → Bytes
  | 0, _, dst => dst
  | j + 1, h, dst => addProbes start bits delta j (h + delta) (setBit start dst (h.toNat % bits))

def addKey (p : BloomFilterPolicy) (start bits : Nat) (dst key : Bytes) : Bytes :=
  addProbes start bits (bloomDelta (bloomHash key)) p.k (bloomHash key) dst

/-- `CreateFilter` appends the filter to `dst`. -/
def createFilter (p : BloomFilterPolicy) (keys : List Bytes) (dst : Bytes) : Bytes :=
  let bytes := p.filterBytes keys.length
  keys.foldl (p.addKey dst.length (bytes * 8)) (dst ++ List.replicate bytes 0 ++ [UInt8.ofNat p.k])

/-- The loop of `KeyMayMatch` over the probes. -/
def checkProbes (array : Bytes) (bits : Nat) (delta : BitVec 32) : Nat → BitVec 32 → Bool
  | 0, _ => true
  | j + 1, h => if hasBit array (h.toNat % bits) then checkProbes array bits delta j (h + delta) else false

/-- The probe count is read from the filter; a count above 30 is kept for other encodings. -/
def keyMayMatch (key filter : Bytes) : Bool :=
  if filter.length < 2 then false
  else
    let k := (filter.getD (filter.length - 1) 0).toNat
    if 30 < k then true
    else checkProbes filter ((filter.length - 1) * 8) (bloomDelta (bloomHash key)) k (bloomHash key)

def toPolicy (p : BloomFilterPolicy) : FilterPolicy where
  name := [0x6c,0x65,0x76,0x65,0x6c,0x64,0x62,0x2e,0x42,0x75,0x69,0x6c,0x74,0x69,0x6e,0x42,0x6c,0x6f,0x6f,0x6d,
    0x46,0x69,0x6c,0x74,0x65,0x72,0x32]
  createFilter keys := p.createFilter keys []
  keyMayMatch := keyMayMatch

end BloomFilterPolicy

section Bits
variable {array : Bytes} {bitpos q : Nat}

@[simp] theorem length_setBit (start : Nat) (array : Bytes) (bitpos : Nat) :
    (setBit start array bitpos).length = array.length := by
  simp [setBit]

theorem bitMask_ne (bitpos : Nat) : bitMask bitpos ≠ 0 := by
  have place : bitpos % 8 < 8 := Nat.mod_lt _ (by decide)
  have each : ∀ i < 8, UInt8.ofNat (1 <<< i) ≠ 0 := by decide
  exact each _ place

theorem or_and_self (a b : UInt8) : (a ||| b) &&& b = b := by
  apply UInt8.toBitVec_inj.mp
  simp only [UInt8.toBitVec_and,UInt8.toBitVec_or]
  grind

theorem or_and_ne {a c : UInt8} (hit : a &&& c ≠ 0) (b : UInt8) : (a ||| b) &&& c ≠ 0 := by
  intro zero
  apply hit
  have bits := congrArg UInt8.toBitVec zero
  apply UInt8.toBitVec_inj.mp
  simp only [UInt8.toBitVec_and,UInt8.toBitVec_or,BitVec.and_or_distrib_right] at bits ⊢
  exact (BitVec.or_eq_zero_iff.mp bits).1

theorem setBit_getD (array : Bytes) (bitpos i : Nat) (inside : bitpos / 8 < array.length) :
    (setBit 0 array bitpos).getD i 0 =
      if bitpos / 8 = i then array.getD i 0 ||| bitMask bitpos else array.getD i 0 := by
  simp only [setBit,Nat.zero_add,List.getD_eq_getElem?_getD,List.getElem?_modify]
  by_cases same : bitpos / 8 = i
  · subst same
    simp [inside]
  · simp [same]

theorem hasBit_setBit (inside : bitpos / 8 < array.length) : hasBit (setBit 0 array bitpos) bitpos = true := by
  rw [hasBit,setBit_getD _ _ _ inside,if_pos rfl,or_and_self]
  simpa using bitMask_ne bitpos

theorem hasBit_setBit_of (inside : bitpos / 8 < array.length) (hit : hasBit array q = true) :
    hasBit (setBit 0 array bitpos) q = true := by
  simp only [hasBit,setBit_getD _ _ _ inside,bne_iff_ne] at hit ⊢
  split
  · exact or_and_ne hit _
  · exact hit

/-- The bits of the filter are set in place, behind what `dst` held and before the count. -/
theorem setBit_append (dst tail : Bytes) (inside : bitpos / 8 < array.length) :
    setBit dst.length (dst ++ array ++ tail) bitpos = dst ++ setBit 0 array bitpos ++ tail := by
  apply List.ext_getElem?
  intro i
  simp only [setBit,Nat.zero_add,List.getElem?_modify,List.getElem?_append,List.length_append,
    List.length_modify]
  grind

end Bits

namespace BloomFilterPolicy

section Probes
variable {array : Bytes} {bits : Nat} (size : bits = array.length * 8) (positive : 0 < bits)

/-- Bits that are set later change no answer from yes to no. -/
theorem checkProbes_keeps {array' : Bytes} (more : ∀ q, hasBit array q = true → hasBit array' q = true)
    (delta : BitVec 32) (j : Nat) (h : BitVec 32) (hit : checkProbes array bits delta j h = true) :
    checkProbes array' bits delta j h = true := by
  induction j generalizing h with
  | zero => rfl
  | succ j ih =>
    rw [checkProbes] at hit ⊢
    split at hit
    · rename_i set
      rw [if_pos (more _ set)]
      exact ih (h + delta) hit
    · cases hit

include size positive in
theorem probe_inside (h : BitVec 32) : h.toNat % bits / 8 < array.length := by
  have small : h.toNat % bits < bits := Nat.mod_lt _ positive
  omega

@[simp] theorem length_addProbes (start bits : Nat) (delta : BitVec 32) (j : Nat) (h : BitVec 32) (array : Bytes) :
    (addProbes start bits delta j h array).length = array.length := by
  induction j generalizing h array with
  | zero => rfl
  | succ j ih => rw [addProbes,ih,length_setBit]

include size positive

theorem addProbes_keeps {q : Nat} (delta : BitVec 32) (j : Nat) (h : BitVec 32) (hit : hasBit array q = true) :
    hasBit (addProbes 0 bits delta j h array) q = true := by
  induction j generalizing h array with
  | zero => exact hit
  | succ j ih =>
    rw [addProbes]
    apply ih (by simpa using size)
    exact hasBit_setBit_of (probe_inside size positive h) hit

theorem addProbes_append (dst tail : Bytes) (delta : BitVec 32) (j : Nat) (h : BitVec 32) :
    addProbes dst.length bits delta j h (dst ++ array ++ tail) =
      dst ++ addProbes 0 bits delta j h array ++ tail := by
  induction j generalizing h array with
  | zero => rfl
  | succ j ih =>
    rw [addProbes,setBit_append dst tail (probe_inside size positive h),addProbes]
    exact ih (by simpa using size) (h + delta)

/-- All the bits that a probe sequence sets are found again. -/
theorem checkProbes_addProbes (delta : BitVec 32) (j : Nat) (h : BitVec 32) :
    checkProbes (addProbes 0 bits delta j h array) bits delta j h = true := by
  induction j generalizing h array with
  | zero => rfl
  | succ j ih =>
    have inside := probe_inside size positive h
    have size' : bits = (setBit 0 array (h.toNat % bits)).length * 8 := by simpa using size
    rw [addProbes,checkProbes,if_pos]
    · exact ih size' (h + delta)
    · exact addProbes_keeps size' positive delta j (h + delta) (hasBit_setBit inside)

end Probes

section Filter
variable (p : BloomFilterPolicy) {array : Bytes} {bits : Nat}

@[simp] theorem length_foldl_addKey (start bits : Nat) (keys : List Bytes) (array : Bytes) :
    (keys.foldl (p.addKey start bits) array).length = array.length := by
  induction keys generalizing array with
  | nil => rfl
  | cons key keys ih => rw [List.foldl_cons,ih,addKey,length_addProbes]

theorem foldl_addKey_keeps (size : bits = array.length * 8) (positive : 0 < bits) {q : Nat} (keys : List Bytes)
    (hit : hasBit array q = true) : hasBit (keys.foldl (p.addKey 0 bits) array) q = true := by
  induction keys generalizing array with
  | nil => exact hit
  | cons key keys ih =>
    apply ih
    · simpa [addKey] using size
    · exact addProbes_keeps size positive _ _ _ hit

theorem foldl_addKey_append (size : bits = array.length * 8) (positive : 0 < bits) (dst tail : Bytes) (keys : List Bytes) :
    keys.foldl (p.addKey dst.length bits) (dst ++ array ++ tail) =
      dst ++ keys.foldl (p.addKey 0 bits) array ++ tail := by
  induction keys generalizing array with
  | nil => rfl
  | cons key keys ih =>
    rw [List.foldl_cons,List.foldl_cons,addKey,addProbes_append size positive]
    exact ih (by simpa using size)

/-- The bits of a key stay set while further keys are added. -/
theorem checkProbes_foldl (size : bits = array.length * 8) (positive : 0 < bits) (keys : List Bytes) (key : Bytes)
    (member : key ∈ keys) :
    checkProbes (keys.foldl (p.addKey 0 bits) array) bits (bloomDelta (bloomHash key)) p.k (bloomHash key) = true := by
  induction keys generalizing array with
  | nil => cases member
  | cons first keys ih =>
    have size' : bits = (p.addKey 0 bits array first).length * 8 := by simpa [addKey] using size
    rcases List.mem_cons.mp member with rfl | later
    · have here : checkProbes (p.addKey 0 bits array key) bits (bloomDelta (bloomHash key)) p.k (bloomHash key) = true :=
        checkProbes_addProbes size positive _ _ _
      exact checkProbes_keeps (fun q hit => foldl_addKey_keeps p size' positive keys hit) _ _ _ here
    · exact ih size' later

theorem hasBit_append (array tail : Bytes) (q : Nat) (hit : hasBit array q = true) : hasBit (array ++ tail) q = true := by
  by_cases inside : q / 8 < array.length
  · have same : (array ++ tail).getD (q / 8) 0 = array.getD (q / 8) 0 := by
      simp [List.getD_eq_getElem?_getD,List.getElem?_append_left inside]
    rw [hasBit,same]
    exact hit
  · have none : array[q / 8]? = none := List.getElem?_eq_none (by omega)
    simp [hasBit,none] at hit

theorem filterBytes_pos (n : Nat) : 8 ≤ p.filterBytes n := by
  unfold filterBytes
  omega

/-- The checker takes the last byte of a filter for the number of probes. -/
theorem keyMayMatch_snoc (key array : Bytes) (nonempty : 1 ≤ array.length) :
    keyMayMatch key (array ++ [UInt8.ofNat p.k]) =
      checkProbes (array ++ [UInt8.ofNat p.k]) (array.length * 8) (bloomDelta (bloomHash key)) p.k (bloomHash key) := by
  have bound := p.high
  have count : (UInt8.ofNat p.k).toNat = p.k := by
    rw [UInt8.toNat_ofNat',Nat.mod_eq_of_lt (by omega)]
  have length : (array ++ [UInt8.ofNat p.k]).length - 1 = array.length := by
    rw [List.length_append,List.length_singleton,Nat.add_sub_cancel]
  have last : (array ++ [UInt8.ofNat p.k]).getD array.length 0 = UInt8.ofNat p.k := by
    simp [List.getD_eq_getElem?_getD]
  have long : ¬(array ++ [UInt8.ofNat p.k]).length < 2 := by
    rw [List.length_append,List.length_singleton]
    omega
  simp only [keyMayMatch,if_neg long,length,last,count]
  rw [if_neg (by omega)]

/-- The bits of a filter, without the count. -/
def filterBits (keys : List Bytes) : Bytes :=
  keys.foldl (p.addKey 0 (p.filterBytes keys.length * 8)) (List.replicate (p.filterBytes keys.length) 0)

theorem filterBits_size (keys : List Bytes) :
    p.filterBytes keys.length * 8 = (List.replicate (p.filterBytes keys.length) (0 : UInt8)).length * 8 := by
  rw [List.length_replicate]

theorem filterBits_pos (n : Nat) : 0 < p.filterBytes n * 8 := by
  have := p.filterBytes_pos n
  omega

/-- The filter does not depend on what it is appended to. -/
theorem createFilter_eq (keys : List Bytes) (dst : Bytes) :
    p.createFilter keys dst = dst ++ (p.filterBits keys ++ [UInt8.ofNat p.k]) := by
  rw [← List.append_assoc]
  exact foldl_addKey_append p (p.filterBits_size keys) (p.filterBits_pos _) dst [UInt8.ofNat p.k] keys

theorem keyMayMatch_filterBits (keys : List Bytes) (key : Bytes) (member : key ∈ keys) :
    keyMayMatch key (p.filterBits keys ++ [UInt8.ofNat p.k]) = true := by
  have length : (p.filterBits keys).length = p.filterBytes keys.length := by simp [filterBits]
  have enough := p.filterBytes_pos keys.length
  rw [keyMayMatch_snoc p key _ (by omega),length]
  apply checkProbes_keeps (hasBit_append (p.filterBits keys) [UInt8.ofNat p.k])
  exact checkProbes_foldl p (p.filterBits_size keys) (p.filterBits_pos _) keys key member

theorem toPolicy_honest : FilterBlockBuilder.Honest p.toPolicy := by
  intro keys key member
  change keyMayMatch key (p.createFilter keys []) = true
  rw [createFilter_eq]
  exact p.keyMayMatch_filterBits keys key member

/-- A filter appended to `dst` leaves it as it is and matches every key it was made for. -/
theorem createFilter_matches (keys : List Bytes) (dst : Bytes) :
    ∃ filter, p.createFilter keys dst = dst ++ filter ∧ ∀ key ∈ keys, keyMayMatch key filter = true :=
  ⟨_,p.createFilter_eq keys dst,p.keyMayMatch_filterBits keys⟩

end Filter

end BloomFilterPolicy

end LevelDB.Sstable
