import LevelDB.MemTable

/-! Comparators (`leveldb/comparator.h`): the contract of the keys that stand between others,
`InternalKeyComparator` over the comparator of the user and `BytewiseComparatorImpl`. -/
namespace LevelDB

open Sstable (extractUserKey internalTag)
open Encoded (encodeFixed64 packSequenceAndType)

structure Comparator where
  compare : Bytes → Bytes → Ordering
  findShortestSeparator : Bytes → Bytes → Bytes
  findShortSuccessor : Bytes → Bytes

/-- A total order, in which different keys may be equal, and the contract of the two
functions; a start that is not before the limit is left alone. -/
structure Comparator.Lawful (c : Comparator) : Prop where
  order : Std.TransCmp c.compare
  separator : ∀ start limit, c.compare start limit = .lt →
    (c.compare start (c.findShortestSeparator start limit)).isLE ∧
      c.compare (c.findShortestSeparator start limit) limit = .lt
  unchanged : ∀ start limit, c.compare start limit ≠ .lt → c.findShortestSeparator start limit = start
  successor : ∀ key, (c.compare key (c.findShortSuccessor key)).isLE

def kValueTypeForSeek : ValueType := .value

/-- The earliest possible number. -/
def seekTag : Bytes := encodeFixed64 (packSequenceAndType kMaxSequenceNumber kValueTypeForSeek)

/-- Of two numbers the greater comes first. -/
def compareNumbers (anum bnum : Nat) : Ordering :=
  if bnum < anum then .lt else if anum < bnum then .gt else .eq

/-- `InternalKeyComparator`. Internal keys have eight bytes or more; nothing here depends on
that. -/
def Comparator.internal (user : Comparator) : Comparator where
  compare akey bkey :=
    let r := user.compare (extractUserKey akey) (extractUserKey bkey)
    if r = .eq then compareNumbers (internalTag akey) (internalTag bkey) else r
  findShortestSeparator start limit :=
    let userStart := extractUserKey start
    let tmp := user.findShortestSeparator userStart (extractUserKey limit)
    if tmp.length < userStart.length ∧ user.compare userStart tmp = .lt then tmp ++ seekTag else start
  findShortSuccessor key :=
    let userKey := extractUserKey key
    let tmp := user.findShortSuccessor userKey
    if tmp.length < userKey.length ∧ user.compare userKey tmp = .lt then tmp ++ seekTag else key

section Internal
variable {user : Comparator}

theorem extractUserKey_append (userKey : Bytes) (tag : Nat) :
    extractUserKey (userKey ++ encodeFixed64 tag) = userKey := by
  have length : (userKey ++ encodeFixed64 tag).length - 8 = userKey.length := by
    rw [List.length_append,Encoded.length_encodeFixed64]
    omega
  rw [extractUserKey,length,List.take_left]

theorem extractUserKey_seekTag (userKey : Bytes) : extractUserKey (userKey ++ seekTag) = userKey := by
  rw [seekTag,extractUserKey_append]

theorem compareNumbers_then (r : Ordering) (anum bnum : Nat) :
    (if r = .eq then compareNumbers anum bnum else r) = r.then (compare bnum anum) := by
  rw [compareNumbers,Nat.compare_eq_ite_lt]
  cases r <;> rfl

/-- The order of the user keys and then that of the numbers, the greatest first. -/
theorem internal_compare_eq (akey bkey : Bytes) : user.internal.compare akey bkey =
    (user.compare (extractUserKey akey) (extractUserKey bkey)).then (compare (internalTag bkey) (internalTag akey)) :=
  compareNumbers_then _ _ _

theorem internal_compare_of_lt {akey bkey : Bytes}
    (less : user.compare (extractUserKey akey) (extractUserKey bkey) = .lt) :
    user.internal.compare akey bkey = .lt := by
  simp [Comparator.internal,less]

theorem internal_order (order : Std.TransCmp user.compare) : Std.TransCmp user.internal.compare := by
  have users : Std.TransCmp fun a b => user.compare (extractUserKey a) (extractUserKey b) :=
    { eq_swap := order.eq_swap, isLE_trans := order.isLE_trans }
  have numbers : Std.TransCmp fun a b : Bytes => compare (internalTag b) (internalTag a) :=
    { eq_swap := Std.OrientedOrd.eq_swap
      isLE_trans := fun first second => Std.TransOrd.isLE_trans second first }
  have both : Std.TransCmp (compareLex (fun a b => user.compare (extractUserKey a) (extractUserKey b))
      fun a b => compare (internalTag b) (internalTag a)) := inferInstance
  have same : user.internal.compare = compareLex (fun a b => user.compare (extractUserKey a) (extractUserKey b))
      fun a b => compare (internalTag b) (internalTag a) :=
    funext fun a => funext fun b => internal_compare_eq a b
  rw [same]
  exact both

/-- The key itself, or a shorter user key above it with the earliest number. -/
theorem internal_separator_cases (start limit : Bytes) :
    user.internal.findShortestSeparator start limit = start ∨
      ∃ tmp, tmp = user.findShortestSeparator (extractUserKey start) (extractUserKey limit) ∧
        tmp ≠ extractUserKey start ∧ user.compare (extractUserKey start) tmp = .lt ∧
        user.internal.findShortestSeparator start limit = tmp ++ seekTag := by
  simp only [Comparator.internal]
  split
  · rename_i shorter
    exact .inr ⟨_,rfl,fun same => absurd shorter.1 (by rw [same]; exact lt_irrefl _),shorter.2,rfl⟩
  · exact .inl rfl

theorem internal_successor_cases (key : Bytes) : user.internal.findShortSuccessor key = key ∨
    ∃ tmp, user.compare (extractUserKey key) tmp = .lt ∧ user.internal.findShortSuccessor key = tmp ++ seekTag := by
  simp only [Comparator.internal]
  split
  · rename_i shorter
    exact .inr ⟨_,shorter.2,rfl⟩
  · exact .inl rfl

/-- Over a lawful comparator for user keys the comparator for internal keys is lawful. -/
theorem Comparator.Lawful.internal (lawful : user.Lawful) : user.internal.Lawful := by
  have order := internal_order lawful.order
  refine ⟨order,?_,?_,?_⟩
  · intro start limit less
    rcases internal_separator_cases start limit with same | ⟨tmp,found,other,above,result⟩
    · rw [same]
      exact ⟨Std.ReflCmp.isLE_rfl,less⟩
    · have first : user.internal.compare start (tmp ++ seekTag) = .lt :=
        internal_compare_of_lt (by rwa [extractUserKey_seekTag])
      have users : user.compare (extractUserKey start) (extractUserKey limit) = .lt := by
        by_contra misordered
        exact other (found.trans (lawful.unchanged _ _ misordered))
      have below := (lawful.separator _ _ users).2
      rw [← found] at below
      rw [result,first]
      exact ⟨rfl,internal_compare_of_lt (by rwa [extractUserKey_seekTag])⟩
  · intro start limit misordered
    rcases internal_separator_cases start limit with same | ⟨tmp,found,other,above,-⟩
    · exact same
    · have users : user.compare (extractUserKey start) (extractUserKey limit) ≠ .lt :=
        fun less => misordered (internal_compare_of_lt less)
      exact absurd (found.trans (lawful.unchanged _ _ users)) other
  · intro key
    rcases internal_successor_cases key with same | ⟨tmp,above,result⟩
    · rw [same]
      exact Std.ReflCmp.isLE_rfl
    · rw [result,internal_compare_of_lt (by rwa [extractUserKey_seekTag])]
      rfl

end Internal

/-- `memcmp`: the bytes as unsigned numbers, up to the first that differ. -/
def memcmp : Nat → Bytes → Bytes → Ordering
  | 0, _, _ => .eq
  | n + 1, a :: as, b :: bs => if a < b then .lt else if b < a then .gt else memcmp n as bs
  | _ + 1, _, _ => .eq

/-- `Slice::compare`. -/
def sliceCompare (a b : Bytes) : Ordering :=
  let r := memcmp (min a.length b.length) a b
  if r = .eq then if a.length < b.length then .lt else if b.length < a.length then .gt else .eq else r

/-- The loop that finds the length of the common prefix. -/
def commonPrefix : Bytes → Bytes → Nat
  | a :: as, b :: bs => if a = b then commonPrefix as bs + 1 else 0
  | _, _ => 0

/-- `FindShortestSeparator` of `BytewiseComparatorImpl`. -/
def bytewiseSeparator (start limit : Bytes) : Bytes :=
  let diffIndex := commonPrefix start limit
  if min start.length limit.length ≤ diffIndex then start
  else
    let diffByte := start.getD diffIndex 0
    if diffByte < 0xff ∧ diffByte.toNat + 1 < (limit.getD diffIndex 0).toNat then
      start.take diffIndex ++ [diffByte + 1]
    else start

/-- `FindShortSuccessor`: a run of 0xffs is left alone. -/
def bytewiseSuccessor : Bytes → Bytes
  | [] => []
  | byte :: rest => if byte ≠ 0xff then [byte + 1] else byte :: bytewiseSuccessor rest

def bytewiseComparator : Comparator := ⟨sliceCompare,bytewiseSeparator,bytewiseSuccessor⟩

section Bytewise

theorem compare_byte (a b : UInt8) : compare a b = if a < b then .lt else if b < a then .gt else .eq := by
  change compareOfLessAndEq a b = _
  rw [compareOfLessAndEq]
  by_cases less : a < b
  · rw [if_pos less,if_pos less]
  · rw [if_neg less,if_neg less]
    by_cases same : a = b
    · rw [if_pos same,if_neg (same ▸ UInt8.lt_irrefl a)]
    · rw [if_neg same,if_pos (UInt8.lt_of_le_of_ne (UInt8.not_lt.mp less) (Ne.symm same))]

theorem sliceCompare_cons (a b : UInt8) (as bs : Bytes) :
    sliceCompare (a :: as) (b :: bs) = (compare a b).then (sliceCompare as bs) := by
  simp only [sliceCompare,List.length_cons,Nat.add_min_add_right,memcmp,compare_byte,Nat.add_lt_add_iff_right]
  by_cases less : a < b
  · simp [less]
  · by_cases greater : b < a
    · simp [less,greater]
    · simp [less,greater]

/-- Byte strings are compared as lists of bytes. -/
theorem sliceCompare_eq (a b : Bytes) : sliceCompare a b = List.compareLex compare a b := by
  induction a generalizing b with
  | nil => cases b <;> simp [sliceCompare,memcmp,List.compareLex_nil_nil,List.compareLex_nil_cons]
  | cons x as ih =>
    cases b with
    | nil => simp [sliceCompare,memcmp,List.compareLex_cons_nil]
    | cons y bs =>
      rw [sliceCompare_cons,ih,List.compareLex_cons_cons]

theorem sliceCompare_order : Std.TransCmp sliceCompare := by
  have same : sliceCompare = List.compareLex compare := funext fun a => funext fun b => sliceCompare_eq a b
  rw [same]
  infer_instance

theorem sliceCompare_append (common a b : Bytes) : sliceCompare (common ++ a) (common ++ b) = sliceCompare a b := by
  induction common with
  | nil => rfl
  | cons c common ih => rw [List.cons_append,List.cons_append,sliceCompare_cons,Std.ReflOrd.compare_self,ih,Ordering.eq_then]

theorem sliceCompare_head {a b : UInt8} (less : a < b) (as bs : Bytes) : sliceCompare (a :: as) (b :: bs) = .lt := by
  rw [sliceCompare_cons,compare_byte,if_pos less]
  rfl

theorem commonPrefix_spec (a b : Bytes) : ∃ common as bs, a = common ++ as ∧ b = common ++ bs ∧
    common.length = commonPrefix a b := by
  induction a generalizing b with
  | nil => exact ⟨[],[],b,rfl,rfl,by simp [commonPrefix]⟩
  | cons x as ih =>
    cases b with
    | nil => exact ⟨[],x :: as,[],rfl,rfl,by simp [commonPrefix]⟩
    | cons y bs =>
      by_cases same : x = y
      · subst same
        obtain ⟨common,as',bs',rfl,rfl,length⟩ := ih bs
        exact ⟨x :: common,as',bs',rfl,rfl,by simp [commonPrefix,length]⟩
      · exact ⟨[],x :: as,y :: bs,rfl,rfl,by simp [commonPrefix,same]⟩

theorem succ_byte {x : UInt8} (room : x < 0xff) : (x + 1).toNat = x.toNat + 1 := by
  have below : x.toNat < 255 := room
  rw [UInt8.toNat_add]
  exact Nat.mod_eq_of_lt (show x.toNat + 1 < 256 by omega)

/-- Where the separator is another string it is the common prefix with the next byte, and
the limit has a later one there. -/
theorem bytewiseSeparator_cases (start limit : Bytes) : bytewiseSeparator start limit = start ∨
    ∃ common x y as bs, start = common ++ x :: as ∧ limit = common ++ y :: bs ∧ x < x + 1 ∧ x + 1 < y ∧
      bytewiseSeparator start limit = common ++ [x + 1] := by
  obtain ⟨common,as,bs,rfl,rfl,length⟩ := commonPrefix_spec start limit
  simp only [bytewiseSeparator,← length]
  split
  · exact .inl rfl
  · rename_i inside
    split
    · rename_i next
      simp only [List.length_append] at inside
      obtain ⟨x,as,rfl⟩ := List.exists_cons_of_ne_nil (List.length_pos_iff.mp (show 0 < as.length by omega))
      obtain ⟨y,bs,rfl⟩ := List.exists_cons_of_ne_nil (List.length_pos_iff.mp (show 0 < bs.length by omega))
      simp only [List.getD_eq_getElem?_getD,List.getElem?_append_right (le_refl _),Nat.sub_self,
        List.getElem?_cons_zero,Option.getD_some,List.take_left] at next ⊢
      have value := succ_byte next.1
      refine .inr ⟨common,x,y,as,bs,rfl,rfl,?_,?_,rfl⟩
      · exact UInt8.lt_iff_toNat_lt.mpr (by omega)
      · exact UInt8.lt_iff_toNat_lt.mpr (by omega)
    · exact .inl rfl

theorem bytewiseSuccessor_le (key : Bytes) : (sliceCompare key (bytewiseSuccessor key)).isLE := by
  induction key with
  | nil => rfl
  | cons byte rest ih =>
    rw [bytewiseSuccessor]
    split
    · rename_i room
      have below : byte < 0xff := UInt8.lt_of_le_of_ne (UInt8.le_iff_toNat_le.mpr (Nat.le_of_lt_succ byte.toNat_lt)) room
      have value := succ_byte below
      rw [sliceCompare_head (UInt8.lt_iff_toNat_lt.mpr (by omega))]
      rfl
    · rw [sliceCompare_cons,Std.ReflOrd.compare_self,Ordering.eq_then]
      exact ih

theorem bytewiseComparator_lawful : bytewiseComparator.Lawful := by
  have order := sliceCompare_order
  refine ⟨order,?_,?_,bytewiseSuccessor_le⟩
  · intro start limit less
    rcases bytewiseSeparator_cases start limit with same | ⟨common,x,y,as,bs,rfl,rfl,next,below,result⟩
    · change (sliceCompare start (bytewiseSeparator start limit)).isLE ∧ sliceCompare (bytewiseSeparator start limit) limit = .lt
      rw [same]
      exact ⟨Std.ReflCmp.isLE_rfl,less⟩
    · change (sliceCompare _ (bytewiseSeparator _ _)).isLE ∧ sliceCompare (bytewiseSeparator _ _) _ = .lt
      rw [result,sliceCompare_append,sliceCompare_append,sliceCompare_head next,sliceCompare_head below]
      exact ⟨rfl,rfl⟩
  · intro start limit misordered
    rcases bytewiseSeparator_cases start limit with same | ⟨common,x,y,as,bs,rfl,rfl,next,below,-⟩
    · exact same
    · refine absurd ?_ misordered
      change sliceCompare _ _ = .lt
      rw [sliceCompare_append,sliceCompare_head (UInt8.lt_trans next below)]

theorem sliceCompare_lt (a b : Bytes) : sliceCompare a b = .lt ↔ Sstable.bytewise a < Sstable.bytewise b := by
  induction a generalizing b with
  | nil =>
    cases b with
    | nil => exact iff_of_false (by decide) (List.not_lt_nil _)
    | cons y bs => exact iff_of_true rfl (List.nil_lt_cons _ _)
  | cons x as ih =>
    cases b with
    | nil => exact iff_of_false (by simp [sliceCompare,memcmp]) (List.not_lt_nil _)
    | cons y bs =>
      have parts : Sstable.bytewise (x :: as) < Sstable.bytewise (y :: bs) ↔
          x.toNat < y.toNat ∨ x.toNat = y.toNat ∧ Sstable.bytewise as < Sstable.bytewise bs := List.cons_lt_cons_iff
      rw [parts,sliceCompare_cons,compare_byte,← ih,UInt8.toNat_inj]
      by_cases less : x < y
      · have number : x.toNat < y.toNat := less
        simp [less,number]
      · have number : ¬x.toNat < y.toNat := less
        by_cases greater : y < x
        · have other : x ≠ y := fun same => UInt8.lt_irrefl x (by rwa [← same] at greater)
          simp [less,number,greater,other]
        · have same : x = y := UInt8.le_antisymm (UInt8.not_lt.mp greater) (UInt8.not_lt.mp less)
          simp [same]

end Bytewise

/-- The keys that a table puts between its blocks and behind its last one stand where they
should, for every comparator of the user that keeps its contract; the built-in one does. -/
theorem separator_keys (user : Comparator) (lawful : user.Lawful) :
    (∀ start limit, user.internal.compare start limit = .lt →
      (user.internal.compare start (user.internal.findShortestSeparator start limit)).isLE ∧
        user.internal.compare (user.internal.findShortestSeparator start limit) limit = .lt) ∧
      (∀ key, (user.internal.compare key (user.internal.findShortSuccessor key)).isLE) ∧
      bytewiseComparator.Lawful :=
  ⟨lawful.internal.separator,lawful.internal.successor,bytewiseComparator_lawful⟩

/-- Between `foo` at 100 and `hello` at 200 stands `g` with the earliest number. -/
theorem separator_keys_foo :
    let start : Bytes := [102,111,111] ++ encodeFixed64 (packSequenceAndType 100 .value)
    let limit : Bytes := [104,101,108,108,111] ++ encodeFixed64 (packSequenceAndType 200 .value)
    bytewiseComparator.internal.findShortestSeparator start limit = [103] ++ seekTag ∧
      (bytewiseComparator.internal.compare start ([103] ++ seekTag)).isLE ∧
      bytewiseComparator.internal.compare ([103] ++ seekTag) limit = .lt := by
  intro start limit
  have less : bytewiseComparator.internal.compare start limit = .lt := by
    apply internal_compare_of_lt
    rw [extractUserKey_append,extractUserKey_append]
    decide
  have found : bytewiseComparator.internal.findShortestSeparator start limit = [103] ++ seekTag := by
    simp only [Comparator.internal,start,limit,extractUserKey_append]
    rw [if_pos (by decide)]
    rfl
  have between := (separator_keys bytewiseComparator bytewiseComparator_lawful).1 start limit less
  rw [found] at between
  exact ⟨found,between⟩

section Tables
variable {U : Type} [LinearOrder U] {c : Comparator} {userRank : Bytes → U}

theorem compare_pairs (akey bkey : U) (anum bnum : ℕ) :
    compare (toLex (akey,OrderDual.toDual anum) : U ×ₗ ℕᵒᵈ) (toLex (bkey,OrderDual.toDual bnum)) =
      (compare akey bkey).then (compare bnum anum) :=
  rfl

/-- A comparator that is given by a rank orders internal keys by theirs. -/
theorem internal_compare_rank (agrees : ∀ a b, c.compare a b = compare (userRank a) (userRank b)) (akey bkey : Bytes) :
    c.internal.compare akey bkey = compare (Sstable.internalRank userRank akey) (Sstable.internalRank userRank bkey) := by
  rw [internal_compare_eq,agrees,Sstable.internalRank,Sstable.internalRank,compare_pairs]

/-- A comparator with the same smaller keys has the same order. -/
theorem agrees_of_lt (order : Std.OrientedCmp c.compare) (less : ∀ a b, c.compare a b = .lt ↔ userRank a < userRank b)
    (a b : Bytes) : c.compare a b = compare (userRank a) (userRank b) := by
  have swapped : c.compare a b = .gt ↔ c.compare b a = .lt := Std.OrientedCmp.gt_iff_lt
  cases result : c.compare a b with
  | lt => exact (compare_lt_iff_lt.mpr ((less a b).mp result)).symm
  | gt => exact (compare_gt_iff_gt.mpr ((less b a).mp (swapped.mp result))).symm
  | eq =>
    have low : ¬userRank a < userRank b := fun lt => by cases result.symm.trans ((less a b).mpr lt)
    have high : ¬userRank b < userRank a := fun lt => by cases result.symm.trans (swapped.mpr ((less b a).mpr lt))
    exact (compare_eq_iff_eq.mpr (le_antisymm (not_lt.mp high) (not_lt.mp low))).symm

/-- `internal_key_comparator` as the comparator of the tables. -/
def Comparator.forTables (c : Comparator) (userRank : Bytes → U) (options : Sstable.Options (U ×ₗ ℕᵒᵈ)) :
    Sstable.Options (U ×ₗ ℕᵒᵈ) :=
  { options with
    rank := Sstable.internalRank userRank
    findShortestSeparator := c.internal.findShortestSeparator
    findShortSuccessor := c.internal.findShortSuccessor }

/-- Tables of internal keys are built with a comparator that keeps its contract. -/
theorem forTables_lawful (lawful : c.Lawful) (agrees : ∀ a b, c.compare a b = compare (userRank a) (userRank b))
    {options : Sstable.Options (U ×ₗ ℕᵒᵈ)} (others : options.Lawful) : (c.forTables userRank options).Lawful := by
  have compared := internal_compare_rank agrees
  constructor
  · intro start limit less
    have between := lawful.internal.separator start limit (by rwa [compared,compare_lt_iff_lt])
    rw [compared,compared,compare_lt_iff_lt] at between
    exact ⟨compare_le_iff_le.mp (Ordering.ne_gt_iff_isLE.mpr between.1),between.2⟩
  · intro key
    have above := lawful.internal.successor key
    rw [compared] at above
    exact compare_le_iff_le.mp (Ordering.ne_gt_iff_isLE.mpr above)
  · exact others.interval
  · exact others.snappy
  · exact others.zstd

end Tables

end LevelDB
