import LevelDB.HistoryOrder
import LevelDB.SkipListInsert
import LevelDB.TableGet
import LevelDB.VersionLookup
import Mathlib.Data.List.Find

/-! The memtable in its bytes (`db/memtable.cc`): entries are length-prefixed strings in a skip
list, and a read seeks the one that a lookup key stands for. A pointer into the arena is the
bytes that it points to. -/
namespace LevelDB.Encoded

open Sstable (decodeFixed64 extractUserKey internalTag internalRank)

variable {U : Type}

/-- `EncodeFixed64`: least significant byte first. -/
def encodeFixed64 (v : Nat) : Bytes := encodeFixed32 (BitVec.ofNat 32 v) ++ encodeFixed32 (BitVec.ofNat 32 (v / 2^32))

/-- `VarintLength`; a value below 2^64 goes round nine times at most. -/
def varintLengthLoop : Nat → Nat → Nat
  | 0, _ => 1
  | fuel + 1, v => if 128 ≤ v then varintLengthLoop fuel (v >>> 7) + 1 else 1

def varintLength (v : Nat) : Nat := varintLengthLoop 9 v

/-- The tag, in 64 bits. -/
def packSequenceAndType (sequence : Nat) (type : ValueType) : Nat := sequence <<< 8 % 2^64 ||| type.code

/-- `GetLengthPrefixedSlice` of `memtable.cc`; a slice that is not all there cannot be read. -/
def prefixedSlice (data : Bytes) : Option Bytes := (getLengthPrefixedSlice data).map Prod.fst

/-- What `MemTable::KeyComparator` compares; no other keys are ever in the table. -/
def keyRank (userRank : Bytes → U) (entry : Bytes) : U ×ₗ ℕᵒᵈ := internalRank userRank ((prefixedSlice entry).getD [])

structure MemTable where
  table : SkipList Bytes

/-- The key of `head_` is a null pointer. -/
def MemTable.new : MemTable := ⟨.new []⟩

/-- A call of `MemTable::Add`, with the height that `RandomHeight` will return. -/
structure Add where
  sequence : Nat
  type : ValueType
  key : Bytes
  value : Bytes
  height : Nat

/-- The entry that `Add` writes; sizes are cut to 32 bits where they are encoded. -/
def Add.encode (a : Add) : Bytes :=
  encodeVarint32 ((a.key.length + 8) % 2^32) ++ a.key ++ encodeFixed64 (packSequenceAndType a.sequence a.type) ++
    encodeVarint32 (a.value.length % 2^32) ++ a.value

/-- The bytes that `Add` allocates for it. -/
def Add.encodedLength (a : Add) : Nat :=
  varintLength (a.key.length + 8) + (a.key.length + 8) + varintLength a.value.length + a.value.length

section Ordered
variable [LinearOrder U] (userRank : Bytes → U)

/-- `MemTable::Add`, with its assertion that the entry fills the buffer. -/
def MemTable.add (t : MemTable) (a : Add) : Option MemTable :=
  if a.encode.length = a.encodedLength then
    (t.table.insert (keyRank userRank) a.encode a.height).map fun table => ⟨table⟩
  else none

/-- `LookupKey`, from its start: a key of the memtable without a value. -/
def memtableKey (userKey : Bytes) (sequence : Nat) : Bytes :=
  encodeVarint32 ((userKey.length + 8) % 2^32) ++ userKey ++ encodeFixed64 (packSequenceAndType sequence .value)

/-- What `MemTable::Get` makes of the entry that it has found. -/
def readEntry (userKey entry : Bytes) : Option (SaverState Bytes) :=
  (getVarint32 entry).bind fun r =>
    if 8 ≤ r.1 ∧ r.1 ≤ r.2.length then
      if userRank (r.2.take (r.1 - 8)) = userRank userKey then
        match decodeFixed64 (r.2.drop (r.1 - 8)) % 256 with
        | 1 => (prefixedSlice (r.2.drop r.1)).map .found
        | 0 => some .deleted
        | _ => some .notFound
      else some .notFound
    else none

/-- The calls of `Add`, in their order. -/
def MemTable.addAll (t : MemTable) (calls : List Add) : Option MemTable := calls.foldlM (MemTable.add userRank) t

/-- `MemTable::Get`: the value, `NotFound` for a deletion, and false where nothing is found. -/
def MemTable.get (t : MemTable) (userKey : Bytes) (sequence : Nat) : Option (SaverState Bytes) :=
  (t.table.iteratorSeek (keyRank userRank) (memtableKey userKey sequence)).bind fun node =>
    node.elim (some .notFound) fun x => (t.table.key x).bind (readEntry userRank userKey)

end Ordered

/-! What is in the bytes. -/

theorem length_encodeFixed64 (v : Nat) : (encodeFixed64 v).length = 8 := rfl

theorem decodeFixed64_encodeFixed64 {v : Nat} (small : v < 2^64) (tail : Bytes) : decodeFixed64 (encodeFixed64 v ++ tail) = v := by
  have high : (encodeFixed64 v ++ tail).drop 4 = encodeFixed32 (BitVec.ofNat 32 (v / 2^32)) ++ tail := rfl
  have low : encodeFixed64 v ++ tail = encodeFixed32 (BitVec.ofNat 32 v) ++ (encodeFixed32 (BitVec.ofNat 32 (v / 2^32)) ++ tail) := rfl
  rw [decodeFixed64,high,low,decodeFixed32_encodeFixed32,decodeFixed32_encodeFixed32,BitVec.toNat_ofNat,BitVec.toNat_ofNat]
  omega

theorem packSequenceAndType_eq {sequence : Nat} (small : sequence ≤ kMaxSequenceNumber) (type : ValueType) :
    packSequenceAndType sequence type = sequence * 256 + type.code := by
  have code : type.code < 2^8 := by cases type <;> decide
  have fits : sequence <<< 8 < 2^64 := by
    rw [Nat.shiftLeft_eq]
    simp only [kMaxSequenceNumber] at small
    omega
  rw [packSequenceAndType,Nat.mod_eq_of_lt fits,Nat.or_comm,or_shift code]
  omega

theorem packSequenceAndType_lt {sequence : Nat} (small : sequence ≤ kMaxSequenceNumber) (type : ValueType) :
    packSequenceAndType sequence type < 2^64 := by
  have code : type.code ≤ 1 := by cases type <;> decide
  rw [packSequenceAndType_eq small]
  simp only [kMaxSequenceNumber] at small
  omega

theorem length_varintLoop (fuel v : Nat) : (varintLoop fuel v).length = varintLengthLoop fuel v := by
  induction fuel generalizing v with
  | zero => rfl
  | succ fuel ih =>
    rw [varintLoop,varintLengthLoop]
    by_cases small : v < 128
    · rw [if_pos small,if_neg (Nat.not_le_of_lt small)]
      rfl
    · rw [if_neg small,if_pos (Nat.le_of_not_lt small),List.length_cons,ih]

/-- The loop stops by itself. -/
theorem varintLengthLoop_more (more fuel : Nat) {v : Nat} (small : v < 2^(7 * fuel + 7)) :
    varintLengthLoop (fuel + more) v = varintLengthLoop fuel v := by
  induction fuel generalizing v with
  | zero =>
    cases more with
    | zero => rfl
    | succ more =>
      have last : ¬128 ≤ v := by omega
      simp only [varintLengthLoop,if_neg last]
  | succ fuel ih =>
    have below : v >>> 7 < 2^(7 * fuel + 7) := by
      rw [Nat.shiftRight_eq_div_pow,Nat.div_lt_iff_lt_mul (by decide),← Nat.pow_add]
      exact small
    rw [Nat.add_right_comm,varintLengthLoop,varintLengthLoop,ih below]

theorem length_encodeVarint32 {v : Nat} (small : v < 2^32) : (encodeVarint32 v).length = varintLength v := by
  rw [encodeVarint32_eq v small,length_varintLoop]
  exact (varintLengthLoop_more 5 4 (small.trans (by decide))).symm

/-- A call that the format has room for. -/
structure Add.Fits (a : Add) : Prop where
  sequence : a.sequence ≤ kMaxSequenceNumber
  key : a.key.length < 2^32 - 8
  value : a.value.length < 2^32 - 8
  positive : 0 < a.height
  height : a.height ≤ SkipList.kMaxHeight

theorem Add.Fits.length_encode {a : Add} (fits : a.Fits) : a.encode.length = a.encodedLength := by
  have key := fits.key
  have value := fits.value
  have key' : a.key.length + 8 < 2^32 := by omega
  have value' : a.value.length < 2^32 := by omega
  rw [Add.encode,Nat.mod_eq_of_lt key',Nat.mod_eq_of_lt value']
  simp only [List.length_append,length_encodeVarint32 key',length_encodeVarint32 value',length_encodeFixed64,Add.encodedLength]
  omega

/-- The internal key of an entry or of a lookup key, behind its length. -/
theorem prefixedSlice_eq {userKey : Bytes} (small : userKey.length < 2^32 - 8) (tag : Nat) (tail : Bytes) :
    getVarint32 (encodeVarint32 ((userKey.length + 8) % 2^32) ++ userKey ++ encodeFixed64 tag ++ tail) =
        some (userKey.length + 8,userKey ++ (encodeFixed64 tag ++ tail)) ∧
      prefixedSlice (encodeVarint32 ((userKey.length + 8) % 2^32) ++ userKey ++ encodeFixed64 tag ++ tail) =
        some (userKey ++ encodeFixed64 tag) := by
  have small' : userKey.length + 8 < 2^32 := by omega
  have start : getVarint32 (encodeVarint32 ((userKey.length + 8) % 2^32) ++ userKey ++ encodeFixed64 tag ++ tail) =
      some (userKey.length + 8,userKey ++ (encodeFixed64 tag ++ tail)) := by
    rw [Nat.mod_eq_of_lt small',List.append_assoc,List.append_assoc]
    exact getVarint32_encode _ small' _
  refine ⟨start,?_⟩
  have length : (userKey ++ encodeFixed64 tag).length = userKey.length + 8 := by
    rw [List.length_append,length_encodeFixed64]
  have enough : userKey.length + 8 ≤ (userKey ++ (encodeFixed64 tag ++ tail)).length := by
    rw [← List.append_assoc,List.length_append,length]
    exact Nat.le_add_right _ _
  simp only [prefixedSlice,getLengthPrefixedSlice,start,Option.bind_some,if_pos enough,Option.map_some]
  rw [← List.append_assoc,← length,List.take_left]

theorem internalRank_eq {userRank : Bytes → U} (userKey : Bytes) {tag : Nat} (small : tag < 2^64) :
    internalRank userRank (userKey ++ encodeFixed64 tag) = toLex (userRank userKey,OrderDual.toDual tag) := by
  have length : (userKey ++ encodeFixed64 tag).length - 8 = userKey.length := by
    rw [List.length_append,length_encodeFixed64]
    omega
  have decoded := decodeFixed64_encodeFixed64 small []
  rw [List.append_nil] at decoded
  rw [internalRank,extractUserKey,internalTag,length,List.take_left,List.drop_left,decoded]

theorem keyRank_encode {userRank : Bytes → U} {a : Add} (fits : a.Fits) :
    keyRank userRank a.encode = toLex (userRank a.key,OrderDual.toDual (a.sequence * 256 + a.type.code)) := by
  have slice := (prefixedSlice_eq fits.key (packSequenceAndType a.sequence a.type)
    (encodeVarint32 (a.value.length % 2^32) ++ a.value)).2
  rw [← List.append_assoc] at slice
  rw [keyRank,Add.encode,slice,Option.getD_some,internalRank_eq _ (packSequenceAndType_lt fits.sequence a.type),
    packSequenceAndType_eq fits.sequence]

theorem keyRank_memtableKey {userRank : Bytes → U} {userKey : Bytes} {sequence : Nat} (small : userKey.length < 2^32 - 8)
    (most : sequence ≤ kMaxSequenceNumber) :
    keyRank userRank (memtableKey userKey sequence) = toLex (userRank userKey,OrderDual.toDual (sequence * 256 + 1)) := by
  have slice := (prefixedSlice_eq small (packSequenceAndType sequence .value) []).2
  rw [List.append_nil] at slice
  rw [keyRank,memtableKey,slice,Option.getD_some,internalRank_eq _ (packSequenceAndType_lt most .value),packSequenceAndType_eq most]
  rfl

/-! The table holds the entries that were added, and reads as the memtable of these entries. -/

/-- What a call adds, under the rank of its key. -/
def Add.entry (userRank : Bytes → U) (a : Add) : Entry U Bytes :=
  ⟨userRank a.key,a.sequence,match a.type with | .value => some a.value | .deletion => none⟩

/-- What a read that finds the entry returns. -/
def Add.answer (a : Add) : SaverState Bytes :=
  match a.type with
  | .value => .found a.value
  | .deletion => .deleted

theorem Add.value_entry (userRank : Bytes → U) (a : Add) : (a.entry userRank).value.elim SaverState.deleted .found = a.answer := by
  rw [Add.entry,Add.answer]
  cases a.type <;> rfl

@[simp] theorem Add.type_entry (userRank : Bytes → U) (a : Add) : (a.entry userRank).type = a.type := by
  obtain ⟨_,type,_,_,_⟩ := a
  cases type <;> rfl

theorem readEntry_encode [LinearOrder U] {userRank : Bytes → U} {a : Add} (fits : a.Fits) (userKey : Bytes) :
    readEntry userRank userKey a.encode = some (saveValue (userRank userKey) (some (a.entry userRank))) := by
  have start := (prefixedSlice_eq fits.key (packSequenceAndType a.sequence a.type)
    (encodeVarint32 (a.value.length % 2^32) ++ a.value)).1
  rw [← List.append_assoc] at start
  have size : 8 ≤ a.key.length + 8 ∧ a.key.length + 8 ≤ (a.key ++ (encodeFixed64 (packSequenceAndType a.sequence a.type) ++
      (encodeVarint32 (a.value.length % 2^32) ++ a.value))).length := by
    simp only [List.length_append,length_encodeFixed64]
    omega
  have behind : (a.key ++ (encodeFixed64 (packSequenceAndType a.sequence a.type) ++
      (encodeVarint32 (a.value.length % 2^32) ++ a.value))).drop (a.key.length + 8) =
      encodeVarint32 (a.value.length % 2^32) ++ a.value := by
    rw [← List.append_assoc]
    apply List.drop_left'
    rw [List.length_append,length_encodeFixed64]
  have small : a.value.length < 2^32 := by
    have := fits.value
    omega
  have value : prefixedSlice (encodeVarint32 (a.value.length % 2^32) ++ a.value) = some a.value := by
    rw [prefixedSlice,getLengthPrefixedSlice,Nat.mod_eq_of_lt small,getVarint32_encode _ small,Option.bind_some]
    simp
  have tag : decodeFixed64 (encodeFixed64 (packSequenceAndType a.sequence a.type) ++
      (encodeVarint32 (a.value.length % 2^32) ++ a.value)) % 256 = a.type.code := by
    have code : a.type.code ≤ 1 := by cases a.type <;> decide
    rw [decodeFixed64_encodeFixed64 (packSequenceAndType_lt fits.sequence a.type),packSequenceAndType_eq fits.sequence]
    omega
  rw [readEntry,Add.encode,start,Option.bind_some,if_pos size]
  simp only [Nat.add_sub_cancel,List.take_left,List.drop_left,behind,value,tag,LevelDB.saveValue]
  by_cases same : userRank a.key = userRank userKey
  · have same' : (a.entry userRank).userKey = userRank userKey := same
    rw [if_pos same,if_pos same',Add.entry]
    cases a.type <;> rfl
  · have other : (a.entry userRank).userKey ≠ userRank userKey := same
    rw [if_neg same,if_neg other]

section Reads
variable [LinearOrder U] {userRank : Bytes → U}

omit [LinearOrder U] in
/-- The comparator of the table orders entries as internal keys are ordered. -/
theorem keyRank_entry {a : Add} (fits : a.Fits) : keyRank userRank a.encode =
    toLex ((a.entry userRank).key.userKey,OrderDual.toDual (a.entry userRank).key.tag) := by
  rw [keyRank_encode fits,InternalKey.tag,Entry.key,Add.type_entry]
  rfl

omit [LinearOrder U] in
theorem keyRank_lookupKey {userKey : Bytes} {sequence : Nat} (small : userKey.length < 2^32 - 8) (most : sequence ≤ kMaxSequenceNumber) :
    keyRank userRank (memtableKey userKey sequence) =
      toLex ((lookupKey (userRank userKey) sequence).userKey,OrderDual.toDual (lookupKey (userRank userKey) sequence).tag) :=
  keyRank_memtableKey small most

omit [LinearOrder U] in
/-- Entries of different numbers are different to the comparator. -/
theorem eq_of_keyRank (userRank : Bytes → U) {calls : List Add} (fits : ∀ a ∈ calls, a.Fits) (distinct : (calls.map Add.sequence).Nodup) {a b : Add}
    (first : a ∈ calls) (second : b ∈ calls) (same : keyRank userRank a.encode = keyRank userRank b.encode) : a = b := by
  rw [keyRank_encode (fits a first),keyRank_encode (fits b second)] at same
  have tags := OrderDual.toDual_inj.mp (Prod.mk.inj (toLex_inj.mp same)).2
  have small : a.type.code ≤ 1 := by cases a.type <;> decide
  have small' : b.type.code ≤ 1 := by cases b.type <;> decide
  exact List.inj_on_of_nodup_map distinct first second (by omega)

/-- The memtable of the entries, whatever the order of their numbers. -/
theorem entries_spec (userRank : Bytes → U) {calls : List Add} (distinct : (calls.map Add.sequence).Nodup) :
    SortedEntries ((calls.map (Add.entry userRank)).foldl LevelDB.MemTable.add []) ∧
      ∀ e, e ∈ (calls.map (Add.entry userRank)).foldl LevelDB.MemTable.add [] ↔ ∃ a ∈ calls, a.entry userRank = e := by
  have apart : (calls.map (Add.entry userRank)).Pairwise fun a b => a.key ≠ b.key := by
    rw [List.pairwise_map]
    apply (List.pairwise_map.mp distinct).imp
    exact fun differ equal => differ (congrArg InternalKey.sequence equal)
  have start : SortedEntries ([] : List (Entry U Bytes)) := List.Pairwise.nil
  obtain ⟨ordered,members⟩ := addAll_distinct (calls.map (Add.entry userRank)) start apart (by simp)
  refine ⟨ordered,?_⟩
  intro e
  simpa using members e

theorem addAll_holds (done calls : List Add) {t : MemTable} {levels : Nat → List Nat} (fits : ∀ a ∈ done ++ calls, a.Fits)
    (distinct : ((done ++ calls).map Add.sequence).Nodup)
    (holds : SkipList.Holds (keyRank userRank) t.table levels (done.map Add.encode)) :
    ∃ t' levels', t.addAll userRank calls = some t' ∧
      SkipList.Holds (keyRank userRank) t'.table levels' ((done ++ calls).map Add.encode) := by
  induction calls generalizing done t levels with
  | nil =>
    rw [List.append_nil]
    exact ⟨t,levels,rfl,holds⟩
  | cons a calls ih =>
    have inside : a ∈ done ++ a :: calls := by simp
    have room := fits a inside
    have fresh : ∀ k ∈ done.map Add.encode, keyRank userRank k ≠ keyRank userRank a.encode := by
      intro k member same
      obtain ⟨b,earlier,rfl⟩ := List.mem_map.mp member
      have member' : b ∈ done ++ a :: calls := List.mem_append_left _ earlier
      have equal := eq_of_keyRank userRank fits distinct member' inside same
      rw [List.map_append,List.map_cons] at distinct
      have apart := (List.nodup_append.mp distinct).2.2 _ (List.mem_map_of_mem earlier) _ List.mem_cons_self
      exact apart (congrArg Add.sequence equal)
    obtain ⟨table,levels',insert,holds'⟩ := holds.insert fresh room.positive room.height
    have added : t.add userRank a = some ⟨table⟩ := by
      rw [MemTable.add,if_pos room.length_encode,insert]
      rfl
    rw [← List.map_singleton,← List.map_append] at holds'
    obtain ⟨t',levels'',rest,holds''⟩ := ih (done ++ [a]) (by simpa using fits) (by simpa using distinct) holds'
    refine ⟨t',levels'',?_,?_⟩
    · rw [MemTable.addAll,List.foldlM_cons,added]
      exact rest
    · rw [List.append_cons]
      exact holds''

/-- The calls in the order of their entries. -/
theorem exists_calls {t : MemTable} {levels : Nat → List Nat} {calls : List Add} (fits : ∀ a ∈ calls, a.Fits)
    (holds : SkipList.Holds (keyRank userRank) t.table levels (calls.map Add.encode)) {entries : List (Nat × Bytes)}
    (keyed : t.table.Keyed (levels 0) entries) :
    ∃ cs : List Add, entries.map Prod.snd = cs.map Add.encode ∧ (∀ c ∈ cs, c ∈ calls) ∧
      (∀ c ∈ calls, ∃ c' ∈ cs, c'.encode = c.encode) ∧ cs.Pairwise fun a b => (a.entry userRank).key < (b.entry userRank).key := by
  have placed := keyed.place_eq holds.layered
  have known : ∀ e ∈ entries, ∃ c ∈ calls, c.encode = e.2 := by
    intro e member
    apply List.mem_map.mp
    apply (holds.content e.2).mp
    refine ⟨e.1,?_,(placed e member).1,keyed.keys e member⟩
    rw [keyed.nodes]
    exact List.mem_cons_of_mem _ (List.mem_map_of_mem member)
  have : Nonempty Add := ⟨⟨0,.value,[],[],1⟩⟩
  choose! call inside encodes using known
  have same : entries.map Prod.snd = (entries.map call).map Add.encode := by
    rw [List.map_map]
    exact List.map_congr_left fun e member => (encodes e member).symm
  have within : ∀ c ∈ entries.map call, c ∈ calls := by
    intro c member
    obtain ⟨e,there,rfl⟩ := List.mem_map.mp member
    exact inside e there
  refine ⟨entries.map call,same,within,?_,?_⟩
  · intro c member
    obtain ⟨x,on,other,has⟩ := (holds.content c.encode).mpr (List.mem_map_of_mem member)
    rw [keyed.nodes] at on
    obtain ⟨e,there,rfl⟩ := List.mem_map.mp ((List.mem_cons.mp on).resolve_left other)
    refine ⟨call e,List.mem_map_of_mem there,?_⟩
    rw [encodes e there]
    exact Option.some.inj ((keyed.keys e there).symm.trans has)
  · rw [List.pairwise_map]
    apply (keyed.sorted holds.layered).imp_of_mem
    intro e e' first second less
    rw [← encodes e first,← encodes e' second,keyRank_entry (fits _ (inside e first)),keyRank_entry (fits _ (inside e' second))] at less
    exact less

/-- The memtable in its bytes reads as the sorted list of the entries that were added. -/
theorem MemTable.get_eq {t : MemTable} {levels : Nat → List Nat} {calls : List Add} (fits : ∀ a ∈ calls, a.Fits)
    (distinct : (calls.map Add.sequence).Nodup)
    (holds : SkipList.Holds (keyRank userRank) t.table levels (calls.map Add.encode)) {userKey : Bytes} {sequence : Nat}
    (small : userKey.length < 2^32 - 8) (most : sequence ≤ kMaxSequenceNumber) :
    t.get userRank userKey sequence =
      some (getFrom ((calls.map (Add.entry userRank)).foldl LevelDB.MemTable.add []) (userRank userKey) sequence) := by
  obtain ⟨entries,keyed⟩ := holds.layered.keyed 0
  obtain ⟨cs,same,within,all,sorted⟩ := exists_calls fits holds keyed
  have list : (calls.map (Add.entry userRank)).foldl LevelDB.MemTable.add [] = cs.map (Add.entry userRank) := by
    obtain ⟨ordered,known⟩ := entries_spec userRank distinct
    have : Std.Antisymm fun a b : Entry U Bytes => a.key < b.key := ⟨fun _ _ less more => absurd (less.trans more) (lt_irrefl _)⟩
    have : Std.Irrefl fun a b : Entry U Bytes => a.key < b.key := ⟨fun _ => lt_irrefl _⟩
    apply List.Pairwise.eq_of_mem_iff ordered (List.pairwise_map.mpr sorted)
    intro e
    rw [known,List.mem_map]
    constructor
    · rintro ⟨c,member,rfl⟩
      obtain ⟨c',there,equal⟩ := all c member
      obtain rfl := eq_of_keyRank userRank fits distinct (within c' there) member (congrArg _ equal)
      exact ⟨c',there,rfl⟩
    · rintro ⟨c,member,rfl⟩
      exact ⟨c,within c member,rfl⟩
  have found : t.get userRank userKey sequence =
      ((entries.find? fun e => keyRank userRank (memtableKey userKey sequence) ≤ keyRank userRank e.2).map Prod.snd).elim
        (some .notFound) (readEntry userRank userKey) := by
    rw [MemTable.get,(holds.layered.answers keyed).seek,Option.bind_some]
    cases hit : entries.find? fun e => decide (keyRank userRank (memtableKey userKey sequence) ≤ keyRank userRank e.2) with
    | none => rfl
    | some e =>
      simp only [Option.map_some,Option.elim_some,keyed.keys e (List.mem_of_find?_eq_some hit),Option.bind_some]
  have moved : (entries.find? fun e => keyRank userRank (memtableKey userKey sequence) ≤ keyRank userRank e.2).map Prod.snd =
      (cs.find? fun c => lookupKey (userRank userKey) sequence ≤ (c.entry userRank).key).map Add.encode := by
    have through := List.find?_map (f := Prod.snd) (l := entries)
      (p := fun k => decide (keyRank userRank (memtableKey userKey sequence) ≤ keyRank userRank k))
    rw [same,List.find?_map] at through
    apply Eq.trans through.symm
    apply congrArg (Option.map Add.encode)
    apply List.find?_congr
    intro c member
    simp only [Function.comp_apply,keyRank_lookupKey small most,keyRank_entry (fits c (within c member)),decide_eq_decide]
    exact Iff.rfl
  rw [found,moved,list,getFrom,LevelDB.seek,List.find?_map]
  cases hit : cs.find? fun c => decide (lookupKey (userRank userKey) sequence ≤ (c.entry userRank).key) with
  | none =>
    have none : cs.find? ((fun e => decide (lookupKey (userRank userKey) sequence ≤ e.key)) ∘ Add.entry userRank) = none := hit
    rw [none]
    rfl
  | some c =>
    have some : cs.find? ((fun e => decide (lookupKey (userRank userKey) sequence ≤ e.key)) ∘ Add.entry userRank) = some c := hit
    rw [some]
    exact readEntry_encode (fits c (within c (List.mem_of_find?_eq_some hit))) userKey

end Reads

/-- A read returns the newest entry of the key that its sequence number can see, whatever the
order of the keys and the heights of the nodes. -/
theorem memtable_lookup [LinearOrder U] (userRank : Bytes → U) (calls : List Add) (fits : ∀ a ∈ calls, a.Fits)
    (distinct : (calls.map Add.sequence).Nodup) :
    ∃ t, MemTable.new.addAll userRank calls = some t ∧
      ∀ userKey : Bytes, userKey.length < 2^32 - 8 → ∀ sequence ≤ kMaxSequenceNumber,
        (∀ a ∈ calls, userRank a.key = userRank userKey → a.sequence ≤ sequence →
          (∀ b ∈ calls, userRank b.key = userRank userKey → b.sequence ≤ sequence → b.sequence ≤ a.sequence) →
          t.get userRank userKey sequence = some a.answer) ∧
        ((∀ a ∈ calls, userRank a.key = userRank userKey → ¬a.sequence ≤ sequence) →
          t.get userRank userKey sequence = some .notFound) := by
  have start : SkipList.Holds (keyRank userRank) MemTable.new.table (fun _ => [SkipList.head]) (([] : List Add).map Add.encode) :=
    SkipList.holds_new []
  obtain ⟨t,levels,added,holds⟩ := addAll_holds [] calls fits distinct start
  refine ⟨t,added,?_⟩
  intro userKey small sequence most
  have reads := MemTable.get_eq fits distinct holds small most
  obtain ⟨ordered,known⟩ := entries_spec userRank distinct
  have finds := getFrom_finds _ ordered.ordered (userRank userKey) sequence
  constructor
  · intro a member same visible newest
    have here := (known _).mpr ⟨a,member,rfl⟩
    rcases finds with ⟨e,first,state⟩ | ⟨absent,-⟩
    · obtain ⟨b,member',rfl⟩ := (known e).mp first.newest.member
      have above : a.sequence ≤ b.sequence := first.newest.newest _ here same visible
      have below := newest b member' first.newest.same first.newest.visible
      obtain rfl := List.inj_on_of_nodup_map distinct member member' (Nat.le_antisymm above below)
      rw [reads,state,Add.value_entry]
    · exact absurd visible (absent _ here same)
  · intro absent
    rcases finds with ⟨e,first,-⟩ | ⟨-,state⟩
    · obtain ⟨b,member,rfl⟩ := (known e).mp first.newest.member
      exact absurd first.newest.visible (absent b member first.newest.same)
    · rw [reads,state]

/-- One key is a prefix of the other, and the snapshots lie on the numbers. -/
def prefixCalls : List Add := [⟨5,.value,[97],[1],3⟩,⟨7,.deletion,[97,98],[],1⟩,⟨9,.value,[97],[2],12⟩,⟨6,.value,[97,98],[3],2⟩]

theorem memtable_lookup_boundary : ∃ t, MemTable.new.addAll Sstable.bytewise prefixCalls = some t ∧
    t.get Sstable.bytewise [97] 8 = some (.found [1]) ∧ t.get Sstable.bytewise [97,98] 7 = some .deleted ∧
    t.get Sstable.bytewise [97] 4 = some .notFound := by
  have fits : ∀ a ∈ prefixCalls, a.Fits := by
    intro a member
    simp only [prefixCalls,List.mem_cons,List.not_mem_nil,or_false] at member
    rcases member with rfl | rfl | rfl | rfl <;> constructor <;> decide
  obtain ⟨t,added,reads⟩ := memtable_lookup Sstable.bytewise prefixCalls fits (by decide)
  refine ⟨t,added,?_,?_,?_⟩
  · exact (reads [97] (by decide) 8 (by decide)).1 ⟨5,.value,[97],[1],3⟩ (by simp [prefixCalls]) rfl (by decide)
      (by simp [prefixCalls,Sstable.bytewise])
  · exact (reads [97,98] (by decide) 7 (by decide)).1 ⟨7,.deletion,[97,98],[],1⟩ (by simp [prefixCalls]) rfl (by decide)
      (by simp [prefixCalls,Sstable.bytewise])
  · exact (reads [97] (by decide) 4 (by decide)).2 (by simp [prefixCalls,Sstable.bytewise])

end LevelDB.Encoded
