import LevelDB.Block
import Mathlib.Data.List.Lex
import LevelDB.Cursor

/-! A block read back. Its layout names the entries with the bytes each one shares with the
one before, and the entries that are restart points; the iterator is a cursor over them. -/
namespace LevelDB.Sstable

theorem length_putFixed32 (v : Nat) : (putFixed32 v).length = 4 := rfl

theorem decodeFixed32_putFixed32 {v : Nat} (small : v < 2^32) (tail : Bytes) :
    (decodeFixed32 (putFixed32 v ++ tail)).toNat = v := by
  rw [putFixed32,decodeFixed32_encodeFixed32,BitVec.toNat_ofNat,Nat.mod_eq_of_lt small]

theorem encodeVarint32_small {v : Nat} (small : v < 128) : encodeVarint32 v = [UInt8.ofNat v] := by
  simp [encodeVarint32,small]

/-- A longer varint shows it in its first byte. -/
theorem encodeVarint32_large {v : Nat} (large : 128 ≤ v) :
    ∃ byte rest, encodeVarint32 v = byte :: rest ∧ 128 ≤ byte.toNat := by
  have high : 128 ≤ (UInt8.ofNat (v ||| 128)).toNat := by
    rw [toNat_or_128]
    omega
  simp only [encodeVarint32]
  rw [if_neg (by omega)]
  split
  · exact ⟨_,_,rfl,high⟩
  · split
    · exact ⟨_,_,rfl,high⟩
    · split
      · exact ⟨_,_,rfl,high⟩
      · exact ⟨_,_,rfl,high⟩

theorem encodeVarint32_ne_nil (v : Nat) : encodeVarint32 v ≠ [] := by
  by_cases small : v < 128
  · simp [encodeVarint32_small small]
  · obtain ⟨byte,rest,same,_⟩ := encodeVarint32_large (not_lt.mp small)
    simp [same]

theorem length_encodeEntry (shared : Nat) (key value : Bytes) :
    3 + (key.length - shared) + value.length ≤ (encodeEntry shared key value).length := by
  have one := List.length_pos_of_ne_nil (encodeVarint32_ne_nil shared)
  have two := List.length_pos_of_ne_nil (encodeVarint32_ne_nil (key.length - shared))
  have three := List.length_pos_of_ne_nil (encodeVarint32_ne_nil value.length)
  simp only [encodeEntry,List.length_append,List.length_drop]
  omega

theorem toNat_ofNat_small {v : Nat} (small : v < 128) : (UInt8.ofNat v).toNat = v := by
  rw [UInt8.toNat_ofNat',Nat.mod_eq_of_lt (by omega)]

theorem decodeLengths_encode {a b c : Nat} (first : a < 2^32) (second : b < 2^32) (third : c < 2^32) (tail : Bytes) :
    decodeLengths (encodeVarint32 a ++ (encodeVarint32 b ++ (encodeVarint32 c ++ tail))) = some (a,b,c,tail) := by
  have slow : (getVarint32 (encodeVarint32 a ++ (encodeVarint32 b ++ (encodeVarint32 c ++ tail)))).bind (fun first =>
      (getVarint32 first.2).bind fun second =>
        (getVarint32 second.2).map fun third => (first.1,second.1,third.1,third.2)) = some (a,b,c,tail) := by
    simp only [getVarint32_encode _ first,getVarint32_encode _ second,getVarint32_encode _ third,Option.bind_some,
      Option.map_some]
  by_cases small : a < 128
  · by_cases small' : b < 128
    · by_cases small'' : c < 128
      · have fast : a ||| b ||| c < 128 := Nat.or_lt_two_pow (n := 7) (Nat.or_lt_two_pow small small') small''
        simp only [decodeLengths,encodeVarint32_small small,encodeVarint32_small small',encodeVarint32_small small'',
          List.cons_append,List.nil_append,List.getD_cons_zero,List.getD_cons_succ,toNat_ofNat_small small,
          toNat_ofNat_small small',toNat_ofNat_small small'']
        rw [if_pos fast]
        rfl
      · obtain ⟨byte,rest,same,high⟩ := encodeVarint32_large (not_lt.mp small'')
        rw [decodeLengths,if_neg]
        · exact slow
        · simp only [encodeVarint32_small small,encodeVarint32_small small',same,List.cons_append,List.nil_append,
            List.getD_cons_zero,List.getD_cons_succ,not_lt]
          exact le_trans high Nat.right_le_or
    · obtain ⟨byte,rest,same,high⟩ := encodeVarint32_large (not_lt.mp small')
      rw [decodeLengths,if_neg]
      · exact slow
      · simp only [encodeVarint32_small small,same,List.cons_append,List.nil_append,List.getD_cons_zero,
          List.getD_cons_succ,not_lt]
        exact le_trans high (le_trans Nat.right_le_or Nat.left_le_or)
  · obtain ⟨byte,rest,same,high⟩ := encodeVarint32_large (not_lt.mp small)
    rw [decodeLengths,if_neg]
    · exact slow
    · simp only [same,List.cons_append,List.getD_cons_zero,not_lt]
      exact le_trans high (le_trans Nat.left_le_or Nat.left_le_or)

theorem decodeEntry_encodeEntry {shared : Nat} {key value tail : Bytes} (low : shared < 2^32)
    (small : (encodeEntry shared key value ++ tail).length < 2^32) :
    decodeEntry (encodeEntry shared key value ++ tail) =
      some (shared,key.length - shared,value.length,key.drop shared ++ (value ++ tail)) := by
  have long := length_encodeEntry shared key value
  rw [List.length_append] at small
  have lengths : decodeLengths (encodeEntry shared key value ++ tail) =
      some (shared,key.length - shared,value.length,key.drop shared ++ (value ++ tail)) := by
    rw [encodeEntry]
    simp only [List.append_assoc]
    exact decodeLengths_encode low (by omega) (by omega) _
  rw [decodeEntry,if_neg (by rw [List.length_append]; omega)]
  rw [lengths,Option.filter_some,if_pos]
  simp only [List.length_append,List.length_drop,Bool.not_eq_true',decide_eq_false_iff_not,not_lt]
  rw [Nat.mod_eq_of_lt (by omega),Nat.mod_eq_of_lt (by omega)]
  omega

/-- The entries of a block, each with the number of bytes it shares, and the restart points
among them. -/
structure BlockLayout where
  items : List (Nat × Bytes × Bytes)
  restarts : List Nat

namespace BlockLayout

def code (item : Nat × Bytes × Bytes) : Bytes := encodeEntry item.1 item.2.1 item.2.2

def entries (l : BlockLayout) : List (Bytes × Bytes) := l.items.map Prod.snd

def start (l : BlockLayout) (i : Nat) : Nat := ((l.items.take i).flatMap code).length

def body (l : BlockLayout) : Bytes := l.items.flatMap code

def bytes (l : BlockLayout) : Bytes :=
  l.body ++ (l.restarts.map l.start).flatMap putFixed32 ++ putFixed32 l.restarts.length

structure Shape (l : BlockLayout) : Prop where
  zero : l.restarts[0]? = some 0
  inside : ∀ k r, l.restarts[k]? = some r → k = 0 ∨ r < l.items.length
  whole : ∀ r ∈ l.restarts, ∀ item, l.items[r]? = some item → item.1 = 0
  follows : ∀ i item next, l.items[i]? = some item → l.items[i + 1]? = some next →
    next.1 ≤ item.2.1.length ∧ item.2.1.take next.1 = next.2.1.take next.1

/-- Offsets have 32 bits. -/
structure Ok (l : BlockLayout) : Prop extends l.Shape where
  small : l.bytes.length < 2^32

variable {l : BlockLayout} {i : Nat} {item : Nat × Bytes × Bytes}

theorem length_entries (l : BlockLayout) : l.entries.length = l.items.length := List.length_map _

theorem getElem_entries (here : l.items[i]? = some item) : l.entries[i]? = some item.2 := by
  rw [entries,List.getElem?_map,here]
  rfl

theorem start_zero : l.start 0 = 0 := rfl

theorem start_length : l.start l.items.length = l.body.length := by
  rw [start,List.take_length,body]

theorem length_items (l : BlockLayout) (here : l.items[i]? = some item) : i < l.items.length :=
  (List.getElem?_eq_some_iff.mp here).1

/-- The bytes before an entry, the entry and the bytes behind it. -/
theorem body_split (here : l.items[i]? = some item) :
    l.body = (l.items.take i).flatMap code ++ (code item ++ (l.items.drop (i + 1)).flatMap code) := by
  obtain ⟨inside,same⟩ := List.getElem?_eq_some_iff.mp here
  have drop : l.items.drop i = item :: l.items.drop (i + 1) := by rw [List.drop_eq_getElem_cons inside,same]
  rw [← List.flatMap_cons,← drop,← List.flatMap_append,List.take_append_drop]
  rfl

theorem start_succ (here : l.items[i]? = some item) : l.start (i + 1) = l.start i + (code item).length := by
  simp [start,List.take_add_one,here]

theorem start_lt_succ (here : l.items[i]? = some item) : l.start i + 3 ≤ l.start (i + 1) := by
  have long := length_encodeEntry item.1 item.2.1 item.2.2
  have next := start_succ here
  rw [code] at next
  omega

theorem start_mono {i j : Nat} (order : i ≤ j) : l.start i ≤ l.start j := by
  induction order with
  | refl => exact le_refl _
  | @step j _ ih =>
    refine ih.trans ?_
    rw [start,start,List.take_add_one,List.flatMap_append,List.length_append]
    exact Nat.le_add_right _ _

theorem getElem_items (inside : i < l.items.length) : ∃ item, l.items[i]? = some item :=
  ⟨_,List.getElem?_eq_getElem inside⟩

theorem start_strict {i j : Nat} (order : i < j) (inside : j ≤ l.items.length) : l.start i < l.start j := by
  obtain ⟨item,here⟩ := getElem_items (lt_of_lt_of_le order inside)
  have one := start_lt_succ here
  have rest : l.start (i + 1) ≤ l.start j := start_mono order
  omega

theorem start_le_body {i : Nat} (inside : i ≤ l.items.length) : l.start i ≤ l.body.length := by
  rw [← start_length]
  exact start_mono inside

theorem le_start {i : Nat} (inside : i ≤ l.items.length) : i ≤ l.start i := by
  induction i with
  | zero => exact Nat.zero_le _
  | succ i ih =>
    have before := ih (by omega)
    have next : l.start i < l.start (i + 1) := start_strict (Nat.lt_succ_self i) inside
    omega

theorem length_le_body (l : BlockLayout) : l.items.length ≤ l.body.length := by
  rw [← start_length]
  exact le_start (le_refl _)

theorem length_flatMap_putFixed32 (points : List Nat) : (points.flatMap putFixed32).length = 4 * points.length := by
  simp [List.length_flatMap,length_putFixed32,Nat.mul_comm]

theorem length_bytes (l : BlockLayout) : l.bytes.length = l.body.length + 4 * l.restarts.length + 4 := by
  rw [bytes,List.length_append,List.length_append,length_flatMap_putFixed32,length_putFixed32,List.length_map]

theorem Shape.mem_zero (ok : l.Shape) : 0 ∈ l.restarts := List.mem_of_getElem? ok.zero

theorem Shape.le_length (ok : l.Shape) {r : Nat} (restart : r ∈ l.restarts) : r ≤ l.items.length := by
  obtain ⟨k,here⟩ := List.getElem?_of_mem restart
  rcases ok.inside k r here with rfl | inside
  · obtain rfl := Option.some.inj (ok.zero.symm.trans here)
    exact Nat.zero_le _
  · exact le_of_lt inside

/-- Keys are no longer than the bytes of the block so far. -/
theorem Shape.length_key (ok : l.Shape) (here : l.items[i]? = some item) : item.2.1.length ≤ l.start (i + 1) := by
  have long := length_encodeEntry item.1 item.2.1 item.2.2
  have next := start_succ here
  rw [code] at next
  induction i generalizing item with
  | zero =>
    have whole := ok.whole 0 ok.mem_zero item here
    omega
  | succ i ih =>
    obtain ⟨before,there⟩ := getElem_items (l := l) (i := i) (by have := length_items l here; omega)
    have shared := (ok.follows i before item there here).1
    have short := ih there (length_encodeEntry _ _ _) (start_succ there)
    omega

/-- A fixed number of an array of them. -/
theorem drop_flatMap_putFixed32 {points : List Nat} {k v : Nat} (here : points[k]? = some v) (tail : Bytes) :
    (points.flatMap putFixed32 ++ tail).drop (k * 4) = putFixed32 v ++ ((points.drop (k + 1)).flatMap putFixed32 ++ tail) := by
  induction points generalizing k with
  | nil => cases here
  | cons a points ih =>
    cases k with
    | zero =>
      obtain rfl : a = v := Option.some.inj here
      simp
    | succ k =>
      have next := ih here
      rw [List.flatMap_cons,List.append_assoc,Nat.succ_mul,Nat.add_comm,← List.drop_drop]
      exact next

end BlockLayout

open BlockLayout

namespace BlockIter

/-- The iterator is over this block. -/
structure On (l : BlockLayout) (s : BlockIter) : Prop where
  data : s.data = l.bytes
  restarts : s.restarts = l.body.length
  num : s.numRestarts = l.restarts.length
  fine : s.status = none

/-- The next entry to parse is the `i`th. -/
structure Before (l : BlockLayout) (s : BlockIter) (i : Nat) : Prop where
  on : On l s
  inside : i ≤ l.items.length
  offset : s.nextEntryOffset = l.start i
  restart : ∃ r, l.restarts[s.restartIndex]? = some r ∧ r ≤ i
  shares : ∀ item, l.items[i]? = some item → item.1 ≤ s.key.length ∧ s.key.take item.1 = item.2.1.take item.1

inductive At (l : BlockLayout) : BlockIter → Nat → Prop
  | entry {s : BlockIter} {i r : Nat} {item : Nat × Bytes × Bytes} (on : On l s) (here : l.items[i]? = some item)
      (current : s.current = l.start i) (key : s.key = item.2.1) (value : s.value = item.2.2)
      (offset : s.nextEntryOffset = l.start (i + 1)) (restart : l.restarts[s.restartIndex]? = some r) (low : r ≤ i) : At l s i
  | spent {s : BlockIter} (on : On l s) (current : s.current = l.body.length) : At l s l.items.length

variable {l : BlockLayout} {s : BlockIter} {i : Nat}

theorem At.on (stands : At l s i) : On l s := by
  cases stands with
  | entry on _ _ _ _ _ _ _ => exact on
  | spent on _ => exact on

theorem new_at (l : BlockLayout) : At l (new l.bytes l.body.length l.restarts.length) l.items.length :=
  .spent ⟨rfl,rfl,rfl,rfl⟩ rfl

theorem On.getRestartPoint (on : On l s) (ok : l.Ok) {k r : Nat} (here : l.restarts[k]? = some r) :
    s.getRestartPoint k = l.start r := by
  have point : (l.restarts.map l.start)[k]? = some (l.start r) := by rw [List.getElem?_map,here]; rfl
  have small := ok.small
  have low : l.start r ≤ l.body.length := start_le_body (ok.le_length (List.mem_of_getElem? here))
  rw [length_bytes] at small
  rw [BlockIter.getRestartPoint,on.data,on.restarts,bytes,List.append_assoc,List.drop_append,List.drop_eq_nil_of_le (by omega),
    List.nil_append,Nat.add_sub_cancel_left,drop_flatMap_putFixed32 point]
  exact decodeFixed32_putFixed32 (by omega) _

/-- At a restart point the key is stored whole. -/
theorem On.seekToRestartPoint (on : On l s) (ok : l.Ok) {k r : Nat} (here : l.restarts[k]? = some r) :
    Before l (s.seekToRestartPoint k) r := by
  have member := List.mem_of_getElem? here
  have small := ok.small
  have low : l.start r ≤ l.body.length := start_le_body (ok.le_length member)
  rw [length_bytes] at small
  refine ⟨⟨on.data,on.restarts,on.num,on.fine⟩,ok.le_length member,?_,⟨r,here,le_refl r⟩,?_⟩
  · show (s.getRestartPoint k + 0) % 2^32 = _
    rw [on.getRestartPoint ok here,Nat.add_zero,Nat.mod_eq_of_lt (by omega)]
  · intro item there
    rw [ok.whole r member item there]
    exact ⟨Nat.zero_le _,rfl⟩

/-- From an entry on, the next one is behind it. -/
theorem At.before (stands : At l s i) (ok : l.Ok) (inside : i < l.items.length) : Before l s (i + 1) := by
  cases stands with
  | @entry _ r item on here current key value offset restart low =>
    refine ⟨on,inside,offset,⟨r,restart,by omega⟩,?_⟩
    intro next there
    rw [key]
    exact ok.follows i item next here there
  | spent on current => exact absurd inside (lt_irrefl _)

theorem On.advanceRestart (on : On l s) (ok : l.Ok) (current : s.current = l.start i) (fuel : Nat) {k : Nat}
    (restart : ∃ r, l.restarts[k]? = some r ∧ r ≤ i) :
    ∃ r, l.restarts[s.advanceRestart fuel k]? = some r ∧ r ≤ i := by
  induction fuel generalizing k with
  | zero => exact restart
  | succ fuel ih =>
    rw [BlockIter.advanceRestart]
    split
    · rename_i more
      apply ih
      have there : k + 1 < l.restarts.length := on.num ▸ more.1
      have point := on.getRestartPoint ok (List.getElem?_eq_getElem there)
      refine ⟨_,List.getElem?_eq_getElem there,?_⟩
      by_contra after
      have order : l.start i ≤ l.start l.restarts[k + 1] := start_mono (by omega)
      omega
    · exact restart

theorem On.limit (on : On l s) : s.data.take s.restarts = l.body := by
  rw [on.data,on.restarts,bytes,List.append_assoc,List.take_left]

/-- The entry at an offset, as `DecodeEntry` finds it. -/
theorem On.decodeEntry (on : On l s) (ok : l.Ok) {item : Nat × Bytes × Bytes} (here : l.items[i]? = some item) :
    decodeEntry ((s.data.take s.restarts).drop (l.start i)) = some (item.1,item.2.1.length - item.1,item.2.2.length,
      item.2.1.drop item.1 ++ (item.2.2 ++ (l.items.drop (i + 1)).flatMap code)) := by
  have small := ok.small
  have split := body_split here
  have shared : item.1 ≤ l.start i := by
    cases i with
    | zero => exact le_of_eq (ok.whole 0 ok.mem_zero item here)
    | succ i =>
      obtain ⟨before,there⟩ := getElem_items (l := l) (i := i) (by have := length_items l here; omega)
      exact le_trans (ok.follows i before item there here).1 (ok.length_key there)
  have low := start_le_body (le_of_lt (length_items l here))
  have total := congrArg List.length split
  rw [length_bytes] at small
  rw [List.length_append] at total
  rw [on.limit,split,start,List.drop_left]
  exact decodeEntry_encodeEntry (by omega) (by rw [← code]; omega)

/-- Where the value of an entry stands in the block. -/
theorem value_region {item : Nat × Bytes × Bytes} (here : l.items[i]? = some item) : ∃ front back,
    l.bytes = front ++ (item.2.2 ++ back) ∧ front.length + item.2.2.length = l.start (i + 1) ∧
    l.body.length - (item.2.1.drop item.1 ++ (item.2.2 ++ (l.items.drop (i + 1)).flatMap code)).length +
      (item.2.1.length - item.1) = front.length := by
  have split := body_split here
  have total := congrArg List.length split
  refine ⟨(l.items.take i).flatMap code ++ (encodeVarint32 item.1 ++ encodeVarint32 (item.2.1.length - item.1) ++
    encodeVarint32 item.2.2.length ++ item.2.1.drop item.1),(l.items.drop (i + 1)).flatMap code ++
    ((l.restarts.map l.start).flatMap putFixed32 ++ putFixed32 l.restarts.length),?_,?_,?_⟩
  · rw [bytes,split]
    simp only [code,encodeEntry,List.append_assoc]
  · rw [start_succ here,start]
    simp only [code,encodeEntry,List.length_append]
    omega
  · simp only [code,encodeEntry,List.length_append,List.length_drop] at total ⊢
    omega

theorem parseNextKey_over (before : Before l s l.items.length) :
    ∃ s', s.parseNextKey = (false,s') ∧ At l s' l.items.length := by
  have offset : s.nextEntryOffset = l.body.length := before.offset.trans start_length
  have on := before.on
  refine ⟨{ s with current := s.restarts, restartIndex := s.numRestarts },?_,.spent ⟨on.data,on.restarts,on.num,on.fine⟩ on.restarts⟩
  simp only [parseNextKey,offset,on.restarts,le_refl,if_true]

theorem parseNextKey_entry (before : Before l s i) (ok : l.Ok) (inside : i < l.items.length) :
    ∃ s', s.parseNextKey = (true,s') ∧ At l s' i := by
  obtain ⟨item,here⟩ := getElem_items inside
  have on := before.on
  have offset := before.offset
  obtain ⟨enough,prefix_⟩ := before.shares item here
  have low : l.start i < l.body.length := start_length (l := l) ▸ start_strict inside (le_refl _)
  have decoded := on.decodeEntry ok here
  obtain ⟨front,back,region,behind,place⟩ := value_region here
  have small := ok.small
  have ends : l.start (i + 1) ≤ l.body.length := start_le_body inside
  obtain ⟨r,restart,order⟩ := On.advanceRestart (s := { s with current := l.start i }) (l := l) ⟨on.data,on.restarts,on.num,on.fine⟩ ok
    rfl s.numRestarts before.restart
  rw [length_bytes] at small
  have key : s.key.take item.1 ++ (item.2.1.drop item.1 ++ (item.2.2 ++ (l.items.drop (i + 1)).flatMap code)).take
      (item.2.1.length - item.1) = item.2.1 := by
    rw [prefix_,List.take_left' List.length_drop,List.take_append_drop]
  have parsed : s.parseNextKey = (true,{ s with
      current := l.start i
      key := item.2.1
      valueOffset := front.length
      valueSize := item.2.2.length
      restartIndex := BlockIter.advanceRestart { s with current := l.start i } s.numRestarts s.restartIndex }) := by
    simp only [parseNextKey,offset]
    rw [if_neg (by rw [on.restarts]; omega),decoded]
    simp only [if_neg (not_lt.mpr enough),key]
    rw [on.restarts,place]
  refine ⟨_,parsed,.entry ⟨on.data,on.restarts,on.num,on.fine⟩ here rfl rfl ?_ ?_ restart order⟩
  · show (s.data.drop front.length).take item.2.2.length = _
    rw [on.data,region,List.drop_left,List.take_left]
  · show (front.length + item.2.2.length) % 2^32 = _
    rw [behind,Nat.mod_eq_of_lt (by omega)]

theorem parseNextKey_at (before : Before l s i) (ok : l.Ok) :
    ∃ s', s.parseNextKey = (decide (i < l.items.length),s') ∧ At l s' i := by
  by_cases inside : i < l.items.length
  · rw [decide_eq_true inside]
    exact parseNextKey_entry before ok inside
  · obtain rfl : i = l.items.length := le_antisymm before.inside (not_lt.mp inside)
    rw [decide_eq_false inside]
    exact parseNextKey_over before

theorem At.offset (stands : At l s i) (ok : l.Ok) (inside : i < l.items.length) : s.nextEntryOffset = l.start (i + 1) :=
  (stands.before ok inside).offset

theorem At.current (stands : At l s i) : s.current = l.start i := by
  cases stands with
  | entry _ _ current _ _ _ _ _ => exact current
  | spent _ current => exact current.trans start_length.symm

/-- Entry after entry, up to the one that ends at the limit. -/
theorem parseUntil_at (ok : l.Ok) {j : Nat} (order : i < j) (inside : j ≤ l.items.length) (before : Before l s i) {fuel : Nat}
    (enough : j - i ≤ fuel) : At l (parseUntil (l.start j) fuel s) (j - 1) := by
  induction fuel generalizing s i with
  | zero => omega
  | succ fuel ih =>
    obtain ⟨s',parsed,stands⟩ := parseNextKey_entry before ok (by omega)
    simp only [parseUntil,parsed,Bool.true_and,decide_eq_true_eq,stands.offset ok (show i < l.items.length by omega)]
    by_cases last : i + 1 = j
    · subst last
      rw [if_neg (lt_irrefl _)]
      exact stands
    · have more : i + 1 < j := by omega
      rw [if_pos (start_strict more inside)]
      exact ih more (stands.before ok (by omega)) (by omega)

/-- `Prev` finds a restart point before the entry, unless it is the first. -/
theorem On.restartBefore (on : On l s) (ok : l.Ok) (inside : i ≤ l.items.length) {k : Nat} (there : k < l.restarts.length) :
    (i = 0 ∧ s.restartBefore (l.start i) k = none) ∨
      ∃ m r, s.restartBefore (l.start i) k = some m ∧ l.restarts[m]? = some r ∧ r < i := by
  induction k with
  | zero =>
    have point := on.getRestartPoint ok ok.zero
    rw [start_zero] at point
    rw [BlockIter.restartBefore,point]
    rcases Nat.eq_zero_or_pos i with rfl | pos
    · exact .inl ⟨rfl,if_pos (le_of_eq start_zero)⟩
    · have low : l.start 0 < l.start i := start_strict pos inside
      rw [start_zero] at low
      exact .inr ⟨0,0,if_neg (by omega),ok.zero,pos⟩
  | succ k ih =>
    have here := List.getElem?_eq_getElem there
    rw [BlockIter.restartBefore,on.getRestartPoint ok here]
    by_cases after : l.start i ≤ l.start l.restarts[k + 1]
    · rw [if_pos after]
      exact ih (by omega)
    · rw [if_neg after]
      refine .inr ⟨k + 1,_,rfl,here,?_⟩
      by_contra order
      exact after (start_mono (by omega))

theorem On.length_data (on : On l s) : l.items.length < s.data.length := by
  have low := length_le_body l
  rw [on.data,length_bytes]
  omega

theorem seekToFirst_at (on : On l s) (ok : l.Ok) : At l s.seekToFirst 0 := by
  obtain ⟨s',parsed,stands⟩ := parseNextKey_at (on.seekToRestartPoint ok ok.zero) ok
  rw [seekToFirst,parsed]
  exact stands

theorem seekToLast_at (on : On l s) (ok : l.Ok) : At l s.seekToLast (l.items.length - 1) := by
  have several : 0 < l.restarts.length := (List.getElem?_eq_some_iff.mp ok.zero).1
  obtain ⟨r,here⟩ : ∃ r, l.restarts[s.numRestarts - 1]? = some r :=
    ⟨_,List.getElem?_eq_getElem (by rw [on.num]; omega)⟩
  have before := on.seekToRestartPoint ok here
  have fuel := on.length_data
  rw [seekToLast,on.restarts,← start_length]
  by_cases inside : r < l.items.length
  · exact parseUntil_at ok inside (le_refl _) before (by omega)
  · have bound := ok.le_length (List.mem_of_getElem? here)
    have empty : l.items.length = 0 := by
      rcases ok.inside _ r here with first | low
      · rw [first] at here
        obtain rfl := Option.some.inj (ok.zero.symm.trans here)
        omega
      · exact absurd low inside
    obtain ⟨s',parsed,stands⟩ := parseNextKey_at before ok
    obtain ⟨n,same⟩ : ∃ n, s.data.length = n + 1 := ⟨s.data.length - 1,by omega⟩
    rw [same,parseUntil,parsed,decide_eq_false inside]
    obtain rfl : r = l.items.length - 1 := by omega
    exact stands

theorem prev_at (stands : At l s i) (ok : l.Ok) (inside : i < l.items.length) :
    At l s.prev (if i = 0 then l.items.length else i - 1) := by
  have on := stands.on
  have fuel := on.length_data
  obtain ⟨r,restart,_⟩ := (stands.before ok inside).restart
  rw [prev,stands.current]
  rcases on.restartBefore ok (le_of_lt inside) (List.getElem?_eq_some_iff.mp restart).1 with ⟨rfl,none⟩ | ⟨m,r,found,here,order⟩
  · rw [none,if_pos rfl]
    exact .spent ⟨on.data,on.restarts,on.num,on.fine⟩ on.restarts
  · rw [found,if_neg (by omega)]
    exact parseUntil_at ok order (le_of_lt inside) (on.seekToRestartPoint ok here) (by omega)

theorem At.valid (stands : At l s i) : s.valid = decide (i < l.items.length) := by
  rw [BlockIter.valid,stands.current,stands.on.restarts,← start_length]
  cases stands with
  | entry _ here _ _ _ _ _ _ =>
    have inside := length_items l here
    rw [decide_eq_true inside,decide_eq_true (start_strict inside (le_refl _))]
  | spent _ _ => rw [decide_eq_false (lt_irrefl _),decide_eq_false (lt_irrefl _)]

section Seek
variable {T : Type} [LinearOrder T] {rank : Bytes → T}

theorem At.shows (stands : At l s i) : (ops rank).current s = l.entries[i]? := by
  show (if s.valid then some (s.key,s.value) else none) = _
  rw [stands.valid]
  cases stands with
  | entry _ here _ key value _ _ _ =>
    rw [decide_eq_true (length_items l here),if_pos rfl,getElem_entries here,key,value]
  | spent _ _ =>
    rw [decide_eq_false (lt_irrefl _),← length_entries,List.getElem?_length]
    rfl

theorem searchKey_at (ok : l.Ok) {t : T} (before : Before l s i) (smaller : ∀ e ∈ l.entries.take i, rank e.1 < t) {fuel : Nat}
    (enough : l.items.length - i < fuel) :
    At l (searchKey rank t fuel s) (l.entries.findIdx fun e => !decide (rank e.1 < t)) := by
  induction fuel generalizing s i with
  | zero => omega
  | succ fuel ih =>
    obtain ⟨s',parsed,stands⟩ := parseNextKey_at before ok
    rw [searchKey,parsed]
    cases stands with
    | @entry _ r item on here current key value offset restart low =>
      have inside := length_items l here
      have entry := getElem_entries here
      simp only [decide_eq_true inside,Bool.true_and,decide_eq_true_eq,key]
      by_cases less : rank item.2.1 < t
      · rw [if_pos less]
        refine ih (At.before (.entry on here current key value offset restart low) ok inside) ?_ (by omega)
        intro e member
        rw [List.take_add_one,entry] at member
        rcases List.mem_append.mp member with earlier | last
        · exact smaller e earlier
        · obtain rfl := List.mem_singleton.mp last
          exact less
      · rw [if_neg less]
        have found : (l.entries.findIdx fun e => !decide (rank e.1 < t)) = i := by
          refine findIdx_eq (by rw [length_entries]; exact le_of_lt inside) smaller ?_
          intro e there
          obtain rfl := Option.some.inj (entry.symm.trans there)
          exact less
        rw [found]
        exact .entry on here current key value offset restart low
    | spent on current =>
      have found : (l.entries.findIdx fun e => !decide (rank e.1 < t)) = l.items.length := by
        refine findIdx_eq (le_of_eq (length_entries l).symm) smaller ?_
        intro e there
        rw [← length_entries,List.getElem?_length] at there
        cases there
      rw [found,decide_eq_false (lt_irrefl _)]
      exact .spent on current

/-- The binary search gives a restart point with a smaller key, or the one it started from. -/
theorem On.searchRestart (on : On l s) (ok : l.Ok) (rank : Bytes → T) (t : T) (fuel left right : Nat) (order : left ≤ right)
    (there : right < l.restarts.length) : ∃ m r, s.searchRestart rank t fuel left right = some m ∧ l.restarts[m]? = some r ∧
      (m = left ∨ ∃ e, l.entries[r]? = some e ∧ rank e.1 < t) := by
  induction fuel generalizing left right with
  | zero => exact ⟨left,_,rfl,List.getElem?_eq_getElem (by omega),.inl rfl⟩
  | succ fuel ih =>
    rw [BlockIter.searchRestart]
    by_cases more : left < right
    · rw [if_pos more]
      have here : l.restarts[(left + right + 1) / 2]? = some _ := List.getElem?_eq_getElem (by omega)
      have member := List.mem_of_getElem? here
      have inside : l.restarts[(left + right + 1) / 2] < l.items.length := (ok.inside _ _ here).resolve_left (by omega)
      obtain ⟨item,present⟩ := getElem_items inside
      have whole := ok.whole _ member item present
      simp only [on.getRestartPoint ok here,on.decodeEntry ok present,whole,ne_eq,not_true,if_false,Nat.sub_zero,List.drop_zero,
        List.take_left]
      by_cases less : rank item.2.1 < t
      · rw [if_pos less]
        obtain ⟨m,r,found,restart,why⟩ := ih ((left + right + 1) / 2) right (by omega) there
        refine ⟨m,r,found,restart,.inr ?_⟩
        rcases why with rfl | later
        · obtain rfl := Option.some.inj (here.symm.trans restart)
          exact ⟨item.2,getElem_entries present,less⟩
        · exact later
      · rw [if_neg less]
        exact ih left ((left + right + 1) / 2 - 1) (by omega) (by omega)
    · rw [if_neg more]
      exact ⟨left,_,rfl,List.getElem?_eq_getElem (by omega),.inl rfl⟩

theorem smaller_before (sorted : l.entries.Pairwise fun a b => rank a.1 < rank b.1) {t : T} {e : Bytes × Bytes}
    (here : l.entries[i]? = some e) (less : rank e.1 ≤ t) : ∀ a ∈ l.entries.take i, rank a.1 < t := by
  intro a member
  rw [@take_eq_filter _ _ _ (fun e : Bytes × Bytes => rank e.1) _ sorted _ _ here,List.mem_filter,decide_eq_true_eq] at member
  exact lt_of_lt_of_le member.2 less

/-- The search from a restart point that comes early enough. -/
theorem searchKey_restart (on : On l s) (ok : l.Ok) (sorted : l.entries.Pairwise fun a b => rank a.1 < rank b.1) {t : T} {m r : Nat}
    (here : l.restarts[m]? = some r) (why : m = 0 ∨ ∃ e, l.entries[r]? = some e ∧ rank e.1 < t) :
    At l (searchKey rank t s.data.length (s.seekToRestartPoint m)) (l.entries.findIdx fun e => !decide (rank e.1 < t)) := by
  have fuel := on.length_data
  refine searchKey_at ok (on.seekToRestartPoint ok here) ?_ (by omega)
  rcases why with rfl | ⟨e,there,less⟩
  · obtain rfl := Option.some.inj (ok.zero.symm.trans here)
    intro a member
    cases member
  · exact smaller_before sorted there (le_of_lt less)

theorem seek_at (stands : At l s i) (ok : l.Ok) (sorted : l.entries.Pairwise fun a b => rank a.1 < rank b.1) (t : T) :
    At l (seek rank t s) (l.entries.findIdx fun e => !decide (rank e.1 < t)) := by
  have on := stands.on
  have valid := stands.valid
  have several : 0 < l.restarts.length := (List.getElem?_eq_some_iff.mp ok.zero).1
  cases stands with
  | @entry _ r item _ here current key value offset restart low =>
    have inside := length_items l here
    rw [decide_eq_true inside] at valid
    have entry := getElem_entries here
    have fuel := on.length_data
    have there := (List.getElem?_eq_some_iff.mp restart).1
    rcases lt_trichotomy (rank item.2.1) t with less | same | more
    · obtain ⟨m,r',found,restart',why⟩ := on.searchRestart ok rank t s.numRestarts s.restartIndex (l.restarts.length - 1)
        (by omega) (by omega)
      have after : Before l s (i + 1) := At.before (.entry on here current key value offset restart low) ok inside
      simp only [seek,valid,key,less,ne_of_lt less,and_false,if_false,decide_true,Bool.and_true,if_true,Bool.not_true,
        Bool.and_false,Bool.false_eq_true,on.num]
      simp only [on.num] at found
      simp only [found,and_true]
      by_cases stay : m = s.restartIndex
      · rw [if_pos stay]
        refine searchKey_at ok after ?_ (by omega)
        intro e member
        rw [List.take_add_one,entry] at member
        rcases List.mem_append.mp member with earlier | last
        · exact smaller_before sorted entry (le_of_lt less) e earlier
        · obtain rfl := List.mem_singleton.mp last
          exact less
      · rw [if_neg stay]
        exact searchKey_restart on ok sorted restart' (.inr (why.resolve_left stay))
    · have found : (l.entries.findIdx fun e => !decide (rank e.1 < t)) = i := by
        refine findIdx_eq (by rw [length_entries]; exact le_of_lt inside) (smaller_before sorted entry (le_of_eq same)) ?_
        intro e present
        obtain rfl := Option.some.inj (entry.symm.trans present)
        exact not_lt.mpr (ge_of_eq same)
      rw [found,seek,if_pos ⟨valid,by rw [key]; exact same⟩]
      exact .entry on here current key value offset restart low
    · obtain ⟨m,r',found,restart',why⟩ := on.searchRestart ok rank t s.numRestarts 0 s.restartIndex (Nat.zero_le _) there
      simp only [seek,valid,key,not_lt.mpr (le_of_lt more),ne_of_gt more,and_false,if_false,decide_false,Bool.and_false,
        Bool.false_eq_true,Bool.not_false,Bool.and_true,if_true,found]
      exact searchKey_restart on ok sorted restart' why
  | spent _ current =>
    have invalid := valid.trans (decide_eq_false (lt_irrefl _))
    obtain ⟨m,r',found,restart',why⟩ := on.searchRestart ok rank t s.numRestarts 0 (l.restarts.length - 1)
      (Nat.zero_le _) (by omega)
    simp only [on.num] at found
    simp only [seek,invalid,Bool.false_eq_true,false_and,if_false,Bool.false_and,on.num,found,and_false]
    exact searchKey_restart on ok sorted restart' why

/-- The iterator of a block is a cursor over its entries. -/
theorem isCursor (ok : l.Ok) (sorted : l.entries.Pairwise fun a b => rank a.1 < rank b.1) :
    IsCursor (ops rank) (fun e => rank e.1) l.entries (At l) := by
  constructor
  · intro s i stands
    exact stands.shows
  · intro s i stands
    exact seekToFirst_at stands.on ok
  · intro s i stands
    rw [length_entries]
    exact seekToLast_at stands.on ok
  · intro s i t stands
    exact seek_at stands ok sorted t
  · intro s i stands inside
    rw [length_entries] at inside
    obtain ⟨s',parsed,stands'⟩ := parseNextKey_at (stands.before ok inside) ok
    show At l s.parseNextKey.2 (i + 1)
    rw [parsed]
    exact stands'
  · intro s i stands inside
    rw [length_entries] at inside ⊢
    exact prev_at stands ok inside

end Seek

end BlockIter

theorem sharedBytes_take (a b : Bytes) : a.take (sharedBytes a b) = b.take (sharedBytes a b) := by
  induction a generalizing b with
  | nil => cases b <;> rfl
  | cons x a ih =>
    cases b with
    | nil => rfl
    | cons y b =>
      rw [sharedBytes]
      split
      · rename_i same
        rw [List.take_succ_cons,List.take_succ_cons,ih b,same]
      · rfl

theorem sharedBytes_le (a b : Bytes) : sharedBytes a b ≤ a.length := by
  induction a generalizing b with
  | nil => cases b <;> exact Nat.zero_le _
  | cons x a ih =>
    cases b with
    | nil => exact Nat.zero_le _
    | cons y b =>
      rw [sharedBytes]
      split
      · exact Nat.succ_le_succ (ih b)
      · exact Nat.zero_le _

/-- The builder holds the entries, laid out. -/
structure BlockBuilder.Laid (b : BlockBuilder) (l : BlockLayout) : Prop where
  shape : l.Shape
  buffer : b.buffer = l.body
  restarts : b.restarts = l.restarts.map l.start
  lastKey : b.lastKey = (l.entries.getLast?.map Prod.fst).getD []
  fresh : l.items = [] → b.counter = 0

theorem BlockBuilder.new_laid : BlockBuilder.new.Laid ⟨[],[0]⟩ := by
  refine ⟨⟨rfl,?_,?_,?_⟩,rfl,rfl,rfl,fun _ => rfl⟩
  · intro k r here
    cases k with
    | zero => exact .inl rfl
    | succ k => simp at here
  · intro r _ item here
    simp at here
  · intro i item next here
    simp at here

theorem BlockBuilder.Laid.finish {b : BlockBuilder} {l : BlockLayout} (laid : b.Laid l) : b.finish = l.bytes := by
  rw [BlockBuilder.finish,laid.buffer,laid.restarts,List.length_map,bytes]

/-- One more entry at the end. -/
def BlockLayout.snoc (l : BlockLayout) (item : Nat × Bytes × Bytes) (restart : Bool) : BlockLayout :=
  ⟨l.items ++ [item],if restart then l.restarts ++ [l.items.length] else l.restarts⟩

section Snoc
variable {l : BlockLayout} {item : Nat × Bytes × Bytes} {restart : Bool}

theorem entries_snoc : (l.snoc item restart).entries = l.entries ++ [item.2] := by
  rw [entries,entries,BlockLayout.snoc,List.map_append]
  rfl

theorem body_snoc : (l.snoc item restart).body = l.body ++ code item := by
  rw [body,body,BlockLayout.snoc,List.flatMap_append,List.flatMap_singleton]

theorem start_snoc {r : Nat} (inside : r ≤ l.items.length) : (l.snoc item restart).start r = l.start r := by
  rw [start,start,BlockLayout.snoc,List.take_append_of_le_length inside]

theorem restarts_snoc (shape : l.Shape) : (l.snoc item restart).restarts.map (l.snoc item restart).start =
    if restart then l.restarts.map l.start ++ [l.body.length] else l.restarts.map l.start := by
  have same : l.restarts.map (l.snoc item restart).start = l.restarts.map l.start :=
    List.map_congr_left fun r member => start_snoc (shape.le_length member)
  have last : (l.snoc item restart).start l.items.length = l.body.length := by rw [start_snoc (le_refl _),start_length]
  cases restart with
  | false => exact same
  | true =>
    show (l.restarts ++ [l.items.length]).map _ = l.restarts.map l.start ++ [l.body.length]
    rw [List.map_append,same,List.map_singleton,last]

theorem getElem_snoc {A : Type} {list : List A} {a x : A} {i : Nat} (here : (list ++ [x])[i]? = some a) :
    list[i]? = some a ∨ (i = list.length ∧ a = x) := by
  rcases lt_trichotomy i list.length with low | rfl | high
  · rw [List.getElem?_append_left low] at here
    exact .inl here
  · rw [List.getElem?_concat_length] at here
    exact .inr ⟨rfl,(Option.some.inj here).symm⟩
  · rw [List.getElem?_eq_none (by rw [List.length_append,List.length_singleton]; omega)] at here
    cases here

theorem getElem_restarts_snoc {k r : Nat} (here : (l.snoc item restart).restarts[k]? = some r) :
    l.restarts[k]? = some r ∨ (restart = true ∧ r = l.items.length) := by
  cases restart with
  | false => exact .inl here
  | true =>
    rcases getElem_snoc here with old | ⟨_,last⟩
    · exact .inl old
    · exact .inr ⟨rfl,last⟩

theorem BlockLayout.Shape.snoc (shape : l.Shape) (first : l.items = [] → restart = false ∧ item.1 = 0)
    (whole : restart = true → item.1 = 0) (shares : ∀ last, l.items.getLast? = some last →
      item.1 ≤ last.2.1.length ∧ last.2.1.take item.1 = item.2.1.take item.1) : (l.snoc item restart).Shape := by
  have length : (l.snoc item restart).items.length = l.items.length + 1 := by simp [BlockLayout.snoc]
  have nonempty : 0 < l.restarts.length := (List.getElem?_eq_some_iff.mp shape.zero).1
  constructor
  · cases restart with
    | false => exact shape.zero
    | true =>
      show (l.restarts ++ [l.items.length])[0]? = some 0
      rw [List.getElem?_append_left nonempty]
      exact shape.zero
  · intro k r here
    rw [length]
    rcases getElem_restarts_snoc here with old | ⟨_,rfl⟩
    · rcases shape.inside k r old with zero | inside
      · exact .inl zero
      · exact .inr (by omega)
    · exact .inr (Nat.lt_succ_self _)
  · intro r member new here
    obtain ⟨k,there⟩ := List.getElem?_of_mem member
    rcases getElem_snoc here with old | ⟨last,rfl⟩
    · rcases getElem_restarts_snoc there with restart_ | ⟨_,rfl⟩
      · exact shape.whole r (List.mem_of_getElem? restart_) new old
      · rw [List.getElem?_length] at old
        cases old
    · rcases getElem_restarts_snoc there with restart_ | ⟨starts,_⟩
      · rcases shape.inside k r restart_ with rfl | inside
        · obtain rfl := Option.some.inj (shape.zero.symm.trans restart_)
          exact (first (List.eq_nil_of_length_eq_zero last.symm)).2
        · omega
      · exact whole starts
  · intro i old new here there
    rcases getElem_snoc there with next | ⟨last,rfl⟩
    · rcases getElem_snoc here with now | ⟨rfl,_⟩
      · exact shape.follows i old new now next
      · have inside := length_items l next
        omega
    · rcases getElem_snoc here with now | ⟨same,_⟩
      · refine shares old ?_
        rw [List.getLast?_eq_getElem?,← last]
        exact now
      · omega

/-- `Add` lays the entry out behind the others. -/
theorem BlockBuilder.Laid.add {b : BlockBuilder} {interval : Nat} (laid : b.Laid l) (positive : 1 ≤ interval) (key value : Bytes) :
    ∃ l', (b.add interval key value).Laid l' ∧ l'.entries = l.entries ++ [(key,value)] := by
  have shape := laid.shape
  by_cases goesOn : b.counter < interval
  · have shared := sharedBytes_take b.lastKey key
    refine ⟨l.snoc (sharedBytes b.lastKey key,key,value) false,⟨shape.snoc ?_ ?_ ?_,?_,?_,?_,?_⟩,entries_snoc⟩
    · intro empty
      refine ⟨rfl,?_⟩
      have none : b.lastKey = [] := by rw [laid.lastKey,entries,empty]; rfl
      rw [none]
      cases key <;> rfl
    · intro impossible
      cases impossible
    · intro last there
      have same : b.lastKey = last.2.1 := by
        rw [laid.lastKey,entries,List.getLast?_map,there]
        rfl
      rw [← same]
      exact ⟨sharedBytes_le _ _,shared⟩
    · simp only [BlockBuilder.add,goesOn,if_true]
      rw [body_snoc,laid.buffer,code]
    · simp only [BlockBuilder.add,goesOn,if_true]
      rw [restarts_snoc shape,laid.restarts]
      rfl
    · simp only [BlockBuilder.add,goesOn,if_true]
      rw [shared,List.take_append_drop,entries_snoc,List.getLast?_concat]
      rfl
    · intro empty
      exact absurd empty (by simp [BlockLayout.snoc])
  · refine ⟨l.snoc (0,key,value) true,⟨shape.snoc ?_ (fun _ => rfl) ?_,?_,?_,?_,?_⟩,entries_snoc⟩
    · intro empty
      have zero := laid.fresh empty
      omega
    · intro last _
      exact ⟨Nat.zero_le _,rfl⟩
    · simp only [BlockBuilder.add,goesOn,if_false]
      rw [body_snoc,laid.buffer,code]
    · simp only [BlockBuilder.add,goesOn,if_false]
      rw [restarts_snoc shape,laid.restarts,laid.buffer]
      rfl
    · simp only [BlockBuilder.add,goesOn,if_false]
      rw [entries_snoc,List.getLast?_concat]
      rfl
    · intro empty
      exact absurd empty (by simp [BlockLayout.snoc])

end Snoc

/-- A finished block opens with its restart array. -/
theorem open_bytes {l : BlockLayout} (ok : l.Ok) :
    (Block.open l.bytes).newIterator = .iter (.new l.bytes l.body.length l.restarts.length) := by
  have small := ok.small
  have several : 0 < l.restarts.length := (List.getElem?_eq_some_iff.mp ok.zero).1
  have length := length_bytes l
  have tail : l.bytes.drop (l.bytes.length - 4) = putFixed32 l.restarts.length := by
    rw [length,Nat.add_sub_cancel,bytes]
    refine List.drop_left' ?_
    rw [List.length_append,length_flatMap_putFixed32,List.length_map]
  have num : (decodeFixed32 (l.bytes.drop (l.bytes.length - 4))).toNat = l.restarts.length := by
    rw [tail,← List.append_nil (putFixed32 l.restarts.length)]
    exact decodeFixed32_putFixed32 (by omega) []
  have opened : Block.open l.bytes = ⟨l.bytes,l.bytes.length,l.body.length⟩ := by
    simp only [Block.open,Block.numRestarts,num]
    rw [if_neg (by omega),if_neg (by omega),Nat.mod_eq_of_lt (by omega)]
    congr 1
    omega
  rw [opened,Block.newIterator]
  simp only [Block.numRestarts,num]
  rw [if_neg (by omega),if_neg (by omega)]

namespace DataIterator
variable {l : BlockLayout}

def At (l : BlockLayout) (d : DataIterator) (i : Nat) : Prop := ∃ s, d = .iter s ∧ BlockIter.At l s i

theorem At.fine {d : DataIterator} {i : Nat} (stands : At l d i) : d.status = none := by
  obtain ⟨s,rfl,stands⟩ := stands
  exact stands.on.fine

theorem newIterator_at (ok : l.Ok) : At l (Block.open l.bytes).newIterator l.entries.length := by
  rw [length_entries]
  exact ⟨_,open_bytes ok,BlockIter.new_at l⟩

theorem isCursor {T : Type} [LinearOrder T] {rank : Bytes → T} (ok : l.Ok)
    (sorted : l.entries.Pairwise fun a b => rank a.1 < rank b.1) : IsCursor (ops rank) (fun e => rank e.1) l.entries (At l) := by
  have cursor := BlockIter.isCursor ok sorted
  constructor
  · rintro _ i ⟨s,rfl,stands⟩
    exact cursor.current stands
  · rintro _ i ⟨s,rfl,stands⟩
    exact ⟨_,rfl,cursor.first stands⟩
  · rintro _ i ⟨s,rfl,stands⟩
    exact ⟨_,rfl,cursor.last stands⟩
  · rintro _ i t ⟨s,rfl,stands⟩
    exact ⟨_,rfl,cursor.seek t stands⟩
  · rintro _ i ⟨s,rfl,stands⟩ inside
    exact ⟨_,rfl,cursor.next stands inside⟩
  · rintro _ i ⟨s,rfl,stands⟩ inside
    exact ⟨_,rfl,cursor.prev stands inside⟩

end DataIterator

/-- The entries added to a builder so far. -/
def BlockBuilder.Holds (b : BlockBuilder) (entries : List (Bytes × Bytes)) : Prop := ∃ l, b.Laid l ∧ l.entries = entries

namespace BlockBuilder
variable {b : BlockBuilder} {list : List (Bytes × Bytes)}

theorem new_holds : BlockBuilder.new.Holds [] := ⟨_,new_laid,rfl⟩

theorem Holds.add (holds : b.Holds list) {interval : Nat} (positive : 1 ≤ interval) (key value : Bytes) :
    (b.add interval key value).Holds (list ++ [(key,value)]) := by
  obtain ⟨l,laid,rfl⟩ := holds
  exact laid.add positive key value

theorem Holds.isEmpty (holds : b.Holds list) : b.isEmpty = list.isEmpty := by
  obtain ⟨l,laid,rfl⟩ := holds
  rw [BlockBuilder.isEmpty,laid.buffer,entries,List.isEmpty_map]
  cases same : l.items with
  | nil => rw [body,same]; rfl
  | cons item items =>
    have long := length_le_body l
    rw [same,List.length_cons] at long
    cases empty : l.body with
    | nil => rw [empty,List.length_nil] at long; omega
    | cons => rfl

/-- A block of these entries. -/
def build (interval : Nat) (list : List (Bytes × Bytes)) : Bytes :=
  (list.foldl (fun b e => b.add interval e.1 e.2) new).finish

theorem Holds.foldl (holds : b.Holds list) {interval : Nat} (positive : 1 ≤ interval) (more : List (Bytes × Bytes)) :
    (more.foldl (fun b e => b.add interval e.1 e.2) b).Holds (list ++ more) := by
  induction more generalizing b list with
  | nil =>
    rw [List.append_nil]
    exact holds
  | cons e more ih =>
    have added := ih (holds.add positive e.1 e.2)
    rw [List.append_assoc] at added
    exact added

end BlockBuilder

section RoundTrip
variable {T : Type} [LinearOrder T]

theorem run_items {E : Type} (key : E → T) (moves : List (Move T)) (s : ListIter E) :
    ((ListIter.ops key).run moves s).items = s.items := by
  induction moves generalizing s with
  | nil => rfl
  | cons m moves ih => exact (ih _).trans (by cases m <;> rfl)

/-- What was before a seek does not matter behind it. -/
theorem run_seek {E : Type} (key : E → T) (before before' after : List (Move T)) (t : T) (s : ListIter E) :
    (ListIter.ops key).run (before ++ .seek t :: after) s = (ListIter.ops key).run (before' ++ .seek t :: after) s := by
  have same := (run_items key before s).trans (run_items key before' s).symm
  rw [IteratorOps.run,IteratorOps.run,List.foldl_append,List.foldl_append,List.foldl_cons,List.foldl_cons]
  have sought : ∀ one two : ListIter E, one.items = two.items →
      (ListIter.ops key).move (.seek t) one = (ListIter.ops key).move (.seek t) two := by
    rintro ⟨items,i⟩ ⟨_,j⟩ rfl
    rfl
  exact congrArg (fun s => after.foldl (fun s m => (ListIter.ops key).move m s) s) (sought _ _ same)

/-- A block built from sorted entries has an iterator that moves like a cursor over them,
and a seek leads to the same place from everywhere. -/
theorem block_round_trip (rank : Bytes → T) (interval : Nat) (positive : 1 ≤ interval) (list : List (Bytes × Bytes))
    (sorted : list.Pairwise fun a b => rank a.1 < rank b.1) (small : (BlockBuilder.build interval list).length < 2^32) :
    (∀ moves, Legal (DataIterator.ops rank) (Block.open (BlockBuilder.build interval list)).newIterator moves →
      (DataIterator.ops rank).current
          ((DataIterator.ops rank).run moves (Block.open (BlockBuilder.build interval list)).newIterator) =
        (ListIter.ops fun e => rank e.1).current ((ListIter.ops fun e => rank e.1).run moves (ListIter.new list))) ∧
    ∀ before before' after t,
      Legal (DataIterator.ops rank) (Block.open (BlockBuilder.build interval list)).newIterator (before ++ .seek t :: after) →
      Legal (DataIterator.ops rank) (Block.open (BlockBuilder.build interval list)).newIterator (before' ++ .seek t :: after) →
      (DataIterator.ops rank).current ((DataIterator.ops rank).run (before ++ .seek t :: after)
          (Block.open (BlockBuilder.build interval list)).newIterator) =
        (DataIterator.ops rank).current ((DataIterator.ops rank).run (before' ++ .seek t :: after)
          (Block.open (BlockBuilder.build interval list)).newIterator) := by
  obtain ⟨l,laid,rfl⟩ : (list.foldl (fun b e => b.add interval e.1 e.2) BlockBuilder.new).Holds list :=
    BlockBuilder.new_holds.foldl positive list
  rw [BlockBuilder.build,laid.finish] at small ⊢
  have ok : l.Ok := ⟨laid.shape,small⟩
  have shows : ∀ moves, Legal (DataIterator.ops rank) (Block.open l.bytes).newIterator moves →
      (DataIterator.ops rank).current ((DataIterator.ops rank).run moves (Block.open l.bytes).newIterator) =
        (ListIter.ops fun e => rank e.1).current ((ListIter.ops fun e => rank e.1).run moves (ListIter.new l.entries)) :=
    fun moves legal => (DataIterator.isCursor ok sorted).shows moves (DataIterator.newIterator_at ok) legal
  refine ⟨shows,fun before before' after t legal legal' => ?_⟩
  rw [shows _ legal,shows _ legal',run_seek]

/-- From the last key back to one that shares a prefix, then to the first that is not smaller. -/
theorem block_round_trip_three :
    (DataIterator.ops fun key : Bytes => key.map UInt8.toNat).current ((DataIterator.ops fun key : Bytes => key.map UInt8.toNat).run
      [.last,.prev,.seek [1,2,4]] (Block.open (BlockBuilder.build 2 [([1,2],[7]),([1,2,3],[]),([1,3],[8,9])])).newIterator) =
      some ([1,3],[8,9]) := by
  have trip := block_round_trip (fun key : Bytes => key.map UInt8.toNat) 2 (by decide) [([1,2],[7]),([1,2,3],[]),([1,3],[8,9])]
    (by decide) (by decide)
  rw [trip.1 [.last,.prev,.seek [1,2,4]] ⟨by decide,trivial⟩]
  decide

end RoundTrip

end LevelDB.Sstable
