import LevelDB.LogImport
import LevelDB.CodingReads

/-! Write batches over bytes (`db/write_batch`). The count in the header is kept apart from
the records. It is a `fixed32` there, but `Count` and the counter of `Iterate` are of type
`int`, whose arithmetic is taken modulo 2^32. -/
namespace LevelDB.Log

open Grammar

abbrev Update := Bytes × Option Bytes

/-- `WriteBatchInternal::Count`. -/
def batchCount (rep : Bytes) : Int := (decodeFixed32 (rep.drop 8)).toInt

/-- `WriteBatchInternal::SetCount`. -/
def setBatchCount (rep : Bytes) (n : Int) : Bytes := rep.take 8 ++ encodeFixed32 (BitVec.ofInt 32 n) ++ rep.drop kBatchHeader

/-- `WriteBatchInternal::SetSequence`. -/
def setBatchSequence (rep : Bytes) (seq : BitVec 64) : Bytes :=
  encodeFixed32 (seq.extractLsb' 0 32) ++ encodeFixed32 (seq.extractLsb' 32 32) ++ rep.drop 8

/-- `WriteBatch::Clear`. -/
def clearBatch : Bytes := List.replicate kBatchHeader 0

/-- `WriteBatch::Put`. -/
def putBatch (rep key value : Bytes) : Bytes :=
  setBatchCount rep (batchCount rep + 1) ++ [1] ++ lengthPrefixedSlice key ++ lengthPrefixedSlice value

/-- `WriteBatch::Delete`. -/
def deleteBatch (rep key : Bytes) : Bytes := setBatchCount rep (batchCount rep + 1) ++ [0] ++ lengthPrefixedSlice key

/-- `WriteBatch::Append`; a batch may be appended to itself. -/
def appendBatch (dst src : Bytes) : Bytes :=
  setBatchCount dst (batchCount dst + batchCount src) ++ src.drop kBatchHeader

/-- The calls that a batch has seen; a batch that is appended has a history of its own. -/
inductive BatchHistory
  | new
  | put (h : BatchHistory) (key value : Bytes)
  | delete (h : BatchHistory) (key : Bytes)
  | clear (h : BatchHistory)
  | append (h source : BatchHistory)
  | setSequence (h : BatchHistory) (seq : BitVec 64)

namespace BatchHistory

/-- The bytes that the calls make. -/
def rep : BatchHistory → Bytes
  | new => clearBatch
  | put h key value => putBatch h.rep key value
  | delete h key => deleteBatch h.rep key
  | clear _ => clearBatch
  | append h source => appendBatch h.rep source.rep
  | setSequence h seq => setBatchSequence h.rep seq

/-- The operations since the last `Clear`. -/
def operations : BatchHistory → List Update
  | new => []
  | put h key value => h.operations ++ [(key,some value)]
  | delete h key => h.operations ++ [(key,none)]
  | clear _ => []
  | append h source => h.operations ++ source.operations
  | setSequence h _ => h.operations

/-- All keys and values are shorter than 2^32 bytes. -/
def Fits : BatchHistory → Prop
  | new => True
  | put h key value => h.Fits ∧ key.length < 2^32 ∧ value.length < 2^32
  | delete h key => h.Fits ∧ key.length < 2^32
  | clear h => h.Fits
  | append h source => h.Fits ∧ source.Fits
  | setSequence h _ => h.Fits

end BatchHistory

/-- A well-formed record. -/
def IsRecord (bytes : Bytes) : Update → Prop
  | (key,some value) => ∃ left right, bytes = 1 :: (left ++ right) ∧ IsSlice left key ∧ IsSlice right value
  | (key,none) => ∃ left, bytes = 0 :: left ∧ IsSlice left key

section Loop
variable {fuel : Nat} {input rest middle key value : Bytes}

theorem iterateLoop_put (got : getLengthPrefixedSlice input = some (key,middle))
    (got' : getLengthPrefixedSlice middle = some (value,rest)) :
    iterateLoop (fuel + 1) (1 :: input) = ((key,some value) :: (iterateLoop fuel rest).1,(iterateLoop fuel rest).2) := by
  simp [iterateLoop,got,got']

theorem iterateLoop_delete (got : getLengthPrefixedSlice input = some (key,rest)) :
    iterateLoop (fuel + 1) (0 :: input) = ((key,none) :: (iterateLoop fuel rest).1,(iterateLoop fuel rest).2) := by
  simp [iterateLoop,got]

/-- A record that is not well formed is an error. -/
theorem iterateLoop_cons (tag : UInt8) (done : (iterateLoop (fuel + 1) (tag :: input)).2 = none) :
    (tag = 1 ∧ ∃ key middle value rest, getLengthPrefixedSlice input = some (key,middle) ∧
      getLengthPrefixedSlice middle = some (value,rest)) ∨
    tag = 0 ∧ ∃ key rest, getLengthPrefixedSlice input = some (key,rest) := by
  by_cases put : tag = 1
  · subst put
    refine .inl ⟨rfl,?_⟩
    cases got : getLengthPrefixedSlice input with
    | none => simp [iterateLoop,got] at done
    | some r =>
      cases got' : getLengthPrefixedSlice r.2 with
      | none => simp [iterateLoop,got,got'] at done
      | some r' => exact ⟨r.1,r.2,r'.1,r'.2,rfl,got'⟩
  by_cases delete : tag = 0
  · subst delete
    refine .inr ⟨rfl,?_⟩
    cases got : getLengthPrefixedSlice input with
    | none => simp [iterateLoop,got] at done
    | some r => exact ⟨r.1,r.2,rfl⟩
  · simp [iterateLoop,put,delete] at done

theorem iterateLoop_many (fuel : Nat) (input : Bytes) (enough : input.length ≤ fuel)
    (done : (iterateLoop fuel input).2 = none) : Many IsRecord input (iterateLoop fuel input).1 := by
  induction fuel generalizing input with
  | zero =>
    cases List.length_eq_zero_iff.mp (Nat.le_zero.mp enough)
    exact .nil
  | succ fuel ih =>
    cases input with
    | nil => exact .nil
    | cons tag input =>
      rcases iterateLoop_cons tag done with ⟨rfl,key,middle,value,rest,got,got'⟩ | ⟨rfl,key,rest,got⟩
      · obtain ⟨left,rfl,first⟩ := (getLengthPrefixedSlice_reads _ _ _).mp got
        obtain ⟨right,rfl,second⟩ := (getLengthPrefixedSlice_reads _ _ _).mp got'
        rw [iterateLoop_put got got'] at done ⊢
        simp only [List.length_cons,List.length_append] at enough
        have tail := ih rest (by omega) done
        rw [← List.append_assoc,← List.cons_append]
        exact .cons ⟨left,right,rfl,first,second⟩ tail
      · obtain ⟨left,rfl,first⟩ := (getLengthPrefixedSlice_reads _ _ _).mp got
        rw [iterateLoop_delete got] at done ⊢
        simp only [List.length_cons,List.length_append] at enough
        have tail := ih rest (by omega) done
        rw [← List.cons_append]
        exact .cons ⟨left,rfl,first⟩ tail

theorem iterateLoop_of_many (fuel : Nat) (input : Bytes) (ops : List Update) (enough : input.length ≤ fuel)
    (many : Many IsRecord input ops) : iterateLoop fuel input = (ops,none) := by
  induction many generalizing fuel with
  | nil => cases fuel <;> rfl
  | @cons record rest op ops head tail ih =>
    obtain ⟨key,value⟩ := op
    cases value with
    | some value =>
      obtain ⟨left,right,rfl,first,second⟩ := head
      obtain ⟨fuel,rfl⟩ : ∃ n, fuel = n + 1 := ⟨fuel - 1,by simp at enough; omega⟩
      have got := getLengthPrefixedSlice_reads.append first (right ++ rest)
      have got' := getLengthPrefixedSlice_reads.append second rest
      rw [List.cons_append,List.append_assoc,iterateLoop_put got got',ih]
      simp only [List.length_cons,List.length_append] at enough
      omega
    | none =>
      obtain ⟨left,rfl,first⟩ := head
      obtain ⟨fuel,rfl⟩ : ∃ n, fuel = n + 1 := ⟨fuel - 1,by simp at enough; omega⟩
      have got := getLengthPrefixedSlice_reads.append first rest
      rw [List.cons_append,iterateLoop_delete got,ih]
      simp only [List.length_cons,List.length_append] at enough
      omega

end Loop

/-- The count of the header, as it is stored. -/
def headerCount (rep : Bytes) : Nat := (decodeFixed32 (rep.drop 8)).toNat

theorem iterate_ok_iff (rep : Bytes) : (iterate rep).2 = none ↔
    kBatchHeader ≤ rep.length ∧ ∃ ops, Many IsRecord (rep.drop kBatchHeader) ops ∧ ops.length % 2^32 = headerCount rep := by
  by_cases short : rep.length < kBatchHeader
  · simp [iterate,short]
  have enough : (rep.drop kBatchHeader).length ≤ rep.length := by rw [List.length_drop]; omega
  have unfolded : (iterate rep).2 = ((iterateLoop rep.length (rep.drop kBatchHeader)).2 <|>
      if (iterateLoop rep.length (rep.drop kBatchHeader)).1.length % 2^32 = headerCount rep then none
      else some "WriteBatch has wrong count") := by
    rw [iterate,if_neg short]
    rfl
  rw [unfolded]
  constructor
  · intro ok
    cases done : (iterateLoop rep.length (rep.drop kBatchHeader)).2 with
    | some error =>
      rw [done] at ok
      cases ok
    | none =>
      refine ⟨not_lt.mp short,_,iterateLoop_many _ _ enough done,?_⟩
      by_contra wrong
      rw [done,if_neg wrong] at ok
      cases ok
  · rintro ⟨-,ops,many,count⟩
    rw [iterateLoop_of_many _ _ ops enough many]
    exact if_pos count

/-- Eight bytes of sequence number, the count modulo 2^32, and the records. -/
structure Holds (rep : Bytes) (ops : List Update) : Prop where
  parts : ∃ seq records, seq.length = 8 ∧ rep = seq ++ encodeFixed32 (BitVec.ofNat 32 ops.length) ++ records ∧
    Many IsRecord records ops

section Holds
variable {rep src : Bytes} {ops more : List Update}

theorem length_encodeFixed32 (v : BitVec 32) : (encodeFixed32 v).length = 4 := rfl

theorem Holds.records (holds : Holds rep ops) : Many IsRecord (rep.drop kBatchHeader) ops := by
  obtain ⟨seq,records,length,rfl,many⟩ := holds.parts
  have behind : (seq ++ encodeFixed32 (BitVec.ofNat 32 ops.length)).length = kBatchHeader := by
    rw [List.length_append,length,length_encodeFixed32]
    rfl
  rw [← behind,List.drop_left]
  exact many

theorem Holds.count (holds : Holds rep ops) : decodeFixed32 (rep.drop 8) = BitVec.ofNat 32 ops.length := by
  obtain ⟨seq,records,length,rfl,-⟩ := holds.parts
  rw [List.append_assoc,← length,List.drop_left]
  exact decodeFixed32_encodeFixed32 _ _

theorem Holds.batchCount (holds : Holds rep ops) : batchCount rep = (BitVec.ofNat 32 ops.length).toInt := by
  rw [Log.batchCount,holds.count]

/-- More records behind a count that has grown by their number. -/
theorem Holds.extend (holds : Holds rep ops) {records : Bytes} (many : Many IsRecord records more) {n : Int}
    (count : BitVec.ofInt 32 n = BitVec.ofNat 32 (ops ++ more).length) :
    Holds (setBatchCount rep n ++ records) (ops ++ more) := by
  have old := holds.records
  obtain ⟨seq,records',length,rfl,-⟩ := holds.parts
  refine ⟨seq,_ ++ records,length,?_,old.append many⟩
  rw [setBatchCount,count,← length,List.append_assoc seq,List.take_left]
  simp only [List.append_assoc]

theorem ofInt_count (m n : Nat) :
    BitVec.ofInt 32 ((BitVec.ofNat 32 m).toInt + (BitVec.ofNat 32 n).toInt) = BitVec.ofNat 32 (m + n) := by
  rw [BitVec.ofInt_add,BitVec.ofInt_toInt,BitVec.ofInt_toInt,← BitVec.ofNat_add]

theorem Holds.one (holds : Holds rep ops) {record : Bytes} {op : Update} (formed : IsRecord record op) :
    Holds (setBatchCount rep (Log.batchCount rep + 1) ++ record) (ops ++ [op]) := by
  apply holds.extend (.single formed)
  rw [holds.batchCount,List.length_append]
  exact ofInt_count ops.length 1

theorem holds_clear : Holds clearBatch [] :=
  ⟨List.replicate 8 0,[],rfl,rfl,.nil⟩

end Holds

theorem BatchHistory.holds (h : BatchHistory) (fits : h.Fits) : Holds h.rep h.operations := by
  induction h with
  | new => exact holds_clear
  | put h key value ih =>
    obtain ⟨before,small,small'⟩ := fits
    have record : IsRecord (1 :: (lengthPrefixedSlice key ++ lengthPrefixedSlice value)) (key,some value) :=
      ⟨_,_,rfl,isSlice_encode small,isSlice_encode small'⟩
    have done := (ih before).one record
    simpa only [rep,putBatch,operations,List.append_assoc,List.cons_append,List.nil_append] using done
  | delete h key ih =>
    obtain ⟨before,small⟩ := fits
    have record : IsRecord (0 :: lengthPrefixedSlice key) (key,none) := ⟨_,rfl,isSlice_encode small⟩
    have done := (ih before).one record
    simpa only [rep,deleteBatch,operations,List.append_assoc,List.cons_append,List.nil_append] using done
  | clear h ih => exact holds_clear
  | append h source ih ih' =>
    have other := ih' fits.2
    apply (ih fits.1).extend other.records
    rw [(ih fits.1).batchCount,other.batchCount,List.length_append]
    exact ofInt_count _ _
  | setSequence h seq ih =>
    obtain ⟨old,records,length,same,many⟩ := (ih fits).parts
    refine ⟨encodeFixed32 (seq.extractLsb' 0 32) ++ encodeFixed32 (seq.extractLsb' 32 32),records,rfl,?_,many⟩
    simp only [rep,setBatchSequence,operations]
    rw [same,List.append_assoc old,← length,List.drop_left]
    simp only [List.append_assoc]

theorem toInt_ofNat32 {n : Nat} (small : n < 2^32) : (BitVec.ofNat 32 n).toInt = n ↔ n < 2^31 := by
  have whole : (BitVec.ofNat 32 n).toNat = n := by rw [BitVec.toNat_ofNat,Nat.mod_eq_of_lt small]
  rw [BitVec.toInt_eq_toNat_cond,whole]
  split <;> omega

/-- A header and as many well-formed records as `Count` says. -/
def WellFormedBatch (rep : Bytes) : Prop :=
  kBatchHeader ≤ rep.length ∧ ∃ ops, Many IsRecord (rep.drop kBatchHeader) ops ∧ (ops.length : Int) = batchCount rep

/-- What a batch that has seen these calls is good for. -/
structure BatchHistory.Replays (h : BatchHistory) : Prop where
  iterate : iterate h.rep = (h.operations,none)
  count : batchCount h.rep = h.operations.length
  insertInto : insertInto h.rep =
    (h.operations.mapIdx fun i op => ⟨op.1,(Sstable.decodeFixed64 h.rep + i) % 2^64,op.2⟩,none)

section Claim
variable {rep : Bytes} {ops : List Update}

theorem Holds.length (holds : Holds rep ops) : kBatchHeader ≤ rep.length := by
  obtain ⟨seq,records,length,rfl,-⟩ := holds.parts
  simp only [List.length_append,length,length_encodeFixed32,kBatchHeader]
  omega

theorem Holds.iterate (holds : Holds rep ops) : iterate rep = (ops,none) := by
  have enough : (rep.drop kBatchHeader).length ≤ rep.length := by rw [List.length_drop]; omega
  have loop := iterateLoop_of_many _ _ ops enough holds.records
  have count : ops.length % 2^32 = (decodeFixed32 (rep.drop 8)).toNat := by
    rw [holds.count,BitVec.toNat_ofNat]
  rw [Log.iterate,if_neg (not_lt.mpr holds.length),loop]
  simp only [count,if_true]
  rfl

theorem Holds.insertInto (holds : Holds rep ops) : insertInto rep =
    (ops.mapIdx fun i op => ⟨op.1,(Sstable.decodeFixed64 rep + i) % 2^64,op.2⟩,none) := by
  rw [Log.insertInto,holds.iterate]

theorem BatchHistory.replays_iff (h : BatchHistory) (fits : h.Fits) (few : h.operations.length < 2^32) :
    h.Replays ↔ h.operations.length < 2^31 := by
  have holds := h.holds fits
  rw [← toInt_ofNat32 few,← holds.batchCount]
  constructor
  · exact fun replays => replays.count
  · exact fun count => ⟨holds.iterate,count,holds.insertInto⟩

/-- The count of the header is read as an `int`. -/
theorem count_matches (n : Nat) (same : n % 2^32 = headerCount rep) : (n : Int) = batchCount rep ↔ n < 2^31 := by
  have bound := (decodeFixed32 (rep.drop 8)).isLt
  rw [headerCount] at same
  rw [batchCount,BitVec.toInt_eq_toNat_cond]
  split <;> omega

theorem mod_of_count {n : Nat} (same : (n : Int) = batchCount rep) : n % 2^32 = headerCount rep := by
  have bound := (decodeFixed32 (rep.drop 8)).isLt
  rw [batchCount,BitVec.toInt_eq_toNat_cond] at same
  rw [headerCount]
  split at same <;> omega

/-- A string is the records of one list of updates only. -/
theorem records_unique {input : Bytes} {more : List Update} (first : Many IsRecord input ops) (second : Many IsRecord input more) :
    ops = more := by
  have one := iterateLoop_of_many input.length input ops (le_refl _) first
  rw [iterateLoop_of_many input.length input more (le_refl _) second] at one
  exact (congrArg Prod.fst one).symm

/-- `Iterate` tells the well-formed batches from the others, up to those of 2^31 records and
more that have a count equal to their number modulo 2^32. -/
theorem iterate_wellFormed_iff (rep : Bytes) : ((iterate rep).2 = none ↔ WellFormedBatch rep) ↔
    ∀ ops, Many IsRecord (rep.drop kBatchHeader) ops → ops.length % 2^32 = headerCount rep → ops.length < 2^31 := by
  rw [iterate_ok_iff]
  constructor
  · intro same ops many count
    by_cases long : kBatchHeader ≤ rep.length
    · obtain ⟨-,ops',many',count'⟩ := same.mp ⟨long,ops,many,count⟩
      rw [records_unique many many'] at count ⊢
      exact (count_matches _ count).mp count'
    · rw [List.drop_eq_nil_of_le (by omega)] at many
      rw [records_unique many .nil]
      decide
  · intro few
    constructor
    · rintro ⟨long,ops,many,count⟩
      exact ⟨long,ops,many,(count_matches _ count).mpr (few ops many count)⟩
    · rintro ⟨long,ops,many,count⟩
      exact ⟨long,ops,many,mod_of_count count⟩

/-- What `Count` and `Iterate` are for holds below 2^31 operations, and only there. -/
theorem batch_format (h : BatchHistory) (fits : h.Fits) (few : h.operations.length < 2^32) (contents : Bytes) :
    (h.Replays ↔ h.operations.length < 2^31) ∧
    (((iterate contents).2 = none ↔ WellFormedBatch contents) ↔
      ∀ ops, Many IsRecord (contents.drop kBatchHeader) ops → ops.length % 2^32 = headerCount contents → ops.length < 2^31) :=
  ⟨h.replays_iff fits few,iterate_wellFormed_iff contents⟩

/-- A value, a deletion, and a batch with an empty value behind them. -/
def mixedBatch : BatchHistory := .append (.delete (.put .new [97] [10,11]) [98,99]) (.put .new [97] [])

theorem batch_format_mixed : mixedBatch.Replays := by
  have fits : mixedBatch.Fits := ⟨⟨⟨trivial,by decide,by decide⟩,by decide⟩,⟨trivial,by decide,by decide⟩⟩
  exact (batch_format mixedBatch fits (by decide) []).1.mpr (by decide)

/-- A deletion, then the batch appended to itself again and again. -/
def doubled : Nat → BatchHistory
  | 0 => .delete .new []
  | n + 1 => .append (doubled n) (doubled n)

theorem doubled_spec (n : Nat) : (doubled n).Fits ∧ (doubled n).operations.length = 2^n := by
  induction n with
  | zero => exact ⟨⟨trivial,by decide⟩,rfl⟩
  | succ n ih =>
    refine ⟨⟨ih.1,ih.1⟩,?_⟩
    rw [doubled,BatchHistory.operations,List.length_append,ih.2,Nat.pow_succ]
    omega

/-- 2^31 operations are counted as -2^31. -/
theorem batch_count_negative : (doubled 31).Fits ∧ (doubled 31).operations.length < 2^32 ∧
    batchCount (doubled 31).rep ≠ (doubled 31).operations.length := by
  obtain ⟨fits,length⟩ := doubled_spec 31
  have holds := (doubled 31).holds fits
  refine ⟨fits,by rw [length]; decide,?_⟩
  rw [holds.batchCount,length]
  decide

end Claim

end LevelDB.Log
