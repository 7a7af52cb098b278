import LevelDB.BatchFormat
import LevelDB.Disk
import LevelDB.LogRoundTrip
import LevelDB.MemTable

/-! The log files of the database as bytes. `RecoverLogFile` reads a cut file as the batches of
a cut list: however many bytes a crash takes away, whole batches are what is missing. -/
namespace LevelDB.Log

section Silent

/-- Calls of `ReadRecord` that return these records, then false, with no report up to then. -/
inductive Reader.Silently : Reader → List Bytes → Prop
  | done (answer : r.readRecord = (none,last)) (quiet : last.reports = []) : Silently r []
  | next (answer : r.readRecord = (some record,later)) (quiet : later.reports = []) (more : Silently later records) :
    Silently r (record :: records)

/-- The reader returns what the items of the stream amount to, and reports nothing on the way. -/
theorem silently_items (count : Nat) (items : List Item) (size : items.length ≤ count) (r : Reader) (offset : Nat)
    (tail bytes : Bytes) (fits : FitsAll offset items) (ends : Ends True (endOfItems offset items) tail)
    (laid : Laid offset items tail bytes) (at_ : r.At offset bytes) (silent : r.reports = [])
    (quiet : QuietAll none items) : r.Silently (assemble none items) := by
  induction count generalizing items r offset bytes with
  | zero =>
    have none : items = [] := List.length_eq_zero_iff.mp (Nat.le_zero.mp size)
    subst none
    simp only [Laid] at laid
    subst laid
    obtain ⟨answer,reports⟩ := ends r at_ (bytes.length + 1) none 0
    rw [← At.readRecord r at_] at answer reports
    exact .done (by rw [← answer]) ((reports trivial).trans silent)
  | succ count ih =>
    have room := laid_length items offset tail bytes fits laid
    have split : bytes.length + 1 = bytes.length + 1 - items.length + items.length := by omega
    have read := At.readRecord r at_
    rw [split] at read
    obtain ⟨record,before,after,next,left,parts,some,assembled,returned,stands,rest,reports⟩ |
      ⟨nothing,next,held,later,ran,stands,reports⟩ :=
      readLoop_items items r offset tail bytes fits laid at_ (bytes.length + 1 - items.length) none 0
    · subst parts
      obtain ⟨-,fitsRest⟩ := (fitsAll_append offset before after).mp fits
      rw [endOfItems_append] at ends
      have shorter : after.length ≤ count := by
        have := List.length_pos_of_ne_nil some
        simp only [List.length_append] at size
        omega
      obtain ⟨now,soon⟩ := reports quiet
      have more := ih after shorter next _ left fitsRest ends rest stands (now.trans silent) soon
      exact assembled ▸ .next (read.trans returned) (now.trans silent) more
    · obtain ⟨answer,kept⟩ := ends next stands (bytes.length + 1 - items.length) held later
      rw [ran] at read
      rw [← read] at answer kept
      rw [nothing]
      exact .done (by rw [← answer]) ((kept trivial).trans ((reports quiet).trans silent))

/-- A file cut anywhere is read as the records that are whole. -/
theorem silently_contained (records : List Bytes) (n : Nat) :
    (Reader.new (((Writer.open []).addRecords records).dest.take n) true 0).Silently
      (contained n (Writer.open []) records) := by
  have fits := stream_fits records 0 (Nat.zero_le _)
  have quiet := quiet_stream records 0 (Nat.zero_le _)
  have file : ((Writer.open []).addRecords records).dest = layout 0 (stream 0 records) := by
    simp [addRecords_eq,Writer.open]
  have whole : contained n (Writer.open []) records =
      assemble none ((wholeFragments 0 n (stream 0 records)).map .fragment) :=
    contained_eq records (Writer.open []) n (Nat.zero_le _) (Nat.zero_le _)
  simp only [file,whole]
  obtain ⟨all,bytes,-⟩ | ⟨f,after,m,split,inside,-,bytes,-⟩ := take_layout (stream 0 records) 0 n
  · have ends := (dead_nil _ (fitsAll_end _ 0 (Nat.zero_le _) fits)).ends
    have laid := laid_layout 0 ((stream 0 records).map .fragment) []
    simp only [List.append_nil,layoutItems_fragments] at laid
    simp only [all,bytes]
    exact silently_items _ _ (Nat.le_refl _) _ 0 [] _ fits ends laid (new_at _) rfl quiet
  · rw [split,List.map_append] at fits quiet
    obtain ⟨fitsWhole,fitsCut⟩ := (fitsAll_append _ _ _).mp fits
    have next := fitsCut.1.1
    rw [endOfItems_fragments] at next
    have ends : Ends True (endOfItems 0 ((wholeFragments 0 n (stream 0 records)).map .fragment))
        ((f.emit (endOffset 0 (wholeFragments 0 n (stream 0 records)))).take m) := by
      simpa only [endOfItems_fragments] using (dead_part _ f m next inside).ends
    have laid := laid_layout 0 ((wholeFragments 0 n (stream 0 records)).map .fragment)
      ((f.emit (endOffset 0 (wholeFragments 0 n (stream 0 records)))).take m)
    rw [layoutItems_fragments,← bytes] at laid
    exact silently_items _ _ (Nat.le_refl _) _ 0 _ _ fitsWhole ends laid (new_at _) rfl ((quietAll_append _ _ _).mp quiet).1

end Silent

section Whole
variable {w : Writer} {records : List Bytes} {n : Nat}

theorem addRecord_length (w : Writer) (data : Bytes) : w.dest.length + kHeaderSize ≤ (w.addRecord data).dest.length := by
  simp only [Writer.addRecord,fragments,fragmentsLoop,layout,List.length_append,Fragment.emit,emitPhysicalRecord_length,
    kHeaderSize]
  omega

theorem addRecords_length (w : Writer) (records : List Bytes) : w.dest.length ≤ (w.addRecords records).dest.length := by
  induction records generalizing w with
  | nil => exact le_rfl
  | cons data rest ih =>
    have first := addRecord_length w data
    have later := ih (w.addRecord data)
    simp only [Writer.addRecords,List.foldl_cons] at later ⊢
    omega

/-- The records that a cut leaves whole are the first ones. -/
theorem contained_take (n : Nat) (w : Writer) (records : List Bytes) :
    contained n w records = records.take (contained n w records).length := by
  induction records generalizing w with
  | nil => rfl
  | cons data rest ih =>
    simp only [contained]
    split
    · simpa using ih (w.addRecord data)
    · rfl

/-- A cut behind the first records leaves them. -/
theorem contained_length (k : Nat) (small : k ≤ records.length) (enough : (w.addRecords (records.take k)).dest.length ≤ n) :
    k ≤ (contained n w records).length := by
  induction records generalizing w k with
  | nil => exact small
  | cons data rest ih =>
    cases k with
    | zero => exact Nat.zero_le _
    | succ k =>
      have inside := addRecords_length (w.addRecord data) (rest.take k)
      have later := ih k (by simpa using small) (w := w.addRecord data) (by simpa [Writer.addRecords] using enough)
      simp only [List.take_succ_cons,Writer.addRecords,List.foldl_cons] at enough inside
      simp only [contained,if_pos (show (w.addRecord data).dest.length ≤ n by omega),List.length_cons]
      omega

/-- A cut at the end of a record leaves the records up to there. -/
theorem contained_end (k : Nat) (w : Writer) (records : List Bytes) :
    contained (w.addRecords (records.take k)).dest.length w records = records.take k := by
  induction records generalizing w k with
  | nil => simp [contained]
  | cons data rest ih =>
    cases k with
    | zero =>
      have longer := addRecord_length w data
      simp only [kHeaderSize] at longer
      simp only [List.take_zero,Writer.addRecords,List.foldl_nil,contained]
      exact if_neg (by omega)
    | succ k =>
      have inside := addRecords_length (w.addRecord data) (rest.take k)
      have later := ih k (w.addRecord data)
      simp only [List.take_succ_cons,Writer.addRecords,List.foldl_cons,contained] at inside later ⊢
      exact (if_pos inside).trans (congrArg _ later)

theorem contained_short (n : Nat) (w : Writer) (records : List Bytes) : (contained n w records).length ≤ n - w.dest.length := by
  induction records generalizing w with
  | nil => exact Nat.zero_le _
  | cons data rest ih =>
    have longer := addRecord_length w data
    have later := ih (w.addRecord data)
    simp only [kHeaderSize] at longer
    simp only [contained]
    split
    · simp only [List.length_cons]
      omega
    · exact Nat.zero_le _

theorem records_short (w : Writer) (records : List Bytes) : w.dest.length + records.length ≤ (w.addRecords records).dest.length := by
  induction records generalizing w with
  | nil => exact le_rfl
  | cons data rest ih =>
    have longer := addRecord_length w data
    have later := ih (w.addRecord data)
    simp only [kHeaderSize] at longer
    simp only [Writer.addRecords,List.foldl_cons,List.length_cons] at later ⊢
    omega

/-- A log file into which these records were written. -/
def logFile (records : List Bytes) : Bytes := ((Writer.open []).addRecords records).dest

/-- There are bytes enough for the rounds of a loop over the records. -/
theorem contained_fuel (records : List Bytes) (n : Nat) :
    (contained n (Writer.open []) records).length < ((logFile records).take n).length + 1 := by
  have first := contained_short n (Writer.open []) records
  have second := records_short (Writer.open []) records
  have fewer := congrArg List.length (contained_take n (Writer.open []) records)
  have start : (Writer.open []).dest.length = 0 := rfl
  simp only [List.length_take] at fewer
  rw [start] at first second
  simp only [logFile,List.length_take]
  omega

theorem logFile_take_length {k l : Nat} (le : k ≤ l) :
    (logFile (records.take k)).length ≤ (logFile (records.take l)).length := by
  have split : records.take l = records.take k ++ (records.take l).drop k := by
    have first : records.take k = (records.take l).take k := by rw [List.take_take,min_eq_left le]
    rw [first,List.take_append_drop]
  have longer := addRecords_length ((Writer.open []).addRecords (records.take k)) ((records.take l).drop k)
  rw [Writer.addRecords,Writer.addRecords,← List.foldl_append,← split] at longer
  exact longer

end Whole

section Replay
variable {K : Type}

/-- What a record of a log puts into the memtable, and the `last_seq` of its batch if the
insertion was no error. -/
structure Replayed where
  entries : List (Entry Bytes Bytes)
  lastSequence : Option Nat

/-- `Sequence(&batch) + Count(&batch) - 1`, a `uint64_t`. -/
def lastSequence (rep : Bytes) : Nat := (((Sstable.decodeFixed64 rep : Int) + batchCount rep - 1) % 2^64).toNat

/-- The reporter keeps the first corruption, and with `paranoid_checks` it is the status. -/
def Reader.status (paranoid : Bool) (r : Reader) : Option String :=
  if paranoid then r.reports.head?.map (·.2) else none

/-- The loop of `RecoverLogFile` over the records; the tables that it writes in between are not
part of it. -/
def recoverLoop (paranoid : Bool) : Nat → Reader → List Replayed × Option String
  | 0, r => ([],r.status paranoid)
  | fuel + 1, r =>
    match r.readRecord with
    | (none,r) => ([],r.status paranoid)
    | (some record,r) =>
      if (r.status paranoid).isSome then ([],r.status paranoid)
      else if record.length < kBatchHeader then
        recoverLoop paranoid fuel { r with reports := r.reports ++ [(record.length,"log record too small")] }
      else
        let (entries,error) := insertInto record
        if paranoid && error.isSome then ([⟨entries,none⟩],error)
        else
          let (rest,status) := recoverLoop paranoid fuel r
          (⟨entries,some (lastSequence record)⟩ :: rest,status)

def recoverLogFile (paranoid : Bool) (file : Bytes) : List Replayed × Option String :=
  recoverLoop paranoid (file.length + 1) (Reader.new file true 0)

/-- The bytes of a batch as it goes to the log: some calls have made it, and it has got its
sequence number. -/
structure Image (code : K ≃ Bytes) (b : WriteBatch K Bytes) (rep : Bytes) : Prop where
  made : ∃ h : BatchHistory, h.Fits ∧ h.operations = b.updates.map (fun u => (code u.1,u.2)) ∧
    rep = setBatchSequence h.rep (BitVec.ofNat 64 b.sequence)
  few : b.count < 2^31
  first : 1 ≤ b.sequence
  last : b.sequence + b.count ≤ kMaxSequenceNumber

def codeEntry (code : K ≃ Bytes) (e : Entry K Bytes) : Entry Bytes Bytes := ⟨code e.userKey,e.sequence,e.value⟩

/-- What the replay makes of a batch. -/
def replayOf (code : K ≃ Bytes) (b : WriteBatch K Bytes) : Replayed :=
  ⟨b.entries.map (codeEntry code),some (b.sequence + b.count - 1)⟩

variable {code : K ≃ Bytes} {b : WriteBatch K Bytes} {rep : Bytes}

theorem sequence_image {s : Nat} (small : s < 2^64) (rep : Bytes) :
    Sstable.decodeFixed64 (setBatchSequence rep (BitVec.ofNat 64 s)) = s := by
  have same : setBatchSequence rep (BitVec.ofNat 64 s) = Encoded.encodeFixed64 s ++ rep.drop 8 := by
    have low : (BitVec.ofNat 64 s).extractLsb' 0 32 = BitVec.ofNat 32 s := by
      apply BitVec.eq_of_toNat_eq
      simp only [BitVec.extractLsb'_toNat,BitVec.toNat_ofNat,Nat.shiftRight_zero]
      omega
    have high : (BitVec.ofNat 64 s).extractLsb' 32 32 = BitVec.ofNat 32 (s / 2^32) := by
      apply BitVec.eq_of_toNat_eq
      simp only [BitVec.extractLsb'_toNat,BitVec.toNat_ofNat,Nat.shiftRight_eq_div_pow]
      omega
    simp only [setBatchSequence,Encoded.encodeFixed64,low,high]
  rw [same]
  exact Encoded.decodeFixed64_encodeFixed64 small _

theorem Image.replayed (image : Image code b rep) :
    kBatchHeader ≤ rep.length ∧ insertInto rep = (b.entries.map (codeEntry code),none) ∧
      lastSequence rep = b.sequence + b.count - 1 := by
  obtain ⟨h,fits,operations,same⟩ := image.made
  have few := image.few
  have first := image.first
  have last := image.last
  simp only [kMaxSequenceNumber] at last
  have history : (BatchHistory.setSequence h (BitVec.ofNat 64 b.sequence)).rep = rep := same.symm
  have holds := (BatchHistory.setSequence h (BitVec.ofNat 64 b.sequence)).holds fits
  rw [history] at holds
  have ops : (BatchHistory.setSequence h (BitVec.ofNat 64 b.sequence)).operations =
      b.updates.map fun u => (code u.1,u.2) := operations
  rw [ops] at holds
  have sequence : Sstable.decodeFixed64 rep = b.sequence := by
    rw [same]
    exact sequence_image (by omega) _
  have count : batchCount rep = b.count := by
    rw [holds.batchCount,List.length_map]
    exact (toInt_ofNat32 (by simp only [WriteBatch.count] at few; omega)).mpr few
  refine ⟨holds.length,?_,?_⟩
  · rw [holds.insertInto,sequence,WriteBatch.entries]
    congr 1
    apply List.ext_getElem
    · simp
    intro i one two
    have inside : i < b.count := by simpa [WriteBatch.count] using two
    have whole : (b.sequence + i) % 2^64 = b.sequence + i := Nat.mod_eq_of_lt (by omega)
    simp only [List.getElem_mapIdx,List.getElem_map,codeEntry,whole]
  · rw [lastSequence,sequence,count]
    omega

/-- The loop over records of batches, read without a report. -/
theorem recoverLoop_silent (paranoid : Bool) {r : Reader} {records : List Bytes} (silent : r.Silently records)
    {batches : List (WriteBatch K Bytes)} (images : List.Forall₂ (Image code) batches records) (fuel : Nat)
    (enough : records.length < fuel) : recoverLoop paranoid fuel r = (batches.map (replayOf code),none) := by
  induction silent generalizing batches fuel with
  | done answer quiet =>
    cases images
    cases fuel with
    | zero => omega
    | succ fuel => simp [recoverLoop,answer,Reader.status,quiet]
  | next answer quiet more ih =>
    cases images with
    | cons image images =>
      cases fuel with
      | zero => omega
      | succ fuel =>
        obtain ⟨long,inserted,last⟩ := image.replayed
        have later := ih images fuel (by simpa using enough)
        simp [recoverLoop,answer,Reader.status,quiet,not_lt.mpr long,inserted,later,last,replayOf]

theorem recoverLogFile_take (paranoid : Bool) {batches : List (WriteBatch K Bytes)} {records : List Bytes}
    (images : List.Forall₂ (Image code) batches records) (n : Nat) :
    recoverLogFile paranoid ((logFile records).take n) =
      ((batches.take (contained n (Writer.open []) records).length).map (replayOf code),none) := by
  have whole := contained_take n (Writer.open []) records
  have taken := List.forall₂_take (contained n (Writer.open []) records).length images
  rw [← whole] at taken
  exact recoverLoop_silent paranoid (silently_contained records n) taken _ (contained_fuel records n)

/-- A log in the machine is the bytes of its file as far as a crash and the replay after it can
tell: cut to any number of bytes that has what was synced, it is replayed as the list of batches
is after some cut, and as after each cut for some number of bytes. -/
theorem log_images (paranoid : Bool) (l : LogFile K Bytes) (records : List Bytes)
    (images : List.Forall₂ (Image code) l.records records) (synced : l.synced ≤ l.records.length) :
    (∀ n, (logFile (records.take l.synced)).length ≤ n → ∃ k, recoverLogFile paranoid ((logFile records).take n) =
      ((l.cut k).records.map (replayOf code),none)) ∧
    ∀ k, ∃ n, (logFile (records.take l.synced)).length ≤ n ∧ recoverLogFile paranoid ((logFile records).take n) =
      ((l.cut k).records.map (replayOf code),none) := by
  have length := images.length_eq
  constructor
  · intro n enough
    refine ⟨(contained n (Writer.open []) records).length,?_⟩
    have kept := contained_length (w := Writer.open []) l.synced (length ▸ synced) enough
    rw [recoverLogFile_take paranoid images,LogFile.cut,max_eq_right kept]
  · intro k
    refine ⟨(logFile (records.take (max l.synced k))).length,logFile_take_length (le_max_left _ _),?_⟩
    have ends := contained_end (max l.synced k) (Writer.open []) records
    rw [recoverLogFile_take paranoid images,LogFile.cut,logFile,ends,List.length_take,← length,← List.take_eq_take_min]

/-- Three batches, the first of them synced, and their bytes. -/
def sampleLog : LogFile Bytes Bytes := ⟨5,[⟨7,[([97],some [10])]⟩,⟨8,[([98],none)]⟩,⟨9,[([97],some [11])]⟩],1⟩

def sampleRecords : List Bytes :=
  [setBatchSequence (putBatch clearBatch [97] [10]) (BitVec.ofNat 64 7),
    setBatchSequence (deleteBatch clearBatch [98]) (BitVec.ofNat 64 8),
    setBatchSequence (putBatch clearBatch [97] [11]) (BitVec.ofNat 64 9)]

/-- The third batch has lost its last byte, so the first two are left. -/
theorem log_images_sample : ∃ k, recoverLogFile true ((logFile sampleRecords).take 69) =
    ((sampleLog.cut k).records.map (replayOf (Equiv.refl Bytes)),none) ∧
      (sampleLog.cut k).records = [⟨7,[([97],some [10])]⟩,⟨8,[([98],none)]⟩] := by
  have images : List.Forall₂ (Image (Equiv.refl Bytes)) sampleLog.records sampleRecords := by
    refine .cons ⟨⟨.put .new [97] [10],⟨trivial,by decide,by decide⟩,rfl,rfl⟩,by decide,by decide,by decide⟩ (.cons
      ⟨⟨.delete .new [98],⟨trivial,by decide⟩,rfl,rfl⟩,by decide,by decide,by decide⟩ (.cons
      ⟨⟨.put .new [97] [11],⟨trivial,by decide,by decide⟩,rfl,rfl⟩,by decide,by decide,by decide⟩ .nil))
  obtain ⟨k,replayed⟩ := (log_images true sampleLog sampleRecords images (by decide)).1 69 (by decide)
  have whole : (contained 69 (Writer.open []) sampleRecords).length = 2 := by decide
  have length : (sampleLog.cut k).records.length = 2 := by
    have same := congrArg (·.1.length) (replayed.symm.trans (recoverLogFile_take true images 69))
    simp only [List.length_map,whole] at same
    exact same
  have kept : (sampleLog.cut k).records = sampleLog.records.take 2 := by
    rw [LogFile.cut,List.take_eq_take_iff]
    exact (List.length_take ..).symm.trans length
  exact ⟨k,replayed,kept⟩

end Replay

end LevelDB.Log
