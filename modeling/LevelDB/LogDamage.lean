import LevelDB.LogTorn

/-! Damaged logs. Whatever a file holds, the reader returns only records whose fragments
it found whole and side by side; and damage costs the rest of its block, no more. -/
namespace LevelDB.Log

/-- Where the next header after position `p` of a file stands: a trailer is skipped. -/
def nextHeader (p : Nat) : Nat := p + (trailer (p % kBlockSize)).length

/-- A physical record with a valid checksum at position `p` of the file. -/
structure PhysicalAt (file : Bytes) (p : Nat) (f : Fragment) : Prop where
  bytes : emitPhysicalRecord f.type f.payload <+: file.drop p
  inBlock : p % kBlockSize + kHeaderSize + f.payload.length ≤ kBlockSize

instance (file : Bytes) (p : Nat) (f : Fragment) : Decidable (PhysicalAt file p f) :=
  decidable_of_iff (emitPhysicalRecord f.type f.payload <+: file.drop p ∧
    p % kBlockSize + kHeaderSize + f.payload.length ≤ kBlockSize)
    ⟨fun ⟨bytes,inBlock⟩ => ⟨bytes,inBlock⟩,fun found => ⟨found.bytes,found.inBlock⟩⟩

/-- A first fragment and middle ones side by side, which end at the position. -/
inductive Collected (file : Bytes) : Nat → Bytes → Prop
  | first (found : PhysicalAt file p ⟨.first,payload⟩) :
    Collected file (p + kHeaderSize + payload.length) payload
  | middle (before : Collected file q scratch) (found : PhysicalAt file (nextHeader q) ⟨.middle,payload⟩) :
    Collected file (nextHeader q + kHeaderSize + payload.length) (scratch ++ payload)

/-- The record is in the file, in one piece or as fragments side by side. -/
inductive Stored (file : Bytes) : Bytes → Prop
  | full (found : PhysicalAt file p ⟨.full,record⟩) : Stored file record
  | last (before : Collected file q scratch) (found : PhysicalAt file (nextHeader q) ⟨.last,payload⟩) :
    Stored file (scratch ++ payload)

/-- The reader stands at a position of the file. -/
structure Reader.Stands (r : Reader) (file : Bytes) (p offset : Nat) : Prop where
  at_ : r.At offset (file.drop p)
  same : offset % kBlockSize = p % kBlockSize
  inside : p ≤ file.length

theorem nextHeader_spec {p offset : Nat} (bound : offset ≤ kBlockSize)
    (same : offset % kBlockSize = p % kBlockSize) :
    nextHeader p = p + (trailer offset).length ∧ switchBlock offset = nextHeader p % kBlockSize ∧
      switchBlock offset + kHeaderSize ≤ kBlockSize := by
  simp only [nextHeader,trailer_length,switchBlock,kBlockSize,kHeaderSize] at *
  rcases Nat.lt_or_eq_of_le bound with inside | rfl
  · have inBlock : p % 32768 = offset := by omega
    by_cases short : 32768 - offset < 7
    · simp only [inBlock,short,if_true,true_and]
      omega
    · simp only [inBlock,short,if_false,true_and]
      omega
  · have inBlock : p % 32768 = 0 := by omega
    rw [inBlock]
    refine ⟨rfl,?_,by decide⟩
    change 0 = p % 32768
    exact inBlock.symm

section Physical
variable {r : Reader} {file : Bytes} {p offset : Nat}

/-- The block of the next header is loaded, or the file ends before it. -/
theorem Reader.Stands.load (stands : r.Stands file p offset) :
    r.load.Loaded (switchBlock offset) (file.drop (nextHeader p)) ∧ nextHeader p ≤ file.length ∨
      file.length < nextHeader p ∧ r.load = r ∧ r.eof = true ∧ r.file = [] ∧ r.buffer.length < kHeaderSize ∧
        r.buffer.length = file.length - p ∧ offset + r.buffer.length < kBlockSize := by
  obtain ⟨at_,same,inside⟩ := stands
  obtain ⟨header,-,-⟩ := nextHeader_spec at_.bound same
  have width := trailer_length offset
  by_cases room : nextHeader p ≤ file.length
  · left
    refine ⟨At.load r offset ((file.drop p).take (trailer offset).length) _ ?_ ?_,room⟩
    · rw [List.length_take,List.length_drop]
      omega
    · have split : (file.drop p).take (trailer offset).length ++ file.drop (nextHeader p) = file.drop p := by
        rw [header,← List.drop_drop]
        exact List.take_append_drop _ _
      rw [split]
      exact at_
  · right
    have length := At.length r at_
    rw [List.length_drop] at length
    have eof : r.eof = true := by
      by_contra more
      have full := at_.more (Bool.eq_false_iff.mpr more)
      split at width <;> simp only [kBlockSize,kHeaderSize] at * <;> omega
    obtain ⟨none,short⟩ := at_.last eof
    rw [none,List.length_nil] at length
    refine ⟨by omega,by simp [Reader.load,eof],eof,none,?_,by omega,short⟩
    split at width <;> simp only [kBlockSize,kHeaderSize] at * <;> omega

/-- The rest of the block is given up. -/
theorem cleared_stands (loaded : r.load.Loaded (switchBlock offset) (file.drop (nextHeader p)))
    (bound : offset ≤ kBlockSize) (same : offset % kBlockSize = p % kBlockSize)
    (inside : nextHeader p ≤ file.length) :
    ({ r.load with buffer := [] } : Reader).Stands file (nextHeader p + r.load.buffer.length)
      (switchBlock offset + r.load.buffer.length) := by
  obtain ⟨header,here,room⟩ := nextHeader_spec bound same
  have length : r.load.buffer.length = min (kBlockSize - switchBlock offset) (file.length - nextHeader p) := by
    rw [loaded.buffer,List.length_take,List.length_drop]
  have eof := loaded.eof
  rw [List.length_drop] at eof
  refine ⟨⟨loaded.start,loaded.synced,loaded.checked,by omega,?_,?_,?_⟩,?_,by omega⟩
  · have rest := loaded.file
    rw [List.drop_drop] at rest
    simp only [List.nil_append]
    rcases Nat.le_total (kBlockSize - switchBlock offset) (file.length - nextHeader p) with full | short
    · rw [rest,length,Nat.min_eq_left full]
    · rw [rest,length,List.drop_of_length_le (by omega),List.drop_of_length_le (by omega)]
  · intro more
    have more : r.load.eof = false := more
    rw [more] at eof
    have full := of_decide_eq_false eof.symm
    have width : switchBlock offset + r.load.buffer.length = kBlockSize := by omega
    simp [width]
  · intro last
    have last : r.load.eof = true := last
    rw [last] at eof
    have short := of_decide_eq_true eof.symm
    refine ⟨?_,?_⟩
    · show r.load.file = []
      rw [loaded.file,List.drop_of_length_le]
      rw [List.length_drop]
      omega
    · simp only [List.length_nil]
      omega
  · rw [here]
    simp only [kBlockSize]
    omega

/-- What one call of `ReadPhysicalRecord` can do: meet the end, give up the rest of a
block, or deliver a physical record whose checksum it has verified. -/
inductive Reader.Physical (r : Reader) (file : Bytes) (p : Nat) : Prop
  | eof (next : Reader) (offset : Nat) (answer : r.readPhysicalRecord = ((kEof,[]),next))
    (stands : next.Stands file file.length offset)
  | bad (next : Reader) (q offset : Nat) (answer : r.readPhysicalRecord = ((kBadRecord,[]),next))
    (past : p < q) (stands : next.Stands file q offset)
  | record (next : Reader) (type offset : Nat) (payload : Bytes)
    (answer : r.readPhysicalRecord = ((type,payload),next))
    (found : ∀ t : RecordType, type = t.code.toNat → PhysicalAt file (nextHeader p) ⟨t,payload⟩)
    (stands : next.Stands file (nextHeader p + kHeaderSize + payload.length) offset)

theorem Reader.Stands.reported (stands : r.Stands file p offset) (n : Nat) (reason : String) :
    (r.reportDrop n reason).Stands file p offset :=
  ⟨At.reported r n reason stands.at_,stands.same,stands.inside⟩

theorem le_nextHeader (p : Nat) : p ≤ nextHeader p := Nat.le_add_right _ _

/-- The record at the head of the buffer is taken. -/
theorem taken_stands (loaded : r.load.Loaded (switchBlock offset) (file.drop (nextHeader p)))
    (bound : offset ≤ kBlockSize) (same : offset % kBlockSize = p % kBlockSize)
    (n : Nat) (whole : n ≤ r.load.buffer.length) (some_ : 0 < n) (inside : nextHeader p ≤ file.length) :
    ({ r.load with buffer := r.load.buffer.drop n } : Reader).Stands file (nextHeader p + n)
      (switchBlock offset + n) := by
  obtain ⟨header,here,room⟩ := nextHeader_spec bound same
  have length : r.load.buffer.length = min (kBlockSize - switchBlock offset) (file.length - nextHeader p) := by
    rw [loaded.buffer,List.length_take,List.length_drop]
  have eof := loaded.eof
  rw [List.length_drop] at eof
  refine ⟨⟨loaded.start,loaded.synced,loaded.checked,by omega,?_,?_,?_⟩,?_,by omega⟩
  · show r.load.buffer.drop n ++ r.load.file = _
    rw [← List.drop_append_of_le_length whole,loaded.buffer,loaded.file,List.take_append_drop,List.drop_drop]
  · intro more
    have more : r.load.eof = false := more
    rw [more] at eof
    have full := of_decide_eq_false eof.symm
    show (r.load.buffer.drop n).length = _
    rw [List.length_drop,Nat.mod_eq_of_lt (by simp only [kBlockSize] at *; omega)]
    omega
  · intro last
    have last : r.load.eof = true := last
    rw [last] at eof
    have short := of_decide_eq_true eof.symm
    refine ⟨?_,?_⟩
    · show r.load.file = []
      rw [loaded.file,List.drop_of_length_le]
      rw [List.length_drop]
      omega
    · show _ + (r.load.buffer.drop n).length < _
      rw [List.length_drop]
      omega
  · rw [here]
    simp only [kBlockSize]
    omega

theorem Reader.Stands.physical (stands : r.Stands file p offset) : r.Physical file p := by
  have bound := stands.at_.bound
  have same := stands.same
  obtain ⟨header,here,room⟩ := nextHeader_spec bound same
  rcases stands.load with ⟨loaded,inside⟩ | ⟨short,load,eof,none,small,left,fits⟩
  · have cleared := cleared_stands loaded bound same inside
    have length : r.load.buffer.length =
        min (kBlockSize - switchBlock offset) (file.length - nextHeader p) := by
      rw [loaded.buffer,List.length_take,List.length_drop]
    have ends : r.load.eof = true → nextHeader p + r.load.buffer.length = file.length := by
      intro last
      have eof := loaded.eof
      rw [last,List.length_drop] at eof
      have short := of_decide_eq_true eof.symm
      omega
    have before := le_nextHeader p
    by_cases small : r.load.buffer.length < kHeaderSize
    · have last : r.load.eof = true := by
        rw [loaded.eof,List.length_drop,decide_eq_true_eq]
        omega
      rw [ends last] at cleared
      exact .eof _ _ (by rw [readPhysicalRecord_eq,if_pos small]) cleared
    · have parse : r.readPhysicalRecord = r.load.parse := by rw [readPhysicalRecord_eq,if_neg small]
      have progress : p < nextHeader p + r.load.buffer.length := by
        simp only [kHeaderSize] at small
        omega
      unfold Reader.parse at parse
      simp only at parse
      split at parse
      · split at parse
        next last =>
          rw [ends last] at cleared
          exact .eof _ _ parse cleared
        · exact .bad _ _ _ parse progress (cleared.reported _ _)
      next whole =>
        split at parse
        · exact .bad _ _ _ parse progress cleared
        · split at parse
          · exact .bad _ _ _ parse progress (cleared.reported _ _)
          next checked =>
            rw [if_neg (by rw [loaded.start]; exact Nat.not_lt_zero _)] at parse
            have matches_ : checksumMatches r.load.buffer (headerLength r.load.buffer) = true := by
              simpa [loaded.checked] using checked
            have size : ((r.load.buffer.drop kHeaderSize).take (headerLength r.load.buffer)).length =
                headerLength r.load.buffer := by
              rw [List.length_take,List.length_drop]
              omega
            refine .record _ _ (switchBlock offset + (kHeaderSize + headerLength r.load.buffer)) _ parse ?_ ?_
            · intro t type
              have emitted := emit_of_readable r.load.buffer t (by omega) type matches_ (by omega)
              refine ⟨?_,?_⟩
              · refine List.IsPrefix.trans ?_ (List.take_prefix (kBlockSize - switchBlock offset) _)
                rw [← loaded.buffer]
                exact ⟨_,emitted.symm⟩
              · simp only [size]
                rw [← here]
                omega
            · rw [size,Nat.add_assoc]
              exact taken_stands loaded bound same (kHeaderSize + headerLength r.load.buffer) (by omega) (by simp only [kHeaderSize]; omega) inside
  · refine .eof { r with buffer := [] } (offset + r.buffer.length) ?_ ?_
    · rw [readPhysicalRecord_eq,load,if_pos small]
    · refine ⟨⟨stands.at_.start,stands.at_.synced,stands.at_.checked,by omega,?_,?_,?_⟩,?_,Nat.le_refl _⟩
      · simp [none]
      · intro more
        simp [eof] at more
      · exact fun _ => ⟨none,by simpa using fits⟩
      · have whole := stands.inside
        rw [left]
        simp only [kBlockSize] at *
        omega

theorem Reader.Stands.clean (stands : r.Stands file p offset) :
    ({ r with resyncing := false } : Reader).Stands file p offset :=
  ⟨⟨stands.at_.start,rfl,stands.at_.checked,stands.at_.bound,stands.at_.stream,stands.at_.more,
    stands.at_.last⟩,stands.same,stands.inside⟩

theorem Reader.Stands.moved (stands : r.Stands file p offset) (n : Nat) :
    ({ r with lastRecordOffset := n } : Reader).Stands file p offset :=
  ⟨⟨stands.at_.start,stands.at_.synced,stands.at_.checked,stands.at_.bound,stands.at_.stream,
    stands.at_.more,stands.at_.last⟩,stands.same,stands.inside⟩

/-- What is left after a pass of the loop of `ReadRecord`. -/
structure Reader.Sound (answer : Option Bytes × Reader) (file : Bytes) : Prop where
  stored : ∀ record, answer.1 = some record → Stored file record
  stands : ∃ q offset, answer.2.Stands file q offset

/-- While the loop of `ReadRecord` collects, the fragments it has stand side by side just
before the reader; whatever else it meets makes it drop them. -/
theorem Reader.Stands.readLoop (stands : r.Stands file p offset) (fuel : Nat) (pending : Option Bytes)
    (prospective : Nat) (held : ∀ scratch, pending = some scratch → Collected file p scratch) :
    Reader.Sound (r.readLoop fuel pending prospective) file := by
  induction fuel generalizing r p offset pending prospective with
  | zero => exact ⟨by simp [Reader.readLoop],p,offset,stands⟩
  | succ fuel ih =>
    have nothing : ∀ (q : Nat) (scratch : Bytes), (none : Option Bytes) = some scratch →
        Collected file q scratch := by simp
    rcases stands.physical with ⟨next,_,answer,after⟩ | ⟨next,q,_,answer,-,after⟩ |
      ⟨next,type,_,payload,answer,found,after⟩
    · simp only [Reader.readLoop,answer,after.at_.synced,kEof]
      exact ⟨by simp,_,_,after.clean⟩
    · simp only [Reader.readLoop,answer,after.at_.synced,kBadRecord]
      cases pending with
      | none => exact ih after.clean none _ (nothing _)
      | some scratch => exact ih (after.clean.reported _ _) none _ (nothing _)
    · simp only [Reader.readLoop,answer,after.at_.synced,Bool.false_eq_true,false_and,if_false]
      split
      · have record : ∀ record, some payload = some record → Stored file record := by
          intro record same
          obtain rfl := Option.some.inj same
          exact .full (found .full rfl)
        split
        · exact ⟨record,_,_,after.clean.moved _⟩
        · exact ⟨record,_,_,(after.clean.reported _ _).moved _⟩
      · have first : Collected file (nextHeader p + kHeaderSize + payload.length) payload :=
          .first (found .first rfl)
        split
        · exact ih after.clean (some payload) _ (by simpa using first)
        · exact ih (after.clean.reported _ _) (some payload) _ (by simpa using first)
      · cases pending with
        | none => exact ih (after.clean.reported _ _) none _ (nothing _)
        | some scratch =>
          have more := Collected.middle (held scratch rfl) (found .middle rfl)
          exact ih after.clean (some (scratch ++ payload)) _ (by simpa using more)
      · cases pending with
        | none => exact ih (after.clean.reported _ _) none _ (nothing _)
        | some scratch =>
          refine ⟨?_,_,_,after.clean.moved _⟩
          intro record same
          obtain rfl := Option.some.inj same
          exact .last (held scratch rfl) (found .last rfl)
      · exact ⟨by simp,_,_,after.clean⟩
      · cases pending with
        | none => exact ih after.clean none _ (nothing _)
        | some scratch => exact ih (after.clean.reported _ _) none _ (nothing _)
      · exact ih (after.clean.reported _ _) none _ (nothing _)

theorem Reader.Stands.readRecord (stands : r.Stands file p offset) : Reader.Sound r.readRecord file := by
  rw [At.readRecord r stands.at_]
  exact stands.readLoop _ none 0 (by simp)

/-- The reader after some calls of `ReadRecord`, whatever they returned. -/
def Reader.afterCalls (r : Reader) : Nat → Reader
  | 0 => r
  | n + 1 => (r.afterCalls n).readRecord.2

theorem afterCalls_stands (file : Bytes) (n : Nat) :
    ∃ q offset, ((Reader.new file true 0).afterCalls n).Stands file q offset := by
  induction n with
  | zero => exact ⟨0,0,new_at file,rfl,Nat.zero_le _⟩
  | succ n ih =>
    obtain ⟨q,offset,stands⟩ := ih
    exact stands.readRecord.stands

end Physical

/-- Where the headers of consecutive fragments stand in the file. -/
def placed : Nat → List Fragment → List (Nat × Fragment)
  | _, [] => []
  | p, f :: rest => (nextHeader p,f) :: placed (nextHeader p + kHeaderSize + f.payload.length) rest

/-- The length and checksum tests of `ReadPhysicalRecord` on a header at position `p`. -/
def Passes (file : Bytes) (p : Nat) : Prop :=
  let block := (file.drop p).take (kBlockSize - p % kBlockSize)
  kHeaderSize + headerLength block ≤ block.length ∧ checksumMatches block (headerLength block) = true

instance (file : Bytes) (p : Nat) : Decidable (Passes file p) := by
  unfold Passes; infer_instance

/-- The block of the file that position `p` is in is as it was. -/
def Unmodified (file other : Bytes) (p : Nat) : Prop :=
  (other.drop (p / kBlockSize * kBlockSize)).take kBlockSize =
    (file.drop (p / kBlockSize * kBlockSize)).take kBlockSize

instance (file other : Bytes) (p : Nat) : Decidable (Unmodified file other p) := by
  unfold Unmodified; infer_instance

/-- The records of a session all of whose fragments lie in unmodified blocks. -/
def intact (file other : Bytes) : Writer → List Bytes → List Bytes
  | _, [] => []
  | w, data :: rest =>
    if ∀ place ∈ placed w.dest.length (fragments w.blockOffset data), Unmodified file other place.1
    then data :: intact file other (w.addRecord data) rest else intact file other (w.addRecord data) rest

/-- What becomes of placed fragments: they are found as they were, or they are given up
with a block that was changed, or with the end of the file. -/
inductive Survives (changed : Nat → Prop) : List (Nat × Fragment) → List Item → Prop
  | done : Survives changed [] []
  | whole (rest : Survives changed places items) : Survives changed ((p,f) :: places) (.fragment f :: items)
  | lost (first : changed p) (more : ∀ place ∈ dropped, changed place.1) (rest : Survives changed places items) :
    Survives changed ((p,f) :: (dropped ++ places)) (.damaged bytes :: items)
  | ended (all : ∀ place ∈ dropped, changed place.1) : Survives changed dropped []

/-- Fragments in blocks that were not changed are all found. -/
theorem Survives.found {changed : Nat → Prop} (places rest : List (Nat × Fragment)) (items : List Item)
    (survives : Survives changed (places ++ rest) items) (kept : ∀ place ∈ places, ¬changed place.1) :
    ∃ later, items = places.map (fun place => .fragment place.2) ++ later ∧ Survives changed rest later := by
  induction places generalizing items with
  | nil => exact ⟨items,rfl,survives⟩
  | cons place places ih =>
    have here : ¬changed place.1 := kept place List.mem_cons_self
    rw [List.cons_append] at survives
    generalize same : places ++ rest = others at survives
    cases survives with
    | whole after =>
      subst same
      obtain ⟨later,rfl,more⟩ := ih _ after (fun place member => kept place (List.mem_cons_of_mem _ member))
      exact ⟨later,rfl,more⟩
    | lost first => exact absurd first here
    | ended all => exact absurd (all place List.mem_cons_self) here

/-- One fragment less: what the rest amounts to is among what all amount to. -/
theorem Survives.skip {changed : Nat → Prop} {place : Nat × Fragment} {rest : List (Nat × Fragment)}
    {items : List Item} (survives : Survives changed (place :: rest) items) (pending : Option Bytes) :
    ∃ later held, Survives changed rest later ∧ (assemble held later).Sublist (assemble pending items) := by
  cases survives with
  | whole after => exact ⟨_,_,after,List.sublist_append_right _ _⟩
  | ended all =>
    exact ⟨[],none,.ended (fun place member => all place (List.mem_cons_of_mem _ member)),List.Sublist.refl _⟩
  | @lost p dropped places items f bytes first more after =>
    cases dropped with
    | nil => exact ⟨_,_,after,List.sublist_append_right _ _⟩
    | cons next dropped =>
      refine ⟨.damaged bytes :: items,pending,?_,List.Sublist.refl _⟩
      exact .lost (more next List.mem_cons_self)
        (fun place member => more place (List.mem_cons_of_mem _ member)) after

theorem Survives.skipAll {changed : Nat → Prop} (places rest : List (Nat × Fragment)) (items : List Item)
    (survives : Survives changed (places ++ rest) items) (pending : Option Bytes) :
    ∃ later held, Survives changed rest later ∧ (assemble held later).Sublist (assemble pending items) := by
  induction places generalizing items pending with
  | nil => exact ⟨items,pending,survives,List.Sublist.refl _⟩
  | cons place places ih =>
    obtain ⟨later,held,after,fewer⟩ := survives.skip pending
    obtain ⟨last,kept,final,fewest⟩ := ih later after held
    exact ⟨last,kept,final,fewest.trans fewer⟩

theorem advance_position {p offset : Nat} (f : Fragment) (bound : offset ≤ kBlockSize)
    (same : offset % kBlockSize = p % kBlockSize) :
    f.advance offset % kBlockSize = (nextHeader p + kHeaderSize + f.payload.length) % kBlockSize ∧
      p + (f.emit offset).length = nextHeader p + kHeaderSize + f.payload.length := by
  obtain ⟨header,here,-⟩ := nextHeader_spec bound same
  refine ⟨?_,?_⟩
  · rw [Fragment.advance,here,Nat.add_assoc,Nat.add_assoc,Nat.mod_add_mod]
  · rw [Fragment.emit,List.length_append,emitPhysicalRecord_length,header]
    omega

theorem placed_append (left right : List Fragment) (p offset : Nat) (bound : offset ≤ kBlockSize)
    (same : offset % kBlockSize = p % kBlockSize) (fits : FitsAll offset (left.map .fragment)) :
    placed p (left ++ right) = placed p left ++ placed (p + (layout offset left).length) right := by
  induction left generalizing p offset with
  | nil => simp [placed,layout]
  | cons f left ih =>
    obtain ⟨next,length⟩ := advance_position f bound same
    simp only [List.cons_append,placed,layout,List.length_append,← Nat.add_assoc,length]
    rw [ih _ (f.advance offset) fits.1.1 next fits.2]

/-- The writer's file has its fragments where they were placed. -/
theorem placed_physical (fs : List Fragment) (before : Bytes) (offset : Nat) (bound : offset ≤ kBlockSize)
    (same : offset % kBlockSize = before.length % kBlockSize) (fits : FitsAll offset (fs.map .fragment)) :
    ∀ place ∈ placed before.length fs, PhysicalAt (before ++ layout offset fs) place.1 place.2 := by
  induction fs generalizing before offset with
  | nil => simp [placed]
  | cons f fs ih =>
    obtain ⟨next,length⟩ := advance_position f bound same
    obtain ⟨header,here,room⟩ := nextHeader_spec bound same
    have size : (before ++ f.emit offset).length = nextHeader before.length + kHeaderSize + f.payload.length := by
      rw [List.length_append,length]
    intro place member
    rcases List.mem_cons.mp member with rfl | later
    · refine ⟨?_,?_⟩
      · refine ⟨layout (f.advance offset) fs,?_⟩
        rw [layout,Fragment.emit,header,← List.append_assoc,← List.append_assoc,List.append_assoc,
          ← List.length_append,List.drop_left]
      · have inside := fits.1.1
        simp only [Fragment.advance] at inside
        simp only [← here]
        exact inside
    · rw [← size] at later
      have physical := ih (before ++ f.emit offset) (f.advance offset) fits.1.1 (by rw [size]; exact next) fits.2
        place later
      rwa [List.append_assoc] at physical

/-- A physical record in a block that was not modified is still there. -/
theorem PhysicalAt.kept {file other : Bytes} {p : Nat} {f : Fragment} (found : PhysicalAt file p f)
    (unmodified : Unmodified file other p) : PhysicalAt other p f := by
  refine ⟨?_,found.inBlock⟩
  have inBlock := found.inBlock
  have parts : p / kBlockSize * kBlockSize + p % kBlockSize = p := Nat.div_add_mod' _ _
  have window : ∀ bytes : Bytes, (bytes.drop p).take (kBlockSize - p % kBlockSize) =
      ((bytes.drop (p / kBlockSize * kBlockSize)).take kBlockSize).drop (p % kBlockSize) := by
    intro bytes
    rw [List.drop_take,List.drop_drop,parts]
  refine List.IsPrefix.trans ?_ (List.take_prefix (kBlockSize - p % kBlockSize) _)
  rw [window other,unmodified,← window file]
  rw [List.prefix_take_iff,emitPhysicalRecord_length]
  exact ⟨found.bytes,by omega⟩

/-- A damaged header in the short last block ends the log. -/
theorem ends_short (offset : Nat) (skip bytes : Bytes) (skipped : skip.length = (trailer offset).length)
    (short : switchBlock offset + bytes.length < kBlockSize) (bad : Unreadable bytes) :
    Ends False offset (skip ++ bytes) := by
  intro r at_ fuel pending prospective
  refine ⟨?_,False.elim⟩
  have loaded := At.load r offset skip bytes skipped at_
  have buffer : r.load.buffer = bytes := by rw [loaded.buffer,List.take_of_length_le (by omega)]
  have file : r.load.file = [] := by rw [loaded.file,List.drop_of_length_le (by omega)]
  have eof : r.load.eof = true := by rw [loaded.eof]; simpa using short
  have cleared : ({ r.load with buffer := [] } : Reader).At (switchBlock offset + bytes.length) [] :=
    ⟨loaded.start,loaded.synced,loaded.checked,by omega,by simp [file],by simp [eof],
      fun _ => ⟨file,by simpa using short⟩⟩
  have silent : ∀ q : Reader, q.At (switchBlock offset + bytes.length) [] → ∀ fuel pending prospective,
      (q.readLoop fuel pending prospective).1 = none :=
    fun q stands fuel pending prospective =>
      ((dead_nil _ (Nat.le_of_lt short)).ends q stands fuel pending prospective).1
  have answer : r.readPhysicalRecord = ((kEof,[]),{ r.load with buffer := [] }) ∨
      ∃ next, r.readPhysicalRecord = ((kBadRecord,[]),next) ∧
        next.At (switchBlock offset + bytes.length) [] := by
    have header : ¬r.load.buffer.length < kHeaderSize := by rw [buffer]; exact Nat.not_lt.mpr bad.1
    rw [readPhysicalRecord_eq,if_neg header,Reader.parse]
    simp only [buffer,eof,if_true]
    by_cases long : bytes.length < kHeaderSize + headerLength bytes
    · exact .inl (by rw [if_pos long])
    · rw [if_neg long]
      right
      by_cases empty : headerType bytes = 0 ∧ headerLength bytes = 0
      · exact ⟨_,by rw [if_pos empty],by simpa [eof] using cleared⟩
      · have mismatch : checksumMatches bytes (headerLength bytes) = false := by
          rcases bad.2 with h | h | h
          · exact absurd h long
          · exact absurd h empty
          · exact h
        rw [if_neg empty,if_pos (by simp [loaded.checked,mismatch])]
        exact ⟨_,rfl,At.reported _ _ _ (by simpa [eof] using cleared)⟩
  cases fuel with
  | zero => rfl
  | succ fuel =>
    rcases answer with answer | ⟨next,answer,after⟩
    · simp [Reader.readLoop,answer,loaded.synced,kEof]
    · have clean : ({ next with resyncing := false } : Reader).At (switchBlock offset + bytes.length) [] :=
        ⟨after.start,rfl,after.checked,after.bound,after.stream,after.more,after.last⟩
      cases pending with
      | none =>
        simp only [Reader.readLoop,answer,after.synced,kBadRecord]
        exact silent _ clean _ _ _
      | some scratch =>
        simp only [Reader.readLoop,answer,after.synced,kBadRecord]
        exact silent _ (At.reported _ _ _ clean) _ _ _

/-- The fragments that share a block with a place where the reader gave up. -/
theorem rest_of_block (fs : List Fragment) (p offset : Nat) (bound : offset ≤ kBlockSize)
    (same : offset % kBlockSize = p % kBlockSize) (fits : FitsAll offset (fs.map .fragment)) :
    ∃ dropped rest, fs.length = dropped.length + rest.length ∧
      placed p fs = placed p dropped ++ placed (p + (kBlockSize - offset)) rest ∧
      (∀ place ∈ placed p dropped, p ≤ place.1 ∧ place.1 < p + (kBlockSize - offset)) ∧
      FitsAll kBlockSize (rest.map .fragment) ∧
      (rest = [] ∧ p + (layout offset fs).length ≤ p + (kBlockSize - offset) ∨
        p + (layout offset fs).length = p + (kBlockSize - offset) + (layout kBlockSize rest).length) := by
  induction fs generalizing p offset with
  | nil => exact ⟨[],[],rfl,rfl,by simp [placed],trivial,.inl ⟨rfl,by simp [layout]⟩⟩
  | cons f fs ih =>
    obtain ⟨next,length⟩ := advance_position f bound same
    obtain ⟨header,here,room⟩ := nextHeader_spec bound same
    have width := trailer_length offset
    by_cases short : kBlockSize - offset < kHeaderSize
    · simp only [short,if_true] at width
      have start : nextHeader (p + (kBlockSize - offset)) = p + (kBlockSize - offset) := by
        have aligned : (p + (kBlockSize - offset)) % kBlockSize = 0 := by
          simp only [kBlockSize] at *
          omega
        simp only [nextHeader,aligned]
        rfl
      have switch : switchBlock offset = switchBlock kBlockSize := by
        simp only [switchBlock,short,if_true]
        decide
      have bytes := layout_switch offset kBlockSize switch f fs (trailer offset) (by simp [trailer])
      refine ⟨[],f :: fs,by simp,?_,by simp [placed],?_,.inr ?_⟩
      · simp only [placed,List.nil_append,start,header,width]
      · obtain ⟨inside,later⟩ := fits
        have advance : f.advance offset = f.advance kBlockSize := by simp only [Fragment.advance,switch]
        refine ⟨⟨advance ▸ inside.1,inside.2⟩,?_⟩
        simp only [Item.advance,advance] at later
        exact later
      · rw [← bytes,List.length_append,width]
        omega
    · simp only [short,if_false] at width
      rw [width,Nat.add_zero] at header
      rw [header] at next length
      obtain ⟨dropped,rest,count,places,inBlock,fitsRest,total⟩ := ih _ (f.advance offset) fits.1.1 next fits.2
      have inside : f.advance offset ≤ kBlockSize := fits.1.1
      have stays : switchBlock offset = offset := by simp [switchBlock,short]
      have stop : p + kHeaderSize + f.payload.length + (kBlockSize - f.advance offset) =
          p + (kBlockSize - offset) := by
        simp only [Fragment.advance,stays] at inside ⊢
        omega
      rw [stop] at places inBlock total
      refine ⟨f :: dropped,rest,by simp [count]; omega,?_,?_,fitsRest,?_⟩
      · simp only [placed,header,places,List.cons_append]
      · intro place member
        simp only [placed,header,List.mem_cons] at member
        rcases member with rfl | later
        · simp only [kHeaderSize] at short
          omega
        · have := inBlock place later
          omega
      · simp only [layout,List.length_append,← Nat.add_assoc,length]
        exact total

section Damage
variable {changed : Nat → Prop} {other : Bytes}

/-- Whatever happens inside a changed block, the reader meets the fragments of the other
blocks as they were written. -/
theorem survives (count : Nat) (fs : List Fragment) (size : fs.length ≤ count) (p offset : Nat)
    (bound : offset ≤ kBlockSize) (same : offset % kBlockSize = p % kBlockSize)
    (fits : FitsAll offset (fs.map .fragment)) (length : other.length = p + (layout offset fs).length)
    (kept : ∀ place ∈ placed p fs, PhysicalAt other place.1 place.2 ∨ ¬Passes other place.1)
    (altered : ∀ place ∈ placed p fs, ¬PhysicalAt other place.1 place.2 →
      ∀ q, q / kBlockSize = place.1 / kBlockSize → changed q) :
    ∃ items tail, FitsAll offset items ∧ Laid offset items tail (other.drop p) ∧
      Ends False (endOfItems offset items) tail ∧ Survives changed (placed p fs) items := by
  induction count generalizing fs p offset with
  | zero =>
    obtain rfl : fs = [] := List.length_eq_zero_iff.mp (Nat.le_zero.mp size)
    have ends := (dead_nil offset bound).ends
    refine ⟨[],[],trivial,?_,fun r at_ fuel pending prospective =>
      ⟨(ends r at_ fuel pending prospective).1,False.elim⟩,.done⟩
    simp only [layout,List.length_nil] at length
    simp [Laid,length]
  | succ count ih =>
    cases fs with
    | nil => exact ih [] (Nat.zero_le _) p offset bound same fits length kept altered
    | cons f fs =>
      obtain ⟨next,emitted⟩ := advance_position f bound same
      obtain ⟨header,here,room⟩ := nextHeader_spec bound same
      have inside : f.advance offset ≤ kBlockSize := fits.1.1
      simp only [layout,List.length_append,← Nat.add_assoc,emitted] at length
      have skip : ((other.drop p).take (trailer offset).length).length = (trailer offset).length := by
        rw [List.length_take,List.length_drop]
        omega
      have split : other.drop p = (other.drop p).take (trailer offset).length ++ other.drop (nextHeader p) := by
        rw [header,← List.drop_drop,List.take_append_drop]
      have keptLater : ∀ place ∈ placed (nextHeader p + kHeaderSize + f.payload.length) fs,
          PhysicalAt other place.1 place.2 ∨ ¬Passes other place.1 :=
        fun place member => kept place (List.mem_cons_of_mem _ member)
      have alteredLater : ∀ place ∈ placed (nextHeader p + kHeaderSize + f.payload.length) fs,
          ¬PhysicalAt other place.1 place.2 → ∀ q, q / kBlockSize = place.1 / kBlockSize → changed q :=
        fun place member => altered place (List.mem_cons_of_mem _ member)
      rcases Classical.em (PhysicalAt other (nextHeader p) f) with whole | damaged
      · obtain ⟨items,tail,fitsItems,laid,ends,rest⟩ := ih fs (by simpa using size) _ (f.advance offset)
          inside next fits.2 length keptLater alteredLater
        refine ⟨.fragment f :: items,tail,⟨fits.1,fitsItems⟩,⟨_,_,skip,?_,laid⟩,ends,.whole rest⟩
        obtain ⟨bytes,found⟩ := whole.bytes
        have after : bytes = other.drop (nextHeader p + kHeaderSize + f.payload.length) := by
          rw [Nat.add_assoc,← List.drop_drop,← found,← emitPhysicalRecord_length f.type f.payload,
            List.drop_left]
        rw [← after]
        simp only [Item.body]
        rw [found]
        exact split
      · obtain ⟨dropped,rest,shorter,places,inBlock,fitsRest,total⟩ :=
          rest_of_block fs _ (f.advance offset) inside next fits.2
        have stop : nextHeader p + kHeaderSize + f.payload.length + (kBlockSize - f.advance offset) =
            nextHeader p + (kBlockSize - switchBlock offset) := by
          simp only [Fragment.advance] at inside ⊢
          omega
        rw [stop] at places inBlock total
        simp only [Fragment.advance] at inside
        have first : ∀ q, q / kBlockSize = nextHeader p / kBlockSize → changed q :=
          altered _ List.mem_cons_self damaged
        have others : ∀ place ∈ placed (nextHeader p + kHeaderSize + f.payload.length) dropped,
            changed place.1 := by
          intro place member
          have range := inBlock place member
          apply first
          rw [here] at range room
          simp only [kBlockSize,kHeaderSize] at range room ⊢
          omega
        have bad : Unreadable ((other.drop (nextHeader p)).take (kBlockSize - switchBlock offset)) := by
          have fails := (kept _ List.mem_cons_self).resolve_left damaged
          simp only [Passes,← here,not_and_or,Bool.not_eq_true,Nat.not_le] at fails
          refine ⟨?_,?_⟩
          · rw [List.length_take,List.length_drop]
            omega
          · rcases fails with long | mismatch
            · exact .inl long
            · exact .inr (.inr mismatch)
        rw [← length] at total
        by_cases short : other.length < nextHeader p + (kBlockSize - switchBlock offset)
        · have none : rest = [] := by
            rcases total with ⟨none,-⟩ | total
            · exact none
            · omega
          rw [List.take_of_length_le (by rw [List.length_drop]; omega)] at bad
          refine ⟨[],other.drop p,trivial,rfl,?_,?_⟩
          · rw [split]
            exact ends_short offset _ _ skip (by rw [List.length_drop]; omega) bad
          · refine .ended ?_
            intro place member
            rw [placed,places,none,placed,List.append_nil] at member
            rcases List.mem_cons.mp member with rfl | later
            · exact first _ rfl
            · exact others place later
        · have total : other.length = nextHeader p + (kBlockSize - switchBlock offset) +
              (layout kBlockSize rest).length := by
            rcases total with ⟨rfl,total⟩ | total
            · simp only [layout,List.length_nil]
              omega
            · exact total
          have aligned : kBlockSize % kBlockSize = (nextHeader p + (kBlockSize - switchBlock offset)) % kBlockSize := by
            rw [here] at room ⊢
            simp only [kBlockSize,kHeaderSize] at room ⊢
            omega
          obtain ⟨items,tail,fitsItems,laid,ends,survive⟩ := ih rest (by simp at size; omega) _ kBlockSize
            (Nat.le_refl _) aligned fitsRest total
            (fun place member => keptLater place (by rw [places]; exact List.mem_append_right _ member))
            (fun place member => alteredLater place (by rw [places]; exact List.mem_append_right _ member))
          refine ⟨.damaged ((other.drop (nextHeader p)).take (kBlockSize - switchBlock offset)) :: items,tail,
            ⟨⟨?_,bad⟩,fitsItems⟩,⟨_,_,skip,?_,laid⟩,ends,?_⟩
          · rw [List.length_take,List.length_drop]
            omega
          · rw [Item.body,← List.drop_drop,List.take_append_drop]
            exact split
          · rw [placed,places]
            exact .lost (first _ rfl) others survive

/-- The records that were not touched are among those that survive. -/
theorem intact_sublist (file : Bytes) (records : List Bytes) (w : Writer) (items : List Item)
    (pending : Option Bytes) (bound : w.blockOffset ≤ kBlockSize)
    (same : w.blockOffset % kBlockSize = w.dest.length % kBlockSize)
    (survives : Survives (fun p => ¬Unmodified file other p)
      (placed w.dest.length (stream w.blockOffset records)) items) :
    (intact file other w records).Sublist (assemble pending items) := by
  induction records generalizing w items pending with
  | nil => exact List.nil_sublist _
  | cons data records ih =>
    have fits : FitsAll w.blockOffset ((fragments w.blockOffset data).map .fragment) :=
      fragmentsLoop_fits (data.length + 2) w.blockOffset true data bound
    have bound_next := fitsAll_end _ _ bound fits
    rw [endOfItems_fragments] at bound_next
    have length : (w.addRecord data).dest.length =
        w.dest.length + (layout w.blockOffset (fragments w.blockOffset data)).length := by
      simp [Writer.addRecord]
    have same_next : (w.addRecord data).blockOffset % kBlockSize =
        (w.addRecord data).dest.length % kBlockSize := by
      rw [length,Nat.add_mod,← same,← Nat.add_mod]
      exact (layout_length _ _ bound fits).symm
    rw [stream,placed_append _ _ _ _ bound same fits,← length] at survives
    simp only [intact]
    split
    next kept =>
      obtain ⟨later,rfl,rest⟩ := survives.found _ _ _ (fun place member => not_not_intro (kept place member))
      have names : (placed w.dest.length (fragments w.blockOffset data)).map
          (fun place => Item.fragment place.2) = (fragments w.blockOffset data).map .fragment := by
        generalize fragments w.blockOffset data = fs
        generalize w.dest.length = p
        induction fs generalizing p with
        | nil => rfl
        | cons f fs ih => simp [placed,ih]
      rw [names,assemble_fragments _ _ _ _ bound]
      exact (ih (w.addRecord data) later none bound_next same_next rest).cons_cons data
    · obtain ⟨later,held,rest,fewer⟩ := survives.skipAll _ _ _ pending
      exact (ih (w.addRecord data) later held bound_next same_next rest).trans fewer

end Damage

/-- Every record that a reader returns stands in the file in one piece, or as fragments with
nothing between them but block trailers. And when a written file is changed in place, so
that what was altered fails the reader's tests, the records of the other blocks are returned. -/
theorem damage_contained :
    (∀ (file : Bytes) (calls : Nat) (record : Bytes),
      ((Reader.new file true 0).afterCalls calls).readRecord.1 = some record → Stored file record) ∧
    ∀ (records : List Bytes) (other : Bytes),
      other.length = ((Writer.open []).addRecords records).dest.length →
      (∀ place ∈ placed 0 (stream 0 records), PhysicalAt other place.1 place.2 ∨ ¬Passes other place.1) →
      ∃ returned last, (Reader.new other true 0).Returns returned last ∧
        (intact ((Writer.open []).addRecords records).dest other (Writer.open []) records).Sublist returned := by
  refine ⟨?_,?_⟩
  · intro file calls record answer
    obtain ⟨q,offset,stands⟩ := afterCalls_stands file calls
    exact stands.readRecord.stored record answer
  · intro records other length kept
    have fits := stream_fits records 0 (Nat.zero_le _)
    have file : ((Writer.open []).addRecords records).dest = layout 0 (stream 0 records) := by
      simp [addRecords_eq,Writer.open]
    rw [file] at length ⊢
    have physical := placed_physical (stream 0 records) [] 0 (Nat.zero_le _) rfl fits
    simp only [List.nil_append,List.length_nil] at physical
    have altered : ∀ place ∈ placed 0 (stream 0 records), ¬PhysicalAt other place.1 place.2 →
        ∀ q, q / kBlockSize = place.1 / kBlockSize → ¬Unmodified (layout 0 (stream 0 records)) other q := by
      intro place member damaged q block unmodified
      apply damaged
      refine (physical place member).kept ?_
      simp only [Unmodified,block] at unmodified ⊢
      exact unmodified
    obtain ⟨items,tail,fitsItems,laid,ends,survive⟩ := survives _ (stream 0 records) (Nat.le_refl _) 0 0
      (Nat.zero_le _) rfl fits (by simpa using length) kept altered
    obtain ⟨last,returns,-⟩ := returns_items _ _ (Nat.le_refl _) _ 0 tail _ False fitsItems ends laid (new_at _)
    exact ⟨_,last,returns,intact_sublist _ records (Writer.open []) items none (Nat.zero_le _) rfl survive⟩

section Spoiled
variable {data : Bytes}

/-- A record that fills its block, then one in the next block. -/
def filledFile (data : Bytes) : Bytes := layout 0 [⟨.full,data⟩,⟨.full,[2]⟩]

/-- The length in the first header is spoiled. -/
def spoiled (data : Bytes) : Bytes := (filledFile data).set 5 255

theorem fragments_filled (length : data.length = 32761) : fragments 0 data = [⟨.full,data⟩] := by
  have whole : fragmentAt 0 true data = ⟨.full,data⟩ := by
    simp only [fragmentAt,length]
    rw [List.take_of_length_le (by rw [length]; decide)]
    rfl
  simp only [fragments,fragmentsLoop,whole,Nat.lt_irrefl,if_false]

theorem stream_filledFile (length : data.length = 32761) : stream 0 [data,[2]] = [⟨.full,data⟩,⟨.full,[2]⟩] := by
  have second : fragments 32768 [2] = [⟨.full,[2]⟩] := by decide +kernel
  have advance : endOffset 0 [⟨.full,data⟩] = 32768 := by
    simp only [endOffset,List.foldl_cons,List.foldl_nil,Fragment.advance,length]
    rfl
  simp only [stream,fragments_filled length,advance,second]
  rfl

/-- The record of the second block is intact. -/
theorem mem_intact_filled (length : data.length = 32761) {other : Bytes}
    (kept : Unmodified (filledFile data) other 32768) :
    [2] ∈ intact (filledFile data) other (Writer.open []) [data,[2]] := by
  have first : (Writer.open []).addRecord data = ⟨layout 0 [⟨.full,data⟩],32768⟩ := by
    have added := addRecords_eq [data] (Writer.open [])
    simpa [Writer.addRecords,stream,fragments_filled length,Writer.open,endOffset,Fragment.advance,switchBlock,kBlockSize,
      kHeaderSize,length] using added
  have size : (layout 0 [⟨.full,data⟩]).length = 32768 := by
    simp [layout,Fragment.emit,emitPhysicalRecord_length,trailer,kBlockSize,kHeaderSize,length]
  have places : placed 32768 (fragments 32768 [2]) = [(32768,⟨.full,[2]⟩)] := by decide
  have second : ∀ place ∈ placed 32768 (fragments 32768 [2]), Unmodified (filledFile data) other place.1 := by
    rw [places]
    simpa using kept
  simp only [intact,first,size,if_pos second]
  split <;> simp

theorem spoiled_fails (length : data.length = 32761) : ¬Passes (spoiled data) 0 := by
  rintro ⟨fits,-⟩
  have long : 65280 ≤ headerLength (((spoiled data).drop 0).take (kBlockSize - 0 % kBlockSize)) := by
    have size : 5 < (filledFile data).length := by
      simp [filledFile,layout,Fragment.emit,emitPhysicalRecord_length,kHeaderSize,length]
      omega
    simp [headerLength,kBlockSize,spoiled,List.getD_eq_getElem?_getD,size]
  have block := List.length_take_le (kBlockSize - 0 % kBlockSize) ((spoiled data).drop 0)
  simp only [kBlockSize] at block fits long
  omega

end Spoiled

/-- The record of the second block is still returned. -/
theorem damage_contained_spoiled : ∃ data : Bytes, data.length = 32761 ∧ ¬Passes (spoiled data) 0 ∧
    ∃ returned last, (Reader.new (spoiled data) true 0).Returns returned last ∧ [2] ∈ returned := by
  obtain ⟨data,length⟩ : ∃ data : Bytes, data.length = 32761 := ⟨List.replicate 32761 7,List.length_replicate⟩
  have fails := spoiled_fails length
  have dest : ((Writer.open []).addRecords [data,[2]]).dest = filledFile data := by
    simp [addRecords_eq,Writer.open,stream_filledFile length,filledFile]
  have places : placed 0 [⟨.full,data⟩,⟨.full,[2]⟩] = [(0,⟨.full,data⟩),(32768,⟨.full,[2]⟩)] := by
    simp [placed,nextHeader,trailer,kBlockSize,kHeaderSize,length]
  have kept : Unmodified (filledFile data) (spoiled data) 32768 := by
    simp only [Unmodified,spoiled,kBlockSize]
    rw [List.drop_set_of_lt (by decide)]
  have physical := placed_physical [⟨.full,data⟩,⟨.full,[2]⟩] [] 0 (Nat.zero_le _) rfl
    (stream_filledFile length ▸ stream_fits [data,[2]] 0 (Nat.zero_le _))
  simp only [List.nil_append,List.length_nil,places] at physical
  obtain ⟨returned,last,returns,survives⟩ := damage_contained.2 [data,[2]] (spoiled data)
    (by rw [dest,spoiled,List.length_set]) (by
      rw [stream_filledFile length,places]
      intro place member
      rcases List.mem_cons.mp member with rfl | second
      · exact .inr fails
      · cases List.mem_singleton.mp second
        exact .inl ((physical _ (by simp)).kept kept))
  rw [dest] at survives
  exact ⟨data,length,fails,returned,last,returns,survives.subset (mem_intact_filled length kept)⟩

end LevelDB.Log
