import LevelDB.LogUnknown
import LevelDB.Coding
import LevelDB.Format

/-! `Repairer::ConvertLogToTable`: the reader is told not to checksum, and every batch of
the log goes into a memtable. -/
namespace LevelDB.Log

/-- `kHeader` of a write batch. -/
def kBatchHeader : Nat := 12

/-- The loop of `WriteBatch::Iterate`: the updates that the handler gets, and the error. -/
def iterateLoop : Nat → Bytes → List (Bytes × Option Bytes) × Option String
  | 0, _ => ([],none)
  | _, [] => ([],none)
  | fuel + 1, tag :: input =>
    if tag = 1 then
      match (getLengthPrefixedSlice input).bind fun (key,input) => (getLengthPrefixedSlice input).map fun (value,input) =>
          (key,value,input) with
      | some (key,value,input) => let (updates,error) := iterateLoop fuel input; ((key,some value) :: updates,error)
      | none => ([],some "bad WriteBatch Put")
    else if tag = 0 then
      match getLengthPrefixedSlice input with
      | some (key,input) => let (updates,error) := iterateLoop fuel input; ((key,none) :: updates,error)
      | none => ([],some "bad WriteBatch Delete")
    else ([],some "unknown WriteBatch tag")

def iterate (rep : Bytes) : List (Bytes × Option Bytes) × Option String :=
  if rep.length < kBatchHeader then ([],some "malformed WriteBatch (too small)")
  else
    let (updates,error) := iterateLoop rep.length (rep.drop kBatchHeader)
    let count := (decodeFixed32 (rep.drop 8)).toNat
    (updates,error <|> if updates.length % 2^32 = count then none else some "WriteBatch has wrong count")

/-- `InsertInto`: what gets into the memtable, and the error. -/
def insertInto (rep : Bytes) : List (Entry Bytes Bytes) × Option String :=
  let (updates,error) := iterate rep
  let sequence := Sstable.decodeFixed64 rep
  (updates.mapIdx fun i (key,value) => ⟨key,(sequence + i) % 2^64,value⟩,error)

/-- The records that `ReadRecord` returns up to its first false, each with the reader after
it. -/
def Reader.calls : Nat → Reader → List (Bytes × Reader)
  | 0, _ => []
  | fuel + 1, r =>
    match r.readRecord with
    | (none,_) => []
    | (some record,next) => (record,next) :: next.calls fuel

/-- A batch of the log and what it adds to the memtable. -/
structure Import where
  record : Bytes
  entries : List (Entry Bytes Bytes)
  after : Reader

/-- A record that is too small for a batch is passed over. -/
def importOf (record : Bytes) (after : Reader) : Option Import :=
  if record.length < kBatchHeader then none else some ⟨record,(insertInto record).1,after⟩

def imports (file : Bytes) : List Import :=
  ((Reader.new file false 0).calls (file.length + 1)).filterMap fun (record,after) => importOf record after

/-- The entries of the memtable, in the order of their insertion. -/
def convertLogToTable (file : Bytes) : List (Entry Bytes Bytes) := (imports file).flatMap (·.entries)

/-- Where in the file a reader stands. -/
def Reader.position (file : Bytes) (r : Reader) : Nat := file.length - (r.file.length + r.buffer.length)

/-- The physical records of a log record that has not ended: from `p` to `q`. -/
inductive Head (checksum : Bool) (file : Bytes) : Nat → Bytes → Nat → Prop
  | first {p start : Nat} {type : UInt8} {payload : Bytes} (found : lookAt checksum file p = .chunk start type payload)
    (first : type = 2) : Head checksum file p payload (start + kHeaderSize + payload.length)
  | middle {p q start : Nat} {type : UInt8} {data payload : Bytes} (head : Head checksum file p data q)
    (found : lookAt checksum file q = .chunk start type payload) (middle : type = 3) :
    Head checksum file p (data ++ payload) (start + kHeaderSize + payload.length)

/-- The log record that the file frames from `p` to `q`; with `checksum`, all of its physical
records have matching checksums. -/
inductive LogRecord (checksum : Bool) (file : Bytes) : Nat → Bytes → Nat → Prop
  | full {p start : Nat} {type : UInt8} {payload : Bytes} (found : lookAt checksum file p = .chunk start type payload)
    (full : type = 1) : LogRecord checksum file p payload (start + kHeaderSize + payload.length)
  | split {p q start : Nat} {type : UInt8} {data payload : Bytes} (head : Head checksum file p data q)
    (found : lookAt checksum file q = .chunk start type payload) (last : type = 4) :
    LogRecord checksum file p (data ++ payload) (start + kHeaderSize + payload.length)

/-- The positions of the file that its lengths lead to, up to the first type byte 5. -/
inductive Walks (file : Bytes) : Nat → Prop
  | start : Walks file 0
  | lost {p q : Nat} {report : Option (Nat × String)} (walks : Walks file p)
    (found : lookAt false file p = .lost q report) : Walks file q
  | chunk {p start : Nat} {type : UInt8} {payload : Bytes} (walks : Walks file p)
    (found : lookAt false file p = .chunk start type payload) (known : type.toNat ≠ 5) :
    Walks file (start + kHeaderSize + payload.length)

/-- The log records that a reader makes of the file from `p` on, each with its end. -/
inductive Framed (file : Bytes) : Nat → Option Bytes → List (Bytes × Nat) → Prop
  | ends {p : Nat} {pending : Option Bytes} (found : lookAt false file p = .ends) : Framed file p pending []
  | lost {p q : Nat} {report : Option (Nat × String)} {pending : Option Bytes} {l : List (Bytes × Nat)}
    (found : lookAt false file p = .lost q report) (more : Framed file q none l) : Framed file p pending l
  | record {p start : Nat} {type : UInt8} {payload data : Bytes} {pending : Option Bytes} {l : List (Bytes × Nat)}
    (found : lookAt false file p = .chunk start type payload) (turn : takes pending (signExtended type) payload = .record data)
    (more : Framed file (start + kHeaderSize + payload.length) none l) :
    Framed file p pending ((data,start + kHeaderSize + payload.length) :: l)
  | goes {p start : Nat} {type : UInt8} {payload : Bytes} {pending pending' : Option Bytes} {l : List (Bytes × Nat)}
    (found : lookAt false file p = .chunk start type payload) (turn : takes pending (signExtended type) payload = .goes pending')
    (more : Framed file (start + kHeaderSize + payload.length) pending' l) : Framed file p pending l
  | stops {p start : Nat} {type : UInt8} {payload : Bytes} {pending : Option Bytes}
    (found : lookAt false file p = .chunk start type payload) (turn : takes pending (signExtended type) payload = .stops) :
    Framed file p pending []

section Framed
variable {file : Bytes} {p q : Nat} {pending : Option Bytes} {l : List (Bytes × Nat)} {data : Bytes}

theorem framed_exists (file : Bytes) (left p : Nat) (short : file.length - p < left) (pending : Option Bytes) :
    ∃ l, Framed file p pending l := by
  induction left generalizing p pending with
  | zero => exact absurd short (Nat.not_lt_zero _)
  | succ left ih =>
    cases found : lookAt false file p with
    | ends => exact ⟨[],.ends found⟩
    | lost q report =>
      have step := lookAt_lost found
      obtain ⟨l,more⟩ := ih q (by omega) none
      exact ⟨l,.lost found more⟩
    | chunk start type payload =>
      have step := lookAt_chunk found
      cases turn : takes pending (signExtended type) payload with
      | record data =>
        obtain ⟨l,more⟩ := ih (start + kHeaderSize + payload.length) (by omega) none
        exact ⟨_,.record found turn more⟩
      | goes pending' =>
        obtain ⟨l,more⟩ := ih (start + kHeaderSize + payload.length) (by omega) pending'
        exact ⟨l,.goes found turn more⟩
      | stops => exact ⟨[],.stops found turn⟩

theorem Framed.le (framed : Framed file p pending l) : ∀ x ∈ l, p < x.2 ∧ x.2 ≤ file.length := by
  induction framed with
  | ends | stops => exact List.forall_mem_nil _
  | lost found more ih =>
    intro x member
    have step := lookAt_lost found
    have later := ih x member
    omega
  | goes found turn more ih =>
    intro x member
    have step := lookAt_chunk found
    have later := ih x member
    omega
  | record found turn more ih =>
    intro x member
    have step := lookAt_chunk found
    rcases List.mem_cons.mp member with rfl | member
    · exact ⟨step.2.1,step.2.2⟩
    · have later := ih x member
      omega

/-- What is pending has a head in the file. -/
def Pending (file : Bytes) (p : Nat) (pending : Option Bytes) : Prop :=
  ∀ scratch, pending = some scratch → ∃ start, Walks file start ∧ Head false file start scratch p

theorem takes_record {code : Nat} {payload : Bytes} (record : takes pending code payload = .record data) :
    code = 1 ∧ data = payload ∨ code = 4 ∧ ∃ scratch, pending = some scratch ∧ data = scratch ++ payload := by
  unfold takes at record
  split at record
  · cases record
    exact .inl ⟨rfl,rfl⟩
  · cases record
  · cases record
  · split at record
    · cases record
    · cases record
      exact .inr ⟨rfl,_,rfl,rfl⟩
  · cases record
  · cases record

theorem takes_goes {code : Nat} {payload : Bytes} {pending' : Option Bytes} (goes : takes pending code payload = .goes pending') :
    code = 2 ∧ pending' = some payload ∨
      code = 3 ∧ (∃ scratch, pending = some scratch ∧ pending' = some (scratch ++ payload)) ∨ pending' = none := by
  unfold takes at goes
  split at goes
  · cases goes
  · cases goes
    exact .inl ⟨rfl,rfl⟩
  · cases goes
    cases pending with
    | none => exact .inr (.inr rfl)
    | some scratch => exact .inr (.inl ⟨rfl,scratch,rfl,rfl⟩)
  · split at goes
    · cases goes
      exact .inr (.inr rfl)
    · cases goes
  · cases goes
  · cases goes
    exact .inr (.inr rfl)

theorem takes_five {type : UInt8} {payload : Bytes} : takes pending (signExtended type) payload = .stops ↔ type.toNat = 5 := by
  rw [← signExtended_eq type 5 (by decide)]
  constructor
  · exact takes_stops
  · intro five
    rw [five]
    rfl

/-- Every record that is made is framed in the file. -/
theorem Framed.sound (framed : Framed file p pending l) (walks : Walks file p) (held : Pending file p pending) :
    ∀ x ∈ l, ∃ start, Walks file start ∧ LogRecord false file start x.1 x.2 := by
  have none : ∀ {q}, Pending file q none := by
    rintro q scratch ⟨⟩
  have code : ∀ {type : UInt8} {n : Nat}, n < 128 → signExtended type = n → type = UInt8.ofNat n := by
    intro type n small same
    rw [← (signExtended_eq type n small).mp same,UInt8.ofNat_toNat]
  induction framed with
  | ends | stops => exact List.forall_mem_nil _
  | lost found more ih => exact ih (.lost walks found) none
  | goes found turn more ih =>
    have known : ¬_ = 5 := fun five => by
      rw [takes_five.mpr five] at turn
      cases turn
    refine ih (.chunk walks found known) fun scratch same => ?_
    rcases takes_goes turn with ⟨two,first⟩ | ⟨three,before,old,middle⟩ | last
    · cases first.symm.trans same
      exact ⟨_,walks,.first found (code (by decide) two)⟩
    · cases middle.symm.trans same
      obtain ⟨start,walks',head⟩ := held before old
      exact ⟨start,walks',.middle head found (code (by decide) three)⟩
    · cases last.symm.trans same
  | record found turn more ih =>
    have known : ¬_ = 5 := fun five => by
      rw [takes_five.mpr five] at turn
      cases turn
    intro x member
    rcases List.mem_cons.mp member with rfl | member
    · rcases takes_record turn with ⟨one,rfl⟩ | ⟨four,scratch,old,rfl⟩
      · exact ⟨_,walks,.full found (code (by decide) one)⟩
      · obtain ⟨start,walks',head⟩ := held scratch old
        exact ⟨start,walks',.split head found (code (by decide) four)⟩
    · exact ih (.chunk walks found known) none x member

section Inversion
variable {start : Nat} {type : UInt8} {payload : Bytes} (framed : Framed file p pending l)
  (found : lookAt false file p = .chunk start type payload)
include framed found

theorem Framed.of_goes {pending' : Option Bytes} (turn : takes pending (signExtended type) payload = .goes pending') :
    Framed file (start + kHeaderSize + payload.length) pending' l := by
  cases framed with
  | goes found' turn' more =>
    cases found.symm.trans found'
    cases turn.symm.trans turn'
    exact more
  | record found' turn' | stops found' turn' =>
    cases found.symm.trans found'
    cases turn.symm.trans turn'
  | ends found' | lost found' => cases found.symm.trans found'

theorem Framed.of_record (turn : takes pending (signExtended type) payload = .record data) :
    ∃ l', l = (data,start + kHeaderSize + payload.length) :: l' ∧ Framed file (start + kHeaderSize + payload.length) none l' := by
  cases framed with
  | record found' turn' more =>
    cases found.symm.trans found'
    cases turn.symm.trans turn'
    exact ⟨_,rfl,more⟩
  | goes found' turn' | stops found' turn' =>
    cases found.symm.trans found'
    cases turn.symm.trans turn'
  | ends found' | lost found' => cases found.symm.trans found'

end Inversion

theorem Framed.of_lost {report : Option (Nat × String)} (framed : Framed file p pending l)
    (found : lookAt false file p = .lost q report) : Framed file q none l := by
  cases framed with
  | lost found' more =>
    cases found.symm.trans found'
    exact more
  | ends found' | record found' | goes found' | stops found' => cases found.symm.trans found'

/-- Past a position where the reader comes along, it makes records of the rest. -/
theorem Framed.along (framed : Framed file 0 none l) (walks : Walks file p) :
    ∃ pending l', Framed file p pending l' ∧ ∀ x ∈ l', x ∈ l := by
  induction walks with
  | start => exact ⟨none,l,framed,fun _ member => member⟩
  | lost walks found ih =>
    obtain ⟨pending,l',framed',inside⟩ := ih
    exact ⟨none,l',framed'.of_lost found,inside⟩
  | @chunk p start type payload walks found known ih =>
    obtain ⟨pending,l',framed',inside⟩ := ih
    cases turn : takes pending (signExtended type) payload with
    | record data =>
      obtain ⟨l'',rfl,more⟩ := framed'.of_record found turn
      exact ⟨none,l'',more,fun x member => inside x (List.mem_cons_of_mem _ member)⟩
    | goes pending' => exact ⟨pending',l',framed'.of_goes found turn,inside⟩
    | stops => exact absurd (takes_five.mp turn) known

/-- After a head the reader holds its data. -/
theorem Framed.after_head (framed : Framed file p pending l) (head : Head false file p data q) :
    Framed file q (some data) l := by
  induction head with
  | first found first =>
    subst first
    exact framed.of_goes found rfl
  | middle head found middle ih =>
    subst middle
    exact ih.of_goes found rfl

/-- Every log record of the file on the reader's way is made. -/
theorem Framed.complete (framed : Framed file 0 none l) (walks : Walks file p) (record : LogRecord false file p data q) :
    (data,q) ∈ l := by
  obtain ⟨pending,l',framed',inside⟩ := framed.along walks
  cases record with
  | full found full =>
    subst full
    obtain ⟨l'',rfl,-⟩ := framed'.of_record found rfl
    exact inside _ List.mem_cons_self
  | split head found last =>
    subst last
    obtain ⟨l'',rfl,-⟩ := (framed'.after_head head).of_record found rfl
    exact inside _ List.mem_cons_self

end Framed

section Calls
variable {r : Reader} {file : Bytes} {p q : Nat} {pending : Option Bytes} {l : List (Bytes × Nat)}

/-- One pass of the loop of `ReadRecord` over bytes that are given up. -/
theorem Reader.Plain.lost_turn {checksum : Bool} {report : Option (Nat × String)} (plain : r.Plain checksum file p)
    (found : lookAt checksum file p = .lost q report) (fuel : Nat) (pending : Option Bytes) (prospective : Nat) :
    ∃ (next : Reader) (later : Nat), next.Plain checksum file q ∧ r.readLoop (fuel + 1) pending prospective = next.readLoop fuel none later := by
  rcases plain.spent.reads with ⟨other,-⟩ | ⟨q',report',other,next,-,-,spent,kept,answer⟩ | ⟨type,payload,other,-⟩
  · rw [plain.checked,found] at other
    cases other
  · rw [plain.checked,found] at other
    cases other
    have after : (report.elim next fun x => next.reportDrop x.1 x.2).Plain checksum file q := by
      cases report with
      | none => exact plain.kept kept spent
      | some x => exact (plain.kept kept spent).reported x.1 x.2
    simp only [Reader.readLoop,answer,after.synced,kBadRecord]
    cases pending with
    | none => exact ⟨_,_,after.clean,rfl⟩
    | some scratch => exact ⟨_,_,after.clean.reported _ _,rfl⟩
  · rw [plain.checked,found] at other
    cases other

/-- `ReadRecord` returns the first record that is framed. -/
theorem Framed.readLoop (framed : Framed file p pending l) (plain : r.Plain false file p) (fuel prospective : Nat)
    (enough : file.length - p < fuel) :
    (l = [] ∧ (r.readLoop fuel pending prospective).1 = none) ∨
      ∃ data q rest next, l = (data,q) :: rest ∧ r.readLoop fuel pending prospective = (some data,next) ∧
        next.Plain false file q ∧ Framed file q none rest := by
  induction framed generalizing r fuel prospective with
  | ends found =>
    obtain ⟨fuel,rfl⟩ := Nat.exists_eq_succ_of_ne_zero (Nat.ne_of_gt (Nat.zero_lt_of_lt enough))
    rcases plain.pass fuel _ prospective with ⟨-,none,-⟩ | ⟨_,_,_,other,-⟩ | ⟨_,_,-,-,-,⟨_,other⟩ | ⟨_,_,_,other,-⟩,-⟩
    · exact .inl ⟨rfl,none⟩
    all_goals cases found.symm.trans other
  | lost found more ih =>
    obtain ⟨fuel,rfl⟩ := Nat.exists_eq_succ_of_ne_zero (Nat.ne_of_gt (Nat.zero_lt_of_lt enough))
    obtain ⟨next,later,after,again⟩ := plain.lost_turn found fuel _ prospective
    have step := lookAt_lost found
    rw [again]
    exact ih after fuel later (by omega)
  | record found turn more =>
    obtain ⟨fuel,rfl⟩ := Nat.exists_eq_succ_of_ne_zero (Nat.ne_of_gt (Nat.zero_lt_of_lt enough))
    obtain ⟨next,after,-,answer⟩ := plain.turn found fuel _ prospective
    rw [turn] at answer
    exact .inr ⟨_,_,_,next,rfl,answer,after,more⟩
  | goes found turn more ih =>
    obtain ⟨fuel,rfl⟩ := Nat.exists_eq_succ_of_ne_zero (Nat.ne_of_gt (Nat.zero_lt_of_lt enough))
    obtain ⟨next,after,-,answer⟩ := plain.turn found fuel _ prospective
    rw [turn] at answer
    obtain ⟨later,again⟩ := answer
    have step := lookAt_chunk found
    rw [again]
    exact ih after fuel later (by omega)
  | stops found turn =>
    obtain ⟨fuel,rfl⟩ := Nat.exists_eq_succ_of_ne_zero (Nat.ne_of_gt (Nat.zero_lt_of_lt enough))
    obtain ⟨next,after,-,answer⟩ := plain.turn found fuel _ prospective
    rw [turn] at answer
    exact .inl ⟨rfl,congrArg Prod.fst answer⟩

/-- The calls of `ReadRecord` return what is framed, and end where it ends. -/
theorem Framed.calls (framed : Framed file p none l) (plain : r.Plain false file p) (fuel : Nat)
    (enough : file.length - p < fuel) :
    (∀ c ∈ r.calls fuel, ∃ q, (c.1,q) ∈ l ∧ c.2.Plain false file q) ∧
      ∀ x ∈ l, ∃ next, (x.1,next) ∈ r.calls fuel ∧ next.Plain false file x.2 := by
  induction fuel generalizing r p l with
  | zero => exact absurd enough (Nat.not_lt_zero _)
  | succ fuel ih =>
    have answer := framed.readLoop plain (file.length - p + 1) 0 (Nat.lt_succ_self _)
    rw [← plain.readRecord] at answer
    rw [Reader.calls]
    rcases answer with ⟨rfl,none⟩ | ⟨data,q,rest,next,rfl,some,after,more⟩
    · obtain ⟨next,same⟩ : ∃ next, r.readRecord = (Option.none,next) := ⟨_,Prod.ext none rfl⟩
      rw [same]
      exact ⟨List.forall_mem_nil _,List.forall_mem_nil _⟩
    · have step := framed.le (data,q) List.mem_cons_self
      obtain ⟨sound,complete⟩ := ih more after (by simp only at step; omega)
      rw [some]
      constructor
      · intro c member
        rcases List.mem_cons.mp member with rfl | member
        · exact ⟨q,List.mem_cons_self,after⟩
        · obtain ⟨q',inside,plain'⟩ := sound c member
          exact ⟨q',List.mem_cons_of_mem _ inside,plain'⟩
      · intro x member
        rcases List.mem_cons.mp member with rfl | member
        · exact ⟨next,List.mem_cons_self,after⟩
        · obtain ⟨next',inside,plain'⟩ := complete x member
          exact ⟨next',List.mem_cons_of_mem _ inside,plain'⟩

theorem Reader.Plain.position (plain : r.Plain false file p) (inside : p ≤ file.length) : r.position file = p := by
  have left := plain.length
  rw [Reader.position]
  omega

end Calls

section Unique
variable {file : Bytes} {p p' q q' a b start start' : Nat} {type type' : UInt8} {data data' payload payload' : Bytes}

theorem lookAt_checked (found : lookAt true file p = .chunk start type payload) : lookAt false file p = .chunk start type payload := by
  unfold lookAt at found ⊢
  dsimp only at found ⊢
  split at found
  · cases found
  · rename_i long
    rw [if_neg long]
    split at found
    · split at found
      · cases found
      · cases found
    · rename_i fits
      rw [if_neg fits]
      split at found
      · cases found
      · rename_i nonzero
        rw [if_neg nonzero]
        split at found
        · cases found
        · rw [if_neg (by simp)]
          exact found

theorem Head.unchecked (head : Head true file p data q) : Head false file p data q := by
  induction head with
  | first found first => exact .first (lookAt_checked found) first
  | middle _ found middle ih => exact .middle ih (lookAt_checked found) middle

theorem LogRecord.unchecked (record : LogRecord true file p data q) : LogRecord false file p data q := by
  cases record with
  | full found full => exact .full (lookAt_checked found) full
  | split head found last => exact .split head.unchecked (lookAt_checked found) last

theorem Walks.reaches (walks : Walks file p) : Reaches false file 0 p := by
  induction walks with
  | start => exact .here 0
  | lost _ found ih => exact ih.trans (.lost found (.here _))
  | chunk _ found _ ih => exact ih.trans (.chunk found (.here _))

/-- There is one way through the file. -/
theorem Reaches.linear {checksum : Bool} {s : Nat} (first : Reaches checksum file s a) (second : Reaches checksum file s b) :
    Reaches checksum file a b ∨ Reaches checksum file b a := by
  induction first with
  | here => exact .inl second
  | lost found more ih =>
    cases second with
    | here => exact .inr (.lost found more)
    | lost found' more' =>
      cases found.symm.trans found'
      exact ih more'
    | chunk found' => cases found.symm.trans found'
  | chunk found more ih =>
    cases second with
    | here => exact .inr (.chunk found more)
    | lost found' => cases found.symm.trans found'
    | chunk found' more' =>
      cases found.symm.trans found'
      exact ih more'

theorem chunk_before (way : Reaches false file a b) (found : lookAt false file a = .chunk start type payload)
    (found' : lookAt false file b = .chunk start' type' payload')
    (same : start + kHeaderSize + payload.length = start' + kHeaderSize + payload'.length) : a = b := by
  cases way with
  | here => rfl
  | lost other => cases found.symm.trans other
  | chunk other more =>
    cases found.symm.trans other
    have past := more.le
    have step := lookAt_chunk found'
    omega

/-- A position of the way is known by where its physical record ends. -/
theorem chunk_unique (walks : Walks file a) (walks' : Walks file b) (found : lookAt false file a = .chunk start type payload)
    (found' : lookAt false file b = .chunk start' type' payload')
    (same : start + kHeaderSize + payload.length = start' + kHeaderSize + payload'.length) : a = b := by
  rcases walks.reaches.linear walks'.reaches with way | way
  · exact chunk_before way found found' same
  · exact (chunk_before way found' found same.symm).symm

theorem Head.walks (head : Head false file p data q) (walks : Walks file p) : Walks file q := by
  induction head with
  | first found first => exact .chunk walks found (by subst first; decide)
  | middle _ found middle ih => exact .chunk ih found (by subst middle; decide)

theorem Head.unique (head : Head false file p data q) (head' : Head false file p' data' q') (walks : Walks file p)
    (walks' : Walks file p') (same : q = q') : p = p' := by
  induction head generalizing data' q' with
  | first found first =>
    cases head' with
    | first found' => exact chunk_unique walks walks' found found' same
    | middle head'' found' middle =>
      have equal := chunk_unique walks (head''.walks walks') found found' same
      subst equal
      cases found.symm.trans found'
      cases first.symm.trans middle
  | middle head found middle ih =>
    cases head' with
    | first found' first =>
      have equal := chunk_unique (head.walks walks) walks' found found' same
      subst equal
      cases found.symm.trans found'
      cases first.symm.trans middle
    | middle head'' found' => exact ih head'' (chunk_unique (head.walks walks) (head''.walks walks') found found' same)

theorem LogRecord.unique (record : LogRecord false file p data q) (record' : LogRecord false file p' data' q')
    (walks : Walks file p) (walks' : Walks file p') (same : q = q') : p = p' := by
  cases record with
  | full found full =>
    cases record' with
    | full found' => exact chunk_unique walks walks' found found' same
    | split head' found' last =>
      have equal := chunk_unique walks (head'.walks walks') found found' same
      subst equal
      cases found.symm.trans found'
      cases full.symm.trans last
  | split head found last =>
    cases record' with
    | full found' full =>
      have equal := chunk_unique (head.walks walks) walks' found found' same
      subst equal
      cases found.symm.trans found'
      cases full.symm.trans last
    | split head' found' =>
      exact head.unique head' walks walks' (chunk_unique (head.walks walks) (head'.walks walks') found found' same)

theorem LogRecord.inside (record : LogRecord false file p data q) : q ≤ file.length := by
  cases record with
  | full found => exact (lookAt_chunk found).2.2
  | split _ found => exact (lookAt_chunk found).2.2

end Unique

/-- Every batch that gets into the memtable comes from a log record whose physical records all
have matching checksums, exactly if every log record of the file that holds an update is such
a record. -/
theorem imports_verified (file : Bytes) :
    (∀ batch ∈ imports file, batch.entries ≠ [] → ∃ p, Walks file p ∧ LogRecord true file p batch.record (batch.after.position file)) ↔
    ∀ p data q, Walks file p → LogRecord false file p data q → kBatchHeader ≤ data.length → (insertInto data).1 ≠ [] →
      LogRecord true file p data q := by
  obtain ⟨l,framed⟩ := framed_exists file (file.length + 1) 0 (Nat.lt_succ_self _) none
  obtain ⟨sound,complete⟩ := framed.calls (new_plain file false) (file.length + 1) (Nat.lt_succ_self _)
  constructor
  · intro verified p data q walks record large updates
    obtain ⟨next,member,plain⟩ := complete (data,q) (framed.complete walks record)
    have batch : (⟨data,(insertInto data).1,next⟩ : Import) ∈ imports file := by
      refine List.mem_filterMap.mpr ⟨(data,next),member,?_⟩
      exact if_neg (Nat.not_lt.mpr large)
    obtain ⟨p',walks',record'⟩ := verified _ batch updates
    rw [plain.position record.inside] at record'
    have same := record.unique record'.unchecked walks walks' rfl
    exact same ▸ record'
  · intro condition batch member updates
    obtain ⟨⟨data,next⟩,called,made⟩ := List.mem_filterMap.mp member
    obtain ⟨q,inside,plain⟩ := sound (data,next) called
    obtain ⟨p,walks,record⟩ := framed.sound .start (fun _ same => by cases same) (data,q) inside
    simp only [importOf] at made
    split at made
    · cases made
    · rename_i large
      cases made
      refine ⟨p,walks,?_⟩
      rw [plain.position record.inside]
      exact condition p data q walks record (Nat.not_lt.mp large) updates

theorem Head.starts {file : Bytes} {p q : Nat} {data : Bytes} (head : Head true file p data q) :
    ∃ start type payload, lookAt true file p = .chunk start type payload := by
  induction head with
  | first found => exact ⟨_,_,_,found⟩
  | middle _ _ _ ih => exact ih

theorem LogRecord.starts {file : Bytes} {p q : Nat} {data : Bytes} (record : LogRecord true file p data q) :
    ∃ start type payload, lookAt true file p = .chunk start type payload := by
  cases record with
  | full found => exact ⟨_,_,_,found⟩
  | split head => exact head.starts

/-- A batch that puts one key. -/
def oneUpdate : Bytes := [1,0,0,0,0,0,0,0,1,0,0,0,1,1,107,1,118]

/-- The log of that batch, with the last byte of the value changed. -/
def damagedLog : Bytes := ((Writer.open []).addRecord oneUpdate).dest.set 23 119

/-- The changed value is imported though the checksum of its record does not match. -/
theorem damaged_imported : ∃ batch ∈ imports damagedLog, batch.entries = [⟨[107],1,some [119]⟩] ∧
    ¬∃ p, Walks damagedLog p ∧ LogRecord true damagedLog p batch.record (batch.after.position damagedLog) := by
  have spoiled : lookAt true damagedLog 0 = .lost 24 (some (24,"checksum mismatch")) := by decide +kernel
  have framed : lookAt false damagedLog 0 = .chunk 0 1 (oneUpdate.set 16 119) := by decide
  have made : (imports damagedLog).map (fun batch => (batch.entries,batch.after.position damagedLog)) =
      [([⟨[107],1,some [119]⟩],24)] := by decide
  obtain ⟨batch,member,same⟩ : ∃ batch ∈ imports damagedLog,
      (batch.entries,batch.after.position damagedLog) = ([⟨[107],1,some [119]⟩],24) := by
    have inside : (([⟨[107],1,some [119]⟩],24) : List (Entry Bytes Bytes) × Nat) ∈
        (imports damagedLog).map fun batch => (batch.entries,batch.after.position damagedLog) := by
      rw [made]
      exact List.mem_cons_self
    obtain ⟨batch,member,same⟩ := List.mem_map.mp inside
    exact ⟨batch,member,same⟩
  refine ⟨batch,member,congrArg Prod.fst same,?_⟩
  rintro ⟨p,walks,record⟩
  have whole : LogRecord false damagedLog 0 (oneUpdate.set 16 119) (0 + kHeaderSize + (oneUpdate.set 16 119).length) :=
    .full framed rfl
  have start : p = 0 := record.unchecked.unique whole walks .start (congrArg Prod.snd same)
  subst start
  obtain ⟨start,type,payload,found⟩ := record.starts
  cases found.symm.trans spoiled

end LevelDB.Log
