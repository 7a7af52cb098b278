import LevelDB.LogScan

/-! Record types that no writer uses. `ReadPhysicalRecord` returns the type byte in the same
integer as its own values for the end of the file and for bad records, so a type byte of 5
ends the log and one of 6 is passed over. -/
namespace LevelDB.Log

/-- All of the file has been taken. -/
def Reader.AtEnd (r : Reader) : Prop := r.buffer = [] ∧ r.file = []

instance (r : Reader) : Decidable r.AtEnd := by unfold Reader.AtEnd; infer_instance

/-- A reader from the start of a file, between two calls. -/
structure Reader.Plain (r : Reader) (checksum : Bool) (file : Bytes) (p : Nat) : Prop where
  spent : r.Over file p
  start : r.initialOffset = 0
  synced : r.resyncing = false
  checked : r.checksum = checksum

/-- The positions where the reader looks, from `p` on. -/
inductive Reaches (checksum : Bool) (file : Bytes) : Nat → Nat → Prop
  | here (p : Nat) : Reaches checksum file p p
  | lost {p q t : Nat} {report : Option (Nat × String)} (found : lookAt checksum file p = .lost q report)
    (more : Reaches checksum file q t) : Reaches checksum file p t
  | chunk {p start t : Nat} {type : UInt8} {payload : Bytes} (found : lookAt checksum file p = .chunk start type payload)
    (more : Reaches checksum file (start + kHeaderSize + payload.length) t) : Reaches checksum file p t

theorem signExtended_eq (type : UInt8) (n : Nat) (small : n < 128) : signExtended type = n ↔ type.toNat = n := by
  have bound := type.toNat_lt
  rw [signExtended]
  split
  · rfl
  · omega

section Pass
variable {r : Reader} {checksum : Bool} {file : Bytes} {p : Nat}

theorem Reader.Plain.kept {next : Reader} {q : Nat} (plain : r.Plain checksum file p) (kept : r.Kept next)
    (spent : next.Over file q) : next.Plain checksum file q :=
  ⟨spent,kept.initialOffset.trans plain.start,kept.resyncing.trans plain.synced,kept.checksum.trans plain.checked⟩

theorem Reader.Plain.reported (plain : r.Plain checksum file p) (n : Nat) (reason : String) :
    (r.reportDrop n reason).Plain checksum file p := by
  have spent := plain.spent.reported n reason
  rw [Reader.reportDrop] at spent ⊢
  split
  · rename_i yes
    rw [if_pos yes] at spent
    exact ⟨spent,plain.start,plain.synced,plain.checked⟩
  · exact plain

theorem Reader.Plain.clean (plain : r.Plain checksum file p) :
    ({ r with resyncing := false } : Reader).Plain checksum file p :=
  ⟨⟨plain.spent.stream,plain.spent.place,plain.spent.more,plain.spent.last⟩,plain.start,rfl,plain.checked⟩

theorem Reader.Plain.moved (plain : r.Plain checksum file p) (n : Nat) :
    ({ r with lastRecordOffset := n } : Reader).Plain checksum file p :=
  ⟨⟨plain.spent.stream,plain.spent.place,plain.spent.more,plain.spent.last⟩,plain.start,plain.synced,plain.checked⟩

/-- One pass of the loop of `ReadRecord` over whatever the file has. -/
theorem Reader.Plain.pass (plain : r.Plain checksum file p) (fuel : Nat) (pending : Option Bytes) (prospective : Nat) :
    (lookAt checksum file p = .ends ∧ (r.readLoop (fuel + 1) pending prospective).1 = none ∧
      (r.readLoop (fuel + 1) pending prospective).2.AtEnd ∧
      (r.readLoop (fuel + 1) pending prospective).2.initialOffset = 0) ∨
    (∃ start type payload, lookAt checksum file p = .chunk start type payload ∧ type.toNat = 5 ∧
      (r.readLoop (fuel + 1) pending prospective).1 = none ∧
      (r.readLoop (fuel + 1) pending prospective).2.Plain checksum file (start + kHeaderSize + payload.length)) ∨
    ∃ q next, p < q ∧ q ≤ file.length ∧ next.Plain checksum file q ∧
      ((∃ report, lookAt checksum file p = .lost q report) ∨
        ∃ start type payload, lookAt checksum file p = .chunk start type payload ∧ type.toNat ≠ 5 ∧
          q = start + kHeaderSize + payload.length) ∧
      ((∃ record, r.readLoop (fuel + 1) pending prospective = (some record,next)) ∨
        ∃ pending' prospective', r.readLoop (fuel + 1) pending prospective = next.readLoop fuel pending' prospective') := by
  have synced := plain.synced
  have checked := plain.checked
  rcases plain.spent.reads with ⟨found,next,answer,kept,buffer,rest⟩ |
    ⟨q,report,found,next,past,inside,spent,kept,answer⟩ | ⟨type,payload,found,next,inside,spent,kept,answer⟩
  · rw [checked] at found
    refine .inl ⟨found,?_⟩
    simp only [Reader.readLoop,answer,kept.resyncing,synced,kEof]
    exact ⟨rfl,⟨buffer,rest⟩,kept.initialOffset.trans plain.start⟩
  · rw [checked] at found
    refine .inr (.inr ?_)
    have after : (report.elim next fun x => next.reportDrop x.1 x.2).Plain checksum file q := by
      cases report with
      | none => exact plain.kept kept spent
      | some x => exact (plain.kept kept spent).reported x.1 x.2
    simp only [Reader.readLoop,answer,after.synced,kBadRecord]
    cases pending with
    | none => exact ⟨q,_,past,inside,after.clean,.inl ⟨report,found⟩,.inr ⟨_,_,rfl⟩⟩
    | some scratch => exact ⟨q,_,past,inside,after.clean.reported _ _,.inl ⟨report,found⟩,.inr ⟨_,_,rfl⟩⟩
  · rw [checked] at found
    rw [plain.start,if_neg (Nat.not_lt_zero _)] at answer
    have after := plain.kept kept spent
    have before := le_nextHeader p
    have past : p < nextHeader p + kHeaderSize + payload.length := by
      simp only [kHeaderSize]
      omega
    have five := signExtended_eq type 5 (by decide)
    simp only [Reader.readLoop,answer,after.synced,Bool.false_eq_true,false_and,if_false]
    by_cases isFive : type.toNat = 5
    · rw [five.mpr isFive]
      exact .inr (.inl ⟨_,type,payload,found,isFive,rfl,after.clean⟩)
    · refine .inr (.inr ?_)
      have other : signExtended type ≠ 5 := fun same => isFive (five.mp same)
      have place : (∃ report, lookAt checksum file p = .lost (nextHeader p + kHeaderSize + payload.length) report) ∨
          ∃ start type' payload', lookAt checksum file p = .chunk start type' payload' ∧ type'.toNat ≠ 5 ∧
            nextHeader p + kHeaderSize + payload.length = start + kHeaderSize + payload'.length :=
        .inr ⟨_,type,payload,found,isFive,rfl⟩
      have held : ∀ n reason, (if pending.getD [] = [] then { next with resyncing := false }
          else ({ next with resyncing := false } : Reader).reportDrop n reason).Plain checksum file
            (nextHeader p + kHeaderSize + payload.length) := by
        intro n reason
        split
        · exact after.clean
        · exact after.clean.reported n reason
      generalize signExtended type = code at other
      split
      · exact ⟨_,_,past,inside,(held _ _).moved _,place,.inl ⟨_,rfl⟩⟩
      · exact ⟨_,_,past,inside,held _ _,place,.inr ⟨_,_,rfl⟩⟩
      · cases pending with
        | none => exact ⟨_,_,past,inside,after.clean.reported _ _,place,.inr ⟨_,_,rfl⟩⟩
        | some scratch => exact ⟨_,_,past,inside,after.clean,place,.inr ⟨_,_,rfl⟩⟩
      · cases pending with
        | none => exact ⟨_,_,past,inside,after.clean.reported _ _,place,.inr ⟨_,_,rfl⟩⟩
        | some scratch => exact ⟨_,_,past,inside,after.clean.moved _,place,.inl ⟨_,rfl⟩⟩
      · exact absurd rfl other
      · cases pending with
        | none => exact ⟨_,_,past,inside,after.clean,place,.inr ⟨_,_,rfl⟩⟩
        | some scratch => exact ⟨_,_,past,inside,after.clean.reported _ _,place,.inr ⟨_,_,rfl⟩⟩
      · exact ⟨_,_,past,inside,after.clean.reported _ _,place,.inr ⟨_,_,rfl⟩⟩

end Pass

section Reaches
variable {checksum : Bool} {file : Bytes} {p q t start : Nat} {type : UInt8} {payload : Bytes}

theorem Reaches.trans (first : Reaches checksum file p q) (more : Reaches checksum file q t) : Reaches checksum file p t := by
  induction first with
  | here => exact more
  | lost found _ ih => exact .lost found (ih more)
  | chunk found _ ih => exact .chunk found (ih more)

theorem Reaches.le (reaches : Reaches checksum file p t) : p ≤ t := by
  induction reaches with
  | here => exact Nat.le_refl _
  | lost found _ ih =>
    have := (lookAt_lost found).1
    omega
  | chunk found _ ih =>
    have := (lookAt_chunk found).2.1
    omega

/-- A record with the type byte 5 is the end of the file. -/
def EndsAtFive (checksum : Bool) (file : Bytes) : Prop :=
  ∀ p start type payload, Reaches checksum file 0 p → lookAt checksum file p = .chunk start type payload →
    type.toNat = 5 → start + kHeaderSize + payload.length = file.length

end Reaches

section Calls
variable {r : Reader} {checksum : Bool} {file : Bytes} {p t start : Nat} {type : UInt8} {payload : Bytes}

theorem Reader.Plain.atEnd_iff (plain : r.Plain checksum file p) (inside : p ≤ file.length) :
    r.AtEnd ↔ p = file.length := by
  have stream := congrArg List.length plain.spent.stream
  rw [List.length_append,List.length_drop] at stream
  constructor
  · rintro ⟨buffer,rest⟩
    rw [buffer,rest] at stream
    simp only [List.length_nil] at stream
    omega
  · intro same
    exact ⟨List.length_eq_zero_iff.mp (by omega),List.length_eq_zero_iff.mp (by omega)⟩

theorem Reader.Plain.length (plain : r.Plain checksum file p) : r.file.length + r.buffer.length = file.length - p := by
  have stream := congrArg List.length plain.spent.stream
  rw [List.length_append,List.length_drop] at stream
  omega

/-- `ReadRecord` stops at the end of the file or has a record, if no type byte is 5. -/
theorem Reader.Plain.loop (fuel : Nat) (plain : r.Plain checksum file p) (reaches : Reaches checksum file 0 p)
    (fine : EndsAtFive checksum file) (pending : Option Bytes) (prospective : Nat) (enough : file.length - p < fuel) :
    ((r.readLoop fuel pending prospective).1 = none ∧ (r.readLoop fuel pending prospective).2.AtEnd ∧
        (r.readLoop fuel pending prospective).2.initialOffset = 0) ∨
      ∃ record q next, r.readLoop fuel pending prospective = (some record,next) ∧ next.Plain checksum file q ∧
        Reaches checksum file 0 q := by
  induction fuel generalizing r p pending prospective with
  | zero => omega
  | succ fuel ih =>
    rcases plain.pass fuel pending prospective with ⟨-,none,ended⟩ | ⟨start,type,payload,found,five,none,after⟩ |
      ⟨q,next,past,inside,after,step,outcome⟩
    · exact .inl ⟨none,ended⟩
    · have last := fine p start type payload reaches found five
      rw [last] at after
      exact .inl ⟨none,(after.atEnd_iff (Nat.le_refl _)).mpr rfl,after.start⟩
    · have reaches' : Reaches checksum file 0 q := by
        rcases step with ⟨report,found⟩ | ⟨start,type,payload,found,-,rfl⟩
        · exact reaches.trans (.lost found (.here q))
        · exact reaches.trans (.chunk found (.here _))
      rcases outcome with ⟨record,answer⟩ | ⟨pending',prospective',again⟩
      · exact .inr ⟨record,q,next,answer,after,reaches'⟩
      · rw [again]
        exact ih after reaches' pending' prospective' (by omega)

/-- On the way to a type byte 5 that is not the end, `ReadRecord` has a record or stops
too early. -/
theorem Reader.Plain.loop_five (fuel : Nat) (plain : r.Plain checksum file p) (way : Reaches checksum file p t)
    (found : lookAt checksum file t = .chunk start type payload) (five : type.toNat = 5)
    (more : start + kHeaderSize + payload.length ≠ file.length) (pending : Option Bytes) (prospective : Nat)
    (enough : file.length - p < fuel) :
    ((r.readLoop fuel pending prospective).1 = none ∧ ¬(r.readLoop fuel pending prospective).2.AtEnd) ∨
      ∃ record q next, r.readLoop fuel pending prospective = (some record,next) ∧ next.Plain checksum file q ∧ p < q ∧
        q ≤ file.length ∧ Reaches checksum file q t := by
  induction fuel generalizing r p pending prospective with
  | zero => omega
  | succ fuel ih =>
    obtain ⟨-,ahead,inside⟩ := lookAt_chunk found
    rcases plain.pass fuel pending prospective with ⟨ends,-,-⟩ | ⟨start',type',payload',found',-,none,after⟩ |
      ⟨q,next,past,bound,after,step,outcome⟩
    · cases way with
      | here =>
        rw [ends] at found
        cases found
      | lost other =>
        rw [ends] at other
        cases other
      | chunk other =>
        rw [ends] at other
        cases other
    · refine .inl ⟨none,?_⟩
      have inside' := (lookAt_chunk found').2.2
      rw [after.atEnd_iff inside']
      cases way with
      | here =>
        rw [found] at found'
        cases found'
        exact more
      | lost other =>
        rw [found'] at other
        cases other
      | chunk other rest =>
        rw [found'] at other
        cases other
        have := rest.le
        omega
    · have way' : Reaches checksum file q t := by
        cases way with
        | here =>
          rcases step with ⟨report,other⟩ | ⟨start',type',payload',other,notFive,-⟩
          · rw [found] at other
            cases other
          · rw [found] at other
            cases other
            exact absurd five notFive
        | lost first rest =>
          rcases step with ⟨report,other⟩ | ⟨start',type',payload',other,-,-⟩
          · rw [first] at other
            cases other
            exact rest
          · rw [first] at other
            cases other
        | chunk first rest =>
          rcases step with ⟨report,other⟩ | ⟨start',type',payload',other,-,rfl⟩
          · rw [first] at other
            cases other
          · rw [first] at other
            cases other
            exact rest
      rcases outcome with ⟨record,answer⟩ | ⟨pending',prospective',again⟩
      · exact .inr ⟨record,q,next,answer,after,past,bound,way'⟩
      · rw [again]
        rcases ih after way' pending' prospective' (by omega) with stops | ⟨record,q',next',answer,after',past',bound',way''⟩
        · exact .inl stops
        · exact .inr ⟨record,q',next',answer,after',by omega,bound',way''⟩

theorem Reader.Plain.readRecord (plain : r.Plain checksum file p) :
    r.readRecord = r.readLoop (file.length - p + 1) none 0 := by
  simp [Reader.readRecord,plain.start,plain.length]

theorem Reader.AtEnd.readRecord (ended : r.AtEnd) (start : r.initialOffset = 0) :
    r.readRecord.1 = none ∧ r.readRecord.2.AtEnd ∧ r.readRecord.2.initialOffset = 0 := by
  obtain ⟨buffer,rest⟩ := ended
  have physical : ∃ next, r.readPhysicalRecord = ((kEof,[]),next) ∧ next.AtEnd ∧ next.initialOffset = 0 := by
    rw [readPhysicalRecord_eq]
    have loaded : r.load.buffer = [] ∧ r.load.file = [] ∧ r.load.initialOffset = 0 := by
      rw [Reader.load]
      split
      · simp [Reader.refill,rest,start]
      · exact ⟨buffer,rest,start⟩
    rw [loaded.1,if_pos (by decide)]
    exact ⟨_,rfl,⟨rfl,loaded.2.1⟩,loaded.2.2⟩
  obtain ⟨next,answer,ended,start'⟩ := physical
  have read : r.readRecord = r.readLoop 1 none 0 := by simp [Reader.readRecord,start,buffer,rest]
  rw [read]
  have three : ¬(next.resyncing = true ∧ kEof = 3) := by simp [kEof]
  have four : ¬(next.resyncing = true ∧ kEof = 4) := by simp [kEof]
  simp only [Reader.readLoop,answer,if_neg three,if_neg four]
  exact ⟨rfl,ended,start'⟩

theorem new_plain (file : Bytes) (checksum : Bool) : (Reader.new file checksum 0).Plain checksum file 0 :=
  ⟨⟨rfl,rfl,fun _ => rfl,fun last => (by cases last)⟩,rfl,rfl,rfl⟩

/-- Every call of `ReadRecord` that returns false has taken all of the file exactly if no
record with the type byte 5 has something behind it. -/
theorem false_at_end_iff (checksum : Bool) (file : Bytes) :
    (∀ n, ((Reader.new file checksum 0).afterCalls n).readRecord.1 = none →
      ((Reader.new file checksum 0).afterCalls n).readRecord.2.AtEnd) ↔ EndsAtFive checksum file := by
  constructor
  · intro all
    by_contra early
    simp only [EndsAtFive,not_forall] at early
    obtain ⟨t,start,type,payload,way,found,five,more⟩ := early
    -- calls go on along the way until one stops too early
    have stops : ∀ left n p, file.length - p ≤ left → ((Reader.new file checksum 0).afterCalls n).Plain checksum file p →
        Reaches checksum file p t → False := by
      intro left
      induction left with
      | zero =>
        intro n p short plain way
        obtain ⟨-,ahead,inside⟩ := lookAt_chunk found
        have := way.le
        omega
      | succ left ih =>
        intro n p short plain way
        have outcome := plain.loop_five (file.length - p + 1) way found five more none 0 (by omega)
        rw [← plain.readRecord] at outcome
        rcases outcome with ⟨none,notEnd⟩ | ⟨record,q,next,answer,after,past,-,way'⟩
        · exact notEnd (all n none)
        · have called : (Reader.new file checksum 0).afterCalls (n + 1) = next := by rw [Reader.afterCalls,answer]
          rw [← called] at after
          exact ih (n + 1) q (by omega) after way'
    exact stops _ 0 0 (Nat.le_refl _) (new_plain file checksum) way
  · intro fine
    have state : ∀ n, (∃ p, ((Reader.new file checksum 0).afterCalls n).Plain checksum file p ∧ Reaches checksum file 0 p) ∨
        ((Reader.new file checksum 0).afterCalls n).AtEnd ∧ ((Reader.new file checksum 0).afterCalls n).initialOffset = 0 := by
      intro n
      induction n with
      | zero => exact .inl ⟨0,new_plain file checksum,.here 0⟩
      | succ n ih =>
        rw [Reader.afterCalls]
        rcases ih with ⟨p,plain,way⟩ | ⟨ended,start⟩
        · have outcome := plain.loop (file.length - p + 1) way fine none 0 (by omega)
          rw [← plain.readRecord] at outcome
          rcases outcome with ⟨-,ended⟩ | ⟨record,q,next,answer,after,way'⟩
          · exact .inr ended
          · rw [answer]
            exact .inl ⟨q,after,way'⟩
        · exact .inr (ended.readRecord start).2
    intro n none
    rcases state n with ⟨p,plain,way⟩ | ⟨ended,start⟩
    · have outcome := plain.loop (file.length - p + 1) way fine Option.none 0 (by omega)
      rw [← plain.readRecord] at outcome
      rcases outcome with ⟨-,ended,-⟩ | ⟨record,q,next,answer,-⟩
      · exact ended
      · rw [answer] at none
        cases none
    · exact (ended.readRecord start).2.1

end Calls

/-- What `ReadRecord` does with a physical record. -/
inductive Turn where
  | record (data : Bytes)
  | goes (pending : Option Bytes)
  | stops

def takes (pending : Option Bytes) (code : Nat) (payload : Bytes) : Turn :=
  match code with
  | 1 => .record payload
  | 2 => .goes (some payload)
  | 3 => .goes (pending.map (· ++ payload))
  | 4 => match pending with
    | none => .goes none
    | some scratch => .record (scratch ++ payload)
  | 5 => .stops
  | _ => .goes none

/-- What it reports. -/
def complains (pending : Option Bytes) (code : Nat) (payload : Bytes) : List (Nat × String) :=
  let held := pending.getD []
  match code with
  | 1 => if held = [] then [] else [(held.length,"partial record without end(1)")]
  | 2 => if held = [] then [] else [(held.length,"partial record without end(2)")]
  | 3 => if pending.isNone then [(payload.length,"missing start of fragmented record(1)")] else []
  | 4 => if pending.isNone then [(payload.length,"missing start of fragmented record(2)")] else []
  | 5 => []
  | 6 => if pending.isNone then [] else [(held.length,"error in middle of record")]
  | other => [(payload.length + held.length,"unknown record type " ++ toString other)]

/-- The records that the physical records make up, up to the first type byte 5. -/
def delivers : Option Bytes → List Chunk → List Bytes
  | _, [] => []
  | pending, c :: rest => match takes pending (signExtended c.type) c.payload with
    | .record data => data :: delivers none rest
    | .goes pending => delivers pending rest
    | .stops => []

def complaints : Option Bytes → List Chunk → List (Nat × String)
  | _, [] => []
  | pending, c :: rest => complains pending (signExtended c.type) c.payload ++
    match takes pending (signExtended c.type) c.payload with
    | .record _ => complaints none rest
    | .goes pending => complaints pending rest
    | .stops => []

section Turns
variable {r : Reader} {checksum : Bool} {file : Bytes} {p start : Nat} {type : UInt8} {payload : Bytes}

/-- One pass of the loop of `ReadRecord` over a physical record. -/
theorem Reader.Plain.turn (plain : r.Plain checksum file p) (found : lookAt checksum file p = .chunk start type payload)
    (fuel : Nat) (pending : Option Bytes) (prospective : Nat) :
    ∃ next : Reader, next.Plain checksum file (start + kHeaderSize + payload.length) ∧
      next.reports = r.reports ++ complains pending (signExtended type) payload ∧
      match takes pending (signExtended type) payload with
      | .record data => r.readLoop (fuel + 1) pending prospective = (some data,next)
      | .goes pending' => ∃ later, r.readLoop (fuel + 1) pending prospective = next.readLoop fuel pending' later
      | .stops => r.readLoop (fuel + 1) pending prospective = (none,next) := by
  rcases plain.spent.reads with ⟨other,-⟩ | ⟨q,report,other,-⟩ | ⟨type',payload',other,next,inside,spent,kept,answer⟩
  · rw [plain.checked,found] at other
    cases other
  · rw [plain.checked,found] at other
    cases other
  · rw [plain.checked,found] at other
    cases other
    rw [plain.start,if_neg (Nat.not_lt_zero _)] at answer
    have after := (plain.kept kept spent).clean
    have same : ({ next with resyncing := false } : Reader).reports = r.reports := kept.reports
    have reported : ∀ n reason, (({ next with resyncing := false } : Reader).reportDrop n reason).reports =
        r.reports ++ [(n,reason)] := by
      intro n reason
      rw [Reader.reportDrop_reports _ _ _ after.start,same]
    simp only [Reader.readLoop,answer,(plain.kept kept spent).synced,Bool.false_eq_true,false_and,if_false]
    generalize signExtended type = code
    rcases code with _ | _ | _ | _ | _ | _ | _ | n
    · exact ⟨_,after.reported _ _,reported _ _,_,rfl⟩
    · by_cases held : pending.getD [] = []
      · simp only [Nat.zero_add,takes,complains,held,if_true,List.append_nil]
        refine ⟨_,?_,?_,rfl⟩
        · exact after.moved _
        · exact same
      · simp only [Nat.zero_add,takes,complains,held,if_false]
        refine ⟨_,?_,?_,rfl⟩
        · exact (after.reported _ _).moved _
        · exact reported _ _
    · by_cases held : pending.getD [] = []
      · simp only [Nat.zero_add,Nat.reduceAdd,takes,complains,held,if_true,List.append_nil]
        exact ⟨_,after,same,_,rfl⟩
      · simp only [Nat.zero_add,Nat.reduceAdd,takes,complains,held,if_false]
        exact ⟨_,after.reported _ _,reported _ _,_,rfl⟩
    · cases pending with
      | none => exact ⟨_,after.reported _ _,reported _ _,_,rfl⟩
      | some scratch => exact ⟨_,after,same.trans (List.append_nil _).symm,_,rfl⟩
    · cases pending with
      | none => exact ⟨_,after.reported _ _,reported _ _,_,rfl⟩
      | some scratch =>
        refine ⟨_,?_,?_,rfl⟩
        · exact after.moved _
        · exact same.trans (List.append_nil _).symm
    · exact ⟨_,after,same.trans (List.append_nil _).symm,rfl⟩
    · cases pending with
      | none => exact ⟨_,after,same.trans (List.append_nil _).symm,_,rfl⟩
      | some scratch => exact ⟨_,after.reported _ _,reported _ _,_,rfl⟩
    · exact ⟨_,after.reported _ _,reported _ _,_,rfl⟩

theorem takes_stops {pending : Option Bytes} {code : Nat} {payload : Bytes} (stops : takes pending code payload = .stops) :
    code = 5 := by
  match code, pending with
  | 5, _ => rfl
  | 0, _ => cases stops
  | 1, _ => cases stops
  | 2, _ => cases stops
  | 3, _ => cases stops
  | 4, none => cases stops
  | 4, some _ => cases stops
  | _ + 6, _ => cases stops

/-- `ReadRecord` called over physical records returns what they make up. -/
theorem Reader.Plain.turns (cs : List Chunk) (offset : Nat) (plain : r.Plain checksum file p)
    (ahead : Ahead file p offset cs) (accepted : ∀ c ∈ cs, checksum = true → c.valid = true) (fuel : Nat)
    (pending : Option Bytes) (prospective : Nat) (enough : cs.length < fuel) :
    ∃ last : Reader, last.reports = r.reports ++ complaints pending cs ∧ ((∀ c ∈ cs, c.type.toNat ≠ 5) → last.AtEnd) ∧
      match delivers pending cs with
      | [] => r.readLoop fuel pending prospective = (none,last)
      | data :: more => ∃ next, r.readLoop fuel pending prospective = (some data,next) ∧ next.Returns more last := by
  induction cs generalizing r p offset fuel pending prospective with
  | nil =>
    cases fuel with
    | zero => omega
    | succ fuel =>
      rcases plain.spent.reads with ⟨-,next,answer,kept,buffer,rest⟩ | ⟨q,report,other,-⟩ | ⟨type,payload,other,-⟩
      · refine ⟨{ next with resyncing := false },?_,fun _ => ⟨buffer,rest⟩,?_⟩
        · exact kept.reports.trans (List.append_nil _).symm
        · simp only [delivers,Reader.readLoop,answer,kept.resyncing,plain.synced,Bool.false_eq_true,false_and,if_false]
          rfl
      · rw [ahead.lookAt_nil] at other
        cases other
      · rw [ahead.lookAt_nil] at other
        cases other
  | cons c cs ih =>
    cases fuel with
    | zero => omega
    | succ fuel =>
      obtain ⟨found,ahead'⟩ := ahead.lookAt_cons (accepted c List.mem_cons_self)
      have accepted' : ∀ d ∈ cs, checksum = true → d.valid = true := fun d hd => accepted d (List.mem_cons_of_mem _ hd)
      have five := signExtended_eq c.type 5 (by decide)
      obtain ⟨next,plain',reports,step⟩ := plain.turn found fuel pending prospective
      simp only [delivers,complaints]
      rw [List.length_cons] at enough
      generalize hturn : takes pending (signExtended c.type) c.payload = turn at step ⊢
      cases turn with
      | record data =>
        have fits := ahead'.length_le
        obtain ⟨last,lastReports,ended,outcome⟩ := ih (c.advance offset) plain' ahead' accepted'
          (file.length - (nextHeader p + kHeaderSize + c.payload.length) + 1) none 0 (by omega)
        rw [← plain'.readRecord] at outcome
        refine ⟨last,?_,fun none => ended fun d hd => none d (List.mem_cons_of_mem _ hd),next,step,?_⟩
        · rw [lastReports,reports,List.append_assoc]
        · split at outcome
          · rename_i empty
            rw [empty]
            exact .done outcome
          · rename_i data' more rest
            rw [rest]
            obtain ⟨next',answer,returns⟩ := outcome
            exact .next answer returns
      | goes pending' =>
        obtain ⟨later,step⟩ := step
        obtain ⟨last,lastReports,ended,outcome⟩ := ih (c.advance offset) plain' ahead' accepted' fuel pending' later (by omega)
        rw [← step] at outcome
        refine ⟨last,?_,fun none => ended fun d hd => none d (List.mem_cons_of_mem _ hd),outcome⟩
        rw [lastReports,reports,List.append_assoc]
      | stops =>
        refine ⟨next,by rw [reports,List.append_nil],fun none => ?_,step⟩
        exact absurd (five.mp (takes_stops hturn)) (none c List.mem_cons_self)

theorem returns_chunks (cs : List Chunk) (fit : ChunksFit 0 cs) (accepted : ∀ c ∈ cs, checksum = true → c.valid = true) :
    ∃ last : Reader, (Reader.new (layoutChunks 0 cs) checksum 0).Returns (delivers none cs) last ∧
      last.reports = complaints none cs ∧ ((∀ c ∈ cs, c.type.toNat ≠ 5) → last.AtEnd) := by
  have plain := new_plain (layoutChunks 0 cs) checksum
  have ahead : Ahead (layoutChunks 0 cs) 0 0 cs := ⟨rfl,Nat.zero_le _,rfl,fit⟩
  have fits := ahead.length_le
  obtain ⟨last,reports,ended,outcome⟩ := plain.turns cs 0 ahead accepted ((layoutChunks 0 cs).length - 0 + 1) none 0 (by omega)
  rw [← plain.readRecord] at outcome
  refine ⟨last,?_,reports,ended⟩
  split at outcome
  · rename_i empty
    rw [empty]
    exact .done outcome
  · rename_i data more rest
    rw [rest]
    obtain ⟨next,answer,returns⟩ := outcome
    exact .next answer returns

end Turns

section Records
variable {start : Bool} {data : Bytes} {fs : List Fragment}

/-- Whole fragments of a record deliver it and nothing else. -/
theorem Chain.delivered (chain : Chain start data fs) (pending : Option Bytes) (opened : start = false → pending.isSome) (rest : List Chunk) :
    delivers pending (fs.map Fragment.chunk ++ rest) =
      ((if start then [] else pending.getD []) ++ data) :: delivers none rest := by
  induction chain generalizing pending with
  | full data => rfl
  | last data =>
    obtain ⟨scratch,rfl⟩ := Option.isSome_iff_exists.mp (opened rfl)
    rfl
  | first part more ih =>
    have step := ih (some part) (fun _ => rfl)
    simp only [Bool.false_eq_true,if_false,Option.getD_some] at step
    exact step
  | middle part more ih =>
    obtain ⟨scratch,rfl⟩ := Option.isSome_iff_exists.mp (opened rfl)
    have step := ih (some (scratch ++ part)) (fun _ => rfl)
    simp only [Bool.false_eq_true,if_false,Option.getD_some,List.append_assoc] at step ⊢
    exact step

theorem Chain.unreported (chain : Chain start data fs) (pending : Option Bytes) (fresh : start = true → pending = none)
    (opened : start = false → pending.isSome) (rest : List Chunk) :
    complaints pending (fs.map Fragment.chunk ++ rest) = complaints none rest := by
  induction chain generalizing pending with
  | full data =>
    rw [fresh rfl]
    rfl
  | last data =>
    obtain ⟨scratch,rfl⟩ := Option.isSome_iff_exists.mp (opened rfl)
    rfl
  | first part more ih =>
    have empty := fresh rfl
    subst empty
    exact ih (some part) (fun impossible => by cases impossible) (fun _ => rfl)
  | middle part more ih =>
    obtain ⟨scratch,rfl⟩ := Option.isSome_iff_exists.mp (opened rfl)
    exact ih (some (scratch ++ part)) (fun impossible => by cases impossible) (fun _ => rfl)

theorem delivers_stream (records : List Bytes) (offset : Nat) (bound : offset ≤ kBlockSize) (rest : List Chunk) :
    delivers none ((stream offset records).map Fragment.chunk ++ rest) = records ++ delivers none rest ∧
      complaints none ((stream offset records).map Fragment.chunk ++ rest) = complaints none rest := by
  induction records generalizing offset with
  | nil => exact ⟨rfl,rfl⟩
  | cons data records ih =>
    have chain := fragments_chain offset data bound
    have next := stream_end [data] offset bound
    simp only [stream,List.append_nil] at next
    obtain ⟨records',silent⟩ := ih _ next
    rw [stream,List.map_append,List.append_assoc,
      chain.delivered none (fun impossible => by cases impossible),
      chain.unreported none (fun _ => rfl) (fun impossible => by cases impossible),records',silent]
    exact ⟨rfl,rfl⟩

/-- The first fragments of a record collect data and nothing else. -/
theorem Chain.before {before after : List Fragment} {f : Fragment} (chain : Chain start data (before ++ f :: after))
    (pending : Option Bytes) (fresh : start = true → pending = none) (opened : start = false → pending.isSome) :
    ∃ held, held.isSome = decide (f.type = .middle ∨ f.type = .last) ∧
      (f.type = .full ∨ f.type = .last → after = []) ∧
      (after ≠ [] → ∃ rest, Chain false rest after) ∧
      ∀ rest, delivers pending (before.map Fragment.chunk ++ rest) = delivers held rest ∧
        complaints pending (before.map Fragment.chunk ++ rest) = complaints held rest := by
  induction before generalizing start data pending with
  | nil =>
    refine ⟨pending,?_,?_,?_,fun rest => ⟨rfl,rfl⟩⟩
    · cases chain with
      | full data => rw [fresh rfl]; rfl
      | last data => rw [opened rfl]; rfl
      | first part more => rw [fresh rfl]; rfl
      | middle part more => rw [opened rfl]; rfl
    · cases chain with
      | full data => exact fun _ => rfl
      | last data => exact fun _ => rfl
      | first part more => exact fun impossible => by simp at impossible
      | middle part more => exact fun impossible => by simp at impossible
    · intro some
      cases chain with
      | full data => exact absurd rfl some
      | last data => exact absurd rfl some
      | first part more => exact ⟨_,more⟩
      | middle part more => exact ⟨_,more⟩
  | cons g before ih =>
    have some : before ++ f :: after ≠ [] := by simp
    rw [List.cons_append] at chain
    generalize htail : before ++ f :: after = tail at chain
    cases chain with
    | full data => exact absurd htail some
    | last data => exact absurd htail some
    | first part more =>
      subst htail
      obtain ⟨held,inside,closed,rest,reads⟩ := ih more (.some part) (fun impossible => by cases impossible)
        (fun _ => rfl)
      have empty := fresh rfl
      subst empty
      exact ⟨held,inside,closed,rest,reads⟩
    | middle part more =>
      subst htail
      obtain ⟨scratch,rfl⟩ := Option.isSome_iff_exists.mp (opened rfl)
      exact ih more (.some (scratch ++ part)) (fun impossible => by cases impossible) (fun _ => rfl)

/-- Fragments of a record whose beginning is lost are passed over. -/
theorem Chain.orphaned (chain : Chain start data fs) (tail : start = false) (rest : List Chunk) :
    delivers none (fs.map Fragment.chunk ++ rest) = delivers none rest := by
  induction chain with
  | full data => cases tail
  | last data => rfl
  | first part more ih => cases tail
  | middle part more ih => exact ih rfl

end Records

/-- The file with another type byte, and another stored checksum, in the header at `q`. -/
def retype (file : Bytes) (q : Nat) (crc : BitVec 32) (type : UInt8) : Bytes :=
  file.take q ++ encodeFixed32 crc ++ (file.drop (q + 4)).take 2 ++ [type] ++ file.drop (q + kHeaderSize)

/-- The records are returned, all of the file is taken, and a corruption was reported for
the physical record that ends at `stop`. -/
def PassedOver (checksum : Bool) (file : Bytes) (records : List Bytes) (stop : Nat) : Prop :=
  (∃ last : Reader, (Reader.new file checksum 0).Returns records last ∧ last.AtEnd) ∧
    ∃ (early : List Bytes) (last : Reader), (Reader.new (file.take stop) checksum 0).Returns early last ∧ last.reports ≠ []

section Retyped
variable {f : Fragment} {left right : List Fragment} {type : UInt8}

/-- The header stands behind the other records and the trailer. -/
theorem head_length (fits : FitsAll 0 (left.map .fragment)) :
    nextHeader (layout 0 left).length = (layout 0 left ++ trailer (endOffset 0 left)).length := by
  have bound := fitsAll_end _ _ (Nat.zero_le _) fits
  rw [endOfItems_fragments] at bound
  have same := layout_length left 0 (Nat.zero_le _) fits
  rw [Nat.zero_add] at same
  rw [(nextHeader_spec bound same.symm).1,List.length_append]

theorem layoutChunks_retyped (left right : List Fragment) (c : Chunk) : layoutChunks 0 (left.map Fragment.chunk ++ c :: right.map Fragment.chunk) =
    layout 0 left ++ trailer (endOffset 0 left) ++ (c.body ++ layout (c.advance (endOffset 0 left)) right) := by
  have advances : (left.map Fragment.chunk).foldl Chunk.advance 0 = endOffset 0 left := by
    rw [List.foldl_map,endOffset]
    congr 1
    funext offset f
    exact (Nat.add_assoc _ _ _).symm
  simp only [layoutChunks_append,layoutChunks_fragments,layoutChunks,advances,List.append_assoc]

theorem retype_eq (f : Fragment) (right : List Fragment) (crc : BitVec 32) (type : UInt8) (fits : FitsAll 0 (left.map .fragment)) :
    retype (layout 0 (left ++ f :: right)) (nextHeader (layout 0 left).length) crc type =
      layoutChunks 0 (left.map Fragment.chunk ++ ⟨crc,type,f.payload⟩ :: right.map Fragment.chunk) := by
  have same : Chunk.advance (endOffset 0 left) ⟨crc,type,f.payload⟩ = f.advance (endOffset 0 left) :=
    (Nat.add_assoc _ _ _).symm
  rw [layoutChunks_retyped,head_length fits,layout_append,same]
  simp only [layout,Fragment.emit]
  generalize layout (f.advance (endOffset 0 left)) right = tail
  rw [List.append_assoc (trailer _),← List.append_assoc (layout 0 left)]
  generalize layout 0 left ++ trailer (endOffset 0 left) = head
  rw [retype,List.take_left,← List.drop_drop,← List.drop_drop,List.drop_left]
  simp [Chunk.body,emitPhysicalRecord,encodeFixed32,kHeaderSize]

theorem retyped_stop (f : Fragment) (right : List Fragment) (crc : BitVec 32) (type : UInt8) (fits : FitsAll 0 (left.map .fragment)) :
    (retype (layout 0 (left ++ f :: right)) (nextHeader (layout 0 left).length) crc type).take
        (nextHeader (layout 0 left).length + kHeaderSize + f.payload.length) =
      layoutChunks 0 (left.map Fragment.chunk ++ [⟨crc,type,f.payload⟩]) := by
  have whole := layoutChunks_retyped left [] ⟨crc,type,f.payload⟩
  simp only [List.map_nil,layout,List.append_nil] at whole
  have length : nextHeader (layout 0 left).length + kHeaderSize + f.payload.length =
      (layoutChunks 0 (left.map Fragment.chunk ++ [⟨crc,type,f.payload⟩])).length := by
    rw [whole,List.length_append,← head_length fits,Chunk.body_length,Nat.add_assoc]
    rfl
  rw [retype_eq f right crc type fits,length,layoutChunks_retyped,← List.append_assoc,← whole,List.take_left]

theorem retyped_fit (crc : BitVec 32) (fits : FitsAll 0 ((left ++ f :: right).map .fragment))
    (known : ∀ g ∈ left ++ f :: right, g.type ≠ .zero) (unknown : 5 ≤ type.toNat) :
    ChunksFit 0 (left.map Fragment.chunk ++ ⟨crc,type,f.payload⟩ :: right.map Fragment.chunk) := by
  have fit := chunksFit_fragments 0 _ fits known
  rw [List.map_append,List.map_cons,chunksFit_append] at fit
  rw [chunksFit_append]
  have same : ∀ offset, Chunk.advance offset ⟨crc,type,f.payload⟩ = f.chunk.advance offset := by
    intro offset
    simp only [Chunk.advance,Chunk.size,Fragment.chunk]
  simp only [ChunksFit,same] at fit ⊢
  refine ⟨fit.1,⟨fit.2.1.1,?_⟩,fit.2.2⟩
  rintro ⟨zero,-⟩
  have isZero : type = 0 := zero
  rw [isZero] at unknown
  exact absurd unknown (by decide)

end Retyped

theorem Reader.Returns.unique {r last other : Reader} {records others : List Bytes} (first : r.Returns records last)
    (second : r.Returns others other) : records = others ∧ last = other := by
  induction first generalizing others with
  | done answer =>
    cases second with
    | done answer' =>
      rw [answer] at answer'
      cases answer'
      exact ⟨rfl,rfl⟩
    | next answer' =>
      rw [answer] at answer'
      cases answer'
  | next answer more ih =>
    cases second with
    | done answer' =>
      rw [answer] at answer'
      cases answer'
    | next answer' more' =>
      rw [answer] at answer'
      cases answer'
      obtain ⟨rfl,rfl⟩ := ih more'
      exact ⟨rfl,rfl⟩

theorem stream_append (left right : List Bytes) (offset : Nat) :
    stream offset (left ++ right) = stream offset left ++ stream (endOffset offset (stream offset left)) right := by
  induction left generalizing offset with
  | nil => rfl
  | cons data left ih => simp [stream,ih,endOffset_append]

section Lost
variable {type : UInt8} {f : Fragment} {after : List Fragment} {held : Option Bytes}

theorem le_signExtended (n : Nat) (le : n ≤ type.toNat) : n ≤ signExtended type := by
  rw [signExtended]
  split
  · exact le
  · omega

/-- A physical record with an unknown type, in a record of which `held` was collected,
followed by the rest of that record. -/
theorem delivers_unknown (crc : BitVec 32) (unknown : 6 ≤ type.toNat)
    (orphans : after ≠ [] → ∃ rest, Chain false rest after) (rest : List Chunk) :
    delivers held (⟨crc,type,f.payload⟩ :: (after.map Fragment.chunk ++ rest)) = delivers none rest := by
  obtain ⟨n,code⟩ := Nat.exists_eq_add_of_le' (le_signExtended 6 unknown)
  have dropped : takes held (n + 6) f.payload = .goes none := rfl
  simp only [delivers,code,dropped]
  by_cases empty : after = []
  · rw [empty]
    rfl
  · obtain ⟨data,chain⟩ := orphans empty
    exact chain.orphaned rfl rest

theorem complaints_unknown (crc : BitVec 32) (unknown : 5 ≤ type.toNat) :
    complaints held [⟨crc,type,f.payload⟩] ≠ [] ↔ type.toNat ≠ 5 ∧ (type.toNat = 6 → held.isSome) := by
  have le := le_signExtended 5 unknown
  simp only [ne_eq,← signExtended_eq type 5 (by decide),← signExtended_eq type 6 (by decide),complaints]
  generalize signExtended type = code at le
  match code, held with
  | 5, _ => simp [complains,takes]
  | 6, none => simp [complains,takes]
  | 6, some scratch => simp [complains,takes]
  | n + 7, _ => simp [complains,takes]

end Lost

/-- Where a report for the changed record means that nothing else is lost, that report decides. -/
theorem passedOver_iff {checksum : Bool} {left rest : List Chunk} {x : Chunk} {records : List Bytes} {stop : Nat}
    (fit : ChunksFit 0 (left ++ x :: rest)) (accepted : ∀ c ∈ left ++ x :: rest, checksum = true → c.valid = true)
    (stops : (layoutChunks 0 (left ++ x :: rest)).take stop = layoutChunks 0 (left ++ [x]))
    (reported : complaints none (left ++ [x]) ≠ [] →
      delivers none (left ++ x :: rest) = records ∧ ∀ c ∈ left ++ x :: rest, c.type.toNat ≠ 5) :
    PassedOver checksum (layoutChunks 0 (left ++ x :: rest)) records stop ↔ complaints none (left ++ [x]) ≠ [] := by
  have fit' : ChunksFit 0 (left ++ [x]) := by
    rw [chunksFit_append] at fit ⊢
    exact ⟨fit.1,fit.2.1,trivial⟩
  have accepted' : ∀ c ∈ left ++ [x], checksum = true → c.valid = true := by
    intro c hc
    refine accepted c ?_
    simp only [List.mem_append,List.mem_cons,List.not_mem_nil,or_false] at hc ⊢
    tauto
  obtain ⟨stopped,early,reports,-⟩ := returns_chunks _ fit' accepted'
  constructor
  · rintro ⟨-,records',last,returns,some⟩
    rw [stops] at returns
    obtain ⟨-,rfl⟩ := returns.unique early
    rwa [reports] at some
  · intro some
    obtain ⟨all,noFive⟩ := reported some
    obtain ⟨last,returns,-,ended⟩ := returns_chunks _ fit accepted
    rw [all] at returns
    rw [← stops] at early
    exact ⟨⟨last,returns,ended noFive⟩,_,stopped,early,by rwa [reports]⟩

theorem Fragment.chunk_known (g : Fragment) : g.chunk.type.toNat ≠ 5 := by
  obtain ⟨type,payload⟩ := g
  cases type <;> simp [Fragment.chunk,RecordType.code]

/-- Which unknown record types hide something. Returning false means that the file is read
to its end unless a type byte is 5; a physical record of a written log whose type byte is
changed is reported and costs only its own record unless the new type is 5, or 6 at the
beginning of a record. -/
theorem unknown_types (checksum : Bool) :
    (∀ file, (∀ n, ((Reader.new file checksum 0).afterCalls n).readRecord.1 = none →
      ((Reader.new file checksum 0).afterCalls n).readRecord.2.AtEnd) ↔ EndsAtFive checksum file) ∧
    ∀ (pre : List Bytes) (data : Bytes) (post : List Bytes) (before : List Fragment) (f : Fragment) (after : List Fragment)
      (type : UInt8) (crc : BitVec 32), fragments (endOffset 0 (stream 0 pre)) data = before ++ f :: after →
      5 ≤ type.toNat → (checksum = true → crc = Crc32c.mask (Crc32c.extend (Crc32c.value [type]) f.payload)) →
      (PassedOver checksum
          (retype ((Writer.open []).addRecords (pre ++ data :: post)).dest
            (nextHeader (layout 0 (stream 0 pre ++ before)).length) crc type)
          (pre ++ post) (nextHeader (layout 0 (stream 0 pre ++ before)).length + kHeaderSize + f.payload.length) ↔
        type.toNat ≠ 5 ∧ (type.toNat = 6 → f.type = .middle ∨ f.type = .last)) := by
  refine ⟨false_at_end_iff checksum,?_⟩
  intro pre data post before f after type crc cut unknown recomputed
  have bound := stream_end pre 0 (Nat.zero_le _)
  have bound' := stream_end (pre ++ [data]) 0 (Nat.zero_le _)
  have whole : stream 0 (pre ++ data :: post) = (stream 0 pre ++ before) ++ f :: (after ++
      stream (endOffset 0 (stream 0 (pre ++ [data]))) post) := by
    rw [List.append_cons pre data post]
    simp only [stream_append,stream,cut,List.append_assoc,List.append_nil,List.cons_append,List.nil_append,endOffset_append]
  have fits := stream_fits (pre ++ data :: post) 0 (Nat.zero_le _)
  have known := stream_known (pre ++ data :: post) 0 (Nat.zero_le _)
  rw [whole] at fits known
  have fitsLeft : FitsAll 0 ((stream 0 pre ++ before).map .fragment) := by
    rw [List.map_append,fitsAll_append] at fits
    exact fits.1
  have chain := fragments_chain (endOffset 0 (stream 0 pre)) data bound
  rw [cut] at chain
  obtain ⟨held,inside,-,orphans,reads⟩ := chain.before none (fun _ => rfl) (fun impossible => by cases impossible)
  have retyped := retype_eq f (after ++ stream (endOffset 0 (stream 0 (pre ++ [data]))) post) crc type fitsLeft
  have stops := retyped_stop f (after ++ stream (endOffset 0 (stream 0 (pre ++ [data]))) post) crc type fitsLeft
  have fit := retyped_fit crc fits known unknown
  have file : ((Writer.open []).addRecords (pre ++ data :: post)).dest = layout 0 ((stream 0 pre ++ before) ++ f ::
      (after ++ stream (endOffset 0 (stream 0 (pre ++ [data]))) post)) := by
    rw [addRecords_eq,← whole]
    rfl
  rw [file]
  rw [retyped] at stops ⊢
  -- what the physical records up to the changed one leave
  have reach : ∀ rest, delivers none ((stream 0 pre ++ before).map Fragment.chunk ++ rest) = pre ++ delivers held rest ∧
      complaints none ((stream 0 pre ++ before).map Fragment.chunk ++ rest) = complaints held rest := by
    intro rest
    rw [List.map_append,List.append_assoc]
    obtain ⟨records,silent⟩ := delivers_stream pre 0 (Nat.zero_le _) (before.map Fragment.chunk ++ rest)
    rw [records,silent,(reads rest).1,(reads rest).2]
    exact ⟨rfl,rfl⟩
  have accepted : ∀ c ∈ (stream 0 pre ++ before).map Fragment.chunk ++ ⟨crc,type,f.payload⟩ ::
      (after ++ stream (endOffset 0 (stream 0 (pre ++ [data]))) post).map Fragment.chunk, checksum = true → c.valid = true := by
    intro c hc on
    simp only [List.mem_append,List.mem_cons,List.mem_map] at hc
    rcases hc with ⟨g,-,rfl⟩ | rfl | ⟨g,-,rfl⟩
    · exact g.chunk_valid
    · rw [Chunk.valid,recomputed on]
      exact beq_self_eq_true _
    · exact g.chunk_valid
  have unhurt : type.toNat ≠ 5 → delivers none ((stream 0 pre ++ before).map Fragment.chunk ++ ⟨crc,type,f.payload⟩ ::
      (after ++ stream (endOffset 0 (stream 0 (pre ++ [data]))) post).map Fragment.chunk) = pre ++ post := by
    intro notFive
    have rest := (delivers_stream post _ bound' []).1
    simp only [List.append_nil,delivers] at rest
    rw [(reach _).1,List.map_append,delivers_unknown crc (by omega) orphans,rest]
  have inside' : held.isSome ↔ f.type = .middle ∨ f.type = .last := by
    rw [inside]
    exact decide_eq_true_iff
  rw [passedOver_iff fit accepted stops,(reach _).2,complaints_unknown crc unknown,inside']
  intro some
  rw [(reach _).2,complaints_unknown crc unknown] at some
  refine ⟨unhurt some.1,?_⟩
  intro c hc
  simp only [List.mem_append,List.mem_cons,List.mem_map] at hc
  rcases hc with ⟨g,-,rfl⟩ | rfl | ⟨g,-,rfl⟩
  · exact g.chunk_known
  · exact some.1
  · exact g.chunk_known

/-- The second of three records gets the type byte 7. -/
theorem unknown_types_seven :
    PassedOver true (retype ((Writer.open []).addRecords [[1],[2],[3]]).dest 8
      (Crc32c.mask (Crc32c.extend (Crc32c.value [7]) [2])) 7) [[1],[3]] 16 :=
  ((unknown_types true).2 [[1]] [2] [[3]] [] ⟨.full,[2]⟩ [] 7 _ (by decide) (by decide) (fun _ => rfl)).mpr (by decide)

/-- With the type byte 5 in the first of two records, the second is never returned and
nothing is reported. -/
theorem unknown_type_five :
    let file := retype ((Writer.open []).addRecords [[1],[2]]).dest 0 (Crc32c.mask (Crc32c.extend (Crc32c.value [5]) [1])) 5
    (Reader.new file true 0).readRecord.1 = none ∧ ¬(Reader.new file true 0).readRecord.2.AtEnd ∧
      (Reader.new file true 0).readRecord.2.reports = [] := by
  decide +kernel

end LevelDB.Log
