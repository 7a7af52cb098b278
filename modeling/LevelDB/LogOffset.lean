import LevelDB.LogScan

/-! Reading from an initial offset. The reader begins at the start of a block, passes over
what starts before the offset, and then returns whole records with the offsets they start
at. The rest of a record that started before the offset is passed over in silence only if
no physical record was passed over first. -/
namespace LevelDB.Log

/-- The records of a session with the positions of their first physical records. -/
def starts : Writer → List Bytes → List (Nat × Bytes)
  | _, [] => []
  | w, data :: rest => (nextHeader w.dest.length,data) :: starts (w.addRecord data) rest

/-- Calls of `ReadRecord` that return these records, with these values of
`LastRecordOffset` after them, then false. -/
inductive Reader.ReturnsAt : Reader → List (Nat × Bytes) → Reader → Prop
  | done (answer : r.readRecord = (none,last)) : ReturnsAt r [] last
  | next (answer : r.readRecord = (some record,later)) (more : ReturnsAt later records last) :
    ReturnsAt r ((later.lastRecordOffset,record) :: records) last

/-- A reader with an initial offset at a position of the file. -/
structure Reader.From (r : Reader) (checksum : Bool) (o : Nat) (file : Bytes) (p : Nat) (resyncing : Bool) : Prop where
  spent : r.Over file p
  offset : r.initialOffset = o
  checked : r.checksum = checksum
  resyncing : r.resyncing = resyncing

theorem Ahead.next {file : Bytes} {p offset : Nat} {f : Fragment} {cs : List Chunk} (ahead : Ahead file p offset (f.chunk :: cs)) :
    Ahead file (nextHeader p + kHeaderSize + f.payload.length) (f.chunk.advance offset) cs :=
  (ahead.lookAt_cons (fun _ => f.chunk_valid) : lookAt true file p = _ ∧ _).2

section Pass
variable {r : Reader} {checksum resyncing : Bool} {o p offset : Nat} {file : Bytes} {f : Fragment} {cs : List Chunk}

theorem Reader.From.reported (stands : r.From checksum o file p resyncing) (n : Nat) (reason : String) :
    (r.reportDrop n reason).From checksum o file p resyncing := by
  have spent := stands.spent.reported n reason
  rw [Reader.reportDrop] at spent ⊢
  split
  · rename_i yes
    rw [if_pos yes] at spent
    exact ⟨spent,stands.offset,stands.checked,stands.resyncing⟩
  · exact stands

theorem Reader.From.clean (stands : r.From checksum o file p resyncing) (flag : Bool) :
    ({ r with resyncing := flag } : Reader).From checksum o file p flag :=
  ⟨⟨stands.spent.stream,stands.spent.place,stands.spent.more,stands.spent.last⟩,stands.offset,stands.checked,rfl⟩

theorem Reader.From.moved (stands : r.From checksum o file p resyncing) (n : Nat) :
    ({ r with lastRecordOffset := n } : Reader).From checksum o file p resyncing :=
  ⟨⟨stands.spent.stream,stands.spent.place,stands.spent.more,stands.spent.last⟩,stands.offset,stands.checked,stands.resyncing⟩

theorem sub64_back {start n : Nat} (small : start + kHeaderSize + n < 2^64) :
    sub64 (sub64 (start + kHeaderSize + n) kHeaderSize) n = start := by
  rw [sub64_eq (by omega) small,sub64_eq (by omega) (by omega)]
  omega

/-- `ReadPhysicalRecord` at a written fragment. -/
theorem Reader.From.physical (stands : r.From checksum o file p resyncing) (ahead : Ahead file p offset (f.chunk :: cs))
    (small : file.length < 2^64) :
    ∃ next : Reader, next.From checksum o file (nextHeader p + kHeaderSize + f.payload.length) resyncing ∧ r.Kept next ∧
      sub64 next.endOfBufferOffset next.buffer.length = nextHeader p + kHeaderSize + f.payload.length ∧
      nextHeader p + kHeaderSize + f.payload.length ≤ file.length ∧
      r.readPhysicalRecord =
        (if nextHeader p < o then (kBadRecord,[]) else (f.type.code.toNat,f.payload),next) := by
  have found := (ahead.lookAt_cons (fun _ => f.chunk_valid) : lookAt checksum file p = _ ∧ _).1
  rcases stands.spent.reads with ⟨other,-⟩ | ⟨q,report,other,-⟩ | ⟨type,payload,other,next,inside,spent,kept,answer⟩
  · rw [stands.checked,found] at other
    cases other
  · rw [stands.checked,found] at other
    cases other
  · rw [stands.checked,found] at other
    cases other
    have code : signExtended f.chunk.type = f.type.code.toNat := by
      obtain ⟨kind,payload⟩ := f
      cases kind <;> rfl
    have place : sub64 next.endOfBufferOffset next.buffer.length = nextHeader p + kHeaderSize + f.payload.length := by
      have place := spent.place
      have stream := congrArg List.length spent.stream
      rw [List.length_append,List.length_drop] at stream
      rw [sub64_eq (by omega) (by omega),place]
      simp only [Fragment.chunk]
      omega
    have same : f.chunk.payload = f.payload := rfl
    rw [same] at inside
    refine ⟨next,⟨spent,kept.initialOffset.trans stands.offset,kept.checksum.trans stands.checked,
      kept.resyncing.trans stands.resyncing⟩,kept,place,inside,?_⟩
    rw [answer,code]
    rw [same,place,sub64_back (by omega),stands.offset]

/-- A fragment that starts before the offset is passed over; the reader no longer resyncs. -/
theorem Reader.From.skips (stands : r.From checksum o file p resyncing) (ahead : Ahead file p offset (f.chunk :: cs))
    (small : file.length < 2^64) (before : nextHeader p < o) (fuel prospective : Nat) :
    ∃ next : Reader, next.From checksum o file (nextHeader p + kHeaderSize + f.payload.length) false ∧
      next.reports = r.reports ∧ r.readLoop (fuel + 1) none prospective = next.readLoop fuel none prospective := by
  obtain ⟨next,stands',kept,-,-,answer⟩ := stands.physical ahead small
  rw [if_pos before] at answer
  refine ⟨{ next with resyncing := false },stands'.clean false,kept.reports,?_⟩
  have three : ¬(next.resyncing = true ∧ kBadRecord = 3) := by simp [kBadRecord]
  have four : ¬(next.resyncing = true ∧ kBadRecord = 4) := by simp [kBadRecord]
  simp only [Reader.readLoop,answer,if_neg three,if_neg four]
  rfl

/-- While the reader resyncs, it passes over the rest of a record up to its end. -/
theorem Reader.From.resyncs (stands : r.From checksum o file p true) (ahead : Ahead file p offset (f.chunk :: cs))
    (small : file.length < 2^64) (after : o ≤ nextHeader p) (inner : f.type = .middle ∨ f.type = .last)
    (fuel prospective : Nat) :
    ∃ next : Reader, next.From checksum o file (nextHeader p + kHeaderSize + f.payload.length) (f.type = .middle) ∧
      next.reports = r.reports ∧ r.readLoop (fuel + 1) none prospective = next.readLoop fuel none prospective := by
  obtain ⟨next,stands',kept,-,-,answer⟩ := stands.physical ahead small
  rw [if_neg (Nat.not_lt.mpr after)] at answer
  rcases inner with kind | kind
  · refine ⟨next,by rw [kind]; exact stands',kept.reports,?_⟩
    simp only [Reader.readLoop,answer,kind,stands'.resyncing]
    rfl
  · refine ⟨{ next with resyncing := false },by rw [kind]; exact stands'.clean false,kept.reports,?_⟩
    simp only [Reader.readLoop,answer,kind,stands'.resyncing]
    rfl

/-- Otherwise it reports that the start of the record is missing. -/
theorem Reader.From.reports (stands : r.From checksum o file p false) (ahead : Ahead file p offset (f.chunk :: cs))
    (small : file.length < 2^64) (after : o ≤ nextHeader p) (inner : f.type = .middle ∨ f.type = .last)
    (fuel prospective : Nat) :
    ∃ next : Reader, next.From checksum o file (nextHeader p + kHeaderSize + f.payload.length) false ∧
      (∃ report, next.reports = r.reports ++ [report]) ∧
      r.readLoop (fuel + 1) none prospective = next.readLoop fuel none prospective := by
  obtain ⟨next,stands',kept,place,inside,answer⟩ := stands.physical ahead small
  rw [if_neg (Nat.not_lt.mpr after)] at answer
  have reported : ∀ reason, (({ next with resyncing := false } : Reader).reportDrop f.payload.length reason).reports =
      r.reports ++ [(f.payload.length,reason)] := by
    intro reason
    rw [Reader.reportDrop]
    simp only [place,stands'.offset]
    rw [sub64_eq (by omega) (by omega),if_pos (by omega),kept.reports]
  rcases inner with kind | kind
  · refine ⟨_,(stands'.clean false).reported f.payload.length "missing start of fragmented record(1)",⟨_,reported _⟩,?_⟩
    simp only [Reader.readLoop,answer,kind,stands'.resyncing]
    rfl
  · refine ⟨_,(stands'.clean false).reported f.payload.length "missing start of fragmented record(2)",⟨_,reported _⟩,?_⟩
    simp only [Reader.readLoop,answer,kind,stands'.resyncing]
    rfl

/-- A record that starts at or after the offset is taken up. -/
theorem Reader.From.takes (stands : r.From checksum o file p resyncing) (ahead : Ahead file p offset (f.chunk :: cs))
    (small : file.length < 2^64) (after : o ≤ nextHeader p) (fuel prospective : Nat) :
    ∃ next : Reader, next.From checksum o file (nextHeader p + kHeaderSize + f.payload.length) false ∧ next.reports = r.reports ∧
      (f.type = .full → r.readLoop (fuel + 1) none prospective = (some f.payload,{ next with lastRecordOffset := nextHeader p })) ∧
      (f.type = .first → r.readLoop (fuel + 1) none prospective = next.readLoop fuel (some f.payload) (nextHeader p)) := by
  obtain ⟨next,stands',kept,place,inside,answer⟩ := stands.physical ahead small
  rw [if_neg (Nat.not_lt.mpr after)] at answer
  have start : sub64 (sub64 (sub64 next.endOfBufferOffset next.buffer.length) kHeaderSize) f.payload.length = nextHeader p := by
    rw [place,sub64_back (by omega)]
  refine ⟨{ next with resyncing := false },stands'.clean false,kept.reports,?_,?_⟩
  · intro kind
    simp only [Reader.readLoop,answer,kind,RecordType.code,start]
    simp
  · intro kind
    simp only [Reader.readLoop,answer,kind,RecordType.code,start]
    simp

theorem Reader.From.collects (stands : r.From checksum o file p false) (ahead : Ahead file p offset (f.chunk :: cs))
    (small : file.length < 2^64) (after : o ≤ nextHeader p) (fuel : Nat) (scratch : Bytes) (prospective : Nat) :
    ∃ next : Reader, next.From checksum o file (nextHeader p + kHeaderSize + f.payload.length) false ∧ next.reports = r.reports ∧
      (f.type = .last → r.readLoop (fuel + 1) (some scratch) prospective =
        (some (scratch ++ f.payload),{ next with lastRecordOffset := prospective })) ∧
      (f.type = .middle → r.readLoop (fuel + 1) (some scratch) prospective =
        next.readLoop fuel (some (scratch ++ f.payload)) prospective) := by
  obtain ⟨next,stands',kept,-,-,answer⟩ := stands.physical ahead small
  rw [if_neg (Nat.not_lt.mpr after)] at answer
  refine ⟨{ next with resyncing := false },stands'.clean false,kept.reports,?_,?_⟩
  · intro kind
    simp only [Reader.readLoop,answer,kind,RecordType.code,stands'.resyncing]
    rfl
  · intro kind
    simp only [Reader.readLoop,answer,kind,RecordType.code,stands'.resyncing]
    rfl

end Pass

/-- Fragments from a position on and the records that start in them, with their places. The
fragments may begin inside a record, of which `inner` is left. -/
inductive Grouped : Option Bytes → Nat → List Fragment → List (Nat × Bytes) → Prop
  | nil (p : Nat) : Grouped none p [] []
  | full (data : Bytes) (more : Grouped none (nextHeader p + kHeaderSize + data.length) fs rest) :
    Grouped none p (⟨.full,data⟩ :: fs) ((nextHeader p,data) :: rest)
  | first (part : Bytes) (more : Grouped (some data) (nextHeader p + kHeaderSize + part.length) fs rest) :
    Grouped none p (⟨.first,part⟩ :: fs) ((nextHeader p,part ++ data) :: rest)
  | middle (part : Bytes) (more : Grouped (some data) (nextHeader p + kHeaderSize + part.length) fs rest) :
    Grouped (some (part ++ data)) p (⟨.middle,part⟩ :: fs) rest
  | last (data : Bytes) (more : Grouped none (nextHeader p + kHeaderSize + data.length) fs rest) :
    Grouped (some data) p (⟨.last,data⟩ :: fs) rest

/-- What a call of `ReadRecord` and those after it return. -/
def Reader.Answers (answer : Option Bytes × Reader) (records : List (Nat × Bytes)) (last : Reader) : Prop :=
  match records with
  | [] => answer = (none,last)
  | (start,data) :: more => ∃ next : Reader, answer = (some data,next) ∧ next.lastRecordOffset = start ∧ next.ReturnsAt more last

section Grouped
variable {r : Reader} {checksum resyncing : Bool} {o p offset : Nat} {file : Bytes} {fs : List Fragment}
  {inner : Option Bytes} {records : List (Nat × Bytes)}

/-- Later calls do not skip again. -/
theorem Reader.From.readRecord (stands : r.From checksum o file p resyncing) (past : o ≤ r.lastRecordOffset) :
    r.readRecord = r.readLoop (file.length - p + 1) none 0 := by
  have stream := congrArg List.length stands.spent.stream
  rw [List.length_append,List.length_drop] at stream
  rw [Reader.readRecord,stands.offset,if_neg (Nat.not_lt.mpr past)]
  congr 2
  omega

theorem Reader.Answers.returnsAt {last : Reader} (answers : Reader.Answers r.readRecord records last) :
    r.ReturnsAt records last := by
  match records, answers with
  | [], answer => exact .done answer
  | (start,data) :: more, answer =>
    obtain ⟨next,answer,rfl,returns⟩ := answer
    exact .next answer returns

/-- Nothing more is in the file. -/
theorem Reader.From.ends (stands : r.From checksum o file p resyncing) (ahead : Ahead file p offset []) (fuel : Nat)
    (pending : Option Bytes) (prospective : Nat) :
    ∃ last : Reader, r.readLoop (fuel + 1) pending prospective = (none,last) ∧ last.reports = r.reports := by
  rcases stands.spent.reads with ⟨-,next,answer,kept,-,-⟩ | ⟨q,report,other,-⟩ | ⟨type,payload,other,-⟩
  · have three : ¬(next.resyncing = true ∧ kEof = 3) := by simp [kEof]
    have four : ¬(next.resyncing = true ∧ kEof = 4) := by simp [kEof]
    refine ⟨{ next with resyncing := false },?_,kept.reports⟩
    simp only [Reader.readLoop,answer,if_neg three,if_neg four]
    rfl
  · rw [ahead.lookAt_nil] at other
    cases other
  · rw [ahead.lookAt_nil] at other
    cases other

/-- The reader among fragments at or after the offset: outside a record, inside one that it
has collected in part, or inside one whose beginning it has not seen. Only the last is
reported, unless the reader resyncs. -/
theorem Grouped.read (grouped : Grouped inner p fs records) (small : file.length < 2^64) (offset : Nat)
    (stands : r.From checksum o file p resyncing) (ahead : Ahead file p offset (fs.map Fragment.chunk))
    (after : fs ≠ [] → o ≤ nextHeader p) (fuel : Nat) (enough : fs.length < fuel) (pending : Option Bytes) (prospective : Nat)
    (outside : inner = none → pending = none) (synced : pending ≠ none → resyncing = false ∧ o ≤ prospective) :
    ∃ (last : Reader) (extra : List (Nat × String)),
      Reader.Answers (r.readLoop fuel pending prospective)
        ((pending.bind fun scratch => inner.map fun data => (prospective,scratch ++ data)).toList ++ records) last ∧
      last.reports = r.reports ++ extra ∧ (extra = [] ↔ inner = none ∨ resyncing = true ∨ pending ≠ none) := by
  induction grouped generalizing r offset resyncing fuel pending prospective with
  | nil p =>
    cases fuel with
    | zero => omega
    | succ fuel =>
      obtain ⟨last,answer,reports⟩ := stands.ends ahead fuel pending prospective
      rw [outside rfl]
      rw [outside rfl] at answer
      exact ⟨last,[],answer,by rw [reports,List.append_nil],by simp⟩
  | @full p fs rest data more ih =>
    have here : o ≤ nextHeader p := after (List.cons_ne_nil _ _)
    have ahead' := ahead.next
    have further : o ≤ nextHeader (nextHeader p + kHeaderSize + data.length) :=
      Nat.le_trans (by omega) (le_nextHeader _)
    have fits : fs.length ≤ file.length - (nextHeader p + kHeaderSize + data.length) := by simpa using ahead'.length_le
    cases fuel with
    | zero => omega
    | succ fuel =>
      have empty := outside rfl
      subst empty
      obtain ⟨next,stands',reports,whole,-⟩ := stands.takes (f := ⟨.full,data⟩) ahead small here fuel prospective
      obtain ⟨last,extra,answers,reports',quiet⟩ := ih _ (stands'.moved (nextHeader p)) ahead' (fun _ => further)
        (file.length - (nextHeader p + kHeaderSize + data.length) + 1) (by omega) none 0 (fun _ => rfl) (by simp)
      rw [← (stands'.moved (nextHeader p)).readRecord here] at answers
      have none : extra = [] := quiet.mpr (.inl rfl)
      subst none
      exact ⟨last,[],⟨_,whole rfl,rfl,answers.returnsAt⟩,by rw [reports',← reports],by simp⟩
  | @first data p fs rest part more ih =>
    have here : o ≤ nextHeader p := after (List.cons_ne_nil _ _)
    have ahead' := ahead.next
    have further : o ≤ nextHeader (nextHeader p + kHeaderSize + part.length) :=
      Nat.le_trans (by omega) (le_nextHeader _)
    rw [List.length_cons] at enough
    cases fuel with
    | zero => omega
    | succ fuel =>
      have empty := outside rfl
      subst empty
      obtain ⟨next,stands',reports,-,opened⟩ := stands.takes (f := ⟨.first,part⟩) ahead small here fuel prospective
      obtain ⟨last,extra,answers,reports',quiet⟩ := ih _ stands' ahead' (fun _ => further) fuel (by omega) (some part)
        (nextHeader p) (fun impossible => by cases impossible) (fun _ => ⟨rfl,here⟩)
      rw [← opened rfl] at answers
      have none : extra = [] := quiet.mpr (by simp)
      subst none
      exact ⟨last,[],answers,by rw [reports',reports],by simp⟩
  | @middle data p fs rest part more ih =>
    have here : o ≤ nextHeader p := after (List.cons_ne_nil _ _)
    have ahead' := ahead.next
    have further : o ≤ nextHeader (nextHeader p + kHeaderSize + part.length) :=
      Nat.le_trans (by omega) (le_nextHeader _)
    rw [List.length_cons] at enough
    cases fuel with
    | zero => omega
    | succ fuel =>
      cases pending with
      | some scratch =>
        obtain ⟨rfl,started⟩ := synced (by simp)
        obtain ⟨next,stands',reports,-,goes⟩ := stands.collects (f := ⟨.middle,part⟩) ahead small here fuel scratch prospective
        obtain ⟨last,extra,answers,reports',quiet⟩ := ih _ stands' ahead' (fun _ => further) fuel (by omega)
          (some (scratch ++ part)) prospective (fun impossible => by cases impossible) (fun _ => ⟨rfl,started⟩)
        rw [← goes rfl] at answers
        simp only [Option.bind_some,Option.map_some,List.append_assoc] at answers ⊢
        exact ⟨last,extra,answers,by rw [reports',reports],by simpa using quiet⟩
      | none =>
        cases resyncing with
        | true =>
          obtain ⟨next,stands',reports,goes⟩ := stands.resyncs (f := ⟨.middle,part⟩) ahead small here (.inl rfl) fuel prospective
          obtain ⟨last,extra,answers,reports',quiet⟩ := ih _ stands' ahead' (fun _ => further) fuel (by omega) none prospective
            (fun impossible => by cases impossible) (by simp)
          rw [← goes] at answers
          exact ⟨last,extra,answers,by rw [reports',reports],by simpa using quiet⟩
        | false =>
          obtain ⟨next,stands',⟨report,reports⟩,goes⟩ := stands.reports (f := ⟨.middle,part⟩) ahead small here (.inl rfl)
            fuel prospective
          obtain ⟨last,extra,answers,reports',-⟩ := ih _ stands' ahead' (fun _ => further) fuel (by omega) none prospective
            (fun impossible => by cases impossible) (by simp)
          rw [← goes] at answers
          exact ⟨last,[report] ++ extra,answers,by rw [reports',reports,List.append_assoc],by simp⟩
  | @last p fs rest data more ih =>
    have here : o ≤ nextHeader p := after (List.cons_ne_nil _ _)
    have ahead' := ahead.next
    have further : o ≤ nextHeader (nextHeader p + kHeaderSize + data.length) :=
      Nat.le_trans (by omega) (le_nextHeader _)
    have fits : fs.length ≤ file.length - (nextHeader p + kHeaderSize + data.length) := by simpa using ahead'.length_le
    rw [List.length_cons] at enough
    cases fuel with
    | zero => omega
    | succ fuel =>
      cases pending with
      | some scratch =>
        obtain ⟨rfl,started⟩ := synced (by simp)
        obtain ⟨next,stands',reports,whole,-⟩ := stands.collects (f := ⟨.last,data⟩) ahead small here fuel scratch prospective
        obtain ⟨last,extra,answers,reports',quiet⟩ := ih _ (stands'.moved prospective) ahead' (fun _ => further)
          (file.length - (nextHeader p + kHeaderSize + data.length) + 1) (by omega) none 0 (fun _ => rfl) (by simp)
        rw [← (stands'.moved prospective).readRecord started] at answers
        have none : extra = [] := quiet.mpr (.inl rfl)
        subst none
        exact ⟨last,[],⟨_,whole rfl,rfl,answers.returnsAt⟩,by rw [reports',← reports],by simp⟩
      | none =>
        cases resyncing with
        | true =>
          obtain ⟨next,stands',reports,goes⟩ := stands.resyncs (f := ⟨.last,data⟩) ahead small here (.inr rfl) fuel prospective
          obtain ⟨last,extra,answers,reports',quiet⟩ := ih _ stands' ahead' (fun _ => further) fuel (by omega) none prospective
            (fun _ => rfl) (by simp)
          rw [← goes] at answers
          exact ⟨last,extra,answers,by rw [reports',reports],by simpa using quiet⟩
        | false =>
          obtain ⟨next,stands',⟨report,reports⟩,goes⟩ := stands.reports (f := ⟨.last,data⟩) ahead small here (.inr rfl)
            fuel prospective
          obtain ⟨last,extra,answers,reports',-⟩ := ih _ stands' ahead' (fun _ => further) fuel (by omega) none prospective
            (fun _ => rfl) (by simp)
          rw [← goes] at answers
          exact ⟨last,[report] ++ extra,answers,by rw [reports',reports,List.append_assoc],by simp⟩

end Grouped

/-- The position behind the last of consecutive fragments. -/
def past : Nat → List Fragment → Nat
  | p, [] => p
  | p, f :: rest => past (nextHeader p + kHeaderSize + f.payload.length) rest

section Split
variable {o p : Nat} {fs : List Fragment} {inner : Option Bytes} {records : List (Nat × Bytes)}

theorem Grouped.le_starts (grouped : Grouped inner p fs records) : ∀ x ∈ records, nextHeader p ≤ x.1 := by
  induction grouped with
  | nil p => simp
  | full data more ih =>
    intro x hx
    rcases List.mem_cons.mp hx with rfl | later
    · exact Nat.le_refl _
    · exact Nat.le_trans (Nat.le_trans (by omega) (le_nextHeader _)) (ih x later)
  | first part more ih =>
    intro x hx
    rcases List.mem_cons.mp hx with rfl | later
    · exact Nat.le_refl _
    · exact Nat.le_trans (Nat.le_trans (by omega) (le_nextHeader _)) (ih x later)
  | middle part more ih => exact fun x hx => Nat.le_trans (Nat.le_trans (by omega) (le_nextHeader _)) (ih x hx)
  | last data more ih => exact fun x hx => Nat.le_trans (Nat.le_trans (by omega) (le_nextHeader _)) (ih x hx)

/-- Fragments with some before the offset and the others at or after it. -/
def SplitAt (o : Nat) (inner : Option Bytes) (p : Nat) (fs : List Fragment) (records : List (Nat × Bytes)) : Prop :=
  ∃ (early rest : List Fragment) (inner' : Option Bytes), fs = early ++ rest ∧ (∀ place ∈ placed p early, place.1 < o) ∧
    (rest ≠ [] → o ≤ nextHeader (past p early)) ∧
    Grouped inner' (past p early) rest (records.filter fun x => o ≤ x.1) ∧ (early = [] → inner' = inner)

theorem splitAt_here (grouped : Grouped inner p fs records) (here : o ≤ nextHeader p) : SplitAt o inner p fs records := by
  have all : records.filter (fun x => o ≤ x.1) = records := by
    rw [List.filter_eq_self]
    intro x hx
    exact decide_eq_true (Nat.le_trans here (grouped.le_starts x hx))
  refine ⟨[],fs,inner,rfl,by simp [placed],fun _ => here,?_,fun _ => rfl⟩
  rw [all]
  exact grouped

theorem splitAt_later {f : Fragment} {next : Option Bytes} {rest : List (Nat × Bytes)} (before : nextHeader p < o)
    (split : SplitAt o next (nextHeader p + kHeaderSize + f.payload.length) fs rest)
    (same : records.filter (fun x => o ≤ x.1) = rest.filter fun x => o ≤ x.1) : SplitAt o inner p (f :: fs) records := by
  obtain ⟨early,rest,inner',rfl,skipped,after,grouped,-⟩ := split
  refine ⟨f :: early,rest,inner',rfl,?_,after,?_,fun impossible => by cases impossible⟩
  · intro place hplace
    rcases List.mem_cons.mp hplace with rfl | later
    · exact before
    · exact skipped place later
  · rw [same]
    exact grouped

theorem Grouped.splitAt (grouped : Grouped inner p fs records) : SplitAt o inner p fs records := by
  induction grouped with
  | nil p => exact ⟨[],[],none,rfl,by simp [placed],fun impossible => absurd rfl impossible,.nil _,fun _ => rfl⟩
  | @full p fs rest data more ih =>
    by_cases here : o ≤ nextHeader p
    · exact splitAt_here (.full data more) here
    · exact splitAt_later (Nat.not_le.mp here) ih (by simp [here])
  | @first data p fs rest part more ih =>
    by_cases here : o ≤ nextHeader p
    · exact splitAt_here (.first part more) here
    · exact splitAt_later (Nat.not_le.mp here) ih (by simp [here])
  | @middle data p fs rest part more ih =>
    by_cases here : o ≤ nextHeader p
    · exact splitAt_here (.middle part more) here
    · exact splitAt_later (Nat.not_le.mp here) ih rfl
  | @last p fs rest data more ih =>
    by_cases here : o ≤ nextHeader p
    · exact splitAt_here (.last data more) here
    · exact splitAt_later (Nat.not_le.mp here) ih rfl

/-- The fragments of a record, then those of other records. -/
theorem Chain.grouped {start : Bool} {data : Bytes} {rest : List Fragment} (chain : Chain start data fs)
    (more : Grouped none (past p fs) rest records) :
    Grouped (if start then none else some data) p (fs ++ rest) (if start then (nextHeader p,data) :: records else records) := by
  induction chain generalizing p with
  | full data => exact .full data more
  | last data => exact .last data more
  | first part chain ih => exact .first part (ih more)
  | middle part chain ih => exact .middle part (ih more)

theorem past_eq {offset : Nat} (bound : offset ≤ kBlockSize) (same : offset % kBlockSize = p % kBlockSize)
    (fits : FitsAll offset (fs.map .fragment)) : past p fs = p + (layout offset fs).length := by
  induction fs generalizing p offset with
  | nil => rfl
  | cons f fs ih =>
    obtain ⟨next,length⟩ := advance_position f bound same
    rw [past,ih fits.1.1 next fits.2,layout,List.length_append,← Nat.add_assoc,length]

/-- What a writer appends are whole records. -/
theorem stream_grouped (written : List Bytes) (w : Writer) (bound : w.blockOffset ≤ kBlockSize)
    (same : w.blockOffset % kBlockSize = w.dest.length % kBlockSize) :
    Grouped none w.dest.length (stream w.blockOffset written) (starts w written) := by
  induction written generalizing w with
  | nil => exact .nil _
  | cons data written ih =>
    have chain := fragments_chain w.blockOffset data bound
    have fits : FitsAll w.blockOffset ((fragments w.blockOffset data).map .fragment) := by
      have fits := stream_fits [data] w.blockOffset bound
      simpa [stream] using fits
    have bound' := fitsAll_end _ _ bound fits
    rw [endOfItems_fragments] at bound'
    have length : (w.addRecord data).dest.length = past w.dest.length (fragments w.blockOffset data) := by
      rw [past_eq bound same fits,Writer.addRecord,List.length_append]
    have same' : (w.addRecord data).blockOffset % kBlockSize = (w.addRecord data).dest.length % kBlockSize := by
      have whole := layout_length _ _ bound fits
      simp only [Writer.addRecord,List.length_append]
      rw [← whole,Nat.add_mod,same,← Nat.add_mod]
    have more := ih (w.addRecord data) bound' same'
    rw [length] at more
    exact chain.grouped more

end Split

section Block
variable {r : Reader} {checksum resyncing : Bool} {o p offset block : Nat} {file : Bytes} {left right : List Fragment}
  {inner : Option Bytes} {records : List (Nat × Bytes)} {cs : List Chunk}

theorem nextHeader_aligned (aligned : block % kBlockSize = 0) : nextHeader block = block := by
  rcases nextHeader_cases block with ⟨short,-,-⟩ | ⟨-,same⟩
  · rw [aligned] at short
    exact absurd short (by decide)
  · exact same

theorem placed_split (left right : List Fragment) (p : Nat) :
    placed p (left ++ right) = placed p left ++ placed (past p left) right := by
  induction left generalizing p with
  | nil => rfl
  | cons f left ih => simp only [List.cons_append,placed,past,ih]

/-- The fragments from the start of a block on are ahead of it. -/
theorem Ahead.atBlock (ahead : Ahead file p offset ((left ++ right).map Fragment.chunk)) (le : p ≤ block)
    (aligned : block % kBlockSize = 0) (before : ∀ place ∈ placed p left, place.1 < block)
    (after : right ≠ [] → block ≤ nextHeader (past p left)) :
    Ahead file block 0 (right.map Fragment.chunk) ∧ (right ≠ [] → nextHeader (past p left) = block) := by
  induction left generalizing p offset with
  | nil =>
    simp only [List.nil_append,past] at ahead after ⊢
    cases right with
    | nil =>
      refine ⟨⟨?_,Nat.zero_le _,aligned.symm,trivial⟩,fun impossible => absurd rfl impossible⟩
      have empty : file.drop p = [] := ahead.bytes
      rw [List.drop_eq_nil_iff] at empty
      exact List.drop_eq_nil_iff.mpr (Nat.le_trans empty le)
    | cons f fs =>
      have same : nextHeader p = block := by
        have after := after (List.cons_ne_nil _ _)
        rcases nextHeader_cases p with ⟨short,next,-⟩ | ⟨-,next⟩
        · simp only [kBlockSize,kHeaderSize] at *
          omega
        · omega
      have bytes := ahead.bytes
      simp only [List.map_cons,layoutChunks] at bytes
      obtain ⟨header,here,-⟩ := nextHeader_spec ahead.bound ahead.same
      have zero : switchBlock offset = switchBlock 0 := by
        rw [here,same,aligned]
        rfl
      have advance : f.chunk.advance offset = f.chunk.advance 0 := by simp only [Chunk.advance,zero]
      have fit := ahead.fit
      simp only [List.map_cons,ChunksFit,advance] at fit
      refine ⟨⟨?_,Nat.zero_le _,aligned.symm,fit⟩,fun _ => same⟩
      rw [← same,header,← List.drop_drop,bytes,List.drop_left,advance]
      rfl
  | cons f left ih =>
    have start : nextHeader p < block := before _ List.mem_cons_self
    have next := ahead.next
    obtain ⟨-,here,-⟩ := nextHeader_spec ahead.bound ahead.same
    have room := ahead.fit.1.1
    refine ih next ?_ (fun place hplace => before place (List.mem_cons_of_mem _ hplace)) after
    simp only [Fragment.chunk,Chunk.advance,Chunk.size,here,kHeaderSize,kBlockSize] at *
    omega

/-- Only the place of the first header matters. -/
theorem Grouped.moved (grouped : Grouped inner p left records) (block : Nat) (same : left ≠ [] → nextHeader p = nextHeader block) :
    Grouped inner block left records := by
  cases grouped with
  | nil => exact .nil _
  | full data more =>
    rw [same (List.cons_ne_nil _ _)] at more ⊢
    exact .full data more
  | first part more =>
    rw [same (List.cons_ne_nil _ _)] at more ⊢
    exact .first part more
  | middle part more =>
    rw [same (List.cons_ne_nil _ _)] at more
    exact .middle part more
  | last data more =>
    rw [same (List.cons_ne_nil _ _)] at more
    exact .last data more

/-- Fragments that start before the offset are passed over. -/
theorem Reader.From.skipsAll (stands : r.From checksum o file p resyncing)
    (ahead : Ahead file p offset (left.map Fragment.chunk ++ cs)) (small : file.length < 2^64)
    (before : ∀ place ∈ placed p left, place.1 < o) (fuel prospective : Nat) :
    ∃ (next : Reader) (offset' : Nat), next.From checksum o file (past p left) (resyncing && left.isEmpty) ∧
      Ahead file (past p left) offset' cs ∧ next.reports = r.reports ∧
      r.readLoop (left.length + fuel) none prospective = next.readLoop fuel none prospective := by
  induction left generalizing r p offset resyncing with
  | nil => exact ⟨r,offset,by simpa [past] using stands,ahead,rfl,by simp⟩
  | cons f left ih =>
    have start : nextHeader p < o := before _ List.mem_cons_self
    obtain ⟨next,stands',reports,step⟩ := stands.skips ahead small start (left.length + fuel) prospective
    obtain ⟨last,offset',stands'',ahead',reports',steps⟩ := ih stands' ahead.next
      (fun place hplace => before place (List.mem_cons_of_mem _ hplace))
    refine ⟨last,offset',by simpa [past] using stands'',ahead',reports'.trans reports,?_⟩
    rw [List.length_cons,Nat.add_right_comm,step,steps]

/-- The position that `SkipToInitialBlock` skips to. -/
def initialBlock (o : Nat) : Nat :=
  (o - o % kBlockSize + if kBlockSize - 6 < o % kBlockSize then kBlockSize else 0) % 2^64

theorem initialBlock_cases {o : Nat} (range : o < 2^64) :
    (¬kBlockSize - 6 < o % kBlockSize ∧ initialBlock o = o - o % kBlockSize) ∨
      kBlockSize - 6 < o % kBlockSize ∧
        (initialBlock o = o - o % kBlockSize + kBlockSize ∨ initialBlock o = 0 ∧ 2^64 ≤ o + 5) := by
  by_cases trailing : kBlockSize - 6 < o % kBlockSize
  · refine .inr ⟨trailing,?_⟩
    rw [initialBlock,if_pos trailing]
    simp only [kBlockSize] at *
    omega
  · refine .inl ⟨trailing,?_⟩
    rw [initialBlock,if_neg trailing]
    simp only [kBlockSize] at *
    omega

theorem initialBlock_aligned {o : Nat} (range : o < 2^64) : initialBlock o % kBlockSize = 0 := by
  rcases initialBlock_cases range with ⟨-,block⟩ | ⟨-,block | ⟨block,-⟩⟩
  · rw [block]
    simp only [kBlockSize]
    omega
  · rw [block]
    simp only [kBlockSize]
    omega
  · rw [block]
    rfl

theorem nextHeader_room (p : Nat) : nextHeader p % kBlockSize + kHeaderSize ≤ kBlockSize := by
  rcases nextHeader_cases p with ⟨-,-,aligned⟩ | ⟨room,same⟩
  · rw [aligned]
    decide
  · have inBlock : p % kBlockSize < kBlockSize := Nat.mod_lt _ (by decide)
    rw [same]
    omega

/-- No header stands between the offset and the block that the reader begins with. -/
theorem initialBlock_le {x : Nat} (range : o < 2^64) (le : o ≤ x) (room : x % kBlockSize + kHeaderSize ≤ kBlockSize) :
    initialBlock o ≤ x := by
  rcases initialBlock_cases range with ⟨-,block⟩ | ⟨trailing,block | ⟨block,-⟩⟩
  · omega
  · rw [block]
    simp only [kBlockSize,kHeaderSize] at *
    omega
  · omega

theorem Grouped.starts_room (grouped : Grouped inner p left records) :
    ∀ x ∈ records, x.1 % kBlockSize + kHeaderSize ≤ kBlockSize := by
  induction grouped with
  | nil p => simp
  | full data more ih =>
    intro x hx
    rcases List.mem_cons.mp hx with rfl | later
    · exact nextHeader_room _
    · exact ih x later
  | first part more ih =>
    intro x hx
    rcases List.mem_cons.mp hx with rfl | later
    · exact nextHeader_room _
    · exact ih x later
  | middle part more ih => exact ih
  | last data more ih => exact ih

theorem placed_room (left : List Fragment) (p : Nat) :
    ∀ x ∈ placed p left, nextHeader p ≤ x.1 ∧ x.1 % kBlockSize + kHeaderSize ≤ kBlockSize := by
  induction left generalizing p with
  | nil => simp [placed]
  | cons f left ih =>
    intro x hx
    rcases List.mem_cons.mp hx with rfl | later
    · exact ⟨Nat.le_refl _,nextHeader_room _⟩
    · obtain ⟨le,room⟩ := ih _ x later
      exact ⟨Nat.le_trans (Nat.le_trans (by omega) (le_nextHeader _)) le,room⟩

/-- The first call of `ReadRecord`. -/
theorem new_from (file : Bytes) (checksum : Bool) {o : Nat} (range : o < 2^64) :
    ∃ r : Reader, r.From checksum o file (initialBlock o) (decide (0 < o)) ∧ r.reports = [] ∧
      (Reader.new file checksum o).readRecord = r.readLoop (file.length - initialBlock o + 1) none 0 := by
  have aligned := initialBlock_aligned range
  refine ⟨(Reader.new file checksum o).skipToInitialBlock,⟨⟨rfl,rfl,fun _ => ?_,fun last => (by cases last)⟩,rfl,rfl,rfl⟩,rfl,?_⟩
  · rw [aligned]
    rfl
  · rcases Nat.eq_zero_or_pos o with rfl | positive
    · rfl
    · have first : (Reader.new file checksum o).lastRecordOffset < (Reader.new file checksum o).initialOffset := positive
      rw [Reader.readRecord,if_pos first]
      congr 2
      simp only [Reader.skipToInitialBlock,Reader.new,List.length_drop,List.length_nil,Nat.add_zero]
      rfl

end Block

/-- The initial offset stands at the start of a block or in its last five bytes, or the
first physical record at or after it is not the rest of a record. -/
def Aligned (o : Nat) (written : List Bytes) : Prop :=
  o % kBlockSize = 0 ∨ kBlockSize - 6 < o % kBlockSize ∨
    ∀ place, (placed 0 (stream 0 written)).find? (fun x => o ≤ x.1) = some place →
      place.2.type ≠ .middle ∧ place.2.type ≠ .last

section Session
variable {written : List Bytes} {o : Nat}

/-- The fragments of a log as a reader with an initial offset meets them: not at all, before
the offset, and after it. -/
theorem meets (written : List Bytes) (range : o < 2^64) :
    ∃ (passed early rest : List Fragment) (inner : Option Bytes), stream 0 written = passed ++ (early ++ rest) ∧
      Ahead ((Writer.open []).addRecords written).dest (initialBlock o) 0 ((early ++ rest).map Fragment.chunk) ∧
      (∀ place ∈ placed 0 passed, place.1 < o) ∧ (∀ place ∈ placed (initialBlock o) early, place.1 < o) ∧
      (rest ≠ [] → o ≤ nextHeader (past (initialBlock o) early)) ∧
      (early ++ rest ≠ [] → nextHeader (past 0 passed) = initialBlock o) ∧
      Grouped inner (past (initialBlock o) early) rest ((starts (Writer.open []) written).filter fun x => o ≤ x.1) ∧
      (passed = [] → early = [] → inner = none) := by
  have aligned := initialBlock_aligned range
  have grouped : Grouped none 0 (stream 0 written) (starts (Writer.open []) written) :=
    stream_grouped written (Writer.open []) (Nat.zero_le _) rfl
  obtain ⟨passed,right,inner,whole,before,after,grouped',fresh⟩ := grouped.splitAt (o := initialBlock o)
  have fits := stream_fits written 0 (Nat.zero_le _)
  have known := stream_known written 0 (Nat.zero_le _)
  have ahead : Ahead ((Writer.open []).addRecords written).dest 0 0 ((stream 0 written).map Fragment.chunk) := by
    refine ⟨?_,Nat.zero_le _,rfl,chunksFit_fragments 0 _ fits known⟩
    rw [addRecords_eq,layoutChunks_fragments]
    rfl
  rw [whole] at ahead
  obtain ⟨ahead',same⟩ := ahead.atBlock (Nat.zero_le _) aligned before after
  have moved := grouped'.moved (initialBlock o) fun some => by rw [same some,nextHeader_aligned aligned]
  obtain ⟨early,rest,inner',rfl,before',after',grouped'',fresh'⟩ := moved.splitAt (o := o)
  have filters : ((starts (Writer.open []) written).filter fun x => initialBlock o ≤ x.1).filter (fun x => o ≤ x.1) =
      (starts (Writer.open []) written).filter fun x => o ≤ x.1 := by
    rw [List.filter_filter]
    refine List.filter_congr fun x hx => ?_
    have le : o ≤ x.1 → initialBlock o ≤ x.1 := fun le => initialBlock_le range le (grouped.starts_room x hx)
    simp only [Bool.and_eq_left_iff_imp,decide_eq_true_eq]
    exact le
  rw [filters] at grouped''
  refine ⟨passed,early,rest,inner',whole,ahead',?_,before',after',same,grouped'',?_⟩
  · intro place hplace
    by_contra later
    exact absurd (before place hplace)
      (Nat.not_lt.mpr (initialBlock_le range (Nat.le_of_not_lt later) (placed_room passed 0 place hplace).2))
  · intro none none'
    rw [fresh' none',fresh none]

theorem placed_moved {p q : Nat} {fs : List Fragment} (same : fs ≠ [] → nextHeader p = nextHeader q) : placed p fs = placed q fs := by
  cases fs with
  | nil => rfl
  | cons f fs => simp only [placed,same (List.cons_ne_nil _ _)]

/-- The fragments begin inside a record if the first of them is not the first of its record. -/
theorem Grouped.inner_eq_none {inner : Option Bytes} {p : Nat} {fs : List Fragment} {records : List (Nat × Bytes)}
    (grouped : Grouped inner p fs records) :
    inner = none ↔ ∀ place, (placed p fs).head? = some place → place.2.type ≠ .middle ∧ place.2.type ≠ .last := by
  cases grouped with
  | nil => simp [placed]
  | full data more => simp [placed]
  | first part more => simp [placed]
  | middle part more => simp [placed]
  | last data more => simp [placed]

theorem find_rest {passed early rest : List Fragment} {block : Nat} (before : ∀ place ∈ placed 0 passed, place.1 < o)
    (before' : ∀ place ∈ placed block early, place.1 < o) (after : rest ≠ [] → o ≤ nextHeader (past block early))
    (same : early ++ rest ≠ [] → nextHeader (past 0 passed) = nextHeader block) :
    (placed 0 (passed ++ (early ++ rest))).find? (fun x => o ≤ x.1) = (placed (past block early) rest).head? := by
  have none : ∀ places : List (Nat × Fragment), (∀ place ∈ places, place.1 < o) → places.find? (fun x => o ≤ x.1) = none := by
    intro places small
    simp only [List.find?_eq_none,decide_eq_true_eq]
    exact fun place hplace => Nat.not_le.mpr (small place hplace)
  rw [placed_split,placed_moved same,placed_split,List.find?_append,List.find?_append,none _ before,none _ before',
    Option.none_or,Option.none_or]
  cases rest with
  | nil => rfl
  | cons f rest => simp [placed,after]

theorem none_before {early : List Fragment} {block : Nat} (le : o ≤ block)
    (before : ∀ place ∈ placed block early, place.1 < o) : early = [] := by
  cases early with
  | nil => rfl
  | cons f early =>
    have first : nextHeader block < o := before _ List.mem_cons_self
    have := le_nextHeader block
    omega

theorem Grouped.inner_nil {inner : Option Bytes} {p : Nat} {records : List (Nat × Bytes)}
    (grouped : Grouped inner p [] records) : inner = none := by
  cases grouped
  rfl

theorem reads_from (checksum : Bool) (range : o < 2^64) (small : ((Writer.open []).addRecords written).dest.length < 2^64) :
    ∃ last : Reader, (Reader.new ((Writer.open []).addRecords written).dest checksum o).ReturnsAt
        ((starts (Writer.open []) written).filter fun x => o ≤ x.1) last ∧
      (last.reports = [] ↔ Aligned o written) := by
  obtain ⟨passed,early,rest,inner,whole,ahead,before,before',after,place,grouped,fresh⟩ := meets written range
  obtain ⟨r,stands,none,call⟩ := new_from ((Writer.open []).addRecords written).dest checksum range
  have fits := ahead.length_le
  simp only [List.map_append,List.length_append,List.length_map] at fits ahead
  obtain ⟨next,offset,stands',ahead',reports,steps⟩ := stands.skipsAll ahead small before'
    (((Writer.open []).addRecords written).dest.length - initialBlock o + 1 - early.length) 0
  obtain ⟨last,extra,answers,reports',quiet⟩ := grouped.read small offset stands' ahead' after
    (((Writer.open []).addRecords written).dest.length - initialBlock o + 1 - early.length) (by omega) Option.none 0
    (fun _ => rfl) (by simp)
  rw [← steps,Nat.add_sub_cancel' (by omega),← call] at answers
  refine ⟨last,answers.returnsAt,?_⟩
  rw [reports',reports,none,List.nil_append,quiet,Aligned,whole,find_rest before before' after
    (fun some => by rw [place some,nextHeader_aligned (initialBlock_aligned range)]),← grouped.inner_eq_none]
  have inBlock := Nat.mod_le o kBlockSize
  have beyond : initialBlock o < o → early = [] → inner = Option.none := by
    intro less empty
    subst empty
    cases rest with
    | nil => exact grouped.inner_nil
    | cons f rest =>
      have here := after (List.cons_ne_nil _ _)
      rw [past,nextHeader_aligned (initialBlock_aligned range)] at here
      omega
  constructor
  · rintro (closed | both | impossible)
    · exact .inr (.inr closed)
    · rw [Bool.and_eq_true,List.isEmpty_iff] at both
      rcases initialBlock_cases range with ⟨-,block⟩ | ⟨trailing,-⟩
      · by_cases start : o % kBlockSize = 0
        · exact .inl start
        · exact .inr (.inr (beyond (by omega) both.2))
      · exact .inr (.inl trailing)
    · exact absurd rfl impossible
  · have resyncs : 0 < o → o ≤ initialBlock o → (decide (0 < o) && early.isEmpty) = true := by
      intro positive le
      rw [none_before le before',decide_eq_true positive]
      rfl
    rintro (start | trailing | closed)
    · rcases Nat.eq_zero_or_pos o with rfl | positive
      · exact .inl (fresh (none_before (Nat.zero_le _) before) (none_before (Nat.zero_le _) before'))
      · refine .inr (.inl (resyncs positive ?_))
        rcases initialBlock_cases range with ⟨-,block⟩ | ⟨trailing,-⟩
        · omega
        · rw [start] at trailing
          exact absurd trailing (by decide)
    · rcases initialBlock_cases range with ⟨not,-⟩ | ⟨-,block | ⟨-,late⟩⟩
      · exact absurd trailing not
      · have inside : o % kBlockSize < kBlockSize := Nat.mod_lt _ (by decide)
        exact .inr (.inl (resyncs (by omega) (by omega)))
      · -- a header so near the end of the range would not fit into the file
        left
        cases rest with
        | nil => exact grouped.inner_nil
        | cons f rest =>
          have here := after (List.cons_ne_nil _ _)
          have found := (ahead'.lookAt_cons (fun _ => f.chunk_valid) : lookAt true _ _ = _ ∧ _).1
          have inside := (lookAt_chunk found).2.2
          simp only [kHeaderSize] at inside
          omega
    · exact .inl closed

/-- Reading from an initial offset returns the records that start at or after it, in order,
and `LastRecordOffset` is where each starts. -/
theorem offset_read (checksum : Bool) (range : o < 2^64) (small : ((Writer.open []).addRecords written).dest.length < 2^64) :
    ∃ last : Reader, (Reader.new ((Writer.open []).addRecords written).dest checksum o).ReturnsAt
      ((starts (Writer.open []) written).filter fun x => o ≤ x.1) last := by
  obtain ⟨last,returns,-⟩ := reads_from checksum range small
  exact ⟨last,returns⟩

/-- From offset 3, inside the first record. -/
theorem offset_read_second :
    ∃ last : Reader, (Reader.new ((Writer.open []).addRecords [[1],[2],[3]]).dest true 3).ReturnsAt [(8,[2]),(16,[3])] last :=
  offset_read true (by decide) (by decide)

theorem Reader.ReturnsAt.unique {r last other : Reader} {records others : List (Nat × Bytes)} (first : r.ReturnsAt records last)
    (second : r.ReturnsAt others other) : last = other := by
  induction first generalizing others with
  | done answer =>
    cases second with
    | done answer' =>
      rw [answer] at answer'
      cases answer'
      rfl
    | next answer' =>
      rw [answer] at answer'
      cases answer'
  | next answer more ih =>
    cases second with
    | done answer' =>
      rw [answer] at answer'
      cases answer'
    | next answer' more' =>
      rw [answer] at answer'
      cases answer'
      exact ih more'

/-- Reading an undamaged log from an initial offset calls the reporter unless the offset is
aligned. -/
theorem offset_silent_iff (checksum : Bool) (range : o < 2^64) (small : ((Writer.open []).addRecords written).dest.length < 2^64) :
    (∀ records last, (Reader.new ((Writer.open []).addRecords written).dest checksum o).ReturnsAt records last →
      last.reports = []) ↔ Aligned o written := by
  obtain ⟨last,returns,quiet⟩ := reads_from checksum range small
  rw [← quiet]
  constructor
  · intro all
    exact all _ last returns
  · intro silent records other returns'
    rw [← returns.unique returns']
    exact silent

/-- From offset 3 the first physical record is a whole record. -/
theorem offset_silent_second : Aligned 3 [[1],[2],[3]] ∧
    ∀ records last, (Reader.new ((Writer.open []).addRecords [[1],[2],[3]]).dest true 3).ReturnsAt records last →
      last.reports = [] := by
  have aligned : Aligned 3 [[1],[2],[3]] := .inr (.inr (by decide))
  exact ⟨aligned,(offset_silent_iff true (by decide) (by decide)).mpr aligned⟩

end Session

section Long
variable {data : Bytes}

theorem fragmentAt_long (length : data.length = 32762) : fragmentAt 0 true data = ⟨.first,data.take 32761⟩ := by
  simp [fragmentAt,switchBlock,length,kBlockSize,kHeaderSize]

theorem fragmentAt_short (length : data.length = 1) : fragmentAt 32768 false data = ⟨.last,data⟩ := by
  have whole : data.take 1 = data := List.take_of_length_le (by omega)
  simp [fragmentAt,switchBlock,length,kBlockSize,kHeaderSize,whole]

/-- A record one byte longer than a block has room for. -/
theorem stream_long (length : data.length = 32762) :
    stream 0 [data] = [⟨.first,data.take 32761⟩,⟨.last,data.drop 32761⟩] := by
  have rest : (data.drop 32761).length = 1 := by rw [List.length_drop,length]
  have taken : (data.take 32761).length = 32761 := by rw [List.length_take,length]; decide
  have advance : Fragment.advance 0 ⟨.first,data.take 32761⟩ = 32768 := by
    simp only [Fragment.advance,taken]
    rfl
  rw [stream,stream,List.append_nil,fragments,fragmentsLoop,fragmentAt_long length]
  simp only [taken,advance]
  rw [if_pos (by omega),fragmentsLoop,fragmentAt_short rest,if_neg (Nat.lt_irrefl _)]

theorem long_small (length : data.length = 32762) : ((Writer.open []).addRecords [data]).dest.length < 2^64 := by
  have rest : (data.drop 32761).length = 1 := by rw [List.length_drop,length]
  have taken : (data.take 32761).length = 32761 := by rw [List.length_take,length]; decide
  have fits : FitsAll 0 ((stream 0 [data]).map .fragment) := stream_fits [data] 0 (Nat.zero_le _)
  have first : nextHeader 0 = 0 := nextHeader_aligned rfl
  have second : nextHeader (0 + 7 + 32761) = 32768 := nextHeader_aligned rfl
  have size := past_eq (p := 0) (Nat.zero_le _) rfl fits
  rw [stream_long length,Nat.zero_add] at size
  simp only [past,first,kHeaderSize,taken,second,rest] at size
  rw [addRecords_eq]
  simp only [Writer.open,List.nil_append,List.length_nil,Nat.zero_mod,stream_long length,← size]
  decide

theorem long_unaligned (length : data.length = 32762) : ¬Aligned 1 [data] := by
  have taken : (data.take 32761).length = 32761 := by rw [List.length_take,length]; decide
  rintro (start | trailing | whole)
  · exact absurd start (by decide)
  · exact absurd trailing (by decide)
  · rw [stream_long length] at whole
    have first : nextHeader 0 = 0 := nextHeader_aligned rfl
    have second : nextHeader (0 + 7 + 32761) = 32768 := nextHeader_aligned rfl
    have found := whole (32768,⟨.last,data.drop 32761⟩)
      (by simp only [placed,first,taken,kHeaderSize,second,List.find?]; rfl)
    exact found.2 rfl

theorem long_reported (length : data.length = 32762) :
    ∃ records last, (Reader.new ((Writer.open []).addRecords [data]).dest true 1).ReturnsAt records last ∧ last.reports ≠ [] := by
  obtain ⟨last,returns,quiet⟩ := reads_from (o := 1) true (by decide) (long_small length)
  exact ⟨_,last,returns,fun silent => long_unaligned length (quiet.mp silent)⟩

end Long

/-- One record over two blocks and an offset inside its first fragment. -/
theorem offset_reported :
    ∃ records last, (Reader.new ((Writer.open []).addRecords [List.replicate 32762 0]).dest true 1).ReturnsAt records last ∧
      last.reports ≠ [] :=
  long_reported List.length_replicate

end LevelDB.Log
