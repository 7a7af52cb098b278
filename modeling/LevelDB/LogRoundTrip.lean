import LevelDB.LogTorn

/-! What was written is read back: whole, over several sessions of a writer on one file,
and up to the cut of a torn file. The reporter is not called. -/
namespace LevelDB.Log

theorem quietAll_append (left right : List Item) (pending : Option Bytes) :
    QuietAll pending (left ++ right) ↔
      QuietAll pending left ∧ QuietAll (pendingAfter pending left) right := by
  induction left generalizing pending with
  | nil => simp [QuietAll,pendingAfter]
  | cons i left ih => simp [QuietAll,pendingAfter,ih,and_assoc]

/-- The fragments of a record are read without a report, and leave nothing collected. -/
theorem quiet_fragmentsLoop (fuel offset : Nat) (start : Bool) (data : Bytes) (pending : Option Bytes)
    (rest : List Item) (bound : offset ≤ kBlockSize) (enough : passes offset data ≤ fuel)
    (fresh : start = true → pending.getD [] = []) (opened : start = false → pending.isSome)
    (later : QuietAll none rest) :
    QuietAll pending ((fragmentsLoop fuel offset start data).map .fragment ++ rest) := by
  induction fuel generalizing offset start data pending with
  | zero => unfold passes at enough; split at enough <;> omega
  | succ fuel ih =>
    have type := fragmentAt_type offset start data
    simp only [fragmentsLoop,List.map_cons,List.cons_append,QuietAll]
    generalize hf : fragmentAt offset start data = f at type ⊢
    obtain ⟨kind,payload⟩ := f
    by_cases more : payload.length < data.length
    · have decrease := passes_decrease offset start data bound (by simpa [hf] using more)
      have fits := (fragmentAt_fits offset start data bound).1
      simp only [hf] at decrease fits
      simp only [more,if_true] at type ⊢
      cases start with
      | true =>
        simp only [if_true] at type
        subst type
        exact ⟨fresh rfl,ih _ false _ _ fits (by omega) (by simp) (by simp [Item.read])⟩
      | false =>
        simp only [Bool.false_eq_true,if_false] at type
        subst type
        exact ⟨opened rfl,ih _ false _ _ fits (by omega) (by simp) (by simpa [Item.read] using opened)⟩
    · simp only [more,if_false] at type ⊢
      cases start with
      | true =>
        simp only [if_true] at type
        subst type
        exact ⟨fresh rfl,later⟩
      | false =>
        simp only [Bool.false_eq_true,if_false] at type
        subst type
        exact ⟨opened rfl,later⟩

theorem quiet_stream (records : List Bytes) (offset : Nat) (bound : offset ≤ kBlockSize) :
    QuietAll none ((stream offset records).map .fragment) := by
  induction records generalizing offset with
  | nil => trivial
  | cons data records ih =>
    have next := stream_end [data] offset bound
    simp only [stream,List.append_nil] at next
    have enough : passes offset data ≤ data.length + 2 := by unfold passes; split <;> omega
    simp only [stream,List.map_append]
    exact quiet_fragmentsLoop _ offset true data none _ bound enough (by simp) (by simp) (ih _ next)

/-- The file after consecutive sessions, each with a writer opened at the file's length. -/
def sessionsFile (sessions : List (List Bytes)) : Bytes :=
  sessions.foldl (fun file records => ((Writer.open file).addRecords records).dest) []

/-- A session that continues at the length of the file is as one that never stopped. -/
theorem session_continues (before records : List Bytes) :
    ((Writer.open (layout 0 (stream 0 before))).addRecords records).dest =
      layout 0 (stream 0 (before ++ records)) := by
  have split : ∀ (left : List Bytes) (offset : Nat),
      stream offset (left ++ records) =
        stream offset left ++ stream (endOffset offset (stream offset left)) records := by
    intro left
    induction left with
    | nil => intro offset; rfl
    | cons data left ih => intro offset; simp [stream,ih,endOffset_append]
  have bound := stream_end before 0 (Nat.zero_le _)
  have length := layout_length (stream 0 before) 0 (Nat.zero_le _) (stream_fits before 0 (Nat.zero_le _))
  rw [Nat.zero_add] at length
  simp only [addRecords_eq,Writer.open,length,split,layout_append]
  congr 1
  generalize endOffset 0 (stream 0 before) = offset at bound
  rcases Nat.lt_or_eq_of_le bound with inside | atEnd
  · simp only [Nat.mod_eq_of_lt inside]
  · subst atEnd
    cases records with
    | nil => rfl
    | cons data records =>
      have same := layout_boundary kBlockSize 0 (by decide) [] (data :: records) (by simp) (by decide)
      simpa using same

theorem sessionsFile_eq (sessions : List (List Bytes)) :
    sessionsFile sessions = layout 0 (stream 0 sessions.flatten) := by
  suffices all : ∀ before : List Bytes,
      sessions.foldl (fun file records => ((Writer.open file).addRecords records).dest)
        (layout 0 (stream 0 before)) = layout 0 (stream 0 (before ++ sessions.flatten)) from all []
  induction sessions with
  | nil => intro before; simp
  | cons records sessions ih =>
    intro before
    simp only [List.foldl_cons,session_continues,ih,List.flatten_cons,List.append_assoc]

/-- A log is read back as it was written, in however many sessions, without a report. -/
theorem sessions_read (sessions : List (List Bytes)) :
    ∃ last, (Reader.new (sessionsFile sessions) true 0).Returns sessions.flatten last ∧
      last.reports = [] := by
  have fits := stream_fits sessions.flatten 0 (Nat.zero_le _)
  have ends := (dead_nil _ (fitsAll_end _ 0 (Nat.zero_le _) fits)).ends
  have laid := laid_layout 0 ((stream 0 sessions.flatten).map .fragment) []
  simp only [List.append_nil,layoutItems_fragments,← sessionsFile_eq] at laid
  obtain ⟨last,returns,reports⟩ :=
    returns_items _ _ (Nat.le_refl _) _ 0 [] _ True fits ends laid (new_at _)
  rw [assemble_stream _ _ _ (Nat.zero_le _)] at returns
  exact ⟨last,returns,reports trivial (quiet_stream _ 0 (Nat.zero_le _))⟩

/-- A torn log is read up to the last record that is whole, without a report. -/
theorem torn_read (records : List Bytes) (n : Nat) :
    ∃ last, (Reader.new (((Writer.open []).addRecords records).dest.take n) true 0).Returns
      (contained n (Writer.open []) records) last ∧ last.reports = [] := by
  have fits := stream_fits records 0 (Nat.zero_le _)
  have quiet := quiet_stream records 0 (Nat.zero_le _)
  have file : ((Writer.open []).addRecords records).dest = layout 0 (stream 0 records) := by
    simp [addRecords_eq,Writer.open]
  have whole : contained n (Writer.open []) records =
      assemble none ((wholeFragments 0 n (stream 0 records)).map .fragment) :=
    contained_eq records (Writer.open []) n (Nat.zero_le _) (Nat.zero_le _)
  rw [file,whole]
  rcases take_layout (stream 0 records) 0 n with
    ⟨all,bytes,-⟩ | ⟨f,after,m,split,inside,-,bytes,-⟩
  · have ends := (dead_nil _ (fitsAll_end _ 0 (Nat.zero_le _) fits)).ends
    have laid := laid_layout 0 ((stream 0 records).map .fragment) []
    simp only [List.append_nil,layoutItems_fragments] at laid
    obtain ⟨last,returns,reports⟩ :=
      returns_items _ _ (Nat.le_refl _) _ 0 [] _ True fits ends laid (new_at _)
    rw [all,bytes]
    exact ⟨last,returns,reports trivial quiet⟩
  · rw [split,List.map_append] at fits quiet
    obtain ⟨fitsWhole,fitsCut⟩ := (fitsAll_append _ _ _).mp fits
    have next := fitsCut.1.1
    rw [endOfItems_fragments] at next
    have ends : Ends True (endOfItems 0 ((wholeFragments 0 n (stream 0 records)).map .fragment))
        ((f.emit (endOffset 0 (wholeFragments 0 n (stream 0 records)))).take m) := by
      simpa only [endOfItems_fragments] using (dead_part _ f m next inside).ends
    have laid := laid_layout 0 ((wholeFragments 0 n (stream 0 records)).map .fragment)
      ((f.emit (endOffset 0 (wholeFragments 0 n (stream 0 records)))).take m)
    rw [layoutItems_fragments,← bytes] at laid
    obtain ⟨last,returns,reports⟩ :=
      returns_items _ _ (Nat.le_refl _) _ 0 _ _ True fitsWhole ends laid (new_at _)
    exact ⟨last,returns,reports trivial ((quietAll_append _ _ _).mp quiet).1⟩

end LevelDB.Log
