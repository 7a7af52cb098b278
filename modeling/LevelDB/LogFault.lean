import LevelDB.LogStream

/-! `log::Writer` on a file whose appends may fail. `EmitPhysicalRecord` moves
`block_offset_` whether or not the bytes arrived, and `AddRecord` ignores the status
of the trailer, so after a failure the writer and the file may disagree about where
the blocks are. -/
namespace LevelDB.Log

/-- What the file does with one pass of `AddRecord`. `none` is success; a failed append
or flush leaves the given number of bytes. -/
structure PassOutcome where
  trailer : Option Nat
  record : Option Nat
  deriving DecidableEq, Repr

def PassOutcome.ok : PassOutcome := ⟨none,none⟩

def arrived (bytes : Bytes) : Option Nat → Bytes
  | none => bytes
  | some count => bytes.take count

def Fragment.emitOn (offset : Nat) (outcome : PassOutcome) (f : Fragment) : Bytes :=
  arrived (trailer offset) outcome.trailer ++
    arrived (emitPhysicalRecord f.type f.payload) outcome.record

/-- The loop of `AddRecord`: it stops at the first record that is not appended, and the
status says whether all were. Passes without an outcome succeed. -/
def addRecordLoop : Nat → Writer → Bool → Bytes → List PassOutcome → Writer × Bool
  | 0, w, _, _, _ => (w,true)
  | fuel + 1, w, start, data, outcomes =>
    let outcome := outcomes.headD .ok
    let f := fragmentAt w.blockOffset start data
    let next : Writer := ⟨w.dest ++ f.emitOn w.blockOffset outcome,f.advance w.blockOffset⟩
    if outcome.record.isSome then (next,false)
    else if f.payload.length < data.length then
      addRecordLoop fuel next false (data.drop f.payload.length) outcomes.tail
    else (next,true)

structure AddRecordCall where
  data : Bytes
  outcomes : List PassOutcome
  deriving DecidableEq, Repr

def Writer.call (w : Writer) (c : AddRecordCall) : Writer × Bool :=
  addRecordLoop (c.data.length + 2) w true c.data c.outcomes

/-- The file after the calls. -/
def Writer.calls : Writer → List AddRecordCall → Writer
  | w, [] => w
  | w, c :: rest => (w.call c).1.calls rest

/-- The records of the calls that returned OK. -/
def acknowledged : Writer → List AddRecordCall → List Bytes
  | _, [] => []
  | w, c :: rest =>
    if (w.call c).2 then c.data :: acknowledged (w.call c).1 rest
    else acknowledged (w.call c).1 rest

/-- Everything the pass appended is in the file, whatever status was returned. -/
def PassOutcome.Whole (offset : Nat) (f : Fragment) (outcome : PassOutcome) : Prop :=
  (∀ count ∈ outcome.trailer, (Log.trailer offset).length ≤ count) ∧
    ∀ count ∈ outcome.record, (emitPhysicalRecord f.type f.payload).length ≤ count

instance (offset : Nat) (f : Fragment) (outcome : PassOutcome) :
    Decidable (outcome.Whole offset f) := by
  unfold PassOutcome.Whole; infer_instance

def WholeLoop : Nat → Nat → Bool → Bytes → List PassOutcome → Prop
  | 0, _, _, _, _ => True
  | fuel + 1, offset, start, data, outcomes =>
    let f := fragmentAt offset start data
    (outcomes.headD .ok).Whole offset f ∧
      ((outcomes.headD .ok).record = none → f.payload.length < data.length →
        WholeLoop fuel (f.advance offset) false (data.drop f.payload.length) outcomes.tail)

instance decidableWholeLoop : ∀ fuel offset start data outcomes,
    Decidable (WholeLoop fuel offset start data outcomes)
  | 0, _, _, _, _ => .isTrue trivial
  | fuel + 1, offset, start, data, outcomes =>
    have := decidableWholeLoop fuel ((fragmentAt offset start data).advance offset) false
      (data.drop (fragmentAt offset start data).payload.length) outcomes.tail
    inferInstanceAs (Decidable (_ ∧ (_ → _ → _)))

/-- The call loses no byte of a pass it makes: it succeeds, or fails once everything up to
the end of the failing physical record is in the file. -/
def AddRecordCall.Whole (w : Writer) (c : AddRecordCall) : Prop :=
  WholeLoop (c.data.length + 2) w.blockOffset true c.data c.outcomes

instance (w : Writer) (c : AddRecordCall) : Decidable (c.Whole w) :=
  decidableWholeLoop _ _ _ _ _

/-- No call is acknowledged once a call has lost bytes. -/
def StopsAtLoss : Writer → List AddRecordCall → Prop
  | _, [] => True
  | w, c :: rest =>
    (c.Whole w ∧ StopsAtLoss (w.call c).1 rest) ∨ acknowledged w (c :: rest) = []

instance decidableStopsAtLoss : ∀ w cs, Decidable (StopsAtLoss w cs)
  | _, [] => .isTrue trivial
  | w, c :: rest =>
    have := decidableStopsAtLoss (w.call c).1 rest
    inferInstanceAs (Decidable (_ ∧ _ ∨ _))

theorem arrived_whole (bytes : Bytes) (count : Option Nat)
    (whole : ∀ n ∈ count, bytes.length ≤ n) : arrived bytes count = bytes := by
  cases count with
  | none => rfl
  | some n => exact List.take_of_length_le (whole n rfl)

theorem emitOn_whole (offset : Nat) (outcome : PassOutcome) (f : Fragment)
    (whole : outcome.Whole offset f) : f.emitOn offset outcome = f.emit offset := by
  rw [Fragment.emitOn,arrived_whole _ _ whole.1,arrived_whole _ _ whole.2]
  rfl

/-- A call that loses nothing lays out the first fragments of its record, all of them
if it is acknowledged. -/
theorem addRecordLoop_whole (fuel : Nat) (w : Writer) (start : Bool) (data : Bytes)
    (outcomes : List PassOutcome) (whole : WholeLoop fuel w.blockOffset start data outcomes) :
    ∃ fs rest, fragmentsLoop fuel w.blockOffset start data = fs ++ rest ∧
      (addRecordLoop fuel w start data outcomes).1 =
        ⟨w.dest ++ layout w.blockOffset fs,endOffset w.blockOffset fs⟩ ∧
      ((addRecordLoop fuel w start data outcomes).2 = true → rest = []) := by
  induction fuel generalizing w start data outcomes with
  | zero => exact ⟨[],[],rfl,by simp [addRecordLoop,layout,endOffset],fun _ => rfl⟩
  | succ fuel ih =>
    set f := fragmentAt w.blockOffset start data with hf
    obtain ⟨here,later⟩ := whole
    rw [← hf] at here later
    have bytes := emitOn_whole _ _ _ here
    simp only [fragmentsLoop,addRecordLoop,← hf,bytes]
    cases failed : (outcomes.headD .ok).record with
    | some count =>
      refine ⟨[f],_,rfl,?_,?_⟩
      · simp [layout,endOffset]
      · simp
    | none =>
      by_cases more : f.payload.length < data.length
      · obtain ⟨fs,rest,split,ended,done⟩ := ih
          ⟨w.dest ++ f.emit w.blockOffset,f.advance w.blockOffset⟩ false
          (data.drop f.payload.length) outcomes.tail (later failed more)
        refine ⟨f :: fs,rest,?_,?_,?_⟩
        · simp [more,split]
        · simpa [more,layout,endOffset] using ended
        · simpa [more] using done
      · exact ⟨[f],[],by simp [more],by simp [more,layout,endOffset],fun _ => rfl⟩

theorem fragments_prefix_fits (offset : Nat) (data : Bytes) (fs rest : List Fragment)
    (split : fragments offset data = fs ++ rest) (bound : offset ≤ kBlockSize) :
    FitsAll offset (fs.map .fragment) := by
  have fits : FitsAll offset ((fragments offset data).map .fragment) :=
    fragmentsLoop_fits (data.length + 2) offset true data bound
  rw [split,List.map_append,fitsAll_append] at fits
  exact fits.1

/-- Only a failed append leaves the file with less than it was given. -/
theorem call_appends (c : AddRecordCall) (w : Writer) : ∃ bytes, (w.call c).1.dest = w.dest ++ bytes := by
  suffices loop : ∀ fuel (w : Writer) start data outcomes,
      ∃ bytes, (addRecordLoop fuel w start data outcomes).1.dest = w.dest ++ bytes from
    loop _ w true c.data c.outcomes
  intro fuel
  induction fuel with
  | zero => exact fun w start data outcomes => ⟨[],by simp [addRecordLoop]⟩
  | succ fuel ih =>
    intro w start data outcomes
    simp only [addRecordLoop]
    split
    · exact ⟨_,rfl⟩
    · split
      · obtain ⟨bytes,appended⟩ := ih
          ⟨w.dest ++ (fragmentAt w.blockOffset start data).emitOn w.blockOffset (outcomes.headD .ok),
            (fragmentAt w.blockOffset start data).advance w.blockOffset⟩ false
          (data.drop (fragmentAt w.blockOffset start data).payload.length) outcomes.tail
        exact ⟨_,by rw [appended,List.append_assoc]⟩
      · exact ⟨_,rfl⟩

theorem calls_append (cs : List AddRecordCall) (w : Writer) :
    ∃ bytes, (w.calls cs).dest = w.dest ++ bytes := by
  induction cs generalizing w with
  | nil => exact ⟨[],by simp [Writer.calls]⟩
  | cons c cs ih =>
    obtain ⟨first,here⟩ := call_appends c w
    obtain ⟨later,rest⟩ := ih (w.call c).1
    exact ⟨first ++ later,by rw [Writer.calls,rest,here,List.append_assoc]⟩

/-- Up to the first loss the file is a layout of whole fragments in which every
acknowledged record is complete. -/
theorem calls_items (cs : List AddRecordCall) (w : Writer) (bound : w.blockOffset ≤ kBlockSize)
    (stops : StopsAtLoss w cs) :
    ∃ fs tail, (w.calls cs).dest = w.dest ++ layout w.blockOffset fs ++ tail ∧
      FitsAll w.blockOffset (fs.map .fragment) ∧
      ∀ pending, (acknowledged w cs).Sublist (assemble pending (fs.map .fragment)) := by
  induction cs generalizing w with
  | nil => exact ⟨[],[],by simp [Writer.calls,layout],trivial,fun _ => List.Sublist.refl _⟩
  | cons c cs ih =>
    rcases stops with ⟨whole,stops⟩ | none
    · obtain ⟨fs,rest,split,ended,done⟩ := addRecordLoop_whole _ w true c.data c.outcomes whole
      have call : (w.call c).1 = ⟨w.dest ++ layout w.blockOffset fs,endOffset w.blockOffset fs⟩ := ended
      have fits := fragments_prefix_fits w.blockOffset c.data fs rest split bound
      have next := fitsAll_end _ _ bound fits
      rw [endOfItems_fragments] at next
      obtain ⟨more,tail,dest,moreFits,kept⟩ := ih (w.call c).1 (by rw [call]; exact next) stops
      rw [call] at dest moreFits
      refine ⟨fs ++ more,tail,?_,?_,?_⟩
      · rw [Writer.calls,call,dest,layout_append]
        simp only [List.append_assoc]
      · rw [List.map_append,fitsAll_append,endOfItems_fragments]
        exact ⟨fits,moreFits⟩
      · intro pending
        rw [acknowledged,List.map_append]
        cases status : (w.call c).2 with
        | true =>
          have all : fs = fragments w.blockOffset c.data := by
            have nothing := done status
            rw [nothing,List.append_nil] at split
            exact split.symm
          rw [if_pos rfl,all,assemble_fragments w.blockOffset c.data pending _ bound]
          exact List.Sublist.cons_cons _ (kept none)
        | false =>
          rw [if_neg Bool.false_ne_true,assemble_append]
          exact (kept _).trans (List.sublist_append_right _ _)
    · obtain ⟨bytes,appended⟩ := calls_append (c :: cs) w
      refine ⟨[],bytes,?_,trivial,?_⟩
      · rw [appended,layout,List.append_nil]
      · intro pending
        rw [none]
        exact List.nil_sublist _

/-- As long as no call is acknowledged after one that lost bytes, every acknowledged
record is read back, in order. -/
theorem acknowledged_read (cs : List AddRecordCall) (stops : StopsAtLoss (Writer.open []) cs) :
    (acknowledged (Writer.open []) cs).Sublist (readAll ((Writer.open []).calls cs).dest) := by
  obtain ⟨fs,tail,dest,fits,kept⟩ := calls_items cs (Writer.open []) (Nat.zero_le _) stops
  have file : ((Writer.open []).calls cs).dest = layoutItems 0 (fs.map .fragment) ++ tail := by
    rw [layoutItems_fragments,dest]
    rfl
  obtain ⟨rest,read⟩ := readAll_prefix _ tail fits
  rw [file,read]
  exact (kept none).trans (List.sublist_append_left _ _)

/-- The second call's flush fails once all its bytes are in the file. -/
theorem acknowledged_read_flushed :
    StopsAtLoss (Writer.open []) [⟨[1],[]⟩,⟨[2],[⟨none,some 8⟩]⟩,⟨[3],[]⟩] ∧
      [[1],[3]].Sublist (readAll
        ((Writer.open []).calls [⟨[1],[]⟩,⟨[2],[⟨none,some 8⟩]⟩,⟨[3],[]⟩]).dest) := by
  have stops : StopsAtLoss (Writer.open []) [⟨[1],[]⟩,⟨[2],[⟨none,some 8⟩]⟩,⟨[3],[]⟩] := by
    decide
  exact ⟨stops,acknowledged_read _ stops⟩

/-- One byte of the second record is lost, the third is acknowledged and not read back. -/
theorem acknowledged_lost :
    ¬∀ cs : List AddRecordCall, ∀ record ∈ acknowledged (Writer.open []) cs,
      record ∈ readAll ((Writer.open []).calls cs).dest := by
  intro all
  have lost : [3] ∈ acknowledged (Writer.open [])
      [⟨[1],[]⟩,⟨[2],[⟨none,some 7⟩]⟩,⟨[3],[]⟩] ∧
      [3] ∉ readAll ((Writer.open []).calls [⟨[1],[]⟩,⟨[2],[⟨none,some 7⟩]⟩,⟨[3],[]⟩]).dest := by
    decide +kernel
  exact lost.2 (all _ _ lost.1)

end LevelDB.Log
