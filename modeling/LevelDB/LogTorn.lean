import LevelDB.LogStream

/-! Appending to a log whose tail is torn. `RecoverLogFile` (with `reuse_logs`) and
`ReuseManifest` open a writer at the length of whatever the crash left, and the
bytes of a cut physical record stay in front of the new ones. -/
namespace LevelDB.Log

/-- The records of a session all of whose bytes are among the first `n` of the file. -/
def contained (n : Nat) : Writer → List Bytes → List Bytes
  | _, [] => []
  | w, data :: rest =>
    if (w.addRecord data).dest.length ≤ n then data :: contained n (w.addRecord data) rest else []

/-- The physical record that a cut after `n` bytes falls inside, and how many of its
bytes are kept. A cut between records or in a trailer falls inside none. -/
def cutFragment : Nat → Nat → List Fragment → Option (Nat × Fragment)
  | _, _, [] => none
  | offset, n, f :: rest =>
    if (f.emit offset).length ≤ n then
      cutFragment (f.advance offset) (n - (f.emit offset).length) rest
    else if (trailer offset).length < n then some (n - (trailer offset).length,f) else none

/-- A cut physical record whose block the next writer has filled with zeros. -/
def zeroFilled (kept : Nat) (f : Fragment) (room : Nat) : Bytes :=
  (emitPhysicalRecord f.type f.payload).take kept ++ List.replicate room 0

/-- The cut leaves no physical record unfinished, or it leaves one so near the end of its
block that the next writer starts a new block, and the zeros of the trailer do not make
the unfinished record pass for a complete user record. -/
def ResumesCleanly (records : List Bytes) (n : Nat) (more : List Bytes) : Prop :=
  more = [] ∨ ∀ kept f, cutFragment 0 n (stream 0 records) = some (kept,f) →
    kBlockSize - n % kBlockSize < kHeaderSize ∧
      (Unreadable (zeroFilled kept f (kBlockSize - n % kBlockSize)) ∨
        headerType (zeroFilled kept f (kBlockSize - n % kBlockSize)) ≠ 1 ∧
        headerType (zeroFilled kept f (kBlockSize - n % kBlockSize)) ≠ 4)

/-- The file after a session, cut to `n` bytes and continued by a second session. -/
def reopened (records : List Bytes) (n : Nat) (more : List Bytes) : Bytes :=
  ((Writer.open (((Writer.open []).addRecords records).dest.take n)).addRecords more).dest

def wholeFragments : Nat → Nat → List Fragment → List Fragment
  | _, _, [] => []
  | offset, n, f :: rest =>
    if (f.emit offset).length ≤ n then
      f :: wholeFragments (f.advance offset) (n - (f.emit offset).length) rest
    else []

theorem wholeFragments_append (left right : List Fragment) (offset n : Nat)
    (enough : (layout offset left).length ≤ n) :
    wholeFragments offset n (left ++ right) =
      left ++ wholeFragments (endOffset offset left) (n - (layout offset left).length) right := by
  induction left generalizing offset n with
  | nil => simp [layout,endOffset]
  | cons f left ih =>
    simp only [layout,List.length_append] at enough
    have here : (f.emit offset).length ≤ n := by omega
    have step := ih (f.advance offset) (n - (f.emit offset).length) (by omega)
    simp only [List.cons_append,wholeFragments,here,if_true,step,layout,List.length_append,
      endOffset,List.foldl_cons,Nat.sub_sub]

theorem wholeFragments_short (left right : List Fragment) (offset n : Nat)
    (short : n < (layout offset left).length) :
    wholeFragments offset n (left ++ right) = wholeFragments offset n left := by
  induction left generalizing offset n with
  | nil => simp [layout] at short
  | cons f left ih =>
    simp only [layout,List.length_append] at short
    simp only [List.cons_append,wholeFragments]
    by_cases here : (f.emit offset).length ≤ n
    · rw [if_pos here,if_pos here,ih (f.advance offset) (n - (f.emit offset).length) (by omega)]
    · rw [if_neg here,if_neg here]

/-- A cut takes whole fragments and a proper part of what the next one emits. -/
theorem take_layout (fs : List Fragment) (offset n : Nat) :
    (wholeFragments offset n fs = fs ∧ (layout offset fs).take n = layout offset fs ∧
      cutFragment offset n fs = none) ∨
    ∃ f after m, fs = wholeFragments offset n fs ++ f :: after ∧
      m < (f.emit (endOffset offset (wholeFragments offset n fs))).length ∧
      n = (layout offset (wholeFragments offset n fs)).length + m ∧
      (layout offset fs).take n = layout offset (wholeFragments offset n fs) ++
        (f.emit (endOffset offset (wholeFragments offset n fs))).take m ∧
      cutFragment offset n fs =
        if (trailer (endOffset offset (wholeFragments offset n fs))).length < m
        then some (m - (trailer (endOffset offset (wholeFragments offset n fs))).length,f)
        else none := by
  induction fs generalizing offset n with
  | nil => simp [wholeFragments,layout,cutFragment]
  | cons f fs ih =>
    by_cases here : (f.emit offset).length ≤ n
    · have whole : wholeFragments offset n (f :: fs) =
          f :: wholeFragments (f.advance offset) (n - (f.emit offset).length) fs := by
        simp [wholeFragments,here]
      have cut : cutFragment offset n (f :: fs) =
          cutFragment (f.advance offset) (n - (f.emit offset).length) fs := by
        simp [cutFragment,here]
      have taken : (layout offset (f :: fs)).take n =
          f.emit offset ++ (layout (f.advance offset) fs).take (n - (f.emit offset).length) := by
        rw [layout,List.take_append,List.take_of_length_le here]
      rw [whole,cut,taken]
      rcases ih (f.advance offset) (n - (f.emit offset).length) with
        ⟨all,bytes,none⟩ | ⟨g,after,m,split,inside,count,bytes,kept⟩
      · exact .inl ⟨by rw [all],by rw [bytes,layout],none⟩
      · refine .inr ⟨g,after,m,?_,?_,?_,?_,?_⟩
        · rw [List.cons_append,← split]
        · simpa [endOffset] using inside
        · simp only [layout,List.length_append]; omega
        · rw [bytes]; simp [layout,endOffset]
        · exact kept
    · have whole : wholeFragments offset n (f :: fs) = [] := by simp [wholeFragments,here]
      rw [whole]
      refine .inr ⟨f,fs,n,rfl,by simpa [endOffset] using here,by simp [layout],?_,?_⟩
      · simp only [layout,endOffset,List.foldl_nil,List.nil_append,List.take_append]
        rw [show n - (f.emit offset).length = 0 by omega]
        simp
      · rw [cutFragment,if_neg here]
        rfl

/-- A record cut anywhere before its end delivers nothing. -/
theorem assemble_incomplete (fuel offset n : Nat) (start : Bool) (data : Bytes)
    (pending : Option Bytes)
    (short : n < (layout offset (fragmentsLoop fuel offset start data)).length) :
    assemble pending
      ((wholeFragments offset n (fragmentsLoop fuel offset start data)).map .fragment) = [] := by
  induction fuel generalizing offset n start data pending with
  | zero => rfl
  | succ fuel ih =>
    set f := fragmentAt offset start data with hf
    have type := fragmentAt_type offset start data
    rw [← hf] at type
    simp only [fragmentsLoop,← hf,wholeFragments,layout,List.length_append] at short ⊢
    by_cases here : (f.emit offset).length ≤ n
    · by_cases more : f.payload.length < data.length
      · simp only [if_pos more] at short type ⊢
        have rest := ih (f.advance offset) (n - (f.emit offset).length) false
          (data.drop f.payload.length) ((Item.fragment f).read pending).2 (by omega)
        have silent : ((Item.fragment f).read pending).1 = none := by
          cases start
          · rw [show Item.fragment f = .fragment ⟨.middle,f.payload⟩ by
              simp only [Bool.false_eq_true,if_false] at type; rw [← type]]
            rfl
          · rw [show Item.fragment f = .fragment ⟨.first,f.payload⟩ by
              simp only [if_true] at type; rw [← type]]
            rfl
        simpa [here,assemble,silent] using rest
      · simp only [if_neg more,layout,List.length_nil,Nat.add_zero] at short
        omega
    · simp [here,assemble]

theorem contained_eq (records : List Bytes) (w : Writer) (n : Nat) (bound : w.blockOffset ≤ kBlockSize)
    (reached : w.dest.length ≤ n) :
    contained n w records = assemble none ((wholeFragments w.blockOffset (n - w.dest.length)
      (stream w.blockOffset records)).map .fragment) := by
  induction records generalizing w with
  | nil => rfl
  | cons data records ih =>
    have length : (w.addRecord data).dest.length =
        w.dest.length + (layout w.blockOffset (fragments w.blockOffset data)).length := by
      simp [Writer.addRecord]
    rw [contained,stream]
    by_cases whole : (w.addRecord data).dest.length ≤ n
    · have next : (w.addRecord data).blockOffset ≤ kBlockSize := by
        have ends := stream_end [data] w.blockOffset bound
        simpa [stream,Writer.addRecord] using ends
      rw [if_pos whole,ih (w.addRecord data) next whole,
        wholeFragments_append _ _ _ _ (by omega),List.map_append,
        assemble_fragments w.blockOffset data none _ bound,length,Nat.sub_sub]
      rfl
    · have short : n - w.dest.length <
          (layout w.blockOffset (fragments w.blockOffset data)).length := by omega
      rw [if_neg whole,wholeFragments_short _ _ _ _ short]
      exact (assemble_incomplete _ _ _ _ _ none short).symm

/-- Items that deliver nothing do not disturb the records written after them. -/
theorem read_resumed (before : List Fragment) (between : List Item) (more : List Bytes)
    (fits : FitsAll 0 (before.map .fragment ++ between))
    (silent : ∀ pending, assemble pending between = []) :
    readAll (layoutItems 0 (before.map .fragment ++ between) ++
      layout (endOfItems 0 (before.map .fragment ++ between))
        (stream (endOfItems 0 (before.map .fragment ++ between)) more)) =
      assemble none (before.map .fragment) ++ more := by
  set items := before.map Item.fragment ++ between with hitems
  have bound := fitsAll_end items 0 (Nat.zero_le _) fits
  have later := stream_fits more (endOfItems 0 items) bound
  have all : FitsAll 0 (items ++ (stream (endOfItems 0 items) more).map .fragment) :=
    (fitsAll_append _ _ _).mpr ⟨fits,later⟩
  have read := readAll_items _ [] all (dead_nil _ (fitsAll_end _ 0 (Nat.zero_le _) all))
  rw [List.append_nil,layoutItems_append,layoutItems_fragments] at read
  rw [read,assemble_append,assemble_stream _ _ _ bound,hitems,assemble_append,silent,List.append_nil]

/-- Bytes that pass the reader's checks are those of a physical record. -/
theorem emit_of_readable (bytes : Bytes) (t : RecordType) (header : kHeaderSize ≤ bytes.length)
    (type : headerType bytes = t.code.toNat)
    (checked : checksumMatches bytes (headerLength bytes) = true)
    (whole : kHeaderSize + headerLength bytes ≤ bytes.length) :
    bytes = emitPhysicalRecord t ((bytes.drop kHeaderSize).take (headerLength bytes)) ++
      bytes.drop (kHeaderSize + headerLength bytes) := by
  obtain ⟨a,b,c,d,low,high,code,rest,rfl⟩ : ∃ a b c d low high code rest,
      bytes = a :: b :: c :: d :: low :: high :: code :: rest := by
    rcases bytes with _ | ⟨a,_ | ⟨b,_ | ⟨c,_ | ⟨d,_ | ⟨low,_ | ⟨high,_ | ⟨code,rest⟩⟩⟩⟩⟩⟩⟩
    case cons.cons.cons.cons.cons.cons.cons => exact ⟨a,b,c,d,low,high,code,rest,rfl⟩
    all_goals simp [kHeaderSize] at header
  have length : headerLength (a :: b :: c :: d :: low :: high :: code :: rest) =
      low.toNat + 256 * high.toNat := rfl
  rw [length] at checked whole ⊢
  have lowBound := low.toNat_lt
  have highBound := high.toNat_lt
  set L := low.toNat + 256 * high.toNat with hL
  have code_eq : code = t.code := by
    have byte : headerType (a :: b :: c :: d :: low :: high :: code :: rest) =
      if code.toNat < 128 then code.toNat else code.toNat + 2^32 - 256 := rfl
    rw [byte] at type
    have small : t.code.toNat < 128 := by cases t <;> decide
    have codeBound := code.toNat_lt
    apply UInt8.toNat_inj.mp
    split at type <;> omega
  have enough : L ≤ rest.length := by
    simp only [kHeaderSize,List.length_cons] at whole
    omega
  have stored : Crc32c.mask (Crc32c.extend (Crc32c.value [t.code]) (rest.take L)) =
      decodeFixed32 (a :: b :: c :: d :: low :: high :: code :: rest) := by
    have eq := beq_iff_eq.mp checked
    have covered : ((a :: b :: c :: d :: low :: high :: code :: rest).drop 6).take (1 + L) =
        [t.code] ++ rest.take L := by
      simp [code_eq,Nat.add_comm 1]
    rw [covered] at eq
    rw [Crc32c.value,Crc32c.extend_append,← Crc32c.value,← eq,Crc32c.mask_unmask]
  have taken : ((a :: b :: c :: d :: low :: high :: code :: rest).drop kHeaderSize).take L =
      rest.take L := rfl
  have remainder : (a :: b :: c :: d :: low :: high :: code :: rest).drop (kHeaderSize + L) =
      rest.drop L := by
    rw [← List.drop_drop]; rfl
  have lows : UInt8.ofNat (L % 256) = low := by
    apply UInt8.toNat_inj.mp
    rw [UInt8.toNat_ofNat']
    omega
  have highs : UInt8.ofNat (L / 256) = high := by
    apply UInt8.toNat_inj.mp
    rw [UInt8.toNat_ofNat']
    omega
  rw [taken,remainder,emitPhysicalRecord,stored,encodeFixed32_decodeFixed32,List.length_take,
    Nat.min_eq_left enough,lows,highs,code_eq]
  simp

theorem getD_zeroFilled (kept : Nat) (f : Fragment) (room i : Nat)
    (inside : kept ≤ (emitPhysicalRecord f.type f.payload).length) :
    (zeroFilled kept f room).getD i 0 =
      if i < kept then (emitPhysicalRecord f.type f.payload).getD i 0 else 0 := by
  have count : ((emitPhysicalRecord f.type f.payload).take kept).length = kept := by
    rw [List.length_take,Nat.min_eq_left inside]
  simp only [zeroFilled,List.getD_eq_getElem?_getD]
  by_cases early : i < kept
  · rw [if_pos early,List.getElem?_append_left (by omega),List.getElem?_take_of_lt early]
  · rw [if_neg early,List.getElem?_append_right (by omega),List.getElem?_replicate]
    split <;> rfl

/-- The zeros complete a cut header with type zero and never reach past a block's trailer. -/
theorem zeroFilled_header (kept : Nat) (f : Fragment) (room : Nat)
    (inside : kept < (emitPhysicalRecord f.type f.payload).length) (small : f.payload.length < 65536) :
    (∃ t : RecordType, headerType (zeroFilled kept f room) = t.code.toNat) ∧
      kept ≤ kHeaderSize + headerLength (zeroFilled kept f room) := by
  have size := emitPhysicalRecord_length f.type f.payload
  have at_ := fun i => getD_zeroFilled kept f room i (Nat.le_of_lt inside)
  by_cases header : kHeaderSize ≤ kept
  · have type := headerType_emit f.type f.payload []
    have length := headerLength_emit f.type f.payload [] small
    rw [List.append_nil] at type length
    simp only [kHeaderSize] at header
    constructor
    · refine ⟨f.type,?_⟩
      have byte := at_ 6
      rw [if_pos (by omega)] at byte
      simp only [← type,headerType,byte]
    · rw [headerLength,at_,at_,if_pos (by omega),if_pos (by omega),← headerLength,length]
      omega
  · constructor
    · refine ⟨.zero,?_⟩
      simp only [kHeaderSize] at header
      have byte := at_ 6
      rw [if_neg (by omega)] at byte
      simp only [headerType,byte]
      rfl
    · omega

/-- A zero-filled record that the reader accepts is one physical record and a trailer. -/
theorem zeroFilled_readable (kept : Nat) (f : Fragment) (room : Nat)
    (inside : kept < (emitPhysicalRecord f.type f.payload).length) (small : f.payload.length < 65536)
    (header : kHeaderSize ≤ kept + room) (readable : ¬Unreadable (zeroFilled kept f room)) :
    ∃ t payload k, zeroFilled kept f room = emitPhysicalRecord t payload ++ List.replicate k 0 ∧
      k ≤ room ∧ headerType (zeroFilled kept f room) = t.code.toNat ∧ (t = .zero → payload ≠ []) := by
  have length : (zeroFilled kept f room).length = kept + room := by
    rw [zeroFilled,List.length_append,List.length_take,Nat.min_eq_left (Nat.le_of_lt inside),
      List.length_replicate]
  obtain ⟨⟨t,type⟩,past⟩ := zeroFilled_header kept f room inside small
  set bytes := zeroFilled kept f room with hbytes
  simp only [Unreadable,length,header,true_and,not_or,Bool.not_eq_false] at readable
  obtain ⟨whole,kind,checked⟩ := readable
  have split := emit_of_readable bytes t (by omega) type checked (by omega)
  have zeros : bytes.drop (kHeaderSize + headerLength bytes) =
      List.replicate (kept + room - (kHeaderSize + headerLength bytes)) 0 := by
    rw [hbytes,zeroFilled,List.drop_append,List.drop_of_length_le,List.length_take,
      Nat.min_eq_left (Nat.le_of_lt inside),List.drop_replicate,List.nil_append,← zeroFilled,← hbytes]
    · congr 1; omega
    · rw [List.length_take,Nat.min_eq_left (Nat.le_of_lt inside)]; exact past
  rw [zeros] at split
  refine ⟨t,_,_,split,by omega,type,?_⟩
  rintro rfl empty
  apply kind
  refine ⟨type,?_⟩
  have none := congrArg List.length empty
  rw [List.length_take,List.length_drop,List.length_nil] at none
  omega


theorem layout_boundary (a b : Nat) (same : switchBlock a = switchBlock b) (bytes : Bytes)
    (more : List Bytes) (nonempty : more ≠ []) (trailers : bytes ++ trailer b = trailer a) :
    bytes ++ layout b (stream b more) = layout a (stream a more) := by
  obtain ⟨data,rest,rfl⟩ := List.exists_cons_of_ne_nil nonempty
  rw [stream_switch b a same.symm]
  simp only [stream,fragments,fragmentsLoop,List.cons_append]
  exact layout_switch a b same _ _ bytes trailers

/-- Reading a cut log: the records that are wholly there, and nothing of the cut one. -/
theorem read_cut (records : List Bytes) (n : Nat) :
    readAll ((layout 0 (stream 0 records)).take n) =
      assemble none ((wholeFragments 0 n (stream 0 records)).map .fragment) := by
  have fits := stream_fits records 0 (Nat.zero_le _)
  rcases take_layout (stream 0 records) 0 n with
    ⟨all,bytes,-⟩ | ⟨f,after,m,split,inside,-,bytes,-⟩
  · have read := readAll_items _ [] fits (dead_nil _ (fitsAll_end _ 0 (Nat.zero_le _) fits))
    rw [List.append_nil,layoutItems_fragments] at read
    rw [bytes,all,read]
  · rw [split,List.map_append,fitsAll_append] at fits
    have read := readAll_items _ ((f.emit (endOffset 0 (wholeFragments 0 n (stream 0 records)))).take m)
      fits.1 (by rw [endOfItems_fragments]
                 have next := fits.2.1.1
                 rw [endOfItems_fragments] at next
                 exact dead_part _ f m next inside)
    rw [layoutItems_fragments] at read
    rw [bytes,read]

/-- A cut in a trailer: the next writer goes on as if it were not there. -/
theorem trailer_resumed (offset m : Nat) (bound : offset ≤ kBlockSize)
    (inside : m ≤ (trailer offset).length) :
    switchBlock ((offset + m) % kBlockSize) = switchBlock offset ∧
      (trailer offset).take m ++ trailer ((offset + m) % kBlockSize) = trailer offset := by
  rw [trailer_length] at inside
  by_cases short : kBlockSize - offset < kHeaderSize
  · rw [if_pos short] at inside
    by_cases full : offset + m = kBlockSize
    · have whole : m = kBlockSize - offset := by omega
      rw [full,Nat.mod_self]
      refine ⟨by simp [switchBlock,short],?_⟩
      rw [List.take_of_length_le (by rw [trailer_length,if_pos short]; omega)]
      simp [trailer,kHeaderSize,kBlockSize]
    · rw [Nat.mod_eq_of_lt (by omega)]
      have later : kBlockSize - (offset + m) < kHeaderSize := by omega
      refine ⟨by simp [switchBlock,short,later],?_⟩
      simp only [trailer,short,later,if_true,List.take_replicate,List.replicate_append_replicate]
      congr 1
      omega
  · rw [if_neg short] at inside
    have none : m = 0 := by omega
    have small : offset < kBlockSize := by simp only [kHeaderSize] at short; omega
    rw [none,Nat.add_zero,Nat.mod_eq_of_lt small]
    simp

/-- A log cut between physical records is continued as if it had never been closed. -/
theorem resume_between (before : List Fragment) (m : Nat) (more : List Bytes) (nonempty : more ≠ [])
    (fits : FitsAll 0 (before.map .fragment))
    (inside : m ≤ (trailer (endOffset 0 before)).length) :
    readAll (layout 0 before ++ (trailer (endOffset 0 before)).take m ++
      layout (((layout 0 before).length + m) % kBlockSize)
        (stream (((layout 0 before).length + m) % kBlockSize) more)) =
      assemble none (before.map .fragment) ++ more := by
  have bound := fitsAll_end _ 0 (Nat.zero_le _) fits
  rw [endOfItems_fragments] at bound
  have place : ((layout 0 before).length + m) % kBlockSize =
      (endOffset 0 before + m) % kBlockSize := by
    have length := layout_length before 0 (Nat.zero_le _) fits
    rw [Nat.zero_add] at length
    rw [Nat.add_mod,length,← Nat.add_mod]
  obtain ⟨same,trailers⟩ := trailer_resumed (endOffset 0 before) m bound inside
  have resumed := read_resumed before [] more (by simpa using fits) (fun _ => rfl)
  rw [List.append_nil,layoutItems_fragments,endOfItems_fragments] at resumed
  rw [List.append_assoc,place,layout_boundary _ _ same.symm _ more nonempty trailers,resumed]

theorem switchBlock_late (offset : Nat) (late : kBlockSize - offset < kHeaderSize) :
    switchBlock offset = switchBlock kBlockSize := by
  rw [switchBlock,if_pos late]
  rfl

theorem read_resumed_one (before : List Fragment) (i : Item) (more : List Bytes)
    (fits : FitsAll 0 (before.map .fragment)) (next : i.Fits (endOffset 0 before))
    (silent : ∀ pending, assemble pending [i] = []) :
    readAll (layout 0 before ++ (i.emit (endOffset 0 before) ++
      layout (i.advance (endOffset 0 before)) (stream (i.advance (endOffset 0 before)) more))) =
      assemble none (before.map .fragment) ++ more := by
  have whole : FitsAll 0 (before.map .fragment ++ [i]) := by
    rw [fitsAll_append,endOfItems_fragments]
    exact ⟨fits,next,trivial⟩
  have resumed := read_resumed before [i] more whole silent
  have ends : endOfItems 0 (before.map .fragment ++ [i]) = i.advance (endOffset 0 before) := by
    rw [endOfItems_append,endOfItems_fragments]
    rfl
  rw [ends,layoutItems_append,layoutItems_fragments,endOfItems_fragments,layoutItems,layoutItems,
    List.append_nil,List.append_assoc] at resumed
  exact resumed

/-- A log cut inside a physical record whose block is then closed by the next writer. -/
theorem resume_inside (before : List Fragment) (f : Fragment) (kept : Nat) (more : List Bytes)
    (nonempty : more ≠ []) (fits : FitsAll 0 (before.map .fragment))
    (next : (Item.fragment f).Fits (endOffset 0 before))
    (inside : kept < (emitPhysicalRecord f.type f.payload).length) (position : Nat)
    (place : position = switchBlock (endOffset 0 before) + kept)
    (closed : kBlockSize - position < kHeaderSize)
    (silent : Unreadable (zeroFilled kept f (kBlockSize - position)) ∨
      headerType (zeroFilled kept f (kBlockSize - position)) ≠ 1 ∧
        headerType (zeroFilled kept f (kBlockSize - position)) ≠ 4) :
    readAll (layout 0 before ++ (trailer (endOffset 0 before) ++
      (emitPhysicalRecord f.type f.payload).take kept) ++
        layout position (stream position more)) =
      assemble none (before.map .fragment) ++ more := by
  have ends := fitsAll_end _ 0 (Nat.zero_le _) fits
  rw [endOfItems_fragments] at ends
  have size := emitPhysicalRecord_length f.type f.payload
  have room := switchBlock_le _ ends
  have whole := next.1
  unfold Fragment.advance at whole
  have small : f.payload.length < 65536 := by simp only [kBlockSize] at whole; omega
  set o := endOffset 0 before with ho
  set bytes := zeroFilled kept f (kBlockSize - position) with hbytes
  have width : bytes.length = kept + (kBlockSize - position) := by
    rw [hbytes,zeroFilled,List.length_append,List.length_take,Nat.min_eq_left (Nat.le_of_lt inside),
      List.length_replicate]
  have filled : (emitPhysicalRecord f.type f.payload).take kept ++
      layout position (stream position more) = bytes ++ layout kBlockSize (stream kBlockSize more) := by
    have zeros : trailer position = List.replicate (kBlockSize - position) 0 := by
      simp [trailer,closed]
    have same : switchBlock position = switchBlock kBlockSize := switchBlock_late position closed
    rw [← layout_boundary position kBlockSize same (trailer position) more nonempty
      (by simp [trailer,kHeaderSize]),zeros,← List.append_assoc]
    rfl
  rw [List.append_assoc,List.append_assoc,filled]
  have header : kHeaderSize ≤ kept + (kBlockSize - position) := by omega
  by_cases bad : Unreadable bytes
  · have fill : switchBlock o + bytes.length = kBlockSize := by omega
    have resumed := read_resumed_one before (.damaged bytes) more fits ⟨fill,bad⟩ (fun _ => rfl)
    simpa only [Item.emit,Item.advance,List.append_assoc] using resumed
  · obtain ⟨t,payload,k,split,short,type,zero⟩ := zeroFilled_readable kept f (kBlockSize - position)
      inside small header bad
    obtain ⟨notFull,notLast⟩ := silent.resolve_left bad
    rw [type] at notFull notLast
    rw [← hbytes] at split
    have count := congrArg List.length split
    rw [width,List.length_append,emitPhysicalRecord_length,List.length_replicate] at count
    set g : Fragment := ⟨t,payload⟩ with hg
    have advance : g.advance o = kBlockSize - k := by
      rw [Fragment.advance,hg]
      simp only
      omega
    have quiet : ∀ pending, assemble pending [.fragment g] = [] := by
      intro pending
      cases t <;> simp_all [assemble,Item.read,RecordType.code]
    have resumed := read_resumed_one before (.fragment g) more fits
      ⟨by rw [advance]; omega,zero⟩ quiet
    simp only [Item.emit,Item.advance,← ho] at resumed
    have same : switchBlock (g.advance o) = switchBlock kBlockSize :=
      switchBlock_late (g.advance o) (by omega)
    have zeros : trailer (g.advance o) = List.replicate k 0 := by
      have late : kBlockSize - (kBlockSize - k) = k := by omega
      have few : k < kHeaderSize := by omega
      simp [advance,trailer,late,few]
    rw [← layout_boundary (g.advance o) kBlockSize same (trailer (g.advance o)) more nonempty
      (by simp [trailer,kHeaderSize]),zeros] at resumed
    rw [split]
    simpa only [Fragment.emit,List.append_assoc] using resumed

theorem contained_whole (records : List Bytes) (n : Nat) :
    contained n (Writer.open []) records =
      assemble none ((wholeFragments 0 n (stream 0 records)).map .fragment) :=
  contained_eq records (Writer.open []) n (Nat.zero_le _) (Nat.zero_le _)

/-- A log that is continued after a cut yields the records the cut left whole and all the
new ones, if the cut left no physical record unfinished where the new ones begin. -/
theorem reopened_read (records : List Bytes) (n : Nat) (more : List Bytes)
    (clean : ResumesCleanly records n more) :
    readAll (reopened records n more) = contained n (Writer.open []) records ++ more := by
  rw [contained_whole]
  have dest : reopened records n more = (layout 0 (stream 0 records)).take n ++
      layout (((layout 0 (stream 0 records)).take n).length % kBlockSize)
        (stream (((layout 0 (stream 0 records)).take n).length % kBlockSize) more) := by
    simp [reopened,addRecords_eq,Writer.open]
  rw [dest]
  by_cases nonempty : more = []
  · rw [nonempty,stream,layout,List.append_nil,List.append_nil,read_cut]
  have clean := clean.resolve_left nonempty
  have fits := stream_fits records 0 (Nat.zero_le _)
  rcases take_layout (stream 0 records) 0 n with
    ⟨all,bytes,-⟩ | ⟨f,after,m,split,inside,count,bytes,cut⟩
  · rw [all,bytes]
    have resumed := resume_between (stream 0 records) 0 more nonempty fits (Nat.zero_le _)
    rwa [List.take_zero,List.append_nil,Nat.add_zero] at resumed
  · set before := wholeFragments 0 n (stream 0 records) with hbefore
    set o := endOffset 0 before with ho
    rw [split,List.map_append,fitsAll_append,endOfItems_fragments] at fits
    obtain ⟨fits,next,-⟩ := fits
    have length : ((layout 0 (stream 0 records)).take n).length = n := by
      rw [bytes,List.length_append,List.length_take,Nat.min_eq_left (Nat.le_of_lt inside)]
      exact count.symm
    rw [length,bytes]
    rw [Fragment.emit] at inside ⊢
    by_cases torn : (trailer o).length < m
    · rw [if_pos torn] at cut
      obtain ⟨closed,silent⟩ := clean _ _ cut
      have ends := fitsAll_end _ 0 (Nat.zero_le _) fits
      rw [endOfItems_fragments] at ends
      have kept : m - (trailer o).length < (emitPhysicalRecord f.type f.payload).length := by
        rw [List.length_append] at inside; omega
      have place : n % kBlockSize = switchBlock o + (m - (trailer o).length) := by
        have position := layout_length before 0 (Nat.zero_le _) fits
        have whole := next.1
        rw [emitPhysicalRecord_length] at kept
        rw [← ho,Fragment.advance] at whole
        rw [Nat.zero_add,← ho] at position
        rw [count,Nat.add_mod,position,← Nat.add_mod]
        rw [trailer_length] at torn kept ⊢
        unfold switchBlock at whole ⊢
        by_cases short : kBlockSize - o < kHeaderSize
        · simp only [short,if_true] at torn kept whole ⊢
          rw [show o + m = m - (kBlockSize - o) + kBlockSize by omega,Nat.add_mod_right,
            Nat.mod_eq_of_lt (by omega)]
          omega
        · simp only [short,if_false] at kept whole ⊢
          exact Nat.mod_eq_of_lt (by omega)
      have resumed := resume_inside before f _ more nonempty fits next kept _ place closed silent
      rwa [List.take_append,List.take_of_length_le (Nat.le_of_lt torn)]
    · have resumed := resume_between before m more nonempty fits (Nat.le_of_not_lt torn)
      rw [← count] at resumed
      rw [List.take_append,show m - (trailer o).length = 0 by omega,List.take_zero,List.append_nil]
      exact resumed

section Filled
variable {data : Bytes}

theorem stream_filled (length : data.length = 32750) :
    stream 0 [data,[1,2,3,4,5]] = [⟨.full,data⟩,⟨.first,[1,2,3,4]⟩,⟨.last,[5]⟩] := by
  have whole : fragmentAt 0 true data = ⟨.full,data⟩ := by
    simp only [fragmentAt,length]
    rw [List.take_of_length_le (by rw [length]; decide)]
    rfl
  have first : fragments 0 data = [⟨.full,data⟩] := by
    simp only [fragments,fragmentsLoop,whole,Nat.lt_irrefl,if_false]
  have second : fragments 32757 [1,2,3,4,5] = [⟨.first,[1,2,3,4]⟩,⟨.last,[5]⟩] := by decide
  have advance : endOffset 0 [⟨.full,data⟩] = 32757 := by
    simp only [endOffset,List.foldl_cons,List.foldl_nil,Fragment.advance,length]
    rfl
  simp only [stream,first,advance,second]
  rfl

/-- The second record is torn two bytes before the end of its block. -/
theorem cutFragment_filled (length : data.length = 32750) :
    cutFragment 0 32766 (stream 0 [data,[1,2,3,4,5]]) = some (9,⟨.first,[1,2,3,4]⟩) := by
  rw [stream_filled length]
  simp [cutFragment,Fragment.emit,trailer,switchBlock,Fragment.advance,kBlockSize,kHeaderSize,length]

theorem contained_filled (length : data.length = 32750) :
    contained 32766 (Writer.open []) [data,[1,2,3,4,5]] = [data] := by
  rw [contained_whole,stream_filled length]
  simp [wholeFragments,Fragment.emit,trailer,switchBlock,Fragment.advance,kBlockSize,kHeaderSize,assemble,Item.read,length]

end Filled

theorem reopened_read_filled : ∃ data : Bytes,
    cutFragment 0 32766 (stream 0 [data,[1,2,3,4,5]]) = some (9,⟨.first,[1,2,3,4]⟩) ∧
      ResumesCleanly [data,[1,2,3,4,5]] 32766 [[2]] ∧
      readAll (reopened [data,[1,2,3,4,5]] 32766 [[2]]) = [data,[2]] := by
  refine ⟨List.replicate 32750 7,?_⟩
  have length : (List.replicate 32750 (7 : UInt8)).length = 32750 := List.length_replicate
  generalize List.replicate 32750 (7 : UInt8) = data at length
  have cut := cutFragment_filled length
  have clean : ResumesCleanly [data,[1,2,3,4,5]] 32766 [[2]] := by
    right
    intro kept f some
    rw [cut] at some
    cases some
    exact ⟨by decide,.inr (by decide)⟩
  exact ⟨cut,clean,by rw [reopened_read _ _ _ clean,contained_filled length,List.singleton_append]⟩

/-- A log cut one byte short of its only record, then continued by one record: the header
of the torn record swallows the new one. -/
theorem reopened_read_torn :
    ¬∀ (records : List Bytes) (n : Nat) (more : List Bytes),
      readAll (reopened records n more) = contained n (Writer.open []) records ++ more := by
  intro all
  have lost : readAll (reopened [[1]] 7 [[2]]) ≠ contained 7 (Writer.open []) [[1]] ++ [[2]] := by
    decide +kernel
  exact lost (all _ _ _)

end LevelDB.Log
