import LevelDB.Block
import LevelDB.Cursor

/-! `Block::Iter` over any bytes, one access at a time. A move is a sequence of small steps:
to a restart point, over one entry, back over one restart point, or one halving of the
search. Each step tells which entry it decodes, which slices it makes and which restart
points it asks for. -/
namespace LevelDB.Sstable

/-- The three lengths at the front of an entry, each as a varint. -/
def entryLengths (input : Bytes) : Option (Nat × Nat × Nat × Bytes) :=
  (getVarint32 input).bind fun shared => (getVarint32 shared.2).bind fun nonShared =>
    (getVarint32 nonShared.2).map fun valueLength => (shared.1,nonShared.1,valueLength.1,valueLength.2)

/-- The loops around `ParseNextKey`: a single call, up to an offset, or up to a key. -/
inductive Loop (T : Type) where
  | once
  | until (limit : Nat)
  | below (target : T)

/-- What a move has still to do. -/
inductive Control (T : Type) where
  | idle
  | restart (index : Nat) (loop : Loop T)
  | parse (loop : Loop T)
  | back (original : Nat)
  | search (target : T) (left right : Nat) (before : Bool)

/-- An iterator within a move. -/
structure BlockMachine (T : Type) where
  iter : BlockIter
  control : Control T

/-- The bytes of the entry area from there on. -/
def BlockIter.area (s : BlockIter) (offset : Nat) : Bytes := (s.data.take s.restarts).drop offset

/-- The slices an entry is taken apart into, behind a key of that length. -/
def BlockIter.slicesAt (s : BlockIter) (offset keyLength : Nat) : List (Nat × Nat) :=
  match decodeEntry (s.area offset) with
  | none => []
  | some (shared,nonShared,valueLength,rest) =>
    if keyLength < shared then []
    else [(s.restarts - rest.length,nonShared),(s.restarts - rest.length + nonShared,valueLength)]

/-- The lengths do not fit in the entry area, or more is shared than the key before has. -/
def BlockIter.Bad (s : BlockIter) (offset keyLength : Nat) : Prop :=
  (entryLengths (s.area offset)).all fun e => decide (keyLength < e.1 ∨ e.2.2.2.length < e.2.1 + e.2.2.1)

/-- The sum of the lengths wraps around, and what is left of it fits. -/
def BlockIter.Wraps (s : BlockIter) (offset keyLength : Nat) : Prop :=
  (entryLengths (s.area offset)).any fun e =>
    decide (e.1 ≤ keyLength ∧ 2^32 ≤ e.2.1 + e.2.2.1 ∧ (e.2.1 + e.2.2.1) % 2^32 ≤ e.2.2.2.length)

instance (s : BlockIter) (offset keyLength : Nat) : Decidable (s.Wraps offset keyLength) :=
  inferInstanceAs (Decidable (_ = true))

namespace BlockMachine
variable {T : Type} [LinearOrder T] (rank : Bytes → T)

/-- `(left + right + 1) / 2` in 32 bits. -/
def mid (left right : Nat) : Nat := (left + right + 1) % 2^32 / 2

def goesOn (s : BlockIter) : Loop T → Bool
  | .once => false
  | .until limit => decide (s.nextEntryOffset < limit)
  | .below target => decide (rank s.key < target)

/-- The start of a move. -/
def start (s : BlockIter) : Move T → Control T
  | .first => .restart 0 .once
  | .last => .restart (s.numRestarts - 1) (.until s.restarts)
  | .next => .parse .once
  | .prev => .back s.current
  | .seek t =>
    if s.valid ∧ rank s.key = t then .idle
    else
      let before := s.valid && decide (rank s.key < t)
      .search t (if before then s.restartIndex else 0) (if s.valid && !before then s.restartIndex else s.numRestarts - 1) before

def begin (m : BlockMachine T) (move : Move T) : BlockMachine T := ⟨m.iter,start rank m.iter move⟩

def step (m : BlockMachine T) : BlockMachine T :=
  let s := m.iter
  match m.control with
  | .idle => m
  | .restart index loop => ⟨s.seekToRestartPoint index,.parse loop⟩
  | .parse loop =>
    let (more,s) := s.parseNextKey
    ⟨s,if more && goesOn rank s loop then .parse loop else .idle⟩
  | .back original =>
    if original ≤ s.getRestartPoint s.restartIndex then
      if s.restartIndex = 0 then ⟨{ s with current := s.restarts, restartIndex := s.numRestarts },.idle⟩
      else ⟨{ s with restartIndex := s.restartIndex - 1 },.back original⟩
    else ⟨s,.restart s.restartIndex (.until original)⟩
  | .search t left right before =>
    if left < right then
      match decodeEntry (s.area (s.getRestartPoint (mid left right))) with
      | none => ⟨s.corruptionError,.idle⟩
      | some (shared,nonShared,_,rest) =>
        if shared ≠ 0 then ⟨s.corruptionError,.idle⟩
        else if rank (rest.take nonShared) < t then ⟨s,.search t (mid left right) right before⟩
        else ⟨s,.search t left ((mid left right + (2^32 - 1)) % 2^32) before⟩
    else ⟨s,if left = s.restartIndex ∧ before then .parse (.below t) else .restart left (.below t)⟩

/-- The entry that the step decodes, and the length of the key before it. -/
def entry (m : BlockMachine T) : Option (Nat × Nat) :=
  match m.control with
  | .parse _ => if m.iter.nextEntryOffset < m.iter.restarts then some (m.iter.nextEntryOffset,m.iter.key.length) else none
  | .search _ left right _ => if left < right then some (m.iter.getRestartPoint (mid left right),0) else none
  | _ => none

/-- The slices that the step makes; the search looks at keys only. -/
def slices (m : BlockMachine T) : List (Nat × Nat) :=
  match m.entry with
  | none => []
  | some (offset,keyLength) =>
    match m.control with
    | .search _ _ _ _ => (m.iter.slicesAt offset keyLength).take 1
    | _ => m.iter.slicesAt offset keyLength

/-- The restart points that the step asks for; `ParseNextKey` checks its own first. -/
def points (m : BlockMachine T) : List Nat :=
  match m.control with
  | .restart index _ => [index]
  | .back _ => [m.iter.restartIndex]
  | .search _ left right _ => if left < right then [mid left right] else []
  | _ => []

/-- The step reads within the entry area, asks for restart points there are, and gives up
at a bad entry; between moves the value lies within the area. -/
structure Safe (m : BlockMachine T) : Prop where
  value : (∃ c, m = ⟨c,.idle⟩) → m.iter.valid → m.iter.valueOffset + m.iter.valueSize ≤ m.iter.restarts
  slices : ∀ slice ∈ m.slices, slice.1 + slice.2 ≤ m.iter.restarts
  points : ∀ index ∈ m.points, index < m.iter.numRestarts
  bad : ∀ e, m.entry = some e → m.iter.Bad e.1 e.2 →
    ∃ c, m.step rank = ⟨c,.idle⟩ ∧ c.valid = false ∧ c.status = some "bad entry in block"

/-- The sum of no entry that the step decodes wraps around. -/
def Fits (m : BlockMachine T) : Prop := ∀ e, m.entry = some e → ¬m.iter.Wraps e.1 e.2

/-- Neither does the sum of the search. -/
def Fine (m : BlockMachine T) : Prop :=
  m.Fits ∧ ∀ t left right before, m.control = .search t left right before → left < right → left + right + 1 < 2^32

def after (m : BlockMachine T) : Nat → BlockMachine T
  | 0 => m
  | n + 1 => (m.step rank).after n

/-- Moves one after the other, of which all steps are fine. -/
inductive Reaches (s : BlockIter) : BlockMachine T → Prop
  | opened : Reaches s ⟨s,.idle⟩
  | begin {c : BlockIter} {move : Move T} (reaches : Reaches s ⟨c,.idle⟩)
      (legal : move = .next ∨ move = .prev → c.valid) : Reaches s (begin rank ⟨c,.idle⟩ move)
  | step {m : BlockMachine T} (reaches : Reaches s m) (fine : m.Fine) : Reaches s (m.step rank)

end BlockMachine

theorem getVarintLoop_shorter {width fuel shift result : Nat} {input rest : Bytes} {v : Nat}
    (read : getVarintLoop width fuel shift result input = some (v,rest)) : rest.length < input.length := by
  induction fuel generalizing shift result input with
  | zero => cases read
  | succ fuel ih =>
    cases input with
    | nil => cases read
    | cons byte input =>
      rw [getVarintLoop] at read
      split at read
      · exact (ih read).trans (Nat.lt_succ_self _)
      · obtain rfl := (Prod.mk.inj (Option.some.inj read)).2
        exact Nat.lt_succ_self _

theorem entryLengths_shorter {input rest : Bytes} {shared nonShared valueLength : Nat}
    (read : entryLengths input = some (shared,nonShared,valueLength,rest)) : rest.length + 3 ≤ input.length := by
  obtain ⟨one,first,read⟩ := Option.bind_eq_some_iff.mp read
  obtain ⟨two,second,read⟩ := Option.bind_eq_some_iff.mp read
  obtain ⟨three,third,same⟩ := Option.map_eq_some_iff.mp read
  obtain rfl := (Prod.mk.inj (Prod.mk.inj (Prod.mk.inj same).2).2).2
  have := getVarintLoop_shorter first
  have := getVarintLoop_shorter second
  have := getVarintLoop_shorter third
  omega

theorem getVarint32_small {byte : UInt8} (small : byte.toNat < 128) (rest : Bytes) :
    getVarint32 (byte :: rest) = some (byte.toNat,rest) := by
  rw [getVarint32,getVarintLoop,if_neg (not_le.mpr small),Nat.shiftLeft_zero,Nat.zero_or,Nat.mod_eq_of_lt (by omega)]

/-- The fast path of `DecodeEntry` reads the same lengths. -/
theorem decodeLengths_eq {input : Bytes} (long : 3 ≤ input.length) : decodeLengths input = entryLengths input := by
  obtain ⟨a,b,c,rest,rfl⟩ : ∃ a b c rest, input = a :: b :: c :: rest := by
    rcases input with _ | ⟨a,_ | ⟨b,_ | ⟨c,rest⟩⟩⟩
    · exact absurd long (by simp)
    · exact absurd long (by simp)
    · exact absurd long (by simp)
    · exact ⟨a,b,c,rest,rfl⟩
  rw [decodeLengths]
  simp only [List.getD_cons_zero,List.getD_cons_succ,List.drop_succ_cons,List.drop_zero]
  split
  next small =>
    have one := lt_of_le_of_lt (Nat.left_le_or.trans Nat.left_le_or) small
    have two := lt_of_le_of_lt (Nat.right_le_or.trans Nat.left_le_or) small
    have three := lt_of_le_of_lt Nat.right_le_or small
    simp only [entryLengths,getVarint32_small one,getVarint32_small two,getVarint32_small three,Option.bind_some,
      Option.map_some]
  next => rfl

theorem decodeEntry_eq (input : Bytes) :
    decodeEntry input = (entryLengths input).filter fun e =>
      !decide (e.2.2.2.length % 2^32 < (e.2.1 + e.2.2.1) % 2^32) := by
  rw [decodeEntry]
  split
  next short =>
    cases read : entryLengths input with
    | none => rfl
    | some e => exact absurd (entryLengths_shorter read) (by omega)
  next long =>
    rw [decodeLengths_eq (not_lt.mp long)]

/-- What `DecodeEntry` makes of the bytes there. -/
theorem BlockIter.decode_spec (s : BlockIter) (word : s.restarts < 2^32) (offset keyLength : Nat) :
    (decodeEntry (s.area offset) = none ∧ s.Bad offset keyLength ∧ ¬s.Wraps offset keyLength) ∨
    ∃ shared nonShared valueLength rest, decodeEntry (s.area offset) = some (shared,nonShared,valueLength,rest) ∧
      rest.length + 3 ≤ (s.area offset).length ∧
      (keyLength < shared ∧ s.Bad offset keyLength ∧ ¬s.Wraps offset keyLength ∨
        shared ≤ keyLength ∧ nonShared + valueLength ≤ rest.length ∧ ¬s.Bad offset keyLength ∧ ¬s.Wraps offset keyLength ∨
        shared ≤ keyLength ∧ 2^32 ≤ nonShared + valueLength ∧ s.Bad offset keyLength ∧ s.Wraps offset keyLength) := by
  rw [decodeEntry_eq,Bad,Wraps]
  cases read : entryLengths (s.area offset) with
  | none => exact .inl ⟨rfl,by simp,by simp⟩
  | some e =>
    obtain ⟨shared,nonShared,valueLength,rest⟩ := e
    have shorter := entryLengths_shorter read
    have narrow : rest.length < 2^32 := by
      have := List.length_take_le s.restarts s.data
      rw [area,List.length_drop] at shorter
      omega
    have wrapped := Nat.mod_le (nonShared + valueLength) (2^32)
    rw [Option.filter_some,Nat.mod_eq_of_lt narrow]
    by_cases fits : rest.length < (nonShared + valueLength) % 2^32
    · left
      simp only [fits,decide_true,Bool.not_true,Bool.false_eq_true,if_false,Option.all_some,Option.any_some,decide_eq_true_eq]
      exact ⟨trivial,.inr (by omega),by omega⟩
    · right
      refine ⟨shared,nonShared,valueLength,rest,by simpa using fits,shorter,?_⟩
      simp only [Option.all_some,Option.any_some,decide_eq_true_eq]
      rcases Nat.lt_or_ge keyLength shared with more | least
      · exact .inl ⟨more,.inl more,by omega⟩
      · right
        rcases Nat.lt_or_ge (nonShared + valueLength) (2^32) with small | large
        · rw [Nat.mod_eq_of_lt small] at fits
          exact .inl ⟨least,by omega,by omega,by omega⟩
        · exact .inr ⟨least,large,by omega,by omega⟩

/-- The restart array begins where the entry area ends, and its offsets have 32 bits. -/
structure BlockIter.Opened (s : BlockIter) : Prop where
  size : s.restarts < s.data.length
  word : s.restarts < 2^32
  several : 0 < s.numRestarts
  number : s.numRestarts < 2^32

/-- The parts of the iterator that stay. -/
def BlockIter.SameBlock (s t : BlockIter) : Prop := t.data = s.data ∧ t.restarts = s.restarts ∧ t.numRestarts = s.numRestarts

theorem BlockIter.Opened.same {s t : BlockIter} (opened : s.Opened) (same : s.SameBlock t) : t.Opened := by
  obtain ⟨data,restarts,num⟩ := same
  constructor
  · rw [data,restarts]; exact opened.size
  · rw [restarts]; exact opened.word
  · rw [num]; exact opened.several
  · rw [num]; exact opened.number

theorem open_opened {contents : Bytes} {s : BlockIter} (new : (Block.open contents).newIterator = .iter s) :
    s.Opened ∧ s.valid = false := by
  rw [Block.newIterator] at new
  split at new
  · cases new
  · split at new
    · cases new
    next long several =>
      obtain rfl := DataIterator.iter.inj new
      generalize block : Block.open contents = b at long several
      rw [Block.open] at block
      dsimp only at block
      split at block
      · rw [← block] at long
        exact absurd (Nat.succ_pos 3) long
      · split at block
        · rw [← block] at long
          exact absurd (Nat.succ_pos 3) long
        · subst block
          refine ⟨⟨?_,Nat.mod_lt _ (by decide),Nat.pos_of_ne_zero several,(decodeFixed32 _).isLt⟩,by simp [BlockIter.new,BlockIter.valid]⟩
          refine (Nat.mod_le _ _).trans_lt ?_
          show contents.length - _ < contents.length
          omega

theorem BlockIter.advanceRestart_lt (s : BlockIter) (fuel : Nat) {index : Nat} (inside : index < s.numRestarts) :
    s.advanceRestart fuel index < s.numRestarts := by
  induction fuel generalizing index with
  | zero => exact inside
  | succ fuel ih =>
    rw [advanceRestart]
    split
    next more => exact ih more.1
    next => exact inside

/-- The iterator at the entry that is decoded next. -/
def BlockIter.entered (s : BlockIter) (shared nonShared valueLength : Nat) (rest : Bytes) : BlockIter :=
  let s := { s with current := s.nextEntryOffset }
  { s with
    key := s.key.take shared ++ rest.take nonShared
    valueOffset := s.restarts - rest.length + nonShared
    valueSize := valueLength
    restartIndex := s.advanceRestart s.numRestarts s.restartIndex }

section Parse
variable {s : BlockIter}

theorem BlockIter.parse_past (past : s.restarts ≤ s.nextEntryOffset) :
    s.parseNextKey = (false,{ s with current := s.restarts, restartIndex := s.numRestarts }) := by
  rw [parseNextKey]
  exact if_pos past

theorem BlockIter.parse_none (here : s.nextEntryOffset < s.restarts) (none : decodeEntry (s.area s.nextEntryOffset) = none) :
    s.parseNextKey = (false,{ s with current := s.nextEntryOffset }.corruptionError) := by
  rw [area] at none
  rw [parseNextKey]
  simp only [if_neg (not_le.mpr here),none]

theorem BlockIter.parse_more (here : s.nextEntryOffset < s.restarts) {shared nonShared valueLength : Nat} {rest : Bytes}
    (decoded : decodeEntry (s.area s.nextEntryOffset) = some (shared,nonShared,valueLength,rest)) (more : s.key.length < shared) :
    s.parseNextKey = (false,{ s with current := s.nextEntryOffset }.corruptionError) := by
  rw [area] at decoded
  rw [parseNextKey]
  simp only [if_neg (not_le.mpr here),decoded,if_pos more]

theorem BlockIter.parse_entered (here : s.nextEntryOffset < s.restarts) {shared nonShared valueLength : Nat} {rest : Bytes}
    (decoded : decodeEntry (s.area s.nextEntryOffset) = some (shared,nonShared,valueLength,rest)) (least : shared ≤ s.key.length) :
    s.parseNextKey = (true,s.entered shared nonShared valueLength rest) := by
  rw [area] at decoded
  rw [parseNextKey]
  simp only [if_neg (not_le.mpr here),decoded,if_neg (not_lt.mpr least)]
  rfl

end Parse

/-- What `ParseNextKey` does: there is no more, or a bad entry, or an entry that it takes. -/
theorem BlockIter.parseNextKey_spec {s : BlockIter} (opened : s.Opened) (inside : s.restartIndex < s.numRestarts) :
    ∃ more t, s.parseNextKey = (more,t) ∧ s.SameBlock t ∧
      (s.restarts ≤ s.nextEntryOffset ∧ more = false ∧ t.valid = false ∨
        s.nextEntryOffset < s.restarts ∧ more = false ∧ t.valid = false ∧ t.status = some "bad entry in block" ∧
          s.slicesAt s.nextEntryOffset s.key.length = [] ∧ ¬s.Wraps s.nextEntryOffset s.key.length ∨
        s.nextEntryOffset < s.restarts ∧ more = true ∧ t.valid = true ∧ t.restartIndex < s.numRestarts ∧
          ∃ p nonShared, s.slicesAt s.nextEntryOffset s.key.length = [(p,nonShared),(t.valueOffset,t.valueSize)] ∧
            s.nextEntryOffset < p ∧ t.valueOffset = p + nonShared ∧
            (t.valueOffset + t.valueSize ≤ s.restarts ∧ ¬s.Bad s.nextEntryOffset s.key.length ∧
                ¬s.Wraps s.nextEntryOffset s.key.length ∨
              s.Bad s.nextEntryOffset s.key.length ∧ s.Wraps s.nextEntryOffset s.key.length)) := by
  rcases Nat.lt_or_ge s.nextEntryOffset s.restarts with here | past
  · have gone : { s with current := s.nextEntryOffset }.corruptionError.valid = false := by
      simp [corruptionError,valid]
    rcases s.decode_spec opened.word s.nextEntryOffset s.key.length with
      ⟨none,-,fits⟩ | ⟨shared,nonShared,valueLength,rest,decoded,shorter,⟨more,-,fits⟩ | taken⟩
    · exact ⟨_,_,parse_none here none,⟨rfl,rfl,rfl⟩,.inr (.inl ⟨here,rfl,gone,rfl,by rw [slicesAt,none],fits⟩)⟩
    · refine ⟨_,_,parse_more here decoded more,⟨rfl,rfl,rfl⟩,.inr (.inl ⟨here,rfl,gone,rfl,?_,fits⟩)⟩
      simp only [slicesAt,decoded,if_pos more]
    · have least : shared ≤ s.key.length := by
        rcases taken with ⟨least,-⟩ | ⟨least,-⟩
        · exact least
        · exact least
      have area_ : (s.area s.nextEntryOffset).length = s.restarts - s.nextEntryOffset := by
        rw [area,List.length_drop,List.length_take_of_le opened.size.le]
      refine ⟨_,_,parse_entered here decoded least,⟨rfl,rfl,rfl⟩,.inr (.inr ⟨here,rfl,decide_eq_true here,
        advanceRestart_lt _ _ inside,s.restarts - rest.length,nonShared,?_,by omega,rfl,?_⟩)⟩
      · simp only [slicesAt,decoded,if_neg (not_lt.mpr least)]
        rfl
      · rcases taken with ⟨-,fit,good,fits⟩ | ⟨-,-,bad,wraps⟩
        · refine .inl ⟨?_,good,fits⟩
          show s.restarts - rest.length + nonShared + valueLength ≤ s.restarts
          omega
        · exact .inr ⟨bad,wraps⟩
  · refine ⟨_,_,parse_past past,⟨rfl,rfl,rfl⟩,.inl ⟨past,rfl,?_⟩⟩
    simp [valid]

namespace BlockMachine
variable {T : Type} [LinearOrder T] {rank : Bytes → T} {m : BlockMachine T}

/-- Where the iterator may be with this left to do. -/
def Placed (s : BlockIter) : Control T → Prop
  | .idle => s.valid → s.restartIndex < s.numRestarts ∧ s.valueOffset + s.valueSize ≤ s.restarts
  | .restart index _ => index < s.numRestarts
  | .parse _ => s.restartIndex < s.numRestarts
  | .back _ => s.restartIndex < s.numRestarts
  | .search _ left right before => left < s.numRestarts ∧ right < s.numRestarts ∧ (before → s.restartIndex < s.numRestarts)

structure Inv (m : BlockMachine T) : Prop where
  opened : m.iter.Opened
  placed : Placed m.iter m.control

/-- A bound on the steps to the end of the move. -/
def budget (m : BlockMachine T) : Nat :=
  match m.control with
  | .idle => 0
  | .parse _ => m.iter.restarts - m.iter.nextEntryOffset + 1
  | .restart _ _ => m.iter.restarts + 2
  | .back _ => m.iter.restartIndex + m.iter.restarts + 3
  | .search _ left right _ => right - left + m.iter.restarts + 3

variable (rank) in
theorem begin_inv {c : BlockIter} (inv : (⟨c,.idle⟩ : BlockMachine T).Inv) (move : Move T)
    (legal : move = .next ∨ move = .prev → c.valid) : (begin rank ⟨c,.idle⟩ move).Inv := by
  refine ⟨inv.opened,?_⟩
  have several : 0 < c.numRestarts := inv.opened.several
  have placed : c.valid → c.restartIndex < c.numRestarts ∧ c.valueOffset + c.valueSize ≤ c.restarts := inv.placed
  cases move with
  | first => exact several
  | last => exact Nat.sub_lt several Nat.one_pos
  | next => exact (placed (legal (.inl rfl))).1
  | prev => exact (placed (legal (.inr rfl))).1
  | seek t =>
    show Placed c (start rank c (.seek t))
    rw [start]
    split
    · exact placed
    · refine ⟨?_,?_,?_⟩
      · split
        next before => exact (placed (Bool.and_eq_true_iff.mp before).1).1
        next => exact several
      · split
        next behind => exact (placed (Bool.and_eq_true_iff.mp behind).1).1
        next => exact Nat.sub_lt several Nat.one_pos
      · intro before
        exact (placed (Bool.and_eq_true_iff.mp before).1).1

variable (rank) in
/-- A step over an entry. -/
theorem parse_step {s : BlockIter} {loop : Loop T} (inv : (⟨s,.parse loop⟩ : BlockMachine T).Inv)
    (fits : (⟨s,.parse loop⟩ : BlockMachine T).Fits) : ((⟨s,.parse loop⟩ : BlockMachine T).step rank).Inv ∧
      ((⟨s,.parse loop⟩ : BlockMachine T).step rank).budget < (⟨s,.parse loop⟩ : BlockMachine T).budget := by
  have opened : s.Opened := inv.opened
  have inside : s.restartIndex < s.numRestarts := inv.placed
  obtain ⟨more,t,parsed,same,outcome⟩ := BlockIter.parseNextKey_spec opened inside
  have opened' := opened.same same
  have stepped : (⟨s,.parse loop⟩ : BlockMachine T).step rank = ⟨t,if more && goesOn rank t loop then .parse loop else .idle⟩ := by
    simp only [step,parsed]
  have stops : more = false → t.valid = false → ((⟨s,.parse loop⟩ : BlockMachine T).step rank).Inv ∧
      ((⟨s,.parse loop⟩ : BlockMachine T).step rank).budget < (⟨s,.parse loop⟩ : BlockMachine T).budget := by
    intro no invalid
    rw [stepped,no]
    refine ⟨⟨opened',fun valid => ?_⟩,Nat.succ_pos _⟩
    rw [invalid] at valid
    cases valid
  rcases outcome with ⟨-,no,invalid⟩ | ⟨-,no,invalid,-⟩ | ⟨here,yes,valid,index,p,nonShared,-,later,offset,entry⟩
  · exact stops no invalid
  · exact stops no invalid
  · have fit : t.valueOffset + t.valueSize ≤ s.restarts := by
      rcases entry with ⟨fit,-⟩ | ⟨-,wraps⟩
      · exact fit
      · exact absurd wraps (fits _ (if_pos here))
    have word := opened.word
    rw [stepped,yes,Bool.true_and]
    split
    · refine ⟨⟨opened',by rw [← same.2.2] at index; exact index⟩,?_⟩
      show t.restarts - (t.valueOffset + t.valueSize) % 2^32 + 1 < s.restarts - s.nextEntryOffset + 1
      rw [same.2.1,Nat.mod_eq_of_lt (by omega)]
      omega
    · refine ⟨⟨opened',fun _ => ?_⟩,Nat.succ_pos _⟩
      rw [same.2.1,same.2.2]
      exact ⟨index,fit⟩

variable (rank) in
theorem step_spec (inv : m.Inv) (fine : m.Fine) :
    (m.step rank).Inv ∧ ((∃ c, m = ⟨c,.idle⟩) ∨ (m.step rank).budget < m.budget) := by
  obtain ⟨s,control⟩ := m
  have opened : s.Opened := inv.opened
  have placed : Placed s control := inv.placed
  cases control with
  | idle => exact ⟨⟨opened,placed⟩,.inl ⟨s,rfl⟩⟩
  | restart index loop =>
    refine ⟨⟨opened.same ⟨rfl,rfl,rfl⟩,placed⟩,.inr ?_⟩
    show s.restarts - (s.seekToRestartPoint index).nextEntryOffset + 1 < s.restarts + 2
    omega
  | parse loop =>
    obtain ⟨next,less⟩ := parse_step rank ⟨opened,placed⟩ fine.1
    exact ⟨next,.inr less⟩
  | back original =>
    have inside : s.restartIndex < s.numRestarts := placed
    rw [step]
    dsimp only
    split
    · split
      · refine ⟨⟨opened.same ⟨rfl,rfl,rfl⟩,?_⟩,.inr (Nat.succ_pos _)⟩
        intro valid
        simp [BlockIter.valid] at valid
      next more =>
        refine ⟨⟨opened.same ⟨rfl,rfl,rfl⟩,(Nat.sub_le _ _).trans_lt inside⟩,.inr ?_⟩
        show s.restartIndex - 1 + s.restarts + 3 < s.restartIndex + s.restarts + 3
        omega
    · refine ⟨⟨opened,inside⟩,.inr ?_⟩
      show s.restarts + 2 < s.restartIndex + s.restarts + 3
      omega
  | search t left right before =>
    obtain ⟨least,most,held⟩ := placed
    have several := opened.number
    have gone : s.corruptionError.valid = true → s.corruptionError.restartIndex < s.corruptionError.numRestarts ∧
        s.corruptionError.valueOffset + s.corruptionError.valueSize ≤ s.corruptionError.restarts := by
      intro valid
      simp [BlockIter.corruptionError,BlockIter.valid] at valid
    rw [step]
    dsimp only
    split
    next less =>
      have narrow := fine.2 t left right before rfl less
      have middle : mid left right = (left + right + 1) / 2 := by rw [mid,Nat.mod_eq_of_lt narrow]
      split
      · exact ⟨⟨opened.same ⟨rfl,rfl,rfl⟩,gone⟩,.inr (Nat.succ_pos _)⟩
      · split
        · exact ⟨⟨opened.same ⟨rfl,rfl,rfl⟩,gone⟩,.inr (Nat.succ_pos _)⟩
        · split
          · have inside : mid left right < s.numRestarts := by omega
            refine ⟨⟨opened,inside,most,held⟩,.inr ?_⟩
            show right - mid left right + s.restarts + 3 < right - left + s.restarts + 3
            omega
          · have back : (mid left right + (2^32 - 1)) % 2^32 = mid left right - 1 := by omega
            have inside : mid left right - 1 < s.numRestarts := by omega
            rw [back]
            refine ⟨⟨opened,least,inside,held⟩,.inr ?_⟩
            show mid left right - 1 - left + s.restarts + 3 < right - left + s.restarts + 3
            omega
    · split
      next stay =>
        refine ⟨⟨opened,held stay.2⟩,.inr ?_⟩
        show s.restarts - s.nextEntryOffset + 1 < right - left + s.restarts + 3
        omega
      · refine ⟨⟨opened,least⟩,.inr ?_⟩
        show s.restarts + 2 < right - left + s.restarts + 3
        omega

/-- A step that decodes no entry. -/
theorem safe_of_none (none : m.entry = none)
    (value : (∃ c, m = ⟨c,.idle⟩) → m.iter.valid → m.iter.valueOffset + m.iter.valueSize ≤ m.iter.restarts)
    (points : ∀ index ∈ m.points, index < m.iter.numRestarts) : m.Safe rank ↔ m.Fits := by
  constructor
  · intro _ e decoded
    cases none.symm.trans decoded
  · intro _
    refine ⟨value,?_,points,?_⟩
    · intro slice member
      rw [slices,none] at member
      cases member
    · intro e decoded
      cases none.symm.trans decoded

theorem parse_safe {s : BlockIter} {loop : Loop T} (inv : (⟨s,.parse loop⟩ : BlockMachine T).Inv) :
    (⟨s,.parse loop⟩ : BlockMachine T).Safe rank ↔ (⟨s,.parse loop⟩ : BlockMachine T).Fits := by
  have opened : s.Opened := inv.opened
  have inside : s.restartIndex < s.numRestarts := inv.placed
  obtain ⟨more,t,parsed,same,outcome⟩ := BlockIter.parseNextKey_spec opened inside
  have stepped : (⟨s,.parse loop⟩ : BlockMachine T).step rank = ⟨t,if more && goesOn rank t loop then .parse loop else .idle⟩ := by
    simp only [step,parsed]
  have entry_ : ∀ e, (⟨s,.parse loop⟩ : BlockMachine T).entry = some e →
      s.nextEntryOffset < s.restarts ∧ e = (s.nextEntryOffset,s.key.length) := by
    intro e same
    rw [entry] at same
    dsimp only at same
    split at same
    next here => exact ⟨here,(Option.some.inj same).symm⟩
    · cases same
  constructor
  · intro safe e decoded wraps
    obtain ⟨here,rfl⟩ := entry_ e decoded
    rcases outcome with ⟨past,-⟩ | ⟨-,-,-,-,-,fits⟩ | ⟨-,-,valid,-,-,-,-,-,-,⟨-,-,fits⟩ | ⟨bad,-⟩⟩
    · exact absurd here (not_lt.mpr past)
    · exact fits wraps
    · exact fits wraps
    · obtain ⟨c,ends,invalid,-⟩ := safe.bad _ decoded bad
      rw [stepped] at ends
      obtain ⟨rfl,-⟩ := BlockMachine.mk.inj ends
      rw [valid] at invalid
      cases invalid
  · intro fits
    refine ⟨?_,?_,?_,?_⟩
    · rintro ⟨c,idle⟩
      cases idle
    · intro slice member
      rcases outcome with ⟨past,-⟩ | ⟨here,-,-,-,nothing,-⟩ | ⟨here,-,-,-,p,nonShared,two,-,offset,⟨fit,-⟩ | ⟨-,wraps⟩⟩
      · simp only [slices,entry,if_neg (not_lt.mpr past),List.not_mem_nil] at member
      · simp only [slices,entry,if_pos here,nothing,List.not_mem_nil] at member
      · simp only [slices,entry,if_pos here,two] at member
        rcases List.mem_cons.mp member with rfl | member
        · show p + nonShared ≤ s.restarts
          omega
        · rw [List.mem_singleton.mp member]
          exact fit
      · exact absurd wraps (fits _ (if_pos here))
    · intro index member
      cases member
    · intro e decoded bad
      obtain ⟨here,rfl⟩ := entry_ e decoded
      rcases outcome with ⟨past,-⟩ | ⟨-,no,invalid,status,-⟩ | ⟨-,-,-,-,-,-,-,-,-,⟨-,good,-⟩ | ⟨-,wraps⟩⟩
      · exact absurd here (not_lt.mpr past)
      · refine ⟨t,?_,invalid,status⟩
        rw [stepped,no]
        rfl
      · exact absurd bad good
      · exact absurd wraps (fits _ decoded)

theorem search_safe {s : BlockIter} {t : T} {left right : Nat} {before : Bool}
    (inv : (⟨s,.search t left right before⟩ : BlockMachine T).Inv) :
    (⟨s,.search t left right before⟩ : BlockMachine T).Safe rank ↔ (⟨s,.search t left right before⟩ : BlockMachine T).Fits := by
  have opened : s.Opened := inv.opened
  have placed : Placed s (.search t left right before) := inv.placed
  rcases Nat.lt_or_ge left right with less | done
  · have entry_ : (⟨s,.search t left right before⟩ : BlockMachine T).entry = some (s.getRestartPoint (mid left right),0) :=
      if_pos less
    have gone : s.corruptionError.valid = false := by simp [BlockIter.corruptionError,BlockIter.valid]
    have outcome := s.decode_spec opened.word (s.getRestartPoint (mid left right)) 0
    constructor
    · intro safe e decoded wraps
      obtain rfl := Option.some.inj (entry_.symm.trans decoded)
      rcases outcome with ⟨-,-,fits⟩ | ⟨shared,nonShared,valueLength,rest,some_,-,⟨-,-,fits⟩ | ⟨-,-,-,fits⟩ | ⟨none,-,bad,-⟩⟩
      · exact fits wraps
      · exact fits wraps
      · exact fits wraps
      · obtain ⟨c,ends,-⟩ := safe.bad _ decoded bad
        simp only [step,if_pos less,some_,if_neg (not_not.mpr (Nat.le_zero.mp none))] at ends
        split at ends
        · cases ends
        · cases ends
    · intro fits
      have fits := fits _ entry_
      refine ⟨?_,?_,?_,?_⟩
      · rintro ⟨c,idle⟩
        cases idle
      · intro slice member
        rw [slices,entry_] at member
        dsimp only at member
        rcases outcome with ⟨none,-⟩ | ⟨shared,nonShared,valueLength,rest,some_,shorter,⟨more,-⟩ | ⟨least,fit,-⟩ | ⟨-,-,-,wraps⟩⟩
        · simp only [BlockIter.slicesAt,none,List.take_nil,List.not_mem_nil] at member
        · simp only [BlockIter.slicesAt,some_,if_pos more,List.take_nil,List.not_mem_nil] at member
        · simp only [BlockIter.slicesAt,some_,if_neg (not_lt.mpr least),List.take_succ_cons,List.take_zero,
            List.mem_singleton] at member
          have area_ : (s.area (s.getRestartPoint (mid left right))).length ≤ s.restarts := by
            rw [BlockIter.area,List.length_drop,List.length_take_of_le opened.size.le]
            exact Nat.sub_le _ _
          rw [member]
          show s.restarts - rest.length + nonShared ≤ s.restarts
          omega
        · exact absurd wraps fits
      · intro index member
        have same : index = mid left right := by
          rw [points] at member
          simpa [less] using member
        have lower := Nat.mod_le (left + right + 1) (2^32)
        have most : right < s.numRestarts := placed.2.1
        rw [same,mid]
        show (left + right + 1) % 2^32 / 2 < s.numRestarts
        omega
      · intro e decoded bad
        obtain rfl := Option.some.inj (entry_.symm.trans decoded)
        rcases outcome with ⟨none,-⟩ | ⟨shared,nonShared,valueLength,rest,some_,-,⟨more,-⟩ | ⟨-,-,good,-⟩ | ⟨-,-,-,wraps⟩⟩
        · refine ⟨s.corruptionError,?_,gone,rfl⟩
          simp only [step,if_pos less,none]
        · refine ⟨s.corruptionError,?_,gone,rfl⟩
          simp only [step,if_pos less,some_,if_pos (Nat.pos_iff_ne_zero.mp more)]
        · exact absurd bad good
        · exact absurd wraps fits
  · have none : (⟨s,.search t left right before⟩ : BlockMachine T).entry = none := if_neg (not_lt.mpr done)
    refine safe_of_none none ?_ ?_
    · rintro ⟨c,idle⟩
      cases idle
    · intro index member
      rw [points] at member
      dsimp only at member
      rw [if_neg (not_lt.mpr done)] at member
      cases member

theorem safe_iff (inv : m.Inv) : m.Safe rank ↔ m.Fits := by
  obtain ⟨s,control⟩ := m
  have placed : Placed s control := inv.placed
  cases control with
  | idle =>
    refine safe_of_none rfl (fun _ valid => (placed valid).2) ?_
    intro index member
    cases member
  | restart index loop =>
    refine safe_of_none rfl ?_ ?_
    · rintro ⟨c,idle⟩
      cases idle
    · intro point member
      rw [List.mem_singleton.mp member]
      exact placed
  | parse loop => exact parse_safe inv
  | back original =>
    refine safe_of_none rfl ?_ ?_
    · rintro ⟨c,idle⟩
      cases idle
    · intro point member
      rw [List.mem_singleton.mp member]
      exact placed
  | search t left right before => exact search_safe inv

omit [LinearOrder T] in
/-- With at most `2^31` restart points the search never wraps around. -/
theorem fine_of_few (inv : m.Inv) (few : m.iter.numRestarts ≤ 2^31) (fits : m.Fits) : m.Fine := by
  refine ⟨fits,fun t left right before here less => ?_⟩
  have placed := inv.placed
  rw [here] at placed
  obtain ⟨least,most,-⟩ := placed
  omega

theorem Reaches.inv {contents : Bytes} {s : BlockIter} (new : (Block.open contents).newIterator = .iter s)
    (reaches : Reaches rank s m) : m.Inv := by
  induction reaches with
  | opened =>
    obtain ⟨opened,invalid⟩ := open_opened new
    refine ⟨opened,fun valid => ?_⟩
    rw [invalid] at valid
    cases valid
  | begin reaches legal ih => exact begin_inv _ ih _ legal
  | step reaches fine ih => exact (step_spec _ ih fine).1

/-- A move whose steps are all fine comes to its end. -/
theorem after_idle (inv : m.Inv) (fine : ∀ n, (m.after rank n).Fine) : ∃ n c, m.after rank n = ⟨c,.idle⟩ := by
  generalize size : m.budget = bound
  induction bound using Nat.strong_induction_on generalizing m with
  | h bound ih =>
    obtain ⟨next,⟨c,idle⟩ | less⟩ := step_spec rank inv (fine 0)
    · exact ⟨0,c,idle⟩
    · obtain ⟨n,c,ends⟩ := ih _ (size ▸ less) next (fun n => fine (n + 1)) rfl
      exact ⟨n + 1,c,ends⟩

/-- In a run without a sum that wraps around every step is safe and every move ends; the
next step is safe if and only if its entry does not wrap around. -/
theorem block_iter_safe {contents : Bytes} {s : BlockIter} (new : (Block.open contents).newIterator = .iter s)
    (reaches : Reaches rank s m) :
    (m.Safe rank ↔ m.Fits) ∧ ((∀ n, (m.after rank n).Fine) → ∃ n c, m.after rank n = ⟨c,.idle⟩) :=
  ⟨safe_iff (reaches.inv new),after_idle (reaches.inv new)⟩

/-- The move comes to its end with this iterator. -/
def Ends (rank : Bytes → T) (m : BlockMachine T) (s : BlockIter) : Prop := ∃ n, m.after rank n = ⟨s,.idle⟩

theorem Ends.step {s : BlockIter} (ends : Ends rank (m.step rank) s) : Ends rank m s := by
  obtain ⟨n,ends⟩ := ends
  exact ⟨n + 1,ends⟩

/-- What a loop around `ParseNextKey` leads to. -/
def runLoop (rank : Bytes → T) : Loop T → Nat → BlockIter → BlockIter
  | .once, _, s => s.parseNextKey.2
  | .until limit, fuel, s => s.parseUntil limit fuel
  | .below target, fuel, s => BlockIter.searchKey rank target fuel s

theorem runLoop_succ (loop : Loop T) (fuel : Nat) (s : BlockIter) : runLoop rank loop (fuel + 1) s =
    if s.parseNextKey.1 && goesOn rank s.parseNextKey.2 loop then runLoop rank loop fuel s.parseNextKey.2
    else s.parseNextKey.2 := by
  cases loop with
  | once => simp [runLoop,goesOn]
  | «until» limit =>
    simp only [runLoop,goesOn,BlockIter.parseUntil]
    rfl
  | below target =>
    simp only [runLoop,goesOn,BlockIter.searchKey]
    rfl

theorem parse_ends {s : BlockIter} {loop : Loop T} {fuel : Nat} (inv : (⟨s,.parse loop⟩ : BlockMachine T).Inv)
    (fine : ∀ n, ((⟨s,.parse loop⟩ : BlockMachine T).after rank n).Fine)
    (enough : (⟨s,.parse loop⟩ : BlockMachine T).budget ≤ fuel) : Ends rank ⟨s,.parse loop⟩ (runLoop rank loop fuel s) := by
  induction fuel generalizing s with
  | zero => cases enough
  | succ fuel ih =>
    obtain ⟨next,less⟩ := parse_step rank inv (fine 0).1
    have stepped : (⟨s,.parse loop⟩ : BlockMachine T).step rank =
        ⟨s.parseNextKey.2,if s.parseNextKey.1 && goesOn rank s.parseNextKey.2 loop then .parse loop else .idle⟩ := rfl
    have later : ∀ n, (((⟨s,.parse loop⟩ : BlockMachine T).step rank).after rank n).Fine := fun n => fine (n + 1)
    rw [runLoop_succ]
    apply Ends.step
    rw [stepped] at next less later ⊢
    split at next
    next more =>
      rw [if_pos more] at less later ⊢
      rw [if_pos more]
      exact ih next later (Nat.le_of_lt_succ (less.trans_le enough))
    next no =>
      rw [if_neg no,if_neg no]
      exact ⟨0,rfl⟩

theorem restart_ends {s : BlockIter} {index : Nat} {loop : Loop T} (inv : (⟨s,.restart index loop⟩ : BlockMachine T).Inv)
    (fine : ∀ n, ((⟨s,.restart index loop⟩ : BlockMachine T).after rank n).Fine) :
    Ends rank ⟨s,.restart index loop⟩ (runLoop rank loop s.data.length (s.seekToRestartPoint index)) := by
  have size : s.restarts < s.data.length := inv.opened.size
  apply Ends.step
  refine parse_ends (step_spec rank inv (fine 0)).1 (fun n => fine (n + 1)) ?_
  show s.restarts - (s.seekToRestartPoint index).nextEntryOffset + 1 ≤ s.data.length
  omega

theorem restartBefore_congr (s : BlockIter) (at_ original index : Nat) :
    { s with restartIndex := at_ }.restartBefore original index = s.restartBefore original index := by
  induction index with
  | zero => rfl
  | succ index ih =>
    rw [BlockIter.restartBefore,BlockIter.restartBefore,ih]
    rfl

theorem back_ends {s : BlockIter} {original : Nat} (inv : (⟨s,.back original⟩ : BlockMachine T).Inv)
    (fine : ∀ n, ((⟨s,.back original⟩ : BlockMachine T).after rank n).Fine) :
    Ends rank ⟨s,.back original⟩ ((s.restartBefore original s.restartIndex).elim
      { s with current := s.restarts, restartIndex := s.numRestarts }
      fun index => (s.seekToRestartPoint index).parseUntil original s.data.length) := by
  generalize here : s.restartIndex = index
  induction index generalizing s with
  | zero =>
    have stepped : (⟨s,.back original⟩ : BlockMachine T).step rank = if original ≤ s.getRestartPoint 0 then
        ⟨{ s with current := s.restarts, restartIndex := s.numRestarts },.idle⟩ else ⟨s,.restart 0 (.until original)⟩ := by
      simp only [step,here,if_true]
    have later : ∀ n, (((⟨s,.back original⟩ : BlockMachine T).step rank).after rank n).Fine := fun n => fine (n + 1)
    have next := (step_spec rank inv (fine 0)).1
    apply Ends.step
    rw [stepped] at next later ⊢
    rw [BlockIter.restartBefore]
    split
    · exact ⟨0,rfl⟩
    next before =>
      rw [if_neg before] at next later
      exact restart_ends next later
  | succ index ih =>
    have stepped : (⟨s,.back original⟩ : BlockMachine T).step rank = if original ≤ s.getRestartPoint (index + 1) then
        ⟨{ s with restartIndex := index },.back original⟩ else ⟨s,.restart (index + 1) (.until original)⟩ := by
      simp only [step,here,Nat.add_sub_cancel,Nat.succ_ne_zero,if_false]
    have later : ∀ n, (((⟨s,.back original⟩ : BlockMachine T).step rank).after rank n).Fine := fun n => fine (n + 1)
    have next := (step_spec rank inv (fine 0)).1
    apply Ends.step
    rw [stepped] at next later ⊢
    rw [BlockIter.restartBefore]
    split
    next behind =>
      rw [if_pos behind] at next later
      have rest := ih next later rfl
      rw [restartBefore_congr] at rest
      exact rest
    next before =>
      rw [if_neg before] at next later
      exact restart_ends next later

/-- The loop over the entries behind the restart point that the search has found. -/
theorem found_ends {s : BlockIter} {t : T} {left right : Nat} {before : Bool}
    (inv : (⟨s,.search t left right before⟩ : BlockMachine T).Inv)
    (fine : ∀ n, ((⟨s,.search t left right before⟩ : BlockMachine T).after rank n).Fine) (done : ¬left < right) :
    Ends rank ⟨s,.search t left right before⟩ (BlockIter.searchKey rank t s.data.length
      (if left = s.restartIndex ∧ before then s else s.seekToRestartPoint left)) := by
  have size : s.restarts < s.data.length := inv.opened.size
  have next := (step_spec rank inv (fine 0)).1
  have later : ∀ n, (((⟨s,.search t left right before⟩ : BlockMachine T).step rank).after rank n).Fine := fun n => fine (n + 1)
  have stepped : (⟨s,.search t left right before⟩ : BlockMachine T).step rank =
      ⟨s,if left = s.restartIndex ∧ before then .parse (.below t) else .restart left (.below t)⟩ := by
    simp only [step,if_neg done]
  apply Ends.step
  rw [stepped] at next later ⊢
  split
  next stay =>
    rw [if_pos stay] at next later
    refine parse_ends next later ?_
    show s.restarts - s.nextEntryOffset + 1 ≤ s.data.length
    omega
  next go =>
    rw [if_neg go] at next later
    exact restart_ends next later

theorem search_ends {s : BlockIter} {t : T} {left right fuel : Nat} {before : Bool}
    (inv : (⟨s,.search t left right before⟩ : BlockMachine T).Inv)
    (fine : ∀ n, ((⟨s,.search t left right before⟩ : BlockMachine T).after rank n).Fine) (enough : right - left ≤ fuel) :
    Ends rank ⟨s,.search t left right before⟩ ((s.searchRestart rank t fuel left right).elim s.corruptionError fun found =>
      BlockIter.searchKey rank t s.data.length
        (if found = s.restartIndex ∧ before then s else s.seekToRestartPoint found)) := by
  induction fuel generalizing left right with
  | zero => exact found_ends inv fine (by omega)
  | succ fuel ih =>
    by_cases less : left < right
    · have narrow := (fine 0).2 t left right before rfl less
      have middle : mid left right = (left + right + 1) / 2 := by rw [mid,Nat.mod_eq_of_lt narrow]
      have next := (step_spec rank inv (fine 0)).1
      have later : ∀ n, (((⟨s,.search t left right before⟩ : BlockMachine T).step rank).after rank n).Fine :=
        fun n => fine (n + 1)
      apply Ends.step
      rw [BlockIter.searchRestart,if_pos less,← middle]
      cases decoded : decodeEntry (s.area (s.getRestartPoint (mid left right))) with
      | none =>
        rw [BlockIter.area] at decoded
        simp only [step,if_pos less,BlockIter.area,decoded]
        exact ⟨0,rfl⟩
      | some e =>
        obtain ⟨shared,nonShared,valueLength,rest⟩ := e
        rw [BlockIter.area] at decoded
        simp only [step,if_pos less,BlockIter.area,decoded] at next later ⊢
        by_cases whole : shared ≠ 0
        · simp only [if_pos whole]
          exact ⟨0,rfl⟩
        · simp only [if_neg whole] at next later ⊢
          by_cases smaller : rank (rest.take nonShared) < t
          · simp only [if_pos smaller] at next later ⊢
            exact ih next later (by omega)
          · have back : (mid left right + (2^32 - 1)) % 2^32 = mid left right - 1 := by omega
            simp only [if_neg smaller,back] at next later ⊢
            exact ih next later (by omega)
    · rw [BlockIter.searchRestart,if_neg less]
      exact found_ends inv fine less

/-- Step by step every move leads where it leads at once. -/
theorem move_ends {c : BlockIter} (inv : (⟨c,.idle⟩ : BlockMachine T).Inv) (move : Move T)
    (legal : move = .next ∨ move = .prev → c.valid) (fine : ∀ n, ((begin rank ⟨c,.idle⟩ move).after rank n).Fine) :
    Ends rank (begin rank ⟨c,.idle⟩ move) ((BlockIter.ops rank).move move c) := by
  have started := begin_inv rank inv move legal
  cases move with
  | first => exact restart_ends started fine
  | last => exact restart_ends started fine
  | next => exact parse_ends started fine le_rfl
  | prev =>
    have whole : c.prev = (c.restartBefore c.current c.restartIndex).elim
        { c with current := c.restarts, restartIndex := c.numRestarts }
        fun index => (c.seekToRestartPoint index).parseUntil c.current c.data.length := by
      rw [BlockIter.prev]
      cases c.restartBefore c.current c.restartIndex <;> rfl
    show Ends rank _ c.prev
    rw [whole]
    exact back_ends started fine
  | seek t =>
    show Ends rank _ (c.seek rank t)
    by_cases here : c.valid ∧ rank c.key = t
    · have begun : begin rank ⟨c,.idle⟩ (.seek t) = ⟨c,.idle⟩ := by simp only [begin,start,if_pos here]
      rw [begun,BlockIter.seek,if_pos here]
      exact ⟨0,rfl⟩
    · generalize before_ : (c.valid && decide (rank c.key < t)) = before
      generalize left_ : (if before then c.restartIndex else 0) = left
      generalize right_ : (if c.valid && !before then c.restartIndex else c.numRestarts - 1) = right
      have begun : begin rank ⟨c,.idle⟩ (.seek t) = ⟨c,.search t left right before⟩ := by
        simp only [begin,start,if_neg here,before_,left_,right_]
      have whole : c.seek rank t = (c.searchRestart rank t c.numRestarts left right).elim c.corruptionError fun found =>
          BlockIter.searchKey rank t c.data.length
            (if found = c.restartIndex ∧ before then c else c.seekToRestartPoint found) := by
        rw [BlockIter.seek,if_neg here]
        simp only [before_,left_,right_]
        cases c.searchRestart rank t c.numRestarts left right with
        | none => rfl
        | some found =>
          show BlockIter.searchKey rank t (List.length _) _ = BlockIter.searchKey rank t _ _
          split <;> rfl
      rw [begun] at started fine ⊢
      rw [whole]
      exact search_ends started fine ((Nat.sub_le _ _).trans started.placed.2.1.le)

/-- Two entries, the second of which shares two bytes with the first. -/
def soundBlock : Bytes := [0,2,1,0x61,0x62,7,2,1,1,0x63,8,0,0,0,0,1,0,0,0]

/-- At the second entry, on the way to the last one. -/
def soundStep : BlockMachine Nat :=
  (begin List.length ⟨.new soundBlock 11 1,.idle⟩ .last).after List.length 2

theorem block_iter_safe_sound : soundStep.slices = [(9,1),(10,1)] ∧ (soundStep.Safe List.length ↔ soundStep.Fits) ∧
    ((∀ n, (soundStep.after List.length n).Fine) → ∃ n c, soundStep.after List.length n = ⟨c,.idle⟩) := by
  have first : (begin List.length ⟨.new soundBlock 11 1,.idle⟩ .last : BlockMachine Nat).Fine := by
    constructor
    · intro e decoded
      cases decoded
    · intro t left right before searching
      cases searching
  have second : ((begin List.length ⟨.new soundBlock 11 1,.idle⟩ .last : BlockMachine Nat).step List.length).Fine := by
    constructor
    · intro e decoded
      have entry_ : ((begin List.length ⟨.new soundBlock 11 1,.idle⟩ .last : BlockMachine Nat).step List.length).entry =
          some (0,0) := by decide
      obtain rfl := Option.some.inj (entry_.symm.trans decoded)
      decide +kernel
    · intro t left right before searching
      cases searching
  have reaches : Reaches List.length (.new soundBlock 11 1) soundStep :=
    ((Reaches.opened.begin (by simp)).step first).step second
  have new : (Block.open soundBlock).newIterator = .iter (.new soundBlock 11 1) := by decide
  exact ⟨by decide,block_iter_safe new reaches⟩

/-- An entry of `2^32 - 1` key bytes and one value byte. -/
def wrappedBlock : Bytes := [0,0xff,0xff,0xff,0xff,0x0f,1,0,0,0,0,1,0,0,0]

/-- `SeekToFirst` copies a key from behind the block. -/
theorem block_iter_unsafe : ∃ s m, (Block.open wrappedBlock).newIterator = .iter s ∧ Reaches List.length s m ∧
    m.iter.restarts = 7 ∧ (7,2^32 - 1) ∈ m.slices ∧ ¬m.Safe List.length := by
  refine ⟨.new wrappedBlock 7 1,(begin List.length ⟨.new wrappedBlock 7 1,.idle⟩ .first).step List.length,by decide +kernel,?_,?_⟩
  · refine (Reaches.opened.begin (by simp)).step ⟨?_,?_⟩
    · intro e decoded
      cases decoded
    · intro t left right before searching
      cases searching
  · have slice : (7,2^32 - 1) ∈ ((begin List.length ⟨.new wrappedBlock 7 1,.idle⟩ .first : BlockMachine Nat).step List.length).slices := by
      decide +kernel
    refine ⟨rfl,slice,fun safe => ?_⟩
    have inside := safe.slices _ slice
    revert inside
    decide +kernel

end BlockMachine

end LevelDB.Sstable
