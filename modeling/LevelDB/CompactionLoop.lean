import LevelDB.TreeEdit

/-! The loop of `DoCompactionWork`. The invariant says of every entry that was passed
over why no read can tell; the outputs are cuts of one sorted list. -/
namespace LevelDB

variable {K V : Type} [LinearOrder K]

/-- The output files so far, the open one last. -/
def CompactionState.files (c : CompactionState K V) : List (Nat × List (Entry K V)) :=
  c.outputs ++ c.building.toList

def CompactionState.kept (c : CompactionState K V) : List (Entry K V) := c.files.flatMap (·.2)

omit [LinearOrder K] in
@[simp] theorem finishOutput_files (c : CompactionState K V) : c.finishOutput.files = c.files := by
  simp [CompactionState.files,CompactionState.finishOutput]

omit [LinearOrder K] in
@[simp] theorem finishOutput_kept (c : CompactionState K V) : c.finishOutput.kept = c.kept := by
  simp [CompactionState.kept]

omit [LinearOrder K] in
theorem addEntry_files (o : Options K V) (number : Nat) (c : CompactionState K V) (e : Entry K V) :
    (c.addEntry o number e).files = c.outputs ++
      [((c.building.map (·.1)).getD number,(c.building.map (·.2)).getD [] ++ [e])] := by
  simp only [CompactionState.addEntry]
  split
  · rw [finishOutput_files]
    simp [CompactionState.files]
  · simp [CompactionState.files]

omit [LinearOrder K] in
theorem addEntry_kept (o : Options K V) (number : Nat) (c : CompactionState K V) (e : Entry K V) :
    (c.addEntry o number e).kept = c.kept ++ [e] := by
  rw [CompactionState.kept,addEntry_files]
  cases building : c.building <;> simp [CompactionState.kept,CompactionState.files,building]

omit [LinearOrder K] in
theorem addEntry_nonempty (o : Options K V) (number : Nat) (c : CompactionState K V) (e : Entry K V)
    (nonempty : ∀ out ∈ c.files, out.2 ≠ []) : ∀ out ∈ (c.addEntry o number e).files, out.2 ≠ [] := by
  intro out member
  rw [addEntry_files] at member
  rcases List.mem_append.mp member with old | new
  · exact nonempty out (List.mem_append_left _ old)
  · rw [List.mem_singleton.mp new]
    simp

omit [LinearOrder K] in
theorem addEntry_numbers (o : Options K V) (number : Nat) (c : CompactionState K V) (e : Entry K V) :
    (c.addEntry o number e).files.map (·.1) =
      if c.building.isNone then c.files.map (·.1) ++ [number] else c.files.map (·.1) := by
  rw [addEntry_files]
  cases building : c.building <;> simp [CompactionState.files,building]

section BaseLevel
variable {user : K}

/-- The scan of a level moves over files that end before the key, and says whether the
first other one holds it. -/
theorem scanBaseLevel_spec (user : K) (files : List (FileMetaData K)) (order : LevelOrder files)
    (ptr : Nat) :
    ∃ n, (scanBaseLevel user files ptr).2 = ptr + n ∧
      (∀ f ∈ files.take n, f.largest.userKey < user) ∧
      ((scanBaseLevel user files ptr).1 = false → ∀ f ∈ files, ¬Spans f user) := by
  induction files generalizing ptr with
  | nil => exact ⟨0,rfl,by simp,by simp⟩
  | cons f rest ih =>
    have pairs := List.pairwise_cons.mp order.disjoint
    by_cases reached : user ≤ f.largest.userKey
    · refine ⟨0,by simp [scanBaseLevel,reached],by simp,?_⟩
      intro outside g hg
      have start : user < f.smallest.userKey := by
        simpa [scanBaseLevel,reached] using outside
      rcases List.mem_cons.mp hg with rfl | later
      · exact fun spans => absurd spans.1 (not_le_of_gt start)
      · have next := InternalKey.userKey_le (pairs.1 g later).le
        have range := InternalKey.userKey_le (order.range f List.mem_cons_self)
        exact fun spans => absurd (lt_of_lt_of_le start (range.trans (next.trans spans.1))) (lt_irrefl _)
    · obtain ⟨n,moved,passed,spec⟩ := ih
        ⟨pairs.2,fun g hg => order.range g (List.mem_cons_of_mem _ hg)⟩ (ptr + 1)
      refine ⟨n + 1,by simp only [scanBaseLevel,if_neg reached,moved]; omega,?_,?_⟩
      · intro g hg
        rcases List.mem_cons.mp (by simpa using hg) with rfl | later
        · exact not_le.mp reached
        · exact passed g later
      · intro outside g hg
        rcases List.mem_cons.mp hg with rfl | later
        · exact fun spans => reached spans.2
        · exact spec (by simpa [scanBaseLevel,reached] using outside) g later

/-- The files before the pointers end before the key. -/
def Passed (v : Version K) (ptrs : Nat → Nat) (user : K) : Prop :=
  ∀ l, ∀ f ∈ (v.files l).take (ptrs l), f.largest.userKey < user

theorem LevelOrder.drop {files : List (FileMetaData K)} (order : LevelOrder files) (n : Nat) :
    LevelOrder (files.drop n) :=
  ⟨order.disjoint.sublist (List.drop_sublist n files),
    fun f hf => order.range f (List.mem_of_mem_drop hf)⟩

/-- A scan keeps what is behind the pointers. -/
theorem Passed.scan {v : Version K} {ptrs : Nat → Nat} (passed : Passed v ptrs user) (l : Nat)
    (order : LevelOrder (v.files l)) :
    Passed v (Function.update ptrs l (scanBaseLevel user ((v.files l).drop (ptrs l)) (ptrs l)).2) user := by
  obtain ⟨n,moved,spent,-⟩ := scanBaseLevel_spec user _ (order.drop (ptrs l)) (ptrs l)
  intro l' f hf
  by_cases same : l' = l
  · subst same
    rw [Function.update_self,moved,List.take_add] at hf
    rcases List.mem_append.mp hf with old | new
    · exact passed l' f old
    · exact spent f new
  · rw [Function.update_of_ne same] at hf
    exact passed l' f hf

theorem isBaseLevelLoop_spec (v : Version K) (levels : List Nat)
    (order : ∀ l ∈ levels, LevelOrder (v.files l)) (ptrs : Nat → Nat) (passed : Passed v ptrs user) :
    Passed v (isBaseLevelLoop v user levels ptrs).2 user ∧
      ((isBaseLevelLoop v user levels ptrs).1 = true →
        ∀ l ∈ levels, ∀ f ∈ v.files l, ¬Spans f user) := by
  induction levels generalizing ptrs with
  | nil => exact ⟨passed,by simp⟩
  | cons l rest ih =>
    have next := passed.scan l (order l List.mem_cons_self)
    obtain ⟨-,-,-,spec⟩ := scanBaseLevel_spec user _
      ((order l List.mem_cons_self).drop (ptrs l)) (ptrs l)
    simp only [isBaseLevelLoop]
    split
    · exact ⟨next,by simp⟩
    · rename_i outside
      obtain ⟨kept,tail⟩ := ih (fun l' hl => order l' (List.mem_cons_of_mem _ hl)) _ next
      refine ⟨kept,?_⟩
      intro base l' hl f hf
      rcases List.mem_cons.mp hl with rfl | later
      · rw [← List.take_append_drop (ptrs l') (v.files l')] at hf
        rcases List.mem_append.mp hf with old | new
        · exact fun spans => absurd spans.2 (not_le_of_gt (passed l' f old))
        · exact spec (by simpa using outside) f new
      · exact tail base l' later f hf

end BaseLevel

/-- What the loop has established once it has passed the entries `done`. -/
structure CompactionState.Loop (c : CompactionState K V) (done : List (Entry K V)) : Prop where
  sorted : SortedEntries (done ++ c.remaining)
  distinct : Distinct (entrySet (done ++ c.remaining))
  floor : c.smallestSnapshot < kMaxSequenceNumber
  levels : ∀ l, 1 ≤ l → LevelOrder (c.compaction.inputVersion.files l)
  kept : c.kept.Sublist done
  nonempty : ∀ out ∈ c.files, out.2 ≠ []
  numbers : (c.files.map (·.1)).Pairwise (· < ·)
  current : c.currentUserKey = done.getLast?.map (·.userKey)
  last : ∀ e, done.getLast? = some e → c.lastSequenceForKey = e.sequence
  passed : ∀ e ∈ c.remaining, Passed c.compaction.inputVersion c.levelPtrs e.userKey
  dropped : ∀ d ∈ done, d ∉ c.kept →
    c.compaction.Dropped (entrySet done) (entrySet c.kept) c.smallestSnapshot d

/-- Entries that are kept later do not spoil the reason why one was dropped. -/
theorem Compaction.Dropped.mono {c : Compaction K} {inputs inputs' kept kept' : Set (Entry K V)}
    {floor : Nat} {d : Entry K V} (dropped : c.Dropped inputs kept floor d) (more : inputs ⊆ inputs')
    (same : kept ⊆ kept')
    (above : ∀ b ∈ kept', b ∉ kept → ∀ a ∈ inputs, a.userKey = b.userKey → floor < a.sequence) :
    c.Dropped inputs' kept' floor d := by
  rcases dropped with ⟨a,ha,user,later,seen⟩ | ⟨a,ha,user,later,seen,deleted,base,alone⟩
  · exact .inl ⟨a,same ha,user,later,seen⟩
  · refine .inr ⟨a,more ha,user,later,seen,deleted,base,?_⟩
    intro b hb equal
    by_cases old : b ∈ kept
    · exact alone b old equal
    · exact absurd (above b hb old a ha equal.symm) (not_lt_of_ge seen)

section Step
variable {c : CompactionState K V} {done : List (Entry K V)} {e : Entry K V} {rest : List (Entry K V)}

/-- What is still to come is later in the internal order, so older for one user key. -/
theorem CompactionState.Loop.older (loop : c.Loop done) (head : c.remaining = e :: rest)
    (a : Entry K V) (member : a ∈ done) (same : a.userKey = e.userKey) : e.sequence < a.sequence := by
  have sorted := loop.sorted
  have distinct := loop.distinct
  rw [head] at sorted distinct
  refine newer_of_key_lt distinct (List.mem_append_left _ member) (by simp) same ?_
  exact (List.pairwise_append.mp sorted).2.2 a member e List.mem_cons_self

/-- The last entry passed is the oldest of its user key. -/
theorem CompactionState.Loop.last_oldest (loop : c.Loop done) (head : c.remaining = e :: rest)
    (a : Entry K V) (member : a ∈ done) (same : a.userKey = e.userKey) :
    ∃ l, done.getLast? = some l ∧ l.userKey = e.userKey ∧ l.sequence ≤ a.sequence := by
  obtain ⟨front,l,rfl⟩ : ∃ front l, done = front ++ [l] :=
    ⟨_,_,(List.dropLast_append_getLast (List.ne_nil_of_mem member)).symm⟩
  have sorted := loop.sorted
  rw [head,List.append_assoc] at sorted
  obtain ⟨-,tail,across⟩ := List.pairwise_append.mp sorted
  have next : l.key < e.key := (List.pairwise_cons.mp tail).1 e List.mem_cons_self
  have le : a.key ≤ l.key := by
    rcases List.mem_append.mp member with early | only
    · exact (across a early l List.mem_cons_self).le
    · rw [List.mem_singleton.mp only]
  have user : l.userKey = e.userKey := by
    refine le_antisymm (InternalKey.userKey_le next.le) ?_
    rw [← same]
    exact InternalKey.userKey_le le
  exact ⟨l,by simp,user,sequence_le_of_key_le (same.trans user.symm) le⟩

/-- Why `dropEntry` drops, and what it knows if it does not. -/
theorem CompactionState.Loop.dropEntry (loop : c.Loop done) (head : c.remaining = e :: rest) :
    ((c.dropEntry e).1 = true → c.compaction.Dropped (entrySet (done ++ [e])) (entrySet c.kept)
      c.smallestSnapshot e) ∧
    ((c.dropEntry e).1 = false → ∀ a ∈ done, a.userKey = e.userKey → c.smallestSnapshot < a.sequence) := by
  have keptIn : ∀ b ∈ c.kept, b ∈ done := fun b hb => loop.kept.subset hb
  by_cases hidden : (if c.currentUserKey = some e.userKey then c.lastSequenceForKey
      else kMaxSequenceNumber) ≤ c.smallestSnapshot
  · -- the entry before has the same user key and every snapshot sees it
    refine ⟨fun _ => ?_,by simp [CompactionState.dropEntry,hidden]⟩
    have floor := loop.floor
    split at hidden
    · rename_i user
      rw [loop.current] at user
      obtain ⟨l,last,same⟩ := Option.map_eq_some_iff.mp user
      have member := List.mem_of_getLast? last
      rw [loop.last l last] at hidden
      have older := loop.older head l member same
      by_cases keptL : l ∈ c.kept
      · exact .inl ⟨l,keptL,same,older,hidden⟩
      rcases loop.dropped l member keptL with
        ⟨a,ha,user,later,seen⟩ | ⟨a,ha,user,later,seen,deleted,base,alone⟩
      · exact .inl ⟨a,ha,user.trans same,older.trans later,seen⟩
      · exact .inr ⟨a,List.mem_append_left _ ha,user.trans same,older.le.trans later,seen,deleted,base,
          alone⟩
    · omega
  · have visible : ∀ a ∈ done, a.userKey = e.userKey → c.smallestSnapshot < a.sequence := by
      intro a ha same
      obtain ⟨l,last,user,oldest⟩ := loop.last_oldest head a ha same
      have current : c.currentUserKey = some e.userKey := by
        rw [loop.current,last,Option.map_some,user]
      rw [if_pos current,loop.last l last] at hidden
      omega
    refine ⟨?_,fun _ => visible⟩
    intro drop
    simp only [CompactionState.dropEntry,if_neg hidden] at drop
    split at drop
    · rename_i deletion
      have passed : Passed c.compaction.inputVersion c.levelPtrs e.userKey :=
        loop.passed e (by simp [head])
      have spec := (isBaseLevelLoop_spec c.compaction.inputVersion (deeperLevels c.compaction.level)
        (fun l hl => loop.levels l (by simp [deeperLevels] at hl; omega)) c.levelPtrs passed).2 drop
      refine .inr ⟨e,by simp,rfl,le_refl _,deletion.2,?_,?_,?_⟩
      · have type := deletion.1
        simp only [Entry.type] at type
        split at type
        · cases type
        · rename_i none
          simpa using none
      · intro l deep shallow f hf
        exact spec l (by simp [deeperLevels]; omega) f hf
      · intro b hb same
        exact loop.older head b (keptIn b hb) same
    · cases drop

/-- The other fields that `dropEntry` sets. -/
theorem dropEntry_state (c : CompactionState K V) (e : Entry K V) :
    ∃ ptrs, (c.dropEntry e).2 = { c with
        currentUserKey := some e.userKey, lastSequenceForKey := e.sequence, levelPtrs := ptrs } ∧
      (ptrs = c.levelPtrs ∨ ptrs = (c.isBaseLevelForKey e.userKey).2) := by
  by_cases hidden : (if c.currentUserKey = some e.userKey then c.lastSequenceForKey
      else kMaxSequenceNumber) ≤ c.smallestSnapshot
  · exact ⟨c.levelPtrs,by simp only [CompactionState.dropEntry,if_pos hidden],.inl rfl⟩
  by_cases deletion : e.type = .deletion ∧ e.sequence ≤ c.smallestSnapshot
  · refine ⟨(c.isBaseLevelForKey e.userKey).2,?_,.inr rfl⟩
    simp only [CompactionState.dropEntry,if_neg hidden,if_pos deletion]
  · refine ⟨c.levelPtrs,?_,.inl rfl⟩
    simp only [CompactionState.dropEntry,if_neg hidden,if_neg deletion]

theorem CompactionState.Loop.passed_next (loop : c.Loop done) (head : c.remaining = e :: rest)
    {ptrs : Nat → Nat} (moved : ptrs = c.levelPtrs ∨ ptrs = (c.isBaseLevelForKey e.userKey).2) :
    Passed c.compaction.inputVersion ptrs e.userKey := by
  have passed := loop.passed e (by simp [head])
  rcases moved with rfl | rfl
  · exact passed
  · exact (isBaseLevelLoop_spec c.compaction.inputVersion (deeperLevels c.compaction.level)
      (fun l hl => loop.levels l (by simp [deeperLevels] at hl; omega)) c.levelPtrs passed).1

theorem CompactionState.Loop.finishOutput (loop : c.Loop done) : c.finishOutput.Loop done := by
  refine ⟨loop.sorted,loop.distinct,loop.floor,loop.levels,?_,?_,?_,loop.current,loop.last,
    loop.passed,?_⟩
  · rw [finishOutput_kept]; exact loop.kept
  · rw [finishOutput_files]; exact loop.nonempty
  · rw [finishOutput_files]; exact loop.numbers
  · rw [finishOutput_kept]; exact loop.dropped

theorem CompactionState.Loop.shouldStopBefore (loop : c.Loop done) (o : Options K V)
    (key : InternalKey K) : (c.shouldStopBefore o key).2.Loop done := by
  simp only [CompactionState.shouldStopBefore]
  split <;> exact ⟨loop.sorted,loop.distinct,loop.floor,loop.levels,loop.kept,loop.nonempty,
    loop.numbers,loop.current,loop.last,loop.passed,loop.dropped⟩

theorem user_le_of_sorted {front : List (Entry K V)} (sorted : SortedEntries (front ++ e :: rest))
    (a : Entry K V) (member : a ∈ rest) : e.userKey ≤ a.userKey :=
  InternalKey.userKey_le
    ((List.pairwise_cons.mp (List.pairwise_append.mp sorted).2.1).1 a member).le

/-- One pass of the loop, once `ShouldStopBefore` has been asked. -/
theorem CompactionState.Loop.pass (loop : c.Loop done) (head : c.remaining = e :: rest)
    (o : Options K V) (number : Nat) (fresh : ∀ n ∈ c.files.map (·.1), n < number) :
    let next := { (c.dropEntry e).2 with remaining := rest }
    (if (c.dropEntry e).1 then next else next.addEntry o number e).Loop (done ++ [e]) := by
  intro next
  obtain ⟨drops,keeps⟩ := loop.dropEntry head
  obtain ⟨ptrs,state,moved⟩ := dropEntry_state c e
  have passed := loop.passed_next head moved
  have hnext : next = { c with
      currentUserKey := some e.userKey, lastSequenceForKey := e.sequence, levelPtrs := ptrs
      remaining := rest } := by simp only [next,state]
  have sorted : SortedEntries ((done ++ [e]) ++ rest) := by
    rw [List.append_assoc,List.singleton_append,← head]
    exact loop.sorted
  have distinct : Distinct (entrySet ((done ++ [e]) ++ rest)) := by
    rw [List.append_assoc,List.singleton_append,← head]
    exact loop.distinct
  have later : ∀ a ∈ rest, Passed c.compaction.inputVersion ptrs a.userKey := by
    intro a ha l f hf
    have le : e.userKey ≤ a.userKey := user_le_of_sorted (by rw [← head]; exact loop.sorted) a ha
    exact lt_of_lt_of_le (passed l f hf) le
  have grow : entrySet done ⊆ entrySet (done ++ [e]) := fun a ha => List.mem_append_left _ ha
  have fields : next.kept = c.kept ∧ next.files = c.files ∧ next.building = c.building := by
    rw [hnext]
    exact ⟨rfl,rfl,rfl⟩
  cases drop : (c.dropEntry e).1 with
  | true =>
    rw [if_pos rfl,hnext]
    refine ⟨sorted,distinct,loop.floor,loop.levels,loop.kept.trans (List.sublist_append_left _ _),
      loop.nonempty,loop.numbers,by simp,by simp,later,?_⟩
    intro d member notKept
    rcases List.mem_append.mp member with old | new
    · exact (loop.dropped d old notKept).mono grow Set.Subset.rfl fun b hb out => absurd hb out
    · rw [List.mem_singleton.mp new]
      exact drops drop
  | false =>
    rw [if_neg Bool.false_ne_true]
    have kept : (next.addEntry o number e).kept = c.kept ++ [e] := by
      rw [addEntry_kept,fields.1]
    have static : (next.addEntry o number e).compaction = c.compaction ∧
        (next.addEntry o number e).smallestSnapshot = c.smallestSnapshot ∧
        (next.addEntry o number e).remaining = rest ∧
        (next.addEntry o number e).currentUserKey = some e.userKey ∧
        (next.addEntry o number e).lastSequenceForKey = e.sequence ∧
        (next.addEntry o number e).levelPtrs = ptrs := by
      simp only [CompactionState.addEntry,hnext]
      split <;> exact ⟨rfl,rfl,rfl,rfl,rfl,rfl⟩
    obtain ⟨compaction,snapshot,remaining,current,last,pointers⟩ := static
    refine ⟨?_,?_,?_,?_,?_,?_,?_,?_,?_,?_,?_⟩
    · rw [remaining]; exact sorted
    · rw [remaining]; exact distinct
    · rw [snapshot]; exact loop.floor
    · rw [compaction]; exact loop.levels
    · rw [kept]; exact loop.kept.append (List.Sublist.refl _)
    · exact addEntry_nonempty o number next e (by rw [fields.2.1]; exact loop.nonempty)
    · rw [addEntry_numbers,fields.2.1]
      split
      · refine List.pairwise_append.mpr ⟨loop.numbers,List.pairwise_singleton _ _,?_⟩
        intro a ha b hb
        rw [List.mem_singleton.mp hb]
        exact fresh a ha
      · exact loop.numbers
    · rw [current]; simp
    · rw [last]; simp
    · rw [remaining,compaction,pointers]; exact later
    · rw [kept,compaction,snapshot]
      intro d member notKept
      have old : d ∈ done := by
        rcases List.mem_append.mp member with old | new
        · exact old
        · exact absurd (List.mem_append_right _ new) notKept
      have before : d ∉ c.kept := fun kept => notKept (List.mem_append_left _ kept)
      refine (loop.dropped d old before).mono grow (fun a ha => List.mem_append_left _ ha) ?_
      intro b hb out a ha same
      rcases List.mem_append.mp hb with early | new
      · exact absurd early out
      · rw [List.mem_singleton.mp new] at same
        exact keeps drop a ha same

/-- The state in which the pass drops or keeps its entry. -/
def CompactionState.beforeEntry (o : Options K V) (c : CompactionState K V) (e : Entry K V) :
    CompactionState K V :=
  if (c.shouldStopBefore o e.key).1 then (c.shouldStopBefore o e.key).2.finishOutput
  else (c.shouldStopBefore o e.key).2

theorem advance_eq (o : Options K V) (number : Nat) (head : c.remaining = e :: rest) :
    c.advance o number =
      let before := c.beforeEntry o e
      let next := { (before.dropEntry e).2 with remaining := rest }
      if (before.dropEntry e).1 then (next,false)
      else (next.addEntry o number e,next.building.isNone) := by
  rw [CompactionState.advance,head]
  rfl

/-- What a pass leaves alone. -/
structure CompactionState.Same (c next : CompactionState K V) : Prop where
  compaction : next.compaction = c.compaction
  isManual : next.isManual = c.isManual
  smallestSnapshot : next.smallestSnapshot = c.smallestSnapshot
  outputs : c.outputs <+: next.outputs

theorem beforeEntry_same (o : Options K V) :
    c.Same (c.beforeEntry o e) ∧ (c.beforeEntry o e).remaining = c.remaining ∧
      (c.beforeEntry o e).files = c.files := by
  have stop : c.Same (c.shouldStopBefore o e.key).2 ∧
      (c.shouldStopBefore o e.key).2.remaining = c.remaining ∧
      (c.shouldStopBefore o e.key).2.files = c.files := by
    simp only [CompactionState.shouldStopBefore]
    split <;> exact ⟨⟨rfl,rfl,rfl,List.prefix_rfl⟩,rfl,rfl⟩
  obtain ⟨same,remaining,files⟩ := stop
  rw [CompactionState.beforeEntry]
  split
  · refine ⟨⟨same.compaction,same.isManual,same.smallestSnapshot,?_⟩,remaining,?_⟩
    · exact same.outputs.trans (List.prefix_append _ _)
    · rw [finishOutput_files,files]
  · exact ⟨same,remaining,files⟩

theorem dropEntry_same : c.Same (c.dropEntry e).2 ∧ (c.dropEntry e).2.files = c.files := by
  obtain ⟨ptrs,state,-⟩ := dropEntry_state c e
  rw [state]
  exact ⟨⟨rfl,rfl,rfl,List.prefix_rfl⟩,rfl⟩

omit [LinearOrder K] in
theorem addEntry_same (o : Options K V) (number : Nat) : c.Same (c.addEntry o number e) := by
  simp only [CompactionState.addEntry]
  split
  · exact ⟨rfl,rfl,rfl,List.prefix_append _ _⟩
  · exact ⟨rfl,rfl,rfl,List.prefix_rfl⟩

/-- The loop invariant is kept by a pass that may take `number` for a new output. -/
theorem CompactionState.Loop.advance (loop : c.Loop done) (head : c.remaining = e :: rest)
    (o : Options K V) (number : Nat) (fresh : ∀ n ∈ c.files.map (·.1), n < number) :
    (c.advance o number).1.Loop (done ++ [e]) := by
  obtain ⟨-,remaining,files⟩ := beforeEntry_same (c := c) (e := e) o
  have before : (c.beforeEntry o e).Loop done := by
    rw [CompactionState.beforeEntry]
    split
    · exact (loop.shouldStopBefore o e.key).finishOutput
    · exact loop.shouldStopBefore o e.key
  have step := before.pass (remaining.trans head) o number (by rw [files]; exact fresh)
  rw [advance_eq o number head]
  simp only at step ⊢
  split
  · rename_i drop
    rwa [if_pos drop] at step
  · rename_i drop
    rwa [if_neg drop] at step

/-- What a pass changes of the rest of the state. -/
theorem advance_same (o : Options K V) (number : Nat) (head : c.remaining = e :: rest) :
    c.Same (c.advance o number).1 ∧ (c.advance o number).1.remaining = rest ∧
      (c.advance o number).1.files.map (·.1) =
        if (c.advance o number).2 then c.files.map (·.1) ++ [number] else c.files.map (·.1) := by
  obtain ⟨first,-,files⟩ := beforeEntry_same (c := c) (e := e) o
  obtain ⟨second,files'⟩ := dropEntry_same (c := c.beforeEntry o e) (e := e)
  have both : c.Same { ((c.beforeEntry o e).dropEntry e).2 with remaining := rest } :=
    ⟨second.compaction.trans first.compaction,second.isManual.trans first.isManual,
      second.smallestSnapshot.trans first.smallestSnapshot,first.outputs.trans second.outputs⟩
  have sameFiles : CompactionState.files { ((c.beforeEntry o e).dropEntry e).2 with remaining := rest } =
      c.files := files'.trans files
  rw [advance_eq o number head]
  simp only
  split
  · exact ⟨both,rfl,by rw [if_neg Bool.false_ne_true,sameFiles]⟩
  · refine ⟨?_,?_,?_⟩
    · have third := addEntry_same
        (c := { ((c.beforeEntry o e).dropEntry e).2 with remaining := rest }) (e := e) o number
      exact ⟨third.compaction.trans both.compaction,third.isManual.trans both.isManual,
        third.smallestSnapshot.trans both.smallestSnapshot,both.outputs.trans third.outputs⟩
    · simp only [CompactionState.addEntry]
      split <;> rfl
    · rw [addEntry_numbers,sameFiles]

end Step

section Inputs
variable {v : Version K} {tables : Tables K V}

theorem mergeEntries_eq (left right : List (Entry K V)) :
    mergeEntries left right = left.merge right fun a b => decide (a.key ≤ b.key) := by
  induction left generalizing right with
  | nil => simp [mergeEntries]
  | cons a left ih =>
    induction right with
    | nil => simp [mergeEntries,ih]
    | cons b right inner =>
      rw [List.merge]
      by_cases before : b.key < a.key
      · simp only [mergeEntries,before,decide_true,List.takeWhile_cons_of_pos,List.dropWhile_cons_of_pos,
          not_le.mpr before,decide_false,Bool.false_eq_true,if_false,List.cons_append] at inner ⊢
        rw [inner]
      · simp [mergeEntries,before,not_lt.mp before,ih]

/-- The merge of sorted children is sorted and has just their entries. -/
theorem mergeAll_spec (children : List (List (Entry K V)))
    (sorted : ∀ child ∈ children, child.Pairwise fun a b => a.key ≤ b.key) :
    let all := children.foldr mergeEntries []
    (all.Pairwise fun a b => a.key ≤ b.key) ∧ all.Perm children.flatten := by
  induction children with
  | nil => simp
  | cons child rest ih =>
    obtain ⟨tail,perm⟩ := ih fun other member => sorted other (List.mem_cons_of_mem _ member)
    simp only [List.foldr_cons,mergeEntries_eq child]
    constructor
    · have merged : ∀ left right : List (Entry K V), (left.Pairwise fun a b => decide (a.key ≤ b.key)) →
          (right.Pairwise fun a b => decide (a.key ≤ b.key)) →
          (left.merge right fun a b => decide (a.key ≤ b.key)).Pairwise fun a b => decide (a.key ≤ b.key) :=
        List.pairwise_merge (fun a b c => by simpa using fun left right => le_trans left right)
          fun a b => by simpa using le_total a.key b.key
      exact (merged child _ ((sorted child List.mem_cons_self).imp (by simp)) (tail.imp (by simp))).imp
        (by simp)
    · exact (List.merge_perm_append _).trans (by simpa using perm.append_left child)

/-- No two files of a version share an internal key. -/
theorem Version.Wf.keys_ne (wf : v.Wf tables) {l l' : Nat} {f g : FileMetaData K}
    (hf : f ∈ v.files l) (hg : g ∈ v.files l') (ne : f ≠ g) (a b : Entry K V)
    (ha : a ∈ tables f.number) (hb : b ∈ tables g.number) : a.key ≠ b.key := by
  intro same
  have user : a.userKey = b.userKey := congrArg InternalKey.userKey same
  have sequence : a.sequence = b.sequence := congrArg InternalKey.sequence same
  rcases Nat.lt_trichotomy l l' with lt | rfl | gt
  · exact absurd (wf.recent l l' lt a ⟨f,hf,ha⟩ b ⟨g,hg,hb⟩ user) (by omega)
  · by_cases zero : l = 0
    · subst zero
      rcases Nat.lt_trichotomy f.number g.number with lt | equal | gt
      · exact absurd (wf.recent0 g hg f hf lt b hb a ha user.symm) (by omega)
      · exact ne (wf.unique 0 0 f g hf hg equal).2
      · exact absurd (wf.recent0 f hf g hg gt a ha b hb user) (by omega)
    · have below := (wf.holds l f hf).le_largest a ha
      have above := (wf.holds l f hf).smallest_le a ha
      have below' := (wf.holds l g hg).le_largest b hb
      have above' := (wf.holds l g hg).smallest_le b hb
      rw [← same] at below' above'
      rcases wf.apart (by omega) f g hf hg ne with lt | lt
      · exact absurd (lt_of_le_of_lt below (lt_of_lt_of_le lt above')) (lt_irrefl _)
      · exact absurd (lt_of_le_of_lt below' (lt_of_lt_of_le lt above)) (lt_irrefl _)
  · exact absurd (wf.recent l' l gt b ⟨g,hg,hb⟩ a ⟨f,hf,ha⟩ user.symm) (by omega)

theorem nodup_of_inOrder {files : List (FileMetaData K)} (order : InOrder files) : files.Nodup := by
  refine List.Pairwise.imp ?_ order
  rintro f g before rfl
  exact BySmallestKey.irrefl f before

/-- The children of the input iterator are sorted, so what it delivers is, and it delivers
what the inputs hold. -/
theorem Compaction.Closed.inputEntries_order {c : Compaction K} (sorted : v.Sorted)
    (holds : ∀ l, ∀ f ∈ v.files l, f.Holds tables) (closed : c.Closed v) :
    ((c.inputEntries tables).Pairwise fun a b => a.key ≤ b.key) ∧
      (c.inputEntries tables).Perm (c.inputs.flatMap fun f => tables f.number) := by
  have own := fun f hf => closed.own.sublist.subset (a := f) hf
  have concat : ∀ l, 1 ≤ l → ∀ files : List (FileMetaData K), files.Sublist (v.files l) →
      SortedEntries (files.map fun f => tables f.number).flatten := by
    intro l deep files sublist
    rw [← List.flatMap_def]
    exact concat_sorted tables files (fun f hf => holds l f (sublist.subset hf))
      ((sorted.disjoint l deep).sublist sublist)
  let children := (if c.level = 0 then c.inputs0.map fun f => tables f.number
    else [(c.inputs0.map fun f => tables f.number).flatten]) ++
      [(c.inputs1.map fun f => tables f.number).flatten]
  have each : ∀ child ∈ children, child.Pairwise fun a b => a.key ≤ b.key := by
    intro child member
    rcases List.mem_append.mp member with first | second
    · split at first
      · obtain ⟨f,hf,rfl⟩ := List.mem_map.mp first
        exact (holds _ f (own f hf)).sorted.imp le_of_lt
      · rename_i deep
        rw [List.mem_singleton.mp first]
        exact (concat c.level (by omega) _ closed.own.sublist).imp le_of_lt
    · rw [List.mem_singleton.mp second]
      exact (concat (c.level + 1) (by omega) _ closed.parents).imp le_of_lt
  have flat : children.flatten = c.inputs.flatMap fun f => tables f.number := by
    simp only [children,Compaction.inputs,List.flatten_append,List.flatMap_def]
    split <;> simp
  rw [← flat]
  exact mergeAll_spec children each

/-- The input iterator delivers the entries of the inputs in internal order. -/
theorem Compaction.Closed.inputEntries {c : Compaction K} (wf : v.Wf tables) (closed : c.Closed v) :
    SortedEntries (c.inputEntries tables) ∧
      ∀ e, e ∈ c.inputEntries tables ↔ e ∈ filesSet tables c.inputs := by
  have own := fun f hf => closed.own.sublist.subset (a := f) hf
  have parents := fun f hf => closed.parents.subset (a := f) hf
  obtain ⟨order,perm⟩ := closed.inputEntries_order wf.sorted wf.holds
  have nodup : c.inputs.Pairwise fun f g => f ≠ g := by
    refine List.pairwise_append.mpr ⟨(nodup_of_inOrder (wf.ordered _)).sublist closed.own.sublist,
      (nodup_of_inOrder (wf.ordered _)).sublist closed.parents,?_⟩
    rintro f hf g hg rfl
    have := (wf.unique _ _ f f (own f hf) (parents f hg) rfl).1
    omega
  have somewhere : ∀ f ∈ c.inputs, ∃ l, f ∈ v.files l := by
    intro f hf
    rcases List.mem_append.mp hf with first | second
    · exact ⟨_,own f first⟩
    · exact ⟨_,parents f second⟩
  have keys : (c.inputs.flatMap fun f => tables f.number).Pairwise fun a b => a.key ≠ b.key := by
    refine List.pairwise_flatMap.mpr ⟨?_,?_⟩
    · intro f hf
      obtain ⟨l,member⟩ := somewhere f hf
      exact (wf.holds l f member).sorted.imp ne_of_lt
    · refine nodup.imp_of_mem ?_
      intro f g hf hg ne a ha b hb
      obtain ⟨l,member⟩ := somewhere f hf
      obtain ⟨l',member'⟩ := somewhere g hg
      exact wf.keys_ne member member' ne a b ha hb
  constructor
  · have distinct := (perm.pairwise_iff fun ne => Ne.symm ne).mpr keys
    exact (order.and distinct).imp fun both => lt_of_le_of_ne both.1 both.2
  · intro e
    refine perm.mem_iff.trans ?_
    simp [filesSet]

/-- The loop starts with nothing passed. -/
theorem Compaction.Closed.start {c : Compaction K} (wf : v.Wf tables)
    (distinct : Distinct (v.entries tables)) (closed : c.Closed v) (isManual : Bool) (snapshot : Nat)
    (floor : snapshot < kMaxSequenceNumber) :
    (CompactionState.start c isManual snapshot tables).Loop [] := by
  obtain ⟨sorted,members⟩ := closed.inputEntries wf
  have safe := closed.safe wf distinct
  refine ⟨sorted,?_,floor,?_,List.Sublist.refl _,by simp [CompactionState.files,CompactionState.start],
    by simp [CompactionState.files,CompactionState.start],rfl,by simp,
    by simp [CompactionState.start,Passed],by simp⟩
  · refine distinct.mono fun e he => ?_
    rcases safe.entry ((members e).mp he) with own | parent
    · exact ⟨_,own⟩
    · exact ⟨_,parent⟩
  · intro l deep
    rw [show (CompactionState.start c isManual snapshot tables).compaction = c from rfl,closed.version]
    exact wf.sorted.levelOrder l deep

omit [LinearOrder K] in
theorem outputFile_spec {o : Options K V} {number : Nat} {entries : List (Entry K V)}
    {f : FileMetaData K} (made : outputFile o number entries = some f) :
    f.number = number ∧ (∃ e, entries.head? = some e ∧ f.smallest = e.key) ∧
      ∃ e, entries.getLast? = some e ∧ f.largest = e.key := by
  simp only [outputFile,Option.bind_eq_bind,Option.bind_eq_some_iff,Option.some.injEq] at made
  obtain ⟨first,head,last,tail,rfl⟩ := made
  exact ⟨rfl,⟨first,head,rfl⟩,last,tail,rfl⟩

omit [LinearOrder K] in
theorem outputFile_isSome (o : Options K V) (number : Nat) {entries : List (Entry K V)}
    (nonempty : entries ≠ []) : ∃ f, outputFile o number entries = some f := by
  obtain ⟨e,rest,rfl⟩ := List.exists_cons_of_ne_nil nonempty
  simp [outputFile,List.getLast?_cons]

/-- The meta data of a finished table describes it. -/
theorem outputFile_holds {o : Options K V} {number : Nat} {entries : List (Entry K V)}
    {f : FileMetaData K} (made : outputFile o number entries = some f)
    (written : tables number = entries) (sorted : SortedEntries entries)
    (bounded : ∀ e ∈ entries, e.sequence ≤ kMaxSequenceNumber) : f.Holds tables := by
  obtain ⟨same,first,last⟩ := outputFile_spec made
  rw [← same] at written
  exact ⟨by rw [written]; exact sorted,by rw [written]; exact first,by rw [written]; exact last,
    by rw [written]; exact bounded⟩

end Inputs

section Outputs
variable {v : Version K} {tables : Tables K V} {c : CompactionState K V} {done : List (Entry K V)}

/-- The meta data of the finished outputs. -/
def CompactionState.outputFiles (o : Options K V) (c : CompactionState K V) : List (FileMetaData K) :=
  c.outputs.filterMap fun out => outputFile o out.1 out.2

omit [LinearOrder K] in
theorem mem_outputFiles {o : Options K V} {f : FileMetaData K} (member : f ∈ c.outputFiles o) :
    ∃ out ∈ c.outputs, outputFile o out.1 out.2 = some f := by
  simpa [CompactionState.outputFiles] using member

omit [LinearOrder K] in
/-- The finished outputs hold what was kept. -/
theorem outputFiles_set (closed : c.building = none)
    (o : Options K V) (written : ∀ out ∈ c.outputs, tables out.1 = out.2) :
    filesSet tables (c.outputFiles o) = entrySet c.kept := by
  have files : c.files = c.outputs := by simp [CompactionState.files,closed]
  ext e
  constructor
  · rintro ⟨f,hf,he⟩
    obtain ⟨out,member,made⟩ := mem_outputFiles hf
    rw [(outputFile_spec made).1,written out member] at he
    exact List.mem_flatMap.mpr ⟨out,files ▸ member,he⟩
  · intro kept
    obtain ⟨out,member,he⟩ := List.mem_flatMap.mp kept
    rw [files] at member
    obtain ⟨f,made⟩ := outputFile_isSome o out.1 (List.ne_nil_of_mem he)
    refine ⟨f,List.mem_filterMap.mpr ⟨out,member,made⟩,?_⟩
    rw [(outputFile_spec made).1,written out member]
    exact he

/-- The finished outputs may take the place of the inputs. -/
theorem CompactionState.Loop.outputs_fit (loop : c.Loop done) (closed : c.building = none)
    (o : Options K V) (written : ∀ out ∈ c.outputs, tables out.1 = out.2)
    (inputs : ∀ e ∈ done, e ∈ filesSet tables c.compaction.inputs)
    (bounded : ∀ e ∈ done, e.sequence ≤ kMaxSequenceNumber)
    (fresh : ∀ out ∈ c.outputs, ∀ l, ∀ f ∈ v.files l, f.number ≠ out.1) :
    c.compaction.Fits v tables (c.outputFiles o) := by
  have files : c.files = c.outputs := by simp [CompactionState.files,closed]
  have keptSorted : SortedEntries c.kept :=
    (List.pairwise_append.mp loop.sorted).1.sublist loop.kept
  have inner : ∀ out ∈ c.outputs, ∀ e ∈ out.2, e ∈ done := by
    intro out member e he
    exact loop.kept.subset (List.mem_flatMap.mpr ⟨out,files ▸ member,he⟩)
  rw [CompactionState.kept,files,SortedEntries,List.pairwise_flatMap] at keptSorted
  have across : ∀ out ∈ c.outputs, ∀ out' ∈ c.outputs, out ≠ out' →
      (∀ a ∈ out.2, ∀ b ∈ out'.2, a.key < b.key) ∨ ∀ a ∈ out.2, ∀ b ∈ out'.2, b.key < a.key := by
    intro out member out' member' ne
    rcases either_of_pairwise keptSorted.2 out out' member member' ne with lt | lt
    · exact .inl lt
    · exact .inr fun a ha b hb => lt b hb a ha
  have byNumber : ∀ out ∈ c.outputs, ∀ out' ∈ c.outputs, out.1 = out'.1 → out = out' := by
    have numbers := loop.numbers
    rw [files] at numbers
    intro out member out' member' same
    by_contra ne
    rcases either_of_pairwise (List.pairwise_map.mp numbers) out out' member member' ne with lt | lt
    · omega
    · omega
  refine ⟨?_,?_,?_,?_,?_⟩
  · intro f hf
    obtain ⟨out,member,made⟩ := mem_outputFiles hf
    exact outputFile_holds made (written out member) (keptSorted.1 out member)
      fun e he => bounded e (inner out member e he)
  · intro f hf e he
    obtain ⟨out,member,made⟩ := mem_outputFiles hf
    rw [tableSet,(outputFile_spec made).1,written out member] at he
    exact inputs e (inner out member e he)
  · intro f hf g hg ne
    obtain ⟨out,member,made⟩ := mem_outputFiles hf
    obtain ⟨out',member',made'⟩ := mem_outputFiles hg
    obtain ⟨-,⟨a,first,low⟩,b,last,high⟩ := outputFile_spec made
    obtain ⟨-,⟨a',first',low'⟩,b',last',high'⟩ := outputFile_spec made'
    have differ : out ≠ out' := by
      rintro rfl
      exact ne (Option.some.inj (made.symm.trans made'))
    rw [low,high,low',high']
    rcases across out member out' member' differ with lt | lt
    · exact .inl (lt b (List.mem_of_getLast? last) a' (List.mem_of_head? first'))
    · exact .inr (lt a (List.mem_of_head? first) b' (List.mem_of_getLast? last'))
  · intro f hf g hg same
    obtain ⟨out,member,made⟩ := mem_outputFiles hf
    obtain ⟨out',member',made'⟩ := mem_outputFiles hg
    rw [(outputFile_spec made).1,(outputFile_spec made').1] at same
    cases byNumber out member out' member' same
    exact Option.some.inj (made.symm.trans made')
  · intro f hf l g hg _ _ same
    obtain ⟨out,member,made⟩ := mem_outputFiles hf
    rw [(outputFile_spec made).1] at same
    exact fresh out member l g hg same

end Outputs

end LevelDB
