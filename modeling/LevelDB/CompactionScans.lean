import Mathlib.Algebra.Order.BigOperators.Group.List
import Mathlib.Algebra.Order.Group.Nat
import LevelDB.CompactionLoop

/-! The two scans that go along with the input of a compaction. `IsBaseLevelForKey` moves a
pointer for each deeper level and `ShouldStopBefore` one over the grandparents; keys that
only grow let either continue where it stopped. -/
namespace LevelDB

variable {K V : Type} [LinearOrder K]

section BaseLevel
variable {v : Version K} {user : K}

/-- The first file that does not end before the key holds it. -/
def coversUser (user : K) (files : List (FileMetaData K)) : Bool :=
  (files.dropWhile fun f => decide (f.largest.userKey < user)).head?.any
    fun f => decide (f.smallest.userKey ≤ user)

@[simp] theorem coversUser_nil : coversUser user [] = false := rfl

theorem coversUser_passed {f : FileMetaData K} {files : List (FileMetaData K)} (passed : f.largest.userKey < user) :
    coversUser user (f :: files) = coversUser user files := by
  simp [coversUser,passed]

theorem coversUser_reached {f : FileMetaData K} {files : List (FileMetaData K)} (reached : user ≤ f.largest.userKey) :
    coversUser user (f :: files) = decide (f.smallest.userKey ≤ user) := by
  simp [coversUser,not_lt.mpr reached]

theorem coversUser_drop (files : List (FileMetaData K)) (n : Nat)
    (passed : ∀ f ∈ files.take n, f.largest.userKey < user) :
    coversUser user (files.drop n) = coversUser user files := by
  have skipped : (files.take n ++ files.drop n).dropWhile (fun f => decide (f.largest.userKey < user)) =
      (files.drop n).dropWhile fun f => decide (f.largest.userKey < user) :=
    List.dropWhile_append_of_pos fun f hf => decide_eq_true (passed f hf)
  rw [List.take_append_drop] at skipped
  simp only [coversUser,skipped]

theorem scanBaseLevel_fst (user : K) (files : List (FileMetaData K)) (ptr : Nat) :
    (scanBaseLevel user files ptr).1 = coversUser user files := by
  induction files generalizing ptr with
  | nil => rfl
  | cons f rest ih =>
    by_cases reached : user ≤ f.largest.userKey
    · rw [coversUser_reached reached]
      simp only [scanBaseLevel,if_pos reached]
    · rw [coversUser_passed (not_le.mp reached)]
      simp only [scanBaseLevel,if_neg reached]
      exact ih (ptr + 1)

/-- In a level in order no file behind the first one reached can hold the key. -/
theorem LevelOrder.coversUser_iff {files : List (FileMetaData K)} (order : LevelOrder files) :
    coversUser user files = true ↔ ∃ f ∈ files, Spans f user := by
  induction files with
  | nil => simp
  | cons f rest ih =>
    have pairs := List.pairwise_cons.mp order.disjoint
    by_cases reached : user ≤ f.largest.userKey
    · simp only [coversUser_reached reached,decide_eq_true_eq]
      constructor
      · exact fun start => ⟨f,List.mem_cons_self,start,reached⟩
      · rintro ⟨g,member,spans⟩
        rcases List.mem_cons.mp member with rfl | later
        · exact spans.1
        · have next := InternalKey.userKey_le (pairs.1 g later).le
          have range := InternalKey.userKey_le (order.range f List.mem_cons_self)
          exact range.trans (next.trans spans.1)
    · have tail := ih ⟨pairs.2,fun g hg => order.range g (List.mem_cons_of_mem _ hg)⟩
      simp only [coversUser_passed (not_le.mp reached),tail,List.exists_mem_cons_iff]
      exact (or_iff_right fun spans => reached spans.2).symm

/-- What the pointers have passed does not matter: the answer is that of the levels. -/
theorem isBaseLevelLoop_fst (levels : List Nat) (order : ∀ l ∈ levels, LevelOrder (v.files l))
    (ptrs : Nat → Nat) (passed : Passed v ptrs user) :
    (isBaseLevelLoop v user levels ptrs).1 = levels.all fun l => !coversUser user (v.files l) := by
  induction levels generalizing ptrs with
  | nil => rfl
  | cons l rest ih =>
    have inside : (scanBaseLevel user ((v.files l).drop (ptrs l)) (ptrs l)).1 = coversUser user (v.files l) :=
      (scanBaseLevel_fst user _ _).trans (coversUser_drop _ _ (passed l))
    have tail := ih (fun l' member => order l' (List.mem_cons_of_mem _ member)) _
      (passed.scan l (order l List.mem_cons_self))
    simp only [isBaseLevelLoop,inside,List.all_cons]
    cases coversUser user (v.files l) with
    | true => rfl
    | false => simpa using tail

/-- The check with all pointers at the front. -/
def Compaction.freshBaseLevel (c : Compaction K) (user : K) : Bool :=
  (isBaseLevelLoop c.inputVersion user (deeperLevels c.level) fun _ => 0).1

/-- The answers of one call of `IsBaseLevelForKey` after the other. -/
def CompactionState.baseLevelCalls (c : CompactionState K V) : List K → List Bool
  | [] => []
  | user :: rest =>
    (c.isBaseLevelForKey user).1 ::
      CompactionState.baseLevelCalls { c with levelPtrs := (c.isBaseLevelForKey user).2 } rest

theorem mem_deeperLevels {level l : Nat} : l ∈ deeperLevels level ↔ level + 2 ≤ l ∧ l < kNumLevels := by
  simp only [deeperLevels,List.mem_range'_1]
  omega

section Calls
variable {c : Compaction K} (order : ∀ l, 1 ≤ l → LevelOrder (c.inputVersion.files l))

include order

theorem Compaction.deeper_order : ∀ l ∈ deeperLevels c.level, LevelOrder (c.inputVersion.files l) :=
  fun l member => order l (by have := (mem_deeperLevels.mp member).1; omega)

theorem Compaction.freshBaseLevel_iff (user : K) : c.freshBaseLevel user = true ↔
    ∀ l, c.level + 2 ≤ l → l < kNumLevels → ∀ f ∈ c.inputVersion.files l, ¬Spans f user := by
  rw [Compaction.freshBaseLevel,isBaseLevelLoop_fst _ (deeper_order order) _ (by simp [Passed])]
  simp only [List.all_eq_true,Bool.not_eq_true',mem_deeperLevels,and_imp]
  refine forall_congr' fun l => forall_congr' fun deep => forall_congr' fun _ => ?_
  have level : coversUser user (c.inputVersion.files l) = true ↔ _ := (order l (by omega)).coversUser_iff
  rw [Bool.eq_false_iff,ne_eq,level]
  push Not
  exact Iff.rfl

theorem Compaction.isBaseLevelForKey_fresh {s : CompactionState K V} (same : s.compaction = c)
    (passed : Passed c.inputVersion s.levelPtrs user) : (s.isBaseLevelForKey user).1 = c.freshBaseLevel user := by
  subst same
  have deep := deeper_order order
  rw [CompactionState.isBaseLevelForKey,Compaction.freshBaseLevel,isBaseLevelLoop_fst _ deep _ passed,
    isBaseLevelLoop_fst _ deep _ (by simp [Passed])]

theorem Compaction.baseLevelCalls_fresh {s : CompactionState K V} (same : s.compaction = c) (users : List K)
    (rising : users.Pairwise (· ≤ ·)) (passed : ∀ user ∈ users, Passed c.inputVersion s.levelPtrs user) :
    s.baseLevelCalls users = users.map c.freshBaseLevel := by
  induction users generalizing s with
  | nil => rfl
  | cons user rest ih =>
    obtain ⟨below,rising⟩ := List.pairwise_cons.mp rising
    have own := passed user List.mem_cons_self
    have moved := (isBaseLevelLoop_spec _ _ (deeper_order order) _ own).1
    rw [CompactionState.baseLevelCalls,List.map_cons,isBaseLevelForKey_fresh order same own]
    congr 1
    refine ih (s := { s with levelPtrs := (s.isBaseLevelForKey user).2 }) same rising ?_
    intro later member l f hf
    rw [CompactionState.isBaseLevelForKey,same] at hf
    exact lt_of_lt_of_le (moved l f hf) (below later member)

end Calls

/-- The calls that a compaction makes on its way through the input answer as if each had
started anew: whether no deeper file may hold the key. -/
theorem base_level_calls (c : Compaction K) (order : ∀ l, 1 ≤ l → LevelOrder (c.inputVersion.files l))
    (isManual : Bool) (snapshot : Nat) (tables : Tables K V) (users : List K) (rising : users.Pairwise (· ≤ ·)) :
    (CompactionState.start c isManual snapshot tables).baseLevelCalls users = users.map c.freshBaseLevel ∧
      ∀ user, c.freshBaseLevel user = true ↔
        ∀ l, c.level + 2 ≤ l → l < kNumLevels → ∀ f ∈ c.inputVersion.files l, ¬Spans f user :=
  ⟨Compaction.baseLevelCalls_fresh order rfl users rising (by simp [CompactionState.start,Passed]),
    Compaction.freshBaseLevel_iff order⟩

/-- In the loop every entry may ask. -/
theorem CompactionState.Loop.fresh {c : CompactionState K V} {done rest : List (Entry K V)} {e : Entry K V}
    (loop : c.Loop done) (head : c.remaining = e :: rest) :
    (c.isBaseLevelForKey e.userKey).1 = c.compaction.freshBaseLevel e.userKey :=
  Compaction.isBaseLevelForKey_fresh loop.levels rfl (loop.passed e (by simp [head]))

end BaseLevel

section Grandparents

/-- The size of the files that end at or after the one key and before the other. -/
def overlapSize (files : List (FileMetaData K)) (smallest largest : InternalKey K) : Nat :=
  totalFileSize (files.filter fun g => decide (smallest ≤ g.largest) && decide (g.largest < largest))

omit [LinearOrder K] in
theorem totalFileSize_append (left right : List (FileMetaData K)) :
    totalFileSize (left ++ right) = totalFileSize left + totalFileSize right := by
  simp [totalFileSize]

omit [LinearOrder K] in
theorem totalFileSize_sublist {left right : List (FileMetaData K)} (sublist : left.Sublist right) :
    totalFileSize left ≤ totalFileSize right :=
  (sublist.map _).sum_le_sum fun _ _ => Nat.zero_le _

theorem skipGrandparents_eq (key : InternalKey K) (seen : Bool) (files : List (FileMetaData K)) (bytes index : Nat) :
    skipGrandparents key seen files bytes index =
      (if seen then bytes + totalFileSize (files.takeWhile fun g => decide (g.largest < key)) else bytes,
        index + (files.takeWhile fun g => decide (g.largest < key)).length) := by
  induction files generalizing bytes index with
  | nil => simp [skipGrandparents,totalFileSize]
  | cons g rest ih =>
    by_cases passed : g.largest < key
    · rw [skipGrandparents,if_pos passed,ih]
      simp only [passed,decide_true,List.takeWhile_cons_of_pos,List.length_cons]
      cases seen
      · simp [Nat.add_assoc,Nat.add_comm 1]
      · simp [totalFileSize,Nat.add_assoc,Nat.add_comm 1]
    · simp [skipGrandparents,passed,totalFileSize]

/-- The keys between the ends of an output overlap no more grandparents than allowed. -/
def FitsGrandparents (o : Options K V) (files : List (FileMetaData K)) (entries : List (Entry K V)) : Prop :=
  ∀ a b, entries.head? = some a → entries.getLast? = some b →
    overlapSize files a.key b.key ≤ o.maxGrandParentOverlapBytes

/-- What the counter knows: the grandparents that were passed since the open output began,
and none but passed ones end before its last key. -/
structure CompactionState.Counts (c : CompactionState K V) (entries : List (Entry K V)) : Prop where
  seen : c.seenKey = true
  ends : ∃ a b, entries.head? = some a ∧ entries.getLast? = some b ∧
    totalFileSize ((c.compaction.grandparents.take c.grandparentIndex).filter
      fun g => decide (a.key ≤ g.largest)) ≤ c.overlappedBytes ∧
    ∀ g ∈ c.compaction.grandparents.drop c.grandparentIndex, b.key ≤ g.largest

structure CompactionState.Overlap (o : Options K V) (c : CompactionState K V) : Prop where
  order : c.compaction.grandparents.Pairwise fun f g => f.largest ≤ g.largest
  remaining : c.remaining.Pairwise fun a b => a.key ≤ b.key
  passed : ∀ g ∈ c.compaction.grandparents.take c.grandparentIndex, ∀ e ∈ c.remaining, g.largest < e.key
  bounded : c.overlappedBytes ≤ o.maxGrandParentOverlapBytes
  closed : ∀ out ∈ c.outputs, FitsGrandparents o c.compaction.grandparents out.2
  counts : ∀ out, c.building = some out → c.Counts out.2

/-- The output that is open could be closed at any time. -/
theorem CompactionState.Counts.fits {o : Options K V} {c : CompactionState K V} {entries : List (Entry K V)}
    (counts : c.Counts entries) (bounded : c.overlappedBytes ≤ o.maxGrandParentOverlapBytes) :
    FitsGrandparents o c.compaction.grandparents entries := by
  obtain ⟨a,b,head,last,counted,beyond⟩ := counts.ends
  intro a' b' head' last'
  cases head.symm.trans head'
  cases last.symm.trans last'
  have none : (c.compaction.grandparents.drop c.grandparentIndex).filter
      (fun g => decide (a.key ≤ g.largest) && decide (g.largest < b.key)) = [] := by
    simp only [List.filter_eq_nil_iff,Bool.and_eq_true,decide_eq_true_eq,not_and,not_lt]
    exact fun g member _ => beyond g member
  have split : overlapSize c.compaction.grandparents a.key b.key =
      overlapSize (c.compaction.grandparents.take c.grandparentIndex) a.key b.key := by
    conv_lhs => rw [overlapSize,← List.take_append_drop c.grandparentIndex c.compaction.grandparents,
      List.filter_append,none,List.append_nil]
    rfl
  rw [split]
  refine le_trans (totalFileSize_sublist ?_) (counted.trans bounded)
  exact List.monotone_filter_right _ fun g both => (Bool.and_eq_true _ _ ▸ both).1

theorem CompactionState.Overlap.fits {o : Options K V} {c : CompactionState K V} (overlap : c.Overlap o) :
    ∀ out ∈ c.files, FitsGrandparents o c.compaction.grandparents out.2 := by
  intro out member
  rcases List.mem_append.mp member with closed | opened
  · exact overlap.closed out closed
  · exact (overlap.counts out (Option.mem_toList.mp opened)).fits overlap.bounded

theorem CompactionState.Overlap.finishOutput {o : Options K V} {c : CompactionState K V} (overlap : c.Overlap o) :
    c.finishOutput.Overlap o := by
  refine ⟨overlap.order,overlap.remaining,overlap.passed,overlap.bounded,?_,?_⟩
  · exact overlap.fits
  · intro out opened
    cases opened

section Pass
variable {o : Options K V} {c : CompactionState K V} {e : Entry K V} {rest : List (Entry K V)}

/-- Grandparents are passed up to the first that does not end before the key. -/
theorem shouldStopBefore_spec (o : Options K V) (c : CompactionState K V) (key : InternalKey K)
    (order : c.compaction.grandparents.Pairwise fun f g => f.largest ≤ g.largest) :
    ∃ skipped later, c.compaction.grandparents.drop c.grandparentIndex = skipped ++ later ∧
      (∀ g ∈ skipped, g.largest < key) ∧ (∀ g ∈ later, key ≤ g.largest) ∧
      let bytes := if c.seenKey then c.overlappedBytes + totalFileSize skipped else c.overlappedBytes
      let next := { c with grandparentIndex := c.grandparentIndex + skipped.length, seenKey := true }
      (o.maxGrandParentOverlapBytes < bytes ∧ c.shouldStopBefore o key = (true,{ next with overlappedBytes := 0 })) ∨
        (bytes ≤ o.maxGrandParentOverlapBytes ∧
          c.shouldStopBefore o key = (false,{ next with overlappedBytes := bytes })) := by
  refine ⟨_,_,(List.takeWhile_append_dropWhile (p := fun g => decide (g.largest < key))).symm,?_,?_,?_⟩
  · exact fun g member => by simpa using List.mem_takeWhile_imp member
  · intro g member
    have tail := order.sublist (List.drop_sublist c.grandparentIndex _)
    have reached := not_of_mem_dropWhile (fun g => decide (g.largest < key)) _
      (tail.imp fun le passed => by simpa using le.trans_lt (by simpa using passed)) g member
    simpa using reached
  · intro bytes next
    simp only [CompactionState.shouldStopBefore,skipGrandparents_eq]
    by_cases full : o.maxGrandParentOverlapBytes < bytes
    · exact .inl ⟨full,by simp only [bytes] at full; simp only [if_pos full,next]⟩
    · exact .inr ⟨not_lt.mp full,by simp only [bytes] at full; simp only [if_neg full,next,bytes]⟩

/-- Once `ShouldStopBefore` has answered, the key lies between the grandparents passed and
the others. -/
structure CompactionState.Between (c : CompactionState K V) (key : InternalKey K) : Prop where
  seen : c.seenKey = true
  passed : ∀ g ∈ c.compaction.grandparents.take c.grandparentIndex, g.largest < key
  reached : ∀ g ∈ c.compaction.grandparents.drop c.grandparentIndex, key ≤ g.largest

theorem CompactionState.Overlap.beforeEntry (overlap : c.Overlap o) (head : c.remaining = e :: rest) :
    (c.beforeEntry o e).Overlap o ∧ (c.beforeEntry o e).Between e.key := by
  obtain ⟨skipped,later,split,behind,ahead,result⟩ := shouldStopBefore_spec o c e.key overlap.order
  have gone : ∀ g ∈ skipped, ∀ a ∈ c.remaining, g.largest < a.key := by
    intro g member a ha
    have sorted := overlap.remaining
    rw [head] at ha sorted
    rcases List.mem_cons.mp ha with rfl | after
    · exact behind g member
    · exact (behind g member).trans_le ((List.pairwise_cons.mp sorted).1 a after)
  have taken : c.compaction.grandparents.take (c.grandparentIndex + skipped.length) =
      c.compaction.grandparents.take c.grandparentIndex ++ skipped := by
    rw [List.take_add,split,List.take_left]
  have dropped : c.compaction.grandparents.drop (c.grandparentIndex + skipped.length) = later := by
    rw [← List.drop_drop,split,List.drop_left]
  have passed : ∀ g ∈ c.compaction.grandparents.take (c.grandparentIndex + skipped.length),
      ∀ a ∈ c.remaining, g.largest < a.key := by
    intro g member
    rw [taken] at member
    rcases List.mem_append.mp member with old | new
    · exact overlap.passed g old
    · exact gone g new
  have between : ∀ bytes, CompactionState.Between { c with
      grandparentIndex := c.grandparentIndex + skipped.length, seenKey := true, overlappedBytes := bytes } e.key :=
    fun _ => ⟨rfl,fun g member => passed g member e (by simp [head]),fun g member => ahead g (dropped ▸ member)⟩
  rcases result with ⟨-,stop⟩ | ⟨room,stay⟩
  · -- the open output is closed as it stood before the key
    simp only [CompactionState.beforeEntry,stop,if_true]
    refine ⟨⟨overlap.order,overlap.remaining,passed,Nat.zero_le _,overlap.fits,?_⟩,
      ⟨(between 0).seen,(between 0).passed,(between 0).reached⟩⟩
    intro out opened
    cases opened
  · simp only [CompactionState.beforeEntry,stay,Bool.false_eq_true,if_false]
    refine ⟨⟨overlap.order,overlap.remaining,passed,room,overlap.closed,?_⟩,between _⟩
    intro out opened
    have counts := overlap.counts out opened
    obtain ⟨a,b,first,last,counted,beyond⟩ := counts.ends
    refine ⟨rfl,a,b,first,last,?_,?_⟩
    · simp only [taken,List.filter_append,totalFileSize_append,counts.seen,if_true]
      exact Nat.add_le_add counted (totalFileSize_sublist List.filter_sublist)
    · intro g member
      exact beyond g (split ▸ List.mem_append_right _ (dropped ▸ member))

/-- An entry that is kept is the new end of the open output, or its beginning. -/
theorem CompactionState.Overlap.addEntry (overlap : c.Overlap o) (between : c.Between e.key) (number : Nat) :
    (c.addEntry o number e).Overlap o := by
  have counts : c.Counts ((c.building.map (·.2)).getD [] ++ [e]) := by
    refine ⟨between.seen,?_⟩
    cases opened : c.building with
    | none =>
      have empty : (c.compaction.grandparents.take c.grandparentIndex).filter
          (fun g => decide (e.key ≤ g.largest)) = [] := by
        simpa using between.passed
      exact ⟨e,e,rfl,rfl,by simp [empty,totalFileSize],between.reached⟩
    | some out =>
      obtain ⟨a,b,first,last,counted,-⟩ := (overlap.counts out opened).ends
      obtain ⟨tail,whole⟩ := List.head?_eq_some_iff.mp first
      exact ⟨a,e,by simp [whole],by simp,counted,between.reached⟩
  have added : CompactionState.Overlap o { c with
      building := some ((c.building.map (·.1)).getD number,(c.building.map (·.2)).getD [] ++ [e]) } := by
    refine ⟨overlap.order,overlap.remaining,overlap.passed,overlap.bounded,overlap.closed,?_⟩
    rintro out ⟨⟩
    exact ⟨counts.seen,counts.ends⟩
  simp only [CompactionState.addEntry]
  split
  · exact added.finishOutput
  · exact added

theorem CompactionState.Overlap.advance (overlap : c.Overlap o) (number : Nat) :
    (c.advance o number).1.Overlap o := by
  cases head : c.remaining with
  | nil =>
    rw [CompactionState.advance,head]
    exact overlap
  | cons e rest =>
    obtain ⟨before,between⟩ := overlap.beforeEntry head
    obtain ⟨-,remaining,-⟩ := beforeEntry_same (c := c) (e := e) o
    obtain ⟨ptrs,state,-⟩ := dropEntry_state (c.beforeEntry o e) e
    have sorted : rest.Pairwise fun a b => a.key ≤ b.key :=
      (List.pairwise_cons.mp (head ▸ overlap.remaining)).2
    have next : CompactionState.Overlap o { ((c.beforeEntry o e).dropEntry e).2 with remaining := rest } := by
      rw [state]
      refine ⟨before.order,sorted,?_,before.bounded,before.closed,?_⟩
      · intro g member a ha
        exact before.passed g member a (by rw [remaining,head]; exact List.mem_cons_of_mem _ ha)
      · exact fun out opened => ⟨(before.counts out opened).seen,(before.counts out opened).ends⟩
    rw [advance_eq o number head]
    simp only
    split
    · exact next
    · refine next.addEntry ?_ number
      rw [state]
      exact ⟨between.seen,between.passed,between.reached⟩

/-- The passes of the loop, each with the number that a new output would get. -/
def CompactionState.passes (o : Options K V) (c : CompactionState K V) (numbers : List Nat) :
    CompactionState K V :=
  numbers.foldl (fun c number => (c.advance o number).1) c

theorem CompactionState.Overlap.passes (overlap : c.Overlap o) (numbers : List Nat) :
    (c.passes o numbers).Overlap o ∧ (c.passes o numbers).compaction = c.compaction := by
  induction numbers generalizing c with
  | nil => exact ⟨overlap,rfl⟩
  | cons number numbers ih =>
    obtain ⟨after,same⟩ := ih (overlap.advance number)
    refine ⟨after,same.trans ?_⟩
    cases head : c.remaining with
    | nil => simp only [CompactionState.advance,head]
    | cons e rest => exact (advance_same o number head).1.compaction

end Pass

variable {v : Version K} {tables : Tables K V} {o : Options K V} {c : Compaction K}

theorem Version.Builds.grandparents_order (built : v.Builds o c) (sorted : v.Sorted) :
    c.grandparents.Pairwise fun f g => f.largest ≤ g.largest := by
  obtain ⟨chosen,setup⟩ := built.setup sorted
  rw [setup.result,Version.setupOtherInputs]
  simp only
  split
  · have order := sorted.levelOrder (c.level + 2) (by omega)
    obtain ⟨first,last,filtered,-⟩ := getOverlappingInputs_spec v (c.level + 2) _ _
    rw [filtered]
    refine List.Pairwise.imp_of_mem ?_ (order.disjoint.sublist List.filter_sublist)
    intro f g _ member lt
    exact lt.le.trans (order.range g (List.mem_filter.mp member).1)
  · exact List.Pairwise.nil

theorem Version.Builds.overlap_start (built : v.Builds o c) (sorted : v.Sorted)
    (holds : ∀ l, ∀ f ∈ v.files l, f.Holds tables) (isManual : Bool) (snapshot : Nat) :
    (CompactionState.start c isManual snapshot tables).Overlap o :=
  ⟨built.grandparents_order sorted,((built.closed sorted).inputEntries_order sorted holds).1,
    by simp [CompactionState.start],Nat.zero_le _,by simp [CompactionState.start],
    by simp [CompactionState.start]⟩

/-- No output of a compaction, whether finished or open, overlaps more of the level after
the next than its limit: whatever is dropped and wherever outputs are cut by their size. -/
theorem outputs_fit_grandparents (o : Options K V) (sorted : v.Sorted)
    (holds : ∀ l, ∀ f ∈ v.files l, f.Holds tables) (built : v.Builds o c) (isManual : Bool) (snapshot : Nat)
    (numbers : List Nat) (out : Nat × List (Entry K V))
    (output : out ∈ ((CompactionState.start c isManual snapshot tables).passes o numbers).files)
    (f : FileMetaData K) (made : outputFile o out.1 out.2 = some f) :
    totalFileSize (c.grandparents.filter fun g => decide (f.smallest ≤ g.largest) &&
      decide (g.largest < f.largest)) ≤ o.maxGrandParentOverlapBytes := by
  obtain ⟨overlap,same⟩ := (built.overlap_start sorted holds isManual snapshot).passes numbers
  obtain ⟨-,⟨a,first,low⟩,b,last,high⟩ := outputFile_spec made
  have fits := overlap.fits out output a b first last
  rw [same] at fits
  rw [low,high]
  exact fits

end Grandparents

section Small

/-- One file of level 1 lies over two of level 3, and these are large. -/
def layeredVersion : Version Nat := ⟨fun level =>
  if level = 1 then [⟨1,3,⟨1,4,.value⟩,⟨9,6,.value⟩⟩]
  else if level = 3 then [⟨2,6,⟨2,2,.value⟩,⟨3,2,.value⟩⟩,⟨3,6,⟨3,1,.value⟩,⟨4,1,.value⟩⟩] else []⟩

def layeredTables : Tables Nat Nat := fun n =>
  if n = 1 then [⟨1,4,some 1⟩,⟨5,5,none⟩,⟨9,6,some 1⟩]
  else if n = 2 then [⟨2,2,some 2⟩,⟨3,2,some 2⟩] else [⟨3,1,some 3⟩,⟨4,1,some 3⟩]

theorem layeredVersion_cases (level : Nat) (f : FileMetaData Nat) (member : f ∈ layeredVersion.files level) :
    f = ⟨1,3,⟨1,4,.value⟩,⟨9,6,.value⟩⟩ ∨ f = ⟨2,6,⟨2,2,.value⟩,⟨3,2,.value⟩⟩ ∨
      f = ⟨3,6,⟨3,1,.value⟩,⟨4,1,.value⟩⟩ := by
  by_cases one : level = 1
  · exact .inl (by simpa [layeredVersion,one] using member)
  · by_cases three : level = 3
    · exact .inr (by simpa [layeredVersion,three] using member)
    · simp [layeredVersion,one,three] at member

theorem layeredVersion_holds (level : Nat) (f : FileMetaData Nat) (member : f ∈ layeredVersion.files level) :
    f.Holds layeredTables := by
  rcases layeredVersion_cases level f member with rfl | rfl | rfl <;>
    exact ⟨by unfold SortedEntries; decide,⟨_,rfl,rfl⟩,⟨_,rfl,rfl⟩,by decide⟩

theorem layeredVersion_sorted : layeredVersion.Sorted := by
  constructor
  · intro level f member
    exact (layeredVersion_holds level f member).range
  · intro level deep
    by_cases one : level = 1
    · subst one
      decide
    · by_cases three : level = 3
      · subst three
        decide
      · simp [layeredVersion,one,three]

/-- The key 3 is in two files of level 3; the third call is the first that leaves both. -/
theorem layered_calls :
    let c : Compaction Nat := ⟨1,layeredVersion.files 1,[],[],layeredVersion,none⟩
    (CompactionState.start c false 9 layeredTables).baseLevelCalls [1,3,5] = [true,false,true] ∧
      (c.freshBaseLevel 3 = true ↔ ∀ l, 3 ≤ l → l < kNumLevels → ∀ f ∈ layeredVersion.files l, ¬Spans f 3) := by
  intro c
  obtain ⟨calls,answers⟩ := base_level_calls c (fun l deep => layeredVersion_sorted.levelOrder l deep)
    false 9 layeredTables [1,3,5] (by decide)
  exact ⟨calls.trans (by decide +kernel),answers 3⟩

def tightOptions : Options Nat Nat where
  maxFileSize := 1
  writeBufferSize := 3
  updateSize _ := 4
  memoryUsage mem := mem.length
  builderSize _ := 0
  tableSize entries := entries.length + 2
  tableSize_pos _ _ := Nat.succ_pos _

/-- The two files of level 3 are too many for one output. -/
theorem layered_fits :
    let c := layeredVersion.pickCompaction tightOptions (fun _ => none) (.size 1)
    let s := (CompactionState.start c false 4 layeredTables).passes tightOptions [4,5,6]
    s.files = [(4,[⟨1,4,some 1⟩]),(5,[⟨5,5,none⟩,⟨9,6,some 1⟩])] ∧
      overlapSize c.grandparents ⟨5,5,.deletion⟩ ⟨9,6,.value⟩ ≤ 10 := by
  intro c s
  have files : s.files = [(4,[⟨1,4,some 1⟩]),(5,[⟨5,5,none⟩,⟨9,6,some 1⟩])] := by decide
  have built : layeredVersion.Builds tightOptions c := .pick (fun _ => none) (.size 1) (by decide)
  have output : (5,[⟨5,5,none⟩,⟨9,6,some 1⟩]) ∈ s.files := by rw [files]; simp
  exact ⟨files,outputs_fit_grandparents tightOptions layeredVersion_sorted layeredVersion_holds built false 4
    [4,5,6] _ output ⟨5,4,⟨5,5,.deletion⟩,⟨9,6,.value⟩⟩ rfl⟩

end Small

end LevelDB
