import LevelDB.CompactionInputs

/-! `PickCompaction` and `CompactRange` choose inputs that may be replaced by their merge
at the next level: no file beside them holds older entries of their keys, and no file of
the next level lies between them. An automatic compaction also leaves no gap between its
inputs into which a flush could fall; a manual one may. -/
namespace LevelDB

variable {K V : Type} [LinearOrder K]

theorem getRange_spec (files : List (FileMetaData K)) (nonempty : files ≠ []) :
    ∃ lo hi, getRange files = some (lo,hi) ∧ (∃ f ∈ files, f.smallest = lo) ∧
      (∀ f ∈ files, lo ≤ f.smallest) ∧ (∃ f ∈ files, f.largest = hi) ∧
      ∀ f ∈ files, f.largest ≤ hi := by
  suffices fold : ∀ (rest seen : List (FileMetaData K)) (range : InternalKey K × InternalKey K),
      ((∃ f ∈ seen, f.smallest = range.1) ∧ (∀ f ∈ seen, range.1 ≤ f.smallest) ∧
        (∃ f ∈ seen, f.largest = range.2) ∧ ∀ f ∈ seen, f.largest ≤ range.2) →
      let result := rest.foldl (fun range g =>
        (if g.smallest < range.1 then g.smallest else range.1,
          if range.2 < g.largest then g.largest else range.2)) range
      (∃ f ∈ seen ++ rest, f.smallest = result.1) ∧ (∀ f ∈ seen ++ rest, result.1 ≤ f.smallest) ∧
        (∃ f ∈ seen ++ rest, f.largest = result.2) ∧ ∀ f ∈ seen ++ rest, f.largest ≤ result.2 by
    obtain ⟨f,rest,rfl⟩ := List.exists_cons_of_ne_nil nonempty
    exact ⟨_,_,rfl,fold rest [f] (f.smallest,f.largest) (by simp)⟩
  intro rest
  induction rest with
  | nil => intro seen range spec; simpa using spec
  | cons g rest ih =>
    intro seen range spec
    obtain ⟨⟨a,ha,same⟩,least,⟨b,hb,same'⟩,most⟩ := spec
    have step := ih (seen ++ [g]) (if g.smallest < range.1 then g.smallest else range.1,
      if range.2 < g.largest then g.largest else range.2) (by
        refine ⟨?_,?_,?_,?_⟩
        · by_cases lt : g.smallest < range.1
          · exact ⟨g,by simp,by simp [lt]⟩
          · exact ⟨a,by simp [ha],by simp [lt,same]⟩
        · intro f hf
          rcases List.mem_append.mp hf with old | new
          · have le := least f old
            by_cases lt : g.smallest < range.1
            · simpa [lt] using lt.le.trans le
            · simpa [lt] using le
          · rw [List.mem_singleton.mp new]
            by_cases lt : g.smallest < range.1
            · simp [lt]
            · simpa [lt] using not_lt.mp lt
        · by_cases lt : range.2 < g.largest
          · exact ⟨g,by simp,by simp [lt]⟩
          · exact ⟨b,by simp [hb],by simp [lt,same']⟩
        · intro f hf
          rcases List.mem_append.mp hf with old | new
          · have le := most f old
            by_cases lt : range.2 < g.largest
            · simpa [lt] using le.trans lt.le
            · simpa [lt] using le
          · rw [List.mem_singleton.mp new]
            by_cases lt : range.2 < g.largest
            · simp [lt]
            · simpa [lt] using not_lt.mp lt)
    simpa using step

/-- How inputs are chosen within their level, before boundary files are added. -/
def Version.Segment (v : Version K) (level : Nat) (inputs : List (FileMetaData K)) : Prop :=
  (level = 0 ∧ ∃ first last, inputs = (v.files level).filter (meets first last) ∧
    ∀ f ∈ v.files level, Meets first last f → Within first last f) ∨
  (1 ≤ level ∧ ∃ before after, v.files level = before ++ inputs ++ after)

/-- The inputs of a level are of that level, and a file beside them is before them or
shares no user key with them. -/
structure Version.ClosedInputs (v : Version K) (level : Nat) (inputs : List (FileMetaData K)) :
    Prop where
  nonempty : inputs ≠ []
  sublist : inputs.Sublist (v.files level)
  beside : ∀ f ∈ v.files level, f ∉ inputs → ∀ g ∈ inputs,
    f.largest < g.smallest ∨ g.largest.userKey < f.smallest.userKey

section Choice
variable {v : Version K}

theorem Version.Sorted.overlapping_segment (sorted : v.Sorted) (level : Nat)
    (first last : Option (InternalKey K)) :
    v.Segment level (v.getOverlappingInputs level first last) := by
  obtain ⟨first',last',found,inside,-⟩ := getOverlappingInputs_spec v level first last
  by_cases zero : level = 0
  · exact .inl ⟨zero,first',last',found,inside zero⟩
  · have deep : 1 ≤ level := by omega
    obtain ⟨before,after,split,-⟩ := (sorted.levelOrder level deep).segment first' last'
    exact .inr ⟨deep,before,after,by rw [found]; exact split⟩

theorem Version.Segment.subset {level : Nat} {inputs : List (FileMetaData K)}
    (segment : v.Segment level inputs) : ∀ f ∈ inputs, f ∈ v.files level := by
  intro f hf
  rcases segment with ⟨-,first,last,rfl,-⟩ | ⟨-,before,after,split⟩
  · exact (List.mem_filter.mp hf).1
  · rw [split]; simp [hf]

/-- Boundary files close a segment. -/
theorem Version.Sorted.closed_of_segment (sorted : v.Sorted) {level : Nat}
    {inputs : List (FileMetaData K)} (segment : v.Segment level inputs) (nonempty : inputs ≠ []) :
    ∃ chain, addBoundaryInputs (v.files level) inputs = inputs ++ chain ∧
      v.ClosedInputs level (inputs ++ chain) ∧
      ∀ all cover, (∀ f ∈ inputs, f ∈ all) → HullCovered all cover →
        HullCovered (all ++ chain) (cover ++ chain) := by
  rcases segment with ⟨rfl,first,last,rfl,inside⟩ | ⟨deep,before,after,split⟩
  · refine ⟨[],?_,⟨by simpa using nonempty,by simp [List.filter_sublist],?_⟩,by simp⟩
    · rw [List.append_nil]
      exact addBoundaryInputs_level0 _ first last (sorted.range 0) inside
    · intro f hf out g hg
      rw [List.append_nil] at hg out
      obtain ⟨gFiles,gMeets⟩ := List.mem_filter.mp hg
      have gInside := inside g gFiles ((meets_iff _ _ _).mp gMeets)
      have missed : ¬Meets first last f := fun met =>
        out (List.mem_filter.mpr ⟨hf,(meets_iff _ _ _).mpr met⟩)
      simp only [Meets,not_and_or,not_forall,not_le] at missed
      rcases missed with ⟨u,hu,lt⟩ | ⟨u,hu,lt⟩
      · exact .inl (InternalKey.lt_of_userKey (lt_of_lt_of_le lt (gInside.1 u hu)))
      · exact .inr (lt_of_le_of_lt (gInside.2 u hu) lt)
  · have order := sorted.levelOrder level deep
    obtain ⟨chain,after',rest,result,apart,covers⟩ :=
      order.addBoundaryInputs before inputs after split nonempty
    have whole : v.files level = before ++ (inputs ++ chain) ++ after' := by
      rw [split,rest]; simp
    refine ⟨chain,result,⟨by simp [nonempty],?_,?_⟩,covers⟩
    · rw [whole,List.append_assoc before]
      exact (List.sublist_append_left _ _).trans (List.sublist_append_right _ _)
    · intro f hf out g hg
      have pairs := order.disjoint
      rw [whole] at hf pairs
      rcases List.mem_append.mp hf with early | late
      · rcases List.mem_append.mp early with front | inner
        · exact .inl ((List.pairwise_append.mp (List.pairwise_append.mp pairs).1).2.2 f front g hg)
        · exact absurd inner out
      · exact .inr (apart g hg f late)

/-- Where the files of the next level are that do not join the inputs. -/
theorem Version.Sorted.parentInputs_spec (sorted : v.Sorted) (level : Nat) (inputs0 : List (FileMetaData K))
    (nonempty : inputs0 ≠ []) :
    ∃ before after, v.files (level + 1) = before ++ v.parentInputs level inputs0 ++ after ∧
      (∀ h ∈ before, ∀ g ∈ inputs0, h.largest.userKey < g.smallest.userKey) ∧
      (∀ h ∈ after, ∀ g ∈ inputs0, g.largest.userKey < h.smallest.userKey) ∧
      (∀ h ∈ after, ∀ g ∈ v.parentInputs level inputs0, g.largest.userKey < h.smallest.userKey) ∧
      (HullCovered inputs0 (inputs0 ++ v.files (level + 1)) →
        HullCovered (inputs0 ++ v.parentInputs level inputs0)
          (inputs0 ++ v.parentInputs level inputs0)) := by
  obtain ⟨lo,hi,range,⟨first,firstIn,firstKey⟩,least,⟨last,lastIn,lastKey⟩,most⟩ :=
    getRange_spec inputs0 nonempty
  have order := sorted.levelOrder (level + 1) (by omega)
  obtain ⟨first',last',found,-,deep,-⟩ := getOverlappingInputs_spec v (level + 1) (some lo) (some hi)
  obtain ⟨rfl,rfl⟩ := deep (by omega)
  obtain ⟨before,after,split,low,high⟩ := order.segment (some lo.userKey) (some hi.userKey)
  set middle := (v.files (level + 1)).filter (meets (some lo.userKey) (some hi.userKey)) with hmiddle
  have parent : v.parentInputs level inputs0 = addBoundaryInputs (v.files (level + 1)) middle := by
    simp only [Version.parentInputs,range,Option.map_some]
    rw [found]
    rfl
  have left : ∀ h ∈ before, ∀ g ∈ inputs0, h.largest.userKey < g.smallest.userKey := by
    intro h hh g hg
    obtain ⟨u,⟨⟩,lt⟩ := low h hh
    exact lt_of_lt_of_le lt (InternalKey.userKey_le (least g hg))
  have right : ∀ h ∈ after, ∀ g ∈ inputs0, g.largest.userKey < h.smallest.userKey := by
    intro h hh g hg
    obtain ⟨u,⟨⟩,lt⟩ := high h hh
    exact lt_of_le_of_lt (InternalKey.userKey_le (most g hg)) lt
  -- the inputs and the files that meet their range leave no gap
  have joined : HullCovered inputs0 (inputs0 ++ v.files (level + 1)) →
      HullCovered (inputs0 ++ middle) (inputs0 ++ middle) := by
    intro covered f hf g hg u lower upper
    have met : ∀ m ∈ middle, lo.userKey ≤ m.largest.userKey ∧ m.smallest.userKey ≤ hi.userKey := by
      intro m hm
      have := (meets_iff _ _ _).mp (List.mem_filter.mp hm).2
      exact ⟨this.1 _ rfl,this.2 _ rfl⟩
    rcases lt_or_ge u lo.userKey with under | above
    · rcases List.mem_append.mp hf with own | new
      · have := InternalKey.userKey_le (least f own)
        exact absurd (lt_of_le_of_lt lower under) (not_lt_of_ge this)
      · exact ⟨f,List.mem_append_right _ new,lower,under.le.trans (met f new).1⟩
    rcases lt_or_ge hi.userKey u with spent | below
    · rcases List.mem_append.mp hg with own | new
      · have := InternalKey.userKey_le (most g own)
        exact absurd (lt_of_lt_of_le spent upper) (not_lt_of_ge this)
      · exact ⟨g,List.mem_append_right _ new,(met g new).2.trans spent.le,upper⟩
    obtain ⟨h,hh,spans⟩ := covered first firstIn last lastIn u (by rw [firstKey]; exact above)
      (by rw [lastKey]; exact below)
    refine ⟨h,?_,spans⟩
    rcases List.mem_append.mp hh with own | other
    · exact List.mem_append_left _ own
    · refine List.mem_append_right _ (List.mem_filter.mpr ⟨other,(meets_iff _ _ _).mpr ⟨?_,?_⟩⟩)
      · rintro w ⟨⟩
        exact above.trans spans.2
      · rintro w ⟨⟩
        exact spans.1.trans below
  rw [parent]
  by_cases none : middle = []
  · have empty : addBoundaryInputs (v.files (level + 1)) middle = [] := by rw [none]; rfl
    rw [empty]
    refine ⟨before,after,by rw [split,none],left,right,by simp,?_⟩
    intro covered
    have := joined covered
    rwa [none] at this
  · obtain ⟨chain,after',rest,result,apart,covers⟩ :=
      order.addBoundaryInputs before middle after split none
    rw [result]
    refine ⟨before,after',by rw [split,rest]; simp,left,?_,fun h hh g hg => apart g hg h hh,?_⟩
    · intro h hh
      exact right h (by rw [rest]; exact List.mem_append_right _ hh)
    · intro covered
      have extended := covers (inputs0 ++ middle) (inputs0 ++ middle)
        (fun f hf => List.mem_append_right _ hf) (joined covered)
      simpa using extended

end Choice

/-- Inputs that may be replaced by their merge at the next level. -/
structure Compaction.Closed (c : Compaction K) (v : Version K) : Prop where
  level : c.level + 1 < kNumLevels
  own : v.ClosedInputs c.level c.inputs0
  parents : c.inputs1.Sublist (v.files (c.level + 1))
  around : ∀ h ∈ v.files (c.level + 1), h ∉ c.inputs1 →
    (∀ g ∈ c.inputs, h.largest < g.smallest) ∨ ∀ g ∈ c.inputs, g.largest.userKey < h.smallest.userKey
  version : c.inputVersion = v

section Setup
variable {v : Version K}

theorem Version.Sorted.closed_parents (sorted : v.Sorted) (level : Nat) (inputs0 : List (FileMetaData K))
    (nonempty : inputs0 ≠ []) :
    (v.parentInputs level inputs0).Sublist (v.files (level + 1)) ∧
      ∀ h ∈ v.files (level + 1), h ∉ v.parentInputs level inputs0 →
        (∀ g ∈ inputs0 ++ v.parentInputs level inputs0, h.largest < g.smallest) ∨
          ∀ g ∈ inputs0 ++ v.parentInputs level inputs0, g.largest.userKey < h.smallest.userKey := by
  obtain ⟨before,after,split,left,right,apart,-⟩ := sorted.parentInputs_spec level inputs0 nonempty
  have pairs := sorted.disjoint (level + 1) (by omega)
  constructor
  · rw [split,List.append_assoc before]
    exact (List.sublist_append_left _ _).trans (List.sublist_append_right _ _)
  · intro h hh out
    rw [split] at hh pairs
    rcases List.mem_append.mp hh with early | late
    · rcases List.mem_append.mp early with front | inner
      · left
        intro g hg
        rcases List.mem_append.mp hg with own | parent
        · exact InternalKey.lt_of_userKey (left h front g own)
        · exact (List.pairwise_append.mp (List.pairwise_append.mp pairs).1).2.2 h front g parent
      · exact absurd inner out
    · right
      intro g hg
      rcases List.mem_append.mp hg with own | parent
      · exact right h late g own
      · exact apart h late g parent

/-- The files of the level that `SetupOtherInputs` would take instead of `inputs0`. -/
def Version.grownInputs (v : Version K) (level : Nat) (inputs0 inputs1 : List (FileMetaData K)) :
    List (FileMetaData K) :=
  let all := getRange (inputs0 ++ inputs1)
  addBoundaryInputs (v.files level) (v.getOverlappingInputs level (all.map (·.1)) (all.map (·.2)))

/-- Files that meet the range of a set without gaps, and the files after them. -/
theorem Version.Sorted.grown_spec (sorted : v.Sorted) (level : Nat)
    (inputs0 inputs1 : List (FileMetaData K)) (nonempty : inputs0 ≠ [])
    (own : ∀ f ∈ inputs0, f ∈ v.files level) (parents : ∀ f ∈ inputs1, f ∈ v.files (level + 1)) :
    (∀ f ∈ inputs0, f ∈ v.grownInputs level inputs0 inputs1) ∧
      v.ClosedInputs level (v.grownInputs level inputs0 inputs1) ∧
      (HullCovered (inputs0 ++ inputs1) (inputs0 ++ inputs1) →
        HullCovered (v.grownInputs level inputs0 inputs1)
          (v.grownInputs level inputs0 inputs1 ++ v.files (level + 1))) := by
  obtain ⟨lo,hi,range,⟨first,firstIn,firstKey⟩,least,⟨last,lastIn,lastKey⟩,most⟩ :=
    getRange_spec (inputs0 ++ inputs1) (by simp [nonempty])
  simp only [Version.grownInputs,range,Option.map_some]
  have segment := sorted.overlapping_segment level (some lo) (some hi)
  obtain ⟨first',last',found,inside,deep,⟨wider,starts,ends⟩,covering⟩ :=
    getOverlappingInputs_spec v level (some lo) (some hi)
  set middle := v.getOverlappingInputs level (some lo) (some hi) with hmiddle
  simp only [Option.map_some] at wider starts ends covering
  have ownMeets : ∀ f ∈ inputs0, f ∈ middle := by
    intro f hf
    rw [found]
    refine List.mem_filter.mpr ⟨own f hf,(meets_iff _ _ _).mpr (wider f ⟨?_,?_⟩)⟩
    · rintro u ⟨⟩
      have low := least f (List.mem_append_left _ hf)
      exact InternalKey.userKey_le (low.trans (sorted.range level f (own f hf)))
    · rintro u ⟨⟩
      have high := most f (List.mem_append_left _ hf)
      exact InternalKey.userKey_le ((sorted.range level f (own f hf)).trans high)
  have middleNonempty : middle ≠ [] := by
    obtain ⟨f,rest,rfl⟩ := List.exists_cons_of_ne_nil nonempty
    exact List.ne_nil_of_mem (ownMeets f List.mem_cons_self)
  obtain ⟨chain,result,closed,covers⟩ := sorted.closed_of_segment segment middleNonempty
  rw [result]
  refine ⟨fun f hf => List.mem_append_left _ (ownMeets f hf),closed,?_⟩
  intro connected
  obtain ⟨a,ha⟩ : ∃ a, first' = some a := Option.isSome_iff_exists.mp (by rw [starts]; rfl)
  obtain ⟨b,hb⟩ : ∃ b, last' = some b := Option.isSome_iff_exists.mp (by rw [ends]; rfl)
  subst ha hb
  have covered := covering (v.files level ++ inputs1) (fun f hf => List.mem_append_left _ hf) (by
    rintro c ⟨⟩ d ⟨⟩ u lower upper
    obtain ⟨h,hh,spans⟩ := connected first firstIn last lastIn u (by rw [firstKey]; exact lower)
      (by rw [lastKey]; exact upper)
    refine ⟨h,?_,spans⟩
    rcases List.mem_append.mp hh with old | new
    · exact List.mem_append_left _ (own h old)
    · exact List.mem_append_right _ new)
  have hull : HullCovered middle (middle ++ inputs1) := by
    intro f hf g hg u lower upper
    have met : ∀ m ∈ middle, a ≤ m.largest.userKey ∧ m.smallest.userKey ≤ b := by
      intro m hm
      rw [found] at hm
      have := (meets_iff _ _ _).mp (List.mem_filter.mp hm).2
      exact ⟨this.1 _ rfl,this.2 _ rfl⟩
    rcases lt_or_ge u a with under | above
    · exact ⟨f,List.mem_append_left _ hf,lower,under.le.trans (met f hf).1⟩
    rcases lt_or_ge b u with spent | below
    · exact ⟨g,List.mem_append_left _ hg,(met g hg).2.trans spent.le,upper⟩
    obtain ⟨h,hh,spans⟩ := covered a rfl b rfl u above below
    refine ⟨h,?_,spans⟩
    rcases List.mem_append.mp hh with own | other
    · refine List.mem_append_left _ ?_
      rw [found]
      refine List.mem_filter.mpr ⟨own,(meets_iff _ _ _).mpr ⟨?_,?_⟩⟩
      · rintro w ⟨⟩
        exact above.trans spans.2
      · rintro w ⟨⟩
        exact spans.1.trans below
    · exact List.mem_append_right _ other
  refine (covers middle (middle ++ inputs1) (fun f hf => hf) hull).mono ?_
  intro f hf
  simp only [List.mem_append] at hf ⊢
  rcases hf with (own | parent) | next
  · exact .inl (.inl own)
  · exact .inr (parents f parent)
  · exact .inl (.inr next)

/-- The growth is refused, or the grown inputs bring as many files of the next level. -/
theorem Version.expandInputs_cases (o : Options K V) (v : Version K) (level : Nat)
    (inputs0 : List (FileMetaData K)) :
    let inputs1 := v.parentInputs level inputs0
    let grown := v.grownInputs level inputs0 inputs1
    v.expandInputs o level inputs0 inputs1 = (inputs0,inputs1) ∨
      v.expandInputs o level inputs0 inputs1 = (grown,v.parentInputs level grown) ∧
        (v.parentInputs level grown).length = inputs1.length := by
  intro inputs1 grown
  by_cases empty : inputs1 = []
  · exact .inl (by simp only [Version.expandInputs,if_pos empty])
  by_cases larger : inputs0.length < grown.length ∧
      totalFileSize inputs1 + totalFileSize grown < o.expandedCompactionByteSizeLimit
  · by_cases same : (v.parentInputs level grown).length = inputs1.length
    · right
      refine ⟨?_,same⟩
      simp only [grown,Version.grownInputs] at larger same
      simp only [Version.expandInputs,if_neg empty,if_pos larger,if_pos same,grown,Version.grownInputs]
    · left
      simp only [grown,Version.grownInputs] at larger same
      simp only [Version.expandInputs,if_neg empty,if_pos larger,if_neg same]
  · left
    simp only [grown,Version.grownInputs] at larger
    simp only [Version.expandInputs,if_neg empty,if_neg larger]

/-- `SetupOtherInputs` closes any segment, and leaves no gap if the segment has none. -/
theorem Version.Sorted.setup_closed (sorted : v.Sorted) (o : Options K V) (level : Nat)
    (deep : level + 1 < kNumLevels) (chosen : List (FileMetaData K)) (segment : v.Segment level chosen)
    (nonempty : chosen ≠ []) :
    (v.setupOtherInputs o level chosen).Closed v ∧
      (HullCovered chosen chosen → HullCovered (v.setupOtherInputs o level chosen).inputs
        (v.setupOtherInputs o level chosen).inputs) := by
  obtain ⟨chain,result,closed,covers⟩ := sorted.closed_of_segment segment nonempty
  set inputs0 := addBoundaryInputs (v.files level) chosen with hinputs0
  rw [← result] at closed
  -- whichever input set is taken, the parents are those of the level's own inputs
  have finish : ∀ own : List (FileMetaData K), v.ClosedInputs level own →
      (HullCovered chosen chosen → HullCovered own (own ++ v.files (level + 1))) →
      v.expandInputs o level inputs0 (v.parentInputs level inputs0) = (own,v.parentInputs level own) →
      (v.setupOtherInputs o level chosen).Closed v ∧
        (HullCovered chosen chosen → HullCovered (v.setupOtherInputs o level chosen).inputs
          (v.setupOtherInputs o level chosen).inputs) := by
    intro own ownClosed hull expanded
    have parts : (v.setupOtherInputs o level chosen).inputs0 = own ∧
        (v.setupOtherInputs o level chosen).inputs1 = v.parentInputs level own := by
      simp only [Version.setupOtherInputs,← hinputs0,expanded,and_self]
    obtain ⟨parents,around⟩ := sorted.closed_parents level own ownClosed.nonempty
    constructor
    · refine ⟨deep,?_,?_,?_,rfl⟩
      · rw [parts.1]; exact ownClosed
      · rw [parts.2]; exact parents
      · rw [Compaction.inputs,parts.1,parts.2]; exact around
    · intro none
      obtain ⟨before,after,-,-,-,-,connected⟩ := sorted.parentInputs_spec level own ownClosed.nonempty
      rw [Compaction.inputs,parts.1,parts.2]
      exact connected (hull none)
  have plain : HullCovered chosen chosen → HullCovered inputs0 inputs0 := by
    intro none
    rw [result]
    exact covers chosen chosen (fun _ hf => hf) none
  have weaken : ∀ own : List (FileMetaData K), HullCovered own own →
      HullCovered own (own ++ v.files (level + 1)) := fun own hull =>
    hull.mono fun _ hf => List.mem_append_left _ hf
  rcases v.expandInputs_cases o level inputs0 with stay | ⟨grow,-⟩
  · exact finish inputs0 closed (fun none => weaken _ (plain none)) stay
  · obtain ⟨parents,-⟩ := sorted.closed_parents level inputs0 closed.nonempty
    obtain ⟨before,after,-,-,-,-,connected⟩ := sorted.parentInputs_spec level inputs0 closed.nonempty
    obtain ⟨-,grownClosed,grownHull⟩ := sorted.grown_spec level inputs0
      (v.parentInputs level inputs0) closed.nonempty (fun _ hf => closed.sublist.subset hf)
      fun _ hf => parents.subset hf
    exact finish _ grownClosed (fun none => grownHull (connected (weaken _ (plain none)))) grow

theorem segment_single {level : Nat} (deep : 1 ≤ level) (f : FileMetaData K)
    (member : f ∈ v.files level) : v.Segment level [f] := by
  obtain ⟨before,after,split⟩ := List.append_of_mem member
  exact .inr ⟨deep,before,after,by rw [split]; simp⟩

/-- A level-0 file overlaps its own range. -/
theorem Version.overlapping_self (v : Version K) (f : FileMetaData K) (member : f ∈ v.files 0)
    (range : f.smallest.userKey ≤ f.largest.userKey) :
    f ∈ v.getOverlappingInputs 0 (some f.smallest) (some f.largest) := by
  obtain ⟨first,last,found,-,-,⟨wider,-⟩,-⟩ := getOverlappingInputs_spec v 0 (some f.smallest) (some f.largest)
  simp only [Option.map_some] at wider
  rw [found]
  apply List.mem_filter.mpr ⟨member,(meets_iff _ _ _).mpr (wider f ⟨?_,?_⟩)⟩
  · rintro u ⟨⟩
    exact range
  · rintro u ⟨⟩
    exact range

/-- At level 0 the files that a file reaches through overlaps leave no gap. -/
theorem Version.Sorted.level0_closure (sorted : v.Sorted) (f : FileMetaData K) (member : f ∈ v.files 0) :
    v.getOverlappingInputs 0 (some f.smallest) (some f.largest) ≠ [] ∧
      HullCovered (v.getOverlappingInputs 0 (some f.smallest) (some f.largest))
        (v.getOverlappingInputs 0 (some f.smallest) (some f.largest)) := by
  have self := v.overlapping_self f member (InternalKey.userKey_le (sorted.range 0 f member))
  apply And.intro (List.ne_nil_of_mem self)
  obtain ⟨first,last,found,inside,-,⟨-,starts,ends⟩,covering⟩ :=
    getOverlappingInputs_spec v 0 (some f.smallest) (some f.largest)
  simp only [Option.map_some] at starts ends covering
  rw [found]
  have covered := covering (v.files 0) (fun _ hf => hf) (by
    rintro c ⟨⟩ d ⟨⟩ u lower upper
    exact ⟨f,member,lower,upper⟩)
  obtain ⟨a,rfl⟩ : ∃ a, first = some a := Option.isSome_iff_exists.mp (by rw [starts]; rfl)
  obtain ⟨b,rfl⟩ : ∃ b, last = some b := Option.isSome_iff_exists.mp (by rw [ends]; rfl)
  intro g hg h hh u lower upper
  have within : ∀ m ∈ (v.files 0).filter (meets (some a) (some b)),
      a ≤ m.smallest.userKey ∧ m.largest.userKey ≤ b := by
    intro m hm
    obtain ⟨mFiles,met⟩ := List.mem_filter.mp hm
    have inner := inside rfl m mFiles ((meets_iff _ _ _).mp met)
    exact ⟨inner.1 a rfl,inner.2 b rfl⟩
  have above := (within g hg).1.trans lower
  have below := upper.trans (within h hh).2
  obtain ⟨m,mFiles,spans⟩ := covered a rfl b rfl u above below
  refine ⟨m,List.mem_filter.mpr ⟨mFiles,(meets_iff _ _ _).mpr ⟨?_,?_⟩⟩,spans⟩
  · rintro w ⟨⟩
    exact above.trans spans.2
  · rintro w ⟨⟩
    exact spans.1.trans below

theorem pickFile_single (pointer : Option (InternalKey K)) (files : List (FileMetaData K))
    (nonempty : files ≠ []) : ∃ f ∈ files, pickFile pointer files = [f] := by
  unfold pickFile
  cases found : files.find? fun f => pointer.all fun key => decide (key < f.largest) with
  | some f => exact ⟨f,List.mem_of_find?_eq_some found,rfl⟩
  | none =>
    obtain ⟨f,rest,rfl⟩ := List.exists_cons_of_ne_nil nonempty
    exact ⟨f,List.mem_cons_self,rfl⟩

/-- An automatic compaction starts from one file of its level. -/
theorem Version.pickCompaction_eq (v : Version K) (o : Options K V) (pointer : Nat → Option (InternalKey K))
    (trigger : Trigger K) (due : v.due trigger = true) :
    ∃ level f, level + 1 < kNumLevels ∧ f ∈ v.files level ∧
      v.pickCompaction o pointer trigger = v.setupOtherInputs o level
        (if level = 0 then v.getOverlappingInputs 0 (some f.smallest) (some f.largest) else [f]) := by
  cases trigger with
  | size level =>
    simp only [Version.due,Bool.and_eq_true,decide_eq_true_eq,Bool.not_eq_true',
      List.isEmpty_eq_false_iff] at due
    obtain ⟨f,hf,picked⟩ := pickFile_single (pointer level) (v.files level) due.2
    refine ⟨level,f,due.1,hf,?_⟩
    simp only [Version.pickCompaction,picked]
    rfl
  | seek level f =>
    simp only [Version.due,Bool.and_eq_true,decide_eq_true_eq] at due
    exact ⟨level,f,due.1,due.2,rfl⟩

/-- What `SetupOtherInputs` is called with. -/
structure Version.Setup (o : Options K V) (v : Version K) (c : Compaction K)
    (chosen : List (FileMetaData K)) : Prop where
  deep : c.level + 1 < kNumLevels
  segment : v.Segment c.level chosen
  nonempty : chosen ≠ []
  result : c = v.setupOtherInputs o c.level chosen

theorem Version.Setup.closed {o : Options K V} {c : Compaction K} {chosen : List (FileMetaData K)}
    (setup : v.Setup o c chosen) (sorted : v.Sorted) :
    c.Closed v ∧ (HullCovered chosen chosen → HullCovered c.inputs c.inputs) := by
  have closed := sorted.setup_closed o c.level setup.deep chosen setup.segment setup.nonempty
  rwa [← setup.result] at closed

/-- An automatic compaction starts without gaps. -/
theorem Version.Sorted.pickCompaction_setup (sorted : v.Sorted) (o : Options K V)
    (pointer : Nat → Option (InternalKey K)) (trigger : Trigger K) (due : v.due trigger = true) :
    ∃ chosen, v.Setup o (v.pickCompaction o pointer trigger) chosen ∧ HullCovered chosen chosen := by
  obtain ⟨level,f,deep,member,picked⟩ := v.pickCompaction_eq o pointer trigger due
  rw [picked]
  by_cases zero : level = 0
  · subst zero
    obtain ⟨nonempty,hull⟩ := sorted.level0_closure f member
    rw [if_pos rfl]
    exact ⟨_,⟨deep,sorted.overlapping_segment 0 _ _,nonempty,rfl⟩,hull⟩
  · have segment := segment_single (Nat.one_le_iff_ne_zero.mpr zero) f member
    rw [if_neg zero]
    exact ⟨[f],⟨deep,segment,by simp,rfl⟩,hullCovered_singleton f⟩

/-- An automatic compaction has closed inputs without gaps. -/
theorem Version.Sorted.pickCompaction_closed (sorted : v.Sorted) (o : Options K V)
    (pointer : Nat → Option (InternalKey K)) (trigger : Trigger K) (due : v.due trigger = true) :
    (v.pickCompaction o pointer trigger).Closed v ∧
      HullCovered (v.pickCompaction o pointer trigger).inputs
        (v.pickCompaction o pointer trigger).inputs := by
  obtain ⟨chosen,setup,hull⟩ := sorted.pickCompaction_setup o pointer trigger due
  obtain ⟨closed,covers⟩ := setup.closed sorted
  exact ⟨closed,covers hull⟩

omit [LinearOrder K] in
theorem takeUpTo_prefix (limit total : Nat) (files : List (FileMetaData K)) :
    ∃ rest, files = takeUpTo limit total files ++ rest := by
  induction files generalizing total with
  | nil => exact ⟨[],rfl⟩
  | cons f files ih =>
    rw [takeUpTo]
    split
    · exact ⟨files,rfl⟩
    · obtain ⟨rest,split⟩ := ih (total + f.fileSize)
      exact ⟨rest,by rw [List.cons_append,← split]⟩

/-- A manual compaction starts from the first files of its range, at level 0 from all. -/
theorem Version.Sorted.compactRange_setup (sorted : v.Sorted) (o : Options K V) (level : Nat)
    (deep : level + 1 < kNumLevels) (first last : Option (InternalKey K)) (c : Compaction K)
    (chosen : v.compactRange o level first last = some c) : ∃ inputs, v.Setup o c inputs := by
  have segment := sorted.overlapping_segment level first last
  unfold Version.compactRange at chosen
  split at chosen
  · cases chosen
  · rename_i inputs nonempty
    cases chosen
    refine ⟨_,deep,?_,?_,rfl⟩
    · split
      · rename_i positive
        rcases segment with ⟨zero,-⟩ | ⟨-,before,after,split⟩
        · omega
        · obtain ⟨rest,parts⟩ := takeUpTo_prefix o.maxFileSize 0
            (v.getOverlappingInputs level first last)
          have whole : v.files level = before ++ takeUpTo o.maxFileSize 0
              (v.getOverlappingInputs level first last) ++ (rest ++ after) := by
            rw [split]
            conv_lhs => rw [parts]
            simp
          exact .inr ⟨positive,before,rest ++ after,whole⟩
      · exact segment
    · obtain ⟨f,rest,same⟩ := List.exists_cons_of_ne_nil nonempty
      rw [same]
      split
      · simp [takeUpTo]
      · simp

/-- A manual compaction has closed inputs; the range it is given may leave gaps. -/
theorem Version.Sorted.compactRange_closed (sorted : v.Sorted) (o : Options K V) (level : Nat)
    (deep : level + 1 < kNumLevels) (first last : Option (InternalKey K)) (c : Compaction K)
    (chosen : v.compactRange o level first last = some c) : c.Closed v := by
  obtain ⟨inputs,setup⟩ := sorted.compactRange_setup o level deep first last c chosen
  exact (setup.closed sorted).1

/-- The compactions that are built on a version. -/
inductive Version.Builds (o : Options K V) (v : Version K) : Compaction K → Prop where
  | pick (pointer : Nat → Option (InternalKey K)) (trigger : Trigger K) (due : v.due trigger = true) :
      v.Builds o (v.pickCompaction o pointer trigger)
  | range (level : Nat) (first last : Option (InternalKey K)) (c : Compaction K)
      (deep : level + 1 < kNumLevels) (chosen : v.compactRange o level first last = some c) : v.Builds o c

theorem Version.Builds.setup {o : Options K V} {c : Compaction K} (built : v.Builds o c) (sorted : v.Sorted) :
    ∃ chosen, v.Setup o c chosen := by
  cases built with
  | pick pointer trigger due =>
    obtain ⟨chosen,setup,-⟩ := sorted.pickCompaction_setup o pointer trigger due
    exact ⟨chosen,setup⟩
  | range level first last c deep chosen => exact sorted.compactRange_setup o level deep first last c chosen

theorem Version.Builds.closed {o : Options K V} {c : Compaction K} (built : v.Builds o c) (sorted : v.Sorted) :
    c.Closed v := by
  obtain ⟨chosen,setup⟩ := built.setup sorted
  exact (setup.closed sorted).1

end Setup

section Within

/-- A compaction of files of the version, whatever their order and contents. -/
structure Compaction.Within (c : Compaction K) (v : Version K) : Prop where
  version : c.inputVersion = v
  level : c.level + 1 < kNumLevels
  own : ∀ f ∈ c.inputs0, f ∈ v.files c.level
  parents : ∀ f ∈ c.inputs1, f ∈ v.files (c.level + 1)

omit [LinearOrder K] in
theorem Compaction.Within.member {c : Compaction K} {v : Version K} (within : c.Within v) {f : FileMetaData K}
    (input : f ∈ c.inputs) : ∃ l, f ∈ v.files l := by
  rcases List.mem_append.mp input with own | parent
  · exact ⟨_,within.own f own⟩
  · exact ⟨_,within.parents f parent⟩

theorem getOverlappingInputs_subset (v : Version K) (level : Nat) (first last : Option (InternalKey K)) :
    ∀ f ∈ v.getOverlappingInputs level first last, f ∈ v.files level := by
  obtain ⟨first',last',filtered,-⟩ := getOverlappingInputs_spec v level first last
  rw [filtered]
  exact fun f hf => (List.mem_filter.mp hf).1

/-- A set that has the files, and with each file its boundary files, has the inputs. -/
theorem addBoundaryInputs_within (files inputs all : List (FileMetaData K)) (own : ∀ f ∈ inputs, f ∈ all)
    (closed : ∀ f ∈ all, ∀ g ∈ files, Boundary f.largest g → g ∈ all) :
    ∀ f ∈ addBoundaryInputs files inputs, f ∈ all := by
  have loop : ∀ fuel key (inputs : List (FileMetaData K)), (∃ f ∈ all, f.largest = key) →
      (∀ f ∈ inputs, f ∈ all) → ∀ f ∈ addBoundaryLoop files fuel key inputs, f ∈ all := by
    intro fuel
    induction fuel with
    | zero => exact fun _ _ _ own => own
    | succ fuel ih =>
      rintro key inputs ⟨last,member,rfl⟩ own
      rw [addBoundaryLoop]
      have spec := findSmallestBoundaryFile_spec files last.largest
      split
      · rename_i b found
        rw [found] at spec
        have next := closed last member b spec.1 spec.2.1
        apply ih _ _ ⟨b,next,rfl⟩
        intro f hf
        rcases List.mem_append.mp hf with old | new
        · exact own f old
        · exact List.mem_singleton.mp new ▸ next
      · exact own
  by_cases empty : inputs = []
  · rw [empty]
    exact fun f hf => absurd hf List.not_mem_nil
  · obtain ⟨key,found,⟨f,hf,same⟩,-⟩ := findLargestKey_spec inputs empty
    rw [addBoundaryInputs,found]
    exact loop _ _ _ ⟨f,own f hf,same⟩ own

theorem addBoundaryInputs_subset (files inputs : List (FileMetaData K)) (own : ∀ f ∈ inputs, f ∈ files) :
    ∀ f ∈ addBoundaryInputs files inputs, f ∈ files :=
  addBoundaryInputs_within files inputs files own fun _ _ _ hg _ => hg

/-- Boundary files go to the end. -/
theorem addBoundaryInputs_extends (files inputs : List (FileMetaData K)) : inputs <+: addBoundaryInputs files inputs := by
  have loop : ∀ fuel key (inputs : List (FileMetaData K)), inputs <+: addBoundaryLoop files fuel key inputs := by
    intro fuel
    induction fuel with
    | zero => exact fun _ inputs => List.prefix_rfl
    | succ fuel ih =>
      intro key inputs
      simp only [addBoundaryLoop]
      split
      · exact (List.prefix_append inputs _).trans (ih _ _)
      · exact List.prefix_rfl
  unfold addBoundaryInputs
  split
  · exact List.prefix_rfl
  · exact loop _ _ inputs

theorem setupOtherInputs_nonempty (v : Version K) (o : Options K V) (level : Nat) (chosen : List (FileMetaData K))
    (nonempty : chosen ≠ []) : (v.setupOtherInputs o level chosen).inputs0 ≠ [] := by
  have first : addBoundaryInputs (v.files level) chosen ≠ [] := by
    intro none
    exact nonempty (List.prefix_nil.mp (none ▸ addBoundaryInputs_extends (v.files level) chosen))
  simp only [Version.setupOtherInputs,Version.expandInputs]
  split
  · exact first
  · split
    · rename_i larger
      split
      · exact List.ne_nil_of_length_pos (Nat.zero_lt_of_lt larger.1)
      · exact first
    · exact first

theorem setupOtherInputs_within (v : Version K) (o : Options K V) (level : Nat)
    (deep : level + 1 < kNumLevels) (chosen : List (FileMetaData K)) (own : ∀ f ∈ chosen, f ∈ v.files level) :
    (v.setupOtherInputs o level chosen).Within v := by
  have parents : ∀ inputs0, ∀ f ∈ v.parentInputs level inputs0, f ∈ v.files (level + 1) := fun inputs0 =>
    addBoundaryInputs_subset _ _ (getOverlappingInputs_subset v _ _ _)
  have first := addBoundaryInputs_subset (v.files level) chosen own
  refine ⟨rfl,deep,?_,?_⟩ <;>
  · simp only [Version.setupOtherInputs,Version.expandInputs]
    intro f hf
    repeat' split at hf
    all_goals first
      | exact first f hf
      | exact parents _ f hf
      | exact addBoundaryInputs_subset _ _ (getOverlappingInputs_subset v _ _ _) f hf

theorem pickCompaction_within (v : Version K) (o : Options K V) (pointer : Nat → Option (InternalKey K))
    (trigger : Trigger K) (due : v.due trigger = true) : (v.pickCompaction o pointer trigger).Within v := by
  obtain ⟨level,f,deep,member,picked⟩ := v.pickCompaction_eq o pointer trigger due
  rw [picked]
  refine setupOtherInputs_within v o level deep _ fun g hg => ?_
  split at hg
  · rename_i zero
    rw [zero]
    exact getOverlappingInputs_subset v _ _ _ g hg
  · exact List.mem_singleton.mp hg ▸ member

theorem compactRange_within (v : Version K) (o : Options K V) (level : Nat) (deep : level + 1 < kNumLevels)
    (first last : Option (InternalKey K)) (c : Compaction K)
    (chosen : v.compactRange o level first last = some c) : c.Within v := by
  have inputs := getOverlappingInputs_subset v level first last
  unfold Version.compactRange at chosen
  split at chosen
  · cases chosen
  · cases chosen
    refine setupOtherInputs_within v o level deep _ fun f hf => inputs f ?_
    split at hf
    · obtain ⟨rest,parts⟩ := takeUpTo_prefix o.maxFileSize 0 (v.getOverlappingInputs level first last)
      rw [parts]
      exact List.mem_append_left _ hf
    · exact hf

theorem Version.Builds.within {v : Version K} {o : Options K V} {c : Compaction K} (built : v.Builds o c) : c.Within v := by
  cases built with
  | pick pointer trigger due => exact pickCompaction_within v o pointer trigger due
  | range level first last c deep chosen => exact compactRange_within v o level deep first last c chosen

end Within

end LevelDB
