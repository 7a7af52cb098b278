import LevelDB.Compaction
import LevelDB.VersionLookup
import Mathlib.Data.List.TakeWhile

/-! What the choice of compaction inputs guarantees. At level 0 the inputs are all files
that meet a range of user keys and lie inside it; at a deeper level they are a segment of
the level that no user key crosses at its end. The inputs of the next level are the
segment that meets their range. -/
namespace LevelDB

variable {K V : Type} [LinearOrder K]

/-- The file meets the range of user keys; a missing end is open. -/
def Meets (first last : Option K) (f : FileMetaData K) : Prop :=
  (∀ u ∈ first, u ≤ f.largest.userKey) ∧ ∀ u ∈ last, f.smallest.userKey ≤ u

def Within (first last : Option K) (f : FileMetaData K) : Prop :=
  (∀ u ∈ first, u ≤ f.smallest.userKey) ∧ ∀ u ∈ last, f.largest.userKey ≤ u

def meets (first last : Option K) (f : FileMetaData K) : Bool :=
  !(afterFile first f || beforeFile last f)

theorem meets_iff (first last : Option K) (f : FileMetaData K) :
    meets first last f = true ↔ Meets first last f := by
  cases first <;> cases last <;> simp [meets,Meets,afterFile,beforeFile]

/-- The user key is in the range of the file. -/
def Spans (f : FileMetaData K) (u : K) : Prop := f.smallest.userKey ≤ u ∧ u ≤ f.largest.userKey

/-- A pass over the files collects those that meet the range, or finds a level-0 file
that meets it and sticks out. -/
theorem scanOverlapping_spec (level : Nat) (first last : Option K)
    (files inputs : List (FileMetaData K)) :
    (scanOverlapping level first last files inputs = .inl (inputs ++ files.filter (meets first last)) ∧
      (level = 0 → ∀ f ∈ files, Meets first last f → Within first last f)) ∨
    level = 0 ∧ ∃ f ∈ files, Meets first last f ∧
      ((∃ u, first = some u ∧ f.smallest.userKey < u ∧
        scanOverlapping level first last files inputs = .inr (some f.smallest.userKey,last)) ∨
      ∃ u, last = some u ∧ u < f.largest.userKey ∧
        scanOverlapping level first last files inputs = .inr (first,some f.largest.userKey)) := by
  induction files generalizing inputs with
  | nil => exact .inl ⟨by simp [scanOverlapping],by simp⟩
  | cons f files ih =>
    by_cases here : meets first last f = true
    · have met := (meets_iff first last f).mp here
      have notOut : (afterFile first f || beforeFile last f) = false := by simpa [meets] using here
      have unfolded : scanOverlapping level first last (f :: files) inputs =
          if level = 0 ∧ first.any (fun u => decide (f.smallest.userKey < u)) then
            .inr (some f.smallest.userKey,last)
          else if level = 0 ∧ last.any (fun u => decide (u < f.largest.userKey)) then
            .inr (first,some f.largest.userKey)
          else scanOverlapping level first last files (inputs ++ [f]) := by
        rw [scanOverlapping,notOut]
        simp
      rw [unfolded]
      by_cases low : level = 0 ∧ first.any (fun u => decide (f.smallest.userKey < u)) = true
      · obtain ⟨u,rfl⟩ : ∃ u, first = some u := by
          cases first with
          | none => simp at low
          | some u => exact ⟨u,rfl⟩
        right
        refine ⟨low.1,f,List.mem_cons_self,met,.inl ⟨u,rfl,?_,by rw [if_pos low]⟩⟩
        simpa using low.2
      rw [if_neg low]
      by_cases high : level = 0 ∧ last.any (fun u => decide (u < f.largest.userKey)) = true
      · obtain ⟨u,rfl⟩ : ∃ u, last = some u := by
          cases last with
          | none => simp at high
          | some u => exact ⟨u,rfl⟩
        right
        refine ⟨high.1,f,List.mem_cons_self,met,.inr ⟨u,rfl,?_,by rw [if_pos high]⟩⟩
        simpa using high.2
      rw [if_neg high]
      rcases ih (inputs ++ [f]) with ⟨result,inside⟩ | ⟨zero,g,hg,gmeets,restart⟩
      · left
        refine ⟨by rw [result]; simp [here],?_⟩
        intro zero g hg gmeets
        rcases List.mem_cons.mp hg with rfl | later
        · constructor
          · rintro u rfl
            simpa [zero] using low
          · rintro u rfl
            simpa [zero] using high
        · exact inside zero g later gmeets
      · exact .inr ⟨zero,g,List.mem_cons_of_mem f hg,gmeets,restart⟩
    · have out : (afterFile first f || beforeFile last f) = true := by
        simp only [meets,Bool.not_eq_true',Bool.not_eq_false] at here
        exact here
      have unfolded : scanOverlapping level first last (f :: files) inputs =
          scanOverlapping level first last files inputs := by
        rw [scanOverlapping,out]
        simp
      rw [unfolded]
      rcases ih inputs with ⟨result,inside⟩ | ⟨zero,g,hg,gmeets,restart⟩
      · left
        refine ⟨by rw [result]; simp [here],?_⟩
        intro zero g hg gmeets
        rcases List.mem_cons.mp hg with rfl | later
        · exact absurd ((meets_iff first last g).mpr gmeets) here
        · exact inside zero g later gmeets
      · exact .inr ⟨zero,g,List.mem_cons_of_mem f hg,gmeets,restart⟩

/-- How often the ends of the range can still move outwards. -/
def restarts (files : List (FileMetaData K)) (first last : Option K) : Nat :=
  files.countP (fun f => first.any fun u => decide (f.smallest.userKey < u)) +
    files.countP fun f => last.any fun u => decide (u < f.largest.userKey)

theorem countP_lt {α : Type} (p q : α → Bool) (l : List α) (imp : ∀ a ∈ l, p a → q a) (a : α)
    (member : a ∈ l) (out : ¬p a) (hit : q a) : l.countP p < l.countP q := by
  induction l with
  | nil => cases member
  | cons b l ih =>
    have rest : l.countP p ≤ l.countP q :=
      List.countP_mono_left fun c hc => imp c (List.mem_cons_of_mem b hc)
    rcases List.mem_cons.mp member with rfl | later
    · simp only [List.countP_cons,out,hit,if_true]
      simpa using Nat.lt_succ_of_le rest
    · have less := ih (fun c hc => imp c (List.mem_cons_of_mem b hc)) later
      have head := imp b List.mem_cons_self
      simp only [List.countP_cons]
      by_cases hp : p b = true
      · simp [hp,head hp,less]
      · by_cases hq : q b = true
        · simp [hp,hq]; omega
        · simp [hp,hq,less]

theorem restarts_first {files : List (FileMetaData K)} {f : FileMetaData K} {u : K} (last : Option K)
    (low : f.smallest.userKey < u) (member : f ∈ files) :
    restarts files (some f.smallest.userKey) last < restarts files (some u) last := by
  apply Nat.add_lt_add_right
  apply countP_lt _ _ files ?_ f member
  · simp
  · simpa using low
  · intro g hg lt
    simp only [Option.any_some,decide_eq_true_eq] at lt ⊢
    exact lt.trans low

theorem restarts_last {files : List (FileMetaData K)} {f : FileMetaData K} {u : K} (first : Option K)
    (high : u < f.largest.userKey) (member : f ∈ files) :
    restarts files first (some f.largest.userKey) < restarts files first (some u) := by
  apply Nat.add_lt_add_left
  apply countP_lt _ _ files ?_ f member
  · simp
  · simpa using high
  · intro g hg lt
    simp only [Option.any_some,decide_eq_true_eq] at lt ⊢
    exact high.trans lt

/-- Every user key between the two is in the range of some file. -/
def CoveredRange (files : List (FileMetaData K)) (first last : Option K) : Prop :=
  ∀ a ∈ first, ∀ b ∈ last, ∀ u, a ≤ u → u ≤ b → ∃ f ∈ files, Spans f u

/-- The range that a search ends with is at least as wide as the one it starts with. -/
def Wider (first last first' last' : Option K) : Prop :=
  (∀ f : FileMetaData K, Meets first last f → Meets first' last' f) ∧
    first'.isSome = first.isSome ∧ last'.isSome = last.isSome

/-- The files found are all those that meet a range, and at level 0 they lie inside it. If
the files, with others, cover the range at the start, they cover it at the end. -/
theorem overlappingLoop_spec (level : Nat) (files : List (FileMetaData K)) (fuel : Nat)
    (first last : Option K) (enough : restarts files first last < fuel) :
    ∃ first' last', overlappingLoop level files fuel first last = files.filter (meets first' last') ∧
      (level = 0 → ∀ f ∈ files, Meets first' last' f → Within first' last' f) ∧
      (level ≠ 0 → first' = first ∧ last' = last) ∧ Wider first last first' last' ∧
      ∀ others, (∀ f ∈ files, f ∈ others) → CoveredRange others first last →
        CoveredRange others first' last' := by
  induction fuel generalizing first last with
  | zero => omega
  | succ fuel ih =>
    rw [overlappingLoop]
    rcases scanOverlapping_spec level first last files [] with
      ⟨result,inside⟩ | ⟨zero,f,member,met,⟨u,rfl,low,result⟩ | ⟨u,rfl,high,result⟩⟩
    · rw [result]
      exact ⟨first,last,rfl,inside,fun _ => ⟨rfl,rfl⟩,⟨fun _ h => h,rfl,rfl⟩,fun _ _ h => h⟩
    · have fewer := restarts_first last low member
      rw [result]
      obtain ⟨first',last',found,inside,-,⟨wider,starts,ends⟩,covered⟩ :=
        ih (some f.smallest.userKey) last (by omega)
      refine ⟨first',last',found,inside,fun deep => absurd zero deep,⟨?_,starts,ends⟩,?_⟩
      · intro g gmeets
        refine wider g ⟨?_,gmeets.2⟩
        rintro a ⟨⟩
        exact low.le.trans (gmeets.1 u rfl)
      · intro others all before
        apply covered others all
        rintro a ⟨⟩ b hb v lower upper
        rcases le_total v u with less | more
        · exact ⟨f,all f member,lower,less.trans (met.1 u rfl)⟩
        · exact before u rfl b hb v more upper
    · have fewer := restarts_last first high member
      rw [result]
      obtain ⟨first',last',found,inside,-,⟨wider,starts,ends⟩,covered⟩ :=
        ih first (some f.largest.userKey) (by omega)
      refine ⟨first',last',found,inside,fun deep => absurd zero deep,⟨?_,starts,ends⟩,?_⟩
      · intro g gmeets
        refine wider g ⟨gmeets.1,?_⟩
        rintro a ⟨⟩
        exact (gmeets.2 u rfl).trans high.le
      · intro others all before
        apply covered others all
        rintro a ha b ⟨⟩ v lower upper
        rcases le_total v u with less | more
        · exact before a ha u rfl v lower less
        · exact ⟨f,all f member,(met.2 u rfl).trans more,upper⟩

theorem restarts_le (files : List (FileMetaData K)) (first last : Option K) :
    restarts files first last ≤ 2 * files.length := by
  have low := List.countP_le_length
    (p := fun f : FileMetaData K => first.any fun u => decide (f.smallest.userKey < u)) (l := files)
  have high := List.countP_le_length
    (p := fun f : FileMetaData K => last.any fun u => decide (u < f.largest.userKey)) (l := files)
  unfold restarts
  omega

theorem getOverlappingInputs_spec (v : Version K) (level : Nat) (first last : Option (InternalKey K)) :
    ∃ first' last', v.getOverlappingInputs level first last =
        (v.files level).filter (meets first' last') ∧
      (level = 0 → ∀ f ∈ v.files level, Meets first' last' f → Within first' last' f) ∧
      (level ≠ 0 → first' = first.map (·.userKey) ∧ last' = last.map (·.userKey)) ∧
      Wider (first.map (·.userKey)) (last.map (·.userKey)) first' last' ∧
      ∀ others, (∀ f ∈ v.files level, f ∈ others) →
        CoveredRange others (first.map (·.userKey)) (last.map (·.userKey)) →
        CoveredRange others first' last' :=
  overlappingLoop_spec level (v.files level) _ _ _ (Nat.lt_succ_of_le (restarts_le _ _ _))

/-- The files of a deeper level: each is before the next. -/
structure LevelOrder (files : List (FileMetaData K)) : Prop where
  disjoint : files.Pairwise fun f g => f.largest < g.smallest
  range : ∀ f ∈ files, f.smallest ≤ f.largest

/-- The deeper levels are in order. Level 0 may be anything. -/
structure Version.Sorted (v : Version K) : Prop where
  range : ∀ level, ∀ f ∈ v.files level, f.smallest ≤ f.largest
  disjoint : ∀ level, 1 ≤ level → (v.files level).Pairwise fun f g => f.largest < g.smallest

theorem Version.Wf.sorted {v : Version K} {tables : Tables K V} (wf : v.Wf tables) : v.Sorted :=
  ⟨fun level f hf => (wf.holds level f hf).range,wf.disjoint⟩

theorem Version.Sorted.levelOrder {v : Version K} (sorted : v.Sorted) (level : Nat) (deep : 1 ≤ level) :
    LevelOrder (v.files level) :=
  ⟨sorted.disjoint level deep,sorted.range level⟩

theorem not_of_mem_dropWhile {α : Type} (p : α → Bool) (l : List α)
    (order : l.Pairwise fun a b => p b = true → p a = true) :
    ∀ a ∈ l.dropWhile p, p a = false := by
  induction l with
  | nil => simp
  | cons b l ih =>
    obtain ⟨head,tail⟩ := List.pairwise_cons.mp order
    intro a member
    rw [List.dropWhile_cons] at member
    split at member
    · exact ih tail a member
    · rename_i stopped
      rcases List.mem_cons.mp member with rfl | later
      · simpa using stopped
      · by_contra hit
        exact stopped (head a later (by simpa using hit))

/-- The files of a level that meet a range are a segment of it. -/
theorem LevelOrder.segment {files : List (FileMetaData K)} (order : LevelOrder files)
    (first last : Option K) :
    ∃ before after, files = before ++ files.filter (meets first last) ++ after ∧
      (∀ f ∈ before, ∃ u ∈ first, f.largest.userKey < u) ∧
      ∀ f ∈ after, ∃ u ∈ last, u < f.smallest.userKey := by
  have users : files.Pairwise fun f g => f.largest.userKey ≤ g.smallest.userKey :=
    order.disjoint.imp fun lt => InternalKey.userKey_le lt.le
  have early : files.Pairwise fun f g => afterFile first g = true → afterFile first f = true := by
    refine users.imp_of_mem ?_
    intro f g hf hg le
    have range := InternalKey.userKey_le (order.range g hg)
    cases first with
    | none => simp [afterFile]
    | some u =>
      simp only [afterFile,Option.any_some,decide_eq_true_eq]
      exact fun lt => lt_of_le_of_lt (le.trans range) lt
  have late : files.Pairwise fun f g => (!beforeFile last g) = true → (!beforeFile last f) = true := by
    refine users.imp_of_mem ?_
    intro f g hf hg le
    have range := InternalKey.userKey_le (order.range f hf)
    cases last with
    | none => simp [beforeFile]
    | some u =>
      simp only [beforeFile,Option.any_some,Bool.not_eq_true',decide_eq_false_iff_not,not_lt]
      exact fun ge => (range.trans le).trans ge
  set rest := files.dropWhile (afterFile first) with hrest
  have whole : files = files.takeWhile (afterFile first) ++ rest :=
    (List.takeWhile_append_dropWhile).symm
  have parts : rest = rest.takeWhile (fun f => !beforeFile last f) ++
      rest.dropWhile fun f => !beforeFile last f := (List.takeWhile_append_dropWhile).symm
  have sub : List.Sublist rest files := (List.dropWhile_suffix _).sublist
  have notAfter := not_of_mem_dropWhile _ files early
  have notBefore := not_of_mem_dropWhile _ rest (late.sublist sub)
  have middle : files.filter (meets first last) = rest.takeWhile fun f => !beforeFile last f := by
    conv_lhs => rw [whole,parts]
    rw [List.filter_append,List.filter_append]
    have none : (files.takeWhile (afterFile first)).filter (meets first last) = [] := by
      rw [List.filter_eq_nil_iff]
      intro f hf
      simp [meets,List.mem_takeWhile_imp hf]
    have noneAfter : (rest.dropWhile fun f => !beforeFile last f).filter (meets first last) = [] := by
      rw [List.filter_eq_nil_iff]
      intro f hf
      have := notBefore f hf
      simp only [Bool.not_eq_false'] at this
      simp [meets,this]
    have all : (rest.takeWhile fun f => !beforeFile last f).filter (meets first last) =
        rest.takeWhile fun f => !beforeFile last f := by
      rw [List.filter_eq_self]
      intro f hf
      have outside := notAfter f ((List.takeWhile_prefix _).subset hf)
      have inside := List.mem_takeWhile_imp hf
      simp only [Bool.not_eq_true'] at inside
      simp [meets,outside,inside]
    rw [none,noneAfter,all]
    simp
  refine ⟨files.takeWhile (afterFile first),rest.dropWhile fun f => !beforeFile last f,?_,?_,?_⟩
  · rw [middle,List.append_assoc,← parts,← whole]
  · intro f hf
    have hit := List.mem_takeWhile_imp hf
    cases first with
    | none => simp [afterFile] at hit
    | some u => exact ⟨u,rfl,by simpa [afterFile] using hit⟩
  · intro f hf
    have hit := notBefore f hf
    cases last with
    | none => simp [beforeFile] at hit
    | some u => exact ⟨u,rfl,by simpa [beforeFile] using hit⟩

theorem findLargestKey_spec (files : List (FileMetaData K)) (nonempty : files ≠ []) :
    ∃ key, findLargestKey files = some key ∧ (∃ f ∈ files, f.largest = key) ∧
      ∀ f ∈ files, f.largest ≤ key := by
  obtain ⟨f,rest,rfl⟩ := List.exists_cons_of_ne_nil nonempty
  refine ⟨_,rfl,?_⟩
  suffices fold : ∀ (rest : List (FileMetaData K)) (key : InternalKey K),
      (rest.foldl (fun key g => if key < g.largest then g.largest else key) key = key ∨
        ∃ g ∈ rest, g.largest =
          rest.foldl (fun key g => if key < g.largest then g.largest else key) key) ∧
      key ≤ rest.foldl (fun key g => if key < g.largest then g.largest else key) key ∧
      ∀ g ∈ rest, g.largest ≤
        rest.foldl (fun key g => if key < g.largest then g.largest else key) key by
    obtain ⟨source,least,most⟩ := fold rest f.largest
    constructor
    · rcases source with same | ⟨g,hg,same⟩
      · exact ⟨f,List.mem_cons_self,same.symm⟩
      · exact ⟨g,List.mem_cons_of_mem f hg,same⟩
    · intro g hg
      rcases List.mem_cons.mp hg with rfl | later
      · exact least
      · exact most g later
  intro rest
  induction rest with
  | nil => intro key; simp
  | cons g rest ih =>
    intro key
    rw [List.foldl_cons]
    obtain ⟨source,least,most⟩ := ih (if key < g.largest then g.largest else key)
    by_cases lt : key < g.largest
    · simp only [if_pos lt] at source least most ⊢
      refine ⟨.inr ?_,lt.le.trans least,?_⟩
      · rcases source with same | ⟨h,hh,same⟩
        · exact ⟨g,List.mem_cons_self,same.symm⟩
        · exact ⟨h,List.mem_cons_of_mem g hh,same⟩
      · intro h hh
        rcases List.mem_cons.mp hh with rfl | later
        · exact least
        · exact most h later
    · simp only [if_neg lt] at source least most ⊢
      refine ⟨?_,least,?_⟩
      · rcases source with same | ⟨h,hh,same⟩
        · exact .inl same
        · exact .inr ⟨h,List.mem_cons_of_mem g hh,same⟩
      · intro h hh
        rcases List.mem_cons.mp hh with rfl | later
        · exact (not_lt.mp lt).trans least
        · exact most h later

/-- A file that starts after the key and with its user key. -/
def Boundary (key : InternalKey K) (f : FileMetaData K) : Prop :=
  key < f.smallest ∧ f.smallest.userKey = key.userKey

theorem findSmallestBoundaryFile_spec (files : List (FileMetaData K)) (key : InternalKey K) :
    match findSmallestBoundaryFile files key with
    | none => ∀ f ∈ files, ¬Boundary key f
    | some b => b ∈ files ∧ Boundary key b ∧ ∀ f ∈ files, Boundary key f → b.smallest ≤ f.smallest := by
  suffices fold : ∀ (rest done : List (FileMetaData K)) (best : Option (FileMetaData K)),
      (match best with
        | none => ∀ f ∈ done, ¬Boundary key f
        | some b => b ∈ done ∧ Boundary key b ∧
          ∀ f ∈ done, Boundary key f → b.smallest ≤ f.smallest) →
      match rest.foldl (fun best f =>
        if key < f.smallest ∧ f.smallest.userKey = key.userKey then
          match best with
          | none => some f
          | some b => if f.smallest < b.smallest then some f else some b
        else best) best with
      | none => ∀ f ∈ done ++ rest, ¬Boundary key f
      | some b => b ∈ done ++ rest ∧ Boundary key b ∧
        ∀ f ∈ done ++ rest, Boundary key f → b.smallest ≤ f.smallest by
    exact fold files [] none (by simp)
  intro rest
  induction rest with
  | nil => intro done best found; simpa using found
  | cons g rest ih =>
    intro done best found
    rw [List.foldl_cons,show done ++ g :: rest = (done ++ [g]) ++ rest by simp]
    apply ih
    by_cases hit : key < g.smallest ∧ g.smallest.userKey = key.userKey
    · rw [if_pos hit]
      cases best with
      | none =>
        refine ⟨by simp,hit,?_⟩
        intro f hf boundary
        rcases List.mem_append.mp hf with old | new
        · exact absurd boundary (found f old)
        · rw [List.mem_singleton.mp new]
      | some b =>
        obtain ⟨member,boundary,least⟩ := found
        by_cases lt : g.smallest < b.smallest
        · simp only [if_pos lt]
          refine ⟨by simp,hit,?_⟩
          intro f hf hb
          rcases List.mem_append.mp hf with old | new
          · exact lt.le.trans (least f old hb)
          · rw [List.mem_singleton.mp new]
        · simp only [if_neg lt]
          refine ⟨List.mem_append_left _ member,boundary,?_⟩
          intro f hf hb
          rcases List.mem_append.mp hf with old | new
          · exact least f old hb
          · rw [List.mem_singleton.mp new]
            exact not_lt.mp lt
    · rw [if_neg hit]
      cases best with
      | none =>
        intro f hf boundary
        rcases List.mem_append.mp hf with old | new
        · exact found f old boundary
        · rw [List.mem_singleton.mp new] at boundary
          exact hit boundary
      | some b =>
        obtain ⟨member,boundary,least⟩ := found
        refine ⟨List.mem_append_left _ member,boundary,?_⟩
        intro f hf hb
        rcases List.mem_append.mp hf with old | new
        · exact least f old hb
        · rw [List.mem_singleton.mp new] at hb
          exact absurd hb hit

/-- Every user key between two of the files is in the range of one of `cover`. -/
def HullCovered (files cover : List (FileMetaData K)) : Prop :=
  ∀ f ∈ files, ∀ g ∈ files, ∀ u, f.smallest.userKey ≤ u → u ≤ g.largest.userKey →
    ∃ h ∈ cover, Spans h u

theorem hullCovered_singleton (f : FileMetaData K) : HullCovered [f] [f] := by
  intro g hg h hh u lower upper
  rw [List.mem_singleton] at hg hh
  rw [hg] at lower
  rw [hh] at upper
  exact ⟨f,List.mem_singleton.mpr rfl,lower,upper⟩

theorem HullCovered.mono {files cover more : List (FileMetaData K)} (covered : HullCovered files cover)
    (subset : ∀ f ∈ cover, f ∈ more) : HullCovered files more := by
  intro f hf g hg u lower upper
  obtain ⟨h,hh,spans⟩ := covered f hf g hg u lower upper
  exact ⟨h,subset h hh,spans⟩

/-- A file that shares a user key with one of the files leaves no new gap. -/
theorem HullCovered.extend {files cover : List (FileMetaData K)} (covered : HullCovered files cover)
    (b near : FileMetaData K) (member : near ∈ files)
    (low : near.smallest.userKey ≤ b.largest.userKey)
    (high : b.smallest.userKey ≤ near.largest.userKey) :
    HullCovered (files ++ [b]) (cover ++ [b]) := by
  intro f hf g hg u lower upper
  by_cases inside : Spans b u
  · exact ⟨b,by simp,inside⟩
  -- the new file is on one side of the key, and the file next to it takes its place
  have left : ∃ f' ∈ files, f'.smallest.userKey ≤ u := by
    rcases List.mem_append.mp hf with old | new
    · exact ⟨f,old,lower⟩
    · rw [List.mem_singleton.mp new] at lower
      have beyond : b.largest.userKey < u := by
        by_contra below
        exact inside ⟨lower,not_lt.mp below⟩
      exact ⟨near,member,low.trans beyond.le⟩
  have right : ∃ g' ∈ files, u ≤ g'.largest.userKey := by
    rcases List.mem_append.mp hg with old | new
    · exact ⟨g,old,upper⟩
    · rw [List.mem_singleton.mp new] at upper
      have ahead : u < b.smallest.userKey := by
        by_contra above
        exact inside ⟨not_lt.mp above,upper⟩
      exact ⟨near,member,ahead.le.trans high⟩
  obtain ⟨f',hf',start⟩ := left
  obtain ⟨g',hg',finish⟩ := right
  obtain ⟨h,hh,spans⟩ := covered f' hf' g' hg' u start finish
  exact ⟨h,List.mem_append_left _ hh,spans⟩

/-- At a deeper level the boundary files are the next of the level, as long as each starts
with the user key its predecessor ends with. -/
theorem addBoundaryLoop_spec (files : List (FileMetaData K)) (order : LevelOrder files) (fuel : Nat)
    (key : InternalKey K) (before inputs after : List (FileMetaData K))
    (split : files = before ++ inputs ++ after) (enough : after.length < fuel)
    (top : ∃ f ∈ inputs, f.largest = key) (highest : ∀ f ∈ before ++ inputs, f.largest ≤ key) :
    ∃ chain after', after = chain ++ after' ∧
      addBoundaryLoop files fuel key inputs = inputs ++ chain ∧
      (∀ f ∈ inputs ++ chain, ∀ h ∈ after', f.largest.userKey < h.smallest.userKey) ∧
      ∀ all cover, (∀ f ∈ inputs, f ∈ all) → HullCovered all cover →
        HullCovered (all ++ chain) (cover ++ chain) := by
  induction fuel generalizing key inputs after with
  | zero => omega
  | succ fuel ih =>
    obtain ⟨last,member,largest⟩ := top
    have later : ∀ h ∈ after, key < h.smallest := by
      intro h hh
      have pairs := order.disjoint
      rw [split] at pairs
      rw [← largest]
      exact (List.pairwise_append.mp pairs).2.2 last (List.mem_append_right _ member) h hh
    have inAfter : ∀ f ∈ files, key < f.smallest → f ∈ after := by
      intro f hf lt
      rw [split] at hf
      rcases List.mem_append.mp hf with old | new
      · have range := order.range f (by rw [split]; exact List.mem_append_left _ old)
        exact absurd (range.trans (highest f old)) (not_le_of_gt lt)
      · exact new
    have userKeys : ∀ f ∈ inputs, f.largest.userKey ≤ key.userKey := fun f hf =>
      InternalKey.userKey_le (highest f (List.mem_append_right _ hf))
    rw [addBoundaryLoop]
    have spec := findSmallestBoundaryFile_spec files key
    cases found : findSmallestBoundaryFile files key with
    | none =>
      rw [found] at spec
      refine ⟨[],after,rfl,by simp,?_,?_⟩
      · intro f hf h hh
        rw [List.append_nil] at hf
        have inFiles : h ∈ files := by rw [split]; exact List.mem_append_right _ hh
        have ge := InternalKey.userKey_le (later h hh).le
        refine lt_of_le_of_lt (userKeys f hf) (lt_of_le_of_ne ge ?_)
        exact fun same => spec h inFiles ⟨later h hh,same.symm⟩
      · intro all cover _ covered
        simpa using covered
    | some b =>
      rw [found] at spec
      obtain ⟨inFiles,boundary,least⟩ := spec
      have inside := inAfter b inFiles boundary.1
      obtain ⟨h,rest,rfl⟩ := List.exists_cons_of_ne_nil (List.ne_nil_of_mem inside)
      -- the next file of the level is the smallest boundary file
      have next : b = h := by
        rcases List.mem_cons.mp inside with same | beyond
        · exact same
        have pairs := order.disjoint
        rw [split] at pairs
        have lt := (List.pairwise_cons.mp (List.pairwise_append.mp pairs).2.1).1 b beyond
        have hFiles : h ∈ files := by rw [split]; simp
        have range := order.range h hFiles
        have headLater := later h List.mem_cons_self
        have user : h.smallest.userKey = key.userKey := by
          apply le_antisymm
          · rw [← boundary.2]
            exact InternalKey.userKey_le (range.trans lt.le)
          · exact InternalKey.userKey_le headLater.le
        have le := least h hFiles ⟨headLater,user⟩
        exact absurd (lt_of_lt_of_le (lt_of_le_of_lt range lt) le) (lt_irrefl _)
      subst next
      have pairs := order.disjoint
      obtain ⟨chain,after',restSplit,result,apart,connects⟩ := ih b.largest (inputs ++ [b]) rest
        (by rw [split]; simp) (by simp only [List.length_cons] at enough; omega)
        ⟨b,by simp,rfl⟩ (by
          intro f hf
          have range := order.range b inFiles
          rcases List.mem_append.mp hf with old | new
          · exact (highest f (List.mem_append_left _ old)).trans (boundary.1.le.trans range)
          · rcases List.mem_append.mp new with old | last
            · exact (highest f (List.mem_append_right _ old)).trans (boundary.1.le.trans range)
            · rw [List.mem_singleton.mp last])
      refine ⟨b :: chain,after',by rw [restSplit]; rfl,by simpa using result,?_,?_⟩
      · intro f hf
        exact apart f (by simpa using hf)
      · intro all cover subset covered
        have lastRange := order.range last (by rw [split]; simp [member])
        have bRange := order.range b inFiles
        have extended := covered.extend b last (subset last member)
          (InternalKey.userKey_le (lastRange.trans (largest.le.trans (boundary.1.le.trans bRange))))
          (by rw [largest,boundary.2])
        have chained := connects _ _ (by
          intro f hf
          rcases List.mem_append.mp hf with old | new
          · exact List.mem_append_left _ (subset f old)
          · exact List.mem_append_right _ new) extended
        simpa using chained

/-- Boundary files added to a segment of a deeper level. -/
theorem LevelOrder.addBoundaryInputs {files : List (FileMetaData K)} (order : LevelOrder files)
    (before inputs after : List (FileMetaData K)) (split : files = before ++ inputs ++ after)
    (nonempty : inputs ≠ []) :
    ∃ chain after', after = chain ++ after' ∧ addBoundaryInputs files inputs = inputs ++ chain ∧
      (∀ f ∈ inputs ++ chain, ∀ h ∈ after', f.largest.userKey < h.smallest.userKey) ∧
      ∀ all cover, (∀ f ∈ inputs, f ∈ all) → HullCovered all cover →
        HullCovered (all ++ chain) (cover ++ chain) := by
  obtain ⟨key,found,⟨f,hf,same⟩,highest⟩ := findLargestKey_spec inputs nonempty
  have result : LevelDB.addBoundaryInputs files inputs =
      addBoundaryLoop files (files.length + 1) key inputs := by
    simp [LevelDB.addBoundaryInputs,found]
  rw [result]
  refine addBoundaryLoop_spec files order _ key before inputs after split ?_ ⟨f,hf,same⟩ ?_
  · rw [split]; simp; omega
  · intro g hg
    rcases List.mem_append.mp hg with early | late
    · have pairs := order.disjoint
      rw [split] at pairs
      have lt := (List.pairwise_append.mp (List.pairwise_append.mp pairs).1).2.2 g early f hf
      have range := order.range f (by rw [split]; simp [hf])
      rw [← same]
      exact lt.le.trans range
    · exact highest g late

/-- At level 0 a set that is closed under overlap has no boundary files. -/
theorem addBoundaryInputs_level0 (files : List (FileMetaData K)) (first last : Option K)
    (range : ∀ f ∈ files, f.smallest ≤ f.largest)
    (inside : ∀ f ∈ files, Meets first last f → Within first last f) :
    addBoundaryInputs files (files.filter (meets first last)) = files.filter (meets first last) := by
  by_cases none : files.filter (meets first last) = []
  · rw [none]; rfl
  obtain ⟨key,found,⟨g,hg,same⟩,highest⟩ := findLargestKey_spec _ none
  obtain ⟨gFiles,gMeets⟩ := List.mem_filter.mp hg
  have gMeets := (meets_iff _ _ _).mp gMeets
  rw [addBoundaryInputs,found]
  simp only [addBoundaryLoop]
  have spec := findSmallestBoundaryFile_spec files key
  cases boundary : findSmallestBoundaryFile files key with
  | none => rfl
  | some b =>
    rw [boundary] at spec
    obtain ⟨bFiles,⟨lt,user⟩,-⟩ := spec
    have bRange := range b bFiles
    have met : Meets first last b := by
      constructor
      · intro u hu
        calc u ≤ g.largest.userKey := gMeets.1 u hu
          _ = b.smallest.userKey := by rw [same,user]
          _ ≤ b.largest.userKey := InternalKey.userKey_le bRange
      · intro u hu
        rw [user,← same]
        exact (inside g gFiles gMeets).2 u hu
    have low := highest b (List.mem_filter.mpr ⟨bFiles,(meets_iff _ _ _).mpr met⟩)
    exact absurd (lt_of_lt_of_le lt bRange) (not_lt_of_ge low)

end LevelDB
