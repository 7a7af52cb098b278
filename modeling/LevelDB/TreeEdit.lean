import LevelDB.CompactionChoice
import LevelDB.FlushLevel
import LevelDB.VersionBuilder

/-! How a flush and a compaction change a well-formed version. A flushed table is newer
than everything and misses the levels it skips; the merge of closed inputs takes their
place at the next level. -/
namespace LevelDB

variable {K V : Type} [LinearOrder K]

theorem either_of_pairwise {α : Type} {R : α → α → Prop} {l : List α} (pairs : l.Pairwise R) (a b : α)
    (ha : a ∈ l) (hb : b ∈ l) (ne : a ≠ b) : R a b ∨ R b a := by
  have pairs := List.pairwise_iff_getElem.mp pairs
  obtain ⟨i,hi,rfl⟩ := List.mem_iff_getElem.mp ha
  obtain ⟨j,hj,rfl⟩ := List.mem_iff_getElem.mp hb
  rcases lt_trichotomy i j with lt | rfl | lt
  · exact .inl (pairs i j hi hj lt)
  · exact absurd rfl ne
  · exact .inr (pairs j i hj hi lt)

/-- Files in the order of their smallest keys that do not overlap are each before the next. -/
theorem disjoint_of_apart (files : List (FileMetaData K)) (order : InOrder files)
    (range : ∀ f ∈ files, f.smallest ≤ f.largest)
    (apart : ∀ f ∈ files, ∀ g ∈ files, f ≠ g → f.largest < g.smallest ∨ g.largest < f.smallest) :
    files.Pairwise fun f g => f.largest < g.smallest := by
  refine order.imp_of_mem ?_
  intro f g hf hg before
  have ne : f ≠ g := by
    rintro rfl
    exact BySmallestKey.irrefl f before
  rcases apart f hf g hg ne with lt | lt
  · exact lt
  · have wrong := lt_of_le_of_lt (range g hg) lt
    rcases before with less | ⟨same,-⟩
    · exact absurd less (not_lt_of_gt wrong)
    · exact absurd wrong (by simp [same])

/-- Entries of one user key, one before the other in internal order: the first is newer. -/
theorem newer_of_key_lt {S : Set (Entry K V)} (distinct : Distinct S) {a b : Entry K V} (ha : a ∈ S)
    (hb : b ∈ S) (same : a.userKey = b.userKey) (lt : a.key < b.key) : b.sequence < a.sequence := by
  refine lt_of_le_of_ne (sequence_le_of_key_le same lt.le) ?_
  intro equal
  have := distinct a ha b hb same equal.symm
  subst this
  exact lt_irrefl _ lt

section Files
variable {tables : Tables K V} {f g : FileMetaData K}

theorem not_same_user (hf : f.Holds tables) (hg : g.Holds tables)
    (missed : Misses g.smallest.userKey g.largest.userKey f) (a b : Entry K V)
    (ha : a ∈ tables f.number) (hb : b ∈ tables g.number) : a.userKey ≠ b.userKey := by
  have left := hf.user_le a ha
  have right := hg.user_le b hb
  rintro same
  rcases missed with lt | lt
  · exact absurd (lt_of_le_of_lt (right.1.trans (same.symm.le.trans left.2)) lt) (lt_irrefl _)
  · exact absurd (lt_of_le_of_lt (left.1.trans (same.le.trans right.2)) lt) (lt_irrefl _)

end Files

/-- `v'` is `v` with one more file. -/
structure Version.Adds (v v' : Version K) (level : Nat) (m : FileMetaData K) : Prop where
  order : ∀ l, InOrder (v'.files l)
  members : ∀ l f, f ∈ v'.files l ↔ (l = level ∧ f = m) ∨ f ∈ v.files l

/-- What makes a table fit to be added by a flush. -/
structure Version.Flushable (v : Version K) (tables : Tables K V) (level : Nat) (m : FileMetaData K) :
    Prop where
  shallow : level < kNumLevels
  holds : m.Holds tables
  fresh : ∀ l, ∀ f ∈ v.files l, f.number < m.number
  newest : Newer (tableSet tables m) (v.entries tables)
  misses : 1 ≤ level → ∀ l, l ≤ level → ∀ f ∈ v.files l, Misses m.smallest.userKey m.largest.userKey f

section Add
variable {v v' : Version K} {tables : Tables K V} {level : Nat} {m : FileMetaData K}

/-- Two files of a deeper level do not overlap. -/
theorem Version.Wf.apart (wf : v.Wf tables) {level : Nat} (deep : 1 ≤ level) (f g : FileMetaData K)
    (hf : f ∈ v.files level) (hg : g ∈ v.files level) (ne : f ≠ g) :
    f.largest < g.smallest ∨ g.largest < f.smallest :=
  either_of_pairwise (wf.disjoint level deep) f g hf hg ne

theorem Version.Adds.entriesAt (adds : v.Adds v' level m) (l : Nat) (e : Entry K V) :
    e ∈ v'.entriesAt tables l ↔ (l = level ∧ e ∈ tables m.number) ∨ e ∈ v.entriesAt tables l := by
  constructor
  · rintro ⟨f,hf,he⟩
    rcases (adds.members l f).mp hf with ⟨same,rfl⟩ | old
    · exact .inl ⟨same,he⟩
    · exact .inr ⟨f,old,he⟩
  · rintro (⟨same,he⟩ | ⟨f,hf,he⟩)
    · exact ⟨m,(adds.members l m).mpr (.inl ⟨same,rfl⟩),he⟩
    · exact ⟨f,(adds.members l f).mpr (.inr hf),he⟩

theorem Version.Adds.entries (adds : v.Adds v' level m) :
    v'.entries tables = tableSet tables m ∪ v.entries tables := by
  ext e
  constructor
  · rintro ⟨l,he⟩
    rcases (adds.entriesAt l e).mp he with ⟨-,new⟩ | old
    · exact .inl new
    · exact .inr ⟨l,old⟩
  · rintro (new | ⟨l,old⟩)
    · exact ⟨level,(adds.entriesAt level e).mpr (.inl ⟨rfl,new⟩)⟩
    · exact ⟨l,(adds.entriesAt l e).mpr (.inr old)⟩

theorem Version.Wf.add (wf : v.Wf tables) (adds : v.Adds v' level m)
    (flush : v.Flushable tables level m) : v'.Wf tables := by
  have holds : ∀ l, ∀ f ∈ v'.files l, f.Holds tables := by
    intro l f hf
    rcases (adds.members l f).mp hf with ⟨-,rfl⟩ | old
    · exact flush.holds
    · exact wf.holds l f old
  have apart : 1 ≤ level → ∀ f ∈ v.files level, m.largest < f.smallest ∨ f.largest < m.smallest := by
    intro deep f hf
    rcases flush.misses deep level (le_refl _) f hf with lt | lt
    · exact .inr (InternalKey.lt_of_userKey lt)
    · exact .inl (InternalKey.lt_of_userKey lt)
  refine ⟨holds,adds.order,?_,?_,?_,?_,?_⟩
  · intro l deep
    refine disjoint_of_apart _ (adds.order l) (fun f hf => (holds l f hf).range) ?_
    intro f hf g hg ne
    rcases (adds.members l f).mp hf with ⟨same,rfl⟩ | oldf <;>
      rcases (adds.members l g).mp hg with ⟨same',rfl⟩ | oldg
    · exact absurd rfl ne
    · subst same
      exact apart deep g oldg
    · subst same'
      exact (apart deep f oldf).symm
    · exact wf.apart deep f g oldf oldg ne
  · intro l deep
    rw [List.eq_nil_iff_forall_not_mem]
    intro f hf
    rcases (adds.members l f).mp hf with ⟨rfl,-⟩ | old
    · exact absurd flush.shallow (not_lt_of_ge deep)
    · rw [wf.levels l deep] at old
      cases old
  · intro l l' f g hf hg same
    rcases (adds.members l f).mp hf with ⟨rfl,rfl⟩ | oldf <;>
      rcases (adds.members l' g).mp hg with ⟨rfl,rfl⟩ | oldg
    · exact ⟨rfl,rfl⟩
    · exact absurd (flush.fresh l' g oldg) (by omega)
    · exact absurd (flush.fresh l f oldf) (by omega)
    · exact wf.unique l l' f g oldf oldg same
  · intro f hf g hg lt
    rcases (adds.members 0 f).mp hf with ⟨-,rfl⟩ | oldf <;>
      rcases (adds.members 0 g).mp hg with ⟨-,rfl⟩ | oldg
    · exact absurd lt (lt_irrefl _)
    · exact flush.newest.mono Set.Subset.rfl fun e he => ⟨0,g,oldg,he⟩
    · exact absurd (flush.fresh 0 f oldf) (by omega)
    · exact wf.recent0 f oldf g oldg lt
  · intro l l' lt a ha b hb same
    rcases (adds.entriesAt l a).mp ha with ⟨rfl,newa⟩ | olda <;>
      rcases (adds.entriesAt l' b).mp hb with ⟨rfl,newb⟩ | oldb
    · exact absurd lt (lt_irrefl _)
    · exact flush.newest a newa b ⟨l',oldb⟩ same
    · obtain ⟨f,hf,he⟩ := olda
      have missed := flush.misses (by omega) l lt.le f hf
      exact absurd same (not_same_user (wf.holds l f hf) flush.holds missed a b he newb)
    · exact wf.recent l l' lt a olda b oldb same

end Add

/-- A compaction that may still be installed in the version: nothing that came since it
was set up stands between its inputs. -/
structure Compaction.Safe (c : Compaction K) (v : Version K) (tables : Tables K V) : Prop where
  level : c.level + 1 < kNumLevels
  own : ∀ f ∈ c.inputs0, f ∈ v.files c.level
  parents : ∀ f ∈ c.inputs1, f ∈ v.files (c.level + 1)
  beside : ∀ f ∈ v.files c.level, f ∉ c.inputs0 → Newer (tableSet tables f) (filesSet tables c.inputs)
  around : ∀ h ∈ v.files (c.level + 1), h ∉ c.inputs1 →
    (∀ g ∈ c.inputs, h.largest < g.smallest) ∨ ∀ g ∈ c.inputs, g.largest.userKey < h.smallest.userKey
  below : ∀ l, c.level + 2 ≤ l → ∀ f ∈ v.files l, f ∈ c.inputVersion.files l ∨
    ∀ g ∈ c.inputs, Misses g.smallest.userKey g.largest.userKey f

/-- A flush during the compaction stays out of the range of its outputs: at their level
the table lies on one side of all inputs. -/
def Compaction.Clear (c : Compaction K) (level : Nat) (smallest largest : K) : Prop :=
  level = c.level + 1 → (∀ g ∈ c.inputs, largest < g.smallest.userKey) ∨
    ∀ g ∈ c.inputs, g.largest.userKey < smallest

section Safe
variable {v v' : Version K} {tables : Tables K V} {c : Compaction K}

theorem Compaction.Safe.member (safe : c.Safe v tables) (g : FileMetaData K) (member : g ∈ c.inputs) :
    g ∈ v.files c.level ∨ g ∈ v.files (c.level + 1) := by
  rcases List.mem_append.mp member with own | parent
  · exact .inl (safe.own g own)
  · exact .inr (safe.parents g parent)

theorem Compaction.Safe.holds (wf : v.Wf tables) (safe : c.Safe v tables) (g : FileMetaData K)
    (member : g ∈ c.inputs) : g.Holds tables := by
  rcases safe.member g member with own | parent
  · exact wf.holds _ g own
  · exact wf.holds _ g parent

/-- Closed inputs are safe in the version they were chosen from. -/
theorem Compaction.Closed.safe (wf : v.Wf tables) (distinct : Distinct (v.entries tables))
    (closed : c.Closed v) : c.Safe v tables := by
  have own := fun f hf => closed.own.sublist.subset (a := f) hf
  have parents := fun f hf => closed.parents.subset (a := f) hf
  refine ⟨closed.level,own,parents,?_,closed.around,?_⟩
  · rintro f hf out a ha b ⟨g,hg,hb⟩ same
    rcases List.mem_append.mp hg with mine | parent
    · have holds := wf.holds _ g (own g mine)
      rcases closed.own.beside f hf out g mine with lt | lt
      · refine newer_of_key_lt distinct ⟨_,f,hf,ha⟩ ⟨_,g,own g mine,hb⟩ same ?_
        exact lt_of_le_of_lt ((wf.holds _ f hf).le_largest a ha)
          (lt_of_lt_of_le lt (holds.smallest_le b hb))
      · exact absurd same (not_same_user (wf.holds _ f hf) holds (.inr lt) a b ha hb)
    · exact wf.recent c.level (c.level + 1) (by omega) a ⟨f,hf,ha⟩ b
        ⟨g,parents g parent,hb⟩ same
  · intro l _ f hf
    rw [closed.version]
    exact .inl hf

/-- A flush that is clear of the compaction leaves it safe. -/
theorem Compaction.Safe.add {level : Nat} {m : FileMetaData K}
    (safe : c.Safe v tables) (adds : v.Adds v' level m) (flush : v.Flushable tables level m)
    (clear : c.Clear level m.smallest.userKey m.largest.userKey) : c.Safe v' tables := by
  have member := safe.member
  refine ⟨safe.level,fun f hf => (adds.members _ f).mpr (.inr (safe.own f hf)),
    fun f hf => (adds.members _ f).mpr (.inr (safe.parents f hf)),?_,?_,?_⟩
  · intro f hf out
    rcases (adds.members _ f).mp hf with ⟨-,rfl⟩ | old
    · refine flush.newest.mono Set.Subset.rfl ?_
      rintro e ⟨g,hg,he⟩
      rcases member g hg with own | parent
      · exact ⟨_,g,own,he⟩
      · exact ⟨_,g,parent,he⟩
    · exact safe.beside f old out
  · intro h hh out
    rcases (adds.members _ h).mp hh with ⟨same,rfl⟩ | old
    · rcases clear same.symm with left | right
      · exact .inl fun g hg => InternalKey.lt_of_userKey (left g hg)
      · exact .inr right
    · exact safe.around h old out
  · intro l deep f hf
    rcases (adds.members _ f).mp hf with ⟨rfl,rfl⟩ | old
    · right
      intro g hg
      rcases member g hg with own | parent
      · exact (flush.misses (by omega) c.level (by omega) g own).symm
      · exact (flush.misses (by omega) (c.level + 1) (by omega) g parent).symm
    · exact safe.below l deep f old

/-- Inputs without a gap between them leave no room for a table that misses them all. -/
theorem HullCovered.clear (wf : v.Wf tables) (covered : HullCovered c.inputs c.inputs)
    (safe : c.Safe v tables) {level : Nat} {smallest largest : K} (range : smallest ≤ largest)
    (misses : 1 ≤ level → ∀ l, l ≤ level → ∀ f ∈ v.files l, Misses smallest largest f) :
    c.Clear level smallest largest := by
  rintro rfl
  have missed : ∀ g ∈ c.inputs, Misses smallest largest g := by
    intro g hg
    rcases safe.member g hg with own | parent
    · exact misses (by omega) _ (by omega) g own
    · exact misses (by omega) _ (by omega) g parent
  by_contra both
  simp only [not_or,not_forall,not_lt] at both
  obtain ⟨⟨f,hf,low⟩,g,hg,high⟩ := both
  have left : f.largest.userKey < smallest := (missed f hf).resolve_right (not_lt_of_ge low)
  have right : largest < g.smallest.userKey := (missed g hg).resolve_left (not_lt_of_ge high)
  have above : f.smallest.userKey ≤ smallest := ((safe.holds wf f hf).userRange).trans left.le
  have below : smallest ≤ g.largest.userKey :=
    (range.trans right.le).trans (safe.holds wf g hg).userRange
  obtain ⟨h,hh,from_le,le_to⟩ := covered f hf g hg smallest above below
  rcases missed h hh with lt | lt
  · exact absurd le_to (not_le_of_gt lt)
  · exact absurd (from_le.trans range) (not_le_of_gt lt)

end Safe

/-- `v'` is `v` with the inputs of the compaction replaced by `outs` at the next level. -/
structure Compaction.Replaces (c : Compaction K) (v v' : Version K) (outs : List (FileMetaData K)) :
    Prop where
  order : ∀ l, InOrder (v'.files l)
  members : ∀ l f, f ∈ v'.files l ↔ (l = c.level + 1 ∧ f ∈ outs) ∨
    f ∈ v.files l ∧ ¬(l = c.level ∧ f ∈ c.inputs0) ∧ ¬(l = c.level + 1 ∧ f ∈ c.inputs1)

/-- What makes files fit to take the place of the inputs. -/
structure Compaction.Fits (c : Compaction K) (v : Version K) (tables : Tables K V)
    (outs : List (FileMetaData K)) : Prop where
  holds : ∀ f ∈ outs, f.Holds tables
  subset : ∀ f ∈ outs, tableSet tables f ⊆ filesSet tables c.inputs
  apart : ∀ f ∈ outs, ∀ g ∈ outs, f ≠ g → f.largest < g.smallest ∨ g.largest < f.smallest
  unique : ∀ f ∈ outs, ∀ g ∈ outs, f.number = g.number → f = g
  fresh : ∀ f ∈ outs, ∀ l, ∀ g ∈ v.files l, ¬(l = c.level ∧ g ∈ c.inputs0) →
    ¬(l = c.level + 1 ∧ g ∈ c.inputs1) → g.number ≠ f.number

section Replace
variable {v v' : Version K} {tables : Tables K V} {c : Compaction K} {outs : List (FileMetaData K)}

/-- A file beside the inputs at their output level does not overlap what replaces them. -/
theorem Compaction.Fits.clear (wf : v.Wf tables) (safe : c.Safe v tables) (fits : c.Fits v tables outs)
    (h : FileMetaData K) (member : h ∈ v.files (c.level + 1)) (out : h ∉ c.inputs1)
    (f : FileMetaData K) (hf : f ∈ outs) : h.largest < f.smallest ∨ f.largest < h.smallest := by
  obtain ⟨a,ha,low⟩ := (fits.holds f hf).exists_smallest
  obtain ⟨b,hb,high⟩ := (fits.holds f hf).exists_largest
  obtain ⟨g,hg,inside⟩ := fits.subset f hf ha
  obtain ⟨g',hg',inside'⟩ := fits.subset f hf hb
  rcases safe.around h member out with left | right
  · left
    rw [low]
    exact lt_of_lt_of_le (left g hg) ((safe.holds wf g hg).smallest_le a inside)
  · right
    rw [high]
    exact InternalKey.lt_of_userKey
      (lt_of_le_of_lt ((safe.holds wf g' hg').user_le b inside').2 (right g' hg'))

theorem Compaction.Replaces.entriesAt (replaces : c.Replaces v v' outs) (l : Nat) (e : Entry K V)
    (member : e ∈ v'.entriesAt tables l) :
    (l = c.level + 1 ∧ e ∈ filesSet tables outs) ∨ ∃ f ∈ v.files l, e ∈ tables f.number ∧
      ¬(l = c.level ∧ f ∈ c.inputs0) ∧ ¬(l = c.level + 1 ∧ f ∈ c.inputs1) := by
  obtain ⟨f,hf,he⟩ := member
  rcases (replaces.members l f).mp hf with ⟨same,new⟩ | ⟨old,kept⟩
  · exact .inl ⟨same,f,new,he⟩
  · exact .inr ⟨f,old,he,kept⟩

/-- An entry of an input lies at the level of the compaction or at the next. -/
theorem Compaction.Safe.entry (safe : c.Safe v tables) {e : Entry K V}
    (member : e ∈ filesSet tables c.inputs) :
    e ∈ v.entriesAt tables c.level ∨ e ∈ v.entriesAt tables (c.level + 1) := by
  obtain ⟨g,hg,he⟩ := member
  rcases safe.member g hg with own | parent
  · exact .inl ⟨g,own,he⟩
  · exact .inr ⟨g,parent,he⟩

theorem Compaction.Fits.entry (fits : c.Fits v tables outs) {e : Entry K V}
    (member : e ∈ filesSet tables outs) : e ∈ filesSet tables c.inputs := by
  obtain ⟨f,hf,he⟩ := member
  exact fits.subset f hf he

/-- What stays above the output level is newer than the inputs. -/
theorem Compaction.Safe.above (wf : v.Wf tables) (safe : c.Safe v tables) {l : Nat}
    (shallow : l < c.level + 1) {f : FileMetaData K} (hf : f ∈ v.files l)
    (kept : ¬(l = c.level ∧ f ∈ c.inputs0)) :
    Newer (tableSet tables f) (filesSet tables c.inputs) := by
  rcases Nat.lt_succ_iff_lt_or_eq.mp shallow with lt | rfl
  · intro a ha b hb same
    rcases safe.entry hb with own | parent
    · exact wf.recent l c.level lt a ⟨f,hf,ha⟩ b own same
    · exact wf.recent l (c.level + 1) (by omega) a ⟨f,hf,ha⟩ b parent same
  · exact safe.beside f hf fun member => kept ⟨rfl,member⟩

/-- The version after a compaction is well formed. -/
theorem Version.Wf.replace (wf : v.Wf tables) (safe : c.Safe v tables) (fits : c.Fits v tables outs)
    (replaces : c.Replaces v v' outs) : v'.Wf tables := by
  have holds : ∀ l, ∀ f ∈ v'.files l, f.Holds tables := by
    intro l f hf
    rcases (replaces.members l f).mp hf with ⟨-,new⟩ | ⟨old,-⟩
    · exact fits.holds f new
    · exact wf.holds l f old
  refine ⟨holds,replaces.order,?_,?_,?_,?_,?_⟩
  · intro l deep
    refine disjoint_of_apart _ (replaces.order l) (fun f hf => (holds l f hf).range) ?_
    intro f hf g hg ne
    rcases (replaces.members l f).mp hf with ⟨rfl,newf⟩ | ⟨oldf,-,keptf⟩ <;>
      rcases (replaces.members _ g).mp hg with ⟨same,newg⟩ | ⟨oldg,-,keptg⟩
    · exact fits.apart f newf g newg ne
    · exact (fits.clear wf safe g oldg (fun member => keptg ⟨rfl,member⟩) f newf).symm
    · subst same
      exact fits.clear wf safe f oldf (fun member => keptf ⟨rfl,member⟩) g newg
    · exact wf.apart deep f g oldf oldg ne
  · intro l deep
    rw [List.eq_nil_iff_forall_not_mem]
    intro f hf
    rcases (replaces.members l f).mp hf with ⟨rfl,-⟩ | ⟨old,-⟩
    · exact absurd safe.level (not_lt_of_ge deep)
    · rw [wf.levels l deep] at old
      cases old
  · intro l l' f g hf hg same
    rcases (replaces.members l f).mp hf with ⟨rfl,newf⟩ | ⟨oldf,kept,kept'⟩ <;>
      rcases (replaces.members l' g).mp hg with ⟨rfl,newg⟩ | ⟨oldg,keptg,keptg'⟩
    · exact ⟨rfl,fits.unique f newf g newg same⟩
    · exact absurd same.symm (fits.fresh f newf l' g oldg keptg keptg')
    · exact absurd same (fits.fresh g newg l f oldf kept kept')
    · exact wf.unique l l' f g oldf oldg same
  · intro f hf g hg lt
    rcases (replaces.members 0 f).mp hf with ⟨zero,-⟩ | ⟨oldf,-⟩
    · omega
    rcases (replaces.members 0 g).mp hg with ⟨zero,-⟩ | ⟨oldg,-⟩
    · omega
    exact wf.recent0 f oldf g oldg lt
  · intro l l' lt a ha b hb same
    rcases replaces.entriesAt l a ha with ⟨rfl,newa⟩ | ⟨f,hf,ina,kept,-⟩ <;>
      rcases replaces.entriesAt l' b hb with ⟨rfl,newb⟩ | ⟨g,hg,inb,-,-⟩
    · exact absurd lt (lt_irrefl _)
    · rcases safe.entry (fits.entry newa) with own | parent
      · exact wf.recent c.level l' (by omega) a own b ⟨g,hg,inb⟩ same
      · exact wf.recent (c.level + 1) l' lt a parent b ⟨g,hg,inb⟩ same
    · exact safe.above wf lt hf kept a ina b (fits.entry newb) same
    · exact wf.recent l l' lt a ⟨f,hf,ina⟩ b ⟨g,hg,inb⟩ same

/-- No file below the output level spans the user key. -/
def Compaction.BaseFor (c : Compaction K) (u : K) : Prop :=
  ∀ l, c.level + 2 ≤ l → l < kNumLevels → ∀ f ∈ c.inputVersion.files l, ¬Spans f u

/-- Why the loop dropped an entry of the inputs: a newer one that every snapshot sees is
kept, or a deletion that every snapshot sees hides it and has nothing below to hide. -/
def Compaction.Dropped (c : Compaction K) (inputs kept : Set (Entry K V)) (floor : Nat)
    (d : Entry K V) : Prop :=
  (∃ a ∈ kept, a.userKey = d.userKey ∧ d.sequence < a.sequence ∧ a.sequence ≤ floor) ∨
    ∃ a ∈ inputs, a.userKey = d.userKey ∧ d.sequence ≤ a.sequence ∧ a.sequence ≤ floor ∧
      a.value = none ∧ c.BaseFor a.userKey ∧
      ∀ b ∈ kept, b.userKey = a.userKey → a.sequence < b.sequence

/-- The version after a compaction answers every read that a snapshot can ask. -/
theorem Compaction.Replaces.covers (wf : v.Wf tables) (distinct : Distinct (v.entries tables))
    (safe : c.Safe v tables) (fits : c.Fits v tables outs) (replaces : c.Replaces v v' outs)
    (floor : Nat) (dropped : ∀ d ∈ filesSet tables c.inputs, d ∉ filesSet tables outs →
      c.Dropped (filesSet tables c.inputs) (filesSet tables outs) floor d) :
    Covers (v'.entries tables) (v.entries tables) floor := by
  have inputs_le : ∀ e ∈ filesSet tables c.inputs, e ∈ v.entries tables := by
    intro e he
    rcases safe.entry he with own | parent
    · exact ⟨_,own⟩
    · exact ⟨_,parent⟩
  have outs_le : ∀ e ∈ filesSet tables outs, e ∈ v'.entries tables := by
    rintro e ⟨f,hf,he⟩
    exact ⟨c.level + 1,f,(replaces.members _ f).mpr (.inl ⟨rfl,hf⟩),he⟩
  refine Versioned.covers_of_obsolete distinct ?_ ?_
  · rintro e ⟨l,he⟩
    rcases replaces.entriesAt l e he with ⟨-,new⟩ | ⟨f,hf,inside,-⟩
    · exact inputs_le e (fits.entry new)
    · exact ⟨l,f,hf,inside⟩
  · rintro d ⟨l,f,hf,hd⟩ gone
    -- an entry that is gone was in an input
    have input : d ∈ filesSet tables c.inputs := by
      by_contra outside
      refine gone ⟨l,f,(replaces.members l f).mpr (.inr ⟨hf,?_,?_⟩),hd⟩
      · exact fun member => outside ⟨f,List.mem_append_left _ member.2,hd⟩
      · exact fun member => outside ⟨f,List.mem_append_right _ member.2,hd⟩
    have notKept : d ∉ filesSet tables outs := fun kept => gone (outs_le d kept)
    rcases dropped d input notKept with
      ⟨a,ha,same,later,seen⟩ | ⟨a,ha,same,later,seen,deleted,base,alone⟩
    · exact .inl ⟨a,outs_le a ha,same,later,seen⟩
    · refine .inr ⟨a,inputs_le a ha,same,later,seen,deleted,?_⟩
      rintro b ⟨l',hb⟩ equal
      rcases replaces.entriesAt l' b hb with ⟨-,new⟩ | ⟨g,hg,inside,kept0,kept1⟩
      · exact alone b new equal
      obtain ⟨i,hi,ina⟩ := ha
      have holds := safe.holds wf i hi
      rcases Nat.lt_trichotomy l' (c.level + 1) with lt | rfl | gt
      · exact safe.above wf lt hg kept0 b inside a ⟨i,hi,ina⟩ equal
      · rcases safe.around g hg (fun member => kept1 ⟨rfl,member⟩) with left | right
        · refine newer_of_key_lt distinct ⟨_,g,hg,inside⟩ (inputs_le a ⟨i,hi,ina⟩) equal ?_
          exact lt_of_le_of_lt ((wf.holds _ g hg).le_largest b inside)
            (lt_of_lt_of_le (left i hi) (holds.smallest_le a ina))
        · exact absurd equal (not_same_user (wf.holds _ g hg) holds (.inr (right i hi)) b a inside ina)
      · rcases safe.below l' gt g hg with below | missed
        · have range := (wf.holds _ g hg).user_le b inside
          rw [equal] at range
          have shallow : l' < kNumLevels := by
            by_contra deep
            rw [wf.levels l' (not_lt.mp deep)] at hg
            cases hg
          exact absurd range (base l' gt shallow g below)
        · exact absurd equal (not_same_user (wf.holds _ g hg) holds (missed i hi) b a inside ina)

end Replace

section Edits
variable {v : Version K} {tables : Tables K V} {e : VersionEdit K}

/-- An edit with one new file adds it. -/
theorem Version.adds_of_edit {level : Nat} {m : FileMetaData K} (order : ∀ l, InOrder (v.files l))
    (new : e.newFiles = [(level,m)]) (deleted : e.deletedFiles = [])
    (fresh : ∀ l, ∀ f ∈ v.files l, f.number ≠ m.number) : v.Adds (v.apply e) level m := by
  have news : ∀ l f, f ∈ e.newAt l ↔ l = level ∧ f = m := by
    intro l f
    rw [mem_newAt,new]
    simp [Prod.ext_iff,eq_comm]
  have spec := v.mem_apply e order ⟨?_,fun l f _ g hg => absurd hg (List.not_mem_nil),?_⟩
  · refine ⟨spec.1,?_⟩
    intro l f
    rw [spec.2,news,mem_deletedAt,deleted]
    simp
  · intro l f hf g hg
    obtain ⟨rfl,rfl⟩ := (news l f).mp hf
    exact fresh l g hg
  · intro l f hf g hg _
    exact ((news l g).mp hg).2.trans ((news l f).mp hf).2.symm

/-- An edit that deletes the inputs of a compaction and adds files at the next level. -/
theorem Compaction.replaces_of_edit {c : Compaction K} {outs : List (FileMetaData K)}
    (wf : v.Wf tables) (safe : c.Safe v tables)
    (deleted : e.deletedFiles = c.inputs0.map (fun f => (c.level,f.number)) ++
      c.inputs1.map fun f => (c.level + 1,f.number))
    (new : e.newFiles = outs.map (c.level + 1,·))
    (fresh : ∀ f ∈ outs, ∀ g ∈ v.files (c.level + 1), g.number ≠ f.number)
    (distinct : outs.Pairwise fun f g => f.number ≠ g.number) : c.Replaces v (v.apply e) outs := by
  have news : ∀ l f, f ∈ e.newAt l ↔ l = c.level + 1 ∧ f ∈ outs := by
    intro l f
    rw [mem_newAt,new]
    simp [Prod.ext_iff,eq_comm,and_comm]
  have spec := v.mem_apply e wf.ordered ⟨?_,fun l f _ g hg => absurd hg (List.not_mem_nil),?_⟩
  · refine ⟨spec.1,?_⟩
    intro l f
    rw [spec.2,news,mem_deletedAt,deleted]
    refine or_congr_right (and_congr_right fun hf => ?_)
    -- a number that is deleted is the number of an input, and numbers are unique
    have own : (l,f.number) ∈ c.inputs0.map (fun f => (c.level,f.number)) ↔
        l = c.level ∧ f ∈ c.inputs0 := by
      simp only [List.mem_map,Prod.mk.injEq]
      constructor
      · rintro ⟨g,hg,rfl,same⟩
        have := wf.unique c.level c.level g f (safe.own g hg) hf same
        exact ⟨rfl,this.2 ▸ hg⟩
      · rintro ⟨rfl,member⟩
        exact ⟨f,member,rfl,rfl⟩
    have parent : (l,f.number) ∈ c.inputs1.map (fun f => (c.level + 1,f.number)) ↔
        l = c.level + 1 ∧ f ∈ c.inputs1 := by
      simp only [List.mem_map,Prod.mk.injEq]
      constructor
      · rintro ⟨g,hg,rfl,same⟩
        have := wf.unique _ _ g f (safe.parents g hg) hf same
        exact ⟨rfl,this.2 ▸ hg⟩
      · rintro ⟨rfl,member⟩
        exact ⟨f,member,rfl,rfl⟩
    rw [List.mem_append,own,parent,not_or]
  · intro l f hf g hg
    obtain ⟨rfl,member⟩ := (news l f).mp hf
    exact fresh f member g hg
  · intro l f hf g hg
    exact named_of_pairwise distinct f ((news l f).mp hf).2 g ((news l g).mp hg).2

/-- A trivial move puts its file in its own place at the next level. -/
theorem Compaction.Safe.move {c : Compaction K} (wf : v.Wf tables) (safe : c.Safe v tables)
    (single : c.inputs0.length = 1) :
    c.Fits v tables c.inputs0 ∧ (∀ f ∈ c.inputs0, ∀ g ∈ v.files (c.level + 1), g.number ≠ f.number) ∧
      c.inputs0.Pairwise fun f g => f.number ≠ g.number := by
  obtain ⟨m,only⟩ := List.length_eq_one_iff.mp single
  have own : m ∈ v.files c.level := safe.own m (by simp [only])
  rw [only]
  refine ⟨⟨?_,?_,?_,?_,?_⟩,?_,List.pairwise_singleton _ _⟩
  · intro f hf
    rw [List.mem_singleton.mp hf]
    exact wf.holds _ m own
  · intro f hf e he
    exact ⟨f,by simp [Compaction.inputs,only,List.mem_singleton.mp hf],he⟩
  · intro f hf g hg ne
    exact absurd ((List.mem_singleton.mp hf).trans (List.mem_singleton.mp hg).symm) ne
  · intro f hf g hg _
    exact (List.mem_singleton.mp hf).trans (List.mem_singleton.mp hg).symm
  · intro f hf l g hg kept _ same
    obtain rfl := List.mem_singleton.mp hf
    obtain ⟨level,equal⟩ := wf.unique l c.level g f hg own same
    exact kept ⟨level,by simp [only,equal]⟩
  · intro f hf g hg same
    obtain rfl := List.mem_singleton.mp hf
    have := (wf.unique _ _ g f hg own same).1
    omega

end Edits

end LevelDB
