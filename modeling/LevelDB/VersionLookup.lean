import LevelDB.Version

/-! What a version holds and what a read of it finds. A well-formed version keeps the
files of each deeper level disjoint and in order and its levels ordered by recency; then
the first place that has the key has its newest entry. -/
namespace LevelDB

variable {K V : Type} [LinearOrder K]

/-- The meta data describes the table: its entries are in order and its ends are there. -/
structure FileMetaData.Holds (tables : Tables K V) (f : FileMetaData K) : Prop where
  sorted : SortedEntries (tables f.number)
  first : ∃ e, (tables f.number).head? = some e ∧ f.smallest = e.key
  last : ∃ e, (tables f.number).getLast? = some e ∧ f.largest = e.key
  bounded : ∀ e ∈ tables f.number, e.sequence ≤ kMaxSequenceNumber

def tableSet (tables : Tables K V) (f : FileMetaData K) : Set (Entry K V) :=
  entrySet (tables f.number)

def filesSet (tables : Tables K V) (files : List (FileMetaData K)) : Set (Entry K V) :=
  {e | ∃ f ∈ files, e ∈ tables f.number}

def Version.entriesAt (v : Version K) (tables : Tables K V) (level : Nat) : Set (Entry K V) :=
  filesSet tables (v.files level)

def Version.entries (v : Version K) (tables : Tables K V) : Set (Entry K V) :=
  {e | ∃ level, e ∈ v.entriesAt tables level}

structure Version.Wf (v : Version K) (tables : Tables K V) : Prop where
  holds : ∀ level, ∀ f ∈ v.files level, f.Holds tables
  ordered : ∀ level, (v.files level).Pairwise BySmallestKey
  disjoint : ∀ level, 1 ≤ level → (v.files level).Pairwise fun f g => f.largest < g.smallest
  levels : ∀ level, kNumLevels ≤ level → v.files level = []
  unique : ∀ level level' f g, f ∈ v.files level → g ∈ v.files level' → f.number = g.number →
    level = level' ∧ f = g
  recent0 : ∀ f ∈ v.files 0, ∀ g ∈ v.files 0, g.number < f.number →
    Newer (tableSet tables f) (tableSet tables g)
  recent : ∀ level level', level < level' → Newer (v.entriesAt tables level) (v.entriesAt tables level')

section Files
variable {tables : Tables K V} {f : FileMetaData K}

theorem FileMetaData.Holds.smallest_le (holds : f.Holds tables) (e : Entry K V)
    (member : e ∈ tables f.number) : f.smallest ≤ e.key := by
  obtain ⟨first,head,smallest⟩ := holds.first
  obtain ⟨rest,list⟩ := List.head?_eq_some_iff.mp head
  rw [smallest]
  rw [list] at member
  rcases List.mem_cons.mp member with rfl | later
  · exact le_refl _
  · have sorted := holds.sorted
    rw [SortedEntries,list] at sorted
    exact ((List.pairwise_cons.mp sorted).1 e later).le

theorem FileMetaData.Holds.le_largest (holds : f.Holds tables) (e : Entry K V)
    (member : e ∈ tables f.number) : e.key ≤ f.largest := by
  obtain ⟨last,final,largest⟩ := holds.last
  obtain ⟨before,list⟩ := List.getLast?_eq_some_iff.mp final
  rw [largest]
  rw [list] at member
  rcases List.mem_append.mp member with early | rest
  · have sorted := holds.sorted
    rw [SortedEntries,list] at sorted
    exact ((List.pairwise_append.mp sorted).2.2 e early last (by simp)).le
  · rw [List.mem_singleton.mp rest]

theorem FileMetaData.Holds.exists_smallest (holds : f.Holds tables) :
    ∃ e ∈ tables f.number, f.smallest = e.key := by
  obtain ⟨first,head,smallest⟩ := holds.first
  exact ⟨first,List.mem_of_mem_head? head,smallest⟩

theorem FileMetaData.Holds.exists_largest (holds : f.Holds tables) :
    ∃ e ∈ tables f.number, f.largest = e.key := by
  obtain ⟨last,final,largest⟩ := holds.last
  exact ⟨last,List.mem_of_getLast? final,largest⟩

theorem FileMetaData.Holds.range (holds : f.Holds tables) : f.smallest ≤ f.largest := by
  obtain ⟨e,member,smallest⟩ := holds.exists_smallest
  rw [smallest]
  exact holds.le_largest e member

theorem FileMetaData.Holds.userRange (holds : f.Holds tables) :
    f.smallest.userKey ≤ f.largest.userKey :=
  InternalKey.userKey_le holds.range

theorem FileMetaData.Holds.user_le (holds : f.Holds tables) (e : Entry K V)
    (member : e ∈ tables f.number) :
    f.smallest.userKey ≤ e.userKey ∧ e.userKey ≤ f.largest.userKey :=
  ⟨InternalKey.userKey_le (holds.smallest_le e member),
    InternalKey.userKey_le (holds.le_largest e member)⟩

end Files

/-- The binary search ends at the first file that does not lie before the key. -/
theorem findFileLoop_spec (files : List (FileMetaData K)) (key : InternalKey K)
    (sorted : files.Pairwise fun f g => f.largest ≤ g.largest) (fuel left right : Nat)
    (inside : right ≤ files.length) (order : left ≤ right) (enough : right - left < fuel)
    (below : ∀ i f, i < left → files[i]? = some f → f.largest < key)
    (above : ∀ i f, right ≤ i → files[i]? = some f → key ≤ f.largest) :
    findFileLoop files key fuel left right ≤ files.length ∧
      (∀ i f, i < findFileLoop files key fuel left right → files[i]? = some f → f.largest < key) ∧
      ∀ i f, findFileLoop files key fuel left right ≤ i → files[i]? = some f → key ≤ f.largest := by
  induction fuel generalizing left right with
  | zero => omega
  | succ fuel ih =>
    have monotone : ∀ (i j : Nat) (f g : FileMetaData K), i ≤ j → files[i]? = some f →
        files[j]? = some g → f.largest ≤ g.largest := by
      intro i j f g le hf hg
      obtain ⟨hi,rfl⟩ := List.getElem?_eq_some_iff.mp hf
      obtain ⟨hj,rfl⟩ := List.getElem?_eq_some_iff.mp hg
      rcases Nat.eq_or_lt_of_le le with rfl | lt
      · exact le_refl _
      · exact List.pairwise_iff_getElem.mp sorted i j hi hj lt
    unfold findFileLoop
    by_cases more : left < right
    · have bound : (left + right) / 2 < files.length := by omega
      have found : files[(left + right) / 2]? = some files[(left + right) / 2] :=
        List.getElem?_eq_getElem bound
      rw [if_pos more]
      simp only [found]
      by_cases before : files[(left + right) / 2].largest < key
      · rw [if_pos before]
        refine ih _ _ inside (by omega) (by omega) ?_ above
        intro i f lt hf
        exact lt_of_le_of_lt (monotone i _ f _ (by omega) hf found) before
      · rw [if_neg before]
        refine ih _ _ (by omega) (by omega) (by omega) below ?_
        intro i f le hf
        exact (not_lt.mp before).trans (monotone _ i _ f le found hf)
    · rw [if_neg more]
      have same : left = right := by omega
      subst same
      exact ⟨inside,below,above⟩

theorem findFile_spec (files : List (FileMetaData K)) (key : InternalKey K)
    (sorted : files.Pairwise fun f g => f.largest ≤ g.largest) :
    ∃ before after, files = before ++ after ∧ findFile files key = before.length ∧
      (∀ f ∈ before, f.largest < key) ∧ ∀ f ∈ after, key ≤ f.largest := by
  obtain ⟨bound,below,above⟩ := findFileLoop_spec files key sorted (files.length + 1) 0 files.length
    (le_refl _) (Nat.zero_le _) (by omega) (by intro i f lt; omega) (by
      intro i f le hf
      rw [List.getElem?_eq_none le] at hf
      cases hf)
  refine ⟨files.take (findFile files key),files.drop (findFile files key),
    (List.take_append_drop _ _).symm,?_,?_,?_⟩
  · exact (List.length_take_of_le bound).symm
  · intro f member
    obtain ⟨i,hi,rfl⟩ := List.mem_iff_getElem.mp member
    have lt : i < findFile files key := by
      rw [List.length_take] at hi; omega
    exact below i _ lt (by rw [List.getElem_take]; exact List.getElem?_eq_getElem _)
  · intro f member
    obtain ⟨i,hi,rfl⟩ := List.mem_iff_getElem.mp member
    rw [List.getElem_drop]
    exact above _ _ (Nat.le_add_right _ _) (List.getElem?_eq_getElem _)

theorem Version.Wf.largest_sorted {v : Version K} {tables : Tables K V} (wf : v.Wf tables)
    (level : Nat) (deep : 1 ≤ level) :
    (v.files level).Pairwise fun f g => f.largest ≤ g.largest := by
  refine (wf.disjoint level deep).imp_of_mem ?_
  intro f g hf hg lt
  exact lt.le.trans (wf.holds level g hg).range

/-- A place answers a read: a hit is the newest entry it has, a miss means it has none. -/
def Answers (S : Set (Entry K V)) (user : K) (snapshot : Nat) (state : SaverState V) : Prop :=
  (∃ e, IsNewest S user snapshot e ∧ state = e.value.elim .deleted .found) ∨
    (Absent S user snapshot ∧ state = .notFound)

def SaverState.orElse : SaverState V → SaverState V → SaverState V
  | .notFound, next => next
  | state, _ => state

/-- The entry that comes first in the order of the internal keys: of entries with one
sequence number, which a place may have, the one that a read meets. -/
structure IsFirst (S : Set (Entry K V)) (user : K) (snapshot : Nat) (e : Entry K V) : Prop where
  newest : IsNewest S user snapshot e
  first : ∀ b ∈ S, b.userKey = user → b.sequence ≤ snapshot → e.key ≤ b.key

/-- A place answers a read with the first entry it has. -/
def Finds (S : Set (Entry K V)) (user : K) (snapshot : Nat) (state : SaverState V) : Prop :=
  (∃ e, IsFirst S user snapshot e ∧ state = e.value.elim .deleted .found) ∨
    (Absent S user snapshot ∧ state = .notFound)

theorem Finds.answers {S : Set (Entry K V)} {user : K} {snapshot : Nat} {state : SaverState V}
    (finds : Finds S user snapshot state) : Answers S user snapshot state := by
  rcases finds with ⟨e,first,rfl⟩ | ⟨absent,rfl⟩
  · exact .inl ⟨e,first.newest,rfl⟩
  · exact .inr ⟨absent,rfl⟩

theorem key_le_of_sequence_lt {a b : Entry K V} (same : a.userKey = b.userKey)
    (newer : b.sequence < a.sequence) : a.key ≤ b.key := by
  rcases le_total a.key b.key with le | le
  · exact le
  · exact absurd (sequence_le_of_key_le same.symm le) (not_le.mpr newer)

theorem getFrom_finds (entries : List (Entry K V)) (ordered : OrderedEntries entries) (user : K)
    (snapshot : Nat) : Finds (entrySet entries) user snapshot (getFrom entries user snapshot) := by
  cases found : seek entries (lookupKey user snapshot) with
  | none =>
    refine .inr ⟨seek_absent entries ordered user snapshot (by simp [found]),?_⟩
    simp [getFrom,found,saveValue]
  | some e =>
    by_cases same : e.userKey = user
    · refine .inl ⟨e,⟨seek_newest entries ordered user snapshot e found same,?_⟩,?_⟩
      · obtain ⟨-,before,after,rfl,earlier⟩ := List.find?_eq_some_iff_append.mp found
        intro b member keyed visible
        rcases List.mem_append.mp member with early | late
        · have missed := earlier b early
          simp [(lookup_le user snapshot b).mpr (.inr ⟨keyed.symm,visible⟩)] at missed
        · rcases List.mem_cons.mp late with rfl | rest
          · exact le_rfl
          · exact (List.pairwise_cons.mp (List.pairwise_append.mp ordered).2.1).1 b rest
      · cases hv : e.value <;> simp [getFrom,found,saveValue,same,hv]
    · refine .inr ⟨seek_absent entries ordered user snapshot (by simp [found,same]),?_⟩
      simp [getFrom,found,saveValue,same]

theorem Finds.layer {P Q : Set (Entry K V)} {user : K} {snapshot : Nat} {a b : SaverState V}
    (newer : Newer P Q) (upper : Finds P user snapshot a) (lower : Finds Q user snapshot b) :
    Finds (P ∪ Q) user snapshot (a.orElse b) := by
  rcases upper with ⟨e,first,rfl⟩ | ⟨absent,rfl⟩
  · left
    refine ⟨e,⟨first.newest.upper newer,?_⟩,?_⟩
    · rintro b (hb | hb) same visible
      · exact first.first b hb same visible
      · have keyed := first.newest.same.trans same.symm
        exact key_le_of_sequence_lt keyed (newer e first.newest.member b hb keyed)
    · cases e.value <;> rfl
  · rcases lower with ⟨e,first,rfl⟩ | ⟨none,rfl⟩
    · refine .inl ⟨e,⟨first.newest.lower absent,?_⟩,rfl⟩
      rintro b (hb | hb) same visible
      · exact absurd visible (absent b hb same)
      · exact first.first b hb same visible
    · exact .inr ⟨absent.union none,rfl⟩

/-- Only the entries of the key matter. -/
theorem Finds.of_key {P Q : Set (Entry K V)} {user : K} {snapshot : Nat} {state : SaverState V}
    (finds : Finds P user snapshot state) (within : P ⊆ Q)
    (complete : ∀ e ∈ Q, e.userKey = user → e ∈ P) : Finds Q user snapshot state := by
  rcases finds with ⟨e,first,rfl⟩ | ⟨absent,rfl⟩
  · have newest := first.newest
    refine .inl ⟨e,⟨⟨within newest.member,newest.same,newest.visible,?_⟩,?_⟩,rfl⟩
    · exact fun b hb same visible => newest.newest b (complete b hb same) same visible
    · exact fun b hb same visible => first.first b (complete b hb same) same visible
  · exact .inr ⟨fun e he same => absent e (complete e he same) same,rfl⟩

theorem searchFiles_cons (tables : Tables K V) (user : K) (snapshot : Nat) (f : FileMetaData K)
    (rest : List (FileMetaData K)) :
    searchFiles tables user snapshot (f :: rest) =
      (getFrom (tables f.number) user snapshot).orElse (searchFiles tables user snapshot rest) := by
  rw [searchFiles]
  cases getFrom (tables f.number) user snapshot <;> rfl

theorem searchFiles_append (tables : Tables K V) (user : K) (snapshot : Nat)
    (left right : List (FileMetaData K)) :
    searchFiles tables user snapshot (left ++ right) =
      (searchFiles tables user snapshot left).orElse (searchFiles tables user snapshot right) := by
  induction left with
  | nil => rfl
  | cons f left ih =>
    rw [List.cons_append,searchFiles_cons,searchFiles_cons,ih]
    cases getFrom (tables f.number) user snapshot <;> rfl

omit [LinearOrder K] in
theorem filesSet_cons (tables : Tables K V) (f : FileMetaData K) (rest : List (FileMetaData K)) :
    filesSet tables (f :: rest) = tableSet tables f ∪ filesSet tables rest := by
  ext e
  simp [filesSet,tableSet]

/-- Files in the order of their recency, read one after the other. -/
theorem searchFiles_finds (tables : Tables K V) (user : K) (snapshot : Nat)
    (files : List (FileMetaData K)) (holds : ∀ f ∈ files, f.Holds tables)
    (recent : files.Pairwise fun f g => Newer (tableSet tables f) (tableSet tables g)) :
    Finds (filesSet tables files) user snapshot (searchFiles tables user snapshot files) := by
  induction files with
  | nil => exact .inr ⟨by simp [Versioned.Absent,filesSet],rfl⟩
  | cons f files ih =>
    obtain ⟨here,later⟩ := List.pairwise_cons.mp recent
    have rest := ih (fun g hg => holds g (List.mem_cons_of_mem f hg)) later
    have head := getFrom_finds _ (holds f List.mem_cons_self).sorted.ordered user snapshot
    rw [searchFiles_cons,filesSet_cons]
    refine Finds.layer ?_ head rest
    rintro a ha b ⟨g,hg,hb⟩ same
    exact here g hg a ha b hb same

/-- Files of level 0 in the order of decreasing numbers: each is newer than the next. -/
theorem Version.Wf.newest_first {v : Version K} {tables : Tables K V} (wf : v.Wf tables)
    (files : List (FileMetaData K)) (sub : files.Sublist (v.files 0)) :
    (files.insertionSort fun a b => b.number ≤ a.number).Pairwise fun f g =>
      Newer (tableSet tables f) (tableSet tables g) := by
  have sorted := List.pairwise_insertionSort (fun a b : FileMetaData K => b.number ≤ a.number) files
  have distinct : files.Nodup := by
    refine List.Nodup.sublist sub ((wf.ordered 0).imp ?_)
    rintro f g (lt | ⟨-,lt⟩) rfl
    · exact lt_irrefl _ lt
    · exact lt_irrefl _ lt
  have nodup := (List.perm_insertionSort (fun a b : FileMetaData K => b.number ≤ a.number) files).nodup_iff.mpr
    distinct
  refine (sorted.and nodup).imp_of_mem ?_
  rintro f g hf hg ⟨le,ne⟩
  have lf := sub.subset ((List.perm_insertionSort _ _).mem_iff.mp hf)
  have lg := sub.subset ((List.perm_insertionSort _ _).mem_iff.mp hg)
  refine wf.recent0 f lf g lg (lt_of_le_of_ne le ?_)
  intro same
  exact ne (wf.unique 0 0 g f lg lf same).2.symm

/-- Level 0: only files whose range holds the key can have it, newest file first. -/
theorem Version.Wf.finds0 {v : Version K} {tables : Tables K V} (wf : v.Wf tables) (user : K)
    (snapshot : Nat) :
    Finds (v.entriesAt tables 0) user snapshot
      (searchFiles tables user snapshot (v.overlapping0 user)) := by
  have members : ∀ f, f ∈ v.overlapping0 user ↔
      f ∈ v.files 0 ∧ f.smallest.userKey ≤ user ∧ user ≤ f.largest.userKey := by
    intro f
    simp [Version.overlapping0,(List.perm_insertionSort _ _).mem_iff]
  have recent := wf.newest_first ((v.files 0).filter fun f =>
    decide (f.smallest.userKey ≤ user) && decide (user ≤ f.largest.userKey)) List.filter_sublist
  have found := searchFiles_finds tables user snapshot (v.overlapping0 user)
    (fun f hf => wf.holds 0 f ((members f).mp hf).1) recent
  have within : filesSet tables (v.overlapping0 user) ⊆ v.entriesAt tables 0 := by
    rintro e ⟨f,hf,he⟩
    exact ⟨f,((members f).mp hf).1,he⟩
  have complete : ∀ e ∈ v.entriesAt tables 0, e.userKey = user →
      e ∈ filesSet tables (v.overlapping0 user) := by
    rintro e ⟨f,hf,he⟩ same
    have range := (wf.holds 0 f hf).user_le e he
    rw [same] at range
    exact ⟨f,(members f).mpr ⟨hf,range⟩,he⟩
  exact found.of_key within complete

theorem concat_sorted (tables : Tables K V) (files : List (FileMetaData K))
    (holds : ∀ f ∈ files, f.Holds tables)
    (disjoint : files.Pairwise fun f g => f.largest < g.smallest) :
    SortedEntries (files.flatMap fun f => tables f.number) := by
  refine List.pairwise_flatMap.mpr ⟨fun f hf => (holds f hf).sorted,?_⟩
  refine disjoint.imp_of_mem ?_
  intro f g hf hg lt a ha b hb
  calc a.key ≤ f.largest := (holds f hf).le_largest a ha
    _ < g.smallest := lt
    _ ≤ b.key := (holds g hg).smallest_le b hb

/-- The seek in a whole level ends in the file that `FindFile` names. -/
theorem seek_concat (tables : Tables K V) (before after : List (FileMetaData K)) (f : FileMetaData K)
    (target : InternalKey K) (holds : ∀ g ∈ before ++ f :: after, g.Holds tables)
    (below : ∀ g ∈ before, g.largest < target) (reached : target ≤ f.largest) :
    seek ((before ++ f :: after).flatMap fun g => tables g.number) target =
      seek (tables f.number) target := by
  have missed : (before.flatMap fun g => tables g.number).find?
      (fun e => decide (target ≤ e.key)) = none := by
    rw [List.find?_eq_none]
    intro e member
    obtain ⟨g,hg,he⟩ := List.mem_flatMap.mp member
    have le := (holds g (List.mem_append_left _ hg)).le_largest e he
    simpa using lt_of_le_of_lt le (below g hg)
  obtain ⟨e,he,largest⟩ := (holds f (by simp)).exists_largest
  have hit : ∃ x, (tables f.number).find? (fun e => decide (target ≤ e.key)) = some x := by
    apply Option.isSome_iff_exists.mp
    rw [List.find?_isSome]
    exact ⟨e,he,by simpa [← largest] using reached⟩
  obtain ⟨x,found⟩ := hit
  simp [seek,missed,found]

/-- A deeper level: the one file that is read answers for the whole level. -/
theorem Version.Wf.findsAt {v : Version K} {tables : Tables K V} (wf : v.Wf tables) (level : Nat)
    (deep : 1 ≤ level) (user : K) (snapshot : Nat) :
    Finds (v.entriesAt tables level) user snapshot
      (searchFiles tables user snapshot (v.overlappingAt user (lookupKey user snapshot) level)) := by
  have holds := wf.holds level
  have sorted := concat_sorted tables (v.files level) holds (wf.disjoint level deep)
  have answer := getFrom_finds _ sorted.ordered user snapshot
  have same : v.entriesAt tables level =
      entrySet ((v.files level).flatMap fun f => tables f.number) := by
    ext e
    simp [Version.entriesAt,filesSet]
  suffices read : searchFiles tables user snapshot
      (v.overlappingAt user (lookupKey user snapshot) level) =
        getFrom ((v.files level).flatMap fun f => tables f.number) user snapshot by
    rw [same,read]
    exact answer
  obtain ⟨before,after,split,index,below,above⟩ := findFile_spec (v.files level)
    (lookupKey user snapshot) (wf.largest_sorted level deep)
  unfold Version.overlappingAt
  rw [index,split,List.getElem?_append_right (le_refl _),Nat.sub_self]
  rw [split] at holds
  cases after with
  | nil =>
    have missed : seek ((before ++ ([] : List (FileMetaData K))).flatMap fun f => tables f.number)
        (lookupKey user snapshot) = none := by
      rw [seek,List.find?_eq_none]
      intro e member
      obtain ⟨g,hg,he⟩ := List.mem_flatMap.mp member
      have le := (holds g hg).le_largest e he
      rw [List.append_nil] at hg
      simpa using lt_of_le_of_lt le (below g hg)
    rw [getFrom,missed]
    rfl
  | cons f after =>
    have concat := seek_concat tables before after f _ holds below (above f List.mem_cons_self)
    rw [getFrom,concat]
    simp only [List.getElem?_cons_zero]
    by_cases outside : user < f.smallest.userKey
    · rw [if_pos outside]
      have later : ∀ e, seek (tables f.number) (lookupKey user snapshot) = some e →
          e.userKey ≠ user := by
        intro e found equal
        have member := List.mem_of_find?_eq_some found
        have range := ((holds f (by simp)).user_le e member).1
        exact absurd (lt_of_lt_of_le outside range) (by simp [equal])
      cases found : seek (tables f.number) (lookupKey user snapshot) with
      | none => rfl
      | some e => simp [searchFiles,saveValue,later e found]
    · rw [if_neg outside,searchFiles_cons,searchFiles,getFrom]
      cases saveValue user (seek (tables f.number) (lookupKey user snapshot)) <;> rfl

/-- Levels in increasing order, read one after the other. -/
theorem Version.Wf.findsLevels {v : Version K} {tables : Tables K V} (wf : v.Wf tables)
    (levels : List Nat) (deep : ∀ level ∈ levels, 1 ≤ level) (order : levels.Pairwise (· < ·))
    (user : K) (snapshot : Nat) :
    Finds {e | ∃ level ∈ levels, e ∈ v.entriesAt tables level} user snapshot
      (searchFiles tables user snapshot
        (levels.flatMap (v.overlappingAt user (lookupKey user snapshot)))) := by
  induction levels with
  | nil => exact .inr ⟨by simp [Versioned.Absent],rfl⟩
  | cons level levels ih =>
    obtain ⟨here,later⟩ := List.pairwise_cons.mp order
    have rest := ih (fun l hl => deep l (List.mem_cons_of_mem _ hl)) later
    have head := wf.findsAt level (deep level List.mem_cons_self) user snapshot
    have split : {e | ∃ l ∈ level :: levels, e ∈ v.entriesAt tables l} =
        v.entriesAt tables level ∪ {e | ∃ l ∈ levels, e ∈ v.entriesAt tables l} := by
      ext e
      simp
    rw [List.flatMap_cons,searchFiles_append,split]
    refine Finds.layer ?_ head rest
    rintro a ha b ⟨l,hl,hb⟩ same
    exact wf.recent level l (here l hl) a ha b hb same

/-- A read of a well-formed version finds the newest entry of the key in it. -/
theorem Version.Wf.get_finds {v : Version K} {tables : Tables K V} (wf : v.Wf tables) (user : K)
    (snapshot : Nat) : Finds (v.entries tables) user snapshot (v.get tables user snapshot) := by
  have deeper := wf.findsLevels (List.range' 1 (kNumLevels - 1))
    (fun level hl => (List.mem_range'_1.mp hl).1) List.pairwise_lt_range' user snapshot
  have first := wf.finds0 user snapshot
  have split : v.entries tables = v.entriesAt tables 0 ∪
      {e | ∃ level ∈ List.range' 1 (kNumLevels - 1), e ∈ v.entriesAt tables level} := by
    ext e
    constructor
    · rintro ⟨level,he⟩
      by_cases zero : level = 0
      · exact .inl (zero ▸ he)
      · refine .inr ⟨level,List.mem_range'_1.mpr ⟨by omega,?_⟩,he⟩
        by_contra deep
        obtain ⟨f,hf,-⟩ := he
        rw [wf.levels level (by simp only [kNumLevels] at deep ⊢; omega)] at hf
        cases hf
    · rintro (he | ⟨level,-,he⟩)
      · exact ⟨0,he⟩
      · exact ⟨level,he⟩
  rw [Version.get,Version.forEachOverlapping,searchFiles_append,split]
  refine Finds.layer ?_ first deeper
  rintro a ha b ⟨level,hl,hb⟩ same
  exact wf.recent 0 level (List.mem_range'_1.mp hl).1 a ha b hb same

end LevelDB
