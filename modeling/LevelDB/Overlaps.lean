import LevelDB.CompactionClosed
import Mathlib.Logic.Relation

/-! Which files meet a range of user keys. At level 0 the search ends with the least range
that no file sticks out of; at a deeper level the file that a binary search finds decides
whether any file meets the range. -/
namespace LevelDB

variable {K V : Type} [LinearOrder K]

section Closure

/-- The outer range holds the inner one; a missing end is open. -/
structure Encloses (outer inner : Option K × Option K) : Prop where
  first : ∀ u ∈ outer.1, ∃ a ∈ inner.1, u ≤ a
  last : ∀ u ∈ outer.2, ∃ b ∈ inner.2, b ≤ u

theorem Encloses.refl (range : Option K × Option K) : Encloses range range :=
  ⟨fun u hu => ⟨u,hu,le_rfl⟩,fun u hu => ⟨u,hu,le_rfl⟩⟩

theorem Encloses.trans {a b c : Option K × Option K} (ab : Encloses a b) (bc : Encloses b c) :
    Encloses a c := by
  constructor
  · intro u hu
    obtain ⟨v,hv,left⟩ := ab.first u hu
    obtain ⟨w,hw,right⟩ := bc.first v hv
    exact ⟨w,hw,left.trans right⟩
  · intro u hu
    obtain ⟨v,hv,right⟩ := ab.last u hu
    obtain ⟨w,hw,left⟩ := bc.last v hv
    exact ⟨w,hw,left.trans right⟩

theorem Encloses.meets {outer inner : Option K × Option K} {f : FileMetaData K}
    (holds : Encloses outer inner) (met : Meets inner.1 inner.2 f) : Meets outer.1 outer.2 f := by
  constructor
  · intro u hu
    obtain ⟨a,ha,le⟩ := holds.first u hu
    exact le.trans (met.1 a ha)
  · intro u hu
    obtain ⟨b,hb,le⟩ := holds.last u hu
    exact (met.2 b hb).trans le

/-- Every file that meets the range lies inside it. -/
def ClosedRange (files : List (FileMetaData K)) (range : Option K × Option K) : Prop :=
  ∀ f ∈ files, Meets range.1 range.2 f → Within range.1 range.2 f

structure LeastClosedRange (files : List (FileMetaData K)) (start range : Option K × Option K) :
    Prop where
  encloses : Encloses range start
  closed : ClosedRange files range
  least : ∀ other, Encloses other start → ClosedRange files other → Encloses other range

/-- A restart of the search: an end moves to the end of a file that sticks out. -/
inductive Widens (files : List (FileMetaData K)) : Option K × Option K → Option K × Option K → Prop
  | first {f : FileMetaData K} {u : K} {last : Option K} (member : f ∈ files)
    (met : Meets (some u) last f) (low : f.smallest.userKey < u) :
    Widens files (some u,last) (some f.smallest.userKey,last)
  | last {f : FileMetaData K} {first : Option K} {u : K} (member : f ∈ files)
    (met : Meets first (some u) f) (high : u < f.largest.userKey) :
    Widens files (first,some u) (first,some f.largest.userKey)

variable {files : List (FileMetaData K)} {a b : Option K × Option K}

theorem Widens.encloses (step : Widens files a b) : Encloses b a := by
  cases step with
  | first member met low =>
    exact ⟨by simpa using low.le,(Encloses.refl _).last⟩
  | last member met high =>
    exact ⟨(Encloses.refl _).first,by simpa using high.le⟩

/-- A closed range holds the file that the end moves to. -/
theorem Widens.within {other : Option K × Option K} (step : Widens files a b)
    (closed : ClosedRange files other) (holds : Encloses other a) : Encloses other b := by
  cases step with
  | first member met low =>
    have inside := closed _ member (holds.meets met)
    constructor
    · intro u hu
      exact ⟨_,rfl,inside.1 u hu⟩
    · exact holds.last
  | last member met high =>
    have inside := closed _ member (holds.meets met)
    constructor
    · exact holds.first
    · intro u hu
      exact ⟨_,rfl,inside.2 u hu⟩

theorem LeastClosedRange.of_widens (run : Relation.ReflTransGen (Widens files) a b)
    (closed : ClosedRange files b) : LeastClosedRange files a b := by
  have both : Encloses b a ∧ ∀ other, Encloses other a → ClosedRange files other →
      Encloses other b := by
    clear closed
    induction run with
    | refl => exact ⟨Encloses.refl a,fun _ holds _ => holds⟩
    | tail _ step ih =>
      constructor
      · exact step.encloses.trans ih.1
      · intro other holds closed
        exact step.within closed (ih.2 other holds closed)
  exact ⟨both.1,closed,both.2⟩

theorem overlappingLoop_widens (files : List (FileMetaData K)) (fuel : Nat) (first last : Option K)
    (enough : restarts files first last < fuel) :
    ∃ range, Relation.ReflTransGen (Widens files) (first,last) range ∧ ClosedRange files range ∧
      overlappingLoop 0 files fuel first last = files.filter (meets range.1 range.2) := by
  induction fuel generalizing first last with
  | zero => omega
  | succ fuel ih =>
    rw [overlappingLoop]
    rcases scanOverlapping_spec 0 first last files [] with
      ⟨result,inside⟩ | ⟨-,f,member,met,⟨u,rfl,low,result⟩ | ⟨u,rfl,high,result⟩⟩
    · exact ⟨(first,last),.refl,inside rfl,by rw [result]; rfl⟩
    · have fewer := restarts_first last low member
      obtain ⟨range,run,closed,found⟩ := ih (some f.smallest.userKey) last (by omega)
      exact ⟨range,run.head (.first member met low),closed,by rw [result]; exact found⟩
    · have fewer := restarts_last first high member
      obtain ⟨range,run,closed,found⟩ := ih first (some f.largest.userKey) (by omega)
      exact ⟨range,run.head (.last member met high),closed,by rw [result]; exact found⟩

/-- At level 0 the search ends, and it finds the files that meet the least closed range. -/
theorem getOverlappingInputs_closure (v : Version K) (first last : Option (InternalKey K)) :
    v.getOverlappingInputs 0 first last ∈ (overlappingPass 0 (v.files 0)).fix
        (first.map (·.userKey),last.map (·.userKey)) ∧
      ∃ range, LeastClosedRange (v.files 0) (first.map (·.userKey),last.map (·.userKey)) range ∧
        v.getOverlappingInputs 0 first last = (v.files 0).filter (meets range.1 range.2) ∧
        (∀ f, f ∈ v.getOverlappingInputs 0 first last ↔
          f ∈ v.files 0 ∧ Meets range.1 range.2 f) ∧
        ((v.files 0).Nodup → (v.getOverlappingInputs 0 first last).Nodup) := by
  constructor
  · exact getOverlappingInputs_ends v 0 first last
  obtain ⟨range,run,closed,found⟩ := overlappingLoop_widens (v.files 0) _ _ _
    (Nat.lt_succ_of_le (restarts_le (v.files 0) (first.map (·.userKey)) (last.map (·.userKey))))
  have result : v.getOverlappingInputs 0 first last =
      (v.files 0).filter (meets range.1 range.2) := found
  refine ⟨range,.of_widens run closed,result,?_,?_⟩
  · intro f
    simp only [result,List.mem_filter,meets_iff]
  · intro distinct
    rw [result]
    exact distinct.filter _

/-- Two level-0 files overlap and a third is apart from them. -/
def chainVersion : Version Nat := ⟨fun level =>
  if level = 0 then [⟨1,3,⟨5,1,.value⟩,⟨8,2,.value⟩⟩,⟨2,3,⟨9,3,.value⟩,⟨9,3,.value⟩⟩,
    ⟨3,3,⟨3,4,.value⟩,⟨6,5,.value⟩⟩] else []⟩

theorem getOverlappingInputs_closure_chain :
    (chainVersion.getOverlappingInputs 0 (some ⟨4,1,.value⟩) (some ⟨4,1,.value⟩)).Nodup := by
  obtain ⟨-,range,-,-,-,distinct⟩ :=
    getOverlappingInputs_closure chainVersion (some ⟨4,1,.value⟩) (some ⟨4,1,.value⟩)
  exact distinct (by decide)

end Closure

section Search

/-- The loop of `FindFile` with its `uint32_t` arithmetic. -/
def findFileLoop32 (files : List (FileMetaData K)) (key : InternalKey K) : Nat → Nat → Nat → Nat
  | 0, _, right => right
  | fuel + 1, left, right =>
    if left < right then
      let mid := (left + right) % 2^32 / 2
      match files[mid]? with
      | some f => if f.largest < key then findFileLoop32 files key fuel ((mid + 1) % 2^32) right
        else findFileLoop32 files key fuel left mid
      | none => right
    else right

theorem findFileLoop32_eq (files : List (FileMetaData K)) (key : InternalKey K) (fuel : Nat)
    (left right : Nat) (small : right ≤ 2^31) :
    findFileLoop32 files key fuel left right = findFileLoop files key fuel left right := by
  induction fuel generalizing left right with
  | zero => rfl
  | succ fuel ih =>
    rw [findFileLoop32,findFileLoop]
    by_cases lt : left < right
    · have sum : (left + right) % 2^32 = left + right := Nat.mod_eq_of_lt (by omega)
      have next : ((left + right) / 2 + 1) % 2^32 = (left + right) / 2 + 1 :=
        Nat.mod_eq_of_lt (by omega)
      simp only [lt,if_true,sum,next]
      cases files[(left + right) / 2]? with
      | none => rfl
      | some f =>
        simp only
        rw [ih _ _ small,ih _ _ (by omega)]
    · simp only [lt,if_false]

/-- The indices do not overflow in a list of at most `2^31` files. -/
theorem findFile_eq_uint32 (files : List (FileMetaData K)) (key : InternalKey K)
    (small : files.length ≤ 2^31) :
    findFileLoop32 files key (files.length + 1) 0 (files.length % 2^32) = findFile files key := by
  rw [Nat.mod_eq_of_lt (by omega),findFileLoop32_eq _ _ _ _ _ small,findFile]

/-- The place of the first file that reaches the key. -/
structure IsFirstFile (files : List (FileMetaData K)) (key : InternalKey K) (index : Nat) : Prop where
  bound : index ≤ files.length
  below : ∀ i f, files[i]? = some f → i < index → f.largest < key
  reached : ∀ f, files[index]? = some f → key ≤ f.largest

theorem findFile_first {files : List (FileMetaData K)}
    (sorted : files.Pairwise fun f g => f.largest ≤ g.largest) (key : InternalKey K) :
    IsFirstFile files key (findFile files key) := by
  obtain ⟨before,after,split,index,below,above⟩ := findFile_spec files key sorted
  rw [index,split]
  constructor
  · simp
  · intro i f found lt
    rw [List.getElem?_append_left lt] at found
    exact below f (List.mem_of_getElem? found)
  · intro f found
    rw [List.getElem?_append_right (le_refl _)] at found
    exact above f (List.mem_of_getElem? found)

theorem LevelOrder.largest_sorted {files : List (FileMetaData K)} (order : LevelOrder files) :
    files.Pairwise fun f g => f.largest ≤ g.largest := by
  refine order.disjoint.imp_of_mem ?_
  intro f g hf hg lt
  exact lt.le.trans (order.range g hg)

/-- The key for the binary search is before every key that is packed for its user key. -/
theorem lookupKey_le_packed (u : K) {key : InternalKey K} (same : u ≤ key.userKey)
    (packed : key.sequence ≤ kMaxSequenceNumber) : lookupKey u kMaxSequenceNumber ≤ key := by
  rw [InternalKey.le_iff]
  rcases lt_or_eq_of_le same with less | equal
  · exact .inl less
  · refine .inr ⟨equal,?_⟩
    simp only [InternalKey.tag,lookupKey]
    cases key.type <;> simp only [ValueType.code] <;> omega

theorem someFileOverlapsRange_linear (files : List (FileMetaData K)) (smallest largest : Option K) :
    someFileOverlapsRange false files smallest largest = true ↔
      ∃ f ∈ files, Meets smallest largest f := by
  simp only [someFileOverlapsRange,Bool.false_eq_true,if_false,List.any_eq_true]
  exact exists_congr fun f => and_congr_right fun _ => meets_iff smallest largest f

/-- In a level whose first file ends at or after the bound, that file meets the range if any
file does. -/
theorem LevelOrder.head_meets {g : FileMetaData K} {rest : List (FileMetaData K)}
    (order : LevelOrder (g :: rest)) {smallest largest : Option K}
    (reached : ∀ u ∈ smallest, u ≤ g.largest.userKey) :
    beforeFile largest g = false ↔ ∃ f ∈ g :: rest, Meets smallest largest f := by
  have starts : beforeFile largest g = false ↔ ∀ u ∈ largest, g.smallest.userKey ≤ u := by
    cases largest <;> simp [beforeFile]
  rw [starts]
  constructor
  · intro low
    exact ⟨g,List.mem_cons_self,reached,low⟩
  · rintro ⟨f,member,-,low⟩ u hu
    rcases List.mem_cons.mp member with same | later
    · exact same ▸ low u hu
    · have apart : g.largest < f.smallest := (List.pairwise_cons.mp order.disjoint).1 f later
      have le : g.smallest ≤ f.smallest := (order.range g List.mem_cons_self).trans apart.le
      exact (InternalKey.userKey_le le).trans (low u hu)

/-- The file at the place found meets the range if any file does. -/
theorem someFileOverlapsRange_binary {files : List (FileMetaData K)} (order : LevelOrder files)
    (packed : ∀ f ∈ files, f.largest.sequence ≤ kMaxSequenceNumber) (smallest largest : Option K) :
    someFileOverlapsRange true files smallest largest = true ↔
      ∃ f ∈ files, Meets smallest largest f := by
  cases smallest with
  | none =>
    cases files with
    | nil => simp [someFileOverlapsRange]
    | cons g rest =>
      have reached : ∀ u ∈ (none : Option K), u ≤ g.largest.userKey := by simp
      rw [← order.head_meets reached]
      simp [someFileOverlapsRange]
  | some u =>
    obtain ⟨before,after,split,index,below,above⟩ :=
      findFile_spec files (lookupKey u kMaxSequenceNumber) order.largest_sorted
    have early : ∀ f ∈ before, ¬Meets (some u) largest f := by
      intro f member met
      have listed : f ∈ files := split ▸ List.mem_append_left _ member
      have le := lookupKey_le_packed u (met.1 u rfl) (packed f listed)
      exact absurd (below f member) (not_lt_of_ge le)
    have some_after : (∃ f ∈ files, Meets (some u) largest f) ↔
        ∃ f ∈ after, Meets (some u) largest f := by
      simp only [split,List.mem_append]
      constructor
      · rintro ⟨f,member | member,met⟩
        · exact absurd met (early f member)
        · exact ⟨f,member,met⟩
      · rintro ⟨f,member,met⟩
        exact ⟨f,.inr member,met⟩
    have found : files[findFile files (lookupKey u kMaxSequenceNumber)]? = after.head? := by
      rw [index,split,List.getElem?_append_right (le_refl _),Nat.sub_self]
      exact List.head?_eq_getElem?.symm
    rw [some_after]
    cases after with
    | nil => simp [someFileOverlapsRange,found]
    | cons g rest =>
      have tail : LevelOrder (g :: rest) := by
        have part : List.Sublist (g :: rest) files := split ▸ List.sublist_append_right _ _
        exact ⟨order.disjoint.sublist part,fun f hf => order.range f (part.subset hf)⟩
      have reached : ∀ v ∈ some u, v ≤ g.largest.userKey := by
        rintro v ⟨⟩
        exact InternalKey.userKey_le (above g List.mem_cons_self)
      rw [← tail.head_meets reached]
      simp [someFileOverlapsRange,found]

/-- In a level in order both tests for an overlap give the same answer, and the binary
search finds the first file that reaches a key. Its 32-bit indices do for up to `2^31` files. -/
theorem overlap_tests_agree (files : List (FileMetaData K)) (order : LevelOrder files)
    (packed : ∀ f ∈ files, f.largest.sequence ≤ kMaxSequenceNumber) (smallest largest : Option K) :
    someFileOverlapsRange true files smallest largest =
        someFileOverlapsRange false files smallest largest ∧
      (someFileOverlapsRange true files smallest largest = true ↔
        ∃ f ∈ files, Meets smallest largest f) ∧
      ∀ key, IsFirstFile files key (findFile files key) ∧ (files.length ≤ 2^31 →
        findFileLoop32 files key (files.length + 1) 0 (files.length % 2^32) = findFile files key) := by
  have binary := someFileOverlapsRange_binary order packed smallest largest
  have linear := someFileOverlapsRange_linear files smallest largest
  refine ⟨?_,binary,fun key => ⟨findFile_first order.largest_sorted key,findFile_eq_uint32 files key⟩⟩
  rw [Bool.eq_iff_iff,binary,linear]

/-- Two files that share the user key 7 at their boundary. -/
def boundaryFiles : List (FileMetaData Nat) :=
  [⟨1,3,⟨5,1,.value⟩,⟨7,4,.value⟩⟩,⟨2,3,⟨7,2,.value⟩,⟨9,3,.value⟩⟩]

theorem overlap_tests_agree_boundary :
    someFileOverlapsRange true boundaryFiles (some 7) (some 7) =
      someFileOverlapsRange false boundaryFiles (some 7) (some 7) := by
  have order : LevelOrder boundaryFiles := ⟨by decide,by decide⟩
  have packed : ∀ f ∈ boundaryFiles, f.largest.sequence ≤ kMaxSequenceNumber := by decide
  exact (overlap_tests_agree boundaryFiles order packed (some 7) (some 7)).1

end Search

end LevelDB
