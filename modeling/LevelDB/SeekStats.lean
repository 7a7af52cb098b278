import LevelDB.FileRanges
import LevelDB.LevelDisjoint
import Mathlib.Algebra.Order.Field.Rat
import Mathlib.Tactic.NormNum

/-! Seek compactions (`db/version_set.cc`). A read that goes on to a second file charges the
first one, and a file that is charged too often is compacted. What happens to one version
between its making and a call of `PickCompaction` is any sequence of reads and samples. -/
namespace LevelDB

variable {K V S : Type} [LinearOrder K] [LinearOrder S]

section Visits

/-- The calls of `ForEachOverlapping`, unless one of them stops it. -/
def Version.visits (v : Version K) (user : K) (target : InternalKey K) : List (Nat × FileMetaData K) :=
  (v.overlapping0 user).map (0,·) ++
    (List.range' 1 (kNumLevels - 1)).flatMap fun level => (v.overlappingAt user target level).map (level,·)

/-- The loop of `ForEachOverlapping`, which ends when `func` returns false. -/
def visitAll {A : Type} (func : A → Nat → FileMetaData K → Bool × A) (arg : A) : List (Nat × FileMetaData K) → A
  | [] => arg
  | (level,f) :: rest =>
    if (func arg level f).1 then visitAll func (func arg level f).2 rest else (func arg level f).2

structure GetStats (K : Type) where
  seekFile : Option (FileMetaData K)
  seekFileLevel : Int
  deriving DecidableEq

def GetStats.none : GetStats K := ⟨.none,-1⟩

/-- What `TableCache::Get` leaves: an error, a key that cannot be parsed, or the saver. -/
inductive TableRead (V : Type) where
  | failed
  | corrupt
  | saved (state : SaverState V)

inductive GetAnswer (V : Type) where
  | notFound
  | found (value : V)
  | deleted
  | corruption
  | failed

/-- The `State` of `Version::Get`. -/
structure GetState (K V : Type) where
  stats : GetStats K
  lastFileRead : Option (FileMetaData K)
  lastFileReadLevel : Int
  answer : GetAnswer V

/-- `State::Match`. -/
def GetState.visit (read : FileMetaData K → TableRead V) (s : GetState K V) (level : Nat) (f : FileMetaData K) :
    Bool × GetState K V :=
  let stats := if s.stats.seekFile.isNone && s.lastFileRead.isSome then ⟨s.lastFileRead,s.lastFileReadLevel⟩ else s.stats
  let s : GetState K V := ⟨stats,some f,level,s.answer⟩
  match read f with
  | .failed => (false,{ s with answer := .failed })
  | .corrupt => (false,{ s with answer := .corruption })
  | .saved .notFound => (true,s)
  | .saved (.found value) => (false,{ s with answer := .found value })
  | .saved .deleted => (false,{ s with answer := .deleted })

/-- `Version::Get`, with what each table gives. -/
def Version.getCharging (v : Version K) (read : FileMetaData K → TableRead V) (user : K) (snapshot : Nat) : GetState K V :=
  visitAll (GetState.visit read) ⟨.none,none,-1,.notFound⟩ (v.visits user (lookupKey user snapshot))

/-- The `State` of `RecordReadSample`. -/
structure SampleState (K : Type) where
  stats : GetStats K
  matches_ : Nat

def SampleState.visit (s : SampleState K) (level : Nat) (f : FileMetaData K) : Bool × SampleState K :=
  let found := s.matches_ + 1
  (decide (found < 2),⟨if found = 1 then ⟨some f,level⟩ else s.stats,found⟩)

theorem overlappingAt_cases (v : Version K) (user : K) (target : InternalKey K) (level : Nat) :
    v.overlappingAt user target level = [] ∨ ∃ f ∈ v.files level, v.overlappingAt user target level = [f] := by
  unfold Version.overlappingAt
  split
  · rename_i f found
    split
    · exact .inl rfl
    · exact .inr ⟨f,List.mem_of_getElem? found,rfl⟩
  · exact .inl rfl

theorem Version.mem_visits {v : Version K} {user : K} {target : InternalKey K} {level : Nat} {f : FileMetaData K}
    (member : (level,f) ∈ v.visits user target) : level < kNumLevels ∧ f ∈ v.files level := by
  rcases List.mem_append.mp member with shallow | deep
  · obtain ⟨g,there,same⟩ := List.mem_map.mp shallow
    cases same
    have filtered := (List.mem_insertionSort _).mp there
    exact ⟨by decide,(List.mem_filter.mp filtered).1⟩
  · obtain ⟨l,range,there⟩ := List.mem_flatMap.mp deep
    obtain ⟨g,inside,same⟩ := List.mem_map.mp there
    cases same
    have bound := List.mem_range'_1.mp range
    constructor
    · simp only [kNumLevels] at bound ⊢
      omega
    · rcases overlappingAt_cases v user target level with none | ⟨h,own,one⟩
      · simp only [none] at inside
        cases inside
      · simp only [one] at inside
        exact List.mem_singleton.mp inside ▸ own

/-- After a file of a deeper level comes none of the same level. -/
theorem Version.visits_deepen (v : Version K) (user : K) (target : InternalKey K) :
    (v.visits user target).Pairwise fun a b => a.1 = 0 ∨ a.1 < b.1 := by
  apply List.pairwise_append.mpr ⟨?_,?_,?_⟩
  · exact List.pairwise_map.mpr (List.pairwise_of_forall fun _ _ => .inl rfl)
  · apply List.pairwise_flatMap.mpr ⟨?_,?_⟩
    · intro level _
      rcases overlappingAt_cases v user target level with none | ⟨f,-,one⟩
      · simp [none]
      · simp [one]
    · have increasing : (List.range' 1 (kNumLevels - 1)).Pairwise (· < ·) := List.pairwise_lt_range'
      apply increasing.imp
      intro l l' lt a inside b inside'
      obtain ⟨f,-,rfl⟩ := List.mem_map.mp inside
      obtain ⟨g,-,rfl⟩ := List.mem_map.mp inside'
      exact .inr lt
  · intro a shallow b _
    obtain ⟨f,-,rfl⟩ := List.mem_map.mp shallow
    exact .inl rfl

omit [LinearOrder K] in
/-- The loop goes over the files up to one that stops it. -/
theorem visitAll_spec {A : Type} (func : A → Nat → FileMetaData K → Bool × A) (arg : A)
    (files : List (Nat × FileMetaData K)) : ∃ visited, visited <+: files ∧
      visitAll func arg files = visited.foldl (fun arg x => (func arg x.1 x.2).2) arg := by
  induction files generalizing arg with
  | nil => exact ⟨[],List.prefix_rfl,rfl⟩
  | cons x rest ih =>
    obtain ⟨level,f⟩ := x
    unfold visitAll
    split
    · obtain ⟨visited,front,result⟩ := ih (func arg level f).2
      exact ⟨(level,f) :: visited,List.cons_prefix_cons.mpr ⟨rfl,front⟩,result⟩
    · exact ⟨[(level,f)],List.cons_prefix_cons.mpr ⟨rfl,List.nil_prefix⟩,rfl⟩

/-- The first of two or more files. -/
def charge : List (Nat × FileMetaData K) → GetStats K
  | (level,f) :: _ :: _ => ⟨some f,level⟩
  | _ => .none

/-- What is charged can be compacted: it is no file of the last level. -/
def GetStats.Fits (stats : GetStats K) (v : Version K) : Prop :=
  ∀ f, stats.seekFile = some f → ∃ level : Nat, stats.seekFileLevel = level ∧ level + 2 ≤ kNumLevels ∧ f ∈ v.files level

omit [LinearOrder K] in
theorem GetStats.fits_none (v : Version K) : (GetStats.none : GetStats K).Fits v := by
  rintro f ⟨⟩

theorem charge_fits {v : Version K} {user : K} {target : InternalKey K} {visited : List (Nat × FileMetaData K)}
    (front : visited <+: v.visits user target) : (charge visited).Fits v := by
  have deepen := (v.visits_deepen user target).sublist front.sublist
  cases visited with
  | nil => exact GetStats.fits_none v
  | cons a rest =>
    cases rest with
    | nil => exact GetStats.fits_none v
    | cons b rest =>
      obtain ⟨level,f⟩ := a
      rintro _ ⟨⟩
      have own := Version.mem_visits (front.subset List.mem_cons_self)
      have next := Version.mem_visits (front.subset (List.mem_cons_of_mem _ List.mem_cons_self) : (b.1,b.2) ∈ _)
      refine ⟨level,rfl,?_,own.2⟩
      rcases (List.pairwise_cons.mp deepen).1 b List.mem_cons_self with zero | deeper
      · simp only at zero
        simp only [zero,kNumLevels]
        omega
      · simp only at deeper
        omega

/-- The `State` of `Version::Get` after these files. -/
structure GetState.After (s : GetState K V) (done : List (Nat × FileMetaData K)) : Prop where
  stats : s.stats = charge done
  last : s.lastFileRead = done.getLast?.map (·.2)
  level : ∀ x, done.getLast? = some x → s.lastFileReadLevel = x.1

omit [LinearOrder K] in
theorem GetState.After.visit {s : GetState K V} {done : List (Nat × FileMetaData K)} (after : s.After done)
    (read : FileMetaData K → TableRead V) (level : Nat) (f : FileMetaData K) :
    (s.visit read level f).2.After (done ++ [(level,f)]) := by
  have charged : (if s.stats.seekFile.isNone && s.lastFileRead.isSome then
      (⟨s.lastFileRead,s.lastFileReadLevel⟩ : GetStats K) else s.stats) = charge (done ++ [(level,f)]) := by
    cases done with
    | nil => simp [after.stats,after.last,charge]
    | cons a rest =>
      cases rest with
      | nil => simp [after.stats,after.last,after.level a rfl,charge,GetStats.none]
      | cons b rest => simp [after.stats,charge]
  have read' : ∀ answer, (⟨if s.stats.seekFile.isNone && s.lastFileRead.isSome then
      (⟨s.lastFileRead,s.lastFileReadLevel⟩ : GetStats K) else s.stats,some f,level,answer⟩ : GetState K V).After
        (done ++ [(level,f)]) := by
    intro answer
    refine ⟨charged,by simp,?_⟩
    intro x last
    simp only [List.getLast?_concat,Option.some.injEq] at last
    simp [← last]
  simp only [GetState.visit]
  split <;> exact read' _

theorem Version.getCharging_fits (v : Version K) (read : FileMetaData K → TableRead V) (user : K) (snapshot : Nat) :
    (v.getCharging read user snapshot).stats.Fits v := by
  have fold : ∀ (files done : List (Nat × FileMetaData K)) (s : GetState K V), s.After done →
      (files.foldl (fun s x => (GetState.visit read s x.1 x.2).2) s).After (done ++ files) := by
    intro files
    induction files with
    | nil => exact fun done s after => by simpa using after
    | cons x files ih =>
      intro done s after
      have next := ih _ _ (after.visit read x.1 x.2)
      simpa using next
  obtain ⟨visited,front,result⟩ := visitAll_spec (GetState.visit read) ⟨.none,none,-1,.notFound⟩
    (v.visits user (lookupKey user snapshot))
  have after := fold visited [] ⟨.none,none,-1,.notFound⟩ ⟨rfl,rfl,by rintro x ⟨⟩⟩
  simp only [Version.getCharging,result,after.stats,List.nil_append]
  exact charge_fits front

omit [LinearOrder K] in
/-- The file that a sample remembers is the first one. -/
theorem SampleState.charges (files : List (Nat × FileMetaData K)) (first : Nat × FileMetaData K) :
    let s := files.foldl (fun s x => (SampleState.visit s x.1 x.2).2) ⟨⟨some first.2,first.1⟩,1⟩
    s.stats = ⟨some first.2,first.1⟩ ∧ s.matches_ = files.length + 1 := by
  have fold : ∀ (files : List (Nat × FileMetaData K)) (n : Nat), 0 < n →
      files.foldl (fun s x => (SampleState.visit s x.1 x.2).2) ⟨⟨some first.2,first.1⟩,n⟩ =
        ⟨⟨some first.2,first.1⟩,n + files.length⟩ := by
    intro files
    induction files with
    | nil => exact fun n _ => rfl
    | cons x files ih =>
      intro n positive
      have later : n + 1 ≠ 1 := by omega
      have same : (SampleState.visit ⟨⟨some first.2,first.1⟩,n⟩ x.1 x.2).2 = ⟨⟨some first.2,first.1⟩,n + 1⟩ := by
        simp only [SampleState.visit,later,if_false]
      have count : n + 1 + files.length = n + (x :: files).length := by
        simp only [List.length_cons]
        omega
      simp only [List.foldl_cons,same]
      exact (ih (n + 1) (Nat.succ_pos n)).trans (congrArg _ count)
  have result := fold files 1 Nat.one_pos
  exact ⟨congrArg SampleState.stats result,(congrArg SampleState.matches_ result).trans (Nat.add_comm 1 _)⟩

theorem Version.sample_fits (v : Version K) (user : K) (target : InternalKey K)
    (enough : 2 ≤ (visitAll SampleState.visit ⟨.none,0⟩ (v.visits user target)).matches_) :
    (visitAll SampleState.visit ⟨.none,0⟩ (v.visits user target)).stats.Fits v := by
  obtain ⟨visited,front,result⟩ := visitAll_spec SampleState.visit ⟨.none,0⟩ (v.visits user target)
  simp only [result] at enough ⊢
  cases visited with
  | nil => cases enough
  | cons a rest =>
    obtain ⟨stats,count⟩ := SampleState.charges rest a
    have first : (a :: rest).foldl (fun s x => (SampleState.visit s x.1 x.2).2) (⟨.none,0⟩ : SampleState K) =
        rest.foldl (fun s x => (SampleState.visit s x.1 x.2).2) ⟨⟨some a.2,a.1⟩,1⟩ := rfl
    simp only [first,stats,count] at enough ⊢
    cases rest with
    | nil => simp at enough
    | cons b rest => exact charge_fits front

end Visits

section Objects

/-- The arithmetic of the scores, which are doubles. -/
structure Doubles (S : Type) [LinearOrder S] where
  quotient : Nat → Nat → S
  one : S
  minusOne : S
  zero_lt : ∀ b, 0 < b → quotient 0 b < one
  minusOne_lt : minusOne < one

def kL0_CompactionTrigger : Nat := 4

/-- Not used at level 0. -/
def maxBytesForLevel (level : Nat) : Nat := 10 * 1048576 * 10^(level - 1)

def Doubles.score (d : Doubles S) (v : Version K) (level : Nat) : S :=
  if level = 0 then d.quotient (v.files 0).length kL0_CompactionTrigger
  else d.quotient (totalFileSize (v.files level)) (maxBytesForLevel level)

/-- `Finalize`: the level with the best score, and the score. -/
def Doubles.finalize (d : Doubles S) (v : Version K) : Int × S :=
  (List.range (kNumLevels - 1)).foldl
    (fun best level => if best.2 < d.score v level then ((level : Int),d.score v level) else best) (-1,d.minusOne)

/-- A `Version` with what changes in it. The counters of its files belong to the files. -/
structure VersionObject (K S : Type) where
  version : Version K
  compactionLevel : Int
  compactionScore : S
  allowedSeeks : Nat → Int
  fileToCompact : Option (FileMetaData K)
  fileToCompactLevel : Int

namespace VersionObject

def new (d : Doubles S) (v : Version K) (allowedSeeks : Nat → Int) : VersionObject K S :=
  ⟨v,(d.finalize v).1,(d.finalize v).2,allowedSeeks,none,-1⟩

def updateStats (x : VersionObject K S) (stats : GetStats K) : Bool × VersionObject K S :=
  match stats.seekFile with
  | none => (false,x)
  | some f =>
    let seeks := x.allowedSeeks f.number - 1
    let x := { x with allowedSeeks := Function.update x.allowedSeeks f.number seeks }
    if seeks ≤ 0 ∧ x.fileToCompact.isNone then
      (true,{ x with fileToCompact := some f, fileToCompactLevel := stats.seekFileLevel })
    else (false,x)

/-- A key that cannot be parsed is left out of account. -/
def recordReadSample (x : VersionObject K S) (internalKey : Option (InternalKey K)) : Bool × VersionObject K S :=
  match internalKey with
  | none => (false,x)
  | some ikey =>
    let s := visitAll SampleState.visit ⟨.none,0⟩ (x.version.visits ikey.userKey ikey)
    if 2 ≤ s.matches_ then x.updateStats s.stats else (false,x)

def filesAt (x : VersionObject K S) (level : Int) : Option (List (FileMetaData K)) :=
  if 0 ≤ level ∧ level < kNumLevels then some (x.version.files level.toNat) else none

/-- The level to compact: for its size, or for a file of it. -/
def cause (d : Doubles S) (x : VersionObject K S) : Option (Int × Option (FileMetaData K)) :=
  if d.one ≤ x.compactionScore then some (x.compactionLevel,none)
  else x.fileToCompact.map fun f => (x.fileToCompactLevel,some f)

/-- `PickCompaction` and `SetupOtherInputs`: an index that is no level, a first file of an
empty level and an assertion that fails give `none`. -/
def pickCompaction (d : Doubles S) (o : Options K V) (x : VersionObject K S) (pointer : Nat → Option (InternalKey K)) :
    Option (Option (Compaction K)) :=
  match x.cause d with
  | none => some none
  | some (level,file) =>
    (x.filesAt level).bind fun files => (x.filesAt (level + 1)).bind fun _ =>
      let chosen := file.elim (pickFile (pointer level.toNat) files) ([·])
      if chosen.isEmpty then none
      else
        let inputs := if level = 0 then
            x.version.getOverlappingInputs 0 ((getRange chosen).map (·.1)) ((getRange chosen).map (·.2))
          else chosen
        if inputs.isEmpty then none else some (some (x.version.setupOtherInputs o level.toNat inputs))

end VersionObject

/-- What is done to one version. Its files are shared with other versions, and reads of these
may change the counters. -/
inductive SeekCall (K V : Type) where
  | get (user : K) (snapshot : Nat) (read : FileMetaData K → TableRead V)
  | updateStats (index : Nat)
  | recordReadSample (internalKey : Option (InternalKey K))
  | others (allowedSeeks : Nat → Int)

/-- A version and the statistics that its reads have given. -/
structure Seeks (K S : Type) where
  object : VersionObject K S
  stats : List (GetStats K)

def Seeks.call (s : Seeks K S) : SeekCall K V → Seeks K S
  | .get user snapshot read => { s with stats := s.stats ++ [(s.object.version.getCharging read user snapshot).stats] }
  | .updateStats index => (s.stats[index]?).elim s fun stats => { s with object := (s.object.updateStats stats).2 }
  | .recordReadSample internalKey => { s with object := (s.object.recordReadSample internalKey).2 }
  | .others allowedSeeks => { s with object := { s.object with allowedSeeks } }

def Seeks.run (s : Seeks K S) (calls : List (SeekCall K V)) : Seeks K S := calls.foldl Seeks.call s

/-- A level with a score of one has files. -/
theorem Doubles.due (d : Doubles S) {v : Version K} {level : Nat} (shallow : level + 1 < kNumLevels)
    (score : d.one ≤ d.score v level) : v.due (.size level) = true := by
  have files : v.files level ≠ [] := by
    intro none
    apply not_lt_of_ge score
    unfold Doubles.score
    split
    · rename_i zero
      simp only [← zero,none]
      exact d.zero_lt 4 (by decide)
    · simp only [none]
      exact d.zero_lt (maxBytesForLevel level) (Nat.mul_pos (by decide) (Nat.pow_pos (by decide)))
  simp [Version.due,shallow,files]

theorem Doubles.finalize_due (d : Doubles S) {v : Version K} (score : d.one ≤ (d.finalize v).2) :
    ∃ level : Nat, (d.finalize v).1 = level ∧ v.due (.size level) = true := by
  have fold : ∀ (levels : List Nat) (best : Int × S), (∀ level ∈ levels, level + 1 < kNumLevels) →
      (d.one ≤ best.2 → ∃ level : Nat, best.1 = level ∧ v.due (.size level) = true) →
      let best' := levels.foldl (fun best level =>
        if best.2 < d.score v level then ((level : Int),d.score v level) else best) best
      d.one ≤ best'.2 → ∃ level : Nat, best'.1 = level ∧ v.due (.size level) = true := by
    intro levels
    induction levels with
    | nil => exact fun best _ found => found
    | cons level rest ih =>
      intro best shallow found
      apply ih _ fun l later => shallow l (List.mem_cons_of_mem level later)
      dsimp only
      split
      · exact fun score => ⟨level,rfl,d.due (shallow level List.mem_cons_self) score⟩
      · exact found
  apply fold (List.range (kNumLevels - 1)) (-1,d.minusOne) ?_ ?_ score
  · intro level inside
    have bound := List.mem_range.mp inside
    omega
  · exact fun one => absurd one (not_le_of_gt d.minusOne_lt)

/-- What holds of a version while it is read and sampled. -/
structure VersionObject.Fits (d : Doubles S) (v : Version K) (x : VersionObject K S) : Prop where
  version : x.version = v
  level : x.compactionLevel = (d.finalize v).1
  score : x.compactionScore = (d.finalize v).2
  charged : (⟨x.fileToCompact,x.fileToCompactLevel⟩ : GetStats K).Fits v

structure Seeks.Fits (d : Doubles S) (v : Version K) (s : Seeks K S) : Prop where
  object : s.object.Fits d v
  stats : ∀ stats ∈ s.stats, stats.Fits v

section Calls
variable {d : Doubles S} {v : Version K} {x : VersionObject K S} {s : Seeks K S}

omit [LinearOrder K] in
theorem VersionObject.Fits.updateStats {stats : GetStats K} (fits : x.Fits d v) (charged : stats.Fits v) :
    (x.updateStats stats).2.Fits d v := by
  unfold VersionObject.updateStats
  split
  · exact fits
  · rename_i f isFile
    dsimp only
    split
    · refine ⟨fits.version,fits.level,fits.score,?_⟩
      rintro _ ⟨⟩
      exact charged f isFile
    · exact ⟨fits.version,fits.level,fits.score,fits.charged⟩

theorem VersionObject.Fits.recordReadSample (fits : x.Fits d v) (internalKey : Option (InternalKey K)) :
    (x.recordReadSample internalKey).2.Fits d v := by
  unfold VersionObject.recordReadSample
  split
  · exact fits
  · rename_i ikey
    simp only [fits.version]
    split
    · rename_i enough
      exact fits.updateStats (v.sample_fits ikey.userKey ikey enough)
    · exact fits

theorem Seeks.Fits.call (fits : s.Fits d v) (call : SeekCall K V) : (s.call call).Fits d v := by
  cases call with
  | get user snapshot read =>
    refine ⟨fits.object,?_⟩
    intro stats member
    rcases List.mem_append.mp member with old | new
    · exact fits.stats stats old
    · simp only [List.mem_singleton,fits.object.version] at new
      exact new ▸ v.getCharging_fits read user snapshot
  | updateStats index =>
    simp only [Seeks.call]
    cases found : s.stats[index]? with
    | none => exact fits
    | some stats => exact ⟨fits.object.updateStats (fits.stats stats (List.mem_of_getElem? found)),fits.stats⟩
  | recordReadSample internalKey => exact ⟨fits.object.recordReadSample internalKey,fits.stats⟩
  | others allowedSeeks =>
    exact ⟨⟨fits.object.version,fits.object.level,fits.object.score,fits.object.charged⟩,fits.stats⟩

theorem Seeks.Fits.run (fits : s.Fits d v) (calls : List (SeekCall K V)) : (s.run calls).Fits d v := by
  induction calls generalizing s with
  | nil => exact fits
  | cons call rest ih => exact ih (fits.call call)

omit [LinearOrder K] in
theorem Seeks.fits_new (d : Doubles S) (v : Version K) (seeks : Nat → Int) :
    (⟨.new d v seeks,[]⟩ : Seeks K S).Fits d v := by
  refine ⟨⟨rfl,rfl,rfl,?_⟩,?_⟩
  · rintro f ⟨⟩
  · rintro stats ⟨⟩

end Calls

section Picks
variable {d : Doubles S} {v : Version K} {x : VersionObject K S}

/-- The level and the file in the words of the model of the database. -/
def trigger (level : Nat) (file : Option (FileMetaData K)) : Trigger K := file.elim (.size level) (.seek level)

theorem VersionObject.Fits.cause_due (fits : x.Fits d v) {level : Int} {file : Option (FileMetaData K)}
    (cause : x.cause d = some (level,file)) : ∃ n : Nat, level = n ∧ v.due (trigger n file) = true := by
  unfold VersionObject.cause at cause
  split at cause
  · rename_i score
    cases cause
    simp only [fits.score] at score
    simp only [fits.level]
    exact d.finalize_due score
  · obtain ⟨f,isFile,same⟩ := Option.map_eq_some_iff.mp cause
    cases same
    obtain ⟨n,isLevel,deep,own⟩ := fits.charged f isFile
    refine ⟨n,isLevel,?_⟩
    simp only [trigger,Option.elim_some,Version.due,Bool.and_eq_true,decide_eq_true_eq]
    exact ⟨deep,own⟩

omit [LinearOrder K] [LinearOrder S] in
/-- The index is in bounds. -/
theorem VersionObject.filesAt_level (x : VersionObject K S) {n : Nat} (bound : n < kNumLevels) :
    x.filesAt n = some (x.version.files n) := by
  unfold VersionObject.filesAt
  split
  · rfl
  · rename_i outside
    omega

/-- `PickCompaction` of the object is that of the model of the database. -/
theorem VersionObject.Fits.pickCompaction (fits : x.Fits d v) (ranged : v.Ranged) (o : Options K V)
    (pointer : Nat → Option (InternalKey K)) : ∃ picked, x.pickCompaction d o pointer = some picked ∧
      ∀ c, picked = some c → c.inputs0 ≠ [] ∧ v.Builds o c := by
  cases cause : x.cause d with
  | none => exact ⟨none,by simp [VersionObject.pickCompaction,cause],by rintro c ⟨⟩⟩
  | some found =>
    obtain ⟨level,file⟩ := found
    obtain ⟨n,rfl,due⟩ := fits.cause_due cause
    have bound : n + 1 < kNumLevels := by
      cases file <;> simp only [trigger,Option.elim_none,Option.elim_some,Version.due,Bool.and_eq_true,decide_eq_true_eq] at due <;>
        exact due.1
    -- the one file that the compaction starts from
    obtain ⟨f,own,chosen⟩ : ∃ f ∈ v.files n, file.elim (pickFile (pointer n) (v.files n)) ([·]) = [f] := by
      cases file with
      | none =>
        simp only [trigger,Option.elim_none,Version.due,Bool.and_eq_true,Bool.not_eq_true',List.isEmpty_eq_false_iff] at due
        exact pickFile_single (pointer n) (v.files n) due.2
      | some f =>
        simp only [trigger,Option.elim_some,Version.due,Bool.and_eq_true,decide_eq_true_eq] at due
        exact ⟨f,due.2,rfl⟩
    have inputs : (if n = 0 then v.getOverlappingInputs 0 ((getRange [f]).map (·.1)) ((getRange [f]).map (·.2))
        else [f]) ≠ [] := by
      split
      · rename_i zero
        subst zero
        exact List.ne_nil_of_mem (v.overlapping_self f own (ranged f own))
      · exact List.cons_ne_nil f []
    have next : x.filesAt ((n : Int) + 1) = some (v.files (n + 1)) := fits.version ▸ x.filesAt_level bound
    have same : v.pickCompaction o pointer (trigger n file) = v.setupOtherInputs o n
        (if n = 0 then v.getOverlappingInputs 0 ((getRange [f]).map (·.1)) ((getRange [f]).map (·.2)) else [f]) := by
      cases file <;> simp only [Option.elim_none,Option.elim_some] at chosen <;>
        simp only [Version.pickCompaction,trigger,Option.elim_none,Option.elim_some,chosen]
    have here : x.filesAt n = some (v.files n) := fits.version ▸ x.filesAt_level (Nat.lt_of_succ_lt bound)
    refine ⟨some (v.pickCompaction o pointer (trigger n file)),?_,?_⟩
    · simp only [VersionObject.pickCompaction,cause,here,next,Option.bind_some,Int.toNat_natCast,chosen,fits.version,
        Int.natCast_eq_zero,List.isEmpty_iff,inputs,if_false,same,List.cons_ne_nil]
    · rintro c ⟨⟩
      exact ⟨same ▸ setupOtherInputs_nonempty v o n _ inputs,.pick pointer (trigger n file) due⟩

/-- After any reads and samples of a version that the database has reached, also after
failures, a file to compact is a file of the version above its last level, and the compaction
that is picked starts from at least one file. -/
theorem seek_compaction_level (d : Doubles S) {o : Options K V} {ls : List (Label K V)} {s : State K V} {db : Db K V}
    (run : State.initial.run o ls = some s) (running : s.process = .running db) (seeks : Nat → Int)
    (calls : List (SeekCall K V)) :
    let x := (Seeks.run ⟨.new d db.versions.current seeks,[]⟩ calls).object
    (∀ f, x.fileToCompact = some f → ∃ level : Nat, x.fileToCompactLevel = level ∧ level ≤ kNumLevels - 2 ∧
      f ∈ db.versions.current.files level) ∧
    ∀ pointer, ∃ picked, x.pickCompaction d o pointer = some picked ∧ ∀ c, picked = some c →
      c.inputs0 ≠ [] ∧ c.level + 1 < kNumLevels ∧ db.versions.current.Builds o c := by
  have ranged := ((ranged_of_run run).running db running).current
  have fits := (Seeks.fits_new d db.versions.current seeks).run calls
  constructor
  · intro f isFile
    obtain ⟨level,isLevel,deep,own⟩ := fits.object.charged f isFile
    exact ⟨level,isLevel,by omega,own⟩
  · intro pointer
    obtain ⟨picked,picks,built⟩ := fits.object.pickCompaction ranged o pointer
    refine ⟨picked,picks,?_⟩
    intro c isCompaction
    obtain ⟨nonempty,builds⟩ := built c isCompaction
    exact ⟨nonempty,builds.within.level,builds⟩

def rationals : Doubles ℚ := ⟨fun a b => a / b,1,-1,by intro b _; simp,by norm_num⟩

/-- Two tables with the same keys, at level 2 and at level 1. A read of both charges the
second, and it is compacted. -/
theorem seek_compaction_level_charged : ∃ s db, State.initial.run smallOptions
      (openRun ++ tableRun 1 [(1,some 1),(2,some 1)] ++ flushRun ++ tableRun 3 [(1,some 2),(2,some 2)] ++ flushRun) = some s ∧
    s.process = .running db ∧
    let x := (Seeks.run ⟨.new rationals db.versions.current fun _ => 1,[]⟩
      [.get 1 2 fun _ => .saved (.notFound : SaverState Nat),.updateStats 0]).object
    ∃ f c, x.fileToCompact = some f ∧ x.fileToCompactLevel = 1 ∧ f ∈ db.versions.current.files 1 ∧
      x.pickCompaction rationals smallOptions (fun _ => none) = some (some c) ∧ c.inputs0 ≠ [] := by
  obtain ⟨s,db,run,running,found⟩ := exists_run smallOptions
    (openRun ++ tableRun 1 [(1,some 1),(2,some 1)] ++ flushRun ++ tableRun 3 [(1,some 2),(2,some 2)] ++ flushRun)
    (fun _ db =>
      let x := (Seeks.run ⟨.new rationals db.versions.current fun _ => 1,[]⟩
        [.get 1 2 fun _ => .saved (.notFound : SaverState Nat),.updateStats 0]).object
      x.fileToCompact.isSome && decide (x.fileToCompactLevel = 1) &&
        (x.pickCompaction rationals smallOptions fun _ => none).any (·.isSome)) (by decide +kernel)
  simp only [Bool.and_eq_true,decide_eq_true_eq] at found
  obtain ⟨⟨charged,atLevel⟩,some⟩ := found
  obtain ⟨f,isFile⟩ := Option.isSome_iff_exists.mp charged
  obtain ⟨fits,picks⟩ := seek_compaction_level rationals run running (fun _ => 1)
    [.get 1 2 fun _ => .saved (.notFound : SaverState Nat),.updateStats 0]
  obtain ⟨level,isLevel,-,own⟩ := fits f isFile
  cases Int.natCast_inj.mp (isLevel.symm.trans atLevel : (level : Int) = (1 : Nat))
  obtain ⟨picked,picks,built⟩ := picks fun _ => none
  simp only [picks,Option.any_some] at some
  obtain ⟨c,rfl⟩ := Option.isSome_iff_exists.mp some
  exact ⟨s,db,run,running,f,c,isFile,atLevel,own,picks,(built c rfl).1⟩

end Picks

end Objects

end LevelDB
