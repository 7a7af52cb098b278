import LevelDB.FileRecovery
import LevelDB.LevelDisjoint

/-! A crash during a change of version. `NewDB`, `LogAndApply` and `SetCurrentFile` are cut
off at any point; the next `DB::Open` finds the version before or after the change, with
its tables, where what an earlier crash had left of the manifest may be lost again. -/
namespace LevelDB

variable {K V : Type} [LinearOrder K]

/-- The versions before and after the edit that is being committed. -/
def State.edit (s : State K V) : Option (Version K × Version K) :=
  match s.process with
  | .running db => db.job.commit.map fun c => (db.versions.current,c.version)
  | .opening (.commit versions _ c _) => some (versions.current,c.version)
  | .opening (.newDb _) => some (Version.empty,Version.empty)
  | _ => none

/-- A recovery has read records of the manifest that were never synced, and `CURRENT` still
names that manifest: the version is the one before one of these records. -/
def State.Torn (s : State K V) (v : Version K) : Prop :=
  match s.process with
  | .opening (.commit _ _ _ stage) => stage ≠ .install ∧ ∃ m k, s.disk.current.bind s.disk.manifests = some m ∧
      m.synced ≤ k ∧ k < m.records.length ∧ v = (m.upTo k).version
  | _ => False

/-- The tables of the version are on the disk, whole. -/
def Version.Complete (o : Options K V) (d : Disk K V) (v : Version K) : Prop :=
  ∀ level, ∀ f ∈ v.files level, ∃ entries, d.tables f.number = some ⟨entries,true⟩ ∧ outputFile o f.number entries = some f

/-- `DB::Open` after the crash makes a new database, or recovers one of these versions. -/
def State.Recovers (o : Options K V) (s : State K V) (cut : Cut) (versions : Version K → Prop) : Prop :=
  (∃ t, (s.crash cut).run o [.openDb] = some t ∧ t.process = .opening (.newDb .sync)) ∨
    ∃ t r, (s.crash cut).run o [.openDb,.recover] = some t ∧ t.process = .opening (.replay r) ∧
      r.versions.current.Complete o t.disk ∧ versions r.versions.current

section Crash
variable {o : Options K V} {s : State K V}

/-- What `DB::Open` recovers from a manifest that a crash has cut. -/
theorem Disk.Files.reopens {file : Nat → Option (FileMetaData K)} {number : Nat} {m : ManifestFile K V}
    (disk : s.disk.Files o file number m) (cut : Cut) {versions : Version K → Prop}
    (all : ∀ k, m.synced ≤ k → k ≤ m.records.length → versions (m.upTo k).version) : s.Recovers o cut versions := by
  have crashed := disk.crash cut
  have length := cut_length m (cut (.manifest number)) disk.synced
  have opened : (s.crash cut).openDb = some { s.crash cut with process := .opening .recover } := by
    have named : (s.crash cut).disk.currentFile = some (.line number) := crashed.named
    simp only [State.openDb,State.crash] at named ⊢
    simp only [named]
  have recovers := Disk.Files.recovers (s := { s.crash cut with process := .opening .recover }) crashed rfl
  have run : (s.crash cut).run o [.openDb,.recover] = State.recover { s.crash cut with process := .opening .recover } := by
    show (s.crash cut).openDb.bind _ = _
    rw [opened,Option.bind_some]
    show (State.recover { s.crash cut with process := .opening .recover }).bind some = _
    exact Option.bind_fun_some _
  rw [recovers] at run
  refine .inr ⟨_,_,run,rfl,fun level f hf => ?_,?_⟩
  · exact (crashed.whole.kept.files level f hf).table
  · have same := all (m.cut (cut (.manifest number))).records.length length.1 length.2
    rw [← cut_upTo m _ _ le_rfl,ManifestFile.upTo,List.take_length] at same
    exact same

/-- The versions that the manifest of an open database may lead to after a crash. -/
theorem Core.Linked.around {c : Core K V} {m : ManifestFile K V} (linked : c.Linked m) {commit : Commit K}
    (isCommit : c.job.commit = some commit) (k : Nat) (low : m.synced ≤ k) (high : k ≤ m.records.length) :
    (m.upTo k).version = c.versions.current ∨ (m.upTo k).version = commit.version := by
  have whole : k = m.records.length → (m.upTo k).version = c.recorded := by
    rintro rfl
    rw [ManifestFile.upTo,List.take_length,linked.version]
  by_cases sync : commit.stage = .sync
  · obtain ⟨length,before⟩ := linked.appended commit isCommit sync
    rcases Nat.eq_or_lt_of_le low with rfl | later
    · exact .inl before
    · right
      rw [whole (by omega),Core.recorded,isCommit]
      simp [sync]
  · have synced := linked.synced fun commit' some => by
      rw [isCommit] at some
      cases some
      exact sync
    rw [whole (by omega),Core.recorded,isCommit]
    simp only
    split
    · exact .inl rfl
    · exact .inr rfl

/-- A crash at any point of a change of version, also of a change that a recovery makes. -/
theorem crash_atomic {ls : List (Label K V)} (okay : ∀ l ∈ ls, l.manifestOk = true)
    (run : State.initial.run o ls = some s) {before after : Version K} (edit : s.edit = some (before,after))
    (cut : Cut) : s.Recovers o cut fun v => v = before ∨ v = after ∨ s.Torn v := by
  have files : s.Files o false [] :=
    (State.Files.run (P := fun _ => True) (s := State.initial) (.inl ⟨rfl,rfl,rfl⟩) (by rintro _ ⟨⟩) trivial (.inr okay) run
      fun _ _ _ _ _ _ _ => trivial).1
  cases process : s.process with
  | down =>
    rw [State.edit,process] at edit
    cases edit
  | running db =>
    rw [State.Files,process] at files
    rw [State.edit,process] at edit
    obtain ⟨file,m,core⟩ := files
    obtain ⟨commit,isCommit,same⟩ := Option.map_eq_some_iff.mp edit
    cases same
    refine core.disk.reopens cut fun k low high => ?_
    rcases (core.linked (.inl rfl)).around isCommit k low high with old | new
    · exact .inl old
    · exact .inr (.inl new)
  | opening p =>
    rw [State.Files,process] at files
    rw [State.edit,process] at edit
    cases p with
    | newDb stage =>
      have current : s.disk.currentFile = none := files.1.current
      obtain ⟨t,opened,isNew⟩ : ∃ t, (s.crash cut).openDb = some t ∧ t.process = .opening (.newDb .sync) := by
        simp [State.openDb,State.crash,Disk.crash,current,State.note]
      refine .inl ⟨t,?_,isNew⟩
      show (s.crash cut).openDb.bind some = _
      rw [opened,Option.bind_some]
    | commit versions log c stage =>
      cases edit
      obtain ⟨file,opened,-,-,rest⟩ := files
      split at rest
      · refine rest.reopens cut fun k low high => ?_
        have two : k = 2 := le_antisymm high low
        subst two
        exact .inr (.inl (opened.restores s.history).2.1)
      · rename_i notInstalled
        obtain ⟨number,m,disk,-,current⟩ := rest
        refine disk.reopens cut fun k low high => ?_
        rcases Nat.eq_or_lt_of_le high with rfl | less
        · left
          rw [current,ManifestFile.upTo,List.take_length]
        · right
          right
          rw [State.Torn,process]
          exact ⟨notInstalled,m,k,by rw [disk.current]; exact disk.manifest,low,less,rfl⟩
    | recover => cases edit
    | replay r => cases edit
    | failed => cases edit

/-- The record of a flush is in the manifest, unsynced, and a crash leaves it there; the
recovery has written its own manifest and the temp file for it, which is not synced yet. -/
def tornRun : List (Label Nat Nat) :=
  openRun ++ tableRun 1 [(1,some 1),(2,some 1)] ++ [.beginFlush,.buildTable .ok,.buildTable .ok,.appendManifest .ok,
    .crash fun _ => 10,.openDb,.recover,.replay,.replay] ++ List.replicate 5 .openCommit

/-- The numbers of the tables that `Recover` has found. -/
def State.recoveredNumbers (s : State K V) : Option (List Nat) :=
  match s.process with
  | .opening (.replay r) => some r.versions.current.numbers
  | _ => none

def State.makesDb (s : State K V) : Bool :=
  match s.process with
  | .opening (.newDb _) => true
  | _ => false

/-- The second crash loses what the first one had left. -/
theorem crash_not_atomic : ∃ s cut before after, (∀ l ∈ tornRun, l.ok = true) ∧
    State.initial.run smallOptions tornRun = some s ∧ s.edit = some (before,after) ∧
      ¬s.Recovers smallOptions cut fun v => v = before ∨ v = after := by
  have found : (State.initial.run smallOptions tornRun).any (fun s =>
      (s.edit.map fun e => (e.1.numbers,e.2.numbers)) == some ([5],[5]) &&
      ((s.crash fun _ => 0).run smallOptions [.openDb,.recover]).all (fun t => t.recoveredNumbers == some []) &&
      ((s.crash fun _ => 0).run smallOptions [.openDb]).all fun t => !t.makesDb) = true := by decide +kernel
  obtain ⟨s,run,holds⟩ := (Option.any_eq_true _ _).mp found
  simp only [Bool.and_eq_true,beq_iff_eq,Option.all_eq_true] at holds
  obtain ⟨⟨numbers,recovered⟩,exists_⟩ := holds
  obtain ⟨⟨before,after⟩,edit,isNumbers⟩ := Option.map_eq_some_iff.mp numbers
  refine ⟨s,fun _ => 0,before,after,by decide,run,edit,?_⟩
  rintro (⟨t,isRun,process⟩ | ⟨t,r,isRun,process,-,same⟩)
  · have := exists_ t isRun
    simp [State.makesDb,process] at this
  · have none : r.versions.current.numbers = [] := by
      simpa [State.recoveredNumbers,process] using recovered t isRun
    rcases same with same | same
    · rw [same] at none
      simp [none] at isNumbers
    · rw [same] at none
      simp [none] at isNumbers

/-- The same run: the version is the one before the record that was lost. -/
theorem crash_atomic_torn : ∃ s before after, State.initial.run smallOptions tornRun = some s ∧
    s.edit = some (before,after) ∧ before.numbers = [5] ∧
      s.Recovers smallOptions (fun _ => 0) fun v => v = before ∨ v = after ∨ s.Torn v := by
  have found : (State.initial.run smallOptions tornRun).any (fun s =>
      (s.edit.map fun e => e.1.numbers) == some [5]) = true := by decide
  obtain ⟨s,run,holds⟩ := (Option.any_eq_true _ _).mp found
  obtain ⟨⟨before,after⟩,edit,isNumbers⟩ := Option.map_eq_some_iff.mp (beq_iff_eq.mp holds)
  exact ⟨s,before,after,run,edit,isNumbers,crash_atomic (by decide) run edit _⟩

end Crash

end LevelDB
