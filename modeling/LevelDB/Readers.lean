import LevelDB.FileRecovery
import LevelDB.SnapshotReads

/-! The database together with its readers. A `Get` or an iterator takes a sequence number
and references on `mem_`, `imm_` and the current version under the mutex and goes on
without it, while a leader puts its batch into `mem_` entry by entry. -/
namespace LevelDB

variable {K V : Type} [LinearOrder K]

/-- The records that a snapshot sees. -/
def History.upTo (h : History K V) (sequence : Nat) : History K V :=
  h.filter fun r => decide (r.2.sequence ≤ sequence)

structure Reader (K V : Type) where
  sequence : Nat
  /-- The memtable that was `mem_`; nothing while it still is. -/
  mem : Option (MemTable K V)
  imm : Option (MemTable K V)
  version : Version K
  /-- Not in the program: the records that were visible when the reader began. -/
  history : History K V

structure System (K V : Type) where
  state : State K V
  readers : List (Reader K V)
  /-- How many entries of its batch the leader has inserted so far. -/
  inserted : Nat
  /-- The live snapshots and, not in the program, what was visible when they were made. -/
  snapshots : List (Nat × History K V)

inductive Action (K V : Type) where
  | db (l : Label K V)
  | insertEntry
  | openReader (snapshot : Option Nat)
  | closeReader (index : Nat)

def System.initial : System K V := ⟨State.initial,[],0,[]⟩

/-- The tables of the versions that readers hold. -/
def System.pinned (y : System K V) (n : Nat) : Bool := y.readers.any fun r => decide (n ∈ r.version.numbers)

def System.label (y : System K V) : Label K V → Label K V
  | .installVersion _ => .installVersion y.pinned
  | l => l

def State.inserting (s : State K V) : Option (Group K V) :=
  match s.db with
  | some db => match db.leader with
    | some (.inserting g) => some g
    | _ => none
  | none => none

/-- `mem_` is another memtable now, and the reader keeps the one it has. -/
def Reader.follow (s s' : State K V) (r : Reader K V) : Reader K V :=
  match s.db, s'.db with
  | some db, some db' =>
    if db'.logfileNumber = db.logfileNumber then r else { r with mem := some (r.mem.getD db.mem) }
  | _, _ => r

def System.after (y : System K V) (l : Label K V) (s' : State K V) : System K V :=
  match l with
  | .crash _ => ⟨s',[],0,[]⟩
  | .insertInto => ⟨s',y.readers,0,y.snapshots⟩
  | .getSnapshot => ⟨s',y.readers,y.inserted,y.snapshots ++
      (y.state.db.map fun db => (db.versions.lastSequence,y.state.history.upTo db.versions.lastSequence)).toList⟩
  | .releaseSnapshot n => ⟨s',y.readers,y.inserted,y.snapshots.eraseP fun x => x.1 == n⟩
  | _ => ⟨s',y.readers.map (Reader.follow y.state s'),y.inserted,y.snapshots⟩

/-- `InsertInto` is done when all entries of the batch are inserted. -/
def System.ready (y : System K V) (l : Label K V) : Bool :=
  match l, y.state.inserting with
  | .insertInto, some g => decide (y.inserted = g.batch.count)
  | _, _ => true

def System.stepDb (o : Options K V) (y : System K V) (l : Label K V) : Option (System K V) :=
  if y.ready l then (y.state.step o (y.label l)).map (y.after l) else none

def System.openReader (y : System K V) (snapshot : Option Nat) : Option (System K V) :=
  match y.state.db with
  | some db =>
    if snapshot.all fun n => decide (n ∈ db.snapshots) then
      let sequence := snapshot.getD db.versions.lastSequence
      some { y with readers := y.readers ++
        [⟨sequence,none,db.imm,db.versions.current,y.state.history.upTo sequence⟩] }
    else none
  | none => none

def System.step (o : Options K V) (y : System K V) : Action K V → Option (System K V)
  | .db l => y.stepDb o l
  | .insertEntry => match y.state.inserting with
    | some g => if y.inserted < g.batch.count then some { y with inserted := y.inserted + 1 } else none
    | none => none
  | .openReader snapshot => y.openReader snapshot
  | .closeReader index => some { y with readers := y.readers.eraseIdx index }

def System.run (o : Options K V) (y : System K V) : List (Action K V) → Option (System K V)
  | [] => some y
  | a :: rest => (y.step o a).bind fun next => next.run o rest

/-- The versions that readers hold. -/
def System.held (y : System K V) : List (Version K) := y.readers.map (·.version)

section Steps
variable {o : Options K V} {y y' : System K V} {a : Action K V}

omit [LinearOrder K] in
/-- A reader keeps what it began with. -/
theorem Reader.follow_same (s s' : State K V) (r : Reader K V) :
    (r.follow s s').sequence = r.sequence ∧ (r.follow s s').imm = r.imm ∧ (r.follow s s').version = r.version ∧
      (r.follow s s').history = r.history := by
  rw [Reader.follow]
  split
  · split <;> exact ⟨rfl,rfl,rfl,rfl⟩
  · exact ⟨rfl,rfl,rfl,rfl⟩

/-- What each action does. -/
theorem System.step_cases (step : y.step o a = some y') :
    (∃ l s', a = .db l ∧ y.state.step o (y.label l) = some s' ∧ y' = y.after l s' ∧
      (l = .insertInto → ∀ g, y.state.inserting = some g → y.inserted = g.batch.count)) ∨
    (∃ g, a = .insertEntry ∧ y.state.inserting = some g ∧ y.inserted < g.batch.count ∧
      y' = { y with inserted := y.inserted + 1 }) ∨
    (∃ snapshot db, a = .openReader snapshot ∧ y.state.process = .running db ∧
      (∀ n, snapshot = some n → n ∈ db.snapshots) ∧
      y' = { y with readers := y.readers ++ [⟨snapshot.getD db.versions.lastSequence,none,db.imm,db.versions.current,
        y.state.history.upTo (snapshot.getD db.versions.lastSequence)⟩] }) ∨
    ∃ index, a = .closeReader index ∧ y' = { y with readers := y.readers.eraseIdx index } := by
  cases a with
  | db l =>
    left
    simp only [System.step,System.stepDb] at step
    split at step
    · rename_i ready
      obtain ⟨s',isStep,rfl⟩ := Option.map_eq_some_iff.mp step
      refine ⟨l,s',rfl,isStep,rfl,?_⟩
      rintro rfl g inserting
      simpa [System.ready,inserting] using ready
    · cases step
  | insertEntry =>
    right
    left
    simp only [System.step] at step
    split at step
    · rename_i g inserting
      split at step
      · rename_i more
        cases step
        exact ⟨g,rfl,inserting,more,rfl⟩
      · cases step
    · cases step
  | openReader snapshot =>
    right
    right
    left
    simp only [System.step,System.openReader] at step
    split at step
    · rename_i db running
      split at step
      · rename_i live
        cases step
        refine ⟨snapshot,db,rfl,State.db_eq.mp running,?_,rfl⟩
        rintro n rfl
        simpa using live
      · cases step
    · cases step
  | closeReader index =>
    right
    right
    right
    simp only [System.step,Option.some.injEq] at step
    exact ⟨index,rfl,step.symm⟩

omit [LinearOrder K] in
theorem System.after_state (y : System K V) (l : Label K V) (s' : State K V) : (y.after l s').state = s' := by
  cases l <;> rfl

omit [LinearOrder K] in
/-- A step of the database leaves the readers their versions. -/
theorem System.after_held (y : System K V) {l : Label K V} (alive : ∀ cut, l ≠ .crash cut) (s' : State K V) :
    (y.after l s').held = y.held := by
  have followed : (y.readers.map (Reader.follow y.state s')).map (·.version) = y.readers.map (·.version) := by
    rw [List.map_map]
    exact List.map_congr_left fun r _ => (r.follow_same y.state s').2.2.1
  cases l with
  | crash cut => exact absurd rfl (alive cut)
  | insertInto => rfl
  | getSnapshot => rfl
  | releaseSnapshot n => rfl
  | _ => exact followed

end Steps

/-- Which versions are held matters only as far as they are not referenced otherwise. -/
theorem Core.Files.hold {o : Options K V} {loose : Bool} {held held' : List (Version K)}
    {file : Nat → Option (FileMetaData K)} {c : Core K V} {m : ManifestFile K V}
    (files : c.Files o loose held file m) (live : ∀ v ∈ held', c.Live held v) : c.Files o loose held' file m := by
  have all : ∀ v, c.Live held' v → c.Live held v := by
    rintro v (same | here | outer | commit)
    · exact .inl same
    · exact live v here
    · exact .inr (.inr (.inl outer))
    · exact .inr (.inr (.inr commit))
  refine ⟨files.disk,files.below,files.manifest,files.logs,files.logfile,files.logNumber,files.prev,
    fun v hv => files.live v (all v hv),⟨files.job.outer,files.job.commit,files.job.flush,?_⟩,files.linked⟩
  intro doomed outer job
  have old := files.job.doomed doomed outer job
  exact ⟨old.log,old.manifest,old.currentFile,fun n hn v hv => old.live n hn v (all v hv),old.recorded,old.pending,old.outputs⟩

structure System.Files (o : Options K V) (loose : Bool) (y : System K V) : Prop where
  files : y.state.Files o loose y.held
  manual : y.state.Manual
  closed : (∀ db, y.state.process ≠ .running db) → y.readers = []

def Action.manifestOk : Action K V → Bool
  | .db l => l.manifestOk
  | _ => true

section Runs
variable {o : Options K V} {loose : Bool} {y y' : System K V} {a : Action K V}

omit [LinearOrder K] in
theorem System.pinned_held (y : System K V) : ∀ v ∈ y.held, ∀ n ∈ v.numbers, y.pinned n = true := by
  intro v hv n hn
  obtain ⟨r,hr,rfl⟩ := List.mem_map.mp hv
  exact List.any_eq_true.mpr ⟨r,hr,decide_eq_true hn⟩

omit [LinearOrder K] in
/-- `RemoveObsoleteFiles` knows the versions that readers hold. -/
theorem System.label_pins (y : System K V) (l : Label K V) (pinned : Nat → Bool)
    (isInstall : y.label l = .installVersion pinned) : ∀ v ∈ y.held, ∀ n ∈ v.numbers, pinned n = true := by
  have same : pinned = y.pinned := by
    cases l with
    | installVersion _ => exact (Label.installVersion.inj isInstall).symm
    | _ => cases isInstall
  rw [same]
  exact y.pinned_held

theorem System.Files.hold {readers : List (Reader K V)} (files : y.Files o loose) {db : Db K V}
    (running : y.state.process = .running db)
    (live : ∀ r ∈ readers, (db.core y.state.disk).Live y.held r.version) :
    System.Files o loose { y with readers } := by
  have old := files.files
  rw [State.Files,running] at old
  obtain ⟨file,m,core⟩ := old
  refine ⟨?_,files.manual,fun none => absurd running (none db)⟩
  rw [State.Files,running]
  refine ⟨file,m,core.hold fun v hv => ?_⟩
  obtain ⟨r,hr,rfl⟩ := List.mem_map.mp hv
  exact live r hr

theorem System.Files.stepDb {l : Label K V} {s' : State K V} (files : y.Files o loose)
    (strict : loose = true ∨ l.manifestOk = true) (step : y.state.step o (y.label l) = some s') :
    (y.after l s').Files o loose := by
  by_cases crashed : ∃ cut, l = .crash cut
  · obtain ⟨cut,rfl⟩ := crashed
    cases step
    exact ⟨files.files.crash cut,by rintro _ ⟨⟩,fun _ => rfl⟩
  · have alive : ∀ cut, l ≠ .crash cut := fun cut same => crashed ⟨cut,same⟩
    have strict' : loose = true ∨ (y.label l).manifestOk = true := by
      refine strict.imp id fun fine => ?_
      cases l <;> exact fine
    have next := files.files.step files.manual strict' (fun none => by simp [System.held,files.closed none])
      (y.label_pins l) step
    refine ⟨?_,?_,fun none => ?_⟩
    · rw [System.after_state,y.after_held alive]
      exact next
    · rw [System.after_state]
      exact files.manual.step step
    · rw [System.after_state] at none
      have before : ∀ db, y.state.process ≠ .running db := by
        intro db running
        obtain ⟨cut,isCrash,-⟩ | ⟨db',running',stepped⟩ | ⟨notRunning,-⟩ := LevelDB.step_cases step
        · cases l <;> first | exact alive _ rfl | cases isCrash
        · obtain ⟨db'',running''⟩ := stepDb_running running' stepped
          exact none db'' running''
        · exact notRunning db running
      have held : (y.after l s').held = [] := by
        rw [y.after_held alive,System.held,files.closed before]
        rfl
      exact List.map_eq_nil_iff.mp held

theorem System.Files.step (files : y.Files o loose) (strict : loose = true ∨ a.manifestOk = true)
    (step : y.step o a = some y') : y'.Files o loose := by
  obtain ⟨l,s',rfl,isStep,rfl,-⟩ | ⟨g,-,-,-,rfl⟩ | ⟨snapshot,db,rfl,running,-,rfl⟩ | ⟨index,rfl,rfl⟩ := System.step_cases step
  · exact files.stepDb strict isStep
  · exact ⟨files.files,files.manual,files.closed⟩
  · refine files.hold running fun r hr => ?_
    rcases List.mem_append.mp hr with old | new
    · exact .inr (.inl (List.mem_map_of_mem old))
    · rw [List.mem_singleton.mp new]
      exact .inl rfl
  · by_cases open_ : ∃ db, y.state.process = .running db
    · obtain ⟨db,running⟩ := open_
      exact files.hold running fun r hr => .inr (.inl (List.mem_map_of_mem (List.mem_of_mem_eraseIdx hr)))
    · have none : y.readers = [] := files.closed fun db running => open_ ⟨db,running⟩
      have same : ({ y with readers := y.readers.eraseIdx index } : System K V) = y := by
        rw [none,List.eraseIdx_nil,← none]
      rw [same]
      exact files

theorem System.Files.run {as : List (Action K V)} (files : y.Files o loose)
    (strict : loose = true ∨ ∀ a ∈ as, a.manifestOk = true) (run : y.run o as = some y') : y'.Files o loose := by
  induction as generalizing y with
  | nil =>
    cases run
    exact files
  | cons a rest ih =>
    obtain ⟨next,step,later⟩ := Option.bind_eq_some_iff.mp run
    exact ih (files.step (strict.imp id fun all => all a List.mem_cons_self) step)
      (strict.imp id fun all b hb => all b (List.mem_cons_of_mem _ hb)) later

theorem System.initial_files (o : Options K V) (loose : Bool) : (System.initial : System K V).Files o loose :=
  ⟨.inl ⟨rfl,rfl,rfl⟩,by rintro _ ⟨⟩,fun _ => rfl⟩

/-- The files of every state that a database with readers reaches. -/
theorem files_of_run {as : List (Action K V)} (run : System.initial.run o as = some y) : y.Files o true :=
  (System.initial_files o true).run (.inl rfl) run

end Runs

/-- Steps of the database alone, with batches of `count` updates. -/
def withInserts (count : Nat) (ls : List (Label Nat Nat)) : List (Action Nat Nat) :=
  ls.flatMap fun
    | .insertInto => List.replicate count .insertEntry ++ [.db .insertInto]
    | l => [.db l]

/-- A run of the database with its readers, found by evaluation. -/
theorem exists_system (o : Options K V) (as : List (Action K V)) (p : System K V → Bool)
    (found : ((System.initial.run o as).any p) = true) : ∃ y, System.initial.run o as = some y ∧ p y = true :=
  (Option.any_eq_true _ _).mp found

end LevelDB
