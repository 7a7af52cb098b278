import LevelDB.Readers
import LevelDB.LevelDisjoint

/-! What may be deleted and what may be created. `RemoveObsoleteFiles` deletes no file that
anyone needs, at whatever moment each deletion happens; and a file that is created, which
truncates one of its name, never has the name of a file that is needed. -/
namespace LevelDB

variable {K V : Type} [LinearOrder K]

/-- The versions that the process refers to, or is about to. -/
def State.Refers (s : State K V) (v : Version K) : Prop :=
  match s.process with
  | .running db => v = db.versions.current ∨ (∃ x, db.job.outer = some x ∧ v = x.compaction.inputVersion) ∨
      ∃ commit, db.job.commit = some commit ∧ v = commit.version
  | .opening (.replay r) => v = r.versions.current ∨ v = r.versions.current.apply r.edit
  | .opening (.commit versions _ c _) => v = versions.current ∨ v = c.version
  | _ => False

def System.Refers (y : System K V) (v : Version K) : Prop := y.state.Refers v ∨ v ∈ y.held

section Kept
variable {o : Options K V} {loose : Bool} {y : System K V}

theorem Replay.Files.places {file : Nat → Option (FileMetaData K)} {r : Replay K V} {d : Disk K V} {number : Nat}
    {m : ManifestFile K V} (files : r.Files o file d number m) : r.versions.current.Kept o file d ∧
      (r.versions.current.apply r.edit).Kept o file d := by
  have kept : r.versions.current.Kept o file d := by
    rw [files.current]
    exact files.disk.whole.kept
  refine ⟨kept,kept.apply ⟨fun k hk => (files.new k hk).2.1.named,?_,?_,?_⟩ fun k hk => (files.new k hk).2.1⟩
  · intro k hk
    rw [(files.new k hk).1]
    decide
  · exact fun k hk l g hg same => absurd (same ▸ kept.mem_numbers hg) (files.new k hk).2.2
  · intro k hk k' hk' _
    rw [(files.new k hk).1,(files.new k' hk').1]

/-- What the process may create next. -/
def State.Creates (s : State K V) (f : FileName) : Prop :=
  match s.process with
  | .down => s.disk.currentFile = none ∧ f = .manifest 1
  | .running db => f = .log db.versions.nextFileNumber ∨ f = .table db.versions.nextFileNumber ∨
      ∃ n stage outer, db.job = .flush n stage outer ∧ f = .table n
  | .opening (.replay r) => f = .log r.versions.nextFileNumber ∧ r.logs = [] ∨
      ∃ n stage, r.table = some (n,stage) ∧ f = .table n
  | .opening (.commit versions _ _ .create) => f = .manifest versions.manifestFileNumber
  | .opening (.newDb (.setCurrent .create)) => f = .temp 1
  | .opening (.commit versions _ _ (.setCurrent .create)) => f = .temp versions.manifestFileNumber
  | _ => False

/-- The file is not one that is needed: a table of a version that is referenced, a log, or
the manifest that `CURRENT` names. Nobody reads a temp file. -/
def System.Unneeded (y : System K V) : FileName → Prop
  | .log n => ∀ l ∈ y.state.disk.logs, l.number ≠ n
  | .table n => ∀ v, y.Refers v → ∀ l, ∀ f ∈ v.files l, f.number ≠ n
  | .manifest n => y.state.disk.current ≠ some n
  | .temp _ => True
  | .current => False

/-- All versions that are referenced at one time are kept under the same names, and what is
created next has another name. -/
theorem System.Files.names (files : y.Files o loose) :
    (∃ file, ∀ v, y.Refers v → v.Kept o file y.state.disk) ∧ ∀ f, y.state.Creates f → y.Unneeded f := by
  have inv := files.files
  have closed : (∀ db, y.state.process ≠ .running db) → ∀ v, y.Refers v → y.state.Refers v := by
    intro notRunning v hv
    refine hv.resolve_right fun held => ?_
    rw [System.held,files.closed notRunning] at held
    cases held
  -- a number without a file is in no version
  have apart : ∀ {file : Nat → Option (FileMetaData K)}, (∀ v, y.Refers v → v.Kept o file y.state.disk) →
      ∀ n, file n = none → y.Unneeded (.table n) := by
    rintro file kept n free v hv l f hf rfl
    have named := ((kept v hv).files l f hf).named
    rw [free] at named
    cases named
  cases process : y.state.process with
  | down =>
    have refers := closed (by simp [process])
    simp only [State.Refers,process] at refers
    refine ⟨⟨fun _ => none,fun v hv => (refers v hv).elim⟩,fun f creates => ?_⟩
    rw [State.Creates,process] at creates
    obtain ⟨current,rfl⟩ := creates
    simp [System.Unneeded,Disk.current,current]
  | running db =>
    rw [State.Files,process] at inv
    obtain ⟨file,m,core⟩ := inv
    have kept : ∀ v, y.Refers v → v.Kept o file y.state.disk := by
      rintro v (refers | held)
      · rw [State.Refers,process] at refers
        rcases refers with same | outer | commit
        · exact core.live v (.inl same)
        · exact core.live v (.inr (.inr (.inl outer)))
        · exact core.live v (.inr (.inr (.inr commit)))
      · exact core.live v (.inr (.inl held))
    refine ⟨⟨file,kept⟩,fun f creates => ?_⟩
    rw [State.Creates,process] at creates
    obtain rfl | rfl | ⟨n,stage,outer,job,rfl⟩ := creates
    · exact fun l hl => (core.logs l hl).ne
    · exact apart kept _ core.free_next
    · exact apart kept n (core.job.flush n stage outer job).1
  | opening p =>
    have refers := closed (by simp [process])
    simp only [State.Refers,process] at refers
    rw [State.Files,process] at inv
    simp only [State.Creates,process]
    cases p with
    | newDb stage =>
      refine ⟨⟨fun _ => none,fun v hv => (refers v hv).elim⟩,fun f creates => ?_⟩
      rcases stage with _ | (_ | _ | _ | _)
      · exact creates.elim
      · subst creates
        trivial
      all_goals exact creates.elim
    | recover => exact ⟨⟨fun _ => none,fun v hv => (refers v hv).elim⟩,fun f creates => creates.elim⟩
    | failed => exact inv.elim
    | replay r =>
      obtain ⟨file,number,m,replay⟩ := inv
      have kept : ∀ v, y.Refers v → v.Kept o file y.state.disk := by
        intro v hv
        rcases refers v hv with rfl | rfl
        · exact replay.places.1
        · exact replay.places.2
      refine ⟨⟨file,kept⟩,?_⟩
      rintro f (⟨rfl,logs⟩ | ⟨n,stage,table,rfl⟩)
      · intro l hl
        have below := replay.logs l hl
        rw [logs] at below
        exact (below.resolve_right List.not_mem_nil).ne
      · exact apart kept n (replay.table n stage table).1
    | commit versions log c stage =>
      obtain ⟨file,opened,-,-,rest⟩ := inv
      refine ⟨⟨file,fun v hv => ?_⟩,fun f creates => ?_⟩
      · rcases refers v hv with rfl | rfl
        · exact opened.kept
        · rw [opened.version]
          exact opened.kept.apply opened.places opened.new
      · cases stage with
        | create =>
          rw [if_neg (by simp)] at rest
          obtain ⟨number,m,disk,older,-⟩ := rest
          subst creates
          intro same
          rw [disk.current] at same
          exact older.ne (Option.some.inj same)
        | setCurrent op =>
          cases op with
          | create =>
            subst creates
            trivial
          | _ => exact creates.elim
        | _ => exact creates.elim

end Kept

section Created
variable {o : Options K V} {s s' : State K V} {db : Db K V} {l : Label K V}

/-- The events that a step adds, and what it creates. -/
def State.Adds (s s' : State K V) (creates : FileName → Prop) : Prop :=
  ∃ events, s'.trace = s.trace ++ events ∧ ∀ f, .created f ∈ events → creates f

omit [LinearOrder K] in
theorem State.Adds.none {creates : FileName → Prop} (events : List (Event K V)) (trace : s'.trace = s.trace ++ events)
    (other : ∀ f, .created f ∉ events) : s.Adds s' creates :=
  ⟨events,trace,fun f member => absurd member (other f)⟩

omit [LinearOrder K] in
theorem State.Adds.quiet {creates : FileName → Prop} (trace : s'.trace = s.trace) : s.Adds s' creates :=
  .none [] (by simp [trace]) (by simp)

omit [LinearOrder K] in
theorem returns_created (status : Status) (first : Nat) (ws : List (Writer K V)) (f : FileName) :
    .created f ∉ returns status first ws := by
  induction ws generalizing first with
  | nil => simp [returns]
  | cons w rest ih => simp [returns,ih]

omit [LinearOrder K] in
theorem recordBackgroundError_adds {creates : FileName → Prop} {t : State K V} (db : Db K V) (adds : s.Adds t creates) :
    s.Adds (t.recordBackgroundError db) creates := by
  obtain ⟨events,trace,made⟩ := adds
  obtain ⟨-,events',-,-,-,-,-,-,-,-,-,trace',isError⟩ := recordBackgroundError_spec t db
  refine ⟨events ++ events',by rw [trace',trace,List.append_assoc],fun f member => ?_⟩
  rcases List.mem_append.mp member with old | new
  · exact made f old
  · rw [isError] at new
    split at new <;> simp at new

omit [LinearOrder K] in
theorem failCommit_adds {creates : FileName → Prop} {t : State K V} (db : Db K V) (adds : s.Adds t creates) :
    s.Adds (t.failCommit db) creates := by
  rw [State.failCommit]
  split <;> exact recordBackgroundError_adds _ adds

omit [LinearOrder K] in
theorem removeObsoleteFiles_trace (s : State K V) (db : Db K V) (outer : Option (CompactionState K V))
    (pinned : Nat → Bool) : (s.removeObsoleteFiles db outer pinned).trace = s.trace := by
  rw [State.removeObsoleteFiles]
  split <;> rfl

omit [LinearOrder K] in
theorem writeTable_adds {t : State K V} (s : State K V) (n : Nat) (entries : MemTable K V)
    (made : t.Creates (.table n)) : s.Adds (s.writeTable n entries) t.Creates := by
  rw [State.writeTable]
  split
  · exact .quiet rfl
  · refine ⟨[_],rfl,fun f member => ?_⟩
    cases List.mem_singleton.mp member
    exact made

theorem writer_adds (same : s.process = .running db) (writer : l.background = false)
    (step : s.stepDb o db l = some s') : s.Adds s' s.Creates := by
  have release : ∀ (db : Db K V) last status first, s.Adds (s.release db last status first) s.Creates :=
    fun db last status first => .none _ rfl (returns_created status first _)
  cases l with
  | enter id batch sync =>
    simp only [State.stepDb,State.enter] at step
    split at step
    · cases step
    · cases step
      exact .none [_] rfl (by simp)
  | lead =>
    simp only [State.stepDb,State.lead] at step
    split at step
    · cases step
      exact .quiet rfl
    · cases step
  | makeRoom newFile close =>
    obtain ⟨force,delay,w,rest,-,-,⟨-,rfl⟩ | ⟨-,rfl⟩ | ⟨-,-,start⟩ | rfl | ⟨-,-,-,rfl⟩⟩ := makeRoom_cases step
    · exact release _ _ _ _
    · exact .quiet rfl
    · obtain ⟨w,rest,-,⟨-,rfl⟩ | ⟨b,-,-,rfl⟩⟩ := startGroup_cases start
      · exact release _ _ _ _
      · exact .quiet rfl
    · exact .quiet rfl
    · have made : s.Adds ({ s with disk := s.disk.newLog db.versions.nextFileNumber }.note
          (.created (.log db.versions.nextFileNumber))) s.Creates := by
        refine ⟨[_],rfl,fun f member => ?_⟩
        cases List.mem_singleton.mp member
        rw [State.Creates,same]
        exact .inl rfl
      simp only [State.switchMemTable]
      split
      · exact made
      · exact recordBackgroundError_adds _ made
  | addRecord outcome =>
    obtain ⟨g,-,⟨-,rfl⟩ | ⟨-,rfl⟩ | ⟨-,rfl⟩ | ⟨-,-,rfl⟩⟩ := addRecord_cases step
    · exact .none [_] rfl (by simp)
    · exact .none [_] rfl (by simp)
    · exact .quiet rfl
    · exact .none [_] rfl (by simp)
  | syncLog status =>
    simp only [State.stepDb,State.syncLog] at step
    split at step
    · split at step
      · cases step
        exact .none [_] rfl (by simp)
      · cases step
        exact .quiet rfl
    · cases step
  | insertInto =>
    simp only [State.stepDb,State.insertInto] at step
    split at step
    · cases step
      exact .none [_] rfl (by simp)
    · cases step
  | finishWrite =>
    simp only [State.stepDb,State.finishWrite] at step
    split at step
    · rename_i g status syncError leader
      cases step
      by_cases error : (syncError && !db.bgError) = true
      · simp only [error,if_true]
        refine .none (.errorRecorded :: returns status g.batch.sequence (splitGroup g.lastWriter db.writers).1) ?_ ?_
        · simp [State.release,State.note,State.setDb]
        · simp [returns_created]
      · simp only [error]
        exact release _ _ _ _
    · cases step
  | getSnapshot =>
    cases step
    exact .quiet rfl
  | releaseSnapshot snapshot =>
    cases step
    exact .quiet rfl
  | awaitFlush id =>
    simp only [State.stepDb,State.awaitFlush] at step
    split at step
    · cases step
      exact .none [_] rfl (by simp)
    · cases step
  | requestCompaction level first last =>
    simp only [State.stepDb,State.requestCompaction] at step
    split at step
    · cases step
      exact .quiet rfl
    · cases step
  | crash cut => cases step
  | openDb => cases step
  | newDb => cases step
  | recover => cases step
  | replay => cases step
  | openCommit => cases step
  | _ => cases writer

theorem background_adds (same : s.process = .running db) (background : l.background = true)
    (step : s.stepDb o db l = some s') : s.Adds s' s.Creates := by
  have fails : ∀ (t : State K V) (db : Db K V) (x : CompactionState K V), s.Adds t s.Creates →
      s.Adds (t.failCompaction db x) s.Creates := fun t db x adds => recordBackgroundError_adds _ adds
  cases l with
  | beginFlush =>
    simp only [State.stepDb,State.beginFlush] at step
    split at step
    · split at step
      · cases step
      · cases step
        exact .quiet rfl
    · split at step
      · cases step
      · cases step
        exact .quiet rfl
    · cases step
  | buildTable status =>
    simp only [State.stepDb,State.buildTable] at step
    split at step
    · rename_i n stage outer imm job isImm
      split at step
      · cases step
        exact recordBackgroundError_adds _ (.quiet rfl)
      split at step
      · cases step
        obtain ⟨events,trace,made⟩ := writeTable_adds
          (s.setDb { db with job := .flush n .sync outer }) n imm (by
            rw [State.Creates,same]
            exact .inr (.inr ⟨n,_,outer,job,rfl⟩))
        exact ⟨events,trace,made⟩
      · cases step
        exact .quiet rfl
    · cases step
  | pick trigger =>
    simp only [State.stepDb,State.pick] at step
    split at step
    · split at step
      · cases step
      split at step
      · cases step
        exact .quiet rfl
      · cases step
        exact .quiet rfl
    · cases step
  | pickManual =>
    simp only [State.stepDb,State.pickManual] at step
    split at step
    · split at step
      · cases step
      split at step
      · cases step
        exact .quiet rfl
      · cases step
        exact .quiet rfl
    · cases step
  | advanceCompaction status =>
    simp only [State.stepDb,State.advanceCompaction] at step
    split at step
    · rename_i x job
      split at step
      · cases step
      split at step
      · cases step
        exact fails _ _ _ (.quiet rfl)
      cases opened : (x.advance o db.versions.nextFileNumber).2 with
      | false =>
        simp only [opened,Bool.false_eq_true,if_false] at step
        split at step
        · cases step
          exact .quiet rfl
        · cases step
          exact fails _ _ _ (.quiet rfl)
      | true =>
        simp only [opened,if_true] at step
        have made : s.Creates (.table db.versions.nextFileNumber) := by
          rw [State.Creates,same]
          exact .inr (.inl rfl)
        have adds : ∀ t : State K V, t.trace = s.trace ++ [.created (.table db.versions.nextFileNumber)] →
            s.Adds t s.Creates := fun t trace => ⟨[_],trace,fun f member => by
          cases List.mem_singleton.mp member
          exact made⟩
        split at step
        · cases step
          exact adds _ rfl
        · cases step
          exact fails _ _ _ (adds _ rfl)
    · cases step
  | finishCompaction status =>
    simp only [State.stepDb,State.finishCompaction] at step
    split at step
    · split at step
      · cases step
      split at step
      · cases step
        exact fails _ _ _ (.quiet rfl)
      · cases step
        exact .quiet rfl
    · cases step
  | appendManifest status =>
    simp only [State.stepDb,State.appendManifest] at step
    split at step
    · split at step
      · cases step
      split at step
      · cases step
        exact failCommit_adds _ (.quiet rfl)
      split at step
      · cases step
        exact .none [.manifestAppended] rfl (by simp)
      · cases step
        exact failCommit_adds _ (.none [.manifestAppended] rfl (by simp))
    · cases step
  | syncManifest status =>
    simp only [State.stepDb,State.syncManifest] at step
    split at step
    · split at step
      · cases step
      split at step
      · cases step
        exact failCommit_adds _ (.quiet rfl)
      · cases step
        exact .quiet rfl
    · cases step
  | installVersion pinned =>
    simp only [State.stepDb,State.installVersion] at step
    split at step
    · split at step
      · cases step
      split at step
      · cases step
        exact .none [.installed] (removeObsoleteFiles_trace _ _ _ _) (by simp)
      · cases step
        exact .none [.installed] (removeObsoleteFiles_trace _ _ _ _) (by simp)
      · cases step
        exact .none [.installed] rfl (by simp)
    · cases step
  | removeFile f =>
    simp only [State.stepDb,State.removeFile] at step
    split at step
    · split at step
      · cases step
        exact .quiet rfl
      · cases step
    · cases step
  | removeDone =>
    simp only [State.stepDb,State.removeDone] at step
    split at step
    · cases step
      exact .quiet rfl
    · cases step
  | _ => cases background

omit [LinearOrder K] in
theorem setCurrentFile_adds {number : Nat} {op : SetCurrent} {process : Process K V} {creates : FileName → Prop}
    (made : op = .create → creates (.temp number)) :
    s.Adds { s.setCurrentFile number op with process := process } creates := by
  obtain ⟨events,trace,created⟩ := @State.setCurrentFile_trace K V s number op
  refine ⟨events,trace,fun f member => ?_⟩
  obtain ⟨isCreate,same⟩ := created _ member
  cases same
  exact made isCreate

theorem stepOpen_adds (step : s.stepOpen o l = some s') : s.Adds s' s.Creates := by
  cases l with
  | openDb =>
    simp only [State.stepOpen,State.openDb] at step
    split at step
    · rename_i process
      cases step
      split
      · exact .quiet rfl
      · rename_i current
        refine ⟨[_],rfl,fun f member => ?_⟩
        cases List.mem_singleton.mp member
        rw [State.Creates,process]
        exact ⟨current,rfl⟩
    · cases step
  | newDb =>
    simp only [State.stepOpen,State.newDb] at step
    split at step
    · cases step
      exact .quiet rfl
    · rename_i op process
      cases step
      refine setCurrentFile_adds ?_
      rintro rfl
      rw [State.Creates,process]
    · cases step
  | recover =>
    simp only [State.stepOpen,State.recover] at step
    split at step
    · cases step
      split
      · exact .quiet rfl
      · split <;> exact .quiet rfl
    · cases step
  | replay =>
    obtain ⟨r,process,outcome⟩ := replay_cases step
    obtain ⟨n,table,rfl⟩ | ⟨n,-,rfl⟩ | ⟨b,rest,-,-,rfl⟩ | ⟨-,-,-,rfl⟩ | ⟨n,rest,-,-,-,-,rfl⟩ | ⟨-,-,-,logs,rfl⟩ := outcome
    · have made : s.Creates (.table n) := by
        rw [State.Creates,process]
        exact .inr ⟨n,_,table,rfl⟩
      obtain ⟨events,trace,created⟩ := writeTable_adds
        { s with process := .opening (.replay { r with table := some (n,.sync) }) } n (r.mem.getD []) made
      exact ⟨events,trace,created⟩
    · exact .quiet rfl
    · exact .quiet rfl
    · exact .quiet rfl
    · exact .quiet rfl
    · refine ⟨[_],rfl,fun f member => ?_⟩
      cases List.mem_singleton.mp member
      rw [State.Creates,process]
      exact .inl ⟨rfl,logs⟩
  | openCommit =>
    simp only [State.stepOpen,State.openCommit] at step
    split at step
    · rename_i versions log c stage process
      split at step
      · cases step
        refine ⟨[_],rfl,fun f member => ?_⟩
        cases List.mem_singleton.mp member
        rw [State.Creates,process]
      · cases step
        exact .quiet rfl
      · cases step
        exact .quiet rfl
      · rename_i op
        cases step
        refine setCurrentFile_adds ?_
        rintro rfl
        rw [State.Creates,process]
      · cases step
        exact .quiet (removeObsoleteFiles_trace _ _ _ _)
    · cases step
  | _ => cases step

theorem step_adds (step : s.step o l = some s') : s.Adds s' s.Creates := by
  obtain ⟨cut,rfl,rfl⟩ | ⟨db,process,step⟩ | ⟨-,step⟩ := step_cases step
  · exact .quiet rfl
  · cases background : l.background with
    | true => exact background_adds process background step
    | false => exact writer_adds process background step
  · exact stepOpen_adds step

end Created

section Claims
variable {o : Options K V} {as : List (Action K V)} {y y' : System K V}

/-- A deletion by `RemoveObsoleteFiles`, at whatever time it comes, is of a file that nobody
needs. -/
theorem removed_unneeded (run : System.initial.run o as = some y) {db : Db K V}
    (running : y.state.process = .running db) (f : FileName) (step : y.step o (.db (.removeFile f)) = some y') :
    match f with
    | .table n => (∀ v, v = db.versions.current ∨ v ∈ y.held ∨
        (∃ x, db.job.outer = some x ∧ v = x.compaction.inputVersion) →
          ∀ level, ∀ file ∈ v.files level, file.number ≠ n) ∧ n ∉ db.pendingOutputs
    | .log n => n < db.versions.logNumber ∧ n ≠ db.versions.prevLogNumber
    | .manifest n => y.state.disk.current ≠ some n
    | .temp _ => True
    | .current => False := by
  have files := (files_of_run run).files
  rw [State.Files,running] at files
  obtain ⟨file,m,core⟩ := files
  obtain ⟨l,s',same,isStep,-⟩ | ⟨-,⟨⟩,-⟩ | ⟨-,-,⟨⟩,-⟩ | ⟨-,⟨⟩,-⟩ := System.step_cases step
  cases same
  have removing : y.state.removeFile db f = some s' := by
    simpa only [State.step,State.stepDb,System.label,running] using isStep
  rw [State.removeFile] at removing
  split at removing
  · rename_i doomed outer job
    split at removing
    · rename_i isDoomed
      have old := core.job.doomed doomed outer job
      cases f with
      | table n =>
        refine ⟨fun v live level g hg same => ?_,old.pending n isDoomed⟩
        have isLive : (db.core y.state.disk).Live y.held v := by
          rcases live with current | held | outer
          · exact .inl current
          · exact .inr (.inl held)
          · exact .inr (.inr (.inl outer))
        exact old.live n isDoomed v isLive (same ▸ (core.live v isLive).mem_numbers hg)
      | log n => exact old.log n isDoomed
      | manifest n =>
        show y.state.disk.current ≠ some n
        have current : y.state.disk.current = some db.versions.manifestFileNumber := core.disk.current
        rw [current]
        intro equal
        have := old.manifest n isDoomed
        rw [← Option.some.inj equal] at this
        exact lt_irrefl _ this
      | temp n => trivial
      | current =>
        rw [old.currentFile] at isDoomed
        cases isDoomed
    · cases removing
  · cases removing

/-- A table is rewritten by a compaction while a reader holds the version before it. -/
def pinnedRun : List (Action Nat Nat) :=
  withInserts 2 (openRun ++ tableRun 1 [(1,some 1),(2,some 1)] ++ flushRun) ++ [.openReader none] ++
    withInserts 2 (tableRun 3 [(1,some 2),(2,some 2)] ++ flushRun ++ [.pick (.size 1)] ++
      List.replicate 4 (.advanceCompaction .ok) ++
      [.finishCompaction .ok,.appendManifest .ok,.syncManifest .ok,.installVersion fun _ => false])

/-- The newer table is removed, the one that the reader needs is not. -/
theorem removed_unneeded_pinned :
    ∃ y y' db, System.initial.run smallOptions pinnedRun = some y ∧ y.state.process = .running db ∧
      y.step smallOptions (.db (.removeFile (.table 7))) = some y' ∧ y.held.map (·.numbers) = [[5]] ∧
      db.versions.current.numbers = [8] ∧ ∀ v ∈ y.held, ∀ level, ∀ file ∈ v.files level, file.number ≠ 7 := by
  obtain ⟨y,run,found⟩ := exists_system smallOptions pinnedRun
    (fun y => y.state.db.any (fun db => db.versions.current.numbers == [8]) && (y.held.map (·.numbers) == [[5]]) &&
      (y.step smallOptions (.db (.removeFile (.table 7)))).isSome) (by decide)
  simp only [Bool.and_eq_true,beq_iff_eq] at found
  obtain ⟨⟨open_,held⟩,removed⟩ := found
  obtain ⟨db,isDb,current⟩ := (Option.any_eq_true _ _).mp open_
  obtain ⟨y',step⟩ := Option.isSome_iff_exists.mp removed
  have running := State.db_eq.mp isDb
  refine ⟨y,y',db,run,running,step,held,by simpa using current,fun v hv => ?_⟩
  exact (removed_unneeded run running (.table 7) step).1 v (.inr (.inl hv))

/-- What is created has the name of no file that is needed, and what is referenced at one
time has one number for one file, whose table is on the disk. -/
theorem created_unneeded (run : System.initial.run o as = some y) :
    (∀ a y', y.step o a = some y' → ∃ events, y'.state.trace = y.state.trace ++ events ∧
      ∀ f, .created f ∈ events → y.Unneeded f) ∧
    ∀ v v', y.Refers v → y.Refers v' → ∀ l l', ∀ f ∈ v.files l, ∀ g ∈ v'.files l', f.number = g.number →
      f = g ∧ ∃ entries, y.state.disk.tables f.number = some ⟨entries,true⟩ ∧ outputFile o f.number entries = some f := by
  obtain ⟨⟨file,kept⟩,fresh⟩ := (files_of_run run).names
  refine ⟨fun a y' step => ?_,fun v v' hv hv' l l' f hf g hg same => ⟨?_,?_⟩⟩
  · obtain ⟨l,s',rfl,isStep,rfl,-⟩ | ⟨g,-,-,-,rfl⟩ | ⟨snapshot,db,-,-,-,rfl⟩ | ⟨index,-,rfl⟩ := System.step_cases step
    · obtain ⟨events,trace,made⟩ := step_adds isStep
      exact ⟨events,by rw [System.after_state]; exact trace,fun f member => fresh f (made f member)⟩
    · exact ⟨[],by simp,by simp⟩
    · exact ⟨[],by simp,by simp⟩
    · exact ⟨[],by simp,by simp⟩
  · exact eq_of_named ((kept v' hv').files l' g hg).named ((kept v hv).files l f hf).named same
  · exact ((kept v hv).files l f hf).table

/-- A crash leaves a table that was never synced, and the replay comes to its number again. -/
def leftoverRun : List (Action Nat Nat) :=
  withInserts 2 (openRun ++ writeRun 1 [(1,some 1),(2,some 1)] true 1 ++
    [.enter 2 none false,.lead,.makeRoom .ok .ok,.makeRoom .ok .ok,.beginFlush,.buildTable .ok,.crash fun _ => 0,
      .openDb,.recover,.replay,.replay])

theorem created_unneeded_leftover :
    ∃ y y', System.initial.run smallOptions leftoverRun = some y ∧ (y.state.disk.tables 5).isSome ∧
      y.step smallOptions (.db .replay) = some y' ∧
      (∃ events, y'.state.trace = y.state.trace ++ events ∧ .created (.table 5) ∈ events) ∧ y.Unneeded (.table 5) := by
  obtain ⟨y,run,found⟩ := exists_system smallOptions leftoverRun
    (fun y => (y.state.disk.tables 5).isSome && (y.step smallOptions (.db .replay)).any fun y' =>
      (y'.state.trace.drop y.state.trace.length).any fun
        | .created f => f == .table 5
        | _ => false) (by decide)
  simp only [Bool.and_eq_true] at found
  obtain ⟨there,steps⟩ := found
  obtain ⟨y',step,created⟩ := (Option.any_eq_true _ _).mp steps
  obtain ⟨events,trace,fresh⟩ := (created_unneeded run).1 _ y' step
  rw [trace,List.drop_left] at created
  obtain ⟨event,member,isCreated⟩ := List.any_eq_true.mp created
  have isTable : event = .created (.table 5) := by
    cases event with
    | created f => rw [beq_iff_eq.mp isCreated]
    | _ => cases isCreated
  rw [isTable] at member
  exact ⟨y,y',run,there,step,⟨events,trace,member⟩,fresh _ member⟩

end Claims

end LevelDB
