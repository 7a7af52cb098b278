import LevelDB.Machine
import LevelDB.CompactionLoop

/-! What each step of an open database can do, said once: the outcomes of a pass of
`MakeRoomForWrite`, what the background thread leaves alone, and where manual
compactions come from. -/
namespace LevelDB

variable {K V : Type} [LinearOrder K]

def Label.background : Label K V → Bool
  | .beginFlush => true
  | .buildTable _ => true
  | .pick _ => true
  | .pickManual => true
  | .advanceCompaction _ => true
  | .finishCompaction _ => true
  | .appendManifest _ => true
  | .syncManifest _ => true
  | .installVersion _ => true
  | .removeFile _ => true
  | .removeDone => true
  | _ => false

/-- No I/O of the step fails. -/
def Label.ok : Label K V → Bool
  | .makeRoom newFile close => newFile == .ok && close == .ok
  | .addRecord outcome => outcome == .ok
  | .syncLog status => status == .ok
  | .buildTable status => status == .ok
  | .advanceCompaction status => status == .ok
  | .finishCompaction status => status == .ok
  | .appendManifest status => status == .ok
  | .syncManifest status => status == .ok
  | _ => true

def Event.background : Event K V → Bool
  | .errorRecorded => true
  | .created _ => true
  | .manifestAppended => true
  | .installed => true
  | _ => false

/-- What the writers see of the database is the same. -/
structure Db.SameWriters (db db' : Db K V) : Prop where
  mem : db'.mem = db.mem
  logfileNumber : db'.logfileNumber = db.logfileNumber
  lastSequence : db'.versions.lastSequence = db.versions.lastSequence
  snapshots : db'.snapshots = db.snapshots
  writers : db'.writers = db.writers
  leader : db'.leader = db.leader
  tmpBatch : db'.tmpBatch = db.tmpBatch
  flushWaiters : db'.flushWaiters = db.flushWaiters

omit [LinearOrder K] in
theorem Db.SameWriters.trans {db db' db'' : Db K V} (one : db.SameWriters db') (two : db'.SameWriters db'') :
    db.SameWriters db'' :=
  ⟨two.mem.trans one.mem,two.logfileNumber.trans one.logfileNumber,two.lastSequence.trans one.lastSequence,
    two.snapshots.trans one.snapshots,two.writers.trans one.writers,two.leader.trans one.leader,
    two.tmpBatch.trans one.tmpBatch,two.flushWaiters.trans one.flushWaiters⟩

section Cases
variable {o : Options K V} {s s' : State K V} {db : Db K V} {l : Label K V}

omit [LinearOrder K] in
/-- What a leader with room does. -/
theorem startGroup_cases (step : s.startGroup o db = some s') :
    ∃ w rest, db.writers = w :: rest ∧
      (w.batch = none ∧ s' = s.release db w.id .ok (db.versions.lastSequence + 1) ∨
      ∃ b, w.batch = some b ∧
        let g := buildBatchGroup o db.tmpBatch.updates w b rest
        let batch : WriteBatch K V := ⟨db.versions.lastSequence + 1,g.updates⟩
        let last := db.versions.lastSequence + batch.count
        last < kMaxSequenceNumber ∧ s' = s.setDb { (if g.inTmp then { db with tmpBatch := batch }
          else { db with writers := { w with batch := some batch } :: rest }) with
            leader := some (.logging ⟨batch,g.lastWriter,g.inTmp,last⟩) }) := by
  rw [State.startGroup] at step
  split at step
  · cases step
  · rename_i w rest writers
    refine ⟨w,rest,writers,?_⟩
    split at step
    · rename_i noBatch
      cases step
      exact .inl ⟨noBatch,rfl⟩
    · rename_i b batch
      simp only at step
      split at step
      · cases step
      · rename_i small
        cases step
        exact .inr ⟨b,batch,not_le.mp small,rfl⟩

omit [LinearOrder K] in
theorem addRecord_cases {outcome : Append} (step : s.addRecord db outcome = some s') :
    ∃ g, db.leader = some (.logging g) ∧
      (outcome = .ok ∧ s' = s.logRecord db g (db.logged g) ∨
      outcome = .lateError ∧ s' = s.logRecord db g (.finishing g .ioError false) ∨
      outcome = .ioError ∧ s' = s.setDb { db with
        leader := some (.finishing g .ioError false)
        logTorn := true } ∨
      outcome = .lost ∧ db.logTorn = true ∧
        s' = (s.setDb { db with leader := some (db.logged g) }).note (.logged (groupIds db g) g.batch)) := by
  rw [State.addRecord] at step
  split at step
  · rename_i g leader
    refine ⟨g,leader,?_⟩
    cases outcome with
    | ok =>
      cases step
      exact .inl ⟨rfl,rfl⟩
    | lateError =>
      cases step
      exact .inr (.inl ⟨rfl,rfl⟩)
    | ioError =>
      cases step
      exact .inr (.inr (.inl ⟨rfl,rfl⟩))
    | lost =>
      simp only at step
      split at step
      · rename_i torn
        cases step
        exact .inr (.inr (.inr ⟨rfl,torn,rfl⟩))
      · cases step
  · cases step

omit [LinearOrder K] in
theorem Db.logged_cases (db : Db K V) (g : Group K V) :
    leaderSync db = true ∧ db.logged g = .syncing g ∨ leaderSync db = false ∧ db.logged g = .inserting g := by
  rw [Db.logged]
  cases sync : leaderSync db
  · exact .inr ⟨rfl,rfl⟩
  · exact .inl ⟨rfl,rfl⟩

omit [LinearOrder K] in
theorem groupOf_logged (db : Db K V) (g : Group K V) : groupOf (some (db.logged g)) = some g := by
  obtain ⟨-,same⟩ | ⟨-,same⟩ := db.logged_cases g <;> rw [same] <;> rfl

omit [LinearOrder K] in
/-- The outcomes of a pass of `MakeRoomForWrite`: an error, a delay, room, a wait or a
switch of memtables. -/
theorem makeRoom_cases {newFile close : Status} (step : s.makeRoom o db newFile close = some s') :
    ∃ force delay w rest, db.leader = some (.room force delay) ∧ db.writers = w :: rest ∧
      ((db.bgError = true ∨ newFile ≠ .ok) ∧
        s' = s.release db w.id .ioError (db.versions.lastSequence + 1) ∨
      db.bgError = false ∧ s' = s.setDb { db with leader := some (.room force false) } ∨
      db.bgError = false ∧ force = false ∧ s.startGroup o db = some s' ∨
      s' = s ∨
      db.bgError = false ∧ db.imm = none ∧ newFile = .ok ∧ s' = s.switchMemTable db close delay) := by
  rw [State.makeRoom] at step
  split at step
  · rename_i force delay w rest leader writers
    refine ⟨force,delay,w,rest,leader,writers,?_⟩
    split at step
    · rename_i error
      cases step
      exact .inl ⟨.inl error,rfl⟩
    rename_i noError
    have fine : db.bgError = false := by simpa using noError
    split at step
    · cases step
      exact .inr (.inl ⟨fine,rfl⟩)
    split at step
    · rename_i room
      exact .inr (.inr (.inl ⟨fine,by simpa using room.1,step⟩))
    split at step
    · cases step
      exact .inr (.inr (.inr (.inl rfl)))
    rename_i noImm
    split at step
    · cases step
      exact .inr (.inr (.inr (.inl rfl)))
    split at step
    · rename_i made
      cases step
      exact .inr (.inr (.inr (.inr ⟨fine,by simpa using noImm,made,rfl⟩)))
    · rename_i failed
      cases step
      exact .inl ⟨.inr failed,rfl⟩
  · cases step

omit [LinearOrder K] in
/-- The end of a background step, where an error may be recorded. -/
theorem recordBackgroundError_spec (s : State K V) (db : Db K V) :
    ∃ db' events, (s.recordBackgroundError db).process = .running db' ∧ db.SameWriters db' ∧
      db'.job = db.job ∧ db'.manualCompaction = db.manualCompaction ∧ db'.imm = db.imm ∧
      db'.versions = db.versions ∧
      db'.bgError = true ∧ (s.recordBackgroundError db).history = s.history ∧
      (s.recordBackgroundError db).disk = s.disk ∧
      (s.recordBackgroundError db).trace = s.trace ++ events ∧
      events = if db.bgError then [] else [.errorRecorded] := by
  rw [State.recordBackgroundError]
  split
  · rename_i error
    exact ⟨db,[],rfl,⟨rfl,rfl,rfl,rfl,rfl,rfl,rfl,rfl⟩,rfl,rfl,rfl,rfl,error,rfl,rfl,by simp [State.setDb],rfl⟩
  · exact ⟨_,[.errorRecorded],rfl,⟨rfl,rfl,rfl,rfl,rfl,rfl,rfl,rfl⟩,rfl,rfl,rfl,rfl,rfl,rfl,rfl,rfl,rfl⟩

/-- What a background step leaves: the writers' part of the database, the history and the
events of writers. A manual compaction comes from a request, an error from a failure. -/
structure BackgroundStep (s s' : State K V) (db db' : Db K V) (l : Label K V) : Prop where
  process : s'.process = .running db'
  same : db.SameWriters db'
  history : s'.history = s.history
  bgError : db'.bgError = db.bgError ∨ db'.bgError = true ∧ l.ok = false
  events : ∃ events, s'.trace = s.trace ++ events ∧ ∀ e ∈ events, e.background = true
  request : ∀ r, db'.manualCompaction = some r → db.manualCompaction = some r
  outer : ∀ c, db'.job.outer = some c → c.isManual = true →
    db.manualCompaction.isSome ∨ ∃ c', db.job.outer = some c' ∧ c'.isManual = true

omit [LinearOrder K] in
/-- A step that notes nothing. -/
theorem BackgroundStep.quiet {db' : Db K V} (process : s'.process = .running db') (same : db.SameWriters db')
    (history : s'.history = s.history) (trace : s'.trace = s.trace) (bgError : db'.bgError = db.bgError)
    (request : db'.manualCompaction = db.manualCompaction ∨ db'.manualCompaction = none)
    (outer : ∀ c, db'.job.outer = some c → c.isManual = true →
      db.manualCompaction.isSome ∨ ∃ c', db.job.outer = some c' ∧ c'.isManual = true) :
    BackgroundStep s s' db db' l := by
  refine ⟨process,same,history,.inl bgError,⟨[],by simp [trace],by simp⟩,?_,outer⟩
  intro r hr
  rcases request with keep | none
  · rwa [← keep]
  · rw [none] at hr
    cases hr

omit [LinearOrder K] in
/-- A step that first changes the files, with the events that go with it. -/
theorem BackgroundStep.after {t : State K V} (step : ∃ db', BackgroundStep t s' db db' l)
    (events : List (Event K V)) (history : t.history = s.history) (trace : t.trace = s.trace ++ events)
    (background : ∀ e ∈ events, e.background = true) : ∃ db', BackgroundStep s s' db db' l := by
  obtain ⟨db',process,same,history',bgError,⟨others,trace',background'⟩,request,outer⟩ := step
  refine ⟨db',process,same,history'.trans history,bgError,⟨events ++ others,?_,?_⟩,request,outer⟩
  · rw [trace',trace,List.append_assoc]
  · exact fun e he => (List.mem_append.mp he).elim (background e) (background' e)

omit [LinearOrder K] in
theorem BackgroundStep.error (s : State K V) {db db' : Db K V} (same : db.SameWriters db')
    (request : db'.manualCompaction = db.manualCompaction ∨ db'.manualCompaction = none)
    (outer : ∀ c, db'.job.outer = some c → db.job.outer = some c) (failed : l.ok = false) :
    ∃ db'', BackgroundStep s (s.recordBackgroundError db') db db'' l := by
  obtain ⟨db'',events,process,same',job,manual,-,-,error,history,-,trace,isError⟩ :=
    recordBackgroundError_spec s db'
  refine ⟨db'',process,same.trans same',history,.inr ⟨error,failed⟩,⟨events,trace,?_⟩,?_,?_⟩
  · intro e he
    rw [isError] at he
    split at he
    · cases he
    · rw [List.mem_singleton.mp he]
      rfl
  · intro r hr
    rw [manual] at hr
    rcases request with keep | none
    · rwa [← keep]
    · rw [none] at hr
      cases hr
  · intro c hc isManual
    rw [job] at hc
    exact .inr ⟨c,outer c hc,isManual⟩

omit [LinearOrder K] in
theorem resume_outer (outer : Option (CompactionState K V)) : (Job.resume outer).outer = outer := by
  cases outer <;> rfl

omit [LinearOrder K] in
theorem failCompaction_step (s : State K V) {db db' : Db K V} (same : db.SameWriters db')
    (request : db'.manualCompaction = db.manualCompaction) (c : CompactionState K V) (failed : l.ok = false) :
    ∃ db'', BackgroundStep s (s.failCompaction db' c) db db'' l := by
  refine BackgroundStep.error s (same.trans ⟨rfl,rfl,rfl,rfl,rfl,rfl,rfl,rfl⟩) ?_ ?_ failed
  · simp only [Db.cleanup,request]
    split
    · exact .inr rfl
    · exact .inl rfl
  · intro c hc
    cases hc

omit [LinearOrder K] in
theorem failCommit_step (s : State K V) (db : Db K V) (failed : l.ok = false) :
    ∃ db', BackgroundStep s (s.failCommit db) db db' l := by
  rw [State.failCommit]
  split
  · rename_i commit outer job
    refine BackgroundStep.error s ⟨rfl,rfl,rfl,rfl,rfl,rfl,rfl,rfl⟩ (.inl rfl) (fun c hc => ?_) failed
    rwa [job,Job.outer,← resume_outer outer]
  · exact failCompaction_step s ⟨rfl,rfl,rfl,rfl,rfl,rfl,rfl,rfl⟩ rfl _ failed
  · exact BackgroundStep.error s ⟨rfl,rfl,rfl,rfl,rfl,rfl,rfl,rfl⟩ (.inl rfl) (fun c hc => by cases hc) failed

omit [LinearOrder K] in
theorem removeObsoleteFiles_step (s : State K V) {db db' : Db K V} {outer : Option (CompactionState K V)}
    (pinned : Nat → Bool) (same : db.SameWriters db') (bgError : db'.bgError = db.bgError)
    (request : db'.manualCompaction = db.manualCompaction ∨ db'.manualCompaction = none)
    (inner : ∀ c, outer = some c → db.job.outer = some c) :
    ∃ db'', BackgroundStep s (s.removeObsoleteFiles db' outer pinned) db db'' l := by
  rw [State.removeObsoleteFiles]
  split
  · refine ⟨_,.quiet rfl (same.trans ⟨rfl,rfl,rfl,rfl,rfl,rfl,rfl,rfl⟩) rfl rfl bgError request fun c hc manual => ?_⟩
    exact .inr ⟨c,inner c (resume_outer outer ▸ hc),manual⟩
  · exact ⟨_,.quiet rfl (same.trans ⟨rfl,rfl,rfl,rfl,rfl,rfl,rfl,rfl⟩) rfl rfl bgError request
      fun c hc manual => .inr ⟨c,inner c hc,manual⟩⟩

omit [LinearOrder K] in
/-- Which stage the commit has reached does not matter to its failure. -/
theorem failCommit_setCommit (s : State K V) (db : Db K V) (c : Commit K) :
    s.failCommit { db with job := db.job.setCommit c } = s.failCommit db := by
  cases job : db.job <;> simp only [State.failCommit,State.failCompaction,Db.cleanup,Job.setCommit,job]

/-- The background thread leaves the writers alone. -/
theorem background_step (same : s.process = .running db) (background : l.background = true)
    (step : s.stepDb o db l = some s') : ∃ db', BackgroundStep s s' db db' l := by
  cases l with
  | beginFlush =>
    simp only [State.stepDb,State.beginFlush] at step
    split at step
    · split at step
      · cases step
      · cases step
        exact ⟨_,.quiet rfl ⟨rfl,rfl,rfl,rfl,rfl,rfl,rfl,rfl⟩ rfl rfl rfl (.inl rfl) fun c hc => by cases hc⟩
    · rename_i c imm job someImm
      split at step
      · cases step
      · cases step
        refine ⟨_,.quiet rfl ⟨rfl,rfl,rfl,rfl,rfl,rfl,rfl,rfl⟩ rfl rfl rfl (.inl rfl) fun c' hc manual => ?_⟩
        exact .inr ⟨c',by rw [job]; exact hc,manual⟩
    · cases step
  | buildTable status =>
    simp only [State.stepDb,State.buildTable] at step
    split at step
    · rename_i number stage outer imm job someImm
      split at step
      · rename_i failed
        cases step
        have fails : (Label.buildTable status : Label K V).ok = false := by simpa [Label.ok] using failed
        refine BackgroundStep.after (BackgroundStep.error _ ⟨rfl,rfl,rfl,rfl,rfl,rfl,rfl,rfl⟩ (.inl rfl)
          (fun c hc => ?_) fails) [] rfl (List.append_nil _).symm (by simp)
        rwa [job,Job.outer,← resume_outer outer]
      split at step
      · cases step
        rw [State.writeTable]
        split
        · refine ⟨_,.quiet rfl ⟨rfl,rfl,rfl,rfl,rfl,rfl,rfl,rfl⟩ rfl rfl rfl (.inl rfl) fun c hc manual => ?_⟩
          exact .inr ⟨c,by rw [job]; exact hc,manual⟩
        · refine BackgroundStep.after (t := s.note (.created (.table number)))
            ⟨_,.quiet rfl ⟨rfl,rfl,rfl,rfl,rfl,rfl,rfl,rfl⟩ rfl rfl rfl (.inl rfl) fun c hc manual => ?_⟩
            [_] rfl rfl (by simp [Event.background])
          exact .inr ⟨c,by rw [job]; exact hc,manual⟩
      · cases step
        refine ⟨_,.quiet rfl ⟨rfl,rfl,rfl,rfl,rfl,rfl,rfl,rfl⟩ rfl rfl rfl (.inl rfl) fun c hc manual => ?_⟩
        exact .inr ⟨c,by rw [job]; exact hc,manual⟩
    · cases step
  | pick trigger =>
    simp only [State.stepDb,State.pick] at step
    split at step
    · split at step
      · cases step
      split at step
      · cases step
        exact ⟨_,.quiet rfl ⟨rfl,rfl,rfl,rfl,rfl,rfl,rfl,rfl⟩ rfl rfl rfl (.inl rfl) fun c hc => by cases hc⟩
      · cases step
        refine ⟨_,.quiet rfl ⟨rfl,rfl,rfl,rfl,rfl,rfl,rfl,rfl⟩ rfl rfl rfl (.inl rfl) fun c hc manual => ?_⟩
        cases hc
        cases manual
    · cases step
  | pickManual =>
    simp only [State.stepDb,State.pickManual] at step
    split at step
    · rename_i r job imm manual
      split at step
      · cases step
      split at step
      · cases step
        exact ⟨_,.quiet rfl ⟨rfl,rfl,rfl,rfl,rfl,rfl,rfl,rfl⟩ rfl rfl rfl (.inr rfl) fun c hc => by
          rw [job] at hc
          cases hc⟩
      · cases step
        exact ⟨_,.quiet rfl ⟨rfl,rfl,rfl,rfl,rfl,rfl,rfl,rfl⟩ rfl rfl rfl (.inl rfl) fun c hc _ => .inl (by simp [manual])⟩
    · cases step
  | advanceCompaction status =>
    simp only [State.stepDb,State.advanceCompaction] at step
    split at step
    · rename_i c job
      split at step
      · cases step
      rename_i more
      split at step
      · rename_i failed
        cases step
        exact failCompaction_step s ⟨rfl,rfl,rfl,rfl,rfl,rfl,rfl,rfl⟩ rfl c (by simp [Label.ok,failed])
      obtain ⟨e,rest,head⟩ := List.exists_cons_of_ne_nil more
      have manual := (advance_same o db.versions.nextFileNumber head).1.isManual
      cases opened : (c.advance o db.versions.nextFileNumber).2 with
      | false =>
        simp only [opened,Bool.false_eq_true,if_false] at step
        split at step
        · cases step
          refine ⟨_,.quiet rfl ⟨rfl,rfl,rfl,rfl,rfl,rfl,rfl,rfl⟩ rfl rfl rfl (.inl rfl) fun c' hc isManual => ?_⟩
          cases hc
          exact .inr ⟨c,by rw [job]; rfl,manual ▸ isManual⟩
        · rename_i failed
          cases step
          exact BackgroundStep.after (failCompaction_step _ ⟨rfl,rfl,rfl,rfl,rfl,rfl,rfl,rfl⟩ rfl _
            (by simpa [Label.ok] using failed)) [] rfl (List.append_nil _).symm (by simp)
      | true =>
        simp only [opened,if_true] at step
        split at step
        · cases step
          refine BackgroundStep.after (t := s.note (.created (.table db.versions.nextFileNumber)))
            ⟨_,.quiet rfl ⟨rfl,rfl,rfl,rfl,rfl,rfl,rfl,rfl⟩ rfl rfl rfl (.inl rfl) fun c' hc isManual => ?_⟩
            [_] rfl rfl (by simp [Event.background])
          cases hc
          exact .inr ⟨c,by rw [job]; rfl,manual ▸ isManual⟩
        · rename_i failed
          cases step
          have fails : (Label.advanceCompaction status : Label K V).ok = false := by simpa [Label.ok] using failed
          have same : db.SameWriters { db with
              versions := { db.versions with nextFileNumber := db.versions.nextFileNumber + 1 }
              pendingOutputs := db.versions.nextFileNumber :: db.pendingOutputs } :=
            ⟨rfl,rfl,rfl,rfl,rfl,rfl,rfl,rfl⟩
          refine BackgroundStep.after (failCompaction_step _ same rfl _ fails)
            [.created (.table db.versions.nextFileNumber)] ?_ ?_ (by simp [Event.background])
          · rfl
          · rfl
    · cases step
  | finishCompaction status =>
    simp only [State.stepDb,State.finishCompaction] at step
    split at step
    · rename_i c job
      split at step
      · cases step
      split at step
      · rename_i failed
        cases step
        exact failCompaction_step s ⟨rfl,rfl,rfl,rfl,rfl,rfl,rfl,rfl⟩ rfl c (by simpa [Label.ok] using failed)
      · cases step
        exact ⟨_,.quiet rfl ⟨rfl,rfl,rfl,rfl,rfl,rfl,rfl,rfl⟩ rfl rfl rfl (.inl rfl) fun c hc => by cases hc⟩
    · cases step
  | appendManifest status =>
    simp only [State.stepDb,State.appendManifest] at step
    split at step
    · rename_i c job
      split at step
      · cases step
      split at step
      · rename_i failed
        cases step
        exact failCommit_step s db (by simp [Label.ok,failed])
      split at step
      · cases step
        refine BackgroundStep.after (t := s.note .manifestAppended)
          ⟨_,.quiet rfl ⟨rfl,rfl,rfl,rfl,rfl,rfl,rfl,rfl⟩ rfl rfl rfl (.inl rfl) fun c hc manual => ?_⟩
          [_] rfl rfl (by simp [Event.background])
        exact .inr ⟨c,setCommit_outer db.job _ ▸ hc,manual⟩
      · rename_i failed
        cases step
        exact BackgroundStep.after (failCommit_step _ db (by simpa [Label.ok] using failed))
          [_] rfl rfl (by simp [Event.background])
    · cases step
  | syncManifest status =>
    simp only [State.stepDb,State.syncManifest] at step
    split at step
    · rename_i c job
      split at step
      · cases step
      split at step
      · rename_i failed
        cases step
        exact failCommit_step s db (by simpa [Label.ok] using failed)
      · cases step
        refine ⟨_,.quiet rfl ⟨rfl,rfl,rfl,rfl,rfl,rfl,rfl,rfl⟩ rfl rfl rfl (.inl rfl) fun c hc manual => ?_⟩
        exact .inr ⟨c,setCommit_outer db.job _ ▸ hc,manual⟩
    · cases step
  | installVersion pinned =>
    simp only [State.stepDb,State.installVersion] at step
    split at step
    · rename_i c isCommit
      split at step
      · cases step
      have done : ∃ db', BackgroundStep (s.note .installed) s' db db' (.installVersion pinned) := by
        split at step
        · rename_i commit outer job
          cases step
          exact removeObsoleteFiles_step _ pinned ⟨rfl,rfl,rfl,rfl,rfl,rfl,rfl,rfl⟩ rfl (.inl rfl) fun c hc => by
            rw [job]
            exact hc
        · rename_i done commit job
          cases step
          refine removeObsoleteFiles_step _ pinned ⟨rfl,rfl,rfl,rfl,rfl,rfl,rfl,rfl⟩ rfl ?_ fun c hc => by cases hc
          simp only [Db.cleanup]
          split
          · exact .inr rfl
          · exact .inl rfl
        · cases step
          exact ⟨_,.quiet rfl ⟨rfl,rfl,rfl,rfl,rfl,rfl,rfl,rfl⟩ rfl rfl rfl (.inl rfl) fun c hc => by cases hc⟩
      exact BackgroundStep.after done [_] rfl rfl (by simp [Event.background])
    · cases step
  | removeFile f =>
    simp only [State.stepDb,State.removeFile] at step
    split at step
    · split at step
      · cases step
        exact ⟨db,.quiet same ⟨rfl,rfl,rfl,rfl,rfl,rfl,rfl,rfl⟩ rfl rfl rfl (.inl rfl) fun c hc manual => .inr ⟨c,hc,manual⟩⟩
      · cases step
    · cases step
  | removeDone =>
    simp only [State.stepDb,State.removeDone] at step
    split at step
    · rename_i doomed outer job
      cases step
      refine ⟨_,.quiet rfl ⟨rfl,rfl,rfl,rfl,rfl,rfl,rfl,rfl⟩ rfl rfl rfl (.inl rfl) fun c hc manual => ?_⟩
      exact .inr ⟨c,by rw [job,Job.outer,← resume_outer outer]; exact hc,manual⟩
    · cases step
  | _ => cases background

/-- What a step of a writer leaves: the job of the background thread and the version. A
manual compaction that is asked for is not of the last level. -/
structure WriterStep (s' : State K V) (db db' : Db K V) (l : Label K V) : Prop where
  process : s'.process = .running db'
  job : db'.job = db.job
  current : db'.versions.current = db.versions.current
  logNumber : db'.versions.logNumber = db.versions.logNumber
  bgError : db.bgError = true → db'.bgError = true
  request : ∀ r, db'.manualCompaction = some r → db.manualCompaction = some r ∨
    r.level + 1 < kNumLevels ∧ ∃ level first last, l = .requestCompaction level first last

omit [LinearOrder K] in
theorem WriterStep.quiet {db' : Db K V} (process : s'.process = .running db') (job : db'.job = db.job)
    (current : db'.versions.current = db.versions.current)
    (logNumber : db'.versions.logNumber = db.versions.logNumber)
    (bgError : db.bgError = true → db'.bgError = true)
    (request : db'.manualCompaction = db.manualCompaction) : WriterStep s' db db' l :=
  ⟨process,job,current,logNumber,bgError,fun _ hr => .inl (request ▸ hr)⟩

omit [LinearOrder K] in
theorem startGroup_step (step : s.startGroup o db = some s') : ∃ db', WriterStep s' db db' l := by
  obtain ⟨w,rest,-,⟨-,rfl⟩ | ⟨b,-,-,rfl⟩⟩ := startGroup_cases step
  · exact ⟨_,.quiet rfl rfl rfl rfl id rfl⟩
  · cases (buildBatchGroup o db.tmpBatch.updates w b rest).inTmp <;>
    exact ⟨_,.quiet rfl rfl rfl rfl id rfl⟩

/-- The writers leave the background thread alone. -/
theorem writer_step (same : s.process = .running db) (writer : l.background = false)
    (step : s.stepDb o db l = some s') : ∃ db', WriterStep s' db db' l := by
  cases l with
  | enter id batch sync =>
    simp only [State.stepDb,State.enter] at step
    split at step
    · cases step
    · cases step
      exact ⟨_,.quiet rfl rfl rfl rfl (fun e => e) rfl⟩
  | lead =>
    simp only [State.stepDb,State.lead] at step
    split at step
    · cases step
      exact ⟨_,.quiet rfl rfl rfl rfl (fun e => e) rfl⟩
    · cases step
  | makeRoom newFile close =>
    obtain ⟨force,delay,w,rest,-,-,⟨-,rfl⟩ | ⟨-,rfl⟩ | ⟨-,-,start⟩ | rfl | ⟨-,-,-,rfl⟩⟩ := makeRoom_cases step
    · exact ⟨_,.quiet rfl rfl rfl rfl (fun e => e) rfl⟩
    · exact ⟨_,.quiet rfl rfl rfl rfl (fun e => e) rfl⟩
    · exact startGroup_step start
    · exact ⟨db,.quiet same rfl rfl rfl (fun e => e) rfl⟩
    · simp only [State.switchMemTable]
      split
      · exact ⟨_,.quiet rfl rfl rfl rfl (fun e => e) rfl⟩
      · rw [State.recordBackgroundError]
        split
        · exact ⟨_,.quiet rfl rfl rfl rfl (fun e => e) rfl⟩
        · exact ⟨_,.quiet rfl rfl rfl rfl (fun _ => rfl) rfl⟩
  | addRecord outcome =>
    obtain ⟨g,-,⟨-,rfl⟩ | ⟨-,rfl⟩ | ⟨-,rfl⟩ | ⟨-,-,rfl⟩⟩ := addRecord_cases step
    · exact ⟨_,.quiet rfl rfl rfl rfl (fun e => e) rfl⟩
    · exact ⟨_,.quiet rfl rfl rfl rfl (fun e => e) rfl⟩
    · exact ⟨_,.quiet rfl rfl rfl rfl (fun e => e) rfl⟩
    · exact ⟨_,.quiet rfl rfl rfl rfl (fun e => e) rfl⟩
  | syncLog status =>
    simp only [State.stepDb,State.syncLog] at step
    split at step
    · split at step <;> cases step <;> exact ⟨_,.quiet rfl rfl rfl rfl (fun e => e) rfl⟩
    · cases step
  | insertInto =>
    simp only [State.stepDb,State.insertInto] at step
    split at step
    · cases step
      exact ⟨_,.quiet rfl rfl rfl rfl (fun e => e) rfl⟩
    · cases step
  | finishWrite =>
    simp only [State.stepDb,State.finishWrite] at step
    split at step
    · cases step
      exact ⟨_,.quiet rfl rfl rfl rfl (fun e => by simp [e]) rfl⟩
    · cases step
  | getSnapshot =>
    cases step
    exact ⟨_,.quiet rfl rfl rfl rfl (fun e => e) rfl⟩
  | releaseSnapshot snapshot =>
    cases step
    exact ⟨_,.quiet rfl rfl rfl rfl (fun e => e) rfl⟩
  | awaitFlush id =>
    simp only [State.stepDb,State.awaitFlush] at step
    split at step
    · cases step
      exact ⟨_,.quiet rfl rfl rfl rfl (fun e => e) rfl⟩
    · cases step
  | requestCompaction level first last =>
    simp only [State.stepDb,State.requestCompaction] at step
    split at step
    · rename_i allowed
      cases step
      refine ⟨_,rfl,rfl,rfl,rfl,fun e => e,fun r hr => .inr ⟨?_,level,first,last,rfl⟩⟩
      cases hr
      exact allowed.1
    · cases step
  | crash cut => cases step
  | openDb => cases step
  | newDb => cases step
  | recover => cases step
  | replay => cases step
  | openCommit => cases step
  | _ => cases writer

/-- A step is a crash, a step of the open database, or a step of `DB::Open`. -/
theorem step_cases (step : s.step o l = some s') :
    (∃ cut, l = .crash cut ∧ s' = s.crash cut) ∨
      (∃ db, s.process = .running db ∧ s.stepDb o db l = some s') ∨
      (∀ db, s.process ≠ .running db) ∧ s.stepOpen o l = some s' := by
  rw [State.step.eq_def] at step
  split at step
  · cases step
    exact .inl ⟨_,rfl,rfl⟩
  · rename_i db _ process
    exact .inr (.inl ⟨db,process,step⟩)
  · rename_i closed
    exact .inr (.inr ⟨closed,step⟩)

/-- An opened database starts with nothing to do. -/
theorem stepOpen_running (step : s.stepOpen o l = some s') (process : s'.process = .running db) :
    ∃ versions log c, s.process = .opening (.commit versions log c .install) ∧
      s' = s.removeObsoleteFiles (Db.new (versions.install c) log) none fun _ => false := by
  cases l with
  | openDb =>
    simp only [State.stepOpen,State.openDb] at step
    split at step
    · cases step
      split at process <;> cases process
    · cases step
  | newDb =>
    simp only [State.stepOpen,State.newDb] at step
    split at step <;> cases step <;> cases process
  | recover =>
    simp only [State.stepOpen,State.recover] at step
    split at step
    · cases step
      split at process
      · cases process
      · split at process <;> cases process
    · cases step
  | replay =>
    simp only [State.stepOpen,State.replay] at step
    repeat' split at step
    all_goals cases step
    all_goals simp only [State.writeTable_process,State.openLog,State.note_process] at process
    all_goals cases process
  | openCommit =>
    simp only [State.stepOpen,State.openCommit] at step
    split at step
    · rename_i versions log c stage opening
      split at step
      · cases step
        cases process
      · cases step
        cases process
      · cases step
        cases process
      · cases step
        cases process
      · cases step
        exact ⟨versions,log,c,opening,rfl⟩
    · cases step
  | _ => cases step

theorem stepDb_running (same : s.process = .running db) (step : s.stepDb o db l = some s') :
    ∃ db', s'.process = .running db' := by
  cases background : l.background with
  | true =>
    obtain ⟨db',after⟩ := background_step same background step
    exact ⟨db',after.process⟩
  | false =>
    obtain ⟨db',after⟩ := writer_step same background step
    exact ⟨db',after.process⟩

/-- Manual compactions that are asked for are not of the last level. -/
def State.Manual (s : State K V) : Prop :=
  ∀ db, s.process = .running db → ∀ r, db.manualCompaction = some r → r.level + 1 < kNumLevels

/-- No manual compaction was asked for. -/
def State.Automatic (s : State K V) : Prop :=
  ∀ db, s.process = .running db →
    db.manualCompaction = none ∧ ∀ c, db.job.outer = some c → c.isManual = false

def Label.automatic : Label K V → Bool
  | .requestCompaction .. => false
  | _ => true

omit [LinearOrder K] in
theorem removeObsoleteFiles_running {outer : Option (CompactionState K V)} {pinned : Nat → Bool}
    {db' : Db K V} (process : (s.removeObsoleteFiles db outer pinned).process = .running db') :
    ∃ job, db' = { db with job } ∧ job.outer = outer := by
  rw [State.removeObsoleteFiles] at process
  split at process
  · cases process
    exact ⟨_,rfl,resume_outer outer⟩
  · cases process
    exact ⟨_,rfl,rfl⟩

theorem State.Manual.step (manual : s.Manual) (step : s.step o l = some s') : s'.Manual := by
  intro db' process' r hr
  obtain ⟨cut,rfl,rfl⟩ | ⟨db,process,step⟩ | ⟨-,step⟩ := step_cases step
  · cases process'
  · cases background : l.background with
    | true =>
      obtain ⟨db'',after⟩ := background_step process background step
      rw [after.process] at process'
      cases process'
      exact manual db process r (after.request r hr)
    | false =>
      obtain ⟨db'',after⟩ := writer_step process background step
      rw [after.process] at process'
      cases process'
      rcases after.request r hr with before | ⟨deep,-⟩
      · exact manual db process r before
      · exact deep
  · obtain ⟨versions,log,c,-,rfl⟩ := stepOpen_running step process'
    obtain ⟨job,rfl,-⟩ := removeObsoleteFiles_running process'
    cases hr

theorem State.Automatic.step (automatic : s.Automatic) (isAutomatic : l.automatic = true)
    (step : s.step o l = some s') : s'.Automatic := by
  intro db' process'
  obtain ⟨cut,rfl,rfl⟩ | ⟨db,process,step⟩ | ⟨-,step⟩ := step_cases step
  · cases process'
  · obtain ⟨none,outer⟩ := automatic db process
    cases background : l.background with
    | true =>
      obtain ⟨db'',after⟩ := background_step process background step
      rw [after.process] at process'
      cases process'
      refine ⟨Option.eq_none_iff_forall_ne_some.mpr fun r hr => ?_,fun c hc => ?_⟩
      · have := after.request r hr
        rw [none] at this
        cases this
      · by_contra manual
        rcases after.outer c hc (by simpa using manual) with some | ⟨c',hc',manual'⟩
        · rw [none] at some
          cases some
        · rw [outer c' hc'] at manual'
          cases manual'
    | false =>
      obtain ⟨db'',after⟩ := writer_step process background step
      rw [after.process] at process'
      cases process'
      refine ⟨Option.eq_none_iff_forall_ne_some.mpr fun r hr => ?_,fun c hc => outer c (after.job ▸ hc)⟩
      rcases after.request r hr with before | ⟨-,level,first,last,rfl⟩
      · rw [none] at before
        cases before
      · cases isAutomatic
  · obtain ⟨versions,log,c,-,rfl⟩ := stepOpen_running step process'
    obtain ⟨job,rfl,outer⟩ := removeObsoleteFiles_running process'
    exact ⟨rfl,fun c hc => by rw [outer] at hc; cases hc⟩

end Cases

end LevelDB
