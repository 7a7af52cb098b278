import LevelDB.GroupCommit

/-! Background errors. Once `bg_error_` is set no writer finds room and the background thread
begins nothing; the groups that were formed are committed still, and the background call that
was under way goes on to its end. -/
namespace LevelDB

variable {K V : Type}

/-- The descriptor of the database changes: a record for the manifest, or a new version. -/
def Event.commits : Event K V → Bool
  | .manifestAppended => true
  | .installed => true
  | _ => false

def Job.isIdle : Job K V → Bool
  | .idle => true
  | _ => false

theorem Job.isIdle_iff {job : Job K V} : job.isIdle = true ↔ job = .idle := by
  cases job <;> simp [Job.isIdle]

/-- The calls that get their answer from the leader of the group. -/
def Front.Answers (f : Front K V) (id : Nat) : Prop := ∃ g, groupOf f.leader = some g ∧ id ∈ (f.members g).map (·.id)

/-- What a step does to a database with an error. -/
structure State.Freezes [LinearOrder K] (s s' : State K V) (db db' : Db K V) (events : List (Event K V)) : Prop where
  process : s'.process = .running db'
  trace : s'.trace = s.trace ++ events
  error : db'.bgError = true
  idle : db.job = .idle → db'.job = .idle ∧ ∀ e ∈ events, e.commits = false
  acks : ∀ id sync b first, .returned id .ok sync b first ∈ events → (s.front db).Answers id
  groups : ∀ id, (s'.front db').Answers id → (s.front db).Answers id

section Steps
variable [LinearOrder K] {o : Options K V} {s s' : State K V} {db db' : Db K V} {l : Label K V}

omit [LinearOrder K] in
theorem Event.commits_of_returns {status : Status} {first : Nat} {ws : List (Writer K V)} :
    ∀ e ∈ returns status first ws, e.commits = false := by
  intro e member
  obtain ⟨w,-,n,rfl⟩ := mem_returns member
  rfl

/-- The background thread begins nothing. -/
theorem idle_background (idle : db.job = .idle) (error : db.bgError = true) (background : l.background = true) :
    s.stepDb o db l = none := by
  cases l with
  | beginFlush =>
    simp only [State.stepDb,State.beginFlush,idle]
    split <;> simp_all
  | pick trigger =>
    simp only [State.stepDb,State.pick,idle]
    split <;> simp_all
  | pickManual =>
    simp only [State.stepDb,State.pickManual,idle]
    split <;> simp_all
  | buildTable status => simp [State.stepDb,State.buildTable,idle]
  | advanceCompaction status => simp [State.stepDb,State.advanceCompaction,idle]
  | finishCompaction status => simp [State.stepDb,State.finishCompaction,idle]
  | appendManifest status => simp [State.stepDb,State.appendManifest,idle,Job.commit]
  | syncManifest status => simp [State.stepDb,State.syncManifest,idle,Job.commit]
  | installVersion pinned => simp [State.stepDb,State.installVersion,idle,Job.commit]
  | removeFile f => simp [State.stepDb,State.removeFile,idle]
  | removeDone => simp [State.stepDb,State.removeDone,idle]
  | _ => cases background

/-- A step of a writer that returns nothing and forms no group. -/
theorem State.Freezes.quiet {events : List (Event K V)} (process : s'.process = .running db')
    (trace : s'.trace = s.trace ++ events) (error : db'.bgError = true) (job : db'.job = db.job)
    (quiet : ∀ e ∈ events, e.commits = false ∧ ∀ id status sync b first, e ≠ .returned id status sync b first)
    (leader : groupOf db'.leader = groupOf db.leader) (writers : db'.writers = db.writers) :
    s.Freezes s' db db' events := by
  refine ⟨process,trace,error,fun idle => ⟨job.trans idle,fun e member => (quiet e member).1⟩,?_,?_⟩
  · intro id sync b first member
    exact absurd rfl ((quiet _ member).2 id .ok sync b first)
  · rintro id ⟨g,group,member⟩
    exact ⟨g,leader ▸ group,by simpa [Front.members,State.front,writers] using member⟩

theorem writer_freezes (queue : (s.front db).Queue) (error : db.bgError = true)
    (writer : l.background = false) (step : s.stepDb o db l = some s') :
    ∃ db' events, s.Freezes s' db db' events := by
  cases l with
  | enter id batch sync =>
    simp only [State.stepDb,State.enter] at step
    split at step
    · cases step
    · rename_i fresh
      cases step
      refine ⟨_,_,rfl,rfl,error,fun idle => ⟨idle,by simp [Event.commits]⟩,by simp,?_⟩
      rintro id' ⟨g,group,member⟩
      have ids := (queue.enter id batch sync fresh).ids
      have members := (queue.enter_members group ⟨id,batch,sync⟩ ids).1
      refine ⟨g,group,?_⟩
      rw [← members]
      exact member
  | lead =>
    simp only [State.stepDb,State.lead] at step
    split at step
    · rename_i w rest leader writers
      cases step
      refine ⟨_,[],.quiet rfl (List.append_nil _).symm error rfl (by simp) ?_ rfl⟩
      rw [leader]
      rfl
    · cases step
  | makeRoom newFile close =>
    simp only [State.stepDb,State.makeRoom] at step
    split at step
    · rw [if_pos error] at step
      cases step
      refine ⟨_,_,rfl,rfl,error,fun idle => ⟨idle,Event.commits_of_returns⟩,?_,?_⟩
      · intro id sync b first member
        obtain ⟨w,-,n,same⟩ := mem_returns member
        cases same
      · rintro id ⟨g,group,-⟩
        cases group
    · cases step
  | addRecord outcome =>
    obtain ⟨g,leader,⟨-,rfl⟩ | ⟨-,rfl⟩ | ⟨-,rfl⟩ | ⟨-,-,rfl⟩⟩ := addRecord_cases step
    · exact ⟨_,_,.quiet rfl rfl error rfl (by simp [Event.commits]) (by rw [leader]; exact groupOf_logged db g) rfl⟩
    · exact ⟨_,_,.quiet rfl rfl error rfl (by simp [Event.commits]) (by rw [leader]; rfl) rfl⟩
    · exact ⟨_,[],.quiet rfl (List.append_nil _).symm error rfl (by simp) (by rw [leader]; rfl) rfl⟩
    · exact ⟨_,_,.quiet rfl rfl error rfl (by simp [Event.commits]) (by rw [leader]; exact groupOf_logged db g) rfl⟩
  | syncLog status =>
    simp only [State.stepDb,State.syncLog] at step
    split at step
    · rename_i g leader
      split at step
      · cases step
        exact ⟨_,_,.quiet rfl rfl error rfl (by simp [Event.commits]) (by rw [leader]; rfl) rfl⟩
      · cases step
        exact ⟨_,[],.quiet rfl (List.append_nil _).symm error rfl (by simp) (by rw [leader]; rfl) rfl⟩
    · cases step
  | insertInto =>
    simp only [State.stepDb,State.insertInto] at step
    split at step
    · rename_i g leader
      cases step
      exact ⟨_,_,.quiet rfl rfl error rfl (by simp [Event.commits]) (by rw [leader]; rfl) rfl⟩
    · cases step
  | finishWrite =>
    simp only [State.stepDb,State.finishWrite] at step
    split at step
    · rename_i g status syncError leader
      have noNote : (syncError && !db.bgError) = false := by simp [error]
      rw [noNote] at step
      cases step
      refine ⟨_,_,rfl,rfl,by simp [error],fun idle => ⟨idle,Event.commits_of_returns⟩,?_,?_⟩
      · intro id sync b first member
        obtain ⟨w,inside,n,same⟩ := mem_returns member
        cases same
        refine ⟨g,by simp [State.front,leader],List.mem_map_of_mem inside⟩
      · rintro id ⟨g',group,-⟩
        cases group
    · cases step
  | getSnapshot =>
    cases step
    exact ⟨_,[],.quiet rfl (List.append_nil _).symm error rfl (by simp) rfl rfl⟩
  | releaseSnapshot snapshot =>
    cases step
    exact ⟨_,[],.quiet rfl (List.append_nil _).symm error rfl (by simp) rfl rfl⟩
  | awaitFlush id =>
    simp only [State.stepDb,State.awaitFlush] at step
    split at step
    · cases step
      exact ⟨_,_,.quiet rfl rfl error rfl (by simp [Event.commits]) rfl rfl⟩
    · cases step
  | requestCompaction level first last =>
    simp only [State.stepDb,State.requestCompaction] at step
    split at step
    · cases step
      exact ⟨_,[],.quiet rfl (List.append_nil _).symm error rfl (by simp) rfl rfl⟩
    · cases step
  | crash cut => cases step
  | openDb => cases step
  | newDb => cases step
  | recover => cases step
  | replay => cases step
  | openCommit => cases step
  | _ => cases writer

theorem stepDb_freezes (same : s.process = .running db) (queue : (s.front db).Queue) (error : db.bgError = true)
    (step : s.stepDb o db l = some s') : ∃ db' events, s.Freezes s' db db' events := by
  cases background : l.background with
  | false => exact writer_freezes queue error background step
  | true =>
    obtain ⟨db',after⟩ := background_step same background step
    obtain ⟨events,trace,isBackground⟩ := after.events
    have front : (s'.front db').leader = (s.front db).leader ∧ (s'.front db').writers = (s.front db).writers :=
      ⟨after.same.leader,after.same.writers⟩
    refine ⟨db',events,after.process,trace,?_,fun idle => ?_,fun id sync b first member => ?_,?_⟩
    · rcases after.bgError with kept | failed
      · rw [kept,error]
      · exact failed.1
    · rw [idle_background idle error background] at step
      cases step
    · cases isBackground _ member
    · rintro id ⟨g,group,member⟩
      refine ⟨g,front.1 ▸ group,?_⟩
      rw [Front.members,front.2] at member
      exact member

end Steps

section Runs
variable [LinearOrder K] {o : Options K V} {s s' : State K V} {db : Db K V} {l : Label K V}

/-- The queue is in order in every state of a run. -/
def State.Queued (s : State K V) : Prop := ∀ db, s.process = .running db → (s.front db).Queue

theorem State.Queued.step (queued : s.Queued) (step : s.step o l = some s') : s'.Queued := by
  rcases step_cases step with ⟨cut,rfl,rfl⟩ | ⟨db,process,taken⟩ | ⟨closed,opening⟩
  · rintro _ ⟨⟩
  · obtain ⟨db',running,front⟩ := front_step process taken
    intro db'' now
    rw [running] at now
    cases now
    exact (queued db process).step front
  · exact fun db process => (stepOpen_quiescent opening process).queue s'

theorem State.Queued.run {ls : List (Label K V)} (queued : s.Queued) (run : s.run o ls = some s') : s'.Queued := by
  induction ls generalizing s with
  | nil =>
    cases run
    exact queued
  | cons l rest ih =>
    obtain ⟨next,step,later⟩ := Option.bind_eq_some_iff.mp run
    exact ih (queued.step step) later

/-- A step of the database with an error that is not a crash. -/
theorem step_freezes (running : s.process = .running db) (queued : s.Queued) (error : db.bgError = true)
    (noCrash : ∀ cut, l ≠ .crash cut) (step : s.step o l = some s') : ∃ db' events, s.Freezes s' db db' events := by
  rcases step_cases step with ⟨cut,crash,-⟩ | ⟨db₁,process,taken⟩ | ⟨closed,-⟩
  · exact absurd crash (noCrash cut)
  · rw [running] at process
    cases process
    exact stepDb_freezes running (queued db running) error taken
  · exact absurd running (closed db)

theorem run_freezes {rest : List (Label K V)} (running : s.process = .running db) (queued : s.Queued)
    (error : db.bgError = true) (noCrash : ∀ l ∈ rest, ∀ cut, l ≠ .crash cut) (later : s.run o rest = some s') :
    ∃ db' t, s.Freezes s' db db' t := by
  induction rest generalizing s db with
  | nil =>
    cases later
    exact ⟨db,[],running,(List.append_nil _).symm,error,fun idle => ⟨idle,by simp⟩,by simp,fun id answers => answers⟩
  | cons l rest ih =>
    obtain ⟨next,step,later⟩ := Option.bind_eq_some_iff.mp later
    obtain ⟨db₁,events,first⟩ := step_freezes running queued error (noCrash l (by simp)) step
    obtain ⟨db',t,then_⟩ := ih first.process (queued.step step) first.error (fun l hl => noCrash l (by simp [hl])) later
    refine ⟨db',events ++ t,then_.process,?_,then_.error,fun idle => ?_,fun id sync b first' member => ?_,fun id answers => ?_⟩
    · rw [then_.trace,first.trace,List.append_assoc]
    · obtain ⟨idle₁,none₁⟩ := first.idle idle
      obtain ⟨idle',none'⟩ := then_.idle idle₁
      exact ⟨idle',fun e member => (List.mem_append.mp member).elim (none₁ e) (none' e)⟩
    · rcases List.mem_append.mp member with early | late
      · exact first.acks id sync b first' early
      · exact first.groups id (then_.acks id sync b first' late)
    · exact first.groups id (then_.groups id answers)

/-- After a background error, in whatever state it finds the database: no call that enters
`Write` later returns OK, and once the background thread is idle, as it may be already, it
stays so, and neither the manifest nor the current version changes any more. -/
theorem error_freezes {ls rest : List (Label K V)} (run : State.initial.run o ls = some s)
    (running : s.process = .running db) (error : db.bgError = true) (noCrash : ∀ l ∈ rest, ∀ cut, l ≠ .crash cut)
    (later : s.run o rest = some s') :
    ∃ db' t, s'.process = .running db' ∧ db'.bgError = true ∧ s'.trace = s.trace ++ t ∧
      (∀ id sync b first, .returned id .ok sync b first ∈ t → ∃ b' sync', .entered id b' sync' ∈ s.trace) ∧
      ∀ r₁ r₂ s₁ db₁, rest = r₁ ++ r₂ → s.run o r₁ = some s₁ → s₁.process = .running db₁ → db₁.job = .idle →
        db'.job = .idle ∧ ∃ t₁ t₂, s₁.trace = s.trace ++ t₁ ∧ t = t₁ ++ t₂ ∧ ∀ e ∈ t₂, e.commits = false := by
  have start : (State.initial : State K V).Queued := by rintro _ ⟨⟩
  have queued := start.run run
  obtain ⟨db',t,freezes⟩ := run_freezes running queued error noCrash later
  refine ⟨db',t,freezes.process,freezes.error,freezes.trace,fun id sync b first member => ?_,?_⟩
  · obtain ⟨g,group,inside⟩ := freezes.acks id sync b first member
    obtain ⟨w,member',rfl⟩ := List.mem_map.mp inside
    obtain ⟨members,others,commits⟩ := (queued db running).group g group
    rw [Front.members,commits.split (queued db running).ids] at member'
    obtain ⟨b',entered,-⟩ := (queued db running).entered w (commits.queue ▸ List.mem_append_left _ member')
    exact ⟨b',w.sync,entered⟩
  · rintro r₁ r₂ s₁ db₁ rfl run₁ running₁ idle
    obtain ⟨db₂,t₁,early⟩ := run_freezes running queued error (fun l hl => noCrash l (by simp [hl])) run₁
    have same := early.process
    rw [running₁] at same
    cases same
    rw [State.run_append,run₁] at later
    obtain ⟨db₃,t₂,late⟩ := run_freezes running₁ (queued.run run₁) early.error (fun l hl => noCrash l (by simp [hl])) later
    have same := late.process
    rw [freezes.process] at same
    cases same
    refine ⟨(late.idle idle).1,t₁,t₂,early.trace,?_,(late.idle idle).2⟩
    have trace := freezes.trace
    rw [late.trace,early.trace,List.append_assoc] at trace
    exact (List.append_cancel_left trace).symm

end Runs

/-- The memtable of a first write is switched for, and a flush of it begins; then the sync of
another write fails. -/
def failingRun : List (Label Nat Nat) :=
  openRun ++ writeRun 1 [(1,some 1)] false 1 ++
    [.enter 2 none false,.lead,.makeRoom .ok .ok,.makeRoom .ok .ok,.beginFlush,.buildTable .ok,
      .enter 3 (some ⟨0,[(2,some 2)]⟩) true,.lead,.makeRoom .ok .ok,.addRecord .ok,.syncLog .ioError,.finishWrite]

/-- The flush that was under way commits and installs its version. -/
theorem flush_after_error : ∃ (s s' : State Nat Nat) (db : Db Nat Nat), State.initial.run smallOptions failingRun = some s ∧
    s.process = .running db ∧ db.bgError = true ∧
    s.run smallOptions [.buildTable .ok,.appendManifest .ok,.syncManifest .ok,.installVersion fun _ => false] = some s' ∧
    s'.trace = s.trace ++ [.manifestAppended,.installed] := by
  have found : ((State.initial.run smallOptions failingRun).any fun s => s.db.any fun db => db.bgError &&
      (s.run smallOptions [.buildTable .ok,.appendManifest .ok,.syncManifest .ok,.installVersion fun _ => false]).any
        fun s' => decide (s'.trace = s.trace ++ [.manifestAppended,.installed])) = true := by decide
  simp only [Bool.and_eq_true,Option.any_eq_true,decide_eq_true_eq] at found
  obtain ⟨s,run,db,isDb,error,s',later,trace⟩ := found
  exact ⟨s,s',db,run,State.db_eq.mp isDb,error,later,trace⟩

/-- A writer that comes after the flush has failed. -/
def lateWriter : List (Label Nat Nat) := [.enter 4 (some ⟨0,[(3,some 3)]⟩) false,.lead,.makeRoom .ok .ok]

theorem error_freezes_writer : ∃ (s s' : State Nat Nat) (db db' : Db Nat Nat) (t : List (Event Nat Nat)),
    State.initial.run smallOptions (failingRun ++ [.buildTable .ioError]) = some s ∧ s.process = .running db ∧
      db.job = .idle ∧ s.run smallOptions lateWriter = some s' ∧ s'.process = .running db' ∧ db'.job = .idle ∧
      s'.trace = s.trace ++ t ∧ .returned 4 .ioError false (some ⟨0,[(3,some 3)]⟩) 3 ∈ t ∧ ∀ e ∈ t, e.commits = false := by
  have found : ((State.initial.run smallOptions (failingRun ++ [.buildTable .ioError])).any fun s => s.db.any fun db =>
      db.bgError && db.job.isIdle && (s.run smallOptions lateWriter).any fun s' =>
        decide (.returned 4 .ioError false (some ⟨0,[(3,some 3)]⟩) 3 ∈ s'.trace.drop s.trace.length)) = true := by
    decide
  simp only [Bool.and_eq_true,Option.any_eq_true,decide_eq_true_eq] at found
  obtain ⟨s,run,db,isDb,⟨error,idle⟩,s',later,refused⟩ := found
  obtain ⟨db',t,running,-,trace,-,frozen⟩ := error_freezes run (State.db_eq.mp isDb) error (by simp [lateWriter]) later
  have isIdle := Job.isIdle_iff.mp idle
  obtain ⟨idle',t₁,t₂,trace₁,rfl,none⟩ := frozen [] lateWriter s db rfl rfl (State.db_eq.mp isDb) isIdle
  have nothing : t₁ = [] := List.append_cancel_left (trace₁.symm.trans (List.append_nil _).symm)
  subst nothing
  rw [trace,List.nil_append,List.drop_left] at refused
  exact ⟨s,s',db,db',t₂,run,State.db_eq.mp isDb,isIdle,later,running,idle',trace,refused,none⟩

end LevelDB
