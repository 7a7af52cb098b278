import LevelDB.SyncedWrites

/-! `TEST_CompactMemTable`. Its writer has no batch; at the head of the queue it makes the
memtable switch, and the wait for `imm_` that follows is the wait for what was written
before the call. A leader that takes the writer into its own group skips the switch. -/
namespace LevelDB

variable {K V : Type}

/-- What a call of `TEST_CompactMemTable` depends on. -/
structure Desk (K V : Type) where
  writers : List (Writer K V)
  leader : Option (Leader K V)
  flushWaiters : List Nat
  logfileNumber : Nat

def Db.desk (db : Db K V) : Desk K V := ⟨db.writers,db.leader,db.flushWaiters,db.logfileNumber⟩

/-- The calls whose writers a leader takes, its own included. -/
def groupMembers (lastWriter : Nat) (ws : List (Writer K V)) : List Nat :=
  (splitGroup lastWriter ws).1.map (·.id)

/-- One step, where `known` and `known'` are the calls that have entered before and after
it, and `takes` those that the step takes into a group. -/
inductive Desk.Step (takes known known' : Nat → Prop) (c : Desk K V) : Desk K V → Prop
  | still : Step takes known known' c c
  | awaited (id : Nat) : Step takes known known' c { c with flushWaiters := c.flushWaiters.erase id }
  | enter (w : Writer K V) (fresh : ¬known w.id) (entered : known' w.id) :
    Step takes known known' c { c with writers := c.writers ++ [w] }
  | lead (w : Writer K V) (rest : List (Writer K V)) (queue : c.writers = w :: rest) :
    Step takes known known' c { c with leader := some (.room w.batch.isNone w.batch.isSome) }
  | delay (force allowDelay : Bool) (leader : c.leader = some (.room force allowDelay)) :
    Step takes known known' c { c with leader := some (.room force false) }
  | switch (force allowDelay : Bool) (number : Nat) (leader : c.leader = some (.room force allowDelay))
    (later : c.logfileNumber < number) :
    Step takes known known' c { c with leader := some (.room false allowDelay), logfileNumber := number }
  | leave (w : Writer K V) (rest : List (Writer K V)) (force allowDelay : Bool) (status : Status)
    (leader : c.leader = some (.room force allowDelay)) (queue : c.writers = w :: rest)
    (reason : status = .ok → force = false) :
    Step takes known known' c { c with
      writers := rest
      leader := none
      flushWaiters := c.flushWaiters ++ if status = .ok then flushIds [w] else [] }
  | start (w w' : Writer K V) (rest : List (Writer K V)) (g : Group K V) (queue : c.writers = w :: rest)
    (same : w'.id = w.id) (hasBatch : w.batch.isSome)
    (taken : ∀ id ∈ groupMembers g.lastWriter c.writers, takes id) :
    Step takes known known' c { c with leader := some (.logging g), writers := w' :: rest }
  | stage (g : Group K V) (l : Leader K V) (before : groupOf c.leader = some g) (after : groupOf (some l) = some g) :
    Step takes known known' c { c with leader := some l }
  | finish (g : Group K V) (status : Status) (before : groupOf c.leader = some g) :
    Step takes known known' c { c with
      writers := (splitGroup g.lastWriter c.writers).2
      leader := none
      flushWaiters := c.flushWaiters ++ if status = .ok then flushIds (splitGroup g.lastWriter c.writers).1 else [] }

/-- Writers that wait for their turn or for a flush have entered. -/
structure Desk.Tidy (c : Desk K V) (known : Nat → Prop) : Prop where
  room : c.leader ≠ none → c.writers ≠ []
  writers : ∀ w ∈ c.writers, known w.id
  waiters : ∀ id ∈ c.flushWaiters, known id

/-- The call `id` of `TEST_CompactMemTable`, begun while log `k` was written: when it has
waited for room, or its `Write` has returned, the memtable of that log was switched. -/
structure Desk.Forcing (c : Desk K V) (id k : Nat) : Prop where
  log : k ≤ c.logfileNumber
  noBatch : ∀ w ∈ c.writers, w.id = id → w.batch = none
  apart : ∀ g, groupOf c.leader = some g → id ∉ groupMembers g.lastWriter c.writers
  forced : ∀ allowDelay w rest, c.leader = some (.room false allowDelay) → c.writers = w :: rest → w.id = id →
    k < c.logfileNumber
  waiting : id ∈ c.flushWaiters → k < c.logfileNumber

section Groups
variable {lastWriter : Nat} {ws : List (Writer K V)}

theorem splitGroup_append (lastWriter : Nat) (ws : List (Writer K V)) :
    (splitGroup lastWriter ws).1 ++ (splitGroup lastWriter ws).2 = ws := by
  induction ws with
  | nil => rfl
  | cons w rest ih =>
    rw [splitGroup]
    split
    · rfl
    · exact congrArg (w :: ·) ih

theorem groupMembers_cons (lastWriter : Nat) (w w' : Writer K V) (same : w'.id = w.id) (rest : List (Writer K V)) :
    groupMembers lastWriter (w' :: rest) = groupMembers lastWriter (w :: rest) := by
  rw [groupMembers,groupMembers,splitGroup,splitGroup,same]
  split <;> simp [same]

/-- A writer that enters may only come into a group whose end is not in the queue. -/
theorem groupMembers_enter (w : Writer K V) :
    ∀ id ∈ groupMembers lastWriter (ws ++ [w]), id ∈ groupMembers lastWriter ws ∨ id = w.id := by
  induction ws with
  | nil =>
    intro id member
    rw [List.nil_append,groupMembers,splitGroup] at member
    split at member <;> simpa [splitGroup,groupMembers] using member
  | cons x rest ih =>
    intro id member
    rw [List.cons_append,groupMembers,splitGroup] at member
    rw [groupMembers,splitGroup]
    split
    · rename_i isLast
      rw [if_pos isLast] at member
      exact .inl member
    · rename_i more
      rw [if_neg more] at member
      rcases List.mem_cons.mp member with rfl | later
      · exact .inl (by simp)
      · exact (ih id later).imp_left fun inside => List.mem_cons_of_mem _ inside

theorem mem_flushIds {id : Nat} (member : id ∈ flushIds ws) : id ∈ ws.map (·.id) := by
  obtain ⟨w,inside,same⟩ := List.mem_filterMap.mp member
  split at same
  · cases same
    exact List.mem_map_of_mem inside
  · cases same

end Groups

section Steps
variable {takes known known' : Nat → Prop} {c c' : Desk K V} {id k : Nat}

theorem Desk.Tidy.step (tidy : c.Tidy known) (step : c.Step takes known known' c') (more : ∀ id, known id → known' id) :
    c'.Tidy known' := by
  obtain ⟨room,writers,waiters⟩ := tidy
  cases step with
  | still => exact ⟨room,fun w hw => more _ (writers w hw),fun id hid => more _ (waiters id hid)⟩
  | awaited id =>
    exact ⟨room,fun w hw => more _ (writers w hw),fun id hid => more _ (waiters id (List.mem_of_mem_erase hid))⟩
  | enter w fresh entered =>
    refine ⟨fun _ => by simp,fun x hx => ?_,fun id hid => more _ (waiters id hid)⟩
    rcases List.mem_append.mp hx with old | new
    · exact more _ (writers x old)
    · rw [List.mem_singleton.mp new]
      exact entered
  | lead w rest queue =>
    exact ⟨fun _ => by simp [queue],fun w hw => more _ (writers w hw),fun id hid => more _ (waiters id hid)⟩
  | delay force allowDelay leader =>
    exact ⟨fun _ => room (by simp [leader]),fun w hw => more _ (writers w hw),fun id hid => more _ (waiters id hid)⟩
  | switch force allowDelay number leader later =>
    exact ⟨fun _ => room (by simp [leader]),fun w hw => more _ (writers w hw),fun id hid => more _ (waiters id hid)⟩
  | leave w rest force allowDelay status leader queue reason =>
    rw [queue] at writers
    refine ⟨fun some => absurd rfl some,fun x hx => more _ (writers x (by simp [hx])),fun id hid => more _ ?_⟩
    rcases List.mem_append.mp hid with old | new
    · exact waiters id old
    · split at new
      · obtain ⟨x,inside,rfl⟩ := List.mem_map.mp (mem_flushIds new)
        exact writers x (by simp [List.mem_singleton.mp inside])
      · cases new
  | start w w' rest g queue same hasBatch taken =>
    rw [queue] at writers
    refine ⟨fun _ => by simp,fun x hx => more _ ?_,fun id hid => more _ (waiters id hid)⟩
    rcases List.mem_cons.mp hx with rfl | later
    · rw [same]
      exact writers w (by simp)
    · exact writers x (by simp [later])
  | stage g l before after =>
    refine ⟨fun _ => room ?_,fun w hw => more _ (writers w hw),fun id hid => more _ (waiters id hid)⟩
    intro none
    rw [none] at before
    cases before
  | finish g status before =>
    have split := splitGroup_append g.lastWriter c.writers
    refine ⟨fun some => absurd rfl some,fun x hx => more _ (writers x ?_),fun id hid => more _ ?_⟩
    · rw [← split]
      exact List.mem_append_right _ hx
    · rcases List.mem_append.mp hid with old | new
      · exact waiters id old
      · split at new
        · obtain ⟨x,inside,rfl⟩ := List.mem_map.mp (mem_flushIds new)
          refine writers x ?_
          rw [← split]
          exact List.mem_append_left _ inside
        · cases new

theorem Desk.Forcing.step (forcing : c.Forcing id k) (step : c.Step takes known known' c') (isKnown : known id)
    (apart : ¬takes id) : c'.Forcing id k := by
  obtain ⟨log,noBatch,outside,forced,waiting⟩ := forcing
  cases step with
  | still => exact ⟨log,noBatch,outside,forced,waiting⟩
  | awaited other => exact ⟨log,noBatch,outside,forced,fun member => waiting (List.mem_of_mem_erase member)⟩
  | enter w fresh entered =>
    have other : id ≠ w.id := fun same => fresh (same ▸ isKnown)
    refine ⟨log,fun x hx same => ?_,fun g before member => ?_,fun allowDelay x rest leader queue same => ?_,waiting⟩
    · rcases List.mem_append.mp hx with old | new
      · exact noBatch x old same
      · rw [List.mem_singleton.mp new] at same
        exact absurd same.symm other
    · rcases groupMembers_enter w id member with old | new
      · exact outside g before old
      · exact other new
    · cases ws : c.writers with
      | nil =>
        simp only [ws,List.nil_append,List.cons.injEq] at queue
        exact absurd (queue.1 ▸ same.symm) other
      | cons y ys =>
        simp only [ws,List.cons_append,List.cons.injEq] at queue
        exact forced allowDelay y ys leader ws (queue.1 ▸ same)
  | lead w rest queue =>
    refine ⟨log,noBatch,fun g before => by simp [groupOf] at before,fun allowDelay x xs leader same isId => ?_,waiting⟩
    simp only [Option.some.injEq,Leader.room.injEq] at leader
    rw [queue,List.cons.injEq] at same
    have none := noBatch w (by simp [queue]) (same.1 ▸ isId)
    simp [none] at leader
  | delay force allowDelay leader =>
    refine ⟨log,noBatch,fun g before => by simp [groupOf] at before,fun allowDelay' x xs leader' queue isId => ?_,waiting⟩
    simp only [Option.some.injEq,Leader.room.injEq] at leader'
    exact forced allowDelay x xs (leader'.1 ▸ leader) queue isId
  | switch force allowDelay number leader later =>
    have past : k < number := Nat.lt_of_le_of_lt log later
    exact ⟨past.le,noBatch,fun g before => by simp [groupOf] at before,fun _ _ _ _ _ _ => past,fun _ => past⟩
  | leave w rest force allowDelay status leader queue reason =>
    refine ⟨log,fun x hx => noBatch x (by simp [queue,hx]),fun g before => by simp [groupOf] at before,
      fun _ _ _ leader' => (by cases leader'),fun member => ?_⟩
    rcases List.mem_append.mp member with old | new
    · exact waiting old
    · split at new
      · rename_i ok
        obtain ⟨x,inside,same⟩ := List.mem_map.mp (mem_flushIds new)
        rw [List.mem_singleton.mp inside] at same
        exact forced allowDelay w rest (reason ok ▸ leader) queue same
      · cases new
  | start w w' rest g queue same hasBatch taken =>
    have members := groupMembers_cons g.lastWriter w w' same rest
    rw [← queue] at members
    refine ⟨log,fun x hx isId => ?_,fun g' before member => ?_,fun _ _ _ leader' => (by cases leader'),waiting⟩
    · rcases List.mem_cons.mp hx with rfl | later
      · have none := noBatch w (by simp [queue]) (same ▸ isId)
        simp [none] at hasBatch
      · exact noBatch x (by simp [queue,later]) isId
    · simp only [groupOf,Option.some.injEq] at before
      subst before
      exact apart (taken id (members ▸ member))
  | stage g l before after =>
    refine ⟨log,noBatch,fun g' before' => ?_,fun _ _ _ leader' => ?_,waiting⟩
    · have same : g = g' := Option.some.inj (after.symm.trans before')
      exact outside g' (same ▸ before)
    · simp only [Option.some.injEq] at leader'
      simp [leader',groupOf] at after
  | finish g status before =>
    refine ⟨log,fun x hx => noBatch x ?_,fun g before => by simp [groupOf] at before,
      fun _ _ _ leader' => (by cases leader'),fun member => ?_⟩
    · rw [← splitGroup_append g.lastWriter c.writers]
      exact List.mem_append_right _ hx
    · rcases List.mem_append.mp member with old | new
      · exact waiting old
      · split at new
        · exact absurd (mem_flushIds new) (outside g before)
        · cases new

end Steps

section Machine
variable [LinearOrder K] {o : Options K V} {s s' : State K V} {db : Db K V} {l : Label K V}

/-- `MakeRoomForWrite` finds room in this pass and the group starts. -/
def Db.hasRoom (o : Options K V) (db : Db K V) : Bool :=
  match db.leader with
  | some (.room false allowDelay) =>
    !db.bgError && !(allowDelay && kL0SlowdownWritesTrigger ≤ db.versions.numLevelFiles 0) &&
      o.memoryUsage db.mem ≤ o.writeBufferSize
  | _ => false

/-- The head of the queue has a batch, and the group that it builds takes in the writer of
the call `id`. -/
def Db.takesIn (o : Options K V) (db : Db K V) (id : Nat) : Bool :=
  match db.writers with
  | [] => false
  | w :: rest =>
    match w.batch with
    | none => false
    | some b => id ∈ groupMembers (buildBatchGroup o db.tmpBatch.updates w b rest).lastWriter db.writers

/-- The step is the one in which a leader takes the writer of the call `id` into its group. -/
def State.absorbs (o : Options K V) (s : State K V) (l : Label K V) (id : Nat) : Bool :=
  match l, s.db with
  | .makeRoom .., some db => db.hasRoom o && db.takesIn o id
  | _, _ => false

/-- No step of the run takes it in. -/
def State.RunApart (o : Options K V) (id : Nat) : State K V → List (Label K V) → Prop
  | _, [] => True
  | s, l :: rest => s.absorbs o l id = false ∧ ∀ next ∈ s.step o l, next.RunApart o id rest

instance runApartDecidable (o : Options K V) (id : Nat) : ∀ (s : State K V) (ls : List (Label K V)),
    Decidable (s.RunApart o id ls)
  | _, [] => isTrue trivial
  | s, l :: rest =>
    have (next : State K V) := runApartDecidable o id next rest
    inferInstanceAs (Decidable (s.absorbs o l id = false ∧ ∀ next ∈ s.step o l, next.RunApart o id rest))

/-- The calls of `Write` so far. -/
def State.Known (s : State K V) (id : Nat) : Prop := id ∈ s.trace.filterMap Event.enteredId

omit [LinearOrder K] in
theorem release_desk (s : State K V) (db : Db K V) (lastWriter : Nat) (status : Status) (first : Nat) :
    ∃ db', (s.release db lastWriter status first).process = .running db' ∧ db'.desk = { db.desk with
      writers := (splitGroup lastWriter db.writers).2
      leader := none
      flushWaiters := db.flushWaiters ++ if status = .ok then flushIds (splitGroup lastWriter db.writers).1 else [] } :=
  ⟨_,rfl,rfl⟩

section Passes
variable {takes known known' : Nat → Prop}

omit [LinearOrder K] in
/-- The head of the queue leaves on its own. -/
theorem desk_leave {w : Writer K V} {rest : List (Writer K V)} {force allowDelay : Bool} {status : Status} {first : Nat}
    (leader : db.leader = some (.room force allowDelay)) (queue : db.writers = w :: rest)
    (reason : status = .ok → force = false) : ∃ db', (s.release db w.id status first).process = .running db' ∧
      db.desk.Step takes known known' db'.desk := by
  obtain ⟨db',process,desk⟩ := release_desk s db w.id status first
  rw [queue,splitGroup,if_pos rfl] at desk
  exact ⟨db',process,desk ▸ .leave w rest force allowDelay status leader queue reason⟩

omit [LinearOrder K] in
/-- The leader starts a group, or it has no batch and returns. -/
theorem desk_startGroup {allowDelay : Bool} (leader : db.leader = some (.room false allowDelay))
    (taken : ∀ id, db.takesIn o id = true → takes id) (step : s.startGroup o db = some s') :
    ∃ db', s'.process = .running db' ∧ db.desk.Step takes known known' db'.desk := by
  obtain ⟨w,rest,queue,⟨noBatch,rfl⟩ | ⟨b,batch,-,rfl⟩⟩ := startGroup_cases step
  · exact desk_leave leader queue fun _ => rfl
  · have members : ∀ id ∈ groupMembers (buildBatchGroup o db.tmpBatch.updates w b rest).lastWriter db.desk.writers,
        takes id := by
      intro id member
      refine taken id ?_
      simp only [Db.takesIn,queue,batch]
      exact decide_eq_true (queue ▸ member)
    refine ⟨_,rfl,?_⟩
    split
    · have inGroup : ∀ g : Group K V, g.lastWriter = _ → db.desk.Step takes known known'
          { db.desk with leader := some (.logging g), writers := w :: rest } :=
        fun g same => .start w w rest g queue rfl (by simp [batch]) (same ▸ members)
      simp only [← queue] at inGroup
      exact inGroup _ rfl
    · exact .start w { w with batch := some _ } rest _ queue rfl (by simp [batch]) members

omit [LinearOrder K] in
/-- A pass of `MakeRoomForWrite`. -/
theorem desk_makeRoom {newFile close : Status} (same : s.process = .running db)
    (number : db.logfileNumber < db.versions.nextFileNumber)
    (taken : ∀ id, db.hasRoom o = true → db.takesIn o id = true → takes id)
    (step : s.makeRoom o db newFile close = some s') :
    ∃ db', s'.process = .running db' ∧ db.desk.Step takes known known' db'.desk := by
  rw [State.makeRoom] at step
  split at step
  · rename_i force allowDelay w rest leader writers
    split at step
    · cases step
      exact desk_leave leader writers (by simp)
    rename_i noError
    split at step
    · cases step
      exact ⟨_,rfl,.delay force allowDelay leader⟩
    rename_i noDelay
    split at step
    · rename_i room
      have unforced : force = false := by simpa using room.1
      subst unforced
      have hasRoom : db.hasRoom o = true := by
        simpa [Db.hasRoom,leader,noError,room.2,imp_iff_not_or] using noDelay
      exact desk_startGroup leader (fun id => taken id hasRoom) step
    split at step
    · cases step
      exact ⟨db,same,.still⟩
    split at step
    · cases step
      exact ⟨db,same,.still⟩
    split at step
    · cases step
      have switch : db.desk.Step takes known known' _ :=
        .switch force allowDelay db.versions.nextFileNumber leader number
      rw [State.switchMemTable]
      split
      · exact ⟨_,rfl,switch⟩
      · rw [State.recordBackgroundError]
        split <;> exact ⟨_,rfl,switch⟩
    · cases step
      exact desk_leave leader writers (by simp)
  · cases step

end Passes

theorem desk_step (same : s.process = .running db) (number : db.logfileNumber < db.versions.nextFileNumber)
    (step : s.stepDb o db l = some s') : ∃ db', s'.process = .running db' ∧
      db.desk.Step (fun id => s.absorbs o l id = true) s.Known s'.Known db'.desk := by
  have calm : ∀ db' : Db K V, db'.desk = db.desk →
      db.desk.Step (fun id => s.absorbs o l id = true) s.Known s'.Known db'.desk := fun db' same => same ▸ .still
  cases background : l.background with
  | true =>
    obtain ⟨db',after⟩ := background_step same background step
    refine ⟨db',after.process,calm db' ?_⟩
    simp only [Db.desk,after.same.writers,after.same.leader,after.same.flushWaiters,after.same.logfileNumber]
  | false =>
    cases l with
    | enter id batch sync =>
      simp only [State.stepDb,State.enter] at step
      split at step
      · cases step
      · rename_i fresh
        cases step
        exact ⟨_,rfl,.enter ⟨id,batch,sync⟩ fresh (enteredId_of_mem (List.mem_append_right _ (List.mem_singleton_self _)))⟩
    | lead =>
      simp only [State.stepDb,State.lead] at step
      split at step
      · rename_i w rest leader writers
        cases step
        exact ⟨_,rfl,.lead w rest writers⟩
      · cases step
    | makeRoom newFile close =>
      refine desk_makeRoom same number (fun id room takesIn => ?_) step
      simp only [State.absorbs,State.db_eq.mpr same,room,takesIn,Bool.and_self]
    | addRecord outcome =>
      obtain ⟨g,leader,taken⟩ := addRecord_cases step
      have before : groupOf db.desk.leader = some g := by
        rw [Db.desk,leader]
        rfl
      obtain ⟨-,rfl⟩ | ⟨-,rfl⟩ | ⟨-,rfl⟩ | ⟨-,-,rfl⟩ := taken
      · exact ⟨_,rfl,.stage g _ before (groupOf_logged db g)⟩
      · exact ⟨_,rfl,.stage g _ before rfl⟩
      · exact ⟨_,rfl,.stage g _ before rfl⟩
      · exact ⟨_,rfl,.stage g _ before (groupOf_logged db g)⟩
    | syncLog status =>
      simp only [State.stepDb,State.syncLog] at step
      split at step
      · rename_i g leader
        have before : groupOf db.desk.leader = some g := by
          rw [Db.desk,leader]
          rfl
        split at step
        · cases step
          exact ⟨_,rfl,.stage g _ before rfl⟩
        · cases step
          exact ⟨_,rfl,.stage g _ before rfl⟩
      · cases step
    | insertInto =>
      simp only [State.stepDb,State.insertInto] at step
      split at step
      · rename_i g leader
        cases step
        refine ⟨_,rfl,.stage g _ ?_ rfl⟩
        rw [Db.desk,leader]
        rfl
      · cases step
    | finishWrite =>
      simp only [State.stepDb,State.finishWrite] at step
      split at step
      · rename_i g status syncError leader
        cases step
        refine ⟨_,rfl,.finish g status ?_⟩
        rw [Db.desk,leader]
        rfl
      · cases step
    | getSnapshot =>
      cases step
      exact ⟨_,rfl,.still⟩
    | releaseSnapshot snapshot =>
      cases step
      exact ⟨_,rfl,.still⟩
    | awaitFlush id =>
      simp only [State.stepDb,State.awaitFlush] at step
      split at step
      · cases step
        exact ⟨_,rfl,.awaited id⟩
      · cases step
    | requestCompaction level first last =>
      simp only [State.stepDb,State.requestCompaction] at step
      split at step
      · cases step
        exact ⟨_,rfl,.still⟩
      · cases step
    | crash cut => cases step
    | openDb => cases step
    | newDb => cases step
    | recover => cases step
    | replay => cases step
    | openCommit => cases step
    | _ => cases background

/-- The calls that wait have entered, in every state of a run. -/
def State.Tidy (s : State K V) : Prop := ∀ db, s.process = .running db → db.desk.Tidy s.Known

theorem State.Tidy.step (tidy : s.Tidy) (inv : s.Inv) (step : s.step o l = some s') : s'.Tidy := by
  rcases step_cases step with ⟨cut,rfl,rfl⟩ | ⟨db,process,taken⟩ | ⟨closed,opening⟩
  · rintro _ ⟨⟩
  · obtain ⟨m,-,ok⟩ := inv.running process
    obtain ⟨db',running,desk⟩ := desk_step process ok.number taken
    obtain ⟨-,events,-,trace,-⟩ := stepDb_inserts process taken
    intro db'' now
    rw [running] at now
    cases now
    refine (tidy db process).step desk fun id known => ?_
    rw [State.Known,trace,List.filterMap_append]
    exact List.mem_append_left _ known
  · intro db running
    obtain ⟨versions,log,c,-,rfl⟩ := stepOpen_running opening running
    obtain ⟨job,rfl,-⟩ := removeObsoleteFiles_running running
    exact ⟨fun some => absurd rfl some,by rintro _ ⟨⟩,by rintro _ ⟨⟩⟩

/-- The call `id` is in `TEST_CompactMemTable`. What was in the logs when it began, `h`, is
in logs up to `k`. -/
structure State.Forcing (s : State K V) (id k : Nat) (h : History K V) : Prop where
  history : h ⊆ s.history
  known : s.Known id
  desk : ∃ db, s.process = .running db ∧ db.desk.Forcing id k

theorem State.Forcing.step {id k : Nat} {h : History K V} (forcing : s.Forcing id k h) (inv : s.Inv)
    (noCrash : ∀ cut, l ≠ .crash cut) (apart : s.absorbs o l id = false) (step : s.step o l = some s') :
    s'.Forcing id k h := by
  obtain ⟨history,known,db,process,desk⟩ := forcing
  rcases step_cases step with ⟨cut,crash,-⟩ | ⟨db₁,running,taken⟩ | ⟨closed,-⟩
  · exact absurd crash (noCrash cut)
  · rw [process] at running
    cases running
    obtain ⟨m,-,ok⟩ := inv.running process
    obtain ⟨db',running,after⟩ := desk_step process ok.number taken
    obtain ⟨_,_,front⟩ := front_step process taken
    obtain ⟨-,events,-,trace,-⟩ := stepDb_inserts process taken
    refine ⟨fun r member => front.history.subset (history member),?_,db',running,desk.step after known (by simp [apart])⟩
    rw [State.Known,trace,List.filterMap_append]
    exact List.mem_append_left _ known
  · exact absurd process (closed db)

theorem State.Forcing.run {id k : Nat} {h : History K V} {ls : List (Label K V)} (forcing : s.Forcing id k h)
    (regular : s.Regular) (okay : ∀ l ∈ ls, l.ok = true) (automatic : ∀ l ∈ ls, l.automatic = true)
    (noCrash : ∀ l ∈ ls, ∀ cut, l ≠ .crash cut) (apart : s.RunApart o id ls) (run : s.run o ls = some s') :
    s'.Regular ∧ s'.Forcing id k h := by
  induction ls generalizing s with
  | nil =>
    cases run
    exact ⟨regular,forcing⟩
  | cons l rest ih =>
    obtain ⟨next,step,later⟩ := Option.bind_eq_some_iff.mp run
    exact ih (forcing.step regular.inv (noCrash l (by simp)) apart.1 step)
      (regular.step (okay l (by simp)) (automatic l (by simp)) step) (fun l hl => okay l (by simp [hl]))
      (fun l hl => automatic l (by simp [hl])) (fun l hl => noCrash l (by simp [hl])) (apart.2 next step) later

/-- The call begins. -/
theorem State.Forcing.begin {id : Nat} {sync : Bool} (tidy : s.Tidy) (queue : (s.front db).Queue)
    (process : s.process = .running db) (step : s.step o (.enter id none sync) = some s') :
    s'.Forcing id db.logfileNumber s.history := by
  have isTidy := tidy db process
  have entered : s.enter db id none sync = some s' := by
    simpa [State.step,process,State.stepDb] using step
  rw [State.enter] at entered
  split at entered
  · cases entered
  rename_i fresh
  cases entered
  have other : ∀ w ∈ db.writers, w.id ≠ id := fun w member same => fresh (same ▸ isTidy.writers w member)
  refine ⟨fun r member => member,enteredId_of_mem (List.mem_append_right _ (List.mem_singleton_self _)),_,rfl,?_⟩
  refine ⟨le_rfl,fun w member same => ?_,fun g before member => ?_,fun allowDelay w rest leader head same => ?_,
    fun member => ?_⟩
  · rcases List.mem_append.mp member with old | new
    · exact absurd same (other w old)
    · rw [List.mem_singleton.mp new]
  · have ids : ((db.writers ++ [(⟨id,none,sync⟩ : Writer K V)]).map (·.id)).Nodup := by
      rw [List.map_append,List.nodup_append]
      refine ⟨queue.ids,by simp,?_⟩
      intro x inside y isNew same
      obtain ⟨w,member,rfl⟩ := List.mem_map.mp inside
      exact other w member (same.trans (List.mem_singleton.mp isNew))
    have members := (queue.enter_members before ⟨id,none,sync⟩ ids).1
    have inside : id ∈ (splitGroup g.lastWriter db.writers).1.map (·.id) := by
      have member' : id ∈ (splitGroup g.lastWriter (db.writers ++ [⟨id,none,sync⟩])).1.map (·.id) := member
      rwa [show (splitGroup g.lastWriter (db.writers ++ [⟨id,none,sync⟩])).1 = _ from members] at member'
    obtain ⟨w,member,same⟩ := List.mem_map.mp inside
    refine other w ?_ same
    rw [← splitGroup_append g.lastWriter db.writers]
    exact List.mem_append_left _ member
  · cases ws : db.writers with
    | nil => exact absurd ws (isTidy.room (by simp [Db.desk,show db.leader = _ from leader]))
    | cons x xs =>
      have isHead : x = w := by
        have head' : db.writers ++ [⟨id,none,sync⟩] = w :: rest := head
        rw [ws,List.cons_append] at head'
        exact (List.cons_eq_cons.mp head').1
      exact absurd (isHead ▸ same) (other x (by simp [ws]))
  · exact absurd (isTidy.waiters id member) fresh

/-- The tables account for the update `e`: it is not held in a memtable, and to every read
that sees it they answer with it or with a later update of its key. -/
structure Db.InTables (db : Db K V) (d : Disk K V) (h : History K V) (e : Entry K V) : Prop where
  mem : e ∉ db.mem
  imm : e ∉ db.imm.getD []
  tables : ∀ n, db.smallestSnapshot ≤ n → e.sequence ≤ n → ∃ e' ∈ h.set, e'.userKey = e.userKey ∧ e'.sequence ≤ n ∧
    (e' = e ∨ e.sequence < e'.sequence) ∧ Reads (db.versions.current.entries d.table) e.userKey n e'.value

/-- Without `imm_`, all of the older logs is in the tables. -/
theorem Db.Ok.inTables {d : Disk K V} {h : History K V} {m : ManifestFile K V}
    (disk : d.Ok h db.versions.manifestFileNumber m) (ok : db.Ok d h m) (noImm : db.imm = none)
    {r : Nat × WriteBatch K V} (member : r ∈ h) (old : r.1 < db.logfileNumber) :
    ∀ e ∈ r.2.entries, db.InTables d h e := by
  intro e inside
  have log := ok.memory.noImm noImm
  have covered : e ∈ (h.before db.versions.logNumber).set :=
    mem_history_set.mpr ⟨r,List.mem_filter.mpr ⟨member,by simpa [log] using old⟩,inside⟩
  have layers := ok.memory.layers disk.ordered
  have covers : Covers _ _ _ := ok.sound.covers
  have part : (h.before db.versions.logNumber).set ⊆ h.set := History.set_mono (List.filter_subset_self _)
  refine ⟨fun held => ?_,by simp [noImm],fun n floor visible => ?_⟩
  · exact absurd (layers.mem e held e (.inr covered) rfl) (lt_irrefl _)
  · obtain ⟨v,reads⟩ : ∃ v, Reads (h.before db.versions.logNumber).set e.userKey n v :=
      Versioned.Reads.exists (List.finite_toSet _) e.userKey n
    rcases reads with ⟨e',newest,rfl⟩ | ⟨absent,-⟩
    · refine ⟨e',part newest.member,newest.same,newest.visible,?_,covers.reads _ _ _ floor (.inl ⟨e',newest,rfl⟩)⟩
      rcases Nat.eq_or_lt_of_le (newest.newest e covered rfl visible) with same | later
      · exact .inl (disk.ordered.distinct e' (part newest.member) e (part covered) newest.same same.symm)
      · exact .inr later
    · exact absurd visible (absent e covered rfl)

section Session
variable {s₀ : State K V} {db₀ : Db K V} {t : List (Event K V)}

/-- What was acknowledged since the database is open is in the logs. -/
def State.Holds (s : State K V) (t : List (Event K V)) : Prop :=
  ∀ id sync b first, .returned id .ok sync (some b) first ∈ t →
    ∀ e ∈ (⟨first,b.updates⟩ : WriteBatch K V).entries, ∃ r ∈ s.history, e ∈ r.2.entries

theorem State.Session.holds_step (session : s₀.Session s db₀ db t) (holds : s.Holds t) (okay : l.ok = true)
    (noCrash : ∀ cut, l ≠ .crash cut) (step : s.step o l = some s') :
    ∃ db' t', s₀.Session s' db₀ db' t' ∧ s'.Holds t' := by
  obtain ⟨db',t',after⟩ := session.step okay noCrash step
  refine ⟨db',t',after,?_⟩
  rcases step_cases step with ⟨cut,crash,-⟩ | ⟨db₁,running,taken⟩ | ⟨closed,-⟩
  · exact absurd crash (noCrash cut)
  · rw [session.running] at running
    cases running
    obtain ⟨_,_,front⟩ := front_step session.running taken
    obtain ⟨events,trace,acks⟩ := front.acks session.queue
    have isTail : t' = t ++ events := by
      have trace' : s'.trace = s.trace ++ events := trace
      rw [after.trace,session.trace,List.append_assoc] at trace'
      exact List.append_cancel_left trace'
    intro id sync b first acked e inside
    rw [isTail] at acked
    rcases List.mem_append.mp acked with old | new
    · obtain ⟨r,member,stored⟩ := holds id sync b first old e inside
      exact ⟨r,front.history.subset member,stored⟩
    · obtain ⟨g,status,leader,-,-,-,front',back,updates,isFirst⟩ := acks id sync b first new
      obtain ⟨groups,waiting,ledger⟩ := session.ledger
      have logged : g.batch ∈ (records t).map (·.2) := by
        rw [ledger.recorded,Front.logged,leader]
        simp
      have kept : g.batch ∈ (s.front db).history.map (·.2) := by
        rw [ledger.history]
        exact List.mem_append_right _ logged
      obtain ⟨r,member,isBatch⟩ := List.mem_map.mp kept
      refine ⟨r,front.history.subset member,?_⟩
      rw [isBatch]
      exact WriteBatch.mem_entries_of_part updates isFirst inside
  · exact absurd session.running (closed db)

theorem State.Session.holds_run {ls : List (Label K V)} (session : s₀.Session s db₀ db t) (holds : s.Holds t)
    (okay : ∀ l ∈ ls, l.ok = true) (noCrash : ∀ l ∈ ls, ∀ cut, l ≠ .crash cut) (run : s.run o ls = some s') :
    ∃ db' t', s₀.Session s' db₀ db' t' ∧ s'.Holds t' := by
  induction ls generalizing s db t with
  | nil =>
    cases run
    exact ⟨db,t,session,holds⟩
  | cons l rest ih =>
    obtain ⟨next,step,later⟩ := Option.bind_eq_some_iff.mp run
    obtain ⟨db',t',session',holds'⟩ := session.holds_step holds (okay l (by simp)) (noCrash l (by simp)) step
    exact ih session' holds' (fun l hl => okay l (by simp [hl])) (fun l hl => noCrash l (by simp [hl])) later

/-- `TEST_CompactMemTable`, from the entry of its writer to its return with OK: if no leader
takes the writer into its group, all that was in the logs at the entry, and with it all that
was acknowledged before, is in the tables at the return. -/
theorem forced_flush {before during : List (Label K V)} {s₁ s₂ s₃ : State K V} {id : Nat} {sync : Bool}
    (reached : ∃ ls : List (Label K V), (∀ l ∈ ls, l.ok = true) ∧ (∀ l ∈ ls, l.automatic = true) ∧
      State.initial.run o ls = some s₀)
    (opened : s₀.process = .running db₀) (quiescent : db₀.Quiescent)
    (okay : ∀ l ∈ before ++ during, l.ok = true) (automatic : ∀ l ∈ before ++ during, l.automatic = true)
    (noCrash : ∀ l ∈ before ++ during, ∀ cut, l ≠ .crash cut)
    (runBefore : s₀.run o before = some s₁) (enter : s₁.step o (.enter id none sync) = some s₂)
    (runDuring : s₂.run o during = some s₃) (apart : s₂.RunApart o id during)
    (returned : s₃.step o (.awaitFlush id) = some s) (isOk : s.trace = s₃.trace ++ [.flushed id .ok]) :
    ∃ db t, s.process = .running db ∧ s₁.trace = s₀.trace ++ t ∧
      (∀ r ∈ s₁.history, ∀ e ∈ r.2.entries, db.InTables s.disk s.history e) ∧
      ∀ id' sync' b first, .returned id' .ok sync' (some b) first ∈ t →
        ∀ e ∈ (⟨first,b.updates⟩ : WriteBatch K V).entries, db.InTables s.disk s.history e := by
  obtain ⟨ls,okay₀,automatic₀,run₀⟩ := reached
  have start : (State.initial : State K V).Tidy := by rintro _ ⟨⟩
  obtain ⟨regular₀,tidy₀⟩ := State.Regular.initial.run start okay₀ automatic₀ run₀
    fun l _ t t' earlier later step tidy => tidy.step earlier.inv step
  obtain ⟨regular₁,tidy₁⟩ := regular₀.run tidy₀ (fun l hl => okay l (by simp [hl])) (fun l hl => automatic l (by simp [hl]))
    runBefore fun l _ t t' earlier later step tidy => tidy.step earlier.inv step
  obtain ⟨db₁,t,session,holds⟩ := (State.Session.begin opened quiescent).holds_run (by rintro _ _ _ _ ⟨⟩)
    (fun l hl => okay l (by simp [hl])) (fun l hl => noCrash l (by simp [hl])) runBefore
  have begun := State.Forcing.begin tidy₁ session.queue session.running enter
  obtain ⟨regular₃,forcing⟩ := begun.run (regular₁.step rfl rfl enter) (fun l hl => okay l (by simp [hl]))
    (fun l hl => automatic l (by simp [hl])) (fun l hl => noCrash l (by simp [hl])) apart runDuring
  have regular := regular₃.step rfl rfl returned
  obtain ⟨history,-,db₃,running,desk⟩ := forcing
  have awaited : s₃.awaitFlush db₃ id = some s := by simpa [State.step,running,State.stepDb] using returned
  rw [State.awaitFlush] at awaited
  split at awaited
  · rename_i ready
    cases awaited
    have noImm : db₃.imm = none := by
      have same := List.append_cancel_left isOk
      by_contra left
      simp [Option.isNone_iff_eq_none,left] at same
    obtain ⟨m,disk,ok⟩ := regular.inv.running rfl
    obtain ⟨m₁,disk₁,ok₁⟩ := regular₁.inv.running session.running
    have past : db₁.logfileNumber < db₃.logfileNumber := desk.waiting ready.1
    have inTables : ∀ r ∈ s₁.history, ∀ e ∈ r.2.entries, _ := fun r member e inside =>
      ok.inTables disk noImm (history member) (Nat.lt_of_le_of_lt (ok₁.memory.newest r member) past) e inside
    refine ⟨_,t,rfl,session.trace,inTables,fun id' sync' b first acked e inside => ?_⟩
    obtain ⟨r,member,stored⟩ := holds id' sync' b first acked e inside
    exact inTables r member e stored
  · cases awaited

end Session

end Machine

/-- Between the entry of a call that flushes and its return: it switches the memtable, another
writer writes to the new one, and the old one is flushed. -/
def forcedRun : List (Label Nat Nat) :=
  [.lead,.makeRoom .ok .ok,.enter 3 (some ⟨0,[(2,some 2)]⟩) false,.makeRoom .ok .ok,.lead,.makeRoom .ok .ok,.addRecord .ok,
    .insertInto,.finishWrite] ++ flushRun

theorem forced_flush_run : ∃ (s₀ s₁ s₂ s₃ s : State Nat Nat) (db : Db Nat Nat),
    State.initial.run smallOptions openRun = some s₀ ∧ s₀.run smallOptions (writeRun 1 [(1,some 1)] false 1) = some s₁ ∧
      s₁.step smallOptions (.enter 2 none false) = some s₂ ∧ s₂.run smallOptions forcedRun = some s₃ ∧
      s₃.step smallOptions (.awaitFlush 2) = some s ∧ s.process = .running db ∧
      ⟨2,2,some 2⟩ ∈ db.mem ∧ db.InTables s.disk s.history ⟨1,1,some 1⟩ := by
  have found : ((State.initial.run smallOptions openRun).any fun s₀ => s₀.db.any fun db₀ =>
      (db₀.writers.isEmpty && db₀.leader.isNone && db₀.tmpBatch == ⟨0,[]⟩ && !db₀.bgError) &&
      (s₀.run smallOptions (writeRun 1 [(1,some 1)] false 1)).any fun s₁ =>
        decide (.returned 1 .ok false (some ⟨1,[(1,some 1)]⟩) 1 ∈ s₁.trace.drop s₀.trace.length) &&
        (s₁.step smallOptions (.enter 2 none false)).any fun s₂ => decide (s₂.RunApart smallOptions 2 forcedRun) &&
          (s₂.run smallOptions forcedRun).any fun s₃ =>
            (s₃.step smallOptions (.awaitFlush 2)).any fun s => decide (s.trace = s₃.trace ++ [.flushed 2 .ok]) &&
              s.db.any fun db => decide (⟨2,2,some 2⟩ ∈ db.mem)) = true := by decide +kernel
  simp only [Option.any_eq_true,Bool.and_eq_true,decide_eq_true_eq,List.isEmpty_iff,Option.isNone_iff_eq_none,
    beq_iff_eq,Bool.not_eq_true'] at found
  obtain ⟨s₀,run₀,db₀,isDb₀,⟨⟨⟨writers,leader⟩,tmpBatch⟩,bgError⟩,s₁,run₁,acked,s₂,enter,apart,s₃,run,s,returned,isOk,
    db,isDb,held⟩ := found
  obtain ⟨db',t,running,trace,-,inTables⟩ := forced_flush ⟨openRun,by decide,by decide,run₀⟩ (State.db_eq.mp isDb₀)
    ⟨writers,leader,tmpBatch,bgError⟩ (by decide) (by decide) (by simp [writeRun,forcedRun,flushRun]) run₁ enter run apart
    returned isOk
  rw [trace,List.drop_left] at acked
  rw [State.db_eq.mp isDb] at running
  cases running
  exact ⟨s₀,s₁,s₂,s₃,s,db,run₀,run₁,enter,run,returned,State.db_eq.mp isDb,held,inTables 1 false _ 1 acked _ (by decide)⟩

/-- The first write has returned. A second one is in its log append when a third writer joins
the queue. -/
def queuedRun : List (Label Nat Nat) :=
  openRun ++ writeRun 1 [(1,some 1)] false 1 ++
    [.enter 2 (some ⟨0,[(2,some 2)]⟩) false,.lead,.makeRoom .ok .ok,.enter 3 (some ⟨0,[(3,some 3)]⟩) false]

/-- Between the entry of a call that flushes, behind the third writer, and its return: the
second writer leaves, and the third takes the call into its group. -/
def absorbedRun : List (Label Nat Nat) :=
  [.addRecord .ok,.insertInto,.finishWrite,.lead,.makeRoom .ok .ok,.addRecord .ok,.insertInto,.finishWrite]

theorem absorbed_flush : ∃ (s₁ s₂ s₃ s : State Nat Nat) (db : Db Nat Nat),
    State.initial.run smallOptions queuedRun = some s₁ ∧
      .returned 1 .ok false (some ⟨1,[(1,some 1)]⟩) 1 ∈ s₁.trace ∧
      s₁.step smallOptions (.enter 4 none false) = some s₂ ∧ s₂.run smallOptions absorbedRun = some s₃ ∧
      s₃.step smallOptions (.awaitFlush 4) = some s ∧ s.trace = s₃.trace ++ [.flushed 4 .ok] ∧ s.process = .running db ∧
      ⟨1,1,some 1⟩ ∈ db.mem ∧ (∀ l < kNumLevels, db.versions.current.files l = []) ∧
      ¬db.InTables s.disk s.history ⟨1,1,some 1⟩ := by
  have found : ((State.initial.run smallOptions queuedRun).any fun s₁ =>
        decide (.returned 1 .ok false (some ⟨1,[(1,some 1)]⟩) 1 ∈ s₁.trace) &&
        (s₁.step smallOptions (.enter 4 none false)).any fun s₂ => (s₂.run smallOptions absorbedRun).any fun s₃ =>
          (s₃.step smallOptions (.awaitFlush 4)).any fun s => decide (s.trace = s₃.trace ++ [.flushed 4 .ok]) &&
            s.db.any fun db => decide (⟨1,1,some 1⟩ ∈ db.mem) &&
              decide (∀ l < kNumLevels, db.versions.current.files l = [])) = true := by decide +kernel
  simp only [Option.any_eq_true,Bool.and_eq_true,decide_eq_true_eq] at found
  obtain ⟨s₁,run₁,acked,s₂,enter,s₃,run,s,returned,isOk,db,isDb,held,empty⟩ := found
  exact ⟨s₁,s₂,s₃,s,db,run₁,acked,enter,run,returned,isOk,State.db_eq.mp isDb,held,empty,fun inTables => inTables.mem held⟩

end LevelDB
