import LevelDB.Steps

/-! The queue of writers as a transition system of its own. A step of the database is a
step of the queue; of the rest of the database the queue only sees the events. -/
namespace LevelDB

variable {K V : Type}

/-- What the writers see of a database, with its history and its events. -/
structure Front (K V : Type) where
  writers : List (Writer K V)
  leader : Option (Leader K V)
  tmpBatch : WriteBatch K V
  last : Nat
  bgError : Bool
  history : History K V
  trace : List (Event K V)

def State.front (s : State K V) (db : Db K V) : Front K V :=
  ⟨db.writers,db.leader,db.tmpBatch,db.versions.lastSequence,db.bgError,s.history,s.trace⟩

/-- Events that do not concern the queue. -/
def Event.quiet : Event K V → Bool
  | .flushed _ _ => true
  | e => e.background

def Front.InRoom (f : Front K V) : Prop := ∃ force delay, f.leader = some (.room force delay)

def Front.leaderSync (f : Front K V) : Bool := (f.writers.head?.map (·.sync)).getD false

def Front.members (f : Front K V) (g : Group K V) : List (Writer K V) :=
  (splitGroup g.lastWriter f.writers).1

/-- The steps of the queue; only if `fails` is set may I/O fail. -/
inductive Front.Step (o : Options K V) (fails : Bool) (f : Front K V) : Front K V → Prop
  | other (events : List (Event K V)) (bgError : Bool) (quiet : ∀ e ∈ events, e.quiet = true)
    (error : bgError = f.bgError ∨ fails = true) :
    Step o fails f { f with bgError, trace := f.trace ++ events }
  | enter (id : Nat) (batch : Option (WriteBatch K V)) (sync : Bool)
    (fresh : id ∉ f.trace.filterMap Event.enteredId) :
    Step o fails f { f with
      writers := f.writers ++ [⟨id,batch,sync⟩]
      trace := f.trace ++ [.entered id batch sync] }
  | room (force delay : Bool) (events : List (Event K V)) (bgError : Bool)
    (before : f.leader = none ∨ f.InRoom) (queue : f.writers ≠ [])
    (quiet : ∀ e ∈ events, e.quiet = true) (error : bgError = f.bgError ∨ fails = true) :
    Step o fails f { f with leader := some (.room force delay), bgError, trace := f.trace ++ events }
  | leave (w : Writer K V) (rest : List (Writer K V)) (status : Status) (before : f.InRoom)
    (queue : f.writers = w :: rest)
    (outcome : status = .ok ∧ w.batch = none ∨ status = .ioError ∧ (f.bgError = true ∨ fails = true)) :
    Step o fails f { f with
      writers := rest
      leader := none
      trace := f.trace ++ [.returned w.id status w.sync w.batch (f.last + 1)] }
  | start (w : Writer K V) (rest : List (Writer K V)) (b batch : WriteBatch K V) (g : Gathered K V)
    (before : f.InRoom) (queue : f.writers = w :: rest) (hasBatch : w.batch = some b)
    (group : g = buildBatchGroup o f.tmpBatch.updates w b rest) (numbered : batch = ⟨f.last + 1,g.updates⟩) :
    Step o fails f { f with
      leader := some (.logging ⟨batch,g.lastWriter,g.inTmp,f.last + batch.count⟩)
      tmpBatch := if g.inTmp then batch else f.tmpBatch
      writers := if g.inTmp then f.writers else { w with batch := some batch } :: rest }
  | log (g : Group K V) (number : Nat) (before : f.leader = some (.logging g)) :
    Step o fails f { f with
      leader := some (if f.leaderSync then .syncing g else .inserting g)
      history := f.history ++ [(number,g.batch)]
      trace := f.trace ++ [.logged (batchIds (f.members g)) g.batch] }
  | logLost (g : Group K V) (before : f.leader = some (.logging g)) (failed : fails = true) :
    Step o fails f { f with
      leader := some (if f.leaderSync then .syncing g else .inserting g)
      trace := f.trace ++ [.logged (batchIds (f.members g)) g.batch] }
  | logFails (g : Group K V) (before : f.leader = some (.logging g)) (failed : fails = true) :
    Step o fails f { f with leader := some (.finishing g .ioError false) }
  | logLate (g : Group K V) (number : Nat) (before : f.leader = some (.logging g)) (failed : fails = true) :
    Step o fails f { f with
      leader := some (.finishing g .ioError false)
      history := f.history ++ [(number,g.batch)]
      trace := f.trace ++ [.logged (batchIds (f.members g)) g.batch] }
  | sync (g : Group K V) (before : f.leader = some (.syncing g)) :
    Step o fails f { f with leader := some (.inserting g), trace := f.trace ++ [.synced] }
  | syncFails (g : Group K V) (before : f.leader = some (.syncing g)) (failed : fails = true) :
    Step o fails f { f with leader := some (.finishing g .ioError true) }
  | insert (g : Group K V) (before : f.leader = some (.inserting g)) :
    Step o fails f { f with
      leader := some (.finishing g .ok false)
      trace := f.trace ++ [.applied (batchIds (f.members g)) g.batch] }
  | finish (g : Group K V) (status : Status) (syncError : Bool) (events : List (Event K V))
    (before : f.leader = some (.finishing g status syncError)) (quiet : ∀ e ∈ events, e.quiet = true) :
    Step o fails f { f with
      writers := (splitGroup g.lastWriter f.writers).2
      leader := none
      tmpBatch := if g.inTmp then ⟨0,[]⟩ else f.tmpBatch
      last := g.lastSequence
      bgError := f.bgError || syncError
      trace := f.trace ++ events ++ returns status g.batch.sequence (f.members g) }

/-- The updates of the batches of some writers. -/
def updatesOf (ws : List (Writer K V)) : List (K × Option V) :=
  ws.flatMap fun w => (w.batch.map (·.updates)).getD []

@[simp] theorem updatesOf_nil : updatesOf ([] : List (Writer K V)) = [] := rfl

@[simp] theorem updatesOf_append (ws ws' : List (Writer K V)) :
    updatesOf (ws ++ ws') = updatesOf ws ++ updatesOf ws' := List.flatMap_append

@[simp] theorem updatesOf_cons (w : Writer K V) (ws : List (Writer K V)) :
    updatesOf (w :: ws) = (w.batch.map (·.updates)).getD [] ++ updatesOf ws := List.flatMap_cons

/-- The loop of `BuildBatchGroup` with an empty `tmp_batch_`: it takes a segment of the
queue, and no sync writer for a leader that does not sync. -/
theorem gather_spec (o : Options K V) (leaderSync : Bool) (maxSize size : Nat) (g : Gathered K V)
    (ws : List (Writer K V)) :
    ∃ taken rest, ws = taken ++ rest ∧
      let r := gather o leaderSync [] maxSize size g ws
      r.updates = g.updates ++ updatesOf taken ∧
      r.lastWriter = (taken.getLast?.map (·.id)).getD g.lastWriter ∧
      (leaderSync = false → ∀ w ∈ taken, w.sync = false) ∧
      (r.inTmp = false → g.inTmp = false ∧ ∀ w ∈ taken, w.batch = none) := by
  induction ws generalizing size g with
  | nil => exact ⟨[],[],rfl,by simp [gather],rfl,by simp,by simp [gather]⟩
  | cons w rest ih =>
    by_cases blocked : (w.sync && !leaderSync) = true
    · exact ⟨[],w :: rest,rfl,by simp [gather,blocked],by simp [gather,blocked],by simp,
        by simp [gather,blocked]⟩
    have fits : leaderSync = false → w.sync = false := by
      intro none
      simpa [none] using blocked
    have more : ∀ (taken : List (Writer K V)) (id : Nat),
        ((w :: taken).getLast?.map (·.id)).getD id = (taken.getLast?.map (·.id)).getD w.id := by
      intro taken id
      cases taken with
      | nil => rfl
      | cons x xs => simp [List.getLast?_eq_getLast_of_ne_nil]
    cases batch : w.batch with
    | none =>
      obtain ⟨taken,left,split,updates,last,sync,tmp⟩ := ih size { g with lastWriter := w.id }
      refine ⟨w :: taken,left,by simp [split],?_⟩
      simp only [gather,blocked,batch,Bool.false_eq_true,if_false]
      refine ⟨by simp [updates,batch],by rw [last,more],?_,?_⟩
      · intro none x hx
        rcases List.mem_cons.mp hx with rfl | later
        · exact fits none
        · exact sync none x later
      · intro own
        refine ⟨(tmp own).1,fun x hx => ?_⟩
        rcases List.mem_cons.mp hx with rfl | later
        · exact batch
        · exact (tmp own).2 x later
    | some b =>
      by_cases full : maxSize < size + o.byteSize b
      · exact ⟨[],w :: rest,rfl,by simp [gather,blocked,batch,full],by simp [gather,blocked,batch,full],
          by simp,by simp [gather,blocked,batch,full]⟩
      obtain ⟨taken,left,split,updates,last,sync,tmp⟩ :=
        ih (size + o.byteSize b) ⟨(if g.inTmp then g.updates else [] ++ g.updates) ++ b.updates,true,w.id⟩
      refine ⟨w :: taken,left,by simp [split],?_⟩
      simp only [gather,blocked,batch,full,Bool.false_eq_true,if_false]
      refine ⟨?_,by rw [last,more],?_,?_⟩
      · rw [updates]
        simp [batch]
      · intro none x hx
        rcases List.mem_cons.mp hx with rfl | later
        · exact fits none
        · exact sync none x later
      · intro own
        exact absurd (tmp own).1 (by simp)

/-- The writers of a group are split off where its last writer is. -/
theorem splitGroup_eq {members rest : List (Writer K V)} {last : Nat}
    (ids : ((members ++ rest).map (·.id)).Nodup) (isLast : members.getLast?.map (·.id) = some last) :
    splitGroup last (members ++ rest) = (members,rest) := by
  induction members with
  | nil => simp at isLast
  | cons w others ih =>
    rw [List.cons_append,List.map_cons,List.nodup_cons] at ids
    cases others with
    | nil =>
      simp only [List.getLast?_singleton,Option.map_some,Option.some.injEq] at isLast
      simp [splitGroup,isLast]
    | cons x xs =>
      rw [List.getLast?_cons_cons] at isLast
      have ne : w.id ≠ last := by
        rintro rfl
        obtain ⟨y,final,same⟩ := Option.map_eq_some_iff.mp isLast
        refine ids.1 (List.mem_map.mpr ⟨y,?_,same⟩)
        exact List.mem_append_left _ (List.mem_of_getLast? final)
      rw [List.cons_append,splitGroup,if_neg ne,ih ids.2 isLast]

/-- A group commits for the first writers of the queue. -/
structure Front.Commits (f : Front K V) (g : Group K V) (members rest : List (Writer K V)) : Prop where
  queue : f.writers = members ++ rest
  nonempty : members ≠ []
  isLast : members.getLast?.map (·.id) = some g.lastWriter
  updates : g.batch.updates = updatesOf members
  first : g.batch.sequence = f.last + 1
  count : g.lastSequence = f.last + g.batch.count
  sync : f.leaderSync = false → ∀ w ∈ members, w.sync = false
  own : g.inTmp = false → f.tmpBatch = ⟨0,[]⟩

/-- Two writers are one call, whose batch may have been numbered in the meantime. -/
structure Writer.Same (w w' : Writer K V) : Prop where
  id : w'.id = w.id
  sync : w'.sync = w.sync
  updates : w'.batch.map (·.updates) = w.batch.map (·.updates)

/-- The invariant of the queue. -/
structure Front.Queue (f : Front K V) : Prop where
  ids : (f.writers.map (·.id)).Nodup
  idle : groupOf f.leader = none → f.tmpBatch = ⟨0,[]⟩
  group : ∀ g, groupOf f.leader = some g → ∃ members rest, f.Commits g members rest
  entered : ∀ w ∈ f.writers, ∃ b, .entered w.id b w.sync ∈ f.trace ∧
    b.map (·.updates) = w.batch.map (·.updates)

theorem Front.Commits.split {f : Front K V} {g : Group K V} {members rest : List (Writer K V)}
    (commits : f.Commits g members rest) (ids : (f.writers.map (·.id)).Nodup) :
    splitGroup g.lastWriter f.writers = (members,rest) := by
  rw [commits.queue] at ids ⊢
  exact splitGroup_eq ids commits.isLast

theorem enteredId_of_mem {t : List (Event K V)} {id : Nat} {b : Option (WriteBatch K V)} {sync : Bool}
    (entered : .entered id b sync ∈ t) : id ∈ t.filterMap Event.enteredId :=
  List.mem_filterMap.mpr ⟨_,entered,rfl⟩

section Queue
variable {o : Options K V} {fails : Bool} {f f' : Front K V}

theorem Front.InRoom.group (room : f.InRoom) : groupOf f.leader = none := by
  obtain ⟨force,delay,leader⟩ := room
  rw [leader]
  rfl

/-- The queue is as it was, and the group with it. -/
theorem Front.Queue.keep (queue : f.Queue) (writers : f'.writers = f.writers)
    (group : groupOf f'.leader = groupOf f.leader) (tmpBatch : f'.tmpBatch = f.tmpBatch)
    (last : f'.last = f.last) (events : List (Event K V)) (trace : f'.trace = f.trace ++ events) :
    f'.Queue := by
  refine ⟨by rw [writers]; exact queue.ids,by rw [group,tmpBatch]; exact queue.idle,?_,?_⟩
  · intro g hg
    rw [group] at hg
    obtain ⟨members,rest,split,nonempty,isLast,updates,first,count,sync,own⟩ := queue.group g hg
    refine ⟨members,rest,by rw [writers]; exact split,nonempty,isLast,updates,by rw [last]; exact first,
      by rw [last]; exact count,?_,by rw [tmpBatch]; exact own⟩
    rw [Front.leaderSync,writers]
    exact sync
  · intro w hw
    rw [writers] at hw
    obtain ⟨b,entered,same⟩ := queue.entered w hw
    exact ⟨b,by rw [trace]; exact List.mem_append_left _ entered,same⟩

/-- The first writers leave the queue. -/
theorem Front.Queue.leave (queue : f.Queue) {members rest : List (Writer K V)}
    (split : f.writers = members ++ rest) (writers : f'.writers = rest) (leader : f'.leader = none)
    (tmpBatch : f'.tmpBatch = ⟨0,[]⟩) (events : List (Event K V)) (trace : f'.trace = f.trace ++ events) :
    f'.Queue := by
  have ids := queue.ids
  rw [split,List.map_append] at ids
  refine ⟨by rw [writers]; exact (List.nodup_append.mp ids).2.1,fun _ => tmpBatch,?_,?_⟩
  · intro g hg
    rw [leader] at hg
    cases hg
  · intro w hw
    rw [writers] at hw
    obtain ⟨b,entered,same⟩ := queue.entered w (by rw [split]; exact List.mem_append_right _ hw)
    exact ⟨b,by rw [trace]; exact List.mem_append_left _ entered,same⟩

theorem Front.Queue.enter (queue : f.Queue) (id : Nat) (batch : Option (WriteBatch K V)) (sync : Bool)
    (fresh : id ∉ f.trace.filterMap Event.enteredId) :
    Front.Queue { f with
      writers := f.writers ++ [⟨id,batch,sync⟩]
      trace := f.trace ++ [.entered id batch sync] } := by
  refine ⟨?_,queue.idle,?_,?_⟩
  · rw [List.map_append,List.nodup_append]
    refine ⟨queue.ids,List.nodup_singleton _,?_⟩
    intro a ha b hb same
    obtain ⟨w,hw,rfl⟩ := List.mem_map.mp ha
    obtain ⟨batch,entered,-⟩ := queue.entered w hw
    rw [List.map_singleton,List.mem_singleton] at hb
    have isNew : w.id = id := same.trans hb
    exact fresh (isNew ▸ enteredId_of_mem entered)
  · intro g hg
    obtain ⟨members,rest,split,nonempty,isLast,updates,first,count,noSync,own⟩ := queue.group g hg
    refine ⟨members,rest ++ [⟨id,batch,sync⟩],by simp [split],nonempty,isLast,updates,first,count,?_,own⟩
    intro none
    refine noSync ?_
    obtain ⟨w,others,rfl⟩ := List.exists_cons_of_ne_nil nonempty
    simpa [Front.leaderSync,split] using none
  · intro w hw
    rcases List.mem_append.mp hw with old | new
    · obtain ⟨b,entered,same⟩ := queue.entered w old
      exact ⟨b,List.mem_append_left _ entered,same⟩
    · rw [List.mem_singleton] at new
      subst new
      exact ⟨batch,by simp,rfl⟩

/-- The leader's group: its own batch and those of the writers it takes. -/
theorem Front.Queue.start (queue : f.Queue) {w : Writer K V} {rest : List (Writer K V)}
    {b batch : WriteBatch K V} {g : Gathered K V} (before : f.InRoom) (writers : f.writers = w :: rest)
    (hasBatch : w.batch = some b) (group : g = buildBatchGroup o f.tmpBatch.updates w b rest)
    (numbered : batch = ⟨f.last + 1,g.updates⟩) :
    { f with
      leader := some (.logging ⟨batch,g.lastWriter,g.inTmp,f.last + batch.count⟩)
      tmpBatch := if g.inTmp then batch else f.tmpBatch
      writers := if g.inTmp then f.writers else { w with batch := some batch } :: rest }.Queue := by
  have empty := queue.idle before.group
  rw [buildBatchGroup,empty] at group
  obtain ⟨taken,left,split,updates,last,sync,tmp⟩ := gather_spec o w.sync
    (if o.byteSize b ≤ 128 * 1024 then o.byteSize b + 128 * 1024 else 1024 * 1024) (o.byteSize b)
    ⟨b.updates,false,w.id⟩ rest
  rw [← group] at updates last tmp
  simp only at updates last tmp
  have isLast : ∀ first : Writer K V, first.id = w.id →
      (first :: taken).getLast?.map (·.id) = some g.lastWriter := by
    intro first same
    rw [last]
    cases taken with
    | nil => simp [same]
    | cons x xs => simp [List.getLast?_eq_getLast_of_ne_nil]
  have ids := queue.ids
  rw [writers] at ids
  cases inTmp : g.inTmp with
  | true =>
    simp only [if_true]
    refine ⟨queue.ids,fun none => by simp at none,?_,queue.entered⟩
    rintro g' ⟨rfl⟩
    refine ⟨w :: taken,left,by simp [writers,split],by simp,isLast w rfl,?_,by rw [numbered],rfl,?_,by simp⟩
    · simp [numbered,updates,hasBatch]
    · intro none x hx
      have noSync : w.sync = false := by simpa [Front.leaderSync,writers] using none
      rcases List.mem_cons.mp hx with rfl | later
      · exact noSync
      · exact sync noSync x later
  | false =>
    simp only [Bool.false_eq_true,if_false]
    have alone := (tmp inTmp).2
    have noUpdates : updatesOf taken = [] := List.flatMap_eq_nil_iff.mpr fun x hx => by simp [alone x hx]
    refine ⟨by simpa using ids,fun none => by simp at none,?_,?_⟩
    · rintro g' ⟨rfl⟩
      refine ⟨{ w with batch := some batch } :: taken,left,by simp [split],by simp,isLast _ rfl,?_,
        by rw [numbered],rfl,?_,fun _ => empty⟩
      · simp [noUpdates]
      · intro none x hx
        have noSync : w.sync = false := by simpa [Front.leaderSync] using none
        rcases List.mem_cons.mp hx with rfl | later
        · exact noSync
        · exact sync noSync x later
    · intro x hx
      rcases List.mem_cons.mp hx with rfl | later
      · obtain ⟨b',entered,same⟩ := queue.entered w (by simp [writers])
        refine ⟨b',entered,same.trans ?_⟩
        simp [hasBatch,numbered,updates,noUpdates]
      · exact queue.entered x (by simp [writers,later])

theorem Front.Queue.step (queue : f.Queue) (step : f.Step o fails f') : f'.Queue := by
  cases step with
  | other events bgError quiet error => exact queue.keep rfl rfl rfl rfl events rfl
  | enter id batch sync fresh => exact queue.enter id batch sync fresh
  | room force delay events bgError before writers quiet error =>
    refine queue.keep rfl ?_ rfl rfl events rfl
    rcases before with none | room
    · rw [none]
      rfl
    · rw [room.group]
      rfl
  | leave w rest status before writers outcome =>
    exact queue.leave (List.singleton_append ▸ writers) rfl rfl (queue.idle before.group) _ rfl
  | start w rest b batch g before writers hasBatch group numbered =>
    exact queue.start before writers hasBatch group numbered
  | log g number before =>
    refine queue.keep rfl ?_ rfl rfl _ rfl
    rw [before]
    cases f.leaderSync <;> rfl
  | logLost g before failed =>
    refine queue.keep rfl ?_ rfl rfl _ rfl
    rw [before]
    cases f.leaderSync <;> rfl
  | logFails g before failed =>
    exact queue.keep rfl (by rw [before]; rfl) rfl rfl [] (by simp)
  | logLate g number before failed => exact queue.keep rfl (by rw [before]; rfl) rfl rfl _ rfl
  | sync g before => exact queue.keep rfl (by rw [before]; rfl) rfl rfl _ rfl
  | syncFails g before failed =>
    exact queue.keep rfl (by rw [before]; rfl) rfl rfl [] (by simp)
  | insert g before => exact queue.keep rfl (by rw [before]; rfl) rfl rfl _ rfl
  | finish g status syncError events before quiet =>
    obtain ⟨members,rest,commits⟩ := queue.group g (by rw [before]; rfl)
    have split := commits.split queue.ids
    refine queue.leave commits.queue (by simp [split]) rfl ?_ _ (List.append_assoc ..)
    cases inTmp : g.inTmp with
    | true => simp
    | false => simpa using commits.own inTmp

end Queue

section Simulation
variable [LinearOrder K] {o : Options K V} {s s' : State K V} {db : Db K V} {l : Label K V}

omit [LinearOrder K] in
theorem Event.quiet_of_background {e : Event K V} (background : e.background = true) : e.quiet = true := by
  cases e <;> first | exact background | rfl

omit [LinearOrder K] in
/-- The head of the queue leaves on its own. -/
theorem front_leave {w : Writer K V} {rest : List (Writer K V)} (queue : db.writers = w :: rest)
    (status : Status) (first : Nat) :
    ∃ db', (s.release db w.id status first).process = .running db' ∧
      (s.release db w.id status first).front db' = { s.front db with
        writers := rest
        leader := none
        trace := s.trace ++ [.returned w.id status w.sync w.batch first] } := by
  refine ⟨_,rfl,?_⟩
  simp [State.front,State.release,queue,splitGroup,State.setDb,returns]

omit [LinearOrder K] in
/-- The leader stays in `MakeRoomForWrite`. -/
theorem front_room {db' : Db K V} {fails : Bool} (before : db.leader = none ∨ (s.front db).InRoom)
    (queue : db.writers ≠ []) (writers : db'.writers = db.writers) (force delay : Bool)
    (leader : db'.leader = some (.room force delay)) (tmpBatch : db'.tmpBatch = db.tmpBatch)
    (last : db'.versions.lastSequence = db.versions.lastSequence)
    (error : db'.bgError = db.bgError ∨ fails = true) (history : s'.history = s.history)
    (events : ∃ events, s'.trace = s.trace ++ events ∧ ∀ e ∈ events, e.quiet = true) :
    (s.front db).Step o fails (s'.front db') := by
  obtain ⟨events,trace,quiet⟩ := events
  have front : s'.front db' = { s.front db with
      leader := some (.room force delay), bgError := db'.bgError, trace := s.trace ++ events } := by
    simp only [State.front,writers,leader,tmpBatch,last,history,trace]
  rw [front]
  exact .room force delay events db'.bgError before queue quiet error

omit [LinearOrder K] in
theorem front_makeRoom {newFile close : Status} (same : s.process = .running db)
    (step : s.makeRoom o db newFile close = some s') :
    ∃ db', s'.process = .running db' ∧
      (s.front db).Step o (!(Label.makeRoom newFile close : Label K V).ok) (s'.front db') := by
  obtain ⟨force,delay,w,rest,leader,writers,outcome⟩ := makeRoom_cases step
  have room : (s.front db).InRoom := ⟨force,delay,leader⟩
  have queue : db.writers ≠ [] := by simp [writers]
  rcases outcome with ⟨error,rfl⟩ | ⟨-,rfl⟩ | ⟨-,-,start⟩ | rfl | ⟨-,-,-,rfl⟩
  · obtain ⟨db',process,front⟩ := front_leave (s := s) writers .ioError (db.versions.lastSequence + 1)
    refine ⟨db',process,?_⟩
    rw [front]
    refine .leave w rest .ioError room writers (.inr ⟨rfl,error.imp_right fun failed => ?_⟩)
    simp [Label.ok,failed]
  · exact ⟨_,rfl,front_room (.inr room) queue rfl force false rfl rfl rfl (.inl rfl) rfl
      ⟨[],by simp [State.setDb],by simp⟩⟩
  · obtain ⟨w',rest',writers',⟨noBatch,rfl⟩ | ⟨b,batch,-,rfl⟩⟩ := startGroup_cases start
    · obtain ⟨db',process,front⟩ := front_leave (s := s) writers' .ok (db.versions.lastSequence + 1)
      refine ⟨db',process,?_⟩
      rw [front]
      exact .leave w' rest' .ok room writers' (.inl ⟨rfl,noBatch⟩)
    · refine ⟨_,rfl,?_⟩
      have step : (s.front db).Step o (!(Label.makeRoom newFile close : Label K V).ok) _ :=
        .start w' rest' b _ _ room writers' batch rfl rfl
      cases inTmp : (buildBatchGroup o db.tmpBatch.updates w' b rest').inTmp <;>
      · simp only [State.front,State.setDb,inTmp,if_true,Bool.false_eq_true,if_false] at step ⊢
        exact step
  · exact ⟨db,same,front_room (.inr room) queue rfl force delay leader rfl rfl (.inl rfl) rfl ⟨[],by simp,by simp⟩⟩
  · simp only [State.switchMemTable]
    split
    · exact ⟨_,rfl,front_room (.inr room) queue rfl false delay rfl rfl rfl (.inl rfl) rfl
        ⟨[.created (.log db.versions.nextFileNumber)],rfl,by simp [Event.quiet,Event.background]⟩⟩
    · rename_i failed
      obtain ⟨db',events,process,after,-,-,-,-,-,history,-,trace,isError⟩ := recordBackgroundError_spec
        ({ s with disk := s.disk.newLog db.versions.nextFileNumber }.note
          (.created (.log db.versions.nextFileNumber))) { db with
          versions := { db.versions with nextFileNumber := db.versions.nextFileNumber + 1 }
          logfileNumber := db.versions.nextFileNumber
          imm := some db.mem
          mem := []
          leader := some (.room false delay)
          logTorn := false }
      refine ⟨db',process,front_room (.inr room) queue after.writers false delay after.leader after.tmpBatch
        after.lastSequence (.inr ?_) history ⟨.created (.log db.versions.nextFileNumber) :: events,
          trace.trans (List.append_assoc ..),?_⟩⟩
      · simp [Label.ok,failed]
      · intro e he
        rcases List.mem_cons.mp he with rfl | he
        · rfl
        rw [isError] at he
        split at he
        · cases he
        · rw [List.mem_singleton.mp he]
          rfl

/-- A step of the open database is a step of the queue. -/
theorem front_step (same : s.process = .running db) (step : s.stepDb o db l = some s') :
    ∃ db', s'.process = .running db' ∧ (s.front db).Step o (!l.ok) (s'.front db') := by
  have calm : ∀ db' : Db K V, db'.writers = db.writers → db'.leader = db.leader →
      db'.tmpBatch = db.tmpBatch → db'.versions.lastSequence = db.versions.lastSequence →
      db'.bgError = db.bgError ∨ l.ok = false → s'.history = s.history →
      (∃ events, s'.trace = s.trace ++ events ∧ ∀ e ∈ events, e.quiet = true) →
      (s.front db).Step o (!l.ok) (s'.front db') := by
    rintro db' writers leader tmpBatch last error history ⟨events,trace,quiet⟩
    have front : s'.front db' = { s.front db with bgError := db'.bgError, trace := s.trace ++ events } := by
      simp only [State.front,writers,leader,tmpBatch,last,history,trace]
    rw [front]
    exact .other events db'.bgError quiet (error.imp_right (by simp))
  cases background : l.background with
  | true =>
    obtain ⟨db',after⟩ := background_step same background step
    obtain ⟨events,trace,isBackground⟩ := after.events
    exact ⟨db',after.process,calm db' after.same.writers after.same.leader after.same.tmpBatch
      after.same.lastSequence (after.bgError.imp_right (·.2)) after.history
      ⟨events,trace,fun e he => Event.quiet_of_background (isBackground e he)⟩⟩
  | false =>
    cases l with
    | enter id batch sync =>
      simp only [State.stepDb,State.enter] at step
      split at step
      · cases step
      · rename_i fresh
        cases step
        exact ⟨_,rfl,.enter id batch sync fresh⟩
    | lead =>
      simp only [State.stepDb,State.lead] at step
      split at step
      · rename_i w rest leader writers
        cases step
        exact ⟨_,rfl,front_room (.inl leader) (by simp [writers]) rfl _ _ rfl rfl rfl (.inl rfl) rfl
          ⟨[],by simp [State.setDb],by simp⟩⟩
      · cases step
    | makeRoom newFile close => exact front_makeRoom same step
    | addRecord outcome =>
      obtain ⟨g,leader,⟨-,rfl⟩ | ⟨rfl,rfl⟩ | ⟨rfl,rfl⟩ | ⟨rfl,-,rfl⟩⟩ := addRecord_cases step
      · exact ⟨_,rfl,.log g db.logfileNumber leader⟩
      · exact ⟨_,rfl,.logLate g db.logfileNumber leader rfl⟩
      · exact ⟨_,rfl,.logFails g leader rfl⟩
      · exact ⟨_,rfl,.logLost g leader rfl⟩
    | syncLog status =>
      simp only [State.stepDb,State.syncLog] at step
      split at step
      · rename_i g leader
        split at step
        · cases step
          exact ⟨_,rfl,.sync g leader⟩
        · rename_i failed
          cases step
          exact ⟨_,rfl,.syncFails g leader (by simpa [Label.ok] using failed)⟩
      · cases step
    | insertInto =>
      simp only [State.stepDb,State.insertInto] at step
      split at step
      · rename_i g leader
        cases step
        exact ⟨_,rfl,.insert g leader⟩
      · cases step
    | finishWrite =>
      simp only [State.stepDb,State.finishWrite] at step
      split at step
      · rename_i g status syncError leader
        cases step
        cases recorded : syncError && !db.bgError with
        | true =>
          exact ⟨_,rfl,.finish g status syncError [.errorRecorded] leader
            (by simp [Event.quiet,Event.background])⟩
        | false =>
          have finish : (s.front db).Step o false _ := .finish g status syncError [] leader (by simp)
          rw [List.append_nil] at finish
          exact ⟨_,rfl,finish⟩
      · cases step
    | getSnapshot =>
      cases step
      exact ⟨_,rfl,calm _ rfl rfl rfl rfl (.inl rfl) rfl ⟨[],by simp [State.getSnapshot,State.setDb],by simp⟩⟩
    | releaseSnapshot snapshot =>
      cases step
      exact ⟨_,rfl,calm _ rfl rfl rfl rfl (.inl rfl) rfl ⟨[],by simp [State.releaseSnapshot,State.setDb],by simp⟩⟩
    | awaitFlush id =>
      simp only [State.stepDb,State.awaitFlush] at step
      split at step
      · cases step
        exact ⟨_,rfl,calm _ rfl rfl rfl rfl (.inl rfl) rfl ⟨_,rfl,by simp [Event.quiet]⟩⟩
      · cases step
    | requestCompaction level first last =>
      simp only [State.stepDb,State.requestCompaction] at step
      split at step
      · cases step
        exact ⟨_,rfl,calm _ rfl rfl rfl rfl (.inl rfl) rfl ⟨[],by simp [State.setDb],by simp⟩⟩
      · cases step
    | crash cut => cases step
    | openDb => cases step
    | newDb => cases step
    | recover => cases step
    | replay => cases step
    | openCommit => cases step
    | _ => cases background

end Simulation

end LevelDB
