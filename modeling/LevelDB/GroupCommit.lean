import LevelDB.Reachable
import LevelDB.Trace
import LevelDB.WriterQueue

/-! Group commit. Of what happens while a database is open, the events of the writers tell
all: who entered the queue, which records went to the log, which were applied, and who
returned. However the callers are interleaved, the records are the callers' batches in the
order in which they entered, cut into groups and numbered without a gap. -/
namespace LevelDB

variable {K V : Type}

def Event.caller : Event K V → Option (Writer K V)
  | .entered id (some b) sync => some ⟨id,some b,sync⟩
  | _ => none

def Event.record : Event K V → Option (List Nat × WriteBatch K V)
  | .logged ids b => some (ids,b)
  | _ => none

def Event.application : Event K V → Option (List Nat × WriteBatch K V)
  | .applied ids b => some (ids,b)
  | _ => none

/-- The callers with a batch, in the order in which they entered the queue. -/
def callers (t : List (Event K V)) : List (Writer K V) := t.filterMap Event.caller

/-- The records of the log, with the callers whose batches are in them. -/
def records (t : List (Event K V)) : List (List Nat × WriteBatch K V) := t.filterMap Event.record

/-- The batches that were applied to the memtable. -/
def applications (t : List (Event K V)) : List (List Nat × WriteBatch K V) := t.filterMap Event.application

@[simp] theorem callers_append (t t' : List (Event K V)) : callers (t ++ t') = callers t ++ callers t' :=
  List.filterMap_append

@[simp] theorem records_append (t t' : List (Event K V)) : records (t ++ t') = records t ++ records t' :=
  List.filterMap_append

@[simp] theorem applications_append (t t' : List (Event K V)) :
    applications (t ++ t') = applications t ++ applications t' := List.filterMap_append

/-- The records of some groups, where `last` is the sequence number before the first. -/
def groupRecords : Nat → List (List (Writer K V)) → List (List Nat × WriteBatch K V)
  | _, [] => []
  | last, group :: rest =>
    (batchIds group,⟨last + 1,updatesOf group⟩) :: groupRecords (last + (updatesOf group).length) rest

/-- How a batch is committed: its record is logged, for a sync writer the log is synced
after that, and then the record is applied. -/
def commitEvents (sync : Bool) (ids : List Nat) (b : WriteBatch K V) : List (Event K V) :=
  .logged ids b :: (if sync then [.synced] else []) ++ [.applied ids b]

/-- What a caller with a batch has got when it returns. -/
structure Acknowledged (before : List (Event K V)) (id : Nat) (status : Status) (sync : Bool)
    (b : WriteBatch K V) : Prop where
  status : status = .ok
  unchanged : ∃ w ∈ callers before, w.id = id ∧ w.sync = sync ∧ w.batch.map (·.updates) = some b.updates
  committed : ∃ ids record, id ∈ ids ∧ (commitEvents sync ids record).Sublist before

/-- Every return of a caller with a batch is an acknowledgement of it. -/
def Acknowledges (before : List (Event K V)) : Event K V → Prop
  | .returned id status sync (some b) _ => Acknowledged before id status sync b
  | _ => True

section Groups

theorem groupRecords_concat (last : Nat) (groups : List (List (Writer K V))) (group : List (Writer K V)) :
    groupRecords last (groups ++ [group]) = groupRecords last groups ++
      [(batchIds group,⟨last + (updatesOf groups.flatten).length + 1,updatesOf group⟩)] := by
  induction groups generalizing last with
  | nil => simp [groupRecords]
  | cons first rest ih =>
    rw [List.cons_append,groupRecords,groupRecords,ih]
    simp [Nat.add_assoc]

/-- The sequence numbers of the records have no gap, and none is used twice. -/
theorem groupRecords_sequences (last : Nat) (groups : List (List (Writer K V))) :
    (groupRecords last groups).flatMap (fun r => r.2.entries.map (·.sequence)) =
      List.range' (last + 1) (updatesOf groups.flatten).length := by
  induction groups generalizing last with
  | nil => rfl
  | cons group rest ih =>
    have own : (⟨last + 1,updatesOf group⟩ : WriteBatch K V).entries.map (·.sequence) =
        List.range' (last + 1) (updatesOf group).length := by
      refine List.ext_getElem (by simp [WriteBatch.entries]) fun i _ _ => ?_
      simp [WriteBatch.entries]
    rw [groupRecords,List.flatMap_cons,ih,List.flatten_cons,updatesOf_append,List.length_append,own,
      show last + (updatesOf group).length + 1 = last + 1 + (updatesOf group).length by omega,List.range'_append_1]

theorem batchIds_append (ws ws' : List (Writer K V)) : batchIds (ws ++ ws') = batchIds ws ++ batchIds ws' :=
  List.filterMap_append

/-- Only the writers with a batch count. -/
theorem batchIds_filter (ws : List (Writer K V)) : batchIds (ws.filter (·.batch.isSome)) = batchIds ws := by
  induction ws with
  | nil => rfl
  | cons w rest ih => cases batch : w.batch <;> simp_all [batchIds]

theorem updatesOf_filter (ws : List (Writer K V)) : updatesOf (ws.filter (·.batch.isSome)) = updatesOf ws := by
  induction ws with
  | nil => rfl
  | cons w rest ih => cases batch : w.batch <;> simp_all

theorem groupRecords_ids (last : Nat) (groups : List (List (Writer K V))) :
    (groupRecords last groups).flatMap (·.1) = batchIds groups.flatten := by
  induction groups generalizing last with
  | nil => rfl
  | cons group rest ih => rw [groupRecords,List.flatMap_cons,ih,List.flatten_cons,batchIds_append]

theorem mem_batchIds {ws : List (Writer K V)} {w : Writer K V} (member : w ∈ ws) (batch : w.batch.isSome) :
    w.id ∈ batchIds ws := by
  obtain ⟨b,isBatch⟩ := Option.isSome_iff_exists.mp batch
  exact List.mem_filterMap.mpr ⟨w,member,by simp [isBatch]⟩

/-- The record of a caller: the updates of those who entered before it are numbered before
its own. -/
theorem groupRecords_updates {last : Nat} {groups : List (List (Writer K V))}
    {waiting before after : List (Writer K V)} {w : Writer K V} {r : List Nat × WriteBatch K V}
    (distinct : (batchIds (groups.flatten ++ waiting)).Nodup)
    (split : groups.flatten ++ waiting = before ++ w :: after) (batch : w.batch.isSome)
    (member : r ∈ groupRecords last groups) (inside : w.id ∈ r.1) :
    ∃ front back, r.2.updates = front ++ (w.batch.map (·.updates)).getD [] ++ back ∧
      r.2.sequence + front.length = last + 1 + (updatesOf before).length := by
  induction groups generalizing last before with
  | nil => cases member
  | cons group rest ih =>
    rw [List.flatten_cons,List.append_assoc] at distinct split
    rw [batchIds_append,List.nodup_append] at distinct
    obtain ⟨-,later,apart⟩ := distinct
    rcases List.append_eq_append_iff.mp split with ⟨middle,rfl,there⟩ | ⟨middle,rfl,there⟩
    · -- the caller is behind this group
      have isLater : w.id ∈ batchIds (rest.flatten ++ waiting) := mem_batchIds (by simp [there]) batch
      rcases List.mem_cons.mp member with rfl | member
      · exact absurd rfl (apart _ inside _ isLater)
      obtain ⟨front,back,updates,sequence⟩ := ih later there member
      refine ⟨front,back,updates,?_⟩
      simp only [updatesOf_append,List.length_append]
      omega
    · cases middle with
      | nil =>
        have isLater : w.id ∈ batchIds (rest.flatten ++ waiting) := by
          refine mem_batchIds ?_ batch
          simp only [List.nil_append] at there
          simp [← there]
        rcases List.mem_cons.mp member with rfl | member
        · exact absurd rfl (apart _ inside _ isLater)
        have start : rest.flatten ++ waiting = [] ++ w :: after := there.symm
        obtain ⟨front,back,updates,sequence⟩ := ih later start member
        refine ⟨front,back,updates,?_⟩
        simp only [updatesOf_append,List.length_append,updatesOf_nil,List.length_nil] at sequence ⊢
        omega
      | cons x middle =>
        obtain ⟨rfl,-⟩ := List.cons_eq_cons.mp there
        rcases List.mem_cons.mp member with rfl | member
        · exact ⟨updatesOf before,updatesOf middle,by simp,rfl⟩
        · -- the ids of this group are in no later record
          have isLater : w.id ∈ batchIds rest.flatten := by
            rw [← groupRecords_ids]
            exact List.mem_flatMap.mpr ⟨r,member,inside⟩
          refine absurd rfl (apart _ (mem_batchIds (by simp) batch) _ ?_)
          rw [batchIds_append]
          exact List.mem_append_left _ isLater

end Groups

/-- The record of the group that is being committed, once it is in the log. -/
def Front.logged (f : Front K V) : List (List Nat × WriteBatch K V) :=
  match f.leader with
  | some (.syncing g) => [(batchIds (f.members g),g.batch)]
  | some (.inserting g) => [(batchIds (f.members g),g.batch)]
  | some (.finishing g _ _) => [(batchIds (f.members g),g.batch)]
  | _ => []

def Front.applied (f : Front K V) : List (List Nat × WriteBatch K V) :=
  match f.leader with
  | some (.finishing g _ _) => [(batchIds (f.members g),g.batch)]
  | _ => []

/-- What the leader has done for its group. -/
def Front.committing (f : Front K V) : List (Event K V) :=
  match f.leader with
  | some (.syncing g) => [.logged (batchIds (f.members g)) g.batch]
  | some (.inserting g) => .logged (batchIds (f.members g)) g.batch :: if f.leaderSync then [.synced] else []
  | some (.finishing g _ _) => commitEvents f.leaderSync (batchIds (f.members g)) g.batch
  | _ => []

/-- The books of a session that began at `start`: `groups` are committed and have
returned, and the callers that wait are those in the queue. -/
structure Front.Ledger (f start : Front K V) (groups : List (List (Writer K V))) (waiting : List (Writer K V))
    (t : List (Event K V)) : Prop where
  trace : f.trace = start.trace ++ t
  entered : callers t = groups.flatten ++ waiting
  queue : List.Forall₂ Writer.Same waiting (f.writers.filter (·.batch.isSome))
  distinct : (batchIds (callers t)).Nodup
  recorded : records t = groupRecords start.last groups ++ f.logged
  inserted : applications t = groupRecords start.last groups ++ f.applied
  history : f.history.map (·.2) = start.history.map (·.2) ++ (records t).map (·.2)
  last : f.last = start.last + (updatesOf groups.flatten).length
  stage : f.committing.Sublist t
  returned : EachAfter Acknowledges t
  status : ∀ g status syncError, f.leader = some (.finishing g status syncError) → status = .ok ∧ syncError = false
  bgError : f.bgError = false

section Events
variable {t : List (Event K V)}

/-- Events that leave the books alone. -/
structure Silent (t : List (Event K V)) : Prop where
  callers : callers t = []
  records : records t = []
  applications : applications t = []
  returned : ∀ e ∈ t, ∀ before, Acknowledges before e

theorem Silent.of_quiet (quiet : ∀ e ∈ t, e.quiet = true) : Silent t := by
  have one : ∀ e ∈ t, e.caller = none ∧ e.record = none ∧ e.application = none ∧ ∀ before, Acknowledges before e := by
    intro e member
    have isQuiet := quiet e member
    cases e <;> first | exact ⟨rfl,rfl,rfl,fun _ => trivial⟩ | cases isQuiet
  refine ⟨?_,?_,?_,fun e member => (one e member).2.2.2⟩
  · exact List.filterMap_eq_nil_iff.mpr fun e member => (one e member).1
  · exact List.filterMap_eq_nil_iff.mpr fun e member => (one e member).2.1
  · exact List.filterMap_eq_nil_iff.mpr fun e member => (one e member).2.2.1

theorem Acknowledged.mono {before : List (Event K V)} {id : Nat} {status : Status} {sync : Bool} {b : WriteBatch K V}
    (done : Acknowledged before id status sync b) (more : List (Event K V)) :
    Acknowledged (before ++ more) id status sync b := by
  obtain ⟨isOk,⟨w,entered,same⟩,ids,record,inside,committed⟩ := done
  refine ⟨isOk,⟨w,?_,same⟩,ids,record,inside,committed.trans (List.sublist_append_left _ _)⟩
  rw [callers_append]
  exact List.mem_append_left _ entered

theorem Acknowledges.mono {before : List (Event K V)} {e : Event K V} (done : Acknowledges before e)
    (more : List (Event K V)) : Acknowledges (before ++ more) e := by
  cases e with
  | returned id status sync batch first =>
    cases batch with
    | none => trivial
    | some b => exact Acknowledged.mono done more
  | _ => trivial

theorem mem_returns {status : Status} {first : Nat} {ws : List (Writer K V)} {e : Event K V}
    (member : e ∈ returns status first ws) : ∃ w ∈ ws, ∃ n, e = .returned w.id status w.sync w.batch n := by
  induction ws generalizing first with
  | nil => cases member
  | cons w rest ih =>
    rcases List.mem_cons.mp member with rfl | later
    · exact ⟨w,by simp,first,rfl⟩
    · obtain ⟨x,inside,n,same⟩ := ih later
      exact ⟨x,by simp [inside],n,same⟩

theorem returns_silent (status : Status) (first : Nat) (ws : List (Writer K V)) :
    callers (returns status first ws) = [] ∧ records (returns status first ws) = [] ∧
      applications (returns status first ws) = [] := by
  refine ⟨?_,?_,?_⟩ <;>
  · refine List.filterMap_eq_nil_iff.mpr fun e member => ?_
    obtain ⟨w,-,n,rfl⟩ := mem_returns member
    rfl

theorem callers_ids (t : List (Event K V)) : batchIds (callers t) ⊆ t.filterMap Event.enteredId := by
  intro id member
  obtain ⟨w,isCaller,batch⟩ := List.mem_filterMap.mp member
  obtain ⟨e,inside,entered⟩ := List.mem_filterMap.mp isCaller
  cases e with
  | entered id' b sync =>
    cases b with
    | none => cases entered
    | some b =>
      cases entered
      cases batch
      exact List.mem_filterMap.mpr ⟨_,inside,rfl⟩
  | _ => cases entered

end Events

section Steps
variable {o : Options K V} {start f f' : Front K V} {groups : List (List (Writer K V))} {waiting : List (Writer K V)}
  {t : List (Event K V)}

/-- A step without a new caller and without a return. -/
theorem Front.Ledger.extend (ledger : f.Ledger start groups waiting t) (events : List (Event K V))
    (trace : f'.trace = f.trace ++ events) (writers : f'.writers = f.writers) (last : f'.last = f.last)
    (history : f'.history.map (·.2) = f.history.map (·.2) ++ (records events).map (·.2))
    (entered : callers events = []) (returned : ∀ e ∈ events, ∀ before, Acknowledges before e)
    (logged : f'.logged = f.logged ++ records events)
    (applied : f'.applied = f.applied ++ applications events)
    (stage : f'.committing.Sublist (t ++ events))
    (status : ∀ g status syncError, f'.leader = some (.finishing g status syncError) → status = .ok ∧ syncError = false)
    (bgError : f'.bgError = false) : f'.Ledger start groups waiting (t ++ events) := by
  refine ⟨?_,?_,?_,?_,?_,?_,?_,last.trans ledger.last,stage,?_,status,bgError⟩
  · rw [trace,ledger.trace,List.append_assoc]
  · rw [callers_append,entered,List.append_nil,ledger.entered]
  · rw [writers]
    exact ledger.queue
  · rw [callers_append,entered,List.append_nil]
    exact ledger.distinct
  · rw [records_append,ledger.recorded,logged,List.append_assoc]
  · rw [applications_append,ledger.inserted,applied,List.append_assoc]
  · rw [history,ledger.history,records_append,List.map_append,List.append_assoc]
  · exact ledger.returned.append (EachAfter.of_mem fun before e member => returned e member _)

/-- What the leader does next is on the books as soon as it is in the trace. -/
theorem Front.Ledger.event (ledger : f.Ledger start groups waiting t) (e : Event K V)
    (trace : f'.trace = f.trace ++ [e]) (writers : f'.writers = f.writers) (last : f'.last = f.last)
    (history : f'.history.map (·.2) = f.history.map (·.2) ++ (records [e]).map (·.2))
    (entered : e.caller = none) (returned : ∀ before, Acknowledges before e)
    (logged : f'.logged = f.logged ++ records [e])
    (applied : f'.applied = f.applied ++ applications [e])
    (stage : f'.committing.Sublist (f.committing ++ [e]))
    (status : ∀ g status syncError, f'.leader = some (.finishing g status syncError) → status = .ok ∧ syncError = false)
    (bgError : f'.bgError = false) : f'.Ledger start groups waiting (t ++ [e]) := by
  refine ledger.extend [e] trace writers last history ?_ ?_ logged applied ?_ status bgError
  · simp [callers,entered]
  · intro e' member before
    rw [List.mem_singleton.mp member]
    exact returned before
  · exact stage.trans (ledger.stage.append (List.Sublist.refl _))

/-- The group in front of the queue does not see who comes behind it. -/
theorem Front.stage_congr (leader : f'.leader = f.leader)
    (members : ∀ g, groupOf f.leader = some g → f'.members g = f.members g ∧ f'.leaderSync = f.leaderSync) :
    f'.logged = f.logged ∧ f'.applied = f.applied ∧ f'.committing = f.committing := by
  simp only [Front.logged,Front.applied,Front.committing,leader]
  cases stage : f.leader with
  | none => exact ⟨rfl,rfl,rfl⟩
  | some l =>
    rw [stage] at members
    cases l with
    | room force delay => exact ⟨rfl,rfl,rfl⟩
    | logging g => exact ⟨rfl,rfl,rfl⟩
    | syncing g => simp [members g rfl]
    | inserting g => simp [members g rfl]
    | finishing g status syncError => simp [members g rfl]

theorem Front.Queue.enter_members (queue : f.Queue) {g : Group K V} (group : groupOf f.leader = some g) (w : Writer K V)
    (ids : ((f.writers ++ [w]).map (·.id)).Nodup) :
    (splitGroup g.lastWriter (f.writers ++ [w])).1 = f.members g ∧
      (f.writers ++ [w]).head? = f.writers.head? := by
  obtain ⟨members,rest,commits⟩ := queue.group g group
  have now := commits.split queue.ids
  have nonempty : f.writers ≠ [] := by
    rw [commits.queue]
    simp [commits.nonempty]
  constructor
  · rw [commits.queue,List.append_assoc] at ids ⊢
    rw [splitGroup_eq ids commits.isLast,Front.members,now]
  · exact List.head?_append_of_ne_nil _ nonempty

theorem Front.Ledger.enter (ledger : f.Ledger start groups waiting t) (queue : f.Queue) (id : Nat)
    (batch : Option (WriteBatch K V)) (sync : Bool) (fresh : id ∉ f.trace.filterMap Event.enteredId) :
    ∃ waiting', Front.Ledger { f with
      writers := f.writers ++ [⟨id,batch,sync⟩]
      trace := f.trace ++ [.entered id batch sync] } start groups waiting' (t ++ [.entered id batch sync]) := by
  have ids := (queue.enter id batch sync fresh).ids
  let next : Front K V := { f with
    writers := f.writers ++ [⟨id,batch,sync⟩]
    trace := f.trace ++ [.entered id batch sync] }
  have sameLeader : next.leader = f.leader := rfl
  obtain ⟨logged,applied,committing⟩ := Front.stage_congr sameLeader fun g group => by
    obtain ⟨members,head⟩ := queue.enter_members group ⟨id,batch,sync⟩ ids
    exact ⟨members,by simp only [next,Front.leaderSync,head]⟩
  have noRecord : records [(.entered id batch sync : Event K V)] = [] := rfl
  have noApplication : applications [(.entered id batch sync : Event K V)] = [] := rfl
  have queued : [(⟨id,batch,sync⟩ : Writer K V)].filter (·.batch.isSome) =
      callers [(.entered id batch sync : Event K V)] := by
    cases batch <;> rfl
  have isNew : ∀ w ∈ callers [(.entered id batch sync : Event K V)], w.id = id := by
    intro w member
    rw [← queued] at member
    rw [List.mem_singleton.mp (List.mem_of_mem_filter member)]
  refine ⟨waiting ++ callers [.entered id batch sync],?_,?_,?_,?_,?_,?_,?_,ledger.last,?_,?_,ledger.status,ledger.bgError⟩
  · simp only [ledger.trace,List.append_assoc]
  · rw [callers_append,ledger.entered,List.append_assoc]
  · simp only [List.filter_append,queued]
    refine List.rel_append ledger.queue ?_
    exact List.forall₂_same.mpr fun w _ => ⟨rfl,rfl,rfl⟩
  · rw [callers_append,batchIds_append,List.nodup_append]
    refine ⟨ledger.distinct,?_,?_⟩
    · cases batch
      · exact List.nodup_nil
      · exact List.nodup_singleton _
    · rintro a old b new rfl
      obtain ⟨w,member,same⟩ := List.mem_filterMap.mp new
      obtain ⟨b,-,rfl⟩ := Option.map_eq_some_iff.mp same
      apply fresh
      rw [← isNew w member,ledger.trace,List.filterMap_append]
      exact List.mem_append_right _ (callers_ids t old)
  · rw [records_append,noRecord,List.append_nil,logged,ledger.recorded]
  · rw [applications_append,noApplication,List.append_nil,applied,ledger.inserted]
  · rw [records_append,noRecord,List.append_nil]
    exact ledger.history
  · rw [committing]
    exact ledger.stage.trans (List.sublist_append_left _ _)
  · refine ledger.returned.append (EachAfter.of_mem fun before e member => ?_)
    rw [List.mem_singleton.mp member]
    trivial

theorem Front.InRoom.nothing (room : f.InRoom) : f.logged = [] ∧ f.applied = [] := by
  obtain ⟨force,delay,leader⟩ := room
  simp only [Front.logged,Front.applied,leader]
  trivial

/-- A caller without a batch leaves: it was not on the books. -/
theorem Front.Ledger.leave (ledger : f.Ledger start groups waiting t) {w : Writer K V} {rest : List (Writer K V)}
    (status : Status) (before : f.InRoom) (queue : f.writers = w :: rest) (noBatch : w.batch = none) :
    Front.Ledger { f with
      writers := rest
      leader := none
      trace := f.trace ++ [.returned w.id status w.sync w.batch (f.last + 1)] } start groups waiting
      (t ++ [.returned w.id status w.sync w.batch (f.last + 1)]) := by
  have noRecord : records [(.returned w.id status w.sync w.batch (f.last + 1) : Event K V)] = [] := rfl
  have noApplication : applications [(.returned w.id status w.sync w.batch (f.last + 1) : Event K V)] = [] := rfl
  have noCaller : callers [(.returned w.id status w.sync w.batch (f.last + 1) : Event K V)] = [] := rfl
  obtain ⟨logged,applied⟩ := before.nothing
  have filtered := ledger.queue
  rw [queue,List.filter_cons_of_neg (by simp [noBatch])] at filtered
  refine ⟨?_,?_,filtered,?_,?_,?_,?_,ledger.last,List.nil_sublist _,?_,?_,ledger.bgError⟩
  · simp only [ledger.trace,List.append_assoc]
  · rw [callers_append,noCaller,List.append_nil,ledger.entered]
  · rw [callers_append,noCaller,List.append_nil]
    exact ledger.distinct
  · rw [records_append,noRecord,List.append_nil,ledger.recorded,logged]
    rfl
  · rw [applications_append,noApplication,List.append_nil,ledger.inserted,applied]
    rfl
  · rw [records_append,noRecord,List.append_nil]
    exact ledger.history
  · refine ledger.returned.append (EachAfter.of_mem fun before e member => ?_)
    rw [List.mem_singleton.mp member,noBatch]
    trivial
  · rintro g status' syncError ⟨⟩

/-- A leader on its own has its own updates. -/
theorem buildBatchGroup_own {w : Writer K V} {b : WriteBatch K V} {rest : List (Writer K V)}
    (own : (buildBatchGroup o [] w b rest).inTmp = false) : (buildBatchGroup o [] w b rest).updates = b.updates := by
  obtain ⟨taken,left,-,updates,-,-,tmp⟩ := gather_spec o w.sync
    (if o.byteSize b ≤ 128 * 1024 then o.byteSize b + 128 * 1024 else 1024 * 1024) (o.byteSize b)
    ⟨b.updates,false,w.id⟩ rest
  have none : updatesOf taken = [] := List.flatMap_eq_nil_iff.mpr fun x member => by simp [(tmp own).2 x member]
  rw [none,List.append_nil] at updates
  exact updates

theorem Front.Ledger.begin (ledger : f.Ledger start groups waiting t) (idle : f.tmpBatch = ⟨0,[]⟩) {w : Writer K V}
    {rest : List (Writer K V)} {b batch : WriteBatch K V} {g : Gathered K V} (before : f.InRoom)
    (queue : f.writers = w :: rest) (hasBatch : w.batch = some b)
    (group : g = buildBatchGroup o f.tmpBatch.updates w b rest) (numbered : batch = ⟨f.last + 1,g.updates⟩) :
    Front.Ledger { f with
      leader := some (.logging ⟨batch,g.lastWriter,g.inTmp,f.last + batch.count⟩)
      tmpBatch := if g.inTmp then batch else f.tmpBatch
      writers := if g.inTmp then f.writers else { w with batch := some batch } :: rest } start groups waiting t := by
  obtain ⟨logged,applied⟩ := before.nothing
  have records := ledger.recorded
  have applications := ledger.inserted
  rw [logged] at records
  rw [applied] at applications
  refine ⟨ledger.trace,ledger.entered,?_,ledger.distinct,records,applications,ledger.history,ledger.last,
    List.nil_sublist _,ledger.returned,?_,ledger.bgError⟩
  · cases inTmp : g.inTmp with
    | true => simpa using ledger.queue
    | false =>
      have old := ledger.queue
      rw [queue,List.filter_cons_of_pos (by simp [hasBatch])] at old
      obtain ⟨first,others,same,tail,rfl⟩ := List.forall₂_cons_right_iff.mp old
      rw [idle] at group
      subst group
      have own := buildBatchGroup_own inTmp
      simp only [Bool.false_eq_true,if_false]
      rw [List.filter_cons_of_pos rfl]
      refine .cons ⟨same.id,same.sync,?_⟩ tail
      rw [← same.updates,hasBatch,numbered]
      simp [own]
  · rintro g' status syncError ⟨⟩

/-- The books say the same of two lists of writers that are one call each. -/
theorem same_writers {ws ws' : List (Writer K V)} (same : List.Forall₂ Writer.Same ws ws') :
    batchIds ws' = batchIds ws ∧ updatesOf ws' = updatesOf ws := by
  induction same with
  | nil => exact ⟨rfl,rfl⟩
  | @cons w w' ws ws' one _ ih =>
    have updates := one.updates
    constructor
    · cases batch : w.batch <;> cases batch' : w'.batch <;> simp_all [batchIds,one.id]
    · rw [updatesOf_cons,updatesOf_cons,updates,ih.2]

/-- The record of the group that is being committed is the next one of the books: its
callers are the first of those that wait. -/
theorem Front.Ledger.next (ledger : f.Ledger start groups waiting t) {g : Group K V}
    {members rest : List (Writer K V)} (commits : f.Commits g members rest) :
    ∃ own others, waiting = own ++ others ∧ List.Forall₂ Writer.Same own (members.filter (·.batch.isSome)) ∧
      List.Forall₂ Writer.Same others (rest.filter (·.batch.isSome)) ∧
      g.lastSequence = start.last + (updatesOf (groups ++ [own]).flatten).length ∧
      groupRecords start.last (groups ++ [own]) = groupRecords start.last groups ++ [(batchIds members,g.batch)] := by
  have queued := ledger.queue
  rw [commits.queue,List.filter_append] at queued
  have first := List.forall₂_take_append _ _ _ queued
  obtain ⟨ids,updates⟩ := same_writers first
  rw [batchIds_filter] at ids
  rw [updatesOf_filter] at updates
  have batch : g.batch = ⟨start.last + (updatesOf groups.flatten).length + 1,updatesOf members⟩ := by
    rw [← ledger.last,← commits.first,← commits.updates]
  refine ⟨_,_,(List.take_append_drop _ _).symm,first,List.forall₂_drop_append _ _ _ queued,?_,?_⟩
  · rw [commits.count,ledger.last,WriteBatch.count,commits.updates,updates]
    simp only [List.flatten_append,List.flatten_singleton,updatesOf_append,List.length_append]
    omega
  · rw [groupRecords_concat,ids,batch,updates]

theorem mem_of_same {ws ws' : List (Writer K V)} (same : List.Forall₂ Writer.Same ws ws') {w' : Writer K V}
    (member : w' ∈ ws') : ∃ w ∈ ws, w.Same w' := by
  induction same with
  | nil => cases member
  | cons one _ ih =>
    rcases List.mem_cons.mp member with rfl | later
    · exact ⟨_,by simp,one⟩
    · obtain ⟨w,inside,same⟩ := ih later
      exact ⟨w,by simp [inside],same⟩

theorem commitEvents_mono {sync sync' : Bool} (weaker : sync' = false → sync = false) (ids : List Nat)
    (b : WriteBatch K V) : (commitEvents sync ids b).Sublist (commitEvents sync' ids b) := by
  cases sync' with
  | false =>
    rw [weaker rfl]
  | true =>
    cases sync with
    | false => simp [commitEvents]
    | true => exact List.Sublist.refl _

theorem Front.Ledger.finish (ledger : f.Ledger start groups waiting t) (queue : f.Queue) {g : Group K V}
    {status : Status} {syncError : Bool} {events : List (Event K V)}
    (before : f.leader = some (.finishing g status syncError)) (quiet : ∀ e ∈ events, e.quiet = true) :
    ∃ groups' waiting', Front.Ledger { f with
      writers := (splitGroup g.lastWriter f.writers).2
      leader := none
      tmpBatch := if g.inTmp then ⟨0,[]⟩ else f.tmpBatch
      last := g.lastSequence
      bgError := f.bgError || syncError
      trace := f.trace ++ events ++ returns status g.batch.sequence (f.members g) } start groups' waiting'
      (t ++ (events ++ returns status g.batch.sequence (f.members g))) := by
  obtain ⟨members,rest,commits⟩ := queue.group g (by rw [before]; rfl)
  have split := commits.split queue.ids
  have isMembers : f.members g = members := by rw [Front.members,split]
  obtain ⟨rfl,rfl⟩ := ledger.status g status syncError before
  have silent := Silent.of_quiet quiet
  obtain ⟨noCallers,noRecords,noApplications⟩ :=
    returns_silent .ok g.batch.sequence members
  obtain ⟨own,others,isWaiting,first,later,last,isNext⟩ := ledger.next commits
  have noCaller : callers (events ++ returns .ok g.batch.sequence members) = [] := by
    rw [callers_append,silent.callers,noCallers,List.append_nil]
  have records := ledger.recorded
  have applications := ledger.inserted
  have stage := ledger.stage
  simp only [Front.logged,Front.applied,Front.committing,before,isMembers] at records applications stage
  rw [isMembers]
  refine ⟨groups ++ [own],others,?_,?_,?_,?_,?_,?_,?_,last,List.nil_sublist _,?_,?_,?_⟩
  · simp only [ledger.trace,List.append_assoc]
  · rw [callers_append,noCaller,List.append_nil,ledger.entered,isWaiting]
    simp
  · simp only [split]
    exact later
  · rw [callers_append,noCaller,List.append_nil]
    exact ledger.distinct
  · rw [records_append,records_append,silent.records,noRecords,records,isNext]
    simp [Front.logged]
  · rw [applications_append,applications_append,silent.applications,noApplications,applications,isNext]
    simp [Front.applied]
  · rw [records_append,records_append,silent.records,noRecords,List.append_nil,List.append_nil]
    exact ledger.history
  · refine ledger.returned.append (EachAfter.of_mem fun middle e member => ?_)
    refine Acknowledges.mono ?_ middle
    rcases List.mem_append.mp member with old | new
    · exact silent.returned e old t
    -- a member returns, and its group is committed
    obtain ⟨w,inside,n,rfl⟩ := mem_returns new
    cases batch : w.batch with
    | none => trivial
    | some b =>
      obtain ⟨caller,isCaller,same⟩ := mem_of_same first (List.mem_filter.mpr ⟨inside,by simp [batch]⟩)
      refine ⟨rfl,⟨caller,?_,same.id.symm,same.sync.symm,?_⟩,batchIds members,g.batch,?_,?_⟩
      · rw [ledger.entered,isWaiting]
        simp [isCaller]
      · rw [← same.updates,batch]
        rfl
      · exact mem_batchIds inside (by simp [batch])
      · exact (commitEvents_mono (fun none => commits.sync none w inside) _ _).trans stage
  · rintro g' status syncError ⟨⟩
  · simp only [ledger.bgError,Bool.or_false]

/-- A step of the queue without a failure. -/
theorem Front.Ledger.step (ledger : f.Ledger start groups waiting t) (queue : f.Queue) (step : f.Step o false f') :
    ∃ groups' waiting' t', f'.Ledger start groups' waiting' t' := by
  have stays : ∀ bgError, bgError = f.bgError ∨ false = true → bgError = false := by
    intro bgError error
    rw [error.resolve_right (by simp),ledger.bgError]
  cases step with
  | other events bgError quiet error =>
    have silent := Silent.of_quiet quiet
    refine ⟨_,_,_,ledger.extend events rfl rfl rfl ?_ silent.callers silent.returned ?_ ?_
      (ledger.stage.trans (List.sublist_append_left _ _)) ledger.status (stays bgError error)⟩
    · simp [silent.records]
    · simp only [silent.records,List.append_nil]
      rfl
    · simp only [silent.applications,List.append_nil]
      rfl
  | enter id batch sync fresh =>
    obtain ⟨waiting',next⟩ := ledger.enter queue id batch sync fresh
    exact ⟨_,_,_,next⟩
  | room force delay events bgError before writers quiet error =>
    have silent := Silent.of_quiet quiet
    have nothing : f.logged = [] ∧ f.applied = [] := by
      rcases before with none | room
      · simp only [Front.logged,Front.applied,none]
        trivial
      · exact room.nothing
    refine ⟨_,_,_,ledger.extend events rfl rfl rfl ?_ silent.callers silent.returned ?_ ?_ (List.nil_sublist _)
      ?_ (stays bgError error)⟩
    · simp [silent.records]
    · simp only [silent.records,nothing]
      rfl
    · simp only [silent.applications,nothing]
      rfl
    · rintro g status syncError ⟨⟩
  | leave w rest status before writers outcome =>
    rcases outcome with ⟨-,noBatch⟩ | ⟨-,error | failed⟩
    · exact ⟨_,_,_,ledger.leave status before writers noBatch⟩
    · rw [ledger.bgError] at error
      cases error
    · cases failed
  | start w rest b batch g before writers hasBatch group numbered =>
    exact ⟨_,_,_,ledger.begin (queue.idle before.group) before writers hasBatch group numbered⟩
  | log g number before =>
    have nothing : f.logged = [] ∧ f.applied = [] ∧ f.committing = [] := by
      simp only [Front.logged,Front.applied,Front.committing,before]
      trivial
    obtain ⟨logged,applied,committing⟩ := nothing
    refine ⟨_,_,_,ledger.event (.logged (batchIds (f.members g)) g.batch) rfl rfl rfl (by simp; rfl) rfl
      (fun _ => trivial) ?_ ?_ ?_ ?_ ledger.bgError⟩
    · rw [logged]
      cases sync : f.leaderSync <;> rfl
    · rw [applied]
      cases sync : f.leaderSync <;> rfl
    · rw [committing]
      cases sync : f.leaderSync with
      | true => exact List.Sublist.refl _
      | false =>
        have noSync : Front.leaderSync { f with
            leader := some (.inserting g)
            history := f.history ++ [(number,g.batch)]
            trace := f.trace ++ [.logged (batchIds (f.members g)) g.batch] } = false := sync
        simp only [Front.committing,Bool.false_eq_true,if_false,noSync]
        exact List.Sublist.refl _
    · intro g' status syncError leader
      cases sync : f.leaderSync <;> simp [sync] at leader
  | logLost g before failed => cases failed
  | logFails g before failed => cases failed
  | logLate g number before failed => cases failed
  | sync g before =>
    refine ⟨_,_,_,ledger.event .synced rfl rfl rfl (by simp [records,Event.record]) rfl (fun _ => trivial)
      ?_ ?_ ?_ (by rintro g' status syncError ⟨⟩) ledger.bgError⟩
    · simp only [Front.logged,before]
      rfl
    · simp only [Front.applied,before]
      rfl
    · simp only [Front.committing,before]
      cases Front.leaderSync { f with leader := some (.inserting g), trace := f.trace ++ [.synced] } with
      | true => exact List.Sublist.refl _
      | false => exact List.sublist_append_left _ _
  | syncFails g before failed => cases failed
  | insert g before =>
    refine ⟨_,_,_,ledger.event (.applied (batchIds (f.members g)) g.batch) rfl rfl rfl
      (by simp [records,Event.record]) rfl (fun _ => trivial) ?_ ?_ ?_ ?_ ledger.bgError⟩
    · simp only [Front.logged,before]
      rfl
    · simp only [Front.applied,before]
      rfl
    · simp only [Front.committing,before]
      exact List.Sublist.refl _
    · rintro g' status syncError ⟨⟩
      exact ⟨rfl,rfl⟩
  | finish g status syncError events before quiet =>
    obtain ⟨groups',waiting',next⟩ := ledger.finish queue before quiet
    exact ⟨_,_,_,next⟩

end Steps

/-- What the events of a session say of its callers and records, where `last` is the last
sequence number before it. -/
structure GroupCommits (last : Nat) (t : List (Event K V)) : Prop where
  distinct : ((callers t).map (·.id)).Nodup
  /-- The records are those of groups of callers, in the order in which they entered. -/
  grouped : ∃ groups waiting, callers t = groups.flatten ++ waiting ∧ records t = groupRecords last groups
  applied : applications t <+: records t
  /-- No caller is in two records. -/
  once : (records t).flatMap (·.1) <+: (callers t).map (·.id)
  /-- The updates of a caller are numbered after those of the callers before it. -/
  numbered : ∀ before w after, callers t = before ++ w :: after → ∀ r ∈ records t, w.id ∈ r.1 →
    ∃ front back, r.2.updates = front ++ (w.batch.map (·.updates)).getD [] ++ back ∧
      r.2.sequence + front.length = last + 1 + (updatesOf before).length
  /-- No sequence number is skipped or used twice. -/
  sequences : ∃ n, (records t).flatMap (fun r => r.2.entries.map (·.sequence)) = List.range' (last + 1) n
  returned : EachAfter Acknowledges t

section Session
variable {o : Options K V} {start f f' : Front K V} {groups : List (List (Writer K V))} {waiting : List (Writer K V)}
  {t : List (Event K V)}

theorem callers_batch {w : Writer K V} (member : w ∈ callers t) : w.batch.isSome := by
  obtain ⟨e,-,isCaller⟩ := List.mem_filterMap.mp member
  cases e with
  | entered id b sync =>
    cases b with
    | none => cases isCaller
    | some b =>
      cases isCaller
      rfl
  | _ => cases isCaller

theorem batchIds_callers (t : List (Event K V)) : batchIds (callers t) = (callers t).map (·.id) := by
  rw [batchIds,← List.filterMap_eq_map]
  refine List.filterMap_congr fun w member => ?_
  obtain ⟨b,batch⟩ := Option.isSome_iff_exists.mp (callers_batch member)
  simp [batch]

/-- The books of a session, with the record that is being committed. -/
theorem Front.Ledger.grouped (ledger : f.Ledger start groups waiting t) (queue : f.Queue) :
    ∃ groups' waiting', callers t = groups'.flatten ++ waiting' ∧ records t = groupRecords start.last groups' := by
  have recorded := ledger.recorded
  have current : ∀ g, groupOf f.leader = some g → f.logged = [(batchIds (f.members g),g.batch)] →
      ∃ groups' waiting', callers t = groups'.flatten ++ waiting' ∧
        records t = groupRecords start.last groups' := by
    intro g group logged
    obtain ⟨members,rest,commits⟩ := queue.group g group
    obtain ⟨own,others,isWaiting,-,-,-,isNext⟩ := ledger.next commits
    refine ⟨groups ++ [own],others,?_,?_⟩
    · rw [ledger.entered,isWaiting]
      simp
    · rw [recorded,logged,isNext,Front.members,commits.split queue.ids]
  have before : f.logged = [] → ∃ groups' waiting', callers t = groups'.flatten ++ waiting' ∧
      records t = groupRecords start.last groups' := by
    intro nothing
    rw [nothing,List.append_nil] at recorded
    exact ⟨groups,waiting,ledger.entered,recorded⟩
  cases stage : f.leader with
  | none => exact before (by simp [Front.logged,stage])
  | some l =>
    rw [stage] at current
    cases l with
    | room force delay => exact before (by simp [Front.logged,stage])
    | logging g => exact before (by simp [Front.logged,stage])
    | syncing g => exact current g rfl (by simp [Front.logged,stage])
    | inserting g => exact current g rfl (by simp [Front.logged,stage])
    | finishing g status syncError => exact current g rfl (by simp [Front.logged,stage])

theorem Front.applied_logged (f : Front K V) : f.applied <+: f.logged := by
  cases stage : f.leader with
  | none => simp [Front.applied,stage]
  | some l => cases l <;> simp [Front.applied,Front.logged,stage]

theorem Front.Ledger.commits (ledger : f.Ledger start groups waiting t) (queue : f.Queue) :
    GroupCommits start.last t := by
  obtain ⟨groups',waiting',isCallers,isRecords⟩ := ledger.grouped queue
  have distinct := ledger.distinct
  refine ⟨?_,⟨groups',waiting',isCallers,isRecords⟩,?_,?_,?_,?_,ledger.returned⟩
  · rw [← batchIds_callers]
    exact distinct
  · rw [ledger.inserted,ledger.recorded]
    exact (List.prefix_append_right_inj _).mpr f.applied_logged
  · rw [isRecords,groupRecords_ids,← batchIds_callers,isCallers,batchIds_append]
    exact List.prefix_append _ _
  · intro before w after split r member inside
    have isCaller : w ∈ callers t := by simp [split]
    rw [isCallers] at distinct split
    rw [isRecords] at member
    exact groupRecords_updates distinct split (callers_batch isCaller) member inside
  · exact ⟨_,by rw [isRecords,groupRecords_sequences]⟩

/-- A session begins with an empty queue. -/
theorem Front.ledger_start (start : Front K V) (empty : start.writers = []) (leader : start.leader = none) (bgError : start.bgError = false) :
    start.Ledger start [] [] [] := by
  have nothing : start.logged = [] ∧ start.applied = [] ∧ start.committing = [] := by
    simp [Front.logged,Front.applied,Front.committing,leader]
  obtain ⟨logged,applied,committing⟩ := nothing
  refine ⟨by simp,rfl,by simp [empty],List.nodup_nil,by simp [logged,records,groupRecords],
    by simp [applied,applications,groupRecords],by simp [records],rfl,by simp [committing],EachAfter.nil,?_,bgError⟩
  intro g status syncError inside
  rw [leader] at inside
  cases inside

end Session

/-- No caller is in `Write`. -/
structure Db.Quiescent (db : Db K V) : Prop where
  writers : db.writers = []
  leader : db.leader = none
  tmpBatch : db.tmpBatch = ⟨0,[]⟩
  bgError : db.bgError = false

section Runs
variable [LinearOrder K] {o : Options K V} {s₀ s s' : State K V} {db₀ db : Db K V} {l : Label K V}

/-- `DB::Open` leaves nobody in the queue. -/
theorem stepOpen_quiescent (step : s.stepOpen o l = some s') (running : s'.process = .running db) : db.Quiescent := by
  obtain ⟨versions,log,c,-,rfl⟩ := stepOpen_running step running
  obtain ⟨job,rfl,-⟩ := removeObsoleteFiles_running running
  exact ⟨rfl,rfl,rfl,rfl⟩

omit [LinearOrder K] in
theorem Db.Quiescent.queue (quiescent : db.Quiescent) (s : State K V) : (s.front db).Queue := by
  have empty : (s.front db).writers = [] := quiescent.writers
  have leader : (s.front db).leader = none := quiescent.leader
  refine ⟨by simp [empty],fun _ => quiescent.tmpBatch,?_,?_⟩
  · intro g group
    rw [leader] at group
    cases group
  · intro w member
    rw [empty] at member
    cases member

/-- The memtable holds what was applied since it was made. -/
def Db.Holds (db₀ db : Db K V) (t : List (Event K V)) : Prop :=
  ∃ old recent base, applications t = old ++ recent ∧ (old = [] ∧ base = db₀.mem ∨ base = []) ∧
    db.mem = recent.foldl (fun mem r => r.2.insertInto mem) base

/-- A step inserts into the memtable what it says it applies, or the memtable is switched. -/
def Db.Inserts (db db' : Db K V) (events : List (Event K V)) : Prop :=
  applications events = [] ∧ (db'.mem = db.mem ∨ db'.mem = []) ∨
    ∃ ids b, applications events = [(ids,b)] ∧ db'.mem = b.insertInto db.mem

theorem startGroup_inserts (step : s.startGroup o db = some s') : ∃ db' events, s'.process = .running db' ∧
    s'.trace = s.trace ++ events ∧ db.Inserts db' events := by
  obtain ⟨w,rest,-,⟨-,rfl⟩ | ⟨b,-,-,rfl⟩⟩ := startGroup_cases step
  · exact ⟨_,_,rfl,rfl,.inl ⟨(returns_silent ..).2.2,.inl rfl⟩⟩
  · refine ⟨_,[],rfl,(List.append_nil _).symm,.inl ⟨rfl,.inl ?_⟩⟩
    cases (buildBatchGroup o db.tmpBatch.updates w b rest).inTmp <;> rfl

theorem makeRoom_inserts {newFile close : Status} (same : s.process = .running db)
    (step : s.makeRoom o db newFile close = some s') : ∃ db' events, s'.process = .running db' ∧
    s'.trace = s.trace ++ events ∧ db.Inserts db' events := by
  obtain ⟨force,delay,w,rest,-,-,⟨-,rfl⟩ | ⟨-,rfl⟩ | ⟨-,-,start⟩ | rfl | ⟨-,-,-,rfl⟩⟩ := makeRoom_cases step
  · exact ⟨_,_,rfl,rfl,.inl ⟨(returns_silent ..).2.2,.inl rfl⟩⟩
  · exact ⟨_,[],rfl,(List.append_nil _).symm,.inl ⟨rfl,.inl rfl⟩⟩
  · exact startGroup_inserts start
  · exact ⟨db,[],same,(List.append_nil _).symm,.inl ⟨rfl,.inl rfl⟩⟩
  · simp only [State.switchMemTable]
    split
    · exact ⟨_,_,rfl,rfl,.inl ⟨rfl,.inr rfl⟩⟩
    · rw [State.recordBackgroundError]
      split
      · exact ⟨_,_,rfl,rfl,.inl ⟨rfl,.inr rfl⟩⟩
      · exact ⟨_,_,rfl,List.append_assoc ..,.inl ⟨rfl,.inr rfl⟩⟩

theorem stepDb_inserts (same : s.process = .running db) (step : s.stepDb o db l = some s') :
    ∃ db' events, s'.process = .running db' ∧ s'.trace = s.trace ++ events ∧ db.Inserts db' events := by
  cases background : l.background with
  | true =>
    obtain ⟨db',after⟩ := background_step same background step
    obtain ⟨events,trace,isBackground⟩ := after.events
    have silent := Silent.of_quiet fun e member => Event.quiet_of_background (isBackground e member)
    exact ⟨db',events,after.process,trace,.inl ⟨silent.applications,.inl after.same.mem⟩⟩
  | false =>
    cases l with
    | enter id batch sync =>
      simp only [State.stepDb,State.enter] at step
      split at step <;> cases step
      exact ⟨_,_,rfl,rfl,.inl ⟨rfl,.inl rfl⟩⟩
    | lead =>
      simp only [State.stepDb,State.lead] at step
      split at step <;> cases step
      exact ⟨_,[],rfl,(List.append_nil _).symm,.inl ⟨rfl,.inl rfl⟩⟩
    | makeRoom newFile close => exact makeRoom_inserts same step
    | addRecord outcome =>
      obtain ⟨g,-,⟨-,rfl⟩ | ⟨-,rfl⟩ | ⟨-,rfl⟩ | ⟨-,-,rfl⟩⟩ := addRecord_cases step
      · exact ⟨_,_,rfl,rfl,.inl ⟨rfl,.inl rfl⟩⟩
      · exact ⟨_,_,rfl,rfl,.inl ⟨rfl,.inl rfl⟩⟩
      · exact ⟨_,[],rfl,(List.append_nil _).symm,.inl ⟨rfl,.inl rfl⟩⟩
      · exact ⟨_,_,rfl,rfl,.inl ⟨rfl,.inl rfl⟩⟩
    | syncLog status =>
      simp only [State.stepDb,State.syncLog] at step
      split at step
      · split at step <;> cases step
        · exact ⟨_,_,rfl,rfl,.inl ⟨rfl,.inl rfl⟩⟩
        · exact ⟨_,[],rfl,(List.append_nil _).symm,.inl ⟨rfl,.inl rfl⟩⟩
      · cases step
    | insertInto =>
      simp only [State.stepDb,State.insertInto] at step
      split at step <;> cases step
      exact ⟨_,_,rfl,rfl,.inr ⟨_,_,rfl,rfl⟩⟩
    | finishWrite =>
      simp only [State.stepDb,State.finishWrite] at step
      split at step
      · rename_i g status syncError leader
        cases step
        cases recorded : syncError && !db.bgError with
        | true => exact ⟨_,.errorRecorded :: returns _ _ _,rfl,List.append_assoc ..,.inl ⟨(returns_silent ..).2.2,.inl rfl⟩⟩
        | false => exact ⟨_,_,rfl,rfl,.inl ⟨(returns_silent ..).2.2,.inl rfl⟩⟩
      · cases step
    | getSnapshot =>
      cases step
      exact ⟨_,[],rfl,(List.append_nil _).symm,.inl ⟨rfl,.inl rfl⟩⟩
    | releaseSnapshot snapshot =>
      cases step
      exact ⟨_,[],rfl,(List.append_nil _).symm,.inl ⟨rfl,.inl rfl⟩⟩
    | awaitFlush id =>
      simp only [State.stepDb,State.awaitFlush] at step
      split at step <;> cases step
      exact ⟨_,_,rfl,rfl,.inl ⟨rfl,.inl rfl⟩⟩
    | requestCompaction level first last =>
      simp only [State.stepDb,State.requestCompaction] at step
      split at step <;> cases step
      exact ⟨_,[],rfl,(List.append_nil _).symm,.inl ⟨rfl,.inl rfl⟩⟩
    | crash cut => cases step
    | openDb => cases step
    | newDb => cases step
    | recover => cases step
    | replay => cases step
    | openCommit => cases step
    | _ => cases background

theorem Db.Holds.inserts {db' : Db K V} {t events : List (Event K V)} (holds : db₀.Holds db t)
    (inserts : db.Inserts db' events) : db₀.Holds db' (t ++ events) := by
  obtain ⟨old,recent,base,split,isBase,mem⟩ := holds
  rcases inserts with ⟨none,same | empty⟩ | ⟨ids,b,applied,inserted⟩
  · exact ⟨old,recent,base,by rw [applications_append,none,List.append_nil,split],isBase,same.trans mem⟩
  · exact ⟨old ++ recent,[],[],by rw [applications_append,none,split],.inr rfl,empty⟩
  · refine ⟨old,recent ++ [(ids,b)],base,?_,isBase,?_⟩
    · rw [applications_append,applied,split,List.append_assoc]
    · rw [inserted,mem,List.foldl_append,List.foldl_cons,List.foldl_nil]

/-- The session so far. -/
structure State.Session (s₀ s : State K V) (db₀ db : Db K V) (t : List (Event K V)) : Prop where
  running : s.process = .running db
  trace : s.trace = s₀.trace ++ t
  queue : (s.front db).Queue
  ledger : ∃ groups waiting, (s.front db).Ledger (s₀.front db₀) groups waiting t
  holds : db₀.Holds db t

theorem State.Session.step {t : List (Event K V)} (session : s₀.Session s db₀ db t) (okay : l.ok = true)
    (noCrash : ∀ cut, l ≠ .crash cut) (step : s.step o l = some s') : ∃ db' t', s₀.Session s' db₀ db' t' := by
  rcases step_cases step with ⟨cut,crash,-⟩ | ⟨db₁,running,taken⟩ | ⟨closed,-⟩
  · exact absurd crash (noCrash cut)
  · have same : db₁ = db := by
      rw [session.running] at running
      cases running
      rfl
    subst same
    obtain ⟨db',process,front⟩ := front_step running taken
    rw [okay] at front
    obtain ⟨groups,waiting,ledger⟩ := session.ledger
    obtain ⟨groups',waiting',t',next⟩ := ledger.step session.queue front
    have trace : s'.trace = s₀.trace ++ t' := next.trace
    obtain ⟨db'',events,process',events',inserts⟩ := stepDb_inserts running taken
    rw [process] at process'
    cases process'
    have isTail : t' = t ++ events := by
      rw [trace,session.trace,List.append_assoc] at events'
      exact List.append_cancel_left events'
    refine ⟨db',t',process,trace,session.queue.step front,⟨groups',waiting',next⟩,?_⟩
    rw [isTail]
    exact session.holds.inserts inserts
  · exact absurd session.running (closed db)

theorem State.Session.run {t : List (Event K V)} {ls : List (Label K V)} (session : s₀.Session s db₀ db t)
    (okay : ∀ l ∈ ls, l.ok = true) (noCrash : ∀ l ∈ ls, ∀ cut, l ≠ .crash cut) (run : s.run o ls = some s') :
    ∃ db' t', s₀.Session s' db₀ db' t' := by
  induction ls generalizing s db t with
  | nil =>
    cases run
    exact ⟨db,t,session⟩
  | cons l rest ih =>
    obtain ⟨next,step,later⟩ := Option.bind_eq_some_iff.mp run
    obtain ⟨db',t',after⟩ := session.step (okay l (by simp)) (noCrash l (by simp)) step
    exact ih after (fun l hl => okay l (by simp [hl])) (fun l hl => noCrash l (by simp [hl])) later

theorem State.Session.begin (running : s₀.process = .running db₀) (quiescent : db₀.Quiescent) :
    s₀.Session s₀ db₀ db₀ [] := by
  have ledger := Front.ledger_start (s₀.front db₀) quiescent.writers quiescent.leader quiescent.bgError
  exact ⟨running,(List.append_nil _).symm,quiescent.queue s₀,⟨[],[],ledger⟩,[],[],db₀.mem,rfl,.inl ⟨rfl,rfl⟩,rfl⟩

end Runs

end LevelDB
