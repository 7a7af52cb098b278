import LevelDB.SnapshotReads
import LevelDB.SyncedWrites

/-! What is recovered after a crash, as a part of the history. Each log loses a tail of its own,
so the recovered batches are the first ones of the history only where no log in front of others
can lose anything. -/
namespace LevelDB

variable {K V : Type} [LinearOrder K]

/-- If nothing is kept of a part unless the parts before it are whole, the parts kept are a
prefix of all of them. -/
theorem prefix_flatMap {A B : Type} (list : List A) (kept whole : A → List B)
    (front : ∀ a ∈ list, kept a <+: whole a) (full : list.Pairwise fun a b => kept b ≠ [] → kept a = whole a) :
    list.flatMap kept <+: list.flatMap whole := by
  induction list with
  | nil => exact List.prefix_rfl
  | cons a rest ih =>
    obtain ⟨first,later⟩ := List.pairwise_cons.mp full
    simp only [List.flatMap_cons]
    by_cases same : kept a = whole a
    · simp only [same]
      exact (List.prefix_append_right_inj _).mpr (ih (fun b member => front b (List.mem_cons_of_mem a member)) later)
    · have none : rest.flatMap kept = [] := by
        apply List.flatMap_eq_nil_iff.mpr
        intro b member
        by_contra some
        exact same (first b member some)
      simp only [none,List.append_nil]
      exact (front a List.mem_cons_self).trans (List.prefix_append _ _)

section Histories
variable {h h' : History K V}

omit [LinearOrder K] in
theorem History.exists_bound (h : History K V) : ∃ n, ∀ r ∈ h, r.1 < n := by
  induction h with
  | nil => exact ⟨0,by rintro r ⟨⟩⟩
  | cons r rest ih =>
    obtain ⟨n,bound⟩ := ih
    refine ⟨max (r.1 + 1) n,?_⟩
    intro r' member
    rcases List.mem_cons.mp member with rfl | later
    · omega
    · have := bound r' later
      omega

omit [LinearOrder K] in
theorem flatMap_range (sorted : h.Pairwise fun a b => a.1 ≤ b.1) {n : Nat} (bound : ∀ r ∈ h, r.1 < n) :
    (List.range n).flatMap h.inLog = h := by
  rw [flatMap_inLog sorted _ List.pairwise_lt_range]
  apply List.filter_eq_self.mpr
  intro r member
  simpa using bound r member

omit [LinearOrder K] in
/-- A history is a prefix of another log by log. -/
theorem prefix_of_inLog (sorted' : h'.Pairwise fun a b => a.1 ≤ b.1) (sorted : h.Pairwise fun a b => a.1 ≤ b.1)
    (front : ∀ n, h'.inLog n <+: h.inLog n) (full : ∀ i j, i < j → h'.inLog j ≠ [] → h'.inLog i = h.inLog i) :
    h' <+: h := by
  obtain ⟨n,bound⟩ := History.exists_bound (h' ++ h)
  have all := prefix_flatMap (List.range n) h'.inLog h.inLog (fun i _ => front i)
    (List.pairwise_lt_range.imp fun lt => full _ _ lt)
  rw [flatMap_range sorted' fun r member => bound r (List.mem_append_left h member),
    flatMap_range sorted fun r member => bound r (List.mem_append_right h' member)] at all
  exact all

omit [LinearOrder K] in
/-- A prefix has all of a log that comes before one of which it has something. -/
theorem inLog_of_prefix (sorted : h.Pairwise fun a b => a.1 ≤ b.1) (front : h' <+: h) {i j : Nat} (order : i < j)
    (later : h'.inLog j ≠ []) : h'.inLog i = h.inLog i := by
  obtain ⟨rest,rfl⟩ := front
  obtain ⟨r,member⟩ := List.exists_mem_of_ne_nil _ later
  obtain ⟨inside,same⟩ := List.mem_filter.mp member
  have beyond : History.inLog rest i = [] := by
    apply inLog_eq_nil
    intro r' after same'
    have := (List.pairwise_append.mp sorted).2.2 r inside r' after
    simp only [decide_eq_true_eq] at same
    omega
  rw [inLog_append,beyond,List.append_nil]

end Histories

section Crash
variable {d : Disk K V} {h : History K V} {number : Nat} {m : ManifestFile K V}

/-- The oldest log that is needed where the manifest is cut to what was synced. -/
def Disk.oldestLog (d : Disk K V) : Nat :=
  ((d.current.bind d.manifests).map fun m => (m.upTo m.synced).log).getD 0

/-- Where a log has records, the logs before it that may be needed are synced, with all that
was ever written to them. -/
def Disk.Settled (d : Disk K V) (h : History K V) : Prop :=
  ∀ r ∈ h, d.oldestLog ≤ r.1 → (∃ l ∈ d.logs, r.1 < l.number ∧ l.records ≠ []) →
    ∃ l ∈ d.logs, l.number = r.1 ∧ (h.inLog r.1).length ≤ l.synced

theorem Disk.Ok.oldestLog (ok : d.Ok h number m) : d.oldestLog = (m.upTo m.synced).log := by
  simp [Disk.oldestLog,ok.current,ok.manifest]

theorem Disk.Ok.oldestLog_le (ok : d.Ok h number m) (cut : Cut) :
    d.oldestLog ≤ Disk.logAfter m (cut (.manifest number)) := by
  have length := cut_length m (cut (.manifest number)) ok.synced
  rw [ok.oldestLog,Disk.logAfter,cut_upTo m _ _ le_rfl]
  exact ok.forward _ _ le_rfl length.1 length.2

/-- What is recovered of a log that the manifest still needs: the records left in it. -/
theorem Disk.Ok.crash_inLog (ok : d.Ok h number m) (cut : Cut) {l : LogFile K V} (member : l ∈ d.logs)
    (needed : Disk.logAfter m (cut (.manifest number)) ≤ l.number) :
    (d.crash cut).history.inLog l.number = (l.records.take (max l.synced (cut (.log l.number)))).map (l.number,·) := by
  have crashed := ok.crash cut
  have inside : l.cut (cut (.log l.number)) ∈ (d.crash cut).logs := List.mem_map_of_mem member
  exact (crashed.whole _ inside needed).symm

theorem Disk.Ok.crash_inLog_before (ok : d.Ok h number m) (cut : Cut) {n : Nat}
    (covered : n < Disk.logAfter m (cut (.manifest number))) : (d.crash cut).history.inLog n = h.inLog n := by
  have none : ((d.crash cut).logHistory (Disk.logAfter m (cut (.manifest number)))).inLog n = [] := by
    apply inLog_eq_nil
    intro r member same
    obtain ⟨l,inside,number',-⟩ := mem_logRecords.mp member
    have late := (List.mem_filter.mp inside).2
    simp only [decide_eq_true_eq] at late
    omega
  rw [ok.crash_history cut,inLog_append,none,List.append_nil,History.before_inLog h covered]

/-- Of a log that is not there nothing is recovered. -/
theorem Disk.Ok.crash_inLog_missing (ok : d.Ok h number m) (cut : Cut) {n : Nat}
    (needed : Disk.logAfter m (cut (.manifest number)) ≤ n) (missing : ∀ l ∈ d.logs, l.number ≠ n) :
    (d.crash cut).history.inLog n = [] := by
  apply inLog_eq_nil
  intro r member same
  obtain ⟨l,inside,number'⟩ := (ok.crash cut).present r member (same ▸ needed)
  obtain ⟨old,there,-,sameNumber,-⟩ := mem_crash_logs inside
  exact missing old there (sameNumber.symm.trans (number'.trans same))

theorem Disk.Ok.crash_inLog_front (ok : d.Ok h number m) (cut : Cut) (n : Nat) :
    (d.crash cut).history.inLog n <+: h.inLog n := by
  by_cases covered : n < Disk.logAfter m (cut (.manifest number))
  · rw [ok.crash_inLog_before cut covered]
  have needed := not_lt.mp covered
  by_cases there : ∃ l ∈ d.logs, l.number = n
  · obtain ⟨l,member,rfl⟩ := there
    have oldest := ok.oldestLog_le cut
    rw [ok.oldestLog] at oldest
    rw [ok.crash_inLog cut member needed]
    have taken := List.take_prefix (max l.synced (cut (.log l.number))) l.records
    exact (taken.map _).trans (ok.part l member (oldest.trans needed))
  · rw [ok.crash_inLog_missing cut needed fun l member same => there ⟨l,member,same⟩]
    exact List.nil_prefix

/-- After every crash the first batches of the history are recovered if and only if the logs
that may be needed are settled. -/
theorem Disk.Ok.crash_prefix_iff (ok : d.Ok h number m) : (∀ cut, (d.crash cut).history <+: h) ↔ d.Settled h := by
  constructor
  · rintro all r member needed ⟨l,there,later,some⟩
    -- the later log keeps all its records, everything else is cut as far as a crash can
    let cut : Cut := fun f => if f = .log l.number then l.records.length else 0
    have least : Disk.logAfter m (cut (.manifest number)) = d.oldestLog := by
      have zero : cut (.manifest number) = 0 := rfl
      have length : (m.cut 0).records.length = m.synced := by
        simp only [ManifestFile.cut,List.length_take]
        have := ok.synced
        omega
      rw [zero,ok.oldestLog,Disk.logAfter,length,cut_upTo m 0 _ length.ge]
    have kept : (d.crash cut).history.inLog l.number ≠ [] := by
      have own : cut (.log l.number) = l.records.length := if_pos rfl
      rw [ok.crash_inLog cut there (by omega),own,List.take_of_length_le (le_max_right _ _)]
      simpa using some
    have whole := inLog_of_prefix ok.ordered.numbers (all cut) later kept
    have inside : r ∈ h.inLog r.1 := List.mem_filter.mpr ⟨member,by simp⟩
    by_cases missing : ∃ l ∈ d.logs, l.number = r.1
    · obtain ⟨first,isLog,same⟩ := missing
      refine ⟨first,isLog,same,?_⟩
      have other : cut (.log first.number) = 0 := if_neg (by simp only [FileName.log.injEq]; omega)
      rw [← whole,← same,ok.crash_inLog cut isLog (by omega),other,List.length_map,List.length_take]
      omega
    · have none := ok.crash_inLog_missing cut (least.trans_le needed) fun l isLog same => missing ⟨l,isLog,same⟩
      rw [← whole,none] at inside
      cases inside
  · intro settled cut
    apply prefix_of_inLog (ok.crash cut).ordered.numbers ok.ordered.numbers (ok.crash_inLog_front cut)
    intro i j order some
    by_cases covered : i < Disk.logAfter m (cut (.manifest number))
    · exact ok.crash_inLog_before cut covered
    have needed := not_lt.mp covered
    have front := ok.crash_inLog_front cut i
    cases batches : h.inLog i with
    | nil =>
      rw [batches] at front
      exact List.prefix_nil.mp front
    | cons r rest =>
      obtain ⟨member,same⟩ := List.mem_filter.mp (batches ▸ List.mem_cons_self : r ∈ h.inLog i)
      simp only [decide_eq_true_eq] at same
      subst same
      have there : ∃ l ∈ d.logs, l.number = j := by
        by_contra missing
        exact some (ok.crash_inLog_missing cut (by omega) fun l isLog same => missing ⟨l,isLog,same⟩)
      obtain ⟨later,isLater,rfl⟩ := there
      have records : later.records ≠ [] := by
        rintro none
        rw [ok.crash_inLog cut isLater (by omega),none] at some
        simp at some
      have oldest := ok.oldestLog_le cut
      obtain ⟨l,isLog,number',synced⟩ := settled r member (oldest.trans needed) ⟨later,isLater,order,records⟩
      rw [← number'] at needed front synced ⊢
      rw [← batches,← number']
      apply front.eq_of_length_le
      have bound := ok.bounded l isLog
      rw [ok.crash_inLog cut isLog needed,List.length_map,List.length_take]
      omega

end Crash

section Opening
variable {o : Options K V} {s s' : State K V} {l : Label K V} {ls : List (Label K V)}

def Label.opens : Label K V → Bool
  | .openDb => true
  | .newDb => true
  | .recover => true
  | .replay => true
  | .openCommit => true
  | _ => false

/-- `DB::Open` writes no batches: what the logs had is in them or in tables. -/
theorem stepOpen_history (step : s.stepOpen o l = some s') : s'.history = s.history := by
  cases l with
  | openDb =>
    simp only [State.stepOpen,State.openDb] at step
    split at step
    · cases step
      split <;> rfl
    · cases step
  | newDb =>
    simp only [State.stepOpen,State.newDb] at step
    split at step <;> cases step
    · rfl
    · exact State.setCurrentFile_history
  | recover =>
    simp only [State.stepOpen,State.recover] at step
    split at step
    · cases step
      split
      · rfl
      · split <;> rfl
    · cases step
  | replay =>
    obtain ⟨r,process,outcome⟩ := replay_cases step
    obtain ⟨n,table,rfl⟩ | ⟨n,table,rfl⟩ | ⟨b,rest,table,records,rfl⟩ | ⟨table,-,-,rfl⟩ | ⟨n,rest,table,records,mem,logs,rfl⟩ |
      ⟨table,-,mem,logs,rfl⟩ := outcome
    · exact State.writeTable_history _ _ _
    · rfl
    · rfl
    · rfl
    · rfl
    · rfl
  | openCommit =>
    simp only [State.stepOpen,State.openCommit] at step
    split at step
    · split at step <;> cases step
      · rfl
      · rfl
      · rfl
      · exact State.setCurrentFile_history
      · simp only [State.removeObsoleteFiles]
        split <;> rfl
    · cases step
  | _ => cases step

/-- While the database is not open, a label of `DB::Open` is a step of it. -/
theorem step_opens (opens : l.opens = true) (closed : ∀ db, s.process ≠ .running db) :
    s.step o l = s.stepOpen o l := by
  cases process : s.process with
  | running db => exact absurd process (closed db)
  | down =>
    cases l with
    | crash cut => cases opens
    | _ => simp only [State.step,process]
  | opening p =>
    cases l with
    | crash cut => cases opens
    | _ => simp only [State.step,process]

/-- `stepDb` has no labels of `DB::Open`. -/
theorem stepDb_opens {db : Db K V} (opens : l.opens = true) : s.stepDb o db l = none := by
  cases l with
  | openDb => rfl
  | newDb => rfl
  | recover => rfl
  | replay => rfl
  | openCommit => rfl
  | _ => cases opens

theorem run_opens_history (opens : ∀ l ∈ ls, l.opens = true) (run : s.run o ls = some s') : s'.history = s.history := by
  induction ls generalizing s with
  | nil =>
    cases run
    rfl
  | cons l rest ih =>
    obtain ⟨next,step,run⟩ := Option.bind_eq_some_iff.mp run
    have later := ih (fun l member => opens l (List.mem_cons_of_mem _ member)) run
    have first := opens l List.mem_cons_self
    obtain ⟨cut,rfl,-⟩ | ⟨db,-,taken⟩ | ⟨-,taken⟩ := step_cases step
    · cases first
    · rw [stepDb_opens first] at taken
      cases taken
    · exact later.trans (stepOpen_history taken)

/-- Some run of `DB::Open` gets from here to an open database. -/
def State.Opens (o : Options K V) (s : State K V) : Prop :=
  ∃ ls, (∀ l ∈ ls, l.opens = true) ∧ ∃ t db, s.run o ls = some t ∧ t.process = .running db

theorem State.Opens.step (opens : s'.Opens o) (first : l.opens = true) (closed : ∀ db, s.process ≠ .running db)
    (step : s.stepOpen o l = some s') : s.Opens o := by
  obtain ⟨ls,labels,t,db,run,running⟩ := opens
  refine ⟨l :: ls,?_,t,db,?_,running⟩
  · intro l' member
    rcases List.mem_cons.mp member with rfl | later
    · exact first
    · exact labels l' later
  · simp only [State.run,step_opens first closed,step,Option.bind_some,run]

/-- The steps that a replay still takes, at most. -/
def Replay.left (d : Disk K V) (r : Replay K V) : Nat :=
  (match r.table with
    | some (_,.write) => 2
    | some (_,.sync) => 1
    | none => if r.mem.isSome then 3 else 0) +
    4 * r.records.length + r.logs.length + 4 * (r.logs.tail.flatMap d.recordsOf).length

theorem State.replay_isSome {r : Replay K V} (process : s.process = .opening (.replay r)) : (s.replay o).isSome := by
  cases table : r.table with
  | some t =>
    obtain ⟨n,stage⟩ := t
    cases stage with
    | write => simp [State.replay,process,table]
    | sync => simp [State.replay,process,table]
  | none =>
    cases records : r.records with
    | cons b rest => simp [State.replay,process,table,records]
    | nil =>
      cases mem : r.mem with
      | some entries => simp [State.replay,process,table,records,mem]
      | none =>
        cases logs : r.logs with
        | cons n rest => simp [State.replay,process,table,records,mem,logs]
        | nil => simp [State.replay,process,table,records,mem,logs]

omit [LinearOrder K] in
theorem withTable_recordsOf (d : Disk K V) (n : Nat) (entries : MemTable K V) (synced : Bool) :
    (d.withTable n entries synced).recordsOf = d.recordsOf := by
  rw [Disk.withTable]
  split <;> rfl

theorem Replay.left_insert (o : Options K V) (d : Disk K V) {r : Replay K V} {b : WriteBatch K V} {rest : List (WriteBatch K V)}
    (table : r.table = none) (records : r.records = b :: rest) : (r.insert o b rest).left d < r.left d := by
  by_cases full : o.writeBufferSize < o.memoryUsage (b.insertInto (r.mem.getD []))
  · simp only [Replay.insert,if_pos full,Replay.beginTable,Replay.left,table,records,List.length_cons]
    omega
  · simp only [Replay.insert,if_neg full,Replay.left,table,records,List.length_cons,Option.isSome_some,if_true]
    omega

/-- Each step of the replay leaves fewer to take, until the new log is made. -/
theorem State.replay_left {r : Replay K V} (process : s.process = .opening (.replay r)) (step : s.replay o = some s') :
    (∃ r', s'.process = .opening (.replay r') ∧ r'.left s'.disk < r.left s.disk) ∨
      ∃ versions log c, s'.process = .opening (.commit versions log c .create) := by
  obtain ⟨r₀,same,outcome⟩ := replay_cases step
  rw [process] at same
  cases same
  obtain ⟨n,table,rfl⟩ | ⟨n,table,rfl⟩ | ⟨b,rest,table,records,rfl⟩ | ⟨table,records,mem,rfl⟩ |
    ⟨n,rest,table,records,mem,logs,rfl⟩ | ⟨table,-,mem,logs,rfl⟩ := outcome
  · left
    refine ⟨_,State.writeTable_process _ _ _,?_⟩
    simp only [Replay.left,table,State.writeTable_disk,withTable_recordsOf]
    omega
  · left
    refine ⟨_,rfl,?_⟩
    simp only [Replay.left,table,withTable_recordsOf,Option.isSome_none,Bool.false_eq_true,if_false]
    omega
  · exact .inl ⟨_,rfl,Replay.left_insert o s.disk table records⟩
  · left
    refine ⟨_,rfl,?_⟩
    simp only [Replay.left,Replay.beginTable,table,mem,if_true]
    omega
  · left
    refine ⟨_,rfl,?_⟩
    cases rest with
    | nil => simp [Replay.left,table,records,mem,logs]
    | cons next rest =>
      simp only [Replay.left,table,records,mem,logs,List.length_cons,List.length_nil,List.tail_cons,List.head?_cons,
        Option.map_some,Option.getD_some,List.flatMap_cons,List.length_append,Option.isSome_none,Bool.false_eq_true,
        if_false]
      omega
  · exact .inr ⟨_,_,_,rfl⟩

/-- The operations of `SetCurrentFile` that are left, the present one with them. -/
def SetCurrent.left : SetCurrent → Nat
  | .create => 4
  | .write => 3
  | .sync => 2
  | .rename => 1

theorem SetCurrent.next_left {op next : SetCurrent} (isNext : op.next = some next) : next.left < op.left := by
  cases op <;> cases isNext <;> decide

def NewDbStage.left : NewDbStage → Nat
  | .sync => 5
  | .setCurrent op => op.left

def OpenStage.left : OpenStage → Nat
  | .create => 7
  | .append => 6
  | .sync => 5
  | .setCurrent op => op.left
  | .install => 0

omit [LinearOrder K] in
/-- Each step of `NewDB` leaves fewer to take. -/
theorem State.newDb_left {stage : NewDbStage} (process : s.process = .opening (.newDb stage)) :
    ∃ s', s.newDb = some s' ∧ (s'.process = .opening .recover ∨
      ∃ stage', s'.process = .opening (.newDb stage') ∧ stage'.left < stage.left) := by
  cases stage with
  | sync =>
    simp only [State.newDb,process]
    exact ⟨_,rfl,.inr ⟨_,rfl,by decide⟩⟩
  | setCurrent op =>
    simp only [State.newDb,process]
    cases isNext : op.next with
    | some next => exact ⟨_,rfl,.inr ⟨_,rfl,SetCurrent.next_left isNext⟩⟩
    | none => exact ⟨_,rfl,.inl rfl⟩

omit [LinearOrder K] in
/-- Each step of the commit leaves fewer to take, until the database is open. -/
theorem State.openCommit_left {versions : VersionSet K} {log : Nat} {c : Commit K} {stage : OpenStage}
    (process : s.process = .opening (.commit versions log c stage)) :
    ∃ s', s.openCommit = some s' ∧ ((∃ db, s'.process = .running db) ∨
      ∃ stage', s'.process = .opening (.commit versions log c stage') ∧ stage'.left < stage.left) := by
  cases stage with
  | create | append | sync =>
    simp only [State.openCommit,process]
    exact ⟨_,rfl,.inr ⟨_,rfl,by decide⟩⟩
  | setCurrent op =>
    simp only [State.openCommit,process]
    cases isNext : op.next with
    | some next => exact ⟨_,rfl,.inr ⟨_,rfl,SetCurrent.next_left isNext⟩⟩
    | none =>
      refine ⟨_,rfl,.inr ⟨.install,rfl,?_⟩⟩
      cases op with
      | rename => decide
      | create | write | sync => cases isNext
  | install =>
    simp only [State.openCommit,process]
    refine ⟨_,rfl,.inl ?_⟩
    simp only [State.removeObsoleteFiles,Db.new,Bool.false_eq_true,if_false]
    exact ⟨_,rfl⟩

theorem opens_commit {versions : VersionSet K} {log : Nat} {c : Commit K} {stage : OpenStage}
    (process : s.process = .opening (.commit versions log c stage)) : s.Opens o := by
  induction left : stage.left using Nat.strong_induction_on generalizing s stage with
  | _ n ih =>
    subst left
    have closed : ∀ db, s.process ≠ .running db := by
      intro db running
      rw [process] at running
      cases running
    obtain ⟨s',step,⟨db,running⟩ | ⟨stage',process',fewer⟩⟩ := State.openCommit_left process
    · exact State.Opens.step ⟨[],by simp,s',db,rfl,running⟩ (l := .openCommit) rfl closed step
    · exact (ih _ fewer process' rfl).step (l := .openCommit) rfl closed step

theorem opens_replay {r : Replay K V} (process : s.process = .opening (.replay r)) : s.Opens o := by
  induction left : r.left s.disk using Nat.strong_induction_on generalizing s r with
  | _ n ih =>
    subst left
    have closed : ∀ db, s.process ≠ .running db := by
      intro db running
      rw [process] at running
      cases running
    obtain ⟨s',step⟩ := Option.isSome_iff_exists.mp (State.replay_isSome (o := o) process)
    obtain ⟨r',process',fewer⟩ | ⟨versions,log,c,process'⟩ := State.replay_left process step
    · exact (ih _ fewer process' rfl).step (l := .replay) rfl closed step
    · exact (opens_commit process').step (l := .replay) rfl closed step

theorem State.Inv.opens_recover (inv : s.Inv) (process : s.process = .opening .recover) : s.Opens o := by
  have closed : ∀ db, s.process ≠ .running db := by
    intro db running
    rw [process] at running
    cases running
  have moves : (s.recover).isSome := by simp [State.recover,process]
  obtain ⟨s',step⟩ := Option.isSome_iff_exists.mp moves
  have after := inv.recover step
  refine State.Opens.step ?_ (l := .recover) rfl closed step
  simp only [State.recover,process,Option.some.injEq] at step
  split at step
  · subst step
    exact after.elim
  · split at step
    · subst step
      exact opens_replay rfl
    · subst step
      exact after.elim

theorem State.Inv.opens_newDb (inv : s.Inv) {stage : NewDbStage} (process : s.process = .opening (.newDb stage)) :
    s.Opens o := by
  induction left : stage.left using Nat.strong_induction_on generalizing s stage with
  | _ n ih =>
    subst left
    have closed : ∀ db, s.process ≠ .running db := by
      intro db running
      rw [process] at running
      cases running
    obtain ⟨s',step,process' | ⟨stage',process',fewer⟩⟩ := State.newDb_left process
    · exact ((inv.newDb step).opens_recover process').step (l := .newDb) rfl closed step
    · exact (ih _ fewer (inv.newDb step) process' rfl).step (l := .newDb) rfl closed step

/-- `DB::Open` finishes, from wherever a process that ended has left the files. -/
theorem State.Inv.opens (inv : s.Inv) (closed : ∀ db, s.process ≠ .running db) : s.Opens o := by
  cases process : s.process with
  | running db => exact absurd process (closed db)
  | down =>
    cases current : s.disk.currentFile with
    | none =>
      have step : s.openDb = some (State.note { s with
          disk := s.disk.setManifest 1 ⟨[⟨newDbEdit,[]⟩],0⟩
          process := .opening (.newDb .sync) } (.created (.manifest 1))) := by
        simp only [State.openDb,process,current]
      exact ((inv.openDb step).opens_newDb rfl).step (l := .openDb) rfl closed step
    | some file =>
      have step : s.openDb = some { s with process := .opening .recover } := by
        simp only [State.openDb,process,current]
      exact ((inv.openDb step).opens_recover rfl).step (l := .openDb) rfl closed step
  | opening p =>
    cases p with
    | newDb stage => exact inv.opens_newDb process
    | recover => exact inv.opens_recover process
    | replay r => exact opens_replay process
    | commit versions log c stage => exact opens_commit process
    | failed =>
      rw [State.Inv,process] at inv
      exact inv.elim

end Opening

/-- Every update of the history is visible, and the newest of a key is what is read. -/
structure Db.Shows (db : Db K V) (tables : Tables K V) (h : History K V) : Prop where
  visible : ∀ e ∈ h.set, e.sequence ≤ db.versions.lastSequence
  reads : ∀ user, Reads h.set user db.versions.lastSequence (db.get tables user db.versions.lastSequence)

section Recovered
variable {o : Options K V} {ls ls' : List (Label K V)} {s t : State K V} {db : Db K V}

omit [LinearOrder K] in
theorem Label.opens_ok {l : Label K V} (opens : l.opens = true) : l.ok = true ∧ l.automatic = true := by
  cases l with
  | openDb => exact ⟨rfl,rfl⟩
  | newDb => exact ⟨rfl,rfl⟩
  | recover => exact ⟨rfl,rfl⟩
  | replay => exact ⟨rfl,rfl⟩
  | openCommit => exact ⟨rfl,rfl⟩
  | _ => cases opens

theorem run_opens_quiescent (closed : ∀ db, s.process ≠ .running db) (opens : ∀ l ∈ ls, l.opens = true)
    (run : s.run o ls = some t) (running : t.process = .running db) : db.Quiescent := by
  induction ls generalizing s with
  | nil =>
    cases run
    exact absurd running (closed db)
  | cons l rest ih =>
    obtain ⟨next,step,run⟩ := Option.bind_eq_some_iff.mp run
    have later := fun l member => opens l (List.mem_cons_of_mem _ member)
    rw [step_opens (opens l List.mem_cons_self) closed] at step
    cases rest with
    | nil =>
      cases run
      exact stepOpen_quiescent step running
    | cons l' rest =>
      refine ih ?_ later run
      -- an open database takes no step of `DB::Open`
      intro db' process
      obtain ⟨after,taken,-⟩ := Option.bind_eq_some_iff.mp run
      have first := later l' List.mem_cons_self
      obtain ⟨cut,rfl,-⟩ | ⟨db'',-,taken⟩ | ⟨closed',-⟩ := step_cases taken
      · cases first
      · rw [stepDb_opens first] at taken
        cases taken
      · exact closed' db' process

theorem State.Regular.run_opens (regular : s.Regular) (opens : ∀ l ∈ ls, l.opens = true)
    (run : s.run o ls = some t) : t.Regular :=
  (regular.run (P := fun _ => True) trivial (fun l member => (Label.opens_ok (opens l member)).1)
    (fun l member => (Label.opens_ok (opens l member)).2) run fun _ _ _ _ _ _ _ _ => trivial).1

/-- A database that was just opened shows the history of its files. -/
theorem State.Regular.opened (regular : s.Regular) (closed : ∀ db, s.process ≠ .running db)
    (opens : ∀ l ∈ ls, l.opens = true) (run : s.run o ls = some t) (running : t.process = .running db) :
    t.history = s.history ∧ db.Shows t.disk.table s.history := by
  have same := run_opens_history opens run
  have after := regular.run_opens opens run
  obtain ⟨m,disk,ok⟩ := after.inv.running running
  have quiescent := run_opens_quiescent closed opens run running
  obtain ⟨floor,visible⟩ := smallestSnapshot_le_live ok.memory.snapshots ok.memory.visible (.inl rfl)
  rw [← same]
  refine ⟨rfl,?_,fun user => ok.get_reads disk user _ floor visible⟩
  intro e member
  obtain ⟨r,inside,isEntry⟩ := mem_history_set.mp member
  exact quiescent.bounded ok inside e isEntry

theorem regular_of_run (okay : ∀ l ∈ ls, l.ok = true) (automatic : ∀ l ∈ ls, l.automatic = true)
    (run : State.initial.run o ls = some s) : s.Regular :=
  (State.Regular.initial.run (P := fun _ => True) trivial okay automatic run fun _ _ _ _ _ _ _ _ => trivial).1

/-- The history of a run is what its files stand for. -/
theorem State.Regular.history_eq (regular : s.Regular) : s.disk.history = s.history := by
  rcases regular.inv.disk with fresh | ⟨number,m,ok⟩
  · rw [fresh.history,Disk.history,Disk.current,fresh.current]
    rfl
  · exact ok.history_eq

/-- `DB::Open` always finishes: wherever a run has left the files, or an earlier `DB::Open`,
it gets to an open database that shows what the files stand for, and they stand for the same. -/
theorem open_finishes (okay : ∀ l ∈ ls, l.ok = true) (automatic : ∀ l ∈ ls, l.automatic = true)
    (run : State.initial.run o ls = some s) (closed : ∀ db, s.process ≠ .running db) :
    ∃ ls', (∀ l ∈ ls', l.opens = true) ∧ ∃ t db, s.run o ls' = some t ∧ t.process = .running db ∧
      t.disk.history = s.disk.history ∧ db.Shows t.disk.table t.disk.history ∧ t.history = s.history := by
  have regular := regular_of_run okay automatic run
  obtain ⟨ls',opens,t,db,run',running⟩ := regular.inv.opens (o := o) closed
  obtain ⟨same,shows⟩ := regular.opened closed opens run' running
  have after := regular.run_opens (o := o) opens run'
  refine ⟨ls',opens,t,db,run',running,?_,?_,same⟩
  · rw [after.history_eq,same,regular.history_eq]
  · rw [after.history_eq,same]
    exact shows

/-- A crash in the middle of the `DB::Open` after a crash. -/
def abandonedRun : List (Label Nat Nat) :=
  openRun ++ writeRun 1 [(1,some 10),(2,some 20)] true 1 ++ [.crash fun _ => 0,.openDb,.recover,.replay,.replay,
    .crash fun _ => 0,.openDb]

theorem open_finishes_abandoned :
    ∃ s, State.initial.run smallOptions abandonedRun = some s ∧ s.disk.history.length = 1 ∧
      ∃ ls, (∀ l ∈ ls, l.opens = true) ∧ ∃ t db, s.run smallOptions ls = some t ∧ t.process = .running db ∧
        t.disk.history = s.disk.history ∧ db.Shows t.disk.table t.disk.history ∧ t.history = s.history := by
  have found : ((State.initial.run smallOptions abandonedRun).any fun s => s.db.isNone && s.disk.history.length == 1) = true := by
    decide
  obtain ⟨s,run,holds⟩ := (Option.any_eq_true _ _).mp found
  simp only [Bool.and_eq_true,Option.isNone_iff_eq_none,beq_iff_eq] at holds
  refine ⟨s,run,holds.2,open_finishes (by decide) (by decide) run ?_⟩
  intro db running
  have open_ := holds.1
  rw [State.db_eq.mpr running] at open_
  cases open_

/-- After this crash `DB::Open` gets to a database that shows the first batches of the history. -/
def State.RecoversPrefix (o : Options K V) (s : State K V) (cut : Cut) : Prop :=
  ∃ ls, (∀ l ∈ ls, l.opens = true) ∧ ∃ t db, (s.crash cut).run o ls = some t ∧ t.process = .running db ∧
    db.Shows t.disk.table t.history ∧ t.history <+: s.history

theorem State.Regular.crash (o : Options K V) (regular : s.Regular) (cut : Cut) : (s.crash cut).Regular :=
  regular.step (o := o) (l := .crash cut) rfl rfl rfl

/-- Whatever a crash leaves, the recovered database shows the first batches of the history, if
and only if the logs that recovery may need are settled: a log that was closed without a sync can
lose batches that are older than what a later log has kept. -/
theorem recovery_in_order (okay : ∀ l ∈ ls, l.ok = true) (automatic : ∀ l ∈ ls, l.automatic = true)
    (run : State.initial.run o ls = some s) : (∀ cut, s.RecoversPrefix o cut) ↔ s.disk.Settled s.history := by
  have regular := regular_of_run okay automatic run
  have recovers : ∀ cut, s.RecoversPrefix o cut ↔ (s.disk.crash cut).history <+: s.history := by
    intro cut
    have crashed := regular.crash o cut
    have closed : ∀ db, (s.crash cut).process ≠ .running db := by
      rintro db ⟨⟩
    constructor
    · rintro ⟨ls',opens,t,db,run',running,-,front⟩
      rw [(crashed.opened closed opens run' running).1] at front
      exact front
    · intro front
      obtain ⟨ls',opens,t,db,run',running⟩ := crashed.inv.opens (o := o) closed
      obtain ⟨same,shows⟩ := crashed.opened closed opens run' running
      exact ⟨ls',opens,t,db,run',running,same.symm ▸ shows,same.symm ▸ front⟩
  simp only [recovers]
  rcases regular.inv.disk with fresh | ⟨number,m,ok⟩
  · have none : ∀ cut, (s.disk.crash cut).history = [] := fun cut => (fresh.crash cut).history
    constructor
    · intro _ r member
      rw [fresh.history] at member
      cases member
    · intro _ cut
      rw [none cut]
      exact List.nil_prefix
  · exact ok.crash_prefix_iff

instance (d : Disk K V) (h : History K V) : Decidable (d.Settled h) := by
  unfold Disk.Settled
  infer_instance

/-- The memtable is switched, and the write to the new log is synced. With `sync` the write
to the old log is synced too. -/
def switchedRun (sync : Bool) : List (Label Nat Nat) :=
  openRun ++ writeRun 1 [(1,some 10),(2,some 20),(3,some 30),(4,some 40)] sync 1 ++ writeRun 2 [(5,some 50)] true 2

theorem recovery_in_order_switched :
    (∃ s, State.initial.run smallOptions (switchedRun true) = some s ∧ ∀ cut, s.RecoversPrefix smallOptions cut) ∧
      ∃ s, State.initial.run smallOptions (switchedRun false) = some s ∧ ∃ cut, ¬s.RecoversPrefix smallOptions cut := by
  have settled : ((State.initial.run smallOptions (switchedRun true)).any fun s => s.disk.Settled s.history) = true := by
    decide +kernel
  have open_ : ((State.initial.run smallOptions (switchedRun false)).any fun s => !s.disk.Settled s.history) = true := by
    decide
  obtain ⟨s,run,holds⟩ := (Option.any_eq_true _ _).mp settled
  obtain ⟨s',run',fails⟩ := (Option.any_eq_true _ _).mp open_
  refine ⟨⟨s,run,(recovery_in_order (by decide) (by decide) run).mpr (of_decide_eq_true holds)⟩,s',run',?_⟩
  apply not_forall.mp
  intro all
  simp [(recovery_in_order (by decide) (by decide) run').mp all] at fails

end Recovered

end LevelDB
