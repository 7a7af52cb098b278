import LevelDB.IteratorReads
import LevelDB.ReaderViews

/-! Atomic visibility. A leader puts its batch into the memtable entry by entry while
readers go through it, and `SetLastSequence` follows when all entries are there: what a
reader or a snapshot sees is made of whole batches, and it stays as it is whatever is
switched, flushed, compacted or removed meanwhile. -/
namespace LevelDB

variable {K V : Type} [LinearOrder K]

/-- `mem_` with the entries that the leader has inserted so far. -/
def Sight.physical (x : Sight K V) (inserted : Nat) : MemTable K V :=
  match x.leader with
  | some (.inserting g) => (g.batch.entries.take inserted).foldl MemTable.add x.mem
  | _ => x.mem

/-- The highest number that can be in it. -/
def Sight.reach (x : Sight K V) (inserted : Nat) : Nat :=
  match x.leader with
  | some (.finishing g _ _) => g.lastSequence + inserted
  | _ => x.last + inserted

/-- Only the group being written has numbers after `LastSequence`. -/
def Sight.Settled (x : Sight K V) : Prop :=
  ∀ r ∈ x.history, (∀ e ∈ r.2.entries, e.sequence ≤ x.last) ∨ ∃ g, groupOf x.leader = some g ∧ r.2 = g.batch

/-- The numbers of the group. -/
def Sight.Numbered (x : Sight K V) : Prop :=
  ∀ g, groupOf x.leader = some g → g.batch.sequence = x.last + 1 ∧ g.lastSequence = x.last + g.batch.count

section Sight
variable {x x' : Sight K V} {l : Label K V}

omit [LinearOrder K] in
theorem Sight.Settled.whole (settled : x.Settled) (numbered : x.Numbered) : x.history.Whole x.last := by
  intro r hr
  rcases settled r hr with visible | ⟨g,group,same⟩
  · exact .inl visible
  · refine .inr fun e he => ?_
    rw [same] at he
    obtain ⟨i,-,number,-⟩ := mem_batch_entries he
    have first := (numbered g group).1
    omega

theorem Sight.Step.last_le (step : x.Step l x') (numbered : x.Numbered) : x.last ≤ x'.last := by
  cases step with
  | finish g status syncError before =>
    have last := (numbered g (by simp [before])).2
    show x.last ≤ g.lastSequence
    omega
  | _ => exact le_rfl

theorem Sight.Step.history (step : x.Step l x') (numbered : x.Numbered) :
    x'.history = x.history ∨ ∃ r : Nat × WriteBatch K V, x.last < r.2.sequence ∧ x'.history = x.history ++ [r] := by
  cases step with
  | log status g leader before after =>
    have first := (numbered g (by simp [before])).1
    exact .inr ⟨_,by simp only; omega,rfl⟩
  | _ => exact .inl rfl

/-- What was visible as of a number stays visible, and nothing is added. -/
theorem Sight.Step.carried {n : Nat} (step : x.Step l x') (numbered : x.Numbered) (visible : n ≤ x.last)
    (whole : x.history.Whole n) : x'.history.Whole n ∧ x'.history.upTo n = x.history.upTo n := by
  rcases step.history numbered with same | ⟨r,later,same⟩
  · rw [same]
    exact ⟨whole,rfl⟩
  · rw [same]
    exact whole.append r (visible.trans_lt later)

theorem Sight.Step.settled (step : x.Step l x') (settled : x.Settled) (numbered : x.Numbered) : x'.Settled := by
  cases step with
  | same => exact settled
  | lead _ other leader before after =>
    intro r hr
    refine .inl ((settled r hr).resolve_right ?_)
    rintro ⟨g,group,-⟩
    rw [before] at group
    cases group
  | log status g leader before after =>
    have group : groupOf (some leader) = some g := by
      rcases after with rfl | rfl
      · rfl
      · rfl
    intro r hr
    rcases List.mem_append.mp hr with old | new
    · rcases settled r old with visible | ⟨g',group',same⟩
      · exact .inl visible
      · rw [before] at group'
        cases group'
        exact .inr ⟨g,group,same⟩
    · rw [List.mem_singleton.mp new]
      exact .inr ⟨g,group,rfl⟩
  | sync status g before =>
    intro r hr
    rcases settled r hr with visible | ⟨g',group,same⟩
    · exact .inl visible
    · rw [before] at group
      exact .inr ⟨g',group,same⟩
  | insert g before =>
    intro r hr
    rcases settled r hr with visible | ⟨g',group,same⟩
    · exact .inl visible
    · rw [before] at group
      exact .inr ⟨g',group,same⟩
  | finish g status syncError before =>
    obtain ⟨first,last⟩ := numbered g (by simp [before])
    intro r hr
    refine .inl fun e he => ?_
    show e.sequence ≤ g.lastSequence
    rcases settled r hr with visible | ⟨g',group,same⟩
    · have := visible e he
      omega
    · rw [before] at group
      cases group
      rw [same] at he
      obtain ⟨i,bound,number,-⟩ := mem_batch_entries he
      omega
  | switch newFile close leader log before after fresh =>
    intro r hr
    refine .inl ((settled r hr).resolve_right ?_)
    rintro ⟨g,group,-⟩
    rw [before] at group
    cases group
  | snapshot => exact settled
  | release n => exact settled

/-- The memtable of a leader that does not insert. -/
theorem Sight.physical_idle (none : ∀ g, x.leader ≠ some (.inserting g)) (inserted : Nat) :
    x.physical inserted = x.mem := by
  rw [Sight.physical]
  split
  · rename_i g leader
    exact absurd leader (none g)
  · rfl

omit [LinearOrder K] in
theorem Sight.not_inserting (before : groupOf x.leader = none) (g : Group K V) : x.leader ≠ some (.inserting g) := by
  intro leader
  rw [leader] at before
  cases before

/-- A step of the database does not change the memtable that readers go through: the
leader has inserted its batch when it says so, and a reader keeps a memtable that is
switched. -/
theorem Sight.Step.physical {inserted inserted' : Nat} (step : x.Step l x')
    (idle : inserted = 0 ∨ ∃ g, x.leader = some (.inserting g))
    (complete : l = .insertInto → ∀ g, x.leader = some (.inserting g) → inserted = g.batch.count)
    (cleared : l = .insertInto → inserted' = 0) (kept : l ≠ .insertInto → inserted' = inserted) :
    (x'.logfileNumber = x.logfileNumber ∧ x'.physical inserted' = x.physical inserted ∨
      x'.logfileNumber ≠ x.logfileNumber ∧ x.physical inserted = x.mem) ∧
    (inserted' = 0 ∨ ∃ g, x'.leader = some (.inserting g)) := by
  cases step with
  | same _ other =>
    rw [kept other.1]
    exact ⟨.inl ⟨rfl,rfl⟩,idle⟩
  | lead _ other leader before after =>
    have none := Sight.not_inserting before
    have zero : inserted = 0 := idle.resolve_right fun ⟨g,leader⟩ => none g leader
    rw [kept other.1]
    refine ⟨.inl ⟨rfl,?_⟩,.inl zero⟩
    rw [Sight.physical_idle none,Sight.physical_idle]
    intro g isLeader
    have same : leader = some (.inserting g) := isLeader
    rcases after with free | ⟨g',logging⟩
    · rw [same] at free
      cases free
    · rw [same] at logging
      cases logging
  | log status g leader before after =>
    have none : ∀ g', x.leader ≠ some (.inserting g') := by simp [before]
    have zero : inserted = 0 := idle.resolve_right fun ⟨g,leader⟩ => none g leader
    rw [kept (by simp),zero]
    refine ⟨.inl ⟨rfl,?_⟩,.inl rfl⟩
    rw [Sight.physical_idle none]
    rcases after with rfl | rfl
    · rfl
    · rfl
  | sync status g before =>
    have none : ∀ g', x.leader ≠ some (.inserting g') := by simp [before]
    have zero : inserted = 0 := idle.resolve_right fun ⟨g,leader⟩ => none g leader
    rw [kept (by simp),zero]
    refine ⟨.inl ⟨rfl,?_⟩,.inl rfl⟩
    rw [Sight.physical_idle none]
    rfl
  | insert g before =>
    rw [cleared rfl]
    refine ⟨.inl ⟨rfl,?_⟩,.inl rfl⟩
    have all : g.batch.entries.take inserted = g.batch.entries := by
      rw [complete rfl g before]
      refine List.take_of_length_le ?_
      simp [WriteBatch.entries,WriteBatch.count]
    rw [Sight.physical,Sight.physical,before]
    simp only [all]
    rfl
  | finish g status syncError before =>
    have none : ∀ g', x.leader ≠ some (.inserting g') := by simp [before]
    rw [kept (by simp)]
    refine ⟨.inl ⟨rfl,?_⟩,.inl (idle.resolve_right fun ⟨g,leader⟩ => none g leader)⟩
    rw [Sight.physical_idle none]
    rfl
  | switch newFile close leader log before after fresh =>
    have none := Sight.not_inserting before
    rw [kept (by simp)]
    exact ⟨.inr ⟨fresh,Sight.physical_idle none inserted⟩,.inl (idle.resolve_right fun ⟨g,leader⟩ => none g leader)⟩
  | snapshot =>
    rw [kept (by simp)]
    exact ⟨.inl ⟨rfl,rfl⟩,idle⟩
  | release n =>
    rw [kept (by simp)]
    exact ⟨.inl ⟨rfl,rfl⟩,idle⟩

theorem Sight.Step.reach {inserted inserted' : Nat} (step : x.Step l x') (numbered : x.Numbered)
    (complete : l = .insertInto → ∀ g, x.leader = some (.inserting g) → inserted = g.batch.count)
    (kept : l ≠ .insertInto → inserted' = inserted) : x.reach inserted ≤ x'.reach inserted' := by
  have free : ∀ {x : Sight K V}, groupOf x.leader = none → ∀ n, x.reach n = x.last + n := by
    intro x before n
    rw [Sight.reach]
    split
    · rename_i leader
      rw [leader] at before
      cases before
    · rfl
  cases step with
  | same _ other => rw [kept other.1]
  | lead _ other leader before after =>
    rw [kept other.1,free before]
    rcases after with none | ⟨g,rfl⟩
    · exact (free (x := { x with leader }) none inserted).ge
    · exact le_rfl
  | log status g leader before after =>
    rw [kept (by simp),Sight.reach,before]
    rcases after with rfl | rfl
    · exact le_rfl
    · exact le_rfl
  | sync status g before =>
    rw [kept (by simp),Sight.reach,before]
    exact le_rfl
  | insert g before =>
    rw [Sight.reach,before,complete rfl g before,← (numbered g (by simp [before])).2]
    exact Nat.le_add_right _ _
  | finish g status syncError before =>
    rw [kept (by simp),Sight.reach,before]
    exact le_rfl
  | switch newFile close leader log before after fresh =>
    rw [kept (by simp),free before]
    exact (free (x := { x with leader }) after inserted).ge
  | snapshot => rw [kept (by simp)]; exact le_rfl
  | release n => rw [kept (by simp)]; exact le_rfl

end Sight

def System.mem (y : System K V) (db : Db K V) : MemTable K V := (y.state.sight db).physical y.inserted

def System.reach (y : System K V) (db : Db K V) : Nat := (y.state.sight db).reach y.inserted

/-- The memtable that the reader took, as it is now. -/
def Reader.memtable (y : System K V) (db : Db K V) (r : Reader K V) : MemTable K V := r.mem.getD (y.mem db)

structure System.Views (y : System K V) (db : Db K V) : Prop where
  settled : (y.state.sight db).Settled
  idle : y.inserted = 0 ∨ ∃ g, db.leader = some (.inserting g)
  snapshots : y.snapshots.map (·.1) = db.snapshots
  captured : ∀ p ∈ y.snapshots, p.2 = y.state.history.upTo p.1 ∧ y.state.history.Whole p.1
  readers : ∀ r ∈ y.readers, r.sequence ≤ db.versions.lastSequence ∧ r.history = y.state.history.upTo r.sequence ∧
    y.state.history.Whole r.sequence ∧ r.Sees (r.memtable y db) y.state.disk.table (y.reach db)

structure System.Inv (o : Options K V) (y : System K V) : Prop where
  files : y.Files o true
  inv : y.state.Inv
  automatic : y.state.Automatic
  views : ∀ db, y.state.process = .running db → y.Views db
  closed : (∀ db, y.state.process ≠ .running db) → y.inserted = 0 ∧ y.snapshots = []

def Action.ok : Action K V → Bool
  | .db l => l.ok
  | _ => true

def Action.automatic : Action K V → Bool
  | .db l => l.automatic
  | _ => true

section Steps
variable {o : Options K V} {y y' : System K V} {db db' : Db K V} {l : Label K V} {s' : State K V}

omit [LinearOrder K] in
theorem System.label_eq (y : System K V) (l : Label K V) :
    (y.label l = .insertInto ↔ l = .insertInto) ∧ (y.label l = .getSnapshot ↔ l = .getSnapshot) ∧
      (∀ n, y.label l = .releaseSnapshot n ↔ l = .releaseSnapshot n) ∧ (y.label l).ok = l.ok ∧
      (y.label l).automatic = l.automatic := by
  cases l <;> simp [System.label,Label.ok,Label.automatic]

omit [LinearOrder K] in
theorem System.after_inserted (y : System K V) (s' : State K V) :
    (l = .insertInto → (y.after l s').inserted = 0) ∧
      (l ≠ .insertInto → (∀ cut, l ≠ .crash cut) → (y.after l s').inserted = y.inserted) := by
  cases l <;> simp [System.after]

theorem State.sight_numbered {s : State K V} (inv : db.Inv s.disk s.history) : (s.sight db).Numbered := by
  obtain ⟨m,-,ok⟩ := inv
  intro g group
  obtain ⟨first,last,-⟩ := ok.memory.group g group
  exact ⟨first,last⟩

/-- Every reader follows, also where `System.after` leaves it alone. -/
theorem System.after_readers (alive : ∀ cut, l ≠ .crash cut) (running : y.state.process = .running db)
    (running' : s'.process = .running db') (step : (y.state.sight db).Step (y.label l) (s'.sight db')) :
    (y.after l s').readers = y.readers.map (Reader.follow y.state s') := by
  have still : db'.logfileNumber = db.logfileNumber → y.readers = y.readers.map (Reader.follow y.state s') := by
    intro same
    refine (List.map_id _).symm.trans (List.map_congr_left fun r _ => ?_)
    rw [Reader.follow,State.db_eq.mpr running,State.db_eq.mpr running']
    simp only [same,if_true,id]
  have logfile : ∀ {x' : Sight K V}, (y.state.sight db).Step (y.label l) x' → l = .insertInto ∨ l = .getSnapshot ∨
      (∃ n, l = .releaseSnapshot n) → x'.logfileNumber = db.logfileNumber := by
    rintro x' isStep (rfl | rfl | ⟨n,rfl⟩)
    · cases isStep <;> rfl
    · cases isStep <;> rfl
    · cases isStep <;> rfl
  cases l with
  | crash cut => exact absurd rfl (alive cut)
  | insertInto => exact still (logfile step (.inl rfl))
  | getSnapshot => exact still (logfile step (.inr (.inl rfl)))
  | releaseSnapshot n => exact still (logfile step (.inr (.inr ⟨n,rfl⟩)))
  | _ => rfl

omit [LinearOrder K] in
theorem eraseP_snapshots (snapshots : List (Nat × History K V)) (n : Nat) :
    (snapshots.eraseP fun x => x.1 == n).map (·.1) = (snapshots.map (·.1)).erase n := by
  induction snapshots with
  | nil => rfl
  | cons x rest ih =>
    by_cases here : x.1 = n
    · simp [here]
    · simp [here,ih]

/-- The snapshots that are live, with what was visible when they were made. -/
theorem System.Views.after_snapshots (views : y.Views db) (alive : ∀ cut, l ≠ .crash cut)
    (running : y.state.process = .running db) (step : (y.state.sight db).Step (y.label l) (s'.sight db')) :
    (y.after l s').snapshots.map (·.1) = db'.snapshots ∧
      ∀ p ∈ (y.after l s').snapshots, p ∈ y.snapshots ∨ p = (db.versions.lastSequence,
        y.state.history.upTo db.versions.lastSequence) := by
  have made : ∀ {x' : Sight K V}, (y.state.sight db).Step (y.label l) x' →
      (l = .getSnapshot ∧ x'.snapshots = db.snapshots ++ [db.versions.lastSequence]) ∨
      (∃ n, l = .releaseSnapshot n ∧ x'.snapshots = db.snapshots.erase n) ∨
      (l ≠ .getSnapshot ∧ (∀ n, l ≠ .releaseSnapshot n) ∧ x'.snapshots = db.snapshots) := by
    intro x' isStep
    obtain ⟨-,get,release,-⟩ := y.label_eq l
    generalize y.label l = l' at isStep get release
    cases isStep with
    | snapshot => exact .inl ⟨get.mp rfl,rfl⟩
    | release n => exact .inr (.inl ⟨n,(release n).mp rfl,rfl⟩)
    | same _ other =>
      exact .inr (.inr ⟨fun h => other.2.1 (get.mpr h),fun n h => other.2.2 n ((release n).mpr h),rfl⟩)
    | lead _ other =>
      exact .inr (.inr ⟨fun h => other.2.1 (get.mpr h),fun n h => other.2.2 n ((release n).mpr h),rfl⟩)
    | _ => exact .inr (.inr ⟨fun h => (by cases get.mpr h),fun n h => (by cases (release n).mpr h),rfl⟩)
  rcases made step with ⟨rfl,snapshots⟩ | ⟨n,rfl,snapshots⟩ | ⟨notGet,notRelease,snapshots⟩
  · have isDb := State.db_eq.mpr running
    have after : (y.after .getSnapshot s').snapshots = y.snapshots ++ [(db.versions.lastSequence,
        y.state.history.upTo db.versions.lastSequence)] := by
      simp [System.after,isDb]
    rw [after]
    refine ⟨?_,fun p hp => ?_⟩
    · rw [List.map_append,views.snapshots]
      exact snapshots.symm
    · rcases List.mem_append.mp hp with old | new
      · exact .inl old
      · exact .inr (List.mem_singleton.mp new)
  · refine ⟨(eraseP_snapshots y.snapshots n).trans ?_,fun p hp => .inl (List.mem_of_mem_eraseP hp)⟩
    rw [views.snapshots]
    exact snapshots.symm
  · have after : (y.after l s').snapshots = y.snapshots := by
      cases l with
      | crash cut => exact absurd rfl (alive cut)
      | getSnapshot => exact absurd rfl notGet
      | releaseSnapshot n => exact absurd rfl (notRelease n)
      | _ => rfl
    rw [after]
    exact ⟨views.snapshots.trans snapshots.symm,fun p hp => .inl hp⟩

/-- The memtable of a reader is the same after a step of the database. -/
theorem System.Views.follow (views : y.Views db) (numbered : (y.state.sight db).Numbered)
    (running : y.state.process = .running db) (running' : s'.process = .running db') (alive : ∀ cut, l ≠ .crash cut)
    (complete : l = .insertInto → ∀ g, y.state.inserting = some g → y.inserted = g.batch.count)
    (step : (y.state.sight db).Step (y.label l) (s'.sight db')) :
    (∀ r : Reader K V, (r.follow y.state s').memtable (y.after l s') db' = r.memtable y db) ∧
      ((y.after l s').inserted = 0 ∨ ∃ g, db'.leader = some (.inserting g)) ∧
      y.reach db ≤ (y.after l s').reach db' := by
  obtain ⟨insert,-⟩ := y.label_eq l
  have complete' : y.label l = .insertInto → ∀ g, (y.state.sight db).leader = some (.inserting g) →
      y.inserted = g.batch.count := by
    intro isInsert g leader
    refine complete (insert.mp isInsert) g ?_
    have isLeader : db.leader = some (.inserting g) := leader
    simp [State.inserting,State.db_eq.mpr running,isLeader]
  obtain ⟨cleared,kept⟩ := y.after_inserted (l := l) s'
  have stays : y.label l ≠ .insertInto → (y.after l s').inserted = y.inserted :=
    fun other => kept (fun isInsert => other (insert.mpr isInsert)) alive
  obtain ⟨same,idle⟩ := step.physical views.idle complete' (fun isInsert => cleared (insert.mp isInsert)) stays
  refine ⟨fun r => ?_,idle,?_⟩
  · have physical : (y.after l s').mem db' = (s'.sight db').physical (y.after l s').inserted := by
      rw [System.mem,System.after_state]
    rw [Reader.follow,State.db_eq.mpr running,State.db_eq.mpr running']
    simp only [Reader.memtable,physical]
    rcases same with ⟨logfile,mem⟩ | ⟨logfile,mem⟩
    · have equal : db'.logfileNumber = db.logfileNumber := logfile
      rw [if_pos equal,mem]
      rfl
    · have other : db'.logfileNumber ≠ db.logfileNumber := logfile
      rw [if_neg other,System.mem,mem]
      rfl
  · rw [System.reach,System.reach,System.after_state]
    exact step.reach numbered complete' stays

/-- A step of the open database keeps the views. -/
theorem System.Views.stepDb (views : y.Views db) (now : db.Inv y.state.disk y.state.history)
    (running : y.state.process = .running db) (running' : s'.process = .running db')
    (alive : ∀ cut, l ≠ .crash cut)
    (complete : l = .insertInto → ∀ g, y.state.inserting = some g → y.inserted = g.batch.count)
    (step : (y.state.sight db).Step (y.label l) (s'.sight db'))
    (tables : ∀ r ∈ y.readers, ∀ k, ∀ f ∈ r.version.files k, s'.disk.tables f.number = y.state.disk.tables f.number) :
    (y.after l s').Views db' := by
  have numbered := State.sight_numbered now
  obtain ⟨memtable,idle,reach⟩ := views.follow numbered running running' alive complete step
  obtain ⟨snapshots,live⟩ := views.after_snapshots alive running step
  obtain ⟨m,-,ok⟩ := now
  have last : db.versions.lastSequence ≤ db'.versions.lastSequence := step.last_le numbered
  have carried : ∀ n, n ≤ db.versions.lastSequence → y.state.history.Whole n →
      s'.history.Whole n ∧ s'.history.upTo n = y.state.history.upTo n :=
    fun n visible whole => step.carried numbered visible whole
  refine ⟨?_,idle,snapshots,?_,?_⟩
  · rw [System.after_state]
    exact step.settled views.settled numbered
  · rw [System.after_state]
    intro p hp
    rcases live p hp with old | rfl
    · obtain ⟨same,whole⟩ := views.captured p old
      have visible : p.1 ≤ db.versions.lastSequence := by
        refine ok.memory.visible p.1 ?_
        rw [← views.snapshots]
        exact List.mem_map_of_mem old
      obtain ⟨whole',same'⟩ := carried p.1 visible whole
      exact ⟨same.trans same'.symm,whole'⟩
    · obtain ⟨whole',same'⟩ := carried _ le_rfl (views.settled.whole numbered)
      exact ⟨same'.symm,whole'⟩
  · rw [System.after_readers alive running running' step]
    intro r' hr'
    obtain ⟨r,hr,rfl⟩ := List.mem_map.mp hr'
    obtain ⟨visible,same,whole,sees⟩ := views.readers r hr
    obtain ⟨sequence,imm,version,history⟩ := r.follow_same y.state s'
    obtain ⟨whole',same'⟩ := carried r.sequence visible whole
    rw [System.after_state,memtable r,sequence,history]
    refine ⟨visible.trans last,same.trans same'.symm,whole',?_⟩
    have framed : r.Sees (r.memtable y db) s'.disk.table ((y.after l s').reach db') :=
      (sees.raise reach).frame fun k f hf => Disk.table_congr (tables r hr k f hf)
    exact framed.same sequence imm version history

end Steps

section Insert
variable {y : System K V} {db : Db K V}

omit [LinearOrder K] in
theorem mem_take_entries {b : WriteBatch K V} {n : Nat} {e : Entry K V} (member : e ∈ b.entries.take n) :
    b.sequence ≤ e.sequence ∧ e.sequence < b.sequence + n := by
  obtain ⟨i,bound,rfl⟩ := List.mem_take_iff_getElem.mp member
  simp only [WriteBatch.entries,List.getElem_mapIdx]
  omega

omit [LinearOrder K] in
theorem System.reach_eq (y : System K V) (db : Db K V) : y.reach db = db.lastApplied + y.inserted := by
  rw [System.reach,Sight.reach,Db.lastApplied]
  show (match db.leader with
    | some (.finishing g _ _) => g.lastSequence + y.inserted
    | _ => db.versions.lastSequence + y.inserted) = _
  cases db.leader with
  | none => rfl
  | some leader => cases leader <;> rfl

omit [LinearOrder K] in
theorem State.inserting_leader {s : State K V} {g : Group K V} (running : s.process = .running db)
    (inserting : s.inserting = some g) : db.leader = some (.inserting g) := by
  rw [State.inserting,State.db_eq.mpr running] at inserting
  simp only at inserting
  split at inserting
  · rename_i g' leader
    cases inserting
    exact leader
  · cases inserting

omit [LinearOrder K] in
theorem State.inserting_running {s : State K V} {g : Group K V} (inserting : s.inserting = some g) :
    ∃ db, s.process = .running db := by
  rw [State.inserting] at inserting
  cases isDb : s.db with
  | none => simp [isDb] at inserting
  | some db => exact ⟨db,State.db_eq.mp isDb⟩

/-- The next entry of the batch goes into the memtable, with a number that is higher than
all there. -/
theorem System.insert_entry {g : Group K V} (now : db.Inv y.state.disk y.state.history)
    (leader : db.leader = some (.inserting g)) (more : y.inserted < g.batch.count) :
    ∃ e : Entry K V, e.sequence = y.reach db + 1 ∧ System.mem { y with inserted := y.inserted + 1 } db = (y.mem db).add e ∧
      System.reach { y with inserted := y.inserted + 1 } db = y.reach db + 1 := by
  have bound : y.inserted < g.batch.entries.length := by simpa [WriteBatch.entries,WriteBatch.count] using more
  refine ⟨g.batch.entries[y.inserted],?_,?_,?_⟩
  · have first := (State.sight_numbered now g (by simp [State.sight,leader])).1
    have start : g.batch.sequence = db.versions.lastSequence + 1 := first
    have applied : db.lastApplied = db.versions.lastSequence := by simp [Db.lastApplied,leader]
    rw [System.reach_eq,applied]
    simp only [WriteBatch.entries,List.getElem_mapIdx]
    omega
  · have isLeader : (y.state.sight db).leader = some (.inserting g) := leader
    rw [System.mem,System.mem,Sight.physical,Sight.physical,isLeader]
    simp only [List.take_add_one,List.getElem?_eq_getElem bound,Option.toList_some,List.foldl_append,List.foldl_cons,
      List.foldl_nil]
  · rw [System.reach_eq,System.reach_eq]
    rfl

/-- No reader has a number that the leader still has to insert. -/
theorem System.Views.low (views : y.Views db) (now : db.Inv y.state.disk y.state.history) {r : Reader K V}
    (member : r ∈ y.readers) : r.sequence ≤ y.reach db := by
  obtain ⟨m,-,ok⟩ := now
  rw [System.reach_eq]
  exact ((views.readers r member).1.trans (db.lastSequence_le ok.memory.group)).trans (Nat.le_add_right _ _)

/-- One more entry of the batch is in the memtable. -/
theorem System.Views.insertEntry {g : Group K V} (views : y.Views db) (now : db.Inv y.state.disk y.state.history)
    (leader : db.leader = some (.inserting g)) (more : y.inserted < g.batch.count) :
    System.Views { y with inserted := y.inserted + 1 } db := by
  obtain ⟨e,number,added,next⟩ := System.insert_entry now leader more
  refine ⟨views.settled,.inr ⟨g,leader⟩,views.snapshots,views.captured,fun r hr => ?_⟩
  obtain ⟨visible,same,whole,sees⟩ := views.readers r hr
  refine ⟨visible,same,whole,?_⟩
  rw [next]
  cases mem : r.mem with
  | some frozen =>
    simp only [Reader.memtable,mem,Option.getD_some] at sees ⊢
    exact sees.raise (Nat.le_succ _)
  | none =>
    simp only [Reader.memtable,mem,Option.getD_none] at sees ⊢
    rw [added,← number]
    exact sees.add (views.low now hr) (by omega)

/-- A reader begins at `LastSequence` or a live snapshot. -/
theorem System.Views.openReader (views : y.Views db) (now : db.Inv y.state.disk y.state.history) {sequence : Nat}
    (live : sequence = db.versions.lastSequence ∨ sequence ∈ db.snapshots) :
    let r : Reader K V := ⟨sequence,none,db.imm,db.versions.current,y.state.history.upTo sequence⟩
    sequence ≤ db.versions.lastSequence ∧ y.state.history.Whole sequence ∧
      r.Sees (r.memtable y db) y.state.disk.table (y.reach db) := by
  intro r
  have numbered := State.sight_numbered now
  obtain ⟨m,disk,ok⟩ := now
  obtain ⟨floor,visible⟩ := smallestSnapshot_le_live ok.memory.snapshots ok.memory.visible live
  have whole : y.state.history.Whole sequence := by
    rcases live with rfl | member
    · exact views.settled.whole numbered
    · rw [← views.snapshots] at member
      obtain ⟨p,hp,rfl⟩ := List.mem_map.mp member
      exact (views.captured p hp).2
  refine ⟨visible,whole,?_⟩
  have sees := ok.sees disk whole floor visible
  have le := db.lastSequence_le ok.memory.group
  show r.Sees (y.mem db) _ _
  rw [System.reach_eq]
  by_cases inserting : ∃ g, db.leader = some (.inserting g)
  · obtain ⟨g,leader⟩ := inserting
    have isLeader : (y.state.sight db).leader = some (.inserting g) := leader
    have first : g.batch.sequence = db.versions.lastSequence + 1 := (numbered g (by simp [isLeader])).1
    have applied : db.lastApplied = db.versions.lastSequence := by simp [Db.lastApplied,leader]
    rw [System.mem,Sight.physical,isLeader]
    refine sees.addAll (g.batch.entries.take y.inserted) (visible.trans le)
      ((batch_entries_sorted g.batch).sublist (List.take_sublist _ _)) (fun e he => ?_) (Nat.le_add_right _ _) fun e he => ?_
    · have := mem_take_entries he
      omega
    · have := mem_take_entries he
      omega
  · rw [System.mem,Sight.physical_idle fun g leader => inserting ⟨g,leader⟩]
    exact sees.raise (Nat.le_add_right _ _)

end Insert

section Runs
variable {o : Options K V} {y y' : System K V} {a : Action K V}

/-- A database that was just opened has nobody to show anything. -/
theorem opened_views {s s' : State K V} {db : Db K V} {l : Label K V} (step : s.stepOpen o l = some s')
    (inv : s'.Inv) (running : s'.process = .running db) : System.Views ⟨s',[],0,[]⟩ db := by
  obtain ⟨versions,log,c,-,rfl⟩ := stepOpen_running step running
  obtain ⟨job,rfl,-⟩ := removeObsoleteFiles_running running
  obtain ⟨m,-,ok⟩ := inv.running running
  refine ⟨fun r hr => .inl fun e he => ?_,.inl rfl,rfl,by simp,by simp⟩
  obtain ⟨applied,split,-,bounded⟩ := ok.memory.applied
  have whole : _ = applied ++ [] := split
  rw [List.append_nil] at whole
  refine bounded e (mem_history_set.mpr ⟨r,?_,he⟩)
  rw [← whole]
  exact hr

/-- A step of the open database, as its readers see it. -/
theorem System.Inv.sight {l : Label K V} {s' : State K V} {db : Db K V} (inv : y.Inv o)
    (running : y.state.process = .running db) (okay : l.ok = true)
    (step : y.state.stepDb o db (y.label l) = some s') :
    ∃ db', s'.process = .running db' ∧ (y.state.sight db).Step (y.label l) (s'.sight db') ∧
      ∀ r ∈ y.readers, ∀ k, ∀ f ∈ r.version.files k, s'.disk.tables f.number = y.state.disk.tables f.number := by
  obtain ⟨m,-,ok⟩ := inv.inv.running running
  obtain ⟨db',running',sight⟩ := sight_step running ((y.label_eq l).2.2.2.1.trans okay) ok.number step
  refine ⟨db',running',sight,fun r hr k f hf => ?_⟩
  have files := inv.files.files
  rw [State.Files,running] at files
  obtain ⟨file,m',core⟩ := files
  obtain ⟨db'',-,steps⟩ : Core.Leads o true y.held (db.core y.state.disk) s' :=
    core_step running (inv.files.manual db running) (.inl rfl) (y.label_pins l) step
  exact core.tables_run steps (List.mem_map_of_mem hr) hf

theorem System.Inv.stepDb {l : Label K V} {s' : State K V} (inv : y.Inv o) (okay : l.ok = true)
    (automatic : l.automatic = true)
    (complete : l = .insertInto → ∀ g, y.state.inserting = some g → y.inserted = g.batch.count)
    (step : y.state.step o (y.label l) = some s') : (y.after l s').Inv o := by
  obtain ⟨-,-,-,isOk,isAutomatic⟩ := y.label_eq l
  have files := inv.files.stepDb (.inl rfl) step
  have next : s'.Inv := inv.inv.step inv.files.manual (isOk.trans okay) (inv.automatic.clear _) step
  have next' : s'.Automatic := inv.automatic.step (isAutomatic.trans automatic) step
  refine ⟨files,by rw [System.after_state]; exact next,by rw [System.after_state]; exact next',?_,?_⟩
  · intro db' running'
    rw [System.after_state] at running'
    obtain ⟨cut,isCrash,rfl⟩ | ⟨db,running,stepped⟩ | ⟨notRunning,stepped⟩ := LevelDB.step_cases step
    · cases running'
    · have alive : ∀ cut, l ≠ .crash cut := by
        rintro cut rfl
        cases stepped
      obtain ⟨db'',running'',sight,tables⟩ := inv.sight running okay stepped
      rw [running'] at running''
      cases running''
      exact (inv.views db running).stepDb (inv.inv.running running) running running' alive complete sight tables
    · have readers := inv.files.closed notRunning
      obtain ⟨zero,none⟩ := inv.closed notRunning
      have after : y.after l s' = ⟨s',[],0,[]⟩ := by
        have isLabel : y.label l = l := by
          cases l with
          | installVersion pinned => cases stepped
          | _ => rfl
        rw [isLabel] at stepped
        cases l <;> first | cases stepped | simp [System.after,readers,zero,none]
      rw [after]
      exact opened_views stepped next running'
  · rw [System.after_state]
    intro notRunning
    obtain ⟨cut,isCrash,rfl⟩ | ⟨db,running,stepped⟩ | ⟨notRunning',stepped⟩ := LevelDB.step_cases step
    · have crashed : l = .crash cut := by
        cases l <;> first | exact isCrash | cases isCrash
      rw [crashed]
      exact ⟨rfl,rfl⟩
    · obtain ⟨db',running'⟩ := stepDb_running running stepped
      exact absurd running' (notRunning db')
    · obtain ⟨zero,none⟩ := inv.closed notRunning'
      cases l <;> first | exact ⟨rfl,rfl⟩ | exact ⟨zero,none⟩ | cases stepped

theorem System.Inv.step (inv : y.Inv o) (okay : a.ok = true) (automatic : a.automatic = true)
    (step : y.step o a = some y') : y'.Inv o := by
  have files := inv.files.step (.inl rfl) step
  obtain ⟨l,s',rfl,isStep,rfl,complete⟩ | ⟨g,-,inserting,more,rfl⟩ | ⟨snapshot,db,rfl,running,live,rfl⟩ |
    ⟨index,rfl,rfl⟩ := System.step_cases step
  · exact inv.stepDb okay automatic complete isStep
  · refine ⟨files,inv.inv,inv.automatic,fun db running => ?_,fun none => ?_⟩
    · exact (inv.views db running).insertEntry (inv.inv.running running) (State.inserting_leader running inserting) more
    · obtain ⟨db,running⟩ := State.inserting_running inserting
      exact absurd running (none db)
  · refine ⟨files,inv.inv,inv.automatic,fun db' running' => ?_,fun none => absurd running (none db)⟩
    have same := running.symm.trans running'
    cases same
    have views := inv.views db running
    refine ⟨views.settled,views.idle,views.snapshots,views.captured,fun r hr => ?_⟩
    rcases List.mem_append.mp hr with old | new
    · exact views.readers r old
    · have isLive : snapshot.getD db.versions.lastSequence = db.versions.lastSequence ∨
          snapshot.getD db.versions.lastSequence ∈ db.snapshots := by
        cases snapshot with
        | none => exact .inl rfl
        | some n => exact .inr (live n rfl)
      obtain ⟨visible,whole,sees⟩ := views.openReader (inv.inv.running running) isLive
      rw [List.mem_singleton.mp new]
      exact ⟨visible,rfl,whole,sees⟩
  · refine ⟨files,inv.inv,inv.automatic,fun db running => ?_,inv.closed⟩
    have views := inv.views db running
    exact ⟨views.settled,views.idle,views.snapshots,views.captured,fun r hr => views.readers r (List.mem_of_mem_eraseIdx hr)⟩

theorem System.Inv.run {as : List (Action K V)} (inv : y.Inv o) (okay : ∀ a ∈ as, a.ok = true)
    (automatic : ∀ a ∈ as, a.automatic = true) (run : y.run o as = some y') : y'.Inv o := by
  induction as generalizing y with
  | nil =>
    cases run
    exact inv
  | cons a rest ih =>
    obtain ⟨next,step,later⟩ := Option.bind_eq_some_iff.mp run
    exact ih (inv.step (okay a List.mem_cons_self) (automatic a List.mem_cons_self) step)
      (fun b hb => okay b (List.mem_cons_of_mem _ hb)) (fun b hb => automatic b (List.mem_cons_of_mem _ hb)) later

theorem System.initial_inv (o : Options K V) : (System.initial : System K V).Inv o :=
  ⟨System.initial_files o true,inv_initial,by rintro _ ⟨⟩,by rintro _ ⟨⟩,fun _ => ⟨rfl,rfl⟩⟩

end Runs

/-- What `Get` with the references of the reader finds now. -/
def Reader.get (y : System K V) (r : Reader K V) (user : K) : Option V :=
  y.state.db.bind fun db => (r.hold db (r.memtable y db)).get y.state.disk.table user r.sequence

/-- The entries that a reader, or an iterator, can come upon and may show. -/
def Reader.visible (y : System K V) (r : Reader K V) : Set (Entry K V) :=
  {e | ∃ db, y.state.process = .running db ∧ e ∈ r.layers (r.memtable y db) y.state.disk.table ∧
    e.sequence ≤ r.sequence}

/-- What `Get` with a snapshot finds now. -/
def System.getAt (y : System K V) (snapshot : Nat) (user : K) : Option V :=
  y.state.db.bind fun db => Reader.get y ⟨snapshot,none,db.imm,db.versions.current,y.state.history.upTo snapshot⟩ user

/-- The history is made of whole records: all entries of a record are visible as of the
number and the record is in it, or none is and it is not. -/
def System.AllOrNone (y : System K V) (sequence : Nat) (h : History K V) : Prop :=
  h ⊆ y.state.history ∧ ∀ r ∈ y.state.history, r ∈ h ∧ (∀ e ∈ r.2.entries, e.sequence ≤ sequence) ∨
    r ∉ h ∧ ∀ e ∈ r.2.entries, sequence < e.sequence

/-- The iterator of the reader shows these keys and values, from the first to the last. -/
def Reader.Shows (y : System K V) (r : Reader K V) (visits : List (K × V)) : Prop :=
  ∃ db, y.state.process = .running db ∧ Delivers (DbIter.ops (internalOps y.state.disk.table))
    (((r.hold db (r.memtable y db)).newIterator y.state.disk.table r.sequence).seekToFirst
      (internalOps y.state.disk.table)) visits

/-- `Get` and the iterator of the reader answer as the whole records of its history do. -/
structure Reader.Answers (y : System K V) (r : Reader K V) : Prop where
  whole : y.AllOrNone r.sequence r.history
  reads : ∀ user, Reads r.history.set user r.sequence (r.get y user)
  shows : ∃ visits, r.Shows y visits ∧ (visits.Pairwise fun a b => a.1 < b.1) ∧
    ∀ user value, (user,value) ∈ visits ↔ r.get y user = some value

/-- Where the reader at this place is after the action, if it is open still. -/
def Action.track (i : Nat) : Action K V → Option Nat
  | .db (.crash _) => none
  | .closeReader j => if j = i then none else some (if j < i then i - 1 else i)
  | _ => some i

def trackAll : List (Action K V) → Nat → Option Nat
  | [], i => some i
  | a :: rest, i => (a.track i).bind (trackAll rest)

section Tracking
variable {o : Options K V} {y y' : System K V} {a : Action K V}

/-- A step leaves an open reader what it sees. -/
theorem System.Inv.step_visible (inv : y.Inv o) (okay : a.ok = true) (step : y.step o a = some y') {i i' : Nat}
    {r : Reader K V} (tracks : a.track i = some i') (there : y.readers[i]? = some r) :
    ∃ r', y'.readers[i']? = some r' ∧ r'.sequence = r.sequence ∧ r'.history = r.history ∧ r'.visible y' = r.visible y := by
  have member : r ∈ y.readers := List.mem_of_getElem? there
  obtain ⟨l,s',rfl,isStep,rfl,complete⟩ | ⟨g,rfl,inserting,more,rfl⟩ | ⟨snapshot,db,rfl,running,live,rfl⟩ |
    ⟨index,rfl,rfl⟩ := System.step_cases step
  · have alive : ∀ cut, l ≠ .crash cut := by
      rintro cut rfl
      cases tracks
    have same : i' = i := by
      cases l <;> first | exact (Option.some.inj tracks).symm | exact absurd rfl (alive _)
    subst same
    obtain ⟨cut,isCrash,-⟩ | ⟨db,running,stepped⟩ | ⟨notRunning,-⟩ := LevelDB.step_cases isStep
    · cases l <;> first | exact absurd rfl (alive _) | cases isCrash
    · obtain ⟨db',running',sight,tables⟩ := inv.sight running okay stepped
      have views := inv.views db running
      obtain ⟨memtable,-,-⟩ := views.follow (State.sight_numbered (inv.inv.running running)) running running' alive
        complete sight
      obtain ⟨sequence,imm,version,history⟩ := r.follow_same y.state s'
      refine ⟨r.follow y.state s',?_,sequence,history,?_⟩
      · rw [System.after_readers alive running running' sight,List.getElem?_map,there]
        rfl
      · have entries : r.version.entries s'.disk.table = r.version.entries y.state.disk.table :=
          Version.entries_congr fun k f hf => Disk.table_congr (tables r member k f hf)
        have layers : (r.follow y.state s').layers ((r.follow y.state s').memtable (y.after l s') db') s'.disk.table =
            r.layers (r.memtable y db) y.state.disk.table := by
          rw [Reader.layers,Reader.layers,memtable r,imm,version,entries]
        ext e
        simp only [Reader.visible,System.after_state,running,running',Process.running.injEq,exists_eq_left',
          Set.mem_ofPred_eq,layers,sequence]
    · rw [inv.files.closed notRunning] at member
      cases member
  · cases tracks
    refine ⟨r,there,rfl,rfl,?_⟩
    obtain ⟨db,running⟩ := State.inserting_running inserting
    have now := inv.inv.running running
    obtain ⟨e,number,added,-⟩ := System.insert_entry now (State.inserting_leader running inserting) more
    have low := (inv.views db running).low now member
    ext a
    simp only [Reader.visible,running,Process.running.injEq,exists_eq_left',Set.mem_ofPred_eq]
    refine and_congr_left fun seen => ?_
    cases mem : r.mem with
    | some frozen => simp only [Reader.memtable,mem,Option.getD_some]
    | none =>
      have other : a ≠ e := by
        rintro rfl
        omega
      simp only [Reader.memtable,mem,Option.getD_none,added,Reader.layers,Set.mem_union,mem_entrySet,mem_add,other,
        false_or]
  · cases tracks
    refine ⟨r,?_,rfl,rfl,rfl⟩
    rw [List.getElem?_append_left (List.getElem?_eq_some_iff.mp there).1]
    exact there
  · simp only [Action.track] at tracks
    split at tracks
    · cases tracks
    · rename_i other
      cases tracks
      refine ⟨r,?_,rfl,rfl,rfl⟩
      rw [List.getElem?_eraseIdx]
      by_cases before : index < i
      · rw [if_pos before,if_neg (by omega),Nat.sub_add_cancel (by omega)]
        exact there
      · rw [if_neg before,if_pos (by omega)]
        exact there

theorem System.Inv.run_visible {as : List (Action K V)} (inv : y.Inv o) (okay : ∀ a ∈ as, a.ok = true)
    (automatic : ∀ a ∈ as, a.automatic = true) (run : y.run o as = some y') {i i' : Nat} {r : Reader K V}
    (tracks : trackAll as i = some i') (there : y.readers[i]? = some r) :
    ∃ r', y'.readers[i']? = some r' ∧ r'.sequence = r.sequence ∧ r'.history = r.history ∧ r'.visible y' = r.visible y := by
  induction as generalizing y i r with
  | nil =>
    cases run
    cases tracks
    exact ⟨r,there,rfl,rfl,rfl⟩
  | cons a rest ih =>
    obtain ⟨next,step,later⟩ := Option.bind_eq_some_iff.mp run
    obtain ⟨j,first,others⟩ := Option.bind_eq_some_iff.mp tracks
    have okay' := okay a List.mem_cons_self
    obtain ⟨r₁,there₁,sequence₁,history₁,visible₁⟩ := inv.step_visible okay' step first there
    obtain ⟨r',there',sequence,history,visible⟩ := ih (inv.step okay' (automatic a List.mem_cons_self) step)
      (fun b hb => okay b (List.mem_cons_of_mem _ hb)) (fun b hb => automatic b (List.mem_cons_of_mem _ hb)) later
      others there₁
    exact ⟨r',there',sequence.trans sequence₁,history.trans history₁,visible.trans visible₁⟩

/-- What is visible as of a number stays so while the database is open. -/
theorem System.Inv.step_carried {db : Db K V} {n : Nat} (inv : y.Inv o) (okay : a.ok = true)
    (alive : ∀ cut, a ≠ .db (.crash cut)) (step : y.step o a = some y') (running : y.state.process = .running db)
    (visible : n ≤ db.versions.lastSequence) (whole : y.state.history.Whole n) :
    ∃ db', y'.state.process = .running db' ∧ n ≤ db'.versions.lastSequence ∧ y'.state.history.Whole n ∧
      y'.state.history.upTo n = y.state.history.upTo n := by
  obtain ⟨l,s',rfl,isStep,rfl,-⟩ | ⟨g,-,-,-,rfl⟩ | ⟨snapshot,-,-,-,-,rfl⟩ | ⟨index,-,rfl⟩ := System.step_cases step
  · rw [System.after_state]
    obtain ⟨cut,isCrash,-⟩ | ⟨db',running',stepped⟩ | ⟨notRunning,-⟩ := LevelDB.step_cases isStep
    · cases l <;> first | exact absurd rfl (alive _) | cases isCrash
    · have same := running.symm.trans running'
      cases same
      obtain ⟨db'',running'',sight,-⟩ := inv.sight running okay stepped
      have numbered := State.sight_numbered (inv.inv.running running)
      exact ⟨db'',running'',visible.trans (sight.last_le numbered),sight.carried numbered visible whole⟩
    · exact absurd running (notRunning db)
  · exact ⟨db,running,visible,whole,rfl⟩
  · exact ⟨db,running,visible,whole,rfl⟩
  · exact ⟨db,running,visible,whole,rfl⟩

theorem System.Inv.run_carried {as : List (Action K V)} {db : Db K V} {n : Nat} (inv : y.Inv o)
    (okay : ∀ a ∈ as, a.ok = true) (automatic : ∀ a ∈ as, a.automatic = true)
    (alive : ∀ cut, Action.db (.crash cut) ∉ as) (run : y.run o as = some y')
    (running : y.state.process = .running db) (visible : n ≤ db.versions.lastSequence)
    (whole : y.state.history.Whole n) : y'.state.history.upTo n = y.state.history.upTo n := by
  induction as generalizing y db with
  | nil =>
    cases run
    rfl
  | cons a rest ih =>
    obtain ⟨next,step,later⟩ := Option.bind_eq_some_iff.mp run
    have okay' := okay a List.mem_cons_self
    have alive' : ∀ cut, a ≠ .db (.crash cut) := by
      rintro cut rfl
      exact alive cut List.mem_cons_self
    obtain ⟨db',running',visible',whole',same⟩ := inv.step_carried okay' alive' step running visible whole
    have rest := ih (inv.step okay' (automatic a List.mem_cons_self) step)
      (fun b hb => okay b (List.mem_cons_of_mem _ hb)) (fun b hb => automatic b (List.mem_cons_of_mem _ hb))
      (fun cut hb => alive cut (List.mem_cons_of_mem _ hb)) later running' visible' whole'
    exact rest.trans same

end Tracking

section Answers
variable {o : Options K V} {y y' : System K V} {r : Reader K V} {db : Db K V}

omit [LinearOrder K] in
theorem History.Whole.allOrNone {n : Nat} (whole : y.state.history.Whole n) :
    y.AllOrNone n (y.state.history.upTo n) := by
  refine ⟨List.filter_subset_self _,fun r hr => ?_⟩
  have member : r ∈ y.state.history.upTo n ↔ r.2.sequence ≤ n := by simp [History.upTo,hr]
  rw [member]
  by_cases first : r.2.sequence ≤ n
  · refine .inl ⟨first,fun e he => ?_⟩
    exact ((whole.mem_upTo e).mp (mem_history_set.mpr ⟨r,member.mpr first,he⟩)).2
  · refine .inr ⟨first,fun e he => ?_⟩
    obtain ⟨i,-,number,-⟩ := mem_batch_entries he
    omega

theorem Reader.Sees.tree {mem : MemTable K V} {tables : Tables K V} {reach : Nat} (sees : r.Sees mem tables reach)
    (db : Db K V) : (r.hold db mem).Tree tables :=
  ⟨sees.wf,sees.memSorted,sees.immSorted,sees.memNewer,sees.immNewer⟩

theorem Reader.get_eq (running : y.state.process = .running db) (user : K) :
    r.get y user = (r.hold db (r.memtable y db)).get y.state.disk.table user r.sequence := by
  rw [Reader.get,State.db_eq.mpr running]
  rfl

theorem System.Inv.open (inv : y.Inv o) (member : r ∈ y.readers) : ∃ db, y.state.process = .running db := by
  by_contra none
  rw [inv.files.closed fun db running => none ⟨db,running⟩] at member
  cases member

theorem System.Inv.answers (inv : y.Inv o) (member : r ∈ y.readers) : r.Answers y := by
  obtain ⟨db,running⟩ := inv.open member
  obtain ⟨-,same,whole,sees⟩ := (inv.views db running).readers r member
  refine ⟨?_,fun user => ?_,?_⟩
  · rw [same]
    exact whole.allOrNone
  · rw [Reader.get_eq running]
    exact sees.get db user
  · obtain ⟨visits,delivers,sorted,found⟩ := (sees.tree db).scan r.sequence
    refine ⟨visits,⟨db,running,delivers⟩,sorted,fun user value => ?_⟩
    rw [Reader.get_eq running]
    exact found user value

theorem System.Inv.distinct (inv : y.Inv o) (running : y.state.process = .running db) (n : Nat) :
    Distinct (y.state.history.upTo n).set := by
  obtain ⟨m,disk,-⟩ := inv.inv.running running
  exact disk.ordered.distinct.mono (History.set_mono (List.filter_subset_self _))

/-- A reader that keeps its history keeps its answers. -/
theorem System.Inv.answers_same {r' : Reader K V} (inv : y.Inv o) (inv' : y'.Inv o) (member : r ∈ y.readers)
    (member' : r' ∈ y'.readers) (sequence : r'.sequence = r.sequence) (history : r'.history = r.history) :
    r'.get y' = r.get y ∧ ∃ visits, r.Shows y visits ∧ r'.Shows y' visits := by
  obtain ⟨-,reads,visits,shows_,sorted,found⟩ := inv.answers member
  obtain ⟨-,reads',visits',shows',sorted',found'⟩ := inv'.answers member'
  obtain ⟨db,running⟩ := inv.open member
  have same : r'.get y' = r.get y := by
    funext user
    have read := reads' user
    rw [sequence,history] at read
    refine Versioned.Reads.unique ?_ read (reads user)
    rw [((inv.views db running).readers r member).2.1]
    exact inv.distinct running r.sequence
  have equal : visits' = visits := by
    have members : ∀ a, a ∈ visits' ↔ a ∈ visits := by
      rintro ⟨user,value⟩
      rw [found',found,same]
    have nodup : ∀ {l : List (K × V)}, (l.Pairwise fun a b => a.1 < b.1) → l.Nodup := by
      intro l pairwise
      exact pairwise.imp fun {a b} less same => absurd (congrArg Prod.fst same) less.ne
    refine ((List.perm_ext_iff_of_nodup (nodup sorted') (nodup sorted)).mpr members).eq_of_pairwise
      (fun a b _ _ less more => absurd less more.asymm) sorted' sorted
  rw [equal] at shows'
  exact ⟨same,visits,shows_,shows'⟩

theorem System.Inv.snapshot {p : Nat × History K V} (inv : y.Inv o) (member : p ∈ y.snapshots) :
    ∃ db, y.state.process = .running db ∧ p.1 ∈ db.snapshots := by
  by_cases open_ : ∃ db, y.state.process = .running db
  · obtain ⟨db,running⟩ := open_
    refine ⟨db,running,?_⟩
    rw [← (inv.views db running).snapshots]
    exact List.mem_map_of_mem member
  · rw [(inv.closed fun db running => open_ ⟨db,running⟩).2] at member
    cases member

/-- `Get` with a live snapshot. -/
theorem System.Inv.getAt_reads (inv : y.Inv o) (running : y.state.process = .running db) {n : Nat}
    (live : n ∈ db.snapshots) (user : K) : Reads (y.state.history.upTo n).set user n (y.getAt n user) := by
  obtain ⟨-,-,sees⟩ := (inv.views db running).openReader (inv.inv.running running) (.inr live)
  rw [System.getAt,State.db_eq.mpr running]
  simp only [Option.bind_some]
  rw [Reader.get_eq running]
  exact sees.get db user

/-- Atomic visibility. What a reader or a live snapshot sees is made of whole records: each
record of the history is in it with all its updates or with none. It stays the same as
long as the reader is open or the snapshot is live, whatever is inserted, switched, flushed,
compacted and removed meanwhile. -/
theorem atomic_visibility {as : List (Action K V)} (okay : ∀ a ∈ as, a.ok = true)
    (automatic : ∀ a ∈ as, a.automatic = true) (run : System.initial.run o as = some y) :
    (∀ r ∈ y.readers, r.Answers y) ∧
    (∀ db, y.state.process = .running db → y.snapshots.map (·.1) = db.snapshots) ∧
    (∀ p ∈ y.snapshots, y.AllOrNone p.1 p.2 ∧ ∀ user, Reads p.2.set user p.1 (y.getAt p.1 user)) ∧
    ∀ as' y', (∀ a ∈ as', a.ok = true) → (∀ a ∈ as', a.automatic = true) → y.run o as' = some y' →
      (∀ i i' r, trackAll as' i = some i' → y.readers[i]? = some r →
        ∃ r', y'.readers[i']? = some r' ∧ r'.sequence = r.sequence ∧ r'.history = r.history ∧
          r'.visible y' = r.visible y ∧ r'.get y' = r.get y ∧ ∃ visits, r.Shows y visits ∧ r'.Shows y' visits) ∧
      ((∀ cut, Action.db (.crash cut) ∉ as') → ∀ p ∈ y.snapshots, ∀ p' ∈ y'.snapshots, p'.1 = p.1 →
        p'.2 = p.2 ∧ y'.getAt p'.1 = y.getAt p.1) := by
  have inv := (System.initial_inv o).run okay automatic run
  refine ⟨fun r hr => inv.answers hr,fun db running => (inv.views db running).snapshots,fun p hp => ?_,?_⟩
  · obtain ⟨db,running,live⟩ := inv.snapshot hp
    obtain ⟨same,whole⟩ := (inv.views db running).captured p hp
    rw [same]
    exact ⟨whole.allOrNone,inv.getAt_reads running live⟩
  · intro as' y' okay' automatic' run'
    have inv' := inv.run okay' automatic' run'
    refine ⟨fun i i' r tracks there => ?_,fun alive p hp p' hp' number => ?_⟩
    · obtain ⟨r',there',sequence,history,visible⟩ := inv.run_visible okay' automatic' run' tracks there
      have same := inv.answers_same inv' (List.mem_of_getElem? there) (List.mem_of_getElem? there') sequence history
      exact ⟨r',there',sequence,history,visible,same⟩
    · obtain ⟨db,running,live⟩ := inv.snapshot hp
      obtain ⟨db',running',live'⟩ := inv'.snapshot hp'
      obtain ⟨captured,whole⟩ := (inv.views db running).captured p hp
      obtain ⟨captured',-⟩ := (inv'.views db' running').captured p' hp'
      obtain ⟨m,-,ok⟩ := inv.inv.running running
      have carried := inv.run_carried okay' automatic' alive run' running (ok.memory.visible p.1 live) whole
      rw [number] at captured' live' ⊢
      refine ⟨captured'.trans (carried.trans captured.symm),funext fun user => ?_⟩
      have reads' := inv'.getAt_reads running' live' user
      rw [carried] at reads'
      exact Versioned.Reads.unique (inv.distinct running p.1) reads' (inv.getAt_reads running live user)

/-- A reader that begins between the two insertions of a batch, and a snapshot that is
made then. -/
def halfwayRun : List (Action Nat Nat) :=
  withInserts 2 (openRun ++ writeRun 1 [(1,some 1),(2,some 1)] true 1) ++
    (writeRun 2 [(1,some 2),(2,some 2)] true 1).flatMap fun
      | .insertInto => [.insertEntry,.openReader none,.db .getSnapshot,.insertEntry,.db .insertInto]
      | l => [.db l]

/-- It sees the first batch and nothing of the second one. -/
theorem atomic_visibility_halfway :
    ∃ y r p, System.initial.run smallOptions halfwayRun = some y ∧ y.readers[0]? = some r ∧ y.snapshots[0]? = some p ∧
      (y.state.history.map fun x => x.2.sequence) = [1,3] ∧ r.sequence = 2 ∧ p.1 = 2 ∧
      y.AllOrNone 2 r.history ∧ Reads r.history.set 1 2 (r.get y 1) ∧ r.get y 1 = some 1 ∧ y.getAt 2 2 = some 1 ∧
      Reads p.2.set 2 2 (y.getAt 2 2) := by
  obtain ⟨y,run,found⟩ := exists_system smallOptions halfwayRun
    (fun y => decide ((y.state.history.map fun x => x.2.sequence) = [1,3] ∧
      y.readers[0]?.map (fun r : Reader Nat Nat => (r.sequence,r.get y 1)) = some (2,some 1) ∧
      y.snapshots[0]?.map (fun p : Nat × History Nat Nat => (p.1,y.getAt p.1 2)) = some (2,some 1))) (by decide)
  obtain ⟨numbers,reader,snapshot⟩ := of_decide_eq_true found
  obtain ⟨r,isReader,values⟩ := Option.map_eq_some_iff.mp reader
  obtain ⟨p,isSnapshot,values'⟩ := Option.map_eq_some_iff.mp snapshot
  obtain ⟨sequence,get⟩ := Prod.mk.inj values
  obtain ⟨number,getAt⟩ := Prod.mk.inj values'
  obtain ⟨readers,-,snapshots,-⟩ := atomic_visibility (by decide) (by decide) run
  obtain ⟨whole,reads,-⟩ := readers r (List.mem_of_getElem? isReader)
  obtain ⟨-,reads'⟩ := snapshots p (List.mem_of_getElem? isSnapshot)
  rw [sequence] at whole reads
  rw [number] at getAt reads'
  exact ⟨y,r,p,run,isReader,isSnapshot,numbers,sequence,number,whole,reads 1,get,getAt,reads' 2⟩

end Answers

end LevelDB
