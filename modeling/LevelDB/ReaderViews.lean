import LevelDB.Readers

/-! What a reader sees. It goes through a memtable that may still grow, the memtable that
was being flushed and a version, and answers as the history did when it began: what is
added later has higher numbers than the one it took, and the tables of its version stay. -/
namespace LevelDB

variable {K V : Type} [LinearOrder K]

/-- Every record is wholly up to the sequence number or wholly after it. -/
def History.Whole (h : History K V) (sequence : Nat) : Prop :=
  ∀ r ∈ h, (∀ e ∈ r.2.entries, e.sequence ≤ sequence) ∨ ∀ e ∈ r.2.entries, sequence < e.sequence

/-- The entries that a reader meets in these memtables and tables. -/
def Reader.layers (r : Reader K V) (mem : MemTable K V) (tables : Tables K V) : Set (Entry K V) :=
  entrySet mem ∪ (entrySet (r.imm.getD []) ∪ r.version.entries tables)

/-- The layers are in order, have numbers up to `reach`, and answer as the history does. -/
structure Reader.Sees (r : Reader K V) (mem : MemTable K V) (tables : Tables K V) (reach : Nat) : Prop where
  memSorted : SortedEntries mem
  immSorted : SortedEntries (r.imm.getD [])
  wf : r.version.Wf tables
  memNewer : Newer (entrySet mem) (entrySet (r.imm.getD []) ∪ r.version.entries tables)
  immNewer : Newer (entrySet (r.imm.getD [])) (r.version.entries tables)
  distinct : Distinct (r.layers mem tables)
  bounded : ∀ e ∈ r.layers mem tables, e.sequence ≤ reach
  reads : ∀ user v, Reads r.history.set user r.sequence v → Reads (r.layers mem tables) user r.sequence v

/-- The database as `DBImpl::Get` goes through it with the references of the reader. -/
def Reader.hold (r : Reader K V) (db : Db K V) (mem : MemTable K V) : Db K V :=
  { db with
    mem
    imm := r.imm
    versions := { db.versions with current := r.version } }

section Whole
variable {h : History K V} {sequence : Nat}

omit [LinearOrder K] in
/-- The records that a snapshot sees are those with an entry up to its number. -/
theorem History.Whole.mem_upTo (whole : h.Whole sequence) (e : Entry K V) :
    e ∈ (h.upTo sequence).set ↔ e ∈ h.set ∧ e.sequence ≤ sequence := by
  simp only [mem_history_set,History.upTo,List.mem_filter,decide_eq_true_eq]
  constructor
  · rintro ⟨r,⟨hr,first⟩,he⟩
    refine ⟨⟨r,hr,he⟩,?_⟩
    rcases whole r hr with visible | later
    · exact visible e he
    · obtain ⟨i,bound,number,-⟩ := mem_batch_entries he
      have nonempty : 0 < r.2.entries.length := List.length_pos_of_mem he
      have head := later _ (List.getElem_mem nonempty)
      simp only [WriteBatch.entries,List.getElem_mapIdx] at head
      omega
  · rintro ⟨⟨r,hr,he⟩,visible⟩
    refine ⟨r,⟨hr,?_⟩,he⟩
    obtain ⟨i,-,number,-⟩ := mem_batch_entries he
    omega

omit [LinearOrder K] in
/-- A record with higher numbers is added to the history. -/
theorem History.Whole.append (whole : h.Whole sequence) (r : Nat × WriteBatch K V) (later : sequence < r.2.sequence) :
    History.Whole (h ++ [r]) sequence ∧ History.upTo (h ++ [r]) sequence = h.upTo sequence := by
  constructor
  · intro x hx
    rcases List.mem_append.mp hx with old | new
    · exact whole x old
    · refine .inr fun e he => ?_
      rw [List.mem_singleton.mp new] at he
      obtain ⟨i,-,number,-⟩ := mem_batch_entries he
      omega
  · rw [History.upTo,List.filter_append,List.filter_singleton,decide_eq_false (not_le.mpr later)]
    simp [History.upTo]

end Whole

section Sees
variable {r : Reader K V} {mem : MemTable K V} {tables tables' : Tables K V} {reach reach' : Nat}

theorem Reader.Sees.raise (sees : r.Sees mem tables reach) (le : reach ≤ reach') : r.Sees mem tables reach' :=
  ⟨sees.memSorted,sees.immSorted,sees.wf,sees.memNewer,sees.immNewer,sees.distinct,
    fun e he => (sees.bounded e he).trans le,sees.reads⟩

/-- Another reader with the same references. -/
theorem Reader.Sees.same {r' : Reader K V} (sees : r.Sees mem tables reach) (sequence : r'.sequence = r.sequence)
    (imm : r'.imm = r.imm) (version : r'.version = r.version) (history : r'.history = r.history) :
    r'.Sees mem tables reach := by
  have layers : r'.layers mem tables = r.layers mem tables := by rw [Reader.layers,Reader.layers,imm,version]
  refine ⟨sees.memSorted,by rw [imm]; exact sees.immSorted,by rw [version]; exact sees.wf,
    by rw [imm,version]; exact sees.memNewer,by rw [imm,version]; exact sees.immNewer,by rw [layers]; exact sees.distinct,
    by rw [layers]; exact sees.bounded,?_⟩
  rw [layers,sequence,history]
  exact sees.reads

/-- Only the tables of the version matter. -/
theorem Reader.Sees.frame (sees : r.Sees mem tables reach)
    (same : ∀ l, ∀ f ∈ r.version.files l, tables' f.number = tables f.number) : r.Sees mem tables' reach := by
  have entries := Version.entries_congr same
  have layers : r.layers mem tables' = r.layers mem tables := by rw [Reader.layers,Reader.layers,entries]
  exact ⟨sees.memSorted,sees.immSorted,sees.wf.congr same,by rw [entries]; exact sees.memNewer,
    by rw [entries]; exact sees.immNewer,by rw [layers]; exact sees.distinct,by rw [layers]; exact sees.bounded,
    by rw [layers]; exact sees.reads⟩

/-- An entry with a higher number is added to the memtable. -/
theorem Reader.Sees.add {e : Entry K V} (sees : r.Sees mem tables reach) (sequence : r.sequence ≤ reach)
    (above : reach < e.sequence) : r.Sees (mem.add e) tables e.sequence := by
  have layers : r.layers (mem.add e) tables = insert e (r.layers mem tables) := by
    ext a
    simp only [Reader.layers,Set.mem_union,mem_entrySet,mem_add,Set.mem_insert_iff]
    tauto
  have older : ∀ a ∈ r.layers mem tables, a.sequence < e.sequence := fun a ha => (sees.bounded a ha).trans_lt above
  refine ⟨add_sorted sees.memSorted e fun a ha same => ?_,sees.immSorted,sees.wf,?_,sees.immNewer,?_,?_,?_⟩
  · have number : a.sequence = e.sequence := congrArg InternalKey.sequence same
    exact absurd number (older a (.inl ha)).ne
  · intro a ha b hb keyed
    rcases (mem_add mem e a).mp ha with rfl | old
    · exact older b (.inr hb)
    · exact sees.memNewer a old b hb keyed
  · rw [layers]
    rintro a (rfl | ha) b (rfl | hb) keyed number
    · rfl
    · exact absurd number.symm (older b hb).ne
    · exact absurd number (older a ha).ne
    · exact sees.distinct a ha b hb keyed number
  · rw [layers]
    rintro a (rfl | ha)
    · exact le_rfl
    · exact (older a ha).le
  · intro user v reads
    rw [layers]
    refine (sees.reads user v reads).visible fun a visible => ?_
    have other : a ≠ e := by
      rintro rfl
      omega
    exact ⟨.inr,fun member => member.resolve_left other⟩

/-- Entries with higher and higher numbers are added. -/
theorem Reader.Sees.addAll (entries : List (Entry K V)) (sees : r.Sees mem tables reach) (sequence : r.sequence ≤ reach)
    (increasing : entries.Pairwise fun a b => a.sequence < b.sequence) (above : ∀ e ∈ entries, reach < e.sequence)
    (le : reach ≤ reach') (below : ∀ e ∈ entries, e.sequence ≤ reach') :
    r.Sees (entries.foldl MemTable.add mem) tables reach' := by
  induction entries generalizing mem reach with
  | nil => exact sees.raise le
  | cons e rest ih =>
    obtain ⟨first,tail⟩ := List.pairwise_cons.mp increasing
    have here := above e List.mem_cons_self
    exact ih (sees.add sequence here) (sequence.trans here.le) tail first (below e List.mem_cons_self)
      fun a ha => below a (List.mem_cons_of_mem _ ha)

/-- `Get` answers as the history did when the reader began. -/
theorem Reader.Sees.get (sees : r.Sees mem tables reach) (db : Db K V) (user : K) :
    Reads r.history.set user r.sequence ((r.hold db mem).get tables user r.sequence) := by
  have answers := (Finds.layer sees.memNewer (getFrom_finds mem sees.memSorted.ordered user r.sequence)
    (Finds.layer sees.immNewer (getFrom_finds (r.imm.getD []) sees.immSorted.ordered user r.sequence)
      (sees.wf.get_finds user r.sequence))).answers
  obtain ⟨v,reads⟩ := Versioned.Reads.exists (List.finite_toSet r.history.entries) user r.sequence
  have same : v = (r.hold db mem).get tables user r.sequence := by
    rw [Db.get_eq]
    exact Versioned.Reads.unique sees.distinct (sees.reads user v reads) answers.reads
  rw [← same]
  exact reads

end Sees

section Open
variable {d : Disk K V} {h : History K V} {m : ManifestFile K V} {db : Db K V}

omit [LinearOrder K] in
theorem Db.lastSequence_le (db : Db K V) (group : ∀ g, db.group = some g →
    g.batch.sequence = db.versions.lastSequence + 1 ∧
      g.lastSequence = db.versions.lastSequence + g.batch.count ∧ g.lastSequence < kMaxSequenceNumber) :
    db.versions.lastSequence ≤ db.lastApplied := by
  rw [Db.lastApplied]
  split
  · rename_i g status syncError leader
    have last := (group g (by simp [Db.group,leader])).2.1
    omega
  · exact le_rfl

/-- A reader that begins now. -/
theorem Db.Ok.sees (disk : d.Ok h db.versions.manifestFileNumber m) (ok : db.Ok d h m) {sequence : Nat}
    (whole : h.Whole sequence) (floor : db.smallestSnapshot ≤ sequence)
    (visible : sequence ≤ db.versions.lastSequence) :
    Reader.Sees ⟨sequence,none,db.imm,db.versions.current,h.upTo sequence⟩ db.mem d.table db.lastApplied := by
  obtain ⟨split,pending,memNewer,immNewer⟩ := ok.memory.layers disk.ordered
  have covers : Covers _ _ _ := ok.sound.covers
  have lower := covers.layer immNewer
  have all := lower.layer memNewer
  have inHistory : entrySet db.mem ∪ (entrySet (db.imm.getD []) ∪ db.versions.current.entries d.table) ⊆ h.set := by
    refine all.subset.trans ?_
    rw [split]
    exact Set.subset_union_right
  refine ⟨ok.memory.memSorted,ok.memory.immSorted,ok.sound.wf,memNewer.mono Set.Subset.rfl lower.subset,
    immNewer.mono Set.Subset.rfl covers.subset,disk.ordered.distinct.mono inHistory,?_,?_⟩
  · obtain ⟨applied,-,mem,bounded⟩ := ok.memory.applied
    have last := db.lastSequence_le ok.memory.group
    have old : ∀ e ∈ (h.before db.logfileNumber).set, e.sequence ≤ db.lastApplied :=
      fun e he => (ok.memory.old e he).trans last
    rintro e (inMem | inImm | inVersion)
    · rw [mem] at inMem
      exact bounded e (History.set_mono (History.since_subset _ _) inMem)
    · rw [ok.memory.imm] at inImm
      exact old e (History.set_mono (History.since_subset _ _) inImm)
    · have covered := covers.subset inVersion
      rw [← History.before_before h ok.memory.logs] at covered
      exact old e (History.set_mono (History.before_subset _ _) covered)
  · intro user v reads
    refine all.reads user sequence v floor (reads.visible fun e seen => ?_)
    rw [whole.mem_upTo,split]
    constructor
    · rintro ⟨isPending | here,-⟩
      · exact absurd (pending e isPending) (by omega)
      · exact here
    · exact fun here => ⟨.inr here,seen⟩

end Open

/-- What matters of a database to its readers. -/
structure Sight (K V : Type) where
  mem : MemTable K V
  logfileNumber : Nat
  leader : Option (Leader K V)
  last : Nat
  snapshots : List Nat
  history : History K V

def State.sight (s : State K V) (db : Db K V) : Sight K V :=
  ⟨db.mem,db.logfileNumber,db.leader,db.versions.lastSequence,db.snapshots,s.history⟩

/-- What a step without I/O errors can do to it. -/
inductive Sight.Step (x : Sight K V) : Label K V → Sight K V → Prop
  | same (l : Label K V) (other : l ≠ .insertInto ∧ l ≠ .getSnapshot ∧ ∀ n, l ≠ .releaseSnapshot n) : Step x l x
  | lead (l : Label K V) (other : l ≠ .insertInto ∧ l ≠ .getSnapshot ∧ ∀ n, l ≠ .releaseSnapshot n)
    (leader : Option (Leader K V)) (before : groupOf x.leader = none)
    (after : groupOf leader = none ∨ ∃ g, leader = some (.logging g)) : Step x l { x with leader }
  | log (outcome : Append) (g : Group K V) (leader : Leader K V) (before : x.leader = some (.logging g))
    (after : leader = .syncing g ∨ leader = .inserting g) :
    Step x (.addRecord outcome) { x with
      leader := some leader
      history := x.history ++ [(x.logfileNumber,g.batch)] }
  | sync (status : Status) (g : Group K V) (before : x.leader = some (.syncing g)) :
    Step x (.syncLog status) { x with leader := some (.inserting g) }
  | insert (g : Group K V) (before : x.leader = some (.inserting g)) :
    Step x .insertInto { x with
      mem := g.batch.insertInto x.mem
      leader := some (.finishing g .ok false) }
  | finish (g : Group K V) (status : Status) (syncError : Bool) (before : x.leader = some (.finishing g status syncError)) :
    Step x .finishWrite { x with
      leader := none
      last := g.lastSequence }
  | switch (newFile close : Status) (leader : Option (Leader K V)) (log : Nat) (before : groupOf x.leader = none)
    (after : groupOf leader = none) (fresh : log ≠ x.logfileNumber) :
    Step x (.makeRoom newFile close) { x with
      mem := []
      logfileNumber := log
      leader }
  | snapshot : Step x .getSnapshot { x with snapshots := x.snapshots ++ [x.last] }
  | release (n : Nat) : Step x (.releaseSnapshot n) { x with snapshots := x.snapshots.erase n }

section Sight
variable {o : Options K V} {s s' : State K V} {db : Db K V} {l : Label K V}

theorem sight_step (same : s.process = .running db) (okay : l.ok = true)
    (number : db.logfileNumber < db.versions.nextFileNumber) (step : s.stepDb o db l = some s') :
    ∃ db', s'.process = .running db' ∧ (s.sight db).Step l (s'.sight db') := by
  cases background : l.background with
  | true =>
    obtain ⟨db',after⟩ := background_step same background step
    have sight : s'.sight db' = s.sight db := by
      simp only [State.sight,after.same.mem,after.same.logfileNumber,after.same.leader,after.same.lastSequence,
        after.same.snapshots,after.history]
    refine ⟨db',after.process,sight ▸ .same l ⟨?_,?_,?_⟩⟩
    · rintro rfl
      cases background
    · rintro rfl
      cases background
    · rintro n rfl
      cases background
  | false =>
    cases l with
    | enter id batch sync =>
      simp only [State.stepDb,State.enter] at step
      split at step
      · cases step
      · cases step
        exact ⟨_,rfl,.same _ (by simp)⟩
    | lead =>
      simp only [State.stepDb,State.lead] at step
      split at step
      · rename_i w rest leader writers
        cases step
        exact ⟨_,rfl,.lead _ (by simp) _ (by simp [State.sight,leader]) (.inl rfl)⟩
      · cases step
    | makeRoom newFile close =>
      obtain ⟨isNew,isClosed⟩ : newFile = .ok ∧ close = .ok := by simpa [Label.ok] using okay
      obtain ⟨force,delay,w,rest,leader,writers,outcome⟩ := makeRoom_cases step
      have before : groupOf (s.sight db).leader = none := by simp [State.sight,leader]
      rcases outcome with ⟨-,rfl⟩ | ⟨-,rfl⟩ | ⟨-,-,start⟩ | rfl | ⟨-,-,-,rfl⟩
      · exact ⟨_,rfl,.lead _ (by simp) _ before (.inl rfl)⟩
      · exact ⟨_,rfl,.lead _ (by simp) _ before (.inl rfl)⟩
      · obtain ⟨w',rest',-,⟨-,rfl⟩ | ⟨b,-,-,rfl⟩⟩ := startGroup_cases start
        · exact ⟨_,rfl,.lead _ (by simp) _ before (.inl rfl)⟩
        · have logging : ∀ g, (s.sight db).Step (.makeRoom newFile close)
              { s.sight db with leader := some (.logging g) } :=
            fun g => .lead _ (by simp) _ before (.inr ⟨g,rfl⟩)
          refine ⟨_,rfl,?_⟩
          split <;> exact logging _
      · exact ⟨db,same,.same _ (by simp)⟩
      · rw [State.switchMemTable,if_pos isClosed]
        exact ⟨_,rfl,.switch newFile close _ _ before rfl number.ne'⟩
    | addRecord outcome =>
      have fine : outcome = .ok := by simpa [Label.ok] using okay
      subst fine
      have step : s.addRecord db .ok = some s' := step
      obtain ⟨g,leader,⟨-,rfl⟩ | ⟨⟨⟩,-⟩ | ⟨⟨⟩,-⟩ | ⟨⟨⟩,-⟩⟩ := addRecord_cases step
      exact ⟨_,rfl,.log .ok g _ leader ((db.logged_cases g).imp (·.2) (·.2))⟩
    | syncLog status =>
      have fine : status = .ok := by simpa [Label.ok] using okay
      subst fine
      simp only [State.stepDb,State.syncLog] at step
      split at step
      · rename_i g leader
        cases step
        exact ⟨_,rfl,.sync .ok g leader⟩
      · cases step
    | insertInto =>
      simp only [State.stepDb,State.insertInto] at step
      split at step
      · rename_i g leader
        cases step
        exact ⟨_,rfl,.insert g leader⟩
      · cases step
    | finishWrite =>
      simp only [State.stepDb,State.finishWrite] at step
      split at step
      · rename_i g status syncError leader
        cases step
        refine ⟨_,rfl,?_⟩
        have step : (s.sight db).Step .finishWrite _ := .finish g status syncError leader
        split <;> exact step
      · cases step
    | getSnapshot =>
      cases step
      exact ⟨_,rfl,.snapshot⟩
    | releaseSnapshot snapshot =>
      cases step
      exact ⟨_,rfl,.release snapshot⟩
    | awaitFlush id =>
      simp only [State.stepDb,State.awaitFlush] at step
      split at step
      · cases step
        exact ⟨_,rfl,.same _ (by simp)⟩
      · cases step
    | requestCompaction level first last =>
      simp only [State.stepDb,State.requestCompaction] at step
      split at step
      · cases step
        exact ⟨_,rfl,.same _ (by simp)⟩
      · cases step
    | crash cut => cases step
    | openDb => cases step
    | newDb => cases step
    | recover => cases step
    | replay => cases step
    | openCommit => cases step
    | _ => cases background

end Sight

end LevelDB
