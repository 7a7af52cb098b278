import LevelDB.Reachable

/-! Reads of an open database. Its memtables and its version are layers, each newer than
the next, that together hold the history as far as a live snapshot can tell; `Get` stops
at the first layer that has the key. -/
namespace LevelDB

variable {K V : Type} [LinearOrder K]

section Layers
variable {d : Disk K V} {h : History K V} {m : ManifestFile K V} {db : Db K V}

/-- The history, from the newest layer to the oldest: the pending record, the memtables
and what the version answers for. -/
structure Db.Layers (db : Db K V) (h : History K V) (mem imm old : Set (Entry K V)) : Prop where
  split : h.set = db.pending.set ∪ (mem ∪ (imm ∪ old))
  pending : ∀ e ∈ db.pending.set, db.versions.lastSequence < e.sequence
  mem : Newer mem (imm ∪ old)
  imm : Newer imm old

theorem Db.Memory.layers (memory : db.Memory h) (ordered : h.Ordered) :
    db.Layers h (entrySet db.mem) (entrySet (db.imm.getD [])) (h.before db.versions.logNumber).set := by
  obtain ⟨applied,split,mem,-⟩ := memory.applied
  have pendingLog : ∀ r ∈ db.pending, db.logfileNumber ≤ r.1 := by
    intro r hr
    rw [Db.pending] at hr
    split at hr <;> simp_all
  have before : h.before db.logfileNumber = applied.before db.logfileNumber := by
    rw [split]
    exact History.before_append _ _ _ pendingLog
  have old : (h.before db.logfileNumber).set =
      entrySet (db.imm.getD []) ∪ (h.before db.versions.logNumber).set := by
    rw [memory.imm,← History.before_before h memory.logs]
    exact History.set_split _ _
  have appliedOrdered : applied.Ordered := ordered.sublist (split ▸ List.sublist_append_left _ _)
  refine ⟨?_,?_,?_,?_⟩
  · rw [← old,mem,before,← History.set_split applied,split,History.set_append,Set.union_comm]
  · intro e he
    obtain ⟨r,hr,inBatch⟩ := mem_history_set.mp he
    obtain ⟨i,-,sequence,-⟩ := mem_batch_entries inBatch
    rw [Db.pending] at hr
    split at hr
    · rename_i g leader
      have first := (memory.group g (by simp [Db.group,leader])).1
      simp only [List.mem_singleton.mp hr,first] at sequence
      omega
    · rename_i g leader
      have first := (memory.group g (by simp [Db.group,leader])).1
      simp only [List.mem_singleton.mp hr,first] at sequence
      omega
    · cases hr
  · rw [← old,mem,before]
    exact appliedOrdered.since_newer db.logfileNumber
  · rw [memory.imm]
    have newer := (ordered.sublist List.filter_sublist : (h.before db.logfileNumber).Ordered).since_newer
      db.versions.logNumber
    rwa [History.before_before h memory.logs] at newer

/-- What an answer means to the caller of `Get`. -/
def SaverState.result : SaverState V → Option V
  | .found v => some v
  | _ => none

omit [LinearOrder K] in
theorem Answers.reads {S : Set (Entry K V)} {user : K} {snapshot : Nat} {state : SaverState V}
    (answers : Answers S user snapshot state) : Reads S user snapshot state.result := by
  rcases answers with ⟨e,newest,rfl⟩ | ⟨absent,rfl⟩
  · refine .inl ⟨e,newest,?_⟩
    cases e.value <;> rfl
  · exact .inr ⟨absent,rfl⟩

theorem Db.get_eq (db : Db K V) (tables : Tables K V) (user : K) (snapshot : Nat) :
    db.get tables user snapshot = ((getFrom db.mem user snapshot).orElse
      ((getFrom (db.imm.getD []) user snapshot).orElse
        (db.versions.current.get tables user snapshot))).result := by
  rw [Db.get]
  cases getFrom db.mem user snapshot with
  | notFound =>
    cases getFrom (db.imm.getD []) user snapshot with
    | notFound => cases db.versions.current.get tables user snapshot <;> rfl
    | found v => rfl
    | deleted => rfl
  | found v => rfl
  | deleted => rfl

/-- The entries that reads of an open database can meet. -/
def Db.entries (db : Db K V) (tables : Tables K V) : Set (Entry K V) :=
  entrySet db.mem ∪ (entrySet (db.imm.getD []) ∪ db.versions.current.entries tables)

/-- They are all of the history, and the newest of them answers. -/
theorem Db.Ok.get_entries (disk : d.Ok h db.versions.manifestFileNumber m) (ok : db.Ok d h m) :
    db.entries d.table ⊆ h.set ∧
      ∀ user snapshot, Reads (db.entries d.table) user snapshot (db.get d.table user snapshot) := by
  obtain ⟨split,-,memNewer,immNewer⟩ := ok.memory.layers disk.ordered
  have covers : Covers _ _ _ := ok.sound.covers
  have lower := covers.layer immNewer
  refine ⟨?_,fun user snapshot => ?_⟩
  · refine (lower.layer memNewer).subset.trans ?_
    rw [split]
    exact Set.subset_union_right
  · have immVersion : Newer (entrySet (db.imm.getD [])) (db.versions.current.entries d.table) :=
      immNewer.mono Set.Subset.rfl covers.subset
    have memVersion : Newer (entrySet db.mem)
        (entrySet (db.imm.getD []) ∪ db.versions.current.entries d.table) :=
      memNewer.mono Set.Subset.rfl lower.subset
    have answers := (Finds.layer memVersion
      (getFrom_finds db.mem ok.memory.memSorted.ordered user snapshot)
      (Finds.layer immVersion (getFrom_finds (db.imm.getD []) ok.memory.immSorted.ordered user snapshot)
        (ok.sound.wf.get_finds user snapshot))).answers
    rw [Db.get_eq]
    exact answers.reads

/-- A read as of a sequence number that no snapshot is under. -/
theorem Db.Ok.get_reads (disk : d.Ok h db.versions.manifestFileNumber m) (ok : db.Ok d h m) (user : K)
    (snapshot : Nat) (floor : db.smallestSnapshot ≤ snapshot)
    (visible : snapshot ≤ db.versions.lastSequence) :
    Reads h.set user snapshot (db.get d.table user snapshot) := by
  obtain ⟨split,pending,memNewer,immNewer⟩ := ok.memory.layers disk.ordered
  obtain ⟨inside,entries⟩ := ok.get_entries disk
  have covers : Covers _ _ _ := ok.sound.covers
  have all := (covers.layer immNewer).layer memNewer
  -- the history has an answer, the layers have the same one
  have finite : (entrySet db.mem ∪ (entrySet (db.imm.getD []) ∪
      (h.before db.versions.logNumber).set)).Finite :=
    (List.finite_toSet h.entries).subset fun e he => by
      have : e ∈ h.set := by
        rw [split]
        exact .inr he
      exact this
  obtain ⟨r,reads⟩ := Versioned.Reads.exists finite user snapshot
  have same : r = db.get d.table user snapshot :=
    Versioned.Reads.unique (disk.ordered.distinct.mono inside) (all.reads user snapshot r floor reads)
      (entries user snapshot)
  rw [split,← same]
  refine reads.lower fun e he _ seen => ?_
  have := pending e he
  omega

omit [LinearOrder K] in
theorem smallestSnapshot_le_live (sorted : db.snapshots.Pairwise (· ≤ ·))
    (visible : ∀ s ∈ db.snapshots, s ≤ db.versions.lastSequence) {snapshot : Nat}
    (live : snapshot = db.versions.lastSequence ∨ snapshot ∈ db.snapshots) :
    db.smallestSnapshot ≤ snapshot ∧ snapshot ≤ db.versions.lastSequence := by
  rcases live with rfl | member
  · exact ⟨smallestSnapshot_le db visible,le_rfl⟩
  · refine ⟨?_,visible snapshot member⟩
    rw [Db.smallestSnapshot]
    cases list : db.snapshots with
    | nil => simp [list] at member
    | cons first rest =>
      rw [list] at member sorted
      rcases List.mem_cons.mp member with rfl | later
      · exact le_rfl
      · exact (List.pairwise_cons.mp sorted).1 snapshot later

end Layers

section Runs
variable {o : Options K V} {ls : List (Label K V)} {s : State K V} {db : Db K V}

/-- Snapshot reads refine a map: `Get` as of the last sequence number or a live snapshot
answers with the newest update of the key that the snapshot sees. -/
theorem get_reads_history (okay : ∀ l ∈ ls, l.ok = true) (automatic : ∀ l ∈ ls, l.automatic = true)
    (run : State.initial.run o ls = some s) (running : s.process = .running db) (user : K) (snapshot : Nat)
    (live : snapshot = db.versions.lastSequence ∨ snapshot ∈ db.snapshots) :
    Reads s.history.set user snapshot (db.get s.disk.table user snapshot) := by
  obtain ⟨m,disk,ok⟩ := (inv_of_run okay automatic run).running running
  obtain ⟨floor,visible⟩ := smallestSnapshot_le_live ok.memory.snapshots ok.memory.visible live
  exact ok.get_reads disk user snapshot floor visible

/-- Key 1 is written, deleted, read by a snapshot and written again, flushed, and its
table moved down. -/
def snapshotRun : List (Label Nat Nat) :=
  openRun ++ writeRun 1 [(1,some 10),(2,some 20)] false 1 ++ writeRun 2 [(3,some 30),(1,none)] false 1 ++
    [.getSnapshot] ++ writeRun 3 [(1,some 50)] false 2 ++ flushRun ++ [.pick (.size 2)]

theorem get_reads_snapshot :
    ∃ s db, State.initial.run smallOptions snapshotRun = some s ∧ s.process = .running db ∧
      db.get s.disk.table 1 4 = none ∧ Reads s.history.set 1 4 (db.get s.disk.table 1 4) := by
  obtain ⟨s,db,run,running,found⟩ := exists_run smallOptions snapshotRun
    (fun s db => decide (4 ∈ db.snapshots ∧ db.get s.disk.table 1 4 = none)) (by decide)
  obtain ⟨live,read⟩ := of_decide_eq_true found
  exact ⟨s,db,run,running,read,get_reads_history (by decide) (by decide) run running 1 4 (.inr live)⟩

end Runs

/-- The memtables and the version of the process. A recovery has the memtable it fills
and the version that its edit makes so far. -/
def Process.tree : Process K V → Option (MemTable K V × MemTable K V × Version K)
  | .running db => some (db.mem,db.imm.getD [],db.versions.current)
  | .opening (.replay r) => some (r.mem.getD [],[],r.versions.current.apply r.edit)
  | .opening (.commit _ _ c _) => some ([],[],c.version)
  | _ => none

/-- The places of a tree, shallowest first: the memtables, the level-0 files by decreasing
file number, and the deeper levels. -/
def places (tables : Tables K V) (mem imm : MemTable K V) (v : Version K) : List (List (Entry K V)) :=
  [mem,imm] ++ ((v.files 0).insertionSort fun a b => b.number ≤ a.number).map (fun f => tables f.number) ++
    (List.range' 1 (kNumLevels - 1)).map fun level => (v.files level).flatMap fun f => tables f.number

section Places
variable {tables : Tables K V} {v : Version K}

omit [LinearOrder K] in
theorem mem_entriesAt (level : Nat) (e : Entry K V) :
    e ∈ v.entriesAt tables level ↔ e ∈ (v.files level).flatMap fun f => tables f.number := by
  simp [Version.entriesAt,filesSet]

theorem Version.Wf.places_newer (wf : v.Wf tables) {mem imm : MemTable K V}
    (first : Newer (entrySet mem) (entrySet imm ∪ v.entries tables))
    (second : Newer (entrySet imm) (v.entries tables)) :
    (places tables mem imm v).Pairwise fun p q =>
      ∀ a ∈ p, ∀ b ∈ q, a.userKey = b.userKey → b.sequence < a.sequence := by
  have level0 : ∀ p ∈ ((v.files 0).insertionSort fun a b => b.number ≤ a.number).map
      (fun f => tables f.number), ∀ e ∈ p, e ∈ v.entriesAt tables 0 := by
    intro p hp e he
    obtain ⟨f,hf,rfl⟩ := List.mem_map.mp hp
    exact ⟨f,(List.perm_insertionSort _ _).mem_iff.mp hf,he⟩
  have deeper : ∀ p ∈ (List.range' 1 (kNumLevels - 1)).map
      (fun level => (v.files level).flatMap fun f => tables f.number),
      ∃ level, 1 ≤ level ∧ ∀ e ∈ p, e ∈ v.entriesAt tables level := by
    intro p hp
    obtain ⟨level,hl,rfl⟩ := List.mem_map.mp hp
    exact ⟨level,(List.mem_range'_1.mp hl).1,fun e he => (mem_entriesAt level e).mpr he⟩
  rw [places,List.append_assoc]
  refine List.pairwise_append.mpr ⟨?_,List.pairwise_append.mpr ⟨?_,?_,?_⟩,?_⟩
  · refine List.pairwise_pair.mpr fun a ha b hb => first a ha b (.inl hb)
  · exact List.pairwise_map.mpr (wf.newest_first (v.files 0) (List.Sublist.refl _))
  · have order : (List.range' 1 (kNumLevels - 1)).Pairwise (· < ·) := List.pairwise_lt_range'
    refine List.pairwise_map.mpr (order.imp fun lt a ha b hb => ?_)
    exact wf.recent _ _ lt a ((mem_entriesAt _ a).mpr ha) b ((mem_entriesAt _ b).mpr hb)
  · intro p hp q hq a ha b hb
    obtain ⟨level,deep,inside⟩ := deeper q hq
    exact wf.recent 0 level deep a (level0 p hp a ha) b (inside b hb)
  · intro p hp q hq a ha b hb
    have inVersion : b ∈ v.entries tables := by
      rcases List.mem_append.mp hq with shallow | deep
      · exact ⟨0,level0 q shallow b hb⟩
      · obtain ⟨level,-,inside⟩ := deeper q deep
        exact ⟨level,inside b hb⟩
    rcases List.mem_cons.mp hp with rfl | rest
    · exact first a ha b (.inr inVersion)
    · rw [List.mem_singleton.mp rest] at ha
      exact second a ha b inVersion

/-- Within a level the entries of one key come newest first. -/
theorem Version.Wf.level_newer (wf : v.Wf tables) (level : Nat) (deep : 1 ≤ level)
    (distinct : Distinct (v.entries tables)) :
    ((v.files level).flatMap fun f => tables f.number).Pairwise fun a b =>
      a.userKey = b.userKey → b.sequence < a.sequence := by
  have sorted := concat_sorted tables (v.files level) (wf.holds level) (wf.disjoint level deep)
  refine List.Pairwise.imp_of_mem ?_ sorted
  intro a b ha hb lt same
  refine lt_of_le_of_ne (sequence_le_of_key_le same lt.le) fun equal => ?_
  have inside : ∀ e ∈ (v.files level).flatMap fun f => tables f.number, e ∈ v.entries tables :=
    fun e he => ⟨level,(mem_entriesAt level e).mpr he⟩
  exact absurd (distinct b (inside b hb) a (inside a ha) same.symm equal) (by rintro rfl; exact lt_irrefl _ lt)

end Places

section Recency
variable {o : Options K V} {ls : List (Label K V)} {s : State K V}

/-- The tree of a state that keeps the invariant. -/
theorem State.Inv.tree (inv : s.Inv) {mem imm : MemTable K V} {v : Version K}
    (tree : s.process.tree = some (mem,imm,v)) :
    v.Wf s.disk.table ∧ Distinct (v.entries s.disk.table) ∧
      Newer (entrySet mem) (entrySet imm ∪ v.entries s.disk.table) ∧
      Newer (entrySet imm) (v.entries s.disk.table) := by
  have ordered := inv.ordered
  cases process : s.process with
  | down =>
    rw [process] at tree
    cases tree
  | running db =>
    obtain ⟨m,disk,ok⟩ := inv.running process
    rw [process] at tree
    cases tree
    obtain ⟨-,-,memNewer,immNewer⟩ := ok.memory.layers disk.ordered
    have covers := ok.sound.covers
    refine ⟨ok.sound.wf,ok.sound.distinct ?_,memNewer.mono Set.Subset.rfl ?_,
      immNewer.mono Set.Subset.rfl covers.subset⟩
    · exact disk.ordered.distinct.mono (History.set_mono (History.before_subset _ _))
    · exact Set.union_subset_union_right _ covers.subset
  | opening p =>
    rw [State.Inv,process] at inv
    cases p with
    | newDb synced =>
      rw [process] at tree
      cases tree
    | recover =>
      rw [process] at tree
      cases tree
    | failed => exact inv.elim
    | replay r =>
      rw [process] at tree
      cases tree
      obtain ⟨number,m,disk,ok⟩ := inv
      obtain ⟨flushed,memory,split,sound,-,set,-⟩ := ok.split
      have replayed : (flushed ++ memory).Ordered := ordered.sublist (split ▸ List.sublist_append_left _ _)
      have newer : Newer (History.set memory) (History.set flushed) := replayed.newer
      refine ⟨sound.wf,sound.distinct ?_,?_,?_⟩
      · exact (replayed.sublist (List.sublist_append_left _ _) : History.Ordered flushed).distinct
      · rw [set]
        refine newer.mono Set.Subset.rfl (Set.union_subset ?_ sound.covers.subset)
        exact fun e he => absurd he List.not_mem_nil
      · exact fun e he => absurd he List.not_mem_nil
    | commit versions log c stage =>
      rw [process] at tree
      cases tree
      have sound := inv.1.sound
      refine ⟨sound.wf,sound.distinct ordered.distinct,?_,?_⟩
      · exact fun e he => absurd he List.not_mem_nil
      · exact fun e he => absurd he List.not_mem_nil

/-- The recency order of the tree: an entry in a shallower place is newer. -/
theorem recency (okay : ∀ l ∈ ls, l.ok = true) (automatic : ∀ l ∈ ls, l.automatic = true)
    (run : State.initial.run o ls = some s) {mem imm : MemTable K V} {v : Version K}
    (tree : s.process.tree = some (mem,imm,v)) :
    ((places s.disk.table mem imm v).Pairwise fun p q =>
      ∀ a ∈ p, ∀ b ∈ q, a.userKey = b.userKey → b.sequence < a.sequence) ∧
    ∀ level, 1 ≤ level → ((v.files level).flatMap fun f => s.disk.table f.number).Pairwise fun a b =>
      a.userKey = b.userKey → b.sequence < a.sequence := by
  obtain ⟨wf,distinct,first,second⟩ := (inv_of_run okay automatic run).tree tree
  exact ⟨wf.places_newer first second,fun level deep => wf.level_newer level deep distinct⟩

/-- A write goes through a crash to a table of level 0, and is written over. -/
def recoveredRun : List (Label Nat Nat) :=
  openRun ++ writeRun 1 [(1,some 10),(2,some 20)] true 1 ++ crashRun (fun _ => 0) 6 ++
    writeRun 2 [(1,some 11)] false 1

theorem recency_recovered :
    ∃ s db, State.initial.run smallOptions recoveredRun = some s ∧ s.process = .running db ∧
      db.mem ≠ [] ∧ db.versions.current.files 0 ≠ [] ∧
      (places s.disk.table db.mem (db.imm.getD []) db.versions.current).Pairwise fun p q =>
        ∀ a ∈ p, ∀ b ∈ q, a.userKey = b.userKey → b.sequence < a.sequence := by
  obtain ⟨s,db,run,running,found⟩ := exists_run smallOptions recoveredRun
    (fun _ db => decide (db.mem ≠ [] ∧ db.versions.current.files 0 ≠ [])) (by decide)
  obtain ⟨mem,table⟩ := of_decide_eq_true found
  exact ⟨s,db,run,running,mem,table,(recency (by decide) (by decide) run (by rw [running]; rfl)).1⟩

end Recency

end LevelDB
