import LevelDB.FileRecovery

/-! Sequence numbers. Whatever a database has stored, in its memtables, its logs and the
tables that it or a crash could read again, has a number up to `LastSequence`, or belongs
to the group being written. A manifest knows a number that is high enough for the tables
and the logs that it has done with; the other logs are read when the database is opened,
so the numbers go on above everything that is still there. -/
namespace LevelDB

variable {K V : Type} [LinearOrder K]

/-- The entries in the logs. -/
def Disk.logSet (d : Disk K V) : Set (Entry K V) := {e | ∃ l ∈ d.logs, ∃ b ∈ l.records, e ∈ b.entries}

/-- The entries in the versions that a crash could bring back. -/
def Disk.recordedSet (d : Disk K V) (m : ManifestFile K V) : Set (Entry K V) :=
  {e | ∃ k, m.synced ≤ k ∧ k ≤ m.records.length ∧ e ∈ (m.upTo k).version.entries d.table}

/-- The logs before this one have numbers up to `last`. -/
def Disk.LogsUpTo (d : Disk K V) (log last : Nat) : Prop :=
  ∀ l ∈ d.logs, l.number < log → ∀ b ∈ l.records, ∀ e ∈ b.entries, e.sequence ≤ last

/-- The number in the manifest is high enough for all that it has done with. -/
structure Recovered.Numbered (r : Recovered K) (d : Disk K V) : Prop where
  tables : ∀ e ∈ r.version.entries d.table, e.sequence ≤ r.last
  logs : d.LogsUpTo r.log r.last

structure Disk.Sequences (d : Disk K V) (m : ManifestFile K V) : Prop where
  recorded : ∀ k, m.synced ≤ k → k ≤ m.records.length → (m.upTo k).Numbered d
  once : Set.InjOn Entry.sequence (d.logSet ∪ d.recordedSet m)

/-- The group that is being written has the entry. -/
def Core.Pending (c : Core K V) (e : Entry K V) : Prop := ∃ g, c.group = some g ∧ e ∈ g.batch.entries

/-- The entries in tables that are needed, and those on their way through a compaction. -/
def Core.tableSet (c : Core K V) (m : ManifestFile K V) : Set (Entry K V) :=
  {e | (∃ v, c.Live [] v ∧ e ∈ v.entries c.disk.table) ∨ e ∈ c.disk.recordedSet m ∨
    ∃ x, c.job.outer = some x ∧ (e ∈ x.remaining ∨ e ∈ x.kept)}

def Core.immSet (c : Core K V) : Set (Entry K V) := {e | ∃ imm, c.imm = some imm ∧ e ∈ imm}

def Core.storedSet (c : Core K V) (m : ManifestFile K V) : Set (Entry K V) :=
  {e | e ∈ c.mem ∨ e ∈ c.immSet ∨ e ∈ c.disk.logSet ∨ e ∈ c.tableSet m ∨ c.Pending e}

/-- The numbers of an edit on its way to the manifest. -/
structure Core.Announces (c : Core K V) (m : ManifestFile K V) (commit : Commit K) (log last : Nat) : Prop where
  isLog : commit.edit.logNumber = some log
  isLast : commit.edit.lastSequence = some last
  later : commit.stage = .append → (recoverRecords m.records).last ≤ last
  new : ∀ n ∈ commit.edit.newFiles, ∀ e ∈ c.disk.table n.2.number, e.sequence ≤ last
  logs : c.disk.LogsUpTo log last
  log : log ≤ c.logfileNumber
  last : last ≤ c.versions.lastSequence

structure Core.Sequences (c : Core K V) (m : ManifestFile K V) : Prop where
  group : ∀ g, c.group = some g → g.batch.sequence = c.versions.lastSequence + 1 ∧
    g.lastSequence = c.versions.lastSequence + g.batch.count
  mem : ∀ e ∈ c.mem, e.sequence ≤ c.versions.lastSequence ∨ c.Pending e
  imm : ∀ e ∈ c.immSet, e.sequence ≤ c.versions.lastSequence
  logs : ∀ l ∈ c.disk.logs, ∀ b ∈ l.records, ∀ e ∈ b.entries,
    e.sequence ≤ c.versions.lastSequence ∨ l.number = c.logfileNumber ∧ c.Pending e
  tables : ∀ e ∈ c.tableSet m, e.sequence ≤ c.versions.lastSequence
  logNumber : c.versions.logNumber ≤ c.logfileNumber
  recorded : ∀ k, m.synced ≤ k → k ≤ m.records.length → (m.upTo k).Numbered c.disk ∧
    (m.upTo k).log ≤ c.logfileNumber ∧ (m.upTo k).last ≤ c.versions.lastSequence
  commit : ∀ commit, c.job.commit = some commit → ∃ log last, c.Announces m commit log last
  once : Set.InjOn Entry.sequence (c.storedSet m)

section Entries
variable {v : Version K} {tables : Tables K V} {e : Entry K V}

/-- An edit brings in its new files only. -/
theorem Version.entries_apply {edit : VersionEdit K} {file : Nat → Option (FileMetaData K)}
    (order : ∀ l, InOrder (v.files l)) (places : edit.Places file v) (member : e ∈ (v.apply edit).entries tables) :
    e ∈ v.entries tables ∨ ∃ n ∈ edit.newFiles, e ∈ tables n.2.number := by
  obtain ⟨l,f,hf,he⟩ := member
  rcases ((v.mem_apply edit order places.adds.fresh).2 l f).mp hf with added | ⟨old,-⟩
  · exact .inr ⟨(l,f),(mem_newAt edit l f).mp added,he⟩
  · exact .inl ⟨l,f,old,he⟩

/-- A new file of an edit is in the version after it. -/
theorem Version.entries_new {edit : VersionEdit K} {file : Nat → Option (FileMetaData K)}
    (order : ∀ l, InOrder (v.files l)) (places : edit.Places file v) {n : Nat × FileMetaData K}
    (new : n ∈ edit.newFiles) (member : e ∈ tables n.2.number) : e ∈ (v.apply edit).entries tables :=
  ⟨n.1,n.2,((v.mem_apply edit order places.adds.fresh).2 n.1 n.2).mpr (.inl ((mem_newAt edit n.1 n.2).mpr new)),member⟩

/-- The input of a compaction comes from its files. -/
theorem mem_inputEntries {x : Compaction K} (within : x.Within v) (member : e ∈ x.inputEntries tables) :
    e ∈ v.entries tables := by
  have merged : ∀ children : List (List (Entry K V)), e ∈ children.foldr mergeEntries [] → ∃ child ∈ children, e ∈ child := by
    intro children
    induction children with
    | nil => simp
    | cons child rest ih =>
      rw [List.foldr_cons,mergeEntries_eq,List.mem_merge]
      rintro (here | later)
      · exact ⟨child,List.mem_cons_self,here⟩
      · obtain ⟨other,member,there⟩ := ih later
        exact ⟨other,List.mem_cons_of_mem _ member,there⟩
  have file : ∀ fs : List (FileMetaData K), (∃ child ∈ fs.map (fun f => tables f.number), e ∈ child) →
      ∃ f ∈ fs, e ∈ tables f.number := by
    rintro fs ⟨child,member,there⟩
    obtain ⟨f,hf,rfl⟩ := List.mem_map.mp member
    exact ⟨f,hf,there⟩
  have inputs : (∃ f ∈ x.inputs0, e ∈ tables f.number) ∨ ∃ f ∈ x.inputs1, e ∈ tables f.number := by
    obtain ⟨child,isChild,there⟩ := merged _ member
    rcases List.mem_append.mp isChild with own | parent
    · refine .inl (file _ ?_)
      split at own
      · exact ⟨child,own,there⟩
      · rw [List.mem_singleton.mp own] at there
        exact List.mem_flatten.mp there
    · rw [List.mem_singleton.mp parent] at there
      exact .inr (file _ (List.mem_flatten.mp there))
  rcases inputs with ⟨f,hf,there⟩ | ⟨f,hf,there⟩
  · exact ⟨x.level,f,within.own f hf,there⟩
  · exact ⟨x.level + 1,f,within.parents f hf,there⟩

/-- A pass of a compaction makes no entries. -/
theorem advance_entries (o : Options K V) (number : Nat) {x : CompactionState K V} (more : x.remaining ≠ [])
    (member : e ∈ (x.advance o number).1.remaining ∨ e ∈ (x.advance o number).1.kept) :
    e ∈ x.remaining ∨ e ∈ x.kept := by
  obtain ⟨first,rest,head⟩ := List.exists_cons_of_ne_nil more
  obtain ⟨-,remaining,-⟩ := advance_same o number head
  rw [remaining] at member
  rcases member with later | kept
  · exact .inl (head ▸ List.mem_cons_of_mem _ later)
  · obtain ⟨-,-,files⟩ := beforeEntry_same (c := x) (e := first) o
    obtain ⟨-,files'⟩ := dropEntry_same (c := x.beforeEntry o first) (e := first)
    have sameKept : CompactionState.kept { ((x.beforeEntry o first).dropEntry first).2 with remaining := rest } = x.kept := by
      rw [CompactionState.kept,CompactionState.kept]
      exact congrArg _ (files'.trans files)
    rw [advance_eq o number head] at kept
    simp only at kept
    split at kept
    · exact .inr (sameKept ▸ kept)
    · rw [addEntry_kept,sameKept] at kept
      rcases List.mem_append.mp kept with old | new
      · exact .inr old
      · rw [List.mem_singleton.mp new,head]
        exact .inl List.mem_cons_self

end Entries

section Writers
variable {c c' : Core K V} {m : ManifestFile K V}

omit [LinearOrder K] in
theorem Disk.LogsUpTo.sub {d d' : Disk K V} {log last : Nat} (upTo : d.LogsUpTo log last)
    (closed : ∀ l ∈ d'.logs, l.number < log → ∀ b ∈ l.records, ∃ l' ∈ d.logs, l'.number = l.number ∧ b ∈ l'.records) :
    d'.LogsUpTo log last := by
  intro l hl before b hb
  obtain ⟨l',hl',number,hb'⟩ := closed l hl before b hb
  exact upTo l' hl' (number ▸ before) b hb'

omit [LinearOrder K] in
theorem Core.not_pending (free : c.group = none) (e : Entry K V) : ¬c.Pending e := by
  rintro ⟨g,group,-⟩
  rw [free] at group
  cases group

/-- While nobody writes, every number is in use up to `LastSequence` at most. -/
theorem Core.Sequences.bounded (seq : c.Sequences m) (free : c.group = none) :
    ∀ e ∈ c.storedSet m, e.sequence ≤ c.versions.lastSequence := by
  rintro e (mem | imm | ⟨l,hl,b,hb,he⟩ | table | pending)
  · exact (seq.mem e mem).resolve_right (Core.not_pending free e)
  · exact seq.imm e imm
  · exact (seq.logs l hl b hb e he).resolve_right fun both => Core.not_pending free e both.2
  · exact seq.tables e table
  · exact absurd pending (Core.not_pending free e)

/-- A writer leaves the tables alone and the logs before its own. -/
theorem Core.Sequences.writer (seq : c.Sequences m) (job : c'.job = c.job)
    (current : c'.versions.current = c.versions.current) (table : c'.disk.table = c.disk.table)
    (logNumber : c'.versions.logNumber = c.versions.logNumber)
    (last : c.versions.lastSequence ≤ c'.versions.lastSequence) (logfile : c.logfileNumber ≤ c'.logfileNumber)
    (closed : ∀ l ∈ c'.disk.logs, l.number < c.logfileNumber → ∀ b ∈ l.records,
      ∃ l' ∈ c.disk.logs, l'.number = l.number ∧ b ∈ l'.records)
    (group : ∀ g, c'.group = some g → g.batch.sequence = c'.versions.lastSequence + 1 ∧
      g.lastSequence = c'.versions.lastSequence + g.batch.count)
    (mem : ∀ e ∈ c'.mem, e.sequence ≤ c'.versions.lastSequence ∨ c'.Pending e)
    (imm : ∀ e ∈ c'.immSet, e.sequence ≤ c'.versions.lastSequence)
    (logs : ∀ l ∈ c'.disk.logs, ∀ b ∈ l.records, ∀ e ∈ b.entries,
      e.sequence ≤ c'.versions.lastSequence ∨ l.number = c'.logfileNumber ∧ c'.Pending e)
    (once : Set.InjOn Entry.sequence (c'.storedSet m)) : c'.Sequences m := by
  have upTo : ∀ {log last : Nat}, log ≤ c.logfileNumber → c.disk.LogsUpTo log last → c'.disk.LogsUpTo log last :=
    fun le old => old.sub fun l hl before => closed l hl (before.trans_le le)
  have tables : c'.tableSet m = c.tableSet m := by
    simp only [Core.tableSet,Core.Live,Disk.recordedSet,job,current,table]
  refine ⟨group,mem,imm,logs,?_,by rw [logNumber]; exact seq.logNumber.trans logfile,?_,?_,once⟩
  · rw [tables]
    exact fun e he => (seq.tables e he).trans last
  · intro k low high
    obtain ⟨⟨old,oldLogs⟩,log,lastIs⟩ := seq.recorded k low high
    exact ⟨⟨by rw [table]; exact old,upTo log oldLogs⟩,log.trans logfile,lastIs.trans last⟩
  · intro commit isCommit
    rw [job] at isCommit
    obtain ⟨log,last',announces⟩ := seq.commit commit isCommit
    exact ⟨log,last',announces.isLog,announces.isLast,announces.later,by rw [table]; exact announces.new,
      upTo announces.log announces.logs,announces.log.trans logfile,announces.last.trans last⟩

theorem Core.Sequences.start (seq : c.Sequences m) (g : Group K V) (free : c.group = none)
    (first : g.batch.sequence = c.versions.lastSequence + 1)
    (last : g.lastSequence = c.versions.lastSequence + g.batch.count) :
    Core.Sequences { c with group := some g } m := by
  have bounded := seq.bounded free
  have above : ∀ e ∈ g.batch.entries, c.versions.lastSequence < e.sequence := by
    intro e he
    obtain ⟨i,-,number,-⟩ := mem_batch_entries he
    omega
  refine seq.writer rfl rfl rfl rfl le_rfl le_rfl (fun l hl _ b hb => ⟨l,hl,rfl,hb⟩) ?_ (fun e he => .inl (bounded e (.inl he)))
    seq.imm (fun l hl b hb e he => .inl (bounded e (.inr (.inr (.inl ⟨l,hl,b,hb,he⟩))))) ?_
  · rintro _ ⟨⟩
    exact ⟨first,last⟩
  · have split : ∀ e ∈ Core.storedSet { c with group := some g } m, e ∈ c.storedSet m ∨ e ∈ g.batch.entries := by
      rintro e (mem | imm | log | table | ⟨_,⟨⟩,pending⟩)
      · exact .inl (.inl mem)
      · exact .inl (.inr (.inl imm))
      · exact .inl (.inr (.inr (.inl log)))
      · exact .inl (.inr (.inr (.inr (.inl table))))
      · exact .inr pending
    intro a ha b hb same
    rcases split a ha with old | new <;> rcases split b hb with old' | new'
    · exact seq.once old old' same
    · exact absurd (bounded a old) (by have := above b new'; omega)
    · exact absurd (bounded b old') (by have := above a new; omega)
    · by_contra ne
      rcases either_of_pairwise (batch_entries_sorted g.batch) a b new new' ne with before | after
      · omega
      · omega

theorem Core.Sequences.switch {o : Options K V} {loose : Bool} {held : List (Version K)}
    {file : Nat → Option (FileMetaData K)} (files : c.Files o loose held file m) (seq : c.Sequences m)
    (free : c.group = none) :
    Core.Sequences { c with
      disk := c.disk.newLog c.versions.nextFileNumber
      mem := []
      imm := some c.mem
      logfileNumber := c.versions.nextFileNumber
      versions := { c.versions with nextFileNumber := c.versions.nextFileNumber + 1 } } m := by
  have bounded := seq.bounded free
  have old : ∀ l ∈ (c.disk.newLog c.versions.nextFileNumber).logs, ∀ b ∈ l.records, l ∈ c.disk.logs := by
    intro l hl b hb
    rcases List.mem_append.mp hl with before | new
    · exact before
    · rw [List.mem_singleton.mp new] at hb
      cases hb
  refine seq.writer rfl rfl rfl rfl le_rfl files.logfile.le (fun l hl _ b hb => ⟨l,old l hl b hb,rfl,hb⟩) seq.group
    (fun e he => absurd he List.not_mem_nil) ?_
    (fun l hl b hb e he => .inl (bounded e (.inr (.inr (.inl ⟨l,old l hl b hb,b,hb,he⟩))))) (seq.once.mono ?_)
  · rintro e ⟨imm,isImm,he⟩
    cases isImm
    exact bounded e (.inl he)
  · rintro e (mem | ⟨imm,isImm,he⟩ | ⟨l,hl,b,hb,he⟩ | table | pending)
    · cases mem
    · cases isImm
      exact .inl he
    · exact .inr (.inr (.inl ⟨l,old l hl b hb,b,hb,he⟩))
    · exact .inr (.inr (.inr (.inl table)))
    · exact .inr (.inr (.inr (.inr pending)))

/-- The log of the writer changes: its new records are those of the group. -/
theorem Core.Sequences.updateLog (seq : c.Sequences m) (f : LogFile K V → LogFile K V)
    (number : ∀ l, (f l).number = l.number)
    (records : ∀ l, ∀ b ∈ (f l).records, b ∈ l.records ∨ ∃ g, c.group = some g ∧ b = g.batch) :
    Core.Sequences { c with disk := c.disk.updateLog c.logfileNumber f } m := by
  have old : ∀ l ∈ (c.disk.updateLog c.logfileNumber f).logs, ∃ l' ∈ c.disk.logs, l'.number = l.number ∧
      ∀ b ∈ l.records, b ∈ l'.records ∨ l.number = c.logfileNumber ∧ ∃ g, c.group = some g ∧ b = g.batch := by
    intro l hl
    obtain ⟨l',hl',rfl⟩ := List.mem_map.mp hl
    refine ⟨l',hl',?_⟩
    split
    · rename_i here
      exact ⟨(number l').symm,fun b hb => (records l' b hb).imp id fun new => ⟨(number l').trans here,new⟩⟩
    · exact ⟨rfl,fun b hb => .inl hb⟩
  refine seq.writer rfl rfl rfl rfl le_rfl le_rfl ?_ seq.group seq.mem seq.imm ?_ (seq.once.mono ?_)
  · intro l hl before b hb
    obtain ⟨l',hl',same,each⟩ := old l hl
    rcases each b hb with was | ⟨here,-⟩
    · exact ⟨l',hl',same,was⟩
    · exact absurd here before.ne
  · intro l hl b hb e he
    obtain ⟨l',hl',same,each⟩ := old l hl
    rcases each b hb with was | ⟨here,g,group,rfl⟩
    · rw [← same]
      exact seq.logs l' hl' b was e he
    · exact .inr ⟨here,g,group,he⟩
  · rintro e (mem | imm | ⟨l,hl,b,hb,he⟩ | table | pending)
    · exact .inl mem
    · exact .inr (.inl imm)
    · obtain ⟨l',hl',-,each⟩ := old l hl
      rcases each b hb with was | ⟨-,g,group,rfl⟩
      · exact .inr (.inr (.inl ⟨l',hl',b,was,he⟩))
      · exact .inr (.inr (.inr (.inr ⟨g,group,he⟩)))
    · exact .inr (.inr (.inr (.inl table)))
    · exact .inr (.inr (.inr (.inr pending)))

theorem mem_insertInto (b : WriteBatch K V) (mem : MemTable K V) (e : Entry K V) :
    e ∈ b.insertInto mem ↔ e ∈ mem ∨ e ∈ b.entries := by
  rw [WriteBatch.insertInto]
  generalize b.entries = entries
  induction entries generalizing mem with
  | nil => simp
  | cons a rest ih =>
    rw [List.foldl_cons,ih,mem_add,List.mem_cons]
    tauto

theorem Core.Sequences.insert {g : Group K V} (seq : c.Sequences m) (group : c.group = some g) :
    Core.Sequences { c with mem := g.batch.insertInto c.mem } m := by
  refine seq.writer rfl rfl rfl rfl le_rfl le_rfl (fun l hl _ b hb => ⟨l,hl,rfl,hb⟩) seq.group ?_ seq.imm seq.logs
    (seq.once.mono ?_)
  · intro e he
    rcases (mem_insertInto g.batch c.mem e).mp he with old | new
    · exact seq.mem e old
    · exact .inr ⟨g,group,new⟩
  · rintro e (mem | imm | log | table | pending)
    · rcases (mem_insertInto g.batch c.mem e).mp mem with old | new
      · exact .inl old
      · exact .inr (.inr (.inr (.inr ⟨g,group,new⟩)))
    · exact .inr (.inl imm)
    · exact .inr (.inr (.inl log))
    · exact .inr (.inr (.inr (.inl table)))
    · exact .inr (.inr (.inr (.inr pending)))

/-- `SetLastSequence` passes the numbers of the group. -/
theorem Core.Sequences.finish {g : Group K V} (seq : c.Sequences m) (group : c.group = some g) :
    Core.Sequences { c with
      versions := { c.versions with lastSequence := g.lastSequence }
      group := none } m := by
  obtain ⟨first,last⟩ := seq.group g group
  have passed : ∀ e, c.Pending e → e.sequence ≤ g.lastSequence := by
    rintro e ⟨g',isGroup,he⟩
    rw [group] at isGroup
    cases isGroup
    obtain ⟨i,bound,number,-⟩ := mem_batch_entries he
    omega
  have le : c.versions.lastSequence ≤ g.lastSequence := by omega
  refine seq.writer rfl rfl rfl rfl le le_rfl (fun l hl _ b hb => ⟨l,hl,rfl,hb⟩) (by rintro _ ⟨⟩) ?_
    (fun e he => (seq.imm e he).trans le) ?_ (seq.once.mono ?_)
  · exact fun e he => .inl ((seq.mem e he).elim (·.trans le) (passed e))
  · exact fun l hl b hb e he => .inl ((seq.logs l hl b hb e he).elim (·.trans le) fun both => passed e both.2)
  · rintro e (mem | imm | log | table | ⟨_,⟨⟩,-⟩)
    · exact .inl mem
    · exact .inr (.inl imm)
    · exact .inr (.inr (.inl log))
    · exact .inr (.inr (.inr (.inl table)))

end Writers

section Background
variable {o : Options K V} {loose : Bool} {file file' : Nat → Option (FileMetaData K)} {c c' : Core K V}
  {m m' : ManifestFile K V} {commit : Commit K}

theorem Core.Files.entries_step (files : c.Files o loose [] file m) (step : Core.Step o loose [] c c') {v : Version K}
    (needed : c.Live [] v ∨ ∃ k, m.synced ≤ k ∧ k ≤ m.records.length ∧ v = (m.upTo k).version) :
    v.entries c'.disk.table = v.entries c.disk.table :=
  Version.entries_congr fun _ _ hf => Disk.table_congr (files.tables_step step needed hf)

/-- The background thread makes no entries: what is in a table now was in one before, or
in the memtable that is flushed. -/
theorem Core.Sequences.background (seq : c.Sequences m) (files : c.Files o loose [] file m)
    (step : Core.Step o loose [] c c') (mem : c'.mem = c.mem) (group : c'.group = c.group)
    (logfile : c'.logfileNumber = c.logfileNumber) (last : c'.versions.lastSequence = c.versions.lastSequence)
    (imm : ∀ i, c'.imm = some i → c.imm = some i) (logs : ∀ l ∈ c'.disk.logs, l ∈ c.disk.logs)
    (logNumber : c'.versions.logNumber ≤ c.logfileNumber)
    (live : ∀ v, c'.Live [] v → c.Live [] v ∨ ∀ e ∈ v.entries c'.disk.table, e ∈ c.tableSet m ∨ e ∈ c.immSet)
    (outer : ∀ x, c'.job.outer = some x → ∀ e, e ∈ x.remaining ∨ e ∈ x.kept → e ∈ c.tableSet m)
    (recorded : ∀ k, m'.synced ≤ k → k ≤ m'.records.length →
      (∃ k', m.synced ≤ k' ∧ k' ≤ m.records.length ∧ m'.upTo k = m.upTo k') ∨
        (m'.upTo k).Numbered c'.disk ∧ (m'.upTo k).log ≤ c.logfileNumber ∧
          (m'.upTo k).last ≤ c.versions.lastSequence ∧
          ∀ e ∈ (m'.upTo k).version.entries c'.disk.table, e ∈ c.tableSet m)
    (commit : ∀ commit, c'.job.commit = some commit → ∃ log last, c'.Announces m' commit log last) :
    c'.Sequences m' := by
  have pending : ∀ e, c'.Pending e ↔ c.Pending e := by
    intro e
    rw [Core.Pending,Core.Pending,group]
  have immSub : ∀ e ∈ c'.immSet, e ∈ c.immSet := by
    rintro e ⟨i,isImm,he⟩
    exact ⟨i,imm i isImm,he⟩
  have recordedSub : ∀ e ∈ c'.disk.recordedSet m', e ∈ c.tableSet m := by
    rintro e ⟨k,low,high,he⟩
    rcases recorded k low high with ⟨k',low',high',same⟩ | ⟨-,-,-,inTables⟩
    · rw [same,files.entries_step step (.inr ⟨k',low',high',rfl⟩)] at he
      exact .inr (.inl ⟨k',low',high',he⟩)
    · exact inTables e he
  have tableSub : ∀ e ∈ c'.tableSet m', e ∈ c.tableSet m ∨ e ∈ c.immSet := by
    rintro e (⟨v,isLive,he⟩ | inRecords | ⟨x,isOuter,he⟩)
    · rcases live v isLive with old | new
      · rw [files.entries_step step (.inl old)] at he
        exact .inl (.inl ⟨v,old,he⟩)
      · exact new e he
    · exact .inl (recordedSub e inRecords)
    · exact .inl (outer x isOuter e he)
  refine ⟨by rw [group,last]; exact seq.group,?_,?_,?_,?_,by rw [logfile]; exact logNumber,?_,commit,seq.once.mono ?_⟩
  · intro e he
    rw [mem] at he
    rw [last,pending]
    exact seq.mem e he
  · intro e he
    rw [last]
    exact seq.imm e (immSub e he)
  · intro l hl b hb e he
    rw [last,logfile,pending]
    exact seq.logs l (logs l hl) b hb e he
  · intro e he
    rw [last]
    exact (tableSub e he).elim (seq.tables e) (seq.imm e)
  · intro k low high
    rw [logfile,last]
    rcases recorded k low high with ⟨k',low',high',same⟩ | ⟨numbered,log,lastIs,-⟩
    · obtain ⟨old,log,lastIs⟩ := seq.recorded k' low' high'
      rw [same]
      refine ⟨⟨?_,old.logs.sub fun l hl _ b hb => ⟨l,logs l hl,rfl,hb⟩⟩,log,lastIs⟩
      rw [files.entries_step step (.inr ⟨k',low',high',rfl⟩)]
      exact old.tables
    · exact ⟨numbered,log,lastIs⟩
  · rintro e (inMem | isImm | ⟨l,hl,b,hb,he⟩ | table | isPending)
    · exact .inl (mem ▸ inMem)
    · exact .inr (.inl (immSub e isImm))
    · exact .inr (.inr (.inl ⟨l,logs l hl,b,hb,he⟩))
    · rcases tableSub e table with old | flushed
      · exact .inr (.inr (.inr (.inl old)))
      · exact .inr (.inl flushed)
    · exact .inr (.inr (.inr (.inr ((pending e).mp isPending))))

/-- `LogAndApply` begins with files that hold entries already stored. -/
theorem Core.Sequences.beginCommit {edit : VersionEdit K} (seq : c.Sequences m) (files : c.Files o loose [] file m)
    (files' : c'.Files o loose [] file' m) (step : Core.Step o loose [] c c') (mem : c'.mem = c.mem)
    (imm : c'.imm = c.imm) (group : c'.group = c.group) (logfile : c'.logfileNumber = c.logfileNumber)
    (versions : ∃ pointer, c'.versions = { c.versions with compactPointer := pointer })
    (logs : c'.disk.logs = c.disk.logs) (isCommit : c'.job.commit = some (c.versions.logAndApply edit))
    (outer : ∀ x, c'.job.outer = some x → c.job.outer = some x)
    (log : ∀ n, edit.logNumber = some n → n ≤ c.logfileNumber)
    (new : ∀ n ∈ edit.newFiles, ∀ e ∈ c'.disk.table n.2.number, e ∈ c.tableSet m ∨ e ∈ c.immSet) :
    c'.Sequences m := by
  obtain ⟨pointer,same⟩ := versions
  have current : c'.versions.current = c.versions.current := by rw [same]
  have last : c'.versions.lastSequence = c.versions.lastSequence := by rw [same]
  have commits := files'.job.commit _ isCommit
  have isLog : edit.logNumber.getD c.versions.logNumber ≤ c.logfileNumber := by
    cases isLog : edit.logNumber with
    | none => exact seq.logNumber
    | some n => exact log n isLog
  refine seq.background files step mem group logfile last (fun i isImm => imm ▸ isImm) (by rw [logs]; exact fun _ hl => hl)
    (by rw [same]; exact seq.logNumber) ?_ (fun x isOuter e he => .inr (.inr ⟨x,outer x isOuter,he⟩))
    (fun k low high => .inl ⟨k,low,high,rfl⟩) ?_
  · rintro v (rfl | here | ⟨x,isOuter,rfl⟩ | ⟨commit,some,rfl⟩)
    · exact .inl (.inl current)
    · cases here
    · exact .inl (.inr (.inr (.inl ⟨x,outer x isOuter,rfl⟩)))
    · rw [isCommit] at some
      cases some
      refine .inr fun e he => ?_
      rw [commits.version rfl] at he
      rcases Version.entries_apply (files'.live _ (.inl rfl)).inOrder (commits.places rfl).1 he with old | ⟨n,hn,added⟩
      · rw [current,files.entries_step step (.inl (.inl rfl))] at old
        exact .inl (.inl ⟨_,.inl rfl,old⟩)
      · exact new n hn e added
  · intro commit some
    rw [isCommit] at some
    cases some
    refine ⟨edit.logNumber.getD c.versions.logNumber,c.versions.lastSequence,rfl,rfl,fun _ => ?_,fun n hn e he => ?_,?_,
      by rw [logfile]; exact isLog,last.ge⟩
    · have whole := (seq.recorded m.records.length files.disk.synced le_rfl).2.2
      rwa [upTo_length] at whole
    · exact (new n hn e he).elim (seq.tables e) (seq.imm e)
    · rw [Disk.LogsUpTo,logs]
      intro l hl before b hb e he
      refine (seq.logs l hl b hb e he).resolve_right fun both => ?_
      exact absurd both.1 (before.trans_le isLog).ne

/-- Nothing is committed, or no more. -/
theorem Core.Sequences.quiet (seq : c.Sequences m) (files : c.Files o loose [] file m)
    (step : Core.Step o loose [] c c') (mem : c'.mem = c.mem) (group : c'.group = c.group)
    (logfile : c'.logfileNumber = c.logfileNumber) (last : c'.versions.lastSequence = c.versions.lastSequence)
    (imm : ∀ i, c'.imm = some i → c.imm = some i) (logs : ∀ l ∈ c'.disk.logs, l ∈ c.disk.logs)
    (logNumber : c'.versions.logNumber ≤ c.logfileNumber) (current : c.Live [] c'.versions.current)
    (noCommit : c'.job.commit = none) (outer : ∀ x, c'.job.outer = some x → c.Live [] x.compaction.inputVersion ∧
      ∀ e, e ∈ x.remaining ∨ e ∈ x.kept → e ∈ c.tableSet m) : c'.Sequences m := by
  refine seq.background files step mem group logfile last imm logs logNumber ?_ (fun x isOuter => (outer x isOuter).2)
    (fun k low high => .inl ⟨k,low,high,rfl⟩) ?_
  · rintro v (rfl | here | ⟨x,isOuter,rfl⟩ | ⟨commit,some,rfl⟩)
    · exact .inl current
    · cases here
    · exact .inl (outer x isOuter).1
    · rw [noCommit] at some
      cases some
  · intro commit some
    rw [noCommit] at some
    cases some

/-- The commit goes on with the manifest. -/
theorem Core.Sequences.setCommit {d : Disk K V} {stage : CommitStage} (seq : c.Sequences m)
    (files : c.Files o loose [] file m) (isCommit : c.job.commit = some commit) (later : stage ≠ .append)
    (step : Core.Step o loose [] c { c with disk := d, job := c.job.setCommit { commit with stage } })
    (tables : d.tables = c.disk.tables) (logs : d.logs = c.disk.logs)
    (recorded : ∀ k, m'.synced ≤ k → k ≤ m'.records.length →
      (∃ k', m.synced ≤ k' ∧ k' ≤ m.records.length ∧ m'.upTo k = m.upTo k') ∨
        (m'.upTo k).Numbered d ∧ (m'.upTo k).log ≤ c.logfileNumber ∧
          (m'.upTo k).last ≤ c.versions.lastSequence ∧ ∀ e ∈ (m'.upTo k).version.entries d.table, e ∈ c.tableSet m) :
    Core.Sequences { c with disk := d, job := c.job.setCommit { commit with stage } } m' := by
  have isCommit' : (c.job.setCommit { commit with stage }).commit = _ := setCommit_commit isCommit
  have outer := setCommit_outer c.job { commit with stage }
  refine seq.background files step rfl rfl rfl rfl (fun _ isImm => isImm) (by rw [logs]; exact fun _ hl => hl) seq.logNumber ?_
    (fun x isOuter e he => .inr (.inr ⟨x,outer.symm.trans isOuter,he⟩)) recorded ?_
  · rintro v (rfl | here | ⟨x,isOuter,rfl⟩ | ⟨commit',some,rfl⟩)
    · exact .inl (.inl rfl)
    · cases here
    · exact .inl (.inr (.inr (.inl ⟨x,outer.symm.trans isOuter,rfl⟩)))
    · have same := isCommit'.symm.trans some
      cases same
      exact .inl (.inr (.inr (.inr ⟨commit,isCommit,rfl⟩)))
  · intro commit' some
    have same := isCommit'.symm.trans some
    cases same
    obtain ⟨log,last,announces⟩ := seq.commit commit isCommit
    refine ⟨log,last,announces.isLog,announces.isLast,fun first => absurd first later,?_,?_,announces.log,announces.last⟩
    · have table : d.table = c.disk.table := by
        funext n
        rw [Disk.table,Disk.table,tables]
      rw [table]
      exact announces.new
    · rw [Disk.LogsUpTo,logs]
      exact announces.logs

theorem Core.Sequences.appendManifest {r : ManifestRecord K V} (seq : c.Sequences m)
    (files : c.Files o loose [] file m) (isCommit : c.job.commit = some commit) (stage : commit.stage = .append)
    (edit : r.edit = commit.edit) :
    Core.Sequences { c with
      disk := c.disk.updateManifest c.versions.manifestFileNumber (ManifestFile.append r)
      job := c.job.setCommit { commit with stage := .sync } } (m.append r) := by
  have commits := files.job.commit commit isCommit
  have places := commits.places stage
  obtain ⟨log,last,announces⟩ := seq.commit commit isCommit
  have whole := files.disk.whole
  have old := seq.recorded m.records.length files.disk.synced le_rfl
  rw [upTo_length] at old
  refine seq.setCommit files isCommit (by decide) (.appendManifest isCommit stage edit) rfl rfl fun k low high => ?_
  have length : (m.append r).records.length = m.records.length + 1 := by simp [ManifestFile.append]
  rcases Nat.lt_or_ge m.records.length k with after | before
  · refine .inr ?_
    have recovered : (m.append r).upTo k = (recoverRecords m.records).step commit.edit := by
      rw [ManifestFile.upTo,List.take_of_length_le (by omega),← edit]
      exact recoverRecords_append m.records r
    have version : ((recoverRecords m.records).step commit.edit).version =
        (recoverRecords m.records).version.apply commit.edit := (whole.tracks.step places.2.adds).version
    have logIs : ((recoverRecords m.records).step commit.edit).log = log := by
      simp [Recovered.log,Recovered.step,announces.isLog]
    have lastIs : ((recoverRecords m.records).step commit.edit).last = last := by
      simp [Recovered.last,Recovered.step,announces.isLast]
    rw [recovered]
    refine ⟨⟨?_,by rw [logIs,lastIs]; exact announces.logs⟩,by rw [logIs]; exact announces.log,
      by rw [lastIs]; exact announces.last,?_⟩
    · rw [version,lastIs]
      intro e he
      rcases Version.entries_apply whole.kept.inOrder places.2 he with before | ⟨n,hn,added⟩
      · exact (old.1.tables e before).trans (announces.later stage)
      · exact announces.new n hn e added
    · rw [version]
      intro e he
      rcases Version.entries_apply whole.kept.inOrder places.2 he with before | ⟨n,hn,added⟩
      · exact .inr (.inl ⟨m.records.length,files.disk.synced,le_rfl,by rw [upTo_length]; exact before⟩)
      · refine .inl ⟨commit.version,.inr (.inr (.inr ⟨commit,isCommit,rfl⟩)),?_⟩
        rw [commits.version stage]
        exact Version.entries_new (files.live _ (.inl rfl)).inOrder places.1 hn added
  · exact .inl ⟨k,low,before,congrArg recoverRecords (m.append_upTo r before)⟩

/-- The table of a flush holds the memtable. -/
theorem Core.Sequences.syncTable {n level : Nat} {outer : Option (CompactionState K V)} {imm : MemTable K V}
    {e : VersionEdit K} (seq : c.Sequences m) (files : c.Files o loose [] file m) (job : c.job = .flush n .sync outer)
    (isImm : c.imm = some imm) (flushes : e.Flushes o n level c.logfileNumber imm) :
    Core.Sequences { c with
      disk := c.disk.withTable n imm true
      job := .commitFlush (c.versions.logAndApply e) outer
      pendingOutputs := c.pendingOutputs.erase n } m := by
  refine seq.beginCommit files (files.syncTable job flushes) (.syncTable job isImm flushes) rfl rfl rfl rfl ⟨_,rfl⟩
    (withTable_touches c.disk n imm true).logs rfl (fun x isOuter => by rw [job]; exact isOuter) ?_ ?_
  · intro k isLog
    rw [flushes.log] at isLog
    cases isLog
    exact le_rfl
  · intro k hk a ha
    rw [flushes.new] at hk
    obtain ⟨f,hf,rfl⟩ := List.mem_map.mp hk
    have isFile := Option.mem_toList.mp hf
    have nonempty : imm ≠ [] := by
      rintro rfl
      simp [outputFile] at isFile
    have written := withTable_written c.disk n imm true nonempty
    rw [(outputFile_spec isFile).1] at ha
    simp only [Disk.table,written,Option.map_some,Option.getD_some] at ha
    exact .inr ⟨imm,isImm,ha⟩

theorem Core.Sequences.finishCompaction {x : CompactionState K V} (seq : c.Sequences m)
    (files : c.Files o loose [] file m) (job : c.job = .compact x) (done : x.remaining = []) :
    Core.Sequences { c with
      disk := c.disk.setTables x.building.toList
      job := .commitCompaction x.finishOutput (c.versions.logAndApply (x.finishOutput.edit o)) } m := by
  refine seq.beginCommit files (files.finishCompaction job) (.finishCompaction job done) rfl rfl rfl rfl ⟨_,rfl⟩
    (setTables_touches c.disk x.building.toList).logs rfl (by rintro _ ⟨⟩) (by rintro _ ⟨⟩) ?_
  intro k hk a ha
  have working := files.job.outer x (by rw [job]; rfl)
  obtain ⟨f,hf,rfl⟩ := List.mem_map.mp hk
  obtain ⟨out,ho,isFile⟩ := List.mem_filterMap.mp hf
  have written := working.all_written out ho
  rw [(outputFile_spec isFile).1] at ha
  simp only [Disk.table,written,Option.map_some,Option.getD_some] at ha
  exact .inl (.inr (.inr ⟨x,by rw [job]; rfl,.inr (List.mem_flatMap.mpr ⟨out,ho,ha⟩)⟩))

theorem Core.Sequences.move {x : Compaction K} {f : FileMetaData K} (seq : c.Sequences m)
    (files : c.Files o loose [] file m) (job : c.job = .idle) (fine : c.bgError = false)
    (within : x.Within c.versions.current) (single : x.inputs0 = [f]) (pointer : Nat → Option (InternalKey K)) :
    Core.Sequences { c with
      versions := { c.versions with compactPointer := pointer }
      job := .move (c.versions.logAndApply x.moveEdit) } m := by
  refine seq.beginCommit files (files.move job fine within single pointer) (.move job fine within single) rfl rfl rfl rfl
    ⟨_,rfl⟩ rfl rfl (by rintro _ ⟨⟩) (by rintro _ ⟨⟩) ?_
  intro k hk a ha
  obtain ⟨g,hg,rfl⟩ := List.mem_map.mp hk
  exact .inl (.inl ⟨_,.inl rfl,x.level,g,within.own g hg,ha⟩)

/-- A step keeps the numbers, whatever fails. -/
theorem Core.Sequences.step (seq : c.Sequences m) (files : c.Files o loose [] file m)
    (step : Core.Step o loose [] c c') (there : c'.disk.manifests c'.versions.manifestFileNumber = some m') :
    c'.Sequences m' := by
  have manifest := files.disk.manifest
  have same : c'.disk.manifests c'.versions.manifestFileNumber = c.disk.manifests c.versions.manifestFileNumber →
      c'.Sequences m → c'.Sequences m' := by
    intro unchanged old
    rw [unchanged,manifest] at there
    cases there
    exact old
  have inner : ∀ x, c.job.outer = some x → c.Live [] x.compaction.inputVersion ∧
      ∀ e, e ∈ x.remaining ∨ e ∈ x.kept → e ∈ c.tableSet m :=
    fun x isOuter => ⟨.inr (.inr (.inl ⟨x,isOuter,rfl⟩)),fun e he => .inr (.inr ⟨x,isOuter,he⟩)⟩
  have resumed : ∀ {outer : Option (CompactionState K V)}, c.job.outer = outer → ∀ x, (Job.resume outer).outer = some x →
      c.Live [] x.compaction.inputVersion ∧ ∀ e, e ∈ x.remaining ∨ e ∈ x.kept → e ∈ c.tableSet m := by
    rintro outer rfl x isOuter
    rw [resume_outer] at isOuter
    exact inner x isOuter
  have taken := step
  cases step with
  | error =>
    exact same rfl (seq.writer rfl rfl rfl rfl le_rfl le_rfl (fun l hl _ b hb => ⟨l,hl,rfl,hb⟩) seq.group seq.mem seq.imm
      seq.logs seq.once)
  | start g free first last => exact same rfl (seq.start g free first last)
  | switch free => exact same rfl (seq.switch files free)
  | @log g group =>
    refine same rfl (seq.updateLog _ (fun _ => rfl) fun l b hb => ?_)
    rcases List.mem_append.mp hb with old | new
    · exact .inl old
    · exact .inr ⟨g,group,List.mem_singleton.mp new⟩
  | syncLog => exact same rfl (seq.updateLog _ (fun _ => rfl) fun l b hb => .inl hb)
  | insert group => exact same rfl (seq.insert group)
  | finish group => exact same rfl (seq.finish group)
  | beginFlush job =>
    refine same rfl (seq.quiet files taken rfl rfl rfl rfl (fun _ isImm => isImm) (fun _ hl => hl) seq.logNumber (.inl rfl) rfl ?_)
    exact fun x isOuter => inner x (by rw [job,resume_outer]; exact isOuter)
  | @writeTable n outer imm job =>
    have touches := withTable_touches c.disk n imm false
    refine same (by rw [touches.manifests]) (seq.quiet files taken rfl rfl rfl rfl (fun _ isImm => isImm) ?_ seq.logNumber
      (.inl rfl) rfl fun x isOuter => inner x (by rw [job]; exact isOuter))
    rw [touches.logs]
    exact fun _ hl => hl
  | @syncTable n level outer imm e job isImm flushes =>
    exact same (by rw [(withTable_touches c.disk n imm true).manifests]) (seq.syncTable files job isImm flushes)
  | @flushFails n stage outer job =>
    exact same rfl (seq.quiet files taken rfl rfl rfl rfl (fun _ isImm => isImm) (fun _ hl => hl) seq.logNumber (.inl rfl)
      (resume_commit outer) (resumed (by rw [job]; rfl)))
  | move job fine within single => exact same rfl (seq.move files job fine within single _)
  | @compact x isManual snapshot pointer job within =>
    refine same rfl (seq.quiet files taken rfl rfl rfl rfl (fun _ isImm => isImm) (fun _ hl => hl) seq.logNumber (.inl rfl) rfl ?_)
    rintro _ ⟨⟩
    refine ⟨.inl within.version,?_⟩
    rintro e (remaining | kept)
    · exact .inl ⟨_,.inl rfl,mem_inputEntries within remaining⟩
    · cases kept
  | @advance x job more =>
    obtain ⟨e,rest,head⟩ := List.exists_cons_of_ne_nil more
    have working := files.job.outer x (by rw [job]; rfl)
    obtain ⟨-,-,touches,-⟩ := advance_tables o c.disk head c.versions.nextFileNumber
      working.ascending working.below working.written
    obtain ⟨compaction,-⟩ := (advance_same o c.versions.nextFileNumber head).1
    have before := inner x (by rw [job]; rfl)
    have versions : ∃ next, (if (x.advance o c.versions.nextFileNumber).2
        then { c.versions with nextFileNumber := c.versions.nextFileNumber + 1 } else c.versions) =
          { c.versions with nextFileNumber := next } := by
      split
      · exact ⟨_,rfl⟩
      · exact ⟨_,rfl⟩
    obtain ⟨next,isNext⟩ := versions
    refine same ?_ (seq.quiet files taken rfl rfl rfl ?_ (fun _ isImm => isImm) ?_ ?_ ?_ rfl ?_)
    · simp only [isNext]
      rw [touches.manifests]
    · simp only [isNext]
    · rw [touches.logs]
      exact fun _ hl => hl
    · simp only [isNext]
      exact seq.logNumber
    · simp only [isNext]
      exact .inl rfl
    · rintro _ ⟨⟩
      rw [compaction]
      exact ⟨before.1,fun a ha => before.2 a (advance_entries o _ more ha)⟩
  | @finishCompaction x job done =>
    exact same (by rw [(setTables_touches c.disk x.building.toList).manifests]) (seq.finishCompaction files job done)
  | compactionFails job =>
    exact same rfl (seq.quiet files taken rfl rfl rfl rfl (fun _ isImm => isImm) (fun _ hl => hl) seq.logNumber (.inl rfl) rfl
      (by rintro _ ⟨⟩))
  | appendManifest isCommit stage edit =>
    rw [updateManifest_manifest manifest] at there
    cases there
    exact seq.appendManifest files isCommit stage edit
  | syncManifest isCommit stage =>
    rw [updateManifest_manifest manifest] at there
    cases there
    exact seq.setCommit files isCommit (by decide) taken rfl rfl fun k low high =>
      .inl ⟨k,files.disk.synced.trans low,high,rfl⟩
  | commitFails =>
    exact same rfl (seq.quiet files taken rfl rfl rfl rfl (fun _ isImm => isImm) (fun _ hl => hl) seq.logNumber (.inl rfl)
      (resume_commit _) (resumed rfl))
  | @install commit isCommit stage =>
    obtain ⟨log,last,announces⟩ := seq.commit commit isCommit
    refine same rfl (seq.quiet files taken rfl rfl rfl rfl ?_ (fun _ hl => hl) ?_ (.inr (.inr (.inr ⟨commit,isCommit,rfl⟩)))
      (resume_commit _) (resumed rfl))
    · intro i isImm
      simp only at isImm
      split at isImm
      · cases isImm
      · exact isImm
    · simp only [VersionSet.install,announces.isLog,Option.getD_some]
      exact announces.log
  | @collect outer doomed job =>
    exact same rfl (seq.quiet files taken rfl rfl rfl rfl (fun _ isImm => isImm) (fun _ hl => hl) seq.logNumber (.inl rfl) rfl
      fun x isOuter => inner x (by rw [job,resume_outer]; exact isOuter))
  | @removeFile outer doomed f job isDoomed =>
    have old := files.job.doomed doomed outer job
    refine same ?_ (seq.quiet files taken rfl rfl rfl rfl (fun _ isImm => isImm) ?_ seq.logNumber (.inl rfl)
      (by rw [job]; rfl) inner)
    · cases f with
      | manifest k => simp [Disk.remove,(old.manifest k isDoomed).ne']
      | log k | table k | temp k => rfl
      | current => rfl
    · cases f with
      | log k => exact fun _ hl => List.mem_of_mem_filter hl
      | manifest k | table k | temp k => exact fun _ hl => hl
      | current => exact fun _ hl => hl
  | @removeDone outer doomed job =>
    exact same rfl (seq.quiet files taken rfl rfl rfl rfl (fun _ isImm => isImm) (fun _ hl => hl) seq.logNumber (.inl rfl)
      (resume_commit outer) (resumed (by rw [job]; rfl)))

end Background

end LevelDB
