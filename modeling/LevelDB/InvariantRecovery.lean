import LevelDB.InvariantCommit
import LevelDB.ManifestReplay

/-! `DB::Open` keeps the invariant: the replay moves the end of the history from the logs
to level 0, and the new manifest takes over once it is synced. Until then a crash finds
the old one as it was. -/
namespace LevelDB

variable {K V : Type} [LinearOrder K]

section Replay
variable {d d' : Disk K V} {h : History K V} {number : Nat} {m : ManifestFile K V}

/-- The records of the logs still to be replayed. -/
def Disk.replayed (d : Disk K V) (logs : List Nat) : History K V :=
  logs.flatMap fun n => (d.recordsOf n).map (n,·)

/-- The edit of a replay adds tables at level 0, each newer than the one before. -/
structure ReplayEdit (e : VersionEdit K) (low high : Nat) : Prop where
  deleted : e.deletedFiles = []
  files : ∃ files : List (FileMetaData K), e.newFiles = files.map (0,·) ∧ (files.map (·.number)).Pairwise (· < ·) ∧
    ∀ f ∈ files, low < f.number ∧ f.number < high

/-- What the replay of the logs has established. -/
structure Replay.Ok (r : Replay K V) (d : Disk K V) (h : History K V) (m : ManifestFile K V) : Prop where
  current : r.versions.current = (recoverRecords m.records).version
  manifest : r.versions.manifestFileNumber = (recoverRecords m.records).next
  next : (recoverRecords m.records).next < r.versions.nextFileNumber
  last : r.versions.lastSequence = (recoverRecords m.records).last
  small : r.maxSequence < kMaxSequenceNumber
  edit : ReplayEdit r.edit (recoverRecords m.records).next
    ((r.table.map (·.1)).getD r.versions.nextFileNumber)
  table : ∀ n stage, r.table = some (n,stage) →
    (recoverRecords m.records).next < n ∧ n < r.versions.nextFileNumber
  split : ∃ flushed memory, h = flushed ++ memory ++
      ((r.logs.head?.map fun n => r.records.map (n,·)).getD [] ++ d.replayed r.logs.tail) ∧
    Sound d (History.set flushed) (r.versions.current.apply r.edit) r.versions.nextFileNumber
      (recoverRecords m.records).last ∧
    SortedEntries (r.mem.getD []) ∧ entrySet (r.mem.getD []) = History.set memory ∧
    (∀ e ∈ History.set (flushed ++ memory),
      e.sequence ≤ max (recoverRecords m.records).last r.maxSequence)
  records : r.logs = [] → r.records = []
  logs : ∀ l ∈ d.logs, l.number < r.versions.nextFileNumber ∨ l.number ∈ r.logs

omit [LinearOrder K] in
theorem recordsOf_eq (increasing : (d.logs.map (·.number)).Pairwise (· < ·)) (l : LogFile K V)
    (member : l ∈ d.logs) : d.recordsOf l.number = l.records := by
  have found : d.logs.find? (fun x => x.number == l.number) = some l := by
    obtain ⟨before,after,split⟩ := List.append_of_mem member
    rw [split] at increasing ⊢
    rw [List.find?_append]
    have none : before.find? (fun x => x.number == l.number) = none := by
      refine List.find?_eq_none.mpr fun x hx => ?_
      rw [List.map_append] at increasing
      have := (List.pairwise_append.mp increasing).2.2 x.number (List.mem_map_of_mem hx) l.number
        (by simp)
      simp only [beq_iff_eq]
      omega
    simp [none]
  simp [Disk.recordsOf,found]

omit [LinearOrder K] in
/-- The logs are replayed in the order in which they were written. -/
theorem replayed_eq (increasing : (d.logs.map (·.number)).Pairwise (· < ·))
    (positive : ∀ l ∈ d.logs, 0 < l.number) (n : Nat) : d.replayed (d.logsFrom n 0) = d.logHistory n := by
  have needed : (d.logs.filter ((fun k => decide (n ≤ k) || decide (k = 0)) ∘ (·.number))) =
      d.logs.filter fun l => decide (n ≤ l.number) := by
    refine List.filter_congr fun l hl => ?_
    have := positive l hl
    simp only [Function.comp_apply,Bool.or_eq_left_iff_imp,decide_eq_true_eq]
    omega
  have sorted : d.logsFrom n 0 = (d.logs.filter fun l => decide (n ≤ l.number)).map (·.number) := by
    rw [Disk.logsFrom,List.filter_map,needed]
    refine List.Pairwise.insertionSort_eq ?_
    exact (filter_numbers d n increasing).imp le_of_lt
  rw [Disk.replayed,sorted,List.flatMap_map,logHistory_eq,logRecords]
  refine List.flatMap_congr fun l hl => ?_
  rw [recordsOf_eq increasing l (List.mem_filter.mp hl).1]

omit [LinearOrder K] in
theorem replayed_cons (d : Disk K V) (logs : List Nat) :
    (logs.head?.map fun n => (d.recordsOf n).map (n,·)).getD [] ++ d.replayed logs.tail =
      d.replayed logs := by
  cases logs <;> simp [Disk.replayed]

omit [LinearOrder K] in
theorem replayed_congr (logs : List Nat) (same : d'.logs = d.logs) :
    d'.replayed logs = d.replayed logs := by
  simp only [Disk.replayed,Disk.recordsOf,same]

/-- The version that a replay has reached. -/
theorem ReplayEdit.members {e : VersionEdit K} {low high : Nat} (edit : ReplayEdit e low high)
    {v : Version K} (order : ∀ l, InOrder (v.files l)) (old : ∀ l, ∀ f ∈ v.files l, f.number ≤ low) :
    (∀ l, InOrder ((v.apply e).files l)) ∧
      ∀ l f, f ∈ (v.apply e).files l ↔ (0,f) ∈ e.newFiles ∧ l = 0 ∨ f ∈ v.files l := by
  obtain ⟨files,new,ascending,range⟩ := edit.files
  have newAt : ∀ l f, f ∈ e.newAt l ↔ (0,f) ∈ e.newFiles ∧ l = 0 := by
    intro l f
    rw [mem_newAt,new]
    simp only [List.mem_map,Prod.mk.injEq]
    constructor
    · rintro ⟨g,hg,rfl,rfl⟩
      exact ⟨⟨g,hg,trivial,rfl⟩,rfl⟩
    · rintro ⟨⟨g,hg,-,rfl⟩,rfl⟩
      exact ⟨g,hg,rfl,rfl⟩
  have spec := v.mem_apply e order ⟨?_,fun _ _ _ _ hg => absurd hg List.not_mem_nil,?_⟩
  · refine ⟨spec.1,fun l f => ?_⟩
    rw [spec.2,newAt,mem_deletedAt,edit.deleted]
    simp
  · intro l f hf g hg same
    have member := ((newAt l f).mp hf).1
    rw [new] at member
    obtain ⟨x,hx,equal⟩ := List.mem_map.mp member
    cases equal
    have := old l g hg
    have := (range f hx).1
    omega
  · intro l f hf g hg
    have inside : ∀ x, x ∈ e.newAt l → x ∈ files := by
      intro x hx
      have member := ((newAt l x).mp hx).1
      rw [new] at member
      obtain ⟨y,hy,equal⟩ := List.mem_map.mp member
      cases equal
      exact hy
    have numbers := (List.pairwise_map.mp ascending).imp fun {a b} lt => Nat.ne_of_lt lt
    exact named_of_pairwise numbers f (inside f hf) g (inside g hg)

/-- The files of the version reached are older than a table that is being written. -/
theorem Replay.Ok.files_lt {r : Replay K V} (disk : d.Ok h number m) (ok : r.Ok d h m) {l : Nat}
    {f : FileMetaData K} (member : f ∈ (r.versions.current.apply r.edit).files l) :
    f.number < (r.table.map (·.1)).getD r.versions.nextFileNumber := by
  have good := disk.last_good
  have old : ∀ l, ∀ f ∈ r.versions.current.files l, f.number < (recoverRecords m.records).next := by
    intro l f hf
    rw [ok.current] at hf
    exact good.sound.numbers l f hf
  have order : ∀ l, InOrder (r.versions.current.files l) := by
    rw [ok.current]
    exact good.sound.wf.ordered
  have bound : (recoverRecords m.records).next < (r.table.map (·.1)).getD r.versions.nextFileNumber := by
    cases table : r.table with
    | none => exact ok.next
    | some t => exact (ok.table t.1 t.2 table).1
  rcases ((ok.edit.members order fun l f hf => (old l f hf).le).2 l f).mp member with ⟨new,-⟩ | base
  · obtain ⟨files,isNew,-,range⟩ := ok.edit.files
    rw [isNew] at new
    obtain ⟨x,hx,equal⟩ := List.mem_map.mp new
    cases equal
    exact (range f hx).2
  · exact (old l f base).trans bound

/-- `VersionSet::Recover` finds the last record of the manifest. -/
theorem Disk.Ok.startReplay (disk : d.Ok h number m) (vs : VersionSet K)
    (recovered : m.recover = some vs) :
    Replay.Ok ⟨vs,.empty,d.logsFrom vs.logNumber vs.prevLogNumber,
      ((d.logsFrom vs.logNumber vs.prevLogNumber).head?.map d.recordsOf).getD [],none,0,none⟩ d h m := by
  have good := disk.last_good
  have isVs : vs = ⟨(recoverRecords m.records).version,(recoverRecords m.records).next + 1,
      (recoverRecords m.records).next,(recoverRecords m.records).last,(recoverRecords m.records).log,0,
      (recoverRecords m.records).compactPointer⟩ :=
    Option.some.inj (recovered.symm.trans good.complete)
  subst isVs
  refine ⟨rfl,rfl,Nat.lt_succ_self _,rfl,by simp [kMaxSequenceNumber],⟨rfl,[],rfl,by simp,by simp⟩,by simp,
    ⟨h.before (recoverRecords m.records).log,[],?_,?_,List.Pairwise.nil,?_,?_⟩,?_,?_⟩
  · have logs := disk.logHistory
    rw [upTo_length] at logs
    have head : ∀ logs : List Nat, (logs.head?.map fun n =>
        ((logs.head?.map d.recordsOf).getD []).map (n,·)).getD [] =
          (logs.head?.map fun n => (d.recordsOf n).map (n,·)).getD [] := by
      intro logs
      cases logs <;> rfl
    rw [List.append_nil,head,replayed_cons,replayed_eq disk.increasing disk.positive,logs,disk.ordered.split]
  · rw [apply_nothing _ _ rfl rfl]
    exact good.sound.mono (Nat.le_succ _) le_rfl
  · ext e
    simp
  · intro e he
    rw [List.append_nil] at he
    exact (good.bounded e he).trans (le_max_left _ _)
  · intro none
    simp only at none
    simp [none]
  · intro l hl
    by_cases late : (recoverRecords m.records).log ≤ l.number
    · right
      simp only [Disk.logsFrom,List.mem_insertionSort,List.mem_filter,List.mem_map,Bool.or_eq_true,
        decide_eq_true_eq]
      exact ⟨⟨l,hl,rfl⟩,.inl late⟩
    · left
      have := good.log
      simp only
      omega

/-- Writing the table of a replay leaves the rest as it is. -/
theorem Replay.Ok.writeTable {r : Replay K V} (disk : d.Ok h number m) (ok : r.Ok d h m) {n : Nat}
    {stage : BuildStage} (table : r.table = some (n,stage)) (entries : MemTable K V) (synced : Bool) :
    (d.withTable n entries synced).Ok h number m ∧
      { r with table := some (n,.sync) }.Ok (d.withTable n entries synced) h m := by
  have touches := withTable_touches d n entries synced
  obtain ⟨low,high⟩ := ok.table n stage table
  have good := disk.last_good
  have unused : ∀ k, k = n → ¬(recoverRecords m.records).builder.Uses k := by
    rintro k rfl uses
    exact absurd (good.used k uses) (not_lt_of_gt low)
  obtain ⟨flushed,memory,split,sound,sorted,mem,seen⟩ := ok.split
  refine ⟨disk.touch touches unused,ok.current,ok.manifest,ok.next,ok.last,ok.small,?_,?_,
    ⟨flushed,memory,?_,?_,sorted,mem,seen⟩,ok.records,?_⟩
  · have edit := ok.edit
    rw [table] at edit
    exact edit
  · rintro _ _ ⟨⟩
    exact ⟨low,high⟩
  · rw [replayed_congr _ touches.logs]
    exact split
  · refine sound.frame fun l f hf => touches.tables _ ?_
    have lt := ok.files_lt disk hf
    rw [table] at lt
    exact Nat.ne_of_lt lt
  · rw [touches.logs]
    exact ok.logs

/-- A finished table joins level 0. -/
theorem Replay.Ok.finishTable (o : Options K V) {r : Replay K V} (disk : d.Ok h number m)
    (ok : r.Ok d h m) {n : Nat} {stage : BuildStage} (table : r.table = some (n,stage))
    (written : r.mem.getD [] ≠ [] → d.tables n = some ⟨r.mem.getD [],true⟩) :
    { r with
      edit := ((outputFile o n (r.mem.getD [])).map (r.edit.addFile 0)).getD r.edit
      mem := none
      table := none }.Ok d h m := by
  obtain ⟨low,high⟩ := ok.table n stage table
  have good := disk.last_good
  obtain ⟨flushed,memory,split,sound,sorted,mem,seen⟩ := ok.split
  have edit := ok.edit
  rw [table] at edit
  simp only [Option.map_some,Option.getD_some] at edit
  obtain ⟨files,new,ascending,range⟩ := edit.files
  have order : ∀ l, InOrder (r.versions.current.files l) := by
    rw [ok.current]
    exact good.sound.wf.ordered
  have old : ∀ l, ∀ f ∈ r.versions.current.files l, f.number ≤ (recoverRecords m.records).next := by
    intro l f hf
    rw [ok.current] at hf
    exact (good.sound.numbers l f hf).le
  have lt : ∀ l, ∀ f ∈ (r.versions.current.apply r.edit).files l, f.number < n := by
    intro l f hf
    have := ok.files_lt disk hf
    rwa [table] at this
  have done : ∀ edit' : VersionEdit K,
      ReplayEdit edit' (recoverRecords m.records).next r.versions.nextFileNumber →
      Sound d (History.set (flushed ++ memory)) (r.versions.current.apply edit')
        r.versions.nextFileNumber (recoverRecords m.records).last →
      { r with edit := edit', mem := none, table := none }.Ok d h m := by
    intro edit' isEdit isSound
    refine ⟨ok.current,ok.manifest,ok.next,ok.last,ok.small,isEdit,by simp,
      ⟨flushed ++ memory,[],?_,isSound,List.Pairwise.nil,?_,?_⟩,ok.records,ok.logs⟩
    · rw [List.append_nil]
      exact split
    · ext e
      simp
    · rw [List.append_nil]
      exact seen
  cases out : outputFile o n (r.mem.getD []) with
  | none =>
    have empty : r.mem.getD [] = [] := by
      by_contra nonempty
      obtain ⟨f,some⟩ := outputFile_isSome o n nonempty
      rw [out] at some
      cases some
    refine done _ ⟨edit.deleted,files,new,ascending,fun f hf => ⟨(range f hf).1,(range f hf).2.trans high⟩⟩ ?_
    have none : History.set memory = ∅ := by
      rw [← mem,empty]
      ext e
      simp
    rw [History.set_append,none,Set.union_empty]
    exact sound
  | some f =>
    obtain ⟨isNumber,⟨a,first,-⟩,-⟩ := outputFile_spec out
    have nonempty : r.mem.getD [] ≠ [] := by
      intro empty
      simp [empty] at first
    have isTable : d.table n = r.mem.getD [] := Disk.table_of (written nonempty)
    have holds : f.Holds d.table := by
      refine outputFile_holds out isTable sorted fun e he => ?_
      have inMemory : e ∈ History.set memory := mem ▸ he
      have bound := seen e (by rw [History.set_append]; exact .inr inMemory)
      have := good.last
      have := ok.small
      omega
    have tableSet : tableSet d.table f = History.set memory := by
      rw [tableSet,isNumber,isTable,mem]
    have newEdit : ReplayEdit (r.edit.addFile 0 f) (recoverRecords m.records).next
        r.versions.nextFileNumber := by
      refine ⟨edit.deleted,files ++ [f],by simp [VersionEdit.addFile,new],?_,?_⟩
      · rw [List.map_append]
        refine List.pairwise_append.mpr ⟨ascending,List.pairwise_singleton _ _,?_⟩
        intro x hx y hy
        obtain ⟨g,hg,rfl⟩ := List.mem_map.mp hx
        rw [List.mem_singleton.mp hy]
        exact (range g hg).2.trans_eq isNumber.symm
      · intro g hg
        rcases List.mem_append.mp hg with early | late
        · exact ⟨(range g early).1,(range g early).2.trans high⟩
        · rw [List.mem_singleton.mp late,isNumber]
          exact ⟨low,high⟩
    have before := edit.members order old
    have after := newEdit.members order old
    have adds : (r.versions.current.apply r.edit).Adds
        (r.versions.current.apply (r.edit.addFile 0 f)) 0 f := by
      refine ⟨after.1,fun l g => ?_⟩
      rw [after.2,before.2]
      simp only [VersionEdit.addFile,List.mem_append,List.mem_singleton,Prod.mk.injEq,true_and]
      tauto
    have newer : Newer (LevelDB.tableSet d.table f) (History.set flushed) := by
      rw [tableSet]
      have ordered := disk.ordered
      rw [split] at ordered
      exact (ordered.sublist (List.sublist_append_left _ _)).newer
    refine done _ newEdit ?_
    rw [History.set_append,Set.union_comm,← tableSet]
    refine sound.add adds ⟨by decide,holds,?_,newer.mono Set.Subset.rfl sound.covers.subset,by simp⟩ newer ?_ ?_
    · rw [isNumber]
      exact lt
    · rw [isNumber]
      exact ⟨_,written nonempty⟩
    · rw [isNumber]
      exact high

theorem Replay.Ok.beginTable {r : Replay K V} (ok : r.Ok d h m) (none : r.table = none) :
    r.beginTable.Ok d h m := by
  obtain ⟨flushed,memory,split,sound,sorted,mem,seen⟩ := ok.split
  refine ⟨ok.current,ok.manifest,ok.next.trans (Nat.lt_succ_self _),ok.last,ok.small,?_,?_,
    ⟨flushed,memory,split,sound.mono (Nat.le_succ _) le_rfl,sorted,mem,seen⟩,ok.records,?_⟩
  · have edit := ok.edit
    rw [none] at edit
    exact edit
  · rintro _ _ ⟨⟩
    exact ⟨ok.next,Nat.lt_succ_self _⟩
  · intro l hl
    exact (ok.logs l hl).imp (fun lt => lt.trans (Nat.lt_succ_self _)) id

/-- A record of the log goes to the memtable of the replay. -/
theorem Replay.Ok.insert (o : Options K V) {r : Replay K V} (disk : d.Ok h number m) (ok : r.Ok d h m)
    (none : r.table = none) {b : WriteBatch K V} {rest : List (WriteBatch K V)}
    (records : r.records = b :: rest) : (r.insert o b rest).Ok d h m := by
  obtain ⟨flushed,memory,split,sound,sorted,mem,seen⟩ := ok.split
  obtain ⟨n,logs,isLogs⟩ : ∃ n logs, r.logs = n :: logs := by
    cases hl : r.logs with
    | nil =>
      have := ok.records hl
      rw [records] at this
      cases this
    | cons n logs => exact ⟨n,logs,rfl⟩
  have splitNow : h = flushed ++ (memory ++ [(n,b)]) ++ (rest.map (n,·) ++ d.replayed logs) := by
    rw [isLogs,records] at split
    simpa using split
  have member : (n,b) ∈ h := by
    rw [splitNow]
    simp
  have fresh : ∀ a ∈ r.mem.getD [], ∀ e ∈ b.entries, a.sequence < e.sequence := by
    intro a ha e he
    have inMemory : a ∈ History.set memory := mem ▸ ha
    obtain ⟨x,hx,ina⟩ := mem_history_set.mp inMemory
    have ordered := disk.ordered
    rw [splitNow] at ordered
    have inner := (List.pairwise_append.mp (List.pairwise_append.mp ordered).1).2.1
    exact ((List.pairwise_append.mp inner).2.2 x hx (n,b) (List.mem_singleton_self _)).2 a ina e he
  obtain ⟨newSorted,newSet⟩ := insertInto_spec b sorted fresh
  have batchSet : History.set [(n,b)] = entrySet b.entries := by simp [History.set,History.entries]
  have small := disk.small (n,b) member
  have inserted : { r with
      records := rest
      mem := some (b.insertInto (r.mem.getD []))
      maxSequence := max r.maxSequence (b.sequence + b.count - 1) }.Ok d h m := by
    refine ⟨ok.current,ok.manifest,ok.next,ok.last,?_,ok.edit,ok.table,
      ⟨flushed,memory ++ [(n,b)],?_,sound,newSorted,?_,?_⟩,?_,ok.logs⟩
    · have := ok.small
      simp only [max_lt_iff]
      simp only at small
      omega
    · rw [isLogs]
      exact splitNow
    · show entrySet (b.insertInto (r.mem.getD [])) = _
      rw [newSet,mem,History.set_append,batchSet,Set.union_comm]
    · intro e he
      rw [← List.append_assoc,History.set_append,batchSet] at he
      rcases he with early | new
      · have := seen e early
        simp only
        omega
      · obtain ⟨i,bound,same,-⟩ := mem_batch_entries new
        simp only
        omega
    · intro empty
      simp only at empty
      rw [isLogs] at empty
      cases empty
  simp only [Replay.insert]
  split
  · exact inserted.beginTable none
  · exact inserted

/-- The replay goes on to the next log. -/
theorem Replay.Ok.nextLog {r : Replay K V} (ok : r.Ok d h m) (none : r.table = none)
    (records : r.records = []) {n : Nat} {rest : List Nat} (logs : r.logs = n :: rest) :
    { r with
      versions := r.versions.markFileNumberUsed n
      logs := rest
      records := (rest.head?.map d.recordsOf).getD [] }.Ok d h m := by
  obtain ⟨flushed,memory,split,sound,sorted,mem,seen⟩ := ok.split
  have marked : (r.versions.markFileNumberUsed n).current = r.versions.current ∧
      (r.versions.markFileNumberUsed n).manifestFileNumber = r.versions.manifestFileNumber ∧
      (r.versions.markFileNumberUsed n).lastSequence = r.versions.lastSequence ∧
      r.versions.nextFileNumber ≤ (r.versions.markFileNumberUsed n).nextFileNumber ∧
      n < (r.versions.markFileNumberUsed n).nextFileNumber := by
    simp only [VersionSet.markFileNumberUsed]
    split
    · exact ⟨rfl,rfl,rfl,by simp only; omega,by simp only; omega⟩
    · exact ⟨rfl,rfl,rfl,le_rfl,by omega⟩
  obtain ⟨current,manifest,last,grows,past⟩ := marked
  refine ⟨current.trans ok.current,manifest.trans ok.manifest,ok.next.trans_le grows,last.trans ok.last,
    ok.small,?_,?_,⟨flushed,memory,?_,?_,sorted,mem,seen⟩,?_,?_⟩
  · obtain ⟨deleted,files,new,ascending,range⟩ := ok.edit
    rw [none] at range ⊢
    exact ⟨deleted,files,new,ascending,fun f hf => ⟨(range f hf).1,(range f hf).2.trans_le grows⟩⟩
  · simp [none]
  · rw [logs,records] at split
    rw [split]
    congr 1
    cases rest <;> simp [Disk.replayed]
  · show Sound d _ ((r.versions.markFileNumberUsed n).current.apply r.edit) _ _
    rw [current]
    exact sound.mono grows le_rfl
  · intro empty
    simp only at empty
    simp [empty]
  · intro l hl
    rcases ok.logs l hl with lt | member
    · exact .inl (lt.trans_le grows)
    · rw [logs] at member
      rcases List.mem_cons.mp member with same | later
      · exact .inl (same ▸ past)
      · exact .inr later

end Replay

/-- The new log is there and the edit of the recovery is ready to be committed. -/
structure Opened (d : Disk K V) (h : History K V) (versions : VersionSet K) (log : Nat) (c : Commit K) :
    Prop where
  completes : c.edit.Completes log versions.nextFileNumber versions.lastSequence
  prev : c.edit.prevLogNumber = some 0
  version : c.version = versions.current.apply c.edit
  wf : versions.current.Wf d.table
  numbers : ∀ l, ∀ f ∈ versions.current.files l, f.number < versions.nextFileNumber
  sound : Sound d h.set c.version versions.nextFileNumber versions.lastSequence
  fresh : ∀ l, ∀ f ∈ c.edit.newAt l, ∀ l', ∀ g ∈ versions.current.files l', g.number ≠ f.number
  distinct : ∀ l, (c.edit.newAt l).Pairwise fun f g => f.number ≠ g.number
  bounded : ∀ e ∈ h.set, e.sequence ≤ versions.lastSequence
  last : versions.lastSequence < kMaxSequenceNumber
  logged : ∃ l ∈ d.logs, l.number = log
  newest : ∀ l ∈ d.logs, l.number ≤ log
  later : ∀ r ∈ h, r.1 < log
  number : log < versions.nextFileNumber
  manifest : versions.manifestFileNumber < versions.nextFileNumber

section Open
variable {d : Disk K V} {h : History K V} {number : Nat} {m : ManifestFile K V}

/-- All logs are replayed. -/
theorem Replay.Ok.openLog {r : Replay K V} (disk : d.Ok h number m) (ok : r.Ok d h m)
    (noTable : r.table = none) (noMem : r.mem = none) (logs : r.logs = []) :
    let n := r.versions.nextFileNumber
    let versions := { r.versions with
      nextFileNumber := n + 1
      lastSequence := max r.versions.lastSequence r.maxSequence }
    (d.newLog n).Ok h number m ∧
      Opened (d.newLog n) h versions n (versions.logAndApply { r.edit with
        logNumber := some n
        prevLogNumber := some 0 }) ∧
      number ≠ versions.manifestFileNumber := by
  intro n versions
  have good := disk.last_good
  obtain ⟨flushed,memory,split,sound,-,mem,seen⟩ := ok.split
  have newest : ∀ l ∈ d.logs, l.number < n := by
    intro l hl
    rcases ok.logs l hl with lt | member
    · exact lt
    · rw [logs] at member
      cases member
  have later : ∀ x ∈ h, x.1 < n := by
    intro x hx
    by_cases late : (recoverRecords m.records).log ≤ x.1
    · obtain ⟨l,hl,same⟩ := disk.present x hx (by rw [upTo_length]; exact late)
      exact same ▸ newest l hl
    · have := good.log
      have := ok.next
      omega
  have noMemory : History.set memory = ∅ := by
    rw [← mem,noMem]
    ext e
    simp
  have all : h.set = History.set flushed := by
    rw [split,logs]
    simp [noMemory,Disk.replayed]
  have current := ok.current
  obtain ⟨deleted,files,new,ascending,range⟩ := ok.edit
  rw [noTable] at range
  have newFile : ∀ l f, f ∈ ({ r.edit with logNumber := some n, prevLogNumber := some 0 } : VersionEdit K).newAt l → f ∈ files := by
    intro l f hf
    rw [mem_newAt,show ({ r.edit with logNumber := some n, prevLogNumber := some 0 } : VersionEdit K).newFiles = r.edit.newFiles from
      rfl,new] at hf
    obtain ⟨g,hg,same⟩ := List.mem_map.mp hf
    cases same
    exact hg
  refine ⟨disk.newLog n newest later (Nat.zero_lt_of_lt ok.next),?_,?_⟩
  · refine ⟨⟨rfl,rfl,rfl,rfl⟩,rfl,rfl,?_,?_,?_,?_,?_,?_,?_,?_,?_,later,Nat.lt_succ_self _,?_⟩
    · show r.versions.current.Wf _
      rw [current]
      exact good.sound.wf
    · intro l f hf
      have member : f ∈ r.versions.current.files l := hf
      rw [current] at member
      exact (good.sound.numbers l f member).trans (ok.next.trans (Nat.lt_succ_self _))
    · rw [all]
      have framed : Sound (d.newLog n) (History.set flushed) (r.versions.current.apply r.edit)
          r.versions.nextFileNumber (recoverRecords m.records).last := sound.frame fun _ _ _ => rfl
      refine framed.mono (Nat.le_succ _) ?_
      show (recoverRecords m.records).last ≤ max r.versions.lastSequence r.maxSequence
      rw [ok.last]
      exact le_max_left _ _
    · intro l f hf l' g hg
      have member : g ∈ r.versions.current.files l' := hg
      rw [current] at member
      exact ((good.sound.numbers l' g member).trans (range f (newFile l f hf)).1).ne
    · intro l
      have numbers := (List.pairwise_map.mp ascending).imp fun {a b} lt => Nat.ne_of_lt lt
      rw [VersionEdit.newAt,show (versions.logAndApply { r.edit with logNumber := some n, prevLogNumber := some 0 }).edit.newFiles =
        r.edit.newFiles from rfl,new,List.filterMap_map]
      by_cases zero : 0 = l
      · simpa [Function.comp_def,zero] using numbers
      · simp [zero]
    · intro e he
      rw [all] at he
      have := seen e (by rw [History.set_append]; exact .inl he)
      show e.sequence ≤ max r.versions.lastSequence r.maxSequence
      rw [ok.last]
      exact this
    · show max r.versions.lastSequence r.maxSequence < _
      rw [ok.last]
      exact max_lt good.last ok.small
    · exact ⟨⟨n,[],0⟩,List.mem_append_right _ (List.mem_singleton_self _),rfl⟩
    · intro l hl
      rcases List.mem_append.mp hl with old | fresh
      · exact (newest l old).le
      · rw [List.mem_singleton.mp fresh]
    · show r.versions.manifestFileNumber < r.versions.nextFileNumber + 1
      rw [ok.manifest]
      exact ok.next.trans (Nat.lt_succ_self _)
  · show number ≠ r.versions.manifestFileNumber
    rw [ok.manifest]
    exact good.manifest.ne

theorem Recovered.start_version : (Recovered.start : Recovered K).version = Version.empty :=
  newBuilder_saveTo _

theorem Recovered.start_wf : (Recovered.start : Recovered K).Wf := by
  refine ⟨rfl,Builder.new_wf _ fun l => List.Pairwise.nil,?_,rfl⟩
  intro l l' g f hg
  cases hg

omit [LinearOrder K] in
theorem Recovered.start_unused (n : Nat) : ¬(Recovered.start : Recovered K).builder.Uses n := by
  rintro ⟨l,f,hf,-⟩
  cases hf

/-- A snapshot record alone brings back the version it was made from. -/
theorem snapshot_recovered {vs : VersionSet K} {tables : Tables K V} (wf : vs.current.Wf tables) :
    (Recovered.start.step vs.snapshot).Wf ∧ (Recovered.start.step vs.snapshot).version = vs.current ∧
      ∀ n, (Recovered.start.step vs.snapshot).builder.Uses n →
        ∃ l, ∃ f ∈ vs.current.files l, f.number = n := by
  have newAt := snapshot_newAt vs wf.levels
  have distinct : ∀ l, (vs.snapshot.newAt l).Pairwise fun f g => f.number ≠ g.number := by
    intro l
    rw [newAt]
    refine (nodup_of_inOrder (wf.ordered l)).imp_of_mem ?_
    intro f g hf hg ne same
    exact ne (wf.unique l l f g hf hg same).2
  have applied := vs.apply_snapshot wf.levels wf.ordered fun l f hf g hg same =>
    (wf.unique l l g f hg hf same).2
  obtain ⟨stepWf,version,uses⟩ := Recovered.start_wf.step (e := vs.snapshot)
    ⟨fun l f _ => .inl (Recovered.start_unused _),distinct⟩ rfl (by
      rw [Recovered.start_version,applied]
      exact fun l l' f g hf hg same => (wf.unique l l' f g hf hg same).1)
  rw [Recovered.start_version,applied] at version uses
  refine ⟨stepWf,version,fun n hn => ?_⟩
  rcases uses n hn with old | new
  · exact absurd old (Recovered.start_unused n)
  · exact new

/-- The records of the manifest that `DB::Open` writes. -/
def openRecords (h : History K V) (versions : VersionSet K) (c : Commit K) : List (ManifestRecord K V) :=
  [⟨versions.snapshot,[]⟩,⟨c.edit,h.before (c.edit.logNumber.getD 0)⟩]

section Opened
variable {versions : VersionSet K} {log : Nat} {c : Commit K}

theorem Opened.frame {d' : Disk K V} (opened : Opened d h versions log c) (tables : d'.tables = d.tables)
    (logs : d'.logs = d.logs) : Opened d' h versions log c := by
  have table : d'.table = d.table := funext fun n => Disk.table_congr (by rw [tables])
  exact ⟨opened.completes,opened.prev,opened.version,by rw [table]; exact opened.wf,opened.numbers,
    opened.sound.frame fun _ _ _ => by rw [tables],opened.fresh,opened.distinct,opened.bounded,opened.last,
    by rw [logs]; exact opened.logged,by rw [logs]; exact opened.newest,opened.later,opened.number,
    opened.manifest⟩

/-- Both records of the new manifest together stand for the whole history. -/
theorem Opened.good (opened : Opened d h versions log c) :
    Good d h versions.manifestFileNumber (openRecords h versions c) ∧
      (recoverRecords (openRecords h versions c)).version = c.version ∧
      (recoverRecords (openRecords h versions c)).log = log ∧
      (recoverRecords (openRecords h versions c)).next = versions.nextFileNumber := by
  have isLog : c.edit.logNumber.getD 0 = log := by rw [opened.completes.log]; rfl
  have all : h.before log = h := h.before_all _ opened.later
  obtain ⟨wf,version,uses⟩ := snapshot_recovered opened.wf
  set first : List (ManifestRecord K V) := [⟨versions.snapshot,[]⟩] with hfirst
  have isFirst : recoverRecords first = Recovered.start.step versions.snapshot := rfl
  rw [← isFirst] at wf version uses
  have fits : c.edit.Fits (recoverRecords first) := by
    refine ⟨fun l f hf => .inl ?_,opened.distinct⟩
    intro used
    obtain ⟨l',g,hg,same⟩ := uses _ used
    exact opened.fresh l f hf l' g hg same
  have applied : (recoverRecords first).version.apply c.edit = c.version := by
    rw [version,opened.version]
  have good : Good d h versions.manifestFileNumber (first ++ [⟨c.edit,h.before log⟩]) := by
    refine Good.append wf ?_ opened.completes fits ?_ ?_ opened.number opened.manifest opened.last
    · intro n used
      obtain ⟨l,f,hf,same⟩ := uses n used
      exact same ▸ opened.numbers l f hf
    · rw [all,applied]
      exact opened.sound
    · rw [all]
      exact opened.bounded
  have records : openRecords h versions c = first ++ [⟨c.edit,h.before log⟩] := by
    rw [openRecords,isLog]
    rfl
  have stepped := wf.step fits opened.completes.prev fun l l' f g hf hg same => by
    rw [applied] at hf hg
    exact (opened.sound.wf.unique l l' f g hf hg same).1
  rw [records]
  refine ⟨good,?_,?_,?_⟩
  · rw [recoverRecords_append]
    exact stepped.2.1.trans applied
  · rw [recoverRecords_append]
    simp [Recovered.log,Recovered.step,opened.completes.log]
  · rw [recoverRecords_append]
    simp [Recovered.next,Recovered.step,opened.completes.next]

/-- `CURRENT` is renamed: from here on the new manifest counts. -/
theorem Opened.rename (disk : d.Ok h number m) (opened : Opened d h versions log c)
    (live : (recoverRecords m.records).log ≤ log)
    {d' : Disk K V} (there : d'.manifests versions.manifestFileNumber = some ⟨openRecords h versions c,2⟩)
    (logs : d'.logs = d.logs) (tables : d'.tables = d.tables)
    (named : d'.currentFile = some (.line versions.manifestFileNumber)) :
    d'.Ok h versions.manifestFileNumber ⟨openRecords h versions c,2⟩ := by
  obtain ⟨good,-,isLog,-⟩ := opened.good
  have length : (openRecords h versions c).length = 2 := rfl
  have only : ∀ k, 2 ≤ k → k ≤ (openRecords h versions c).length →
      (openRecords h versions c).take k = openRecords h versions c := by
    intro k low _
    exact List.take_of_length_le (by rw [length]; exact low)
  have logAt : ∀ k, 2 ≤ k → k ≤ (openRecords h versions c).length →
      ((⟨openRecords h versions c,2⟩ : ManifestFile K V).upTo k).log = log := by
    intro k low high
    rw [ManifestFile.upTo,only k low high]
    exact isLog
  have whole : ∀ l ∈ d.logs, log ≤ l.number → l.records.map (l.number,·) = h.inLog l.number := by
    intro l hl late
    exact disk.whole l hl (by rw [upTo_length]; exact live.trans late)
  refine ⟨named,there,Nat.le_succ 1,le_rfl,?_,?_,by rw [logs]; exact disk.increasing,by rw [logs]; exact disk.positive,
    by rw [logs]; exact disk.bounded,?_,?_,?_,disk.ordered,disk.small⟩
  · intro k low high
    rw [only k low high]
    exact good.frame (fun _ _ _ => by rw [tables]) rfl
  · intro j k low le high
    rw [logAt j low (le.trans high),logAt k (low.trans le) high]
  · intro l hl late
    rw [logAt 2 le_rfl (by rw [length])] at late
    rw [whole l (logs ▸ hl) late]
  · intro l hl late
    rw [logAt _ (by rw [length]) le_rfl] at late
    exact whole l (logs ▸ hl) late
  · intro r hr late
    rw [logAt _ (by rw [length]) le_rfl] at late
    exact absurd (opened.later r hr) (not_lt_of_ge late)

/-- The database is open. -/
theorem Opened.install (opened : Opened d h versions log c) (job : Job K V)
    (jobOk : { Db.new (versions.install c) log with job }.JobOk d h ⟨openRecords h versions c,2⟩)
    (noCommit : job.commit = none) :
    { Db.new (versions.install c) log with job }.Ok d h ⟨openRecords h versions c,2⟩ := by
  obtain ⟨good,isVersion,isLog,isNext⟩ := opened.good
  have all : h.before log = h := h.before_all _ opened.later
  have logNumber : (versions.install c).logNumber = log := by
    simp [VersionSet.install,opened.completes.log]
  have none : h.since log = [] := by
    refine List.filter_eq_nil_iff.mpr fun r hr => ?_
    simpa using opened.later r hr
  refine ⟨?_,?_,?_,jobOk,opened.logged,opened.newest,opened.number⟩
  · refine ⟨List.Pairwise.nil,List.Pairwise.nil,⟨h,(List.append_nil h).symm,?_,opened.bounded⟩,?_,fun _ => logNumber,
      logNumber.le,fun r hr => (opened.later r hr).le,?_,by simp [Db.group,Db.new],opened.last,
      List.Pairwise.nil,by simp [Db.new]⟩
    · show entrySet [] = (h.since log).set
      rw [none]
      rfl
    · show entrySet [] = ((h.before log).since (versions.install c).logNumber).set
      rw [logNumber,all,none]
      rfl
    · show ∀ e ∈ (h.before log).set, _
      rw [all]
      exact opened.bounded
  · show Sound d (h.before (versions.install c).logNumber).set c.version versions.nextFileNumber
      versions.lastSequence
    rw [logNumber,all]
    exact opened.sound
  · refine ⟨?_,?_,fun _ => rfl,isNext.le,by simp [Db.new,VersionSet.install,opened.prev]⟩
    · simp only [Db.recorded,noCommit]
      exact isVersion
    · simp only [Db.recorded,noCommit]
      exact isLog.trans logNumber.symm

end Opened

end Open

end LevelDB
