import LevelDB.Sequences
import LevelDB.LevelDisjoint

/-! Sequence numbers over whole runs. `DB::Open` takes the number of the manifest and the
numbers in the logs that it replays, so that a database that crashed, perhaps with a log
cut short or torn in the middle by a write that failed, goes on above everything that it
still has. -/
namespace LevelDB

variable {K V : Type} [LinearOrder K]

/-- The manifest that `CURRENT` names has numbers that are high enough. -/
def Disk.Numbered (d : Disk K V) : Prop :=
  ∀ number m, d.current = some number → d.manifests number = some m → d.Sequences m

/-- The highest number found in the manifest and the records read so far. -/
def Replay.reached (r : Replay K V) : Nat := max r.versions.lastSequence r.maxSequence

/-- Every log has been read, or is waiting, or is the one being read. -/
structure Replay.Numbered (r : Replay K V) (d : Disk K V) (m : ManifestFile K V) : Prop where
  last : r.versions.lastSequence = (recoverRecords m.records).last
  read : ∀ l ∈ d.logs, l.number ∉ r.logs → ∀ b ∈ l.records, ∀ e ∈ b.entries, e.sequence ≤ r.reached
  head : ∀ n rest, r.logs = n :: rest → ∀ b ∈ d.recordsOf n, b ∈ r.records ∨ ∀ e ∈ b.entries, e.sequence ≤ r.reached
  records : ∀ b ∈ r.records, ∀ e ∈ b.entries, e ∈ d.logSet
  mem : ∀ e ∈ r.mem.getD [], e ∈ d.logSet
  new : ∀ n ∈ r.edit.newFiles, ∀ e ∈ d.table n.2.number, e ∈ d.logSet

/-- The version to be committed, when all logs are read. -/
structure OpenNumbered (d : Disk K V) (versions : VersionSet K) (c : Commit K) : Prop where
  logs : ∀ e ∈ d.logSet, e.sequence ≤ versions.lastSequence
  current : ∀ e ∈ versions.current.entries d.table, e.sequence ≤ versions.lastSequence
  new : ∀ n ∈ c.edit.newFiles, ∀ e ∈ d.table n.2.number, e ∈ d.logSet
  once : Set.InjOn Entry.sequence (d.logSet ∪ versions.current.entries d.table)

def State.Sequences (s : State K V) : Prop :=
  s.disk.Numbered ∧ match s.process with
  | .opening (.replay r) => ∀ number m, s.disk.current = some number → s.disk.manifests number = some m →
      r.Numbered s.disk m
  | .opening (.commit versions _ c _) => OpenNumbered s.disk versions c
  | .running db => ∀ m, s.disk.manifests db.versions.manifestFileNumber = some m → (db.core s.disk).Sequences m
  | _ => True

section Disk
variable {o : Options K V} {file : Nat → Option (FileMetaData K)} {d d' : Disk K V} {number : Nat}
  {m : ManifestFile K V}

/-- Logs that lose records and other tables do no harm. -/
theorem Disk.Sequences.frame (seq : d.Sequences m)
    (logs : ∀ l ∈ d'.logs, ∀ b ∈ l.records, ∃ l' ∈ d.logs, l'.number = l.number ∧ b ∈ l'.records)
    (tables : ∀ k, m.synced ≤ k → k ≤ m.records.length → ∀ l, ∀ f ∈ (m.upTo k).version.files l,
      d'.tables f.number = d.tables f.number) : d'.Sequences m := by
  have entries : ∀ k, m.synced ≤ k → k ≤ m.records.length →
      (m.upTo k).version.entries d'.table = (m.upTo k).version.entries d.table :=
    fun k low high => Version.entries_congr fun l f hf => Disk.table_congr (tables k low high l f hf)
  refine ⟨fun k low high => ⟨?_,?_⟩,seq.once.mono ?_⟩
  · rw [entries k low high]
    exact (seq.recorded k low high).tables
  · exact (seq.recorded k low high).logs.sub fun l hl _ b hb => logs l hl b hb
  · rintro e (⟨l,hl,b,hb,he⟩ | ⟨k,low,high,he⟩)
    · obtain ⟨l',hl',-,hb'⟩ := logs l hl b hb
      exact .inl ⟨l',hl',b,hb',he⟩
    · rw [entries k low high] at he
      exact .inr ⟨k,low,high,he⟩

theorem Disk.Sequences.crash (seq : d.Sequences m) (files : d.Files o file number m) (cut : Cut) :
    (d.crash cut).Sequences (m.cut (cut (.manifest number))) := by
  have length := cut_length m (cut (.manifest number)) files.synced
  have crashed : (d.crash cut).Sequences m := by
    refine seq.frame ?_ fun k low high l f hf => ?_
    · intro l hl b hb
      obtain ⟨old,ho,-,same,-,records⟩ := mem_crash_logs hl
      exact ⟨old,ho,same.symm,records.subset hb⟩
    · obtain ⟨entries,there,-⟩ := ((files.restores k low high).kept.files l f hf).table
      simp [Disk.crash,there,TableFile.cut]
  have upTo : ∀ k, k ≤ (m.cut (cut (.manifest number))).records.length →
      (m.cut (cut (.manifest number))).upTo k = m.upTo k :=
    fun k high => congrArg recoverRecords (cut_take m _ k high)
  refine ⟨fun k low high => ?_,crashed.once.mono ?_⟩
  · rw [upTo k high]
    exact crashed.recorded k low (high.trans length.2)
  · rintro e (log | ⟨k,low,high,he⟩)
    · exact .inl log
    · rw [upTo k high] at he
      exact .inr ⟨k,low,high.trans length.2,he⟩

/-- The entries of a version that is kept do not change with the tables of other files. -/
theorem Version.Kept.entries_free {S : Nat → Prop} {v : Version K} (kept : v.Kept o file d) (touches : d.Touches d' S)
    (free : ∀ n, S n → file n = none) : ∀ l, ∀ f ∈ v.files l, d'.tables f.number = d.tables f.number := by
  intro l f hf
  refine touches.tables _ fun hit => ?_
  have named := (kept.files l f hf).named
  rw [free _ hit] at named
  cases named

theorem Disk.Sequences.free {S : Nat → Prop} (seq : d.Sequences m) (files : d.Files o file number m)
    (touches : d.Touches d' S) (free : ∀ n, S n → file n = none) : d'.Sequences m := by
  refine seq.frame (fun l hl b hb => ⟨l,by rwa [← touches.logs],rfl,hb⟩) fun k low high => ?_
  exact (files.restores k low high).kept.entries_free touches free

omit [LinearOrder K] in
theorem Disk.logSet_newLog (d : Disk K V) (n : Nat) : (d.newLog n).logSet = d.logSet := by
  ext e
  simp [Disk.logSet,Disk.newLog]

end Disk

section Replay
variable {o : Options K V} {file : Nat → Option (FileMetaData K)} {r : Replay K V} {d : Disk K V} {number : Nat}
  {m : ManifestFile K V}

omit [LinearOrder K] in
theorem mem_recordsOf {n : Nat} {b : WriteBatch K V} (member : b ∈ d.recordsOf n) : ∃ l ∈ d.logs, l.number = n ∧ b ∈ l.records := by
  rw [Disk.recordsOf] at member
  cases found : d.logs.find? fun l => l.number == n with
  | none => simp [found] at member
  | some l =>
    simp only [found,Option.map_some,Option.getD_some] at member
    exact ⟨l,List.mem_of_find?_eq_some found,by simpa using List.find?_some found,member⟩

omit [LinearOrder K] in
theorem mem_headRecords {logs : List Nat} {b : WriteBatch K V} {e : Entry K V}
    (member : b ∈ (logs.head?.map d.recordsOf).getD []) (he : e ∈ b.entries) : e ∈ d.logSet := by
  cases logs with
  | nil => cases member
  | cons n rest =>
    obtain ⟨l,hl,-,hb⟩ := mem_recordsOf member
    exact ⟨l,hl,b,hb,he⟩

/-- A manifest is recovered: the logs that it has done with are below its number. -/
theorem Disk.Sequences.startReplay (seq : d.Sequences m) (files : d.Files o file number m) :
    Replay.Numbered ⟨⟨(recoverRecords m.records).version,(recoverRecords m.records).next + 1,
        (recoverRecords m.records).next,(recoverRecords m.records).last,(recoverRecords m.records).log,0,
        (recoverRecords m.records).compactPointer⟩,.empty,d.logsFrom (recoverRecords m.records).log 0,
        ((d.logsFrom (recoverRecords m.records).log 0).head?.map d.recordsOf).getD [],none,0,none⟩ d m := by
  have whole := seq.recorded m.records.length files.synced le_rfl
  rw [upTo_length] at whole
  refine ⟨rfl,?_,?_,fun b hb e he => mem_headRecords hb he,fun e he => absurd he List.not_mem_nil,
    fun n hn => absurd hn List.not_mem_nil⟩
  · intro l hl notWaiting b hb e he
    have early : l.number < (recoverRecords m.records).log := by
      by_contra late
      refine notWaiting ?_
      simp only [Disk.logsFrom,List.mem_insertionSort,List.mem_filter,Bool.or_eq_true,decide_eq_true_eq]
      exact ⟨List.mem_map_of_mem hl,.inl (not_lt.mp late)⟩
    exact (whole.logs l hl early b hb e he).trans (le_max_left _ _)
  · intro n rest logs b hb
    refine .inl ?_
    have waiting : d.logsFrom (recoverRecords m.records).log 0 = n :: rest := logs
    simpa [waiting] using hb

theorem Replay.Numbered.insert (seq : r.Numbered d m) {b : WriteBatch K V} {rest : List (WriteBatch K V)}
    (records : r.records = b :: rest) : (r.insert o b rest).Numbered d m := by
  have here : ∀ e ∈ b.entries, e ∈ d.logSet := seq.records b (records ▸ List.mem_cons_self)
  have read : Replay.Numbered { r with
      records := rest
      mem := some (b.insertInto (r.mem.getD []))
      maxSequence := max r.maxSequence (b.sequence + b.count - 1) } d m := by
    have up : r.reached ≤ max r.versions.lastSequence (max r.maxSequence (b.sequence + b.count - 1)) :=
      max_le_max le_rfl (le_max_left _ _)
    refine ⟨seq.last,fun l hl notWaiting b hb e he => (seq.read l hl notWaiting b hb e he).trans up,?_,
      fun b' hb' => seq.records b' (records ▸ List.mem_cons_of_mem _ hb'),?_,seq.new⟩
    · intro n logs isLogs b' hb'
      rcases seq.head n logs isLogs b' hb' with waiting | done
      · rw [records] at waiting
        rcases List.mem_cons.mp waiting with rfl | later
        · refine .inr fun e he => ?_
          obtain ⟨i,bound,same,-⟩ := mem_batch_entries he
          exact le_max_of_le_right (le_max_of_le_right (by omega))
        · exact .inl later
      · exact .inr fun e he => (done e he).trans up
    · intro e he
      rcases (mem_insertInto b _ e).mp he with old | new
      · exact seq.mem e old
      · exact here e new
  rw [Replay.insert]
  split
  · exact ⟨read.last,read.read,read.head,read.records,read.mem,read.new⟩
  · exact read

theorem Replay.Numbered.nextLog (seq : r.Numbered d m) (files : d.Files o file number m) {n : Nat} {rest : List Nat}
    (records : r.records = []) (logs : r.logs = n :: rest) :
    Replay.Numbered { r with
      versions := r.versions.markFileNumberUsed n
      logs := rest
      records := (rest.head?.map d.recordsOf).getD [] } d m := by
  have last : (r.versions.markFileNumberUsed n).lastSequence = r.versions.lastSequence := by
    rw [VersionSet.markFileNumberUsed]
    split
    · rfl
    · rfl
  have reached : max (r.versions.markFileNumberUsed n).lastSequence r.maxSequence = r.reached := by
    rw [last]
    rfl
  refine ⟨last.trans seq.last,?_,?_,fun b hb e he => mem_headRecords hb he,seq.mem,seq.new⟩
  · intro l hl notWaiting b hb e he
    rw [Replay.reached,reached]
    by_cases here : l.number = n
    · rw [← recordsOf_eq files.increasing l hl,here] at hb
      rcases seq.head n rest logs b hb with waiting | done
      · rw [records] at waiting
        cases waiting
      · exact done e he
    · refine seq.read l hl ?_ b hb e he
      rw [logs,List.mem_cons,not_or]
      exact ⟨here,notWaiting⟩
  · intro k tail isLogs b hb
    refine .inl ?_
    have waiting : rest = k :: tail := isLogs
    simpa [waiting] using hb

/-- A table of the replay is written: it holds the memtable, so entries of the logs. -/
theorem Replay.Numbered.writeTable {n : Nat} {stage : BuildStage} (seq : r.Numbered d m) (files : r.Files o file d number m)
    (table : r.table = some (n,stage)) (entries : MemTable K V) (synced : Bool) (t : Option (Nat × BuildStage)) :
    Replay.Numbered { r with table := t } (d.withTable n entries synced) m := by
  have touches := withTable_touches d n entries synced
  have logSet : (d.withTable n entries synced).logSet = d.logSet := by rw [Disk.logSet,Disk.logSet,touches.logs]
  have recordsOf : (d.withTable n entries synced).recordsOf = d.recordsOf := by
    funext k
    rw [Disk.recordsOf,Disk.recordsOf,touches.logs]
  refine ⟨seq.last,by rw [touches.logs]; exact seq.read,by rw [recordsOf]; exact seq.head,by rw [logSet]; exact seq.records,
    by rw [logSet]; exact seq.mem,fun k hk e he => ?_⟩
  have kept := (files.new k hk).2.1.named
  have other : k.2.number ≠ n := by
    intro same
    rw [same,(files.table n stage table).1] at kept
    cases kept
  rw [logSet]
  rw [Disk.table_congr (touches.tables _ other)] at he
  exact seq.new k hk e he

theorem Replay.Numbered.syncTable {n : Nat} (seq : r.Numbered d m) (files : r.Files o file d number m)
    (table : r.table = some (n,.sync)) :
    Replay.Numbered { r with
      edit := ((outputFile o n (r.mem.getD [])).map (r.edit.addFile 0)).getD r.edit
      mem := none
      table := none } (d.withTable n (r.mem.getD []) true) m := by
  have written := seq.writeTable files table (r.mem.getD []) true none
  refine ⟨written.last,written.read,written.head,written.records,fun e he => absurd he List.not_mem_nil,?_⟩
  intro k hk e he
  cases isFile : outputFile o n (r.mem.getD []) with
  | none =>
    simp only [isFile] at hk
    exact written.new k hk e he
  | some f =>
    simp only [isFile,Option.map_some,Option.getD_some,VersionEdit.addFile,List.mem_append,List.mem_singleton] at hk
    rcases hk with before | rfl
    · exact written.new k before e he
    · have nonempty : r.mem.getD [] ≠ [] := by
        intro empty
        rw [empty] at isFile
        simp [outputFile] at isFile
      have there := withTable_written d n (r.mem.getD []) true nonempty
      rw [(outputFile_spec isFile).1] at he
      simp only [Disk.table,there,Option.map_some,Option.getD_some] at he
      exact written.mem e he

/-- The logs are read: the numbers go on above them. -/
theorem Replay.Numbered.openLog (seq : r.Numbered d m) (disk : d.Sequences m) (files : r.Files o file d number m)
    (noLogs : r.logs = []) :
    let n := r.versions.nextFileNumber
    let versions := { r.versions with
      nextFileNumber := n + 1
      lastSequence := max r.versions.lastSequence r.maxSequence }
    OpenNumbered (d.newLog n) versions
      (versions.logAndApply { r.edit with logNumber := some n, prevLogNumber := some 0 }) := by
  intro n versions
  have whole := disk.recorded m.records.length files.disk.synced le_rfl
  rw [upTo_length] at whole
  have current : r.versions.current.entries d.table ⊆ d.recordedSet m := by
    intro e he
    refine ⟨m.records.length,files.disk.synced,le_rfl,?_⟩
    rw [upTo_length,← files.current]
    exact he
  refine ⟨?_,?_,?_,?_⟩
  · rw [Disk.logSet_newLog]
    rintro e ⟨l,hl,b,hb,he⟩
    exact seq.read l hl (by rw [noLogs]; exact List.not_mem_nil) b hb e he
  · intro e he
    have old : e ∈ (recoverRecords m.records).version.entries d.table := by
      rw [← files.current]
      exact he
    exact ((whole.tables e old).trans seq.last.ge).trans (le_max_left _ _)
  · rw [Disk.logSet_newLog]
    exact seq.new
  · rw [Disk.logSet_newLog]
    exact disk.once.mono (Set.union_subset_union_right _ current)

end Replay

section Open
variable {o : Options K V} {file : Nat → Option (FileMetaData K)} {d d' : Disk K V} {versions : VersionSet K}
  {log : Nat} {c : Commit K}

omit [LinearOrder K] in
theorem OpenNumbered.frame (numbered : OpenNumbered d versions c) (tables : d'.tables = d.tables)
    (logs : d'.logs = d.logs) : OpenNumbered d' versions c := by
  have table : d'.table = d.table := funext fun n => Disk.table_congr (by rw [tables])
  have logSet : d'.logSet = d.logSet := by rw [Disk.logSet,Disk.logSet,logs]
  exact ⟨by rw [logSet]; exact numbered.logs,by rw [table]; exact numbered.current,
    by rw [table,logSet]; exact numbered.new,by rw [table,logSet]; exact numbered.once⟩

theorem OpenNumbered.version (numbered : OpenNumbered d versions c) (files : OpenFiles o file d versions log c) :
    c.version.entries d.table ⊆ d.logSet ∪ versions.current.entries d.table := by
  intro e he
  rw [files.version] at he
  rcases Version.entries_apply files.kept.inOrder files.places he with old | ⟨n,hn,added⟩
  · exact .inr old
  · exact .inl (numbered.new n hn e added)

theorem OpenNumbered.version_last (numbered : OpenNumbered d versions c) (files : OpenFiles o file d versions log c) :
    ∀ e ∈ c.version.entries d.table, e.sequence ≤ versions.lastSequence :=
  fun e he => (numbered.version files he).elim (numbered.logs e) (numbered.current e)

/-- The new manifest has numbers that are high enough. -/
theorem OpenNumbered.rename (numbered : OpenNumbered d versions c) (files : OpenFiles o file d versions log c)
    (h : History K V) : d.Sequences ⟨openRecords h versions c,2⟩ := by
  obtain ⟨-,version,isLog,isLast⟩ := files.restores h
  have only : ∀ k, 2 ≤ k → k ≤ 2 → (⟨openRecords h versions c,2⟩ : ManifestFile K V).upTo k =
      recoverRecords (openRecords h versions c) := by
    intro k low high
    have two : k = 2 := le_antisymm high low
    subst two
    rfl
  refine ⟨fun k low high => ?_,numbered.once.mono ?_⟩
  · rw [only k low high]
    refine ⟨?_,?_⟩
    · rw [version,isLast]
      exact numbered.version_last files
    · rw [isLast]
      exact fun l hl _ b hb e he => numbered.logs e ⟨l,hl,b,hb,he⟩
  · rintro e (inLog | ⟨k,low,high,he⟩)
    · exact .inl inLog
    · rw [only k low high,version] at he
      exact numbered.version files he

/-- The database is open. -/
theorem OpenNumbered.opened (numbered : OpenNumbered d versions c) (files : OpenFiles o file d versions log c)
    (h : History K V) :
    Core.Sequences ((Db.new (versions.install c) log).core d) ⟨openRecords h versions c,2⟩ := by
  have disk := numbered.rename files h
  obtain ⟨-,version,isLog,isLast⟩ := files.restores h
  have tables : Core.tableSet ((Db.new (versions.install c) log).core d) ⟨openRecords h versions c,2⟩ ⊆
      d.logSet ∪ versions.current.entries d.table := by
    rintro e (⟨v,rfl | here | ⟨_,⟨⟩,-⟩ | ⟨_,⟨⟩,-⟩,he⟩ | ⟨k,low,high,he⟩ | ⟨_,⟨⟩,-⟩)
    · exact numbered.version files he
    · cases here
    · have two : k = 2 := le_antisymm high low
      subst two
      have inVersion : e ∈ (recoverRecords (openRecords h versions c)).version.entries d.table := he
      rw [version] at inVersion
      exact numbered.version files inVersion
  refine ⟨by rintro _ ⟨⟩,fun e he => absurd he List.not_mem_nil,by rintro e ⟨_,⟨⟩,-⟩,
    fun l hl b hb e he => .inl (numbered.logs e ⟨l,hl,b,hb,he⟩),?_,?_,fun k low high => ⟨disk.recorded k low high,?_⟩,
    by rintro _ ⟨⟩,numbered.once.mono ?_⟩
  · exact fun e he => (tables he).elim (numbered.logs e) (numbered.current e)
  · show (versions.install c).logNumber ≤ log
    simp [VersionSet.install,files.completes.log]
  · have two : k = 2 := le_antisymm high low
    subst two
    exact ⟨isLog.le,isLast.le⟩
  · rintro e (mem | ⟨_,⟨⟩,-⟩ | inLog | table | ⟨_,⟨⟩,-⟩)
    · cases mem
    · exact .inl inLog
    · exact tables table

end Open

section States
variable {o : Options K V} {s s' : State K V}

/-- `LastSequence` does not go back while the database is open. -/
theorem Core.Sequences.last_le {loose : Bool} {c c' : Core K V} {m : ManifestFile K V} (seq : c.Sequences m)
    (step : Core.Step o loose [] c c') : c.versions.lastSequence ≤ c'.versions.lastSequence := by
  cases step with
  | @finish g group =>
    have last := (seq.group g group).2
    show c.versions.lastSequence ≤ g.lastSequence
    omega
  | advance =>
    simp only
    split
    · exact le_rfl
    · exact le_rfl
  | _ => exact le_rfl

/-- Steps of an open database keep its numbers. -/
theorem Core.Sequences.run {loose : Bool} {file : Nat → Option (FileMetaData K)} {c c' : Core K V} {m m' : ManifestFile K V}
    (seq : c.Sequences m) (files : c.Files o loose [] file m)
    (steps : Relation.ReflTransGen (Core.Step o loose []) c c')
    (there : c'.disk.manifests c'.versions.manifestFileNumber = some m') :
    c'.Sequences m' ∧ c.versions.lastSequence ≤ c'.versions.lastSequence := by
  have reached : ∃ file m, c'.Files o loose [] file m ∧ c'.Sequences m ∧
      c.versions.lastSequence ≤ c'.versions.lastSequence := by
    clear there
    induction steps with
    | refl => exact ⟨file,m,files,seq,le_rfl⟩
    | tail _ step ih =>
      obtain ⟨file,m,files,seq,le⟩ := ih
      obtain ⟨file',m',files'⟩ := files.step step
      exact ⟨file',m',files',seq.step files step files'.disk.manifest,le.trans (seq.last_le step)⟩
  obtain ⟨file',m'',files',seq',le⟩ := reached
  rw [files'.disk.manifest] at there
  cases there
  exact ⟨seq',le⟩

/-- An open database: its disk alone tells enough to open it again. -/
theorem Core.Sequences.disk {c : Core K V} {m : ManifestFile K V} (seq : c.Sequences m) : c.disk.Sequences m := by
  refine ⟨fun k low high => (seq.recorded k low high).1,seq.once.mono ?_⟩
  rintro e (inLog | recorded)
  · exact .inr (.inr (.inl inLog))
  · exact .inr (.inr (.inr (.inl (.inr (.inl recorded)))))

/-- The running database and its disk. -/
theorem State.Sequences.running {db : Db K V} {loose : Bool} (process : s.process = .running db)
    (files : s.Files o loose [])
    (seq : ∀ m, s.disk.manifests db.versions.manifestFileNumber = some m → (db.core s.disk).Sequences m) :
    s.Sequences := by
  rw [State.Files,process] at files
  obtain ⟨file,m,core⟩ := files
  refine ⟨fun number m' current there => ?_,by rw [process]; exact seq⟩
  have isNumber := core.disk.current.symm.trans current
  cases isNumber
  exact (seq m' there).disk

omit [LinearOrder K] in
theorem State.Fresh.no_current (fresh : s.Fresh) : s.disk.current = none := by
  rw [Disk.current,fresh.current]
  rfl

theorem State.Sequences.crash (seq : s.Sequences) (files : s.Files o true []) (cut : Cut) :
    (s.crash cut).Sequences := by
  refine ⟨fun number m current there => ?_,trivial⟩
  rcases files.disk with fresh | ⟨file,number',m',disk⟩
  · cases (fresh.crash cut).no_current.symm.trans current
  · have isNumber : some number' = some number := (disk.crash cut).current.symm.trans current
    cases isNumber
    have old := seq.1 number m' disk.current disk.manifest
    have cutIs : (s.disk.crash cut).manifests number = some (m'.cut (cut (.manifest number))) := by
      simp [Disk.crash,disk.manifest]
    have same := cutIs.symm.trans there
    cases same
    exact old.crash disk cut

theorem State.Sequences.openDb (seq : s.Sequences) (step : s.openDb = some s') : s'.Sequences := by
  cases hp : s.process with
  | opening p => simp [State.openDb,hp] at step
  | running db => simp [State.openDb,hp] at step
  | down =>
    cases current : s.disk.currentFile with
    | none =>
      simp only [State.openDb,hp,current,Option.some.injEq] at step
      subst step
      refine ⟨fun number m isCurrent => ?_,trivial⟩
      have none : s.disk.current = some number := isCurrent
      rw [Disk.current,current] at none
      cases none
    | some n =>
      simp only [State.openDb,hp,current,Option.some.injEq] at step
      subst step
      exact ⟨seq.1,trivial⟩

/-- Nothing is recovered from the manifest of a new database. -/
theorem newDb_numbered {d : Disk K V} (logs : d.logs = []) : d.Sequences ⟨[⟨newDbEdit,[]⟩],1⟩ := by
  have empty : ∀ k, 1 ≤ k → k ≤ 1 → ∀ e, e ∉ ((⟨[⟨newDbEdit,[]⟩],1⟩ : ManifestFile K V).upTo k).version.entries d.table := by
    rintro k low high e ⟨l,f,hf,-⟩
    have one : k = 1 := le_antisymm high low
    subst one
    cases hf
  refine ⟨fun k low high => ⟨fun e he => absurd he (empty k low high e),fun l hl => ?_⟩,?_⟩
  · rw [logs] at hl
    cases hl
  · rintro e (⟨l,hl,-⟩ | ⟨k,low,high,he⟩)
    · rw [logs] at hl
      cases hl
    · exact absurd he (empty k low high e)

theorem newDb_sequences (files : s.Files o true []) (step : s.newDb = some s') : s'.Sequences := by
  rw [State.newDb] at step
  split at step
  · rename_i hp
    rw [State.Files,hp] at files
    cases step
    exact ⟨fun number m isCurrent => absurd (files.1.no_current.symm.trans isCurrent) (by simp),trivial⟩
  · rename_i op hp
    rw [State.Files,hp] at files
    cases step
    obtain ⟨fresh,manifest,temp⟩ := files
    refine ⟨?_,?_⟩
    · rw [State.setCurrentFile_disk]
      intro number m isCurrent there
      rcases (temp op rfl).advance with ⟨next,-,-,same⟩ | ⟨rfl,named⟩
      · rw [Disk.current,same] at isCurrent
        cases fresh.no_current.symm.trans isCurrent
      · cases (Disk.current_line named).symm.trans isCurrent
        cases manifest.symm.trans there
        exact newDb_numbered fresh.logs
    · cases op.next <;> trivial
  · cases step

theorem State.Sequences.recover (seq : s.Sequences) (files : s.Files o true []) (step : s.recover = some s') :
    s'.Sequences := by
  have process : s.process = .opening .recover := by
    rw [State.recover] at step
    split at step
    · assumption
    · cases step
  rw [State.Files,process] at files
  obtain ⟨file,number,m,disk⟩ := files
  rw [disk.recovers process] at step
  cases step
  refine ⟨seq.1,fun number' m' current there => ?_⟩
  have isNumber := disk.current.symm.trans current
  cases isNumber
  have same := disk.manifest.symm.trans there
  cases same
  exact (seq.1 _ _ current there).startReplay disk

theorem State.Sequences.replay (seq : s.Sequences) (files : s.Files o true []) (step : s.replay o = some s') :
    s'.Sequences := by
  obtain ⟨r,hp,outcome⟩ := replay_cases step
  rw [State.Files,hp] at files
  obtain ⟨file,number,m,files⟩ := files
  have disk := seq.1 number m files.disk.current files.disk.manifest
  have replaying : r.Numbered s.disk m := by
    have both := seq.2
    rw [hp] at both
    exact both number m files.disk.current files.disk.manifest
  -- the manifest stays, so one manifest is enough
  have only : ∀ {t : State K V}, t.disk.currentFile = s.disk.currentFile → t.disk.manifests = s.disk.manifests →
      t.disk.Sequences m → (∀ r', t.process = .opening (.replay r') → r'.Numbered t.disk m) →
      (∀ versions log c stage, t.process = .opening (.commit versions log c stage) → OpenNumbered t.disk versions c) →
      (∀ db, t.process ≠ .running db) → t.Sequences := by
    intro t current manifests seq' numbered opened notRunning
    have isManifest : ∀ number' m', t.disk.current = some number' → t.disk.manifests number' = some m' → m' = m := by
      intro number' m' isCurrent there
      rw [Disk.current,current] at isCurrent
      cases files.disk.current.symm.trans isCurrent
      rw [manifests,files.disk.manifest] at there
      cases there
      rfl
    refine ⟨fun number' m' isCurrent there => isManifest number' m' isCurrent there ▸ seq',?_⟩
    split
    · rename_i r' process
      exact fun number' m' isCurrent there => isManifest number' m' isCurrent there ▸ numbered r' process
    · rename_i versions log c stage process
      exact opened versions log c stage process
    · rename_i db process
      exact absurd process (notRunning db)
    · trivial
  have freed : ∀ {n : Nat} {stage : BuildStage}, r.table = some (n,stage) → ∀ k, k = n → file k = none := by
    rintro n stage table _ rfl
    exact (files.table _ stage table).1
  obtain ⟨n,table,rfl⟩ | ⟨n,table,rfl⟩ | ⟨b,rest,-,records,rfl⟩ | ⟨-,-,-,rfl⟩ | ⟨n,rest,-,records,-,logs,rfl⟩ |
    ⟨-,-,-,logs,rfl⟩ := outcome
  · have touches := withTable_touches s.disk n (r.mem.getD []) false
    refine only ?_ ?_ ?_ ?_ ?_ ?_ <;> simp only [State.writeTable_process,State.writeTable_disk]
    · exact touches.current
    · exact touches.manifests
    · exact disk.free files.disk touches (freed table)
    · rintro _ ⟨⟩
      exact replaying.writeTable files table _ false _
    · rintro _ _ _ _ ⟨⟩
    · rintro _ ⟨⟩
  · have touches := withTable_touches s.disk n (r.mem.getD []) true
    refine only touches.current touches.manifests (disk.free files.disk touches (freed table)) ?_ (by rintro _ _ _ _ ⟨⟩)
      (by rintro _ ⟨⟩)
    rintro _ ⟨⟩
    exact replaying.syncTable files table
  · refine only rfl rfl disk ?_ (by rintro _ _ _ _ ⟨⟩) (by rintro _ ⟨⟩)
    rintro _ ⟨⟩
    exact replaying.insert records
  · refine only rfl rfl disk ?_ (by rintro _ _ _ _ ⟨⟩) (by rintro _ ⟨⟩)
    rintro _ ⟨⟩
    exact ⟨replaying.last,replaying.read,replaying.head,replaying.records,replaying.mem,replaying.new⟩
  · refine only rfl rfl disk ?_ (by rintro _ _ _ _ ⟨⟩) (by rintro _ ⟨⟩)
    rintro _ ⟨⟩
    exact replaying.nextLog files.disk records logs
  · refine only rfl rfl ?_ (by rintro _ ⟨⟩) ?_ (by rintro _ ⟨⟩)
    · refine disk.frame (fun l hl b hb => ?_) fun _ _ _ _ _ _ => rfl
      rcases List.mem_append.mp hl with old | new
      · exact ⟨l,old,rfl,hb⟩
      · rw [List.mem_singleton.mp new] at hb
        cases hb
    · rintro _ _ _ _ ⟨⟩
      exact replaying.openLog disk files logs

theorem State.Sequences.openCommit (seq : s.Sequences) (files : s.Files o true []) (step : s.openCommit = some s') :
    s'.Sequences := by
  rw [State.openCommit] at step
  split at step
  · rename_i versions log c stage hp
    have after := files
    rw [State.Files,hp] at files
    obtain ⟨file,opened,manifest,temp,rest⟩ := files
    have numbered : OpenNumbered s.disk versions c := by
      have both := seq.2
      rw [hp] at both
      exact both
    -- the manifest of the new version is not the current one yet
    have beside : ∀ {t : State K V}, t.disk.currentFile = s.disk.currentFile → t.disk.logs = s.disk.logs →
        t.disk.tables = s.disk.tables →
        (∃ x, t.disk.manifests = Function.update s.disk.manifests versions.manifestFileNumber x) →
        (∃ number m, s.disk.Files o file number m ∧ number < versions.manifestFileNumber) →
        (∃ stage', t.process = .opening (.commit versions log c stage')) → t.Sequences := by
      rintro t current logs tables ⟨x,manifests⟩ ⟨number,m,disk,older⟩ ⟨stage',process⟩
      refine ⟨fun number' m' isCurrent there => ?_,by rw [process]; exact numbered.frame tables logs⟩
      rw [Disk.current,current] at isCurrent
      have isNumber := disk.current.symm.trans isCurrent
      cases isNumber
      rw [manifests,Function.update_of_ne older.ne] at there
      refine (seq.1 number m' disk.current there).frame (fun l hl b hb => ⟨l,by rwa [← logs],rfl,hb⟩) fun _ _ _ _ f _ => ?_
      rw [tables]
    cases stage with
    | create =>
      rw [if_neg (by simp)] at rest
      obtain ⟨number,m,disk,older,-⟩ := rest
      cases step
      exact beside rfl rfl rfl ⟨_,rfl⟩ ⟨number,m,disk,older⟩ ⟨_,rfl⟩
    | append =>
      rw [if_neg (by simp)] at rest
      obtain ⟨number,m,disk,older,-⟩ := rest
      cases step
      exact beside rfl rfl rfl ⟨_,rfl⟩ ⟨number,m,disk,older⟩ ⟨_,rfl⟩
    | sync =>
      rw [if_neg (by simp)] at rest
      obtain ⟨number,m,disk,older,-⟩ := rest
      cases step
      exact beside rfl rfl rfl ⟨_,rfl⟩ ⟨number,m,disk,older⟩ ⟨_,rfl⟩
    | setCurrent op =>
      rw [if_neg (by simp)] at rest
      obtain ⟨number,m,disk,older,-⟩ := rest
      cases step
      rcases (temp op rfl).advance with ⟨next,-,-,same⟩ | ⟨rfl,named⟩
      · refine beside ?_ ?_ ?_ ⟨s.disk.manifests versions.manifestFileNumber,?_⟩ ⟨number,m,disk,older⟩ ⟨_,rfl⟩ <;>
          simp only [State.setCurrentFile_disk]
        · exact same
        · exact setCurrentFile_logs
        · exact setCurrentFile_tables
        · rw [setCurrentFile_manifests,Function.update_eq_self]
      · refine ⟨fun number' m' isCurrent there => ?_,numbered.frame rfl rfl⟩
        cases (Disk.current_line named).symm.trans isCurrent
        cases (manifest (by simp)).symm.trans there
        exact (numbered.rename opened s.history).frame (fun l hl b hb => ⟨l,hl,rfl,hb⟩) fun _ _ _ _ _ _ => rfl
    | install =>
      rw [if_pos rfl] at rest
      have next := after.openCommit rfl (by rw [State.openCommit,hp])
      have core := opened.opened s.history true rest
      have first := numbered.opened opened s.history
      cases step
      obtain ⟨db,running,steps⟩ : Core.Leads o true [] ((Db.new (versions.install c) log).core s.disk) _ :=
        removeObsoleteFiles_leads s (Db.new (versions.install c) log) none (fun _ => false) (by simp)
      exact State.Sequences.running running next fun m there => (first.run core steps there).1
  · cases step

theorem State.Sequences.stepOpen {l : Label K V} (seq : s.Sequences) (files : s.Files o true [])
    (step : s.stepOpen o l = some s') : s'.Sequences := by
  cases l with
  | openDb => exact seq.openDb step
  | newDb => exact newDb_sequences files step
  | recover => exact seq.recover files step
  | replay => exact seq.replay files step
  | openCommit => exact seq.openCommit files step
  | _ => cases step

theorem State.Sequences.step {l : Label K V} (seq : s.Sequences) (files : s.Files o true []) (manual : s.Manual)
    (step : s.step o l = some s') : s'.Sequences := by
  have files' := files.step manual (.inl rfl) (fun _ => rfl) (by simp) step
  obtain ⟨cut,rfl,rfl⟩ | ⟨db,process,step⟩ | ⟨notRunning,step⟩ := step_cases step
  · exact seq.crash files cut
  · have before := seq.2
    rw [process] at before
    rw [State.Files,process] at files
    obtain ⟨file,m,core⟩ := files
    obtain ⟨db',running,steps⟩ : Core.Leads o true [] (db.core s.disk) s' :=
      core_step process (manual db process) (.inl rfl) (by simp) step
    exact State.Sequences.running running files' fun m' there =>
      ((before m core.disk.manifest).run core steps there).1
  · exact seq.stepOpen files step

/-- The numbers of every state that a database reaches, whatever fails. -/
theorem sequences_of_run {ls : List (Label K V)} (run : State.initial.run o ls = some s) :
    s.Files o true [] ∧ s.Manual ∧ s.Sequences :=
  State.Files.of_run (P := State.Sequences) ⟨by rintro _ _ ⟨⟩,trivial⟩ run
    fun _ _ _ files manual step seq => seq.step files manual step

end States

/-- The entry is in a memtable, in a table of the current version or in a log. -/
def Db.Stores (db : Db K V) (d : Disk K V) (e : Entry K V) : Prop :=
  e ∈ db.mem ∨ (∃ imm, db.imm = some imm ∧ e ∈ imm) ∨ e ∈ db.versions.current.entries d.table ∨ e ∈ d.logSet

section Numbers
variable {o : Options K V} {ls : List (Label K V)} {s : State K V} {db : Db K V}

theorem Db.Stores.stored {d : Disk K V} {e : Entry K V} {m : ManifestFile K V} (stores : db.Stores d e) :
    e ∈ (db.core d).storedSet m := by
  rcases stores with mem | imm | table | log
  · exact .inl mem
  · exact .inr (.inl imm)
  · exact .inr (.inr (.inr (.inl (.inl ⟨_,.inl rfl,table⟩))))
  · exact .inr (.inr (.inl log))

/-- While no group is between `BuildBatchGroup` and `SetLastSequence`, `LastSequence` is at
least the number of every stored entry; the next group is numbered above all of them; and
stored entries with the same number are the same. -/
theorem sequences_advance (run : State.initial.run o ls = some s) (running : s.process = .running db) :
    (groupOf db.leader = none → ∀ e, db.Stores s.disk e → e.sequence ≤ db.versions.lastSequence) ∧
    (groupOf db.leader = none → ∀ l s' db' g, s.step o l = some s' → s'.process = .running db' →
      groupOf db'.leader = some g → ∀ e, db.Stores s.disk e → ∀ e' ∈ g.batch.entries, e.sequence < e'.sequence) ∧
    ∀ e e', db.Stores s.disk e → db.Stores s.disk e' → e.sequence = e'.sequence → e = e' := by
  obtain ⟨files,manual,seq⟩ := sequences_of_run run
  have numbers := seq.2
  rw [running] at numbers
  rw [State.Files,running] at files
  obtain ⟨file,m,core⟩ := files
  have now := numbers m core.disk.manifest
  have bounded : groupOf db.leader = none → ∀ e, db.Stores s.disk e → e.sequence ≤ db.versions.lastSequence :=
    fun free e stores => now.bounded free e stores.stored
  refine ⟨bounded,?_,fun e e' stores stores' same => now.once stores.stored stores'.stored same⟩
  intro free l s' db' g step running' group e stores e' he'
  rcases step_cases step with ⟨cut,-,rfl⟩ | ⟨db₀,process,taken⟩ | ⟨notRunning,-⟩
  · cases running'
  · rw [running] at process
    cases process
    obtain ⟨db'',running'',steps⟩ : Core.Leads o true [] (db.core s.disk) s' :=
      core_step running (manual db running) (.inl rfl) (by simp) taken
    rw [running'] at running''
    cases running''
    obtain ⟨file',m',core'⟩ := core.run steps
    obtain ⟨after,le⟩ := now.run core steps core'.disk.manifest
    have first : g.batch.sequence = db'.versions.lastSequence + 1 := (after.group g group).1
    obtain ⟨i,-,number,-⟩ := mem_batch_entries he'
    have old := bounded free e stores
    have forward : db.versions.lastSequence ≤ db'.versions.lastSequence := le
    omega
  · exact absurd running (notRunning db)

/-- A write whose record has this outcome. -/
def faultRun (id : Nat) (updates : List (Nat × Option Nat)) (outcome : Append) : List (Label Nat Nat) :=
  [.enter id (some ⟨0,updates⟩) false,.lead,.makeRoom .ok .ok,.addRecord outcome] ++
    (if outcome = .lost then [.insertInto] else []) ++ [.finishWrite]

/-- A synced write, one that fails though its record is in the log, one that leaves a torn
record, one behind it that no reader finds, and one that a reader finds again; a flush, and a
crash. The replay has a hole, and the next write is numbered above all. -/
def failedRun : List (Label Nat Nat) :=
  openRun ++ tableRun 1 [(1,some 1),(2,some 1)] ++ writeRun 3 [(1,some 2)] true 1 ++ faultRun 4 [(2,some 2)] .lateError ++
    faultRun 5 [(3,some 3)] .ioError ++ faultRun 6 [(4,some 4)] .lost ++ writeRun 7 [(5,some 5)] false 1 ++ flushRun ++
    crashRun (fun _ => 3) 8 ++ writeRun 8 [(6,some 6)] false 1

theorem sequences_advance_failed : ∃ s db, State.initial.run smallOptions failedRun = some s ∧
    s.process = .running db ∧ s.history.map (·.2.sequence) = [1,3,4,7,8] ∧ db.versions.lastSequence = 8 ∧
      ∀ e, db.Stores s.disk e → e.sequence ≤ 8 := by
  obtain ⟨s,db,run,running,found⟩ := exists_run smallOptions failedRun
    (fun s db => (groupOf db.leader).isNone && db.versions.lastSequence == 8 && s.history.map (·.2.sequence) == [1,3,4,7,8])
    (by decide)
  simp only [Bool.and_eq_true,beq_iff_eq,Option.isNone_iff_eq_none] at found
  obtain ⟨⟨free,last⟩,numbers⟩ := found
  refine ⟨s,db,run,running,numbers,last,fun e stores => ?_⟩
  rw [← last]
  exact (sequences_advance run running).1 free e stores

end Numbers

end LevelDB
