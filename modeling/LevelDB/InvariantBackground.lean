import LevelDB.InvariantWrite

/-! The background thread keeps the invariant: a table gets a number that no version has
used, a version is committed only if it answers for the same history, and what is
removed is in no version that a crash can bring back. -/
namespace LevelDB

variable {K V : Type} [LinearOrder K]

section Frames
variable {d d' : Disk K V} {h : History K V} {number : Nat} {m : ManifestFile K V} {db db' : Db K V}

/-- A table that was added at some time was added in the whole manifest. -/
theorem uses_of_take {records : List (ManifestRecord K V)} {k n : Nat}
    (uses : (recoverRecords (records.take k)).builder.Uses n) : (recoverRecords records).builder.Uses n := by
  have := uses_append uses (records.drop k)
  rwa [List.take_append_drop] at this

theorem Disk.Ok.frame (ok : d.Ok h number m) (current : d'.currentFile = d.currentFile)
    (manifest : d'.manifests number = d.manifests number) (logs : d'.logs = d.logs)
    (tables : ∀ k, m.synced ≤ k → k ≤ m.records.length →
      ∀ l, ∀ f ∈ (recoverRecords (m.records.take k)).version.files l,
        d'.tables f.number = d.tables f.number) : d'.Ok h number m := by
  refine ⟨current.trans ok.named,manifest.trans ok.manifest,ok.nonempty,ok.synced,?_,ok.forward,?_,?_,?_,?_,
    ?_,?_,ok.ordered,ok.small⟩
  · exact fun k low high => (ok.good k low high).frame (tables k low high) rfl
  · rw [logs]; exact ok.increasing
  · rw [logs]; exact ok.positive
  · rw [logs]; exact ok.bounded
  · rw [logs]; exact ok.part
  · rw [logs]; exact ok.whole
  · rw [logs]; exact ok.present

/-- Tables of unused numbers may be written. -/
theorem Disk.Ok.unused (ok : d.Ok h number m) (current : d'.currentFile = d.currentFile)
    (manifest : d'.manifests number = d.manifests number) (logs : d'.logs = d.logs)
    (tables : ∀ n, (recoverRecords m.records).builder.Uses n → d'.tables n = d.tables n) :
    d'.Ok h number m := by
  refine ok.frame current manifest logs ?_
  intro k low high l f hf
  exact tables f.number (uses_of_take ((ok.good k low high).wf.uses hf))

theorem Compaction.Safe.congr {c : Compaction K} {v : Version K} {tables tables' : Tables K V}
    (safe : c.Safe v tables) (same : ∀ l, ∀ f ∈ v.files l, tables' f.number = tables f.number) :
    c.Safe v tables' := by
  refine ⟨safe.level,safe.own,safe.parents,?_,safe.around,safe.below⟩
  rintro f hf out a ha b ⟨g,hg,hb⟩ user
  rw [tableSet,mem_entrySet,same _ f hf] at ha
  have inside : b ∈ tables g.number := by
    rcases safe.member g hg with own | parent
    · rwa [same _ g own] at hb
    · rwa [same _ g parent] at hb
  exact safe.beside f hf out a ha b ⟨g,hg,inside⟩ user

theorem Installable.frame {v : Version K} {c : CompactionState K V} (fits : Installable d v c)
    (same : ∀ l, ∀ f ∈ v.files l, d'.tables f.number = d.tables f.number) : Installable d' v c :=
  ⟨fits.safe.congr fun l f hf => Disk.table_congr (same l f hf),fits.apart⟩

/-- The inputs of a compaction are read as before. -/
theorem Installable.inputs {v : Version K} {c : CompactionState K V} (fits : Installable d v c)
    (same : ∀ l, ∀ f ∈ v.files l, d'.tables f.number = d.tables f.number) :
    filesSet d'.table c.compaction.inputs = filesSet d.table c.compaction.inputs := by
  have each : ∀ g ∈ c.compaction.inputs, d'.table g.number = d.table g.number := by
    intro g hg
    rcases fits.safe.member g hg with own | parent
    · exact Disk.table_congr (same _ g own)
    · exact Disk.table_congr (same _ g parent)
  ext e
  constructor
  · rintro ⟨g,hg,he⟩
    exact ⟨g,hg,each g hg ▸ he⟩
  · rintro ⟨g,hg,he⟩
    exact ⟨g,hg,(each g hg).symm ▸ he⟩

/-- The files of the current version were recorded. -/
theorem Db.Linked.uses (linked : db.Linked m) (wf : (recoverRecords m.records).Wf)
    (idle : db.job.commit = none) {l : Nat} {f : FileMetaData K}
    (member : f ∈ db.versions.current.files l) : (recoverRecords m.records).builder.Uses f.number := by
  have version := linked.version
  simp only [Db.recorded,idle] at version
  rw [← version] at member
  exact wf.uses member

/-- The background thread leaves the memtables alone, but for the end of a flush. -/
theorem Db.Memory.carry (memory : db.Memory h) (mem : db'.mem = db.mem) (imm : db'.imm = db.imm)
    (logfileNumber : db'.logfileNumber = db.logfileNumber)
    (last : db'.versions.lastSequence = db.versions.lastSequence)
    (log : db'.versions.logNumber = db.versions.logNumber) (snapshots : db'.snapshots = db.snapshots)
    (leader : db'.leader = db.leader) : db'.Memory h := by
  have pending : db'.pending = db.pending := by simp only [Db.pending,leader,logfileNumber]
  have applied : db'.lastApplied = db.lastApplied := by simp only [Db.lastApplied,leader,last]
  have group : db'.group = db.group := by simp only [Db.group,leader]
  exact ⟨by rw [mem]; exact memory.memSorted,by rw [imm]; exact memory.immSorted,
    by rw [pending,applied,mem,logfileNumber]; exact memory.applied,
    by rw [imm,logfileNumber,log]; exact memory.imm,
    by rw [imm,logfileNumber,log]; exact memory.noImm,
    by rw [logfileNumber,log]; exact memory.logs,by rw [logfileNumber]; exact memory.newest,
    by rw [logfileNumber,last]; exact memory.old,by rw [group,last]; exact memory.group,
    by rw [last]; exact memory.last,by rw [snapshots]; exact memory.snapshots,
    by rw [snapshots,last]; exact memory.visible⟩

theorem InProgress.carry {c : CompactionState K V} (busy : InProgress d db m c)
    (floor : db'.smallestSnapshot = db.smallestSnapshot)
    (next : db.versions.nextFileNumber ≤ db'.versions.nextFileNumber)
    (pending : ∀ n ∈ c.files.map (·.1), n ∈ db.pendingOutputs → n ∈ db'.pendingOutputs) :
    InProgress d db' m c :=
  ⟨busy.loop,by rw [floor]; exact busy.floor,busy.written,
    fun n hn => (busy.numbers n hn).trans_le next,fun n hn => pending n hn (busy.pending n hn),
    busy.unused,busy.connected⟩

/-- Only tables with numbers in `S` are written. -/
structure Disk.Touches (d d' : Disk K V) (S : Nat → Prop) : Prop where
  current : d'.currentFile = d.currentFile
  manifests : d'.manifests = d.manifests
  logs : d'.logs = d.logs
  tables : ∀ n, ¬S n → d'.tables n = d.tables n

theorem Disk.Ok.touch {S : Nat → Prop} (ok : d.Ok h number m) (touches : d.Touches d' S)
    (unused : ∀ n, S n → ¬(recoverRecords m.records).builder.Uses n) : d'.Ok h number m :=
  ok.unused touches.current (by rw [touches.manifests]) touches.logs fun n uses =>
    touches.tables n fun member => unused n member uses

theorem InProgress.touch {S : Nat → Prop} {v : Version K} {c : CompactionState K V}
    (busy : InProgress d db m c) (fits : Installable d v c) (touches : d.Touches d' S)
    (files : ∀ l, ∀ f ∈ v.files l, ¬S f.number) (outputs : ∀ n ∈ c.outputs.map (·.1), ¬S n) :
    InProgress d' db m c := by
  refine ⟨?_,busy.floor,?_,busy.numbers,busy.pending,busy.unused,busy.connected⟩
  · rw [fits.inputs fun l f hf => touches.tables _ (files l f hf)]
    exact busy.loop
  · intro out member
    rw [touches.tables _ (outputs _ (List.mem_map_of_mem member))]
    exact busy.written out member

omit [LinearOrder K] in
theorem setTable_touches (d : Disk K V) (n : Nat) (t : TableFile K V) :
    d.Touches (d.setTable n t) (· = n) :=
  ⟨rfl,rfl,rfl,fun k ne => by simp [Disk.setTable,ne]⟩

omit [LinearOrder K] in
theorem Disk.Touches.refl (d : Disk K V) (S : Nat → Prop) : d.Touches d S :=
  ⟨rfl,rfl,rfl,fun _ _ => rfl⟩

end Frames

section Flush
variable {d : Disk K V} {h : History K V} {number : Nat} {m : ManifestFile K V} {db : Db K V}

/-- The next file number is not in use. -/
theorem Db.Ok.next_unused (disk : d.Ok h number m) (ok : db.Ok d h m) :
    ¬(recoverRecords m.records).builder.Uses db.versions.nextFileNumber := fun uses =>
  absurd (disk.last_good.used _ uses) (not_lt_of_ge ok.linked.next)

theorem Db.Ok.beginFlush (disk : d.Ok h number m) (ok : db.Ok d h m)
    (outer : Option (CompactionState K V)) (imm : db.imm.isSome)
    (before : db.job = .idle ∧ outer = none ∨ ∃ c, db.job = .compact c ∧ outer = some c) :
    { db with
      versions := { db.versions with nextFileNumber := db.versions.nextFileNumber + 1 }
      pendingOutputs := db.versions.nextFileNumber :: db.pendingOutputs
      job := .flush db.versions.nextFileNumber .write outer }.Ok d h m := by
  have noCommit : db.job.commit = none := by
    rcases before with ⟨job,-⟩ | ⟨c,job,-⟩ <;> rw [job] <;> rfl
  have inner : ∀ c, outer = some c → InProgress d db m c ∧ Installable d db.versions.current c := by
    rintro c rfl
    rcases before with ⟨-,none⟩ | ⟨c',job,same⟩
    · cases none
    · cases same
      obtain ⟨busy,fits⟩ := ok.job
      simp only [job] at busy fits
      exact ⟨busy c rfl,fits⟩
  have recorded := ok.linked
  refine ⟨ok.memory.carry rfl rfl rfl rfl rfl rfl rfl,
    ok.sound.mono (Nat.le_succ _) le_rfl,?_,?_,ok.logged,ok.newest,ok.number.trans (Nat.lt_succ_self _)⟩
  · have version := recorded.version
    have log := recorded.log
    have synced := recorded.synced
    simp only [Db.recorded,noCommit] at version log synced
    exact ⟨version,log,fun _ => synced (by simp),recorded.next.trans (Nat.le_succ _),recorded.prev⟩
  · refine ⟨?_,imm,Nat.lt_succ_self _,ok.next_unused disk,fun l f hf => ok.sound.numbers l f hf,?_⟩
    · intro c hc
      exact (inner c hc).1.carry rfl (Nat.le_succ _) fun n _ member => List.mem_cons_of_mem _ member
    · intro c hc
      obtain ⟨busy,fits⟩ := inner c hc
      exact ⟨fits,fun member => absurd (busy.numbers _ member) (lt_irrefl _)⟩

/-- The file of a flush as `BuildTable` writes it. -/
def Disk.withTable (d : Disk K V) (n : Nat) (imm : MemTable K V) (synced : Bool) : Disk K V :=
  if imm.isEmpty then d else d.setTable n ⟨imm,synced⟩

omit [LinearOrder K] in
theorem withTable_eq (d : Disk K V) (n : Nat) (entries : MemTable K V) (synced : Bool) :
    (if entries = [] then d else d.setTable n ⟨entries,synced⟩) = d.withTable n entries synced := by
  cases entries <;> simp [Disk.withTable]

omit [LinearOrder K] in
theorem withTable_written (d : Disk K V) (n : Nat) (entries : MemTable K V) (synced : Bool)
    (nonempty : entries ≠ []) : (d.withTable n entries synced).tables n = some ⟨entries,synced⟩ := by
  cases entries with
  | nil => exact absurd rfl nonempty
  | cons e rest => simp [Disk.withTable,Disk.setTable]

omit [LinearOrder K] in
theorem State.writeTable_disk (s : State K V) (n : Nat) (entries : MemTable K V) :
    (s.writeTable n entries).disk = s.disk.withTable n entries false := by
  cases entries <;> simp [State.writeTable,Disk.withTable]

omit [LinearOrder K] in
theorem withTable_touches (d : Disk K V) (n : Nat) (imm : MemTable K V) (synced : Bool) :
    d.Touches (d.withTable n imm synced) (· = n) := by
  rw [Disk.withTable]
  split
  · exact Disk.Touches.refl d _
  · exact setTable_touches d n _

section Building
variable {n : Nat} {stage : BuildStage} {outer : Option (CompactionState K V)}

/-- Writing the table of a flush disturbs nothing. -/
theorem Db.Ok.writeTable (disk : d.Ok h number m) (ok : db.Ok d h m)
    (job : db.job = .flush n stage outer) (imm : MemTable K V) (synced : Bool) :
    (d.withTable n imm synced).Ok h number m ∧
      { db with job := .flush n .sync outer }.Ok (d.withTable n imm synced) h m := by
  have touches := withTable_touches d n imm synced
  obtain ⟨busy,isImm,bound,unused,above,inside⟩ : (∀ c, outer = some c → InProgress d db m c) ∧
      db.imm.isSome ∧ n < db.versions.nextFileNumber ∧ ¬(recoverRecords m.records).builder.Uses n ∧
      (∀ l, ∀ f ∈ db.versions.current.files l, f.number < n) ∧
      ∀ c, outer = some c → Installable d db.versions.current c ∧ n ∉ c.files.map (·.1) := by
    have := ok.job
    simp only [Db.JobOk,job] at this
    exact this
  have apart : ∀ l, ∀ f ∈ db.versions.current.files l, ¬f.number = n := fun l f hf => (above l f hf).ne
  have same : ∀ l, ∀ f ∈ db.versions.current.files l,
      (d.withTable n imm synced).tables f.number = d.tables f.number :=
    fun l f hf => touches.tables _ (apart l f hf)
  refine ⟨disk.touch touches (by rintro _ rfl; exact unused),ok.memory.carry rfl rfl rfl rfl rfl rfl rfl,
    ok.sound.frame same,?_,?_,?_,?_,ok.number⟩
  · have linked := ok.linked
    obtain ⟨version,log,sync,next,prev⟩ := linked
    simp only [Db.recorded,job,Job.commit] at version log sync
    exact ⟨version,log,sync,next,prev⟩
  · refine ⟨?_,isImm,bound,unused,above,?_⟩
    · intro c hc
      obtain ⟨fits,out⟩ := inside c hc
      refine ((busy c hc).touch fits touches apart ?_).carry rfl le_rfl fun _ _ member => member
      rintro k member rfl
      exact out (by simp only [CompactionState.files,List.map_append]; exact List.mem_append_left _ member)
    · intro c hc
      obtain ⟨fits,out⟩ := inside c hc
      exact ⟨fits.frame same,out⟩
  · rw [touches.logs]; exact ok.logged
  · rw [touches.logs]; exact ok.newest

theorem apply_nothing (v : Version K) (e : VersionEdit K) (new : e.newFiles = [])
    (deleted : e.deletedFiles = []) : v.apply e = v := by
  rw [Version.apply,Builder.apply,new,deleted]
  exact newBuilder_saveTo v

/-- The memtable and what is older make up the history before the log in use. -/
theorem Db.Memory.flushed (memory : db.Memory h) {imm : MemTable K V} (isImm : db.imm = some imm) :
    (h.before db.logfileNumber).set = entrySet imm ∪ (h.before db.versions.logNumber).set := by
  have set := memory.imm
  rw [isImm,Option.getD_some] at set
  rw [History.set_split (h.before db.logfileNumber) db.versions.logNumber,set,
    History.before_before h memory.logs]

theorem Db.Memory.imm_newer (memory : db.Memory h) (ordered : h.Ordered) {imm : MemTable K V}
    (isImm : db.imm = some imm) : Newer (entrySet imm) (h.before db.versions.logNumber).set := by
  have set := memory.imm
  rw [isImm,Option.getD_some] at set
  have part : (h.before db.logfileNumber).Ordered := ordered.sublist List.filter_sublist
  have newer := part.since_newer db.versions.logNumber
  rwa [← set,History.before_before h memory.logs] at newer

theorem Db.Memory.imm_bounded (memory : db.Memory h) {imm : MemTable K V} (isImm : db.imm = some imm) :
    ∀ e ∈ imm, e.sequence ≤ db.versions.lastSequence := by
  intro e he
  refine memory.old e ?_
  rw [memory.flushed isImm]
  exact .inl he

/-- The commit of an edit that keeps the version sound. -/
theorem Db.Ok.committing (ok : db.Ok d h m) (disk : d.Ok h db.versions.manifestFileNumber m)
    (e : VersionEdit K) (log : Nat) (isLog : e.logNumber.getD db.versions.logNumber = log)
    (version : Version K) (applied : db.versions.current.apply e = version)
    (sound : Sound d (h.before log).set version db.versions.nextFileNumber db.smallestSnapshot)
    (fits : e.Fits (recoverRecords m.records)) (logs : log ≤ db.logfileNumber)
    (isPrev : e.prevLogNumber.getD 0 = 0) :
    Committing d h db m (db.versions.logAndApply e) log := by
  have memory := ok.memory
  have floor := smallestSnapshot_le db memory.visible
  have manifest : db.versions.manifestFileNumber < db.versions.nextFileNumber :=
    disk.last_good.manifest.trans_le ok.linked.next
  refine ⟨⟨db.versions.nextFileNumber,db.versions.lastSequence,db.smallestSnapshot,⟨?_,?_,rfl,rfl⟩,
    ok.linked.next,le_rfl,le_rfl,floor,le_rfl,?_,?_,logs.trans_lt ok.number,manifest⟩,fun _ => rfl,
    fun _ => ⟨fits.fresh,fits.distinct⟩⟩
  · simp only [VersionSet.logAndApply,isLog]
  · cases given : e.prevLogNumber with
    | none => simpa [VersionSet.logAndApply,given] using ok.linked.prev
    | some n => simpa [VersionSet.logAndApply,given] using isPrev
  · rw [← applied] at sound
    exact sound
  · intro x hx
    refine memory.old x (History.set_mono ?_ hx)
    rw [← History.before_before h logs]
    exact History.before_subset _ _

/-- The end of `WriteLevel0Table`: the table gets its level and the edit is built. -/
theorem Db.Ok.commitFlush (o : Options K V) (disk : d.Ok h db.versions.manifestFileNumber m)
    (ok : db.Ok d h m) (job : db.job = .flush n stage outer) {imm : MemTable K V}
    (isImm : db.imm = some imm) (written : imm ≠ [] → d.tables n = some ⟨imm,true⟩)
    (clear : ∀ c, outer = some c → c.isManual = true → ∀ f, outputFile o n imm = some f →
      c.compaction.Clear (db.versions.current.pickLevelForMemTableOutput o f.smallest.userKey
        f.largest.userKey) f.smallest.userKey f.largest.userKey) :
    { db with
      pendingOutputs := db.pendingOutputs.erase n
      job := .commitFlush (db.versions.logAndApply (flushEdit o db n imm)) outer }.Ok d h m := by
  obtain ⟨busy,someImm,bound,unused,above,inside⟩ : (∀ c, outer = some c → InProgress d db m c) ∧
      db.imm.isSome ∧ n < db.versions.nextFileNumber ∧ ¬(recoverRecords m.records).builder.Uses n ∧
      (∀ l, ∀ f ∈ db.versions.current.files l, f.number < n) ∧
      ∀ c, outer = some c → Installable d db.versions.current c ∧ n ∉ c.files.map (·.1) := by
    have := ok.job
    simp only [Db.JobOk,job] at this
    exact this
  have memory := ok.memory
  have wf := ok.sound.wf
  have flushed := memory.flushed isImm
  -- the version that the edit makes, whether or not there is a table
  have made : ∃ version, db.versions.current.apply (flushEdit o db n imm) = version ∧
      Sound d (h.before db.logfileNumber).set version db.versions.nextFileNumber db.smallestSnapshot ∧
      (flushEdit o db n imm).Fits (recoverRecords m.records) ∧
      ∀ c, outer = some c → Installable d version c := by
    cases out : outputFile o n imm with
    | none =>
      have empty : imm = [] := by
        by_contra nonempty
        obtain ⟨f,some⟩ := outputFile_isSome o n nonempty
        rw [out] at some
        cases some
      have edit : (flushEdit o db n imm).newFiles = [] ∧ (flushEdit o db n imm).deletedFiles = [] := by
        simp [flushEdit,out,VersionEdit.empty]
      refine ⟨db.versions.current,apply_nothing _ _ edit.1 edit.2,?_,?_,fun c hc => (inside c hc).1⟩
      · rw [flushed,empty]
        have none : entrySet ([] : List (Entry K V)) = ∅ := by
          ext e
          simp
        rw [none,Set.empty_union]
        exact ok.sound
      · constructor <;> simp [VersionEdit.newAt,edit.1]
    | some f =>
      obtain ⟨isNumber,⟨a,first,low⟩,b,final,high⟩ := outputFile_spec out
      have nonempty : imm ≠ [] := by
        rintro rfl
        simp at first
      have table : d.table n = imm := Disk.table_of (written nonempty)
      have holds : f.Holds d.table := by
        refine outputFile_holds out table ?_ ?_
        · have := memory.immSorted
          rwa [isImm] at this
        · intro e he
          exact (memory.imm_bounded isImm e he).trans memory.last.le
      set level := db.versions.current.pickLevelForMemTableOutput o f.smallest.userKey
        f.largest.userKey with hlevel
      have edit : (flushEdit o db n imm).newFiles = [(level,f)] ∧
          (flushEdit o db n imm).deletedFiles = [] := by
        simp [flushEdit,out,VersionEdit.empty,VersionEdit.addFile,hlevel]
      obtain ⟨shallow,misses⟩ := wf.pickLevel_spec o f.smallest.userKey f.largest.userKey
      have tableSet : tableSet d.table f = entrySet imm := by rw [tableSet,isNumber,table]
      have newer : Newer (LevelDB.tableSet d.table f) (h.before db.versions.logNumber).set := by
        rw [tableSet]
        exact memory.imm_newer disk.ordered isImm
      have adds : db.versions.current.Adds (db.versions.current.apply (flushEdit o db n imm)) level f := by
        refine Version.adds_of_edit wf.ordered edit.1 edit.2 fun l g hg => ?_
        rw [isNumber]
        exact (above l g hg).ne
      have flushable : db.versions.current.Flushable d.table level f :=
        ⟨lt_of_le_of_lt shallow (by decide),holds,by rw [isNumber]; exact above,
          newer.mono Set.Subset.rfl ok.sound.covers.subset,misses⟩
      refine ⟨_,rfl,?_,?_,?_⟩
      · rw [flushed,← tableSet]
        exact ok.sound.add adds flushable newer ⟨imm,by rw [isNumber]; exact written nonempty⟩
          (by rw [isNumber]; exact bound)
      · constructor
        · intro l g hg
          left
          rw [mem_newAt,edit.1,List.mem_singleton] at hg
          cases hg
          rw [isNumber]
          exact unused
        · intro l
          rw [VersionEdit.newAt,edit.1]
          by_cases same : level = l <;> simp [same]
      · intro c hc
        obtain ⟨fits,out'⟩ := inside c hc
        have isClear : c.compaction.Clear level f.smallest.userKey f.largest.userKey := by
          cases manual : c.isManual with
          | true => exact clear c hc manual f out
          | false => exact ((busy c hc).connected manual).clear wf fits.safe holds.userRange misses
        refine ⟨fits.safe.add adds flushable isClear,?_⟩
        intro k hk l g hg
        rcases (adds.members l g).mp hg with ⟨-,rfl⟩ | old
        · rw [isNumber]
          rintro rfl
          exact out' hk
        · exact fits.apart k hk l g old
  obtain ⟨version,applied,sound,fits,installable⟩ := made
  have commit := ok.committing disk (flushEdit o db n imm) db.logfileNumber
    (by cases out : outputFile o n imm <;> simp [flushEdit,out,VersionEdit.addFile]) version applied sound fits le_rfl
    (by cases out : outputFile o n imm <;> simp [flushEdit,out,VersionEdit.addFile])
  have isVersion : (db.versions.logAndApply (flushEdit o db n imm)).version = version := applied
  refine ⟨memory.carry rfl rfl rfl rfl rfl rfl rfl,ok.sound,?_,?_,ok.logged,ok.newest,ok.number⟩
  · obtain ⟨version',log,sync,next,prev⟩ := ok.linked
    simp only [Db.recorded,job,Job.commit] at version' log sync
    exact ⟨version',log,fun _ => sync (by simp),next,prev⟩
  · refine ⟨?_,someImm,⟨commit.completes,commit.version,commit.fits⟩,?_⟩
    · intro c hc
      refine (busy c hc).carry rfl le_rfl fun k hk member => ?_
      refine (List.mem_erase_of_ne ?_).mpr member
      rintro rfl
      exact (inside c hc).2 hk
    · rw [isVersion]
      exact installable

end Building

end Flush

section Compact
variable {d : Disk K V} {h : History K V} {number : Nat} {m : ManifestFile K V} {db : Db K V}

/-- The compact pointers are only hints. -/
theorem Db.Ok.pointers (ok : db.Ok d h m) (pointer : Nat → Option (InternalKey K))
    (job : db.job = .idle) :
    { db with versions := { db.versions with compactPointer := pointer } }.Ok d h m := by
  refine ⟨ok.memory.carry rfl rfl rfl rfl rfl rfl rfl,ok.sound,?_,?_,ok.logged,ok.newest,ok.number⟩
  · obtain ⟨version,log,sync,next,prev⟩ := ok.linked
    simp only [Db.recorded,job,Job.commit] at version log sync
    exact ⟨by simpa [Db.recorded,job,Job.commit] using version,
      by simpa [Db.recorded,job,Job.commit] using log,fun _ => sync (by simp),next,prev⟩
  · refine ⟨?_,?_⟩ <;> simp [job,Job.outer]

theorem Db.Ok.linked_idle (ok : db.Ok d h m) (none : db.job.commit = none) :
    (recoverRecords m.records).version = db.versions.current ∧
      (recoverRecords m.records).log = db.versions.logNumber ∧ m.synced = m.records.length := by
  obtain ⟨version,log,sync,-,-⟩ := ok.linked
  simp only [Db.recorded,none] at version log sync
  exact ⟨version,log,sync (by simp)⟩

/-- A compaction is set up and its loop begins. -/
theorem Db.Ok.compact (disk : d.Ok h number m) (ok : db.Ok d h m) (job : db.job = .idle)
    {c : Compaction K} (closed : c.Closed db.versions.current) (isManual : Bool)
    (connected : isManual = false → HullCovered c.inputs c.inputs) :
    { db with job := .compact (.start c isManual db.smallestSnapshot d.table) }.Ok d h m := by
  have wf := ok.sound.wf
  have distinct : Distinct (db.versions.current.entries d.table) :=
    ok.sound.distinct (disk.ordered.distinct.mono (History.set_mono (History.before_subset _ _)))
  have floor : db.smallestSnapshot < kMaxSequenceNumber :=
    (smallestSnapshot_le db ok.memory.visible).trans_lt ok.memory.last
  obtain ⟨version,log,sync⟩ := ok.linked_idle (by rw [job]; rfl)
  refine ⟨ok.memory.carry rfl rfl rfl rfl rfl rfl rfl,ok.sound,⟨version,log,fun _ => sync,ok.linked.next,ok.linked.prev⟩,
    ?_,ok.logged,ok.newest,ok.number⟩
  have files : (CompactionState.start c isManual db.smallestSnapshot d.table).files = [] := rfl
  refine ⟨?_,?_⟩
  · rintro _ ⟨⟩
    refine ⟨⟨[],closed.start wf distinct isManual _ floor,?_⟩,le_rfl,?_,?_,?_,?_,connected⟩
    · exact (closed.inputEntries wf).2
    · simp [CompactionState.start]
    · simp [files]
    · simp [files]
    · simp [files]
  · exact ⟨closed.safe wf distinct,by simp [files]⟩

/-- A trivial move. -/
theorem Db.Ok.move (o : Options K V) (disk : d.Ok h db.versions.manifestFileNumber m) (ok : db.Ok d h m)
    (job : db.job = .idle) {c : Compaction K} (closed : c.Closed db.versions.current)
    (trivial : c.isTrivialMove o = true) :
    { db with job := .move (db.versions.logAndApply c.moveEdit) }.Ok d h m := by
  have wf := ok.sound.wf
  have distinctBefore : Distinct (h.before db.versions.logNumber).set :=
    disk.ordered.distinct.mono (History.set_mono (History.before_subset _ _))
  have safe := closed.safe wf (ok.sound.distinct distinctBefore)
  obtain ⟨single,alone⟩ : c.inputs0.length = 1 ∧ c.inputs1 = [] := by
    simp only [Compaction.isTrivialMove,Bool.and_eq_true,decide_eq_true_eq] at trivial
    exact ⟨trivial.1.1,List.length_eq_zero_iff.mp trivial.1.2⟩
  obtain ⟨fits,fresh,distinct⟩ := safe.move wf single
  have replaces : c.Replaces db.versions.current (db.versions.current.apply c.moveEdit) c.inputs0 :=
    Compaction.replaces_of_edit wf safe (by simp [Compaction.moveEdit,alone])
      (by simp [Compaction.moveEdit]) fresh distinct
  have inputs : c.inputs = c.inputs0 := by simp [Compaction.inputs,alone]
  obtain ⟨version,log,sync⟩ := ok.linked_idle (by rw [job]; rfl)
  have sound : Sound d (h.before db.versions.logNumber).set (db.versions.current.apply c.moveEdit)
      db.versions.nextFileNumber db.smallestSnapshot := by
    refine ok.sound.replace distinctBefore safe fits replaces ?_ ?_ ?_
    · intro e he out
      rw [inputs] at he
      exact absurd he out
    · exact fun f hf => ok.sound.present _ f (safe.own f hf)
    · exact fun f hf => ok.sound.numbers _ f (safe.own f hf)
  have editFits : c.moveEdit.Fits (recoverRecords m.records) := by
    have newAt : ∀ l f, f ∈ c.moveEdit.newAt l ↔ l = c.level + 1 ∧ f ∈ c.inputs0 := by
      intro l f
      rw [mem_newAt]
      simp [Compaction.moveEdit,eq_comm,and_comm]
    constructor
    · intro l f hf
      obtain ⟨rfl,member⟩ := (newAt l f).mp hf
      refine .inr ⟨c.level,Nat.lt_succ_self _,?_⟩
      rw [version]
      exact safe.own f member
    · intro l
      obtain ⟨f,only⟩ := List.length_eq_one_iff.mp single
      rw [VersionEdit.newAt,Compaction.moveEdit,only]
      by_cases same : c.level + 1 = l <;> simp [same]
  have commit := ok.committing disk c.moveEdit db.versions.logNumber rfl _ rfl sound editFits
    ok.memory.logs rfl
  exact ⟨ok.memory.carry rfl rfl rfl rfl rfl rfl rfl,ok.sound,⟨version,log,fun _ => sync,ok.linked.next,ok.linked.prev⟩,
    ⟨by simp [Job.outer],commit.completes,commit.version,commit.fits⟩,ok.logged,ok.newest,ok.number⟩

omit [LinearOrder K] in
theorem setTables_touches (d : Disk K V) (outputs : List (Nat × List (Entry K V))) :
    d.Touches (d.setTables outputs) (· ∈ outputs.map (·.1)) := by
  induction outputs generalizing d with
  | nil => exact Disk.Touches.refl d _
  | cons out rest ih =>
    have step := ih (d.setTable out.1 ⟨out.2,true⟩)
    refine ⟨step.current,step.manifests,step.logs,?_⟩
    intro n out'
    simp only [List.map_cons,List.mem_cons,not_or] at out'
    rw [show d.setTables (out :: rest) = (d.setTable out.1 ⟨out.2,true⟩).setTables rest from rfl,
      step.tables n out'.2]
    simp [Disk.setTable,out'.1]

omit [LinearOrder K] in
theorem setTables_written (d : Disk K V) (outputs : List (Nat × List (Entry K V)))
    (distinct : (outputs.map (·.1)).Pairwise (· < ·)) :
    ∀ out ∈ outputs, (d.setTables outputs).tables out.1 = some ⟨out.2,true⟩ := by
  induction outputs generalizing d with
  | nil => simp
  | cons first rest ih =>
    obtain ⟨lower,tail⟩ := List.pairwise_cons.mp distinct
    intro out member
    rw [show d.setTables (first :: rest) = (d.setTable first.1 ⟨first.2,true⟩).setTables rest from rfl]
    rcases List.mem_cons.mp member with rfl | later
    · rw [(setTables_touches _ rest).tables out.1 fun inside => absurd (lower _ inside) (lt_irrefl _)]
      simp [Disk.setTable]
    · exact ih _ tail out later

omit [LinearOrder K] in
theorem CompactionState.outputs_subset (c : CompactionState K V) :
    ∀ n ∈ c.outputs.map (·.1), n ∈ c.files.map (·.1) := by
  intro n member
  simp only [CompactionState.files,List.map_append]
  exact List.mem_append_left _ member

/-- The tables that a pass of a compaction writes: its outputs, under numbers of its own. -/
theorem advance_tables (o : Options K V) (d : Disk K V) {c : CompactionState K V} {e : Entry K V}
    {rest : List (Entry K V)} (head : c.remaining = e :: rest) (n : Nat)
    (ascending : (c.files.map (·.1)).Pairwise (· < ·)) (below : ∀ k ∈ c.files.map (·.1), k < n)
    (written : ∀ out ∈ c.outputs, d.tables out.1 = some ⟨out.2,true⟩) :
    let next := c.advance o n
    let d' := (if next.2 then d.setTable n ⟨[],false⟩ else d).setTables (next.1.outputs.drop c.outputs.length)
    (next.1.files.map (·.1)).Pairwise (· < ·) ∧
      (∀ k ∈ next.1.files.map (·.1), k ∈ c.files.map (·.1) ∨ next.2 = true ∧ k = n) ∧
      d.Touches d' (fun k => k ∈ c.files.map (·.1) ∨ k = n) ∧
      ∀ out ∈ next.1.outputs, d'.tables out.1 = some ⟨out.2,true⟩ := by
  intro next d'
  obtain ⟨same,-,numbers⟩ := advance_same o n head
  obtain ⟨more,outputs⟩ := same.outputs
  have dropped : next.1.outputs.drop c.outputs.length = more := by
    rw [← outputs]
    simp
  have mine : ∀ k ∈ next.1.files.map (·.1), k ∈ c.files.map (·.1) ∨ next.2 = true ∧ k = n := by
    intro k hk
    rw [numbers] at hk
    split at hk
    · rename_i opened
      rcases List.mem_append.mp hk with old | new
      · exact .inl old
      · exact .inr ⟨opened,List.mem_singleton.mp new⟩
    · exact .inl hk
  have all : (next.1.files.map (·.1)).Pairwise (· < ·) := by
    rw [numbers]
    split
    · refine List.pairwise_append.mpr ⟨ascending,List.pairwise_singleton _ _,fun a ha b hb => ?_⟩
      rw [List.mem_singleton.mp hb]
      exact below a ha
    · exact ascending
  have outputsAscending : (next.1.outputs.map (·.1)).Pairwise (· < ·) := by
    refine all.sublist ?_
    simp only [CompactionState.files,List.map_append]
    exact List.sublist_append_left _ _
  rw [← outputs,List.map_append] at outputsAscending
  obtain ⟨-,moreAscending,across⟩ := List.pairwise_append.mp outputsAscending
  have moreMine : ∀ k ∈ more.map (·.1), k ∈ c.files.map (·.1) ∨ k = n := by
    intro k hk
    refine (mine k (next.1.outputs_subset k ?_)).imp id (·.2)
    rw [← outputs,List.map_append]
    exact List.mem_append_right _ hk
  have touches : d.Touches d' fun k => k ∈ more.map (·.1) ∨ k = n := by
    have second := setTables_touches (if next.2 then d.setTable n ⟨[],false⟩ else d)
      (next.1.outputs.drop c.outputs.length)
    rw [dropped] at second
    have first : d.Touches (if next.2 then d.setTable n ⟨[],false⟩ else d) (· = n) := by
      split
      · exact setTable_touches d n _
      · exact Disk.Touches.refl d _
    simp only [d',dropped]
    refine ⟨second.current.trans first.current,second.manifests.trans first.manifests,
      second.logs.trans first.logs,fun k out => ?_⟩
    simp only [not_or] at out
    exact (second.tables k out.1).trans (first.tables k out.2)
  refine ⟨all,mine,⟨touches.current,touches.manifests,touches.logs,fun k out => touches.tables k fun hit => ?_⟩,?_⟩
  · exact out (hit.elim (moreMine k) .inr)
  · intro out member
    rw [← outputs] at member
    rcases List.mem_append.mp member with old | new
    · rw [touches.tables,written out old]
      rintro (hit | equal)
      · exact absurd (across _ (List.mem_map_of_mem old) _ hit) (lt_irrefl _)
      · exact absurd (below _ (c.outputs_subset _ (List.mem_map_of_mem old))) (not_lt_of_ge equal.ge)
    · simp only [d',dropped]
      exact setTables_written _ more moreAscending out new

/-- The loop goes one entry on: what it writes has numbers of its own. -/
theorem Db.Ok.advance (o : Options K V) (disk : d.Ok h number m) (ok : db.Ok d h m)
    {c : CompactionState K V} (job : db.job = .compact c) {e : Entry K V} {rest : List (Entry K V)}
    (head : c.remaining = e :: rest) :
    let n := db.versions.nextFileNumber
    let next := c.advance o n
    let d' := (if next.2 then d.setTable n ⟨[],false⟩ else d).setTables
      (next.1.outputs.drop c.outputs.length)
    let db' := if next.2 then { db with
        versions := { db.versions with nextFileNumber := n + 1 }
        pendingOutputs := n :: db.pendingOutputs } else db
    d'.Ok h number m ∧ { db' with job := .compact next.1 }.Ok d' h m := by
  intro n next d' db'
  obtain ⟨busy,fits⟩ : InProgress d db m c ∧ Installable d db.versions.current c := by
    have := ok.job
    simp only [Db.JobOk,job] at this
    exact ⟨this.1 c rfl,this.2⟩
  obtain ⟨done,loop,inputs⟩ := busy.loop
  obtain ⟨same,remaining,numbers⟩ := advance_same o n head
  have nextLoop := loop.advance head o n busy.numbers
  obtain ⟨-,mine',touches,written⟩ := advance_tables o d head n loop.numbers busy.numbers busy.written
  have mine : ∀ k ∈ next.1.files.map (·.1), k ∈ c.files.map (·.1) ∨ k = n :=
    fun k hk => (mine' k hk).imp id (·.2)
  have unused : ∀ k, k ∈ c.files.map (·.1) ∨ k = n → ¬(recoverRecords m.records).builder.Uses k := by
    rintro k (old | rfl)
    · exact busy.unused k old
    · exact ok.next_unused disk
  have apart : ∀ k, k ∈ c.files.map (·.1) ∨ k = n →
      ∀ l, ∀ f ∈ db.versions.current.files l, f.number ≠ k := by
    rintro k (old | rfl) l f hf
    · exact fits.apart k old l f hf
    · exact (ok.sound.numbers l f hf).ne
  have sameTables : ∀ l, ∀ f ∈ db.versions.current.files l, d'.tables f.number = d.tables f.number :=
    fun l f hf => touches.tables _ fun hit => apart _ hit l f hf rfl
  have fitsNow := fits.frame sameTables
  obtain ⟨version,log,sync⟩ := ok.linked_idle (by rw [job]; rfl)
  have fields : db'.versions.current = db.versions.current ∧
      db'.versions.logNumber = db.versions.logNumber ∧
      db'.versions.prevLogNumber = db.versions.prevLogNumber ∧
      db.versions.nextFileNumber ≤ db'.versions.nextFileNumber ∧
      db'.smallestSnapshot = db.smallestSnapshot ∧
      db'.Memory h ∧ db'.logfileNumber = db.logfileNumber ∧
      (∀ k ∈ next.1.files.map (·.1), k < db'.versions.nextFileNumber ∧ k ∈ db'.pendingOutputs) := by
    simp only [db']
    cases opened : next.2 with
    | true =>
      refine ⟨rfl,rfl,rfl,Nat.le_succ _,rfl,ok.memory.carry rfl rfl rfl rfl rfl rfl rfl,rfl,?_⟩
      intro k hk
      rcases mine k hk with old | rfl
      · exact ⟨(busy.numbers k old).trans (Nat.lt_succ_self _),List.mem_cons_of_mem _ (busy.pending k old)⟩
      · exact ⟨Nat.lt_succ_self _,List.mem_cons_self⟩
    | false =>
      refine ⟨rfl,rfl,rfl,le_rfl,rfl,ok.memory,rfl,?_⟩
      intro k hk
      rw [numbers,show (c.advance o n).2 = false from opened] at hk
      exact ⟨busy.numbers k hk,busy.pending k hk⟩
  obtain ⟨current,logNumber,prev,grows,floor,memory,logfile,claimed⟩ := fields
  refine ⟨disk.touch touches unused,?_⟩
  refine ⟨memory.carry rfl rfl rfl rfl rfl rfl rfl,?_,?_,?_,?_,?_,?_⟩
  · show Sound d' (h.before db'.versions.logNumber).set db'.versions.current _ db'.smallestSnapshot
    rw [current,logNumber,floor]
    exact (ok.sound.frame sameTables).mono grows le_rfl
  · refine ⟨?_,?_,fun _ => sync,ok.linked.next.trans grows,prev.trans ok.linked.prev⟩
    · exact version.trans current.symm
    · exact log.trans logNumber.symm
  · refine ⟨?_,?_⟩
    · rintro _ ⟨⟩
      refine ⟨⟨done ++ [e],nextLoop,?_⟩,?_,written,fun k hk => (claimed k hk).1,fun k hk => (claimed k hk).2,
        fun k hk => unused k (mine k hk),?_⟩
      · intro x
        rw [show next.1.remaining = rest from remaining,List.append_assoc,List.singleton_append,← head,
          same.compaction,fits.inputs sameTables]
        exact inputs x
      · show next.1.smallestSnapshot ≤ db'.smallestSnapshot
        rw [floor,same.smallestSnapshot]
        exact busy.floor
      · intro manual
        rw [same.isManual] at manual
        rw [same.compaction]
        exact busy.connected manual
    · show Installable d' db'.versions.current next.1
      rw [current]
      exact ⟨by rw [same.compaction]; exact fitsNow.safe,fun k hk => apart k (mine k hk)⟩
  · rw [touches.logs]
    obtain ⟨l,hl,isLog⟩ := ok.logged
    exact ⟨l,hl,isLog.trans logfile.symm⟩
  · rw [touches.logs]
    intro l hl
    exact (ok.newest l hl).trans logfile.ge
  · exact (logfile.trans_lt ok.number).trans_le grows

theorem Compaction.Dropped.raise {c : Compaction K} {inputs kept : Set (Entry K V)} {floor floor' : Nat}
    {x : Entry K V} (dropped : c.Dropped inputs kept floor x) (le : floor ≤ floor') :
    c.Dropped inputs kept floor' x := by
  rcases dropped with ⟨a,ha,user,later,seen⟩ | ⟨a,ha,user,later,seen,deleted,base,alone⟩
  · exact .inl ⟨a,ha,user,later,seen.trans le⟩
  · exact .inr ⟨a,ha,user,later,seen.trans le,deleted,base,alone⟩

/-- The end of `DoCompactionWork`: the results are ready to be installed. -/
theorem Db.Ok.finishCompaction (o : Options K V) (disk : d.Ok h db.versions.manifestFileNumber m)
    (ok : db.Ok d h m) {c : CompactionState K V} (job : db.job = .compact c) (finished : c.remaining = []) :
    (d.setTables c.building.toList).Ok h db.versions.manifestFileNumber m ∧
    { db with
      job := .commitCompaction c.finishOutput (db.versions.logAndApply (c.finishOutput.edit o)) }.Ok
        (d.setTables c.building.toList) h m := by
  obtain ⟨busy,fits⟩ : InProgress d db m c ∧ Installable d db.versions.current c := by
    have := ok.job
    simp only [Db.JobOk,job] at this
    exact ⟨this.1 c rfl,this.2⟩
  obtain ⟨done,loop,inputs⟩ := busy.loop
  have doneLoop := loop.finishOutput
  set final := c.finishOutput with hfinal
  have outputs : final.outputs = c.files := rfl
  have closed : final.building = none := rfl
  have compaction : final.compaction = c.compaction := rfl
  rw [finished,List.append_nil] at inputs
  set d' := d.setTables c.building.toList with hd'
  have touches : d.Touches d' (· ∈ c.building.toList.map (·.1)) := setTables_touches d _
  have mine : ∀ k ∈ c.building.toList.map (·.1), k ∈ c.files.map (·.1) := by
    intro k hk
    simp only [CompactionState.files,List.map_append]
    exact List.mem_append_right _ hk
  have sameTables : ∀ l, ∀ f ∈ db.versions.current.files l, d'.tables f.number = d.tables f.number :=
    fun l f hf => touches.tables _ fun hit => fits.apart _ (mine _ hit) l f hf rfl
  have fitsNow := fits.frame sameTables
  have ascending := loop.numbers
  rw [CompactionState.files,List.map_append] at ascending
  obtain ⟨-,lastAscending,across⟩ := List.pairwise_append.mp ascending
  have written : ∀ out ∈ final.outputs, d'.tables out.1 = some ⟨out.2,true⟩ := by
    intro out member
    rcases List.mem_append.mp member with old | new
    · rw [touches.tables,busy.written out old]
      exact fun hit => absurd (across _ (List.mem_map_of_mem old) _ hit) (lt_irrefl _)
    · exact setTables_written d _ lastAscending out new
  have soundNow := ok.sound.frame sameTables
  have wf := soundNow.wf
  have distinctBefore : Distinct (h.before db.versions.logNumber).set :=
    disk.ordered.distinct.mono (History.set_mono (History.before_subset _ _))
  have sameInputs := fits.inputs sameTables
  have tables : ∀ out ∈ final.outputs, d'.table out.1 = out.2 := fun out member =>
    Disk.table_of (written out member)
  have outFits : c.compaction.Fits db.versions.current d'.table (final.outputFiles o) := by
    refine doneLoop.outputs_fit closed o tables ?_ ?_ ?_
    · intro e he
      rw [compaction,sameInputs]
      exact (inputs e).mp he
    · intro e he
      obtain ⟨g,hg,inside⟩ := (inputs e).mp he
      exact (fits.safe.holds ok.sound.wf g hg).bounded e inside
    · intro out member l f hf
      exact fits.apart _ (List.mem_map_of_mem member) l f hf
  have keptSet : filesSet d'.table (final.outputFiles o) = entrySet c.kept := by
    rw [outputFiles_set closed o tables,hfinal,finishOutput_kept]
  have inputSet : filesSet d'.table c.compaction.inputs = entrySet done := by
    rw [sameInputs]
    ext e
    exact (inputs e).symm
  have fromOutput : ∀ f ∈ final.outputFiles o, ∃ out ∈ c.files, out.1 = f.number := by
    intro f hf
    obtain ⟨out,member,made⟩ := mem_outputFiles hf
    exact ⟨out,member,(outputFile_spec made).1.symm⟩
  have distinct : (final.outputFiles o).Pairwise fun f g => f.number ≠ g.number := by
    refine List.pairwise_filterMap.mpr ((List.pairwise_map.mp loop.numbers).imp ?_)
    intro a b lt f made g made' same
    rw [(outputFile_spec made).1,(outputFile_spec made').1] at same
    omega
  have replaces : c.compaction.Replaces db.versions.current
      (db.versions.current.apply (final.edit o)) (final.outputFiles o) := by
    refine Compaction.replaces_of_edit wf fitsNow.safe rfl rfl ?_ distinct
    intro f hf g hg
    obtain ⟨out,member,same⟩ := fromOutput f hf
    rw [← same]
    exact fits.apart _ (List.mem_map_of_mem member) _ g hg
  have sound : Sound d' (h.before db.versions.logNumber).set
      (db.versions.current.apply (final.edit o)) db.versions.nextFileNumber db.smallestSnapshot := by
    refine soundNow.replace distinctBefore fitsNow.safe outFits replaces ?_ ?_ ?_
    · rw [keptSet,inputSet]
      intro e he out
      exact (loop.dropped e he out).raise busy.floor
    · intro f hf
      obtain ⟨out,member,same⟩ := fromOutput f hf
      rw [← same]
      exact ⟨out.2,written out member⟩
    · intro f hf
      obtain ⟨out,member,same⟩ := fromOutput f hf
      rw [← same]
      exact busy.numbers _ (List.mem_map_of_mem member)
  obtain ⟨version,log,sync⟩ := ok.linked_idle (by rw [job]; rfl)
  have editFits : (final.edit o).Fits (recoverRecords m.records) := by
    constructor
    · intro l f hf
      rw [mem_newAt] at hf
      obtain ⟨g,hg,same⟩ := List.mem_map.mp hf
      cases same
      obtain ⟨out,member,number⟩ := fromOutput f hg
      rw [← number]
      exact .inl (busy.unused _ (List.mem_map_of_mem member))
    · intro l
      rw [VersionEdit.newAt,show (final.edit o).newFiles =
        (final.outputFiles o).map (final.compaction.level + 1,·) from rfl,List.filterMap_map]
      by_cases same : final.compaction.level + 1 = l
      · simpa [Function.comp_def,same] using distinct
      · simp [same]
  have diskNow : d'.Ok h db.versions.manifestFileNumber m :=
    disk.touch touches fun k hit => busy.unused k (mine k hit)
  have okNow : { db with job := .idle }.Ok d' h m :=
    ⟨ok.memory.carry rfl rfl rfl rfl rfl rfl rfl,soundNow,⟨version,log,fun _ => sync,ok.linked.next,ok.linked.prev⟩,
      ⟨by simp [Job.outer],trivial⟩,by rw [touches.logs]; exact ok.logged,
      by rw [touches.logs]; exact ok.newest,ok.number⟩
  have commit := okNow.committing diskNow (final.edit o) db.versions.logNumber rfl _ rfl sound editFits
    ok.memory.logs rfl
  exact ⟨diskNow,okNow.memory.carry rfl rfl rfl rfl rfl rfl rfl,soundNow,
    ⟨version,log,fun _ => sync,ok.linked.next,ok.linked.prev⟩,
    ⟨by simp [Job.outer],commit.completes,commit.version,commit.fits⟩,okNow.logged,okNow.newest,ok.number⟩

end Compact

end LevelDB
