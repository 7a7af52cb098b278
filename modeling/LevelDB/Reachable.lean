import LevelDB.InvariantRecovery
import LevelDB.Steps

/-! The invariant over whole runs: every step of the machine keeps it, crashes and
recovery included, as long as no I/O fails and flushes stay clear of manual
compactions. -/
namespace LevelDB

variable {K V : Type} [LinearOrder K]

/-- If the step ends a flush inside a manual compaction, the table does not get between
the inputs of that compaction at its output level. -/
def State.Clear (o : Options K V) (s : State K V) (l : Label K V) : Prop :=
  match s.process, l with
  | .running db, .buildTable _ =>
    match db.job, db.imm with
    | .flush number .sync (some c), some imm => c.isManual = true →
      ∀ f ∈ outputFile o number imm,
        c.compaction.Clear (db.versions.current.pickLevelForMemTableOutput o f.smallest.userKey
          f.largest.userKey) f.smallest.userKey f.largest.userKey
    | _, _ => True
  | _, _ => True

/-- Nothing was ever written. -/
structure State.Fresh (s : State K V) : Prop where
  current : s.disk.currentFile = none
  logs : s.disk.logs = []
  history : s.history = []

/-- What the new manifest holds at the stages of `LogAndApply` in `DB::Open`. -/
def openManifest (h : History K V) (versions : VersionSet K) (c : Commit K) : OpenStage → ManifestFile K V
  | .append => ⟨[⟨versions.snapshot,[]⟩],0⟩
  | .sync => ⟨openRecords h versions c,0⟩
  | _ => ⟨openRecords h versions c,2⟩

/-- The invariant of the machine. -/
def State.Inv (s : State K V) : Prop :=
  match s.process with
  | .down => s.Fresh ∨ ∃ number m, s.disk.Ok s.history number m
  | .opening (.newDb stage) => s.Fresh ∧
      s.disk.manifests 1 = some ⟨[⟨newDbEdit,[]⟩],if stage = .sync then 0 else 1⟩ ∧
      ∀ op, stage = .setCurrent op → op.Temp s.disk 1
  | .opening .recover => ∃ number m, s.disk.Ok s.history number m
  | .opening (.replay r) => ∃ number m, s.disk.Ok s.history number m ∧ r.Ok s.disk s.history m
  | .opening (.commit versions log c stage) => Opened s.disk s.history versions log c ∧
      (stage ≠ .create → s.disk.manifests versions.manifestFileNumber =
        some (openManifest s.history versions c stage)) ∧
      (∀ op, stage = .setCurrent op → op.Temp s.disk versions.manifestFileNumber) ∧
      if stage = .install then
        s.disk.Ok s.history versions.manifestFileNumber ⟨openRecords s.history versions c,2⟩
      else ∃ number m, s.disk.Ok s.history number m ∧ number ≠ versions.manifestFileNumber ∧
        (recoverRecords m.records).log ≤ log
  | .opening .failed => False
  | .running db => ∃ m, s.disk.Ok s.history db.versions.manifestFileNumber m ∧ db.Ok s.disk s.history m

theorem inv_initial : (State.initial : State K V).Inv := .inl ⟨rfl,rfl,rfl⟩

section Steps
variable {o : Options K V} {s s' : State K V}

/-- The files always stand for the history, or nothing was ever written. -/
theorem State.Inv.disk (inv : s.Inv) : s.Fresh ∨ ∃ number m, s.disk.Ok s.history number m := by
  rw [State.Inv] at inv
  split at inv
  · exact inv
  · exact .inl inv.1
  · exact .inr inv
  · obtain ⟨number,m,ok,-⟩ := inv
    exact .inr ⟨number,m,ok⟩
  · obtain ⟨-,-,-,rest⟩ := inv
    split at rest
    · exact .inr ⟨_,_,rest⟩
    · obtain ⟨number,m,ok,-⟩ := rest
      exact .inr ⟨number,m,ok⟩
  · exact inv.elim
  · obtain ⟨m,ok,-⟩ := inv
    exact .inr ⟨_,m,ok⟩

theorem State.Inv.ordered (inv : s.Inv) : s.history.Ordered := by
  rcases inv.disk with fresh | ⟨number,m,ok⟩
  · rw [fresh.history]
    exact List.Pairwise.nil
  · exact ok.ordered

theorem State.Fresh.crash (fresh : s.Fresh) (cut : Cut) : (s.crash cut).Fresh := by
  have noFile : (s.disk.crash cut).currentFile = none := by
    simp only [Disk.crash,fresh.current,Option.map_none]
  refine ⟨noFile,?_,?_⟩
  · simp [State.crash,Disk.crash,fresh.logs]
  · show (s.disk.crash cut).history = []
    rw [Disk.history,Disk.current,noFile]
    rfl

theorem State.Inv.crash (inv : s.Inv) (cut : Cut) : (s.crash cut).Inv := by
  rcases inv.disk with fresh | ⟨number,m,ok⟩
  · exact .inl (fresh.crash cut)
  · exact .inr ⟨number,_,ok.crash cut⟩

theorem State.Inv.openDb (inv : s.Inv) (step : s.openDb = some s') : s'.Inv := by
  cases hp : s.process with
  | opening p => simp [State.openDb,hp] at step
  | running db => simp [State.openDb,hp] at step
  | down =>
    rw [State.Inv,hp] at inv
    cases current : s.disk.currentFile with
    | none =>
      simp only [State.openDb,hp,current,Option.some.injEq] at step
      subst step
      rcases inv with fresh | ⟨number,m,ok⟩
      · exact ⟨⟨fresh.current,fresh.logs,fresh.history⟩,by simp [Disk.setManifest],by simp⟩
      · rw [ok.named] at current
        cases current
    | some n =>
      simp only [State.openDb,hp,current,Option.some.injEq] at step
      subst step
      rcases inv with fresh | ok
      · rw [fresh.current] at current
        cases current
      · exact ok

/-- The manifest of a new database. -/
theorem newDb_ok (d : Disk K V) (logs : d.logs = [])
    (manifest : d.manifests 1 = some ⟨[⟨newDbEdit,[]⟩],1⟩) (named : d.currentFile = some (.line 1)) :
    d.Ok [] 1 ⟨[⟨newDbEdit,[]⟩],1⟩ := by
  have empty : (Recovered.start : Recovered K).version.apply newDbEdit = Version.empty := by
    rw [apply_nothing _ _ rfl rfl,Recovered.start_version]
  have none : Version.empty.entries d.table = (∅ : Set (Entry K V)) := by
    ext e
    simp [Version.entries,Version.entriesAt,filesSet,Version.empty]
  have sound : Sound d (History.before ([] : History K V) 0).set
      ((recoverRecords ([] : List (ManifestRecord K V))).version.apply newDbEdit) 2 0 := by
    rw [show (recoverRecords ([] : List (ManifestRecord K V))) = Recovered.start from rfl,empty]
    refine ⟨⟨?_,?_,?_,fun _ _ => rfl,?_,?_,?_⟩,?_,?_,?_⟩
    · exact fun l f hf => absurd hf List.not_mem_nil
    · exact fun l => List.Pairwise.nil
    · exact fun l _ => List.Pairwise.nil
    · exact fun l l' f g hf => absurd hf List.not_mem_nil
    · exact fun f hf => absurd hf List.not_mem_nil
    · rintro l l' - a ⟨f,hf,-⟩
      exact absurd hf List.not_mem_nil
    · exact fun l f hf => absurd hf List.not_mem_nil
    · exact fun l f hf => absurd hf List.not_mem_nil
    · rw [none,show (History.before ([] : History K V) 0).set = ∅ from History.set_nil]
      exact Versioned.Covers.refl _ _
  have startWf : (recoverRecords ([] : List (ManifestRecord K V))).Wf := Recovered.start_wf
  have good : Good d [] 1 ([] ++ [(⟨newDbEdit,History.before [] 0⟩ : ManifestRecord K V)]) := by
    refine Good.append startWf (fun n uses => absurd uses (Recovered.start_unused n))
      ⟨rfl,rfl,rfl,rfl⟩ ⟨?_,?_⟩ sound ?_ (by decide) (by decide) (by simp [kMaxSequenceNumber])
    · intro l f hf
      cases hf
    · exact fun l => List.Pairwise.nil
    · intro x hx
      rw [show (History.before ([] : History K V) 0).set = ∅ from History.set_nil] at hx
      cases hx
  refine ⟨named,manifest,le_rfl,le_rfl,?_,?_,?_,?_,?_,?_,?_,?_,List.Pairwise.nil,?_⟩
  · intro k low high
    have one : k = 1 := le_antisymm high low
    subst one
    exact good.frame (fun _ _ _ => rfl) rfl
  · intro j k low le high
    have one : j = k := le_antisymm le (high.trans low)
    rw [one]
  · simp [logs]
  · simp [logs]
  · simp [logs]
  · simp [logs]
  · simp [logs]
  · exact fun r hr => absurd hr List.not_mem_nil
  · exact fun r hr => absurd hr List.not_mem_nil

omit [LinearOrder K] in
/-- An operation of `SetCurrentFile` in a new database: until the rename it stays one. -/
theorem State.Fresh.setCurrentFile (fresh : s.Fresh) {op : SetCurrent} (temp : op.Temp s.disk 1) :
    (∃ next, op.next = some next ∧ (s.setCurrentFile 1 op).Fresh ∧ next.Temp (s.setCurrentFile 1 op).disk 1) ∨
      op.next = none ∧ (s.setCurrentFile 1 op).disk.currentFile = some (.line 1) := by
  rcases temp.advance with ⟨next,isNext,temp',same⟩ | ⟨rfl,named⟩
  · refine .inl ⟨next,isNext,⟨?_,?_,?_⟩,?_⟩
    · simpa only [State.setCurrentFile_disk] using same.trans fresh.current
    · simpa only [State.setCurrentFile_disk] using setCurrentFile_logs.trans fresh.logs
    · simpa only [State.setCurrentFile_history] using fresh.history
    · simpa only [State.setCurrentFile_disk] using temp'
  · exact .inr ⟨rfl,named⟩

theorem State.Inv.newDb (inv : s.Inv) (step : s.newDb = some s') : s'.Inv := by
  rw [State.newDb] at step
  split at step
  · rename_i hp
    rw [State.Inv,hp] at inv
    cases step
    obtain ⟨fresh,manifest,-⟩ := inv
    refine ⟨⟨fresh.current,fresh.logs,fresh.history⟩,by simp [Disk.updateManifest,manifest,ManifestFile.sync],?_⟩
    rintro op ⟨⟩
    trivial
  · rename_i op hp
    rw [State.Inv,hp] at inv
    cases step
    obtain ⟨fresh,manifest,temp⟩ := inv
    have there : (s.setCurrentFile 1 op).disk.manifests 1 = some ⟨[⟨newDbEdit,[]⟩],1⟩ := by
      rw [State.setCurrentFile_disk,setCurrentFile_manifests,manifest]
      rfl
    have logs : (s.setCurrentFile 1 op).disk.logs = [] := by
      rw [State.setCurrentFile_disk,setCurrentFile_logs,fresh.logs]
    rcases fresh.setCurrentFile (temp op rfl) with ⟨next,isNext,fresh',temp'⟩ | ⟨isNext,named⟩
    · simp only [isNext]
      refine ⟨⟨fresh'.current,fresh'.logs,fresh'.history⟩,there,?_⟩
      rintro op' ⟨⟩
      exact temp'
    · simp only [isNext]
      refine ⟨1,⟨[⟨newDbEdit,[]⟩],1⟩,?_⟩
      rw [State.setCurrentFile_history,fresh.history]
      exact newDb_ok _ logs there named
  · cases step

/-- `DBImpl::Recover` never finds a manifest it cannot read or a table that is missing. -/
theorem State.Inv.recover (inv : s.Inv) (step : s.recover = some s') : s'.Inv := by
  rw [State.recover] at step
  split at step
  · rename_i hp
    rw [State.Inv,hp] at inv
    obtain ⟨number,m,ok⟩ := inv
    have good := ok.last_good
    have found : (s.disk.current.bind s.disk.manifests).bind ManifestFile.recover =
        some ⟨(recoverRecords m.records).version,(recoverRecords m.records).next + 1,
          (recoverRecords m.records).next,(recoverRecords m.records).last,(recoverRecords m.records).log,
          0,(recoverRecords m.records).compactPointer⟩ := by
      simp only [ok.current,Option.bind_some,ok.manifest]
      exact good.complete
    rw [found] at step
    have present : (recoverRecords m.records).version.numbers.all fun n => (s.disk.tables n).isSome := by
      simp only [List.all_eq_true,Version.numbers,List.mem_flatMap,List.mem_map]
      rintro n ⟨l,-,f,hf,rfl⟩
      obtain ⟨entries,there⟩ := good.sound.present l f hf
      simp [there]
    simp only [present,if_true,Option.some.injEq] at step
    subst step
    exact ⟨number,m,ok,ok.startReplay _ good.complete⟩
  · cases step

/-- What a step of the replay does: the table of the memtable, a record, the memtable at the
end of a log, the next log, and at last the new log. -/
theorem replay_cases (step : s.replay o = some s') : ∃ r, s.process = .opening (.replay r) ∧
    ((∃ n, r.table = some (n,.write) ∧ s' = State.writeTable { s with
        process := .opening (.replay { r with table := some (n,.sync) }) } n (r.mem.getD [])) ∨
      (∃ n, r.table = some (n,.sync) ∧ s' = { s with
        disk := s.disk.withTable n (r.mem.getD []) true
        process := .opening (.replay { r with
          edit := ((outputFile o n (r.mem.getD [])).map (r.edit.addFile 0)).getD r.edit
          mem := none
          table := none }) }) ∨
      (∃ b rest, r.table = none ∧ r.records = b :: rest ∧
        s' = { s with process := .opening (.replay (r.insert o b rest)) }) ∨
      (r.table = none ∧ r.records = [] ∧ r.mem.isSome ∧
        s' = { s with process := .opening (.replay r.beginTable) }) ∨
      (∃ n rest, r.table = none ∧ r.records = [] ∧ r.mem = none ∧ r.logs = n :: rest ∧
        s' = { s with process := .opening (.replay { r with
          versions := r.versions.markFileNumberUsed n
          logs := rest
          records := (rest.head?.map s.disk.recordsOf).getD [] }) }) ∨
      (r.table = none ∧ r.records = [] ∧ r.mem = none ∧ r.logs = [] ∧ s' = s.openLog r)) := by
  rw [State.replay] at step
  split at step
  · rename_i r hp
    refine ⟨r,hp,?_⟩
    cases table : r.table with
    | some t =>
      obtain ⟨n,stage⟩ := t
      cases stage with
      | write =>
        simp only [table,Option.some.injEq] at step
        exact .inl ⟨n,rfl,step.symm⟩
      | sync =>
        simp only [table,Option.some.injEq,withTable_eq] at step
        exact .inr (.inl ⟨n,rfl,step.symm⟩)
    | none =>
      cases records : r.records with
      | cons b rest =>
        simp only [table,records,Option.some.injEq] at step
        exact .inr (.inr (.inl ⟨b,rest,rfl,rfl,step.symm⟩))
      | nil =>
        cases mem : r.mem with
        | some entries =>
          simp only [table,records,mem,Option.some.injEq] at step
          exact .inr (.inr (.inr (.inl ⟨rfl,rfl,rfl,step.symm⟩)))
        | none =>
          cases logs : r.logs with
          | cons n rest =>
            simp only [table,records,mem,logs,Option.some.injEq] at step
            exact .inr (.inr (.inr (.inr (.inl ⟨n,rest,rfl,rfl,rfl,rfl,by simpa only [table,mem] using step.symm⟩))))
          | nil =>
            simp only [table,records,mem,logs,Option.some.injEq] at step
            exact .inr (.inr (.inr (.inr (.inr ⟨rfl,rfl,rfl,rfl,step.symm⟩))))
  · cases step

theorem State.Inv.replay (inv : s.Inv) (step : s.replay o = some s') : s'.Inv := by
  obtain ⟨r,hp,outcome⟩ := replay_cases step
  rw [State.Inv,hp] at inv
  obtain ⟨number,m,disk,ok⟩ := inv
  obtain ⟨n,table,rfl⟩ | ⟨n,table,rfl⟩ | ⟨b,rest,table,records,rfl⟩ | ⟨table,-,-,rfl⟩ | ⟨n,rest,table,records,mem,logs,rfl⟩ |
    ⟨table,-,mem,logs,rfl⟩ := outcome
  · simp only [State.Inv,State.writeTable_process,State.writeTable_disk,State.writeTable_history]
    exact ⟨number,m,ok.writeTable disk table _ _⟩
  · obtain ⟨diskNow,okNow⟩ := ok.writeTable disk table (r.mem.getD []) true
    exact ⟨number,m,diskNow,okNow.finishTable o diskNow rfl (withTable_written s.disk n _ true)⟩
  · exact ⟨number,m,disk,ok.insert o disk table records⟩
  · exact ⟨number,m,disk,ok.beginTable table⟩
  · have next := ok.nextLog table records logs
    exact ⟨number,m,disk,by simpa only [table,mem] using next⟩
  · obtain ⟨diskNow,opened,other⟩ := ok.openLog disk table mem logs
    refine ⟨opened,by simp,by simp,?_⟩
    rw [if_neg (by simp)]
    refine ⟨number,m,diskNow,other,?_⟩
    exact (disk.last_good.log.trans ok.next).le

theorem State.Inv.openCommit (inv : s.Inv) (step : s.openCommit = some s') : s'.Inv := by
  rw [State.openCommit] at step
  split at step
  · rename_i versions log c stage hp
    rw [State.Inv,hp] at inv
    obtain ⟨opened,manifest,temp,rest⟩ := inv
    cases stage with
    | create =>
      rw [if_neg (by simp)] at rest
      obtain ⟨number,m,disk,other,live⟩ := rest
      simp only [Option.some.injEq] at step
      subst step
      refine ⟨opened.frame rfl rfl,fun _ => by simp [Disk.setManifest,openManifest],by simp,?_⟩
      rw [if_neg (by simp)]
      refine ⟨number,m,disk.frame rfl ?_ rfl fun _ _ _ _ _ _ => rfl,other,live⟩
      simp [Disk.setManifest,other]
    | append =>
      rw [if_neg (by simp)] at rest
      obtain ⟨number,m,disk,other,live⟩ := rest
      have there := manifest (by simp)
      simp only [Option.some.injEq] at step
      subst step
      refine ⟨opened.frame rfl rfl,fun _ => ?_,by simp,?_⟩
      · simp [Disk.updateManifest,there,openManifest,ManifestFile.append,openRecords,State.manifestRecord]
      · rw [if_neg (by simp)]
        refine ⟨number,m,disk.frame rfl ?_ rfl fun _ _ _ _ _ _ => rfl,other,live⟩
        simp [Disk.updateManifest,other]
    | sync =>
      rw [if_neg (by simp)] at rest
      obtain ⟨number,m,disk,other,live⟩ := rest
      have there := manifest (by simp)
      simp only [Option.some.injEq] at step
      subst step
      refine ⟨opened.frame rfl rfl,fun _ => ?_,by rintro op ⟨⟩; trivial,?_⟩
      · simp [Disk.updateManifest,there,openManifest,ManifestFile.sync,openRecords]
      · rw [if_neg (by simp)]
        refine ⟨number,m,disk.frame rfl ?_ rfl fun _ _ _ _ _ _ => rfl,other,live⟩
        simp [Disk.updateManifest,other]
    | setCurrent op =>
      rw [if_neg (by simp)] at rest
      obtain ⟨number,m,disk,other,live⟩ := rest
      have there : (s.disk.setCurrentFile versions.manifestFileNumber op).manifests versions.manifestFileNumber =
          some ⟨openRecords s.history versions c,2⟩ := by
        rw [setCurrentFile_manifests]
        exact manifest (by simp)
      simp only [Option.some.injEq] at step
      subst step
      have after : Opened (s.disk.setCurrentFile versions.manifestFileNumber op) s.history versions log c :=
        opened.frame setCurrentFile_tables setCurrentFile_logs
      rcases (temp op rfl).advance with ⟨next,isNext,temp',same⟩ | ⟨rfl,named⟩
      · simp only [isNext,State.Inv,State.setCurrentFile_disk,State.setCurrentFile_history]
        refine ⟨after,fun _ => there,?_,?_⟩
        · rintro op' ⟨⟩
          exact temp'
        · rw [if_neg (by simp)]
          exact ⟨number,m,disk.frame same (by rw [setCurrentFile_manifests]) setCurrentFile_logs
            fun _ _ _ _ _ _ => by rw [setCurrentFile_tables],other,live⟩
      · refine ⟨after,fun _ => there,by rintro op ⟨⟩,?_⟩
        exact (if_pos rfl).mpr (opened.rename disk live there setCurrentFile_logs setCurrentFile_tables named)
    | install =>
      rw [if_pos rfl] at rest
      simp only [Option.some.injEq] at step
      subst step
      simp only [State.removeObsoleteFiles,Db.new,Bool.false_eq_true,if_false]
      have obsolete := obsoleteFiles_spec s (Db.new (versions.install c) log) none (fun _ => false)
        opened.sound.wf.levels (by simp)
      set doomed := s.obsoleteFiles (Db.new (versions.install c) log) none fun _ => false
      have after : { Db.new (versions.install c) log with job := .remove doomed none }.JobOk s.disk
          s.history ⟨openRecords s.history versions c,2⟩ ∧
          { Db.new (versions.install c) log with job := .remove doomed none }.job.commit = none :=
        Db.JobOk.after (fun c hc => by cases hc) (fun c hc => by cases hc)
          (.inr ⟨_,rfl,obsolete.log,obsolete.manifest,obsolete.current,obsolete.table⟩)
      exact ⟨_,rest,opened.install _ after.1 after.2⟩
  · cases step

theorem State.Inv.stepOpen (inv : s.Inv) {l : Label K V} (step : s.stepOpen o l = some s') : s'.Inv := by
  cases l with
  | openDb => exact inv.openDb step
  | newDb => exact inv.newDb step
  | recover => exact inv.recover step
  | replay => exact inv.replay step
  | openCommit => exact inv.openCommit step
  | _ => cases step

/-- The invariant of an open database. -/
def Db.Inv (db : Db K V) (d : Disk K V) (h : History K V) : Prop :=
  ∃ m, d.Ok h db.versions.manifestFileNumber m ∧ db.Ok d h m

variable {db : Db K V}

theorem State.Inv.running (inv : s.Inv) (open_ : s.process = .running db) : db.Inv s.disk s.history := by
  rw [State.Inv,open_] at inv
  exact inv

theorem Db.Inv.release (inv : db.Inv s.disk s.history) {f a : Bool}
    (leader : db.leader = some (.room f a)) (lastWriter : Nat) (status : Status) (first : Nat) :
    (s.release db lastWriter status first).Inv := by
  obtain ⟨m,disk,ok⟩ := inv
  exact ⟨m,disk,ok.leave leader _ _⟩

theorem Db.Inv.startGroup (inv : db.Inv s.disk s.history) {f a : Bool}
    (leader : db.leader = some (.room f a)) (step : s.startGroup o db = some s') : s'.Inv := by
  rw [State.startGroup] at step
  split at step
  · cases step
  · rename_i w rest hw
    split at step
    · cases step
      exact inv.release leader _ _ _
    · rename_i b hb
      simp only at step
      split at step
      · cases step
      · rename_i small
        simp only [Option.some.injEq] at step
        subst step
        obtain ⟨m,disk,ok⟩ := inv
        split
        · exact ⟨m,disk,ok.logging leader _ _ _ rfl rfl (not_le.mp small)⟩
        · exact ⟨m,disk,ok.logging leader _ _ _ rfl rfl (not_le.mp small)⟩

theorem Db.Inv.makeRoom (inv : db.Inv s.disk s.history)
    (step : s.makeRoom o db .ok .ok = some s') (same : s.process = .running db) : s'.Inv := by
  rw [State.makeRoom] at step
  split at step
  · rename_i force allowDelay w rest leader writers
    split at step
    · cases step
      exact inv.release leader _ _ _
    split at step
    · cases step
      obtain ⟨m,disk,ok⟩ := inv
      exact ⟨m,disk,ok.room (.inr ⟨_,_,leader⟩)⟩
    split at step
    · exact inv.startGroup leader step
    have stay : s.Inv := by
      rw [State.Inv,same]
      exact inv
    split at step
    · cases step
      exact stay
    rename_i noImm
    split at step
    · cases step
      exact stay
    · rw [if_pos rfl] at step
      cases step
      obtain ⟨m,disk,ok⟩ := inv
      simp only [State.switchMemTable,if_true]
      exact ⟨m,ok.switchMemTable disk leader (by simpa using noImm)⟩
  · cases step

theorem Db.Inv.write (inv : db.Inv s.disk s.history) (same : s.process = .running db) {l : Label K V}
    (okay : l.ok = true) (step : s.stepDb o db l = some s') :
    (match l with
      | .enter .. | .lead | .makeRoom .. | .addRecord _ | .syncLog _ | .insertInto | .finishWrite
      | .getSnapshot | .releaseSnapshot _ | .awaitFlush _ | .requestCompaction .. => s'.Inv
      | _ => True) := by
  cases l with
  | enter id batch sync =>
    simp only [State.stepDb,State.enter] at step
    split at step
    · cases step
    · cases step
      obtain ⟨m,disk,ok⟩ := inv
      exact ⟨m,disk,ok.enter _⟩
  | lead =>
    simp only [State.stepDb,State.lead] at step
    split at step
    · rename_i leader writers
      cases step
      obtain ⟨m,disk,ok⟩ := inv
      exact ⟨m,disk,ok.room (.inl leader)⟩
    · cases step
  | makeRoom newFile close =>
    simp only [Label.ok,Bool.and_eq_true,beq_iff_eq] at okay
    obtain ⟨rfl,rfl⟩ := okay
    exact inv.makeRoom step same
  | addRecord outcome =>
    simp only [Label.ok,beq_iff_eq] at okay
    subst okay
    have step : s.addRecord db .ok = some s' := step
    obtain ⟨g,leader,⟨-,rfl⟩ | ⟨⟨⟩,-⟩ | ⟨⟨⟩,-⟩ | ⟨⟨⟩,-⟩⟩ := addRecord_cases step
    obtain ⟨m,disk,ok⟩ := inv
    exact ⟨m,ok.addRecord disk leader _ ((db.logged_cases g).imp (·.2) (·.2))⟩
  | syncLog status =>
    simp only [Label.ok,beq_iff_eq] at okay
    subst okay
    simp only [State.stepDb,State.syncLog,if_true] at step
    split at step
    · rename_i g leader
      cases step
      obtain ⟨m,disk,ok⟩ := inv
      exact ⟨m,disk.sync _,ok.syncLog leader⟩
    · cases step
  | insertInto =>
    simp only [State.stepDb,State.insertInto] at step
    split at step
    · rename_i g leader
      cases step
      obtain ⟨m,disk,ok⟩ := inv
      exact ⟨m,disk,ok.insertInto leader⟩
    · cases step
  | finishWrite =>
    simp only [State.stepDb,State.finishWrite] at step
    split at step
    · rename_i g status syncError leader
      obtain ⟨m,disk,ok⟩ := inv
      cases recorded : syncError && !db.bgError <;> simp only [recorded,if_true,Bool.false_eq_true,if_false,Option.some.injEq] at step <;> subst step
      · exact ⟨m,disk,ok.finishWrite leader _ _ _ _⟩
      · exact ⟨m,disk,ok.finishWrite leader _ _ _ _⟩
    · cases step
  | getSnapshot =>
    simp only [State.stepDb,Option.some.injEq] at step
    subst step
    obtain ⟨m,disk,ok⟩ := inv
    exact ⟨m,disk,ok.getSnapshot⟩
  | releaseSnapshot snapshot =>
    simp only [State.stepDb,Option.some.injEq] at step
    subst step
    obtain ⟨m,disk,ok⟩ := inv
    exact ⟨m,disk,ok.releaseSnapshot snapshot⟩
  | awaitFlush id =>
    simp only [State.stepDb,State.awaitFlush] at step
    split at step
    · cases step
      obtain ⟨m,disk,ok⟩ := inv
      exact ⟨m,disk,ok.quiet ⟨rfl,rfl,rfl,rfl,rfl,rfl,rfl⟩ rfl rfl ok.memory.group⟩
    · cases step
  | requestCompaction level first last =>
    simp only [State.stepDb,State.requestCompaction] at step
    split at step
    · cases step
      obtain ⟨m,disk,ok⟩ := inv
      exact ⟨m,disk,ok.quiet ⟨rfl,rfl,rfl,rfl,rfl,rfl,rfl⟩ rfl rfl ok.memory.group⟩
    · cases step
  | _ => trivial

theorem Db.Inv.beginFlush (inv : db.Inv s.disk s.history) (step : s.beginFlush db = some s') : s'.Inv := by
  obtain ⟨m,disk,ok⟩ := inv
  rw [State.beginFlush] at step
  split at step
  · rename_i imm job isImm
    split at step
    · cases step
    · cases step
      exact ⟨m,disk,ok.beginFlush disk none (by simp [isImm]) (.inl ⟨job,rfl⟩)⟩
  · rename_i c imm job isImm
    split at step
    · cases step
    · cases step
      exact ⟨m,disk,ok.beginFlush disk (some c) (by simp [isImm]) (.inr ⟨c,job,rfl⟩)⟩
  · cases step

theorem Db.Inv.buildTable (inv : db.Inv s.disk s.history) (same : s.process = .running db)
    (clear : s.Clear o (.buildTable .ok)) (step : s.buildTable o db .ok = some s') : s'.Inv := by
  obtain ⟨m,disk,ok⟩ := inv
  rw [State.buildTable] at step
  split at step
  · rename_i number stage outer imm job isImm
    simp only [ne_eq,not_true_eq_false,if_false,withTable_eq] at step
    split at step
    · cases step
      simp only [State.Inv,State.writeTable_process,State.writeTable_disk,State.writeTable_history]
      exact ⟨m,ok.writeTable disk job imm false⟩
    · cases step
      obtain ⟨diskNow,okNow⟩ := ok.writeTable disk job imm true
      refine ⟨m,diskNow,okNow.commitFlush o ?_ rfl isImm (withTable_written s.disk number imm true) ?_⟩
      · exact diskNow
      · rintro c rfl
        simp only [State.Clear,same,job,isImm] at clear
        exact clear
  · cases step

theorem Db.Inv.pick (inv : db.Inv s.disk s.history) {trigger : Trigger K}
    (step : s.pick o db trigger = some s') : s'.Inv := by
  obtain ⟨m,disk,ok⟩ := inv
  rw [State.pick] at step
  split at step
  · rename_i job noImm noManual
    split at step
    · cases step
    rename_i allowed
    simp only [not_or,Bool.not_eq_true,Bool.not_eq_false'] at allowed
    obtain ⟨closed,connected⟩ := ok.sound.wf.sorted.pickCompaction_closed o db.versions.compactPointer trigger allowed.2
    set c := db.versions.current.pickCompaction o db.versions.compactPointer trigger
    have moved := ok.pointers (Function.update db.versions.compactPointer c.level c.compactPointer) job
    simp only at step
    split at step
    · rename_i trivial
      cases step
      refine ⟨m,disk,moved.move o ?_ job closed trivial⟩
      exact disk
    · cases step
      exact ⟨m,disk,moved.compact disk job closed false fun _ => connected⟩
  · cases step

theorem Db.Inv.pickManual (inv : db.Inv s.disk s.history)
    (deep : ∀ r, db.manualCompaction = some r → r.level + 1 < kNumLevels)
    (step : s.pickManual o db = some s') : s'.Inv := by
  obtain ⟨m,disk,ok⟩ := inv
  rw [State.pickManual] at step
  split at step
  · rename_i r job noImm manual
    split at step
    · cases step
    split at step
    · cases step
      exact ⟨m,disk,ok.quiet ⟨rfl,rfl,rfl,rfl,rfl,rfl,rfl⟩ rfl rfl ok.memory.group⟩
    · rename_i c chosen
      cases step
      have closed := ok.sound.wf.sorted.compactRange_closed o r.level (deep r manual) r.first r.last c chosen
      have moved := ok.pointers (Function.update db.versions.compactPointer c.level c.compactPointer) job
      exact ⟨m,disk,moved.compact disk job closed true (by simp)⟩
  · cases step

theorem Db.Inv.advance (inv : db.Inv s.disk s.history) (step : s.advanceCompaction o db .ok = some s') :
    s'.Inv := by
  obtain ⟨m,disk,ok⟩ := inv
  rw [State.advanceCompaction] at step
  split at step
  · rename_i c job
    split at step
    · cases step
    rename_i more
    obtain ⟨e,rest,head⟩ := List.exists_cons_of_ne_nil more
    simp only [reduceCtorEq,if_false,if_true,Option.some.injEq] at step
    subst step
    have next := ok.advance o disk job head
    cases opened : (c.advance o db.versions.nextFileNumber).2 <;>
    · simp only [opened,if_true,Bool.false_eq_true,if_false] at next ⊢
      exact ⟨m,next⟩
  · cases step

theorem Db.Inv.finish (inv : db.Inv s.disk s.history) (step : s.finishCompaction o db .ok = some s') :
    s'.Inv := by
  obtain ⟨m,disk,ok⟩ := inv
  rw [State.finishCompaction] at step
  split at step
  · rename_i c job
    split at step
    · cases step
    rename_i finished
    simp only [ne_eq,not_true_eq_false,if_false,Option.some.injEq] at step
    subst step
    exact ⟨m,ok.finishCompaction o disk job (by simpa using finished)⟩
  · cases step

theorem Db.Inv.appendManifest (inv : db.Inv s.disk s.history) (step : s.appendManifest db .ok = some s') :
    s'.Inv := by
  obtain ⟨m,disk,ok⟩ := inv
  rw [State.appendManifest] at step
  split at step
  · rename_i c isCommit
    split at step
    · cases step
    rename_i stage
    simp only [reduceCtorEq,if_false,if_true,Option.some.injEq] at step
    subst step
    exact ok.appendManifest disk isCommit (by simpa using stage)
  · cases step

theorem Db.Inv.syncManifest (inv : db.Inv s.disk s.history) (step : s.syncManifest db .ok = some s') :
    s'.Inv := by
  obtain ⟨m,disk,ok⟩ := inv
  rw [State.syncManifest] at step
  split at step
  · rename_i c isCommit
    split at step
    · cases step
    rename_i stage
    simp only [ne_eq,not_true_eq_false,if_false,Option.some.injEq] at step
    subst step
    exact ⟨_,ok.syncManifest disk isCommit (by simpa using stage)⟩
  · cases step

theorem Db.Inv.removeFile (inv : db.Inv s.disk s.history) (same : s.process = .running db) {f : FileName}
    (step : s.removeFile db f = some s') : s'.Inv := by
  obtain ⟨m,disk,ok⟩ := inv
  rw [State.removeFile] at step
  split at step
  · rename_i doomed outer job
    split at step
    · rename_i hit
      cases step
      rw [State.Inv]
      simp only [same]
      exact ⟨m,ok.removeFile disk job f hit⟩
    · cases step
  · cases step

theorem Db.Inv.removeDone (inv : db.Inv s.disk s.history) (step : s.removeDone db = some s') : s'.Inv := by
  obtain ⟨m,disk,ok⟩ := inv
  rw [State.removeDone] at step
  split at step
  · rename_i doomed outer job
    cases step
    exact ⟨m,disk,ok.removeDone job⟩
  · cases step

/-- After an install the obsolete files are chosen, or the job ends. -/
theorem Db.Ok.removing {db' : Db K V} {m : ManifestFile K V} (s : State K V)
    {outer : Option (CompactionState K V)} (pinned : Nat → Bool)
    (disk : s.disk.Ok s.history db'.versions.manifestFileNumber m)
    (after : ∀ job, { db' with job }.JobOk s.disk s.history m ∧ job.commit = none →
      { db' with job }.Ok s.disk s.history m)
    (wf : db'.versions.current.Wf s.disk.table)
    (busy : ∀ c, outer = some c → InProgress s.disk db' m c)
    (fits : ∀ c, outer = some c → Installable s.disk db'.versions.current c) :
    (s.removeObsoleteFiles db' outer pinned).Inv := by
  have carry : ∀ job, ∀ c, outer = some c → InProgress s.disk { db' with job } m c := fun job c hc =>
    (busy c hc).carry rfl le_rfl fun _ _ member => member
  rw [State.removeObsoleteFiles]
  split
  · exact ⟨m,disk,after _ (Db.JobOk.after (carry _) fits (.inl rfl))⟩
  · have obsolete := obsoleteFiles_spec s db' outer pinned wf.levels fun c hc => (busy c hc).pending
    exact ⟨m,disk,after _ (Db.JobOk.after (carry _) fits
      (.inr ⟨_,rfl,obsolete.log,obsolete.manifest,obsolete.current,obsolete.table⟩))⟩

theorem Db.Inv.install (inv : db.Inv s.disk s.history) {pinned : Nat → Bool}
    (step : s.installVersion db pinned = some s') : s'.Inv := by
  obtain ⟨m,disk,ok⟩ := inv
  rw [State.installVersion] at step
  split at step
  · rename_i c isCommit
    split at step
    · cases step
    rename_i stage
    have atEnd : c.stage = .install := by simpa using stage
    have busy := ok.job.1
    have jobOk := ok.job.2
    cases job : db.job with
    | commitFlush commit outer =>
      simp only [job,Job.commit,Job.outer,Option.some.injEq] at isCommit step busy jobOk
      subst isCommit step
      obtain ⟨-,commit,fits⟩ := jobOk
      obtain ⟨next,last,floor,completes,-,-,-,-,-,sound,-⟩ := commit.completes
      refine Db.Ok.removing (s.note .installed) pinned disk (fun job' after => ?_) sound.wf
        (fun c hc => (busy c hc).carry rfl le_rfl fun _ _ member => member) fits
      refine ok.install (by rw [job]; rfl) atEnd commit rfl ?_ rfl rfl after.2 after.1
      exact ok.memory.flushDone rfl rfl rfl rfl (by simp [VersionSet.install,completes.log]) rfl rfl
    | commitCompaction done commit =>
      simp only [job,Job.commit,Option.some.injEq] at isCommit step jobOk
      subst isCommit step
      obtain ⟨next,last,floor,completes,-,-,-,-,-,sound,-⟩ := jobOk.completes
      refine Db.Ok.removing (s.note .installed) pinned disk (fun job' after => ?_) sound.wf (by simp) (by simp)
      refine ok.install (by rw [job]; rfl) atEnd jobOk rfl ?_ rfl rfl after.2 after.1
      exact ok.memory.carry rfl rfl rfl rfl (by simp [Db.cleanup,VersionSet.install,completes.log]) rfl rfl
    | move commit =>
      simp only [job,Job.commit,Option.some.injEq] at isCommit step jobOk
      subst isCommit step
      obtain ⟨next,last,floor,completes,-⟩ := jobOk.completes
      refine ⟨m,disk,ok.install (by rw [job]; rfl) atEnd jobOk rfl ?_ rfl rfl rfl ⟨by simp [Job.outer],trivial⟩⟩
      exact ok.memory.carry rfl rfl rfl rfl (by simp [VersionSet.install,completes.log]) rfl rfl
    | _ => simp [job,Job.commit] at isCommit
  · cases step

/-- Every step that succeeds keeps the invariant. -/
theorem State.Inv.step (inv : s.Inv) (manual : s.Manual) {l : Label K V} (okay : l.ok = true)
    (clear : s.Clear o l) (step : s.step o l = some s') : s'.Inv := by
  obtain ⟨cut,rfl,rfl⟩ | ⟨db,process,step⟩ | ⟨-,step⟩ := step_cases step
  · exact inv.crash cut
  · have now := inv.running process
    cases l with
    | beginFlush => exact now.beginFlush step
    | buildTable status =>
      simp only [Label.ok,beq_iff_eq] at okay
      subst okay
      exact now.buildTable process clear step
    | pick trigger => exact now.pick step
    | pickManual => exact now.pickManual (manual db process) step
    | advanceCompaction status =>
      simp only [Label.ok,beq_iff_eq] at okay
      subst okay
      exact now.advance step
    | finishCompaction status =>
      simp only [Label.ok,beq_iff_eq] at okay
      subst okay
      exact now.finish step
    | appendManifest status =>
      simp only [Label.ok,beq_iff_eq] at okay
      subst okay
      exact now.appendManifest step
    | syncManifest status =>
      simp only [Label.ok,beq_iff_eq] at okay
      subst okay
      exact now.syncManifest step
    | installVersion pinned => exact now.install step
    | removeFile f => exact now.removeFile process step
    | removeDone => exact now.removeDone step
    | crash cut => cases step
    | openDb => cases step
    | newDb => cases step
    | recover => cases step
    | replay => cases step
    | openCommit => cases step
    | _ => exact now.write process okay step
  · exact inv.stepOpen step

/-- Every step of the run is clear of the manual compaction it may be in. -/
def State.RunClear (o : Options K V) : State K V → List (Label K V) → Prop
  | _, [] => True
  | s, l :: rest => s.Clear o l ∧ ∀ next ∈ s.step o l, next.RunClear o rest

instance (c : Compaction K) (level : Nat) (smallest largest : K) :
    Decidable (c.Clear level smallest largest) := inferInstanceAs (Decidable (_ → _ ∨ _))

instance (o : Options K V) (s : State K V) (l : Label K V) : Decidable (s.Clear o l) := by
  unfold State.Clear
  split
  · split <;> infer_instance
  · infer_instance

instance runClearDecidable (o : Options K V) : ∀ (s : State K V) (ls : List (Label K V)),
    Decidable (s.RunClear o ls)
  | _, [] => isTrue trivial
  | s, l :: rest =>
    have (next : State K V) := runClearDecidable o next rest
    inferInstanceAs (Decidable (s.Clear o l ∧ ∀ next ∈ s.step o l, next.RunClear o rest))

theorem State.Inv.run {ls : List (Label K V)} (inv : s.Inv) (manual : s.Manual) (okay : ∀ l ∈ ls, l.ok = true)
    (clear : s.RunClear o ls) (run : s.run o ls = some s') : s'.Inv := by
  induction ls generalizing s with
  | nil =>
    cases run
    exact inv
  | cons l rest ih =>
    obtain ⟨next,step,run⟩ := Option.bind_eq_some_iff.mp run
    obtain ⟨now,later⟩ := clear
    exact ih (inv.step manual (okay l (by simp)) now step) (manual.step step)
      (fun l hl => okay l (by simp [hl])) (later next step) run

theorem State.Automatic.clear (automatic : s.Automatic) (l : Label K V) : s.Clear o l := by
  rw [State.Clear.eq_def]
  split
  · rename_i db status process
    split
    · rename_i number c imm job isImm
      intro manual
      rw [(automatic db process).2 c (by rw [job]; rfl)] at manual
      cases manual
    · trivial
  · trivial

theorem State.Automatic.runClear {ls : List (Label K V)} (automatic : s.Automatic)
    (isAutomatic : ∀ l ∈ ls, l.automatic = true) : s.RunClear o ls := by
  induction ls generalizing s with
  | nil => trivial
  | cons l rest ih =>
    exact ⟨automatic.clear l,fun next step =>
      ih (automatic.step (isAutomatic l (by simp)) step) fun l hl => isAutomatic l (by simp [hl])⟩

/-- The invariant of every run without manual compactions and without I/O errors. -/
theorem inv_of_run {ls : List (Label K V)} (okay : ∀ l ∈ ls, l.ok = true)
    (automatic : ∀ l ∈ ls, l.automatic = true) (run : State.initial.run o ls = some s) : s.Inv := by
  have start : (State.initial : State K V).Automatic := fun db process => by cases process
  exact inv_initial.run (fun db process => by cases process) okay (start.runClear automatic) run

/-- The states of such runs. -/
structure State.Regular (s : State K V) : Prop where
  inv : s.Inv
  manual : s.Manual
  automatic : s.Automatic

theorem State.Regular.initial : (State.initial : State K V).Regular :=
  ⟨inv_initial,by rintro _ ⟨⟩,by rintro _ ⟨⟩⟩

theorem State.Regular.step (regular : s.Regular) (okay : l.ok = true) (automatic : l.automatic = true)
    (step : s.step o l = some s') : s'.Regular :=
  ⟨regular.inv.step regular.manual okay (regular.automatic.clear l) step,regular.manual.step step,
    regular.automatic.step automatic step⟩

/-- What each step keeps, a run keeps. -/
theorem State.Regular.run {P : State K V → Prop} {ls : List (Label K V)} (regular : s.Regular) (start : P s)
    (okay : ∀ l ∈ ls, l.ok = true) (automatic : ∀ l ∈ ls, l.automatic = true) (run : s.run o ls = some s')
    (keeps : ∀ l ∈ ls, ∀ s s' : State K V, s.Regular → s'.Regular → s.step o l = some s' → P s → P s') :
    s'.Regular ∧ P s' := by
  induction ls generalizing s with
  | nil =>
    cases run
    exact ⟨regular,start⟩
  | cons l rest ih =>
    obtain ⟨next,step,run⟩ := Option.bind_eq_some_iff.mp run
    have after := regular.step (okay l (by simp)) (automatic l (by simp)) step
    exact ih after (keeps l (by simp) s next regular after step start) (fun l hl => okay l (by simp [hl]))
      (fun l hl => automatic l (by simp [hl])) run fun l hl => keeps l (by simp [hl])

end Steps

/-! A small database for concrete runs: a memtable is full at four entries, and a table
takes a unit for each entry. -/
section Small

def smallOptions : Options Nat Nat where
  maxFileSize := 1000
  writeBufferSize := 3
  updateSize _ := 4
  memoryUsage mem := mem.length
  builderSize entries := entries.length
  tableSize entries := entries.length + 1
  tableSize_pos _ _ := Nat.succ_pos _

/-- `DB::Open` of an empty directory. -/
def openRun : List (Label Nat Nat) :=
  [.openDb] ++ List.replicate 5 .newDb ++ [.recover,.replay] ++ List.replicate 8 .openCommit ++ [.removeDone]

/-- A write on its own, with `passes` through `MakeRoomForWrite`. -/
def writeRun (id : Nat) (updates : List (Nat × Option Nat)) (sync : Bool) (passes : Nat) :
    List (Label Nat Nat) :=
  [.enter id (some ⟨0,updates⟩) sync,.lead] ++ List.replicate passes (.makeRoom .ok .ok) ++
    [.addRecord .ok] ++ (if sync then [.syncLog .ok] else []) ++ [.insertInto,.finishWrite]

/-- A flush on its own. -/
def flushRun : List (Label Nat Nat) :=
  [.beginFlush,.buildTable .ok,.buildTable .ok,.appendManifest .ok,.syncManifest .ok,
    .installVersion fun _ => false,.removeDone]

/-- A crash, and `DB::Open` with `steps` steps of replay. -/
def crashRun (cut : Cut) (steps : Nat) : List (Label Nat Nat) :=
  [.crash cut,.openDb,.recover] ++ List.replicate steps .replay ++ List.replicate 8 .openCommit ++
    [.removeDone]

def State.db (s : State K V) : Option (Db K V) :=
  match s.process with
  | .running db => some db
  | _ => none

omit [LinearOrder K] in
theorem State.db_eq {s : State K V} {db : Db K V} : s.db = some db ↔ s.process = .running db := by
  cases h : s.process <;> simp [State.db,h]

/-- A run that ends with an open database, found by evaluation. -/
theorem exists_run (o : Options K V) (ls : List (Label K V)) (p : State K V → Db K V → Bool)
    (found : ((State.initial.run o ls).any fun s => s.db.any (p s)) = true) :
    ∃ s db, State.initial.run o ls = some s ∧ s.process = .running db ∧ p s db = true := by
  obtain ⟨s,run,open_⟩ := (Option.any_eq_true _ _).mp found
  obtain ⟨db,isDb,holds⟩ := (Option.any_eq_true _ _).mp open_
  exact ⟨s,db,run,State.db_eq.mp isDb,holds⟩

end Small

end LevelDB
