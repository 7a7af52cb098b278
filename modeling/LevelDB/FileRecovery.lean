import LevelDB.FileInvariant
import LevelDB.Reachable

/-! The files while a database is opened, and over whole runs with crashes: what a
manifest can bring back is kept until another manifest has taken its place. -/
namespace LevelDB

variable {K V : Type} [LinearOrder K]

/-- The replay writes tables under new numbers, and numbers of logs are taken as they are read. -/
structure Replay.Files (o : Options K V) (file : Nat → Option (FileMetaData K)) (r : Replay K V)
    (d : Disk K V) (number : Nat) (m : ManifestFile K V) : Prop where
  disk : d.Files o file number m
  current : r.versions.current = (recoverRecords m.records).version
  older : number < r.versions.manifestFileNumber
  manifest : r.versions.manifestFileNumber < r.versions.nextFileNumber
  below : ∀ n f, file n = some f → n < r.versions.nextFileNumber
  prev : r.versions.prevLogNumber = 0
  logs : ∀ l ∈ d.logs, l.number < r.versions.nextFileNumber ∨ l.number ∈ r.logs
  deleted : r.edit.deletedFiles = []
  new : ∀ n ∈ r.edit.newFiles, n.1 = 0 ∧ n.2.Kept o file d ∧ n.2.number ∉ r.versions.current.numbers
  table : ∀ n stage, r.table = some (n,stage) → file n = none ∧ n < r.versions.nextFileNumber

/-- The edit of the recovery is committed to a new manifest. -/
structure OpenFiles (o : Options K V) (file : Nat → Option (FileMetaData K)) (d : Disk K V)
    (versions : VersionSet K) (log : Nat) (c : Commit K) : Prop where
  kept : versions.current.Kept o file d
  below : ∀ n f, file n = some f → n < versions.nextFileNumber
  manifest : versions.manifestFileNumber < versions.nextFileNumber
  logs : ∀ l ∈ d.logs, l.number < versions.nextFileNumber
  number : log < versions.nextFileNumber
  prev : versions.prevLogNumber = 0
  completes : c.edit.Completes log versions.nextFileNumber versions.lastSequence
  version : c.version = versions.current.apply c.edit
  places : c.edit.Places file versions.current
  new : ∀ n ∈ c.edit.newFiles, n.2.Kept o file d

def State.Files (o : Options K V) (loose : Bool) (held : List (Version K)) (s : State K V) : Prop :=
  match s.process with
  | .down => s.Fresh ∨ ∃ file number m, s.disk.Files o file number m
  | .opening (.newDb stage) => s.Fresh ∧
      s.disk.manifests 1 = some ⟨[⟨newDbEdit,[]⟩],if stage = .sync then 0 else 1⟩ ∧
      ∀ op, stage = .setCurrent op → op.Temp s.disk 1
  | .opening .recover => ∃ file number m, s.disk.Files o file number m
  | .opening (.replay r) => ∃ file number m, r.Files o file s.disk number m
  | .opening (.commit versions log c stage) => ∃ file, OpenFiles o file s.disk versions log c ∧
      (stage ≠ .create → s.disk.manifests versions.manifestFileNumber =
        some (openManifest s.history versions c stage)) ∧
      (∀ op, stage = .setCurrent op → op.Temp s.disk versions.manifestFileNumber) ∧
      if stage = .install then
        s.disk.Files o file versions.manifestFileNumber ⟨openRecords s.history versions c,2⟩
      else ∃ number m, s.disk.Files o file number m ∧ number < versions.manifestFileNumber ∧
        versions.current = (recoverRecords m.records).version
  | .opening .failed => False
  | .running db => ∃ file m, (db.core s.disk).Files o loose held file m

section Replay
variable {o : Options K V} {file : Nat → Option (FileMetaData K)} {r : Replay K V} {d : Disk K V} {number : Nat}
  {m : ManifestFile K V}

/-- A recovered manifest: numbers it does not know are free again. -/
theorem Disk.Files.startReplay (files : d.Files o file number m) :
    ∃ file', Replay.Files o file' ⟨⟨(recoverRecords m.records).version,(recoverRecords m.records).next + 1,
        (recoverRecords m.records).next,(recoverRecords m.records).last,(recoverRecords m.records).log,0,
        (recoverRecords m.records).compactPointer⟩,.empty,d.logsFrom (recoverRecords m.records).log 0,
        ((d.logsFrom (recoverRecords m.records).log 0).head?.map d.recordsOf).getD [],none,0,none⟩ d number m := by
  have whole := files.whole
  refine ⟨fun n => if n < (recoverRecords m.records).next then file n else none,?_,rfl,whole.manifest,Nat.lt_succ_self _,?_,
    rfl,?_,rfl,fun n hn => absurd hn List.not_mem_nil,by rintro _ _ ⟨⟩⟩
  · exact files.frame rfl rfl (List.Sublist.refl _) (fun _ _ _ _ _ => rfl) fun n uses => if_pos (whole.used n uses)
  · intro n f named
    split at named
    · rename_i below
      exact below.trans (Nat.lt_succ_self _)
    · cases named
  · intro l hl
    by_cases late : (recoverRecords m.records).log ≤ l.number
    · refine .inr ?_
      simp only [Disk.logsFrom,List.mem_insertionSort,List.mem_filter,Bool.or_eq_true,decide_eq_true_eq]
      exact ⟨List.mem_map_of_mem hl,.inl late⟩
    · exact .inl ((not_le.mp late).trans (whole.log.trans (Nat.lt_succ_self _)))

/-- More records are read, or a table is begun. -/
theorem Replay.Files.carry {r' : Replay K V} (files : r.Files o file d number m)
    (versions : ∃ n, r'.versions = { r.versions with nextFileNumber := n } ∧ r.versions.nextFileNumber ≤ n)
    (edit : r'.edit = r.edit)
    (logs : ∀ n ∈ r.logs, n < r'.versions.nextFileNumber ∨ n ∈ r'.logs)
    (table : ∀ n stage, r'.table = some (n,stage) → r.table = some (n,stage) ∨
      n = r.versions.nextFileNumber ∧ r.versions.nextFileNumber < r'.versions.nextFileNumber) :
    r'.Files o file d number m := by
  obtain ⟨next,same,le⟩ := versions
  have le' : r.versions.nextFileNumber ≤ r'.versions.nextFileNumber := by rw [same]; exact le
  have current : r'.versions.current = r.versions.current := by rw [same]
  have isManifest : r'.versions.manifestFileNumber = r.versions.manifestFileNumber := by rw [same]
  refine ⟨files.disk,current.trans files.current,by rw [isManifest]; exact files.older,
    by rw [isManifest]; exact files.manifest.trans_le le',fun n f named => (files.below n f named).trans_le le',
    by rw [same]; exact files.prev,?_,by rw [edit]; exact files.deleted,by rw [edit,current]; exact files.new,?_⟩
  · intro l hl
    rcases files.logs l hl with below | waiting
    · exact .inl (below.trans_le le')
    · exact logs l.number waiting
  · intro n stage isTable
    rcases table n stage isTable with old | ⟨rfl,more⟩
    · exact ⟨(files.table n stage old).1,(files.table n stage old).2.trans_le le'⟩
    · refine ⟨?_,more⟩
      cases named : file r.versions.nextFileNumber with
      | none => rfl
      | some f => exact absurd (files.below _ f named) (lt_irrefl _)

theorem Replay.Files.beginTable (files : r.Files o file d number m) : r.beginTable.Files o file d number m := by
  refine files.carry ⟨_,rfl,Nat.le_succ _⟩ rfl (fun n hn => .inr hn) ?_
  rintro n stage ⟨⟩
  exact .inr ⟨rfl,Nat.lt_succ_self _⟩

theorem Replay.Files.insert (files : r.Files o file d number m) (none : r.table = none) (b : WriteBatch K V)
    (rest : List (WriteBatch K V)) : (r.insert o b rest).Files o file d number m := by
  have read : Replay.Files o file { r with
      records := rest
      mem := some (b.insertInto (r.mem.getD []))
      maxSequence := max r.maxSequence (b.sequence + b.count - 1) } d number m := by
    refine files.carry ⟨_,rfl,le_rfl⟩ rfl (fun n hn => .inr hn) fun n stage isTable => ?_
    have : r.table = some (n,stage) := isTable
    rw [none] at this
    cases this
  rw [Replay.insert]
  split
  · exact read.beginTable
  · exact read

theorem Replay.Files.nextLog (files : r.Files o file d number m) (none : r.table = none) {n : Nat} {rest : List Nat}
    (logs : r.logs = n :: rest) (records : List (WriteBatch K V)) :
    Replay.Files o file { r with
      versions := r.versions.markFileNumberUsed n
      logs := rest
      records } d number m := by
  have used : ∃ next, r.versions.markFileNumberUsed n = { r.versions with nextFileNumber := next } ∧
      r.versions.nextFileNumber ≤ next ∧ n < next := by
    rw [VersionSet.markFileNumberUsed]
    split
    · rename_i le
      exact ⟨n + 1,rfl,le.trans (Nat.le_succ n),Nat.lt_succ_self _⟩
    · rename_i gt
      exact ⟨_,rfl,le_rfl,not_le.mp gt⟩
  obtain ⟨next,same,le,taken⟩ := used
  refine files.carry ⟨next,same,le⟩ rfl (fun k hk => ?_) fun k stage isTable => ?_
  · rw [logs] at hk
    rcases List.mem_cons.mp hk with rfl | later
    · refine .inl ?_
      show k < (r.versions.markFileNumberUsed k).nextFileNumber
      rw [same]
      exact taken
    · exact .inr later
  · have : r.table = some (k,stage) := isTable
    rw [none] at this
    cases this

/-- The table of the replay is written: its number names no file. -/
theorem Replay.Files.writeTable {n : Nat} {stage : BuildStage} (files : r.Files o file d number m)
    (table : r.table = some (n,stage)) (entries : MemTable K V) (stage' : BuildStage) :
    Replay.Files o file { r with table := some (n,stage') } (d.withTable n entries false) number m := by
  obtain ⟨free,below⟩ := files.table n stage table
  have touches := withTable_touches d n entries false
  have isFree : ∀ k, k = n → file k = none := by rintro _ rfl; exact free
  refine ⟨files.disk.free touches isFree,files.current,files.older,files.manifest,files.below,files.prev,
    by rw [touches.logs]; exact files.logs,files.deleted,fun k hk => ?_,?_⟩
  · obtain ⟨level,kept,apart⟩ := files.new k hk
    refine ⟨level,kept.frame (touches.tables _ fun same => ?_) rfl,apart⟩
    have := kept.named
    rw [same,free] at this
    cases this
  · rintro _ _ ⟨⟩
    exact ⟨free,below⟩

theorem Replay.Files.syncTable {n : Nat} (files : r.Files o file d number m) (table : r.table = some (n,.sync))
    (entries : MemTable K V) :
    Replay.Files o (register o [(n,entries)] file) { r with
      edit := ((outputFile o n entries).map (r.edit.addFile 0)).getD r.edit
      mem := none
      table := none } (d.withTable n entries true) number m := by
  obtain ⟨free,below⟩ := files.table n .sync table
  have touches := withTable_touches d n entries true
  have isFree : ∀ k, k = n → file k = none := by rintro _ rfl; exact free
  have free' : ∀ k ∈ [(n,entries)].map (·.1), file k = none := by simpa using free
  have current := files.disk.whole.kept
  rw [← files.current] at current
  refine ⟨(files.disk.free touches isFree).frame rfl rfl (List.Sublist.refl _) (fun _ _ _ _ _ => rfl) ?_,files.current,
    files.older,files.manifest,fun k f => register_below _ (by simpa using below) files.below,files.prev,
    by rw [touches.logs]; exact files.logs,?_,?_,by rintro _ _ ⟨⟩⟩
  · rintro k ⟨l,f,hf,rfl⟩
    have named := files.disk.whole.tracks.named l f hf
    rw [named]
    exact register_names free' named
  · cases isFile : outputFile o n entries with
    | none => exact files.deleted
    | some f => exact files.deleted
  · intro k hk
    have old : ∀ k ∈ r.edit.newFiles, k.1 = 0 ∧ k.2.Kept o (register o [(n,entries)] file) (d.withTable n entries true) ∧
        k.2.number ∉ r.versions.current.numbers := by
      intro k hk
      obtain ⟨level,kept,apart⟩ := files.new k hk
      refine ⟨level,kept.frame (touches.tables _ fun same => ?_) ?_,apart⟩
      · have := kept.named
        rw [same,free] at this
        cases this
      · rw [kept.named]
        exact register_names free' kept.named
    cases isFile : outputFile o n entries with
    | none =>
      simp only [isFile] at hk
      exact old k hk
    | some f =>
      simp only [isFile,Option.map_some,Option.getD_some,VersionEdit.addFile,List.mem_append,List.mem_singleton] at hk
      rcases hk with before | rfl
      · exact old k before
      · have isNumber := (outputFile_spec isFile).1
        refine ⟨rfl,⟨?_,entries,?_,?_⟩,fun member => ?_⟩
        · rw [isNumber]
          exact register_output (List.pairwise_singleton _ _) List.mem_cons_self isFile
        · rw [isNumber]
          refine withTable_written d n entries true ?_
          rintro rfl
          simp [outputFile] at isFile
        · rw [isNumber]
          exact isFile
        · obtain ⟨l,g,hg,same⟩ := Version.exists_of_mem_numbers member
          have named := (current.files l g hg).named
          rw [same,isNumber,free] at named
          cases named

/-- The new log is made: its number is above all others. -/
theorem Replay.Files.openLog (files : r.Files o file d number m) (noLogs : r.logs = []) :
    let n := r.versions.nextFileNumber
    let versions := { r.versions with
      nextFileNumber := n + 1
      lastSequence := max r.versions.lastSequence r.maxSequence }
    OpenFiles o file (d.newLog n) versions n
      (versions.logAndApply { r.edit with logNumber := some n, prevLogNumber := some 0 }) ∧
      (d.newLog n).Files o file number m := by
  intro n versions
  have kept : r.versions.current.Kept o file d := by
    rw [files.current]
    exact files.disk.whole.kept
  have logs : ∀ l ∈ d.logs, l.number < n := by
    intro l hl
    have := files.logs l hl
    rw [noLogs] at this
    exact this.resolve_right List.not_mem_nil
  have next : n < n + 1 := Nat.lt_succ_self n
  refine ⟨⟨kept.frame (fun _ _ _ => rfl) fun _ _ _ => rfl,fun k f named => (files.below k f named).trans next,
    files.manifest.trans next,?_,next,files.prev,⟨rfl,rfl,rfl,rfl⟩,rfl,⟨?_,?_,?_,?_⟩,?_⟩,
    ⟨files.disk.named,files.disk.manifest,files.disk.synced,fun k low high =>
      (files.disk.restores k low high).frame (fun _ _ _ => rfl) fun _ _ => rfl,?_,?_⟩⟩
  · intro l hl
    rcases List.mem_append.mp hl with old | new
    · exact (logs l old).trans next
    · rw [List.mem_singleton.mp new]
      exact next
  · exact fun k hk => (files.new k hk).2.1.named
  · intro k hk
    rw [(files.new k hk).1]
    decide
  · intro k hk l g hg same
    exact absurd (same ▸ kept.mem_numbers hg) (files.new k hk).2.2
  · intro k hk k' hk' _
    rw [(files.new k hk).1,(files.new k' hk').1]
  · exact fun k hk => (files.new k hk).2.1.frame rfl rfl
  · simp only [Disk.newLog,List.map_append,List.map_cons,List.map_nil]
    refine List.pairwise_append.mpr ⟨files.disk.increasing,List.pairwise_singleton _ _,fun a ha b hb => ?_⟩
    obtain ⟨l,hl,rfl⟩ := List.mem_map.mp ha
    rw [List.mem_singleton.mp hb]
    exact logs l hl
  · intro l hl
    rcases List.mem_append.mp hl with old | new
    · exact files.disk.positive l old
    · rw [List.mem_singleton.mp new]
      exact Nat.zero_lt_of_lt files.manifest

end Replay

section Open
variable {o : Options K V} {file : Nat → Option (FileMetaData K)} {d d' : Disk K V} {versions : VersionSet K}
  {log : Nat} {c : Commit K}

theorem OpenFiles.frame (files : OpenFiles o file d versions log c) (tables : d'.tables = d.tables)
    (logs : d'.logs = d.logs) : OpenFiles o file d' versions log c :=
  ⟨files.kept.frame (fun _ _ _ => by rw [tables]) fun _ _ _ => rfl,files.below,files.manifest,
    by rw [logs]; exact files.logs,files.number,files.prev,files.completes,files.version,files.places,
    fun n hn => (files.new n hn).frame (by rw [tables]) rfl⟩

/-- A snapshot and the edit bring back the version of the commit. -/
theorem OpenFiles.restores (files : OpenFiles o file d versions log c) (h : History K V) :
    Restores o file d versions.manifestFileNumber (openRecords h versions c) ∧
      (recoverRecords (openRecords h versions c)).version = c.version ∧
      (recoverRecords (openRecords h versions c)).log = log ∧
      (recoverRecords (openRecords h versions c)).last = versions.lastSequence := by
  have members : ∀ n ∈ versions.snapshot.newFiles, n.2 ∈ versions.current.files n.1 := by
    intro n hn
    obtain ⟨level,-,there⟩ := List.mem_flatMap.mp hn
    obtain ⟨f,hf,rfl⟩ := List.mem_map.mp there
    exact hf
  have tracks := (Recovered.start_tracks file).step (e := versions.snapshot)
    ⟨fun n hn => (files.kept.files _ _ (members n hn)).named,fun _ _ _ hg => absurd hg List.not_mem_nil⟩
  have whole : Version.empty.apply versions.snapshot = versions.current :=
    versions.apply_snapshot files.kept.levels files.kept.inOrder fun l f hf g hg =>
      eq_of_named (files.kept.files l f hf).named (files.kept.files l g hg).named
  rw [whole] at tracks
  have first : (recoverRecords [(⟨versions.snapshot,[]⟩ : ManifestRecord K V)]).Tracks file versions.current := tracks
  obtain ⟨restores,version,isLog,-,isLast⟩ := Restores.append (d := d) (o := o)
    (r := ⟨c.edit,h.before (c.edit.logNumber.getD 0)⟩) first files.kept rfl
    (fun n uses => by
      obtain ⟨l,f,hf,rfl⟩ := uses
      exact files.below _ f (first.named l f hf)) files.completes files.places
    (fun n hn => ⟨files.new n hn,files.below _ _ (files.new n hn).named⟩) files.number files.manifest
  exact ⟨restores,version.trans files.version.symm,isLog,isLast⟩

/-- `CURRENT` names the new manifest. -/
theorem OpenFiles.rename (files : OpenFiles o file d versions log c) (h : History K V) {number : Nat}
    {m : ManifestFile K V} (old : d.Files o file number m)
    (manifest : d'.manifests versions.manifestFileNumber = some ⟨openRecords h versions c,2⟩)
    (logs : d'.logs = d.logs) (tables : d'.tables = d.tables)
    (named : d'.currentFile = some (.line versions.manifestFileNumber)) :
    d'.Files o file versions.manifestFileNumber ⟨openRecords h versions c,2⟩ := by
  refine ⟨named,manifest,le_rfl,fun k low high => ?_,by rw [logs]; exact old.increasing,
    by rw [logs]; exact old.positive⟩
  have two : k = 2 := le_antisymm high low
  subst two
  exact (files.restores h).1.frame (fun _ _ _ => by rw [tables]) fun _ _ => rfl

/-- The database is open. -/
theorem OpenFiles.opened (files : OpenFiles o file d versions log c) (h : History K V) (loose : Bool)
    (disk : d.Files o file versions.manifestFileNumber ⟨openRecords h versions c,2⟩) :
    Core.Files o loose [] file ((Db.new (versions.install c) log).core d) ⟨openRecords h versions c,2⟩ := by
  have restores := files.restores h
  have logNumber : (versions.install c).logNumber = log := by
    simp [VersionSet.install,files.completes.log]
  refine ⟨disk,files.below,files.manifest,files.logs,files.number,?_,?_,?_,
    ⟨by rintro _ ⟨⟩,by rintro _ ⟨⟩,by rintro _ _ _ ⟨⟩,by rintro _ _ ⟨⟩⟩,fun _ => ⟨?_,fun _ => rfl,by rintro _ ⟨⟩⟩⟩
  · show (versions.install c).logNumber < _
    rw [logNumber]
    exact files.number
  · show c.edit.prevLogNumber.getD versions.prevLogNumber = 0
    rw [files.prev]
    exact files.completes.prev
  · rintro v (rfl | here | ⟨_,⟨⟩,-⟩ | ⟨_,⟨⟩,-⟩)
    · show c.version.Kept o file d
      rw [← restores.2.1]
      exact restores.1.kept
    · cases here
  · exact restores.2.1

end Open

/-- The manifest of a new database. -/
theorem newDb_files (o : Options K V) (file : Nat → Option (FileMetaData K)) (d : Disk K V) (logs : d.logs = [])
    (manifest : d.manifests 1 = some ⟨[⟨newDbEdit,[]⟩],1⟩) (named : d.currentFile = some (.line 1)) :
    d.Files o file 1 ⟨[⟨newDbEdit,[]⟩],1⟩ := by
  have none : ∀ n ∈ (newDbEdit : VersionEdit K).newFiles, False := fun n hn => absurd hn List.not_mem_nil
  have tracks : (recoverRecords ([] : List (ManifestRecord K V))).Tracks file Version.empty := Recovered.start_tracks file
  obtain ⟨restores,-⟩ := Restores.append (d := d) (o := o) (r := (⟨newDbEdit,[]⟩ : ManifestRecord K V)) tracks (Version.empty_kept o file d) rfl (fun n uses => absurd uses (Recovered.start_unused n))
    ⟨rfl,rfl,rfl,rfl⟩
    ⟨fun n hn => (none n hn).elim,fun n hn => (none n hn).elim,fun n hn => (none n hn).elim,fun n hn => (none n hn).elim⟩
    (fun n hn => (none n hn).elim) (by decide) (show 1 < 2 by decide)
  refine ⟨named,manifest,le_rfl,fun k low high => ?_,by simp [logs],by simp [logs]⟩
  have one : k = 1 := le_antisymm high low
  subst one
  exact restores

section States
variable {o : Options K V} {loose : Bool} {held : List (Version K)} {s s' : State K V}

theorem State.Files.disk (files : s.Files o loose held) :
    s.Fresh ∨ ∃ file number m, s.disk.Files o file number m := by
  rw [State.Files] at files
  split at files
  · exact files
  · exact .inl files.1
  · exact .inr files
  · obtain ⟨file,number,m,replay⟩ := files
    exact .inr ⟨file,number,m,replay.disk⟩
  · obtain ⟨file,-,-,-,rest⟩ := files
    split at rest
    · exact .inr ⟨file,_,_,rest⟩
    · obtain ⟨number,m,disk,-⟩ := rest
      exact .inr ⟨file,number,m,disk⟩
  · exact files.elim
  · obtain ⟨file,m,core⟩ := files
    exact .inr ⟨file,_,m,core.disk⟩

theorem State.Files.crash (files : s.Files o loose held) (cut : Cut) : (s.crash cut).Files o loose held := by
  rcases files.disk with fresh | ⟨file,number,m,disk⟩
  · exact .inl (fresh.crash cut)
  · exact .inr ⟨file,number,_,disk.crash cut⟩

theorem State.Files.openDb (files : s.Files o loose held) (step : s.openDb = some s') : s'.Files o loose held := by
  cases hp : s.process with
  | opening p => simp [State.openDb,hp] at step
  | running db => simp [State.openDb,hp] at step
  | down =>
    rw [State.Files,hp] at files
    cases current : s.disk.currentFile with
    | none =>
      simp only [State.openDb,hp,current,Option.some.injEq] at step
      subst step
      rcases files with fresh | ⟨file,number,m,disk⟩
      · exact ⟨⟨fresh.current,fresh.logs,fresh.history⟩,by simp [Disk.setManifest],by simp⟩
      · rw [disk.named] at current
        cases current
    | some n =>
      simp only [State.openDb,hp,current,Option.some.injEq] at step
      subst step
      rcases files with fresh | files
      · rw [fresh.current] at current
        cases current
      · exact files

theorem State.Files.newDb (files : s.Files o loose held) (step : s.newDb = some s') : s'.Files o loose held := by
  rw [State.newDb] at step
  split at step
  · rename_i hp
    rw [State.Files,hp] at files
    cases step
    obtain ⟨fresh,manifest,-⟩ := files
    refine ⟨⟨fresh.current,fresh.logs,fresh.history⟩,by simp [Disk.updateManifest,manifest,ManifestFile.sync],?_⟩
    rintro op ⟨⟩
    trivial
  · rename_i op hp
    rw [State.Files,hp] at files
    cases step
    obtain ⟨fresh,manifest,temp⟩ := files
    have there : (s.setCurrentFile 1 op).disk.manifests 1 = some ⟨[⟨newDbEdit,[]⟩],1⟩ := by
      rw [State.setCurrentFile_disk,setCurrentFile_manifests,manifest]
      rfl
    have logs : (s.setCurrentFile 1 op).disk.logs = [] := by
      rw [State.setCurrentFile_disk,setCurrentFile_logs,fresh.logs]
    rcases fresh.setCurrentFile (temp op rfl) with ⟨next,isNext,fresh',temp'⟩ | ⟨isNext,named⟩
    · simp only [isNext]
      refine ⟨⟨fresh'.current,fresh'.logs,fresh'.history⟩,there,?_⟩
      rintro op' ⟨⟩
      exact temp'
    · simp only [isNext]
      exact ⟨fun _ => none,1,_,newDb_files o _ _ logs there named⟩
  · cases step

/-- `Recover` finds a manifest that it can read and all tables of its version. -/
theorem Disk.Files.recovers {file : Nat → Option (FileMetaData K)} {number : Nat} {m : ManifestFile K V}
    (disk : s.disk.Files o file number m) (process : s.process = .opening .recover) :
    s.recover = some { s with process := .opening (.replay ⟨⟨(recoverRecords m.records).version,
        (recoverRecords m.records).next + 1,(recoverRecords m.records).next,(recoverRecords m.records).last,
        (recoverRecords m.records).log,0,(recoverRecords m.records).compactPointer⟩,.empty,
        s.disk.logsFrom (recoverRecords m.records).log 0,
        ((s.disk.logsFrom (recoverRecords m.records).log 0).head?.map s.disk.recordsOf).getD [],none,0,none⟩) } := by
  have whole := disk.whole
  have found : (s.disk.current.bind s.disk.manifests).bind ManifestFile.recover =
      (recoverRecords m.records).versionSet := by
    simp only [disk.current,Option.bind_some,disk.manifest]
    rfl
  have present : (recoverRecords m.records).version.numbers.all fun n => (s.disk.tables n).isSome := by
    refine List.all_eq_true.mpr fun n member => ?_
    obtain ⟨l,f,hf,rfl⟩ := Version.exists_of_mem_numbers member
    obtain ⟨entries,there,-⟩ := (whole.kept.files l f hf).table
    simp [there]
  rw [State.recover,process]
  simp only [found,whole.versionSet,present,if_true]

theorem State.Files.recover (files : s.Files o loose held) (step : s.recover = some s') : s'.Files o loose held := by
  have process : s.process = .opening .recover := by
    rw [State.recover] at step
    split at step
    · assumption
    · cases step
  rw [State.Files,process] at files
  obtain ⟨file,number,m,disk⟩ := files
  rw [disk.recovers process] at step
  cases step
  obtain ⟨file',replay⟩ := disk.startReplay
  exact ⟨file',number,m,replay⟩

theorem State.Files.replay (files : s.Files o loose held) (step : s.replay o = some s') : s'.Files o loose held := by
  obtain ⟨r,hp,outcome⟩ := replay_cases step
  rw [State.Files,hp] at files
  obtain ⟨file,number,m,files⟩ := files
  obtain ⟨n,table,rfl⟩ | ⟨n,table,rfl⟩ | ⟨b,rest,table,-,rfl⟩ | ⟨table,-,-,rfl⟩ | ⟨n,rest,table,-,-,logs,rfl⟩ |
    ⟨-,-,-,logs,rfl⟩ := outcome
  · simp only [State.Files,State.writeTable_process,State.writeTable_disk]
    exact ⟨file,number,m,files.writeTable table _ _⟩
  · exact ⟨_,number,m,files.syncTable table _⟩
  · exact ⟨file,number,m,files.insert table b rest⟩
  · exact ⟨file,number,m,files.beginTable⟩
  · exact ⟨file,number,m,files.nextLog table logs _⟩
  · obtain ⟨opened,disk⟩ := files.openLog logs
    refine ⟨file,opened,by simp,by simp,?_⟩
    rw [if_neg (by simp)]
    exact ⟨number,m,disk,files.older,files.current⟩

/-- The new manifest does not disturb the old one. -/
theorem Disk.Files.beside {file : Nat → Option (FileMetaData K)} {d : Disk K V} {number other : Nat}
    {m : ManifestFile K V} (files : d.Files o file number m) (ne : number ≠ other)
    (x : Option (ManifestFile K V)) :
    Disk.Files o file { d with manifests := Function.update d.manifests other x } number m :=
  files.frame rfl (by simp [ne]) (List.Sublist.refl _) (fun _ _ _ _ _ => rfl) fun _ _ => rfl

theorem State.Files.openCommit (files : s.Files o loose held) (none : held = []) (step : s.openCommit = some s') :
    s'.Files o loose held := by
  rw [State.openCommit] at step
  split at step
  · rename_i versions log c stage hp
    rw [State.Files,hp] at files
    obtain ⟨file,opened,manifest,temp,rest⟩ := files
    cases stage with
    | create =>
      rw [if_neg (by simp)] at rest
      obtain ⟨number,m,disk,older,current⟩ := rest
      cases step
      refine ⟨file,opened.frame rfl rfl,fun _ => by simp [Disk.setManifest,openManifest],by simp,?_⟩
      rw [if_neg (by simp)]
      exact ⟨number,m,disk.beside older.ne _,older,current⟩
    | append =>
      rw [if_neg (by simp)] at rest
      obtain ⟨number,m,disk,older,current⟩ := rest
      have there := manifest (by simp)
      cases step
      refine ⟨file,opened.frame rfl rfl,fun _ => ?_,by simp,?_⟩
      · simp [Disk.updateManifest,there,openManifest,ManifestFile.append,openRecords,State.manifestRecord]
      · rw [if_neg (by simp)]
        exact ⟨number,m,disk.beside older.ne _,older,current⟩
    | sync =>
      rw [if_neg (by simp)] at rest
      obtain ⟨number,m,disk,older,current⟩ := rest
      have there := manifest (by simp)
      cases step
      refine ⟨file,opened.frame rfl rfl,fun _ => ?_,by rintro op ⟨⟩; trivial,?_⟩
      · simp [Disk.updateManifest,there,openManifest,ManifestFile.sync,openRecords]
      · rw [if_neg (by simp)]
        exact ⟨number,m,disk.beside older.ne _,older,current⟩
    | setCurrent op =>
      rw [if_neg (by simp)] at rest
      obtain ⟨number,m,disk,older,current⟩ := rest
      have there : (s.disk.setCurrentFile versions.manifestFileNumber op).manifests versions.manifestFileNumber =
          some ⟨openRecords s.history versions c,2⟩ := by
        rw [setCurrentFile_manifests]
        exact manifest (by simp)
      cases step
      have after : OpenFiles o file (s.disk.setCurrentFile versions.manifestFileNumber op) versions log c :=
        opened.frame setCurrentFile_tables setCurrentFile_logs
      rcases (temp op rfl).advance with ⟨next,isNext,temp',same⟩ | ⟨rfl,named⟩
      · simp only [isNext,State.Files,State.setCurrentFile_disk,State.setCurrentFile_history]
        refine ⟨file,after,fun _ => there,?_,?_⟩
        · rintro op' ⟨⟩
          exact temp'
        · rw [if_neg (by simp)]
          exact ⟨number,m,disk.frame same (by rw [setCurrentFile_manifests]) (by rw [setCurrentFile_logs])
            (fun _ _ _ _ _ => by rw [setCurrentFile_tables]) fun _ _ => rfl,older,current⟩
      · refine ⟨file,after,fun _ => there,by rintro op ⟨⟩,?_⟩
        exact (if_pos rfl).mpr (opened.rename s.history disk there setCurrentFile_logs setCurrentFile_tables named)
    | install =>
      rw [if_pos rfl] at rest
      cases step
      subst none
      have core := opened.opened s.history loose rest
      obtain ⟨db,running,steps⟩ : Core.Leads o loose [] ((Db.new (versions.install c) log).core s.disk) _ :=
        removeObsoleteFiles_leads s (Db.new (versions.install c) log) none (fun _ => false) (by simp)
      rw [State.Files,running]
      exact core.run steps
  · cases step

theorem State.Files.stepOpen {l : Label K V} (files : s.Files o loose held) (none : held = [])
    (step : s.stepOpen o l = some s') : s'.Files o loose held := by
  cases l with
  | openDb => exact files.openDb step
  | newDb => exact files.newDb step
  | recover => exact files.recover step
  | replay => exact files.replay step
  | openCommit => exact files.openCommit none step
  | _ => cases step

/-- A step keeps the files that are needed, whatever fails. Readers hold versions of an
open database, and `RemoveObsoleteFiles` knows them. -/
theorem State.Files.step {l : Label K V} (files : s.Files o loose held) (manual : s.Manual)
    (strict : loose = true ∨ l.manifestOk = true) (closed : (∀ db, s.process ≠ .running db) → held = [])
    (pins : ∀ pinned, l = .installVersion pinned → ∀ v ∈ held, ∀ n ∈ v.numbers, pinned n = true)
    (step : s.step o l = some s') : s'.Files o loose held := by
  obtain ⟨cut,rfl,rfl⟩ | ⟨db,process,step⟩ | ⟨notRunning,step⟩ := step_cases step
  · exact files.crash cut
  · rw [State.Files,process] at files
    obtain ⟨file,m,core⟩ := files
    obtain ⟨db',running,steps⟩ := core_step process (manual db process) strict pins step
    rw [State.Files,running]
    exact core.run steps
  · exact files.stepOpen (closed notRunning) step

/-- What each step keeps, a run of a database without readers keeps, and its files. -/
theorem State.Files.run {P : State K V → Prop} {ls : List (Label K V)} (files : s.Files o loose []) (manual : s.Manual)
    (start : P s) (strict : loose = true ∨ ∀ l ∈ ls, l.manifestOk = true) (run : s.run o ls = some s')
    (keeps : ∀ l, ∀ s s' : State K V, s.Files o loose [] → s.Manual → s.step o l = some s' → P s → P s') :
    s'.Files o loose [] ∧ s'.Manual ∧ P s' := by
  induction ls generalizing s with
  | nil =>
    cases run
    exact ⟨files,manual,start⟩
  | cons l rest ih =>
    obtain ⟨next,step,later⟩ := Option.bind_eq_some_iff.mp run
    exact ih (files.step manual (strict.imp id fun all => all l List.mem_cons_self) (fun _ => rfl) (by simp) step)
      (manual.step step) (keeps l s next files manual step start)
      (strict.imp id fun all l hl => all l (List.mem_cons_of_mem _ hl)) later

/-- A state that a database reaches, whatever fails on the way. -/
theorem State.Files.of_run {P : State K V → Prop} {ls : List (Label K V)} (start : P .initial)
    (run : State.initial.run o ls = some s)
    (keeps : ∀ l, ∀ s s' : State K V, s.Files o true [] → s.Manual → s.step o l = some s' → P s → P s') :
    s.Files o true [] ∧ s.Manual ∧ P s :=
  State.Files.run (s := .initial) (.inl ⟨rfl,rfl,rfl⟩) (by rintro _ ⟨⟩) start (.inl rfl) run keeps

end States

end LevelDB
