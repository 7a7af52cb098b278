import LevelDB.SnapshotReads

/-! Every table in the directory, also one that no version has, holds its entries in
order: tables are written from memtables and from the sorted output of compactions. -/
namespace LevelDB

variable {K V : Type} [LinearOrder K]

def Disk.TablesOrdered (d : Disk K V) : Prop := ∀ n t, d.tables n = some t → OrderedEntries t.entries

section Disk
variable {d d' : Disk K V}

theorem Disk.TablesOrdered.of_tables (ordered : d.TablesOrdered) (same : d'.tables = d.tables) :
    d'.TablesOrdered := by
  intro n t there
  rw [same] at there
  exact ordered n t there

theorem Disk.TablesOrdered.setTable (ordered : d.TablesOrdered) (n : Nat) {t : TableFile K V}
    (entries : OrderedEntries t.entries) : (d.setTable n t).TablesOrdered := by
  intro k t' there
  by_cases same : k = n
  · subst same
    simp only [Disk.setTable,Function.update_self,Option.some.injEq] at there
    subst there
    exact entries
  · exact ordered k t' (by simpa [Disk.setTable,same] using there)

theorem Disk.TablesOrdered.withTable (ordered : d.TablesOrdered) (n : Nat) {imm : MemTable K V} (synced : Bool)
    (entries : OrderedEntries imm) : (d.withTable n imm synced).TablesOrdered := by
  rw [Disk.withTable]
  split
  · exact ordered
  · exact ordered.setTable n entries

theorem Disk.TablesOrdered.setTables (ordered : d.TablesOrdered) (outputs : List (Nat × List (Entry K V)))
    (entries : ∀ out ∈ outputs, OrderedEntries out.2) : (d.setTables outputs).TablesOrdered := by
  induction outputs generalizing d with
  | nil => exact ordered
  | cons out rest ih =>
    exact ih (ordered.setTable out.1 (entries out List.mem_cons_self))
      fun x hx => entries x (List.mem_cons_of_mem _ hx)

theorem Disk.TablesOrdered.remove (ordered : d.TablesOrdered) (f : FileName) : (d.remove f).TablesOrdered := by
  cases f with
  | log n | manifest n | temp n => exact ordered
  | current => exact ordered
  | table n =>
    intro k t there
    by_cases same : k = n
    · simp [Disk.remove,same] at there
    · exact ordered k t (by simpa [Disk.remove,same] using there)

theorem Disk.TablesOrdered.crash (ordered : d.TablesOrdered) (cut : Cut) : (d.crash cut).TablesOrdered := by
  intro n t there
  obtain ⟨old,before,rfl⟩ := Option.map_eq_some_iff.mp there
  rw [TableFile.cut]
  split
  · exact ordered n old before
  · exact List.Pairwise.sublist (List.take_sublist _ _) (ordered n old before)

end Disk

section Steps
variable {o : Options K V} {s s' : State K V} {db : Db K V} {l : Label K V}

omit [LinearOrder K] in
theorem recordBackgroundError_disk (s : State K V) (db : Db K V) :
    (s.recordBackgroundError db).disk = s.disk := by
  rw [State.recordBackgroundError]
  split <;> rfl

omit [LinearOrder K] in
theorem removeObsoleteFiles_disk (s : State K V) (db : Db K V) (outer : Option (CompactionState K V))
    (pinned : Nat → Bool) : (s.removeObsoleteFiles db outer pinned).disk = s.disk := by
  rw [State.removeObsoleteFiles]
  split <;> rfl

/-- Writers leave the tables alone. -/
theorem writer_tables (writer : l.background = false)
    (step : s.stepDb o db l = some s') : s'.disk.tables = s.disk.tables := by
  cases l with
  | enter id batch sync =>
    simp only [State.stepDb,State.enter] at step
    split at step <;> cases step
    rfl
  | lead =>
    simp only [State.stepDb,State.lead] at step
    split at step <;> cases step
    rfl
  | makeRoom newFile close =>
    obtain ⟨force,delay,w,rest,-,-,outcome⟩ := makeRoom_cases step
    obtain ⟨-,rfl⟩ | ⟨-,rfl⟩ | ⟨-,-,start⟩ | rfl | ⟨-,-,-,rfl⟩ := outcome
    · rfl
    · rfl
    · obtain ⟨w,rest,-,⟨-,rfl⟩ | ⟨b,-,-,rfl⟩⟩ := startGroup_cases start <;> rfl
    · rfl
    · rw [State.switchMemTable]
      split
      · rfl
      · rw [recordBackgroundError_disk]
        rfl
  | addRecord outcome =>
    obtain ⟨g,-,⟨-,rfl⟩ | ⟨-,rfl⟩ | ⟨-,rfl⟩ | ⟨-,-,rfl⟩⟩ := addRecord_cases step
    · rfl
    · rfl
    · rfl
    · rfl
  | syncLog status =>
    simp only [State.stepDb,State.syncLog] at step
    repeat' split at step
    all_goals cases step
    all_goals rfl
  | insertInto =>
    simp only [State.stepDb,State.insertInto] at step
    split at step <;> cases step
    rfl
  | finishWrite =>
    simp only [State.stepDb,State.finishWrite] at step
    split at step
    · cases step
      simp only [State.release,State.setDb]
      split <;> rfl
    · cases step
  | getSnapshot =>
    cases step
    rfl
  | releaseSnapshot snapshot =>
    cases step
    rfl
  | awaitFlush id =>
    simp only [State.stepDb,State.awaitFlush] at step
    split at step <;> cases step
    rfl
  | requestCompaction level first last =>
    simp only [State.stepDb,State.requestCompaction] at step
    split at step <;> cases step
    rfl
  | crash cut => cases step
  | openDb => cases step
  | newDb => cases step
  | recover => cases step
  | replay => cases step
  | openCommit => cases step
  | _ => cases writer

/-- What a compaction has written so far is in order. -/
theorem InProgress.ordered {d : Disk K V} {m : ManifestFile K V} {c : CompactionState K V}
    (progress : InProgress d db m c) : ∀ out ∈ c.files, OrderedEntries out.2 := by
  intro out member
  obtain ⟨done,loop,-⟩ := progress.loop
  have part : out.2.Sublist c.kept := List.sublist_flatten_of_mem (List.mem_map_of_mem member)
  exact SortedEntries.ordered (List.Pairwise.sublist
    (part.trans (loop.kept.trans (List.sublist_append_left done c.remaining))) loop.sorted)

/-- The table that `BuildTable` makes is a memtable. -/
theorem buildTable_ordered (ordered : s.disk.TablesOrdered) (memory : SortedEntries (db.imm.getD []))
    (step : s.buildTable o db .ok = some s') : s'.disk.TablesOrdered := by
  rw [State.buildTable] at step
  split at step
  · rename_i number stage outer imm job isImm
    rw [isImm] at memory
    simp only [ne_eq,not_true_eq_false,if_false,withTable_eq] at step
    split at step
    · cases step
      rw [State.writeTable_disk]
      exact ordered.withTable number false memory.ordered
    · cases step
      exact ordered.withTable number true memory.ordered
  · cases step

/-- What is on its way in an open database that keeps the invariant. -/
theorem State.Inv.inProgress (inv : s.Inv) (running : s.process = .running db) {c : CompactionState K V}
    (job : db.job.outer = some c) : ∀ out ∈ c.files, OrderedEntries out.2 := by
  obtain ⟨m,-,ok⟩ := inv.running running
  exact (ok.job.1 c job).ordered

theorem advance_ordered (ordered : s.disk.TablesOrdered) (after : s'.Inv)
    (step : s.advanceCompaction o db .ok = some s') : s'.disk.TablesOrdered := by
  rw [State.advanceCompaction] at step
  split at step
  · rename_i c job
    split at step
    · cases step
    simp only [reduceCtorEq,if_false,if_true,Option.some.injEq] at step
    have outputs : ∀ out ∈ (c.advance o db.versions.nextFileNumber).1.files, OrderedEntries out.2 := by
      subst step
      exact after.inProgress rfl rfl
    have written : ∀ out ∈ (c.advance o db.versions.nextFileNumber).1.outputs.drop c.outputs.length,
        OrderedEntries out.2 :=
      fun out member => outputs out (List.mem_append_left _ (List.mem_of_mem_drop member))
    subst step
    refine Disk.TablesOrdered.setTables ?_ _ written
    split
    · exact ordered.setTable _ List.Pairwise.nil
    · exact ordered
  · cases step

theorem finish_ordered (ordered : s.disk.TablesOrdered) (before : s.Inv) (running : s.process = .running db)
    (step : s.finishCompaction o db .ok = some s') : s'.disk.TablesOrdered := by
  rw [State.finishCompaction] at step
  split at step
  · rename_i c job
    simp only [ne_eq,not_true_eq_false,if_false] at step
    split at step
    · cases step
    cases step
    refine ordered.setTables _ fun out member => ?_
    exact before.inProgress running (by rw [job]; rfl) out (List.mem_append_right _ member)
  · cases step

/-- The steps of the background thread. -/
theorem background_ordered (ordered : s.disk.TablesOrdered) (before : s.Inv) (after : s'.Inv)
    (running : s.process = .running db) (background : l.background = true) (okay : l.ok = true)
    (step : s.stepDb o db l = some s') : s'.disk.TablesOrdered := by
  obtain ⟨m,-,ok⟩ := before.running running
  cases l with
  | beginFlush =>
    simp only [State.stepDb,State.beginFlush] at step
    repeat' split at step
    all_goals cases step
    all_goals exact ordered
  | buildTable status =>
    simp only [Label.ok,beq_iff_eq] at okay
    subst okay
    exact buildTable_ordered ordered ok.memory.immSorted step
  | pick trigger =>
    simp only [State.stepDb,State.pick] at step
    repeat' split at step
    all_goals cases step
    all_goals exact ordered
  | pickManual =>
    simp only [State.stepDb,State.pickManual] at step
    repeat' split at step
    all_goals cases step
    all_goals exact ordered
  | advanceCompaction status =>
    simp only [Label.ok,beq_iff_eq] at okay
    subst okay
    exact advance_ordered ordered after step
  | finishCompaction status =>
    simp only [Label.ok,beq_iff_eq] at okay
    subst okay
    exact finish_ordered ordered before running step
  | appendManifest status =>
    simp only [Label.ok,beq_iff_eq] at okay
    subst okay
    simp only [State.stepDb,State.appendManifest,reduceCtorEq,if_false,if_true] at step
    repeat' split at step
    all_goals cases step
    exact ordered
  | syncManifest status =>
    simp only [Label.ok,beq_iff_eq] at okay
    subst okay
    simp only [State.stepDb,State.syncManifest,ne_eq,not_true_eq_false,if_false] at step
    repeat' split at step
    all_goals cases step
    exact ordered
  | installVersion pinned =>
    simp only [State.stepDb,State.installVersion] at step
    repeat' split at step
    all_goals cases step
    · exact ordered.of_tables (by rw [removeObsoleteFiles_disk]; rfl)
    · exact ordered.of_tables (by rw [removeObsoleteFiles_disk]; rfl)
    · exact ordered
  | removeFile f =>
    simp only [State.stepDb,State.removeFile] at step
    repeat' split at step
    all_goals cases step
    exact ordered.remove f
  | removeDone =>
    simp only [State.stepDb,State.removeDone] at step
    split at step <;> cases step
    exact ordered
  | _ => cases background

/-- The steps of `DB::Open`. -/
theorem stepOpen_ordered (ordered : s.disk.TablesOrdered) (before : s.Inv)
    (step : s.stepOpen o l = some s') : s'.disk.TablesOrdered := by
  cases l with
  | openDb =>
    simp only [State.stepOpen,State.openDb] at step
    split at step
    · cases step
      split <;> exact ordered
    · cases step
  | newDb =>
    simp only [State.stepOpen,State.newDb] at step
    split at step
    · cases step
      exact ordered
    · cases step
      exact ordered.of_tables (by rw [State.setCurrentFile_disk,setCurrentFile_tables])
    · cases step
  | recover =>
    simp only [State.stepOpen,State.recover] at step
    split at step
    · cases step
      split
      · exact ordered
      · split <;> exact ordered
    · cases step
  | replay =>
    obtain ⟨r,opening,outcome⟩ := replay_cases step
    rw [State.Inv,opening] at before
    obtain ⟨number,m,-,ok⟩ := before
    obtain ⟨flushed,memory,-,-,sorted,-,-⟩ := ok.split
    obtain ⟨n,-,rfl⟩ | ⟨n,-,rfl⟩ | ⟨b,rest,-,-,rfl⟩ | ⟨-,-,-,rfl⟩ | ⟨n,rest,-,-,-,-,rfl⟩ | ⟨-,-,-,-,rfl⟩ := outcome
    · rw [State.writeTable_disk]
      exact ordered.withTable n false sorted.ordered
    · exact ordered.withTable n true sorted.ordered
    · exact ordered
    · exact ordered
    · exact ordered
    · exact ordered
  | openCommit =>
    simp only [State.stepOpen,State.openCommit] at step
    split at step
    · split at step <;> cases step
      · exact ordered
      · exact ordered
      · exact ordered
      · exact ordered.of_tables (by rw [State.setCurrentFile_disk,setCurrentFile_tables])
      · exact ordered.of_tables (by rw [removeObsoleteFiles_disk])
    · cases step
  | _ => cases step

theorem step_ordered (ordered : s.disk.TablesOrdered) (before : s.Inv) (after : s'.Inv) (okay : l.ok = true)
    (step : s.step o l = some s') : s'.disk.TablesOrdered := by
  obtain ⟨cut,rfl,rfl⟩ | ⟨db,running,step⟩ | ⟨-,step⟩ := step_cases step
  · exact ordered.crash cut
  · cases background : l.background with
    | false => exact ordered.of_tables (writer_tables background step)
    | true => exact background_ordered ordered before after running background okay step
  · exact stepOpen_ordered ordered before step

end Steps

/-- The tables of every run without I/O errors and manual compactions. -/
theorem tables_ordered {o : Options K V} {ls : List (Label K V)} {s : State K V} (okay : ∀ l ∈ ls, l.ok = true)
    (automatic : ∀ l ∈ ls, l.automatic = true) (run : State.initial.run o ls = some s) :
    s.disk.TablesOrdered := by
  refine (State.Regular.initial.run (P := fun t => t.disk.TablesOrdered) (fun n t there => by cases there) okay
    automatic run fun l hl t t' before after step ordered => ?_).2
  exact step_ordered ordered before.inv after.inv (okay l hl) step

end LevelDB
