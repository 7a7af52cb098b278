import LevelDB.Repair
import LevelDB.TableOrder

/-! The directory that `RepairDB` leaves, and how `DB::Open` finds it: the finished tables
keep their numbers, and the logs become tables after them in the order in which the
directory lists them. -/
namespace LevelDB

variable {K V : Type} [LinearOrder K]

def FileName.log? : FileName → Option Nat
  | .log n => some n
  | _ => none

def FileName.table? : FileName → Option Nat
  | .table n => some n
  | _ => none

/-- The entries of a table that was finished. -/
def Disk.finished (d : Disk K V) (n : Nat) : Option (List (Entry K V)) :=
  match d.tables n with
  | some ⟨entries,true⟩ => some entries
  | _ => none

/-- The files of a directory in the order in which repair ranks them. -/
def Disk.ranked (d : Disk K V) (filenames : List FileName) : List (List (Entry K V)) :=
  ((filenames.filterMap FileName.table?).insertionSort (· ≤ ·)).map (fun n => (d.finished n).getD []) ++
    (filenames.filterMap FileName.log?).map fun n => memOf (d.recordsOf n)

section Find
variable {d : Disk K V} {r : Repairer K V}

omit [LinearOrder K] in
/-- What `FindFiles` gathers. -/
theorem findFiles_spec (filenames : List FileName) (r : Repairer K V) :
    (r.findFiles filenames).disk = r.disk ∧ (r.findFiles filenames).tables = r.tables ∧
      (r.findFiles filenames).logs = r.logs ++ filenames.filterMap FileName.log? ∧
      (r.findFiles filenames).tableNumbers = r.tableNumbers ++ filenames.filterMap FileName.table? ∧
      r.nextFileNumber ≤ (r.findFiles filenames).nextFileNumber ∧
      ∀ n ∈ filenames.filterMap FileName.table?, n < (r.findFiles filenames).nextFileNumber := by
  induction filenames generalizing r with
  | nil => simp [Repairer.findFiles]
  | cons f rest ih =>
    obtain ⟨disk,tables,logs,numbers,next,below⟩ := ih (r.findFile f)
    have again : r.findFiles (f :: rest) = (r.findFile f).findFiles rest := rfl
    rw [again,disk,tables,logs,numbers]
    cases f with
    | manifest n => exact ⟨rfl,rfl,rfl,rfl,next,below⟩
    | temp n =>
      refine ⟨rfl,rfl,rfl,rfl,le_trans ?_ next,below⟩
      simp only [Repairer.findFile]
      split <;> omega
    | current =>
      refine ⟨rfl,rfl,rfl,rfl,le_trans ?_ next,below⟩
      simp only [Repairer.findFile]
      split <;> omega
    | log n =>
      refine ⟨rfl,rfl,by simp [FileName.log?,Repairer.findFile],rfl,le_trans ?_ next,below⟩
      simp only [Repairer.findFile]
      split <;> omega
    | table n =>
      have larger : r.nextFileNumber ≤ (r.findFile (.table n)).nextFileNumber ∧
          n < (r.findFile (.table n)).nextFileNumber := by
        simp only [Repairer.findFile]
        split <;> omega
      refine ⟨rfl,rfl,rfl,by simp [FileName.table?,Repairer.findFile],larger.1.trans next,?_⟩
      intro k hk
      simp only [FileName.table?,List.filterMap_cons,List.mem_cons] at hk
      rcases hk with rfl | later
      · exact larger.2.trans_le next
      · exact below k later

end Find

section Convert

/-- The tables that logs become, one number after the other. -/
def conversions (d : Disk K V) : Nat → List Nat → List (Nat × List (Entry K V))
  | _, [] => []
  | next, log :: rest => (next,memOf (d.recordsOf log)) :: conversions d (next + 1) rest

theorem conversions_congr {d d' : Disk K V} (logs : List Nat) (next : Nat)
    (same : ∀ n ∈ logs, d'.recordsOf n = d.recordsOf n) : conversions d' next logs = conversions d next logs := by
  induction logs generalizing next with
  | nil => rfl
  | cons log rest ih =>
    rw [conversions,conversions,same log List.mem_cons_self,
      ih (next + 1) fun n hn => same n (List.mem_cons_of_mem _ hn)]

theorem conversions_entries (d : Disk K V) (next : Nat) (logs : List Nat) :
    (conversions d next logs).map (·.2) = logs.map fun n => memOf (d.recordsOf n) := by
  induction logs generalizing next with
  | nil => rfl
  | cons log rest ih => rw [conversions,List.map_cons,List.map_cons,ih]

theorem conversions_numbers (d : Disk K V) (next : Nat) (logs : List Nat) :
    (conversions d next logs).map (·.1) = List.range' next logs.length := by
  induction logs generalizing next with
  | nil => rfl
  | cons log rest ih => rw [conversions,List.map_cons,ih,List.length_cons,List.range'_succ]

omit [LinearOrder K] in
theorem recordsOf_remove (d : Disk K V) {n log : Nat} (other : n ≠ log) :
    (d.remove (.log log)).recordsOf n = d.recordsOf n := by
  have find : (d.logs.filter fun l => decide (l.number ≠ log)).find? (fun l => l.number == n) =
      d.logs.find? fun l => l.number == n := by
    rw [List.find?_filter]
    congr 1
    funext l
    by_cases same : l.number = n
    · simp [same,other]
    · simp [same]
  rw [Disk.recordsOf,Disk.recordsOf,Disk.remove,find]

/-- The conversions that make a table. -/
def tablesMade (d : Disk K V) (next : Nat) (logs : List Nat) : List (Nat × List (Entry K V)) :=
  (conversions d next logs).filter fun c => !c.2.isEmpty

omit [LinearOrder K] in
theorem setTables_ofLogs (d : Disk K V) (logs : List (LogFile K V)) (outputs : List (Nat × List (Entry K V))) :
    ({ d with logs } : Disk K V).setTables outputs = { d.setTables outputs with logs } := by
  induction outputs generalizing d with
  | nil => rfl
  | cons out rest ih => exact ih (d.setTable out.1 ⟨out.2,true⟩)

/-- `ConvertLogFilesToTables`, log by log. -/
theorem convert_spec (logs : List Nat) (nodup : logs.Nodup) (r : Repairer K V) :
    logs.foldl (fun r log => (r.convertLogToTable log).archiveFile (.log log)) r =
      { r with
        disk := { r.disk.setTables (tablesMade r.disk r.nextFileNumber logs) with
          logs := r.disk.logs.filter fun l => decide (l.number ∉ logs) }
        tableNumbers := r.tableNumbers ++ (tablesMade r.disk r.nextFileNumber logs).map (·.1)
        nextFileNumber := r.nextFileNumber + logs.length } := by
  induction logs generalizing r with
  | nil => simp [tablesMade,conversions,Disk.setTables]
  | cons log rest ih =>
    obtain ⟨fresh,others⟩ := List.nodup_cons.mp nodup
    have filter : ∀ d : Disk K V, (d.logs.filter fun l => decide (l.number ≠ log)).filter
        (fun l => decide (l.number ∉ rest)) = d.logs.filter fun l => decide (l.number ∉ log :: rest) := by
      intro d
      rw [List.filter_filter]
      congr 1
      funext l
      simp [Bool.and_comm]
    have rest' : ∀ d : Disk K V, d.logs = r.disk.logs → conversions (d.remove (.log log))
        (r.nextFileNumber + 1) rest = conversions r.disk (r.nextFileNumber + 1) rest := by
      intro d same
      refine conversions_congr rest _ fun n hn => ?_
      have other : n ≠ log := fun equal => fresh (equal ▸ hn)
      rw [recordsOf_remove d other,Disk.recordsOf,Disk.recordsOf,same]
    have count : r.nextFileNumber + 1 + rest.length = r.nextFileNumber + (rest.length + 1) := by omega
    rw [List.foldl_cons,ih others]
    by_cases empty : memOf (r.disk.recordsOf log) = []
    · simp only [Repairer.convertLogToTable,empty,if_true,Repairer.archiveFile,tablesMade,conversions,
        rest' r.disk rfl,List.filter_cons,List.isEmpty_nil,Bool.not_true,Bool.false_eq_true,if_false]
      simp only [Disk.remove,setTables_ofLogs,filter,List.length_cons,count]
    · have some : (!(memOf (r.disk.recordsOf log)).isEmpty) = true := by simpa using empty
      simp only [Repairer.convertLogToTable,empty,if_false,Repairer.archiveFile,tablesMade,conversions,
        rest' (r.disk.setTable _ _) rfl,List.filter_cons,some,if_true]
      simp only [Disk.remove,setTables_ofLogs,filter,List.length_cons,List.map_cons,List.append_assoc,count]
      rfl

end Convert

section Scan
variable {o : Options K V}

/-- What `ScanTable` finds out about a table. -/
def tableInfo (o : Options K V) (d : Disk K V) (n : Nat) : Option (TableInfo K) :=
  (d.finished n).bind fun entries => (outputFile o n entries).map (⟨·,largestSequence entries⟩)

omit [LinearOrder K] in
/-- A scan leaves the finished tables alone. -/
theorem scanTable_spec (r : Repairer K V) (n : Nat) :
    (r.scanTable o n).tables = r.tables ++ (tableInfo o r.disk n).toList ∧
      (r.scanTable o n).disk.logs = r.disk.logs ∧
      r.nextFileNumber ≤ (r.scanTable o n).nextFileNumber ∧
      ∀ k < r.nextFileNumber, (r.scanTable o n).disk.finished k = r.disk.finished k := by
  cases there : r.disk.tables n with
  | none => simp [Repairer.scanTable,tableInfo,Disk.finished,there]
  | some t =>
    obtain ⟨entries,synced⟩ := t
    cases synced with
    | false =>
      refine ⟨by simp [Repairer.scanTable,tableInfo,Disk.finished,there,Repairer.repairTable],?_,?_,?_⟩
      · simp [Repairer.scanTable,there,Repairer.repairTable,Disk.remove,Disk.setTable]
      · simp [Repairer.scanTable,there,Repairer.repairTable]
      · intro k lt
        simp only [Repairer.scanTable,there,Repairer.repairTable,Disk.remove,Disk.setTable,Disk.finished]
        by_cases same : k = n
        · simp [same,there]
        · rw [Function.update_of_ne same,Function.update_of_ne (ne_of_lt lt)]
    | true =>
      cases made : outputFile o n entries <;>
      simp [Repairer.scanTable,tableInfo,Disk.finished,there,made]

omit [LinearOrder K] in
theorem extract_spec (ns : List Nat) (r : Repairer K V) (old : ∀ n ∈ ns, n < r.nextFileNumber) :
    (ns.foldl (Repairer.scanTable o) r).tables = r.tables ++ ns.filterMap (tableInfo o r.disk) ∧
      (ns.foldl (Repairer.scanTable o) r).disk.logs = r.disk.logs ∧
      ∀ k < r.nextFileNumber, (ns.foldl (Repairer.scanTable o) r).disk.finished k = r.disk.finished k := by
  induction ns generalizing r with
  | nil => simp
  | cons n rest ih =>
    obtain ⟨tables,logs,next,same⟩ := scanTable_spec (o := o) r n
    obtain ⟨allTables,allLogs,allSame⟩ := ih (r.scanTable o n) fun k hk =>
      (old k (List.mem_cons_of_mem _ hk)).trans_le next
    have infos : rest.filterMap (tableInfo o (r.scanTable o n).disk) = rest.filterMap (tableInfo o r.disk) := by
      refine List.filterMap_congr fun k hk => ?_
      rw [tableInfo,tableInfo,same k (old k (List.mem_cons_of_mem _ hk))]
    refine ⟨?_,allLogs.trans logs,fun k lt => (allSame k (lt.trans_le next)).trans (same k lt)⟩
    rw [List.foldl_cons,allTables,tables,infos,List.filterMap_cons]
    cases tableInfo o r.disk n <;> simp

end Scan

section Run
variable {o : Options K V} {d : Disk K V} {filenames : List FileName}

omit [LinearOrder K] in
theorem le_largest {α : Type} (g : α → Nat) (xs : List α) (start : Nat) :
    start ≤ xs.foldl (fun m x => if m < g x then g x else m) start ∧
      ∀ x ∈ xs, g x ≤ xs.foldl (fun m x => if m < g x then g x else m) start := by
  induction xs generalizing start with
  | nil => simp
  | cons x rest ih =>
    obtain ⟨first,later⟩ := ih (if start < g x then g x else start)
    rw [List.foldl_cons]
    refine ⟨le_trans ?_ first,fun y hy => ?_⟩
    · split <;> omega
    · rcases List.mem_cons.mp hy with rfl | rest
      · refine le_trans ?_ first
        split <;> omega
      · exact later y rest

omit [LinearOrder K] in
theorem outputFile_number {n : Nat} {entries : List (Entry K V)} {f : FileMetaData K}
    (made : outputFile o n entries = some f) : f.number = n := by
  rw [outputFile] at made
  obtain ⟨first,-,made⟩ := Option.bind_eq_some_iff.mp made
  obtain ⟨last,-,made⟩ := Option.bind_eq_some_iff.mp made
  cases made
  rfl

omit [LinearOrder K] in
theorem tableInfo_number {n : Nat} {t : TableInfo K} (info : tableInfo o d n = some t) : t.file.number = n := by
  obtain ⟨entries,-,made⟩ := Option.bind_eq_some_iff.mp info
  obtain ⟨f,output,rfl⟩ := Option.map_eq_some_iff.mp made
  exact outputFile_number output

/-- The directory after the scan: its finished tables and converted logs, by the numbers
that they have now. -/
structure Repairer.Ranks (o : Options K V) (r : Repairer K V) (files : List (Nat × List (Entry K V))) : Prop where
  increasing : files.Pairwise fun p q => p.1 < q.1
  logs : r.disk.logs = []
  finished : ∀ p ∈ files, p.2 ≠ [] → r.disk.finished p.1 = some p.2
  tables : ∀ t, t ∈ r.tables ↔ ∃ p ∈ files, ∃ f, outputFile o p.1 p.2 = some f ∧ t = ⟨f,largestSequence p.2⟩
  distinct : (r.tables.map (·.file)).Pairwise fun f g => f.number ≠ g.number

omit [LinearOrder K] in
theorem finished_setTables (d : Disk K V) (logs : List (LogFile K V)) (outputs : List (Nat × List (Entry K V)))
    {n : Nat} (other : n ∉ outputs.map (·.1)) :
    Disk.finished { d.setTables outputs with logs } n = d.finished n := by
  rw [Disk.finished,Disk.finished]
  simp only [(setTables_touches d outputs).tables n other]

omit [LinearOrder K] in
theorem Disk.Lists.numbers (lists : d.Lists filenames) :
    (filenames.filterMap FileName.log?).Nodup ∧ (filenames.filterMap FileName.table?).Nodup ∧
      (∀ l ∈ d.logs, l.number ∈ filenames.filterMap FileName.log?) ∧
      ∀ n, (d.tables n).isSome → n ∈ filenames.filterMap FileName.table? := by
  refine ⟨lists.nodup.filterMap ?_,lists.nodup.filterMap ?_,?_,?_⟩
  · rintro (n | n | n | n | _) (k | k | k | k | _) m hn hk <;> simp_all [FileName.log?]
  · rintro (n | n | n | n | _) (k | k | k | k | _) m hn hk <;> simp_all [FileName.table?]
  · intro l hl
    refine List.mem_filterMap.mpr ⟨.log l.number,(lists.contains _).mpr ?_,rfl⟩
    exact List.any_eq_true.mpr ⟨l,hl,by simp⟩
  · intro n there
    exact List.mem_filterMap.mpr ⟨.table n,(lists.contains _).mpr there,rfl⟩

theorem tablesMade_numbers (d : Disk K V) (next : Nat) (logs : List Nat) :
    ((tablesMade d next logs).map (·.1)).Sublist (List.range' next logs.length) := by
  rw [← conversions_numbers d next logs]
  exact List.filter_sublist.map _

/-- The directory after the conversion of the logs. -/
structure Repairer.Converted (d : Disk K V) (filenames : List FileName) (next : Nat) (r : Repairer K V) :
    Prop where
  tables : r.tables = []
  logs : r.disk.logs = []
  numbers : r.tableNumbers = filenames.filterMap FileName.table? ++
    (tablesMade d next (filenames.filterMap FileName.log?)).map (·.1)
  old : ∀ n ∈ filenames.filterMap FileName.table?, n < next ∧ r.disk.finished n = d.finished n
  made : ∀ p ∈ tablesMade d next (filenames.filterMap FileName.log?), r.disk.finished p.1 = some p.2
  below : ∀ n ∈ r.tableNumbers, n < r.nextFileNumber

theorem Repairer.converted (lists : d.Lists filenames) : ∃ next, Repairer.Converted d filenames next
    ((Repairer.new d).findFiles filenames).convertLogFilesToTables := by
  obtain ⟨nodup,-,listed,-⟩ := lists.numbers
  obtain ⟨disk,tables,logs,numbers,-,below⟩ := findFiles_spec filenames (Repairer.new d)
  set r := (Repairer.new d).findFiles filenames
  have isDisk : r.disk = d := disk
  have isLogs : r.logs = filenames.filterMap FileName.log? := logs
  have isNumbers : r.tableNumbers = filenames.filterMap FileName.table? := numbers
  have range := tablesMade_numbers d r.nextFileNumber (filenames.filterMap FileName.log?)
  have late : ∀ n ∈ (tablesMade d r.nextFileNumber (filenames.filterMap FileName.log?)).map (·.1),
      r.nextFileNumber ≤ n ∧ n < r.nextFileNumber + (filenames.filterMap FileName.log?).length :=
    fun n hn => List.mem_range'_1.mp (range.subset hn)
  refine ⟨r.nextFileNumber,?_⟩
  rw [Repairer.convertLogFilesToTables,isLogs,convert_spec _ nodup,isDisk,isNumbers]
  refine ⟨tables,?_,rfl,fun n hn => ⟨below n hn,?_⟩,fun p hp => ?_,fun n hn => ?_⟩
  · refine List.filter_eq_nil_iff.mpr fun l hl => ?_
    simpa using listed l hl
  · exact finished_setTables d _ _ fun hit => absurd (below n hn) (not_lt_of_ge (late n hit).1)
  · have written := setTables_written d _ (List.Pairwise.sublist range List.pairwise_lt_range') p hp
    simp only [Disk.finished,written]
  · rcases List.mem_append.mp hn with old | new
    · exact Nat.lt_add_right _ (below n old)
    · exact (late n new).2

/-- The ranked files with the numbers that they have after the conversion. -/
def Disk.rankedFrom (d : Disk K V) (filenames : List FileName) (next : Nat) : List (Nat × List (Entry K V)) :=
  ((filenames.filterMap FileName.table?).insertionSort (· ≤ ·)).map (fun n => (n,(d.finished n).getD [])) ++
    conversions d next (filenames.filterMap FileName.log?)

theorem rankedFrom_entries (d : Disk K V) (filenames : List FileName) (next : Nat) :
    (d.rankedFrom filenames next).map (·.2) = d.ranked filenames := by
  rw [Disk.rankedFrom,List.map_append,conversions_entries,Disk.ranked,List.map_map]
  rfl

theorem mem_rankedFrom {next : Nat} {p : Nat × List (Entry K V)} :
    p ∈ d.rankedFrom filenames next ↔
      p.1 ∈ filenames.filterMap FileName.table? ∧ p.2 = (d.finished p.1).getD [] ∨
        p ∈ conversions d next (filenames.filterMap FileName.log?) := by
  rw [Disk.rankedFrom,List.mem_append,List.mem_map]
  refine or_congr_left ⟨?_,?_⟩
  · rintro ⟨n,hn,rfl⟩
    exact ⟨(List.perm_insertionSort _ _).mem_iff.mp hn,rfl⟩
  · rintro ⟨hn,entries⟩
    exact ⟨p.1,(List.perm_insertionSort _ _).mem_iff.mpr hn,by rw [← entries]⟩

section Converted
variable {next : Nat} {r : Repairer K V}

theorem Repairer.Converted.increasing (converted : Repairer.Converted d filenames next r)
    (nodup : (filenames.filterMap FileName.table?).Nodup) :
    (d.rankedFrom filenames next).Pairwise fun p q => p.1 < q.1 := by
  refine List.pairwise_append.mpr ⟨List.pairwise_map.mpr ?_,?_,?_⟩
  · have order := List.pairwise_insertionSort (· ≤ ·) (filenames.filterMap FileName.table?)
    have distinct := (List.perm_insertionSort (· ≤ ·) (filenames.filterMap FileName.table?)).nodup_iff.mpr nodup
    exact (order.and distinct).imp fun both => lt_of_le_of_ne both.1 both.2
  · have order : ((conversions d next (filenames.filterMap FileName.log?)).map (·.1)).Pairwise (· < ·) := by
      rw [conversions_numbers]
      exact List.pairwise_lt_range'
    exact List.pairwise_map.mp order
  · intro p hp q hq
    obtain ⟨n,hn,rfl⟩ := List.mem_map.mp hp
    have late : q.1 ∈ (conversions d next (filenames.filterMap FileName.log?)).map (·.1) :=
      List.mem_map_of_mem hq
    rw [conversions_numbers,List.mem_range'_1] at late
    exact (converted.old n ((List.perm_insertionSort _ _).mem_iff.mp hn)).1.trans_le late.1

/-- A file that holds something is a finished table now. -/
theorem Repairer.Converted.finished (converted : Repairer.Converted d filenames next r)
    {p : Nat × List (Entry K V)} (member : p ∈ d.rankedFrom filenames next) (holds : p.2 ≠ []) :
    p.1 ∈ r.tableNumbers ∧ r.disk.finished p.1 = some p.2 := by
  rw [converted.numbers]
  rcases mem_rankedFrom.mp member with ⟨table,entries⟩ | log
  · refine ⟨List.mem_append_left _ table,?_⟩
    rw [(converted.old p.1 table).2]
    cases done : d.finished p.1 with
    | none =>
      rw [done] at entries
      exact absurd entries holds
    | some xs =>
      rw [entries,done]
      rfl
  · have made : p ∈ tablesMade d next (filenames.filterMap FileName.log?) :=
      List.mem_filter.mpr ⟨log,by simpa using holds⟩
    exact ⟨List.mem_append_right _ (List.mem_map_of_mem made),converted.made p made⟩

/-- There are no other finished tables. -/
theorem Repairer.Converted.ranked (converted : Repairer.Converted d filenames next r) {n : Nat}
    {entries : List (Entry K V)} (member : n ∈ r.tableNumbers) (done : r.disk.finished n = some entries) :
    (n,entries) ∈ d.rankedFrom filenames next := by
  rw [converted.numbers] at member
  rcases List.mem_append.mp member with table | log
  · rw [(converted.old n table).2] at done
    exact mem_rankedFrom.mpr (.inl ⟨table,by rw [done]; rfl⟩)
  · obtain ⟨p,hp,rfl⟩ := List.mem_map.mp log
    rw [converted.made p hp] at done
    cases done
    exact mem_rankedFrom.mpr (.inr (List.mem_filter.mp hp).1)

theorem Repairer.Converted.distinct (converted : Repairer.Converted d filenames next r)
    (nodup : (filenames.filterMap FileName.table?).Nodup) : r.tableNumbers.Nodup := by
  have range := tablesMade_numbers d next (filenames.filterMap FileName.log?)
  rw [converted.numbers]
  refine List.nodup_append.mpr ⟨nodup,List.Nodup.sublist range List.nodup_range',?_⟩
  intro n hn k hk
  have := (converted.old n hn).1
  have := List.mem_range'_1.mp (range.subset hk)
  omega

end Converted

/-- The run of the repairer ranks the files of the directory. -/
theorem Repairer.run_ranks (lists : d.Lists filenames) :
    ∃ files, files.map (·.2) = d.ranked filenames ∧ (Repairer.run o d filenames).Ranks o files := by
  obtain ⟨next,converted⟩ := Repairer.converted lists
  obtain ⟨-,nodup,-,-⟩ := lists.numbers
  set r := ((Repairer.new d).findFiles filenames).convertLogFilesToTables
  have run : Repairer.run o d filenames = r.tableNumbers.foldl (Repairer.scanTable o) r := rfl
  obtain ⟨tables,logs,finished⟩ := extract_spec (o := o) r.tableNumbers r converted.below
  rw [converted.tables,List.nil_append] at tables
  refine ⟨d.rankedFrom filenames next,rankedFrom_entries d filenames next,?_⟩
  rw [run]
  refine ⟨converted.increasing nodup,logs.trans converted.logs,?_,?_,?_⟩
  · intro p hp holds
    obtain ⟨member,done⟩ := converted.finished hp holds
    rw [finished p.1 (converted.below p.1 member),done]
  · intro t
    rw [tables,List.mem_filterMap]
    simp only [tableInfo,Option.bind_eq_some_iff,Option.map_eq_some_iff]
    constructor
    · rintro ⟨n,hn,entries,done,f,output,rfl⟩
      exact ⟨(n,entries),converted.ranked hn done,f,output,rfl⟩
    · rintro ⟨p,hp,f,output,rfl⟩
      have holds : p.2 ≠ [] := by
        intro empty
        simp [empty,outputFile] at output
      obtain ⟨member,done⟩ := converted.finished hp holds
      exact ⟨p.1,member,p.2,done,f,output,rfl⟩
  · rw [tables,List.pairwise_map]
    refine List.Pairwise.filterMap _ ?_ (converted.distinct nodup)
    intro n k other t ht u hu same
    rw [tableInfo_number ht,tableInfo_number hu] at same
    exact other same

end Run

section Reopen
variable {o : Options K V}

/-- An edit without files changes nothing. -/
theorem Version.apply_nothing (v : Version K) {e : VersionEdit K} (noNew : e.newFiles = [])
    (noDeleted : e.deletedFiles = []) : v.apply e = v := by
  have same : ∀ level, saveLevel (v.files level) [] = v.files level := fun level => by
    cases v.files level <;> rfl
  simp [Version.apply,Builder.apply,noNew,noDeleted,Builder.saveTo,Builder.new,same]

/-- The version that the new manifest describes: every table is at level 0. -/
theorem mem_repaired {r : Repairer K V}
    (distinct : (r.tables.map (·.file)).Pairwise fun f g => f.number ≠ g.number) (level : Nat)
    (f : FileMetaData K) :
    f ∈ (Version.empty.apply r.edit).files level ↔ level = 0 ∧ f ∈ r.tables.map (·.file) := by
  have new : ∀ level f, f ∈ r.edit.newAt level ↔ level = 0 ∧ f ∈ r.tables.map (·.file) := by
    intro level f
    rw [mem_newAt]
    simp only [Repairer.edit,List.mem_map,Prod.mk.injEq]
    constructor
    · rintro ⟨t,ht,rfl,rfl⟩
      exact ⟨rfl,t,ht,rfl⟩
    · rintro ⟨rfl,t,ht,rfl⟩
      exact ⟨t,ht,rfl,rfl⟩
  have named := named_of_pairwise distinct
  have fresh : r.edit.FreshFor (Builder.new Version.empty) := by
    refine ⟨fun _ _ _ g hg => absurd hg List.not_mem_nil,fun _ _ _ g hg => absurd hg List.not_mem_nil,?_⟩
    intro level f hf g hg
    exact named f ((new level f).mp hf).2 g ((new level g).mp hg).2
  obtain ⟨-,members⟩ := (Version.empty : Version K).mem_apply r.edit (fun _ => List.Pairwise.nil) fresh
  rw [members,new]
  exact or_iff_left fun old => absurd old.1 List.not_mem_nil

/-- The rest of `DB::Open` when there is no log to replay. -/
theorem open_without_logs (s : State K V) {vs : VersionSet K}
    (opening : s.process = .opening (.replay ⟨vs,.empty,[],[],none,0,none⟩)) :
    ∃ s' db, s.run o (.replay :: List.replicate 8 .openCommit) = some s' ∧ s'.process = .running db ∧
      s'.disk.tables = s.disk.tables ∧ db.mem = [] ∧ db.imm = none ∧
      db.versions.lastSequence = vs.lastSequence ∧ db.versions.current = vs.current := by
  obtain ⟨disk,process,history,trace⟩ := s
  cases opening
  exact ⟨_,_,rfl,rfl,rfl,rfl,rfl,Nat.max_zero vs.lastSequence,Version.apply_nothing vs.current rfl rfl⟩

/-- `DB::Open` of a repaired directory. -/
theorem reopen {s : State K V} {r : Repairer K V} {covered : History K V} (down : s.process = .down)
    (named : s.disk.currentFile = some (.line 1)) (manifest : s.disk.manifests 1 = some ⟨[⟨r.edit,covered⟩],0⟩)
    (logs : s.disk.logs = []) (present : ∀ t ∈ r.tables, (s.disk.tables t.file.number).isSome)
    (distinct : (r.tables.map (·.file)).Pairwise fun f g => f.number ≠ g.number) :
    ∃ s' db, s.run o reopenRun = some s' ∧ s'.process = .running db ∧ s'.disk.tables = s.disk.tables ∧
      db.mem = [] ∧ db.imm = none ∧ db.versions.lastSequence = r.edit.lastSequence.getD 0 ∧
      db.versions.current = Version.empty.apply r.edit := by
  set vs : VersionSet K := ⟨Version.empty.apply r.edit,r.nextFileNumber + 1,r.nextFileNumber,
    r.edit.lastSequence.getD 0,0,0,fun _ => none⟩ with isVs
  have recovered : (s.disk.current.bind s.disk.manifests).bind ManifestFile.recover = some vs := by
    rw [Disk.current_line named,Option.bind_some,manifest]
    rfl
  have found : (vs.current.numbers.all fun n => (s.disk.tables n).isSome) = true := by
    refine List.all_eq_true.mpr fun n hn => ?_
    obtain ⟨level,-,inLevel⟩ := List.mem_flatMap.mp hn
    obtain ⟨f,hf,rfl⟩ := List.mem_map.mp inLevel
    obtain ⟨t,ht,rfl⟩ := List.mem_map.mp ((mem_repaired distinct level f).mp hf).2
    exact present t ht
  have noLogs : s.disk.logsFrom vs.logNumber vs.prevLogNumber = [] := by
    simp [Disk.logsFrom,logs]
  have opens : s.step o .openDb = some { s with process := .opening .recover } := by
    simp only [State.step,down,State.stepOpen,State.openDb,named]
  have recovers : ({ s with process := .opening .recover } : State K V).step o .recover =
      some { s with process := .opening (.replay ⟨vs,.empty,[],[],none,0,none⟩) } := by
    simp only [State.step,State.stepOpen,State.recover,recovered,found,if_true,noLogs,List.head?_nil,
      Option.map_none,Option.getD_none]
  have run : s.run o reopenRun = ({ s with process := .opening (.replay ⟨vs,.empty,[],[],none,0,none⟩) } :
      State K V).run o (.replay :: List.replicate 8 .openCommit) := by
    rw [reopenRun,List.cons_append,List.cons_append,List.cons_append,List.nil_append,State.run,opens,Option.bind_some,State.run,
      recovers,Option.bind_some]
  obtain ⟨s',db,steps,running,tables,mem,imm,last,version⟩ := open_without_logs (o := o)
    ({ s with process := .opening (.replay ⟨vs,.empty,[],[],none,0,none⟩) } : State K V) rfl
  exact ⟨s',db,run.trans steps,running,tables,mem,imm,last,version⟩

end Reopen

end LevelDB
