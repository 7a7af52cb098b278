import LevelDB.RepairFiles
import LevelDB.SeekStats

/-! What a repaired database reads. Level 0 is searched from the largest file number down,
so the last file that holds a key decides. Compactions give old entries new numbers, and
then it need not hold the newest entry. -/
namespace LevelDB

variable {K V : Type} [LinearOrder K]

/-- No entry of the same user key is newer. -/
def NewestIn (entries : List (Entry K V)) (e : Entry K V) : Prop :=
  ∀ b ∈ entries, b.userKey = e.userKey → b.sequence ≤ e.sequence

instance (entries : List (Entry K V)) (e : Entry K V) : Decidable (NewestIn entries e) :=
  inferInstanceAs (Decidable (∀ b ∈ entries, b.userKey = e.userKey → b.sequence ≤ e.sequence))

/-- The newest entry of a key in the last file that holds the key is the newest of `live`. -/
def LastIsNewest (live : List (Entry K V)) : List (List (Entry K V)) → Prop
  | [] => True
  | file :: later =>
    (∀ e ∈ file, NewestIn file e → (∀ x ∈ later, ∀ b ∈ x, b.userKey ≠ e.userKey) →
      e ∈ live ∧ NewestIn live e) ∧ LastIsNewest live later

/-- What the memtables and the current version hold. -/
def Db.contents (db : Db K V) (tables : Tables K V) : List (Entry K V) :=
  db.mem ++ db.imm.getD [] ++ (List.range kNumLevels).flatMap fun level =>
    (db.versions.current.files level).flatMap fun f => tables f.number

section Lookup
variable {o : Options K V} {tables : Tables K V} {user : K} {snapshot : Nat}

theorem getFrom_absent {entries : List (Entry K V)} (absent : ∀ e ∈ entries, e.userKey ≠ user) :
    getFrom entries user snapshot = .notFound := by
  rw [getFrom]
  cases found : seek entries (lookupKey user snapshot) with
  | none => rfl
  | some e => simp [saveValue,absent e (List.mem_of_find?_eq_some found)]

theorem searchFiles_absent (files : List (FileMetaData K))
    (absent : ∀ f ∈ files, ∀ e ∈ tables f.number, e.userKey ≠ user) :
    searchFiles tables user snapshot files = .notFound := by
  induction files with
  | nil => rfl
  | cons f rest ih =>
    rw [searchFiles_cons,getFrom_absent (absent f List.mem_cons_self),
      ih fun g hg => absent g (List.mem_cons_of_mem _ hg)]
    rfl

/-- A table that holds a key that is visible has an answer. -/
theorem getFrom_newest {entries : List (Entry K V)} (ordered : OrderedEntries entries)
    (holds : ∃ e ∈ entries, e.userKey = user) (visible : ∀ e ∈ entries, e.sequence ≤ snapshot) :
    ∃ e ∈ entries, e.userKey = user ∧ NewestIn entries e ∧
      getFrom entries user snapshot = e.value.elim .deleted .found := by
  rcases getFrom_finds entries ordered user snapshot with ⟨e,first,state⟩ | ⟨absent,-⟩
  · have newest := first.newest
    refine ⟨e,newest.member,newest.same,fun b hb same => ?_,state⟩
    exact newest.newest b hb (same.trans newest.same) (visible b hb)
  · obtain ⟨e,he,same⟩ := holds
    exact absurd (visible e he) (absent e he same)

theorem outputFile_range {n : Nat} {entries : List (Entry K V)} {f : FileMetaData K}
    (made : outputFile o n entries = some f) (ordered : OrderedEntries entries) :
    ∀ e ∈ entries, f.smallest.userKey ≤ e.userKey ∧ e.userKey ≤ f.largest.userKey := by
  rw [outputFile] at made
  obtain ⟨first,head,made⟩ := Option.bind_eq_some_iff.mp made
  obtain ⟨last,final,made⟩ := Option.bind_eq_some_iff.mp made
  cases made
  intro e he
  constructor
  · obtain ⟨rest,rfl⟩ := List.head?_eq_some_iff.mp head
    rcases List.mem_cons.mp he with rfl | later
    · exact le_rfl
    · exact InternalKey.userKey_le ((List.pairwise_cons.mp ordered).1 e later)
  · obtain ⟨before,rfl⟩ := List.getLast?_eq_some_iff.mp final
    rcases List.mem_append.mp he with early | rest
    · exact InternalKey.userKey_le ((List.pairwise_append.mp ordered).2.2 e early last (by simp))
    · rw [List.mem_singleton.mp rest]
      exact le_rfl

omit [LinearOrder K] in
theorem exists_outputFile (o : Options K V) (n : Nat) {entries : List (Entry K V)} (holds : entries ≠ []) :
    ∃ f, outputFile o n entries = some f := by
  rw [outputFile,List.head?_eq_some_head holds,List.getLast?_eq_some_getLast holds]
  exact ⟨_,rfl⟩

end Lookup

section Ranked
variable {o : Options K V} {r : Repairer K V} {files before after : List (Nat × List (Entry K V))}
  {tables : Tables K V} {user : K} {snapshot : Nat} {p : Nat × List (Entry K V)}

/-- A version with nothing below level 0. -/
theorem get_level0 (v : Version K) (level0 : ∀ level f, f ∈ v.files level → level = 0) :
    v.get tables user snapshot = searchFiles tables user snapshot (v.overlapping0 user) := by
  have none : ∀ level ∈ List.range' 1 (kNumLevels - 1), v.overlappingAt user (lookupKey user snapshot) level = [] := by
    intro level member
    have empty : v.files level = [] := by
      refine List.eq_nil_iff_forall_not_mem.mpr fun f hf => ?_
      have := level0 level f hf
      have := (List.mem_range'_1.mp member).1
      omega
    simp [Version.overlappingAt,empty]
  rw [Version.get,Version.forEachOverlapping,List.flatMap_eq_nil_iff.mpr none,List.append_nil]

omit [LinearOrder K] in
theorem outputFile_ne_nil {n : Nat} {entries : List (Entry K V)} {f : FileMetaData K}
    (made : outputFile o n entries = some f) : entries ≠ [] := by
  rintro rfl
  simp [outputFile] at made

/-- The level-0 files of a repaired database, and what a read finds in them. -/
theorem Repairer.Ranks.mem_overlapping0 (ranks : r.Ranks o files)
    (contents : ∀ q ∈ files, q.2 ≠ [] → tables q.1 = q.2) (f : FileMetaData K) :
    f ∈ (Version.empty.apply r.edit).overlapping0 user ↔
      (∃ q ∈ files, outputFile o q.1 q.2 = some f ∧ f.number = q.1 ∧ tables f.number = q.2) ∧
        f.smallest.userKey ≤ user ∧ user ≤ f.largest.userKey := by
  rw [Version.overlapping0,(List.perm_insertionSort _ _).mem_iff,List.mem_filter,mem_repaired ranks.distinct,
    List.mem_map]
  simp only [ranks.tables,true_and,Bool.and_eq_true,decide_eq_true_eq]
  refine and_congr_left fun _ => ⟨?_,?_⟩
  · rintro ⟨t,⟨q,hq,g,output,rfl⟩,rfl⟩
    refine ⟨q,hq,output,outputFile_number output,?_⟩
    rw [outputFile_number output,contents q hq (outputFile_ne_nil output)]
  · rintro ⟨q,hq,output,-⟩
    exact ⟨_,⟨q,hq,f,output,rfl⟩,rfl⟩

/-- A file in front of another one has a larger number. -/
theorem overlapping0_order (v : Version K) {front back : List (FileMetaData K)} {f : FileMetaData K}
    (list : v.overlapping0 user = front ++ f :: back) : ∀ g ∈ front, f.number ≤ g.number := by
  have sorted := List.pairwise_insertionSort (fun a b : FileMetaData K => b.number ≤ a.number)
    ((v.files 0).filter fun f => decide (f.smallest.userKey ≤ user) && decide (user ≤ f.largest.userKey))
  rw [Version.overlapping0] at list
  rw [list] at sorted
  exact fun g hg => (List.pairwise_append.mp sorted).2.2 g hg f List.mem_cons_self

/-- The search of a repaired database stops at the last file that holds the key. -/
theorem Repairer.Ranks.search (ranks : r.Ranks o files) (contents : ∀ q ∈ files, q.2 ≠ [] → tables q.1 = q.2)
    (ordered : ∀ q ∈ files, OrderedEntries q.2) (split : files = before ++ p :: after)
    (holds : ∃ e ∈ p.2, e.userKey = user) (later : ∀ q ∈ after, ∀ e ∈ q.2, e.userKey ≠ user)
    (visible : ∀ e ∈ p.2, e.sequence ≤ snapshot) :
    searchFiles tables user snapshot ((Version.empty.apply r.edit).overlapping0 user) =
      getFrom p.2 user snapshot := by
  have member : p ∈ files := by simp [split]
  obtain ⟨e,he,same⟩ := holds
  have isTable := contents p member (List.ne_nil_of_mem he)
  obtain ⟨f,made⟩ := exists_outputFile o p.1 (List.ne_nil_of_mem he)
  have number := outputFile_number made
  have range := outputFile_range made (ordered p member) e he
  rw [same] at range
  have found : f ∈ (Version.empty.apply r.edit).overlapping0 user :=
    (ranks.mem_overlapping0 contents f).mpr ⟨⟨p,member,made,number,by rw [number,isTable]⟩,range⟩
  obtain ⟨front,back,list,new⟩ := List.eq_append_cons_of_mem found
  -- files in front have larger numbers, so they come after `p`
  have absent : ∀ g ∈ front, ∀ b ∈ tables g.number, b.userKey ≠ user := by
    intro g hg
    have inFront : g ∈ (Version.empty.apply r.edit).overlapping0 user := by simp [list,hg]
    obtain ⟨⟨q,hq,output,isNumber,entries⟩,-⟩ := (ranks.mem_overlapping0 contents g).mp inFront
    have larger := overlapping0_order _ list g hg
    rw [number,isNumber] at larger
    rw [entries]
    have increasing := ranks.increasing
    rw [split] at hq increasing
    obtain ⟨-,tail,across⟩ := List.pairwise_append.mp increasing
    rcases List.mem_append.mp hq with early | rest
    · exact absurd (across q early p List.mem_cons_self) (not_lt_of_ge larger)
    · rcases List.mem_cons.mp rest with rfl | late
      · rw [made] at output
        cases output
        exact absurd hg new
      · exact later q late
  obtain ⟨newest,-,-,-,state⟩ := getFrom_newest (ordered p member) ⟨e,he,same⟩ visible
  rw [list,searchFiles_append,searchFiles_absent front absent,searchFiles_cons,number,isTable,state]
  cases newest.value <;> rfl

/-- A key that no file holds is not found. -/
theorem Repairer.Ranks.search_absent (ranks : r.Ranks o files)
    (contents : ∀ q ∈ files, q.2 ≠ [] → tables q.1 = q.2) (absent : ∀ q ∈ files, ∀ e ∈ q.2, e.userKey ≠ user) :
    searchFiles tables user snapshot ((Version.empty.apply r.edit).overlapping0 user) = .notFound := by
  refine searchFiles_absent _ fun g hg => ?_
  obtain ⟨⟨q,hq,-,-,entries⟩,-⟩ := (ranks.mem_overlapping0 contents g).mp hg
  rw [entries]
  exact absent q hq

omit [LinearOrder K] in
/-- Everything in the files is visible after the repair. -/
theorem Repairer.Ranks.visible (ranks : r.Ranks o files) (member : p ∈ files) :
    ∀ e ∈ p.2, e.sequence ≤ r.edit.lastSequence.getD 0 := by
  intro e he
  obtain ⟨f,made⟩ := exists_outputFile o p.1 (List.ne_nil_of_mem he)
  have info : (⟨f,largestSequence p.2⟩ : TableInfo K) ∈ r.tables := (ranks.tables _).mpr ⟨p,member,f,made,rfl⟩
  have inFile : e.sequence ≤ largestSequence p.2 := (le_largest (·.sequence) p.2 0).2 e he
  exact inFile.trans ((le_largest (fun t : TableInfo K => t.maxSequence) r.tables 0).2 _ info)

/-- Either no file holds the key, or there is a last one that does. -/
theorem LastIsNewest.find {live : List (Entry K V)} (last : LastIsNewest live (files.map (·.2))) (user : K) :
    (∀ q ∈ files, ∀ e ∈ q.2, e.userKey ≠ user) ∨
      ∃ before p after, files = before ++ p :: after ∧ (∃ e ∈ p.2, e.userKey = user) ∧
        (∀ q ∈ after, ∀ e ∈ q.2, e.userKey ≠ user) ∧
        ∀ e ∈ p.2, e.userKey = user → NewestIn p.2 e → e ∈ live ∧ NewestIn live e := by
  induction files with
  | nil => exact .inl fun q hq => absurd hq List.not_mem_nil
  | cons p rest ih =>
    obtain ⟨here,later⟩ := last
    rcases ih later with absent | ⟨before,q,after,rfl,found⟩
    · by_cases holds : ∃ e ∈ p.2, e.userKey = user
      · refine .inr ⟨[],p,rest,rfl,holds,absent,?_⟩
        rintro e he rfl newest
        refine here e he newest fun x hx => ?_
        obtain ⟨q,hq,rfl⟩ := List.mem_map.mp hx
        exact absent q hq
      · left
        intro q hq e he same
        rcases List.mem_cons.mp hq with rfl | inRest
        · exact holds ⟨e,he,same⟩
        · exact absent q inRest e he same
    · exact .inr ⟨p :: before,q,after,rfl,found⟩

end Ranked

section MemOf

theorem mem_memOf (records : List (WriteBatch K V)) (e : Entry K V) :
    e ∈ memOf records ↔ ∃ b ∈ records, e ∈ b.entries := by
  have add : ∀ (entries : List (Entry K V)) (mem : MemTable K V),
      e ∈ entries.foldl MemTable.add mem ↔ e ∈ entries ∨ e ∈ mem := by
    intro entries
    induction entries with
    | nil => simp
    | cons a rest ih =>
      intro mem
      rw [List.foldl_cons,ih,mem_add,List.mem_cons]
      tauto
  have all : ∀ mem : MemTable K V, e ∈ records.foldl (fun mem b => b.insertInto mem) mem ↔
      (∃ b ∈ records, e ∈ b.entries) ∨ e ∈ mem := by
    induction records with
    | nil => simp
    | cons b rest ih =>
      intro mem
      rw [List.foldl_cons,ih,WriteBatch.insertInto,add]
      simp only [List.mem_cons,exists_eq_or_imp,or_assoc]
      exact or_left_comm
  simpa [memOf] using all []

theorem memOf_ordered (records : List (WriteBatch K V)) : OrderedEntries (memOf records) :=
  List.foldlRecOn records _ List.Pairwise.nil fun _ ordered b _ => insertInto_ordered b ordered

end MemOf

section Live
variable {d : Disk K V} {h : History K V} {m : ManifestFile K V} {db : Db K V} {filenames : List FileName}

theorem Disk.TablesOrdered.ranked (ordered : d.TablesOrdered) (filenames : List FileName) :
    ∀ file ∈ d.ranked filenames, OrderedEntries file := by
  intro file member
  rcases List.mem_append.mp member with table | log
  · obtain ⟨n,-,rfl⟩ := List.mem_map.mp table
    cases there : d.tables n with
    | none => simp [Disk.finished,there,OrderedEntries]
    | some t =>
      obtain ⟨entries,synced⟩ := t
      cases synced with
      | false => simp [Disk.finished,there,OrderedEntries]
      | true => simpa [Disk.finished,there] using ordered n _ there
  · obtain ⟨n,-,rfl⟩ := List.mem_map.mp log
    exact memOf_ordered _

theorem Db.Ok.mem_contents (ok : db.Ok d h m) (e : Entry K V) :
    e ∈ db.contents d.table ↔ e ∈ db.entries d.table := by
  have version : (∃ level, level < kNumLevels ∧ ∃ f ∈ db.versions.current.files level, e ∈ d.table f.number) ↔
      e ∈ db.versions.current.entries d.table := by
    constructor
    · rintro ⟨level,-,inLevel⟩
      exact ⟨level,inLevel⟩
    · rintro ⟨level,f,hf,he⟩
      refine ⟨level,?_,f,hf,he⟩
      by_contra deep
      rw [ok.sound.wf.levels level (not_lt.mp deep)] at hf
      cases hf
  simp only [Db.contents,Db.entries,List.mem_append,List.mem_flatMap,List.mem_range,Set.mem_union,mem_entrySet,version,
    or_assoc]

omit [LinearOrder K] in
/-- What a thread stopped by the shutdown was doing has not changed the manifest. -/
theorem Db.recorded_of_stops (stops : db.job.stopsAtShutdown = true) :
    db.recorded = (db.versions.current,db.versions.logNumber) := by
  rw [Db.recorded]
  cases job : db.job with
  | commitFlush commit outer =>
    rw [job] at stops
    simp [Job.commit,(by simpa [Job.stopsAtShutdown] using stops : commit.stage = .append)]
  | idle => rfl
  | compact c => rfl
  | flush n stage outer => simp [job,Job.stopsAtShutdown] at stops
  | move commit => simp [job,Job.stopsAtShutdown] at stops
  | commitCompaction c commit => simp [job,Job.stopsAtShutdown] at stops
  | remove doomed outer => simp [job,Job.stopsAtShutdown] at stops

/-- Every entry that reads can meet is in some file. -/
theorem Db.Ok.entries_ranked (disk : d.Ok h db.versions.manifestFileNumber m) (ok : db.Ok d h m)
    (stops : db.job.stopsAtShutdown = true) (lists : d.Lists filenames) {e : Entry K V}
    (live : e ∈ db.entries d.table) : ∃ file ∈ d.ranked filenames, e ∈ file := by
  obtain ⟨-,-,logs,tables⟩ := lists.numbers
  have logged : e ∈ (h.since db.versions.logNumber).set → ∃ file ∈ d.ranked filenames, e ∈ file := by
    intro member
    obtain ⟨r,hr,he⟩ := mem_history_set.mp member
    obtain ⟨inHistory,late⟩ := List.mem_filter.mp hr
    have isLog : (m.upTo m.records.length).log = db.versions.logNumber := by
      rw [ManifestFile.upTo,List.take_length,ok.linked.log,Db.recorded_of_stops stops]
    have after : (m.upTo m.records.length).log ≤ r.1 := by simpa [isLog] using late
    obtain ⟨l,hl,number⟩ := disk.present r inHistory after
    have whole := disk.whole l hl (number ▸ after)
    have inLog : r ∈ l.records.map (l.number,·) := by
      rw [whole]
      exact List.mem_filter.mpr ⟨inHistory,by simp [number]⟩
    obtain ⟨b,hb,rfl⟩ := List.mem_map.mp inLog
    refine ⟨memOf (d.recordsOf l.number),List.mem_append_right _ (List.mem_map_of_mem (logs l hl)),?_⟩
    rw [recordsOf_eq disk.increasing l hl]
    exact (mem_memOf l.records e).mpr ⟨b,hb,he⟩
  rcases live with mem | imm | ⟨level,f,hf,he⟩
  · obtain ⟨applied,split,isMem,-⟩ := ok.memory.applied
    rw [isMem] at mem
    refine logged (History.set_mono ?_ mem)
    intro r hr
    obtain ⟨member,late⟩ := List.mem_filter.mp hr
    refine List.mem_filter.mpr ⟨by rw [split]; exact List.mem_append_left _ member,?_⟩
    have := ok.memory.logs
    simp only [decide_eq_true_eq] at late ⊢
    omega
  · rw [ok.memory.imm] at imm
    refine logged (History.set_mono ?_ imm)
    intro r hr
    obtain ⟨member,late⟩ := List.mem_filter.mp hr
    exact List.mem_filter.mpr ⟨History.before_subset h _ member,late⟩
  · obtain ⟨entries,there⟩ := ok.sound.present level f hf
    rw [Disk.table_of there] at he
    refine ⟨entries,List.mem_append_left _ (List.mem_map.mpr ⟨f.number,?_,?_⟩),he⟩
    · exact (List.perm_insertionSort _ _).mem_iff.mpr (tables f.number (by simp [there]))
    · simp [Disk.finished,there]

/-- With no write under way, everything is visible. -/
theorem Db.Ok.entries_visible (disk : d.Ok h db.versions.manifestFileNumber m) (ok : db.Ok d h m)
    (quiet : db.leader = none) : ∀ e ∈ db.entries d.table, e.sequence ≤ db.versions.lastSequence := by
  intro e live
  obtain ⟨applied,split,-,bounded⟩ := ok.memory.applied
  have inHistory := (ok.get_entries disk).1 live
  rw [split] at inHistory
  simp only [Db.pending,quiet,List.append_nil] at inHistory
  simpa [Db.lastApplied,quiet] using bounded e inHistory

end Live

section Preserve
variable {o : Options K V} {ls : List (Label K V)} {s closed : State K V} {db : Db K V} {filenames : List FileName}

omit [LinearOrder K] in
theorem writeDescriptor_spec (r : Repairer K V) (covered : History K V) :
    (r.writeDescriptor covered).currentFile = some (.line 1) ∧
      (r.writeDescriptor covered).manifests 1 = some ⟨[⟨r.edit,covered⟩],0⟩ ∧
      (r.writeDescriptor covered).logs = r.disk.logs ∧ (r.writeDescriptor covered).tables = r.disk.tables := by
  have archived : ∀ (ns : List Nat) (r : Repairer K V),
      (ns.foldl (fun r n => r.archiveFile (.manifest n)) r).disk.logs = r.disk.logs ∧
        (ns.foldl (fun r n => r.archiveFile (.manifest n)) r).disk.tables = r.disk.tables := by
    intro ns
    induction ns with
    | nil => exact fun _ => ⟨rfl,rfl⟩
    | cons n rest ih => exact fun r => ih (r.archiveFile (.manifest n))
  refine ⟨rfl,?_,(archived r.manifests r).1,(archived r.manifests r).2⟩
  simp [Repairer.writeDescriptor,Disk.setManifest,Disk.setCurrentFile]

omit [LinearOrder K] in
theorem close_cases (running : s.process = .running db) (close : s.close = some closed) :
    db.leader = none ∧ db.job.stopsAtShutdown = true ∧ closed = { s with process := .down } := by
  rw [State.close,running] at close
  simp only at close
  split at close
  · rename_i quiet
    cases close
    simp only [Bool.and_eq_true,Option.isNone_iff_eq_none] at quiet
    exact ⟨quiet.1.2,quiet.2,rfl⟩
  · cases close

omit [LinearOrder K] in
theorem finished_table {d : Disk K V} {n : Nat} {entries : List (Entry K V)} (done : d.finished n = some entries) :
    (d.tables n).isSome ∧ d.table n = entries := by
  rw [Disk.finished] at done
  split at done
  · rename_i there
    cases done
    exact ⟨by simp [there],Disk.table_of there⟩
  · cases done

/-- What the repaired and reopened database answers. -/
theorem repaired_get (down : closed.process = .down) (lists : closed.disk.Lists filenames)
    (ordered : closed.disk.TablesOrdered) {live : List (Entry K V)}
    (last : LastIsNewest live (closed.disk.ranked filenames)) :
    ∃ s db, (closed.repairDB o filenames).run o reopenRun = some s ∧ s.process = .running db ∧ ∀ user,
      (∀ file ∈ closed.disk.ranked filenames, ∀ e ∈ file, e.userKey ≠ user) ∧
          db.get s.disk.table user db.versions.lastSequence = none ∨
        ∃ e ∈ live, e.userKey = user ∧ NewestIn live e ∧
          db.get s.disk.table user db.versions.lastSequence = e.value := by
  obtain ⟨files,isRanked,ranks⟩ := Repairer.run_ranks (o := o) lists
  set r := Repairer.run o closed.disk filenames
  obtain ⟨named,manifest,logs,tables⟩ := writeDescriptor_spec r closed.history
  have contents : ∀ q ∈ files, q.2 ≠ [] → (r.disk.tables q.1).isSome ∧ r.disk.table q.1 = q.2 :=
    fun q hq holds => finished_table (ranks.finished q hq holds)
  have present : ∀ t ∈ r.tables, ((r.writeDescriptor closed.history).tables t.file.number).isSome := by
    intro t ht
    obtain ⟨q,hq,f,output,rfl⟩ := (ranks.tables t).mp ht
    rw [tables,outputFile_number output]
    exact (contents q hq (outputFile_ne_nil output)).1
  obtain ⟨s,db,run,running,same,mem,imm,isLast,version⟩ := reopen (o := o) (s := closed.repairDB o filenames) down
    named manifest (logs.trans ranks.logs) present ranks.distinct
  have table : s.disk.table = r.disk.table := by
    funext n
    exact Disk.table_congr (congrFun (same.trans tables) n)
  have fileOrdered : ∀ q ∈ files, OrderedEntries q.2 := by
    intro q hq
    refine ordered.ranked filenames q.2 ?_
    rw [← isRanked]
    exact List.mem_map_of_mem hq
  refine ⟨s,db,run,running,fun user => ?_⟩
  have get : db.get s.disk.table user db.versions.lastSequence =
      (searchFiles r.disk.table user (r.edit.lastSequence.getD 0)
        ((Version.empty.apply r.edit).overlapping0 user)).result := by
    rw [Db.get_eq,mem,imm,version,isLast,table,get_level0]
    · rfl
    · exact fun level f hf => ((mem_repaired ranks.distinct level f).mp hf).1
  rw [← isRanked] at last
  rcases last.find user with absent | ⟨before,p,after,split,holds,later,newest⟩
  · left
    refine ⟨?_,?_⟩
    · intro file member
      rw [← isRanked] at member
      obtain ⟨q,hq,rfl⟩ := List.mem_map.mp member
      exact absent q hq
    · rw [get,ranks.search_absent (fun q hq some => (contents q hq some).2) absent]
      rfl
  · right
    have member : p ∈ files := by simp [split]
    obtain ⟨e,he,same,isNewest,state⟩ := getFrom_newest (fileOrdered p member) holds (ranks.visible member)
    obtain ⟨inLive,newestLive⟩ := newest e he same isNewest
    refine ⟨e,inLive,same,newestLive,?_⟩
    rw [get,ranks.search (fun q hq some => (contents q hq some).2) fileOrdered split holds later
      (ranks.visible member),state]
    cases e.value <;> rfl

/-- A closed database that is repaired and opened again answers as before, if for each key
the last file that holds it has its newest entry. -/
theorem repair_preserves (okay : ∀ l ∈ ls, l.ok = true) (automatic : ∀ l ∈ ls, l.automatic = true)
    (run : State.initial.run o ls = some s) (running : s.process = .running db) (close : s.close = some closed)
    (lists : closed.disk.Lists filenames)
    (last : LastIsNewest (db.contents s.disk.table) (closed.disk.ranked filenames)) :
    ∃ s' db', (closed.repairDB o filenames).run o reopenRun = some s' ∧ s'.process = .running db' ∧
      ∀ user, db'.get s'.disk.table user db'.versions.lastSequence =
        db.get s.disk.table user db.versions.lastSequence := by
  obtain ⟨quiet,stops,rfl⟩ := close_cases running close
  obtain ⟨m,disk,ok⟩ := (inv_of_run okay automatic run).running running
  obtain ⟨inside,reads⟩ := ok.get_entries disk
  have visible := ok.entries_visible disk quiet
  have ordered : s.disk.TablesOrdered := tables_ordered okay automatic run
  obtain ⟨s',db',steps,isRunning,answers⟩ := repaired_get (o := o) rfl lists ordered last
  refine ⟨s',db',steps,isRunning,fun user => ?_⟩
  have before := reads user db.versions.lastSequence
  have distinct : Distinct (db.entries s.disk.table) := disk.ordered.distinct.mono inside
  rcases answers user with ⟨absent,answer⟩ | ⟨e,live,same,newest,answer⟩
  · rw [answer]
    refine Versioned.Reads.unique distinct (.inr ⟨?_,rfl⟩) before
    intro b hb keyed
    obtain ⟨file,hf,inFile⟩ := ok.entries_ranked disk stops lists hb
    exact absurd keyed (absent file hf b inFile)
  · rw [answer]
    have member := (ok.mem_contents e).mp live
    refine Versioned.Reads.unique distinct (.inl ⟨e,⟨member,same,visible e member,?_⟩,rfl⟩) before
    intro b hb keyed _
    exact newest b ((ok.mem_contents b).mpr hb) (keyed.trans same.symm)

end Preserve

section Small

instance lastIsNewestDecidable [DecidableEq V] (live : List (Entry K V)) :
    ∀ files, Decidable (LastIsNewest live files)
  | [] => isTrue trivial
  | file :: later =>
    have := lastIsNewestDecidable live later
    inferInstanceAs (Decidable ((∀ e ∈ file, NewestIn file e → (∀ x ∈ later, ∀ b ∈ x, b.userKey ≠ e.userKey) →
      e ∈ live ∧ NewestIn live e) ∧ LastIsNewest live later))

/-- The part of a listing that can be checked. -/
def Disk.listsBelow (d : Disk K V) (filenames : List FileName) (bound : Nat) : Bool :=
  decide filenames.Nodup && (filenames.all d.contains && (d.logs.all (fun l => decide (.log l.number ∈ filenames)) &&
    (decide (.current ∈ filenames) && (List.range bound).all fun n =>
      (!(d.tables n).isSome || decide (.table n ∈ filenames)) &&
        ((!(d.manifests n).isSome || decide (.manifest n ∈ filenames)) &&
          (!(d.temps n).isSome || decide (.temp n ∈ filenames))))))

/-- No file has a number from the bound on. -/
def Disk.numbersBelow (d : Disk K V) (bound : Nat) : Prop :=
  ∀ n, ((d.tables (n + bound)).isNone && ((d.manifests (n + bound)).isNone && (d.temps (n + bound)).isNone)) = true

omit [LinearOrder K] in
/-- It is a listing if the numbers of the files are below the bound. -/
theorem Disk.listsBelow_lists {d : Disk K V} {filenames : List FileName} {bound : Nat}
    (below : d.listsBelow filenames bound = true)
    (large : d.numbersBelow bound) : d.Lists filenames := by
  simp only [Disk.listsBelow,Bool.and_eq_true,decide_eq_true_eq,List.all_eq_true,List.mem_range,Bool.or_eq_true,
    Bool.not_eq_true'] at below
  obtain ⟨nodup,listed,logs,current,small⟩ := below
  have above : ∀ n, bound ≤ n → d.tables n = none ∧ d.manifests n = none ∧ d.temps n = none := by
    intro n le
    have none := large (n - bound)
    rw [Nat.sub_add_cancel le] at none
    simpa using none
  refine ⟨nodup,fun f => ⟨listed f,fun there => ?_⟩⟩
  cases f with
  | log n =>
    obtain ⟨l,hl,same⟩ := List.any_eq_true.mp there
    rw [← beq_iff_eq.mp same]
    exact logs l hl
  | table n =>
    rcases lt_or_ge n bound with lt | le
    · exact (small n lt).1.resolve_left (by simpa [Disk.contains,Option.isSome_iff_ne_none] using there)
    · simp [Disk.contains,(above n le).1] at there
  | manifest n =>
    rcases lt_or_ge n bound with lt | le
    · exact (small n lt).2.1.resolve_left (by simpa [Disk.contains,Option.isSome_iff_ne_none] using there)
    · simp [Disk.contains,(above n le).2.1] at there
  | temp n =>
    rcases lt_or_ge n bound with lt | le
    · exact (small n lt).2.2.resolve_left (by simpa [Disk.contains,Option.isSome_iff_ne_none] using there)
    · simp [Disk.contains,(above n le).2.2] at there
  | current => exact current

/-- A flush, after which files are removed. -/
def flushRemoving (files : List FileName) : List (Label Nat Nat) :=
  flushRun.dropLast ++ files.map .removeFile ++ [.removeDone]

/-- Three tables with keys in common, each a level above the one before. The last of them ends
before the others do. -/
def levelsRun : List (Label Nat Nat) :=
  openRun.dropLast ++ [.removeFile (.manifest 1),.removeDone] ++
    writeRun 1 [(1,some 10),(2,some 20),(3,some 30),(5,some 50)] false 1 ++
    writeRun 2 [(1,some 11),(2,some 21),(3,some 31),(5,some 51)] false 2 ++ flushRemoving [.log 3] ++
    writeRun 3 [(0,some 2),(1,some 12),(2,some 22),(3,some 32)] false 2 ++ flushRemoving [.log 4] ++
    writeRun 4 [(6,some 60)] false 2 ++ flushRemoving [.log 6]

theorem repair_preserves_levels : ∃ s db closed s' db', State.initial.run smallOptions levelsRun = some s ∧
    s.process = .running db ∧ s.close = some closed ∧
    (closed.repairDB smallOptions [.table 9,.log 8,.manifest 2,.current,.table 5,.table 7]).run smallOptions reopenRun = some s' ∧
    s'.process = .running db' ∧ db.get s.disk.table 1 db.versions.lastSequence = some 12 ∧
    ∀ user, db'.get s'.disk.table user db'.versions.lastSequence = db.get s.disk.table user db.versions.lastSequence := by
  obtain ⟨s,db,run,running,found⟩ := exists_run smallOptions levelsRun
    (fun s db => s.close.any fun closed =>
      closed.disk.listsBelow [.table 9,.log 8,.manifest 2,.current,.table 5,.table 7] 11 && decide
        (LastIsNewest (db.contents s.disk.table) (closed.disk.ranked [.table 9,.log 8,.manifest 2,.current,.table 5,.table 7]) ∧
          db.get s.disk.table 1 db.versions.lastSequence = some 12)) (by decide)
  have large : ∀ n, ((State.initial.run smallOptions levelsRun).any fun s => s.close.any fun closed =>
      (closed.disk.tables (n + 11)).isNone && ((closed.disk.manifests (n + 11)).isNone &&
        (closed.disk.temps (n + 11)).isNone)) = true := fun n => rfl
  obtain ⟨closed,close,holds⟩ := (Option.any_eq_true _ _).mp found
  obtain ⟨below,holds⟩ := Bool.and_eq_true_iff.mp holds
  obtain ⟨last,get⟩ := of_decide_eq_true holds
  have lists := Disk.listsBelow_lists below fun n => by simpa [run,close] using large n
  obtain ⟨s',db',steps,running',same⟩ := repair_preserves (by decide) (by decide) run running close lists last
  exact ⟨s,db,closed,s',db',run,running,close,steps,running',get,same⟩

/-- Reads of the key 4 find it in no table, and look into the middle table first, which is charged
for them. -/
theorem levelsRun_charges : ∃ s db, State.initial.run smallOptions levelsRun = some s ∧ s.process = .running db ∧
    charge (db.versions.current.visits 4 (lookupKey 4 db.versions.lastSequence)) =
      ⟨some ⟨7,5,⟨1,5,.value⟩,⟨5,8,.value⟩⟩,1⟩ := by
  obtain ⟨s,db,run,running,found⟩ := exists_run smallOptions levelsRun (fun _ db =>
    decide (charge (db.versions.current.visits 4 (lookupKey 4 db.versions.lastSequence)) =
      ⟨some ⟨7,5,⟨1,5,.value⟩,⟨5,8,.value⟩⟩,1⟩)) (by decide)
  exact ⟨s,db,run,running,of_decide_eq_true found⟩

/-- The middle table is compacted into the last one, and its entries get the largest number. -/
def sunkRun : List (Label Nat Nat) :=
  levelsRun ++ [.pick (.seek 1 ⟨7,5,⟨1,5,.value⟩,⟨5,8,.value⟩⟩)] ++ List.replicate 8 (.advanceCompaction .ok) ++
    [.finishCompaction .ok,.appendManifest .ok,.syncManifest .ok,.installVersion fun _ => false,
      .removeFile (.table 5),.removeFile (.table 7),.removeDone]

/-- After the repair a read finds the value before the last. -/
theorem repair_stale : (∀ l ∈ sunkRun, l.ok = true ∧ l.automatic = true) ∧
    ∃ s db closed s' db', State.initial.run smallOptions sunkRun = some s ∧ s.process = .running db ∧
      s.close = some closed ∧ closed.disk.Lists [.manifest 2,.log 8,.current,.table 9,.table 10] ∧
      (closed.repairDB smallOptions [.manifest 2,.log 8,.current,.table 9,.table 10]).run smallOptions reopenRun = some s' ∧
      s'.process = .running db' ∧ db.get s.disk.table 1 db.versions.lastSequence = some 12 ∧
      db'.get s'.disk.table 1 db'.versions.lastSequence = some 11 := by
  refine ⟨by decide,?_⟩
  obtain ⟨s,db,run,running,found⟩ := exists_run smallOptions sunkRun
    (fun s db => s.close.any fun closed => closed.disk.listsBelow [.manifest 2,.log 8,.current,.table 9,.table 10] 11 &&
      ((closed.repairDB smallOptions [.manifest 2,.log 8,.current,.table 9,.table 10]).run smallOptions reopenRun).any fun s' =>
        s'.db.any fun db' => decide (db.get s.disk.table 1 db.versions.lastSequence = some 12 ∧
          db'.get s'.disk.table 1 db'.versions.lastSequence = some 11)) (by decide)
  have large : ∀ n, ((State.initial.run smallOptions sunkRun).any fun s => s.close.any fun closed =>
      (closed.disk.tables (n + 11)).isNone && ((closed.disk.manifests (n + 11)).isNone &&
        (closed.disk.temps (n + 11)).isNone)) = true := fun n => rfl
  obtain ⟨closed,close,holds⟩ := (Option.any_eq_true _ _).mp found
  obtain ⟨below,after⟩ := Bool.and_eq_true_iff.mp holds
  obtain ⟨s',steps,open_⟩ := (Option.any_eq_true _ _).mp after
  obtain ⟨db',isDb,gets⟩ := (Option.any_eq_true _ _).mp open_
  obtain ⟨before,stale⟩ := of_decide_eq_true gets
  have lists := Disk.listsBelow_lists below fun n => by simpa [run,close] using large n
  exact ⟨s,db,closed,s',db',run,running,close,lists,steps,State.db_eq.mp isDb,before,stale⟩

end Small

end LevelDB
