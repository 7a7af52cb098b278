import LevelDB.SnapshotReads

/-! A compaction from its choice to its installation, with nothing else going on. The
outputs take the place of the inputs and every read that a snapshot can ask is answered
as before. -/
namespace LevelDB

variable {K V : Type} [LinearOrder K]

/-- The loop of `DoCompactionWork`; `NewFileNumber` gives the numbers from `number` on. -/
def CompactionState.workLoop (o : Options K V) :
    List (Entry K V) → Nat → CompactionState K V → CompactionState K V
  | [], _, c => c
  | _ :: rest, number, c =>
    let (next,opened) := c.advance o number
    workLoop o rest (if opened then number + 1 else number) next

/-- `DoCompactionWork` up to the installation. -/
def Compaction.doCompactionWork (o : Options K V) (c : Compaction K) (isManual : Bool)
    (smallestSnapshot number : Nat) (tables : Tables K V) : CompactionState K V :=
  (CompactionState.workLoop o (c.inputEntries tables) number
    (.start c isManual smallestSnapshot tables)).finishOutput

def Tables.write (tables : Tables K V) (outputs : List (Nat × List (Entry K V))) : Tables K V :=
  outputs.foldl (fun tables out => Function.update tables out.1 out.2) tables

/-- What an `Add` makes of the `smallest` and the `largest` of the current output. -/
def recordKey (range : Option (InternalKey K × InternalKey K)) (e : Entry K V) :
    Option (InternalKey K × InternalKey K) :=
  some ((range.map (·.1)).getD e.key,e.key)

section Record

omit [LinearOrder K] in
theorem foldl_recordKey (range : InternalKey K × InternalKey K) (entries : List (Entry K V)) :
    entries.foldl recordKey (some range) =
      some (range.1,(entries.getLast?.map (·.key)).getD range.2) := by
  induction entries generalizing range with
  | nil => rfl
  | cons e entries ih =>
    rw [List.foldl_cons]
    refine (ih (range.1,e.key)).trans ?_
    cases entries <;> simp [List.getLast?_cons]

omit [LinearOrder K] in
/-- The keys recorded with each entry are the ends that the finished output is given. -/
theorem recordKey_outputFile {o : Options K V} {number : Nat} {entries : List (Entry K V)}
    {f : FileMetaData K} (made : outputFile o number entries = some f) :
    entries.foldl recordKey none = some (f.smallest,f.largest) := by
  obtain ⟨-,⟨a,head,low⟩,b,last,high⟩ := outputFile_spec made
  obtain ⟨rest,rfl⟩ := List.head?_eq_some_iff.mp head
  rw [low,high,List.foldl_cons]
  refine (foldl_recordKey (a.key,a.key) rest).trans ?_
  rw [List.getLast?_cons,Option.some.injEq] at last
  rw [← last]
  cases rest.getLast? <;> rfl

end Record

section Work
variable {c : CompactionState K V} {done : List (Entry K V)}

/-- The loop reaches the end of its input; the numbers of the outputs are new. -/
theorem CompactionState.Loop.workLoop (o : Options K V) (rest : List (Entry K V)) (low number : Nat)
    (loop : c.Loop done) (head : c.remaining = rest) (le : low ≤ number)
    (fresh : ∀ n ∈ c.files.map (·.1), low ≤ n ∧ n < number) :
    (c.workLoop o rest number).Loop (done ++ rest) ∧ c.Same (c.workLoop o rest number) ∧
      (c.workLoop o rest number).remaining = [] ∧
      ∀ n ∈ (c.workLoop o rest number).files.map (·.1), low ≤ n := by
  induction rest generalizing c done number with
  | nil =>
    rw [List.append_nil]
    exact ⟨loop,⟨rfl,rfl,rfl,List.prefix_rfl⟩,head,fun n hn => (fresh n hn).1⟩
  | cons e rest ih =>
    have step := loop.advance head o number fun n hn => (fresh n hn).2
    obtain ⟨same,remaining,numbers⟩ := advance_same o number head
    have next := ih (if (c.advance o number).2 then number + 1 else number) step remaining
      (by split <;> omega) (by
        rw [numbers]
        intro n hn
        split at hn
        · rename_i opened
          rw [if_pos opened]
          rcases List.mem_append.mp hn with old | new
          · have := fresh n old
            omega
          · rw [List.mem_singleton.mp new]
            omega
        · rename_i kept
          rw [if_neg kept]
          exact fresh n hn)
    obtain ⟨final,rest',exhausted,above⟩ := next
    rw [List.append_assoc] at final
    refine ⟨final,?_,exhausted,above⟩
    exact ⟨rest'.compaction.trans same.compaction,rest'.isManual.trans same.isManual,
      rest'.smallestSnapshot.trans same.smallestSnapshot,same.outputs.trans rest'.outputs⟩

end Work

section Tables
variable {tables : Tables K V}

omit [LinearOrder K] in
theorem Tables.write_other (outputs : List (Nat × List (Entry K V))) {n : Nat}
    (out : n ∉ outputs.map (·.1)) : tables.write outputs n = tables n := by
  induction outputs generalizing tables with
  | nil => rfl
  | cons first outputs ih =>
    simp only [List.map_cons,List.mem_cons,not_or] at out
    rw [Tables.write,List.foldl_cons]
    exact (ih out.2).trans (Function.update_of_ne out.1 _ _)

omit [LinearOrder K] in
theorem Tables.write_output (outputs : List (Nat × List (Entry K V)))
    (numbers : (outputs.map (·.1)).Pairwise (· < ·)) :
    ∀ out ∈ outputs, tables.write outputs out.1 = out.2 := by
  induction outputs generalizing tables with
  | nil => simp
  | cons first outputs ih =>
    obtain ⟨head,tail⟩ := List.pairwise_cons.mp numbers
    intro out member
    rw [Tables.write,List.foldl_cons]
    rcases List.mem_cons.mp member with rfl | later
    · refine (Tables.write_other outputs fun again => ?_).trans (Function.update_self _ _ _)
      exact absurd (head out.1 again) (lt_irrefl _)
    · exact ih tail out later

omit [LinearOrder K] in
theorem Tables.write_old {v : Version K} {outputs : List (Nat × List (Entry K V))}
    (fresh : ∀ out ∈ outputs, ∀ l, ∀ f ∈ v.files l, f.number ≠ out.1) :
    ∀ l, ∀ f ∈ v.files l, tables.write outputs f.number = tables f.number := by
  intro l f hf
  apply Tables.write_other
  intro written
  obtain ⟨out,member,equal⟩ := List.mem_map.mp written
  exact fresh out member l f hf equal.symm

end Tables

section Reads
variable {v : Version K} {tables : Tables K V} {c : Compaction K}

/-- What a version keeps of the answers of another it keeps for every `Get`. -/
theorem Version.Wf.get_eq_of_covers {v' : Version K} {tables' : Tables K V} {floor : Nat} (wf : v.Wf tables)
    (wf' : v'.Wf tables') (distinct : Distinct (v.entries tables))
    (covers : Covers (v'.entries tables') (v.entries tables) floor) (user : K) (snapshot : Nat)
    (above : floor ≤ snapshot) :
    (v'.get tables' user snapshot).result = (v.get tables user snapshot).result := by
  have before := (wf.get_finds user snapshot).answers.reads
  have after := (wf'.get_finds user snapshot).answers.reads
  exact Versioned.Reads.unique (distinct.mono covers.subset) after
    (covers.reads user snapshot _ above before)

/-- What `DoCompactionWork` leaves for the installation. -/
structure Compaction.Finished (o : Options K V) (c : Compaction K) (v : Version K) (tables : Tables K V)
    (floor : Nat) (s : CompactionState K V) : Prop where
  compaction : s.compaction = c
  exhausted : s.remaining = []
  closed : s.building = none
  numbers : (s.outputs.map (·.1)).Pairwise (· < ·)
  fresh : ∀ out ∈ s.outputs, ∀ l, ∀ f ∈ v.files l, f.number ≠ out.1
  fits : c.Fits v (tables.write s.outputs) (s.outputFiles o)
  dropped : ∀ d ∈ filesSet (tables.write s.outputs) c.inputs,
    d ∉ filesSet (tables.write s.outputs) (s.outputFiles o) →
      c.Dropped (filesSet (tables.write s.outputs) c.inputs)
        (filesSet (tables.write s.outputs) (s.outputFiles o)) floor d

theorem Compaction.Closed.finished (o : Options K V) (wf : v.Wf tables)
    (distinct : Distinct (v.entries tables)) (closed : c.Closed v) (isManual : Bool)
    (floor number : Nat) (bounded : floor < kMaxSequenceNumber)
    (fresh : ∀ l, ∀ f ∈ v.files l, f.number < number) :
    c.Finished o v tables floor (c.doCompactionWork o isManual floor number tables) := by
  have start := closed.start wf distinct isManual floor bounded
  obtain ⟨-,members⟩ := closed.inputEntries wf
  have safe := closed.safe wf distinct
  obtain ⟨loop,same,exhausted,above⟩ := start.workLoop o (c.inputEntries tables) number number rfl
    (le_refl _) (by simp [CompactionState.files,CompactionState.start])
  rw [List.nil_append] at loop
  have final := loop.finishOutput
  set s := c.doCompactionWork o isManual floor number tables with hs
  have finish : s = (CompactionState.workLoop o (c.inputEntries tables) number
    (.start c isManual floor tables)).finishOutput := rfl
  rw [← finish] at final
  have compaction : s.compaction = c := same.compaction
  have smallest : s.smallestSnapshot = floor := same.smallestSnapshot
  have none : s.building = none := rfl
  have files : s.files = s.outputs := by simp [CompactionState.files,none]
  have numbers : (s.outputs.map (·.1)).Pairwise (· < ·) := files ▸ final.numbers
  have new : ∀ out ∈ s.outputs, ∀ l, ∀ f ∈ v.files l, f.number ≠ out.1 := by
    intro out member l f hf
    have least := above out.1 (List.mem_map_of_mem member)
    exact (lt_of_lt_of_le (fresh l f hf) least).ne
  have untouched : ∀ l, ∀ f ∈ v.files l, tables.write s.outputs f.number = tables f.number := Tables.write_old new
  have somewhere : ∀ f ∈ c.inputs, tables.write s.outputs f.number = tables f.number := by
    intro f hf
    rcases safe.member f hf with own | parent
    · exact untouched _ f own
    · exact untouched _ f parent
  have written : ∀ out ∈ s.outputs, tables.write s.outputs out.1 = out.2 := Tables.write_output s.outputs numbers
  have inputs : filesSet (tables.write s.outputs) c.inputs = entrySet (c.inputEntries tables) := by
    ext e
    refine Iff.trans ?_ (members e).symm
    constructor
    · rintro ⟨f,hf,he⟩
      exact ⟨f,hf,somewhere f hf ▸ he⟩
    · rintro ⟨f,hf,he⟩
      exact ⟨f,hf,(somewhere f hf).symm ▸ he⟩
  have entries : ∀ e ∈ c.inputEntries tables, e.sequence ≤ kMaxSequenceNumber := by
    intro e he
    obtain ⟨f,hf,inside⟩ := (members e).mp he
    exact (safe.holds wf f hf).bounded e inside
  refine ⟨compaction,exhausted,none,numbers,new,?_,?_⟩
  · have fits := final.outputs_fit (v := v) none o written
      (fun e he => by rw [compaction,inputs]; exact he) entries fun out member l f hf => new out member l f hf
    rwa [compaction] at fits
  · rw [outputFiles_set none o written,inputs]
    intro d hd gone
    have dropped := final.dropped d hd gone
    rwa [compaction,smallest] at dropped

/-- The outputs of a finished compaction replace its inputs. -/
theorem Compaction.Finished.replaces {o : Options K V} {floor : Nat} {s : CompactionState K V}
    (finished : c.Finished o v tables floor s) (wf : v.Wf tables) (distinct : Distinct (v.entries tables))
    (closed : c.Closed v) : c.Replaces v (v.apply (s.edit o)) (s.outputFiles o) := by
  have deleted : (s.edit o).deletedFiles = c.inputs0.map (fun f => (c.level,f.number)) ++
      c.inputs1.map fun f => (c.level + 1,f.number) := by
    rw [← finished.compaction]
    rfl
  have new : (s.edit o).newFiles = (s.outputFiles o).map (c.level + 1,·) := by
    rw [← finished.compaction]
    rfl
  apply Compaction.replaces_of_edit wf (closed.safe wf distinct) deleted new
  · intro f hf g hg
    obtain ⟨out,member,made⟩ := mem_outputFiles hf
    rw [(outputFile_spec made).1]
    exact finished.fresh out member _ g hg
  · refine List.pairwise_filterMap.mpr ((List.pairwise_map.mp finished.numbers).imp ?_)
    intro a b lt f made g made' same
    rw [(outputFile_spec made).1,(outputFile_spec made').1] at same
    omega

/-- The meta data of a table give its first and its last key, as they were recorded. -/
def FileMetaData.Ends (tables : Tables K V) (f : FileMetaData K) : Prop :=
  (tables f.number).head?.map (·.key) = some f.smallest ∧
    (tables f.number).getLast?.map (·.key) = some f.largest ∧
    (tables f.number).foldl recordKey none = some (f.smallest,f.largest)

/-- A compaction preserves every visible read. -/
theorem compaction_preserves_reads (o : Options K V) (wf : v.Wf tables)
    (distinct : Distinct (v.entries tables)) (built : v.Builds o c) (isManual : Bool)
    (smallestSnapshot number : Nat) (bounded : smallestSnapshot < kMaxSequenceNumber)
    (fresh : ∀ l, ∀ f ∈ v.files l, f.number < number) :
    let s := c.doCompactionWork o isManual smallestSnapshot number tables
    let after := tables.write s.outputs
    let installed := v.apply (s.edit o)
    s.remaining = [] ∧
    (∀ user snapshot, smallestSnapshot ≤ snapshot →
      (installed.get after user snapshot).result = (v.get tables user snapshot).result) ∧
    (∀ new ∈ (s.edit o).newFiles, new.1 = c.level + 1 ∧ new.2 ∈ installed.files new.1 ∧ new.2.Ends after) ∧
    installed.Wf after ∧ Distinct (installed.entries after) := by
  intro s after installed
  have closed := built.closed wf.sorted
  have finished := closed.finished o wf distinct isManual smallestSnapshot number bounded fresh
  have replaces := finished.replaces wf distinct closed
  have same : ∀ l, ∀ f ∈ v.files l, after f.number = tables f.number := Tables.write_old finished.fresh
  have wfNow : v.Wf after := wf.congr same
  have entries : v.entries after = v.entries tables := Version.entries_congr same
  have distinctNow : Distinct (v.entries after) := by rw [entries]; exact distinct
  have safe := closed.safe wfNow distinctNow
  have wf' : installed.Wf after := wfNow.replace safe finished.fits replaces
  have covers := replaces.covers wfNow distinctNow safe finished.fits smallestSnapshot finished.dropped
  have covers' : Covers (installed.entries after) (v.entries tables) smallestSnapshot := by
    rw [← entries]
    exact covers
  refine ⟨finished.exhausted,?_,?_,wf',distinct.mono covers'.subset⟩
  · exact fun user snapshot above => wf.get_eq_of_covers wf' distinct covers' user snapshot above
  · intro new member
    obtain ⟨f,hf,rfl⟩ := List.mem_map.mp member
    obtain ⟨out,hout,made⟩ := mem_outputFiles hf
    obtain ⟨number,⟨a,first,low⟩,b,last,high⟩ := outputFile_spec made
    have table : after f.number = out.2 := by
      rw [number]
      exact Tables.write_output s.outputs finished.numbers out hout
    have level : s.compaction.level + 1 = c.level + 1 := by rw [finished.compaction]
    refine ⟨level,(replaces.members _ f).mpr (.inl ⟨level,hf⟩),?_,?_,?_⟩
    · rw [table,first,low]; rfl
    · rw [table,last,high]; rfl
    · rw [table]
      exact recordKey_outputFile made

/-- A version of one file. -/
def Version.single (f : FileMetaData K) : Version K := ⟨fun level => if level = 0 then [f] else []⟩

omit [LinearOrder K] in
theorem Version.mem_single {f g : FileMetaData K} {level : Nat} :
    g ∈ (Version.single f).files level ↔ level = 0 ∧ g = f := by
  by_cases zero : level = 0 <;> simp [Version.single,zero]

theorem Version.single_wf {f : FileMetaData K} (holds : f.Holds tables) : (Version.single f).Wf tables := by
  constructor
  · intro level g member
    rw [(Version.mem_single.mp member).2]
    exact holds
  · intro level
    by_cases zero : level = 0 <;> simp [Version.single,zero]
  · intro level deep
    have none : (Version.single f).files level = [] := if_neg (by omega)
    simp [none]
  · intro level deep
    exact if_neg (by simp only [kNumLevels] at deep; omega)
  · intro level level' g g' member member' _
    obtain ⟨rfl,rfl⟩ := Version.mem_single.mp member
    obtain ⟨rfl,rfl⟩ := Version.mem_single.mp member'
    exact ⟨rfl,rfl⟩
  · intro g member g' member' lt
    rw [(Version.mem_single.mp member).2,(Version.mem_single.mp member').2] at lt
    exact absurd lt (lt_irrefl _)
  · rintro level level' lt a ha b ⟨g,member,-⟩
    have zero := (Version.mem_single.mp member).1
    omega

end Reads

section Small

/-- The key 7 was written twice. -/
def twiceTable : Tables Nat Nat := fun n => if n = 1 then [⟨7,2,some 5⟩,⟨7,1,some 4⟩] else []

def twiceFile : FileMetaData Nat := ⟨1,3,⟨7,2,.value⟩,⟨7,1,.value⟩⟩

theorem twice_holds : twiceFile.Holds twiceTable := by
  refine ⟨?_,⟨⟨7,2,some 5⟩,rfl,rfl⟩,⟨⟨7,1,some 4⟩,rfl,rfl⟩,?_⟩
  · have pair : twiceTable twiceFile.number = [⟨7,2,some 5⟩,⟨7,1,some 4⟩] := rfl
    simp [SortedEntries,pair,Entry.key,Entry.type,InternalKey.lt_iff,InternalKey.tag,ValueType.code]
  · intro e member
    have cases : e = ⟨7,2,some 5⟩ ∨ e = ⟨7,1,some 4⟩ := by simpa [twiceTable,twiceFile] using member
    rcases cases with rfl | rfl <;> simp [kMaxSequenceNumber]

theorem twice_distinct : Distinct ((Version.single twiceFile).entries twiceTable) := by
  have cases : ∀ e ∈ (Version.single twiceFile).entries twiceTable,
      e = ⟨7,2,some 5⟩ ∨ e = ⟨7,1,some 4⟩ := by
    rintro e ⟨level,f,member,he⟩
    rw [(Version.mem_single.mp member).2] at he
    simpa [twiceTable,twiceFile] using he
  intro a ha b hb _ same
  rcases cases a ha with rfl | rfl <;> rcases cases b hb with rfl | rfl
  · rfl
  · cases same
  · cases same
  · rfl

def twiceCompaction : Compaction Nat :=
  (Version.single twiceFile).pickCompaction smallOptions (fun _ => none) (.size 0)

theorem twice_fresh : ∀ l, ∀ f ∈ (Version.single twiceFile).files l, f.number < 2 := by
  intro l f member
  rw [(Version.mem_single.mp member).2]
  decide

/-- The older of the two is dropped and the newer one found. -/
theorem compaction_preserves_twice :
    let s := twiceCompaction.doCompactionWork smallOptions false 2 2 twiceTable
    s.outputs = [(2,[⟨7,2,some 5⟩])] ∧
      (((Version.single twiceFile).apply (s.edit smallOptions)).get (twiceTable.write s.outputs) 7 2).result =
        some 5 := by
  have built : (Version.single twiceFile).Builds smallOptions twiceCompaction :=
    .pick (fun _ => none) (.size 0) (by decide)
  obtain ⟨-,reads,-⟩ := compaction_preserves_reads smallOptions (Version.single_wf twice_holds)
    twice_distinct built false 2 2 (by decide) twice_fresh
  exact ⟨by decide,(reads 7 2 (le_refl 2)).trans (by decide)⟩

/-- The last sequence number stands for "no entry yet"; a snapshot that reaches it hides
even the newest entry of a key. -/
theorem compaction_hides_newest :
    ¬∀ (v : Version Nat) (tables : Tables Nat Nat) (c : Compaction Nat) (smallestSnapshot number : Nat),
      v.Wf tables → Distinct (v.entries tables) → v.Builds smallOptions c →
      (∀ l, ∀ f ∈ v.files l, f.number < number) → ∀ user snapshot, smallestSnapshot ≤ snapshot →
      let s := c.doCompactionWork smallOptions false smallestSnapshot number tables
      ((v.apply (s.edit smallOptions)).get (tables.write s.outputs) user snapshot).result =
        (v.get tables user snapshot).result := by
  intro preserves
  have wrong := preserves (Version.single twiceFile) twiceTable twiceCompaction kMaxSequenceNumber 2
    (Version.single_wf twice_holds) twice_distinct (.pick (fun _ => none) (.size 0) (by decide)) twice_fresh
    7 kMaxSequenceNumber (le_refl _)
  revert wrong
  decide

end Small

end LevelDB
