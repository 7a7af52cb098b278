import LevelDB.HistoryOrder
import LevelDB.CompactionLoop

/-! What the files of a database stand for. A version is sound if its tables are on the
disk and it answers for a part of the history; the manifest is good if after every
record that a crash may leave as the last, the recovered version is sound and the logs
hold the rest. -/
namespace LevelDB

variable {K V : Type} [LinearOrder K]

/-- A version whose tables are on the disk, synced, and answer for `covered`. -/
structure Sound (d : Disk K V) (covered : Set (Entry K V)) (v : Version K) (next floor : Nat) :
    Prop where
  wf : v.Wf d.table
  present : ∀ l, ∀ f ∈ v.files l, ∃ entries, d.tables f.number = some ⟨entries,true⟩
  numbers : ∀ l, ∀ f ∈ v.files l, f.number < next
  covers : Covers (v.entries d.table) covered floor

section Congr
variable {v : Version K} {tables tables' : Tables K V}

omit [LinearOrder K] in
theorem Version.entriesAt_congr (same : ∀ l, ∀ f ∈ v.files l, tables' f.number = tables f.number)
    (l : Nat) : v.entriesAt tables' l = v.entriesAt tables l := by
  ext e
  constructor
  · rintro ⟨f,hf,he⟩
    exact ⟨f,hf,same l f hf ▸ he⟩
  · rintro ⟨f,hf,he⟩
    exact ⟨f,hf,(same l f hf).symm ▸ he⟩

omit [LinearOrder K] in
theorem Version.entries_congr (same : ∀ l, ∀ f ∈ v.files l, tables' f.number = tables f.number) :
    v.entries tables' = v.entries tables := by
  ext e
  simp only [Version.entries,Version.entriesAt_congr same]

theorem FileMetaData.Holds.congr {f : FileMetaData K} (holds : f.Holds tables)
    (same : tables' f.number = tables f.number) : f.Holds tables' := by
  obtain ⟨sorted,first,last,bounded⟩ := holds
  exact ⟨by rw [same]; exact sorted,by rw [same]; exact first,by rw [same]; exact last,
    by rw [same]; exact bounded⟩

/-- Only the tables of its files matter to a version. -/
theorem Version.Wf.congr (wf : v.Wf tables)
    (same : ∀ l, ∀ f ∈ v.files l, tables' f.number = tables f.number) : v.Wf tables' := by
  refine ⟨fun l f hf => (wf.holds l f hf).congr (same l f hf),wf.ordered,wf.disjoint,wf.levels,
    wf.unique,?_,?_⟩
  · intro f hf g hg lt
    simp only [tableSet,same 0 f hf,same 0 g hg]
    exact wf.recent0 f hf g hg lt
  · intro l l' lt
    rw [Version.entriesAt_congr same,Version.entriesAt_congr same]
    exact wf.recent l l' lt

end Congr

section Sound
variable {d d' : Disk K V} {covered : Set (Entry K V)} {v v' : Version K} {next next' floor floor' : Nat}

omit [LinearOrder K] in
theorem Disk.table_congr {n : Nat} (same : d'.tables n = d.tables n) : d'.table n = d.table n := by
  simp only [Disk.table,same]

/-- A table that is in no version may change. -/
theorem Sound.frame (sound : Sound d covered v next floor)
    (same : ∀ l, ∀ f ∈ v.files l, d'.tables f.number = d.tables f.number) :
    Sound d' covered v next floor := by
  have tables : ∀ l, ∀ f ∈ v.files l, d'.table f.number = d.table f.number :=
    fun l f hf => Disk.table_congr (same l f hf)
  refine ⟨sound.wf.congr tables,?_,sound.numbers,?_⟩
  · intro l f hf
    rw [same l f hf]
    exact sound.present l f hf
  · rw [Version.entries_congr tables]
    exact sound.covers

theorem Sound.mono (sound : Sound d covered v next floor) (more : next ≤ next') (higher : floor ≤ floor') :
    Sound d covered v next' floor' :=
  ⟨sound.wf,sound.present,fun l f hf => lt_of_lt_of_le (sound.numbers l f hf) more,
    sound.covers.raise higher⟩

omit [LinearOrder K] in
/-- The table with a number, as it is read. -/
theorem Disk.table_of {n : Nat} {t : TableFile K V} (there : d.tables n = some t) :
    d.table n = t.entries := by
  simp [Disk.table,there]

theorem Sound.distinct (sound : Sound d covered v next floor) (distinct : Distinct covered) :
    Distinct (v.entries d.table) :=
  distinct.mono sound.covers.subset

/-- A newer table is added. -/
theorem Sound.add {level : Nat} {m : FileMetaData K} (sound : Sound d covered v next floor)
    (adds : v.Adds v' level m) (flush : v.Flushable d.table level m)
    (newer : Newer (tableSet d.table m) covered)
    (present : ∃ entries, d.tables m.number = some ⟨entries,true⟩) (number : m.number < next) :
    Sound d (tableSet d.table m ∪ covered) v' next floor := by
  refine ⟨sound.wf.add adds flush,?_,?_,?_⟩
  · intro l f hf
    rcases (adds.members l f).mp hf with ⟨-,rfl⟩ | old
    · exact present
    · exact sound.present l f old
  · intro l f hf
    rcases (adds.members l f).mp hf with ⟨-,rfl⟩ | old
    · exact number
    · exact sound.numbers l f old
  · rw [adds.entries]
    exact sound.covers.layer newer

/-- The inputs of a compaction are replaced by its outputs. -/
theorem Sound.replace {c : Compaction K} {outs : List (FileMetaData K)}
    (sound : Sound d covered v next floor) (distinct : Distinct covered) (safe : c.Safe v d.table)
    (fits : c.Fits v d.table outs) (replaces : c.Replaces v v' outs)
    (dropped : ∀ e ∈ filesSet d.table c.inputs, e ∉ filesSet d.table outs →
      c.Dropped (filesSet d.table c.inputs) (filesSet d.table outs) floor e)
    (present : ∀ f ∈ outs, ∃ entries, d.tables f.number = some ⟨entries,true⟩)
    (numbers : ∀ f ∈ outs, f.number < next) : Sound d covered v' next floor := by
  refine ⟨sound.wf.replace safe fits replaces,?_,?_,?_⟩
  · intro l f hf
    rcases (replaces.members l f).mp hf with ⟨-,new⟩ | ⟨old,-⟩
    · exact present f new
    · exact sound.present l f old
  · intro l f hf
    rcases (replaces.members l f).mp hf with ⟨-,new⟩ | ⟨old,-⟩
    · exact numbers f new
    · exact sound.numbers l f old
  · exact (replaces.covers sound.wf (sound.distinct distinct) safe fits floor dropped).trans sound.covers

end Sound

section Records

/-- What `VersionSet::Recover` gathers from the records. -/
def recoverRecords (records : List (ManifestRecord K V)) : Recovered K :=
  (records.map (·.edit)).foldl Recovered.step Recovered.start

def Recovered.version (r : Recovered K) : Version K := r.builder.saveTo

def Recovered.log (r : Recovered K) : Nat := r.logNumber.getD 0

def Recovered.next (r : Recovered K) : Nat := r.nextFileNumber.getD 0

def Recovered.last (r : Recovered K) : Nat := r.lastSequence.getD 0

theorem recoverRecords_append (records : List (ManifestRecord K V)) (r : ManifestRecord K V) :
    recoverRecords (records ++ [r]) = (recoverRecords records).step r.edit := by
  simp [recoverRecords]

/-- A file of this number was added at some time. -/
def Builder.Uses (b : Builder K) (n : Nat) : Prop := ∃ l, ∃ f ∈ b.added l, f.number = n

theorem mem_insertFile_of_mem (f g : FileMetaData K) (files : List (FileMetaData K))
    (member : g ∈ files) : g ∈ insertFile f files := by
  induction files with
  | nil => cases member
  | cons h rest ih =>
    simp only [insertFile]
    split
    · exact List.mem_cons_of_mem _ member
    · split
      · rcases List.mem_cons.mp member with rfl | later
        · exact List.mem_cons_self
        · exact List.mem_cons_of_mem _ (ih later)
      · exact member

theorem added_mono (ns : List (Nat × FileMetaData K)) (b : Builder K) (l : Nat) (f : FileMetaData K)
    (member : f ∈ b.added l) : f ∈ (ns.foldl (fun b n => b.add n.1 n.2) b).added l := by
  induction ns generalizing b with
  | nil => exact member
  | cons n rest ih =>
    apply ih
    by_cases same : l = n.1
    · subst same
      simpa [Builder.add] using mem_insertFile_of_mem n.2 f _ member
    · simpa [Builder.add,Function.update_of_ne same] using member

theorem Builder.Uses.apply {b : Builder K} {n : Nat} (uses : b.Uses n) (e : VersionEdit K) :
    (b.apply e).Uses n := by
  obtain ⟨l,f,member,rfl⟩ := uses
  refine ⟨l,f,added_mono e.newFiles _ l f ?_,rfl⟩
  rw [(deleteAll_base e.deletedFiles b).2]
  exact member

theorem uses_append {records : List (ManifestRecord K V)} {n : Nat}
    (uses : (recoverRecords records).builder.Uses n) (more : List (ManifestRecord K V)) :
    (recoverRecords (records ++ more)).builder.Uses n := by
  induction more generalizing records with
  | nil => simpa using uses
  | cons r rest ih =>
    rw [List.append_cons]
    apply ih
    rw [recoverRecords_append]
    exact uses.apply r.edit

/-- Files only move down: a file was never deeper than it is. -/
structure Recovered.Wf (r : Recovered K) : Prop where
  base : r.builder.base = Version.empty
  builder : r.builder.Wf
  aged : ∀ l l' g f, g ∈ r.builder.added l → f ∈ r.version.files l' → g.number = f.number → l ≤ l'
  prev : r.prevLogNumber.getD 0 = 0

/-- The files of an edit are new, or moved down from where they are. -/
structure VersionEdit.Fits (e : VersionEdit K) (r : Recovered K) : Prop where
  fresh : ∀ l, ∀ f ∈ e.newAt l, ¬r.builder.Uses f.number ∨ ∃ l' < l, f ∈ r.version.files l'
  distinct : ∀ l, (e.newAt l).Pairwise fun f g => f.number ≠ g.number

variable {r : Recovered K}

theorem Recovered.Wf.uses (wf : r.Wf) {l : Nat} {f : FileMetaData K} (member : f ∈ r.version.files l) :
    r.builder.Uses f.number := by
  rcases ((mem_saveTo r.builder l f).mp member).1 with old | new
  · rw [wf.base] at old
    cases old
  · exact ⟨l,f,new,rfl⟩

/-- Replaying a fitting edit is applying it to the version recovered so far. -/
theorem Recovered.Wf.step (wf : r.Wf) {e : VersionEdit K} (fits : e.Fits r)
    (prev : e.prevLogNumber.getD 0 = 0)
    (unique : ∀ l l' f g, f ∈ (r.version.apply e).files l → g ∈ (r.version.apply e).files l' →
      f.number = g.number → l = l') :
    (r.step e).Wf ∧ (r.step e).version = r.version.apply e ∧
      ∀ n, (r.step e).builder.Uses n → r.builder.Uses n ∨
        ∃ l, ∃ f ∈ (r.version.apply e).files l, f.number = n := by
  have away : ∀ l, ∀ f ∈ e.newAt l, ∀ g ∈ r.builder.added l, g.number ≠ f.number := by
    intro l f hf g hg same
    rcases fits.fresh l f hf with unused | ⟨l',lt,member⟩
    · exact unused ⟨l,g,hg,same⟩
    · have := wf.aged l l' g f hg member same
      omega
  have fresh : e.FreshFor r.builder := by
    refine ⟨?_,fun l f hf g hg same => absurd same (away l f hf g hg),fun l => named_of_pairwise (fits.distinct l)⟩
    intro l f _ g hg
    rw [wf.base] at hg
    cases hg
  have absent : ∀ l, ∀ f ∈ e.newAt l, ∀ g ∈ r.version.files l, g.number ≠ f.number := by
    intro l f hf g hg
    rcases ((mem_saveTo r.builder l g).mp hg).1 with old | old
    · exact fresh.base l f hf g old
    · exact away l f hf g old
  obtain ⟨builder,members⟩ := wf.builder.apply fresh
  have version : (r.step e).version = r.version.apply e := wf.builder.apply_saveTo fresh absent
  have base : (r.builder.apply e).base = Version.empty := (r.builder.apply_base e).trans wf.base
  have added := fun l => (wf.builder.apply_added fresh l).2
  refine ⟨⟨base,builder,?_,?_⟩,version,?_⟩
  · intro l l' g f hg hf same
    rcases (added l g).mp hg with new | old
    · -- a new file is in the version, where numbers are unique
      have member : g ∈ (r.step e).version.files l := (members l g).mpr (.inl new)
      rw [version] at member hf
      exact (unique l l' g f member hf same).le
    · rcases (members l' f).mp hf with newf | ⟨oldf,-⟩
      · rcases fits.fresh l' f newf with unused | ⟨l'',lt,member⟩
        · exact absurd ⟨l,g,old,same⟩ unused
        · have := wf.aged l l'' g f old member same
          omega
      · exact wf.aged l l' g f old oldf same
  · have old := wf.prev
    cases isPrev : e.prevLogNumber with
    | none => simpa [Recovered.step,isPrev] using old
    | some n => simpa [Recovered.step,isPrev] using prev
  · rintro n ⟨l,f,hf,rfl⟩
    rcases (added l f).mp hf with new | old
    · refine .inr ⟨l,f,?_,rfl⟩
      rw [← version]
      exact (members l f).mpr (.inl new)
    · exact .inl ⟨l,f,old,rfl⟩

end Records

/-- The records, read as far as here, stand for the history before their log number. -/
structure Good (d : Disk K V) (h : History K V) (number : Nat) (records : List (ManifestRecord K V)) :
    Prop where
  wf : (recoverRecords records).Wf
  complete : (recoverRecords records).versionSet = some ⟨(recoverRecords records).version,
    (recoverRecords records).next + 1,(recoverRecords records).next,(recoverRecords records).last,
    (recoverRecords records).log,0,(recoverRecords records).compactPointer⟩
  covered : records.getLast?.map (·.covered) = some (h.before (recoverRecords records).log)
  sound : Sound d (h.before (recoverRecords records).log).set (recoverRecords records).version
    (recoverRecords records).next (recoverRecords records).last
  bounded : ∀ e ∈ (h.before (recoverRecords records).log).set, e.sequence ≤ (recoverRecords records).last
  log : (recoverRecords records).log < (recoverRecords records).next
  manifest : number < (recoverRecords records).next
  last : (recoverRecords records).last < kMaxSequenceNumber
  used : ∀ n, (recoverRecords records).builder.Uses n → n < (recoverRecords records).next

section Good
variable {d d' : Disk K V} {h h' : History K V} {number : Nat} {records : List (ManifestRecord K V)}

/-- Tables that are not in the version, and history that is not covered, may change. -/
theorem Good.frame (good : Good d h number records)
    (same : ∀ l, ∀ f ∈ (recoverRecords records).version.files l, d'.tables f.number = d.tables f.number)
    (covered : h'.before (recoverRecords records).log = h.before (recoverRecords records).log) :
    Good d' h' number records := by
  refine ⟨good.wf,good.complete,?_,?_,?_,good.log,good.manifest,good.last,good.used⟩
  · rw [covered]
    exact good.covered
  · rw [covered]
    exact good.sound.frame same
  · rw [covered]
    exact good.bounded

/-- An edit as `LogAndApply` completes it. -/
structure VersionEdit.Completes (e : VersionEdit K) (log next last : Nat) : Prop where
  log : e.logNumber = some log
  prev : e.prevLogNumber.getD 0 = 0
  next : e.nextFileNumber = some next
  last : e.lastSequence = some last

/-- A record whose version is sound is appended. -/
theorem Good.append (wf : (recoverRecords records).Wf) {e : VersionEdit K} {log next last : Nat}
    (used : ∀ n, (recoverRecords records).builder.Uses n → n < next)
    (completes : e.Completes log next last)
    (fits : e.Fits (recoverRecords records))
    (sound : Sound d (h.before log).set ((recoverRecords records).version.apply e) next last)
    (bounded : ∀ x ∈ (h.before log).set, x.sequence ≤ last) (logs : log < next)
    (manifest : number < next) (small : last < kMaxSequenceNumber) : Good d h number (records ++ [⟨e,h.before log⟩]) := by
  obtain ⟨stepWf,version,uses⟩ := wf.step fits completes.prev fun l l' f g hf hg same =>
    (sound.wf.unique l l' f g hf hg same).1
  have recovered := recoverRecords_append records (⟨e,h.before log⟩ : ManifestRecord K V)
  have isLog : ((recoverRecords records).step e).log = log := by
    simp [Recovered.log,Recovered.step,completes.log]
  have isNext : ((recoverRecords records).step e).next = next := by
    simp [Recovered.next,Recovered.step,completes.next]
  have isLast : ((recoverRecords records).step e).last = last := by
    simp [Recovered.last,Recovered.step,completes.last]
  refine ⟨by rw [recovered]; exact stepWf,?_,?_,?_,?_,?_,?_,?_,?_⟩
  · rw [recovered,isLog,isNext,isLast]
    have noPrev : (e.prevLogNumber.or (recoverRecords records).prevLogNumber).getD 0 = 0 := stepWf.prev
    simp only [Recovered.versionSet,Recovered.step,completes.log,completes.next,completes.last,
      Option.some_or,noPrev]
    rfl
  · rw [recovered,isLog]
    simp
  · rw [recovered,isLog,isNext,isLast,version]
    exact sound
  · rw [recovered,isLog,isLast]
    exact bounded
  · rw [recovered,isLog,isNext]
    exact logs
  · rw [recovered,isNext]
    exact manifest
  · rw [recovered,isLast]
    exact small
  · rw [recovered,isNext]
    intro n hn
    rcases uses n hn with old | ⟨l,f,hf,rfl⟩
    · exact used n old
    · exact sound.numbers l f hf

end Good

/-- The records of one log, as they stand in the history. -/
def History.inLog (h : History K V) (n : Nat) : History K V := h.filter fun r => decide (r.1 = n)

def ManifestFile.upTo (m : ManifestFile K V) (k : Nat) : Recovered K := recoverRecords (m.records.take k)

/-- The manifest that `CURRENT` names is good wherever a crash may cut it, and what its
version does not cover is in the logs. -/
structure Disk.Ok (d : Disk K V) (h : History K V) (number : Nat) (m : ManifestFile K V) : Prop where
  named : d.currentFile = some (.line number)
  manifest : d.manifests number = some m
  nonempty : 1 ≤ m.synced
  synced : m.synced ≤ m.records.length
  good : ∀ k, m.synced ≤ k → k ≤ m.records.length → Good d h number (m.records.take k)
  forward : ∀ j k, m.synced ≤ j → j ≤ k → k ≤ m.records.length → (m.upTo j).log ≤ (m.upTo k).log
  increasing : (d.logs.map (·.number)).Pairwise (· < ·)
  positive : ∀ l ∈ d.logs, 0 < l.number
  bounded : ∀ l ∈ d.logs, l.synced ≤ l.records.length
  part : ∀ l ∈ d.logs, (m.upTo m.synced).log ≤ l.number →
    l.records.map (l.number,·) <+: h.inLog l.number
  whole : ∀ l ∈ d.logs, (m.upTo m.records.length).log ≤ l.number →
    l.records.map (l.number,·) = h.inLog l.number
  present : ∀ r ∈ h, (m.upTo m.records.length).log ≤ r.1 → ∃ l ∈ d.logs, l.number = r.1
  ordered : h.Ordered
  small : ∀ r ∈ h, r.2.sequence + r.2.count ≤ kMaxSequenceNumber

theorem Disk.Ok.current {d : Disk K V} {h : History K V} {number : Nat} {m : ManifestFile K V} (ok : d.Ok h number m) :
    d.current = some number := Disk.current_line ok.named

section Logs
variable {h : History K V}

omit [LinearOrder K] in
theorem inLog_eq_nil {n : Nat} (none : ∀ r ∈ h, r.1 ≠ n) : h.inLog n = [] :=
  List.filter_eq_nil_iff.mpr fun r hr => by simpa using none r hr

omit [LinearOrder K] in
theorem inLog_append (h h' : History K V) (n : Nat) :
    History.inLog (h ++ h') n = h.inLog n ++ h'.inLog n := List.filter_append ..

omit [LinearOrder K] in
theorem History.before_inLog (h : History K V) {k n : Nat} (lt : k < n) :
    (h.before n).inLog k = h.inLog k := by
  simp only [History.inLog,History.before,List.filter_filter]
  refine List.filter_congr fun r _ => ?_
  by_cases same : r.1 = k
  · simp [same,lt]
  · simp [same]

omit [LinearOrder K] in
/-- A history whose logs increase is what its logs hold, one after the other. -/
theorem flatMap_inLog (sorted : h.Pairwise fun a b => a.1 ≤ b.1) (ns : List Nat)
    (increasing : ns.Pairwise (· < ·)) : ns.flatMap h.inLog = h.filter fun r => decide (r.1 ∈ ns) := by
  induction ns with
  | nil => simp
  | cons n rest ih =>
    obtain ⟨first,tail⟩ := List.pairwise_cons.mp increasing
    rw [List.flatMap_cons,ih tail]
    clear ih
    induction h with
    | nil => rfl
    | cons r t ih =>
      obtain ⟨early,later⟩ := List.pairwise_cons.mp sorted
      have step := ih later
      simp only [History.inLog,List.mem_cons,Bool.decide_or] at step
      by_cases here : r.1 = n
      · subst here
        have out : r.1 ∉ rest := fun member => absurd (first _ member) (lt_irrefl _)
        simp [History.inLog,out,← step]
      · by_cases inside : r.1 ∈ rest
        · have none : History.inLog t n = [] := by
            refine inLog_eq_nil fun r' hr' same => ?_
            have := early r' hr'
            have := first _ inside
            omega
          simp only [History.inLog] at none
          simp [History.inLog,here,inside,← step,none]
        · simp [History.inLog,here,inside,← step]

/-- The records of logs, tagged with the number of their log. -/
def logRecords (logs : List (LogFile K V)) : History K V :=
  logs.flatMap fun l => l.records.map (l.number,·)

omit [LinearOrder K] in
theorem mem_logRecords {logs : List (LogFile K V)} {r : Nat × WriteBatch K V} :
    r ∈ logRecords logs ↔ ∃ l ∈ logs, l.number = r.1 ∧ r.2 ∈ l.records := by
  simp only [logRecords,List.mem_flatMap,List.mem_map]
  constructor
  · rintro ⟨l,hl,b,hb,rfl⟩
    exact ⟨l,hl,rfl,hb⟩
  · rintro ⟨l,hl,same,hb⟩
    exact ⟨l,hl,r.2,hb,by rw [same]⟩

omit [LinearOrder K] in
theorem logRecords_inLog (logs : List (LogFile K V))
    (increasing : (logs.map (·.number)).Pairwise (· < ·)) (l : LogFile K V) (member : l ∈ logs) :
    (logRecords logs).inLog l.number = l.records.map (l.number,·) := by
  induction logs with
  | nil => cases member
  | cons first rest ih =>
    obtain ⟨lower,tail⟩ := List.pairwise_cons.mp increasing
    have own : ∀ x : LogFile K V, History.inLog (x.records.map (x.number,·)) x.number =
        x.records.map (x.number,·) := by
      intro x
      refine List.filter_eq_self.mpr ?_
      simp
    rw [logRecords,List.flatMap_cons,inLog_append]
    rcases List.mem_cons.mp member with rfl | later
    · have none : History.inLog (logRecords rest) l.number = [] := by
        refine inLog_eq_nil fun r hr same => ?_
        obtain ⟨x,hx,number,-⟩ := mem_logRecords.mp hr
        have : l.number < x.number := lower x.number (List.mem_map_of_mem hx)
        omega
      rw [own]
      exact (congrArg (_ ++ ·) none).trans (List.append_nil _)
    · have none : History.inLog (first.records.map (first.number,·)) l.number = [] := by
        refine inLog_eq_nil ?_
        simp only [List.mem_map,forall_exists_index,and_imp,forall_apply_eq_imp_iff₂]
        intro b _ same
        have : first.number < l.number := lower l.number (List.mem_map_of_mem later)
        omega
      rw [none,List.nil_append]
      exact ih tail later

omit [LinearOrder K] in
theorem History.Ordered.numbers (ordered : h.Ordered) : h.Pairwise fun a b => a.1 ≤ b.1 :=
  ordered.imp fun both => both.1

omit [LinearOrder K] in
theorem logRecords_sublist (logs : List (LogFile K V)) (f : LogFile K V → History K V)
    (sub : ∀ l ∈ logs, (l.records.map (l.number,·)).Sublist (f l)) :
    (logRecords logs).Sublist (logs.flatMap f) := by
  induction logs with
  | nil => exact List.Sublist.refl _
  | cons l rest ih =>
    rw [logRecords,List.flatMap_cons,List.flatMap_cons]
    exact (sub l List.mem_cons_self).append (ih fun x hx => sub x (List.mem_cons_of_mem _ hx))

end Logs

section Crash
variable {d : Disk K V} {h : History K V} {number : Nat} {m : ManifestFile K V}

omit [LinearOrder K] in
theorem logHistory_eq (d : Disk K V) (n : Nat) :
    d.logHistory n = logRecords (d.logs.filter fun l => decide (n ≤ l.number)) := rfl

omit [LinearOrder K] in
theorem filter_numbers (d : Disk K V) (n : Nat) (increasing : (d.logs.map (·.number)).Pairwise (· < ·)) :
    ((d.logs.filter fun l => decide (n ≤ l.number)).map (·.number)).Pairwise (· < ·) :=
  increasing.sublist (List.filter_sublist.map _)

/-- The logs hold what the last record of the manifest does not cover. -/
theorem Disk.Ok.logHistory (ok : d.Ok h number m) :
    d.logHistory (m.upTo m.records.length).log = h.since (m.upTo m.records.length).log := by
  set n := (m.upTo m.records.length).log with hn
  have whole : d.logHistory n =
      ((d.logs.filter fun l => decide (n ≤ l.number)).map (·.number)).flatMap h.inLog := by
    rw [logHistory_eq,logRecords,List.flatMap_map]
    refine List.flatMap_congr fun l hl => ?_
    obtain ⟨member,late⟩ := List.mem_filter.mp hl
    exact ok.whole l member (by simpa using late)
  rw [whole,flatMap_inLog ok.ordered.numbers _ (filter_numbers d n ok.increasing)]
  refine List.filter_congr fun r hr => ?_
  have iff : r.1 ∈ (d.logs.filter fun l => decide (n ≤ l.number)).map (·.number) ↔ n ≤ r.1 := by
    constructor
    · intro member
      obtain ⟨l,hl,same⟩ := List.mem_map.mp member
      have := (List.mem_filter.mp hl).2
      simp only [decide_eq_true_eq] at this
      omega
    · intro late
      obtain ⟨l,hl,same⟩ := ok.present r hr late
      exact List.mem_map.mpr ⟨l,List.mem_filter.mpr ⟨hl,by simp; omega⟩,same⟩
  simp only [iff]

/-- What the files stand for is the history. -/
theorem Disk.Ok.history_eq (ok : d.Ok h number m) : d.history = h := by
  have good := ok.good m.records.length ok.synced le_rfl
  rw [List.take_length] at good
  have manifest : d.current.bind d.manifests = some m := by
    rw [ok.current]
    exact ok.manifest
  obtain ⟨r,last,covered⟩ := Option.map_eq_some_iff.mp good.covered
  have recover : m.recover = _ := good.complete
  have split := ok.ordered.split (m.upTo m.records.length).log
  rw [← ok.logHistory] at split
  simp only [ManifestFile.upTo,List.take_length] at split
  rw [Disk.history,manifest]
  simp only [last,recover,covered]
  exact split

omit [LinearOrder K] in
theorem cut_take (m : ManifestFile K V) (n k : Nat) (inside : k ≤ (m.cut n).records.length) :
    (m.cut n).records.take k = m.records.take k := by
  simp only [ManifestFile.cut,List.length_take] at inside ⊢
  rw [List.take_take,min_eq_left (by omega)]

omit [LinearOrder K] in
theorem cut_length (m : ManifestFile K V) (n : Nat) (synced : m.synced ≤ m.records.length) :
    m.synced ≤ (m.cut n).records.length ∧ (m.cut n).records.length ≤ m.records.length := by
  simp only [ManifestFile.cut,List.length_take]
  omega

omit [LinearOrder K] in
/-- The crashed logs: each is cut, but not below what was synced. -/
theorem mem_crash_logs {cut : Cut} {l : LogFile K V} (member : l ∈ (d.crash cut).logs) :
    ∃ old ∈ d.logs, l = old.cut (cut (.log old.number)) ∧ l.number = old.number ∧
      l.synced = old.synced ∧ l.records <+: old.records := by
  obtain ⟨old,ho,rfl⟩ := List.mem_map.mp member
  exact ⟨old,ho,rfl,rfl,rfl,List.take_prefix _ _⟩

theorem Disk.Ok.good_at (ok : d.Ok h number m) (cut : Cut) (k : Nat) (low : m.synced ≤ k)
    (high : k ≤ (m.cut (cut (.manifest number))).records.length) :
    Good d h number ((m.cut (cut (.manifest number))).records.take k) := by
  have length := cut_length m (cut (.manifest number)) ok.synced
  rw [cut_take m _ k high]
  exact ok.good k low (high.trans length.2)

theorem cut_upTo (m : ManifestFile K V) (n k : Nat) (inside : k ≤ (m.cut n).records.length) :
    (m.cut n).upTo k = m.upTo k := by
  rw [ManifestFile.upTo,cut_take m n k inside,ManifestFile.upTo]

/-- The log number of the last record that a crash leaves. -/
def Disk.logAfter (m : ManifestFile K V) (n : Nat) : Nat := ((m.cut n).upTo (m.cut n).records.length).log

theorem Disk.Ok.crash_history (ok : d.Ok h number m) (cut : Cut) :
    (d.crash cut).history = h.before (Disk.logAfter m (cut (.manifest number))) ++
      (d.crash cut).logHistory (Disk.logAfter m (cut (.manifest number))) := by
  have length := cut_length m (cut (.manifest number)) ok.synced
  have good := ok.good_at cut _ length.1 le_rfl
  rw [List.take_length] at good
  have manifest : (d.crash cut).current.bind (d.crash cut).manifests =
      some (m.cut (cut (.manifest number))) := by
    rw [Disk.current_line (Disk.crash_line ok.named cut)]
    simp [Disk.crash,ok.manifest]
  obtain ⟨r,last,covered⟩ := Option.map_eq_some_iff.mp good.covered
  have recover : (m.cut (cut (.manifest number))).recover = _ := good.complete
  rw [Disk.history,manifest]
  simp only [last,recover,covered]
  simp only [Disk.logAfter,ManifestFile.upTo,List.take_length]

theorem Disk.Ok.crash_sublist (ok : d.Ok h number m) (cut : Cut) :
    (d.crash cut).history.Sublist h := by
  have length := cut_length m (cut (.manifest number)) ok.synced
  rw [ok.crash_history cut]
  set n := Disk.logAfter m (cut (.manifest number)) with hn
  conv_rhs => rw [← ok.ordered.split n]
  refine (List.Sublist.refl _).append ?_
  have low : (m.upTo m.synced).log ≤ n := by
    rw [hn,Disk.logAfter,cut_upTo m _ _ le_rfl]
    exact ok.forward _ _ le_rfl length.1 length.2
  have increasing : ((d.crash cut).logs.map (·.number)).Pairwise (· < ·) := by
    have same : (d.crash cut).logs.map (·.number) = d.logs.map (·.number) := by
      simp [Disk.crash,Function.comp_def,LogFile.cut]
    rw [same]
    exact ok.increasing
  rw [logHistory_eq]
  refine (logRecords_sublist _ (fun l => h.inLog l.number) ?_).trans ?_
  · intro l hl
    obtain ⟨member,late⟩ := List.mem_filter.mp hl
    obtain ⟨old,ho,-,sameNumber,-,kept⟩ := mem_crash_logs member
    have full := ok.part old ho (low.trans (by simpa [sameNumber] using late))
    rw [← sameNumber] at full
    exact ((kept.map _).trans full).sublist
  · rw [← List.flatMap_map,flatMap_inLog ok.ordered.numbers _ (filter_numbers _ n increasing)]
    refine List.monotone_filter_right h ?_
    intro r hr
    simp only [List.mem_map,List.mem_filter,decide_eq_true_eq] at hr ⊢
    obtain ⟨l,⟨-,late⟩,same⟩ := hr
    omega

/-- A crash leaves a disk that stands for part of the history. -/
theorem Disk.Ok.crash (ok : d.Ok h number m) (cut : Cut) :
    (d.crash cut).Ok (d.crash cut).history number (m.cut (cut (.manifest number))) := by
  have length := cut_length m (cut (.manifest number)) ok.synced
  have sublist := ok.crash_sublist cut
  have history := ok.crash_history cut
  set n := Disk.logAfter m (cut (.manifest number)) with hn
  have isLast : ((m.cut (cut (.manifest number))).upTo
      (m.cut (cut (.manifest number))).records.length).log = n := rfl
  have atSynced : ((m.cut (cut (.manifest number))).upTo m.synced).log = (m.upTo m.synced).log := by
    rw [cut_upTo m _ _ length.1]
  have below : ∀ k, m.synced ≤ k → k ≤ (m.cut (cut (.manifest number))).records.length →
      (m.upTo k).log ≤ n := by
    intro k low high
    rw [hn,Disk.logAfter,cut_upTo m _ _ le_rfl]
    exact ok.forward k _ low high length.2
  have late : ∀ r ∈ (d.crash cut).logHistory n, n ≤ r.1 := by
    intro r hr
    rw [logHistory_eq] at hr
    obtain ⟨l,hl,same,-⟩ := mem_logRecords.mp hr
    have := (List.mem_filter.mp hl).2
    simp only [decide_eq_true_eq] at this
    omega
  have before : ∀ k, k ≤ n → (d.crash cut).history.before k = h.before k := by
    intro k le
    rw [history,History.before_append _ _ _ fun r hr => le.trans (late r hr),h.before_before le]
  have increasing : ((d.crash cut).logs.map (·.number)).Pairwise (· < ·) := by
    have same : (d.crash cut).logs.map (·.number) = d.logs.map (·.number) := by
      simp [Disk.crash,Function.comp_def,LogFile.cut]
    rw [same]
    exact ok.increasing
  have lateLog : ∀ l ∈ (d.crash cut).logs, n ≤ l.number →
      l.records.map (l.number,·) = (d.crash cut).history.inLog l.number := by
    intro l hl after
    have none : History.inLog (h.before n) l.number = [] := by
      refine inLog_eq_nil fun r hr same => ?_
      have := (List.mem_filter.mp hr).2
      simp only [decide_eq_true_eq] at this
      omega
    rw [history,inLog_append,none,List.nil_append,logHistory_eq,
      logRecords_inLog _ (filter_numbers _ n increasing) l
        (List.mem_filter.mpr ⟨hl,by simpa using after⟩)]
  refine ⟨Disk.crash_line ok.named cut,?_,ok.nonempty,length.1,?_,?_,increasing,?_,?_,?_,?_,?_,?_,?_⟩
  · simp [Disk.crash,ok.manifest]
  · intro k low high
    have good := ok.good_at cut k low high
    have logK : (recoverRecords ((m.cut (cut (.manifest number))).records.take k)).log ≤ n := by
      rw [cut_take m _ k high]
      exact below k low high
    refine good.frame ?_ (before _ logK)
    intro l f hf
    obtain ⟨entries,there⟩ := good.sound.present l f hf
    simp [Disk.crash,there,TableFile.cut]
  · intro j k low le high
    rw [cut_upTo m _ j (le.trans high),cut_upTo m _ k high]
    exact ok.forward j k low le (high.trans length.2)
  · intro l hl
    obtain ⟨old,ho,rfl,-⟩ := mem_crash_logs hl
    exact ok.positive old ho
  · intro l hl
    obtain ⟨old,ho,rfl,-⟩ := mem_crash_logs hl
    have := ok.bounded old ho
    simp only [LogFile.cut,List.length_take]
    omega
  · intro l hl after
    rw [show ((m.cut (cut (.manifest number))).upTo (m.cut (cut (.manifest number))).synced).log =
      (m.upTo m.synced).log from atSynced] at after
    by_cases new : n ≤ l.number
    · rw [lateLog l hl new]
    · obtain ⟨old,ho,-,same,-,kept⟩ := mem_crash_logs hl
      have full := ok.part old ho (same ▸ after)
      rw [← same] at full
      have sameLog : (d.crash cut).history.inLog l.number = h.inLog l.number := by
        rw [← History.before_inLog _ (not_le.mp new),before n le_rfl,
          History.before_inLog _ (not_le.mp new)]
      rw [sameLog]
      exact (kept.map _).trans full
  · intro l hl after
    exact lateLog l hl after
  · intro r hr after
    rw [history] at hr
    rcases List.mem_append.mp hr with early | log
    · have := (List.mem_filter.mp early).2
      simp only [decide_eq_true_eq] at this
      rw [isLast] at after
      omega
    · rw [logHistory_eq] at log
      obtain ⟨l,hl,same,-⟩ := mem_logRecords.mp log
      exact ⟨l,(List.mem_filter.mp hl).1,same⟩
  · exact ok.ordered.sublist sublist
  · exact fun r hr => ok.small r (sublist.subset hr)

end Crash

end LevelDB
