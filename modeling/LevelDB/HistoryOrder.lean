import LevelDB.Recovery
import LevelDB.TreeEdit

/-! The history of a database: the batches of its logs in commit order. Logs and
sequence numbers increase along it, so what is later is newer, and a memtable is filled
from one of its segments. -/
namespace LevelDB

variable {K V : Type}

/-- Log numbers do not decrease and sequence numbers increase. -/
def History.Ordered (h : History K V) : Prop :=
  h.Pairwise fun a b => a.1 ≤ b.1 ∧ ∀ e ∈ a.2.entries, ∀ e' ∈ b.2.entries, e.sequence < e'.sequence

/-- The part of the history in logs from `logNumber` on. -/
def History.since (h : History K V) (logNumber : Nat) : History K V :=
  h.filter fun r => decide (logNumber ≤ r.1)

/-- The entries of a history as a set. -/
def History.set (h : History K V) : Set (Entry K V) := entrySet h.entries

theorem mem_batch_entries {b : WriteBatch K V} {e : Entry K V} (member : e ∈ b.entries) :
    ∃ i < b.count, e.sequence = b.sequence + i ∧ b.updates[i]? = some (e.userKey,e.value) := by
  obtain ⟨i,bound,rfl⟩ := List.mem_mapIdx.mp member
  exact ⟨i,bound,rfl,by simp [bound]⟩

theorem batch_entries_sorted (b : WriteBatch K V) :
    b.entries.Pairwise fun a c => a.sequence < c.sequence := by
  rw [List.pairwise_iff_getElem]
  intro i j hi hj lt
  simp only [WriteBatch.entries,List.getElem_mapIdx]
  omega

theorem History.entries_append (h h' : History K V) :
    History.entries (h ++ h') = h.entries ++ h'.entries := by
  simp [History.entries]

@[simp] theorem History.set_append (h h' : History K V) :
    History.set (h ++ h') = h.set ∪ h'.set := by
  ext e
  simp [History.set,History.entries_append]

@[simp] theorem History.set_nil : History.set ([] : History K V) = ∅ := by
  ext e
  simp [History.set,History.entries]

theorem mem_history_set {h : History K V} {e : Entry K V} :
    e ∈ h.set ↔ ∃ r ∈ h, e ∈ r.2.entries := by
  simp [History.set,History.entries]

theorem History.set_mono {h h' : History K V} (sub : h ⊆ h') : h.set ⊆ h'.set := by
  intro e member
  obtain ⟨r,hr,he⟩ := mem_history_set.mp member
  exact mem_history_set.mpr ⟨r,sub hr,he⟩

theorem History.before_subset (h : History K V) (n : Nat) : h.before n ⊆ h :=
  List.filter_subset_self _

theorem History.since_subset (h : History K V) (n : Nat) : h.since n ⊆ h :=
  List.filter_subset_self _

theorem History.set_split (h : History K V) (n : Nat) : h.set = (h.since n).set ∪ (h.before n).set := by
  ext e
  constructor
  · intro member
    obtain ⟨r,hr,he⟩ := mem_history_set.mp member
    by_cases late : n ≤ r.1
    · exact .inl (mem_history_set.mpr ⟨r,List.mem_filter.mpr ⟨hr,by simpa using late⟩,he⟩)
    · exact .inr (mem_history_set.mpr ⟨r,List.mem_filter.mpr ⟨hr,by simpa using late⟩,he⟩)
  · rintro (member | member)
    · exact History.set_mono (h.since_subset n) member
    · exact History.set_mono (h.before_subset n) member

section Ordered
variable {h : History K V}

theorem History.Ordered.sublist {h' : History K V} (ordered : h.Ordered) (sub : h'.Sublist h) :
    h'.Ordered :=
  List.Pairwise.sublist sub ordered

theorem History.Ordered.entries_sorted (ordered : h.Ordered) :
    h.entries.Pairwise fun a b => a.sequence < b.sequence :=
  List.pairwise_flatMap.mpr ⟨fun r _ => batch_entries_sorted r.2,ordered.imp fun both => both.2⟩

theorem History.Ordered.distinct (ordered : h.Ordered) : Distinct h.set := by
  intro a ha b hb _ same
  by_contra ne
  rcases either_of_pairwise ordered.entries_sorted a b ha hb ne with lt | lt
  · omega
  · omega

/-- What is later in the history is newer. -/
theorem History.Ordered.newer {early late : History K V} (ordered : (early ++ late).Ordered) :
    Newer late.set early.set := by
  intro a ha b hb _
  obtain ⟨r,hr,ina⟩ := mem_history_set.mp ha
  obtain ⟨r',hr',inb⟩ := mem_history_set.mp hb
  exact ((List.pairwise_append.mp ordered).2.2 r' hr' r hr).2 b inb a ina

/-- The history is the part before a log and the part from it on. -/
theorem History.Ordered.split (ordered : h.Ordered) (n : Nat) : h.before n ++ h.since n = h := by
  induction h with
  | nil => rfl
  | cons r rest ih =>
    obtain ⟨first,tail⟩ := List.pairwise_cons.mp ordered
    by_cases early : r.1 < n
    · have step := ih tail
      simp only [History.before,History.since] at step ⊢
      simp [early,step]
    · have late : n ≤ r.1 := by omega
      have none : History.before rest n = [] := by
        refine List.filter_eq_nil_iff.mpr ?_
        intro r' hr'
        have := (first r' hr').1
        simp only [decide_eq_true_eq]
        omega
      have all : History.since rest n = rest := by
        refine List.filter_eq_self.mpr ?_
        intro r' hr'
        have := (first r' hr').1
        simp only [decide_eq_true_eq]
        omega
      simp only [History.before,History.since] at none all ⊢
      simp [early,late,none,all]

theorem History.Ordered.since_newer (ordered : h.Ordered) (n : Nat) :
    Newer (h.since n).set (h.before n).set := by
  refine History.Ordered.newer ?_
  rw [ordered.split n]
  exact ordered

theorem History.Ordered.append {late : History K V} (ordered : h.Ordered) (next : late.Ordered)
    (after : ∀ a ∈ h, ∀ b ∈ late, a.1 ≤ b.1 ∧
      ∀ e ∈ a.2.entries, ∀ e' ∈ b.2.entries, e.sequence < e'.sequence) : (h ++ late).Ordered :=
  List.pairwise_append.mpr ⟨ordered,next,after⟩

end Ordered

/-- A record of a log that is still needed does not change what is before. -/
theorem History.before_append (h late : History K V) (n : Nat) (after : ∀ r ∈ late, n ≤ r.1) :
    History.before (h ++ late) n = h.before n := by
  have none : History.before late n = [] := by
    refine List.filter_eq_nil_iff.mpr ?_
    intro r hr
    have := after r hr
    simp only [decide_eq_true_eq]
    omega
  simp only [History.before,List.filter_append] at none ⊢
  rw [none,List.append_nil]

theorem History.before_before (h : History K V) {n m : Nat} (le : n ≤ m) :
    (h.before m).before n = h.before n := by
  simp only [History.before,List.filter_filter]
  refine List.filter_congr ?_
  intro r _
  by_cases lt : r.1 < n
  · have : r.1 < m := by omega
    simp [lt,this]
  · simp [lt]

theorem History.before_all (h : History K V) (n : Nat) (all : ∀ r ∈ h, r.1 < n) : h.before n = h := by
  refine List.filter_eq_self.mpr ?_
  intro r hr
  simpa using all r hr

section MemTable
variable [LinearOrder K] {mem : MemTable K V}

theorem mem_add (mem : MemTable K V) (e a : Entry K V) : a ∈ mem.add e ↔ a = e ∨ a ∈ mem :=
  List.mem_orderedInsert _

theorem add_sorted (sorted : SortedEntries mem) (e : Entry K V) (new : ∀ a ∈ mem, a.key ≠ e.key) :
    SortedEntries (mem.add e) := by
  induction mem with
  | nil => simp [MemTable.add,SortedEntries]
  | cons a rest ih =>
    obtain ⟨first,tail⟩ := List.pairwise_cons.mp sorted
    simp only [MemTable.add,List.orderedInsert_cons]
    split
    · rename_i le
      have lt : e.key < a.key := lt_of_le_of_ne le (new a List.mem_cons_self).symm
      refine List.pairwise_cons.mpr ⟨?_,sorted⟩
      intro b hb
      rcases List.mem_cons.mp hb with rfl | later
      · exact lt
      · exact lt.trans (first b later)
    · rename_i gt
      refine List.pairwise_cons.mpr ⟨?_,ih tail fun b hb => new b (List.mem_cons_of_mem _ hb)⟩
      intro b hb
      rcases (mem_add rest e b).mp hb with rfl | later
      · exact not_le.mp gt
      · exact first b later

theorem addAll_distinct (entries : List (Entry K V)) (sorted : SortedEntries mem)
    (distinct : entries.Pairwise fun a b => a.key ≠ b.key) (new : ∀ a ∈ mem, ∀ e ∈ entries, a.key ≠ e.key) :
    SortedEntries (entries.foldl MemTable.add mem) ∧
      ∀ a, a ∈ entries.foldl MemTable.add mem ↔ a ∈ entries ∨ a ∈ mem := by
  induction entries generalizing mem with
  | nil => exact ⟨sorted,by simp⟩
  | cons e rest ih =>
    obtain ⟨first,tail⟩ := List.pairwise_cons.mp distinct
    have step := ih (add_sorted sorted e fun a ha => new a ha e List.mem_cons_self) tail (by
      intro a ha b hb
      rcases (mem_add mem e a).mp ha with rfl | old
      · exact first b hb
      · exact new a old b (List.mem_cons_of_mem _ hb))
    refine ⟨step.1,?_⟩
    intro a
    rw [List.foldl_cons,step.2,mem_add,List.mem_cons]
    tauto

theorem addAll_spec (entries : List (Entry K V)) (sorted : SortedEntries mem)
    (increasing : entries.Pairwise fun a b => a.sequence < b.sequence)
    (new : ∀ a ∈ mem, ∀ e ∈ entries, a.sequence < e.sequence) :
    SortedEntries (entries.foldl MemTable.add mem) ∧
      ∀ a, a ∈ entries.foldl MemTable.add mem ↔ a ∈ entries ∨ a ∈ mem := by
  have apart : ∀ {a b : Entry K V}, a.sequence < b.sequence → a.key ≠ b.key :=
    fun less same => absurd (congrArg InternalKey.sequence same) (Nat.ne_of_lt less)
  exact addAll_distinct entries sorted (increasing.imp apart) fun a ha e he => apart (new a ha e he)

/-- A batch of newer updates goes to the memtable. -/
theorem insertInto_spec (b : WriteBatch K V) (sorted : SortedEntries mem)
    (new : ∀ a ∈ mem, ∀ e ∈ b.entries, a.sequence < e.sequence) :
    SortedEntries (b.insertInto mem) ∧
      entrySet (b.insertInto mem) = entrySet b.entries ∪ entrySet mem := by
  obtain ⟨kept,members⟩ := addAll_spec b.entries sorted (batch_entries_sorted b) new
  exact ⟨kept,by ext a; exact members a⟩

theorem insertInto_ordered (b : WriteBatch K V) (ordered : OrderedEntries mem) : OrderedEntries (b.insertInto mem) := by
  have total : Std.Total fun a b : Entry K V => a.key ≤ b.key := ⟨fun a b => le_total a.key b.key⟩
  have trans : IsTrans (Entry K V) fun a b => a.key ≤ b.key := ⟨fun _ _ _ => le_trans⟩
  exact List.foldlRecOn b.entries MemTable.add ordered fun mem ordered e _ => ordered.orderedInsert e mem

end MemTable

end LevelDB
