import LevelDB.DbIter
import LevelDB.SnapshotReads

/-! `Get` and the iterator agree. The internal iterator delivers all entries in the order
of their internal keys; `DBIter` shows the first visible entry of each user key, which is
the one that `Get` finds. -/
namespace LevelDB

variable {K V : Type} [LinearOrder K]

theorem LevelFileNumIterator.delivers (s : LevelFileNumIterator K) :
    Delivers LevelFileNumIterator.ops s ((s.files.drop s.index).map fun f => (f.number,f.fileSize)) := by
  generalize rest : s.files.drop s.index = files
  induction files generalizing s with
  | nil =>
    have past := List.drop_eq_nil_iff.mp rest
    show (s.files[s.index]?).map _ = none
    rw [List.getElem?_eq_none past]
    rfl
  | cons f files ih =>
    have here : s.files[s.index]? = some f := by
      rw [← List.head?_drop,rest]
      rfl
    refine ⟨?_,ih _ ?_⟩
    · show (s.files[s.index]?).map _ = _
      rw [here]
      rfl
    · show s.files.drop (s.index + 1) = files
      rw [← List.drop_drop,rest]
      rfl

/-- An iterator over the entries of a memtable or a table. -/
def EntryIter.Over (d : EntryIter K V) (items : List (Entry K V)) : Prop := d.items = items

theorem entry_forward : Forward (entryOps (K := K) (V := V)) Entry.key EntryIter.Over :=
  ListIter.forward Entry.key

section Levels
variable {tables : Tables K V}

/-- A concatenating iterator over the files of a level, and the entries in them. -/
structure ConcatenatingOver (tables : Tables K V) (s : ConcatenatingIterator K V) (items : List (Entry K V)) :
    Prop where
  holds : ∀ f ∈ s.index.files, f.Holds tables
  disjoint : s.index.files.Pairwise fun f g => f.largest < g.smallest
  blocks : s.index.files.length ≤ s.blocks
  cached : ∀ held, s.data = some held → held.2.items = tables held.1.1
  items : items = s.index.files.flatMap fun f => tables f.number

/-- The index stands at a file: the rest of the file, then the files after it. -/
theorem concatenating_delivers {s : ConcatenatingIterator K V} {items : List (Entry K V)}
    (spent : ConcatenatingOver tables s items) (index : Nat) (f : FileMetaData K)
    (after : List (FileMetaData K)) (rest : s.index.files.drop index = f :: after)
    (move : EntryIter K V → EntryIter K V) (moves : ∀ d : EntryIter K V, (move d).items = d.items)
    (part : List (Entry K V)) (delivers : ∀ d : EntryIter K V, d.items = tables f.number → Delivers entryOps (move d) part) :
    Delivers (concatenatingOps tables)
      ((({ s with index := { s.index with index } }.initDataBlock LevelFileNumIterator.ops
        (getFileIterator tables)).mapData move).forth LevelFileNumIterator.ops entryOps
          (getFileIterator tables))
      (part ++ after.flatMap fun f => tables f.number) := by
  have fresh : ∀ h, EntryIter.Over (getFileIterator tables h) ((fun h : Nat × Nat => tables h.1) h) := fun h => rfl
  have indexed := LevelFileNumIterator.delivers { s.index with index }
  simp only [rest,List.map_cons] at indexed
  obtain ⟨d,init,items_⟩ := initDataBlock_data (s := { s with index := { s.index with index } }) fresh
    spent.cached indexed.1
  rw [init]
  have count := congrArg List.length rest
  simp only [List.length_drop,List.length_cons] at count
  have blocks := spent.blocks
  have delivered := skipForward_delivers fresh entry_forward
    (fun d items same => ⟨same,same⟩) (after.map fun f => (f.number,f.fileSize))
    (({ s with index := { s.index with index }, data := some ((f.number,f.fileSize),d) } :
      ConcatenatingIterator K V).mapData move) (f.number,f.fileSize) (f.number,f.fileSize) (move d) part
    (s.blocks + 2) indexed (by simp [TwoLevelIterator.mapData]) ((moves d).trans items_) (delivers d items_)
    (by simp [TwoLevelIterator.mapData]; omega) (by simp; omega)
  simp only [List.flatMap_map] at delivered
  exact delivered

/-- The index is past the last file. -/
theorem concatenating_ends {s : ConcatenatingIterator K V} (index : Nat) (past : s.index.files.length ≤ index)
    (move : EntryIter K V → EntryIter K V) :
    Delivers (concatenatingOps tables)
      ((({ s with index := { s.index with index } }.initDataBlock LevelFileNumIterator.ops
        (getFileIterator tables)).mapData move).forth LevelFileNumIterator.ops entryOps
          (getFileIterator tables)) [] := by
  have none : LevelFileNumIterator.ops.current { s.index with index } = none := by
    show (s.index.files[index]?).map _ = none
    rw [List.getElem?_eq_none past]
    rfl
  show TwoLevelIterator.entry entryOps _ = Option.none
  simp [TwoLevelIterator.forth,TwoLevelIterator.skipForward,TwoLevelIterator.initDataBlock,none,
    TwoLevelIterator.mapData,TwoLevelIterator.entry]

theorem concatenating_forward :
    Forward (concatenatingOps tables) Entry.key (ConcatenatingOver tables) := by
  constructor
  · intro s items spent
    rw [spent.items]
    cases files : s.index.files with
    | nil => exact concatenating_ends 0 (by simp [files]) _
    | cons f after =>
      exact concatenating_delivers spent 0 f after (by simp [files]) entryOps.seekToFirst (fun d => rfl) _
        (fun d same => entry_forward.first d _ same)
  · intro s items t spent
    have sorted : s.index.files.Pairwise fun f g => f.largest ≤ g.largest := by
      refine spent.disjoint.imp_of_mem ?_
      intro f g hf hg lt
      exact lt.le.trans (spent.holds g hg).range
    obtain ⟨before,after,split,index,below,above⟩ := findFile_spec s.index.files t sorted
    have holds := spent.holds
    rw [split] at holds
    have early : ∀ e ∈ before.flatMap fun f => tables f.number, decide (e.key < t) = true := by
      intro e member
      obtain ⟨g,hg,he⟩ := List.mem_flatMap.mp member
      simpa using lt_of_le_of_lt ((holds g (List.mem_append_left _ hg)).le_largest e he) (below g hg)
    rw [spent.items,split,List.flatMap_append,List.dropWhile_append_of_pos early]
    have at_ : (concatenatingOps tables).seek t s =
        (({ s with index := { s.index with index := before.length } }.initDataBlock LevelFileNumIterator.ops
          (getFileIterator tables)).mapData (entryOps.seek t)).forth LevelFileNumIterator.ops entryOps
            (getFileIterator tables) := by
      rw [← index]
      rfl
    rw [at_]
    cases after with
    | nil => exact concatenating_ends before.length (by simp [split]) _
    | cons f after =>
      have found : ((tables f.number).dropWhile fun e => decide (e.key < t)) ≠ [] := by
        obtain ⟨e,he,largest⟩ := (holds f (by simp)).exists_largest
        rw [Ne,List.dropWhile_eq_nil_iff]
        intro all
        have less := all e he
        simp only [decide_eq_true_eq,← largest] at less
        exact absurd (above f List.mem_cons_self) (not_le.mpr less)
      rw [List.flatMap_cons,List.dropWhile_append,if_neg (by simpa using found)]
      exact concatenating_delivers spent before.length f after (by simp [split]) (entryOps.seek t)
        (fun d => rfl) _ (fun d same => entry_forward.seek d _ t same)

end Levels

section Internal
variable {tables : Tables K V}

def ChildIter.Over (tables : Tables K V) (c : ChildIter K V) (items : List (Entry K V)) : Prop :=
  c.elim (EntryIter.Over · items) (ConcatenatingOver tables · items)

theorem child_forward : Forward (childOps tables) Entry.key (ChildIter.Over tables) :=
  entry_forward.sum concatenating_forward

def InternalIterator.Over (tables : Tables K V) (items : List (Entry K V)) : InternalIterator K V → Prop
  | .empty => items = []
  | .single c => ChildIter.Over tables c items
  | .merging m => m.Over Entry.key (ChildIter.Over tables) items

theorem single_delivers {c : ChildIter K V} {items : List (Entry K V)}
    (delivers : Delivers (childOps tables) c items) : Delivers (internalOps tables) (.single c) items := by
  induction items generalizing c with
  | nil => exact delivers
  | cons e items ih => exact ⟨delivers.1,ih delivers.2⟩

theorem merging_delivers {m : MergingIterator (ChildIter K V)} {items : List (Entry K V)}
    (delivers : Delivers (MergingIterator.ops (childOps tables) Entry.key) m items) :
    Delivers (internalOps tables) (.merging m) items := by
  induction items generalizing m with
  | nil => exact delivers
  | cons e items ih => exact ⟨delivers.1,ih delivers.2⟩

theorem internal_forward :
    Forward (internalOps tables) Entry.key fun s items => InternalIterator.Over tables items s := by
  have children : Forward (childOps tables) Entry.key (ChildIter.Over tables) := child_forward
  have merging := merging_forward children
  constructor
  · intro s items spent
    cases s with
    | empty =>
      subst spent
      rfl
    | single c => exact single_delivers (child_forward.first c items spent)
    | merging m => exact merging_delivers (merging.first m items spent)
  · intro s items t spent
    cases s with
    | empty =>
      subst spent
      rfl
    | single c => exact single_delivers (child_forward.seek c items t spent)
    | merging m => exact merging_delivers (merging.seek m items t spent)

theorem newMergingIterator_over {children : List (ChildIter K V)} {lists : List (List (Entry K V))}
    {items : List (Entry K V)} (spent : List.Forall₂ (ChildIter.Over tables) children lists)
    (sorted : ∀ list ∈ lists, SortedEntries list) (ordered : SortedEntries items)
    (same : items.Perm lists.flatten) :
    InternalIterator.Over tables items (newMergingIterator children) := by
  cases spent with
  | nil => exact List.Perm.eq_nil same
  | @cons child list children lists head tail =>
    cases tail with
    | nil =>
      have equal : items = list := by
        refine List.Perm.eq_of_pairwise ?_ ordered (sorted list List.mem_cons_self) (by simpa using same)
        intro a b _ _ lt gt
        exact absurd lt (lt_asymm gt)
      rw [equal]
      exact head
    | @cons next list' children lists head' tail =>
      exact ⟨⟨_,.cons head (.cons head' tail),sorted,same⟩,ordered⟩

/-- What the children of the input iterator for one level go through. -/
def inputLists (tables : Tables K V) (level : Nat) (files : List (FileMetaData K)) : List (List (Entry K V)) :=
  if files = [] then [] else if level = 0 then files.map fun f => tables f.number
  else [files.flatMap fun f => tables f.number]

section Inputs
variable {level : Nat} {files : List (FileMetaData K)} (holds : ∀ f ∈ files, f.Holds tables)
  (disjoint : 1 ≤ level → files.Pairwise fun f g => f.largest < g.smallest)
include holds disjoint

theorem inputIterators_over :
    List.Forall₂ (ChildIter.Over tables) (inputIterators tables level files) (inputLists tables level files) := by
  rw [inputIterators,inputLists]
  split
  · exact .nil
  · split
    · rw [List.forall₂_map_left_iff,List.forall₂_map_right_iff,List.forall₂_same]
      exact fun f _ => rfl
    · exact .cons ⟨holds,disjoint (by omega),le_rfl,by simp [newConcatenatingIterator],rfl⟩ .nil

theorem inputLists_sorted : ∀ list ∈ inputLists tables level files, SortedEntries list := by
  intro list member
  rw [inputLists] at member
  split at member
  · cases member
  · split at member
    · obtain ⟨f,hf,rfl⟩ := List.mem_map.mp member
      exact (holds f hf).sorted
    · rw [List.mem_singleton.mp member]
      exact concat_sorted tables files holds (disjoint (by omega))

end Inputs

omit [LinearOrder K] in
theorem inputLists_flatten (level : Nat) (files : List (FileMetaData K)) :
    (inputLists tables level files).flatten = files.flatMap fun f => tables f.number := by
  rw [inputLists]
  split
  · rename_i none
    rw [none]
    rfl
  · split
    · exact (List.flatMap_def ..).symm
    · exact List.flatten_singleton

/-- The input iterator of a compaction delivers the merge of its inputs. -/
theorem Compaction.Closed.makeInputIterator_delivers {v : Version K} {c : Compaction K} (wf : v.Wf tables)
    (closed : c.Closed v) : Delivers (internalOps tables)
      ((internalOps tables).seekToFirst (c.makeInputIterator tables)) (c.inputEntries tables) := by
  have own : ∀ f ∈ c.inputs0, f.Holds tables := fun f hf => wf.holds _ f (closed.own.sublist.subset hf)
  have parents : ∀ f ∈ c.inputs1, f.Holds tables := fun f hf => wf.holds _ f (closed.parents.subset hf)
  have apart : 1 ≤ c.level → c.inputs0.Pairwise fun f g => f.largest < g.smallest :=
    fun deep => (wf.disjoint _ deep).sublist closed.own.sublist
  have apart' : 1 ≤ c.level + 1 → c.inputs1.Pairwise fun f g => f.largest < g.smallest :=
    fun deep => (wf.disjoint _ deep).sublist closed.parents
  apply internal_forward.first
  refine newMergingIterator_over (List.rel_append (inputIterators_over own apart) (inputIterators_over parents apart'))
    ?_ (closed.inputEntries wf).1 ?_
  · intro list member
    rcases List.mem_append.mp member with first | second
    · exact inputLists_sorted own apart list first
    · exact inputLists_sorted parents apart' list second
  · rw [List.flatten_append,inputLists_flatten,inputLists_flatten,← List.flatMap_append]
    exact (closed.inputEntries_order wf.sorted wf.holds).2

end Internal

section Visible
variable (sequence : Nat)

/-- What `DBIter` shows of a sorted list of entries, when the entries of `skip` are hidden. -/
def visible : Option K → List (Entry K V) → List (K × V)
  | _, [] => []
  | skip, e :: rest =>
    if e.sequence ≤ sequence then
      match e.value with
      | none => visible (some e.userKey) rest
      | some v => if skip.any fun key => decide (e.userKey ≤ key) then visible skip rest
        else (e.userKey,v) :: visible (some e.userKey) rest
    else visible skip rest

/-- The first entry of the key that is seen. -/
def firstVisible (user : K) (entries : List (Entry K V)) : Option (Entry K V) :=
  entries.find? fun e => decide (e.userKey = user) && decide (e.sequence ≤ sequence)

variable {sequence}

theorem firstVisible_cons (user : K) (e : Entry K V) (rest : List (Entry K V)) :
    firstVisible sequence user (e :: rest) =
      if e.userKey = user ∧ e.sequence ≤ sequence then some e else firstVisible sequence user rest := by
  simp only [firstVisible,List.find?_cons]
  by_cases here : e.userKey = user ∧ e.sequence ≤ sequence
  · simp [here]
  · rw [if_neg here]
    simp only [not_and] at here
    cases same : decide (e.userKey = user)
    · simp
    · simp [here (by simpa using same)]

theorem firstVisible_some {user : K} {entries : List (Entry K V)} {e : Entry K V}
    (found : firstVisible sequence user entries = some e) : e ∈ entries ∧ e.userKey = user := by
  have hit := List.find?_some found
  simp only [Bool.and_eq_true,decide_eq_true_eq] at hit
  exact ⟨List.mem_of_find?_eq_some found,hit.1⟩

/-- A key is shown with the value of its first entry, unless that is a deletion. -/
theorem mem_visible (entries : List (Entry K V)) (skip : Option K)
    (sorted : entries.Pairwise fun a b => a.userKey ≤ b.userKey)
    (after : ∀ key, skip = some key → ∀ e ∈ entries, key ≤ e.userKey) (user : K) (value : V) :
    (user,value) ∈ visible sequence skip entries ↔
      skip ≠ some user ∧ (firstVisible sequence user entries).bind (·.value) = some value := by
  induction entries generalizing skip with
  | nil => simp [visible,firstVisible]
  | cons e entries ih =>
    obtain ⟨below,rest⟩ := List.pairwise_cons.mp sorted
    have later : ∀ key, skip = some key → ∀ e ∈ entries, key ≤ e.userKey :=
      fun key same a member => after key same a (List.mem_cons_of_mem _ member)
    have here : ∀ key, some e.userKey = some key → ∀ a ∈ entries, key ≤ a.userKey := by
      intro key same a member
      obtain rfl := Option.some.inj same
      exact below a member
    -- a key that is hidden and still to come is the key of `e`
    have hidden : skip = some user → (firstVisible sequence user entries).bind (·.value) = some value →
        e.userKey = user := by
      intro same found
      obtain ⟨a,found,-⟩ := Option.bind_eq_some_iff.mp found
      obtain ⟨member,key⟩ := firstVisible_some found
      exact le_antisymm (key ▸ below a member) (after user same e List.mem_cons_self)
    rw [visible,firstVisible_cons]
    by_cases seen : e.sequence ≤ sequence
    · simp only [seen,if_true,and_true]
      cases deletion : e.value with
      | none =>
        simp only [ih (some e.userKey) rest here,Ne,Option.some.injEq]
        by_cases same : e.userKey = user
        · simp [same,deletion]
        · simp only [same,not_false_eq_true,true_and,if_false]
          exact ⟨fun found => ⟨fun skipped => same (hidden skipped found),found⟩,fun found => found.2⟩
      | some v =>
        by_cases skipped : skip.any fun key => decide (e.userKey ≤ key)
        · obtain ⟨key,rfl,le⟩ : ∃ key, skip = some key ∧ e.userKey ≤ key := by
            cases skip with
            | none => simp at skipped
            | some key => exact ⟨key,rfl,by simpa using skipped⟩
          have equal : key = e.userKey := le_antisymm (after key rfl e List.mem_cons_self) le
          subst equal
          simp only [skipped,if_true,ih _ rest later]
          by_cases same : e.userKey = user
          · simp [same]
          · simp [same]
        · have free : skip ≠ some e.userKey := by
            rintro rfl
            simp at skipped
          simp only [skipped,Bool.false_eq_true,if_false,List.mem_cons,Prod.mk.injEq,
            ih (some e.userKey) rest here,Ne,Option.some.injEq]
          by_cases same : e.userKey = user
          · subst same
            simp [deletion,free,eq_comm]
          · simp only [same,Ne.symm same,false_and,false_or,not_false_eq_true,true_and,if_false]
            exact ⟨fun found => ⟨fun skipped => same (hidden skipped found),found⟩,fun found => found.2⟩
    · simp only [seen,and_false,if_false,ih skip rest later]

theorem visible_sorted (entries : List (Entry K V)) (skip : Option K)
    (sorted : entries.Pairwise fun a b => a.userKey ≤ b.userKey)
    (after : ∀ key, skip = some key → ∀ e ∈ entries, key ≤ e.userKey) :
    (visible sequence skip entries).Pairwise fun a b => a.1 < b.1 := by
  induction entries generalizing skip with
  | nil => exact List.Pairwise.nil
  | cons e entries ih =>
    obtain ⟨below,rest⟩ := List.pairwise_cons.mp sorted
    have later : ∀ key, skip = some key → ∀ e ∈ entries, key ≤ e.userKey :=
      fun key same a member => after key same a (List.mem_cons_of_mem _ member)
    have here : ∀ key, some e.userKey = some key → ∀ a ∈ entries, key ≤ a.userKey := by
      intro key same a member
      obtain rfl := Option.some.inj same
      exact below a member
    rw [visible]
    by_cases seen : e.sequence ≤ sequence
    · rw [if_pos seen]
      cases e.value with
      | none => exact ih _ rest here
      | some v =>
        by_cases skipped : skip.any fun key => decide (e.userKey ≤ key)
        · simp only [skipped,if_true]
          exact ih skip rest later
        · simp only [skipped,Bool.false_eq_true,if_false]
          refine List.pairwise_cons.mpr ⟨?_,ih _ rest here⟩
          rintro ⟨user,value⟩ member
          obtain ⟨other,found⟩ := (mem_visible entries _ rest here user value).mp member
          obtain ⟨a,found,-⟩ := Option.bind_eq_some_iff.mp found
          obtain ⟨inside,key⟩ := firstVisible_some found
          exact lt_of_le_of_ne (key ▸ below a inside) fun same => other (congrArg some same)
    · rw [if_neg seen]
      exact ih skip rest later

end Visible

section Cursor
variable {σ : Type} {internal : IteratorOps σ (Entry K V) (InternalKey K)}

theorem invalid_delivers {d : DbIter σ K V} (invalid : d.valid = false) :
    Delivers (DbIter.ops internal) d [] := by
  show DbIter.current internal d = none
  simp [DbIter.current,invalid]

/-- `FindNextUserEntry` and the `Next` after it show what is visible of the entries to come. -/
theorem findNextUserEntry_delivers (entries : List (Entry K V)) (d : DbIter σ K V) (fuel : Nat) (skipping : Bool)
    (delivers : Delivers internal d.iter entries) (enough : entries.length < fuel)
    (limit : entries.length ≤ d.limit) (forward : d.forward = true) :
    Delivers (DbIter.ops internal) (d.findNextUserEntry internal fuel skipping)
      (visible d.sequence (if skipping then d.savedKey else none) entries) := by
  induction entries generalizing d fuel skipping with
  | nil =>
    obtain ⟨fuel,rfl⟩ : ∃ n, fuel = n + 1 := ⟨fuel - 1,by omega⟩
    have nothing : internal.current d.iter = none := delivers
    rw [DbIter.findNextUserEntry,nothing,visible]
    exact invalid_delivers rfl
  | cons e entries ih =>
    obtain ⟨fuel,rfl⟩ : ∃ n, fuel = n + 1 := ⟨fuel - 1,by omega⟩
    simp only [List.length_cons] at enough limit
    have here : internal.current d.iter = some e := delivers.1
    have rest : Delivers internal (internal.next d.iter) entries := delivers.2
    rw [DbIter.findNextUserEntry,here,visible]
    by_cases seen : e.sequence ≤ d.sequence
    · simp only [seen,if_true]
      cases value : e.value with
      | none =>
        exact ih ({ d with savedKey := some e.userKey }.step internal.next) fuel true rest (by omega)
          (show entries.length ≤ d.limit by omega) forward
      | some v =>
        have same : (skipping && d.savedKey.any fun key => decide (e.userKey ≤ key)) =
            (if skipping then d.savedKey else none).any fun key => decide (e.userKey ≤ key) := by
          cases skipping <;> simp
        simp only [same]
        by_cases hides : (if skipping then d.savedKey else none).any fun key => decide (e.userKey ≤ key)
        · rw [if_pos hides,if_pos hides]
          exact ih (d.step internal.next) fuel skipping rest (by omega)
            (show entries.length ≤ d.limit by omega) forward
        · rw [if_neg hides,if_neg hides]
          refine ⟨?_,?_⟩
          · simp [DbIter.ops,DbIter.current,forward,here,value]
          · show Delivers _ (DbIter.next internal _) _
            have current := rest.current
            rw [DbIter.next]
            simp only [forward,if_true,here,Option.map_some,DbIter.step,current]
            cases entries with
            | nil =>
              rw [if_neg (by simp),visible]
              exact invalid_delivers rfl
            | cons a entries =>
              rw [if_pos (by simp)]
              exact ih ⟨internal.next d.iter,d.sequence,true,true,some e.userKey,d.savedValue,d.limit⟩
                (d.limit + 1) true rest (by omega) (show (a :: entries).length ≤ d.limit by omega) rfl
    · simp only [seen,if_false]
      exact ih (d.step internal.next) fuel skipping rest (by omega)
        (show entries.length ≤ d.limit by omega) forward

theorem seekToFirst_delivers (d : DbIter σ K V) (entries : List (Entry K V))
    (delivers : Delivers internal (internal.seekToFirst d.iter) entries) (limit : entries.length ≤ d.limit) :
    Delivers (DbIter.ops internal) (d.seekToFirst internal) (visible d.sequence none entries) := by
  have current := delivers.current
  rw [DbIter.seekToFirst]
  cases entries with
  | nil =>
    rw [if_neg (by simp [current]),visible]
    exact invalid_delivers rfl
  | cons e entries =>
    rw [if_pos (by simp [current])]
    exact findNextUserEntry_delivers (e :: entries) _ _ false delivers (Nat.lt_succ_of_le limit) limit rfl

theorem seek_delivers (d : DbIter σ K V) (user : K) (entries : List (Entry K V))
    (delivers : Delivers internal (internal.seek (lookupKey user d.sequence) d.iter) entries)
    (limit : entries.length ≤ d.limit) :
    Delivers (DbIter.ops internal) (d.seek internal user) (visible d.sequence none entries) := by
  have current := delivers.current
  rw [DbIter.seek]
  cases entries with
  | nil =>
    rw [if_neg (by simp [current]),visible]
    exact invalid_delivers rfl
  | cons e entries =>
    rw [if_pos (by simp [current])]
    exact findNextUserEntry_delivers (e :: entries) _ _ false delivers (Nat.lt_succ_of_le limit) limit rfl

end Cursor

/-- What the iterators of a database rely on: sorted and disjoint deeper levels, and the
recency order of the memtables, the level-0 files and the levels. -/
structure Db.Tree (db : Db K V) (tables : Tables K V) : Prop where
  version : db.versions.current.Wf tables
  memSorted : SortedEntries db.mem
  immSorted : SortedEntries (db.imm.getD [])
  mem : Newer (entrySet db.mem) (entrySet (db.imm.getD []) ∪ db.versions.current.entries tables)
  imm : Newer (entrySet (db.imm.getD [])) (db.versions.current.entries tables)

section Agreement
variable {db : Db K V} {tables : Tables K V}

/-- The lists of the children of the internal iterator. -/
def Db.childLists (db : Db K V) (tables : Tables K V) : List (List (Entry K V)) :=
  db.mem :: db.imm.toList ++ ((db.versions.current.files 0).map (fun f => tables f.number) ++
    ((List.range' 1 (kNumLevels - 1)).filter fun level => !(db.versions.current.files level).isEmpty).map
      fun level => (db.versions.current.files level).flatMap fun f => tables f.number)

theorem Db.Tree.children_over (tree : db.Tree tables) :
    List.Forall₂ (ChildIter.Over tables) (db.childIterators tables) (db.childLists tables) := by
  have wf := tree.version
  rw [Db.childIterators,Db.childLists,Version.addIterators]
  refine .cons rfl (List.rel_append ?_ (List.rel_append ?_ ?_))
  · cases db.imm with
    | none => exact .nil
    | some imm => exact .cons rfl .nil
  · rw [List.forall₂_map_left_iff,List.forall₂_map_right_iff,List.forall₂_same]
    exact fun f _ => rfl
  · rw [List.forall₂_map_left_iff,List.forall₂_map_right_iff,List.forall₂_same]
    intro level member
    have deep := (List.mem_range'_1.mp (List.mem_filter.mp member).1).1
    exact ⟨wf.holds level,wf.disjoint level deep,le_rfl,by simp [newConcatenatingIterator],rfl⟩

theorem Db.Tree.children_sorted (tree : db.Tree tables) :
    ∀ list ∈ db.childLists tables, SortedEntries list := by
  have wf := tree.version
  intro list member
  simp only [Db.childLists,List.cons_append,List.mem_cons,List.mem_append,List.mem_map,List.mem_filter,
    Option.mem_toList] at member
  rcases member with rfl | imm | ⟨f,hf,rfl⟩ | ⟨level,⟨hl,-⟩,rfl⟩
  · exact tree.memSorted
  · have sorted := tree.immSorted
    rw [imm] at sorted
    exact sorted
  · exact (wf.holds 0 f hf).sorted
  · exact concat_sorted tables _ (wf.holds level) (wf.disjoint level (List.mem_range'_1.mp hl).1)

omit [LinearOrder K] in
/-- The children have the entries of the places of the tree. -/
theorem childLists_perm (db : Db K V) (tables : Tables K V) :
    (db.childLists tables).flatten.Perm
      (places tables db.mem (db.imm.getD []) db.versions.current).flatten := by
  have imm : db.imm.toList.flatten = db.imm.getD [] := by cases db.imm <;> simp
  have deep : ∀ levels : List Nat,
      ((levels.filter fun level => !(db.versions.current.files level).isEmpty).map fun level =>
        (db.versions.current.files level).flatMap fun f => tables f.number).flatten =
      (levels.map fun level => (db.versions.current.files level).flatMap fun f => tables f.number).flatten := by
    intro levels
    induction levels with
    | nil => rfl
    | cons level levels ih =>
      by_cases empty : db.versions.current.files level = []
      · simp [empty,ih]
      · simp [empty,ih]
  simp only [Db.childLists,places,List.cons_append,List.flatten_cons,List.flatten_append,imm,deep,
    List.nil_append]
  refine List.Perm.append_left _ (List.Perm.append_left _ (List.Perm.append_right _ ?_))
  exact ((List.perm_insertionSort _ _).symm.map _).flatten

theorem Db.Tree.entries_set (tree : db.Tree tables) (e : Entry K V) :
    e ∈ (places tables db.mem (db.imm.getD []) db.versions.current).flatten ↔
      e ∈ entrySet db.mem ∪ (entrySet (db.imm.getD []) ∪ db.versions.current.entries tables) := by
  have level : ∀ l, (∃ f ∈ db.versions.current.files l, e ∈ tables f.number) ↔
      e ∈ db.versions.current.entriesAt tables l := fun l => Iff.rfl
  simp only [places,List.flatten_append,List.mem_append,List.mem_flatten,List.mem_map,
    (List.perm_insertionSort _ _).mem_iff]
  constructor
  · rintro ((⟨list,member,he⟩ | ⟨list,⟨f,hf,rfl⟩,he⟩) | ⟨list,⟨l,hl,rfl⟩,he⟩)
    · rcases List.mem_cons.mp member with rfl | imm
      · exact .inl he
      · rw [List.mem_singleton.mp imm] at he
        exact .inr (.inl he)
    · exact .inr (.inr ⟨0,f,hf,he⟩)
    · obtain ⟨f,hf,he⟩ := List.mem_flatMap.mp he
      exact .inr (.inr ⟨l,f,hf,he⟩)
  · rintro (he | he | ⟨l,f,hf,he⟩)
    · exact .inl (.inl ⟨_,by simp,he⟩)
    · exact .inl (.inl ⟨_,by simp,he⟩)
    · cases l with
      | zero => exact .inl (.inr ⟨_,⟨f,hf,rfl⟩,he⟩)
      | succ l =>
        refine .inr ⟨_,⟨l + 1,List.mem_range'_1.mpr ⟨by omega,?_⟩,rfl⟩,List.mem_flatMap.mpr ⟨f,hf,he⟩⟩
        by_contra outside
        have none := tree.version.levels (l + 1) (by simp only [kNumLevels] at outside ⊢; omega)
        rw [none] at hf
        cases hf

theorem Db.Tree.places_sorted (tree : db.Tree tables) :
    ∀ list ∈ places tables db.mem (db.imm.getD []) db.versions.current, SortedEntries list := by
  have wf := tree.version
  intro list member
  simp only [places,List.mem_append,List.mem_cons,List.mem_map,List.not_mem_nil,or_false,
    (List.perm_insertionSort _ _).mem_iff] at member
  rcases member with ((rfl | rfl) | ⟨f,hf,rfl⟩) | ⟨level,hl,rfl⟩
  · exact tree.memSorted
  · exact tree.immSorted
  · exact (wf.holds 0 f hf).sorted
  · exact concat_sorted tables _ (wf.holds level) (wf.disjoint level (List.mem_range'_1.mp hl).1)

/-- All entries, in the order of their internal keys. -/
theorem Db.Tree.sorted_entries (tree : db.Tree tables) :
    ∃ items, SortedEntries items ∧ items.Perm (db.childLists tables).flatten := by
  have newer := tree.version.places_newer tree.mem tree.imm
  have distinct : (places tables db.mem (db.imm.getD []) db.versions.current).flatten.Pairwise
      fun a b => a.key ≠ b.key := by
    refine List.pairwise_flatten.mpr ⟨fun list member => ?_,newer.imp fun order a ha b hb same => ?_⟩
    · exact (tree.places_sorted list member).imp fun lt => ne_of_lt lt
    · have lt := order a ha b hb (congrArg (·.userKey) same)
      exact absurd (congrArg (·.sequence) same) (ne_of_gt lt)
  have perm : ((db.childLists tables).flatten.insertionSort fun a b => a.key ≤ b.key).Perm
      (db.childLists tables).flatten := List.perm_insertionSort _ _
  refine ⟨_,?_,perm⟩
  have sorted := List.pairwise_insertionSort (fun a b : Entry K V => a.key ≤ b.key) (db.childLists tables).flatten
  have apart := (perm.trans (childLists_perm db tables)).pairwise_iff
    (R := fun a b : Entry K V => a.key ≠ b.key) (fun different => different.symm) |>.mpr distinct
  exact sorted.imp₂ (fun a b le ne => lt_of_le_of_ne le ne) apart

theorem SortedEntries.users {items : List (Entry K V)} (sorted : SortedEntries items) :
    items.Pairwise fun a b => a.userKey ≤ b.userKey :=
  sorted.imp fun lt => InternalKey.userKey_le (le_of_lt lt)

/-- What a read finds is the first visible entry of the key in the sorted list of all. -/
theorem Finds.firstVisible {items : List (Entry K V)} {user : K} {snapshot : Nat} {state : SaverState V}
    (finds : Finds (entrySet items) user snapshot state) (sorted : SortedEntries items) :
    state.result = (firstVisible snapshot user items).bind (·.value) := by
  rcases finds with ⟨e,first,rfl⟩ | ⟨absent,rfl⟩
  · have newest := first.newest
    have found : LevelDB.firstVisible snapshot user items = some e := by
      cases found : LevelDB.firstVisible snapshot user items with
      | none =>
        have missed := List.find?_eq_none.mp found e newest.member
        have visible := newest.visible
        simp [newest.same] at missed
        omega
      | some a =>
        obtain ⟨hit,before,after,rfl,earlier⟩ := List.find?_eq_some_iff_append.mp found
        simp only [Bool.and_eq_true,decide_eq_true_eq] at hit
        have le := first.first a (by simp) hit.1 hit.2
        rcases List.mem_append.mp newest.member with early | late
        · have missed := earlier e early
          have visible := newest.visible
          simp [newest.same] at missed
          omega
        · rcases List.mem_cons.mp late with rfl | later
          · rfl
          · have lt := (List.pairwise_cons.mp (List.pairwise_append.mp sorted).2.1).1 e later
            exact absurd le (not_le.mpr lt)
    rw [found]
    cases value : e.value <;> simp [SaverState.result,value]
  · have none : LevelDB.firstVisible snapshot user items = none := by
      refine List.find?_eq_none.mpr fun a member => ?_
      have hidden := absent a member
      simp only [Bool.and_eq_true,decide_eq_true_eq,not_and]
      exact hidden
    rw [none]
    rfl

theorem Db.Tree.get_firstVisible (tree : db.Tree tables) {items : List (Entry K V)} (sorted : SortedEntries items)
    (perm : items.Perm (db.childLists tables).flatten) (user : K) (snapshot : Nat) :
    db.get tables user snapshot = (firstVisible snapshot user items).bind (·.value) := by
  have all : entrySet db.mem ∪ (entrySet (db.imm.getD []) ∪ db.versions.current.entries tables) =
      entrySet items := by
    ext e
    rw [← tree.entries_set e,mem_entrySet,perm.mem_iff,(childLists_perm db tables).mem_iff]
  have finds := Finds.layer tree.mem (getFrom_finds db.mem tree.memSorted.ordered user snapshot)
    (Finds.layer tree.imm (getFrom_finds (db.imm.getD []) tree.immSorted.ordered user snapshot)
      (tree.version.get_finds user snapshot))
  rw [all] at finds
  rw [Db.get_eq]
  exact finds.firstVisible sorted

omit [LinearOrder K] in
theorem childLists_length (db : Db K V) (tables : Tables K V) :
    (db.childLists tables).flatten.length = db.entryCount tables := by
  rw [(childLists_perm db tables).length_eq]
  have level0 : (((db.versions.current.files 0).insertionSort fun a b => b.number ≤ a.number).map
      (fun f => tables f.number)).flatten.length =
      ((db.versions.current.files 0).map (fun f => tables f.number)).flatten.length :=
    (((List.perm_insertionSort _ _).map _).flatten).length_eq
  have levels : List.range kNumLevels = 0 :: List.range' 1 (kNumLevels - 1) := by decide
  simp only [places,Db.entryCount,levels,List.flatten_append,List.length_append,level0,List.map_cons,
    List.flatMap_def,List.flatten_cons,List.flatten_nil,List.length_nil,Nat.add_zero]
  omega

/-- The seek drops no entry of the key that is seen. -/
theorem firstVisible_dropWhile (items : List (Entry K V)) (user : K) (snapshot : Nat) :
    firstVisible snapshot user (items.dropWhile fun e => decide (e.key < lookupKey user snapshot)) =
      firstVisible snapshot user items := by
  induction items with
  | nil => rfl
  | cons e items ih =>
    by_cases less : e.key < lookupKey user snapshot
    · have other : ¬(e.userKey = user ∧ e.sequence ≤ snapshot) := by
        rintro ⟨same,seen⟩
        exact absurd ((lookup_le user snapshot e).mpr (.inr ⟨same.symm,seen⟩)) (not_le.mpr less)
      rw [firstVisible_cons,if_neg other,List.dropWhile_cons_of_pos (by simpa using less),ih]
    · rw [List.dropWhile_cons_of_neg (by simpa using less)]

/-- All entries in order, as the internal iterator goes through them. -/
theorem Db.Tree.items (tree : db.Tree tables) (sequence : Nat) :
    ∃ items, SortedEntries items ∧ items.Perm (db.childLists tables).flatten ∧
      InternalIterator.Over tables items (db.newIterator tables sequence).iter ∧
      items.length ≤ (db.newIterator tables sequence).limit := by
  obtain ⟨items,sorted,perm⟩ := tree.sorted_entries
  refine ⟨items,sorted,perm,newMergingIterator_over tree.children_over tree.children_sorted sorted perm,?_⟩
  rw [perm.length_eq,childLists_length]
  exact le_rfl

/-- A scan visits the keys that `Get` finds, in increasing order, once each. -/
theorem Db.Tree.scan (tree : db.Tree tables) (sequence : Nat) :
    ∃ visits, Delivers (DbIter.ops (internalOps tables))
        ((db.newIterator tables sequence).seekToFirst (internalOps tables)) visits ∧
      (visits.Pairwise fun a b => a.1 < b.1) ∧
      ∀ user value, (user,value) ∈ visits ↔ db.get tables user sequence = some value := by
  obtain ⟨items,sorted,perm,spent,limit⟩ := tree.items sequence
  have nothing : ∀ key : K, (none : Option K) = some key → ∀ e ∈ items, key ≤ e.userKey := by simp
  refine ⟨visible sequence none items,seekToFirst_delivers _ items (internal_forward.first _ items spent) limit,
    visible_sorted items none sorted.users nothing,fun user value => ?_⟩
  rw [tree.get_firstVisible sorted perm,mem_visible items none sorted.users nothing]
  simp

/-- `Get` and the iterator agree: after `Seek` the iterator is at a key exactly if `Get`
finds it, and a scan visits the keys that `Get` finds, in increasing order, once each. -/
theorem iterator_agrees (tree : db.Tree tables) (sequence : Nat) :
    (∀ user value, db.get tables user sequence = some value ↔
      DbIter.current (internalOps tables) ((db.newIterator tables sequence).seek (internalOps tables) user) =
        some (user,value)) ∧
    ∃ visits, Delivers (DbIter.ops (internalOps tables))
        ((db.newIterator tables sequence).seekToFirst (internalOps tables)) visits ∧
      (visits.Pairwise fun a b => a.1 < b.1) ∧
      ∀ user value, (user,value) ∈ visits ↔ db.get tables user sequence = some value := by
  obtain ⟨items,sorted,perm,spent,limit⟩ := tree.items sequence
  have nothing : ∀ (entries : List (Entry K V)) (key : K), (none : Option K) = some key →
      ∀ e ∈ entries, key ≤ e.userKey := by simp
  refine ⟨?_,tree.scan sequence⟩
  · intro user value
    have delivers := internal_forward.seek _ items (lookupKey user sequence) spent
    have rest : (items.dropWhile fun e => decide (e.key < lookupKey user sequence)).Sublist items :=
      List.dropWhile_sublist _
    have shown := seek_delivers (db.newIterator tables sequence) user _ delivers
      (rest.length_le.trans limit)
    have users := SortedEntries.users (sorted.sublist rest)
    have current : DbIter.current (internalOps tables)
        ((db.newIterator tables sequence).seek (internalOps tables) user) = _ := shown.current
    rw [current,tree.get_firstVisible sorted perm,← firstVisible_dropWhile]
    have found : (user,value) ∈ visible sequence none _ ↔ _ := mem_visible _ none users (nothing _) user value
    simp only [ne_eq,reduceCtorEq,not_false_eq_true,true_and] at found
    rw [← found]
    -- every key that is shown is at or after the one sought
    have least : ∀ shown ∈ visible sequence none
        (items.dropWhile fun e => decide (e.key < lookupKey user sequence)), user ≤ shown.1 := by
      rintro ⟨key,v⟩ member
      obtain ⟨-,found⟩ := (mem_visible _ none users (nothing _) key v).mp member
      obtain ⟨a,found,-⟩ := Option.bind_eq_some_iff.mp found
      obtain ⟨inside,same⟩ := firstVisible_some found
      rw [dropWhile_eq_filter items sorted] at inside
      have reached := (List.mem_filter.mp inside).2
      simp only [Bool.not_eq_true',decide_eq_false_iff_not,not_lt] at reached
      rw [← same]
      exact InternalKey.userKey_le reached
    have increasing : (visible sequence none _).Pairwise _ := visible_sorted _ none users (nothing _)
    cases list : visible sequence none
        (items.dropWhile fun e => decide (e.key < lookupKey user sequence)) with
    | nil => simp [DbIter.new,Db.newIterator,list]
    | cons first others =>
      rw [list] at least increasing
      simp only [Db.newIterator,DbIter.new,list,List.head?_cons,Option.some.injEq]
      constructor
      · intro member
        rcases List.mem_cons.mp member with same | later
        · exact same.symm
        · have lt := (List.pairwise_cons.mp increasing).1 _ later
          exact absurd (least first List.mem_cons_self) (not_le.mpr lt)
      · rintro rfl
        exact List.mem_cons_self

/-- The tree of a database that keeps the invariant is one. -/
theorem State.Inv.dbTree {s : State K V} (inv : s.Inv) (running : s.process = .running db) : db.Tree s.disk.table := by
  obtain ⟨m,disk,ok⟩ := inv.running running
  obtain ⟨wf,-,mem,imm⟩ := inv.tree (by rw [running]; rfl)
  exact ⟨wf,ok.memory.memSorted,ok.memory.immSorted,mem,imm⟩

theorem iterator_agrees_snapshot :
    ∃ s db, State.initial.run smallOptions snapshotRun = some s ∧ s.process = .running db ∧
      db.get s.disk.table 3 4 = some 30 ∧
      DbIter.current (internalOps s.disk.table)
        ((db.newIterator s.disk.table 4).seek (internalOps s.disk.table) 3) = some (3,30) := by
  obtain ⟨s,db,run,running,found⟩ := exists_run smallOptions snapshotRun
    (fun s db => decide (db.get s.disk.table 3 4 = some 30)) (by decide)
  have read := of_decide_eq_true found
  have tree := (inv_of_run (by decide) (by decide) run).dbTree running
  exact ⟨s,db,run,running,read,((iterator_agrees tree 4).1 3 30).mp read⟩

end Agreement

end LevelDB
