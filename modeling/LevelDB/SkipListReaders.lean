import LevelDB.SkipListInsert

/-! Readers of a skip list take no lock: their loads come between the stores of an insert. -/
namespace LevelDB.SkipList

variable {K R : Type} [LinearOrder R]

/-- The keys on every level, with their nodes. -/
structure Layers (rank : K → R) (s : SkipList K) (layers : Nat → List (Nat × K)) : Prop where
  nodes : ∀ i < kMaxHeight, s.nodesAt i = some ((layers i).map Prod.fst)
  keys : ∀ i, ∀ e ∈ layers i, s.key e.1 = some e.2
  sorted : ∀ i, (layers i).Pairwise fun e e' => rank e.2 < rank e'.2
  lower : ∀ i, (layers (i + 1)).Sublist (layers i)

/-- A search that goes on while the writer inserts. -/
structure Concurrent (K : Type) where
  writer : Writer K
  reader : Search ⊕ Found

inductive Turn
  | store
  | load
deriving DecidableEq

def Concurrent.step (rank : K → R) (after : K → Bool) (c : Concurrent K) : Turn → Option (Concurrent K)
  | .store => (c.writer.step rank).map fun w => { c with writer := w }
  | .load => c.reader.elim (fun p => (c.writer.list.searchStep after p).map fun r => { c with reader := r }) fun _ => some c

def Concurrent.run (rank : K → R) (after : K → Bool) : List Turn → Concurrent K → Option (Concurrent K)
  | [], c => some c
  | turn :: turns, c => (c.step rank after turn).bind (run rank after turns)

/-- The two kinds of search. -/
inductive Sought (rank : K → R) : (K → Bool) → Prop
  | key (target : K) : Sought rank fun k => rank k < rank target
  | last : Sought rank fun _ => true

/-- What a search of these nodes and keys finds. -/
structure FoundIn (after : K → Bool) (entries : List (Nat × K)) (f : Found) : Prop where
  x : f.x = ((entries.filter fun e => after e.2).getLast?.map Prod.fst).getD head
  next : f.next = (entries.find? fun e => !after e.2).map Prod.fst

section Facts
variable {rank : K → R} {s s' : SkipList K} {levels levels' : Nat → List Nat} {after : K → Bool} {below : Set (WithBot R)}
  {inserts : List (K × Nat)} {p : Search}

omit [LinearOrder R] in
theorem Kept.place_eq (rank : K → R) (kept : Kept s levels s' levels') {x : Nat} (member : x ∈ levels 0) : s'.place rank x = s.place rank x := by
  unfold place
  rw [kept.keys x member]

/-- A reader may stay where it is while nodes are linked in. -/
theorem Walks.later (walks : Walks rank s levels below 0 p) (h : s.Levels rank levels) (kept : Kept s levels s' levels') :
    Walks rank s' levels' below 0 p where
  level := walks.level
  member := kept.nodes _ walks.member
  left := by
    rw [kept.place_eq rank (h.lower_le (Nat.zero_le _) walks.member)]
    exact walks.left
  prev i more less := absurd (lt_of_lt_of_le more less) (Nat.not_lt_zero _)

theorem Sought.goesPast (sought : Sought rank after) : ∃ below : Set (WithBot R), GoesPast rank after below := by
  cases sought with
  | key target => exact ⟨_,goesPast_key target⟩
  | last => exact ⟨_,goesPast_all⟩

theorem Ends.foundIn (h : s.Levels rank levels) (past : GoesPast rank after below) {top : Nat} {f : Found}
    (ends : Ends rank s levels below top f) {entries : List (Nat × K)} (keyed : s.Keyed (levels 0) entries) :
    FoundIn after entries f := by
  obtain ⟨left,right,rfl,last,next,before,behind⟩ := ends.entries h past.lower keyed
  have first : ∀ e ∈ left, after e.2 = true := fun e member => (past.keys e.2).mpr (before e member)
  have second : ∀ e ∈ right, after e.2 = false := by
    intro e member
    exact Bool.eq_false_iff.mpr fun keep => behind e member ((past.keys e.2).mp keep)
  constructor
  · rw [filter_of_cut first second]
    exact last
  · rw [find?_of_cut]
    · exact next
    · intro e member
      rw [first e member]
      rfl
    · intro e member
      rw [second e member]
      rfl

/-- Nodes keep their keys, so what stays are entries. -/
theorem Keyed.subset (h : s.Levels rank levels) {i : Nat} {list : List Nat} {entries entries' : List (Nat × K)}
    (keyed : s.Keyed (levels i) entries) (keyed' : s'.Keyed list entries') (sub : levels i ⊆ list)
    (keys : ∀ x ∈ levels i, s'.key x = s.key x) : entries ⊆ entries' := by
  intro e member
  have on : e.1 ∈ levels i := by
    rw [keyed.nodes]
    exact List.mem_cons_of_mem head (List.mem_map_of_mem member)
  have other := (keyed.place_eq h e member).1
  have on' := sub on
  rw [keyed'.nodes] at on'
  obtain ⟨e',member',same⟩ := List.mem_map.mp ((List.mem_cons.mp on').resolve_left other)
  have key := keyed'.keys e' member'
  rw [same,keys e.1 on,keyed.keys e member] at key
  have equal : e' = e := Prod.ext same (Option.some.inj key).symm
  exact equal ▸ member'

theorem sublist_of_subset {entries entries' : List (Nat × K)} (sorted : entries.Pairwise fun e e' => rank e.2 < rank e'.2)
    (sorted' : entries'.Pairwise fun e e' => rank e.2 < rank e'.2) (sub : entries ⊆ entries') : entries.Sublist entries' := by
  have : Std.Antisymm fun e e' : Nat × K => rank e.2 < rank e'.2 := ⟨fun _ _ less more => absurd (less.trans more) (lt_irrefl _)⟩
  apply List.sublist_of_subperm_of_pairwise (List.subperm_of_subset ?_ sub) sorted sorted'
  exact sorted.imp fun less same => absurd (same ▸ less) (lt_irrefl _)

theorem Levels.exists_layers (h : s.Levels rank levels) :
    ∃ layers : Nat → List (Nat × K), Layers rank s layers ∧ ∀ i, s.Keyed (levels i) (layers i) := by
  choose layers keyed using h.keyed
  refine ⟨layers,⟨?_,fun i => (keyed i).keys,fun i => (keyed i).sorted h,?_⟩,keyed⟩
  · intro i small
    rw [h.nodesAt_eq small,(keyed i).nodes]
    rfl
  · intro i
    exact sublist_of_subset ((keyed _).sorted h) ((keyed _).sorted h)
      ((keyed (i + 1)).subset h (keyed i) (h.lower i) fun _ _ => rfl)

theorem Kept.sublist (kept : Kept s levels s' levels') (h : s.Levels rank levels) (h' : s'.Levels rank levels')
    {layers layers' : Nat → List (Nat × K)} (keyed : ∀ i, s.Keyed (levels i) (layers i)) (keyed' : ∀ i, s'.Keyed (levels' i) (layers' i))
    (i : Nat) : (layers i).Sublist (layers' i) := by
  apply sublist_of_subset ((keyed i).sorted h) ((keyed' i).sorted h')
  apply (keyed i).subset h (keyed' i) (kept.nodes i)
  exact fun x member => kept.keys x (h.lower_le (Nat.zero_le i) member)

/-- The loads that the reader can still make: no place but those of the inserts will ever be there. -/
def Concurrent.left (rank : K → R) (inserts : List (K × Nat)) (c : Concurrent K) : Nat :=
  c.reader.elim (fun p => c.writer.list.loadsLeft rank (⊥ :: inserts.map fun i => (rank i.1 : WithBot R)) p + 1) fun _ => 0

/-- The invariant of a search among inserts. -/
structure Concurrent.Ok (rank : K → R) (inserts : List (K × Nat)) (below : Set (WithBot R)) (c : Concurrent K)
    (levels : Nat → List Nat) : Prop where
  writer : c.writer.Ok rank inserts levels
  reader : ∀ p, c.reader = .inl p → Walks rank c.writer.list levels below 0 p

theorem Writer.Ok.place_mem {w : Writer K} (ok : w.Ok rank inserts levels) {x : Nat} (member : x ∈ levels 0) :
    w.list.place rank x ∈ ⊥ :: inserts.map fun i => (rank i.1 : WithBot R) := by
  by_cases first : x = head
  · rw [first,place_head]
    exact List.mem_cons_self
  · obtain ⟨k,has,placed⟩ := ok.layered.key_of_mem member first
    have present := (ok.content k).mp ⟨x,member,first,has⟩
    have known : k ∈ inserts.map Prod.fst := by
      rw [← ok.all]
      apply List.mem_append_left
      rcases List.mem_append.mp present with old | new
      · exact List.mem_append_left _ old
      · apply List.mem_append_right
        revert new
        cases w.phase with
        | linking | loaded =>
          simp only [Phase.linked,Phase.current]
          split <;> simp
        | _ => simp [Phase.linked]
    obtain ⟨i,inside,rfl⟩ := List.mem_map.mp known
    rw [placed]
    exact List.mem_cons_of_mem _ (List.mem_map_of_mem (f := fun i => (rank i.1 : WithBot R)) inside)

theorem Concurrent.Ok.store {c : Concurrent K} (ok : c.Ok rank inserts below levels) (distinct : (inserts.map fun p => rank p.1).Nodup) :
    ∃ c' levels', c.step rank after .store = some c' ∧ c'.Ok rank inserts below levels' ∧
      Kept c.writer.list levels c'.writer.list levels' ∧ c'.left rank inserts = c.left rank inserts := by
  obtain ⟨w,levels',step,ok',-,kept⟩ := ok.writer.step distinct
  refine ⟨{ c with writer := w },levels',?_,⟨ok',fun p here => (ok.reader p here).later ok.writer.layered kept⟩,kept,?_⟩
  · simp only [Concurrent.step,step,Option.map_some]
  · simp only [Concurrent.left]
    cases here : c.reader with
    | inl p =>
      have member := ok.writer.layered.lower_le (Nat.zero_le _) (ok.reader p here).member
      simp only [Sum.elim_inl,loadsLeft,kept.place_eq rank member]
    | inr f => rfl

theorem Concurrent.Ok.load {c : Concurrent K} (ok : c.Ok rank inserts below levels) (past : GoesPast rank after below) :
    ∃ c', c.step rank after .load = some c' ∧ c'.Ok rank inserts below levels ∧ c'.writer = c.writer ∧
      c'.left rank inserts ≤ c.left rank inserts - 1 := by
  cases here : c.reader with
  | inr f =>
    refine ⟨c,?_,ok,rfl,?_⟩
    · simp only [Concurrent.step,here,Sum.elim_inr]
    · simp only [Concurrent.left,here,Sum.elim_inr]
      exact Nat.zero_le _
  | inl p =>
    rcases (ok.reader p here).step ok.writer.layered past with ⟨p',step,walks,progress⟩ | ⟨f,step,-⟩
    · refine ⟨{ c with reader := .inl p' },?_,⟨ok.writer,?_⟩,rfl,?_⟩
      · simp only [Concurrent.step,here,Sum.elim_inl,step,Option.map_some]
      · intro q same
        cases same
        exact walks
      · have known := ok.writer.place_mem (ok.writer.layered.lower_le (Nat.zero_le _) walks.member)
        have fewer := loadsLeft_lt known progress
        simp only [Concurrent.left,here,Sum.elim_inl]
        omega
    · refine ⟨{ c with reader := .inr f },?_,⟨ok.writer,fun q same => nomatch same⟩,rfl,Nat.zero_le _⟩
      simp only [Concurrent.step,here,Sum.elim_inl,step,Option.map_some]

theorem Concurrent.Ok.run (past : GoesPast rank after below) (distinct : (inserts.map fun p => rank p.1).Nodup) (turns : List Turn)
    {c : Concurrent K} (ok : c.Ok rank inserts below levels) :
    ∃ c' levels', c.run rank after turns = some c' ∧ c'.Ok rank inserts below levels' ∧
      Kept c.writer.list levels c'.writer.list levels' ∧ c'.left rank inserts ≤ c.left rank inserts - turns.count .load := by
  induction turns generalizing c levels with
  | nil => exact ⟨c,levels,rfl,ok,Kept.refl ..,le_rfl⟩
  | cons turn turns ih =>
    cases turn with
    | store =>
      obtain ⟨c₁,levels₁,step,ok₁,kept₁,left₁⟩ := ok.store distinct
      obtain ⟨c₂,levels₂,rest,ok₂,kept₂,left₂⟩ := ih ok₁
      refine ⟨c₂,levels₂,?_,ok₂,kept₁.trans kept₂,?_⟩
      · rw [Concurrent.run,step]
        exact rest
      · rw [List.count_cons_of_ne (by decide),← left₁]
        exact left₂
    | load =>
      obtain ⟨c₁,step,ok₁,same,left₁⟩ := ok.load past
      obtain ⟨c₂,levels₂,rest,ok₂,kept₂,left₂⟩ := ih ok₁
      refine ⟨c₂,levels₂,?_,ok₂,same ▸ kept₂,?_⟩
      · rw [Concurrent.run,step]
        exact rest
      · rw [List.count_cons_self]
        omega

/-- An iterator does not go past a key that is there. -/
theorem Answers.next_le {entries : List (Nat × K)} (answers : s.Answers rank entries)
    (sorted : entries.Pairwise fun e e' => rank e.2 < rank e'.2) {e e' : Nat × K} (here : e ∈ entries) (there : e' ∈ entries)
    (less : rank e.2 < rank e'.2) :
    ∃ e'' ∈ entries, s.iteratorNext e.1 = some (some e''.1) ∧ rank e.2 < rank e''.2 ∧ rank e''.2 ≤ rank e'.2 := by
  have next := answers.next e here
  cases found : entries.find? fun e' => decide (rank e.2 < rank e'.2) with
  | none => exact absurd (decide_eq_true less) (List.find?_eq_none.mp found e' there)
  | some e'' =>
    rw [found] at next
    obtain ⟨above,before,behind,rfl,missed⟩ := List.find?_eq_some_iff_append.mp found
    refine ⟨e'',by simp,next,of_decide_eq_true above,?_⟩
    rcases List.mem_append.mp there with early | late
    · have not := missed e' early
      simp [less] at not
    · rcases List.mem_cons.mp late with rfl | later
      · exact le_rfl
      · exact ((List.pairwise_cons.mp (List.pairwise_append.mp sorted).2.1).1 e' later).le

theorem Writer.Ok.inserted_mem {w : Writer K} (ok : w.Ok rank inserts levels) {entries : List (Nat × K)}
    (keyed : w.list.Keyed (levels 0) entries) {k : K} (done : k ∈ w.inserted) : ∃ e ∈ entries, e.2 = k := by
  obtain ⟨x,member,other,has⟩ := (ok.content k).mpr (List.mem_append_left _ done)
  rw [keyed.nodes] at member
  obtain ⟨e,inside,rfl⟩ := List.mem_map.mp ((List.mem_cons.mp member).resolve_left other)
  exact ⟨e,inside,Option.some.inj ((keyed.keys e inside).symm.trans has)⟩

theorem Concurrent.left_start (rank : K → R) (inserts : List (K × Nat)) (w : Writer K) {top : Nat} (small : top < kMaxHeight) :
    Concurrent.left rank inserts ⟨w,.inl (.start top)⟩ ≤ inserts.length + kMaxHeight + 1 := by
  have count := List.countP_le_length (p := fun b => decide (w.list.place rank (Search.start top).x < b))
    (l := ⊥ :: inserts.map fun i => (rank i.1 : WithBot R))
  rw [List.length_cons,List.length_map] at count
  have level : (Search.start top).level = top := rfl
  simp only [Concurrent.left,Sum.elim_inl,loadsLeft]
  omega

end Facts

/-- The list is as it should be between any two stores, whatever reads it. A search started
at any level that `max_height_` may have named ends after a bounded number of loads at the
place of the key in the list that its last load saw. -/
theorem list_at_every_store (rank : K → R) (any : K) (inserts : List (K × Nat)) (distinct : (inserts.map fun p => rank p.1).Nodup)
    (heights : ∀ p ∈ inserts, 0 < p.2 ∧ p.2 ≤ kMaxHeight) (n : Nat) :
    ∃ w layers, Writer.run rank n (.start any inserts) = some w ∧ Layers rank w.list layers ∧
      (∀ k ∈ w.inserted, ∃ e ∈ layers 0, e.2 = k) ∧
      ((Writer.start any inserts).left ≤ n → w.inserted = inserts.map Prod.fst) ∧
      w.list.Answers rank (layers 0) ∧
      (∀ m, ∃ w' layers', Writer.run rank m w = some w' ∧ Layers rank w'.list layers' ∧ w'.list.Answers rank (layers' 0) ∧
        (∀ i, (layers i).Sublist (layers' i)) ∧
        ∀ e ∈ layers 0, ∀ e' ∈ layers 0, rank e.2 < rank e'.2 →
          ∃ e'' ∈ layers' 0, w'.list.iteratorNext e.1 = some (some e''.1) ∧ rank e.2 < rank e''.2 ∧ rank e''.2 ≤ rank e'.2) ∧
      ∀ after, Sought rank after → ∀ top < kMaxHeight, ∀ turns, ∃ c layers',
        Concurrent.run rank after turns ⟨w,.inl (.start top)⟩ = some c ∧ Layers rank c.writer.list layers' ∧
        (∀ i, (layers i).Sublist (layers' i)) ∧
        (∀ p f, c.reader = .inl p → c.writer.list.searchStep after p = some (.inr f) → FoundIn after (layers' 0) f) ∧
        (inserts.length + kMaxHeight < turns.count .load → ∃ f, c.reader = .inr f) := by
  obtain ⟨w,levels,run,ok,left,-⟩ := (Writer.ok_start any heights).run distinct n
  obtain ⟨layers,layered,keyed⟩ := ok.layered.exists_layers
  refine ⟨w,layers,run,layered,?_,?_,ok.layered.answers (keyed 0),?_,?_⟩
  · exact fun k done => ok.inserted_mem (keyed 0) done
  · intro enough
    exact (ok.inserted_eq (by omega)).2
  · intro m
    obtain ⟨w',levels',run',ok',-,kept⟩ := ok.run distinct m
    obtain ⟨layers',layered',keyed'⟩ := ok'.layered.exists_layers
    have grown := kept.sublist ok.layered ok'.layered keyed keyed'
    have answers := ok'.layered.answers (keyed' 0)
    refine ⟨w',layers',run',layered',answers,grown,?_⟩
    intro e here e' there less
    exact answers.next_le (layered'.sorted 0) ((grown 0).subset here) ((grown 0).subset there) less
  · intro after sought top small turns
    obtain ⟨below,past⟩ := sought.goesPast
    have start : Concurrent.Ok rank inserts below ⟨w,.inl (.start top)⟩ levels := by
      refine ⟨ok,?_⟩
      rintro p same
      cases same
      exact walks_start ok.layered past small (Nat.zero_le top)
    obtain ⟨c,levels',done,ok',kept,left⟩ := start.run past distinct turns
    obtain ⟨layers',layered',keyed'⟩ := ok'.writer.layered.exists_layers
    refine ⟨c,layers',done,layered',kept.sublist ok.layered ok'.writer.layered keyed keyed',?_,?_⟩
    · intro p f here step
      rcases (ok'.reader p here).step ok'.writer.layered past with ⟨p',on,-⟩ | ⟨f',ended,ends⟩
      · rw [step] at on
        cases on
      · rw [step] at ended
        cases ended
        exact ends.foundIn ok'.writer.layered past (keyed' 0)
    · intro many
      have first := Concurrent.left_start rank inserts w small
      cases here : c.reader with
      | inr f => exact ⟨f,rfl⟩
      | inl p =>
        simp only [Concurrent.left,here,Sum.elim_inl] at left first
        omega

theorem list_at_every_store_three : ∃ w layers, Writer.run id 9 (.start 0 [(5,1),(3,12),(4,2)]) = some w ∧
    Layers id w.list layers ∧ ∀ k ∈ w.inserted, ∃ e ∈ layers 0, e.2 = k := by
  obtain ⟨w,layers,run,layered,inserted,-⟩ :=
    list_at_every_store (id : Nat → Nat) 0 [(5,1),(3,12),(4,2)] (by decide) (by decide) 9
  exact ⟨w,layers,run,layered,inserted⟩

end LevelDB.SkipList
