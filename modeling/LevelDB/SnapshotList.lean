import LevelDB.Reachable
import LevelDB.ReaderViews
import LevelDB.Ring

/-! The list of the live snapshots (`db/snapshot`): linked both ways, with a head that is no
snapshot. The machine knows a snapshot by its number only; what the list does for a node is what
the machine does for the number of the node. -/
namespace LevelDB

open Function (update update_self update_of_ne)

/-- `SnapshotList`: the links, `sequence_number_` of the snapshots that are not deallocated, and
the next address. An address is not given out twice. -/
structure SnapshotList where
  links : Links Nat
  sequenceNumber : Nat → Option Nat
  fresh : Nat

namespace SnapshotList

/-- The address of `head_`. -/
def head : Nat := 0

def init : SnapshotList := ⟨⟨id,id⟩,fun _ => none,1⟩

def empty (l : SnapshotList) : Bool := l.links.next head == head

def oldest (l : SnapshotList) : Nat := l.links.next head

def newest (l : SnapshotList) : Nat := l.links.prev head

/-- `New`, or none if its assertion fails. -/
def new (l : SnapshotList) (number : Nat) : Option (Nat × SnapshotList) :=
  if l.empty || (l.sequenceNumber l.newest).any (· ≤ number) then
    some (l.fresh,⟨l.links.append head l.fresh,update l.sequenceNumber l.fresh (some number),l.fresh + 1⟩)
  else none

def delete (l : SnapshotList) (snapshot : Nat) : SnapshotList :=
  ⟨l.links.remove snapshot,update l.sequenceNumber snapshot none,l.fresh⟩

/-- The `smallest_snapshot` of a compaction that starts. -/
def smallestSnapshot (l : SnapshotList) (lastSequence : Nat) : Option Nat :=
  if l.empty then some lastSequence else l.sequenceNumber l.oldest

/-- The nodes of a list, and their numbers. -/
structure Lists (l : SnapshotList) (nodes numbers : List Nat) : Prop where
  ring : l.links.Ring head nodes
  alive : ∀ e, e ∈ nodes ↔ (l.sequenceNumber e).isSome
  below : ∀ e ∈ head :: nodes, e < l.fresh
  same : nodes.map l.sequenceNumber = numbers.map some
  sorted : numbers.Pairwise (· ≤ ·)

section Sorted

theorem append_same {n : Nat} (before after : List Nat) (same : ∀ m ∈ before, m = n) :
    before ++ n :: after = n :: (before ++ after) := by
  induction before with
  | nil => rfl
  | cons m before ih =>
    have first := same m List.mem_cons_self
    have rest := ih fun m member => same m (List.mem_cons_of_mem _ member)
    rw [List.cons_append,rest,first,List.cons_append]

/-- In a sorted list it does not matter which of several equal numbers is taken out. -/
theorem erase_sorted {n : Nat} (before after : List Nat) (sorted : (before ++ n :: after).Pairwise (· ≤ ·)) :
    (before ++ n :: after).erase n = before ++ after := by
  induction before with
  | nil => simp
  | cons m before ih =>
    obtain ⟨least,rest⟩ := List.pairwise_cons.mp sorted
    by_cases here : m = n
    · subst here
      have same : ∀ k ∈ before, k = m := by
        intro k member
        have upper := (List.pairwise_append.mp rest).2.2 k member m List.mem_cons_self
        exact le_antisymm upper (least k (List.mem_append_left _ member))
      rw [List.cons_append,List.erase_cons,if_pos (beq_self_eq_true m),append_same before after same,List.cons_append]
    · rw [List.cons_append,List.erase_cons,if_neg (by simpa using here),ih rest,List.cons_append]

end Sorted

section Calls
variable {l : SnapshotList} {nodes numbers : List Nat}

theorem Lists.init : init.Lists [] [] where
  ring := ⟨⟨rfl,rfl⟩,by simp⟩
  alive := by simp [SnapshotList.init]
  below := by simp [SnapshotList.init,head]
  same := rfl
  sorted := .nil

theorem Lists.empty_iff (lists : l.Lists nodes numbers) : l.empty = true ↔ numbers = [] := by
  have length := congrArg List.length lists.same
  simp only [List.length_map] at length
  rw [empty,beq_iff_eq,lists.ring.next_head,← List.length_eq_zero_iff,length,List.length_eq_zero_iff]

/-- The node before the head is the last one. -/
theorem Lists.newest (lists : l.Lists nodes numbers) (full : numbers ≠ []) :
    ∃ n, numbers.getLast? = some n ∧ l.sequenceNumber l.newest = some n := by
  rcases nodes.eq_nil_or_concat with rfl | ⟨before,e,split⟩
  · exact absurd (List.map_eq_nil_iff.mp lists.same.symm) full
  · rw [List.concat_eq_append] at split
    subst split
    have back : l.newest = e := (Links.path_append.mp lists.ring.path).2.2
    have last := congrArg List.getLast? lists.same
    rw [List.map_append,List.map_singleton,List.getLast?_concat,List.getLast?_map] at last
    obtain ⟨n,isLast,number⟩ := Option.map_eq_some_iff.mp last.symm
    exact ⟨n,isLast,by rw [back,number]⟩

/-- The assertion holds if the number is not too small. -/
theorem Lists.new (lists : l.Lists nodes numbers) {n : Nat} (last : ∀ m ∈ numbers, m ≤ n) :
    ∃ l', l.new n = some (l.fresh,l') ∧ l'.Lists (nodes ++ [l.fresh]) (numbers ++ [n]) := by
  have assertion : (l.empty || (l.sequenceNumber l.newest).any (· ≤ n)) = true := by
    by_cases none : numbers = []
    · simp [lists.empty_iff.mpr none]
    · obtain ⟨m,isLast,number⟩ := lists.newest none
      have le := last m (List.mem_of_getLast? isLast)
      simp [number,le]
  have outside : l.fresh ∉ head :: nodes := fun member => lt_irrefl _ (lists.below _ member)
  have other : ∀ e ∈ nodes, e ≠ l.fresh := fun e member same => outside (same ▸ List.mem_cons_of_mem _ member)
  refine ⟨_,by rw [SnapshotList.new,if_pos assertion],lists.ring.append outside,?_,?_,?_,?_⟩
  · intro e
    by_cases here : e = l.fresh
    · simp [here]
    · simp [here,lists.alive]
  · intro e member
    rw [← List.cons_append] at member
    rcases List.mem_append.mp member with old | new
    · exact Nat.lt_succ_of_lt (lists.below e old)
    · rw [List.mem_singleton.mp new]
      exact Nat.lt_succ_self _
  · have same : nodes.map (update l.sequenceNumber l.fresh (some n)) = nodes.map l.sequenceNumber :=
      List.map_congr_left fun e member => update_of_ne (other e member) _ _
    simp only [List.map_append,same,lists.same,List.map_cons,List.map_nil,update_self]
  · refine List.pairwise_append.mpr ⟨lists.sorted,List.pairwise_singleton _ _,?_⟩
    intro m member k new
    rw [List.mem_singleton.mp new]
    exact last m member

theorem Lists.delete (lists : l.Lists nodes numbers) {e n : Nat} (number : l.sequenceNumber e = some n) :
    (l.delete e).Lists (nodes.erase e) (numbers.erase n) := by
  have member : e ∈ nodes := (lists.alive e).mpr (by rw [number]; rfl)
  have ring := lists.ring.remove member
  obtain ⟨before,after,rfl⟩ := List.append_of_mem member
  have distinct := (List.nodup_cons.mp lists.ring.nodup).2
  obtain ⟨-,once,cross⟩ := List.nodup_append.mp distinct
  have outside : e ∉ before := fun inside => cross e inside e List.mem_cons_self rfl
  have outside' : e ∉ after := (List.nodup_cons.mp once).1
  have split := lists.same
  rw [List.map_append,List.map_cons] at split
  obtain ⟨left,rest,rfl,left_eq,rest_eq⟩ := List.map_eq_append_iff.mp split.symm
  obtain ⟨m,right,rfl,m_eq,right_eq⟩ := List.map_eq_cons_iff.mp rest_eq
  have same : m = n := Option.some.inj (m_eq.trans number)
  subst same
  have erased : (before ++ e :: after).erase e = before ++ after := by
    rw [List.erase_append_right _ outside,List.erase_cons_head]
  have other : ∀ x ∈ before ++ after, x ≠ e := by
    rintro x inside rfl
    rcases List.mem_append.mp inside with low | high
    · exact outside low
    · exact outside' high
  rw [erased] at ring
  rw [erased,erase_sorted left right lists.sorted]
  refine ⟨ring,?_,?_,?_,?_⟩
  · intro x
    by_cases here : x = e
    · subst here
      simp [SnapshotList.delete,outside,outside']
    · have old := lists.alive x
      simp only [List.mem_append,List.mem_cons,here,false_or] at old
      simp only [SnapshotList.delete,update_of_ne here,List.mem_append,old]
  · intro x inside
    apply lists.below x
    simp only [List.mem_cons,List.mem_append] at inside ⊢
    tauto
  · have kept : (before ++ after).map (update l.sequenceNumber e none) = (before ++ after).map l.sequenceNumber :=
      List.map_congr_left fun x inside => update_of_ne (other x inside) _ _
    rw [SnapshotList.delete,kept,List.map_append,← left_eq,← right_eq,List.map_append]
  · exact lists.sorted.sublist ((List.sublist_cons_self m right).append_left left)

theorem Lists.smallestSnapshot (lists : l.Lists nodes numbers) (lastSequence : Nat) :
    l.smallestSnapshot lastSequence = some (numbers.head?.getD lastSequence) := by
  cases numbers with
  | nil =>
    rw [SnapshotList.smallestSnapshot,if_pos (lists.empty_iff.mpr rfl)]
    rfl
  | cons n more =>
    have full : ¬l.empty = true := fun empty => absurd (lists.empty_iff.mp empty) (List.cons_ne_nil _ _)
    rw [SnapshotList.smallestSnapshot,if_neg full]
    cases nodes with
    | nil => cases lists.same
    | cons e rest =>
      have number : l.sequenceNumber e = some n := (List.cons.inj lists.same).1
      rw [oldest,lists.ring.next_cons,number]
      rfl

theorem Lists.handle (lists : l.Lists nodes numbers) {n : Nat} (member : n ∈ numbers) : ∃ e, l.sequenceNumber e = some n := by
  have inside : some n ∈ nodes.map l.sequenceNumber := by
    rw [lists.same]
    exact List.mem_map_of_mem member
  obtain ⟨e,-,number⟩ := List.mem_map.mp inside
  exact ⟨e,number⟩

theorem Lists.number (lists : l.Lists nodes numbers) {e n : Nat} (number : l.sequenceNumber e = some n) : n ∈ numbers := by
  have member : e ∈ nodes := (lists.alive e).mpr (by rw [number]; rfl)
  have inside : some n ∈ numbers.map some := by
    rw [← lists.same,← number]
    exact List.mem_map_of_mem member
  simpa using inside

end Calls

end SnapshotList

section Machine
variable {K V : Type} [LinearOrder K]

omit [LinearOrder K] in
/-- The steps with which the list changes. -/
def Label.changesList : Label K V → Bool
  | .getSnapshot | .releaseSnapshot _ | .crash _ => true
  | _ => false

/-- The machine and the list in its memory. A client releases a snapshot by its address; the
next process starts with a new list. -/
inductive SnapshotList.Serves (o : Options K V) : State K V → SnapshotList → Prop
  | start : Serves o .initial .init
  | crash (cut : Cut) (before : Serves o s l) : Serves o (s.crash cut) .init
  | getSnapshot (before : Serves o s l) (running : s.process = .running db)
    (new : l.new db.versions.lastSequence = some (e,later)) (step : s.step o .getSnapshot = some s') : Serves o s' later
  | releaseSnapshot (before : Serves o s l) (number : l.sequenceNumber e = some n)
    (step : s.step o (.releaseSnapshot n) = some s') : Serves o s' (l.delete e)
  | other (label : Label K V) (before : Serves o s l) (okay : label.ok = true) (automatic : label.automatic = true)
    (other : label.changesList = false) (step : s.step o label = some s') : Serves o s' l

variable {o : Options K V} {s s' t : State K V} {db : Db K V} {l : SnapshotList}

def State.snapshots (s : State K V) : List Nat := (s.db.map (·.snapshots)).getD []

omit [LinearOrder K] in
theorem State.snapshots_running (running : s.process = .running db) : s.snapshots = db.snapshots := by
  rw [State.snapshots,State.db_eq.mpr running]
  rfl

omit [LinearOrder K] in
theorem State.snapshots_closed (closed : ∀ db, s.process ≠ .running db) : s.snapshots = [] := by
  cases found : s.db with
  | none => rw [State.snapshots,found]; rfl
  | some db => exact absurd (State.db_eq.mp found) (closed db)

theorem snapshots_same {label : Label K V} (regular : s.Regular) (okay : label.ok = true)
    (other : label.changesList = false) (step : s.step o label = some s') : s'.snapshots = s.snapshots := by
  obtain ⟨cut,rfl,-⟩ | ⟨db,running,stepped⟩ | ⟨closed,stepped⟩ := step_cases step
  · cases other
  · obtain ⟨m,-,ok⟩ := regular.inv.running running
    obtain ⟨db',running',sight⟩ := sight_step running okay ok.number stepped
    have same : ∀ {x x' : Sight K V}, x.Step label x' → x'.snapshots = x.snapshots := by
      intro x x' step
      cases step with
      | snapshot => cases other
      | release n => cases other
      | _ => rfl
    rw [State.snapshots_running running,State.snapshots_running running']
    exact same sight
  · rw [State.snapshots_closed closed]
    by_cases closed' : ∀ db, s'.process ≠ .running db
    · exact State.snapshots_closed closed'
    · simp only [not_forall,not_not] at closed'
      obtain ⟨db,running⟩ := closed'
      obtain ⟨versions,log,c,-,rfl⟩ := stepOpen_running stepped running
      obtain ⟨job,rfl,-⟩ := removeObsoleteFiles_running running
      exact State.snapshots_running running

theorem SnapshotList.Serves.lists (serves : Serves o s l) : s.Regular ∧ ∃ nodes, l.Lists nodes s.snapshots := by
  induction serves with
  | start => exact ⟨.initial,[],.init⟩
  | crash cut before ih => exact ⟨ih.1.step (o := o) (l := .crash cut) rfl rfl rfl,[],.init⟩
  | getSnapshot before running new step ih =>
    obtain ⟨regular,nodes,lists⟩ := ih
    obtain ⟨m,-,ok⟩ := regular.inv.running running
    rw [State.snapshots_running running] at lists
    obtain ⟨l'',isNew,lists'⟩ := lists.new ok.memory.visible
    rw [isNew] at new
    cases new
    refine ⟨regular.step rfl rfl step,?_⟩
    obtain ⟨cut,isCrash,-⟩ | ⟨db',running',stepped⟩ | ⟨closed,-⟩ := step_cases step
    · cases isCrash
    · rw [running] at running'
      cases running'
      cases stepped
      exact ⟨_,lists'⟩
    · exact absurd running (closed _)
  | releaseSnapshot before number step ih =>
    obtain ⟨regular,nodes,lists⟩ := ih
    refine ⟨regular.step rfl rfl step,?_⟩
    obtain ⟨cut,isCrash,-⟩ | ⟨db,running,stepped⟩ | ⟨-,stepped⟩ := step_cases step
    · cases isCrash
    · rw [State.snapshots_running running] at lists
      cases stepped
      exact ⟨_,lists.delete number⟩
    · cases stepped
  | other label before okay automatic other step ih =>
    obtain ⟨regular,nodes,lists⟩ := ih
    exact ⟨regular.step okay automatic step,nodes,snapshots_same regular okay other step ▸ lists⟩

/-- A list serves every step, if what is released is a live snapshot. -/
theorem SnapshotList.Serves.step {label : Label K V} (serves : Serves o s l) (okay : label.ok = true)
    (automatic : label.automatic = true) (live : ∀ n, label = .releaseSnapshot n → n ∈ s.snapshots)
    (step : s.step o label = some s') : ∃ l', Serves o s' l' := by
  obtain ⟨regular,nodes,lists⟩ := serves.lists
  by_cases changes : label.changesList = true
  · cases label with
    | crash cut =>
      cases step
      exact ⟨_,serves.crash cut⟩
    | getSnapshot =>
      obtain ⟨cut,isCrash,-⟩ | ⟨db,running,-⟩ | ⟨-,stepped⟩ := step_cases step
      · cases isCrash
      · obtain ⟨m,-,ok⟩ := regular.inv.running running
        rw [State.snapshots_running running] at lists
        obtain ⟨l',isNew,-⟩ := lists.new ok.memory.visible
        exact ⟨l',serves.getSnapshot running isNew step⟩
      · cases stepped
    | releaseSnapshot n =>
      obtain ⟨e,number⟩ := lists.handle (live n rfl)
      exact ⟨_,serves.releaseSnapshot number step⟩
    | _ => cases changes
  · exact ⟨l,.other label serves okay automatic (by simpa using changes) step⟩

omit [LinearOrder K] in
def Label.releases : Label K V → Bool
  | .releaseSnapshot _ => true
  | _ => false

theorem SnapshotList.Serves.run {ls : List (Label K V)} (serves : Serves o s l) (okay : ∀ label ∈ ls, label.ok = true)
    (automatic : ∀ label ∈ ls, label.automatic = true) (kept : ∀ label ∈ ls, label.releases = false)
    (run : s.run o ls = some t) : ∃ l', Serves o t l' := by
  induction ls generalizing s l with
  | nil =>
    cases run
    exact ⟨l,serves⟩
  | cons label rest ih =>
    obtain ⟨next,step,run⟩ := Option.bind_eq_some_iff.mp run
    have first : label ∈ label :: rest := List.mem_cons_self
    have live : ∀ n, label = .releaseSnapshot n → n ∈ s.snapshots := by
      rintro n rfl
      cases kept _ first
    obtain ⟨l',serves'⟩ := serves.step (okay _ first) (automatic _ first) live step
    exact ih serves' (fun label member => okay _ (List.mem_cons_of_mem _ member))
      (fun label member => automatic _ (List.mem_cons_of_mem _ member))
      (fun label member => kept _ (List.mem_cons_of_mem _ member)) run

/-- In every run the list is that of the machine: its nodes have the live numbers in their
order, a compaction reads the same smallest snapshot from it, a new snapshot passes the
assertion, and the nodes that can be released are the snapshots that can. -/
theorem snapshot_list (serves : SnapshotList.Serves o s l) (running : s.process = .running db) :
    (∃ nodes, l.Lists nodes db.snapshots) ∧
      l.smallestSnapshot db.versions.lastSequence = some db.smallestSnapshot ∧
      (l.new db.versions.lastSequence).isSome ∧ ∀ n, n ∈ db.snapshots ↔ ∃ e, l.sequenceNumber e = some n := by
  obtain ⟨regular,nodes,lists⟩ := serves.lists
  obtain ⟨m,-,ok⟩ := regular.inv.running running
  rw [State.snapshots_running running] at lists
  obtain ⟨l',isNew,-⟩ := lists.new ok.memory.visible
  exact ⟨⟨nodes,lists⟩,lists.smallestSnapshot _,by rw [isNew]; rfl,
    fun n => ⟨lists.handle,fun ⟨e,number⟩ => lists.number number⟩⟩

/-- A snapshot is taken after each of two writes. -/
def listedRun : List (Label Nat Nat) :=
  openRun ++ writeRun 1 [(1,some 10)] true 1 ++ [.getSnapshot] ++ writeRun 2 [(1,some 20)] true 1 ++ [.getSnapshot]

/-- The older one is released. -/
theorem snapshot_list_taken : ∃ s db l, State.initial.run smallOptions (listedRun ++ [.releaseSnapshot 1]) = some s ∧
    s.process = .running db ∧ db.snapshots = [2] ∧ SnapshotList.Serves smallOptions s l ∧
      l.smallestSnapshot db.versions.lastSequence = some 2 ∧ ∃ nodes, l.Lists nodes [2] := by
  obtain ⟨s,db,run,running,found⟩ := exists_run smallOptions listedRun (fun _ db => db.snapshots == [1,2]) (by decide)
  have snapshots : db.snapshots = [1,2] := by simpa using found
  obtain ⟨l,serves⟩ := SnapshotList.Serves.start.run (by decide) (by decide) (by decide) run
  have step : s.step smallOptions (.releaseSnapshot 1) = some (s.releaseSnapshot db 1) := by
    simp only [State.step,running,State.stepDb]
  obtain ⟨e,number⟩ := ((snapshot_list serves running).2.2.2 1).mp (by simp [snapshots])
  have released := serves.releaseSnapshot number step
  have left : (db.snapshots.erase 1) = [2] := by
    rw [snapshots]
    rfl
  obtain ⟨nodes,smallest,-,-⟩ := snapshot_list released rfl
  simp only [left] at nodes
  simp only [Db.smallestSnapshot,left,List.head?_cons,Option.getD_some] at smallest
  refine ⟨_,{ db with snapshots := db.snapshots.erase 1 },_,?_,rfl,left,released,smallest,nodes⟩
  rw [State.run_append,run,Option.bind_some,State.run,step]
  rfl

end Machine

end LevelDB
