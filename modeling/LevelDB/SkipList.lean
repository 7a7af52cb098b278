import LevelDB.Chain
import Mathlib.Order.WithBot

/-! The skip list of `db/skiplist.h`. Nodes are never freed, so a node is its address; `head_`
is the node at address 0. Levels are read one pointer at a time, and a pointer that is out of
the node's array or that has not been stored cannot be read. -/
namespace LevelDB

variable {K R : Type}

structure SkipList.Node (K : Type) where
  key : K
  next : List (Option (Option Nat))

structure SkipList (K : Type) where
  nodes : List (SkipList.Node K)
  maxHeight : Nat

namespace SkipList

def kMaxHeight : Nat := 12

def head : Nat := 0

def newNode (key : K) (height : Nat) : Node K := ⟨key,List.replicate height none⟩

/-- The constructor, with any key for `head_`. -/
def new (any : K) : SkipList K := ⟨[⟨any,List.replicate kMaxHeight (some none)⟩],1⟩

def key (s : SkipList K) (x : Nat) : Option K := s.nodes[x]?.map Node.key

def next (s : SkipList K) (level x : Nat) : Option (Option Nat) :=
  s.nodes[x]?.bind fun node => node.next[level]?.join

def setNext (s : SkipList K) (level x : Nat) (link : Option Nat) : Option (SkipList K) :=
  s.nodes[x]?.bind fun node =>
    if level < node.next.length then
      some { s with nodes := s.nodes.set x { node with next := node.next.set level (some link) } }
    else none

/-- Where a search is, and the `prev` it fills. -/
structure Search where
  x : Nat
  level : Nat
  prev : Nat → Option Nat

/-- What a search comes to: the last node before the place, and the next one at the bottom. -/
structure Found where
  x : Nat
  next : Option Nat
  prev : Nat → Option Nat

/-- `KeyIsAfterNode`; a null node is considered infinite. -/
def isAfterNode (s : SkipList K) (after : K → Bool) : Option Nat → Option Bool
  | none => some false
  | some n => (s.key n).map after

/-- One pass of the loop of the searches, with one load. They differ in the keys that they go past. -/
def searchStep (s : SkipList K) (after : K → Bool) (p : Search) : Option (Search ⊕ Found) :=
  (s.next p.level p.x).bind fun next =>
    (s.isAfterNode after next).map fun keep =>
      match next,keep with
      | some n,true => .inl { p with x := n }
      | next,_ =>
        let prev := Function.update p.prev p.level (some p.x)
        if p.level = 0 then .inr ⟨p.x,next,prev⟩ else .inl ⟨p.x,p.level - 1,prev⟩

def searchLoop (s : SkipList K) (after : K → Bool) : Nat → Search → Option Found
  | 0, _ => none
  | fuel + 1, p => (s.searchStep after p).bind (Sum.elim (s.searchLoop after fuel) some)

/-- A search begins at `head_`, at the level it takes from `max_height_`. -/
def Search.start (level : Nat) : Search := ⟨head,level,fun _ => none⟩

/-- No search takes as many passes. -/
def searchFuel (s : SkipList K) : Nat := s.nodes.length + kMaxHeight

def search (s : SkipList K) (after : K → Bool) : Option Found :=
  s.searchLoop after s.searchFuel (.start (s.maxHeight - 1))

section Ranked
variable [LinearOrder R] (rank : K → R)

def findGreaterOrEqual (s : SkipList K) (key : K) : Option (Option Nat × (Nat → Option Nat)) :=
  (s.search fun k => rank k < rank key).map fun f => (f.next,f.prev)

def findLessThan (s : SkipList K) (key : K) : Option Nat :=
  (s.search fun k => rank k < rank key).map Found.x

def findLast (s : SkipList K) : Option Nat := (s.search fun _ => true).map Found.x

def contains (s : SkipList K) (key : K) : Option Bool :=
  (s.findGreaterOrEqual rank key).bind fun r => r.1.elim (some false) fun x => (s.key x).map fun k => rank key = rank k

/-! The iterator is its node. -/

def iteratorNext (s : SkipList K) (node : Nat) : Option (Option Nat) := s.next 0 node

def iteratorPrev (s : SkipList K) (node : Nat) : Option (Option Nat) :=
  (s.key node).bind fun k => (s.findLessThan rank k).map fun x => if x = head then none else some x

def iteratorSeek (s : SkipList K) (target : K) : Option (Option Nat) := (s.findGreaterOrEqual rank target).map Prod.fst

def seekToFirst (s : SkipList K) : Option (Option Nat) := s.next 0 head

def seekToLast (s : SkipList K) : Option (Option Nat) := s.findLast.map fun x => if x = head then none else some x

/-- The nodes of a level, by its pointers. -/
def follow (s : SkipList K) (level : Nat) : Nat → Option Nat → Option (List Nat)
  | _, none => some []
  | 0, some _ => none
  | fuel + 1, some x => (s.next level x).bind fun n => (s.follow level fuel n).map fun l => x :: l

def nodesAt (s : SkipList K) (level : Nat) : Option (List Nat) := (s.next level head).bind (s.follow level s.nodes.length)

/-- The searches and the moves of an iterator return what a search of these nodes and keys returns. -/
structure Answers (s : SkipList K) (entries : List (Nat × K)) : Prop where
  findGreaterOrEqual : ∀ key, (s.findGreaterOrEqual rank key).map Prod.fst =
    some ((entries.find? fun e => rank key ≤ rank e.2).map Prod.fst)
  findLessThan : ∀ key, s.findLessThan rank key =
    some (((entries.filter fun e => rank e.2 < rank key).getLast?.map Prod.fst).getD head)
  findLast : s.findLast = some ((entries.getLast?.map Prod.fst).getD head)
  contains : ∀ key, s.contains rank key = some (decide (∃ e ∈ entries, rank e.2 = rank key))
  next : ∀ e ∈ entries, s.iteratorNext e.1 = some ((entries.find? fun e' => rank e.2 < rank e'.2).map Prod.fst)
  prev : ∀ e ∈ entries, s.iteratorPrev rank e.1 =
    some ((entries.filter fun e' => rank e'.2 < rank e.2).getLast?.map Prod.fst)
  seek : ∀ target, s.iteratorSeek rank target = some ((entries.find? fun e => rank target ≤ rank e.2).map Prod.fst)
  seekToFirst : s.seekToFirst = some (entries.head?.map Prod.fst)
  seekToLast : s.seekToLast = some (entries.getLast?.map Prod.fst)

/-- The place of a node in the order of the comparator; `head_` is before all keys. -/
def place (s : SkipList K) (x : Nat) : WithBot R := if x = head then ⊥ else (s.key x).elim ⊥ fun k => (rank k : WithBot R)

/-- What each level holds: `head_`, then nodes in order that are on the level below too. -/
structure Levels (s : SkipList K) (levels : Nat → List Nat) : Prop where
  chain : ∀ i < kMaxHeight, Chain (s.next i) (levels i)
  first : ∀ i, ∃ l, levels i = head :: l
  sorted : ∀ i, (levels i).Pairwise fun x y => s.place rank x < s.place rank y
  lower : ∀ i, levels (i + 1) ⊆ levels i
  high : ∀ i, s.maxHeight ≤ i → levels i = [head]
  positive : 0 < s.maxHeight
  bounded : s.maxHeight ≤ kMaxHeight

/-- The keys that a search goes past are those of a lower set of places. -/
structure GoesPast (after : K → Bool) (below : Set (WithBot R)) : Prop where
  keys : ∀ k, after k = true ↔ (rank k : WithBot R) ∈ below
  lower : IsLowerSet below
  bottom : ⊥ ∈ below

section Search
variable {rank} {s : SkipList K} {levels : Nat → List Nat} {after : K → Bool} {below : Set (WithBot R)} {p p' : Search} {f : Found}

theorem goesPast_key (key : K) : GoesPast rank (fun k => decide (rank k < rank key)) (Set.Iio (rank key : WithBot R)) where
  keys k := by simp
  lower := isLowerSet_Iio _
  bottom := WithBot.bot_lt_coe _

theorem goesPast_all : GoesPast rank (fun _ => true) Set.univ where
  keys k := by simp
  lower := isLowerSet_univ
  bottom := Set.mem_univ _

omit [LinearOrder R] in
@[simp] theorem place_head : s.place rank head = ⊥ := if_pos rfl

omit [LinearOrder R] in
theorem place_of_key {x : Nat} {k : K} (other : x ≠ head) (has : s.key x = some k) : s.place rank x = rank k := by
  rw [place,if_neg other,has]
  rfl

/-- What stands behind another node in the order is no `head_` and has a key. -/
theorem key_of_place {x : Nat} {b : WithBot R} (above : b < s.place rank x) : x ≠ head ∧ ∃ k, s.key x = some k ∧ s.place rank x = rank k := by
  have other : x ≠ head := by
    rintro rfl
    rw [place_head] at above
    exact not_lt_bot above
  rw [place,if_neg other] at above
  cases has : s.key x with
  | none =>
    rw [has] at above
    exact absurd above not_lt_bot
  | some k => exact ⟨other,k,rfl,place_of_key other has⟩

namespace Levels

theorem lower_le (h : s.Levels rank levels) {i j : Nat} (order : i ≤ j) : levels j ⊆ levels i := by
  induction order with
  | refl => exact fun _ member => member
  | step _ ih => exact fun _ member => ih (h.lower _ member)

theorem head_mem (h : s.Levels rank levels) (i : Nat) : head ∈ levels i := by
  obtain ⟨l,same⟩ := h.first i
  exact same ▸ List.mem_cons_self

theorem nodup (h : s.Levels rank levels) (i : Nat) : (levels i).Nodup :=
  (h.sorted i).imp fun less same => absurd (same ▸ less) (lt_irrefl _)

/-- The nodes behind `head_` have keys. -/
theorem key_of_mem (h : s.Levels rank levels) {i x : Nat} (member : x ∈ levels i) (other : x ≠ head) :
    ∃ k, s.key x = some k ∧ s.place rank x = rank k := by
  obtain ⟨l,same⟩ := h.first i
  have sorted := h.sorted i
  rw [same] at member sorted
  rcases List.mem_cons.mp member with rfl | behind
  · exact absurd rfl other
  · exact (key_of_place ((List.pairwise_cons.mp sorted).1 x behind)).2

end Levels

/-- Where a search can be: on a node of its level that is before the place, with `prev` filled above. -/
structure Walks (rank : K → R) (s : SkipList K) (levels : Nat → List Nat) (below : Set (WithBot R)) (top : Nat) (p : Search) : Prop where
  level : p.level < kMaxHeight
  member : p.x ∈ levels p.level
  left : s.place rank p.x ∈ below
  prev : ∀ i, p.level < i → i ≤ top → ∃ x r, p.prev i = some x ∧ CutAt (s.place rank) below (levels i) x r

/-- What a search comes to. -/
structure Ends (rank : K → R) (s : SkipList K) (levels : Nat → List Nat) (below : Set (WithBot R)) (top : Nat) (f : Found) : Prop where
  found : ∃ r, CutAt (s.place rank) below (levels 0) f.x r ∧ f.next = r.head?
  prev : ∀ i ≤ top, ∃ x r, f.prev i = some x ∧ CutAt (s.place rank) below (levels i) x r

theorem walks_start (h : s.Levels rank levels) (past : GoesPast rank after below) {level top : Nat} (small : level < kMaxHeight)
    (order : top ≤ level) : Walks rank s levels below top (.start level) where
  level := small
  member := h.head_mem level
  left := by
    change s.place rank head ∈ below
    rw [place_head]
    exact past.bottom
  prev i more less := absurd (lt_of_lt_of_le more (less.trans order)) (lt_irrefl _)

/-- The next node is gone past exactly if its place is before the one that is sought. -/
theorem isAfterNode_eq (past : GoesPast rank after below) {node : Option Nat}
    (keyed : ∀ n ∈ node, ∃ k, s.key n = some k ∧ s.place rank n = rank k) :
    (s.isAfterNode after node = some false ∧ ∀ n ∈ node, s.place rank n ∉ below) ∨
      ∃ n, node = some n ∧ s.isAfterNode after node = some true ∧ s.place rank n ∈ below := by
  cases node with
  | none => exact .inl ⟨rfl,by simp⟩
  | some n =>
    obtain ⟨k,has,placed⟩ := keyed n rfl
    have asked : s.isAfterNode after (some n) = some (after k) := by simp [isAfterNode,has]
    by_cases keep : after k = true
    · refine .inr ⟨n,rfl,asked.trans (congrArg some keep),?_⟩
      rw [placed]
      exact (past.keys k).mp keep
    · refine .inl ⟨asked.trans (congrArg some (Bool.eq_false_iff.mpr keep)),?_⟩
      intro m same
      cases same
      rw [placed]
      exact fun inside => keep ((past.keys k).mpr inside)

/-- One pass goes on, goes down a level, or ends; every load it makes succeeds. -/
theorem Walks.step (h : s.Levels rank levels) (past : GoesPast rank after below) {top : Nat} (walks : Walks rank s levels below top p) :
    (∃ p', s.searchStep after p = some (.inl p') ∧ Walks rank s levels below top p' ∧
      ((p'.level = p.level ∧ s.place rank p.x < s.place rank p'.x) ∨ (p'.level < p.level ∧ p'.x = p.x))) ∨
    ∃ f, s.searchStep after p = some (.inr f) ∧ Ends rank s levels below top f := by
  obtain ⟨l,r,split⟩ := List.append_of_mem walks.member
  have chain := h.chain p.level walks.level
  have sorted := h.sorted p.level
  have load : s.next p.level p.x = some r.head? := by
    rw [split] at chain
    exact chain.next_eq
  have keyed : ∀ n ∈ r.head?, ∃ k, s.key n = some k ∧ s.place rank n = rank k := by
    intro n behind
    have inside : n ∈ r := List.mem_of_mem_head? behind
    rw [split] at sorted
    exact (key_of_place ((List.pairwise_cons.mp (List.pairwise_append.mp sorted).2.1).1 n inside)).2
  rcases isAfterNode_eq past keyed with ⟨stop,right⟩ | ⟨n,here,keep,inside⟩
  · have cut : CutAt (s.place rank) below (levels p.level) p.x r := .of_head sorted past.lower split walks.left right
    have filled : ∀ i, p.level ≤ i → i ≤ top → ∃ x r, Function.update p.prev p.level (some p.x) i = some x ∧
        CutAt (s.place rank) below (levels i) x r := by
      intro i above small
      by_cases same : i = p.level
      · subst same
        exact ⟨p.x,r,Function.update_self ..,cut⟩
      · rw [Function.update_of_ne same]
        exact walks.prev i (lt_of_le_of_ne above (Ne.symm same)) small
    have done : s.searchStep after p = some (if p.level = 0 then .inr ⟨p.x,r.head?,Function.update p.prev p.level (some p.x)⟩
        else .inl ⟨p.x,p.level - 1,Function.update p.prev p.level (some p.x)⟩) := by
      simp only [searchStep,load,Option.bind_some,stop,Option.map_some]
      cases r <;> rfl
    by_cases bottom : p.level = 0
    · rw [if_pos bottom] at done
      refine .inr ⟨_,done,⟨r,?_,rfl⟩,?_⟩
      · rw [bottom] at cut
        exact cut
      · intro i small
        exact filled i (by omega) small
    · rw [if_neg bottom] at done
      refine .inl ⟨_,done,⟨?_,?_,walks.left,?_⟩,.inr ⟨by simp only; omega,rfl⟩⟩
      · have := walks.level
        simp only
        omega
      · exact h.lower_le (by simp only; omega) walks.member
      · intro i above small
        exact filled i (by simp only at above; omega) small
  · have done : s.searchStep after p = some (.inl { p with x := n }) := by
      simp only [searchStep,load,Option.bind_some,keep,Option.map_some]
      simp only [here]
    have behind : n ∈ r := List.mem_of_mem_head? here
    have less : s.place rank p.x < s.place rank n := by
      rw [split] at sorted
      exact (List.pairwise_cons.mp (List.pairwise_append.mp sorted).2.1).1 n behind
    refine .inl ⟨_,done,⟨walks.level,?_,inside,walks.prev⟩,.inl ⟨rfl,less⟩⟩
    change n ∈ levels p.level
    rw [split]
    exact List.mem_append_right l (List.mem_cons_of_mem p.x behind)

/-- The loads a search can still make: it goes past every place at most once, and down every level. -/
def loadsLeft (rank : K → R) (s : SkipList K) (places : List (WithBot R)) (p : Search) : Nat :=
  places.countP (fun b => s.place rank p.x < b) + p.level

theorem loadsLeft_lt {places : List (WithBot R)} (known : s.place rank p'.x ∈ places)
    (progress : (p'.level = p.level ∧ s.place rank p.x < s.place rank p'.x) ∨ (p'.level < p.level ∧ p'.x = p.x)) :
    s.loadsLeft rank places p' < s.loadsLeft rank places p := by
  rcases progress with ⟨level,less⟩ | ⟨level,same⟩
  · obtain ⟨l,r,split⟩ := List.append_of_mem known
    have fewer : ∀ l : List (WithBot R), l.countP (fun b => s.place rank p'.x < b) ≤ l.countP fun b => s.place rank p.x < b := by
      intro l
      apply List.countP_mono_left
      intro b _ above
      rw [decide_eq_true_iff] at above ⊢
      exact less.trans above
    have before := fewer l
    have behind := fewer r
    simp only [loadsLeft,split,List.countP_append,List.countP_cons,lt_irrefl,less,decide_true,decide_false]
    simp only [if_true,Bool.false_eq_true,if_false]
    omega
  · unfold loadsLeft
    rw [same]
    omega

theorem searchLoop_ends (h : s.Levels rank levels) (past : GoesPast rank after below) {top : Nat} :
    ∀ {fuel : Nat} {p : Search}, Walks rank s levels below top p → s.loadsLeft rank ((levels 0).map (s.place rank)) p < fuel →
      ∃ f, s.searchLoop after fuel p = some f ∧ Ends rank s levels below top f := by
  intro fuel
  induction fuel with
  | zero => exact fun _ less => absurd less (Nat.not_lt_zero _)
  | succ fuel ih =>
    intro p walks enough
    rcases walks.step h past with ⟨p',step,walks',progress⟩ | ⟨f,step,ends⟩
    · have known : s.place rank p'.x ∈ (levels 0).map (s.place rank) :=
        List.mem_map_of_mem (h.lower_le (Nat.zero_le _) walks'.member)
      have fewer := loadsLeft_lt known progress
      obtain ⟨f,done,ends⟩ := ih walks' (by omega)
      refine ⟨f,?_,ends⟩
      simp only [searchLoop,step,Option.bind_some,Sum.elim_inl]
      exact done
    · refine ⟨f,?_,ends⟩
      simp only [searchLoop,step,Option.bind_some,Sum.elim_inr]

theorem Levels.length_le (h : s.Levels rank levels) (i : Nat) (room : head < s.nodes.length) : (levels i).length ≤ s.nodes.length := by
  have inside : levels i ⊆ List.range s.nodes.length := by
    intro x member
    rw [List.mem_range]
    by_cases same : x = head
    · exact same ▸ room
    · obtain ⟨k,has,-⟩ := h.key_of_mem member same
      obtain ⟨node,here,-⟩ := Option.map_eq_some_iff.mp has
      exact (List.getElem?_eq_some_iff.mp here).1
  have short := (List.subperm_of_subset (h.nodup i) inside).length_le
  rwa [List.length_range] at short

/-- A search from any level that `max_height_` may have named ends at the place in level 0. -/
theorem search_from (h : s.Levels rank levels) (past : GoesPast rank after below) {top : Nat} (small : top < kMaxHeight) :
    ∃ f, s.searchLoop after s.searchFuel (.start top) = some f ∧ Ends rank s levels below top f := by
  apply searchLoop_ends h past (walks_start h past small le_rfl)
  have room : head < s.nodes.length := by
    obtain ⟨l,same⟩ := h.first 0
    have chain := h.chain 0 (by decide)
    rw [same] at chain
    obtain ⟨node,here,-⟩ := Option.bind_eq_some_iff.mp chain.1
    exact (List.getElem?_eq_some_iff.mp here).1
  have few := h.length_le 0 room
  have count := List.countP_le_length (p := fun b => decide (s.place rank (Search.start top).x < b)) (l := (levels 0).map (s.place rank))
  rw [List.length_map] at count
  have level : (Search.start top).level = top := rfl
  unfold loadsLeft searchFuel
  omega

theorem search_eq (h : s.Levels rank levels) (past : GoesPast rank after below) :
    ∃ f, s.search after = some f ∧ Ends rank s levels below (s.maxHeight - 1) f := by
  have := h.positive
  have := h.bounded
  exact search_from h past (by omega)

/-- Nodes with their keys. -/
structure Keyed (s : SkipList K) (list : List Nat) (entries : List (Nat × K)) : Prop where
  nodes : list = head :: entries.map Prod.fst
  keys : ∀ e ∈ entries, s.key e.1 = some e.2

theorem Levels.keyed (h : s.Levels rank levels) (i : Nat) : ∃ entries, s.Keyed (levels i) entries := by
  obtain ⟨l,same⟩ := h.first i
  have apart := h.nodup i
  rw [same] at apart
  have all : ∀ x ∈ l, ∃ k, s.key x = some k := by
    intro x member
    have other : x ≠ head := fun equal => (List.nodup_cons.mp apart).1 (equal ▸ member)
    obtain ⟨k,has,-⟩ := h.key_of_mem (i := i) (same ▸ List.mem_cons_of_mem head member) other
    exact ⟨k,has⟩
  have build : ∃ entries : List (Nat × K), l = entries.map Prod.fst ∧ ∀ e ∈ entries, s.key e.1 = some e.2 := by
    clear same apart
    induction l with
    | nil => exact ⟨[],rfl,by simp⟩
    | cons x l ih =>
      obtain ⟨k,has⟩ := all x List.mem_cons_self
      obtain ⟨entries,rfl,keys⟩ := ih fun y member => all y (List.mem_cons_of_mem x member)
      refine ⟨(x,k) :: entries,rfl,?_⟩
      intro e member
      rcases List.mem_cons.mp member with rfl | behind
      · exact has
      · exact keys e behind
  obtain ⟨entries,rfl,keys⟩ := build
  exact ⟨entries,same,keys⟩

theorem Keyed.place_eq (h : s.Levels rank levels) {i : Nat} {entries : List (Nat × K)} (keyed : s.Keyed (levels i) entries) :
    ∀ e ∈ entries, e.1 ≠ head ∧ s.place rank e.1 = rank e.2 := by
  intro e member
  have apart := h.nodup i
  rw [keyed.nodes] at apart
  have other : e.1 ≠ head := by
    intro equal
    exact (List.nodup_cons.mp apart).1 (equal ▸ List.mem_map_of_mem member)
  exact ⟨other,place_of_key other (keyed.keys e member)⟩

/-- A cut of the nodes is one of the entries. -/
theorem Keyed.cut {list : List Nat} {entries : List (Nat × K)} (keyed : s.Keyed list entries) {l r : List Nat} {x : Nat}
    (cut : list = l ++ x :: r) :
    ∃ left right, entries = left ++ right ∧ x = (left.getLast?.map Prod.fst).getD head ∧ r = right.map Prod.fst := by
  rw [keyed.nodes] at cut
  cases l with
  | nil =>
    obtain ⟨rfl,rfl⟩ := List.cons.inj cut
    exact ⟨[],entries,rfl,rfl,rfl⟩
  | cons y l =>
    obtain ⟨-,cut⟩ := List.cons.inj cut
    obtain ⟨left,rest,rfl,-,last⟩ := List.map_eq_append_iff.mp cut
    obtain ⟨e,right,rfl,rfl,rfl⟩ := List.map_eq_cons_iff.mp last
    exact ⟨left ++ [e],right,by simp,by simp,rfl⟩

/-- What a search comes to, in entries. -/
theorem Ends.entries (h : s.Levels rank levels) (lower : IsLowerSet below) {top : Nat} (ends : Ends rank s levels below top f)
    {entries : List (Nat × K)} (keyed : s.Keyed (levels 0) entries) :
    ∃ left right, entries = left ++ right ∧ f.x = (left.getLast?.map Prod.fst).getD head ∧ f.next = right.head?.map Prod.fst ∧
      (∀ e ∈ left, (rank e.2 : WithBot R) ∈ below) ∧ ∀ e ∈ right, (rank e.2 : WithBot R) ∉ below := by
  obtain ⟨r,cut,next⟩ := ends.found
  obtain ⟨l,list⟩ := cut.cut
  obtain ⟨left,right,rfl,last,rfl⟩ := keyed.cut list
  have placed := keyed.place_eq h
  refine ⟨left,right,rfl,last,by rw [next,List.head?_map],?_,?_⟩
  · intro e member
    have inside : e ∈ left ++ right := List.mem_append_left right member
    rw [← (placed e inside).2]
    apply cut.before (h.sorted 0) lower
    · rw [keyed.nodes]
      exact List.mem_cons_of_mem head (List.mem_map_of_mem inside)
    · intro behind
      obtain ⟨e',member',same⟩ := List.mem_map.mp behind
      have apart := h.nodup 0
      rw [keyed.nodes,List.map_append] at apart
      have disjoint := (List.nodup_append.mp (List.nodup_cons.mp apart).2).2.2
      exact disjoint e.1 (List.mem_map_of_mem member) e'.1 (List.mem_map_of_mem member') same.symm
  · intro e member
    rw [← (placed e (List.mem_append_right left member)).2]
    exact cut.right e.1 (List.mem_map_of_mem member)

theorem Levels.findGreaterOrEqual_eq (h : s.Levels rank levels) {entries : List (Nat × K)} (keyed : s.Keyed (levels 0) entries) (key : K) :
    (s.findGreaterOrEqual rank key).map Prod.fst = some ((entries.find? fun e => rank key ≤ rank e.2).map Prod.fst) := by
  obtain ⟨f,done,ends⟩ := search_eq h (goesPast_key key)
  obtain ⟨left,right,rfl,-,next,before,behind⟩ := ends.entries h (isLowerSet_Iio _) keyed
  rw [findGreaterOrEqual,done,find?_of_cut]
  · exact congrArg some next
  · intro e member
    simpa using before e member
  · intro e member
    simpa using behind e member

theorem Levels.findLessThan_eq (h : s.Levels rank levels) {entries : List (Nat × K)} (keyed : s.Keyed (levels 0) entries) (key : K) :
    s.findLessThan rank key = some (((entries.filter fun e => rank e.2 < rank key).getLast?.map Prod.fst).getD head) := by
  obtain ⟨f,done,ends⟩ := search_eq h (goesPast_key key)
  obtain ⟨left,right,rfl,last,-,before,behind⟩ := ends.entries h (isLowerSet_Iio _) keyed
  rw [findLessThan,done,filter_of_cut]
  · exact congrArg some last
  · intro e member
    simpa using before e member
  · intro e member
    simpa using behind e member

theorem Levels.findLast_eq (h : s.Levels rank levels) {entries : List (Nat × K)} (keyed : s.Keyed (levels 0) entries) :
    s.findLast = some ((entries.getLast?.map Prod.fst).getD head) := by
  obtain ⟨f,done,ends⟩ := search_eq h (goesPast_all : GoesPast rank (fun _ => true) Set.univ)
  obtain ⟨left,right,rfl,last,-,-,behind⟩ := ends.entries h isLowerSet_univ keyed
  have none : right = [] := List.eq_nil_iff_forall_not_mem.mpr fun e member => behind e member (Set.mem_univ _)
  rw [findLast,done,none,List.append_nil]
  exact congrArg some last

theorem Keyed.sorted (h : s.Levels rank levels) {i : Nat} {entries : List (Nat × K)} (keyed : s.Keyed (levels i) entries) :
    entries.Pairwise fun e e' => rank e.2 < rank e'.2 := by
  have sorted := h.sorted i
  rw [keyed.nodes] at sorted
  have placed := keyed.place_eq h
  apply (List.pairwise_map.mp (List.pairwise_cons.mp sorted).2).imp_of_mem
  intro e e' member member' less
  rw [(placed e member).2,(placed e' member').2] at less
  exact WithBot.coe_lt_coe.mp less

theorem Levels.contains_eq (h : s.Levels rank levels) {entries : List (Nat × K)} (keyed : s.Keyed (levels 0) entries) (key : K) :
    s.contains rank key = some (decide (∃ e ∈ entries, rank e.2 = rank key)) := by
  obtain ⟨f,done,ends⟩ := search_eq h (goesPast_key key)
  have sorted := keyed.sorted h
  have keys := keyed.keys
  obtain ⟨left,right,rfl,-,next,before,behind⟩ := ends.entries h (isLowerSet_Iio _) keyed
  have absent : ∀ e ∈ left, rank e.2 ≠ rank key := by
    intro e member same
    have less : (rank e.2 : WithBot R) < rank key := before e member
    rw [same] at less
    exact lt_irrefl _ less
  rw [contains,findGreaterOrEqual,done,Option.map_some,Option.bind_some]
  simp only [next]
  cases right with
  | nil =>
    have no : ¬∃ e ∈ left ++ [], rank e.2 = rank key := by
      rintro ⟨e,member,same⟩
      exact absent e (by simpa using member) same
    rw [decide_eq_false no]
    rfl
  | cons e right =>
    have here := keys e (by simp)
    simp only [List.head?_cons,Option.map_some,Option.elim_some,here,Option.some.injEq,decide_eq_decide]
    constructor
    · exact fun same => ⟨e,by simp,same.symm⟩
    · rintro ⟨e',member,same⟩
      have above : rank key ≤ rank e.2 := by simpa using behind e List.mem_cons_self
      rcases List.mem_append.mp member with outside | inside
      · exact absurd same (absent e' outside)
      · rcases List.mem_cons.mp inside with rfl | later
        · exact same.symm
        · have less := (List.pairwise_cons.mp (List.pairwise_append.mp sorted).2.1).1 e' later
          exact absurd (lt_of_lt_of_le (same ▸ less) above) (lt_irrefl _)

theorem getD_head (h : s.Levels rank levels) {i : Nat} {entries : List (Nat × K)} (keyed : s.Keyed (levels i) entries)
    {o : Option (Nat × K)} (inside : ∀ e ∈ o, e ∈ entries) :
    (if (o.map Prod.fst).getD head = head then none else some ((o.map Prod.fst).getD head)) = o.map Prod.fst := by
  cases o with
  | none => rfl
  | some e => exact if_neg (keyed.place_eq h e (inside e rfl)).1

theorem Levels.iteratorNext_eq (h : s.Levels rank levels) {entries : List (Nat × K)} (keyed : s.Keyed (levels 0) entries) :
    ∀ e ∈ entries, s.iteratorNext e.1 = some ((entries.find? fun e' => rank e.2 < rank e'.2).map Prod.fst) := by
  intro e member
  have sorted := keyed.sorted h
  have chain := h.chain 0 (by decide)
  rw [keyed.nodes] at chain
  obtain ⟨left,right,rfl⟩ := List.append_of_mem member
  have apart := List.pairwise_append.mp sorted
  have cut : (left ++ e :: right).find? (fun e' => decide (rank e.2 < rank e'.2)) = right.head? := by
    rw [List.append_cons,find?_of_cut]
    · intro e' inside
      rw [decide_eq_false_iff_not,not_lt]
      rcases List.mem_append.mp inside with before | here
      · exact (apart.2.2 e' before e List.mem_cons_self).le
      · rw [List.mem_singleton.mp here]
    · intro e' inside
      exact decide_eq_true ((List.pairwise_cons.mp apart.2.1).1 e' inside)
  rw [List.map_append,← List.cons_append] at chain
  rw [cut,iteratorNext,chain.next_eq,List.head?_map]

/-- Where the levels are as they should be, all searches and moves return what they should. -/
theorem Levels.answers (h : s.Levels rank levels) {entries : List (Nat × K)} (keyed : s.Keyed (levels 0) entries) :
    s.Answers rank entries where
  findGreaterOrEqual := h.findGreaterOrEqual_eq keyed
  findLessThan := h.findLessThan_eq keyed
  findLast := h.findLast_eq keyed
  contains := h.contains_eq keyed
  next := h.iteratorNext_eq keyed
  prev := by
    intro e member
    have inside : ∀ e' ∈ (entries.filter fun e' => rank e'.2 < rank e.2).getLast?, e' ∈ entries :=
      fun e' last => List.mem_of_mem_filter (List.mem_of_getLast? last)
    rw [iteratorPrev,keyed.keys e member,Option.bind_some,h.findLessThan_eq keyed,Option.map_some,getD_head h keyed inside]
  seek := h.findGreaterOrEqual_eq keyed
  seekToFirst := by
    have chain := h.chain 0 (by decide)
    rw [keyed.nodes] at chain
    rw [seekToFirst,chain.1,List.head?_map]
  seekToLast := by
    have inside : ∀ e ∈ entries.getLast?, e ∈ entries := fun e last => List.mem_of_getLast? last
    rw [seekToLast,h.findLast_eq keyed,Option.map_some,getD_head h keyed inside]

theorem follow_eq {level : Nat} {l : List Nat} (chain : Chain (s.next level) l) :
    ∀ {fuel : Nat}, l.length ≤ fuel → s.follow level fuel l.head? = some l := by
  induction l with
  | nil =>
    intro fuel _
    cases fuel <;> rfl
  | cons x l ih =>
    intro fuel enough
    cases fuel with
    | zero => exact absurd enough (by simp)
    | succ fuel =>
      rw [List.head?_cons,follow,chain.1,Option.bind_some,ih chain.2 (Nat.le_of_succ_le_succ enough)]
      rfl

theorem Levels.nodesAt_eq (h : s.Levels rank levels) {i : Nat} (small : i < kMaxHeight) : s.nodesAt i = some (levels i).tail := by
  have chain := h.chain i small
  have few := h.length_le i
  obtain ⟨l,same⟩ := h.first i
  rw [same] at chain few ⊢
  obtain ⟨node,here,-⟩ := Option.bind_eq_some_iff.mp chain.1
  have short := few (List.getElem?_eq_some_iff.mp here).1
  rw [nodesAt,chain.1,Option.bind_some]
  exact follow_eq chain.2 ((Nat.le_succ _).trans short)

end Search

end Ranked

end SkipList
end LevelDB
