import Mathlib.Data.List.AList
import Mathlib.Data.List.Induction

/-! `LruKvCache`: a list of nodes, the last used first, and a hash table of iterators into
the list. An iterator is the address of its node; it stays valid while nodes are moved. -/
namespace LevelDB.KvCache

variable {K V : Type}

structure Stats where
  hits : Nat
  misses : Nat
  inserts : Nat
  evictions : Nat
  deriving DecidableEq, Repr

structure Node (K V : Type) where
  address : Nat
  key : K
  value : V

def Node.pair (n : Node K V) : K × V := (n.key,n.value)

/-- `*it`. -/
def deref (it : Nat) (items : List (Node K V)) : Option (Node K V) := items.find? fun n => n.address == it

/-- `items_.erase(it)`. -/
def eraseNode (it : Nat) (items : List (Node K V)) : List (Node K V) := items.filter fun n => n.address != it

/-- `items_.splice(items_.begin(), items_, it)`. -/
def splice (it : Nat) (items : List (Node K V)) : List (Node K V) := (deref it items).toList ++ eraseNode it items

/-- `it->second = value`. -/
def assign (it : Nat) (value : V) (items : List (Node K V)) : List (Node K V) :=
  items.map fun n => if n.address = it then { n with value } else n

structure LruKvCache (K V : Type) where
  capacity : Nat
  items : List (Node K V)
  table : AList fun _ : K => Nat
  stats : Stats
  /-- Where the next node will be. -/
  fresh : Nat

section Cache
variable [DecidableEq K]

def LruKvCache.new (capacity : Nat) : LruKvCache K V := ⟨capacity,[],∅,⟨0,0,0,0⟩,0⟩

def LruKvCache.size (c : LruKvCache K V) : Nat := c.table.keys.length

def LruKvCache.get (c : LruKvCache K V) (key : K) : Option V × LruKvCache K V :=
  if c.capacity = 0 then (none,c)
  else match c.table.lookup key with
    | none => (none,{ c with stats := { c.stats with misses := c.stats.misses + 1 } })
    | some it =>
      let items := splice it c.items
      ((deref it items).map (·.value),{ c with
        items
        stats := { c.stats with hits := c.stats.hits + 1 } })

/-- The end of a `Put` of a new key: the last node goes if there are too many. -/
def LruKvCache.evict (c : LruKvCache K V) : LruKvCache K V :=
  if c.capacity < c.size then match c.items.getLast? with
    | some old => { c with
        items := c.items.dropLast
        table := c.table.erase old.key
        stats := { c.stats with evictions := c.stats.evictions + 1 } }
    | none => c
  else c

def LruKvCache.put (c : LruKvCache K V) (key : K) (value : V) : LruKvCache K V :=
  if c.capacity = 0 then c
  else match c.table.lookup key with
    | some it => { c with items := splice it (assign it value c.items) }
    | none => LruKvCache.evict { c with
        items := ⟨c.fresh,key,value⟩ :: c.items
        table := c.table.insert key c.fresh
        stats := { c.stats with inserts := c.stats.inserts + 1 }
        fresh := c.fresh + 1 }

def LruKvCache.erase (c : LruKvCache K V) (key : K) : LruKvCache K V :=
  match c.table.lookup key with
  | none => c
  | some it => { c with
      items := eraseNode it c.items
      table := c.table.erase key }

def LruKvCache.clear (c : LruKvCache K V) : LruKvCache K V := { c with items := [], table := ∅ }

inductive Call (K V : Type) where
  | get (key : K)
  | put (key : K) (value : V)
  | erase (key : K)
  | clear

def Call.isGet : Call K V → Bool
  | .get _ => true
  | _ => false

def LruKvCache.call (c : LruKvCache K V) : Call K V → LruKvCache K V
  | .get key => (c.get key).2
  | .put key value => c.put key value
  | .erase key => c.erase key
  | .clear => c.clear

/-! The abstract cache is a list of keys and values, the last used first. -/

def lruGet (l : List (K × V)) (key : K) : List (K × V) :=
  match l.lookup key with
  | some value => (key,value) :: l.filter fun p => p.1 != key
  | none => l

def lruPut (capacity : Nat) (l : List (K × V)) (key : K) (value : V) : List (K × V) :=
  ((key,value) :: l.filter fun p => p.1 != key).take capacity

def lruCall (capacity : Nat) (l : List (K × V)) : Call K V → List (K × V)
  | .get key => lruGet l key
  | .put key value => lruPut capacity l key value
  | .erase key => l.filter fun p => p.1 != key
  | .clear => []

/-- A cache and what its callers have done with it. -/
structure Session (K V : Type) where
  cache : LruKvCache K V
  /-- The keys of the hits and of the `Put`s, the last one first. -/
  used : List K
  /-- The `Put`s, the last one first. -/
  written : List (K × V)
  /-- How many entries `Erase` and `Clear` have removed. -/
  removed : Nat

def Session.call (s : Session K V) (a : Call K V) : Session K V :=
  let cache := s.cache.call a
  match a with
  | .get key => { s with cache, used := (s.cache.get key).1.toList.map (fun _ => key) ++ s.used }
  | .put key value => { s with cache, used := key :: s.used, written := (key,value) :: s.written }
  | _ => { s with cache, removed := s.removed + (s.cache.size - cache.size) }

def Session.run (capacity : Nat) (calls : List (Call K V)) : Session K V :=
  calls.foldl Session.call ⟨.new capacity,[],[],0⟩

def lruRun (capacity : Nat) (calls : List (Call K V)) : List (K × V) := calls.foldl (lruCall capacity) []

def LruKvCache.contents (c : LruKvCache K V) : List (K × V) := c.items.map Node.pair

/-- The list and the table hold the same keys, each once, and the table points at the node
of the key. -/
structure Linked (items : List (Node K V)) (table : AList fun _ : K => Nat) : Prop where
  keys : (items.map (·.key)).Nodup
  addresses : (items.map (·.address)).Nodup
  points : ∀ key it, table.lookup key = some it ↔ ∃ n ∈ items, n.key = key ∧ n.address = it

structure LruKvCache.Inv (c : LruKvCache K V) : Prop where
  linked : Linked c.items c.table
  fresh : ∀ n ∈ c.items, n.address < c.fresh
  bounded : c.items.length ≤ c.capacity

theorem mem_lruGet {l : List (K × V)} {key : K} {p : K × V} (member : p ∈ lruGet l key) : p ∈ l := by
  rw [lruGet] at member
  split at member
  · rename_i value found
    obtain ⟨before,after,split,-⟩ := List.lookup_eq_some_iff.mp found
    rcases List.mem_cons.mp member with rfl | old
    · rw [split]
      exact List.mem_append_right _ List.mem_cons_self
    · exact (List.mem_filter.mp old).1
  · exact member

theorem mem_lruPut {capacity : Nat} {l : List (K × V)} {key : K} {value : V} {p : K × V}
    (member : p ∈ lruPut capacity l key value) : p = (key,value) ∨ p ∈ l ∧ p.1 ≠ key := by
  refine (List.mem_cons.mp (List.mem_of_mem_take member)).imp id fun old => ?_
  obtain ⟨inside,other⟩ := List.mem_filter.mp old
  exact ⟨inside,bne_iff_ne.mp other⟩

section Linked
variable {items : List (Node K V)} {table : AList fun _ : K => Nat} {n : Node K V}

theorem Linked.node (linked : Linked items table) {m : Node K V} (hm : m ∈ items) (hn : n ∈ items) :
    (m.address = n.address ↔ m = n) ∧ (m.key = n.key ↔ m = n) :=
  ⟨⟨fun same => List.inj_on_of_nodup_map linked.addresses hm hn same,fun same => same ▸ rfl⟩,
    ⟨fun same => List.inj_on_of_nodup_map linked.keys hm hn same,fun same => same ▸ rfl⟩⟩

theorem Linked.absent (linked : Linked items table) (key : K) :
    table.lookup key = none ↔ ∀ n ∈ items, n.key ≠ key := by
  rw [Option.eq_none_iff_forall_ne_some]
  constructor
  · intro none n hn same
    exact none n.address ((linked.points key n.address).mpr ⟨n,hn,same,rfl⟩)
  · intro other it found
    obtain ⟨n,hn,same,-⟩ := (linked.points key it).mp found
    exact other n hn same

/-- `Size` counts the nodes. -/
theorem Linked.length (linked : Linked items table) : table.keys.length = items.length := by
  have members : ∀ key, key ∈ table.keys ↔ key ∈ items.map (·.key) := by
    intro key
    rw [← AList.mem_keys,← AList.lookup_isSome,Option.isSome_iff_exists]
    constructor
    · rintro ⟨it,found⟩
      obtain ⟨n,hn,same,-⟩ := (linked.points key it).mp found
      exact List.mem_map.mpr ⟨n,hn,same⟩
    · intro member
      obtain ⟨n,hn,same⟩ := List.mem_map.mp member
      exact ⟨n.address,(linked.points key n.address).mpr ⟨n,hn,same,rfl⟩⟩
  have perm := (List.perm_ext_iff_of_nodup table.keys_nodup linked.keys).mpr members
  rw [perm.length_eq,List.length_map]

theorem Linked.deref_eq (linked : Linked items table) (hn : n ∈ items) : deref n.address items = some n := by
  obtain ⟨m,found⟩ : ∃ m, deref n.address items = some m := by
    rw [← Option.isSome_iff_exists,deref,List.find?_isSome]
    exact ⟨n,hn,by simp⟩
  have same : m.address = n.address := by simpa using List.find?_some found
  rw [found,((linked.node (List.mem_of_find?_eq_some found) hn).1.mp same)]

theorem Linked.eraseNode_eq (linked : Linked items table) (hn : n ∈ items) :
    eraseNode n.address items = items.filter fun m => m.key != n.key := by
  refine List.filter_congr fun m hm => ?_
  obtain ⟨address,key⟩ := linked.node hm hn
  rw [Bool.eq_iff_iff,bne_iff_ne,bne_iff_ne,ne_eq,ne_eq,address,key]

theorem Linked.splice_eq (linked : Linked items table) (hn : n ∈ items) :
    splice n.address items = n :: items.filter fun m => m.key != n.key := by
  rw [splice,linked.deref_eq hn,linked.eraseNode_eq hn]
  rfl

/-- The node with a new value is moved to the front. -/
theorem Linked.splice_assign (linked : Linked items table) (hn : n ∈ items) (value : V) :
    splice n.address (assign n.address value items) =
      { n with value } :: items.filter fun m => m.key != n.key := by
  have first : deref n.address (assign n.address value items) = some { n with value } := by
    have finds : ((fun m : Node K V => m.address == n.address) ∘ fun m =>
        if m.address = n.address then { m with value } else m) = fun m => m.address == n.address := by
      funext m
      by_cases same : m.address = n.address <;> simp [same]
    have found : items.find? (fun m => m.address == n.address) = some n := linked.deref_eq hn
    rw [deref,assign,List.find?_map,finds,found]
    simp
  have others : eraseNode n.address (assign n.address value items) = eraseNode n.address items := by
    have skips : ((fun m : Node K V => m.address != n.address) ∘ fun m =>
        if m.address = n.address then { m with value } else m) = fun m => m.address != n.address := by
      funext m
      by_cases same : m.address = n.address <;> simp [same]
    rw [eraseNode,assign,List.filter_map,skips]
    refine (List.map_congr_left fun m hm => ?_).trans (List.map_id _)
    exact if_neg (bne_iff_ne.mp (List.mem_filter.mp hm).2)
  rw [splice,first,others,linked.eraseNode_eq hn]
  rfl

/-- A node keeps its key and its address when it is moved. -/
theorem Linked.move (linked : Linked items table) (hn : n ∈ items) {n' : Node K V} (key : n'.key = n.key)
    (address : n'.address = n.address) : Linked (n' :: items.filter fun m => m.key != n.key) table := by
  have other : ∀ m ∈ items.filter (fun m => m.key != n.key), m ∈ items ∧ m ≠ n := by
    intro m hm
    obtain ⟨inside,different⟩ := List.mem_filter.mp hm
    exact ⟨inside,fun same => (bne_iff_ne.mp different) (congrArg Node.key same)⟩
  refine ⟨?_,?_,fun k it => ?_⟩
  · rw [List.map_cons,List.nodup_cons]
    refine ⟨fun member => ?_,linked.keys.sublist (List.filter_sublist.map _)⟩
    obtain ⟨m,hm,same⟩ := List.mem_map.mp member
    exact (other m hm).2 ((linked.node (other m hm).1 hn).2.mp (same.trans key))
  · rw [List.map_cons,List.nodup_cons]
    refine ⟨fun member => ?_,linked.addresses.sublist (List.filter_sublist.map _)⟩
    obtain ⟨m,hm,same⟩ := List.mem_map.mp member
    exact (other m hm).2 ((linked.node (other m hm).1 hn).1.mp (same.trans address))
  · rw [linked.points k it]
    constructor
    · rintro ⟨m,hm,rfl,rfl⟩
      by_cases same : m = n
      · subst same
        exact ⟨n',List.mem_cons_self,key,address⟩
      · refine ⟨m,List.mem_cons_of_mem _ (List.mem_filter.mpr ⟨hm,bne_iff_ne.mpr fun equal => ?_⟩),rfl,rfl⟩
        exact same ((linked.node hm hn).2.mp equal)
    · rintro ⟨m,hm,rfl,rfl⟩
      rcases List.mem_cons.mp hm with rfl | hm
      · exact ⟨n,hn,key.symm,address.symm⟩
      · exact ⟨m,(other m hm).1,rfl,rfl⟩

theorem Linked.remove (linked : Linked items table) (key : K) :
    Linked (items.filter fun m => m.key != key) (table.erase key) := by
  refine ⟨linked.keys.sublist (List.filter_sublist.map _),linked.addresses.sublist (List.filter_sublist.map _),
    fun k it => ?_⟩
  simp only [List.mem_filter,bne_iff_ne]
  by_cases same : k = key
  · subst same
    rw [AList.lookup_erase]
    constructor
    · rintro ⟨⟩
    · rintro ⟨m,⟨-,other⟩,equal,-⟩
      exact absurd equal other
  · rw [AList.lookup_erase_ne same,linked.points k it]
    constructor
    · rintro ⟨m,hm,rfl,rfl⟩
      exact ⟨m,⟨hm,same⟩,rfl,rfl⟩
    · rintro ⟨m,⟨hm,-⟩,rfl,rfl⟩
      exact ⟨m,hm,rfl,rfl⟩

theorem Linked.add (linked : Linked items table) (absent : table.lookup n.key = none)
    (fresh : ∀ m ∈ items, m.address < n.address) : Linked (n :: items) (table.insert n.key n.address) := by
  have other := (linked.absent n.key).mp absent
  refine ⟨?_,?_,fun k it => ?_⟩
  · rw [List.map_cons,List.nodup_cons]
    refine ⟨fun member => ?_,linked.keys⟩
    obtain ⟨m,hm,same⟩ := List.mem_map.mp member
    exact other m hm same
  · rw [List.map_cons,List.nodup_cons]
    refine ⟨fun member => ?_,linked.addresses⟩
    obtain ⟨m,hm,same⟩ := List.mem_map.mp member
    exact absurd same (Nat.ne_of_lt (fresh m hm))
  · by_cases same : k = n.key
    · subst same
      rw [AList.lookup_insert]
      constructor
      · rintro ⟨⟩
        exact ⟨n,List.mem_cons_self,rfl,rfl⟩
      · rintro ⟨m,hm,equal,rfl⟩
        rcases List.mem_cons.mp hm with rfl | hm
        · rfl
        · exact absurd equal (other m hm)
    · rw [AList.lookup_insert_ne same,linked.points k it]
      constructor
      · rintro ⟨m,hm,rfl,rfl⟩
        exact ⟨m,List.mem_cons_of_mem _ hm,rfl,rfl⟩
      · rintro ⟨m,hm,rfl,rfl⟩
        rcases List.mem_cons.mp hm with rfl | hm
        · exact absurd rfl same
        · exact ⟨m,hm,rfl,rfl⟩

end Linked

section Operations
variable {c : LruKvCache K V} {items : List (Node K V)} {table : AList fun _ : K => Nat} {n : Node K V}

theorem map_pair_filter (items : List (Node K V)) (key : K) :
    (items.filter fun m => m.key != key).map Node.pair = (items.map Node.pair).filter fun p => p.1 != key := by
  rw [List.filter_map]
  rfl

theorem Linked.lookup_pair (linked : Linked items table) (hn : n ∈ items) :
    (items.map Node.pair).lookup n.key = some n.value := by
  obtain ⟨before,after,rfl⟩ := List.append_of_mem hn
  refine List.lookup_eq_some_iff.mpr ⟨before.map Node.pair,after.map Node.pair,by simp [Node.pair],fun p hp => ?_⟩
  obtain ⟨m,hm,rfl⟩ := List.mem_map.mp hp
  have keys := linked.keys
  rw [List.map_append,List.map_cons] at keys
  have apart := (List.nodup_append.mp keys).2.2 m.key (List.mem_map_of_mem hm) n.key List.mem_cons_self
  exact bne_iff_ne.mpr fun same => apart same.symm

theorem Linked.lookup_absent (linked : Linked items table) {key : K} (absent : table.lookup key = none) :
    (items.map Node.pair).lookup key = none ∧ (items.map Node.pair).filter (fun p => p.1 != key) = items.map Node.pair := by
  have other := (linked.absent key).mp absent
  rw [List.lookup_eq_none_iff,List.filter_eq_self]
  refine ⟨fun p hp => ?_,fun p hp => ?_⟩
  · obtain ⟨m,hm,rfl⟩ := List.mem_map.mp hp
    exact bne_iff_ne.mpr fun same => other m hm same.symm
  · obtain ⟨m,hm,rfl⟩ := List.mem_map.mp hp
    exact bne_iff_ne.mpr (other m hm)

theorem Linked.length_filter (linked : Linked items table) (hn : n ∈ items) :
    (items.filter fun m => m.key != n.key).length + 1 = items.length := by
  have moved := (linked.move hn rfl rfl).length
  rw [linked.length,List.length_cons] at moved
  exact moved.symm

theorem LruKvCache.Inv.get_cases (inv : c.Inv) (key : K) :
    c.capacity = 0 ∧ c.get key = (none,c) ∨
    (c.capacity ≠ 0 ∧ c.table.lookup key = none ∧
      c.get key = (none,{ c with stats := { c.stats with misses := c.stats.misses + 1 } })) ∨
    ∃ n ∈ c.items, n.key = key ∧ c.capacity ≠ 0 ∧ c.get key = (some n.value,{ c with
      items := n :: c.items.filter fun m => m.key != n.key
      stats := { c.stats with hits := c.stats.hits + 1 } }) := by
  rw [LruKvCache.get]
  split
  · rename_i zero
    exact .inl ⟨zero,rfl⟩
  · rename_i enabled
    split
    · rename_i absent
      exact .inr (.inl ⟨enabled,absent,rfl⟩)
    · rename_i it found
      obtain ⟨n,hn,rfl,rfl⟩ := (inv.linked.points key it).mp found
      have first := (inv.linked.move hn rfl rfl).deref_eq List.mem_cons_self
      refine .inr (.inr ⟨n,hn,rfl,enabled,?_⟩)
      simp only [inv.linked.splice_eq hn,first,Option.map_some]

theorem LruKvCache.Inv.put_cases (inv : c.Inv) (key : K) (value : V) :
    c.capacity = 0 ∧ c.put key value = c ∨
    (∃ n ∈ c.items, n.key = key ∧ c.put key value = { c with
      items := { n with value } :: c.items.filter fun m => m.key != n.key }) ∨
    (c.table.lookup key = none ∧ c.items.length < c.capacity ∧ c.put key value = { c with
      items := ⟨c.fresh,key,value⟩ :: c.items
      table := c.table.insert key c.fresh
      stats := { c.stats with inserts := c.stats.inserts + 1 }
      fresh := c.fresh + 1 }) ∨
    ∃ first old, c.table.lookup key = none ∧ c.items.length = c.capacity ∧
      ⟨c.fresh,key,value⟩ :: c.items = first ++ [old] ∧ c.put key value = { c with
        items := first
        table := (c.table.insert key c.fresh).erase old.key
        stats := { c.stats with
          inserts := c.stats.inserts + 1
          evictions := c.stats.evictions + 1 }
        fresh := c.fresh + 1 } := by
  rw [LruKvCache.put]
  split
  · rename_i zero
    exact .inl ⟨zero,rfl⟩
  · right
    split
    · rename_i it found
      obtain ⟨n,hn,rfl,rfl⟩ := (inv.linked.points key it).mp found
      refine .inl ⟨n,hn,rfl,?_⟩
      rw [inv.linked.splice_assign hn value]
    · rename_i absent
      have size := (inv.linked.add (n := ⟨c.fresh,key,value⟩) absent inv.fresh).length
      rw [List.length_cons] at size
      have bounded := inv.bounded
      right
      rw [LruKvCache.evict]
      simp only [LruKvCache.size,size]
      split
      · obtain none | ⟨first,old,split⟩ := List.eq_nil_or_concat (⟨c.fresh,key,value⟩ :: c.items : List (Node K V))
        · cases none
        rw [List.concat_eq_append] at split
        refine .inr ⟨first,old,absent,by omega,split,?_⟩
        simp only [split,List.getLast?_concat,List.dropLast_concat]
      · exact .inl ⟨absent,by omega,rfl⟩

theorem LruKvCache.Inv.erase_cases (inv : c.Inv) (key : K) :
    c.table.lookup key = none ∧ c.erase key = c ∨
    ∃ n ∈ c.items, n.key = key ∧ c.erase key = { c with
      items := c.items.filter fun m => m.key != n.key
      table := c.table.erase n.key } := by
  rw [LruKvCache.erase]
  split
  · rename_i absent
    exact .inl ⟨absent,rfl⟩
  · rename_i it found
    obtain ⟨n,hn,rfl,rfl⟩ := (inv.linked.points key it).mp found
    refine .inr ⟨n,hn,rfl,?_⟩
    rw [inv.linked.eraseNode_eq hn]

theorem LruKvCache.Inv.move (inv : c.Inv) (hn : n ∈ c.items) (value : V) (stats : Stats) :
    LruKvCache.Inv { c with items := { n with value } :: c.items.filter fun m => m.key != n.key, stats } := by
  refine ⟨inv.linked.move hn rfl rfl,fun m hm => ?_,?_⟩
  · rcases List.mem_cons.mp hm with rfl | old
    · exact inv.fresh n hn
    · exact inv.fresh m (List.mem_filter.mp old).1
  · rw [List.length_cons,inv.linked.length_filter hn]
    exact inv.bounded

theorem LruKvCache.Inv.empty (inv : c.Inv) (zero : c.capacity = 0) : c.items = [] := by
  have bounded := inv.bounded
  rw [zero] at bounded
  exact List.length_eq_zero_iff.mp (Nat.le_zero.mp bounded)

theorem LruKvCache.Inv.get (inv : c.Inv) (key : K) :
    (c.get key).2.Inv ∧ (c.get key).1 = c.contents.lookup key ∧ (c.get key).2.contents = lruGet c.contents key := by
  rcases inv.get_cases key with ⟨zero,get⟩ | ⟨-,absent,get⟩ | ⟨n,hn,rfl,-,get⟩
  · rw [get]
    simp only [LruKvCache.contents,inv.empty zero,List.map_nil,lruGet,List.lookup_nil,and_self,and_true]
    exact inv
  · have none : c.contents.lookup key = none := (inv.linked.lookup_absent absent).1
    rw [get]
    simp only [lruGet,none]
    exact ⟨⟨inv.linked,inv.fresh,inv.bounded⟩,trivial,rfl⟩
  · have found : c.contents.lookup n.key = some n.value := inv.linked.lookup_pair hn
    rw [get]
    simp only [lruGet,found]
    refine ⟨inv.move hn n.value _,trivial,?_⟩
    rw [LruKvCache.contents,LruKvCache.contents,List.map_cons,map_pair_filter]
    rfl

theorem LruKvCache.Inv.put (inv : c.Inv) (key : K) (value : V) :
    (c.put key value).Inv ∧ (c.put key value).contents = lruPut c.capacity c.contents key value := by
  have bounded := inv.bounded
  rcases inv.put_cases key value with ⟨zero,put⟩ | ⟨n,hn,rfl,put⟩ | ⟨absent,less,put⟩ | ⟨first,old,absent,full,split,put⟩
  · rw [put]
    refine ⟨inv,?_⟩
    simp only [LruKvCache.contents,inv.empty zero,List.map_nil,lruPut,zero,List.take_zero]
  · rw [put]
    refine ⟨inv.move hn value _,?_⟩
    have length := inv.linked.length_filter hn
    rw [lruPut,LruKvCache.contents,LruKvCache.contents,← map_pair_filter,List.map_cons,List.take_of_length_le]
    · rfl
    · rw [List.length_cons,List.length_map]
      omega
  · rw [put]
    refine ⟨⟨inv.linked.add (n := ⟨c.fresh,key,value⟩) absent inv.fresh,fun m hm => ?_,?_⟩,?_⟩
    · rcases List.mem_cons.mp hm with rfl | old
      · exact Nat.lt_succ_self _
      · exact Nat.lt_succ_of_lt (inv.fresh m old)
    · exact less
    · rw [lruPut,LruKvCache.contents,LruKvCache.contents,(inv.linked.lookup_absent absent).2,List.map_cons,
        List.take_of_length_le]
      · rfl
      · rw [List.length_cons,List.length_map]
        omega
  · have linked := inv.linked.add (n := ⟨c.fresh,key,value⟩) absent inv.fresh
    have lengths := congrArg List.length split
    rw [List.length_cons,List.length_append,List.length_singleton] at lengths
    -- the last node is the only one with its key
    have others : (first ++ [old]).filter (fun m => m.key != old.key) = first := by
      rw [split] at linked
      have keys := linked.keys
      rw [List.map_append,List.map_singleton] at keys
      have apart := (List.nodup_append.mp keys).2.2
      rw [List.filter_append,List.filter_singleton,List.filter_eq_self.mpr]
      · simp
      · exact fun m hm => bne_iff_ne.mpr (apart m.key (List.mem_map_of_mem hm) old.key (List.mem_singleton_self _))
    have removed := linked.remove old.key
    rw [split,others] at removed
    rw [put]
    refine ⟨⟨removed,fun m hm => ?_,?_⟩,?_⟩
    · have member : m ∈ (⟨c.fresh,key,value⟩ :: c.items : List (Node K V)) := by
        rw [split]
        exact List.mem_append_left _ hm
      rcases List.mem_cons.mp member with rfl | old
      · exact Nat.lt_succ_self _
      · exact Nat.lt_succ_of_lt (inv.fresh m old)
    · show first.length ≤ c.capacity
      omega
    · have pairs := congrArg (List.map Node.pair) split
      rw [List.map_cons,List.map_append] at pairs
      rw [lruPut,LruKvCache.contents,LruKvCache.contents,(inv.linked.lookup_absent absent).2]
      show first.map Node.pair = ((key,value) :: c.items.map Node.pair).take c.capacity
      rw [show ((key,value) :: c.items.map Node.pair) = _ from pairs,List.take_left']
      rw [List.length_map]
      omega

theorem LruKvCache.Inv.erase (inv : c.Inv) (key : K) :
    (c.erase key).Inv ∧ (c.erase key).contents = c.contents.filter fun p => p.1 != key := by
  rcases inv.erase_cases key with ⟨absent,erase⟩ | ⟨n,hn,rfl,erase⟩
  · rw [erase]
    exact ⟨inv,(inv.linked.lookup_absent absent).2.symm⟩
  · rw [erase]
    have length := inv.linked.length_filter hn
    have bounded := inv.bounded
    refine ⟨⟨inv.linked.remove n.key,fun m hm => inv.fresh m (List.mem_filter.mp hm).1,?_⟩,map_pair_filter _ _⟩
    show (c.items.filter fun m => m.key != n.key).length ≤ c.capacity
    omega

theorem LruKvCache.clear_inv (c : LruKvCache K V) : c.clear.Inv :=
  ⟨⟨List.nodup_nil,List.nodup_nil,by simp [LruKvCache.clear]⟩,by simp [LruKvCache.clear],Nat.zero_le _⟩

theorem LruKvCache.Inv.call (inv : c.Inv) (a : Call K V) :
    (c.call a).Inv ∧ (c.call a).contents = lruCall c.capacity c.contents a := by
  cases a with
  | get key =>
    obtain ⟨next,-,contents⟩ := inv.get key
    exact ⟨next,contents⟩
  | put key value => exact inv.put key value
  | erase key => exact inv.erase key
  | clear => exact ⟨c.clear_inv,rfl⟩

/-- What a call does to the statistics. -/
theorem LruKvCache.Inv.call_stats (inv : c.Inv) (a : Call K V) :
    (c.call a).capacity = c.capacity ∧
    (c.capacity ≠ 0 → (c.call a).stats.hits + (c.call a).stats.misses =
      c.stats.hits + c.stats.misses + if a.isGet then 1 else 0) ∧
    ((∃ key, a = .get key) ∨ (∃ key value, a = .put key value) →
      (c.call a).stats.inserts + c.stats.evictions + c.items.length =
        c.stats.inserts + (c.call a).stats.evictions + (c.call a).items.length) ∧
    ((∃ key, a = .erase key) ∨ a = .clear → (c.call a).stats = c.stats ∧ (c.call a).items.length ≤ c.items.length) := by
  cases a with
  | get key =>
    simp only [LruKvCache.call,Call.isGet]
    rcases inv.get_cases key with ⟨zero,get⟩ | ⟨-,-,get⟩ | ⟨n,hn,rfl,-,get⟩
    · simp [get,zero]
    · simp [get]
      omega
    · have length := inv.linked.length_filter hn
      simp [get]
      omega
  | put key value =>
    simp only [LruKvCache.call,Call.isGet]
    rcases inv.put_cases key value with ⟨zero,put⟩ | ⟨n,hn,rfl,put⟩ | ⟨-,-,put⟩ | ⟨first,old,-,-,split,put⟩
    · simp [put]
    · have length := inv.linked.length_filter hn
      simp [put]
      omega
    · simp [put]
      omega
    · have length := congrArg List.length split
      simp [put] at length ⊢
      omega
  | erase key =>
    simp only [LruKvCache.call,Call.isGet]
    rcases inv.erase_cases key with ⟨-,erase⟩ | ⟨n,hn,rfl,erase⟩
    · simp [erase]
    · simp [erase,List.length_filter_le]
  | clear => simp [LruKvCache.call,LruKvCache.clear,Call.isGet]

theorem LruKvCache.new_inv (capacity : Nat) : (LruKvCache.new capacity : LruKvCache K V).Inv :=
  ⟨⟨List.nodup_nil,List.nodup_nil,by simp [LruKvCache.new]⟩,by simp [LruKvCache.new],Nat.zero_le _⟩

end Operations

/-- The entries stand in the order of their last uses and have the values of the last
`Put`s. -/
structure Recent (l : List (K × V)) (used : List K) (written : List (K × V)) : Prop where
  order : (l.map (·.1)).Pairwise fun a b => used.idxOf a < used.idxOf b
  used : ∀ p ∈ l, p.1 ∈ used
  written : ∀ p ∈ l, written.lookup p.1 = some p.2

section Recent
variable {l l' : List (K × V)} {used : List K} {written written' : List (K × V)}

theorem Recent.sublist (recent : Recent l used written) (sub : l'.Sublist l) : Recent l' used written :=
  ⟨recent.order.sublist (sub.map _),fun p hp => recent.used p (sub.subset hp),fun p hp => recent.written p (sub.subset hp)⟩

/-- A key is used: its entry goes to the front. -/
theorem Recent.use (recent : Recent l used written) {key : K} (value : V) (now : written'.lookup key = some value)
    (others : ∀ k, k ≠ key → written'.lookup k = written.lookup k) :
    Recent ((key,value) :: l.filter fun p => p.1 != key) (key :: used) written' := by
  have different : ∀ p ∈ l.filter (fun p => p.1 != key), p ∈ l ∧ p.1 ≠ key := by
    intro p hp
    obtain ⟨member,other⟩ := List.mem_filter.mp hp
    exact ⟨member,bne_iff_ne.mp other⟩
  have later : ∀ k, k ≠ key → (key :: used).idxOf k = used.idxOf k + 1 := fun k other => List.idxOf_cons_ne used other.symm
  refine ⟨?_,?_,?_⟩
  · rw [List.map_cons,List.pairwise_cons]
    constructor
    · intro k hk
      obtain ⟨p,hp,rfl⟩ := List.mem_map.mp hk
      rw [List.idxOf_cons_self,later p.1 (different p hp).2]
      exact Nat.succ_pos _
    · have old := recent.order.sublist ((List.filter_sublist (p := fun p : K × V => p.1 != key)).map (·.1))
      refine old.imp_of_mem fun {a b} ha hb less => ?_
      obtain ⟨p,hp,rfl⟩ := List.mem_map.mp ha
      obtain ⟨q,hq,rfl⟩ := List.mem_map.mp hb
      rw [later p.1 (different p hp).2,later q.1 (different q hq).2]
      exact Nat.succ_lt_succ less
  · intro p hp
    rcases List.mem_cons.mp hp with rfl | old
    · exact List.mem_cons_self
    · exact List.mem_cons_of_mem _ (recent.used p (different p old).1)
  · intro p hp
    rcases List.mem_cons.mp hp with rfl | old
    · exact now
    · rw [others p.1 (different p old).2]
      exact recent.written p (different p old).1

end Recent

structure Session.Inv (capacity : Nat) (calls : List (Call K V)) (s : Session K V) : Prop where
  cache : s.cache.Inv
  bound : s.cache.capacity = capacity
  contents : s.cache.contents = lruRun capacity calls
  recent : Recent s.cache.contents s.used s.written
  lookups : capacity ≠ 0 → s.cache.stats.hits + s.cache.stats.misses = calls.countP Call.isGet
  balance : s.cache.stats.inserts = s.cache.stats.evictions + s.cache.items.length + s.removed

section Session
variable {capacity : Nat} {calls : List (Call K V)} {s : Session K V}

theorem Session.call_cache (s : Session K V) (a : Call K V) : (s.call a).cache = s.cache.call a := by
  cases a <;> rfl

/-- The uses that a call records are those that the list shows. -/
theorem Session.Inv.call_recent (inv : s.Inv capacity calls) (a : Call K V) :
    Recent (lruCall capacity s.cache.contents a) (s.call a).used (s.call a).written := by
  have recent := inv.recent
  cases a with
  | get key =>
    have found := (inv.cache.get key).2.1
    simp only [Session.call,lruCall,lruGet,found]
    cases looked : s.cache.contents.lookup key with
    | none => exact recent
    | some value =>
      obtain ⟨before,after,split,-⟩ := List.lookup_eq_some_iff.mp looked
      refine recent.use value ?_ fun k _ => rfl
      refine recent.written (key,value) ?_
      rw [split]
      exact List.mem_append_right _ List.mem_cons_self
  | put key value =>
    refine (recent.use value ?_ fun k other => ?_).sublist (List.take_sublist _ _)
    · exact List.lookup_cons_self
    · show ((key,value) :: s.written).lookup k = _
      rw [List.lookup_cons,beq_eq_false_iff_ne.mpr other]
  | erase key => exact recent.sublist List.filter_sublist
  | clear => exact recent.sublist (List.nil_sublist _)

theorem Session.Inv.call (inv : s.Inv capacity calls) (a : Call K V) : (s.call a).Inv capacity (calls ++ [a]) := by
  obtain ⟨next,contents⟩ := inv.cache.call a
  obtain ⟨same,lookups,used,removed⟩ := inv.cache.call_stats a
  rw [inv.bound] at same contents lookups
  have size : s.cache.size = s.cache.items.length := inv.cache.linked.length
  have size' : (s.cache.call a).size = (s.cache.call a).items.length := next.linked.length
  have balance := inv.balance
  refine ⟨?_,?_,?_,?_,?_,?_⟩
  · rw [s.call_cache]
    exact next
  · rw [s.call_cache]
    exact same
  · rw [s.call_cache,contents,inv.contents,lruRun,lruRun,List.foldl_append]
    rfl
  · rw [s.call_cache,contents]
    exact inv.call_recent a
  · intro enabled
    rw [s.call_cache,lookups enabled,inv.lookups enabled,List.countP_append,List.countP_singleton]
  · rw [s.call_cache]
    cases a with
    | get key =>
      have := used (.inl ⟨key,rfl⟩)
      simp only [Session.call]
      omega
    | put key value =>
      have := used (.inr ⟨key,value,rfl⟩)
      simp only [Session.call]
      omega
    | erase key =>
      obtain ⟨stats,le⟩ := removed (.inl ⟨key,rfl⟩)
      simp only [Session.call,stats,size,size']
      omega
    | clear =>
      obtain ⟨stats,le⟩ := removed (.inr rfl)
      simp only [Session.call,stats,size,size']
      omega

theorem Session.run_inv (capacity : Nat) (calls : List (Call K V)) : (Session.run capacity calls).Inv capacity calls := by
  induction calls using List.reverseRec with
  | nil =>
    refine ⟨LruKvCache.new_inv capacity,rfl,rfl,?_,fun _ => rfl,rfl⟩
    exact ⟨List.Pairwise.nil,by simp [Session.run,LruKvCache.new,LruKvCache.contents],
      by simp [Session.run,LruKvCache.new,LruKvCache.contents]⟩
  | append_singleton calls a ih =>
    rw [Session.run,List.foldl_append]
    exact ih.call a

/-- `LruKvCache` is a bounded list of the last used keys. The list and the table agree and
are never over the capacity, every `Get` finds what the abstract cache has, which is
the value of the last `Put` of the key, and the statistics add up. -/
theorem lru_refines (capacity : Nat) (calls : List (Call K V)) :
    let s := Session.run capacity calls
    Linked s.cache.items s.cache.table ∧ s.cache.size = s.cache.items.length ∧ s.cache.size ≤ capacity ∧
    ((s.cache.items.map (·.key)).Pairwise fun a b => s.used.idxOf a < s.used.idxOf b) ∧
    (∀ n ∈ s.cache.items, n.key ∈ s.used) ∧
    s.cache.contents = lruRun capacity calls ∧
    (∀ key, (s.cache.get key).1 = (lruRun capacity calls).lookup key) ∧
    (∀ key value, (s.cache.get key).1 = some value → s.written.lookup key = some value) ∧
    (capacity ≠ 0 → s.cache.stats.hits + s.cache.stats.misses = calls.countP Call.isGet) ∧
    s.cache.stats.inserts = s.cache.stats.evictions + (s.cache.size + s.removed) := by
  intro s
  have inv : s.Inv capacity calls := Session.run_inv capacity calls
  have size : s.cache.size = s.cache.items.length := inv.cache.linked.length
  have keys : s.cache.contents.map (·.1) = s.cache.items.map (·.key) := by
    rw [LruKvCache.contents,List.map_map]
    rfl
  refine ⟨inv.cache.linked,size,?_,?_,fun n hn => ?_,inv.contents,fun key => ?_,fun key value hit => ?_,inv.lookups,?_⟩
  · rw [size,← inv.bound]
    exact inv.cache.bounded
  · rw [← keys]
    exact inv.recent.order
  · exact inv.recent.used (n.key,n.value) (List.mem_map_of_mem hn)
  · rw [← inv.contents]
    exact (inv.cache.get key).2.1
  · rw [(inv.cache.get key).2.1] at hit
    obtain ⟨before,after,split,-⟩ := List.lookup_eq_some_iff.mp hit
    refine inv.recent.written (key,value) ?_
    rw [split]
    exact List.mem_append_right _ List.mem_cons_self
  · rw [size,inv.balance,Nat.add_assoc]

end Session

end Cache

end LevelDB.KvCache
