import LevelDB.Ring
import Mathlib.Data.List.Count
import Mathlib.Algebra.Group.Nat.Defs

/-! One shard of the LRU cache. An entry is its address, and no address is given out
twice; the two dummy heads have addresses of their own. Whatever reads a freed entry or
fails an assertion gives `none`. -/
namespace LevelDB.Lru

variable {K V D : Type}

structure LRUHandle (K V D : Type) where
  value : V
  deleter : D
  charge : UInt64
  key : K
  inCache : Bool
  refs : UInt32
  hash : UInt32

/-- The chains of the buckets; `next_hash` links the entries of a chain. `elems_` and
`length_` are `uint32_t` in the source: past 2^31 entries the loop of `Resize` would not end,
so a session is only followed below (`Session.few`), where they do not wrap around. -/
structure HandleTable where
  elems : Nat
  list : List (List Nat)

abbrev Heap (K V D : Type) := Nat → Option (LRUHandle K V D)

namespace HandleTable

def empty : HandleTable := ⟨0,List.replicate 4 []⟩

def bucket (length : Nat) (hash : UInt32) : Nat := hash.toNat &&& (length - 1)

section Keys
variable [DecidableEq K]

def isFor (entries : Heap K V D) (key : K) (hash : UInt32) (e : Nat) : Bool :=
  match entries e with
  | some h => h.hash == hash && decide (h.key = key)
  | none => false

def chain (t : HandleTable) (hash : UInt32) : List Nat := t.list.getD (bucket t.list.length hash) []

def lookup (t : HandleTable) (entries : Heap K V D) (key : K) (hash : UInt32) : Option Nat :=
  (t.chain hash).find? (isFor entries key hash)

/-- `new_length`, doubled until it is no less than the number of entries. -/
def newLength (elems : Nat) : Nat → Nat → Nat
  | 0, length => length
  | fuel + 1, length => if length < elems then newLength elems fuel (length * 2) else length

def hashOf (entries : Heap K V D) (e : Nat) : UInt32 := ((entries e).map (·.hash)).getD 0

def resize (t : HandleTable) (entries : Heap K V D) : HandleTable :=
  let length := newLength t.elems t.elems 4
  let place := fun (list : List (List Nat)) e => list.modify (bucket length (hashOf entries e)) (e :: ·)
  ⟨t.elems,t.list.flatten.foldl place (List.replicate length [])⟩

/-- An entry takes the place of the one with its key, which is returned, or goes to the end
of its chain. -/
def insert (t : HandleTable) (entries : Heap K V D) (e : Nat) (key : K) (hash : UInt32) : Option Nat × HandleTable :=
  let i := bucket t.list.length hash
  match t.lookup entries key hash with
  | some old => (some old,{ t with list := t.list.set i ((t.chain hash).map fun x => if x = old then e else x) })
  | none =>
    let t : HandleTable := ⟨t.elems + 1,t.list.set i (t.chain hash ++ [e])⟩
    (none,if t.list.length < t.elems then t.resize entries else t)

def remove (t : HandleTable) (entries : Heap K V D) (key : K) (hash : UInt32) : Option Nat × HandleTable :=
  match t.lookup entries key hash with
  | some e => (some e,⟨t.elems - 1,t.list.set (bucket t.list.length hash) ((t.chain hash).erase e)⟩)
  | none => (none,t)

end Keys

end HandleTable

/-- What the cache has been told and has done. -/
inductive Event (K V D : Type) where
  | inserted (e : Nat) (key : K) (value : V) (deleter : D)
  | erased (key : K)
  /-- The entry is put on `lru_`. -/
  | parked (e : Nat)
  | evicted (e : Nat)
  /-- The call of the deleter. -/
  | deleted (e : Nat) (deleter : D) (key : K) (value : V)

structure LRUCache (K V D : Type) where
  capacity : UInt64
  usage : UInt64
  links : Links Nat
  table : HandleTable
  entries : Heap K V D
  /-- What `malloc` returns next. -/
  fresh : Nat
  /-- The last one first. -/
  events : List (Event K V D)

def lruHead : Nat := 0

def inUseHead : Nat := 1

namespace LRUCache

def new (capacity : UInt64) : LRUCache K V D := ⟨capacity,0,⟨id,id⟩,.empty,fun _ => none,2,[]⟩

def setEntry (c : LRUCache K V D) (e : Nat) (h : Option (LRUHandle K V D)) : LRUCache K V D :=
  { c with entries := Function.update c.entries e h }

def log (c : LRUCache K V D) (event : Event K V D) : LRUCache K V D := { c with events := event :: c.events }

def ref (c : LRUCache K V D) (e : Nat) : Option (LRUCache K V D) :=
  (c.entries e).map fun h =>
    let c := if h.refs = 1 ∧ h.inCache then { c with links := (c.links.remove e).append inUseHead e } else c
    c.setEntry e (some { h with refs := h.refs + 1 })

def unref (c : LRUCache K V D) (e : Nat) : Option (LRUCache K V D) :=
  match c.entries e with
  | none => none
  | some h =>
    if h.refs = 0 then none
    else if h.refs - 1 = 0 then
      if h.inCache then none
      else some ((c.setEntry e none).log (.deleted e h.deleter h.key h.value))
    else
      let c := c.setEntry e (some { h with refs := h.refs - 1 })
      if h.inCache ∧ h.refs - 1 = 1 then
        some (log { c with links := (c.links.remove e).append lruHead e } (.parked e))
      else some c

def finishErase (c : LRUCache K V D) (e : Option Nat) : Option (LRUCache K V D) :=
  match e with
  | none => some c
  | some e => match c.entries e with
    | none => none
    | some h =>
      if h.inCache then
        let c := { c with links := c.links.remove e, usage := c.usage - h.charge }
        (c.setEntry e (some { h with inCache := false })).unref e
      else none

def release (c : LRUCache K V D) (handle : Nat) : Option (LRUCache K V D) := c.unref handle

/-- The loop of the destructor, from an entry of `lru_` on. -/
def destroyFrom : Nat → Nat → LRUCache K V D → Option (LRUCache K V D)
  | 0, _, _ => none
  | fuel + 1, e, c =>
    if e = lruHead then some c
    else match c.entries e with
      | none => none
      | some h =>
        if h.inCache ∧ h.refs = 1 then
          ((c.setEntry e (some { h with inCache := false })).unref e).bind (destroyFrom fuel (c.links.next e))
        else none

def destroy (c : LRUCache K V D) : Option (LRUCache K V D) :=
  if c.links.next inUseHead = inUseHead then destroyFrom c.fresh (c.links.next lruHead) c else none

section Keys
variable [DecidableEq K]

def lookup (c : LRUCache K V D) (key : K) (hash : UInt32) : Option (Option Nat × LRUCache K V D) :=
  match c.table.lookup c.entries key hash with
  | none => some (none,c)
  | some e => (c.ref e).map fun c => (some e,c)

/-- The body of the loops of `Insert` and `Prune`: the oldest entry of `lru_` goes. -/
def evictOldest (c : LRUCache K V D) : Option (LRUCache K V D) :=
  match c.entries (c.links.next lruHead) with
  | none => none
  | some old =>
    if old.refs = 1 then
      match c.table.remove c.entries old.key old.hash with
      | (none,_) => none
      | (some e,table) => finishErase (log { c with table } (.evicted e)) (some e)
    else none

def evictWhile (condition : LRUCache K V D → Bool) : Nat → LRUCache K V D → Option (LRUCache K V D)
  | 0, _ => none
  | fuel + 1, c =>
    if condition c && c.links.next lruHead != lruHead then c.evictOldest.bind (evictWhile condition fuel)
    else some c

/-- `Insert` up to its loop. -/
def place (c : LRUCache K V D) (key : K) (hash : UInt32) (value : V) (charge : UInt64) (deleter : D) :
    Option (LRUCache K V D) :=
  let e := c.fresh
  let h : LRUHandle K V D := ⟨value,deleter,charge,key,false,1,hash⟩
  let c := (setEntry { c with fresh := e + 1 } e (some h)).log (.inserted e key value deleter)
  if 0 < c.capacity then
    let c := c.setEntry e (some { h with refs := h.refs + 1, inCache := true })
    let c := { c with links := c.links.append inUseHead e, usage := c.usage + charge }
    let (old,table) := c.table.insert c.entries e key hash
    finishErase { c with table } old
  else some c

def insert (c : LRUCache K V D) (key : K) (hash : UInt32) (value : V) (charge : UInt64) (deleter : D) :
    Option (Nat × LRUCache K V D) :=
  (c.place key hash value charge deleter).bind fun placed =>
    (placed.evictWhile (fun c => c.capacity < c.usage) placed.fresh).map fun done => (c.fresh,done)

def erase (c : LRUCache K V D) (key : K) (hash : UInt32) : Option (LRUCache K V D) :=
  let (e,table) := c.table.remove c.entries key hash
  finishErase (log { c with table } (.erased key)) e

def prune (c : LRUCache K V D) : Option (LRUCache K V D) := c.evictWhile (fun _ => true) c.fresh

end Keys

end LRUCache

inductive Call (K V D : Type) where
  | insert (key : K) (value : V) (charge : UInt64) (deleter : D)
  | lookup (key : K)
  | release (handle : Nat)
  | erase (key : K)
  | prune

/-- A cache and the handles its clients have not released. -/
structure Session (K V D : Type) where
  cache : LRUCache K V D
  handles : List Nat

namespace Session

def new (capacity : UInt64) : Session K V D := ⟨.new capacity,[]⟩

section Keys
variable [DecidableEq K]

def call (hash : K → UInt32) (s : Session K V D) : Call K V D → Option (Session K V D)
  | .insert key value charge deleter =>
    (s.cache.insert key (hash key) value charge deleter).map fun (e,cache) => ⟨cache,e :: s.handles⟩
  | .lookup key => (s.cache.lookup key (hash key)).map fun (e,cache) => ⟨cache,e.toList ++ s.handles⟩
  | .release handle =>
    if handle ∈ s.handles then (s.cache.release handle).map fun cache => ⟨cache,s.handles.erase handle⟩ else none
  | .erase key => (s.cache.erase key (hash key)).map fun cache => { s with cache }
  | .prune => s.cache.prune.map fun cache => { s with cache }

def run (hash : K → UInt32) (s : Session K V D) (calls : List (Call K V D)) : Option (Session K V D) :=
  calls.foldlM (call hash) s

/-- No entry has so many handles out that its reference count would wrap around, and the
table is small enough for one more entry. -/
def few (s : Session K V D) : Bool :=
  s.cache.table.elems < 2^31 && s.handles.all fun e => s.handles.count e + 1 < 2^32

/-- It stays so during the calls. -/
def staysFew (hash : K → UInt32) (s : Session K V D) : List (Call K V D) → Bool
  | [] => s.few
  | a :: rest => s.few && match s.call hash a with
    | some next => next.staysFew hash rest
    | none => true

end Keys

end Session

end LevelDB.Lru
