import LevelDB.Versioned
import Mathlib.Algebra.GroupWithZero.Nat
import Mathlib.Data.Prod.Lex
import Mathlib.Order.OrderDual
import Mathlib.Data.List.Sort

/-! Internal keys, entries and write batches (`db/dbformat`, `db/write_batch`). User
keys are ordered by the user's comparator; an internal key adds the sequence number
and the type, newest first. A memtable and a table are their entries in this order. -/
namespace LevelDB

def kNumLevels : Nat := 7
def kL0SlowdownWritesTrigger : Nat := 8
def kL0StopWritesTrigger : Nat := 12

/-- The deepest level a memtable is flushed to. -/
def kMaxMemCompactLevel : Nat := 2

def kMaxSequenceNumber : Nat := 2^56 - 1

inductive ValueType where
  | deletion | value
  deriving DecidableEq, Repr

def ValueType.code : ValueType → Nat
  | .deletion => 0
  | .value => 1

structure InternalKey (K : Type) where
  userKey : K
  sequence : Nat
  type : ValueType
  deriving DecidableEq, Repr

/-- `PackSequenceAndType`. -/
def InternalKey.tag (k : InternalKey K) : Nat := k.sequence * 256 + k.type.code

theorem InternalKey.tag_inj (a b : InternalKey K) (user : a.userKey = b.userKey)
    (tag : a.tag = b.tag) : a = b := by
  obtain ⟨u,s,t⟩ := a
  obtain ⟨u',s',t'⟩ := b
  simp only [InternalKey.tag] at tag
  cases user
  cases t <;> cases t' <;> simp only [ValueType.code] at tag <;> simp <;> omega

variable {K V : Type} [LinearOrder K]

/-- `InternalKeyComparator`: increasing user key, then decreasing tag. -/
instance : LinearOrder (InternalKey K) :=
  LinearOrder.lift' (fun k => toLex (k.userKey,OrderDual.toDual k.tag)) (by
    intro a b same
    have parts := Prod.mk.inj (toLex_inj.mp same)
    exact a.tag_inj b parts.1 (OrderDual.toDual_inj.mp parts.2))

theorem InternalKey.lt_iff (a b : InternalKey K) :
    a < b ↔ a.userKey < b.userKey ∨ a.userKey = b.userKey ∧ b.tag < a.tag :=
  Prod.Lex.lt_iff

theorem InternalKey.le_iff (a b : InternalKey K) :
    a ≤ b ↔ a.userKey < b.userKey ∨ a.userKey = b.userKey ∧ b.tag ≤ a.tag :=
  Prod.Lex.le_iff

theorem InternalKey.userKey_le {a b : InternalKey K} (le : a ≤ b) : a.userKey ≤ b.userKey := by
  rcases (InternalKey.le_iff a b).mp le with user | ⟨user,-⟩
  · exact user.le
  · exact user.le

theorem InternalKey.lt_of_userKey {a b : InternalKey K} (user : a.userKey < b.userKey) : a < b :=
  (InternalKey.lt_iff a b).mpr (.inl user)

/-- An update as it is stored: a deletion has no value. -/
structure Entry (K V : Type) where
  userKey : K
  sequence : Nat
  value : Option V
  deriving DecidableEq, Repr

def Entry.type (e : Entry K V) : ValueType := if e.value.isSome then .value else .deletion

def Entry.key (e : Entry K V) : InternalKey K := ⟨e.userKey,e.sequence,e.type⟩

/-- `WriteBatch`: `Put(k,v)` is `(k,some v)` and `Delete(k)` is `(k,none)`. -/
structure WriteBatch (K V : Type) where
  sequence : Nat
  updates : List (K × Option V)
  deriving DecidableEq, Repr

def WriteBatch.count (b : WriteBatch K V) : Nat := b.updates.length

/-- What `InsertInto` hands to the memtable: consecutive sequence numbers. -/
def WriteBatch.entries (b : WriteBatch K V) : List (Entry K V) :=
  b.updates.mapIdx fun i u => ⟨u.1,b.sequence + i,u.2⟩

abbrev MemTable (K V : Type) := List (Entry K V)

/-- `MemTable::Add`: the skip list keeps the order of the internal keys. -/
def MemTable.add (mem : MemTable K V) (e : Entry K V) : MemTable K V :=
  mem.orderedInsert (fun a b => a.key ≤ b.key) e

def WriteBatch.insertInto (b : WriteBatch K V) (mem : MemTable K V) : MemTable K V :=
  b.entries.foldl MemTable.add mem

inductive SaverState (V : Type) where
  | notFound | found (value : V) | deleted
  deriving DecidableEq, Repr

/-- `LookupKey`: sorts before every entry of the user key that the snapshot can see. -/
def lookupKey (user : K) (snapshot : Nat) : InternalKey K := ⟨user,snapshot,.value⟩

/-- The first entry at or after the target, as an iterator's `Seek` finds it. -/
def seek (entries : List (Entry K V)) (target : InternalKey K) : Option (Entry K V) :=
  entries.find? fun e => decide (target ≤ e.key)

def saveValue (user : K) : Option (Entry K V) → SaverState V
  | none => .notFound
  | some e => if e.userKey = user then
      match e.value with
      | some v => .found v
      | none => .deleted
    else .notFound

/-- `MemTable::Get` and, through the table cache, `Table::InternalGet`. -/
def getFrom (entries : List (Entry K V)) (user : K) (snapshot : Nat) : SaverState V :=
  saveValue user (seek entries (lookupKey user snapshot))

/-- The order of the entries of a memtable or a table. -/
def SortedEntries (entries : List (Entry K V)) : Prop :=
  entries.Pairwise fun a b => a.key < b.key

/-- The order where a key may come twice, which is enough for reads. -/
def OrderedEntries (entries : List (Entry K V)) : Prop :=
  entries.Pairwise fun a b => a.key ≤ b.key

theorem SortedEntries.ordered {entries : List (Entry K V)} (sorted : SortedEntries entries) :
    OrderedEntries entries :=
  List.Pairwise.imp le_of_lt sorted

abbrev IsNewest (S : Set (Entry K V)) := Versioned.IsNewest Entry.userKey Entry.sequence S
abbrev Absent (S : Set (Entry K V)) := Versioned.Absent Entry.userKey Entry.sequence S
abbrev Reads (S : Set (Entry K V)) := Versioned.Reads Entry.userKey Entry.sequence Entry.value S
abbrev Distinct (S : Set (Entry K V)) := Versioned.Distinct Entry.userKey Entry.sequence S
abbrev Newer (P Q : Set (Entry K V)) := Versioned.Newer Entry.userKey Entry.sequence P Q
abbrev Covers (T S : Set (Entry K V)) := Versioned.Covers Entry.userKey Entry.sequence Entry.value T S

def entrySet (entries : List (Entry K V)) : Set (Entry K V) := {e | e ∈ entries}

omit [LinearOrder K] in
@[simp] theorem mem_entrySet (entries : List (Entry K V)) (e : Entry K V) :
    e ∈ entrySet entries ↔ e ∈ entries := Iff.rfl

omit [LinearOrder K] in
@[simp] theorem entry_key_userKey (e : Entry K V) : e.key.userKey = e.userKey := rfl

theorem lookup_le (user : K) (snapshot : Nat) (e : Entry K V) :
    lookupKey user snapshot ≤ e.key ↔
      user < e.userKey ∨ user = e.userKey ∧ e.sequence ≤ snapshot := by
  rw [InternalKey.le_iff]
  have code : e.type.code ≤ 1 := by cases e.type <;> simp [ValueType.code]
  have tags : e.key.tag ≤ (lookupKey user snapshot).tag ↔ e.sequence ≤ snapshot := by
    have highest : ValueType.value.code = 1 := rfl
    simp only [InternalKey.tag,lookupKey,Entry.key]
    omega
  rw [tags]
  rfl

theorem sequence_le_of_key_le {a b : Entry K V} (same : a.userKey = b.userKey) (le : a.key ≤ b.key) :
    b.sequence ≤ a.sequence := by
  rcases (InternalKey.le_iff _ _).mp le with user | ⟨-,tag⟩
  · exact absurd user (by simp [same])
  · simp only [InternalKey.tag,Entry.key] at tag
    have left : a.type.code ≤ 1 := by cases a.type <;> simp [ValueType.code]
    have right : b.type.code ≤ 1 := by cases b.type <;> simp [ValueType.code]
    omega

/-- What a read finds: the newest visible entry of the key, if there is one. -/
theorem seek_newest (entries : List (Entry K V)) (ordered : OrderedEntries entries) (user : K)
    (snapshot : Nat) (e : Entry K V) (found : seek entries (lookupKey user snapshot) = some e)
    (same : e.userKey = user) : IsNewest (entrySet entries) user snapshot e := by
  obtain ⟨hit,before,after,rfl,earlier⟩ := List.find?_eq_some_iff_append.mp found
  have reached := (lookup_le user snapshot e).mp (by simpa using hit)
  refine ⟨by simp,same,?_,?_⟩
  · rcases reached with later | ⟨-,visible⟩
    · exact absurd later (by simp [same])
    · exact visible
  · intro b member keyed visible
    have target : lookupKey user snapshot ≤ b.key :=
      (lookup_le user snapshot b).mpr (.inr ⟨keyed.symm,visible⟩)
    rcases List.mem_append.mp member with early | late
    · have missed := earlier b early
      simp [target] at missed
    · rcases List.mem_cons.mp late with rfl | rest
      · exact le_refl _
      · have order := (List.pairwise_append.mp ordered).2.1
        have next := (List.pairwise_cons.mp order).1 b rest
        exact sequence_le_of_key_le (same.trans keyed.symm) next

theorem seek_absent (entries : List (Entry K V)) (ordered : OrderedEntries entries) (user : K)
    (snapshot : Nat)
    (missed : ∀ e, seek entries (lookupKey user snapshot) = some e → e.userKey ≠ user) :
    Absent (entrySet entries) user snapshot := by
  intro a member same visible
  have target : lookupKey user snapshot ≤ a.key :=
    (lookup_le user snapshot a).mpr (.inr ⟨same.symm,visible⟩)
  cases found : seek entries (lookupKey user snapshot) with
  | none =>
    have none := List.find?_eq_none.mp found a member
    simp [target] at none
  | some e =>
    apply missed e found
    obtain ⟨hit,before,after,rfl,earlier⟩ := List.find?_eq_some_iff_append.mp found
    have reached := (lookup_le user snapshot e).mp (by simpa using hit)
    rcases List.mem_append.mp member with early | late
    · have none := earlier a early
      simp [target] at none
    · rcases List.mem_cons.mp late with rfl | rest
      · exact same
      · have order := (List.pairwise_append.mp ordered).2.1
        have next := InternalKey.userKey_le ((List.pairwise_cons.mp order).1 a rest)
        rcases reached with later | ⟨equal,-⟩
        · exact absurd (lt_of_lt_of_le later next) (by simp [same])
        · exact equal.symm

end LevelDB
