import LevelDB.LruTable
import LevelDB.LruLists

/-! The invariant of a cache shard: lists, table and log agree. One lemma for each step of
its operations. -/
namespace LevelDB.Lru
open Function (update update_self update_of_ne)

variable {K V D : Type}

/-- When the entry was last put on `lru_`. -/
def parkedAt : List (Event K V D) → Nat → Nat
  | .parked x :: rest, e => if x = e then rest.length + 1 else parkedAt rest e
  | _ :: rest, e => parkedAt rest e
  | [], _ => 0

/-- The latest insert of a key that is not since erased, replaced or evicted. -/
def latest [DecidableEq K] : List (Event K V D) → K → Option (Nat × V)
  | .inserted e k v _ :: rest, key => if k = key then some (e,v) else latest rest key
  | .erased k :: rest, key => if k = key then none else latest rest key
  | .evicted e :: rest, key => (latest rest key).filter fun p => p.1 != e
  | _ :: rest, key => latest rest key
  | [], _ => none

def Event.deletes (e : Nat) : Event K V D → Bool
  | .deleted x _ _ _ => x == e
  | _ => false

def Event.victim : Event K V D → Option Nat
  | .evicted e => some e
  | _ => none

/-- An event that takes keys away. -/
def Event.marks : Event K V D → Bool
  | .erased _ => true
  | .evicted _ => true
  | _ => false

/-- The entries evicted, in the order of their evictions. -/
def evictions (events : List (Event K V D)) : List Nat := (events.filterMap Event.victim).reverse

theorem evictions_append (new old : List (Event K V D)) : evictions (new ++ old) = evictions old ++ evictions new := by
  rw [evictions,List.filterMap_append,List.reverse_append]
  rfl

namespace LRUCache

/-- What has been logged agrees with what is there. The order of `lru_` is that in which its
entries were put on it. -/
structure Told [DecidableEq K] (c : LRUCache K V D) (lru : List Nat) (members : Nat → Prop) : Prop where
  low : 2 ≤ c.fresh
  numbered : ∀ e key value deleter, .inserted e key value deleter ∈ c.events → 2 ≤ e ∧ e < c.fresh
  single : ∀ e key key' value value' deleter deleter', .inserted e key value deleter ∈ c.events →
    .inserted e key' value' deleter' ∈ c.events → key = key' ∧ value = value' ∧ deleter = deleter'
  inserted : ∀ e h, c.entries e = some h → .inserted e h.key h.value h.deleter ∈ c.events
  called : ∀ e deleter key value, .deleted e deleter key value ∈ c.events → .inserted e key value deleter ∈ c.events
  deleted : ∀ e, c.events.countP (Event.deletes e) = if 2 ≤ e ∧ e < c.fresh ∧ c.entries e = none then 1 else 0
  order : lru.Pairwise fun x y => parkedAt c.events x < parkedAt c.events y
  latest : c.capacity ≠ 0 → ∀ key e value, latest c.events key = some (e,value) ↔
    members e ∧ ∃ h, c.entries e = some h ∧ h.key = key ∧ h.value = value

/-- Between two steps of an operation the table may hold less than is in the cache. -/
structure Inv [DecidableEq K] (hash : K → UInt32) (c : LRUCache K V D) (lru inUse : List Nat) (owed : Nat → Nat)
    (members : Nat → Prop) : Prop where
  body : c.Body lru inUse owed
  table : c.table.Holds hash c.entries members
  cached : ∀ e, members e → c.Cached e
  told : c.Told lru members

end LRUCache

/-- What of an entry never changes. -/
def LRUHandle.face (h : LRUHandle K V D) : K × V × D := (h.key,h.value,h.deleter)

theorem LRUHandle.face_eq {h h' : LRUHandle K V D} :
    h'.face = h.face ↔ h'.key = h.key ∧ h'.value = h.value ∧ h'.deleter = h.deleter := by
  simp only [face,Prod.mk.injEq]

namespace LRUCache
section Told
variable {c c' : LRUCache K V D} {lru lru' : List Nat} {members : Nat → Prop} {e : Nat} {h : LRUHandle K V D}

theorem face_setEntry (found : c.entries e = some h) {h' : LRUHandle K V D} (same : h'.face = h.face) (x : Nat) :
    ((c.setEntry e (some h')).entries x).map LRUHandle.face = (c.entries x).map LRUHandle.face := by
  by_cases here : x = e
  · subst here
    rw [setEntry_same,found,Option.map_some,Option.map_some,same]
  · rw [setEntry_other here]

variable [DecidableEq K]

theorem Told.kept (told : c.Told lru members) (events : c'.events = c.events) (fresh : c'.fresh = c.fresh)
    (capacity : c'.capacity = c.capacity)
    (faces : ∀ x, (c'.entries x).map LRUHandle.face = (c.entries x).map LRUHandle.face) (sub : lru'.Sublist lru) :
    c'.Told lru' members := by
  have back : ∀ x h', c'.entries x = some h' → ∃ h, c.entries x = some h ∧ h'.face = h.face := by
    intro x h' found
    have same := faces x
    rw [found] at same
    obtain ⟨h,found,equal⟩ := Option.map_eq_some_iff.mp same.symm
    exact ⟨h,found,equal.symm⟩
  have forth : ∀ x h, c.entries x = some h → ∃ h', c'.entries x = some h' ∧ h'.face = h.face := by
    intro x h found
    have same := faces x
    rw [found] at same
    obtain ⟨h',found,equal⟩ := Option.map_eq_some_iff.mp same
    exact ⟨h',found,equal⟩
  have none : ∀ x, c'.entries x = none ↔ c.entries x = none := by
    intro x
    rw [← Option.map_eq_none_iff,faces x,Option.map_eq_none_iff]
  refine ⟨fresh ▸ told.low,?_,events ▸ told.single,?_,?_,?_,?_,?_⟩
  · rw [events,fresh]
    exact told.numbered
  · intro x h' found
    obtain ⟨h,found,same⟩ := back x h' found
    obtain ⟨key,value,deleter⟩ := LRUHandle.face_eq.mp same
    rw [events,key,value,deleter]
    exact told.inserted x h found
  · rw [events]
    exact told.called
  · intro x
    rw [events,fresh,told.deleted x]
    simp only [none]
  · rw [events]
    exact told.order.sublist sub
  · intro caching key x value
    rw [events,told.latest (capacity ▸ caching)]
    refine and_congr_right fun _ => ⟨?_,?_⟩
    · rintro ⟨h,found,rfl,rfl⟩
      obtain ⟨h',found',same⟩ := forth x h found
      obtain ⟨key,value,-⟩ := LRUHandle.face_eq.mp same
      exact ⟨h',found',key,value⟩
    · rintro ⟨h',found',rfl,rfl⟩
      obtain ⟨h,found,same⟩ := back x h' found'
      obtain ⟨key,value,-⟩ := LRUHandle.face_eq.mp same
      exact ⟨h,found,key.symm,value.symm⟩

/-- A new entry. -/
theorem Told.new (told : c.Told lru members) (entries : c'.entries = update c.entries c.fresh (some h))
    (fresh : c'.fresh = c.fresh + 1) (events : c'.events = .inserted c.fresh h.key h.value h.deleter :: c.events)
    {members' : Nat → Prop}
    (latest' : c'.capacity ≠ 0 → ∀ key e value,
      Lru.latest (.inserted c.fresh h.key h.value h.deleter :: c.events) key = some (e,value) ↔
        members' e ∧ ∃ h, c'.entries e = some h ∧ h.key = key ∧ h.value = value) : c'.Told lru members' := by
  have here : c'.entries c.fresh = some h := by rw [entries,update_self]
  have there : ∀ x, x ≠ c.fresh → c'.entries x = c.entries x := fun x other => by rw [entries,update_of_ne other]
  have low := told.low
  refine ⟨by omega,?_,?_,?_,?_,?_,?_,?_⟩
  · intro x key value deleter member
    rw [events] at member
    rcases List.mem_cons.mp member with same | member
    · cases same
      omega
    · have real := told.numbered x key value deleter member
      omega
  · intro x key key' value value' deleter deleter' first second
    rw [events] at first second
    have late : ∀ key value deleter, .inserted c.fresh key value deleter ∉ c.events :=
      fun key value deleter member => Nat.lt_irrefl _ (told.numbered _ key value deleter member).2
    rcases List.mem_cons.mp first with same | first <;> rcases List.mem_cons.mp second with same' | second
    · cases same
      cases same'
      exact ⟨rfl,rfl,rfl⟩
    · cases same
      exact absurd second (late _ _ _)
    · cases same'
      exact absurd first (late _ _ _)
    · exact told.single x key key' value value' deleter deleter' first second
  · intro x h' found
    rw [events]
    by_cases same : x = c.fresh
    · subst same
      cases here.symm.trans found
      exact List.mem_cons_self
    · exact List.mem_cons_of_mem _ (told.inserted x h' ((there x same).symm.trans found))
  · intro x deleter key value member
    rw [events] at member ⊢
    exact List.mem_cons_of_mem _ (told.called x deleter key value ((List.mem_cons.mp member).resolve_left (by simp)))
  · intro x
    rw [events,List.countP_cons_of_neg (by simp [Event.deletes]),told.deleted x,fresh]
    by_cases same : x = c.fresh
    · subst same
      simp [here]
    · rw [there x same]
      congr 1
      exact propext (and_congr_right fun _ => and_congr_left fun _ => by omega)
  · rw [events]
    exact told.order
  · rw [events]
    exact latest'

/-- An entry that the table does not hold is freed. -/
theorem Told.freed (told : c.Told lru members) (found : c.entries e = some h) (real : 2 ≤ e ∧ e < c.fresh)
    (outside : ¬members e) :
    ((c.setEntry e none).log (.deleted e h.deleter h.key h.value)).Told lru members := by
  refine ⟨told.low,?_,?_,?_,?_,?_,told.order,?_⟩
  · intro x key value deleter member
    exact told.numbered x key value deleter ((List.mem_cons.mp member).resolve_left (by simp))
  · intro x key key' value value' deleter deleter' first second
    exact told.single x key key' value value' deleter deleter' ((List.mem_cons.mp first).resolve_left (by simp))
      ((List.mem_cons.mp second).resolve_left (by simp))
  · intro x h' alive
    have other : x ≠ e := by
      rintro rfl
      cases setEntry_same.symm.trans alive
    exact List.mem_cons_of_mem _ (told.inserted x h' ((setEntry_other other).symm.trans alive))
  · intro x deleter key value member
    rcases List.mem_cons.mp member with same | member
    · cases same
      exact List.mem_cons_of_mem _ (told.inserted e h found)
    · exact List.mem_cons_of_mem _ (told.called x deleter key value member)
  · intro x
    have before := told.deleted x
    by_cases here : x = e
    · subst here
      have gone : ((c.setEntry x none).log (.deleted x h.deleter h.key h.value)).entries x = none := setEntry_same
      rw [if_neg (by simp [found])] at before
      rw [if_pos ⟨real.1,real.2,gone⟩,log,List.countP_cons_of_pos (by simp [Event.deletes])]
      exact congrArg (· + 1) before
    · have there : ((c.setEntry e none).log (.deleted e h.deleter h.key h.value)).entries x = c.entries x :=
        setEntry_other here
      rw [there,log,List.countP_cons_of_neg (by simp [Event.deletes,Ne.symm here])]
      exact before
  · intro caching key x value
    have before := told.latest caching key x value
    refine before.trans (and_congr_right fun member => ?_)
    have other : x ≠ e := fun same => outside (same ▸ member)
    rw [log,setEntry_other other]

theorem Told.parked (told : c.Told lru members) (absent : e ∉ lru) : (c.log (.parked e)).Told (lru ++ [e]) members := by
  have bound : ∀ (events : List (Event K V D)) x, parkedAt events x ≤ events.length := by
    intro events x
    induction events with
    | nil => exact Nat.le_refl _
    | cons event rest ih =>
      rw [List.length_cons]
      cases event <;> simp only [parkedAt]
      case parked y =>
        split <;> omega
      all_goals omega
  refine ⟨told.low,?_,?_,?_,?_,?_,?_,told.latest⟩
  · intro x key value deleter member
    exact told.numbered x key value deleter ((List.mem_cons.mp member).resolve_left (by simp))
  · intro x key key' value value' deleter deleter' first second
    exact told.single x key key' value value' deleter deleter' ((List.mem_cons.mp first).resolve_left (by simp))
      ((List.mem_cons.mp second).resolve_left (by simp))
  · intro x h found
    exact List.mem_cons_of_mem _ (told.inserted x h found)
  · intro x deleter key value member
    exact List.mem_cons_of_mem _ (told.called x deleter key value ((List.mem_cons.mp member).resolve_left (by simp)))
  · intro x
    rw [log,List.countP_cons_of_neg (by simp [Event.deletes])]
    exact told.deleted x
  · have old : ∀ x ∈ lru, parkedAt (.parked e :: c.events) x = parkedAt c.events x := by
      intro x member
      have other : e ≠ x := fun same => absent (same ▸ member)
      exact if_neg other
    have new : parkedAt (.parked e :: c.events) e = c.events.length + 1 := if_pos rfl
    refine List.pairwise_append.mpr ⟨?_,List.pairwise_singleton _ _,?_⟩
    · refine told.order.imp_of_mem fun first second less => ?_
      rw [log,old _ first,old _ second]
      exact less
    · intro x member y last
      cases List.mem_singleton.mp last
      rw [log,old x member,new]
      exact Nat.lt_succ_of_le (bound c.events x)

end Told

section Steps
variable [DecidableEq K] {hash : K → UInt32} {c : LRUCache K V D} {lru inUse : List Nat} {owed : Nat → Nat}
  {members : Nat → Prop} {e : Nat} {h : LRUHandle K V D}

theorem Inv.table_kept (inv : c.Inv hash lru inUse owed members) {entries : Heap K V D}
    (kept : ∀ x, x ≠ e → entries x = c.entries x)
    (here : members e → ∀ h, c.entries e = some h → ∃ h', entries e = some h' ∧ h'.key = h.key ∧ h'.hash = h.hash) :
    c.table.Holds hash entries members := by
  refine inv.table.frame fun x member h found => ?_
  by_cases same : x = e
  · subst same
    exact here member h found
  · exact ⟨h,(kept x same).trans found,rfl,rfl⟩

/-- Only the number of references changes. -/
theorem Inv.table_refs (inv : c.Inv hash lru inUse owed members) (found : c.entries e = some h) (refs : UInt32) :
    c.table.Holds hash (c.setEntry e (some { h with refs })).entries members := by
  refine inv.table_kept (fun x other => setEntry_other other) fun _ h' same => ?_
  cases found.symm.trans same
  exact ⟨_,setEntry_same,rfl,rfl⟩

omit [DecidableEq K] in
theorem cached_refs (c : LRUCache K V D) (found : c.entries e = some h) (refs : UInt32) (x : Nat) :
    (c.setEntry e (some { h with refs })).Cached x ↔ c.Cached x := by
  by_cases here : x = e
  · subst here
    rw [Cached,Cached,found,setEntry_same]
    simp
  · rw [Cached,Cached,setEntry_other here]

/-- What an operation on the references leaves alone. -/
structure Quiet (c c' : LRUCache K V D) (new : List (Event K V D)) : Prop where
  capacity : c'.capacity = c.capacity
  fresh : c'.fresh = c.fresh
  events : c'.events = new ++ c.events
  evictions : evictions new = []

theorem Inv.unref (inv : c.Inv hash lru inUse owed members) (owes : 0 < owed e) :
    ∃ c' lru' inUse' new, c.unref e = some c' ∧ c'.Inv hash lru' inUse' (update owed e (owed e - 1)) members ∧
      Quiet c c' new ∧ (∀ x, c'.Cached x ↔ c.Cached x) ∧
      (¬c.Cached e → lru' = lru ∧ inUse' = inUse ∧ parkedAt c'.events = parkedAt c.events) := by
  obtain ⟨h,found⟩ : ∃ h, c.entries e = some h := by
    cases found : c.entries e with
    | none => exact absurd (inv.body.gone e found) (by omega)
    | some h => exact ⟨h,rfl⟩
  obtain ⟨low,high,positive,refs⟩ := inv.body.alive e h found
  have less := refs_less positive
  have cachedE : c.Cached e ↔ h.inCache = true := by
    rw [Cached,found]
    simp
  by_cases last : h.refs.toNat = 1
  · have loose : h.inCache = false := by
      cases inside : h.inCache with
      | false => rfl
      | true =>
        rw [inside,Bool.toNat_true] at refs
        omega
    have one : owed e = 1 := by
      rw [loose,Bool.toNat_false] at refs
      omega
    have outside : ¬c.Cached e := cachedE.not.mpr (by simp [loose])
    have apart : ¬members e := fun member => outside (inv.cached e member)
    have gone : ∀ x, (c.setEntry e none).Cached x ↔ c.Cached x := by
      intro x
      by_cases here : x = e
      · subst here
        simp only [outside,iff_false]
        rintro ⟨h',alive,-⟩
        cases setEntry_same.symm.trans alive
      · rw [Cached,Cached,setEntry_other here]
    refine ⟨_,lru,inUse,[.deleted e h.deleter h.key h.value],unref_free found last loose,⟨?_,?_,?_,?_⟩,⟨rfl,rfl,rfl,rfl⟩,
      gone,fun _ => ⟨rfl,rfl,rfl⟩⟩
    · rw [one]
      exact (inv.body.free found loose).congr rfl rfl rfl rfl rfl
    · exact inv.table_kept (fun x other => setEntry_other other) fun member => absurd member apart
    · intro x member
      exact (gone x).mpr (inv.cached x member)
    · exact inv.told.freed found ⟨low,high⟩ apart
  · have table := inv.table_refs found (h.refs - 1)
    have kept := c.cached_refs found (h.refs - 1)
    by_cases parks : h.inCache = true ∧ h.refs.toNat = 2
    · obtain ⟨inside,two⟩ := parks
      have one : owed e = 1 := by
        rw [inside,Bool.toNat_true] at refs
        omega
      have absent : e ∉ lru := fun member => by
        have zero := ((inv.body.onLru e).mp member).2
        omega
      refine ⟨_,lru ++ [e],inUse.erase e,[.parked e],unref_park found inside two,⟨?_,?_,?_,?_⟩,⟨rfl,rfl,rfl,rfl⟩,kept,
        fun away => absurd (cachedE.mpr inside) away⟩
      · rw [one]
        exact (inv.body.park found inside one (less.trans (by rw [two]))).congr rfl rfl rfl rfl rfl
      · exact table
      · intro x member
        exact (kept x).mpr (inv.cached x member)
      · exact Told.parked (Told.kept inv.told rfl rfl rfl (face_setEntry found rfl) (List.Sublist.refl _)) absent
    · have two : 2 ≤ owed e := by
        cases inside : h.inCache with
        | false =>
          rw [inside,Bool.toNat_false] at refs
          omega
        | true =>
          have other : h.refs.toNat ≠ 2 := fun same => parks ⟨inside,same⟩
          rw [inside,Bool.toNat_true] at refs
          omega
      refine ⟨_,lru,inUse,[],unref_drop found (by omega) parks,⟨?_,?_,?_,?_⟩,⟨rfl,rfl,rfl,rfl⟩,kept,fun _ => ⟨rfl,rfl,rfl⟩⟩
      · exact inv.body.count found (by omega) (by omega) (by omega)
      · exact table
      · intro x member
        exact (kept x).mpr (inv.cached x member)
      · exact inv.told.kept rfl rfl rfl (face_setEntry found rfl) (List.Sublist.refl _)

theorem Inv.uncache (inv : c.Inv hash lru inUse owed members) (found : c.entries e = some h) (inside : h.inCache = true)
    (outside : ¬members e) :
    (setEntry { c with links := c.links.remove e, usage := c.usage - h.charge } e (some { h with inCache := false })).Inv hash
      (lru.erase e) (inUse.erase e) (update owed e (owed e + 1)) members := by
  refine ⟨inv.body.uncache found inside,?_,?_,?_⟩
  · exact inv.table_kept (fun x other => setEntry_other other) fun member => absurd member outside
  · intro x member
    have other : x ≠ e := fun same => outside (same ▸ member)
    obtain ⟨h',found',inside'⟩ := inv.cached x member
    exact ⟨h',(setEntry_other other).trans found',inside'⟩
  · exact inv.told.kept rfl rfl rfl (face_setEntry found rfl) List.erase_sublist

/-- An entry that the table no longer holds leaves the cache. -/
theorem Inv.finishErase (inv : c.Inv hash lru inUse owed members) (cached : c.Cached e) (outside : ¬members e) :
    ∃ c' new, c.finishErase (some e) = some c' ∧ c'.Inv hash (lru.erase e) (inUse.erase e) owed members ∧
      Quiet c c' new ∧ (∀ x, c'.Cached x ↔ c.Cached x ∧ x ≠ e) ∧ parkedAt c'.events = parkedAt c.events := by
  obtain ⟨h,found,inside⟩ := cached
  have between := inv.uncache found inside outside
  have gone : ∀ x, (setEntry { c with links := c.links.remove e, usage := c.usage - h.charge } e
      (some { h with inCache := false })).Cached x ↔ c.Cached x ∧ x ≠ e := by
    intro x
    by_cases same : x = e
    · subst same
      rw [Cached,setEntry_same]
      simp
    · rw [Cached,Cached,setEntry_other same]
      simp [same]
  obtain ⟨c',lru',inUse',new,answer,after,quiet,kept,still⟩ := between.unref (e := e) (by simp)
  obtain ⟨rfl,rfl,times⟩ := still fun cached => ((gone e).mp cached).2 rfl
  have owed' : update (update owed e (owed e + 1)) e (update owed e (owed e + 1) e - 1) = owed := by simp
  rw [owed'] at after
  refine ⟨c',new,?_,after,⟨quiet.capacity,quiet.fresh,quiet.events,quiet.evictions⟩,fun x => (kept x).trans (gone x),times⟩
  rw [LRUCache.finishErase,found]
  simp only [inside,if_true]
  exact answer

/-- The cache after an operation: the table holds what is cached. -/
def Settled (hash : K → UInt32) (c : LRUCache K V D) (lru inUse : List Nat) (owed : Nat → Nat) : Prop :=
  c.Inv hash lru inUse owed c.Cached

theorem Inv.settled (inv : c.Inv hash lru inUse owed members) (all : ∀ x, c.Cached x ↔ members x) :
    c.Settled hash lru inUse owed := by
  have same : members = c.Cached := funext fun x => propext (all x).symm
  subst same
  exact inv

theorem Told.recorded (told : c.Told lru members) {event : Event K V D} (marks : event.marks = true) {members' : Nat → Prop}
    (latest' : c.capacity ≠ 0 → ∀ key e value, Lru.latest (event :: c.events) key = some (e,value) ↔
      members' e ∧ ∃ h, c.entries e = some h ∧ h.key = key ∧ h.value = value) : (c.log event).Told lru members' := by
  have numbered : ∀ e key value deleter, .inserted e key value deleter ∈ event :: c.events →
      .inserted e key value deleter ∈ c.events := by
    intro e key value deleter member
    rcases List.mem_cons.mp member with rfl | member
    · cases marks
    · exact member
  refine ⟨told.low,fun e key value deleter member => told.numbered e key value deleter (numbered _ _ _ _ member),
    fun e key key' value value' deleter deleter' first second =>
      told.single e key key' value value' deleter deleter' (numbered _ _ _ _ first) (numbered _ _ _ _ second),
    fun e h found => List.mem_cons_of_mem _ (told.inserted e h found),?_,?_,?_,latest'⟩
  · intro e deleter key value member
    rcases List.mem_cons.mp member with rfl | member
    · cases marks
    · exact List.mem_cons_of_mem _ (told.called e deleter key value member)
  · intro e
    have other : Event.deletes e event = false := by
      cases event with
      | deleted => cases marks
      | _ => rfl
    rw [log,List.countP_cons_of_neg (by simp [other])]
    exact told.deleted e
  · have still : parkedAt (event :: c.events) = parkedAt c.events := by
      cases event with
      | parked => cases marks
      | _ => rfl
    rw [log,still]
    exact told.order

/-- The table no longer holds the entry of a key. -/
theorem Inv.removed (inv : c.Inv hash lru inUse owed members) (key : K) (event : Event K V D) (marks : event.marks = true)
    (latest' : c.capacity ≠ 0 → ∀ key' e value, latest (event :: c.events) key' = some (e,value) ↔
      (members e ∧ c.table.lookup c.entries key (hash key) ≠ some e) ∧
        ∃ h, c.entries e = some h ∧ h.key = key' ∧ h.value = value) :
    (log { c with table := (c.table.remove c.entries key (hash key)).2 } event).Inv hash lru inUse owed
      fun e => members e ∧ c.table.lookup c.entries key (hash key) ≠ some e := by
  refine ⟨inv.body.congr rfl rfl rfl rfl rfl,inv.table.remove,fun e member => inv.cached e member.1,?_⟩
  have told : Told { c with table := (c.table.remove c.entries key (hash key)).2 } lru members :=
    inv.told.kept rfl rfl rfl (fun _ => rfl) (List.Sublist.refl lru)
  exact told.recorded marks latest'

/-- The oldest entry of `lru_` is taken out of the table and the cache. -/
theorem Settled.evictOldest (settled : c.Settled hash (e :: lru) inUse owed) :
    ∃ c' new, c.evictOldest = some c' ∧ c'.Settled hash lru inUse owed ∧ c'.capacity = c.capacity ∧ c'.fresh = c.fresh ∧
      c'.events = new ++ .evicted e :: c.events ∧ evictions new = [] ∧ parkedAt c'.events = parkedAt c.events := by
  have inv : c.Inv hash (e :: lru) inUse owed c.Cached := settled
  obtain ⟨⟨h,found,inside⟩,zero⟩ := (inv.body.onLru e).mp List.mem_cons_self
  have refs : h.refs = 1 := by
    have count := (inv.body.alive e h found).2.2.2
    rw [zero,inside,Bool.toNat_true] at count
    exact UInt32.toNat_inj.mp count
  obtain ⟨h',found',hashed⟩ := inv.table.held e ⟨h,found,inside⟩
  cases found.symm.trans found'
  have looked : c.table.lookup c.entries h.key (hash h.key) = some e := inv.table.lookup_eq.mpr ⟨⟨h,found,inside⟩,h,found,rfl⟩
  have without := inv.removed h.key (.evicted e) rfl (by
    intro caching key x value
    rw [LevelDB.Lru.latest,Option.filter_eq_some_iff,inv.told.latest caching,looked]
    simp only [bne_iff_ne,ne_eq,Option.some.injEq]
    constructor
    · rintro ⟨⟨member,entry⟩,other⟩
      exact ⟨⟨member,Ne.symm other⟩,entry⟩
    · rintro ⟨⟨member,other⟩,entry⟩
      exact ⟨⟨member,entry⟩,Ne.symm other⟩)
  obtain ⟨c',new,answer,after,quiet,gone,times⟩ := without.finishErase (e := e) ⟨h,found,inside⟩ fun member => member.2 looked
  have listed : (e :: lru).erase e = lru := List.erase_cons_head _ _
  have unused : inUse.erase e = inUse := List.erase_of_not_mem fun other => by
    have positive := ((inv.body.onInUse e).mp other).2
    omega
  rw [listed,unused] at after
  refine ⟨c',new,?_,after.settled fun x => ?_,quiet.capacity,quiet.fresh,quiet.events,quiet.evictions,times⟩
  · have first : c.links.next lruHead = e := inv.body.lruRing.next_cons
    have taken : c.table.remove c.entries h.key h.hash = (some e,(c.table.remove c.entries h.key (hash h.key)).2) := by
      rw [hashed]
      exact Prod.ext ((HandleTable.remove_fst _ _ _ _).trans looked) rfl
    simp only [LRUCache.evictOldest,first,found,refs,if_true,taken]
    exact answer
  · rw [gone,looked,ne_eq,ne_eq,Option.some.injEq,eq_comm]
    exact Iff.rfl

/-- `lru_` is emptied from its oldest entry on, until the condition no longer holds. -/
theorem Settled.evictWhile (condition : LRUCache K V D → Bool) (fuel : Nat) (settled : c.Settled hash lru inUse owed)
    (enough : lru.length < fuel) :
    ∃ c' out rest new, c.evictWhile condition fuel = some c' ∧ lru = out ++ rest ∧ c'.Settled hash rest inUse owed ∧
      c'.capacity = c.capacity ∧ c'.fresh = c.fresh ∧ c'.events = new ++ c.events ∧ evictions new = out ∧
      parkedAt c'.events = parkedAt c.events ∧ (condition c' = false ∨ rest = []) := by
  induction fuel generalizing c lru with
  | zero => exact absurd enough (Nat.not_lt_zero _)
  | succ fuel ih =>
    have empty := settled.body.lruRing.next_head
    rw [LRUCache.evictWhile]
    cases lru with
    | nil =>
      have first : (c.links.next lruHead != lruHead) = false := by simp [empty.mpr rfl]
      rw [first,Bool.and_false,if_neg Bool.false_ne_true]
      exact ⟨c,[],[],[],rfl,rfl,settled,rfl,rfl,rfl,rfl,rfl,.inr rfl⟩
    | cons e lru =>
      have first : (c.links.next lruHead != lruHead) = true := by simp [empty]
      rw [first,Bool.and_true]
      cases goes : condition c with
      | false =>
        rw [if_neg Bool.false_ne_true]
        exact ⟨c,[],e :: lru,[],rfl,rfl,settled,rfl,rfl,rfl,rfl,rfl,.inl goes⟩
      | true =>
        obtain ⟨next,new,step,settled',capacity,fresh,events,none,times⟩ := settled.evictOldest
        obtain ⟨c',out,rest,more,run,split,after,capacity',fresh',events',victims,times',stops⟩ :=
          ih settled' (Nat.lt_of_succ_lt_succ enough)
        rw [if_pos rfl,step,Option.bind_some]
        refine ⟨c',e :: out,rest,more ++ (new ++ [.evicted e]),run,congrArg (e :: ·) split,after,capacity'.trans capacity,
          fresh'.trans fresh,?_,?_,times'.trans times,stops⟩
        · rw [events',events]
          simp
        · rw [evictions_append,evictions_append,victims,none]
          rfl

/-- The table does not see a new entry. -/
theorem Settled.table_new (settled : c.Settled hash lru inUse owed) (new : Option (LRUHandle K V D)) :
    c.table.Holds hash (update c.entries c.fresh new) c.Cached := by
  refine settled.table.frame fun x member h found => ⟨h,?_,rfl,rfl⟩
  have other : x ≠ c.fresh := Nat.ne_of_lt (settled.body.real member).2
  rw [update_of_ne other]
  exact found

/-- A new entry in the cache, up to the end of the one whose place it takes. -/
theorem Settled.insert (settled : c.Settled hash lru inUse owed) {c' : LRUCache K V D} (caching : c.capacity ≠ 0)
    (refs : h.refs.toNat = 2) (inside : h.inCache = true) (hashed : h.hash = hash h.key)
    (entries : c'.entries = update c.entries c.fresh (some h)) (links : c'.links = c.links.append inUseHead c.fresh)
    (usage : c'.usage = c.usage + h.charge) (capacity : c'.capacity = c.capacity) (fresh : c'.fresh = c.fresh + 1)
    (table : c'.table = (c.table.insert c'.entries c.fresh h.key (hash h.key)).2)
    (events : c'.events = .inserted c.fresh h.key h.value h.deleter :: c.events) :
    c'.Inv hash lru (inUse ++ [c.fresh]) (update owed c.fresh 1) fun x =>
      x = c.fresh ∨ c.Cached x ∧ c.table.lookup c'.entries h.key (hash h.key) ≠ some x := by
  have inv : c.Inv hash lru inUse owed c.Cached := settled
  have new : ¬c.Cached c.fresh := fun cached => Nat.lt_irrefl _ (inv.body.real cached).2
  have here : c'.entries c.fresh = some h := by rw [entries,update_self]
  have there : ∀ x, x ≠ c.fresh → c'.entries x = c.entries x := fun x other => by rw [entries,update_of_ne other]
  have holds : c.table.Holds hash c'.entries c.Cached := entries ▸ settled.table_new (some h)
  refine ⟨inv.body.add inv.told.low caching refs inside entries links usage capacity fresh,?_,?_,?_⟩
  · rw [table]
    exact holds.insert here hashed new
  · rintro x (rfl | ⟨member,-⟩)
    · exact ⟨h,here,inside⟩
    · have other : x ≠ c.fresh := fun same => new (same ▸ member)
      rw [Cached,there x other]
      exact member
  · refine inv.told.new entries fresh events fun _ key x value => ?_
    rw [LevelDB.Lru.latest]
    split
    · rename_i same
      rw [Option.some.injEq,Prod.mk.injEq]
      constructor
      · rintro ⟨rfl,rfl⟩
        exact ⟨.inl rfl,h,here,same,rfl⟩
      · rintro ⟨rfl | ⟨member,other⟩,h',found,key',rfl⟩
        · cases here.symm.trans found
          exact ⟨rfl,rfl⟩
        · exact absurd (holds.lookup_eq.mpr ⟨member,h',found,key'.trans same.symm⟩) other
    · rename_i differs
      rw [inv.told.latest caching]
      constructor
      · rintro ⟨member,h',found,key',value'⟩
        have apart : x ≠ c.fresh := fun same => new (same ▸ member)
        have found' := (there x apart).trans found
        refine ⟨.inr ⟨member,fun looked => differs ?_⟩,h',found',key',value'⟩
        obtain ⟨-,h'',found'',key''⟩ := holds.lookup_eq.mp looked
        cases found'.symm.trans found''
        exact key''.symm.trans key'
      · rintro ⟨rfl | ⟨member,other⟩,h',found,key',value'⟩
        · cases here.symm.trans found
          exact absurd key' differs
        · have apart : x ≠ c.fresh := fun same => new (same ▸ member)
          exact ⟨member,h',(there x apart).symm.trans found,key',value'⟩

end Steps

end LRUCache

end LevelDB.Lru
