import LevelDB.LinkedChains
import LevelDB.LruTable
import Mathlib.Data.Set.Card

/-! `HandleTable` with its pointers (`util/cache.cc`): an array of bucket heads, and in every
entry the link `next_hash`. It refines the table of chains, and is a finite map. A loop that
takes more turns than it is given, a read of a freed entry and one outside the array give `none`. -/
namespace LevelDB.Lru.Chained

variable {K V D : Type}

structure HandleTable (K V D : Type) where
  length : UInt32
  elems : UInt32
  list : List (Option Nat)
  /-- The memory that the pointers lead to. -/
  entries : Heap K V D
  nextHash : Nat → Option Nat

/-- Where a pointer to an entry stands. -/
inductive Slot where
  | bucket (i : Nat)
  | nextHash (e : Nat)

namespace HandleTable

def load (t : HandleTable K V D) : Slot → Option (Option Nat)
  | .bucket i => t.list[i]?
  | .nextHash e => (t.entries e).map fun _ => t.nextHash e

def store (t : HandleTable K V D) (p : Option Nat) : Slot → HandleTable K V D
  | .bucket i => { t with list := t.list.set i p }
  | .nextHash e => { t with nextHash := Function.update t.nextHash e p }

def bucketOf (length hash : UInt32) : Nat := (hash &&& (length - 1)).toNat

/-- `new_length`. -/
def newLength (elems : UInt32) : Nat → UInt32 → Option UInt32
  | 0, _ => none
  | turns + 1, length => if length < elems then newLength elems turns (length * 2) else some length

/-- What `Resize` has built so far. -/
structure Relinked where
  newList : List (Option Nat)
  nextHash : Nat → Option Nat
  count : UInt32

/-- The entries of a chain, from `h` on, are put before those of their new buckets. -/
def relink (t : HandleTable K V D) (newLength : UInt32) : Nat → Option Nat → Relinked → Option Relinked
  | _, none, r => some r
  | 0, some _, _ => none
  | turns + 1, some h, r =>
    (t.entries h).bind fun entry =>
      let ptr := bucketOf newLength entry.hash
      r.newList[ptr]?.bind fun first =>
        t.relink newLength turns (r.nextHash h)
          ⟨r.newList.set ptr (some h),Function.update r.nextHash h first,r.count + 1⟩

def resize (turns : Nat) (t : HandleTable K V D) : Option (HandleTable K V D) :=
  (newLength t.elems turns 4).bind fun newLength =>
    ((List.range t.length.toNat).foldlM (fun r i => t.list[i]?.bind fun h => t.relink newLength turns h r)
      (⟨List.replicate newLength.toNat none,t.nextHash,0⟩ : Relinked)).bind fun r =>
      if t.elems = r.count then some { t with length := newLength, list := r.newList, nextHash := r.nextHash } else none

/-- The constructor; the memory is there before. -/
def new (turns : Nat) (entries : Heap K V D) (nextHash : Nat → Option Nat) : Option (HandleTable K V D) :=
  resize turns ⟨0,0,[],entries,nextHash⟩

section Keys
variable [DecidableEq K]

def findPointerFrom (t : HandleTable K V D) (key : K) (hash : UInt32) : Nat → Slot → Option Slot
  | 0, _ => none
  | turns + 1, ptr =>
    (t.load ptr).bind fun
      | none => some ptr
      | some e => (t.entries e).bind fun h =>
        if h.hash ≠ hash ∨ key ≠ h.key then t.findPointerFrom key hash turns (.nextHash e) else some ptr

def findPointer (turns : Nat) (t : HandleTable K V D) (key : K) (hash : UInt32) : Option Slot :=
  t.findPointerFrom key hash turns (.bucket (bucketOf t.length hash))

def lookup (turns : Nat) (t : HandleTable K V D) (key : K) (hash : UInt32) : Option (Option Nat) :=
  (t.findPointer turns key hash).bind t.load

def insert (turns : Nat) (t : HandleTable K V D) (h : Nat) : Option (Option Nat × HandleTable K V D) :=
  (t.entries h).bind fun entry =>
    (t.findPointer turns entry.key entry.hash).bind fun ptr =>
      (t.load ptr).bind fun old =>
        (old.elim (some none) fun e => t.load (.nextHash e)).bind fun next =>
          let t := (t.store next (.nextHash h)).store (some h) ptr
          if old = none then
            let t := { t with elems := t.elems + 1 }
            if t.length < t.elems then (t.resize turns).map (old,·) else some (old,t)
          else some (old,t)

def remove (turns : Nat) (t : HandleTable K V D) (key : K) (hash : UInt32) : Option (Option Nat × HandleTable K V D) :=
  (t.findPointer turns key hash).bind fun ptr =>
    (t.load ptr).bind fun
      | none => some (none,t)
      | some e => (t.load (.nextHash e)).map fun next => (some e,{ t.store next ptr with elems := t.elems - 1 })

end Keys

open Lru.HandleTable (bucket bucket_lt hashOf hashOf_eq isFor isFor_iff Holds)

/-- The table of chains that the pointers make up. -/
structure Follows (t : HandleTable K V D) (l : Lru.HandleTable) : Prop where
  length : t.length.toNat = l.list.length
  elems : t.elems.toNat = l.elems
  chains : Chains t.nextHash t.list l.list

/-- The slot behind the entries. -/
def slotAfter (ptr : Slot) (before : List Nat) : Slot := (before.getLast?.map Slot.nextHash).getD ptr

section Walk
variable {hash : K → UInt32} {t : HandleTable K V D} {l : Lru.HandleTable} {members : Nat → Prop} {turns : Nat}

theorem slotAfter_cons (ptr : Slot) (e : Nat) (before : List Nat) :
    slotAfter ptr (e :: before) = slotAfter (.nextHash e) before := by
  cases before with
  | nil => rfl
  | cons e' before => simp [slotAfter,List.getLast?_cons]

theorem alive_of_mem (holds : Holds hash l t.entries members) {e : Nat}
    (member : e ∈ l.list.flatten) : ∃ h, t.entries e = some h := by
  obtain ⟨h,alive,-⟩ := holds.held e ((holds.mem e).mp member)
  exact ⟨h,alive⟩

variable [DecidableEq K] {key : K} {code : UInt32}

/-- The walk stops at the slot that leads to the entry looked for, or at the last one. -/
theorem findPointerFrom_spec {c : List Nat} : ∀ {turns ptr head}, (∀ e ∈ c, ∃ h, t.entries e = some h) → t.load ptr = some head →
    Trail t.nextHash head c none → c.length < turns → ∃ before rest, c = before ++ rest ∧
      t.findPointerFrom key code turns ptr = some (slotAfter ptr before) ∧
      t.load (slotAfter ptr before) = some rest.head? ∧ rest.head? = c.find? (isFor t.entries key code) := by
  induction c with
  | nil =>
    intro turns ptr head alive loaded trail enough
    obtain ⟨turns,rfl⟩ := Nat.exists_eq_succ_of_ne_zero (Nat.ne_of_gt enough)
    cases trail
    exact ⟨[],[],rfl,by simp [findPointerFrom,loaded,slotAfter],loaded,rfl⟩
  | cons e c ih =>
    intro turns ptr head alive loaded trail enough
    obtain ⟨turns,rfl⟩ := Nat.exists_eq_succ_of_ne_zero (Nat.ne_of_gt (Nat.lt_of_le_of_lt (Nat.zero_le _) enough))
    obtain ⟨rfl,trail⟩ := trail
    obtain ⟨h,here⟩ := alive e List.mem_cons_self
    by_cases wanted : isFor t.entries key code e
    · obtain ⟨_,same,rfl,rfl⟩ := isFor_iff.mp wanted
      cases here.symm.trans same
      refine ⟨[],e :: c,rfl,?_,loaded,?_⟩
      · simp [findPointerFrom,loaded,here,slotAfter]
      · simp [wanted]
    · have other : h.hash ≠ code ∨ key ≠ h.key := by
        by_contra both
        simp only [not_or,ne_eq,Decidable.not_not] at both
        exact wanted (isFor_iff.mpr ⟨h,here,both.2.symm,both.1⟩)
      have after : t.load (.nextHash e) = some (t.nextHash e) := by simp [load,here]
      obtain ⟨before,rest,rfl,walked,there,found⟩ := ih (fun x member => alive x (List.mem_cons_of_mem e member)) after trail
        (Nat.lt_of_succ_lt_succ enough)
      refine ⟨e :: before,rest,rfl,?_,?_,?_⟩
      · simp only [findPointerFrom,loaded,here,Option.bind_some,if_pos other,walked,slotAfter_cons]
      · simpa only [slotAfter_cons] using there
      · simpa [wanted] using found

theorem bucketOf_eq {length : UInt32} (filled : 0 < length.toNat) (code : UInt32) :
    bucketOf length code = bucket length.toNat code := by
  have one : (1 : UInt32) ≤ length := UInt32.le_iff_toNat_le.mpr filled
  simp [bucketOf,bucket,UInt32.toNat_sub_of_le _ _ one]

/-- The slot that is found, in the chain of the hash. -/
theorem Follows.findPointer (follows : Follows t l) (holds : Holds hash l t.entries members)
    (enough : l.elems < turns) (key : K) (code : UInt32) : ∃ before rest, l.chain code = before ++ rest ∧
      t.findPointer turns key code = some (slotAfter (.bucket (bucket l.list.length code)) before) ∧
      t.load (slotAfter (.bucket (bucket l.list.length code)) before) = some rest.head? ∧
      rest.head? = l.lookup t.entries key code := by
  have place : bucketOf t.length code = bucket l.list.length code := by
    have filled : 0 < t.length.toNat := by simpa only [follows.length] using holds.filled
    simp only [bucketOf_eq filled,follows.length]
  have found := holds.chain_getElem code
  have member := List.mem_of_getElem? found
  have loaded := follows.chains.found found
  have inside : ∀ e ∈ l.chain code, e ∈ l.list.flatten := fun e there => List.mem_flatten.mpr ⟨_,member,there⟩
  have short : (l.chain code).length ≤ l.elems := by
    simpa only [holds.count] using (List.sublist_flatten_of_mem member).length_le
  simp only [HandleTable.findPointer,place]
  exact findPointerFrom_spec (fun e there => alive_of_mem holds (inside e there)) loaded
    (follows.chains.trail loaded found) (Nat.lt_of_le_of_lt short enough)

theorem Follows.lookup (follows : Follows t l) (holds : Holds hash l t.entries members)
    (enough : l.elems < turns) (key : K) (code : UInt32) :
    t.lookup turns key code = some (l.lookup t.entries key code) := by
  obtain ⟨before,rest,-,walked,loaded,found⟩ := follows.findPointer holds enough key code
  simp only [HandleTable.lookup,walked,Option.bind_some,loaded,found]

end Walk

section Stores
variable {t : HandleTable K V D} {chains : List (List Nat)} {before rest after : List Nat} {p : Option Nat} {i : Nat}

/-- A store behind the entries `before` of a chain replaces the rest of it. -/
theorem splice (linked : Chains t.nextHash t.list chains)
    (apart : ∀ {i j : Nat} {c d x}, chains[i]? = some c → chains[j]? = some d → x ∈ c → x ∈ d → i = j)
    (found : chains[i]? = some (before ++ rest)) (nodup : (before ++ rest).Nodup) {nextHash' : Nat → Option Nat}
    (same : ∀ {j : Nat} {c x}, chains[j]? = some c → x ∈ c → x ∉ rest → nextHash' x = t.nextHash x)
    (tail : Trail nextHash' p after none) (outside : ∀ x ∈ before, x ∉ after) :
    Chains (({ t with nextHash := nextHash' }).store p (slotAfter (.bucket i) before)).nextHash
      (({ t with nextHash := nextHash' }).store p (slotAfter (.bucket i) before)).list (chains.set i (before ++ after)) := by
  have others : ∀ j c, j ≠ i → chains[j]? = some c → ∀ x ∈ c, x ∉ before ∧ nextHash' x = t.nextHash x := by
    intro j c other chain x member
    have absent : x ∉ before ++ rest := fun inside => other (apart chain found member inside)
    exact ⟨fun inside => absent (List.mem_append_left rest inside),
      same chain member fun inside => absent (List.mem_append_right before inside)⟩
  rcases List.eq_nil_or_concat' before with rfl | ⟨b,x,rfl⟩
  · exact linked.set tail fun j c other chain x member => (others j c other chain x member).2
  · have slot : slotAfter (.bucket i) (b ++ [x]) = .nextHash x := by simp [slotAfter]
    simp only [slot,store]
    obtain ⟨distinct,-,cross⟩ := List.nodup_append.mp nodup
    have last : x ∉ b := by
      intro inside
      exact (List.nodup_append.mp distinct).2.2 x inside x List.mem_cons_self rfl
    have head := linked.found found
    obtain ⟨m,front,-⟩ := Trail.append.mp (linked.trail head found)
    have kept : Trail nextHash' (b ++ [x] ++ rest).head? (b ++ [x]) m := by
      apply front.congr
      intro y member
      exact same found (List.mem_append_left rest member) fun inside => cross y member y inside rfl
    have behind : Trail (Function.update nextHash' x p) p after none := by
      apply tail.congr
      intro y member
      have other : y ≠ x := by
        rintro rfl
        exact outside y (by simp) member
      exact Function.update_of_ne other ..
    apply linked.keep head
    · exact Trail.append.mpr ⟨p,kept.redirect last,behind⟩
    · intro j c other chain y member
      obtain ⟨absent,unchanged⟩ := others j c other chain y member
      have apart : y ≠ x := by
        rintro rfl
        exact absent (by simp)
      simpa only [Function.update_of_ne apart] using unchanged

end Stores

section Growth
variable {t : HandleTable K V D} {l : Lru.HandleTable} {entries : Heap K V D} {turns : Nat}

/-- An entry is put before those of its new bucket. -/
def place (entries : Heap K V D) (length : Nat) (chains : List (List Nat)) (e : Nat) : List (List Nat) :=
  chains.modify (bucket length (hashOf entries e)) (e :: ·)

theorem length_placed (length : Nat) (es : List Nat) (chains : List (List Nat)) :
    (es.foldl (place entries length) chains).length = chains.length := by
  induction es generalizing chains with
  | nil => rfl
  | cons e es ih => simp only [List.foldl_cons,ih,place,List.length_modify]

theorem mem_placed {length : Nat} (filled : 0 < length) (es : List Nat) {chains : List (List Nat)}
    (size : chains.length = length) {x : Nat} :
    x ∈ (es.foldl (place entries length) chains).flatten ↔ x ∈ es ∨ x ∈ chains.flatten := by
  induction es generalizing chains with
  | nil => simp
  | cons e es ih =>
    have bound : bucket length (hashOf entries e) < chains.length := size ▸ bucket_lt filled _
    have added : x ∈ (place entries length chains e).flatten ↔ x = e ∨ x ∈ chains.flatten :=
      (Lru.HandleTable.modify_flatten bound e).mem_iff.trans List.mem_cons
    have size : (place entries length chains e).length = length := by simpa only [place,List.length_modify] using size
    simp only [List.foldl_cons,ih size,added,List.mem_cons]
    tauto

theorem relink_spec {newLength : UInt32} (filled : 0 < newLength.toNat) {c : List Nat} : ∀ {turns h} {r : Relinked} {chains},
    (∀ e ∈ c, ∃ entry, t.entries e = some entry) → Trail r.nextHash h c none → c.Nodup → (∀ e ∈ c, e ∉ chains.flatten) →
      Chains r.nextHash r.newList chains → chains.length = newLength.toNat → c.length ≤ turns →
      ∃ r', t.relink newLength turns h r = some r' ∧
        Chains r'.nextHash r'.newList (c.foldl (place t.entries newLength.toNat) chains) ∧
        r'.count = r.count + UInt32.ofNat c.length ∧ ∀ e, e ∉ c → r'.nextHash e = r.nextHash e := by
  induction c with
  | nil =>
    intro turns h r chains _ trail _ _ linked _ _
    cases trail
    refine ⟨r,?_,linked,?_,fun _ _ => rfl⟩
    · cases turns <;> rfl
    · simp
  | cons e c ih =>
    intro turns h r chains alive trail distinct outside linked size enough
    obtain ⟨turns,rfl⟩ := Nat.exists_eq_succ_of_ne_zero (Nat.ne_of_gt (Nat.lt_of_lt_of_le (Nat.succ_pos _) enough))
    obtain ⟨rfl,trail⟩ := trail
    obtain ⟨absent,distinct⟩ := List.nodup_cons.mp distinct
    obtain ⟨entry,here⟩ := alive e List.mem_cons_self
    have index : bucketOf newLength entry.hash = bucket newLength.toNat (hashOf t.entries e) := by
      simp only [bucketOf_eq filled,hashOf_eq here]
    have bound : bucket newLength.toNat (hashOf t.entries e) < chains.length := size ▸ bucket_lt filled _
    obtain ⟨d,chain⟩ : ∃ d, chains[bucket newLength.toNat (hashOf t.entries e)]? = some d := ⟨_,List.getElem?_eq_getElem bound⟩
    have first := linked.found chain
    have fresh : ∀ {j : Nat} {d x}, chains[j]? = some d → x ∈ d → x ≠ e := by
      intro j d x found member same
      exact outside e List.mem_cons_self (List.mem_flatten.mpr ⟨d,List.mem_of_getElem? found,same ▸ member⟩)
    have longer : Trail (Function.update r.nextHash e d.head?) (some e) (e :: d) none := by
      refine ⟨rfl,?_⟩
      simp only [Function.update_self]
      exact (linked.trail first chain).congr fun x member => Function.update_of_ne (fresh chain member) ..
    have placed : place t.entries newLength.toNat chains e =
        chains.set (bucket newLength.toNat (hashOf t.entries e)) (e :: d) := by
      simp [place,List.modify_eq_set_getElem?,chain]
    have moved := linked.set (i := bucket newLength.toNat (hashOf t.entries e)) longer fun j d _ found x member =>
      Function.update_of_ne (fresh found member) ..
    simp only [← placed] at moved
    have others : Trail (Function.update r.nextHash e d.head?) (r.nextHash e) c none := by
      apply trail.congr
      intro x member
      have other : x ≠ e := by
        rintro rfl
        exact absent member
      exact Function.update_of_ne other ..
    have apart : ∀ x ∈ c, x ∉ (place t.entries newLength.toNat chains e).flatten := by
      intro x member inside
      rcases (mem_placed filled [e] size).mp inside with here | old
      · exact absent (List.mem_singleton.mp here ▸ member)
      · exact outside x (List.mem_cons_of_mem e member) old
    obtain ⟨r',relinked,linked',count,kept⟩ := ih
      (r := ⟨r.newList.set (bucket newLength.toNat (hashOf t.entries e)) (some e),Function.update r.nextHash e d.head?,r.count + 1⟩)
      (fun x member => alive x (List.mem_cons_of_mem e member)) others distinct apart moved (by simpa only [place,List.length_modify] using size) (Nat.le_of_succ_le_succ enough)
    refine ⟨r',?_,linked',?_,?_⟩
    · simpa only [relink,here,index,first,Option.bind_some] using relinked
    · simp only [count,List.length_cons,UInt32.ofNat_add,UInt32.add_assoc,UInt32.add_comm (UInt32.ofNat c.length)]
      rfl
    · intro x member
      obtain ⟨other,member⟩ := not_or.mp (List.mem_cons.not.mp member)
      simpa only [Function.update_of_ne other] using kept x member

/-- The chains of all buckets in turn. -/
theorem relinkAll_spec {newLength : UInt32} (filled : 0 < newLength.toNat) (follows : Follows t l)
    (alive : ∀ e ∈ l.list.flatten, ∃ entry, t.entries e = some entry) (distinct : l.list.flatten.Nodup)
    (enough : l.list.flatten.length ≤ turns) {todo : List (List Nat)} : ∀ (ready : List (List Nat)) {r : Relinked} {chains},
    l.list = ready ++ todo → (∀ e ∈ todo.flatten, r.nextHash e = t.nextHash e ∧ e ∉ chains.flatten) →
      Chains r.nextHash r.newList chains → chains.length = newLength.toNat →
      ∃ r', (List.range' ready.length todo.length).foldlM
          (fun r i => t.list[i]?.bind fun h => t.relink newLength turns h r) r = some r' ∧
        Chains r'.nextHash r'.newList (todo.flatten.foldl (place t.entries newLength.toNat) chains) ∧
        r'.count = r.count + UInt32.ofNat todo.flatten.length := by
  induction todo with
  | nil =>
    intro ready r chains _ _ linked _
    exact ⟨r,rfl,linked,by simp⟩
  | cons c todo ih =>
    intro ready r chains split fresh linked size
    have chain : l.list[ready.length]? = some c := by simp [split]
    have first := follows.chains.found chain
    have inside : ∀ e ∈ c, e ∈ (c :: todo).flatten := fun e member => List.mem_append_left _ member
    have sub : (c :: todo).flatten.Sublist l.list.flatten := by simp [split]
    have apart := List.nodup_append.mp (distinct.sublist sub)
    have short : c.length ≤ turns := by
      have whole := sub.length_le
      simp only [List.flatten_cons,List.length_append] at whole
      omega
    have trail : Trail r.nextHash c.head? c none := by
      apply (follows.chains.trail first chain).congr
      intro e member
      exact (fresh e (inside e member)).1
    obtain ⟨r₁,relinked,linked₁,count₁,kept₁⟩ := relink_spec filled (fun e member => alive e (sub.subset (inside e member))) trail
      apart.1 (fun e member => (fresh e (inside e member)).2) linked size short
    have fresh₁ : ∀ e ∈ todo.flatten, r₁.nextHash e = t.nextHash e ∧
        e ∉ (c.foldl (place t.entries newLength.toNat) chains).flatten := by
      intro e member
      obtain ⟨same,outside⟩ := fresh e (List.mem_append_right c member)
      have other : e ∉ c := fun here => apart.2.2 e here e member rfl
      refine ⟨(kept₁ e other).trans same,?_⟩
      simp only [mem_placed filled c size,other,outside,or_self,not_false_eq_true]
    obtain ⟨r₂,rest,linked₂,count₂⟩ := ih (ready ++ [c]) (by simp [split]) fresh₁ linked₁ ((length_placed ..).trans size)
    refine ⟨r₂,?_,?_,?_⟩
    · simp only [List.length_append,List.length_singleton] at rest
      simp only [List.length_cons,List.range'_succ,List.foldlM_cons,first,Option.bind_some,relinked,Option.bind_eq_bind]
      exact rest
    · simpa only [List.flatten_cons,List.foldl_append] using linked₂
    · simp only [count₂,count₁,List.flatten_cons,List.length_append,UInt32.ofNat_add,UInt32.add_assoc]

/-- The new length is the least power of two from four on that has room for the entries. -/
theorem newLength_spec {elems : UInt32} (few : elems.toNat ≤ 2^31) (spare : Nat) : ∀ (turns n : Nat) (length : UInt32),
    length.toNat = 2^n → n ≤ 31 → elems.toNat ≤ length.toNat + spare → spare < turns →
      ∃ r m, newLength elems turns length = some r ∧ r.toNat = Lru.HandleTable.newLength elems.toNat spare length.toNat ∧
        r.toNat = 2^m ∧ elems ≤ r := by
  induction spare with
  | zero =>
    intro turns n length power _ room enough
    obtain ⟨turns,rfl⟩ := Nat.exists_eq_succ_of_ne_zero (Nat.ne_of_gt enough)
    have fits : elems ≤ length := UInt32.le_iff_toNat_le.mpr room
    exact ⟨length,n,by simp [newLength,fits],rfl,power,fits⟩
  | succ spare ih =>
    intro turns n length power bound room enough
    obtain ⟨turns,rfl⟩ := Nat.exists_eq_succ_of_ne_zero (Nat.ne_of_gt (Nat.lt_of_le_of_lt (Nat.zero_le _) enough))
    by_cases fits : elems ≤ length
    · refine ⟨length,n,by simp [newLength,fits],?_,power,fits⟩
      simp [Lru.HandleTable.newLength,Nat.not_lt.mpr (UInt32.le_iff_toNat_le.mp fits)]
    · have less : length < elems := UInt32.not_le.mp fits
      have less' : length.toNat < elems.toNat := UInt32.lt_iff_toNat_lt.mp less
      have small : n < 31 := by
        apply (Nat.pow_lt_pow_iff_right (a := 2) (by omega)).mp
        omega
      have below : 2^n ≤ 2^30 := Nat.pow_le_pow_right (by omega) (by omega)
      have positive : 0 < 2^n := Nat.two_pow_pos n
      have double : (length * 2).toNat = length.toNat * 2 := by
        simp only [UInt32.toNat_mul,UInt32.reduceToNat]
        omega
      obtain ⟨r,m,found,same,power',room'⟩ := ih turns (n + 1) (length * 2) (by simp only [double,power,pow_succ]) small
        (by omega) (by omega)
      refine ⟨r,m,?_,?_,power',room'⟩
      · simpa only [newLength,if_pos less] using found
      · simpa only [Lru.HandleTable.newLength,if_pos less',double] using same

theorem Follows.resize (follows : Follows t l) (alive : ∀ e ∈ l.list.flatten, ∃ entry, t.entries e = some entry)
    (distinct : l.list.flatten.Nodup) (counted : l.elems = l.list.flatten.length) (few : l.elems < 2^31) (enough : 2^31 ≤ turns) :
    ∃ t' n, t.resize turns = some t' ∧ t'.Follows (l.resize t.entries) ∧ t'.entries = t.entries ∧
      t'.length.toNat = 2^n ∧ t'.elems = t.elems ∧ t'.elems ≤ t'.length := by
  have elems := follows.elems
  obtain ⟨length,n,found,same,power,room⟩ := newLength_spec (by omega : t.elems.toNat ≤ 2^31) l.elems turns 2 4 rfl
    (by omega) (by omega) (by omega)
  have filled : 0 < length.toNat := power ▸ Nat.two_pow_pos n
  have size : (List.replicate length.toNat ([] : List Nat)).length = length.toNat := List.length_replicate
  have empty : (List.replicate length.toNat ([] : List Nat)).flatten = [] := by simp
  have blank : Chains t.nextHash (List.replicate length.toNat none) (List.replicate length.toNat []) := by
    constructor
    · simp
    · intro i p c head chain
      cases List.eq_of_mem_replicate (List.mem_of_getElem? head)
      cases List.eq_of_mem_replicate (List.mem_of_getElem? chain)
      rfl
  obtain ⟨r,moved,linked,count⟩ := relinkAll_spec filled follows alive distinct
    (by omega : l.list.flatten.length ≤ turns) [] (r := ⟨List.replicate length.toNat none,t.nextHash,0⟩) rfl (by simp [empty]) blank size
  have total : t.elems = r.count := by
    have whole : t.elems = UInt32.ofNat l.list.flatten.length := by simp [← counted,← elems]
    simpa [count] using whole
  refine ⟨{ t with length := length, list := r.newList, nextHash := r.nextHash },n,?_,?_,rfl,power,rfl,room⟩
  · simp only [List.length_nil,← List.range_eq_range',← follows.length] at moved
    simp only [HandleTable.resize,found,Option.bind_some,moved,if_pos total]
  · have target : Lru.HandleTable.newLength l.elems l.elems 4 = length.toNat := by
      simpa [elems] using same.symm
    have chains : (l.resize t.entries).list = l.list.flatten.foldl (place t.entries length.toNat) (List.replicate length.toNat []) := by
      simp only [Lru.HandleTable.resize,target]
      rfl
    constructor
    · simp only [chains,length_placed,size]
    · exact elems
    · simpa only [chains] using linked

end Growth

section Calls
variable {hash : K → UInt32} {t : HandleTable K V D} {l : Lru.HandleTable} {members : Nat → Prop} {turns : Nat}

theorem same_bucket (holds : Holds hash l t.entries members) {i j : Nat} {c d : List Nat} {x : Nat}
    (first : l.list[i]? = some c) (second : l.list[j]? = some d) (here : x ∈ c) (there : x ∈ d) : i = j :=
  (holds.place i c first x here).symm.trans (holds.place j d second x there)

theorem member_of_chain (holds : Holds hash l t.entries members) {j : Nat} {c : List Nat} {x : Nat} (chain : l.list[j]? = some c)
    (here : x ∈ c) : members x :=
  (holds.mem _).mp (List.mem_flatten.mpr ⟨c,List.mem_of_getElem? chain,here⟩)

@[simp] theorem store_entries (p : Option Nat) (ptr : Slot) : (t.store p ptr).entries = t.entries := by cases ptr <;> rfl

@[simp] theorem store_length (p : Option Nat) (ptr : Slot) : (t.store p ptr).length = t.length := by cases ptr <;> rfl

@[simp] theorem store_elems (p : Option Nat) (ptr : Slot) : (t.store p ptr).elems = t.elems := by cases ptr <;> rfl

variable [DecidableEq K]

theorem Follows.remove (follows : Follows t l) (holds : Holds hash l t.entries members) (enough : l.elems < turns)
    (key : K) (code : UInt32) :
    ∃ t', t.remove turns key code = some ((l.remove t.entries key code).1,t') ∧
      t'.Follows (l.remove t.entries key code).2 ∧ t'.entries = t.entries ∧ t'.length = t.length ∧ t'.elems ≤ t.elems := by
  obtain ⟨before,rest,split,walked,loaded,found⟩ := follows.findPointer holds enough key code
  have chain := holds.chain_getElem code
  have distinct := holds.chain_nodup code
  simp only [split] at chain distinct
  cases rest with
  | nil =>
    have absent : l.lookup t.entries key code = none := found.symm
    refine ⟨t,?_,?_,rfl,rfl,UInt32.le_refl _⟩
    · simp [HandleTable.remove,Lru.HandleTable.remove,walked,loaded,absent]
    · simpa [Lru.HandleTable.remove,absent] using follows
  | cons e rest =>
    have present : l.lookup t.entries key code = some e := found.symm
    have inside : e ∈ l.list.flatten := (holds.mem e).mpr (holds.found present).2
    obtain ⟨h,alive⟩ := alive_of_mem holds inside
    have next : t.load (.nextHash e) = some (t.nextHash e) := by simp [load,alive]
    have some_left : 1 ≤ t.elems := by
      have positive := List.length_pos_of_mem inside
      simp only [← holds.count,← follows.elems] at positive
      exact UInt32.le_iff_toNat_le.mpr positive
    have absent : e ∉ before := fun inside => (List.nodup_append.mp distinct).2.2 e inside e List.mem_cons_self rfl
    have erased : (l.chain code).erase e = before ++ rest := by
      simp only [split,List.erase_append_right _ absent,List.erase_cons_head]
    have after : Trail t.nextHash (t.nextHash e) rest none := by
      obtain ⟨m,-,-,tail⟩ := Trail.append.mp (follows.chains.trail (follows.chains.found chain) chain)
      exact tail
    refine ⟨{ t.store (t.nextHash e) (slotAfter (.bucket (bucket l.list.length code)) before) with elems := t.elems - 1 },
      ?_,?_,store_entries ..,store_length ..,?_⟩
    · simp [HandleTable.remove,Lru.HandleTable.remove,walked,loaded,present,next]
    · simp only [Lru.HandleTable.remove,present,erased]
      constructor
      · simpa using follows.length
      · simp [UInt32.toNat_sub_of_le _ _ some_left,follows.elems]
      · apply splice follows.chains (same_bucket holds) chain distinct (fun _ _ _ => rfl) after
        intro x first second
        exact (List.nodup_append.mp distinct).2.2 x first x (List.mem_cons_of_mem e second) rfl
    · exact UInt32.le_iff_toNat_le.mpr (by simp [UInt32.toNat_sub_of_le _ _ some_left])

theorem map_unchanged {c : List Nat} {e old : Nat} (outside : ∀ x ∈ c, x ≠ old) :
    c.map (fun x => if x = old then e else x) = c :=
  (List.map_congr_left fun x member => if_neg (outside x member)).trans (List.map_id' c)

/-- The length is a power of two with room for the entries. -/
structure Sized (t : HandleTable K V D) : Prop where
  power : ∃ n, t.length.toNat = 2^n
  room : t.elems ≤ t.length

theorem Follows.insert_new (follows : Follows t l) (holds : Holds hash l t.entries members) (sized : t.Sized) {e : Nat}
    {h : LRUHandle K V D} (alive : t.entries e = some h) (hashed : h.hash = hash h.key)
    (absent : l.lookup t.entries h.key (hash h.key) = none) (few : l.elems + 1 < 2^31) (enough : 2^31 ≤ turns) :
    ∃ t', t.insert turns e = some ((l.insert t.entries e h.key (hash h.key)).1,t') ∧
      t'.Follows (l.insert t.entries e h.key (hash h.key)).2 ∧ t'.entries = t.entries ∧ t'.Sized := by
  obtain ⟨before,rest,split,walked,loaded,found⟩ := follows.findPointer holds (by omega : l.elems < turns) h.key (hash h.key)
  obtain rfl : rest = [] := List.head?_eq_none_iff.mp (found.trans absent)
  have chain := holds.chain_getElem (hash h.key)
  have distinct := holds.chain_nodup (hash h.key)
  simp only [split] at chain distinct
  have fresh : ¬members e := fun member => holds.lookup_none.mp absent e member h alive rfl
  have others : ∀ {j : Nat} {c x}, l.list[j]? = some c → x ∈ c → x ∉ ([] : List Nat) →
      Function.update t.nextHash e none x = t.nextHash x := by
    intro j c x there member _
    apply Function.update_of_ne
    rintro rfl
    exact fresh (member_of_chain holds there member)
  have tail : Trail (Function.update t.nextHash e none) (some e) [e] none := ⟨rfl,Function.update_self ..⟩
  have linked := splice follows.chains (same_bucket holds) chain distinct others tail (by
    intro x first second
    cases List.mem_singleton.mp second
    exact fresh (member_of_chain holds chain (List.mem_append_left _ first)))
  simp only [List.append_nil] at split
  have added := holds.append alive hashed fresh absent
  simp only [split] at added
  have more : (t.elems + 1).toNat = l.elems + 1 := by
    simp only [UInt32.toNat_add,follows.elems,UInt32.reduceToNat]
    omega
  let ptr := slotAfter (.bucket (bucket l.list.length (hash h.key))) before
  let t₁ := { (t.store none (.nextHash e)).store (some e) ptr with elems := t.elems + 1 }
  let l₁ : Lru.HandleTable := ⟨l.elems + 1,l.list.set (bucket l.list.length (hash h.key)) (before ++ [e])⟩
  have entries₁ : t₁.entries = t.entries := (store_entries ..).trans (store_entries ..)
  have length₁ : t₁.length = t.length := (store_length ..).trans (store_length ..)
  have follows₁ : Follows t₁ l₁ := by
    constructor
    · simpa [length₁,l₁] using follows.length
    · exact more
    · exact linked
  have result : t.insert turns e = if t₁.length < t₁.elems then (t₁.resize turns).map (none,·) else some (none,t₁) := by
    simp only [HandleTable.insert,alive,Option.bind_some,hashed,walked,loaded,List.head?_nil,Option.elim_none,if_true,
      store_elems]
    rfl
  have target : l.insert t.entries e h.key (hash h.key) =
      (none,if l₁.list.length < l₁.elems then l₁.resize t.entries else l₁) := by
    simp only [Lru.HandleTable.insert,absent,split]
    rfl
  have full : t₁.length < t₁.elems ↔ l₁.list.length < l₁.elems := by
    simp only [UInt32.lt_iff_toNat_lt,follows₁.length,follows₁.elems]
  simp only [result,target,full]
  split
  · have alive₁ : ∀ x ∈ l₁.list.flatten, ∃ entry, t₁.entries x = some entry := by
      intro x member
      simpa only [entries₁] using alive_of_mem added member
    obtain ⟨t₂,n,resized,follows₂,entries₂,power,-,room₂⟩ := follows₁.resize alive₁ added.nodup added.count few enough
    simp only [entries₁] at follows₂
    exact ⟨t₂,by simp [resized],follows₂,entries₂.trans entries₁,⟨n,power⟩,room₂⟩
  · rename_i fits
    refine ⟨t₁,rfl,follows₁,entries₁,?_,?_⟩
    · simpa only [length₁] using sized.power
    · exact UInt32.not_lt.mp (full.not.mpr fits)

theorem Follows.insert_old (follows : Follows t l) (holds : Holds hash l t.entries members) (sized : t.Sized) {e old : Nat}
    {h : LRUHandle K V D} (alive : t.entries e = some h) (hashed : h.hash = hash h.key)
    (present : l.lookup t.entries h.key (hash h.key) = some old) (enough : l.elems < turns) :
    ∃ t', t.insert turns e = some ((l.insert t.entries e h.key (hash h.key)).1,t') ∧
      t'.Follows (l.insert t.entries e h.key (hash h.key)).2 ∧ t'.entries = t.entries ∧ t'.Sized := by
  obtain ⟨before,rest,split,walked,loaded,found⟩ := follows.findPointer holds enough h.key (hash h.key)
  obtain ⟨rest,rfl⟩ : ∃ tail, rest = old :: tail := List.head?_eq_some_iff.mp (found.trans present)
  have chain := holds.chain_getElem (hash h.key)
  have distinct := holds.chain_nodup (hash h.key)
  simp only [split] at chain distinct
  have trail := follows.chains.trail (follows.chains.found chain) chain
  obtain ⟨oldEntry,there⟩ := alive_of_mem holds ((holds.mem old).mpr (holds.found present).2)
  have parts := List.nodup_append.mp distinct
  have own : members e → e = old := by
    intro member
    have again := holds.lookup_eq.mpr ⟨member,h,alive,rfl⟩
    exact Option.some.inj (again.symm.trans present)
  have others : ∀ {j : Nat} {c x}, l.list[j]? = some c → x ∈ c → x ∉ old :: rest →
      Function.update t.nextHash e (t.nextHash old) x = t.nextHash x := by
    intro j c x found member outside
    apply Function.update_of_ne
    rintro rfl
    exact outside (List.mem_cons.mpr (.inl (own (member_of_chain holds found member))))
  have absent : e ∉ before := by
    intro first
    cases own (member_of_chain holds chain (List.mem_append_left _ first))
    exact parts.2.2 e first e List.mem_cons_self rfl
  have behind : e ∉ rest := by
    intro last
    cases own (member_of_chain holds chain (List.mem_append_right _ (List.mem_cons_of_mem old last)))
    exact (List.nodup_cons.mp parts.2.1).1 last
  have tail : Trail (Function.update t.nextHash e (t.nextHash old)) (some e) (e :: rest) none := by
    obtain ⟨m,-,-,after⟩ := Trail.append.mp trail
    refine ⟨rfl,?_⟩
    simp only [Function.update_self]
    apply after.congr
    intro x member
    apply Function.update_of_ne
    rintro rfl
    exact behind member
  have linked := splice follows.chains (same_bucket holds) chain distinct others tail (by
    intro x first second
    rcases List.mem_cons.mp second with rfl | last
    · exact absent first
    · exact parts.2.2 x first x (List.mem_cons_of_mem old last) rfl)
  have left : ∀ x ∈ before, x ≠ old := fun x first same => parts.2.2 x first old List.mem_cons_self same
  have right : ∀ x ∈ rest, x ≠ old := fun x last same => (List.nodup_cons.mp parts.2.1).1 (same ▸ last)
  have renamed : (before ++ old :: rest).map (fun x => if x = old then e else x) = before ++ e :: rest := by
    simp only [List.map_append,List.map_cons,if_true,map_unchanged left,map_unchanged right]
  let ptr := slotAfter (.bucket (bucket l.list.length (hash h.key))) before
  refine ⟨(t.store (t.nextHash old) (.nextHash e)).store (some e) ptr,?_,?_,?_,?_,?_⟩
  · have next : t.load (.nextHash old) = some (t.nextHash old) := by simp [load,there]
    simp only [HandleTable.insert,alive,Option.bind_some,hashed,walked,loaded,List.head?_cons,Option.elim_some,next,
      reduceCtorEq,if_false,Lru.HandleTable.insert,present]
    rfl
  · simp only [Lru.HandleTable.insert,present,split,renamed]
    constructor
    · simpa using follows.length
    · simpa using follows.elems
    · exact linked
  · simp
  · simpa using sized.power
  · simpa using sized.room

theorem Follows.insert (follows : Follows t l) (holds : Holds hash l t.entries members) (sized : t.Sized) {e : Nat}
    {h : LRUHandle K V D} (alive : t.entries e = some h) (hashed : h.hash = hash h.key)
    (few : l.lookup t.entries h.key (hash h.key) = none → l.elems + 1 < 2^31) (enough : 2^31 ≤ turns) (small : l.elems < 2^31) :
    ∃ t', t.insert turns e = some ((l.insert t.entries e h.key (hash h.key)).1,t') ∧
      t'.Follows (l.insert t.entries e h.key (hash h.key)).2 ∧ t'.entries = t.entries ∧ t'.Sized := by
  cases found : l.lookup t.entries h.key (hash h.key) with
  | none => exact follows.insert_new holds sized alive hashed found (few found) enough
  | some old => exact follows.insert_old holds sized alive hashed found (by omega)

end Calls

end HandleTable

/-- A call, or a write of the caller to an entry: its fields, or that it is freed, and what
its link is then. -/
inductive Call (K V D : Type) where
  | write (e : Nat) (h : Option (LRUHandle K V D)) (next : Option Nat)
  | lookup (key : K)
  | insert (e : Nat)
  | remove (key : K)

section Map
variable [DecidableEq K]

/-- Every call gives the hash of its key. -/
def HandleTable.call (hash : K → UInt32) (turns : Nat) (t : HandleTable K V D) :
    Call K V D → Option (Option Nat × HandleTable K V D)
  | .write e h next =>
    some (none,{ t with entries := Function.update t.entries e h, nextHash := Function.update t.nextHash e next })
  | .lookup key => (t.lookup turns key (hash key)).map (·,t)
  | .insert e => t.insert turns e
  | .remove key => t.remove turns key (hash key)

def HandleTable.run (hash : K → UInt32) (turns : Nat) (t : HandleTable K V D) :
    List (Call K V D) → Option (List (Option Nat) × HandleTable K V D)
  | [] => some ([],t)
  | call :: calls => (t.call hash turns call).bind fun r =>
    (r.2.run hash turns calls).map fun s => (r.1 :: s.1,s.2)

/-- The finite map that the table is for, beside the entries in memory. -/
structure Ideal (K V D : Type) where
  entries : Heap K V D
  map : K → Option Nat

namespace Ideal

def call (s : Ideal K V D) : Call K V D → Option Nat × Ideal K V D
  | .write e h _ => (none,{ s with entries := Function.update s.entries e h })
  | .lookup key => (s.map key,s)
  | .insert e => match s.entries e with
    | none => (none,s)
    | some h => (s.map h.key,{ s with map := Function.update s.map h.key (some e) })
  | .remove key => (s.map key,{ s with map := Function.update s.map key none })

def run (s : Ideal K V D) : List (Call K V D) → List (Option Nat) × Ideal K V D
  | [] => ([],s)
  | call :: calls => (((s.call call).1 :: ((s.call call).2.run calls).1),((s.call call).2.run calls).2)

omit [DecidableEq K] in
/-- The number of entries. -/
noncomputable def size (s : Ideal K V D) : Nat := {key | s.map key ≠ none}.ncard

/-- The caller leaves the entries of the table alone, and an entry that is inserted has the
hash of its key. -/
def Allows (hash : K → UInt32) (s : Ideal K V D) : Call K V D → Prop
  | .write e _ _ => ∀ key, s.map key ≠ some e
  | .insert e => ∃ h, s.entries e = some h ∧ h.hash = hash h.key
  | .lookup _ => True
  | .remove _ => True

/-- The calls are allowed, and there are fewer than 2^31 entries all the time. -/
def Permits (hash : K → UInt32) (s : Ideal K V D) : List (Call K V D) → Prop
  | [] => True
  | call :: calls => s.Allows hash call ∧ (s.call call).2.size < 2^31 ∧ (s.call call).2.Permits hash calls

end Ideal

/-- The table is this map: every entry is on one chain, that of its hash. -/
structure Represents (hash : K → UInt32) (t : HandleTable K V D) (map : K → Option Nat) : Prop where
  power : ∃ n, t.length.toNat = 2^n
  room : t.elems ≤ t.length
  array : t.list.length = t.length.toNat
  finite : {key | map key ≠ none}.Finite
  elems : t.elems.toNat = {key | map key ≠ none}.ncard
  keys : ∀ key e, map key = some e → ∃ h, t.entries e = some h ∧ h.key = key
  chains : ∃ chains, Chains t.nextHash t.list chains ∧ chains.flatten.Nodup ∧
    (∀ key e, map key = some e → ∃ c, chains[(hash key &&& (t.length - 1)).toNat]? = some c ∧ e ∈ c) ∧
    ∀ i c e, chains[i]? = some c → e ∈ c → ∃ key, map key = some e ∧ i = (hash key &&& (t.length - 1)).toNat

/-- The map, the chains and the pointers at one time. -/
structure Related (hash : K → UInt32) (t : HandleTable K V D) (s : Ideal K V D) (l : Lru.HandleTable) : Prop where
  follows : t.Follows l
  holds : Lru.HandleTable.Holds hash l t.entries fun e => ∃ key, s.map key = some e
  entries : t.entries = s.entries
  keys : ∀ key e, s.map key = some e → ∃ h, t.entries e = some h ∧ h.key = key
  sized : t.Sized

namespace Related
open Lru.HandleTable (bucket hashOf hashOf_eq)
variable {hash : K → UInt32} {t : HandleTable K V D} {s : Ideal K V D} {l : Lru.HandleTable} {turns : Nat}

omit [DecidableEq K] in
theorem key_eq (related : Related hash t s l) {key : K} {e : Nat} {h : LRUHandle K V D} (here : s.map key = some e)
    (alive : t.entries e = some h) : h.key = key := by
  obtain ⟨h',alive',same⟩ := related.keys key e here
  cases alive.symm.trans alive'
  exact same

omit [DecidableEq K] in
theorem size (related : Related hash t s l) : {key | s.map key ≠ none}.Finite ∧ s.size = l.elems := by
  have whole : {key | s.map key ≠ none}.BijOn (fun key => (s.map key).getD 0) (l.list.flatten.toFinset : Set Nat) := by
    refine ⟨?_,?_,?_⟩
    · intro key present
      obtain ⟨e,here⟩ := Option.ne_none_iff_exists'.mp present
      simpa [here] using (related.holds.mem e).mpr ⟨key,here⟩
    · intro key present key' present' same
      obtain ⟨e,here⟩ := Option.ne_none_iff_exists'.mp present
      obtain ⟨e',here'⟩ := Option.ne_none_iff_exists'.mp present'
      simp only [here,here',Option.getD_some] at same
      subst same
      obtain ⟨h,alive,rfl⟩ := related.keys key e here
      exact related.key_eq here' alive
    · intro e member
      obtain ⟨key,here⟩ := (related.holds.mem e).mp (List.mem_toFinset.mp member)
      exact ⟨key,by simp [here],by simp [here]⟩
  refine ⟨whole.finite_iff_finite.mpr (Finset.finite_toSet _),?_⟩
  have counted := whole.injOn.ncard_image
  simp only [whole.image_eq,Set.ncard_coe_finset,List.toFinset_card_of_nodup related.holds.nodup,← related.holds.count] at counted
  exact counted.symm

theorem lookup (related : Related hash t s l) (key : K) : l.lookup t.entries key (hash key) = s.map key := by
  apply Option.ext
  intro e
  refine related.holds.lookup_eq.trans ⟨?_,?_⟩
  · rintro ⟨⟨key',here⟩,h,alive,rfl⟩
    simpa only [related.key_eq here alive] using here
  · intro here
    exact ⟨⟨key,here⟩,related.keys key e here⟩

omit [DecidableEq K] in
theorem new (hash : K → UInt32) (enough : 2^31 ≤ turns) (entries : Heap K V D) (nextHash : Nat → Option Nat) :
    ∃ t l, HandleTable.new turns entries nextHash = some t ∧ Related hash t (⟨entries,fun _ => none⟩ : Ideal K V D) l := by
  have follows : (⟨0,0,[],entries,nextHash⟩ : HandleTable K V D).Follows ⟨0,[]⟩ := by
    refine ⟨rfl,rfl,rfl,?_⟩
    intro i p c head
    cases head
  obtain ⟨t,n,made,follows,kept,power,-,room⟩ := follows.resize (by simp) List.nodup_nil rfl (by decide : 0 < 2^31) enough
  refine ⟨t,.empty,made,follows,?_,kept,?_,⟨n,power⟩,room⟩
  · constructor
    · exact Nat.lt_of_sub_eq_succ rfl
    · exact List.nodup_nil
    · rfl
    · simp [Lru.HandleTable.empty]
    · intro i c found e member
      cases List.eq_of_mem_replicate (List.mem_of_getElem? found)
      cases member
    · simp
    · simp
  · simp

/-- The entries that are in the map once a key leads to another one. -/
theorem mem_update (related : Related hash t s l) (key : K) (p : Option Nat) (fresh : ∀ e, p = some e → ∀ key', s.map key' ≠ some e)
    (e : Nat) : (∃ key', Function.update s.map key p key' = some e) ↔
      p = some e ∨ (∃ key', s.map key' = some e) ∧ l.lookup t.entries key (hash key) ≠ some e := by
  simp only [related.lookup]
  constructor
  · rintro ⟨key',here⟩
    by_cases same : key' = key
    · subst same
      simp only [Function.update_self] at here
      exact .inl here
    · simp only [Function.update_of_ne same] at here
      refine .inr ⟨⟨key',here⟩,?_⟩
      intro there
      obtain ⟨h,alive,rfl⟩ := related.keys key' e here
      exact same (related.key_eq there alive)
  · rintro (rfl | ⟨⟨key',here⟩,other⟩)
    · exact ⟨key,Function.update_self ..⟩
    · have apart : key' ≠ key := by
        rintro rfl
        exact other here
      exact ⟨key',(Function.update_of_ne apart ..).trans here⟩

theorem keys_update (related : Related hash t s l) {entries : Heap K V D} (kept : entries = t.entries) {key : K} {p : Option Nat}
    (own : ∀ e, p = some e → ∃ h, t.entries e = some h ∧ h.key = key) (key' : K) (e : Nat)
    (here : Function.update s.map key p key' = some e) : ∃ h, entries e = some h ∧ h.key = key' := by
  subst kept
  by_cases same : key' = key
  · subst same
    simp only [Function.update_self] at here
    exact own e here
  · simp only [Function.update_of_ne same] at here
    exact related.keys key' e here

/-- What one call does. -/
theorem call (related : Related hash t s l) (call : Call K V D) (allowed : s.Allows hash call) (enough : 2^31 ≤ turns)
    (small : s.size < 2^31) (small' : (s.call call).2.size < 2^31) :
    ∃ t' l', t.call hash turns call = some ((s.call call).1,t') ∧ Related hash t' (s.call call).2 l' := by
  obtain ⟨finite,count⟩ := related.size
  have short : l.elems < turns := by omega
  cases call with
  | write e h next =>
    have other : ∀ x, (∃ key, s.map key = some x) → x ≠ e := by
      rintro x ⟨key,here⟩ rfl
      exact allowed key here
    refine ⟨_,l,rfl,⟨related.follows.length,related.follows.elems,?_⟩,?_,?_,?_,related.sized.power,related.sized.room⟩
    · apply related.follows.chains.congr
      intro x member
      exact Function.update_of_ne (other x ((related.holds.mem x).mp member)) ..
    · apply related.holds.frame
      intro x member h' alive
      exact ⟨h',(Function.update_of_ne (other x member) ..).trans alive,rfl,rfl⟩
    · simp only [Ideal.call,related.entries]
    · intro key x here
      obtain ⟨h',alive,same⟩ := related.keys key x here
      exact ⟨h',(Function.update_of_ne (other x ⟨key,here⟩) ..).trans alive,same⟩
  | lookup key =>
    have found := related.follows.lookup related.holds short key (hash key)
    exact ⟨t,l,by simp [HandleTable.call,found,related.lookup,Ideal.call],related⟩
  | insert e =>
    obtain ⟨h,alive,hashed⟩ := allowed
    have result : s.call (.insert e) = (s.map h.key,{ s with map := Function.update s.map h.key (some e) }) := by
      simp only [Ideal.call,alive]
    have alive' : t.entries e = some h := (congrFun related.entries e).trans alive
    have few : l.lookup t.entries h.key (hash h.key) = none → l.elems + 1 < 2^31 := by
      intro absent
      simp only [related.lookup] at absent
      have more : {key | Function.update s.map h.key (some e) key ≠ none} = insert h.key {key | s.map key ≠ none} := by
        ext key
        by_cases same : key = h.key <;> simp [same]
      have size : (s.call (.insert e)).2.size = s.size + 1 := by
        simp only [result,Ideal.size,more]
        exact Set.ncard_insert_of_notMem (by simp [absent]) finite
      omega
    obtain ⟨t',inserted,follows,kept,sized⟩ := related.follows.insert related.holds related.sized alive' hashed few enough (by omega)
    have old : (l.insert t.entries e h.key (hash h.key)).1 = s.map h.key :=
      (Lru.HandleTable.insert_fst ..).trans (related.lookup h.key)
    simp only [result]
    refine ⟨t',_,inserted.trans (by simp only [old]),follows,?_,kept.trans related.entries,?_,sized⟩
    · simp only [kept]
      by_cases member : ∃ key, s.map key = some e
      · have own : s.map h.key = some e := by
          obtain ⟨key,here⟩ := member
          simpa only [related.key_eq here alive'] using here
        have same : Function.update s.map h.key (some e) = s.map := by simp [← own]
        simp only [related.holds.insert_again alive' ⟨h.key,own⟩,same]
        exact related.holds
      · apply (related.holds.insert alive' hashed member).congr
        intro x
        have fresh : ∀ x, some e = some x → ∀ key, s.map key ≠ some x := by
          rintro x ⟨⟩ key here
          exact member ⟨key,here⟩
        apply Iff.trans _ (related.mem_update h.key (some e) fresh x).symm
        simp only [Option.some.injEq,eq_comm (a := x)]
    · exact related.keys_update kept (by
        rintro x ⟨⟩
        exact ⟨h,alive',rfl⟩)
  | remove key =>
    obtain ⟨t',removed,follows,kept,length,fewer⟩ := related.follows.remove related.holds short key (hash key)
    have result : (l.remove t.entries key (hash key)).1 = s.map key := (Lru.HandleTable.remove_fst ..).trans (related.lookup key)
    refine ⟨t',_,removed.trans (by simp only [result,Ideal.call]),follows,?_,kept.trans related.entries,?_,?_,?_⟩
    · simp only [kept]
      apply related.holds.remove.congr
      intro x
      simp [Ideal.call,related.mem_update key none]
    · exact related.keys_update kept (by
        rintro x ⟨⟩)
    · simpa only [length] using related.sized.power
    · simpa only [length] using UInt32.le_trans fewer related.sized.room

/-- What a whole run does. -/
theorem run (enough : 2^31 ≤ turns) : ∀ {calls : List (Call K V D)} {t s l}, Related hash t s l → s.size < 2^31 →
    s.Permits hash calls → ∃ t' l', t.run hash turns calls = some ((s.run calls).1,t') ∧ Related hash t' (s.run calls).2 l' := by
  intro calls
  induction calls with
  | nil =>
    intro t s l related _ _
    exact ⟨t,l,rfl,related⟩
  | cons call calls ih =>
    intro t s l related small permitted
    obtain ⟨allowed,small',permitted⟩ := permitted
    obtain ⟨t₁,l₁,called,related₁⟩ := related.call call allowed enough small small'
    obtain ⟨t₂,l₂,rest,related₂⟩ := ih related₁ small' permitted
    exact ⟨t₂,l₂,by simp [HandleTable.run,called,rest,Ideal.run],related₂⟩

omit [DecidableEq K] in
theorem represents (related : Related hash t s l) : Represents hash t s.map := by
  obtain ⟨finite,count⟩ := related.size
  have size := related.follows.chains.length
  have filled : 0 < t.length.toNat := by simpa only [related.follows.length] using related.holds.filled
  have index : ∀ key e, s.map key = some e →
      (hash key &&& (t.length - 1)).toNat = bucket l.list.length (hashOf t.entries e) := by
    intro key e here
    obtain ⟨h,alive,hashed⟩ := related.holds.held e ⟨key,here⟩
    have same := related.key_eq here alive
    exact (HandleTable.bucketOf_eq filled (hash key)).trans (by simp only [hashOf_eq alive,hashed,same,related.follows.length])
  refine ⟨related.sized.power,related.sized.room,size.trans related.follows.length.symm,finite,related.follows.elems.trans count.symm,
    related.keys,l.list,related.follows.chains,related.holds.nodup,?_,?_⟩
  · intro key e here
    simp only [index key e here]
    exact ⟨_,related.holds.chain_getElem _,(related.holds.mem_chain _).mpr ⟨⟨key,here⟩,rfl⟩⟩
  · intro i c e found member
    obtain ⟨key,here⟩ := (related.holds.mem e).mp (List.mem_flatten.mpr ⟨c,List.mem_of_getElem? found,member⟩)
    exact ⟨key,here,(related.holds.place i c found e member).symm.trans (index key e here).symm⟩

end Related

/-- Every sequence of calls is answered as by the finite map, which the table is afterwards. -/
theorem handle_table (hash : K → UInt32) {turns : Nat} (enough : 2^31 ≤ turns) (entries : Heap K V D)
    (nextHash : Nat → Option Nat) (calls : List (Call K V D))
    (permitted : Ideal.Permits hash ⟨entries,fun _ => none⟩ calls) :
    ∃ t, ((HandleTable.new turns entries nextHash).bind fun t => t.run hash turns calls) =
        some ((Ideal.run ⟨entries,fun _ => none⟩ calls).1,t) ∧
      Represents hash t (Ideal.run ⟨entries,fun _ => none⟩ calls).2.map := by
  obtain ⟨t,l,made,related⟩ := Related.new hash enough entries nextHash
  have none_yet : (⟨entries,fun _ => none⟩ : Ideal K V D).size < 2^31 := by simp [Ideal.size]
  obtain ⟨t',l',ran,related'⟩ := related.run enough none_yet permitted
  exact ⟨t',by simp only [made,Option.bind_some,ran],related'.represents⟩

end Map

section Sample

def sampleHash (key : String) : UInt32 := UInt32.ofNat key.length

def sampleEntry (key : String) : LRUHandle String Nat Nat := ⟨0,0,1,key,true,2,sampleHash key⟩

/-- Two keys of one hash, of which the first is inserted again and the second removed. -/
def sampleCalls : List (Call String Nat Nat) :=
  [.write 5 (some (sampleEntry "a")) none,.insert 5,.write 7 (some (sampleEntry "b")) (some 3),.insert 7,
    .write 6 (some (sampleEntry "a")) none,.insert 6,.lookup "a",.remove "b",.lookup "b"]

theorem sample_size {map : String → Option Nat} (own : ∀ key, map key ≠ none → key ∈ ({"a","b"} : Finset String)) :
    {key | map key ≠ none}.ncard < 2^31 := by
  have less := Set.ncard_le_ncard (fun key present => own key present : {key | map key ≠ none} ⊆ ({"a","b"} : Finset String))
    (Finset.finite_toSet _)
  have two : ({"a","b"} : Finset String).card = 2 := by decide
  simp only [Set.ncard_coe_finset,two] at less
  omega

theorem handle_table_sample : ∃ t, ((HandleTable.new (2^31) (fun _ => none) fun _ => none).bind fun t =>
      t.run sampleHash (2^31) sampleCalls) = some ([none,none,none,none,none,some 5,some 6,some 7,none],t) ∧
      Represents sampleHash t (Ideal.run ⟨fun _ => none,fun _ => none⟩ sampleCalls).2.map := by
  apply handle_table sampleHash (le_refl _) (fun _ => none) (fun _ => none) sampleCalls
  have none_key : ∀ key, (none : Option Nat) ≠ none → key ∈ ({"a","b"} : Finset String) := fun _ absurd => (absurd rfl).elim
  have own : ∀ {map : String → Option Nat} {k : String} {p : Option Nat}, k ∈ ({"a","b"} : Finset String) →
      (∀ key, map key ≠ none → key ∈ ({"a","b"} : Finset String)) →
      ∀ key, Function.update map k p key ≠ none → key ∈ ({"a","b"} : Finset String) := by
    intro map k p member own key present
    by_cases same : key = k
    · exact same ▸ member
    · exact own key (by simpa only [Function.update_of_ne same] using present)
  have free : ∀ {map : String → Option Nat} {k : String} {p : Option Nat} {e : Nat}, p ≠ some e →
      (∀ key, map key ≠ some e) → ∀ key, Function.update map k p key ≠ some e := by
    intro map k p e other free key
    by_cases same : key = k
    · simpa only [same,Function.update_self] using other
    · simpa only [Function.update_of_ne same] using free key
  have first := own (k := "a") (p := some 5) (by decide) none_key
  have second := own (k := "b") (p := some 7) (by decide) first
  have third := own (k := "a") (p := some 6) (by decide) second
  have last := own (k := "b") (p := none) (by decide) third
  have free₁ : ∀ {e : Nat} (key : String), (fun _ => (none : Option Nat)) key ≠ some e := fun _ => nofun
  have free₂ := free (k := "a") (p := some 5) (e := 7) (by decide) free₁
  have free₃ := free (k := "b") (p := some 7) (e := 6) (by decide) (free (k := "a") (p := some 5) (by decide) free₁)
  exact ⟨free₁,sample_size none_key,⟨_,rfl,rfl⟩,sample_size first,free₂,sample_size first,⟨_,rfl,rfl⟩,sample_size second,
    free₃,sample_size second,⟨_,rfl,rfl⟩,sample_size third,trivial,sample_size third,trivial,sample_size last,trivial,
    sample_size last,trivial⟩

end Sample

end LevelDB.Lru.Chained
