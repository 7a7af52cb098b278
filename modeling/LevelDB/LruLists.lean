import LevelDB.LruCache
import Mathlib.Algebra.BigOperators.Group.List.Basic
import Mathlib.Algebra.GroupWithZero.Nat

/-! The lists, the reference counts and the usage of a cache shard: what each change of an
entry does to them. -/
namespace LevelDB.Lru
open Function (update update_self update_of_ne)

variable {K V D : Type}

namespace LRUCache
variable {c c' : LRUCache K V D} {lru inUse : List Nat} {owed : Nat → Nat} {e : Nat} {h : LRUHandle K V D}

def Cached (c : LRUCache K V D) (e : Nat) : Prop := ∃ h, c.entries e = some h ∧ h.inCache = true

def chargeOf (c : LRUCache K V D) (e : Nat) : Nat := ((c.entries e).map (·.charge.toNat)).getD 0

/-- The two lists and the reference counts. `owed` counts the references that are not the
cache's. -/
structure Body (c : LRUCache K V D) (lru inUse : List Nat) (owed : Nat → Nat) : Prop where
  lruRing : c.links.Ring lruHead lru
  inUseRing : c.links.Ring inUseHead inUse
  alive : ∀ e h, c.entries e = some h → 2 ≤ e ∧ e < c.fresh ∧ 0 < h.refs.toNat ∧ h.refs.toNat = owed e + h.inCache.toNat
  gone : ∀ e, c.entries e = none → owed e = 0
  onLru : ∀ e, e ∈ lru ↔ c.Cached e ∧ owed e = 0
  onInUse : ∀ e, e ∈ inUse ↔ c.Cached e ∧ 0 < owed e
  usage : c.usage.toNat = ((lru ++ inUse).map c.chargeOf).sum % 2^64
  off : c.capacity = 0 → ∀ e, ¬c.Cached e

theorem Body.cached (body : c.Body lru inUse owed) : ∀ e, c.Cached e ↔ e ∈ lru ∨ e ∈ inUse := by
  intro e
  rw [body.onLru,body.onInUse,← and_or_left]
  exact ⟨fun cached => ⟨cached,Nat.eq_zero_or_pos _⟩,fun cached => cached.1⟩

theorem Body.real (body : c.Body lru inUse owed) (cached : c.Cached e) : 2 ≤ e ∧ e < c.fresh := by
  obtain ⟨h,alive,-⟩ := cached
  exact ⟨(body.alive e h alive).1,(body.alive e h alive).2.1⟩

theorem Body.apart (body : c.Body lru inUse owed) : ∀ e ∈ inUseHead :: inUse, e ∉ lruHead :: lru := by
  intro e member other
  have low : ∀ x ∈ lru ++ inUse, 2 ≤ x := by
    intro x inside
    exact (body.real ((body.cached x).mpr (List.mem_append.mp inside))).1
  rcases List.mem_cons.mp member with rfl | member <;> rcases List.mem_cons.mp other with same | other
  · cases same
  · exact absurd (low 1 (List.mem_append_left _ other)) (by decide)
  · subst same
    exact absurd (low 0 (List.mem_append_right _ member)) (by decide)
  · have first := ((body.onInUse e).mp member).2
    have second := ((body.onLru e).mp other).2
    omega

theorem Body.apart' (body : c.Body lru inUse owed) : ∀ e ∈ lruHead :: lru, e ∉ inUseHead :: inUse :=
  fun e member other => body.apart e other member

/-- An entry that is on no list. -/
theorem Body.outside (body : c.Body lru inUse owed) (real : 2 ≤ e) (loose : ¬c.Cached e) :
    e ∉ lruHead :: lru ∧ e ∉ inUseHead :: inUse := by
  have away := (body.cached e).not.mp loose
  rw [not_or] at away
  constructor
  · intro inside
    rcases List.mem_cons.mp inside with rfl | inside
    · exact absurd real (by decide)
    · exact away.1 inside
  · intro inside
    rcases List.mem_cons.mp inside with rfl | inside
    · exact absurd real (by decide)
    · exact away.2 inside

theorem setEntry_other {x : Nat} (other : x ≠ e) {h : Option (LRUHandle K V D)} : (c.setEntry e h).entries x = c.entries x :=
  update_of_ne other _ _

theorem setEntry_same {h : Option (LRUHandle K V D)} : (c.setEntry e h).entries e = h := update_self _ _ _

theorem chargeOf_eq (alive : c.entries e = some h) : c.chargeOf e = h.charge.toNat := by
  rw [chargeOf,alive]
  rfl

/-- The charge of an entry stays as it is when its references change. -/
theorem chargeOf_moved (c : LRUCache K V D) {links : Links Nat} {refs : UInt32} (found : c.entries e = some h) (x : Nat) :
    chargeOf { c.setEntry e (some { h with refs }) with links } x = c.chargeOf x := by
  by_cases same : x = e
  · subst same
    rw [chargeOf_eq (update_self _ _ _),chargeOf_eq found]
  · rw [chargeOf,chargeOf]
    exact congrArg (fun h => (Option.map _ h).getD 0) (update_of_ne same _ _)

/-- One entry changes, and with it its place on the lists. -/
theorem Body.change (body : c.Body lru inUse owed) {lru' inUse' : List Nat} {n : Nat} {h' : Option (LRUHandle K V D)}
    (entries : c'.entries = update c.entries e h') (capacity : c'.capacity = c.capacity) (fresh : c.fresh ≤ c'.fresh)
    (lruRing : c'.links.Ring lruHead lru') (inUseRing : c'.links.Ring inUseHead inUse')
    (alive : ∀ h, h' = some h → 2 ≤ e ∧ e < c'.fresh ∧ 0 < h.refs.toNat ∧ h.refs.toNat = n + h.inCache.toNat)
    (gone : h' = none → n = 0) (others : ∀ x, x ≠ e → ((x ∈ lru' ↔ x ∈ lru) ∧ (x ∈ inUse' ↔ x ∈ inUse)))
    (onLru : e ∈ lru' ↔ (∃ h, h' = some h ∧ h.inCache = true) ∧ n = 0)
    (onInUse : e ∈ inUse' ↔ (∃ h, h' = some h ∧ h.inCache = true) ∧ 0 < n)
    (usage : c'.usage.toNat = ((lru' ++ inUse').map c'.chargeOf).sum % 2^64)
    (off : c.capacity = 0 → ∀ h, h' = some h → h.inCache = false) : c'.Body lru' inUse' (update owed e n) := by
  have here : c'.entries e = h' := by rw [entries,update_self]
  have there : ∀ x, x ≠ e → c'.entries x = c.entries x := fun x other => by rw [entries,update_of_ne other]
  have cached : ∀ x, x ≠ e → (c'.Cached x ↔ c.Cached x) := fun x other => by rw [Cached,Cached,there x other]
  have cached' : c'.Cached e ↔ ∃ h, h' = some h ∧ h.inCache = true := by rw [Cached,here]
  refine ⟨lruRing,inUseRing,?_,?_,?_,?_,usage,?_⟩
  · intro x h found
    by_cases same : x = e
    · subst same
      rw [update_self]
      exact alive h (here.symm.trans found)
    · rw [there x same] at found
      rw [update_of_ne same]
      obtain ⟨low,high,rest⟩ := body.alive x h found
      exact ⟨low,Nat.lt_of_lt_of_le high fresh,rest⟩
  · intro x none
    by_cases same : x = e
    · subst same
      rw [update_self]
      exact gone (here.symm.trans none)
    · rw [there x same] at none
      rw [update_of_ne same]
      exact body.gone x none
  · intro x
    by_cases same : x = e
    · subst same
      rw [update_self,cached',onLru]
    · rw [update_of_ne same,cached x same,(others x same).1,body.onLru]
  · intro x
    by_cases same : x = e
    · subst same
      rw [update_self,cached',onInUse]
    · rw [update_of_ne same,cached x same,(others x same).2,body.onInUse]
  · intro zero x
    by_cases same : x = e
    · subst same
      rw [cached']
      rintro ⟨h,found,inside⟩
      exact absurd inside (by simp [off (capacity ▸ zero) h found])
    · rw [cached x same]
      exact body.off (capacity ▸ zero) x

/-- The usage does not depend on where the entries are. -/
theorem Body.usage_perm (body : c.Body lru inUse owed) {lru' inUse' : List Nat} (same : c'.usage = c.usage)
    (perm : (lru' ++ inUse').Perm (lru ++ inUse)) (charges : ∀ x ∈ lru ++ inUse, c'.chargeOf x = c.chargeOf x) :
    c'.usage.toNat = ((lru' ++ inUse').map c'.chargeOf).sum % 2^64 := by
  rw [same,body.usage,(perm.map c'.chargeOf).sum_eq,List.map_congr_left charges]

section Moves
variable (body : c.Body lru inUse owed) (found : c.entries e = some h)
include body found

/-- The last reference to an entry outside the cache goes. -/
theorem Body.free (loose : h.inCache = false) : (c.setEntry e none).Body lru inUse (update owed e 0) := by
  have outside : ¬c.Cached e := by
    rintro ⟨h',alive,inside⟩
    cases found.symm.trans alive
    exact absurd inside (by simp [loose])
  have away := (body.cached e).not.mp outside
  refine body.change rfl rfl (Nat.le_refl _) body.lruRing body.inUseRing ?_ (fun _ => rfl)
    (fun x _ => ⟨Iff.rfl,Iff.rfl⟩) ?_ ?_ ?_ ?_
  · rintro h ⟨⟩
  · simpa using fun inside => away (.inl inside)
  · simpa using fun inside => away (.inr inside)
  · refine body.usage_perm rfl (List.Perm.refl _) fun x inside => ?_
    have other : x ≠ e := fun same => away (List.mem_append.mp (same ▸ inside))
    rw [chargeOf,chargeOf,setEntry_other other]
  · rintro - h ⟨⟩

/-- A reference comes or goes, and the entry stays where it is. -/
theorem Body.count {n : Nat} {refs : UInt32} (kept : n = 0 ↔ owed e = 0) (positive : 0 < refs.toNat)
    (refs' : refs.toNat = n + h.inCache.toNat) :
    (c.setEntry e (some { h with refs })).Body lru inUse (update owed e n) := by
  obtain ⟨low,high,-⟩ := body.alive e h found
  have cached : (∃ h', some { h with refs } = some h' ∧ h'.inCache = true) ↔ c.Cached e := by
    rw [Cached,found]
    simp
  refine body.change rfl rfl (Nat.le_refl _) body.lruRing body.inUseRing ?_ ?_ (fun x _ => ⟨Iff.rfl,Iff.rfl⟩) ?_ ?_ ?_ ?_
  · rintro h' ⟨⟩
    exact ⟨low,high,positive,refs'⟩
  · rintro ⟨⟩
  · rw [body.onLru,cached,kept]
  · rw [body.onInUse,cached,Nat.pos_iff_ne_zero,Nat.pos_iff_ne_zero,ne_eq,ne_eq,kept]
  · exact body.usage_perm rfl (List.Perm.refl _) fun x _ => c.chargeOf_moved found x
  · intro zero h' same
    cases same
    exact Bool.eq_false_iff.mpr fun inside => body.off zero e ⟨h,found,inside⟩

/-- An entry loses its only other reference and goes to `lru_`. -/
theorem Body.park (inside : h.inCache = true) (one : owed e = 1) {refs : UInt32} (refs' : refs.toNat = 1) :
    ({ c.setEntry e (some { h with refs }) with links := (c.links.remove e).append lruHead e } : LRUCache K V D).Body
      (lru ++ [e]) (inUse.erase e) (update owed e 0) := by
  have cached : c.Cached e := ⟨h,found,inside⟩
  have member : e ∈ inUse := (body.onInUse e).mpr ⟨cached,by omega⟩
  obtain ⟨low,high,-⟩ := body.alive e h found
  obtain ⟨right,left⟩ := body.inUseRing.move body.lruRing member body.apart
  have distinct : inUse.Nodup := (List.nodup_cons.mp body.inUseRing.nodup).2
  refine body.change rfl rfl (Nat.le_refl _) left right ?_ ?_ ?_ ?_ ?_ ?_ ?_
  · rintro h' ⟨⟩
    exact ⟨low,high,by simp [refs'],by simp [refs',inside]⟩
  · rintro ⟨⟩
  · intro x other
    simp only [List.mem_append,List.mem_singleton,other,or_false,distinct.mem_erase_iff,ne_eq,not_false_eq_true,
      true_and,and_self]
  · simp [inside]
  · simp [distinct.mem_erase_iff]
  · refine body.usage_perm rfl ?_ fun x _ => c.chargeOf_moved found x
    rw [List.append_assoc]
    exact (List.perm_cons_erase member).symm.append_left lru
  · intro zero
    exact absurd cached (body.off zero e)

/-- An entry of `lru_` gets a reference. -/
theorem Body.take (inside : h.inCache = true) (zero : owed e = 0) {refs : UInt32} (refs' : refs.toNat = 2) :
    ({ c.setEntry e (some { h with refs }) with links := (c.links.remove e).append inUseHead e } : LRUCache K V D).Body
      (lru.erase e) (inUse ++ [e]) (update owed e 1) := by
  have cached : c.Cached e := ⟨h,found,inside⟩
  have member : e ∈ lru := (body.onLru e).mpr ⟨cached,zero⟩
  obtain ⟨low,high,-⟩ := body.alive e h found
  obtain ⟨left,right⟩ := body.lruRing.move body.inUseRing member body.apart'
  have distinct : lru.Nodup := (List.nodup_cons.mp body.lruRing.nodup).2
  refine body.change rfl rfl (Nat.le_refl _) left right ?_ ?_ ?_ ?_ ?_ ?_ ?_
  · rintro h' ⟨⟩
    exact ⟨low,high,by simp [refs'],by simp [refs',inside]⟩
  · rintro ⟨⟩
  · intro x other
    simp only [List.mem_append,List.mem_singleton,other,or_false,distinct.mem_erase_iff,ne_eq,not_false_eq_true,
      true_and,and_self]
  · simp [distinct.mem_erase_iff]
  · simp [inside]
  · refine body.usage_perm rfl ?_ fun x _ => c.chargeOf_moved found x
    have swap : (lru.erase e ++ (inUse ++ [e])).Perm (e :: lru.erase e ++ inUse) := by
      rw [← List.append_assoc]
      exact List.perm_append_singleton e _
    exact swap.trans ((List.perm_cons_erase member).symm.append_right inUse)
  · intro zero
    exact absurd cached (body.off zero e)

/-- An entry leaves the cache; the reference of the cache is owed now. -/
theorem Body.uncache (inside : h.inCache = true) :
    (setEntry { c with links := c.links.remove e, usage := c.usage - h.charge } e (some { h with inCache := false })).Body
      (lru.erase e) (inUse.erase e) (update owed e (owed e + 1)) := by
  have cached : c.Cached e := ⟨h,found,inside⟩
  obtain ⟨low,high,positive,refs⟩ := body.alive e h found
  have distinct : lru.Nodup := (List.nodup_cons.mp body.lruRing.nodup).2
  have distinct' : inUse.Nodup := (List.nodup_cons.mp body.inUseRing.nodup).2
  have whole : ((lru ++ inUse).map c.chargeOf).sum =
      h.charge.toNat + ((lru.erase e ++ inUse.erase e).map c.chargeOf).sum := by
    have split : (lru ++ inUse).Perm (e :: (lru.erase e ++ inUse.erase e)) := by
      rcases (body.cached e).mp cached with member | member
      · have absent : e ∉ inUse := fun other => body.apart' e (List.mem_cons_of_mem _ member) (List.mem_cons_of_mem _ other)
        rw [List.erase_of_not_mem absent]
        exact (List.perm_cons_erase member).append_right inUse
      · have absent : e ∉ lru := fun other => body.apart' e (List.mem_cons_of_mem _ other) (List.mem_cons_of_mem _ member)
        rw [List.erase_of_not_mem absent]
        exact ((List.perm_cons_erase member).append_left lru).trans List.perm_middle
    rw [(split.map c.chargeOf).sum_eq,List.map_cons,List.sum_cons,chargeOf_eq found]
  have rings : (c.links.remove e).Ring lruHead (lru.erase e) ∧ (c.links.remove e).Ring inUseHead (inUse.erase e) := by
    rcases (body.cached e).mp cached with member | member
    · have absent : e ∉ inUse := fun other => body.apart' e (List.mem_cons_of_mem _ member) (List.mem_cons_of_mem _ other)
      rw [List.erase_of_not_mem absent]
      exact ⟨body.lruRing.remove member,body.inUseRing.remove_other body.lruRing member body.apart'⟩
    · have absent : e ∉ lru := fun other => body.apart' e (List.mem_cons_of_mem _ other) (List.mem_cons_of_mem _ member)
      rw [List.erase_of_not_mem absent]
      exact ⟨body.lruRing.remove_other body.inUseRing member body.apart,body.inUseRing.remove member⟩
  refine body.change rfl rfl (Nat.le_refl _) rings.1 rings.2 ?_ ?_ ?_ ?_ ?_ ?_ ?_
  · rintro h' ⟨⟩
    exact ⟨low,high,positive,by simpa [inside] using refs⟩
  · rintro ⟨⟩
  · intro x other
    simp only [distinct.mem_erase_iff,distinct'.mem_erase_iff,ne_eq,other,not_false_eq_true,true_and,and_self]
  · simp [distinct.mem_erase_iff]
  · simp [distinct'.mem_erase_iff]
  · have charges : (lru.erase e ++ inUse.erase e).map (setEntry { c with links := c.links.remove e, usage := c.usage - h.charge } e
        (some { h with inCache := false })).chargeOf = (lru.erase e ++ inUse.erase e).map c.chargeOf := by
      refine List.map_congr_left fun x member => ?_
      have other : x ≠ e := by
        rcases List.mem_append.mp member with member | member
        · exact (distinct.mem_erase_iff.mp member).1
        · exact (distinct'.mem_erase_iff.mp member).1
      rw [chargeOf,chargeOf,setEntry_other other]
    have usage := body.usage
    rw [whole] at usage
    have small := h.charge.toNat_lt
    rw [charges]
    show (c.usage - h.charge).toNat = _
    rw [UInt64.toNat_sub]
    omega
  · rintro - h' ⟨⟩
    rfl

end Moves

theorem Body.congr (body : c.Body lru inUse owed) (links : c'.links = c.links) (entries : c'.entries = c.entries)
    (usage : c'.usage = c.usage) (capacity : c'.capacity = c.capacity) (fresh : c'.fresh = c.fresh) :
    c'.Body lru inUse owed := by
  have cached : ∀ e, c'.Cached e ↔ c.Cached e := fun e => by rw [Cached,Cached,entries]
  have charges : c'.chargeOf = c.chargeOf := funext fun e => by rw [chargeOf,chargeOf,entries]
  refine ⟨links ▸ body.lruRing,links ▸ body.inUseRing,?_,?_,?_,?_,?_,?_⟩
  · rw [entries,fresh]
    exact body.alive
  · rw [entries]
    exact body.gone
  · simpa only [cached] using body.onLru
  · simpa only [cached] using body.onInUse
  · rw [usage,charges]
    exact body.usage
  · simpa only [cached,capacity] using body.off

/-- A new entry that is not cached. -/
theorem Body.alloc (body : c.Body lru inUse owed) (low : 2 ≤ c.fresh) (refs : h.refs.toNat = 1) (loose : h.inCache = false) :
    (setEntry { c with fresh := c.fresh + 1 } c.fresh (some h)).Body lru inUse (update owed c.fresh 1) := by
  have outside : ¬c.Cached c.fresh := fun cached => Nat.lt_irrefl _ (body.real cached).2
  have away := (body.cached c.fresh).not.mp outside
  refine body.change rfl rfl (Nat.le_succ _) body.lruRing body.inUseRing ?_ ?_ (fun x _ => ⟨Iff.rfl,Iff.rfl⟩) ?_ ?_ ?_ ?_
  · rintro h' ⟨⟩
    exact ⟨low,Nat.lt_succ_self _,by simp [refs],by simp [refs,loose]⟩
  · rintro ⟨⟩
  · simpa using fun inside => away (.inl inside)
  · simpa [loose] using fun inside => away (.inr inside)
  · refine body.usage_perm rfl (List.Perm.refl _) fun x inside => ?_
    have other : x ≠ c.fresh := fun same => away (List.mem_append.mp (same ▸ inside))
    rw [chargeOf,chargeOf,setEntry_other other]
  · rintro - h' ⟨⟩
    exact loose

/-- A new entry in the cache, with its handle. -/
theorem Body.add (body : c.Body lru inUse owed) (low : 2 ≤ c.fresh) (caching : c.capacity ≠ 0) (refs : h.refs.toNat = 2)
    (inside : h.inCache = true) (entries : c'.entries = update c.entries c.fresh (some h))
    (links : c'.links = c.links.append inUseHead c.fresh) (usage : c'.usage = c.usage + h.charge)
    (capacity : c'.capacity = c.capacity) (fresh : c'.fresh = c.fresh + 1) :
    c'.Body lru (inUse ++ [c.fresh]) (update owed c.fresh 1) := by
  have outside : ¬c.Cached c.fresh := fun cached => Nat.lt_irrefl _ (body.real cached).2
  have away := (body.cached c.fresh).not.mp outside
  obtain ⟨left,right⟩ := body.outside low outside
  refine body.change entries capacity (by omega) ?_ ?_ ?_ ?_ ?_ ?_ ?_ ?_ ?_
  · exact links ▸ body.lruRing.append_other body.inUseRing left body.apart
  · exact links ▸ body.inUseRing.append right
  · rintro h' ⟨⟩
    exact ⟨low,by omega,by simp [refs],by simp [refs,inside]⟩
  · rintro ⟨⟩
  · intro x other
    simp [other]
  · simpa using fun inside => away (.inl inside)
  · simp [inside]
  · have charges : (lru ++ inUse).map c'.chargeOf = (lru ++ inUse).map c.chargeOf := by
      refine List.map_congr_left fun x member => ?_
      have other : x ≠ c.fresh := fun same => away (List.mem_append.mp (same ▸ member))
      rw [chargeOf,chargeOf,entries,update_of_ne other]
    have new : c'.chargeOf c.fresh = h.charge.toNat := chargeOf_eq (by rw [entries,update_self])
    have before := body.usage
    rw [← List.append_assoc,List.map_append,List.sum_append,charges,List.map_singleton,List.sum_singleton,new,usage,
      UInt64.toNat_add]
    omega
  · intro zero
    exact absurd zero caching

theorem refs_less (positive : 0 < h.refs.toNat) : (h.refs - 1).toNat = h.refs.toNat - 1 :=
  UInt32.toNat_sub_of_le h.refs 1 (UInt32.le_iff_toNat_le.mpr positive)

theorem refs_zero (positive : 0 < h.refs.toNat) : h.refs ≠ 0 := by
  intro same
  rw [same] at positive
  exact absurd positive (by decide)

theorem refs_one (more : 1 < h.refs.toNat) : h.refs - 1 ≠ 0 := by
  intro same
  have less := refs_less (Nat.zero_lt_of_lt more)
  rw [same,UInt32.toNat_zero] at less
  omega

theorem refs_two (more : 1 < h.refs.toNat) : h.refs - 1 = 1 ↔ h.refs.toNat = 2 := by
  have less := refs_less (Nat.zero_lt_of_lt more)
  rw [← UInt32.toNat_inj,less,UInt32.toNat_one]
  omega

theorem unref_free (found : c.entries e = some h) (last : h.refs.toNat = 1) (loose : h.inCache = false) :
    c.unref e = some ((c.setEntry e none).log (.deleted e h.deleter h.key h.value)) := by
  have zero : h.refs - 1 = 0 := UInt32.toNat_inj.mp ((refs_less (by omega)).trans (by rw [last]; rfl))
  simp only [LRUCache.unref,found,if_neg (refs_zero (by omega : 0 < h.refs.toNat)),if_pos zero,loose,Bool.false_eq_true,
    if_false]

theorem unref_park (found : c.entries e = some h) (inside : h.inCache = true) (two : h.refs.toNat = 2) :
    c.unref e = some (log { c.setEntry e (some { h with refs := h.refs - 1 }) with
      links := (c.links.remove e).append lruHead e } (.parked e)) := by
  have second := (refs_two (by omega)).mpr two
  simp only [LRUCache.unref,found,if_neg (refs_zero (by omega : 0 < h.refs.toNat)),
    if_neg (refs_one (by omega : 1 < h.refs.toNat)),if_pos (And.intro inside second)]
  rfl

theorem unref_drop (found : c.entries e = some h) (more : 1 < h.refs.toNat)
    (stays : ¬(h.inCache = true ∧ h.refs.toNat = 2)) :
    c.unref e = some (c.setEntry e (some { h with refs := h.refs - 1 })) := by
  rw [← refs_two more] at stays
  simp only [LRUCache.unref,found,if_neg (refs_zero (Nat.zero_lt_of_lt more)),if_neg (refs_one more),if_neg stays]

theorem Body.short (body : c.Body lru inUse owed) (low : 2 ≤ c.fresh) : lru.length < c.fresh := by
  have inside : lruHead :: lru ⊆ List.range c.fresh := by
    intro x member
    rw [List.mem_range]
    rcases List.mem_cons.mp member with rfl | member
    · exact Nat.lt_of_lt_of_le Nat.two_pos low
    · exact (body.real ((body.cached x).mpr (.inl member))).2
  have small := (List.subperm_of_subset body.lruRing.nodup inside).length_le
  rwa [List.length_range] at small

end LRUCache

end LevelDB.Lru
