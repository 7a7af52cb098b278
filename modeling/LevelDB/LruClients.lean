import LevelDB.LruInvariant

/-! What the clients of a cache shard see over a run: every call is answered, and the cache,
its lists and the deleter calls are as the handles say. -/
namespace LevelDB.Lru
open Function (update update_self update_of_ne)

variable {K V D : Type} [DecidableEq K] {hash : K → UInt32}

namespace LRUCache
variable {c : LRUCache K V D} {lru inUse : List Nat} {owed : Nat → Nat} {e : Nat} {h : LRUHandle K V D}

/-- The cache is settled again, and what has been evicted from `lru_` was put on it before
what is still there, and in this order. -/
def Leads (hash : K → UInt32) (c c' : LRUCache K V D) (lru : List Nat) (owed : Nat → Nat) : Prop :=
  ∃ lru' inUse' new, c'.Settled hash lru' inUse' owed ∧ c'.capacity = c.capacity ∧ c'.events = new ++ c.events ∧
    (evictions new).Sublist lru ∧
    (evictions new ++ lru').Pairwise fun x y => parkedAt c'.events x < parkedAt c'.events y

theorem Settled.leads {c' : LRUCache K V D} (settled : c'.Settled hash lru inUse owed) (capacity : c'.capacity = c.capacity)
    (new : List (Event K V D)) (events : c'.events = new ++ c.events) (none : evictions new = []) (before : List Nat) :
    Leads hash c c' before owed := by
  refine ⟨lru,inUse,new,settled,capacity,events,?_,?_⟩
  · rw [none]
    exact List.nil_sublist before
  · rw [none]
    exact settled.told.order

theorem Settled.release (settled : c.Settled hash lru inUse owed) (owes : 0 < owed e) :
    ∃ c', c.release e = some c' ∧ Leads hash c c' lru (update owed e (owed e - 1)) := by
  have inv : c.Inv hash lru inUse owed c.Cached := settled
  obtain ⟨c',lru',inUse',new,answer,after,quiet,kept,-⟩ := inv.unref owes
  exact ⟨c',answer,(after.settled kept).leads quiet.capacity new quiet.events quiet.evictions lru⟩

theorem Settled.loop (settled : c.Settled hash lru inUse owed) (condition : LRUCache K V D → Bool) :
    ∃ c' lru', c.evictWhile condition c.fresh = some c' ∧ c'.Settled hash lru' inUse owed ∧ c'.capacity = c.capacity ∧
      (∃ new, c'.events = new ++ c.events ∧ (evictions new).Sublist lru ∧
        (evictions new ++ lru').Pairwise fun x y => parkedAt c'.events x < parkedAt c'.events y) ∧
      (condition c' = false ∨ lru' = []) := by
  obtain ⟨c',out,rest,new,answer,split,after,capacity,-,events,victims,times,stops⟩ :=
    settled.evictWhile condition c.fresh (settled.body.short settled.told.low)
  refine ⟨c',rest,answer,after,capacity,⟨new,events,?_,?_⟩,stops⟩
  · rw [victims,split]
    exact List.sublist_append_left out rest
  · rw [victims,← split,times]
    exact settled.told.order

theorem Settled.prune (settled : c.Settled hash lru inUse owed) : ∃ c', c.prune = some c' ∧ Leads hash c c' lru owed := by
  obtain ⟨c',lru',answer,after,capacity,⟨new,events,from',order⟩,-⟩ := settled.loop fun _ => true
  exact ⟨c',answer,lru',inUse,new,after,capacity,events,from',order⟩

theorem Settled.erase (settled : c.Settled hash lru inUse owed) (key : K) :
    ∃ c', c.erase key (hash key) = some c' ∧ Leads hash c c' lru owed := by
  have inv : c.Inv hash lru inUse owed c.Cached := settled
  have without := inv.removed key (.erased key) rfl (by
    intro caching key' x value
    rw [latest]
    split
    · rename_i same
      subst same
      constructor
      · rintro ⟨⟩
      · rintro ⟨⟨member,other⟩,h,found,key',-⟩
        exact absurd (inv.table.lookup_eq.mpr ⟨member,h,found,key'⟩) other
    · rename_i differs
      rw [inv.told.latest caching]
      constructor
      · rintro ⟨member,h,found,key',value'⟩
        refine ⟨⟨member,fun looked => differs ?_⟩,h,found,key',value'⟩
        obtain ⟨-,h',found',key''⟩ := inv.table.lookup_eq.mp looked
        cases found.symm.trans found'
        exact key''.symm.trans key'
      · rintro ⟨⟨member,-⟩,entry⟩
        exact ⟨member,entry⟩)
  have unfolded : c.erase key (hash key) = (log { c with table := (c.table.remove c.entries key (hash key)).2 }
      (.erased key)).finishErase (c.table.lookup c.entries key (hash key)) := by
    rw [← HandleTable.remove_fst]
    rfl
  rw [unfolded]
  cases looked : c.table.lookup c.entries key (hash key) with
  | none =>
    refine ⟨_,rfl,Settled.leads (c := c) (without.settled fun x => ?_) rfl [.erased key] rfl rfl lru⟩
    rw [looked]
    simp only [ne_eq,reduceCtorEq,not_false_eq_true,and_true]
    exact Iff.rfl
  | some e =>
    obtain ⟨member,-⟩ := inv.table.lookup_eq.mp looked
    obtain ⟨c',new,answer,after,quiet,gone,-⟩ := without.finishErase (e := e) member fun member => member.2 looked
    refine ⟨c',answer,Settled.leads (c := c) (after.settled fun x => ?_) quiet.capacity (new ++ [.erased key]) ?_ ?_ lru⟩
    · rw [gone,looked,ne_eq,ne_eq,Option.some.injEq,eq_comm]
      exact Iff.rfl
    · rw [quiet.events,List.append_assoc]
      rfl
    · rw [evictions_append,quiet.evictions]
      rfl

theorem Settled.ref (settled : c.Settled hash lru inUse owed) (found : c.entries e = some h) (inside : h.inCache = true) :
    ∃ c', c.ref e = some c' ∧ c'.entries e = some { h with refs := h.refs + 1 } ∧
      (owed e + 2 < 2^32 → Leads hash c c' lru (update owed e (owed e + 1))) := by
  have inv : c.Inv hash lru inUse owed c.Cached := settled
  have count := (inv.body.alive e h found).2.2.2
  rw [inside,Bool.toNat_true] at count
  have more : owed e + 2 < 2^32 → (h.refs + 1).toNat = owed e + 2 := by
    intro small
    rw [UInt32.toNat_add,count,UInt32.toNat_one]
    omega
  have kept := c.cached_refs found (h.refs + 1)
  have told : ∀ {links : Links Nat} {lru' : List Nat}, lru'.Sublist lru →
      Told { c.setEntry e (some { h with refs := h.refs + 1 }) with links } lru' c.Cached :=
    fun sub => inv.told.kept rfl rfl rfl (face_setEntry found rfl) sub
  by_cases alone : h.refs = 1
  · have zero : owed e = 0 := by
      rw [alone,UInt32.toNat_one] at count
      omega
    refine ⟨{ c.setEntry e (some { h with refs := h.refs + 1 }) with links := (c.links.remove e).append inUseHead e },?_,
      setEntry_same,fun small => ?_⟩
    · rw [LRUCache.ref,found,Option.map_some,if_pos ⟨alone,inside⟩]
      rfl
    · have body := inv.body.take found inside zero ((more small).trans (by rw [zero]))
      have settled' : Inv hash { c.setEntry e (some { h with refs := h.refs + 1 }) with
          links := (c.links.remove e).append inUseHead e } (lru.erase e) (inUse ++ [e]) (update owed e (owed e + 1)) c.Cached :=
        ⟨by rw [zero]; exact body,inv.table_refs found _,fun x member => (kept x).mpr member,told List.erase_sublist⟩
      exact (settled'.settled kept).leads rfl [] rfl rfl lru
  · refine ⟨c.setEntry e (some { h with refs := h.refs + 1 }),?_,setEntry_same,fun small => ?_⟩
    · rw [LRUCache.ref,found,Option.map_some,if_neg fun both => alone both.1]
    · have nonzero : owed e ≠ 0 := by
        intro zero
        rw [zero] at count
        exact alone (UInt32.toNat_inj.mp count)
      have body := inv.body.count found (n := owed e + 1) (by omega) (by rw [more small]; omega)
        (by rw [more small,inside,Bool.toNat_true])
      have settled' : Inv hash (c.setEntry e (some { h with refs := h.refs + 1 })) lru inUse (update owed e (owed e + 1))
          c.Cached :=
        ⟨body,inv.table_refs found _,fun x member => (kept x).mpr member,told (List.Sublist.refl _)⟩
      exact (settled'.settled kept).leads rfl [] rfl rfl lru

/-- A lookup finds the entry of the latest insert. -/
theorem Settled.lookup (settled : c.Settled hash lru inUse owed) (key : K) :
    (c.lookup key (hash key) = some (none,c) ∧ ∀ e, ¬(c.Cached e ∧ ∃ h, c.entries e = some h ∧ h.key = key)) ∨
    ∃ e h c', c.lookup key (hash key) = some (some e,c') ∧ c.entries e = some h ∧ h.inCache = true ∧ h.key = key ∧
      c'.entries e = some { h with refs := h.refs + 1 } ∧
      (owed e + 2 < 2^32 → Leads hash c c' lru (update owed e (owed e + 1))) := by
  have inv : c.Inv hash lru inUse owed c.Cached := settled
  rw [LRUCache.lookup]
  cases looked : c.table.lookup c.entries key (hash key) with
  | none =>
    refine .inl ⟨rfl,fun e entry => ?_⟩
    rw [inv.table.lookup_eq.mpr entry] at looked
    cases looked
  | some e =>
    obtain ⟨⟨h,found,inside⟩,h',found',same⟩ := inv.table.lookup_eq.mp looked
    cases found.symm.trans found'
    obtain ⟨c',answer,entry,leads⟩ := settled.ref found inside
    refine .inr ⟨e,h,c',?_,found,inside,same,entry,leads⟩
    dsimp only
    rw [answer,Option.map_some]

/-- The loop at the end of `Insert`. -/
theorem Settled.trim (settled : c.Settled hash lru inUse owed) {before : LRUCache K V D} (capacity : c.capacity = before.capacity)
    (new : List (Event K V D)) (events : c.events = new ++ before.events) (none : evictions new = []) {first : List Nat}
    (sub : lru.Sublist first) :
    ∃ c', c.evictWhile (fun c => c.capacity < c.usage) c.fresh = some c' ∧ Leads hash before c' first owed ∧
      (c'.usage ≤ c'.capacity ∨ c'.links.next lruHead = lruHead) := by
  obtain ⟨c',lru',answer,after,capacity',⟨more,events',from',order⟩,stops⟩ := settled.loop fun c => c.capacity < c.usage
  refine ⟨c',answer,⟨lru',inUse,more ++ new,after,capacity'.trans capacity,?_,?_,?_⟩,?_⟩
  · rw [events',events,List.append_assoc]
  · rw [evictions_append,none]
    exact from'.trans sub
  · rw [evictions_append,none]
    exact order
  · refine stops.imp (fun stop => ?_) after.body.lruRing.next_head.mpr
    exact UInt64.not_lt.mp (of_decide_eq_false stop)

/-- The new entry is in the cache, and the old one of its key is not. -/
theorem Settled.place (settled : c.Settled hash lru inUse owed) (key : K) (value : V) (charge : UInt64) (deleter : D) :
    ∃ c' lru' inUse' new, c.place key (hash key) value charge deleter = some c' ∧
      c'.Settled hash lru' inUse' (update owed c.fresh 1) ∧ c'.capacity = c.capacity ∧ c'.events = new ++ c.events ∧
      evictions new = [] ∧ lru'.Sublist lru := by
  have inv : c.Inv hash lru inUse owed c.Cached := settled
  have unused : ¬c.Cached c.fresh := fun cached => Nat.lt_irrefl _ (inv.body.real cached).2
  let h : LRUHandle K V D := ⟨value,deleter,charge,key,false,1,hash key⟩
  let alloc := (setEntry { c with fresh := c.fresh + 1 } c.fresh (some h)).log (.inserted c.fresh key value deleter)
  rw [LRUCache.place]
  dsimp only
  by_cases off : c.capacity = 0
  · have closed : ¬0 < c.capacity := by
      rw [off]
      decide
    have cached : ∀ x, alloc.Cached x ↔ c.Cached x := by
      intro x
      by_cases same : x = c.fresh
      · subst same
        simp only [unused,iff_false]
        rintro ⟨h',found,inside⟩
        cases setEntry_same.symm.trans found
        cases inside
      · have still : alloc.entries x = c.entries x := setEntry_other same
        rw [Cached,Cached,still]
    have body : alloc.Body lru inUse (update owed c.fresh 1) :=
      (inv.body.alloc inv.told.low (h := h) UInt32.toNat_one rfl).congr rfl rfl rfl rfl rfl
    have table : alloc.table.Holds hash alloc.entries c.Cached := settled.table_new (some h)
    have told : alloc.Told lru c.Cached := inv.told.new (h := h) rfl rfl rfl fun caching => absurd off caching
    refine ⟨alloc,lru,inUse,[.inserted c.fresh key value deleter],if_neg closed,?_,rfl,rfl,rfl,List.Sublist.refl lru⟩
    exact Inv.settled ⟨body,table,fun x member => (cached x).mpr member,told⟩ cached
  · have opened : 0 < c.capacity := UInt64.pos_iff_ne_zero.mpr off
    let h' : LRUHandle K V D := { h with refs := h.refs + 1, inCache := true }
    let held : LRUCache K V D := { alloc.setEntry c.fresh (some h') with
      links := c.links.append inUseHead c.fresh, usage := c.usage + charge }
    let added : LRUCache K V D := { held with table := (c.table.insert held.entries c.fresh key (hash key)).2 }
    have entries : added.entries = update c.entries c.fresh (some h') := Function.update_idem ..
    have between := settled.insert (h := h') off rfl rfl rfl entries rfl rfl rfl rfl rfl rfl
    have whole : (if 0 < alloc.capacity then added.finishErase (c.table.insert held.entries c.fresh key (hash key)).1
        else some alloc) = added.finishErase (c.table.lookup held.entries key (hash key)) := by
      rw [HandleTable.insert_fst]
      exact if_pos opened
    have cached : ∀ x, added.Cached x ↔ x = c.fresh ∨ c.Cached x := by
      intro x
      by_cases same : x = c.fresh
      · subst same
        simp only [true_or,iff_true]
        exact ⟨h',by rw [entries,update_self],rfl⟩
      · simp only [same,false_or]
        rw [Cached,Cached,entries,update_of_ne same]
    cases looked : c.table.lookup held.entries key (hash key) with
    | none =>
      rw [looked] at whole
      have settled' := between.settled fun x => by
        rw [cached,looked]
        simp
      exact ⟨added,lru,inUse ++ [c.fresh],[.inserted c.fresh key value deleter],whole,settled',rfl,rfl,rfl,List.Sublist.refl lru⟩
    | some old =>
      have holds : c.table.Holds hash held.entries c.Cached := entries ▸ settled.table_new (some h')
      obtain ⟨member,-⟩ := holds.lookup_eq.mp looked
      have apart : c.fresh ≠ old := fun same => unused (same ▸ member)
      obtain ⟨c',new,answer,after,quiet,gone,-⟩ := between.finishErase (e := old) ((cached old).mpr (.inr member)) (by
        rintro (same | ⟨-,other⟩)
        · exact apart same.symm
        · exact other looked)
      rw [looked,answer] at whole
      have settled' := after.settled fun x => by
        rw [gone,cached,looked,ne_eq,ne_eq,Option.some.injEq,eq_comm (a := x) (b := old)]
        constructor
        · rintro ⟨rfl | inside,other⟩
          · exact .inl rfl
          · exact .inr ⟨inside,other⟩
        · rintro (rfl | ⟨inside,other⟩)
          · exact ⟨.inl rfl,Ne.symm apart⟩
          · exact ⟨.inr inside,other⟩
      refine ⟨c',_,_,new ++ [.inserted c.fresh key value deleter],whole,settled',quiet.capacity,?_,?_,List.erase_sublist⟩
      · rw [quiet.events,List.append_assoc]
        rfl
      · rw [evictions_append,quiet.evictions]
        rfl

theorem Settled.insertion (settled : c.Settled hash lru inUse owed) (key : K) (value : V) (charge : UInt64) (deleter : D) :
    ∃ c', c.insert key (hash key) value charge deleter = some (c.fresh,c') ∧
      Leads hash c c' lru (update owed c.fresh 1) ∧ (c'.usage ≤ c'.capacity ∨ c'.links.next lruHead = lruHead) := by
  obtain ⟨placed,lru',inUse',new,step,settled',capacity,events,none,sub⟩ := settled.place key value charge deleter
  obtain ⟨c',answer,leads,ends⟩ := settled'.trim capacity new events none sub
  refine ⟨c',?_,leads,ends⟩
  rw [LRUCache.insert,step,Option.bind_some,answer,Option.map_some]

omit [DecidableEq K] in
/-- The destructor frees the entries of `lru_` one by one. -/
theorem destroyFrom_frees {a : Nat} (path : c.links.Path a lru lruHead) (distinct : (lruHead :: lru).Nodup)
    (idle : ∀ e ∈ lru, ∃ h, c.entries e = some h ∧ h.inCache = true ∧ h.refs = 1)
    (gone : ∀ e, e ∉ lru → c.entries e = none)
    (deleted : ∀ e, c.events.countP (Event.deletes e) = if 2 ≤ e ∧ e < c.fresh ∧ c.entries e = none then 1 else 0)
    (real : ∀ e ∈ lru, 2 ≤ e ∧ e < c.fresh) (fuel : Nat) (enough : lru.length < fuel) :
    ∃ c', destroyFrom fuel (c.links.next a) c = some c' ∧
      ∀ e, 2 ≤ e → e < c.fresh → c'.events.countP (Event.deletes e) = 1 := by
  induction lru generalizing c a fuel with
  | nil =>
    obtain ⟨fuel,rfl⟩ := Nat.exists_eq_succ_of_ne_zero (Nat.ne_of_gt enough)
    refine ⟨c,?_,fun e low high => ?_⟩
    · rw [destroyFrom,if_pos path.1]
    · rw [deleted,if_pos ⟨low,high,gone e List.not_mem_nil⟩]
  | cons e lru ih =>
    obtain ⟨fuel,rfl⟩ := Nat.exists_eq_succ_of_ne_zero (Nat.ne_of_gt (Nat.zero_lt_of_lt enough))
    obtain ⟨forth,-,rest⟩ := path
    obtain ⟨h,found,inside,one⟩ := idle e List.mem_cons_self
    obtain ⟨outside,apart⟩ := List.nodup_cons.mp distinct
    obtain ⟨absent,distinct'⟩ := List.nodup_cons.mp apart
    have other : e ≠ lruHead := fun same => outside (same ▸ List.mem_cons_self)
    let next := ((c.setEntry e (some { h with inCache := false })).setEntry e none).log (.deleted e h.deleter h.key h.value)
    have entries : ∀ x, next.entries x = if x = e then none else c.entries x := by
      intro x
      by_cases same : x = e
      · rw [if_pos same,same]
        exact setEntry_same
      · rw [if_neg same]
        exact (setEntry_other same).trans (setEntry_other same)
    have events : next.events = .deleted e h.deleter h.key h.value :: c.events := rfl
    have freed : (c.setEntry e (some { h with inCache := false })).unref e = some next :=
      unref_free (h := { h with inCache := false }) setEntry_same (congrArg UInt32.toNat one) rfl
    obtain ⟨c',answer,all⟩ := ih (c := next) rest
      (List.nodup_cons.mpr ⟨fun member => outside (List.mem_cons_of_mem _ member),distinct'⟩) (by
        intro x member
        obtain ⟨h',found',inside',one'⟩ := idle x (List.mem_cons_of_mem _ member)
        refine ⟨h',?_,inside',one'⟩
        have differs : x ≠ e := fun same => absent (same ▸ member)
        rw [entries,if_neg differs]
        exact found') (by
        intro x away
        rw [entries]
        split
        · rfl
        · rename_i differs
          exact gone x (List.mem_cons.not.mpr (not_or.mpr ⟨differs,away⟩))) (by
        intro x
        rw [entries]
        by_cases same : x = e
        · subst same
          have before := deleted x
          rw [found,if_neg (by simp)] at before
          rw [if_pos ⟨(real x List.mem_cons_self).1,(real x List.mem_cons_self).2,if_pos rfl⟩,events,
            List.countP_cons_of_pos (by simp [Event.deletes])]
          exact congrArg (· + 1) before
        · rw [if_neg same,events,List.countP_cons_of_neg (by simp [Event.deletes,Ne.symm same])]
          exact deleted x)
      (fun x member => real x (List.mem_cons_of_mem _ member)) fuel (Nat.lt_of_succ_lt_succ enough)
    refine ⟨c',?_,all⟩
    rw [destroyFrom,forth,if_neg other,found]
    dsimp only
    rw [if_pos ⟨inside,one⟩,freed,Option.bind_some]
    exact answer

theorem Settled.destroy (settled : c.Settled hash lru inUse owed) (released : ∀ e, owed e = 0) :
    ∃ c', c.destroy = some c' ∧ ∀ e key value deleter, .inserted e key value deleter ∈ c.events →
      c'.events.countP (Event.deletes e) = 1 := by
  have inv : c.Inv hash lru inUse owed c.Cached := settled
  have unused : inUse = [] := by
    refine List.eq_nil_iff_forall_not_mem.mpr fun e member => ?_
    have positive := ((inv.body.onInUse e).mp member).2
    rw [released] at positive
    exact Nat.lt_irrefl _ positive
  have counts : ∀ e h, c.entries e = some h → h.inCache = true ∧ h.refs = 1 := by
    intro e h found
    obtain ⟨-,-,positive,count⟩ := inv.body.alive e h found
    rw [released] at count
    cases inside : h.inCache with
    | false =>
      rw [inside,Bool.toNat_false] at count
      omega
    | true =>
      rw [inside,Bool.toNat_true] at count
      exact ⟨rfl,UInt32.toNat_inj.mp count⟩
  obtain ⟨c',answer,all⟩ := destroyFrom_frees inv.body.lruRing.path inv.body.lruRing.nodup (by
      intro e member
      obtain ⟨h,found,inside⟩ := ((inv.body.onLru e).mp member).1
      exact ⟨h,found,inside,(counts e h found).2⟩) (by
      intro e away
      cases found : c.entries e with
      | none => rfl
      | some h => exact absurd ((inv.body.onLru e).mpr ⟨⟨h,found,(counts e h found).1⟩,released e⟩) away)
    inv.told.deleted (fun e member => inv.body.real ((inv.body.cached e).mpr (.inl member))) c.fresh
    (inv.body.short inv.told.low)
  refine ⟨c',?_,fun e key value deleter member => ?_⟩
  · rw [LRUCache.destroy,if_pos (inv.body.inUseRing.next_head.mpr unused)]
    exact answer
  · obtain ⟨low,high⟩ := inv.told.numbered e key value deleter member
    exact all e low high

end LRUCache

namespace LRUCache

theorem new_settled (hash : K → UInt32) (capacity : UInt64) :
    (new capacity : LRUCache K V D).Settled hash [] [] fun _ => 0 := by
  have free : ∀ e, ¬(new capacity : LRUCache K V D).Cached e := by
    rintro e ⟨h,⟨⟩,-⟩
  have table : HandleTable.empty.Holds hash (new capacity : LRUCache K V D).entries (new capacity : LRUCache K V D).Cached := by
    refine ⟨by decide,by decide,rfl,fun e => ?_,?_,fun e cached => absurd cached (free e),fun e _ _ _ cached => absurd cached (free e)⟩
    · simp [free e,HandleTable.empty]
    · intro i chain found e member
      rw [List.eq_of_mem_replicate (List.mem_of_getElem? found)] at member
      cases member
  refine ⟨⟨⟨⟨rfl,rfl⟩,by simp⟩,⟨⟨rfl,rfl⟩,by simp⟩,?_,fun _ _ => rfl,?_,?_,rfl,fun _ => free⟩,table,fun e cached => cached,?_⟩
  · rintro e h ⟨⟩
  · intro e
    simp [free e]
  · intro e
    simp [free e]
  · refine ⟨Nat.le_refl _,?_,?_,?_,?_,fun e => ?_,List.Pairwise.nil,?_⟩
    · rintro e key value deleter ⟨⟩
    · rintro e key key' value value' deleter deleter' ⟨⟩
    · rintro e h ⟨⟩
    · rintro e deleter key value ⟨⟩
    · have empty : ¬(2 ≤ e ∧ e < 2 ∧ (new capacity : LRUCache K V D).entries e = none) := by omega
      exact (if_neg empty).symm
    · intro _ key e value
      simp only [free e,false_and,iff_false]
      rintro ⟨⟩

end LRUCache

/-- The entries in the cache. -/
def LRUCache.cached (c : LRUCache K V D) : List Nat := (List.range c.fresh).filter fun e => (c.entries e).any (·.inCache)

omit [DecidableEq K] in
theorem LRUCache.Body.perm {c : LRUCache K V D} {lru inUse : List Nat} {owed : Nat → Nat} (body : c.Body lru inUse owed) :
    (lru ++ inUse).Perm c.cached := by
  have distinct : (lru ++ inUse).Nodup := by
    refine List.nodup_append.mpr ⟨(List.nodup_cons.mp body.lruRing.nodup).2,(List.nodup_cons.mp body.inUseRing.nodup).2,?_⟩
    rintro x first y second rfl
    exact body.apart' x (List.mem_cons_of_mem _ first) (List.mem_cons_of_mem _ second)
  have distinct' : c.cached.Nodup := List.nodup_range.filter _
  refine (List.perm_ext_iff_of_nodup distinct distinct').mpr fun e => ?_
  have member : e ∈ c.cached ↔ e < c.fresh ∧ (c.entries e).any (·.inCache) = true :=
    List.mem_filter.trans (and_congr_left fun _ => List.mem_range)
  rw [List.mem_append,← body.cached,member,Option.any_eq_true]
  constructor
  · intro inside
    exact ⟨(body.real inside).2,inside⟩
  · exact And.right

namespace Session
variable {s s' : Session K V D}

/-- What holds of a cache with the handles that are out. -/
structure Consistent (hash : K → UInt32) (s : Session K V D) : Prop where
  reachable : ∀ e, e ∈ s.cache.table.list.flatten ↔ s.cache.Cached e
  found : ∀ key e, s.cache.table.lookup s.cache.entries key (hash key) = some e ↔
    s.cache.Cached e ∧ ∃ h, s.cache.entries e = some h ∧ h.key = key
  lists : ∃ lru inUse, s.cache.links.Ring lruHead lru ∧ s.cache.links.Ring inUseHead inUse ∧
    (∀ e, e ∈ lru ↔ ∃ h, s.cache.entries e = some h ∧ h.inCache = true ∧ h.refs = 1) ∧
    (∀ e, e ∈ inUse ↔ ∃ h, s.cache.entries e = some h ∧ h.inCache = true ∧ h.refs ≠ 1)
  usage : s.cache.usage.toNat = (s.cache.cached.map s.cache.chargeOf).sum % 2^64
  references : ∀ e h, s.cache.entries e = some h → h.refs.toNat = s.handles.count e + h.inCache.toNat
  deletes : ∀ e key value deleter, .inserted e key value deleter ∈ s.cache.events →
    ((s.cache.Cached e ∨ e ∈ s.handles) → s.cache.events.countP (Event.deletes e) = 0) ∧
    (¬(s.cache.Cached e ∨ e ∈ s.handles) → s.cache.events.countP (Event.deletes e) = 1)
  called : ∀ e deleter key value, .deleted e deleter key value ∈ s.cache.events →
    .inserted e key value deleter ∈ s.cache.events

def Settled (hash : K → UInt32) (s : Session K V D) : Prop :=
  ∃ lru inUse, s.cache.Settled hash lru inUse fun e => s.handles.count e

theorem new_settled (hash : K → UInt32) (capacity : UInt64) : (new capacity : Session K V D).Settled hash :=
  ⟨[],[],LRUCache.new_settled hash capacity⟩

theorem Settled.consistent (settled : s.Settled hash) : s.Consistent hash := by
  obtain ⟨lru,inUse,inv⟩ := settled
  have inv : s.cache.Inv hash lru inUse (fun e => s.handles.count e) s.cache.Cached := inv
  have count := fun e h found => (inv.body.alive e h found).2.2.2
  refine ⟨inv.table.mem,fun key e => inv.table.lookup_eq,⟨lru,inUse,inv.body.lruRing,inv.body.inUseRing,?_,?_⟩,?_,count,?_,
    inv.told.called⟩
  · intro e
    rw [inv.body.onLru]
    constructor
    · rintro ⟨⟨h,found,inside⟩,zero⟩
      refine ⟨h,found,inside,UInt32.toNat_inj.mp ?_⟩
      rw [count e h found,zero,inside]
      rfl
    · rintro ⟨h,found,inside,one⟩
      have total := count e h found
      rw [one,inside,UInt32.toNat_one,Bool.toNat_true] at total
      exact ⟨⟨h,found,inside⟩,by omega⟩
  · intro e
    rw [inv.body.onInUse]
    constructor
    · rintro ⟨⟨h,found,inside⟩,positive⟩
      refine ⟨h,found,inside,fun one => ?_⟩
      have total := count e h found
      rw [one,inside,UInt32.toNat_one,Bool.toNat_true] at total
      omega
    · rintro ⟨h,found,inside,more⟩
      refine ⟨⟨h,found,inside⟩,Nat.pos_of_ne_zero fun zero => more (UInt32.toNat_inj.mp ?_)⟩
      rw [count e h found,zero,inside]
      rfl
  · rw [inv.body.usage,(inv.body.perm.map _).sum_eq]
  · intro e key value deleter member
    obtain ⟨low,high⟩ := inv.told.numbered e key value deleter member
    have alive : (s.cache.Cached e ∨ e ∈ s.handles) ↔ s.cache.entries e ≠ none := by
      rw [← List.count_pos_iff]
      cases found : s.cache.entries e with
      | none =>
        have zero := inv.body.gone e found
        simp only [LRUCache.Cached,found,reduceCtorEq,false_and,exists_false,false_or,ne_eq,not_true_eq_false,iff_false]
        omega
      | some h =>
        have total := count e h found
        have positive := (inv.body.alive e h found).2.2.1
        simp only [ne_eq,reduceCtorEq,not_false_eq_true,iff_true]
        cases inside : h.inCache with
        | true => exact .inl ⟨h,found,inside⟩
        | false =>
          rw [inside,Bool.toNat_false] at total
          exact .inr (by omega)
    rw [alive,inv.told.deleted e]
    simp only [low,high,true_and,not_not]
    exact ⟨fun held => if_neg held,fun free => if_pos free⟩

/-- A call is answered unless it releases a handle that is not out. -/
def fair (s : Session K V D) : Call K V D → Bool
  | .release handle => handle ∈ s.handles
  | _ => true

omit [DecidableEq K] in
theorem few_count (few : s.few = true) (e : Nat) : s.handles.count e + 1 < 2^32 := by
  by_cases member : e ∈ s.handles
  · exact of_decide_eq_true (List.all_eq_true.mp (Bool.and_eq_true_iff.mp few).2 e member)
  · rw [List.count_eq_zero.mpr member]
    decide

theorem Settled.call {lru inUse : List Nat} (settled : s.cache.Settled hash lru inUse fun e => s.handles.count e)
    (a : Call K V D) (fair : s.fair a = true) : ∃ s', s.call hash a = some s' ∧
      (s'.few = true → LRUCache.Leads hash s.cache s'.cache lru fun e => s'.handles.count e) := by
  cases a with
  | insert key value charge deleter =>
    obtain ⟨c',answer,leads,-⟩ := settled.insertion key value charge deleter
    refine ⟨_,by rw [Session.call,answer]; rfl,fun _ => ?_⟩
    have unused : s.handles.count s.cache.fresh = 0 := by
      cases found : s.cache.entries s.cache.fresh with
      | none => exact settled.body.gone _ found
      | some h => exact absurd (settled.body.alive _ h found).2.1 (Nat.lt_irrefl _)
    have counts : update (fun e => s.handles.count e) s.cache.fresh 1 = fun e => (s.cache.fresh :: s.handles).count e := by
      funext e
      by_cases same : e = s.cache.fresh
      · rw [same,update_self,List.count_cons_self,unused]
      · rw [update_of_ne same,List.count_cons_of_ne (Ne.symm same)]
    exact counts ▸ leads
  | lookup key =>
    rcases settled.lookup key with ⟨answer,-⟩ | ⟨e,h,c',answer,-,-,-,-,leads⟩
    · refine ⟨s,by rw [Session.call,answer]; rfl,fun _ => ?_⟩
      exact settled.leads rfl [] rfl rfl lru
    · refine ⟨⟨c',e :: s.handles⟩,by rw [Session.call,answer]; rfl,fun few => ?_⟩
      have counts : update (fun e => s.handles.count e) e (s.handles.count e + 1) = fun x => (e :: s.handles).count x := by
        funext x
        by_cases same : x = e
        · rw [same,update_self,List.count_cons_self]
        · rw [update_of_ne same,List.count_cons_of_ne (Ne.symm same)]
      have bound := few_count few e
      rw [List.count_cons_self] at bound
      exact counts ▸ leads bound
  | release e =>
    have member : e ∈ s.handles := of_decide_eq_true fair
    obtain ⟨c',answer,leads⟩ := settled.release (List.count_pos_iff.mpr member)
    refine ⟨_,by rw [Session.call,if_pos member,answer]; rfl,fun _ => ?_⟩
    have counts : update (fun e => s.handles.count e) e (s.handles.count e - 1) = fun x => (s.handles.erase e).count x := by
      funext x
      by_cases same : x = e
      · rw [same,update_self,List.count_erase_self]
      · rw [update_of_ne same,List.count_erase_of_ne same]
    exact counts ▸ leads
  | erase key =>
    obtain ⟨c',answer,leads⟩ := settled.erase key
    exact ⟨_,by rw [Session.call,answer]; rfl,fun _ => leads⟩
  | prune =>
    obtain ⟨c',answer,leads⟩ := settled.prune
    exact ⟨_,by rw [Session.call,answer]; rfl,fun _ => leads⟩

theorem call_fair {a : Call K V D} (answer : s.call hash a = some s') : s.fair a = true := by
  cases a with
  | release e =>
    rw [Session.call] at answer
    split at answer
    · rename_i member
      exact decide_eq_true member
    · cases answer
  | _ => rfl

theorem staysFew_few {calls : List (Call K V D)} (few : s.staysFew hash calls = true) : s.few = true := by
  cases calls with
  | nil => exact few
  | cons a rest => exact (Bool.and_eq_true_iff.mp few).1

theorem Settled.run (settled : s.Settled hash) (calls : List (Call K V D)) (few : s.staysFew hash calls = true)
    (run : s.run hash calls = some s') : s'.Settled hash ∧ s'.cache.capacity = s.cache.capacity := by
  induction calls generalizing s with
  | nil =>
    cases run
    exact ⟨settled,rfl⟩
  | cons a rest ih =>
    rw [Session.run,List.foldlM_cons] at run
    obtain ⟨next,step,run⟩ := Option.bind_eq_some_iff.mp run
    rw [staysFew,step,Bool.and_eq_true_iff] at few
    obtain ⟨lru,inUse,inv⟩ := settled
    obtain ⟨_,answer,leads⟩ := Settled.call inv a (call_fair step)
    cases step.symm.trans answer
    obtain ⟨lru',inUse',-,after,capacity,-⟩ := leads (staysFew_few few.2)
    obtain ⟨settled',capacity'⟩ := ih ⟨lru',inUse',after⟩ few.2 run
    exact ⟨settled',capacity'.trans capacity⟩

/-- A cache whose clients release what they got, after any calls: it is consistent, it answers
every call, evicts in the order of `lru_`, finds what was inserted last, ends an insert within
its capacity or with nothing left to evict, and its destructor deletes the rest. -/
theorem lru_cache (hash : K → UInt32) (capacity : UInt64) (calls : List (Call K V D))
    (few : (new capacity : Session K V D).staysFew hash calls = true) (run : (new capacity).run hash calls = some s) :
    s.Consistent hash ∧ (∀ a, s.fair a = true → ∃ s', s.call hash a = some s') ∧
    (∀ a s', s.call hash a = some s' → s'.few = true → ∃ new lru lru', s'.cache.events = new ++ s.cache.events ∧
      s.cache.links.Ring lruHead lru ∧ s'.cache.links.Ring lruHead lru' ∧ (evictions new).Sublist lru ∧
      (evictions new ++ lru').Pairwise fun x y => parkedAt s'.cache.events x < parkedAt s'.cache.events y) ∧
    (∀ key, ∃ found cache, s.cache.lookup key (hash key) = some (found,cache) ∧
      (found.bind fun e => (cache.entries e).map fun h => (e,h.value)) =
        if capacity = 0 then none else latest s.cache.events key) ∧
    (∀ key value charge deleter, ∃ e cache, s.cache.insert key (hash key) value charge deleter = some (e,cache) ∧
      (cache.usage ≤ cache.capacity ∨ cache.links.next lruHead = lruHead)) ∧
    (s.handles = [] → ∃ cache, s.cache.destroy = some cache ∧ ∀ e key value deleter,
      .inserted e key value deleter ∈ s.cache.events → cache.events.countP (Event.deletes e) = 1) := by
  obtain ⟨settled,size⟩ := (new_settled hash capacity).run calls few run
  have size : s.cache.capacity = capacity := size
  obtain ⟨lru,inUse,inv⟩ := id settled
  refine ⟨settled.consistent,?_,?_,?_,?_,?_⟩
  · intro a fair
    obtain ⟨s',answer,-⟩ := Settled.call inv a fair
    exact ⟨s',answer⟩
  · intro a s' step few'
    obtain ⟨_,answer,leads⟩ := Settled.call inv a (call_fair step)
    cases step.symm.trans answer
    obtain ⟨lru',inUse',new,after,-,events,sub,order⟩ := leads few'
    exact ⟨new,lru,lru',events,inv.body.lruRing,after.body.lruRing,sub,order⟩
  · intro key
    have told := inv.told
    rcases inv.lookup key with ⟨answer,absent⟩ | ⟨e,h,c',answer,found,inside,rfl,entry,-⟩
    · refine ⟨none,s.cache,answer,?_⟩
      rw [Option.bind_none]
      split
      · rfl
      · rename_i caching
        refine (Option.eq_none_iff_forall_ne_some.mpr ?_).symm
        rintro ⟨e,value⟩ same
        obtain ⟨cached,h,found,key,-⟩ := (told.latest (size ▸ caching) key e value).mp same
        exact absent e ⟨cached,h,found,key⟩
    · refine ⟨some e,c',answer,?_⟩
      have caching : s.cache.capacity ≠ 0 := fun off => inv.body.off off e ⟨h,found,inside⟩
      rw [if_neg (size ▸ caching),Option.bind_some,entry,Option.map_some]
      exact ((told.latest caching h.key e h.value).mpr ⟨⟨h,found,inside⟩,h,found,rfl,rfl⟩).symm
  · intro key value charge deleter
    obtain ⟨c',answer,-,ends⟩ := inv.insertion key value charge deleter
    exact ⟨_,c',answer,ends⟩
  · intro released
    refine inv.destroy fun e => ?_
    rw [released]
    exact List.count_nil

/-- Two keys, one of them inserted twice, one entry erased while a handle is out, and a
capacity for one entry. -/
def exampleCalls : List (Call Nat Nat Unit) :=
  [.insert 1 10 1 (),.insert 2 20 1 (),.release 2,.release 3,.insert 1 11 1 (),.lookup 1,.erase 1,.release 4]

theorem lru_cache_example : ∃ s, (new 1 : Session Nat Nat Unit).run UInt32.ofNat exampleCalls = some s ∧ s.handles = [4] ∧
    s.cache.events.countP (Event.deletes 3) = 1 ∧ s.cache.events.countP (Event.deletes 4) = 0 ∧
    s.Consistent UInt32.ofNat :=
  ⟨_,rfl,rfl,rfl,rfl,(lru_cache UInt32.ofNat 1 exampleCalls (by decide) rfl).1⟩

/-- A cache with one entry that is looked up again and again. -/
def looked (n : Nat) : Session Nat Nat Unit where
  cache :=
    { capacity := 10
      usage := 1
      links := Links.append ⟨id,id⟩ inUseHead 2
      table := ⟨1,[[],[2],[],[]]⟩
      entries := update (fun _ => none) 2 (some ⟨10,(),1,1,true,UInt32.ofNat (n + 2),1⟩)
      fresh := 3
      events := [.inserted 2 1 10 ()] }
  handles := List.replicate (n + 1) 2

theorem looked_lookup {n : Nat} (small : n + 1 < 2^32) : (looked n).call UInt32.ofNat (.lookup 1) = some (looked (n + 1)) := by
  have more : ¬(UInt32.ofNat (n + 2) = 1 ∧ true = true) := by
    rintro ⟨one,-⟩
    have value := congrArg UInt32.toNat one
    rw [UInt32.toNat_ofNat',UInt32.toNat_one] at value
    omega
  have found : (looked n).cache.entries 2 = some ⟨10,(),1,1,true,UInt32.ofNat (n + 2),1⟩ := rfl
  have counted : UInt32.ofNat (n + 2) + 1 = UInt32.ofNat (n + 1 + 2) := by
    rw [← UInt32.toNat_inj,UInt32.toNat_add,UInt32.toNat_ofNat',UInt32.toNat_ofNat',UInt32.toNat_one]
    omega
  have taken : (looked n).cache.ref 2 = some (looked (n + 1)).cache := by
    rw [LRUCache.ref,found,Option.map_some]
    dsimp only
    rw [if_neg more,counted,LRUCache.setEntry,looked,Function.update_idem]
    rfl
  have table : (looked n).cache.table.lookup (looked n).cache.entries 1 1 = some 2 := by
    have one : HandleTable.isFor (looked n).cache.entries 1 1 2 = true :=
      HandleTable.isFor_iff.mpr ⟨_,found,rfl,rfl⟩
    have chain : HandleTable.chain ⟨1,[[],[2],[],[]]⟩ 1 = [2] := by decide
    exact (congrArg (List.find? _) chain).trans (List.find?_cons_of_pos one)
  have answer : (looked n).cache.lookup 1 1 = some (some 2,(looked (n + 1)).cache) := by
    rw [LRUCache.lookup,table]
    exact congrArg (Option.map fun c => (some 2,c)) taken
  rw [Session.call]
  exact (congrArg (Option.map _) answer).trans rfl

theorem looked_run (n : Nat) (small : n < 2^32) :
    (new 10 : Session Nat Nat Unit).run UInt32.ofNat (.insert 1 10 1 () :: List.replicate n (.lookup 1)) = some (looked n) := by
  induction n with
  | zero =>
    have entries : update (update (fun _ => none) 2 (some ⟨10,(),1,1,false,1,1⟩)) 2 (some ⟨10,(),1,1,true,2,1⟩) =
        (looked 0).cache.entries := Function.update_idem ..
    have first : (new 10 : Session Nat Nat Unit).run UInt32.ofNat [.insert 1 10 1 ()] = some ⟨{ (looked 0).cache with
        entries := update (update (fun _ => none) 2 (some ⟨10,(),1,1,false,1,1⟩)) 2 (some ⟨10,(),1,1,true,2,1⟩) },[2]⟩ := rfl
    rw [entries] at first
    exact first
  | succ n ih =>
    have before := ih (by omega)
    rw [Session.run] at before
    rw [List.replicate_succ',← List.cons_append,Session.run,List.foldlM_append,before]
    exact (congrArg (·.bind some) (looked_lookup small)).trans rfl

/-- What the types of the source take away: a cache without capacity finds nothing, the usage
is counted modulo `2^64`, and with `2^32` handles out an entry has the count of an idle one. -/
theorem lru_cache_limits :
    (∃ s, (new 0 : Session Nat Nat Unit).run UInt32.ofNat [.insert 1 10 1 ()] = some s ∧
      latest s.cache.events 1 = some (2,10) ∧ (s.cache.lookup 1 1).map (·.1) = some none) ∧
    (∃ s, (new 1 : Session Nat Nat Unit).run UInt32.ofNat 
        [.insert 1 10 0x8000000000000000 (),.insert 2 20 0x8000000000000000 ()] = some s ∧
      s.cache.usage.toNat = 0 ∧ (s.cache.cached.map s.cache.chargeOf).sum = 2^64) ∧
    (∃ s h, (new 10 : Session Nat Nat Unit).run UInt32.ofNat (.insert 1 10 1 () :: List.replicate (2^32 - 1) (.lookup 1)) =
      some s ∧ s.cache.entries 2 = some h ∧ h.inCache = true ∧ h.refs = 1 ∧ s.cache.links.Ring lruHead []) := by
  refine ⟨⟨_,rfl,rfl,rfl⟩,⟨_,rfl,rfl,by decide⟩,⟨_,_,looked_run (2^32 - 1) (by omega),rfl,rfl,?_,?_⟩⟩
  · rfl
  · exact ⟨⟨rfl,rfl⟩,List.nodup_singleton _⟩

end Session

end LevelDB.Lru
