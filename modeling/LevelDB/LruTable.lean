import LevelDB.LruCache
import Mathlib.Data.List.Perm.Basic
import Mathlib.Data.List.Nodup

/-! The hash table of a cache shard: what it holds, and that growing keeps it. -/
namespace LevelDB.Lru.HandleTable

variable {K V D : Type}

/-- The table holds these entries, each once and in the bucket of its hash, and no two of
one key. -/
structure Holds (hash : K → UInt32) (t : HandleTable) (entries : Heap K V D) (members : Nat → Prop) : Prop where
  filled : 0 < t.list.length
  nodup : t.list.flatten.Nodup
  count : t.elems = t.list.flatten.length
  mem : ∀ e, e ∈ t.list.flatten ↔ members e
  place : ∀ i chain, t.list[i]? = some chain → ∀ e ∈ chain, bucket t.list.length (hashOf entries e) = i
  held : ∀ e, members e → ∃ h, entries e = some h ∧ h.hash = hash h.key
  apart : ∀ e e' h h', members e → members e' → entries e = some h → entries e' = some h' → h.key = h'.key → e = e'

theorem bucket_lt {length : Nat} (filled : 0 < length) (hash : UInt32) : bucket length hash < length := by
  have low : bucket length hash ≤ length - 1 := Nat.and_le_right
  omega

theorem hashOf_eq {entries : Heap K V D} {e : Nat} {h : LRUHandle K V D} (alive : entries e = some h) :
    hashOf entries e = h.hash := by
  rw [hashOf,alive]
  rfl

section Keys
variable {hash : K → UInt32} {t : HandleTable} {entries : Heap K V D} {members : Nat → Prop} {key : K} {e : Nat}

theorem Holds.index_lt (holds : Holds hash t entries members) (code : UInt32) :
    bucket t.list.length code < t.list.length := bucket_lt holds.filled code

theorem Holds.chain_getElem (holds : Holds hash t entries members) (code : UInt32) :
    t.list[bucket t.list.length code]? = some (t.chain code) := by
  rw [chain,List.getD_eq_getElem?_getD,List.getElem?_eq_getElem (holds.index_lt code)]
  rfl

/-- The chain of a bucket among the others. -/
theorem Holds.split (holds : Holds hash t entries members) (code : UInt32) : ∃ before after,
    t.list = before ++ t.chain code :: after ∧ before.length = bucket t.list.length code ∧
      ∀ c, t.list.set (bucket t.list.length code) c = before ++ c :: after := by
  have bound := holds.index_lt code
  have here : t.list[bucket t.list.length code] = t.chain code := by
    have found := holds.chain_getElem code
    rw [List.getElem?_eq_getElem bound] at found
    exact Option.some.inj found
  refine ⟨t.list.take (bucket t.list.length code),t.list.drop (bucket t.list.length code + 1),?_,?_,?_⟩
  · rw [← here,List.getElem_cons_drop,List.take_append_drop]
  · exact List.length_take_of_le (Nat.le_of_lt bound)
  · intro c
    exact List.set_eq_take_append_cons_drop.trans (if_pos bound)

theorem Holds.mem_chain (holds : Holds hash t entries members) (code : UInt32) {e : Nat} :
    e ∈ t.chain code ↔ members e ∧ bucket t.list.length (hashOf entries e) = bucket t.list.length code := by
  constructor
  · intro inside
    have found := holds.chain_getElem code
    exact ⟨(holds.mem e).mp (List.mem_flatten.mpr ⟨_,List.mem_of_getElem? found,inside⟩),holds.place _ _ found e inside⟩
  · rintro ⟨member,same⟩
    obtain ⟨c,position,inside⟩ := List.mem_flatten.mp ((holds.mem e).mpr member)
    obtain ⟨i,found⟩ := List.mem_iff_getElem?.mp position
    have there := holds.place i c found e inside
    rw [← there,same,holds.chain_getElem code] at found
    exact Option.some.inj found ▸ inside

theorem Holds.frame (holds : Holds hash t entries members) {entries' : Heap K V D}
    (kept : ∀ e, members e → ∀ h, entries e = some h → ∃ h', entries' e = some h' ∧ h'.key = h.key ∧ h'.hash = h.hash) :
    Holds hash t entries' members := by
  have hashes : ∀ e, members e → hashOf entries' e = hashOf entries e := by
    intro e member
    obtain ⟨h,alive,-⟩ := holds.held e member
    obtain ⟨h',alive',-,same⟩ := kept e member h alive
    rw [hashOf_eq alive,hashOf_eq alive',same]
  refine ⟨holds.filled,holds.nodup,holds.count,holds.mem,?_,?_,?_⟩
  · intro i c found e inside
    have member := (holds.mem e).mp (List.mem_flatten.mpr ⟨c,List.mem_of_getElem? found,inside⟩)
    rw [hashes e member]
    exact holds.place i c found e inside
  · intro e member
    obtain ⟨h,alive,hashed⟩ := holds.held e member
    obtain ⟨h',alive',key,same⟩ := kept e member h alive
    exact ⟨h',alive',by rw [same,key,hashed]⟩
  · intro e e' h h' member member' alive alive' same
    obtain ⟨h₁,alive₁,-⟩ := holds.held e member
    obtain ⟨h₂,alive₂,-⟩ := holds.held e' member'
    obtain ⟨_,alive₁',key₁,-⟩ := kept e member h₁ alive₁
    obtain ⟨_,alive₂',key₂,-⟩ := kept e' member' h₂ alive₂
    cases alive₁'.symm.trans alive
    cases alive₂'.symm.trans alive'
    exact holds.apart e e' h₁ h₂ member member' alive₁ alive₂ (key₁.symm.trans (same.trans key₂))

theorem Holds.congr (holds : Holds hash t entries members) {members' : Nat → Prop} (same : ∀ e, members e ↔ members' e) :
    Holds hash t entries members' := by
  have equal : members = members' := funext fun e => propext (same e)
  exact equal ▸ holds

/-- A chain is replaced by another one. -/
theorem Holds.change (holds : Holds hash t entries members) (code : UInt32) (c : List Nat) (elems : Nat)
    {members' : Nat → Prop} (nodup : c.Nodup) (own : ∀ e ∈ c, e ∈ t.chain code ∨ ¬members e)
    (count : elems + (t.chain code).length = t.elems + c.length)
    (mem : ∀ e, members' e ↔ e ∈ c ∨ members e ∧ e ∉ t.chain code)
    (place : ∀ e ∈ c, bucket t.list.length (hashOf entries e) = bucket t.list.length code)
    (held : ∀ e, members' e → ∃ h, entries e = some h ∧ h.hash = hash h.key)
    (apart : ∀ e e' h h', members' e → members' e' → entries e = some h → entries e' = some h' → h.key = h'.key →
      e = e') : Holds hash ⟨elems,t.list.set (bucket t.list.length code) c⟩ entries members' := by
  obtain ⟨before,after,whole,position,update⟩ := holds.split code
  have distinct := holds.nodup
  have total := holds.count
  have inside := holds.mem
  rw [whole] at distinct total inside
  simp only [List.flatten_append,List.flatten_cons] at distinct total inside
  have same : t.list.length = (t.list.set (bucket t.list.length code) c).length := List.length_set.symm
  have flat : (t.list.set (bucket t.list.length code) c).flatten = before.flatten ++ (c ++ after.flatten) := by
    rw [update,List.flatten_append,List.flatten_cons]
  simp only [List.nodup_append,List.mem_append] at distinct
  obtain ⟨left,⟨chain,right,cross⟩,cross'⟩ := distinct
  refine ⟨?_,?_,?_,?_,?_,held,apart⟩
  · exact same ▸ holds.filled
  · rw [flat]
    simp only [List.nodup_append,List.mem_append]
    refine ⟨left,⟨nodup,right,?_⟩,?_⟩
    · rintro x first y second rfl
      rcases own x first with old | fresh
      · exact cross x old x second rfl
      · exact fresh ((inside x).mp (by simp [second]))
    · rintro x first y second rfl
      rcases second with second | second
      · rcases own x second with old | fresh
        · exact cross' x first x (.inl old) rfl
        · exact fresh ((inside x).mp (by simp [first]))
      · exact cross' x first x (.inr second) rfl
  · rw [flat]
    simp only [List.length_append] at total ⊢
    omega
  · intro e
    rw [flat,mem,← inside e]
    simp only [List.mem_append]
    constructor
    · rintro (first | first | first)
      · exact .inr ⟨.inl first,fun old => cross' e first e (.inl old) rfl⟩
      · exact .inl first
      · exact .inr ⟨.inr (.inr first),fun old => cross e old e first rfl⟩
    · rintro (first | ⟨first | first | first,absent⟩)
      · exact .inr (.inl first)
      · exact .inl first
      · exact absurd first absent
      · exact .inr (.inr first)
  · intro i c' found e member
    rw [← same]
    by_cases here : i = bucket t.list.length code
    · subst here
      rw [List.getElem?_set_self (holds.index_lt code)] at found
      cases found
      exact place e member
    · rw [List.getElem?_set_ne (Ne.symm here)] at found
      exact holds.place i c' found e member

theorem modify_flatten {list : List (List Nat)} {i : Nat} (bound : i < list.length) (e : Nat) :
    (list.modify i (e :: ·)).flatten.Perm (e :: list.flatten) := by
  induction list generalizing i with
  | nil => exact absurd bound (Nat.not_lt_zero i)
  | cons c rest ih =>
    cases i with
    | zero => exact List.Perm.refl _
    | succ i =>
      rw [List.modify_succ_cons,List.flatten_cons,List.flatten_cons]
      exact ((ih (Nat.lt_of_succ_lt_succ bound)).append_left c).trans List.perm_middle

theorem newLength_pos (elems fuel : Nat) {length : Nat} (filled : 0 < length) : 0 < newLength elems fuel length := by
  induction fuel generalizing length with
  | zero => exact filled
  | succ fuel ih =>
    rw [newLength]
    split
    · exact ih (Nat.mul_pos filled Nat.two_pos)
    · exact filled

/-- The new buckets hold the entries of the old ones. -/
theorem place_spec (entries : Heap K V D) {length : Nat} (filled : 0 < length) (es : List Nat) (list : List (List Nat))
    (same : list.length = length)
    (right : ∀ i chain, list[i]? = some chain → ∀ e ∈ chain, bucket length (hashOf entries e) = i) :
    let placed := es.foldl (fun list e => list.modify (bucket length (hashOf entries e)) (e :: ·)) list
    placed.length = length ∧ placed.flatten.Perm (es ++ list.flatten) ∧
      ∀ i chain, placed[i]? = some chain → ∀ e ∈ chain, bucket length (hashOf entries e) = i := by
  induction es generalizing list with
  | nil => exact ⟨same,List.Perm.refl _,right⟩
  | cons e es ih =>
    have bound : bucket length (hashOf entries e) < list.length := same ▸ bucket_lt filled _
    obtain ⟨size,perm,there⟩ := ih (list.modify (bucket length (hashOf entries e)) (e :: ·))
      (by rw [List.length_modify,same]) (by
        intro i c found x inside
        rw [List.getElem?_modify] at found
        obtain ⟨old,position,rfl⟩ := Option.map_eq_some_iff.mp found
        by_cases here : bucket length (hashOf entries e) = i
        · rw [if_pos here] at inside
          rcases List.mem_cons.mp inside with rfl | inside
          · exact here
          · exact right i old position x inside
        · rw [if_neg here] at inside
          exact right i old position x inside)
    refine ⟨size,perm.trans ?_,there⟩
    exact ((modify_flatten bound e).append_left es).trans List.perm_middle

theorem Holds.resize (holds : Holds hash t entries members) : Holds hash (t.resize entries) entries members := by
  have filled : 0 < newLength t.elems t.elems 4 := newLength_pos _ _ (by decide)
  have empty : (List.replicate (newLength t.elems t.elems 4) ([] : List Nat)).flatten = [] :=
    List.flatten_eq_nil_iff.mpr fun c member => List.eq_of_mem_replicate member
  obtain ⟨size,perm,there⟩ := place_spec entries filled t.list.flatten (List.replicate _ []) List.length_replicate (by
    intro i c found e inside
    rw [List.eq_of_mem_replicate (List.mem_of_getElem? found)] at inside
    cases inside)
  rw [empty,List.append_nil] at perm
  refine ⟨size ▸ filled,perm.nodup_iff.mpr holds.nodup,holds.count.trans perm.length_eq.symm,?_,?_,holds.held,holds.apart⟩
  · intro e
    exact perm.mem_iff.trans (holds.mem e)
  · intro i c found e inside
    exact (congrArg (bucket · _) size).trans (there i c found e inside)

theorem Holds.chain_nodup (holds : Holds hash t entries members) (code : UInt32) : (t.chain code).Nodup :=
  (List.nodup_flatten.mp holds.nodup).1 _ (List.mem_of_getElem? (holds.chain_getElem code))

variable [DecidableEq K]

theorem isFor_iff {code : UInt32} : isFor entries key code e = true ↔ ∃ h, entries e = some h ∧ h.key = key ∧ h.hash = code := by
  rw [isFor]
  split
  · rename_i h alive
    rw [alive,Bool.and_eq_true,beq_iff_eq,decide_eq_true_iff]
    constructor
    · rintro ⟨same,key⟩
      exact ⟨h,rfl,key,same⟩
    · rintro ⟨_,⟨⟩,key,same⟩
      exact ⟨same,key⟩
  · rename_i gone
    rw [gone]
    constructor
    · rintro ⟨⟩
    · rintro ⟨_,⟨⟩,-⟩

theorem Holds.lookup_eq (holds : Holds hash t entries members) :
    t.lookup entries key (hash key) = some e ↔ members e ∧ ∃ h, entries e = some h ∧ h.key = key := by
  constructor
  · intro found
    obtain ⟨h,alive,same,-⟩ := isFor_iff.mp (List.find?_some found)
    exact ⟨((holds.mem_chain _).mp (List.mem_of_find?_eq_some found)).1,h,alive,same⟩
  · rintro ⟨member,h,alive,rfl⟩
    obtain ⟨h',alive',hashed⟩ := holds.held e member
    cases alive.symm.trans alive'
    have inside : e ∈ t.chain (hash h.key) := by
      rw [holds.mem_chain,hashOf_eq alive,hashed]
      exact ⟨member,rfl⟩
    obtain ⟨e',found⟩ : ∃ e', t.lookup entries h.key (hash h.key) = some e' := by
      rw [← Option.isSome_iff_exists,lookup,List.find?_isSome]
      exact ⟨e,inside,isFor_iff.mpr ⟨h,alive,rfl,hashed⟩⟩
    obtain ⟨h',alive',same,-⟩ := isFor_iff.mp (List.find?_some found)
    have member' := ((holds.mem_chain _).mp (List.mem_of_find?_eq_some found)).1
    rw [found,holds.apart e e' h h' member member' alive alive' same.symm]

theorem Holds.lookup_none (holds : Holds hash t entries members) :
    t.lookup entries key (hash key) = none ↔ ∀ e, members e → ∀ h, entries e = some h → h.key ≠ key := by
  rw [Option.eq_none_iff_forall_ne_some]
  constructor
  · intro none e member h alive same
    exact none e (holds.lookup_eq.mpr ⟨member,h,alive,same⟩)
  · intro other e found
    obtain ⟨member,h,alive,same⟩ := holds.lookup_eq.mp found
    exact other e member h alive same

/-- What a lookup finds is in its chain. -/
theorem Holds.found (holds : Holds hash t entries members) {code : UInt32} (found : t.lookup entries key code = some e) :
    e ∈ t.chain code ∧ members e := by
  have inside := List.mem_of_find?_eq_some found
  exact ⟨inside,((holds.mem_chain code).mp inside).1⟩

theorem remove_fst (t : HandleTable) (entries : Heap K V D) (key : K) (code : UInt32) :
    (t.remove entries key code).1 = t.lookup entries key code := by
  rw [HandleTable.remove]
  cases t.lookup entries key code <;> rfl

theorem insert_fst (t : HandleTable) (entries : Heap K V D) (e : Nat) (key : K) (code : UInt32) :
    (t.insert entries e key code).1 = t.lookup entries key code := by
  rw [HandleTable.insert]
  cases t.lookup entries key code <;> rfl

theorem Holds.remove (holds : Holds hash t entries members) :
    Holds hash (t.remove entries key (hash key)).2 entries fun e =>
      members e ∧ t.lookup entries key (hash key) ≠ some e := by
  rw [HandleTable.remove]
  cases found : t.lookup entries key (hash key) with
  | none =>
    refine holds.congr fun e => ?_
    simp
  | some old =>
    obtain ⟨inside,member⟩ := holds.found found
    refine holds.change (hash key) _ _ ((holds.chain_nodup _).erase old) ?_ ?_ ?_ ?_ ?_ ?_
    · intro e member
      exact .inl (List.mem_of_mem_erase member)
    · have positive : 0 < (t.chain (hash key)).length := List.length_pos_of_mem inside
      have positive' : 0 < t.elems := by
        rw [holds.count]
        exact List.length_pos_of_mem ((holds.mem old).mpr member)
      rw [List.length_erase_of_mem inside]
      omega
    · intro e
      rw [(holds.chain_nodup _).mem_erase_iff,ne_eq,Option.some.injEq]
      constructor
      · rintro ⟨member,other⟩
        by_cases here : e ∈ t.chain (hash key)
        · exact .inl ⟨Ne.symm other,here⟩
        · exact .inr ⟨member,here⟩
      · rintro (⟨other,here⟩ | ⟨member,absent⟩)
        · exact ⟨((holds.mem_chain _).mp here).1,Ne.symm other⟩
        · exact ⟨member,fun same => absent (same ▸ inside)⟩
    · intro e member
      exact ((holds.mem_chain _).mp (List.mem_of_mem_erase member)).2
    · intro e member
      exact holds.held e member.1
    · intro e e' h h' member member'
      exact holds.apart e e' h h' member.1 member'.1

/-- A new entry is the only one of its key once the one in its place is gone. -/
theorem Holds.newcomer (holds : Holds hash t entries members) {h : LRUHandle K V D} (alive : entries e = some h) :
    ∀ e' e'' h' h'', (e' = e ∨ members e' ∧ t.lookup entries h.key (hash h.key) ≠ some e') →
      (e'' = e ∨ members e'' ∧ t.lookup entries h.key (hash h.key) ≠ some e'') →
      entries e' = some h' → entries e'' = some h'' → h'.key = h''.key → e' = e'' := by
  rintro e' e'' h' h'' (rfl | ⟨member,other⟩) (rfl | ⟨member',other'⟩) alive' alive'' same
  · rfl
  · cases alive.symm.trans alive'
    exact absurd (holds.lookup_eq.mpr ⟨member',h'',alive'',same.symm⟩) other'
  · cases alive.symm.trans alive''
    exact absurd (holds.lookup_eq.mpr ⟨member,h',alive',same⟩) other
  · exact holds.apart e' e'' h' h'' member member' alive' alive'' same

/-- An entry whose key is not there goes to the end of its chain. -/
theorem Holds.append (holds : Holds hash t entries members) {h : LRUHandle K V D} (alive : entries e = some h)
    (hashed : h.hash = hash h.key) (fresh : ¬members e) (absent : t.lookup entries h.key (hash h.key) = none) :
    Holds hash ⟨t.elems + 1,t.list.set (bucket t.list.length (hash h.key)) (t.chain (hash h.key) ++ [e])⟩
      entries fun e' => e' = e ∨ members e' := by
  have single := holds.newcomer alive
  have outside : e ∉ t.chain (hash h.key) := fun inside => fresh ((holds.mem_chain _).mp inside).1
  have here : bucket t.list.length (hashOf entries e) = bucket t.list.length (hash h.key) := by
    rw [hashOf_eq alive,hashed]
  simp only [absent,ne_eq,reduceCtorEq,not_false_eq_true,and_true] at single
  refine holds.change (hash h.key) _ _ ?_ ?_ ?_ ?_ ?_ ?_ single
  · refine List.nodup_append.mpr ⟨holds.chain_nodup _,List.nodup_singleton e,?_⟩
    rintro x member y last rfl
    exact outside (List.mem_singleton.mp last ▸ member)
  · intro x member
    rcases List.mem_append.mp member with old | last
    · exact .inl old
    · exact .inr (List.mem_singleton.mp last ▸ fresh)
  · rw [List.length_append,List.length_singleton]
    omega
  · intro x
    simp only [List.mem_append,List.mem_singleton]
    constructor
    · rintro (rfl | member)
      · exact .inl (.inr rfl)
      · by_cases inside : x ∈ t.chain (hash h.key)
        · exact .inl (.inl inside)
        · exact .inr ⟨member,inside⟩
    · rintro ((inside | rfl) | ⟨member,-⟩)
      · exact .inr ((holds.mem_chain _).mp inside).1
      · exact .inl rfl
      · exact .inr member
  · intro x member
    rcases List.mem_append.mp member with old | last
    · exact ((holds.mem_chain _).mp old).2
    · exact List.mem_singleton.mp last ▸ here
  · rintro e' (rfl | member)
    · exact ⟨h,alive,hashed⟩
    · exact holds.held e' member

theorem Holds.insert (holds : Holds hash t entries members) {h : LRUHandle K V D} (alive : entries e = some h)
    (hashed : h.hash = hash h.key) (fresh : ¬members e) :
    Holds hash (t.insert entries e h.key (hash h.key)).2 entries fun e' =>
      e' = e ∨ members e' ∧ t.lookup entries h.key (hash h.key) ≠ some e' := by
  have single := holds.newcomer alive
  have held : ∀ e', (e' = e ∨ members e' ∧ t.lookup entries h.key (hash h.key) ≠ some e') →
      ∃ h', entries e' = some h' ∧ h'.hash = hash h'.key := by
    rintro e' (rfl | ⟨member,-⟩)
    · exact ⟨h,alive,hashed⟩
    · exact holds.held e' member
  have outside : e ∉ t.chain (hash h.key) := fun inside => fresh ((holds.mem_chain _).mp inside).1
  have here : bucket t.list.length (hashOf entries e) = bucket t.list.length (hash h.key) := by
    rw [hashOf_eq alive,hashed]
  rw [HandleTable.insert]
  cases found : t.lookup entries h.key (hash h.key) with
  | none =>
    have same : ∀ e', e' = e ∨ members e' ↔ e' = e ∨ members e' ∧ none ≠ some e' := by simp
    have added := (holds.append alive hashed fresh found).congr same
    dsimp only
    split
    · exact added.resize
    · exact added
  | some old =>
    rw [found] at single held
    obtain ⟨inside,member⟩ := holds.found found
    have mem : ∀ x, x ∈ (t.chain (hash h.key)).map (fun x => if x = old then e else x) ↔
        x = e ∨ x ∈ t.chain (hash h.key) ∧ x ≠ old := by
      intro x
      rw [List.mem_map]
      constructor
      · rintro ⟨y,there,rfl⟩
        split
        · exact .inl rfl
        · rename_i other
          exact .inr ⟨there,other⟩
      · rintro (rfl | ⟨there,other⟩)
        · exact ⟨old,inside,if_pos rfl⟩
        · exact ⟨x,there,if_neg other⟩
    refine holds.change (hash h.key) _ _ ?_ ?_ ?_ ?_ ?_ held single
    · refine (holds.chain_nodup _).map_on fun x first y second same => ?_
      split at same <;> split at same
      · rename_i left right
        exact left.trans right.symm
      · exact absurd (same ▸ second) outside
      · exact absurd (same ▸ first) outside
      · exact same
    · intro x there
      rcases (mem x).mp there with rfl | ⟨old,-⟩
      · exact .inr fresh
      · exact .inl old
    · rw [List.length_map]
    · intro x
      rw [mem,ne_eq,Option.some.injEq]
      constructor
      · rintro (rfl | ⟨member,other⟩)
        · exact .inl (.inl rfl)
        · by_cases there : x ∈ t.chain (hash h.key)
          · exact .inl (.inr ⟨there,Ne.symm other⟩)
          · exact .inr ⟨member,there⟩
      · rintro ((rfl | ⟨there,other⟩) | ⟨member,absent⟩)
        · exact .inl rfl
        · exact .inr ⟨((holds.mem_chain _).mp there).1,Ne.symm other⟩
        · exact .inr ⟨member,fun same => absent (same ▸ inside)⟩
    · intro x there
      rcases (mem x).mp there with rfl | ⟨old,-⟩
      · exact here
      · exact ((holds.mem_chain _).mp old).2

/-- An entry that is in the table already takes its own place. -/
theorem Holds.insert_again (holds : Holds hash t entries members) {h : LRUHandle K V D} (alive : entries e = some h)
    (member : members e) : t.insert entries e h.key (hash h.key) = (some e,t) := by
  have found : t.lookup entries h.key (hash h.key) = some e := holds.lookup_eq.mpr ⟨member,h,alive,rfl⟩
  have unchanged : (t.chain (hash h.key)).map (fun x => if x = e then e else x) = t.chain (hash h.key) := by
    apply List.map_id''
    intro x
    split
    · exact Eq.symm ‹x = e›
    · rfl
  obtain ⟨bound,there⟩ := List.getElem?_eq_some_iff.mp (holds.chain_getElem (hash h.key))
  have same : t.list.set (bucket t.list.length (hash h.key)) (t.chain (hash h.key)) = t.list := by
    simp only [← there,List.set_getElem_self]
  simp only [HandleTable.insert,found,unchanged,same]

end Keys

end LevelDB.Lru.HandleTable
