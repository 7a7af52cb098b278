import LevelDB.KvCache

/-! Clients of one `LruKvCache` and one database. Each of them runs the loop of the mixed
read and write driver; an operation of the cache or of the database is one step. -/
namespace LevelDB.KvCache

variable {K V : Type} [DecidableEq K]

/-- Where a client is in the body of the loop: the cache did not have the key, or what the
database had, or was given, goes into the cache next. -/
inductive Client (K V : Type) where
  | idle
  | missed (key : K)
  | filling (key : K) (value : V)
  deriving DecidableEq

def Client.fills (key : K) : Client K V → Bool
  | .filling k _ => k == key
  | _ => false

structure Shared (K V : Type) where
  cache : LruKvCache K V
  /-- What `db->Get` returns. -/
  db : K → Option V
  clients : List (Client K V)

inductive Turn (K V : Type) where
  | cacheGet (client : Nat) (key : K)
  | dbGet (client : Nat) (ok : Bool)
  | dbPut (client : Nat) (key : K) (value : V) (ok : Bool)
  | cachePut (client : Nat)

def Shared.initial (capacity : Nat) (db : K → Option V) (count : Nat) : Shared K V :=
  ⟨.new capacity,db,List.replicate count .idle⟩

def Shared.move (s : Shared K V) (client : Nat) (next : Client K V) : Shared K V :=
  { s with clients := s.clients.set client next }

def Shared.step (s : Shared K V) : Turn K V → Option (Shared K V)
  | .cacheGet client key => match s.clients[client]? with
    | some .idle =>
      let (value,cache) := s.cache.get key
      some ({ s with cache }.move client (if value.isSome then .idle else .missed key))
    | _ => none
  | .dbGet client ok => match s.clients[client]? with
    | some (.missed key) => match ok, s.db key with
      | true, some value => some (s.move client (.filling key value))
      | _, _ => some (s.move client .idle)
    | _ => none
  | .dbPut client key value ok => match s.clients[client]? with
    | some .idle =>
      if ok then some ({ s with db := Function.update s.db key (some value) }.move client (.filling key value))
      else some s
    | _ => none
  | .cachePut client => match s.clients[client]? with
    | some (.filling key value) => some ({ s with cache := s.cache.put key value }.move client .idle)
    | _ => none

def Shared.run (s : Shared K V) : List (Turn K V) → Option (Shared K V)
  | [] => some s
  | t :: rest => (s.step t).bind fun next => next.run rest

/-- The database gets no new value for a key that a client is putting into the cache. -/
def Turn.orderly (s : Shared K V) : Turn K V → Bool
  | .dbPut _ key _ true => s.clients.all fun c => !c.fills key
  | _ => true

def Shared.orderly (s : Shared K V) : List (Turn K V) → Bool
  | [] => true
  | t :: rest => match s.step t with
    | some next => t.orderly s && next.orderly rest
    | none => true

/-- What is being put into the cache is in the database, and so is what the cache has,
except for keys that are being put. -/
structure Shared.Inv (s : Shared K V) : Prop where
  cache : s.cache.Inv
  filling : ∀ key value, .filling key value ∈ s.clients → s.db key = some value
  cached : ∀ p ∈ s.cache.contents, s.db p.1 = some p.2 ∨ ∃ value, .filling p.1 value ∈ s.clients

section Steps
variable {s s' : Shared K V} {t : Turn K V}

/-- What each turn does. -/
theorem Shared.step_cases (step : s.step t = some s') :
    (∃ client key next, t = .cacheGet client key ∧ s.clients[client]? = some .idle ∧ (∀ k v, next ≠ .filling k v) ∧
      s' = { s with cache := (s.cache.get key).2 }.move client next) ∨
    (∃ client ok key next, t = .dbGet client ok ∧ s.clients[client]? = some (.missed key) ∧
      (∀ k v, next = .filling k v → s.db k = some v) ∧ s' = s.move client next) ∨
    (∃ client key value, t = .dbPut client key value true ∧ s.clients[client]? = some .idle ∧
      s' = { s with db := Function.update s.db key (some value) }.move client (.filling key value)) ∨
    (∃ client key value, t = .dbPut client key value false ∧ s' = s) ∨
    ∃ client key value, t = .cachePut client ∧ s.clients[client]? = some (.filling key value) ∧
      s' = { s with cache := s.cache.put key value }.move client .idle := by
  cases t with
  | cacheGet client key =>
    left
    simp only [Shared.step] at step
    split at step
    · rename_i idle
      cases step
      refine ⟨client,key,_,rfl,idle,?_,rfl⟩
      intro k v
      split <;> simp
    · cases step
  | dbGet client ok =>
    right
    left
    simp only [Shared.step] at step
    split at step
    · rename_i key missed
      split at step
      · rename_i value found
        cases step
        refine ⟨client,_,key,_,rfl,missed,?_,rfl⟩
        rintro k v ⟨⟩
        exact found
      · cases step
        exact ⟨client,_,key,_,rfl,missed,by simp,rfl⟩
    · cases step
  | dbPut client key value ok =>
    right
    right
    simp only [Shared.step] at step
    split at step
    · rename_i idle
      cases ok with
      | true =>
        cases step
        exact .inl ⟨client,key,value,rfl,idle,rfl⟩
      | false =>
        cases step
        exact .inr (.inl ⟨client,key,value,rfl,rfl⟩)
    · cases step
  | cachePut client =>
    right
    right
    right
    right
    simp only [Shared.step] at step
    split at step
    · rename_i key value filling
      cases step
      exact ⟨client,key,value,rfl,filling,rfl⟩
    · cases step

omit [DecidableEq K] in
/-- The other clients stay where they are. -/
theorem mem_set_filling {clients : List (Client K V)} {client : Nat} {was next : Client K V} {key : K} {value : V}
    (there : clients[client]? = some was) (other : was ≠ .filling key value) (member : .filling key value ∈ clients) :
    .filling key value ∈ clients.set client next := by
  obtain ⟨j,found⟩ := List.mem_iff_getElem?.mp member
  refine List.mem_iff_getElem?.mpr ⟨j,?_⟩
  rw [List.getElem?_set_ne]
  · exact found
  · rintro rfl
    rw [there] at found
    exact other (Option.some.inj found)

theorem Shared.Inv.step (inv : s.Inv) (orderly : t.orderly s = true) (step : s.step t = some s') : s'.Inv := by
  obtain ⟨client,key,next,rfl,idle,plain,rfl⟩ | ⟨client,ok,key,next,rfl,missed,found,rfl⟩ |
    ⟨client,key,value,rfl,idle,rfl⟩ | ⟨client,key,value,rfl,rfl⟩ | ⟨client,key,value,rfl,filling,rfl⟩ :=
    Shared.step_cases step
  · obtain ⟨cache,-,contents⟩ := inv.cache.get key
    refine ⟨cache,fun k v member => ?_,fun p hp => ?_⟩
    · rcases List.mem_or_eq_of_mem_set member with old | new
      · exact inv.filling k v old
      · exact absurd new.symm (plain k v)
    · have old : p ∈ s.cache.contents := mem_lruGet (contents ▸ hp)
      exact (inv.cached p old).imp id fun ⟨v,member⟩ => ⟨v,mem_set_filling idle (by simp) member⟩
  · refine ⟨inv.cache,fun k v member => ?_,fun p hp => ?_⟩
    · rcases List.mem_or_eq_of_mem_set member with old | new
      · exact inv.filling k v old
      · exact found k v new.symm
    · exact (inv.cached p hp).imp id fun ⟨v,member⟩ => ⟨v,mem_set_filling missed (by simp) member⟩
  · have free : ∀ v, .filling key v ∉ s.clients := by
      intro v member
      have other := List.all_eq_true.mp orderly _ member
      simp [Client.fills] at other
    have bound := (List.getElem?_eq_some_iff.mp idle).1
    refine ⟨inv.cache,fun k v member => ?_,fun p hp => ?_⟩
    · rcases List.mem_or_eq_of_mem_set member with old | new
      · have other : k ≠ key := by
          rintro rfl
          exact free v old
        exact (Function.update_of_ne other _ _).trans (inv.filling k v old)
      · cases new
        exact Function.update_self _ _ _
    · by_cases same : p.1 = key
      · refine .inr ⟨value,?_⟩
        rw [same]
        exact List.mem_set bound _
      · refine (inv.cached p hp).imp (fun found => (Function.update_of_ne same _ _).trans found) fun ⟨v,member⟩ => ?_
        exact ⟨v,mem_set_filling idle (by simp) member⟩
  · exact inv
  · obtain ⟨cache,contents⟩ := inv.cache.put key value
    have stored := inv.filling key value (List.mem_of_getElem? filling)
    refine ⟨cache,fun k v member => ?_,fun p hp => ?_⟩
    · rcases List.mem_or_eq_of_mem_set member with old | new
      · exact inv.filling k v old
      · cases new
    · rcases mem_lruPut (contents ▸ hp) with rfl | ⟨old,other⟩
      · exact .inl stored
      · refine (inv.cached p old).imp id fun ⟨v,member⟩ => ⟨v,mem_set_filling filling ?_ member⟩
        rintro ⟨⟩
        exact other rfl

theorem Shared.Inv.run {ts : List (Turn K V)} (inv : s.Inv) (orderly : s.orderly ts = true) (run : s.run ts = some s') :
    s'.Inv := by
  induction ts generalizing s with
  | nil =>
    cases run
    exact inv
  | cons t rest ih =>
    obtain ⟨next,step,later⟩ := Option.bind_eq_some_iff.mp run
    rw [Shared.orderly,step] at orderly
    obtain ⟨first,others⟩ := Bool.and_eq_true_iff.mp orderly
    exact ih (inv.step first step) others later

theorem Shared.step_length (step : s.step t = some s') : s'.clients.length = s.clients.length := by
  obtain ⟨client,key,next,-,-,-,rfl⟩ | ⟨client,ok,key,next,-,-,-,rfl⟩ | ⟨client,key,value,-,-,rfl⟩ |
    ⟨client,key,value,-,rfl⟩ | ⟨client,key,value,-,-,rfl⟩ := Shared.step_cases step
  · exact List.length_set
  · exact List.length_set
  · exact List.length_set
  · rfl
  · exact List.length_set

/-- A client alone is idle when it writes. -/
theorem Shared.orderly_alone (ts : List (Turn K V)) (alone : s.clients.length ≤ 1) : s.orderly ts = true := by
  induction ts generalizing s with
  | nil => rfl
  | cons t rest ih =>
    rw [Shared.orderly]
    split
    · rename_i next step
      rw [ih (Shared.step_length step ▸ alone),Bool.and_true]
      obtain ⟨client,key,_,rfl,-⟩ | ⟨client,ok,key,_,rfl,-⟩ | ⟨client,key,value,rfl,idle,-⟩ | ⟨client,key,value,rfl,-⟩ |
        ⟨client,key,value,rfl,-⟩ := Shared.step_cases step
      · rfl
      · rfl
      · refine List.all_eq_true.mpr fun c member => ?_
        have bound := (List.getElem?_eq_some_iff.mp idle).1
        obtain ⟨j,found⟩ := List.mem_iff_getElem?.mp member
        have bound' := (List.getElem?_eq_some_iff.mp found).1
        have same : j = client := by omega
        rw [same,idle] at found
        cases found
        rfl
      · rfl
      · rfl
    · rfl

/-- The cache and the database agree whenever no client is in the middle of the loop, if no
write to a key gets between another client's database operation on this key and the `Put` to
the cache that follows it; a client alone keeps to that. -/
theorem coherent_when_quiet (capacity : Nat) (db : K → Option V) (count : Nat) (ts : List (Turn K V))
    (orderly : (Shared.initial capacity db count).orderly ts = true ∨ count ≤ 1)
    (run : (Shared.initial capacity db count).run ts = some s) (quiet : ∀ c ∈ s.clients, c = .idle) :
    ∀ key value, (key,value) ∈ s.cache.contents → s.db key = some value := by
  have start : (Shared.initial capacity db count).Inv := by
    refine ⟨LruKvCache.new_inv capacity,fun key value member => ?_,fun p hp => ?_⟩
    · cases List.eq_of_mem_replicate member
    · cases hp
  have follows : (Shared.initial capacity db count).orderly ts = true := by
    refine orderly.elim id fun alone => Shared.orderly_alone ts ?_
    rw [Shared.initial,List.length_replicate]
    exact alone
  have inv := start.run follows run
  intro key value member
  rcases inv.cached (key,value) member with found | ⟨v,filling⟩
  · exact found
  · cases quiet _ filling

end Steps

/-- Two clients that write one after the other and read. -/
def orderlyTurns : List (Turn Nat Nat) :=
  [.dbPut 0 7 1 true,.cachePut 0,.dbPut 1 7 2 true,.cachePut 1,.cacheGet 0 8,.dbGet 0 true]

theorem coherent_when_quiet_writes :
    ∃ s, (Shared.initial 2 (fun _ => none) 2).run orderlyTurns = some s ∧ (∀ c ∈ s.clients, c = .idle) ∧
      (7,2) ∈ s.cache.contents ∧ s.db 7 = some 2 := by
  refine ⟨_,rfl,by decide,by decide,?_⟩
  exact coherent_when_quiet 2 (fun _ => none) 2 orderlyTurns (.inl (by decide)) rfl (by decide) 7 2 (by decide)

/-- Two writers of one key whose steps alternate leave the cache behind the database. -/
theorem incoherent_writers :
    ∃ s, (Shared.initial 2 (fun _ => none) 2).run
        ([.dbPut 0 7 1 true,.dbPut 1 7 2 true,.cachePut 1,.cachePut 0] : List (Turn Nat Nat)) = some s ∧
      (∀ c ∈ s.clients, c = .idle) ∧ (7,1) ∈ s.cache.contents ∧ s.db 7 = some 2 :=
  ⟨_,rfl,by decide,by decide,rfl⟩

end LevelDB.KvCache
