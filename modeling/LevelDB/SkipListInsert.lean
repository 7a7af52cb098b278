import LevelDB.SkipList

/-! `SkipList::Insert`, one store at a time. -/
namespace LevelDB.SkipList

variable {K R : Type}

/-- Where the running insert is. -/
inductive Phase (K : Type)
  | idle
  /-- `FindGreaterOrEqual` has filled `prev`. -/
  | found (key : K) (height : Nat) (prev : Nat → Option Nat)
  /-- `max_height_` is high enough. -/
  | raised (key : K) (height : Nat) (prev : Nat → Option Nat)
  /-- The levels below this one are linked. -/
  | linking (key : K) (height : Nat) (prev : Nat → Option Nat) (x level : Nat)
  /-- The node has its pointer for this level. -/
  | loaded (key : K) (height : Nat) (prev : Nat → Option Nat) (x level : Nat)

/-- The key that is being inserted. -/
def Phase.current : Phase K → Option K
  | .idle => none
  | .found key .. | .raised key .. | .linking key .. | .loaded key .. => some key

/-- It is there once level 0 is linked. -/
def Phase.linked : Phase K → Option K
  | .linking key _ _ _ level | .loaded key _ _ _ level => if level = 0 then none else some key
  | _ => none

/-- A list with the inserts to come, with the heights that `RandomHeight` will return, and the
keys whose inserts have returned. -/
structure Writer (K : Type) where
  list : SkipList K
  phase : Phase K
  todo : List (K × Nat)
  inserted : List K

def Writer.start (any : K) (inserts : List (K × Nat)) : Writer K := ⟨new any,.idle,inserts,[]⟩

/-- The steps of the inserts that are left. -/
def Phase.left : Phase K → Nat
  | .idle => 0
  | .found _ height _ => 2 * height + 3
  | .raised _ height _ => 2 * height + 2
  | .linking _ height _ _ level => 2 * (height - level) + 1
  | .loaded _ height _ _ level => 2 * (height - level)

def Writer.left (w : Writer K) : Nat := w.phase.left + w.todo.foldr (fun p n => 2 * p.2 + 4 + n) 0

def Writer.present (w : Writer K) : List K := w.inserted ++ w.phase.linked.toList

section Ranked
variable [LinearOrder R] (rank : K → R)

/-- The assertion that nothing equal is in the list. -/
def isFresh (s : SkipList K) (key : K) (x : Option Nat) : Option Bool :=
  x.elim (some true) fun x => (s.key x).map fun k => rank key ≠ rank k

/-- Up to the next store of the insert; `none` is a failed assertion or a load that cannot be made. -/
def Writer.step (w : Writer K) : Option (Writer K) :=
  match w.phase with
  | .idle =>
    match w.todo with
    | [] => some w
    | (key,height) :: todo =>
      (w.list.findGreaterOrEqual rank key).bind fun r =>
        (w.list.isFresh rank key r.1).bind fun fresh =>
          if fresh ∧ 0 < height ∧ height ≤ kMaxHeight then some { w with phase := .found key height r.2, todo := todo }
          else none
  | .found key height prev =>
    if w.list.maxHeight < height then
      some { w with
        list := { w.list with maxHeight := height }
        phase := .raised key height fun i => if w.list.maxHeight ≤ i ∧ i < height then some head else prev i }
    else some { w with phase := .raised key height prev }
  | .raised key height prev =>
    some { w with
      list := { w.list with nodes := w.list.nodes ++ [newNode key height] }
      phase := .linking key height prev w.list.nodes.length 0 }
  | .linking key height prev x level =>
    if level < height then
      (prev level).bind fun p =>
        (w.list.next level p).bind fun n =>
          (w.list.setNext level x n).map fun list => { w with list := list, phase := .loaded key height prev x level }
    else some { w with phase := .idle, inserted := w.inserted ++ [key] }
  | .loaded key height prev x level =>
    (prev level).bind fun p =>
      (w.list.setNext level p (some x)).map fun list => { w with list := list, phase := .linking key height prev x (level + 1) }

def Writer.run : Nat → Writer K → Option (Writer K)
  | 0, w => some w
  | n + 1, w => (w.step rank).bind (run n)

/-- A whole insert. -/
def insert (s : SkipList K) (key : K) (height : Nat) : Option (SkipList K) :=
  (Writer.run rank (2 * height + 4) ⟨s,.idle,[(key,height)],[]⟩).map Writer.list

end Ranked

/-! What a store changes. -/

def height (s : SkipList K) (x : Nat) : Option Nat := s.nodes[x]?.map fun node => node.next.length

/-- The list after the store of one pointer. -/
structure Stored (s : SkipList K) (level x : Nat) (link : Option Nat) (s' : SkipList K) : Prop where
  done : s.setNext level x link = some s'
  key : ∀ y, s'.key y = s.key y
  height : ∀ y, s'.height y = s.height y
  maxHeight : s'.maxHeight = s.maxHeight
  here : s'.next level x = some link
  frame : ∀ i y, i ≠ level ∨ y ≠ x → s'.next i y = s.next i y

theorem exists_stored {s : SkipList K} {level x tall : Nat} (link : Option Nat) (room : s.height x = some tall) (inside : level < tall) :
    ∃ s', Stored s level x link s' := by
  obtain ⟨node,found,rfl⟩ := Option.map_eq_some_iff.mp room
  have bound := (List.getElem?_eq_some_iff.mp found).1
  have set : ∀ y, (s.nodes.set x { node with next := node.next.set level (some link) })[y]? =
      if y = x then some { node with next := node.next.set level (some link) } else s.nodes[y]? := by
    intro y
    by_cases same : y = x
    · rw [if_pos same,same,List.getElem?_set_self bound]
    · rw [if_neg same,List.getElem?_set_ne (Ne.symm same)]
  refine ⟨{ s with nodes := s.nodes.set x { node with next := node.next.set level (some link) } },?_,?_,?_,rfl,?_,?_⟩
  · simp only [setNext,found,Option.bind_some,if_pos inside]
  · intro y
    simp only [SkipList.key,set]
    by_cases same : y = x
    · rw [if_pos same,same,found]
      rfl
    · rw [if_neg same]
  · intro y
    simp only [SkipList.height,set]
    by_cases same : y = x
    · rw [if_pos same,same,found]
      simp
    · rw [if_neg same]
  · simp only [SkipList.next,set,if_true,Option.bind_some]
    rw [List.getElem?_set_self inside]
    rfl
  · intro i y other
    simp only [SkipList.next,set]
    by_cases same : y = x
    · have apart : i ≠ level := other.resolve_right fun differs => differs same
      rw [if_pos same,same,found]
      simp only [Option.bind_some]
      rw [List.getElem?_set_ne (Ne.symm apart)]
    · rw [if_neg same]

/-- A node with a pointer has room for it. -/
theorem height_of_next {s : SkipList K} {level x : Nat} {link : Option Nat} (loaded : s.next level x = some link) :
    ∃ tall, s.height x = some tall ∧ level < tall := by
  obtain ⟨node,found,pointer⟩ := Option.bind_eq_some_iff.mp loaded
  refine ⟨node.next.length,by simp [SkipList.height,found],?_⟩
  by_contra short
  rw [List.getElem?_eq_none (Nat.le_of_not_lt short)] at pointer
  cases pointer

section Invariant
variable [LinearOrder R] {rank : K → R} {s s' : SkipList K} {levels : Nat → List Nat} {key : K} {tall x level : Nat}
  {prev : Nat → Option Nat}

/-- The pointers that are read later are the ones of the nodes on the levels. -/
theorem Levels.congr (h : s.Levels rank levels) (keys : ∀ y ∈ levels 0, s'.key y = s.key y)
    (next : ∀ i < kMaxHeight, ∀ y ∈ levels i, s'.next i y = s.next i y) (higher : s.maxHeight ≤ s'.maxHeight)
    (bounded : s'.maxHeight ≤ kMaxHeight) : s'.Levels rank levels where
  chain i small := (h.chain i small).congr (next i small)
  first := h.first
  sorted i := by
    have same : ∀ y ∈ levels i, s'.place rank y = s.place rank y := by
      intro y member
      unfold place
      rw [keys y (h.lower_le (Nat.zero_le i) member)]
    apply (h.sorted i).imp_of_mem
    intro a b first second less
    rw [same a first,same b second]
    exact less
  lower := h.lower
  high i above := h.high i (higher.trans above)
  positive := lt_of_lt_of_le h.positive higher
  bounded := bounded

omit [LinearOrder R] in
theorem Stored.place_eq (rank : K → R) {link : Option Nat} (stored : Stored s level x link s') : s'.place rank = s.place rank := by
  funext y
  unfold place
  rw [stored.key y]

/-- The store into the predecessor puts the node on the level. -/
theorem Levels.link (h : s.Levels rank levels) {p : Nat} {l r : List Nat} (list : levels level = l ++ p :: r)
    (cut : CutAt (s.place rank) (Set.Iio (rank key : WithBot R)) (levels level) p r) (here : s.place rank x = rank key)
    (below : ∀ j < level, x ∈ levels j) (absent : x ∉ levels level) (fresh : ∀ y ∈ r, s.place rank y ≠ rank key)
    (low : level < s.maxHeight) (ready : s.next level x = some r.head?) (stored : Stored s level p (some x) s') :
    s'.Levels rank (Function.update levels level (l ++ p :: x :: r)) := by
  have placed := stored.place_eq rank
  have self : Function.update levels level (l ++ p :: x :: r) level = l ++ p :: x :: r := Function.update_self ..
  have rest : ∀ i, i ≠ level → Function.update levels level (l ++ p :: x :: r) i = levels i :=
    fun i other => Function.update_of_ne other ..
  have grows : levels level ⊆ l ++ p :: x :: r := by
    rw [list]
    intro y member
    simp only [List.mem_append,List.mem_cons] at member ⊢
    tauto
  constructor
  · intro i small
    by_cases same : i = level
    · subst same
      have chain := h.chain i small
      have nodup := h.nodup i
      rw [list] at chain nodup absent
      rw [self]
      apply chain.link nodup absent ready stored.here
      exact fun y other => stored.frame i y (.inr other)
    · rw [rest i same]
      exact (h.chain i small).congr fun y _ => stored.frame i y (.inl same)
  · intro i
    by_cases same : i = level
    · subst same
      obtain ⟨t,first⟩ := h.first i
      rw [self]
      rw [list] at first
      cases l with
      | nil => exact ⟨x :: r,by simp [(List.cons.inj first).1]⟩
      | cons y l => exact ⟨l ++ p :: x :: r,by simp [(List.cons.inj first).1]⟩
    · rw [rest i same]
      exact h.first i
  · intro i
    rw [placed]
    by_cases same : i = level
    · subst same
      have sorted := h.sorted i
      rw [list] at sorted
      rw [self]
      apply pairwise_insert sorted (fun first second => first.trans second)
      · rw [here]
        exact cut.left
      · intro y member
        rw [here]
        exact lt_of_le_of_ne (not_lt.mp (cut.right y member)) (Ne.symm (fresh y member))
    · rw [rest i same]
      exact h.sorted i
  · intro i
    by_cases upper : i + 1 = level
    · rw [upper,self,rest i (by omega)]
      have sub : levels level ⊆ levels i := upper ▸ h.lower i
      rw [list] at sub
      intro y member
      simp only [List.mem_append,List.mem_cons] at member
      rcases member with before | rfl | rfl | behind
      · exact sub (List.mem_append_left _ before)
      · exact sub (by simp)
      · exact below i (by omega)
      · exact sub (List.mem_append_right _ (List.mem_cons_of_mem p behind))
    · rw [rest (i + 1) upper]
      by_cases same : i = level
      · subst same
        rw [self]
        exact fun y member => grows (h.lower i member)
      · rw [rest i same]
        exact h.lower i
  · intro i above
    rw [stored.maxHeight] at above
    rw [rest i (by omega)]
    exact h.high i above
  · rw [stored.maxHeight]
    exact h.positive
  · rw [stored.maxHeight]
    exact h.bounded

/-- `prev` has the nodes before the key on these levels. -/
def Prevs (rank : K → R) (s : SkipList K) (levels : Nat → List Nat) (key : K) (prev : Nat → Option Nat) (low high : Nat) : Prop :=
  ∀ i, low ≤ i → i < high → ∃ p r, prev i = some p ∧ CutAt (s.place rank) (Set.Iio (rank key : WithBot R)) (levels i) p r

/-- A node that is on the levels below one. -/
structure Linking (rank : K → R) (s : SkipList K) (levels : Nat → List Nat) (key : K) (tall : Nat) (prev : Nat → Option Nat)
    (x level : Nat) : Prop where
  has : s.key x = some key
  room : s.height x = some tall
  other : x ≠ head
  positive : 0 < tall
  small : tall ≤ s.maxHeight
  most : level ≤ tall
  mem : ∀ j, x ∈ levels j ↔ j < level
  fresh : ∀ y ∈ levels 0, y ≠ x → s.place rank y ≠ rank key
  prevs : Prevs rank s levels key prev level tall

def Phase.Ok (rank : K → R) (s : SkipList K) (levels : Nat → List Nat) : Phase K → Prop
  | .idle => True
  | .found key tall prev => 0 < tall ∧ tall ≤ kMaxHeight ∧ (∀ y ∈ levels 0, s.place rank y ≠ rank key) ∧
      Prevs rank s levels key prev 0 s.maxHeight
  | .raised key tall prev => 0 < tall ∧ tall ≤ s.maxHeight ∧ (∀ y ∈ levels 0, s.place rank y ≠ rank key) ∧
      Prevs rank s levels key prev 0 tall
  | .linking key tall prev x level => Linking rank s levels key tall prev x level
  | .loaded key tall prev x level => Linking rank s levels key tall prev x level ∧ level < tall ∧
      ∃ p r, prev level = some p ∧ CutAt (s.place rank) (Set.Iio (rank key : WithBot R)) (levels level) p r ∧
        s.next level x = some r.head?

/-- The invariant of the inserts: the levels, the insert that is running, and what is on level 0. -/
structure Writer.Ok (rank : K → R) (inserts : List (K × Nat)) (w : Writer K) (levels : Nat → List Nat) : Prop where
  layered : w.list.Levels rank levels
  phase : w.phase.Ok rank w.list levels
  content : ∀ k, (∃ x ∈ levels 0, x ≠ head ∧ w.list.key x = some k) ↔ k ∈ w.present
  all : w.inserted ++ w.phase.current.toList ++ w.todo.map Prod.fst = inserts.map Prod.fst
  heights : ∀ p ∈ w.todo, 0 < p.2 ∧ p.2 ≤ kMaxHeight

/-- What stays: the nodes of every level, and their keys. -/
structure Kept (s : SkipList K) (levels : Nat → List Nat) (s' : SkipList K) (levels' : Nat → List Nat) : Prop where
  nodes : ∀ i, levels i ⊆ levels' i
  keys : ∀ x ∈ levels 0, s'.key x = s.key x

theorem Kept.refl (s : SkipList K) (levels : Nat → List Nat) : Kept s levels s levels := ⟨fun _ _ member => member,fun _ _ => rfl⟩

theorem Kept.trans {s'' : SkipList K} {levels' levels'' : Nat → List Nat} (first : Kept s levels s' levels')
    (second : Kept s' levels' s'' levels'') : Kept s levels s'' levels'' where
  nodes i := fun _ member => second.nodes i (first.nodes i member)
  keys x member := (second.keys x (first.nodes 0 member)).trans (first.keys x member)

section Step
variable {w : Writer K} {inserts : List (K × Nat)}

/-- An insert begins: the search fills `prev`, and the assertions hold. -/
theorem Writer.Ok.step_idle (ok : w.Ok rank inserts levels) (distinct : (inserts.map fun p => rank p.1).Nodup)
    (idle : w.phase = .idle) : ∃ w', w.step rank = some w' ∧ w'.Ok rank inserts levels ∧ w'.left = w.left - 1 ∧ Kept w.list levels w'.list levels := by
  cases todo : w.todo with
  | nil =>
    refine ⟨w,?_,ok,?_,Kept.refl ..⟩
    · simp only [Writer.step,idle,todo]
    · simp [Writer.left,idle,todo,Phase.left]
  | cons p todo' =>
    obtain ⟨key,tall⟩ := p
    obtain ⟨positive,small⟩ := ok.heights (key,tall) (by rw [todo]; exact List.mem_cons_self)
    have all := ok.all
    rw [idle,todo] at all
    obtain ⟨f,done,ends⟩ := search_eq ok.layered (goesPast_key key)
    obtain ⟨r,cut,next⟩ := ends.found
    have fresh : ∀ y ∈ levels 0, w.list.place rank y ≠ rank key := by
      intro y member same
      by_cases first : y = head
      · rw [first,place_head] at same
        exact WithBot.bot_ne_coe same
      · obtain ⟨k,has,placed⟩ := ok.layered.key_of_mem member first
        rw [placed,WithBot.coe_inj] at same
        have present := (ok.content k).mp ⟨y,member,first,has⟩
        rw [Writer.present,idle] at present
        have apart : ((w.inserted ++ key :: todo'.map Prod.fst).map rank).Nodup := by
          have keys : w.inserted ++ key :: todo'.map Prod.fst = inserts.map Prod.fst := by simpa [Phase.current] using all
          rw [keys,List.map_map]
          exact distinct
        rw [List.map_append,List.nodup_append] at apart
        apply apart.2.2 (rank k) (List.mem_map_of_mem (by simpa [Phase.linked] using present)) (rank key) (by simp)
        exact same
    have passes : w.list.isFresh rank key f.next = some true := by
      rw [next]
      cases r with
      | nil => rfl
      | cons y r =>
        have member : y ∈ levels 0 := by
          obtain ⟨l,split⟩ := cut.cut
          rw [split]
          simp
        have first : y ≠ head := by
          rintro rfl
          exact cut.right head List.mem_cons_self (by rw [place_head]; exact WithBot.bot_lt_coe _)
        obtain ⟨k,has,placed⟩ := ok.layered.key_of_mem member first
        have apart := fresh y member
        rw [placed] at apart
        have differs : rank key ≠ rank k := fun same => apart (congrArg _ same.symm)
        simp [isFresh,has,differs]
    refine ⟨{ w with phase := .found key tall f.prev, todo := todo' },?_,⟨ok.layered,?_,?_,?_,?_⟩,?_,Kept.refl ..⟩
    · simp only [Writer.step,idle,todo,findGreaterOrEqual,done,Option.map_some,Option.bind_some,passes]
      exact if_pos ⟨trivial,positive,small⟩
    · refine ⟨positive,small,fresh,?_⟩
      intro i _ below
      have low : i < w.list.maxHeight := below
      exact ends.prev i (by omega)
    · have content := ok.content
      simp only [Writer.present,idle] at content
      exact content
    · simpa [Phase.current] using all
    · intro q member
      exact ok.heights q (by rw [todo]; exact List.mem_cons_of_mem _ member)
    · simp only [Writer.left,idle,todo,Phase.left,List.foldr_cons]
      omega

/-- `max_height_` is raised if it has to be; the new levels begin and end at `head_`. -/
theorem Writer.Ok.step_found (ok : w.Ok rank inserts levels) (found : w.phase = .found key tall prev) :
    ∃ w', w.step rank = some w' ∧ w'.Ok rank inserts levels ∧ w'.left = w.left - 1 ∧ Kept w.list levels w'.list levels := by
  obtain ⟨positive,small,fresh,prevs⟩ : 0 < tall ∧ tall ≤ kMaxHeight ∧ _ ∧ _ := by
    have phase := ok.phase
    rw [found] at phase
    exact phase
  have all := ok.all
  have content := ok.content
  simp only [found,Phase.current] at all
  simp only [Writer.present,found,Phase.linked] at content
  by_cases low : w.list.maxHeight < tall
  · have step : w.step rank = some { w with
        list := { w.list with maxHeight := tall }
        phase := .raised key tall fun i => if w.list.maxHeight ≤ i ∧ i < tall then some head else prev i } := by
      simp only [Writer.step,found,if_pos low]
    refine ⟨_,step,⟨?_,?_,content,all,ok.heights⟩,?_,⟨fun _ _ member => member,fun _ _ => rfl⟩⟩
    · exact ok.layered.congr (fun _ _ => rfl) (fun _ _ _ _ => rfl) low.le small
    · refine ⟨positive,le_rfl,fresh,?_⟩
      intro i _ below
      by_cases new : w.list.maxHeight ≤ i
      · refine ⟨head,[],if_pos ⟨new,below⟩,⟨⟨[],ok.layered.high i new⟩,?_,by simp⟩⟩
        rw [place_head]
        exact WithBot.bot_lt_coe _
      · obtain ⟨p,r,here,cut⟩ := prevs i (Nat.zero_le i) (Nat.lt_of_not_le new)
        exact ⟨p,r,(if_neg fun both => new both.1).trans here,cut⟩
    · simp only [Writer.left,found,Phase.left]
      omega
  · have step : w.step rank = some { w with phase := .raised key tall prev } := by
      simp only [Writer.step,found,if_neg low]
    have high := Nat.le_of_not_lt low
    refine ⟨_,step,⟨ok.layered,?_,content,all,ok.heights⟩,?_,Kept.refl ..⟩
    · exact ⟨positive,high,fresh,fun i _ below => prevs i (Nat.zero_le i) (lt_of_lt_of_le below high)⟩
    · simp only [Writer.left,found,Phase.left]
      omega

theorem Levels.lt_length (h : s.Levels rank levels) {i y : Nat} (member : y ∈ levels i) : y < s.nodes.length := by
  by_cases first : y = head
  · obtain ⟨l,same⟩ := h.first 0
    have chain := h.chain 0 (by decide)
    rw [same] at chain
    obtain ⟨node,here,-⟩ := Option.bind_eq_some_iff.mp chain.1
    exact first ▸ (List.getElem?_eq_some_iff.mp here).1
  · obtain ⟨k,has,-⟩ := h.key_of_mem member first
    obtain ⟨node,here,-⟩ := Option.map_eq_some_iff.mp has
    exact (List.getElem?_eq_some_iff.mp here).1

/-- The node is allocated; nothing points to it. -/
theorem Writer.Ok.step_raised (ok : w.Ok rank inserts levels) (raised : w.phase = .raised key tall prev) :
    ∃ w', w.step rank = some w' ∧ w'.Ok rank inserts levels ∧ w'.left = w.left - 1 ∧ Kept w.list levels w'.list levels := by
  obtain ⟨positive,small,fresh,prevs⟩ : 0 < tall ∧ tall ≤ w.list.maxHeight ∧ _ ∧ _ := by
    have phase := ok.phase
    rw [raised] at phase
    exact phase
  have all := ok.all
  have content := ok.content
  simp only [raised,Phase.current] at all
  simp only [Writer.present,raised,Phase.linked] at content
  have old : ∀ y < w.list.nodes.length, (w.list.nodes ++ [newNode key tall])[y]? = w.list.nodes[y]? :=
    fun y bound => List.getElem?_append_left bound
  have node : (w.list.nodes ++ [newNode key tall])[w.list.nodes.length]? = some (newNode key tall) := by simp
  have keys : ∀ y ∈ levels 0, SkipList.key ⟨w.list.nodes ++ [newNode key tall],w.list.maxHeight⟩ y = w.list.key y := by
    intro y member
    simp only [SkipList.key,old y (ok.layered.lt_length member)]
  have places : ∀ i, ∀ y ∈ levels i,
      place rank ⟨w.list.nodes ++ [newNode key tall],w.list.maxHeight⟩ y = w.list.place rank y := by
    intro i y member
    unfold place
    rw [keys y (ok.layered.lower_le (Nat.zero_le i) member)]
  have step : w.step rank = some { w with
      list := ⟨w.list.nodes ++ [newNode key tall],w.list.maxHeight⟩
      phase := .linking key tall prev w.list.nodes.length 0 } := by
    simp only [Writer.step,raised]
  refine ⟨_,step,⟨?_,?_,?_,all,ok.heights⟩,?_,⟨fun _ _ member => member,keys⟩⟩
  · apply ok.layered.congr keys ?_ le_rfl ok.layered.bounded
    intro i _ y member
    simp only [SkipList.next,old y (ok.layered.lt_length member)]
  · constructor
    · simp only [SkipList.key,node]
      rfl
    · simp only [SkipList.height,node,Option.map_some]
      exact congrArg some (List.length_replicate ..)
    · exact Nat.ne_of_gt (lt_of_le_of_lt (Nat.zero_le _) (ok.layered.lt_length (ok.layered.head_mem 0)))
    · exact positive
    · exact small
    · exact Nat.zero_le tall
    · intro j
      constructor
      · exact fun member => absurd (ok.layered.lt_length member) (lt_irrefl _)
      · exact fun below => absurd below (Nat.not_lt_zero j)
    · intro y member _
      rw [places 0 y member]
      exact fresh y member
    · intro i low below
      obtain ⟨p,r,here,cut⟩ := prevs i low below
      refine ⟨p,r,here,cut.congr (places i)⟩
  · intro k
    apply Iff.trans _ (content k)
    constructor
    · rintro ⟨y,member,other,has⟩
      exact ⟨y,member,other,(keys y member).symm.trans has⟩
    · rintro ⟨y,member,other,has⟩
      exact ⟨y,member,other,(keys y member).trans has⟩
  · simp only [Writer.left,raised,Phase.left]
    omega

/-- A node is linked in at this level or is done. -/
theorem Linking.stored {s' : SkipList K} {link : Option Nat} {i y : Nat} (linking : Linking rank s levels key tall prev x level)
    (stored : Stored s i y link s') : Linking rank s' levels key tall prev x level := by
  have placed := stored.place_eq rank
  refine ⟨?_,?_,linking.other,linking.positive,?_,linking.most,linking.mem,?_,?_⟩
  · rw [stored.key]
    exact linking.has
  · rw [stored.height]
    exact linking.room
  · rw [stored.maxHeight]
    exact linking.small
  · rw [placed]
    exact linking.fresh
  · unfold Prevs
    rw [placed]
    exact linking.prevs

/-- The node takes over the pointer of its predecessor. -/
theorem Writer.Ok.step_linking (ok : w.Ok rank inserts levels) (phase : w.phase = .linking key tall prev x level) :
    ∃ w', w.step rank = some w' ∧ w'.Ok rank inserts levels ∧ w'.left = w.left - 1 ∧ Kept w.list levels w'.list levels := by
  have linking : Linking rank w.list levels key tall prev x level := by
    have holds := ok.phase
    rw [phase] at holds
    exact holds
  have all := ok.all
  have content := ok.content
  simp only [phase,Phase.current] at all
  simp only [Writer.present,phase,Phase.linked] at content
  by_cases more : level < tall
  · obtain ⟨p,r,here,cut⟩ := linking.prevs level le_rfl more
    obtain ⟨l,split⟩ := cut.cut
    have small : level < kMaxHeight := lt_of_lt_of_le more (linking.small.trans ok.layered.bounded)
    have load : w.list.next level p = some r.head? := by
      have chain := ok.layered.chain level small
      rw [split] at chain
      exact chain.next_eq
    obtain ⟨s',stored⟩ := exists_stored r.head? linking.room more
    have step : w.step rank = some { w with list := s', phase := .loaded key tall prev x level } := by
      simp only [Writer.step,phase,if_pos more,here,Option.bind_some,load,stored.done,Option.map_some]
    have absent : ∀ i, ∀ y ∈ levels i, i ≠ level ∨ y ≠ x := by
      intro i y member
      by_cases same : i = level
      · subst same
        exact .inr fun equal => absurd ((linking.mem i).mp (equal ▸ member)) (lt_irrefl i)
      · exact .inl same
    refine ⟨_,step,⟨?_,⟨linking.stored stored,more,p,r,here,?_,stored.here⟩,?_,all,ok.heights⟩,?_,⟨fun _ _ member => member,fun y _ => stored.key y⟩⟩
    · exact ok.layered.congr (fun y _ => stored.key y) (fun i _ y member => stored.frame i y (absent i y member))
        stored.maxHeight.ge (stored.maxHeight ▸ ok.layered.bounded)
    · exact cut.congr fun y _ => congrFun (stored.place_eq rank) y
    · intro k
      apply Iff.trans _ (content k)
      simp only [stored.key]
    · simp only [Writer.left,phase,Phase.left]
      omega
  · have last : level = tall := Nat.le_antisymm linking.most (Nat.le_of_not_lt more)
    have step : w.step rank = some { w with phase := .idle, inserted := w.inserted ++ [key] } := by
      simp only [Writer.step,phase,if_neg more]
    have positive := linking.positive
    refine ⟨_,step,⟨ok.layered,trivial,?_,?_,ok.heights⟩,?_,Kept.refl ..⟩
    · intro k
      apply (content k).trans
      simp only [if_neg (show level ≠ 0 by omega),Writer.present,Phase.linked,Option.toList_none,List.append_nil,Option.toList_some]
    · simpa [Phase.current] using all
    · simp only [Writer.left,phase,Phase.left]
      omega

/-- The store that links the node in. -/
theorem Writer.Ok.step_loaded (ok : w.Ok rank inserts levels) (phase : w.phase = .loaded key tall prev x level) :
    ∃ w' levels', w.step rank = some w' ∧ w'.Ok rank inserts levels' ∧ w'.left = w.left - 1 ∧ Kept w.list levels w'.list levels' := by
  obtain ⟨linking,more,p,r,here,cut,ready⟩ : Linking rank w.list levels key tall prev x level ∧ _ := by
    have holds := ok.phase
    rw [phase] at holds
    exact holds
  have all := ok.all
  have content := ok.content
  simp only [phase,Phase.current] at all
  simp only [Writer.present,phase,Phase.linked] at content
  obtain ⟨l,split⟩ := cut.cut
  have small : level < kMaxHeight := lt_of_lt_of_le more (linking.small.trans ok.layered.bounded)
  have load : w.list.next level p = some r.head? := by
    have chain := ok.layered.chain level small
    rw [split] at chain
    exact chain.next_eq
  obtain ⟨wide,room,inside⟩ := height_of_next load
  obtain ⟨s',stored⟩ := exists_stored (some x) room inside
  have step : w.step rank = some { w with list := s', phase := .linking key tall prev x (level + 1) } := by
    simp only [Writer.step,phase,here,Option.bind_some,stored.done,Option.map_some]
  have absent : x ∉ levels level := fun member => absurd ((linking.mem level).mp member) (lt_irrefl _)
  have below : ∀ j < level, x ∈ levels j := fun j less => (linking.mem j).mpr less
  have fresh : ∀ y ∈ levels level, w.list.place rank y ≠ rank key := by
    intro y member
    exact linking.fresh y (ok.layered.lower_le (Nat.zero_le level) member) fun same => absent (same ▸ member)
  have behind : ∀ y ∈ r, w.list.place rank y ≠ rank key := by
    intro y member
    apply fresh y
    rw [split]
    simp [member]
  have linked := ok.layered.link split cut (place_of_key linking.other linking.has) below absent behind
    (lt_of_lt_of_le more linking.small) ready stored
  have on : ∀ i y, y ∈ Function.update levels level (l ++ p :: x :: r) i ↔ y ∈ levels i ∨ (i = level ∧ y = x) := by
    intro i y
    by_cases same : i = level
    · subst same
      rw [Function.update_self,split]
      simp only [List.mem_append,List.mem_cons,true_and]
      tauto
    · rw [Function.update_of_ne same]
      simp [same]
  have stored' := linking.stored stored
  refine ⟨_,_,step,⟨linked,?_,?_,all,ok.heights⟩,?_,⟨?_,fun y _ => stored.key y⟩⟩
  · refine ⟨stored'.has,stored'.room,linking.other,linking.positive,stored'.small,more,?_,?_,?_⟩
    · intro j
      rw [on,linking.mem j]
      omega
    · intro y member other
      exact stored'.fresh y (((on 0 y).mp member).resolve_right fun new => other new.2) other
    · intro i low high
      rw [Function.update_of_ne (by omega)]
      exact stored'.prevs i (by omega) high
  · intro k
    simp only [Writer.present,Phase.linked,stored.key,on,if_neg (Nat.succ_ne_zero level)]
    by_cases bottom : level = 0
    · rw [if_pos bottom,Option.toList_none,List.append_nil] at content
      rw [Option.toList_some,List.mem_append,List.mem_singleton,← content k]
      constructor
      · rintro ⟨y,old | ⟨-,rfl⟩,other,has⟩
        · exact .inl ⟨y,old,other,has⟩
        · exact .inr (Option.some.inj (has.symm.trans linking.has))
      · rintro (⟨y,old,other,has⟩ | rfl)
        · exact ⟨y,.inl old,other,has⟩
        · exact ⟨x,.inr ⟨bottom.symm,rfl⟩,linking.other,linking.has⟩
    · rw [if_neg bottom] at content
      rw [← content k]
      simp [Ne.symm bottom]
  · simp only [Writer.left,phase,Phase.left]
    omega
  · intro i y member
    exact (on i y).mpr (.inl member)

theorem Writer.Ok.step (ok : w.Ok rank inserts levels) (distinct : (inserts.map fun p => rank p.1).Nodup) :
    ∃ w' levels', w.step rank = some w' ∧ w'.Ok rank inserts levels' ∧ w'.left = w.left - 1 ∧ Kept w.list levels w'.list levels' := by
  cases phase : w.phase with
  | idle => exact (ok.step_idle distinct phase).imp fun w' done => ⟨levels,done⟩
  | found => exact (ok.step_found phase).imp fun w' done => ⟨levels,done⟩
  | raised => exact (ok.step_raised phase).imp fun w' done => ⟨levels,done⟩
  | linking => exact (ok.step_linking phase).imp fun w' done => ⟨levels,done⟩
  | loaded => exact ok.step_loaded phase

theorem Writer.Ok.run (distinct : (inserts.map fun p => rank p.1).Nodup) (n : Nat) (ok : w.Ok rank inserts levels) :
    ∃ w' levels', Writer.run rank n w = some w' ∧ w'.Ok rank inserts levels' ∧ w'.left = w.left - n ∧
      Kept w.list levels w'.list levels' := by
  induction n generalizing w levels with
  | zero => exact ⟨w,levels,rfl,ok,rfl,Kept.refl ..⟩
  | succ n ih =>
    obtain ⟨w₁,levels₁,step,ok₁,left₁,kept₁⟩ := ok.step distinct
    obtain ⟨w₂,levels₂,rest,ok₂,left₂,kept₂⟩ := ih ok₁
    refine ⟨w₂,levels₂,?_,ok₂,?_,kept₁.trans kept₂⟩
    · rw [Writer.run,step]
      exact rest
    · omega

/-- With no step left, all inserts have returned. -/
theorem Writer.Ok.inserted_eq (ok : w.Ok rank inserts levels) (done : w.left = 0) :
    w.phase = .idle ∧ w.inserted = inserts.map Prod.fst := by
  obtain ⟨none,rest⟩ := Nat.add_eq_zero_iff.mp done
  have todo : w.todo = [] := by
    cases todo : w.todo with
    | nil => rfl
    | cons p l =>
      rw [todo] at rest
      simp at rest
  have idle : w.phase = .idle := by
    have holds := ok.phase
    cases phase : w.phase with
    | idle => rfl
    | found | raised | linking => simp [phase,Phase.left] at none
    | loaded key tall prev x level =>
      rw [phase] at holds none
      have more : level < tall := holds.2.1
      simp only [Phase.left] at none
      omega
  have all := ok.all
  rw [idle,todo] at all
  exact ⟨idle,by simpa [Phase.current] using all⟩

theorem levels_new (any : K) : (new any).Levels rank fun _ => [head] where
  chain i small := by
    have pointer : (new any).next i head = some none := by
      simp only [SkipList.next,new,head,List.getElem?_cons_zero,Option.bind_some]
      rw [List.getElem?_replicate,if_pos small]
      rfl
    exact ⟨pointer,trivial⟩
  first _ := ⟨[],rfl⟩
  sorted _ := List.pairwise_singleton ..
  lower _ := fun _ member => member
  high _ _ := rfl
  positive := Nat.one_pos
  bounded := by
    change 1 ≤ kMaxHeight
    decide

theorem Writer.ok_start (any : K) (heights : ∀ p ∈ inserts, 0 < p.2 ∧ p.2 ≤ kMaxHeight) :
    (Writer.start any inserts).Ok rank inserts fun _ => [head] where
  layered := levels_new any
  phase := trivial
  content k := by simp [Writer.present,Writer.start,Phase.linked]
  all := by simp [Writer.start,Phase.current]
  heights := heights

end Step

/-- Which keys have been inserted before makes no difference to the list. -/
theorem step_inserted (w : Writer K) (earlier : List K) : Writer.step rank { w with inserted := earlier ++ w.inserted } =
    (w.step rank).map fun w' => { w' with inserted := earlier ++ w'.inserted } := by
  obtain ⟨list,phase,todo,inserted⟩ := w
  cases phase with
  | idle =>
    cases todo with
    | nil => rfl
    | cons p todo =>
      simp only [Writer.step,Option.map_bind]
      congr 1
      funext r
      simp only [Function.comp_apply,Option.map_bind]
      congr 1
      funext fresh
      simp only [apply_ite (Option.map _),Option.map_some,Option.map_none]
  | found key tall prev => simp only [Writer.step,apply_ite (Option.map _),Option.map_some]
  | raised key tall prev => rfl
  | linking key tall prev x level =>
    simp only [Writer.step,apply_ite (Option.map _),Option.map_bind,Option.map_some,List.append_assoc]
    congr 1
    simp [Function.comp_def,Option.map_bind]
  | loaded key tall prev x level => simp [Writer.step,Option.map_bind,Function.comp_def]

theorem run_inserted (n : Nat) (w : Writer K) (earlier : List K) : Writer.run rank n { w with inserted := earlier ++ w.inserted } =
    (Writer.run rank n w).map fun w' => { w' with inserted := earlier ++ w'.inserted } := by
  induction n generalizing w with
  | zero => rfl
  | succ n ih =>
    simp only [Writer.run,step_inserted,Option.bind_map,Option.map_bind]
    congr 1
    funext w'
    exact ih w'

/-- A list on which no insert is running, with its keys. -/
structure Holds (rank : K → R) (s : SkipList K) (levels : Nat → List Nat) (keys : List K) : Prop where
  layered : s.Levels rank levels
  content : ∀ k, (∃ x ∈ levels 0, x ≠ head ∧ s.key x = some k) ↔ k ∈ keys
  distinct : (keys.map rank).Nodup

theorem holds_new (any : K) : Holds rank (new any) (fun _ => [head]) [] where
  layered := levels_new any
  content k := by simp
  distinct := List.nodup_nil

theorem Holds.insert {keys : List K} (h : Holds rank s levels keys) (fresh : ∀ k ∈ keys, rank k ≠ rank key) (positive : 0 < tall)
    (small : tall ≤ kMaxHeight) : ∃ s' levels', s.insert rank key tall = some s' ∧ Holds rank s' levels' (keys ++ [key]) := by
  have names : (keys.map (fun k => (k,1)) ++ [(key,tall)]).map Prod.fst = keys ++ [key] := by
    rw [List.map_append,List.map_map]
    exact congrArg (fun l => l ++ [key]) (List.map_id keys)
  have start : Writer.Ok rank (keys.map (fun k => (k,1)) ++ [(key,tall)]) ⟨s,.idle,[(key,tall)],keys ++ []⟩ levels := by
    refine ⟨h.layered,trivial,?_,?_,?_⟩
    · intro k
      simpa [Writer.present,Phase.linked] using h.content k
    · rw [names]
      simp [Phase.current]
    · intro p member
      rw [List.mem_singleton.mp member]
      exact ⟨positive,small⟩
  have distinct : ((keys ++ [key]).map rank).Nodup := by
    rw [List.map_append,List.nodup_append]
    refine ⟨h.distinct,List.nodup_singleton _,?_⟩
    rintro _ member _ last rfl
    obtain ⟨k,inside,same⟩ := List.mem_map.mp member
    rw [List.map_singleton,List.mem_singleton] at last
    exact fresh k inside (same.trans last)
  have apart : ((keys.map (fun k => (k,1)) ++ [(key,tall)]).map fun p : K × Nat => rank p.1).Nodup := by
    rw [← names,List.map_map] at distinct
    exact distinct
  obtain ⟨w,levels',run,ok,left,-⟩ := start.run apart (2 * tall + 4)
  obtain ⟨idle,inserted⟩ := ok.inserted_eq (by rw [left]; simp [Writer.left,Phase.left])
  obtain ⟨w',run',rfl⟩ := Option.map_eq_some_iff.mp ((run_inserted _ ⟨s,.idle,[(key,tall)],[]⟩ keys).symm.trans run)
  refine ⟨w'.list,levels',?_,ok.layered,?_,distinct⟩
  · rw [SkipList.insert,run']
    rfl
  · intro k
    rw [ok.content k,Writer.present,idle,inserted,names]
    simp [Phase.linked]

end Invariant

end LevelDB.SkipList
