import LevelDB.Cursor
import LevelDB.IteratorReads

/-! `DBIter` as a cursor, in both directions. Going forward its internal iterator stands at
the entry that is shown; going back it stands before all entries of the saved key that the
sequence number sees. -/
namespace LevelDB

variable {K V : Type} [LinearOrder K]

section Visible
variable {sequence : Nat}

/-- Entries that are too new are passed over everywhere. -/
theorem visible_filter (skip : Option K) (entries : List (Entry K V)) :
    visible sequence skip (entries.filter fun e => e.sequence ≤ sequence) = visible sequence skip entries := by
  induction entries generalizing skip with
  | nil => rfl
  | cons e entries ih =>
    by_cases seen : e.sequence ≤ sequence
    · rw [List.filter_cons_of_pos (by simpa using seen),visible,visible,if_pos seen,if_pos seen]
      cases e.value with
      | none => exact ih _
      | some v => simp only [ih]
    · rw [List.filter_cons_of_neg (by simpa using seen),visible,if_neg seen,ih]

theorem firstVisible_filter (user : K) (entries : List (Entry K V)) :
    firstVisible sequence user (entries.filter fun e => e.sequence ≤ sequence) = firstVisible sequence user entries := by
  rw [firstVisible,List.find?_filter]
  congr 1
  funext e
  simp only [Bool.and_eq_decide]
  grind

/-- The keys at or after the skipped one are those of the seen entries. -/
def Follow (sequence : Nat) (skip : Option K) (entries : List (Entry K V)) : Prop :=
  ∀ key, skip = some key → ∀ e ∈ entries, e.sequence ≤ sequence → key ≤ e.userKey

variable {entries : List (Entry K V)} {skip : Option K}

theorem mem_visible_seen (sorted : entries.Pairwise fun a b => a.userKey ≤ b.userKey) (after : Follow sequence skip entries)
    (user : K) (value : V) :
    (user,value) ∈ visible sequence skip entries ↔
      skip ≠ some user ∧ (firstVisible sequence user entries).bind (·.value) = some value := by
  rw [← visible_filter,← firstVisible_filter]
  refine mem_visible _ skip (sorted.filter _) ?_ user value
  intro key same e member
  obtain ⟨inside,seen⟩ := List.mem_filter.mp member
  exact after key same e inside (by simpa using seen)

theorem visible_sorted_seen (sorted : entries.Pairwise fun a b => a.userKey ≤ b.userKey)
    (after : Follow sequence skip entries) : (visible sequence skip entries).Pairwise fun a b => a.1 < b.1 := by
  rw [← visible_filter]
  refine visible_sorted _ skip (sorted.filter _) ?_
  intro key same e member
  obtain ⟨inside,seen⟩ := List.mem_filter.mp member
  exact after key same e inside (by simpa using seen)

theorem follow_none : Follow sequence none entries := fun key impossible => by cases impossible

/-- Sorted lists of the same pairs are the same. -/
theorem sorted_ext {xs ys : List (K × V)} (left : xs.Pairwise fun a b => a.1 < b.1) (right : ys.Pairwise fun a b => a.1 < b.1)
    (same : ∀ user value, (user,value) ∈ xs ↔ (user,value) ∈ ys) : xs = ys := by
  have nodup : ∀ {zs : List (K × V)}, zs.Pairwise (fun a b => a.1 < b.1) → zs.Nodup :=
    fun pairs => pairs.imp fun less equal => absurd (congrArg Prod.fst equal) (ne_of_lt less)
  have perm : xs.Perm ys := (List.perm_ext_iff_of_nodup (nodup left) (nodup right)).mpr fun p => same p.1 p.2
  exact perm.eq_of_pairwise (fun a b _ _ one two => absurd one (not_lt_of_gt two)) left right

/-- Part of the entries shows part of the keys. -/
theorem visible_eq_filter {part : List (Entry K V)} (sorted : entries.Pairwise fun a b => a.userKey ≤ b.userKey)
    (sorted' : part.Pairwise fun a b => a.userKey ≤ b.userKey) (after : Follow sequence skip part) (P : K → Bool)
    (agree : ∀ user, skip ≠ some user → firstVisible sequence user part = if P user then firstVisible sequence user entries else none)
    (skipped : ∀ user, skip = some user → P user = false) :
    visible sequence skip part = (visible sequence none entries).filter fun x => P x.1 := by
  refine sorted_ext (visible_sorted_seen sorted' after) ((visible_sorted_seen sorted follow_none).filter _) ?_
  intro user value
  rw [mem_visible_seen sorted' after,List.mem_filter,mem_visible_seen sorted follow_none]
  by_cases hidden : skip = some user
  · simp [hidden,skipped user hidden]
  · rw [agree user hidden]
    cases chosen : P user with
    | true => simp [hidden]
    | false => simp

end Visible

section Parts
variable {sequence : Nat} {entries : List (Entry K V)}

theorem firstVisible_none {user : K} {part : List (Entry K V)} (other : ∀ e ∈ part, e.sequence ≤ sequence → e.userKey ≠ user) :
    firstVisible sequence user part = none := by
  refine List.find?_eq_none.mpr fun e member => ?_
  simp only [Bool.and_eq_true,decide_eq_true_eq,not_and]
  exact fun same seen => other e member seen same

theorem firstVisible_split (user : K) (m : Nat) (entries : List (Entry K V)) :
    firstVisible sequence user entries =
      (firstVisible sequence user (entries.take m)).or (firstVisible sequence user (entries.drop m)) := by
  rw [firstVisible,firstVisible,firstVisible,← List.find?_append,List.take_append_drop]

/-- What is shown behind a position, when the key there is left out. -/
theorem visible_after (m : Nat) (key : K) (sorted : entries.Pairwise fun a b => a.userKey ≤ b.userKey)
    (before : ∀ e ∈ entries.take m, e.sequence ≤ sequence → e.userKey ≤ key)
    (later : ∀ e ∈ entries.drop m, e.sequence ≤ sequence → key ≤ e.userKey) :
    visible sequence (some key) (entries.drop m) = (visible sequence none entries).filter fun x => key < x.1 := by
  refine visible_eq_filter sorted sorted.drop (fun k same e member seen => ?_) (fun user => decide (key < user)) ?_ ?_
  · obtain rfl := Option.some.inj same
    exact later e member seen
  · intro user other
    by_cases larger : key < user
    · have none : firstVisible sequence user (entries.take m) = none := by
        refine firstVisible_none fun e member seen same => ?_
        rw [← same] at larger
        exact absurd larger (not_lt.mpr (before e member seen))
      rw [if_pos (by simpa using larger),firstVisible_split user m entries,none,Option.none_or]
    · rw [if_neg (by simpa using larger)]
      refine firstVisible_none fun e member seen same => ?_
      have le := later e member seen
      rw [same] at le
      exact other (congrArg some (le_antisymm le (not_lt.mp larger)))
  · intro user same
    obtain rfl := Option.some.inj same
    simp

/-- What is shown from a position on. -/
theorem visible_from (m : Nat) (key : K) (sorted : entries.Pairwise fun a b => a.userKey ≤ b.userKey)
    (before : ∀ e ∈ entries.take m, e.sequence ≤ sequence → e.userKey < key)
    (later : ∀ e ∈ entries.drop m, e.sequence ≤ sequence → key ≤ e.userKey) :
    visible sequence none (entries.drop m) = (visible sequence none entries).filter fun x => key ≤ x.1 := by
  refine visible_eq_filter sorted sorted.drop follow_none (fun user => decide (key ≤ user)) ?_ (fun user impossible => by cases impossible)
  intro user _
  by_cases larger : key ≤ user
  · have none : firstVisible sequence user (entries.take m) = none := by
      refine firstVisible_none fun e member seen same => ?_
      rw [← same] at larger
      exact absurd larger (not_le.mpr (before e member seen))
    rw [if_pos (by simpa using larger),firstVisible_split user m entries,none,Option.none_or]
  · rw [if_neg (by simpa using larger)]
    refine firstVisible_none fun e member seen same => ?_
    rw [← same] at larger
    exact larger (later e member seen)

/-- What is shown before a position. -/
theorem visible_before (m : Nat) (key : K) (sorted : entries.Pairwise fun a b => a.userKey ≤ b.userKey)
    (before : ∀ e ∈ entries.take m, e.sequence ≤ sequence → e.userKey < key)
    (later : ∀ e ∈ entries.drop m, e.sequence ≤ sequence → key ≤ e.userKey) :
    visible sequence none (entries.take m) = (visible sequence none entries).filter fun x => x.1 < key := by
  refine visible_eq_filter sorted sorted.take follow_none (fun user => decide (user < key)) ?_ (fun user impossible => by cases impossible)
  intro user _
  by_cases smaller : user < key
  · have none : firstVisible sequence user (entries.drop m) = none := by
      refine firstVisible_none fun e member seen same => ?_
      rw [← same] at smaller
      exact absurd smaller (not_lt.mpr (later e member seen))
    rw [if_pos (by simpa using smaller),firstVisible_split user m entries,none,Option.or_none]
  · rw [if_neg (by simpa using smaller)]
    refine firstVisible_none fun e member seen same => ?_
    rw [← same] at smaller
    exact smaller (before e member seen)

end Parts

section Order
variable {entries : List (Entry K V)} {e : Entry K V} {i : Nat}

theorem le_of_mem_take (sorted : entries.Pairwise fun a b => a.userKey ≤ b.userKey) (here : entries[i]? = some e) :
    ∀ a ∈ entries.take (i + 1), a.userKey ≤ e.userKey := by
  obtain ⟨more,rfl⟩ := List.getElem?_eq_some_iff.mp here
  intro a member
  rw [List.take_succ_eq_append_getElem more] at member
  rcases List.mem_append.mp member with early | same
  · rw [← List.take_append_drop i entries,List.drop_eq_getElem_cons more] at sorted
    exact (List.pairwise_append.mp sorted).2.2 a early _ List.mem_cons_self
  · rw [List.mem_singleton.mp same]

theorem le_of_mem_drop (sorted : entries.Pairwise fun a b => a.userKey ≤ b.userKey) (here : entries[i]? = some e) :
    ∀ a ∈ entries.drop i, e.userKey ≤ a.userKey := by
  obtain ⟨more,rfl⟩ := List.getElem?_eq_some_iff.mp here
  intro a member
  have order := sorted.drop (i := i)
  rw [List.drop_eq_getElem_cons more] at member order
  rcases List.mem_cons.mp member with rfl | later
  · exact le_rfl
  · exact (List.pairwise_cons.mp order).1 a later

end Order

section Loops
variable {σ : Type} {internal : IteratorOps σ (Entry K V) (InternalKey K)} {entries : List (Entry K V)}
  {At : σ → Nat → Prop} {sequence : Nat}

/-- The state of a `DBIter` over the entries whose internal iterator stands at a position. -/
structure DbIter.Over (d : DbIter σ K V) (At : σ → Nat → Prop) (entries : List (Entry K V)) (sequence i : Nat) : Prop where
  stands : At d.iter i
  sequence : d.sequence = sequence
  limit : d.limit = entries.length

/-- It shows the entry at a position. -/
structure DbIter.Ahead (d : DbIter σ K V) (At : σ → Nat → Prop) (entries : List (Entry K V)) (sequence : Nat) (x : K × V) :
    Prop where
  valid : d.valid = true
  forward : d.forward = true
  shows : ∃ i e, d.Over At entries sequence i ∧ entries[i]? = some e ∧ e.userKey = x.1 ∧ e.value = some x.2 ∧
    e.sequence ≤ sequence

/-- It shows the saved entry and stands before it. -/
structure DbIter.Behind (d : DbIter σ K V) (At : σ → Nat → Prop) (entries : List (Entry K V)) (sequence : Nat) (x : K × V) :
    Prop where
  valid : d.valid = true
  forward : d.forward = false
  key : d.savedKey = some x.1
  value : d.savedValue = some x.2
  stands : ∃ n, n ≤ entries.length ∧ d.Over At entries sequence (if n = 0 then entries.length else n - 1) ∧
    (∀ e ∈ entries.take n, e.userKey < x.1) ∧ ∀ e ∈ entries.drop n, e.sequence ≤ sequence → x.1 ≤ e.userKey

/-- `FindNextUserEntry` stops at the first entry that is to be shown. -/
theorem findNextUserEntry_ahead (cursor : IsCursor internal Entry.key entries At) (fuel m : Nat) (skipping : Bool)
    (d : DbIter σ K V) (spent : d.Over At entries sequence m) (forward : d.forward = true) (inside : m ≤ entries.length)
    (enough : entries.length - m < fuel) :
    (visible sequence (if skipping then d.savedKey else none) (entries.drop m) = [] ∧
      (d.findNextUserEntry internal fuel skipping).valid = false ∧
      ∃ i, (d.findNextUserEntry internal fuel skipping).Over At entries sequence i) ∨
    ∃ x rest, visible sequence (if skipping then d.savedKey else none) (entries.drop m) = x :: rest ∧
      (d.findNextUserEntry internal fuel skipping).Ahead At entries sequence x := by
  induction fuel generalizing m skipping d with
  | zero => omega
  | succ fuel ih =>
    rw [DbIter.findNextUserEntry,cursor.current spent.stands]
    rcases Nat.lt_or_ge m entries.length with more | ended
    · have here : entries[m]? = some entries[m] := List.getElem?_eq_getElem more
      have unfolds : entries.drop m = entries[m] :: entries.drop (m + 1) := List.drop_eq_getElem_cons more
      have next : ∀ key : Option K, ({ d with savedKey := key }.step internal.next).Over At entries sequence (m + 1) :=
        fun key => ⟨cursor.next spent.stands more,spent.sequence,spent.limit⟩
      rw [here,unfolds,visible]
      generalize entries[m] = e at here
      by_cases seen : e.sequence ≤ sequence
      · have seen' : e.sequence ≤ d.sequence := spent.sequence ▸ seen
        simp only [if_pos seen,if_pos seen']
        cases value : e.value with
        | none => exact ih (m + 1) true _ (next (some e.userKey)) forward (by omega) (by omega)
        | some v =>
          have same : (skipping && d.savedKey.any fun key => decide (e.userKey ≤ key)) =
              (if skipping then d.savedKey else none).any fun key => decide (e.userKey ≤ key) := by
            cases skipping <;> simp
          simp only [same]
          by_cases hides : (if skipping then d.savedKey else none).any fun key => decide (e.userKey ≤ key)
          · rw [if_pos hides,if_pos hides]
            exact ih (m + 1) skipping _ (next d.savedKey) forward (by omega) (by omega)
          · rw [if_neg hides,if_neg hides]
            exact .inr ⟨_,_,rfl,rfl,forward,m,e,⟨spent.stands,spent.sequence,spent.limit⟩,here,rfl,value,seen⟩
      · have unseen : ¬e.sequence ≤ d.sequence := spent.sequence ▸ seen
        simp only [if_neg seen,if_neg unseen]
        exact ih (m + 1) skipping _ (next d.savedKey) forward (by omega) (by omega)
    · rw [List.getElem?_eq_none ended,List.drop_of_length_le ended]
      exact .inl ⟨rfl,rfl,m,spent.stands,spent.sequence,spent.limit⟩

/-- What the loop of `FindPrevUserEntry` has made of the entries it has passed. -/
structure DbIter.Passed (d : DbIter σ K V) (found : Bool) (sequence : Nat) (passed : List (Entry K V)) : Prop where
  nothing : found = false → visible sequence none passed = []
  something : found = true → ∃ x, d.savedKey = some x.1 ∧ d.savedValue = some x.2 ∧ visible sequence none passed = [x] ∧
    ∀ e ∈ passed, e.sequence ≤ sequence → x.1 ≤ e.userKey

/-- One more entry in front. -/
theorem visible_some_cons {e : Entry K V} {passed : List (Entry K V)} (sorted : (e :: passed).Pairwise fun a b => a.userKey ≤ b.userKey) :
    visible sequence (some e.userKey) passed = (visible sequence none passed).filter fun x => e.userKey < x.1 := by
  obtain ⟨below,rest⟩ := List.pairwise_cons.mp sorted
  have part : visible sequence (some e.userKey) (passed.drop 0) = _ :=
    visible_after 0 e.userKey rest (by simp) (by simpa using fun a member _ => below a member)
  exact part

theorem findPrevLoop_spec (cursor : IsCursor internal Entry.key entries At)
    (sorted : entries.Pairwise fun a b => a.userKey ≤ b.userKey) (n fuel : Nat) (found : Bool)
    (d : DbIter σ K V) (passed : List (Entry K V)) (start : Nat) (split : entries.take start = entries.take n ++ passed)
    (inside : n ≤ entries.length)
    (spent : d.Over At entries sequence (if n = 0 then entries.length else n - 1)) (held : d.Passed found sequence passed)
    (enough : n < fuel) :
    ∃ (n' : Nat) (passed' : List (Entry K V)), n' ≤ entries.length ∧ entries.take start = entries.take n' ++ passed' ∧
      (d.findPrevLoop internal fuel found).2.Over At entries sequence (if n' = 0 then entries.length else n' - 1) ∧
      (d.findPrevLoop internal fuel found).2.Passed (d.findPrevLoop internal fuel found).1 sequence passed' ∧
      (d.findPrevLoop internal fuel found).2.forward = d.forward ∧
      ((d.findPrevLoop internal fuel found).1 = false → n' = 0) ∧
      ∀ key, (d.findPrevLoop internal fuel found).1 = true →
        (d.findPrevLoop internal fuel found).2.savedKey = some key → ∀ e ∈ entries.take n', e.userKey < key := by
  induction n generalizing fuel found d passed with
  | zero =>
    obtain ⟨fuel,rfl⟩ : ∃ k, fuel = k + 1 := ⟨fuel - 1,by omega⟩
    have none : internal.current d.iter = none := by
      rw [cursor.current spent.stands]
      exact List.getElem?_eq_none (Nat.le_refl _)
    rw [DbIter.findPrevLoop,none]
    exact ⟨0,passed,Nat.zero_le _,split,spent,held,rfl,fun _ => rfl,by simp⟩
  | succ n ih =>
    obtain ⟨fuel,rfl⟩ : ∃ k, fuel = k + 1 := ⟨fuel - 1,by omega⟩
    have more : n < entries.length := by omega
    have stands : At d.iter n := spent.stands
    have here : internal.current d.iter = some entries[n] := by
      rw [cursor.current stands]
      exact List.getElem?_eq_getElem more
    have parts : entries.take start = entries.take n ++ entries[n] :: passed := by
      rw [split,List.take_succ_eq_append_getElem more,List.append_assoc]
      rfl
    have prev : ∀ (key : Option K) (value : Option V), ({ d with savedKey := key, savedValue := value }.step internal.prev).Over
        At entries sequence (if n = 0 then entries.length else n - 1) :=
      fun key value => ⟨cursor.prev stands more,spent.sequence,spent.limit⟩
    have tailSorted : (entries[n] :: passed).Pairwise fun a b => a.userKey ≤ b.userKey := by
      have whole := sorted.take (i := start)
      rw [parts] at whole
      exact (List.pairwise_append.mp whole).2.1
    rw [DbIter.findPrevLoop,here]
    have last := le_of_mem_take sorted (List.getElem?_eq_getElem more)
    generalize entries[n] = e at *
    by_cases seen : e.sequence ≤ sequence
    · have seen' : e.sequence ≤ d.sequence := spent.sequence ▸ seen
      simp only [if_pos seen']
      by_cases stops : (found && d.savedKey.any fun key => decide (e.userKey < key)) = true
      · -- a seen entry of a smaller key, while the saved one has a value
        rw [if_pos stops]
        rw [Bool.and_eq_true] at stops
        obtain ⟨x,key,-,-,-⟩ := held.something stops.1
        have smaller : e.userKey < x.1 := by simpa [key] using stops.2
        refine ⟨n + 1,passed,inside,split,spent,held,rfl,fun none => ?_,?_⟩
        · have none : found = false := none
          rw [none] at stops
          cases stops.1
        · intro key' _ same a member
          obtain rfl := Option.some.inj (key.symm.trans same)
          exact lt_of_le_of_lt (last a member) smaller
      · rw [if_neg stops]
        have hidden : visible sequence (some e.userKey) passed = [] := by
          rw [visible_some_cons tailSorted]
          cases found with
          | false => rw [held.nothing rfl,List.filter_nil]
          | true =>
            obtain ⟨x,key,-,shown,-⟩ := held.something rfl
            have notSmaller : ¬e.userKey < x.1 := by simpa [key] using stops
            rw [shown,List.filter_cons_of_neg (by simpa using notSmaller),List.filter_nil]
        cases value : e.value with
        | none =>
          refine ih fuel false _ (e :: passed) parts (by omega) (prev none none) ⟨fun _ => ?_,fun impossible => by cases impossible⟩ (by omega)
          simp only [visible,if_pos seen,value,hidden]
        | some v =>
          refine ih fuel true _ (e :: passed) parts (by omega) (prev (some e.userKey) (some v))
            ⟨fun impossible => (by cases impossible),fun _ => ⟨(e.userKey,v),rfl,rfl,?_,?_⟩⟩ (by omega)
          · simp [visible,seen,value,hidden]
          · intro a member _
            rcases List.mem_cons.mp member with rfl | later
            · exact le_rfl
            · exact (List.pairwise_cons.mp tailSorted).1 a later
    · have unseen : ¬e.sequence ≤ d.sequence := spent.sequence ▸ seen
      simp only [if_neg unseen]
      refine ih fuel found (d.step internal.prev) (e :: passed) parts (by omega) (prev d.savedKey d.savedValue) ⟨?_,?_⟩ (by omega)
      · intro none
        rw [visible,if_neg seen]
        exact held.nothing none
      · intro some
        obtain ⟨x,key,value,shown,above⟩ := held.something some
        refine ⟨x,key,value,by rw [visible,if_neg seen,shown],?_⟩
        intro a member seenA
        rcases List.mem_cons.mp member with rfl | later
        · exact absurd seenA seen
        · exact above a later seenA

/-- `FindPrevUserEntry` saves the last entry that is shown before the position. -/
theorem findPrevUserEntry_behind (cursor : IsCursor internal Entry.key entries At)
    (sorted : entries.Pairwise fun a b => a.userKey ≤ b.userKey) (n : Nat) (inside : n ≤ entries.length) (d : DbIter σ K V)
    (spent : d.Over At entries sequence (if n = 0 then entries.length else n - 1)) (backward : d.forward = false) :
    (visible sequence none (entries.take n) = [] ∧ (d.findPrevUserEntry internal).valid = false ∧
      ∃ i, (d.findPrevUserEntry internal).Over At entries sequence i) ∨
    ∃ before x, visible sequence none (entries.take n) = before ++ [x] ∧
      (d.findPrevUserEntry internal).Behind At entries sequence x := by
  have limit := spent.limit
  obtain ⟨n',passed,inside',split,spent',held,direction,ended,below⟩ := findPrevLoop_spec cursor sorted n (d.limit + 1) false d []
    n (List.append_nil _).symm inside spent ⟨fun _ => rfl,fun impossible => by cases impossible⟩ (by omega)
  rw [DbIter.findPrevUserEntry]
  generalize d.findPrevLoop internal (d.limit + 1) false = outcome at spent' held direction ended below
  obtain ⟨found,d'⟩ := outcome
  cases found with
  | false =>
    have start := ended rfl
    subst start
    rw [split,List.take_zero,List.nil_append]
    exact .inl ⟨held.nothing rfl,rfl,_,spent'.stands,spent'.sequence,spent'.limit⟩
  | true =>
    obtain ⟨x,key,value,shown,above⟩ := held.something rfl
    have smaller := below x.1 rfl key
    have sortedTake : (entries.take n).Pairwise fun a b => a.userKey ≤ b.userKey := sorted.take
    have length : (entries.take n').length = n' := List.length_take_of_le inside'
    have early : (entries.take n).take n' = entries.take n' := by rw [split]; exact List.take_left' length
    have late : (entries.take n).drop n' = passed := by rw [split]; exact List.drop_left' length
    have rest : entries.drop n' = passed ++ entries.drop n := by
      have whole : entries = entries.take n' ++ (passed ++ entries.drop n) := by
        rw [← List.append_assoc,← split,List.take_append_drop]
      nth_rewrite 1 [whole]
      exact List.drop_left' length
    have last : visible sequence none (entries.take n) =
        (visible sequence none (entries.take n)).filter (fun a => a.1 < x.1) ++ [x] := by
      have from' := visible_from n' x.1 sortedTake
        (by rw [early]; exact fun a member _ => smaller a member) (by rw [late]; exact above)
      rw [late,shown] at from'
      rw [from']
      exact filter_append_filter (visible_sorted_seen sortedTake follow_none) x.1
    refine .inr ⟨_,x,last,rfl,direction.trans backward,key,value,n',inside',⟨spent'.stands,spent'.sequence,spent'.limit⟩,smaller,?_⟩
    rw [rest]
    intro a member seen
    rcases List.mem_append.mp member with inPassed | beyond
    · exact above a inPassed seen
    · -- the shown entry is among those passed, so it comes before
      have shows : (x.1,x.2) ∈ visible sequence none passed := by simp [shown]
      have passedSorted : passed.Pairwise fun a b => a.userKey ≤ b.userKey := by rw [← late]; exact sortedTake.drop
      obtain ⟨-,found⟩ := (mem_visible_seen passedSorted follow_none x.1 x.2).mp shows
      obtain ⟨b,found,-⟩ := Option.bind_eq_some_iff.mp found
      obtain ⟨inPassed,same⟩ := firstVisible_some found
      have order := sorted.drop (i := n')
      rw [rest] at order
      rw [← same]
      exact (List.pairwise_append.mp order).2.2 b inPassed a beyond

/-- The loop of `Prev` stops before all entries of the key. -/
theorem leaveKey_spec (cursor : IsCursor internal Entry.key entries At)
    (sorted : entries.Pairwise fun a b => a.userKey ≤ b.userKey) (key : K) (i fuel : Nat) (inside : i < entries.length)
    (d : DbIter σ K V) (spent : d.Over At entries sequence i) (above : ∀ e ∈ entries.drop i, key ≤ e.userKey)
    (enough : i < fuel) :
    ∃ n, n < entries.length ∧
      (d.leaveKey internal key fuel).2.Over At entries sequence (if n = 0 then entries.length else n - 1) ∧
      (∀ e ∈ entries.take n, e.userKey < key) ∧ (∀ e ∈ entries.drop n, key ≤ e.userKey) ∧
      ((d.leaveKey internal key fuel).1 = true ↔ n ≠ 0) := by
  induction i generalizing fuel d with
  | zero =>
    obtain ⟨fuel,rfl⟩ : ∃ k, fuel = k + 1 := ⟨fuel - 1,by omega⟩
    have stands : At (internal.prev d.iter) entries.length := cursor.prev spent.stands inside
    have none : internal.current (internal.prev d.iter) = none := by
      rw [cursor.current stands]
      exact List.getElem?_eq_none (Nat.le_refl _)
    rw [DbIter.leaveKey]
    simp only [DbIter.step,none]
    exact ⟨0,inside,⟨stands,spent.sequence,spent.limit⟩,by simp,above,by simp⟩
  | succ i ih =>
    obtain ⟨fuel,rfl⟩ : ∃ k, fuel = k + 1 := ⟨fuel - 1,by omega⟩
    have more : i < entries.length := by omega
    have stands : At (internal.prev d.iter) i := cursor.prev spent.stands inside
    have here : internal.current (internal.prev d.iter) = some entries[i] := by
      rw [cursor.current stands]
      exact List.getElem?_eq_getElem more
    have spent' : (d.step internal.prev).Over At entries sequence i := ⟨stands,spent.sequence,spent.limit⟩
    rw [DbIter.leaveKey]
    simp only [show (d.step internal.prev).iter = internal.prev d.iter from rfl,here]
    by_cases smaller : entries[i].userKey < key
    · rw [if_pos smaller]
      have last := le_of_mem_take sorted (List.getElem?_eq_getElem more)
      exact ⟨i + 1,inside,spent',fun e member => lt_of_le_of_lt (last e member) smaller,above,by simp⟩
    · rw [if_neg smaller]
      refine ih fuel more _ spent' ?_ (by omega)
      intro e member
      rw [List.drop_eq_getElem_cons more] at member
      rcases List.mem_cons.mp member with rfl | later
      · exact not_lt.mp smaller
      · exact above e later

end Loops

section Cursor
variable {σ : Type} {internal : IteratorOps σ (Entry K V) (InternalKey K)} {entries : List (Entry K V)}
  {At : σ → Nat → Prop} {sequence : Nat}

/-- Where a `DBIter` stands in what it shows. -/
def DbIter.Stands (At : σ → Nat → Prop) (entries : List (Entry K V)) (sequence : Nat) (d : DbIter σ K V) (j : Nat) : Prop :=
  (∃ i, d.Over At entries sequence i) ∧
    (d.valid = false ∧ (visible sequence none entries).length ≤ j ∨
      ∃ x, (visible sequence none entries)[j]? = some x ∧ (d.Ahead At entries sequence x ∨ d.Behind At entries sequence x))

omit [LinearOrder K] in
theorem DbIter.Ahead.spent {d : DbIter σ K V} {x : K × V} (ahead : d.Ahead At entries sequence x) :
    ∃ i, d.Over At entries sequence i := by
  obtain ⟨i,-,spent,-⟩ := ahead.shows
  exact ⟨i,spent⟩

theorem DbIter.Behind.spent {d : DbIter σ K V} {x : K × V} (behind : d.Behind At entries sequence x) :
    ∃ i, d.Over At entries sequence i := by
  obtain ⟨n,-,spent,-⟩ := behind.stands
  exact ⟨_,spent⟩

theorem DbIter.Stands.current (cursor : IsCursor internal Entry.key entries At) {d : DbIter σ K V} {j : Nat}
    (stands : d.Stands At entries sequence j) : d.current internal = (visible sequence none entries)[j]? := by
  obtain ⟨-,⟨invalid,beyond⟩ | ⟨x,here,ahead | behind⟩⟩ := stands
  · rw [List.getElem?_eq_none beyond]
    simp [DbIter.current,invalid]
  · obtain ⟨i,e,spent,found,key,value,-⟩ := ahead.shows
    rw [here,DbIter.current,cursor.current spent.stands,found]
    simp [ahead.valid,ahead.forward,key,value]
  · rw [here]
    simp [DbIter.current,behind.valid,behind.forward,behind.key,behind.value]

/-- `valid_` is set exactly where there is a key and a value. -/
theorem DbIter.Stands.valid (cursor : IsCursor internal Entry.key entries At) {d : DbIter σ K V} {j : Nat}
    (stands : d.Stands At entries sequence j) : d.valid = (d.current internal).isSome := by
  rw [stands.current cursor]
  obtain ⟨-,⟨invalid,beyond⟩ | ⟨x,here,ahead | behind⟩⟩ := stands
  · rw [List.getElem?_eq_none beyond]
    exact invalid
  · rw [here]
    exact ahead.valid
  · rw [here]
    exact behind.valid

/-- Where a search forward ends. -/
theorem stands_ahead (cursor : IsCursor internal Entry.key entries At) (fuel m j : Nat) (skipping : Bool)
    (d : DbIter σ K V) (spent : d.Over At entries sequence m) (forward : d.forward = true) (inside : m ≤ entries.length)
    (enough : entries.length < fuel)
    (same : visible sequence (if skipping then d.savedKey else none) (entries.drop m) = (visible sequence none entries).drop j) :
    (d.findNextUserEntry internal fuel skipping).Stands At entries sequence j := by
  rcases findNextUserEntry_ahead cursor fuel m skipping d spent forward inside (by omega) with ⟨none,invalid,spent'⟩ | ⟨x,rest,some,ahead⟩
  · rw [same,List.drop_eq_nil_iff] at none
    exact ⟨spent',.inl ⟨invalid,none⟩⟩
  · rw [same] at some
    have here : (visible sequence none entries)[j]? = .some x := by
      rw [← List.head?_drop,some]
      rfl
    exact ⟨ahead.spent,.inr ⟨x,here,.inl ahead⟩⟩

/-- Where a search back ends. -/
theorem stands_behind (cursor : IsCursor internal Entry.key entries At)
    (sorted : entries.Pairwise fun a b => a.userKey ≤ b.userKey) (n j : Nat) (inside : n ≤ entries.length) (d : DbIter σ K V)
    (spent : d.Over At entries sequence (if n = 0 then entries.length else n - 1)) (backward : d.forward = false)
    (bound : j ≤ (visible sequence none entries).length)
    (same : visible sequence none (entries.take n) = (visible sequence none entries).take j) :
    (d.findPrevUserEntry internal).Stands At entries sequence
      (if j = 0 then (visible sequence none entries).length else j - 1) := by
  rcases findPrevUserEntry_behind cursor sorted n inside d spent backward with ⟨none,invalid,spent'⟩ | ⟨before,x,some,behind⟩
  · rw [same,List.take_eq_nil_iff] at none
    refine ⟨spent',.inl ⟨invalid,?_⟩⟩
    rcases none with zero | empty
    · rw [if_pos zero]
    · simp [empty]
  · rw [same] at some
    have length := congrArg List.length some
    rw [List.length_take_of_le bound,List.length_append,List.length_singleton] at length
    have here : (visible sequence none entries)[j - 1]? = .some x := by
      have taken : ((visible sequence none entries).take j)[j - 1]? = .some x := by
        rw [some,length]
        simp
      rwa [List.getElem?_take_of_lt (by omega)] at taken
    rw [if_neg (by omega)]
    exact ⟨behind.spent,.inr ⟨x,here,.inr behind⟩⟩

theorem stands_invalid {d : DbIter σ K V} {i j : Nat} (spent : d.Over At entries sequence i) (invalid : d.valid = false)
    (beyond : (visible sequence none entries).length ≤ j) : d.Stands At entries sequence j :=
  ⟨⟨i,spent⟩,.inl ⟨invalid,beyond⟩⟩

section Moves
variable (cursor : IsCursor internal Entry.key entries At) (sorted : SortedEntries entries) {d : DbIter σ K V} {j : Nat}
  (stands : d.Stands At entries sequence j)
include cursor stands

theorem seekToFirst_stands : (d.seekToFirst internal).Stands At entries sequence 0 := by
  obtain ⟨⟨i,spent⟩,-⟩ := stands
  have first := cursor.first spent.stands
  have spent' : (⟨internal.seekToFirst d.iter,d.sequence,true,d.valid,d.savedKey,none,d.limit⟩ : DbIter σ K V).Over At entries
      sequence 0 := ⟨first,spent.sequence,spent.limit⟩
  rw [DbIter.seekToFirst]
  by_cases some : (internal.current (internal.seekToFirst d.iter)).isSome
  · rw [if_pos some]
    exact stands_ahead cursor _ 0 0 false _ spent' rfl (Nat.zero_le _) (by simp [spent.limit]) (by simp)
  · rw [if_neg some]
    refine stands_invalid (i := 0) ⟨first,spent.sequence,spent.limit⟩ rfl ?_
    rw [cursor.current first] at some
    have empty : entries = [] := by simpa using some
    subst empty
    exact Nat.le_refl _

include sorted

theorem seekToLast_stands :
    (d.seekToLast internal).Stands At entries sequence ((visible sequence none entries).length - 1) := by
  obtain ⟨⟨i,spent⟩,-⟩ := stands
  have last := cursor.last spent.stands
  rw [DbIter.seekToLast]
  have ends : (if entries.length = 0 then entries.length else entries.length - 1) = entries.length - 1 := by
    split <;> omega
  have spent' : (⟨internal.seekToLast d.iter,d.sequence,false,d.valid,d.savedKey,none,d.limit⟩ : DbIter σ K V).Over At entries
      sequence (if entries.length = 0 then entries.length else entries.length - 1) :=
    ⟨by rw [ends]; exact last,spent.sequence,spent.limit⟩
  have result := stands_behind cursor sorted.users entries.length (visible sequence none entries).length (Nat.le_refl _) _ spent'
    rfl (Nat.le_refl _) (by simp)
  have same : (if (visible sequence none entries).length = 0 then (visible sequence none entries).length
      else (visible sequence none entries).length - 1) = (visible sequence none entries).length - 1 := by split <;> omega
  rwa [same] at result

theorem seek_stands (user : K) :
    (d.seek internal user).Stands At entries sequence ((visible sequence none entries).findIdx fun x => !decide (x.1 < user)) := by
  obtain ⟨⟨i,spent⟩,-⟩ := stands
  obtain ⟨m,place⟩ : ∃ m, m = entries.findIdx fun e => !decide (e.key < lookupKey user sequence) := ⟨_,rfl⟩
  have sought : At (internal.seek (lookupKey user d.sequence) d.iter) m := by
    rw [spent.sequence,place]
    exact cursor.seek _ spent.stands
  have inside : m ≤ entries.length := place ▸ List.findIdx_le_length
  have before : ∀ e ∈ entries.take m, e.sequence ≤ sequence → e.userKey < user := by
    intro e member seen
    rw [place] at member
    have less := lt_of_mem_take_findIdx entries (lookupKey user sequence) e member
    by_contra larger
    rcases lt_or_eq_of_le (not_lt.mp larger) with greater | same
    · exact absurd ((lookup_le user sequence e).mpr (.inl greater)) (not_le.mpr less)
    · exact absurd ((lookup_le user sequence e).mpr (.inr ⟨same,seen⟩)) (not_le.mpr less)
  have later : ∀ e ∈ entries.drop m, e.sequence ≤ sequence → user ≤ e.userKey := by
    intro e member _
    rw [place,drop_findIdx sorted] at member
    have le : lookupKey user sequence ≤ e.key := by simpa using (List.mem_filter.mp member).2
    exact InternalKey.userKey_le le
  have shown := visible_from m user sorted.users before later
  rw [← drop_findIdx (visible_sorted_seen sorted.users follow_none)] at shown
  rw [DbIter.seek]
  by_cases some : (internal.current (internal.seek (lookupKey user d.sequence) d.iter)).isSome
  · rw [if_pos some]
    exact stands_ahead cursor _ m _ false _ ⟨sought,spent.sequence,spent.limit⟩ rfl inside (by simp [spent.limit]) (by simpa using shown)
  · rw [if_neg some]
    refine stands_invalid (i := m) ⟨sought,spent.sequence,spent.limit⟩ rfl ?_
    rw [cursor.current sought] at some
    have ended : entries.length ≤ m := by simpa using some
    rw [List.drop_of_length_le ended] at shown
    exact List.drop_eq_nil_iff.mp shown.symm

omit stands in
theorem next_stands_from {m : Nat} {x : K × V} (d : DbIter σ K V) (spent : d.Over At entries sequence m) (forward : d.forward = true)
    (saved : d.savedKey = some x.1) (inside : m ≤ entries.length) (here : (visible sequence none entries)[j]? = some x)
    (before : ∀ e ∈ entries.take m, e.sequence ≤ sequence → e.userKey ≤ x.1)
    (later : ∀ e ∈ entries.drop m, e.sequence ≤ sequence → x.1 ≤ e.userKey) :
    (if (internal.current d.iter).isSome then d.findNextUserEntry internal (d.limit + 1) true
      else { d with valid := false, savedKey := none }).Stands At entries sequence (j + 1) := by
  have shown := visible_after m x.1 sorted.users before later
  rw [← drop_eq_filter (visible_sorted_seen sorted.users follow_none) here] at shown
  by_cases some : (internal.current d.iter).isSome
  · rw [if_pos some]
    exact stands_ahead cursor _ m _ true _ spent forward inside (by simp [spent.limit]) (by simpa [saved] using shown)
  · rw [if_neg some]
    refine stands_invalid (i := m) ⟨spent.stands,spent.sequence,spent.limit⟩ rfl ?_
    rw [cursor.current spent.stands] at some
    have ended : entries.length ≤ m := by simpa using some
    rw [List.drop_of_length_le ended] at shown
    exact List.drop_eq_nil_iff.mp shown.symm

theorem next_stands (valid : j < (visible sequence none entries).length) :
    (d.next internal).Stands At entries sequence (j + 1) := by
  obtain ⟨-,⟨-,beyond⟩ | ⟨x,here,ahead | behind⟩⟩ := stands
  · omega
  · obtain ⟨i,e,spent,found,key,-,-⟩ := ahead.shows
    have more := (List.getElem?_eq_some_iff.mp found).1
    simp only [DbIter.next]
    rw [if_pos ahead.forward,cursor.current spent.stands,found]
    refine next_stands_from cursor sorted _ ⟨cursor.next spent.stands more,spent.sequence,spent.limit⟩ ahead.forward
      (congrArg some key) more here ?_ ?_
    · intro a member _
      rw [← key]
      exact le_of_mem_take sorted.users found a member
    · intro a member _
      rw [← key]
      refine le_of_mem_drop sorted.users found a ?_
      rw [← List.drop_drop] at member
      exact List.mem_of_mem_drop member
  · obtain ⟨n,inside,spent,before,later⟩ := behind.stands
    have moved : (⟨if (internal.current d.iter).isNone then internal.seekToFirst d.iter else internal.next d.iter,d.sequence,true,
        d.valid,d.savedKey,d.savedValue,d.limit⟩ : DbIter σ K V).Over At entries sequence n := by
      refine ⟨?_,spent.sequence,spent.limit⟩
      have stands := spent.stands
      rw [cursor.current stands]
      cases n with
      | zero =>
        rw [if_pos (by simp)]
        exact cursor.first stands
      | succ n =>
        rw [if_neg (by simpa using Nat.lt_of_succ_le inside)]
        exact cursor.next stands inside
    have back : ¬d.forward = true := by simp [behind.forward]
    simp only [DbIter.next]
    rw [if_neg back]
    exact next_stands_from cursor sorted _ moved rfl behind.key inside here (fun a member _ => le_of_lt (before a member)) later

theorem prev_stands (valid : j < (visible sequence none entries).length) :
    (d.prev internal).Stands At entries sequence (if j = 0 then (visible sequence none entries).length else j - 1) := by
  obtain ⟨-,⟨-,beyond⟩ | ⟨x,here,ahead | behind⟩⟩ := stands
  · omega
  · obtain ⟨i,e,spent,found,key,-,-⟩ := ahead.shows
    have more := (List.getElem?_eq_some_iff.mp found).1
    have limit := spent.limit
    obtain ⟨n,inside,spent',before,later,left⟩ := leaveKey_spec cursor sorted.users e.userKey i (d.limit + 1) more
      { d with savedKey := some e.userKey } ⟨spent.stands,spent.sequence,spent.limit⟩ (le_of_mem_drop sorted.users found) (by omega)
    have shown : visible sequence none (entries.take n) = _ :=
      visible_before n e.userKey sorted.users (fun a member _ => before a member) (fun a member _ => later a member)
    rw [key,← take_eq_filter (visible_sorted_seen sorted.users follow_none) here] at shown
    rw [DbIter.prev,if_pos ahead.forward,cursor.current spent.stands,found]
    simp only
    generalize DbIter.leaveKey internal e.userKey (d.limit + 1) { d with savedKey := some e.userKey } = outcome at spent' left
    obtain ⟨moved,d'⟩ := outcome
    cases moved with
    | true =>
      exact stands_behind cursor sorted.users n j (Nat.le_of_lt inside) _ ⟨spent'.stands,spent'.sequence,spent'.limit⟩ rfl
        (Nat.le_of_lt valid) shown
    | false =>
      have zero : n = 0 := by
        by_contra positive
        cases left.mpr positive
      subst zero
      have first : j = 0 := by
        have empty := shown.symm
        rw [List.take_zero,visible,List.take_eq_nil_iff] at empty
        rcases empty with zero | none
        · exact zero
        · rw [none] at valid
          cases valid
      rw [if_pos first]
      exact stands_invalid (i := entries.length) ⟨spent'.stands,spent'.sequence,spent'.limit⟩ rfl (Nat.le_refl _)
  · obtain ⟨n,inside,spent,before,later⟩ := behind.stands
    have shown := visible_before n x.1 sorted.users (fun a member _ => before a member) later
    rw [← take_eq_filter (visible_sorted_seen sorted.users follow_none) here] at shown
    rw [DbIter.prev,if_neg (by simp [behind.forward])]
    exact stands_behind cursor sorted.users n j inside d spent behind.forward (Nat.le_of_lt valid) shown

end Moves

theorem dbIter_isCursor (sequence : Nat) (cursor : IsCursor internal Entry.key entries At) (sorted : SortedEntries entries) :
    IsCursor (DbIter.ops internal) Prod.fst (visible sequence none entries) fun d j => d.Stands At entries sequence j where
  current stands := stands.current cursor
  first stands := seekToFirst_stands cursor stands
  last stands := seekToLast_stands cursor sorted stands
  seek user stands := seek_stands cursor sorted stands user
  next stands valid := next_stands cursor sorted stands valid
  prev stands valid := prev_stands cursor sorted stands valid

/-- The keys with the newest values that the sequence number sees. -/
theorem mem_visible_reads (sorted : SortedEntries entries) (distinct : Distinct (entrySet entries)) (user : K) (value : V) :
    (user,value) ∈ visible sequence none entries ↔ Reads (entrySet entries) user sequence (some value) := by
  have finds := getFrom_finds entries sorted.ordered user sequence
  have reads := finds.answers.reads
  rw [finds.firstVisible sorted] at reads
  rw [mem_visible_seen sorted.users follow_none]
  constructor
  · rintro ⟨-,found⟩
    rwa [found] at reads
  · intro other
    exact ⟨fun impossible => (by cases impossible),reads.unique distinct other⟩

/-- In every run `DBIter` is valid where a cursor over the visible map is, and shows what that
shows: the map is the sorted list of the keys with their newest values as of the sequence number. -/
theorem dbIter_shows (sorted : SortedEntries entries) (distinct : Distinct (entrySet entries))
    (cursor : IsCursor internal Entry.key entries At) {iter : σ} {i : Nat} (stands : At iter i) (pairs : List (K × V))
    (ordered : pairs.Pairwise fun a b => a.1 < b.1)
    (newest : ∀ user value, (user,value) ∈ pairs ↔ Reads (entrySet entries) user sequence (some value)) (moves : List (Move K))
    (legal : Legal (DbIter.ops internal) (DbIter.new iter sequence entries.length) moves) :
    ((DbIter.ops internal).run moves (.new iter sequence entries.length)).valid =
        ((ListIter.ops Prod.fst).current ((ListIter.ops Prod.fst).run moves (.new pairs))).isSome ∧
      (DbIter.ops internal).current ((DbIter.ops internal).run moves (.new iter sequence entries.length)) =
        (ListIter.ops Prod.fst).current ((ListIter.ops Prod.fst).run moves (.new pairs)) := by
  have same : visible sequence none entries = pairs := by
    refine sorted_ext (visible_sorted_seen sorted.users follow_none) ordered fun user value => ?_
    rw [mem_visible_reads sorted distinct,newest]
  have start : (DbIter.new iter sequence entries.length : DbIter σ K V).Stands At entries sequence pairs.length :=
    stands_invalid (i := i) ⟨stands,rfl,rfl⟩ rfl (by rw [same])
  have cursor' := dbIter_isCursor sequence cursor sorted
  rw [same] at cursor'
  have shows := cursor'.shows moves start legal
  obtain ⟨j,stands',-⟩ := cursor'.follows moves start legal
  exact ⟨(stands'.valid cursor).trans (congrArg Option.isSome shows),shows⟩

end Cursor

section Sample

/-- Two versions of key 1, key 2 deleted, and one entry of key 3 that is too new. -/
def sampleEntries : List (Entry Nat Nat) := [⟨1,4,some 14⟩,⟨1,2,some 12⟩,⟨2,3,none⟩,⟨2,1,some 21⟩,⟨3,9,some 39⟩,⟨3,1,some 31⟩]

/-- As of 5, to the last key, back over the deletion and forward again. -/
theorem dbIter_shows_sample :
    ((DbIter.ops entryOps).run [.last,.prev,.next] (.new (.new sampleEntries) 5 6)).valid = true ∧
      (DbIter.ops entryOps).current ((DbIter.ops entryOps).run [.last,.prev,.next] (.new (.new sampleEntries) 5 6)) =
        some (3,31) := by
  have sorted : SortedEntries sampleEntries := by unfold SortedEntries; decide
  have distinct : Distinct (entrySet sampleEntries) := by
    show ∀ a ∈ sampleEntries, ∀ b ∈ sampleEntries, a.userKey = b.userKey → a.sequence = b.sequence → a = b
    decide
  refine dbIter_shows sorted distinct (listIter_isCursor Entry.key sampleEntries) rfl [(1,14),(3,31)] (by decide) ?_
    [.last,.prev,.next] ?_
  · intro user value
    rw [← mem_visible_reads sorted distinct]
    rfl
  · exact ⟨by decide,by decide,trivial⟩

end Sample

end LevelDB
