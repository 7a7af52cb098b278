import Mathlib.Algebra.BigOperators.Group.Finset.Piecewise
import Mathlib.Data.List.Count

/-! `PosixEnv::Schedule` and the background thread (`util/env_posix`), one statement at a time:
any number of callers, the thread, one mutex and one condition variable. A caller signals before
its work is in the queue, and only if the queue was empty. -/
namespace LevelDB.Posix

/-- Who holds `background_work_mutex_`. -/
inductive Party where
  | caller (id : Nat)
  | background
  deriving DecidableEq

/-- The statement of `Schedule` that a caller has come to. -/
inductive ScheduleStage where
  | lock | start | signal | emplace | unlock
  deriving DecidableEq

/-- The statement of `BackgroundThreadMain` that the thread has come to. It sleeps in `Wait`,
and a thread that was woken up needs the mutex again. -/
inductive Thread (W : Type) where
  | absent | lock | test | asleep | woken | pop
  | unlock (work : W)
  | execute (work : W)
  deriving DecidableEq

structure Scheduler (W : Type) where
  mutex : Option Party
  startedBackgroundThread : Bool
  queue : List W
  calls : Nat → Option (ScheduleStage × W)
  thread : Thread W
  /-- All work that was ever put into the queue, and the work that is done. -/
  scheduled : List W
  done : List W

inductive Turn (W : Type) where
  | call (id : Nat) (work : W)
  | caller (id : Nat)
  | background
  | spurious

variable {W : Type}

def Turn.isCall : Turn W → Bool
  | .call _ _ => true
  | _ => false

def Turn.isSpurious : Turn W → Bool
  | .spurious => true
  | _ => false

/-- What the thread has taken out of the queue and has not finished. -/
def Thread.work : Thread W → List W
  | .unlock work => [work]
  | .execute work => [work]
  | _ => []

def Thread.holds : Thread W → Bool
  | .test => true
  | .pop => true
  | .unlock _ => true
  | _ => false

def Thread.awake : Thread W → Bool
  | .absent => false
  | .asleep => false
  | _ => true

/-- `Signal` wakes the thread if it waits. -/
def Thread.signal : Thread W → Thread W
  | .asleep => .woken
  | thread => thread

@[simp] theorem Thread.work_signal (thread : Thread W) : thread.signal.work = thread.work := by
  cases thread <;> rfl

@[simp] theorem Thread.holds_signal (thread : Thread W) : thread.signal.holds = thread.holds := by
  cases thread <;> rfl

/-- The statements of one round of the thread, up to the next test of the queue. -/
def Thread.left : Thread W → Nat
  | .unlock _ => 4
  | .execute _ => 3
  | .lock => 2
  | .woken => 2
  | .test => 1
  | _ => 0

theorem Thread.left_signal (thread : Thread W) : thread.signal.left ≤ thread.left + 2 := by
  cases thread <;> simp [Thread.signal,Thread.left]

/-- The statements that a call still takes, the start of the thread, its wakeup and the five
statements for its work among them. -/
def ScheduleStage.left : ScheduleStage → Nat
  | .lock => 14
  | .start => 13
  | .signal => 10
  | .emplace => 7
  | .unlock => 1

def callLeft : Option (ScheduleStage × W) → Nat
  | some (stage,_) => stage.left
  | none => 0

theorem Thread.signal_cases (thread : Thread W) :
    thread ≠ .asleep ∧ thread.signal = thread ∨ thread = .asleep ∧ thread.signal = .woken := by
  cases thread <;> simp [Thread.signal]

namespace Scheduler

def initial : Scheduler W := ⟨none,false,[],fun _ => none,.absent,[],[]⟩

def at_ (s : Scheduler W) (id : Nat) (stage : ScheduleStage) (work : W) : Scheduler W :=
  { s with calls := Function.update s.calls id (some (stage,work)) }

/-- The next statement of a call of `Schedule`. -/
def schedule (s : Scheduler W) (id : Nat) (work : W) : ScheduleStage → Option (Scheduler W)
  | .lock => if s.mutex = none then some { s.at_ id .start work with mutex := some (.caller id) } else none
  | .start => some (if s.startedBackgroundThread then s.at_ id .signal work
      else { s.at_ id .signal work with startedBackgroundThread := true, thread := .lock })
  | .signal => some { s.at_ id .emplace work with thread := if s.queue.isEmpty then s.thread.signal else s.thread }
  | .emplace => some { s.at_ id .unlock work with queue := s.queue ++ [work], scheduled := s.scheduled ++ [work] }
  | .unlock => some { s with calls := Function.update s.calls id none, mutex := none }

/-- The next statement of `BackgroundThreadMain`; taking from an empty queue is none. -/
def backgroundThreadMain (s : Scheduler W) : Thread W → Option (Scheduler W)
  | .absent => none
  | .asleep => none
  | .lock => if s.mutex = none then some { s with mutex := some .background, thread := .test } else none
  | .woken => if s.mutex = none then some { s with mutex := some .background, thread := .test } else none
  | .test => some (if s.queue.isEmpty then { s with mutex := none, thread := .asleep } else { s with thread := .pop })
  | .pop =>
    match s.queue with
    | [] => none
    | work :: rest => some { s with queue := rest, thread := .unlock work }
  | .unlock work => some { s with mutex := none, thread := .execute work }
  | .execute work => some { s with done := s.done ++ [work], thread := .lock }

def step (s : Scheduler W) : Turn W → Option (Scheduler W)
  | .call id work => if (s.calls id).isNone then some (s.at_ id .lock work) else none
  | .caller id => (s.calls id).bind fun call => s.schedule id call.2 call.1
  | .background => s.backgroundThreadMain s.thread
  | .spurious =>
    match s.thread with
    | .asleep => some { s with thread := .woken }
    | _ => none

def run (s : Scheduler W) : List (Turn W) → Option (Scheduler W)
  | [] => some s
  | t :: rest => (s.step t).bind fun next => next.run rest

/-- Nothing is lost, and the thread does not sleep while there is work: who has signalled and
has not yet put the work into the queue still has the mutex, so the thread cannot have looked
into the queue in between. -/
structure Inv (s : Scheduler W) : Prop where
  order : s.done ++ s.thread.work ++ s.queue = s.scheduled
  caller : ∀ id stage work, s.calls id = some (stage,work) → (s.mutex = some (.caller id) ↔ stage ≠ .lock)
  holder : ∀ id, s.mutex = some (.caller id) → (s.calls id).isSome
  thread : s.mutex = some .background ↔ s.thread.holds = true
  asleep : s.thread = .asleep → s.queue = [] ∧ ∀ id work, s.calls id ≠ some (.emplace,work)
  pop : s.thread = .pop → s.queue ≠ []
  absent : s.startedBackgroundThread = false ↔ s.thread = .absent
  begun : ∀ id stage work, s.calls id = some (stage,work) → stage = .signal ∨ stage = .emplace →
    s.startedBackgroundThread = true
  unused : s.startedBackgroundThread = false → s.queue = []

theorem Inv.initial : (initial : Scheduler W).Inv := by
  constructor <;> simp [Scheduler.initial,Thread.work,Thread.holds]

section Steps
variable {s s' : Scheduler W}

theorem Inv.call {id : Nat} {work : W} (inv : s.Inv) (step : s.step (.call id work) = some s') : s'.Inv := by
  obtain ⟨order,caller,holder,thread,asleep,pop,absent,begun,unused⟩ := inv
  simp only [Scheduler.step] at step
  split at step
  · rename_i new
    have none := Option.isNone_iff_eq_none.mp new
    cases step
    constructor <;> simp only [at_,Function.update_apply] <;> grind
  · cases step

section Caller
variable {id : Nat} {work : W}

theorem Inv.lock (inv : s.Inv) (step : s.schedule id work .lock = some s') : s'.Inv := by
  obtain ⟨order,caller,holder,thread,asleep,pop,absent,begun,unused⟩ := inv
  simp only [Scheduler.schedule] at step
  split at step
  · cases step
    constructor <;> simp only [at_,Function.update_apply] <;> grind
  · cases step

theorem Inv.start (inv : s.Inv) (here : s.calls id = some (.start,work)) (step : s.schedule id work .start = some s') :
    s'.Inv := by
  obtain ⟨order,caller,holder,thread,asleep,pop,absent,begun,unused⟩ := inv
  simp only [Scheduler.schedule,Option.some.injEq] at step
  split at step
  · subst step
    constructor <;> simp only [at_,Function.update_apply] <;> grind
  · subst step
    constructor <;> simp only [at_,Function.update_apply] <;> grind [Thread.work,Thread.holds]

theorem Inv.signal (inv : s.Inv) (here : s.calls id = some (.signal,work)) (step : s.schedule id work .signal = some s') :
    s'.Inv := by
  obtain ⟨order,caller,holder,thread,asleep,pop,absent,begun,unused⟩ := inv
  simp only [Scheduler.schedule,Option.some.injEq] at step
  subst step
  constructor <;> simp only [at_,Function.update_apply] <;>
    grind [Thread.work_signal,Thread.holds_signal,Thread.signal_cases]

theorem Inv.emplace (inv : s.Inv) (here : s.calls id = some (.emplace,work)) (step : s.schedule id work .emplace = some s') :
    s'.Inv := by
  obtain ⟨order,caller,holder,thread,asleep,pop,absent,begun,unused⟩ := inv
  simp only [Scheduler.schedule,Option.some.injEq] at step
  subst step
  constructor <;> simp only [at_,Function.update_apply] <;> grind [Thread.holds]

theorem Inv.unlock (inv : s.Inv) (here : s.calls id = some (.unlock,work)) (step : s.schedule id work .unlock = some s') :
    s'.Inv := by
  obtain ⟨order,caller,holder,thread,asleep,pop,absent,begun,unused⟩ := inv
  simp only [Scheduler.schedule,Option.some.injEq] at step
  subst step
  constructor <;> simp only [Function.update_apply] <;> grind

theorem Inv.schedule {stage : ScheduleStage} (inv : s.Inv) (here : s.calls id = some (stage,work))
    (step : s.schedule id work stage = some s') : s'.Inv := by
  cases stage with
  | lock => exact inv.lock step
  | start => exact inv.start here step
  | signal => exact inv.signal here step
  | emplace => exact inv.emplace here step
  | unlock => exact inv.unlock here step

end Caller

/-- The thread begins its round, or goes on after a wait. -/
theorem Inv.background_lock (inv : s.Inv) (stage : s.thread = .lock ∨ s.thread = .woken) (free : s.mutex = none) :
    Inv { s with mutex := some .background, thread := .test } := by
  obtain ⟨order,caller,holder,thread,asleep,pop,absent,begun,unused⟩ := inv
  constructor <;> grind [Thread.work,Thread.holds]

theorem Inv.background_test (inv : s.Inv) (stage : s.thread = .test) :
    Inv (if s.queue.isEmpty then { s with mutex := none, thread := .asleep } else { s with thread := .pop }) := by
  obtain ⟨order,caller,holder,thread,asleep,pop,absent,begun,unused⟩ := inv
  split
  · constructor <;> grind [Thread.work,Thread.holds]
  · constructor <;> grind [Thread.work,Thread.holds]

theorem Inv.background_pop {work : W} {rest : List W} (inv : s.Inv) (stage : s.thread = .pop) (queue : s.queue = work :: rest) :
    Inv { s with queue := rest, thread := .unlock work } := by
  obtain ⟨order,caller,holder,thread,asleep,pop,absent,begun,unused⟩ := inv
  constructor <;> grind [Thread.work,Thread.holds]

theorem Inv.background_unlock {work : W} (inv : s.Inv) (stage : s.thread = .unlock work) :
    Inv { s with mutex := none, thread := .execute work } := by
  obtain ⟨order,caller,holder,thread,asleep,pop,absent,begun,unused⟩ := inv
  constructor <;> grind [Thread.work,Thread.holds]

theorem Inv.background_execute {work : W} (inv : s.Inv) (stage : s.thread = .execute work) :
    Inv { s with done := s.done ++ [work], thread := .lock } := by
  obtain ⟨order,caller,holder,thread,asleep,pop,absent,begun,unused⟩ := inv
  constructor <;> grind [Thread.work,Thread.holds]

theorem Inv.backgroundThreadMain (inv : s.Inv) (step : s.step .background = some s') : s'.Inv := by
  simp only [Scheduler.step] at step
  cases stage : s.thread with
  | absent => simp [stage,Scheduler.backgroundThreadMain] at step
  | asleep => simp [stage,Scheduler.backgroundThreadMain] at step
  | lock =>
    simp only [stage,Scheduler.backgroundThreadMain] at step
    split at step
    · rename_i free
      cases step
      exact inv.background_lock (.inl stage) free
    · cases step
  | woken =>
    simp only [stage,Scheduler.backgroundThreadMain] at step
    split at step
    · rename_i free
      cases step
      exact inv.background_lock (.inr stage) free
    · cases step
  | test =>
    simp only [stage,Scheduler.backgroundThreadMain,Option.some.injEq] at step
    subst step
    exact inv.background_test stage
  | pop =>
    cases queue : s.queue with
    | nil => simp [stage,queue,Scheduler.backgroundThreadMain] at step
    | cons work rest =>
      simp only [stage,queue,Scheduler.backgroundThreadMain,Option.some.injEq] at step
      subst step
      exact inv.background_pop stage queue
  | unlock work =>
    simp only [stage,Scheduler.backgroundThreadMain,Option.some.injEq] at step
    subst step
    exact inv.background_unlock stage
  | execute work =>
    simp only [stage,Scheduler.backgroundThreadMain,Option.some.injEq] at step
    subst step
    exact inv.background_execute stage

theorem Inv.spurious (inv : s.Inv) (step : s.step .spurious = some s') : s'.Inv := by
  obtain ⟨order,caller,holder,thread,asleep,pop,absent,begun,unused⟩ := inv
  simp only [Scheduler.step] at step
  split at step
  · cases step
    constructor <;> grind [Thread.work,Thread.holds]
  · cases step

theorem Inv.step {t : Turn W} (inv : s.Inv) (step : s.step t = some s') : s'.Inv := by
  cases t with
  | call id work => exact inv.call step
  | caller id =>
    obtain ⟨⟨stage,work⟩,here,taken⟩ := Option.bind_eq_some_iff.mp step
    exact inv.schedule here taken
  | background => exact inv.backgroundThreadMain step
  | spurious => exact inv.spurious step

theorem Inv.run {ts : List (Turn W)} (inv : s.Inv) (run : s.run ts = some s') : s'.Inv := by
  induction ts generalizing s with
  | nil =>
    cases run
    exact inv
  | cons t rest ih =>
    obtain ⟨next,step,run⟩ := Option.bind_eq_some_iff.mp run
    exact ih (inv.step step) run

/-- From here everything in the queue gets done without another call. -/
def Finishes (s : Scheduler W) : Prop :=
  ∃ ts s', (∀ t ∈ ts, t.isCall = false) ∧ s.run ts = some s' ∧ s.scheduled <+: s'.scheduled ∧ s'.done = s'.scheduled

theorem Finishes.step {t : Turn W} (finishes : s'.Finishes) (own : t.isCall = false) (step : s.step t = some s')
    (grows : s.scheduled <+: s'.scheduled) : s.Finishes := by
  obtain ⟨ts,last,owns,run,later,done⟩ := finishes
  refine ⟨t :: ts,last,?_,?_,grows.trans later,done⟩
  · intro t' member
    rcases List.mem_cons.mp member with rfl | rest
    · exact own
    · exact owns t' rest
  · simp only [Scheduler.run,step,Option.bind_some,run]

/-- The statements that the callers below `n` and the thread still take, at most. -/
def left (n : Nat) (s : Scheduler W) : Nat :=
  ∑ id ∈ Finset.range n, callLeft (s.calls id) + (5 * s.queue.length + s.thread.left)

/-- Only callers below `n` are in `Schedule`. -/
def Below (n : Nat) (s : Scheduler W) : Prop := ∀ id, (s.calls id).isSome → id < n

theorem left_update {n id : Nat} (s : Scheduler W) (call : Option (ScheduleStage × W)) (below : id < n) :
    ∑ x ∈ Finset.range n, callLeft (Function.update s.calls id call x) + callLeft (s.calls id) =
      callLeft call + ∑ x ∈ Finset.range n, callLeft (s.calls x) := by
  have member := Finset.mem_range.mpr below
  rw [← Finset.add_sum_erase _ _ member,← Finset.add_sum_erase (Finset.range n) (fun x => callLeft (s.calls x)) member,
    Function.update_self]
  have others : ∑ x ∈ (Finset.range n).erase id, callLeft (Function.update s.calls id call x) =
      ∑ x ∈ (Finset.range n).erase id, callLeft (s.calls x) := by
    refine Finset.sum_congr rfl fun x other => ?_
    rw [Function.update_of_ne (Finset.ne_of_mem_erase other)]
  rw [others]
  omega

/-- A statement of a caller may put its work into the queue and wake the thread up; the call
had this in its account. -/
theorem schedule_left {n id : Nat} {work : W} {stage : ScheduleStage} (below : id < n)
    (here : s.calls id = some (stage,work)) (step : s.schedule id work stage = some s') : s'.left n < s.left n := by
  have update := fun call => here ▸ left_update s call below
  cases stage with
  | lock =>
    simp only [schedule] at step
    split at step
    · cases step
      have count : _ + 14 = 13 + _ := update (some (.start,work))
      simp only [left,at_]
      omega
    · cases step
  | start =>
    simp only [schedule,Option.some.injEq] at step
    have count : _ + 13 = 10 + _ := update (some (.signal,work))
    split at step
    · subst step
      simp only [left,at_]
      omega
    · subst step
      have begun : (Thread.lock : Thread W).left = 2 := rfl
      simp only [left,at_,begun]
      omega
  | signal =>
    simp only [schedule,Option.some.injEq] at step
    subst step
    have count : _ + 10 = 7 + _ := update (some (.emplace,work))
    have woken := s.thread.left_signal
    simp only [left,at_]
    split <;> omega
  | emplace =>
    simp only [schedule,Option.some.injEq] at step
    subst step
    have count : _ + 7 = 1 + _ := update (some (.unlock,work))
    simp only [left,at_,List.length_append,List.length_singleton]
    omega
  | unlock =>
    simp only [schedule,Option.some.injEq] at step
    subst step
    have count : _ + 1 = 0 + _ := update none
    simp only [left]
    omega

theorem background_left (n : Nat) (step : s.step .background = some s') : s'.left n < s.left n := by
  simp only [Scheduler.step] at step
  cases stage : s.thread with
  | absent => simp [stage,backgroundThreadMain] at step
  | asleep => simp [stage,backgroundThreadMain] at step
  | lock =>
    simp only [stage,backgroundThreadMain] at step
    split at step <;> cases step
    simp [left,stage,Thread.left]
  | woken =>
    simp only [stage,backgroundThreadMain] at step
    split at step <;> cases step
    simp [left,stage,Thread.left]
  | test =>
    simp only [stage,backgroundThreadMain,Option.some.injEq] at step
    subst step
    split <;> simp [left,stage,Thread.left]
  | pop =>
    cases queue : s.queue with
    | nil => simp [stage,queue,backgroundThreadMain] at step
    | cons work rest =>
      simp only [stage,queue,backgroundThreadMain,Option.some.injEq] at step
      subst step
      simp only [left,stage,queue,Thread.left,List.length_cons]
      omega
  | unlock work =>
    simp only [stage,backgroundThreadMain,Option.some.injEq] at step
    subst step
    simp [left,stage,Thread.left]
  | execute work =>
    simp only [stage,backgroundThreadMain,Option.some.injEq] at step
    subst step
    simp [left,stage,Thread.left]

/-- Every turn but a call uses up a statement; a spurious wakeup gives the thread two more. -/
theorem step_left {n : Nat} {t : Turn W} (below : s.Below n) (own : t.isCall = false) (step : s.step t = some s') :
    s'.left n + 1 ≤ s.left n + 3 * t.isSpurious.toNat := by
  cases t with
  | call id work => cases own
  | caller id =>
    obtain ⟨⟨stage,work⟩,here,taken⟩ := Option.bind_eq_some_iff.mp step
    exact schedule_left (below id (by rw [here]; rfl)) here taken
  | background => exact background_left n step
  | spurious =>
    simp only [Scheduler.step] at step
    split at step
    · rename_i stage
      cases step
      simp only [left,stage,Thread.left,Turn.isSpurious,Bool.toNat_true]
      omega
    · cases step

theorem schedule_same {id : Nat} {work : W} {stage : ScheduleStage} (step : s.schedule id work stage = some s') :
    (∃ call, s'.calls = Function.update s.calls id call) ∧ s.scheduled <+: s'.scheduled := by
  cases stage with
  | lock =>
    simp only [schedule] at step
    split at step <;> cases step
    exact ⟨⟨_,rfl⟩,List.prefix_rfl⟩
  | start =>
    simp only [schedule,Option.some.injEq] at step
    split at step <;> subst step <;> exact ⟨⟨_,rfl⟩,List.prefix_rfl⟩
  | emplace =>
    cases step
    exact ⟨⟨_,rfl⟩,List.prefix_append _ _⟩
  | signal | unlock =>
    cases step
    exact ⟨⟨_,rfl⟩,List.prefix_rfl⟩

theorem background_same (step : s.step .background = some s') : s'.calls = s.calls ∧ s'.scheduled = s.scheduled := by
  simp only [Scheduler.step,backgroundThreadMain] at step
  split at step <;> try split at step
  all_goals cases step <;> exact ⟨rfl,rfl⟩

/-- A turn changes the entry of its caller alone, and only a call makes one. -/
theorem step_same {t : Turn W} (step : s.step t = some s') :
    (s'.calls = s.calls ∨ ∃ id call, s'.calls = Function.update s.calls id call ∧
      ((s.calls id).isSome ∨ ∃ work, t = .call id work)) ∧ s.scheduled <+: s'.scheduled := by
  cases t with
  | call id work =>
    simp only [Scheduler.step] at step
    split at step <;> cases step
    exact ⟨.inr ⟨id,_,rfl,.inr ⟨work,rfl⟩⟩,List.prefix_rfl⟩
  | caller id =>
    obtain ⟨_,here,taken⟩ := Option.bind_eq_some_iff.mp step
    obtain ⟨⟨call,change⟩,grows⟩ := schedule_same taken
    exact ⟨.inr ⟨id,call,change,.inl (Option.isSome_iff_exists.mpr ⟨_,here⟩)⟩,grows⟩
  | background =>
    obtain ⟨calls,scheduled⟩ := background_same step
    exact ⟨.inl calls,scheduled ▸ List.prefix_rfl⟩
  | spurious =>
    simp only [Scheduler.step] at step
    split at step <;> cases step
    exact ⟨.inl rfl,List.prefix_rfl⟩

theorem Below.step {n : Nat} {t : Turn W} (below : s.Below n) (own : t.isCall = false) (step : s.step t = some s') :
    s'.Below n := by
  rcases (step_same step).1 with same | ⟨id,call,change,old⟩
  · exact fun x => same ▸ below x
  · intro x held
    rw [change,Function.update_apply] at held
    split at held
    · rename_i here
      rcases old with old | ⟨work,rfl⟩
      · exact here ▸ below id old
      · cases own
    · exact below x held

theorem run_left {n : Nat} {ts : List (Turn W)} (below : s.Below n) (own : ∀ t ∈ ts, t.isCall = false)
    (run : s.run ts = some s') : s'.left n + ts.length ≤ s.left n + 3 * ts.countP Turn.isSpurious := by
  induction ts generalizing s with
  | nil =>
    cases run
    exact Nat.le_refl _
  | cons t rest ih =>
    obtain ⟨next,step,run⟩ := Option.bind_eq_some_iff.mp run
    have here := own t List.mem_cons_self
    have first := step_left below here step
    have later := ih (below.step here step) (fun t' member => own t' (List.mem_cons_of_mem t member)) run
    rw [List.length_cons,List.countP_cons]
    cases wakes : t.isSpurious with
    | false =>
      rw [wakes,Bool.toNat_false] at first
      simp only [Bool.false_eq_true,if_false]
      omega
    | true =>
      rw [wakes,Bool.toNat_true] at first
      simp only [if_true]
      omega

/-- The calls of a run are finitely many. -/
theorem Below.run {n : Nat} {ts : List (Turn W)} (below : s.Below n) (run : s.run ts = some s') : ∃ m, s'.Below m := by
  induction ts generalizing s n with
  | nil =>
    cases run
    exact ⟨n,below⟩
  | cons t rest ih =>
    obtain ⟨next,step,run⟩ := Option.bind_eq_some_iff.mp run
    rcases (step_same step).1 with same | ⟨id,call,change,-⟩
    · exact ih (n := n) (fun x => same ▸ below x) run
    · refine ih (n := max n (id + 1)) (fun x held => ?_) run
      rw [change,Function.update_apply] at held
      split at held
      · omega
      · exact lt_of_lt_of_le (below x held) (Nat.le_max_left _ _)

/-- Neither a caller nor the thread can take a turn. -/
def Stuck (s : Scheduler W) : Prop := ∀ t : Turn W, t.isCall = false → t.isSpurious = false → s.step t = none

/-- Whoever has the mutex can go on, so it is free; then only a thread that sleeps, and so has
nothing to do, or was never started stays where it is. -/
theorem Inv.stuck (inv : s.Inv) (stuck : s.Stuck) : s.done = s.scheduled ∧ ∀ id, s.calls id = none := by
  have thread := stuck .background rfl rfl
  simp only [Scheduler.step] at thread
  have free : s.mutex = none := by
    cases mutex : s.mutex with
    | none => rfl
    | some p =>
      cases p with
      | caller id =>
        obtain ⟨⟨stage,work⟩,here⟩ := Option.isSome_iff_exists.mp (inv.holder id mutex)
        have taken := stuck (.caller id) rfl rfl
        simp only [Scheduler.step,here,Option.bind_some] at taken
        cases stage with
        | lock => exact absurd rfl ((inv.caller id _ _ here).mp mutex)
        | start | signal | emplace | unlock => cases taken
      | background =>
        have holds := inv.thread.mp mutex
        cases stage : s.thread with
        | pop =>
          obtain ⟨work,rest,queue⟩ := List.exists_cons_of_ne_nil (inv.pop stage)
          simp [stage,Scheduler.backgroundThreadMain,queue] at thread
        | test | unlock work => simp [stage,Scheduler.backgroundThreadMain] at thread
        | _ => simp [stage,Thread.holds] at holds
  have idle : s.queue = [] ∧ s.thread.work = [] := by
    cases stage : s.thread with
    | absent => exact ⟨inv.unused (inv.absent.mpr stage),rfl⟩
    | asleep => exact ⟨(inv.asleep stage).1,rfl⟩
    | lock | woken => simp [stage,Scheduler.backgroundThreadMain,free] at thread
    | pop =>
      have holds : s.thread.holds = true := by
        rw [stage]
        rfl
      exact absurd (inv.thread.mpr holds) (by simp [free])
    | test | unlock work | execute work => simp [stage,Scheduler.backgroundThreadMain] at thread
  refine ⟨by simpa only [idle.1,idle.2,List.append_nil] using inv.order,fun id => ?_⟩
  cases here : s.calls id with
  | none => rfl
  | some call =>
    obtain ⟨stage,work⟩ := call
    have taken := stuck (.caller id) rfl rfl
    simp only [Scheduler.step,here,Option.bind_some] at taken
    cases stage with
    | lock => simp [Scheduler.schedule,free] at taken
    | start | signal | emplace | unlock => cases taken

/-- Turns are taken as long as there is one; each lowers `left`, and at the end all is done. -/
theorem Inv.finishes {n : Nat} (inv : s.Inv) (below : s.Below n) : s.Finishes := by
  induction fuel : s.left n using Nat.strongRecOn generalizing s with
  | _ k ih =>
    subst fuel
    by_cases stuck : s.Stuck
    · exact ⟨[],s,by simp,rfl,List.prefix_rfl,(inv.stuck stuck).1⟩
    · simp only [Stuck,not_forall] at stuck
      obtain ⟨t,own,wakes,can⟩ := stuck
      obtain ⟨next,step⟩ := Option.ne_none_iff_exists'.mp can
      have fewer := step_left below own step
      rw [wakes,Bool.toNat_false] at fewer
      have later := ih _ (by omega) (inv.step step) (below.step own step) rfl
      exact later.step own step (step_same step).2

/-- No wakeup is lost. At every moment of every run the work that was scheduled is what is done,
what the thread has, and what is in the queue, in this order; the thread does not sleep while
there is work in the queue; where neither a caller nor the thread can go on, all that was
scheduled is done and no call is left; and without another call, spurious wakeups apart, the
turns come to an end, so that all that is scheduled gets done. -/
theorem schedule_runs_all {ts : List (Turn W)} (run : initial.run ts = some s) :
    s.done ++ s.thread.work ++ s.queue = s.scheduled ∧ (s.queue ≠ [] → s.thread.awake = true) ∧
    (s.Stuck → s.done = s.scheduled ∧ ∀ id, s.calls id = none) ∧
    (∃ bound, ∀ ts' s', (∀ t ∈ ts', t.isCall = false) → s.run ts' = some s' →
      ts'.length ≤ bound + 3 * ts'.countP Turn.isSpurious) ∧ s.Finishes := by
  have inv := Inv.initial.run run
  have none : (initial : Scheduler W).Below 0 := fun id held => by cases held
  obtain ⟨n,below⟩ := none.run run
  refine ⟨inv.order,?_,inv.stuck,⟨s.left n,?_⟩,inv.finishes below⟩
  · intro some
    cases stage : s.thread with
    | absent => exact absurd (inv.unused (inv.absent.mpr stage)) some
    | asleep => exact absurd (inv.asleep stage).1 some
    | _ => rfl
  · intro ts' s' own run'
    have steps := run_left below own run'
    omega

/-- The second caller signals while the thread sleeps, and the thread wakes up to a queue that
is still empty for it. -/
def signalledTurns : List (Turn Nat) :=
  [.call 1 10,.caller 1,.caller 1,.caller 1,.caller 1,.caller 1,.background,.background,.background,.background,
    .background,.background,.background,.call 2 20,.caller 2,.caller 2,.caller 2,.call 3 30,.caller 2]

theorem schedule_runs_signalled : ∃ s : Scheduler Nat, initial.run signalledTurns = some s ∧ s.done = [10] ∧
    s.queue = [20] ∧ s.thread = .woken ∧ s.Finishes := by
  have found : (initial.run signalledTurns).any (fun s => s.done == [10] && s.queue == [20] && s.thread == .woken) = true := by
    decide
  obtain ⟨s,run,holds⟩ := (Option.any_eq_true _ _).mp found
  simp only [Bool.and_eq_true,beq_iff_eq] at holds
  exact ⟨s,run,holds.1.1,holds.1.2,holds.2,(schedule_runs_all run).2.2.2.2⟩

end Steps

end Scheduler

end LevelDB.Posix
