import Mathlib.Algebra.Order.Group.Multiset
import Mathlib.Data.Multiset.AddSub
import CqIrc.Machine.Runs
import CqIrc.Machine.Total

/-! `task_io_service.ipp` over `epoll_reactor.ipp`: the threads in `run` and `poll` of one
service. They share a queue in which the reactor's turn stands among the handlers. What is
done under the mutex is one step; handlers run outside of it. `stopAll` is
`stop_all_threads`, `wakeOne` is `wake_one_thread_and_unlock`, `turnOver` is `task_cleanup`,
`finish` and `cleanup` are `work_cleanup`, `perform` is `descriptor_state::do_complete`, and
`cancel` is `cancel_ops` with `post_deferred_completions`. -/

namespace CqIrc.Asio

inductive Mode where
  | run
  | poll
  deriving DecidableEq, Repr

/-- An entry of `op_queue_`: the turn of the reactor (`task_operation_`), a descriptor that is
ready for I/O and does not count as work, or an operation. -/
inductive Item (ω δ : Type*) where
  | task
  | descriptor (d : δ)
  | op (o : ω)
  deriving DecidableEq, Repr

/-- Where a thread stands: about to take the mutex, in `pthread_cond_wait`, in the reactor, in
`perform_io` of a descriptor, in a handler (of no operation where a descriptor has completed
none) with `private_outstanding_work` and `private_op_queue`, or in `work_cleanup` before that
queue is pushed. -/
inductive Place (ω δ : Type*) where
  | outside
  | ready (m : Mode)
  | waiting (woken : Bool)
  | task (m : Mode) (block : Bool)
  | descriptor (m : Mode) (d : δ)
  | handler (m : Mode) (o : Option ω) (work : Nat) (queue : List ω)
  | cleanup (m : Mode) (queue : List ω)
  deriving DecidableEq, Repr

namespace Place
variable {ω δ : Type*}

def asleep : Place ω δ → Bool
  | waiting woken => !woken
  | _ => false

def waits : Place ω δ → Bool
  | waiting _ => true
  | _ => false

end Place

/-- A `stopping` thread has found that there is no work, and has still to call `stop`. -/
structure Thread (ω δ : Type*) where
  place : Place ω δ
  stopping : Bool
  deriving DecidableEq, Repr

/-- `task_io_service`, its reactor, and the threads of the process. `signalled` is the lowest
bit of the event's `state_`, of which the others count the waiting threads, and `interrupt` an
event of the interrupter that has not been seen; `pending` is registered at the reactor, and
`submitted` and `invoked` are what the service has got and called so far. -/
structure Scheduler (ι ω δ : Type*) where
  hasTask : Bool
  taskInterrupted : Bool
  outstandingWork : Int
  opQueue : List (Item ω δ)
  stopped : Bool
  signalled : Bool
  interrupt : Bool
  pending : Multiset ω
  works : Nat
  threads : ι → Thread ω δ
  submitted : Multiset ω
  invoked : Multiset ω

namespace Scheduler

/-- What can happen next; a step that signals one waiting thread names it. `epoll_wait` comes
back with `taskReturn`, `perform_io` with `perform`, a handler with `finish`, and
`workFinished` is the call of `stop` where there is no work. -/
inductive Act (ι ω δ : Type*) where
  | enter (i : ι) (m : Mode)
  | loop (i : ι) (w : Option ι)
  | wakeUp (i : ι) (w : Option ι)
  | spurious (i : ι)
  | taskReturn (i : ι) (ds : List δ) (drained : Bool) (w : Option ι)
  | perform (i : ι) (os : List ω) (w : Option ι)
  | finish (i : ι)
  | cleanup (i : ι) (w : Option ι)
  | post (i : ι) (o : ω) (isContinuation : Bool) (w : Option ι)
  | start (i : ι) (o : ω)
  | cancel (i : ι) (os : List ω) (w : Option ι)
  | work (i : ι)
  | unwork (i : ι)
  | stop (i : ι)
  | workFinished (i : ι)
  | initTask (i : ι) (w : Option ι)
  deriving DecidableEq, Repr

variable {ι ω δ : Type*}

def fresh : Scheduler ι ω δ :=
  ⟨false, true, 0, [], false, false, false, 0, 0, fun _ => ⟨.outside, false⟩, 0, 0⟩

abbrev place (s : Scheduler ι ω δ) (i : ι) : Place ω δ := (s.threads i).place

def push (s : Scheduler ι ω δ) (os : List ω) : Scheduler ι ω δ :=
  { s with opQueue := s.opQueue ++ os.map Item.op }

def workStarted (s : Scheduler ι ω δ) : Scheduler ι ω δ :=
  { s with outstandingWork := s.outstandingWork + 1 }

def submit (s : Scheduler ι ω δ) (o : ω) : Scheduler ι ω δ :=
  { s with submitted := o ::ₘ s.submitted }

def startOp (s : Scheduler ι ω δ) (o : ω) : Scheduler ι ω δ :=
  { s with
    outstandingWork := s.outstandingWork + 1, pending := o ::ₘ s.pending,
    submitted := o ::ₘ s.submitted }

def enqueue (s : Scheduler ι ω δ) (o : ω) : Scheduler ι ω δ := (s.submit o).workStarted.push [o]

def newTask (s : Scheduler ι ω δ) : Scheduler ι ω δ :=
  { s with hasTask := true, interrupt := true, opQueue := s.opQueue ++ [Item.task] }

def work (s : Scheduler ι ω δ) : Scheduler ι ω δ :=
  { s with outstandingWork := s.outstandingWork + 1, works := s.works + 1 }

def interruptTask (s : Scheduler ι ω δ) : Scheduler ι ω δ :=
  if s.taskInterrupted = false ∧ s.hasTask = true then
    { s with taskInterrupted := true, interrupt := true }
  else s

def stopAll (s : Scheduler ι ω δ) : Scheduler ι ω δ :=
  interruptTask { s with
    stopped := true, signalled := true,
    threads := fun j =>
      if (s.place j).waits then ⟨.waiting true, (s.threads j).stopping⟩ else s.threads j }

def inProgram (s : Scheduler ι ω δ) (i : ι) : Bool :=
  match s.place i with
  | .outside | .handler _ (some _) _ _ => true
  | _ => false

namespace Act

def thread : Act ι ω δ → ι
  | enter i _ | loop i _ | wakeUp i _ | spurious i | taskReturn i _ _ _ | perform i _ _
  | finish i | cleanup i _ | post i _ _ _ | start i _ | cancel i _ _ | work i | unwork i
  | stop i | workFinished i | initTask i _ => i

end Act

section threads
variable [DecidableEq ι]

def move (s : Scheduler ι ω δ) (i : ι) (p : Place ω δ) : Scheduler ι ω δ :=
  { s with threads := Function.update s.threads i ⟨p, (s.threads i).stopping⟩ }

def owes (s : Scheduler ι ω δ) (i : ι) (stopping : Bool) : Scheduler ι ω δ :=
  { s with threads := Function.update s.threads i ⟨s.place i, stopping⟩ }

def invoke (s : Scheduler ι ω δ) (i : ι) (m : Mode) (o : ω) : Scheduler ι ω δ :=
  { s with invoked := o ::ₘ s.invoked }.move i (.handler m (some o) 0 [])

def flush (s : Scheduler ι ω δ) (i : ι) (m : Mode) (queue : List ω) : Scheduler ι ω δ :=
  (s.push queue).move i (.ready m)

def enter (s : Scheduler ι ω δ) (i : ι) (m : Mode) : Option (Scheduler ι ω δ) :=
  match s.place i with
  | .outside => some (if s.outstandingWork = 0 then s.owes i true else s.move i (.ready m))
  | _ => none

def finish (s : Scheduler ι ω δ) (i : ι) (m : Mode) (work : Nat) (queue : List ω) :
    Scheduler ι ω δ :=
  { s with outstandingWork := s.outstandingWork + (work - 1) }.move i (.cleanup m queue) |>.owes i
    (decide (work < 1 ∧ s.outstandingWork = 1))

def unwork (s : Scheduler ι ω δ) (i : ι) : Scheduler ι ω δ :=
  { s with works := s.works - 1, outstandingWork := s.outstandingWork - 1 }.owes i
    (decide (s.outstandingWork = 1))

def workFinished (s : Scheduler ι ω δ) (i : ι) : Scheduler ι ω δ := (s.owes i false).stopAll

end threads

section signals
variable [DecidableEq ι] [Fintype ι]

/-- The event is set, and a thread in `pthread_cond_wait` is woken if there is any. -/
def signalOne (w : Option ι) (s : Scheduler ι ω δ) : Option (Scheduler ι ω δ) :=
  match w with
  | none => if ∀ j, (s.place j).asleep = false then some { s with signalled := true } else none
  | some j =>
    if (s.place j).asleep then some ({ s with signalled := true }.move j (.waiting true)) else none

def wakeOne (w : Option ι) (s : Scheduler ι ω δ) : Option (Scheduler ι ω δ) :=
  if ∃ j, (s.place j).waits then s.signalOne w
  else some (interruptTask { s with signalled := true })

def initTask (s : Scheduler ι ω δ) (w : Option ι) : Option (Scheduler ι ω δ) :=
  if s.hasTask then none else s.newTask.wakeOne w

def wakeMore (w : Option ι) (s : Scheduler ι ω δ) : Option (Scheduler ι ω δ) :=
  if s.opQueue = [] then some s else s.wakeOne w

def execute (s : Scheduler ι ω δ) (i : ι) (m : Mode) (w : Option ι) :
    Item ω δ → Option (Scheduler ι ω δ)
  | .task => none
  | .descriptor d => (s.move i (.descriptor m d)).wakeMore w
  | .op o => (s.invoke i m o).wakeMore w

def doRunOne (s : Scheduler ι ω δ) (i : ι) (w : Option ι) : Option (Scheduler ι ω δ) :=
  if s.stopped then some (s.move i .outside)
  else
    match s.opQueue with
    | [] => some ({ s with signalled := false }.move i (.waiting false))
    | .task :: [] =>
      some ({ s with opQueue := [], taskInterrupted := false }.move i (.task .run true))
    | .task :: q =>
      ({ s with opQueue := q, taskInterrupted := true }.move i (.task .run false)).signalOne w
    | x :: q => { s with opQueue := q }.execute i .run w x

def pollNext (s : Scheduler ι ω δ) (i : ι) (w : Option ι) : Option (Scheduler ι ω δ) :=
  match s.opQueue with
  | [] => some (s.move i .outside)
  | .task :: _ => (s.move i .outside).signalOne w
  | x :: q => { s with opQueue := q }.execute i .poll w x

def doPollOne (s : Scheduler ι ω δ) (i : ι) (w : Option ι) : Option (Scheduler ι ω δ) :=
  if s.stopped then some (s.move i .outside)
  else
    match s.opQueue with
    | .task :: q => some ({ s with opQueue := q }.move i (.task .poll false))
    | _ => s.pollNext i w

def loop (s : Scheduler ι ω δ) (i : ι) (w : Option ι) : Mode → Option (Scheduler ι ω δ)
  | .run => s.doRunOne i w
  | .poll => s.doPollOne i w

def turnOver (s : Scheduler ι ω δ) (i : ι) (m : Mode) (ds : List δ) (drained : Bool) :
    Scheduler ι ω δ :=
  { s with
    taskInterrupted := true, interrupt := s.interrupt && !drained,
    opQueue := s.opQueue ++ (ds.map Item.descriptor ++ [Item.task]) }.move i (.ready m)

def taskReturn (s : Scheduler ι ω δ) (i : ι) (m : Mode) (ds : List δ) (drained : Bool)
    (w : Option ι) : Option (Scheduler ι ω δ) :=
  match m with
  | .run => (s.turnOver i .run ds drained).doRunOne i w
  | .poll => (s.turnOver i .poll ds drained).pollNext i w

def cleanup (s : Scheduler ι ω δ) (i : ι) (m : Mode) (queue : List ω) (w : Option ι) :
    Option (Scheduler ι ω δ) :=
  if queue = [] then some (s.move i (.ready m))
  else (s.flush i m queue).loop i w m

/-- A continuation stays with the thread that posts it. -/
def post (s : Scheduler ι ω δ) (i : ι) (o : ω) (isContinuation : Bool) (w : Option ι) :
    Option (Scheduler ι ω δ) :=
  match isContinuation, s.place i with
  | true, .handler m p work queue =>
    some ((s.submit o).move i (.handler m p (work + 1) (queue ++ [o])))
  | _, _ => (s.enqueue o).wakeOne w

variable [DecidableEq ω] [DecidableEq δ]

def complete (s : Scheduler ι ω δ) (i : ι) (m : Mode) (o : ω) (os : List ω) : Scheduler ι ω δ :=
  { s with pending := s.pending - (o ::ₘ (os : Multiset ω)) }.invoke i m o

/-- `descriptor_state::do_complete`: all completed operations but the first are posted; if
there is none, a unit of work stands for it. -/
def perform (s : Scheduler ι ω δ) (i : ι) (m : Mode) (os : List ω) (w : Option ι) :
    Option (Scheduler ι ω δ) :=
  match os with
  | [] => some (s.workStarted.move i (.handler m none 0 []))
  | [o] => some (s.complete i m o [])
  | o :: os => ((s.complete i m o os).push os).wakeOne w

def withdraw (s : Scheduler ι ω δ) (os : List ω) : Scheduler ι ω δ :=
  { s with pending := s.pending - (os : Multiset ω) }.push os

def cancel (s : Scheduler ι ω δ) (os : List ω) (w : Option ι) : Option (Scheduler ι ω δ) :=
  if (os : Multiset ω) ≤ s.pending ∧ os ≠ [] then (s.withdraw os).wakeOne w else none

def call (s : Scheduler ι ω δ) : Act ι ω δ → Option (Scheduler ι ω δ)
  | .post i o isContinuation w => s.post i o isContinuation w
  | .start _ o => some (s.startOp o)
  | .cancel _ os w => s.cancel os w
  | .work _ => some s.work
  | .unwork i => if 0 < s.works then some (s.unwork i) else none
  | .stop _ => some s.stopAll
  | .initTask _ w => s.initTask w
  | _ => none

/-- What the service does in its threads; the program's code is left when a handler returns. -/
def serve (s : Scheduler ι ω δ) : Act ι ω δ → Option (Scheduler ι ω δ)
  | .loop i w =>
    match s.place i with
    | .ready m => s.loop i w m
    | _ => none
  | .wakeUp i w =>
    match s.place i with
    | .waiting true =>
      if s.signalled then (s.move i (.ready .run)).doRunOne i w else some (s.move i (.waiting false))
    | _ => none
  | .spurious i =>
    match s.place i with
    | .waiting false => some (s.move i (.waiting true))
    | _ => none
  | .taskReturn i ds drained w =>
    match s.place i with
    | .task m _ => if ds.Nodup then s.taskReturn i m ds drained w else none
    | _ => none
  | .perform i os w =>
    match s.place i with
    | .descriptor m _ => if (os : Multiset ω) ≤ s.pending then s.perform i m os w else none
    | _ => none
  | .finish i =>
    match s.place i with
    | .handler m _ work queue => some (s.finish i m work queue)
    | _ => none
  | .cleanup i w =>
    match s.place i with
    | .cleanup m queue => s.cleanup i m queue w
    | _ => none
  | _ => none

def step (a : Act ι ω δ) (s : Scheduler ι ω δ) : Option (Scheduler ι ω δ) :=
  if (s.threads a.thread).stopping then
    match a with
    | .workFinished i => some (s.workFinished i)
    | _ => none
  else
    match a with
    | .enter i m => s.enter i m
    | .loop .. | .wakeUp .. | .spurious .. | .taskReturn .. | .perform .. | .finish ..
    | .cleanup .. => s.serve a
    | .workFinished _ => none
    | _ => if s.inProgram a.thread then s.call a else none

end signals

/-- What waking a thread, or the reactor, makes of a service. -/
structure Woken (s t : Scheduler ι ω δ) : Prop where
  hasTask : t.hasTask = s.hasTask
  outstandingWork : t.outstandingWork = s.outstandingWork
  opQueue : t.opQueue = s.opQueue
  pending : t.pending = s.pending
  works : t.works = s.works
  submitted : t.submitted = s.submitted
  invoked : t.invoked = s.invoked
  place : ∀ j, t.place j = s.place j ∨ s.place j = .waiting false ∧ t.place j = .waiting true
  stopping : ∀ j, (t.threads j).stopping = (s.threads j).stopping
  signalled : s.signalled = true → t.signalled = true
  interrupt : s.interrupt = true → t.interrupt = true
  taskInterrupted : t.taskInterrupted = true → s.taskInterrupted = true ∨ t.interrupt = true

section woken
variable {s t u : Scheduler ι ω δ} {i j : ι} {p : Place ω δ} {w : Option ι}

theorem asleep_iff : p.asleep = true ↔ p = .waiting false := by
  cases p with
  | waiting woken => cases woken <;> simp [Place.asleep]
  | _ => simp [Place.asleep]

theorem waits_iff : p.waits = true ↔ ∃ woken, p = .waiting woken := by
  cases p <;> simp [Place.waits]

theorem Woken.refl (s : Scheduler ι ω δ) : Woken s s where
  hasTask := rfl
  outstandingWork := rfl
  opQueue := rfl
  pending := rfl
  works := rfl
  submitted := rfl
  invoked := rfl
  place _ := .inl rfl
  stopping _ := rfl
  signalled h := h
  interrupt h := h
  taskInterrupted h := .inl h

theorem Woken.interruptTask (h : Woken s u) : Woken s u.interruptTask := by
  unfold Scheduler.interruptTask
  split
  · exact { h with interrupt := fun _ => rfl, taskInterrupted := fun _ => .inr rfl }
  · exact h

theorem Woken.signal (h : Woken s u) : Woken s { u with signalled := true } :=
  { h with signalled := fun _ => rfl }

theorem interruptTask_signalled : s.interruptTask.signalled = s.signalled := by
  unfold Scheduler.interruptTask
  split <;> rfl

theorem interruptTask_stopped : s.interruptTask.stopped = s.stopped := by
  unfold Scheduler.interruptTask
  split <;> rfl

theorem interruptTask_place : s.interruptTask.place j = s.place j := by
  unfold Scheduler.interruptTask
  split <;> rfl

theorem stopAll_woken (s : Scheduler ι ω δ) : Woken s s.stopAll := by
  refine .interruptTask { Woken.refl s with
    place := fun j => ?_, stopping := fun j => ?_, signalled := fun _ => rfl }
  · cases hp : s.place j with
    | waiting woken => cases woken <;> simp [Scheduler.place, Place.waits, hp]
    | _ => simp [Scheduler.place, Place.waits, hp]
  · cases hp : (s.place j).waits <;> simp [hp]

variable [DecidableEq ι]

@[simp] theorem place_move_self : (s.move i p).place i = p := by simp [move, place]

theorem place_move : (s.move i p).place = Function.update s.place i p := by
  funext j
  by_cases same : j = i
  · subst same
    simp [move, place]
  · simp [move, place, Function.update_of_ne same]

@[simp] theorem place_owes {b : Bool} : (s.owes i b).place = s.place := by
  funext j
  by_cases same : j = i
  · subst same
    simp [owes, place]
  · simp [owes, place, Function.update_of_ne same]

theorem place_move_of_ne (h : j ≠ i) : (s.move i p).place j = s.place j := by
  simp [move, place, Function.update_of_ne h]

theorem stopping_move : ((s.move i p).threads j).stopping = (s.threads j).stopping := by
  by_cases same : j = i
  · subst same
    simp [move]
  · simp [move, Function.update_of_ne same]

theorem Woken.wake (h : s.place j = .waiting false) : Woken s (s.move j (.waiting true)) where
  __ := Woken.refl s
  place k := by
    by_cases same : k = j
    · subst same
      exact .inr ⟨h, place_move_self⟩
    · exact .inl (place_move_of_ne same)
  stopping k := stopping_move

variable [Fintype ι]

theorem signalOne_woken (h : s.signalOne w = some t) :
    Woken s t ∧ t.signalled = true ∧ t.stopped = s.stopped := by
  cases w with
  | none =>
    rw [signalOne] at h
    split at h
    · obtain rfl := Option.some.inj h
      exact ⟨(Woken.refl s).signal, rfl, rfl⟩
    · cases h
  | some j =>
    rw [signalOne] at h
    split at h
    · next asleep =>
      obtain rfl := Option.some.inj h
      exact ⟨{ Woken.wake (asleep_iff.mp asleep) with signalled := fun _ => rfl }, rfl, rfl⟩
    · cases h

theorem wakeOne_woken (h : s.wakeOne w = some t) :
    Woken s t ∧ t.signalled = true ∧ t.stopped = s.stopped := by
  unfold wakeOne at h
  split at h
  · exact signalOne_woken h
  · obtain rfl := Option.some.inj h
    exact ⟨(Woken.refl s).signal.interruptTask, interruptTask_signalled, interruptTask_stopped⟩

theorem wakeMore_woken (h : s.wakeMore w = some t) : Woken s t ∧ t.stopped = s.stopped := by
  unfold wakeMore at h
  split at h
  · obtain rfl := Option.some.inj h
    exact ⟨.refl s, rfl⟩
  · obtain ⟨woken, -, stopped⟩ := wakeOne_woken h
    exact ⟨woken, stopped⟩

end woken

section steps
variable [DecidableEq ι] [Fintype ι] [DecidableEq ω] [DecidableEq δ]

theorem step_cases {a : Act ι ω δ} {s t : Scheduler ι ω δ} (h : step a s = some t) :
    (∃ i, a = .workFinished i ∧ (s.threads i).stopping = true ∧ t = s.workFinished i) ∨
      ((s.threads a.thread).stopping = false ∧
        ((∃ i m, a = .enter i m ∧ s.enter i m = some t) ∨ s.serve a = some t ∨
          (s.inProgram a.thread = true ∧ s.call a = some t))) := by
  unfold step at h
  split at h
  · next stopping =>
    split at h
    · next i =>
      exact .inl ⟨i, rfl, stopping, (Option.some.inj h).symm⟩
    · cases h
  · next free =>
    refine .inr ⟨by simpa using free, ?_⟩
    split at h
    · next i m => exact .inl ⟨i, m, rfl, h⟩
    case h_9 => cases h
    case h_10 =>
      split at h
      · next program => exact .inr (.inr ⟨program, h⟩)
      · cases h
    all_goals exact .inr (.inl h)

end steps

end Scheduler
end CqIrc.Asio
