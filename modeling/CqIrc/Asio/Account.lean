import CqIrc.Asio.Scheduler

/-! What a service has been given and not yet called, and what it counts as work. Every
operation is in one place at a time, and the reactor's turn stands behind all descriptors
that it has queued. -/

namespace CqIrc.Asio

namespace Item
variable {ω δ : Type*}

def op? : Item ω δ → Option ω
  | op o => some o
  | task | descriptor _ => none

def descriptor? : Item ω δ → Option δ
  | descriptor d => some d
  | task | op _ => none

def isTask : Item ω δ → Bool
  | task => true
  | descriptor _ | op _ => false

end Item

section queue
variable {ω δ : Type*}

def ops (q : List (Item ω δ)) : List ω := q.filterMap Item.op?

def descriptors (q : List (Item ω δ)) : List δ := q.filterMap Item.descriptor?

def turns (q : List (Item ω δ)) : Nat := q.countP Item.isTask

/-- Behind a turn of the reactor there is no descriptor; before it each stands once. -/
def Behind : List (Item ω δ) → Prop
  | [] => True
  | .task :: q => turns q = 0 ∧ descriptors q = []
  | .descriptor d :: q => turns q = 1 ∧ d ∉ descriptors q ∧ Behind q
  | .op _ :: q => Behind q

variable {q : List (Item ω δ)} {os : List ω} {ds : List δ}

@[simp] theorem ops_task : ops (.task :: q) = ops q := rfl

@[simp] theorem ops_descriptor {d : δ} : ops (.descriptor d :: q) = ops q := rfl

@[simp] theorem ops_op {o : ω} : ops (.op o :: q) = o :: ops q := rfl

@[simp] theorem turns_task : turns (.task :: q) = turns q + 1 :=
  List.countP_cons_of_pos rfl

@[simp] theorem turns_descriptor {d : δ} : turns (.descriptor d :: q) = turns q :=
  List.countP_cons_of_neg (by simp [Item.isTask])

@[simp] theorem turns_op {o : ω} : turns (.op o :: q) = turns q :=
  List.countP_cons_of_neg (by simp [Item.isTask])

@[simp] theorem ops_push : ops (q ++ os.map Item.op) = ops q ++ os := by
  simp [ops, List.filterMap_map, Item.op?, Function.comp_def]

@[simp] theorem descriptors_push : descriptors (q ++ os.map Item.op) = descriptors q := by
  simp [descriptors, List.filterMap_map, Item.descriptor?, Function.comp_def]

@[simp] theorem turns_push : turns (q ++ os.map Item.op) = turns q := by
  simp [turns, List.countP_map, Item.isTask, Function.comp_def]

@[simp] theorem ops_turn : ops (q ++ (ds.map Item.descriptor ++ [Item.task])) = ops q := by
  simp [ops, List.filterMap_map, Item.op?, Function.comp_def]

@[simp] theorem turns_turn : turns (q ++ (ds.map Item.descriptor ++ [Item.task])) = turns q + 1 := by
  simp [turns, List.countP_map, Item.isTask, Function.comp_def]

theorem Behind.of_ops (none : turns q = 0) (gone : descriptors q = []) : Behind q := by
  induction q with
  | nil => trivial
  | cons x q ih =>
    cases x with
    | task => simp at none
    | descriptor d => cases gone
    | op o => exact ih (by simpa using none) gone

theorem Behind.tail {x : Item ω δ} (h : Behind (x :: q)) : Behind q := by
  cases x with
  | task => exact .of_ops h.1 h.2
  | descriptor d => exact h.2.2
  | op o => exact h

theorem Behind.push (h : Behind q) (os : List ω) : Behind (q ++ os.map Item.op) := by
  induction q with
  | nil =>
    induction os with
    | nil => trivial
    | cons o os ih => exact ih
  | cons x q ih =>
    have rest := ih h.tail
    cases x with
    | task => exact ⟨turns_push.trans h.1, descriptors_push.trans h.2⟩
    | descriptor d =>
      have same : descriptors (q ++ os.map Item.op) = descriptors q := descriptors_push
      exact ⟨turns_push.trans h.1, fun found => h.2.1 (same ▸ found), rest⟩
    | op o => exact rest

theorem Behind.no_descriptors (h : Behind q) (none : turns q = 0) : descriptors q = [] := by
  induction q with
  | nil => rfl
  | cons x q ih =>
    cases x with
    | task => simp at none
    | descriptor d =>
      have before : turns q = 1 := h.1
      rw [turns_descriptor] at none
      omega
    | op o => exact ih h (by simpa using none)

theorem Behind.turn (h : Behind q) (none : turns q = 0) (hd : ds.Nodup) :
    Behind (q ++ (ds.map Item.descriptor ++ [Item.task])) := by
  induction q with
  | nil =>
    induction ds with
    | nil => exact ⟨rfl, rfl⟩
    | cons d ds ih =>
      obtain ⟨new, later⟩ := List.nodup_cons.mp hd
      refine ⟨turns_turn (q := []), ?_, ih later⟩
      simpa [descriptors, Item.descriptor?, List.filterMap_map, Function.comp_def] using new
  | cons x q ih =>
    cases x with
    | task => simp at none
    | descriptor d =>
      have before : turns q = 1 := h.1
      rw [turns_descriptor] at none
      omega
    | op o => exact ih h (by simpa using none)

theorem Behind.nodup (h : Behind q) : (descriptors q).Nodup := by
  induction q with
  | nil => exact List.nodup_nil
  | cons x q ih =>
    cases x with
    | task =>
      have none : descriptors (.task :: q) = [] := h.2
      rw [none]
      exact List.nodup_nil
    | descriptor d => exact List.nodup_cons.mpr ⟨h.2.1, ih h.2.2⟩
    | op o => exact ih h

end queue

namespace Place
variable {ω δ : Type*}

def work : Place ω δ → Nat
  | handler _ _ _ _ => 1
  | cleanup _ queue => queue.length
  | _ => 0

def held : Place ω δ → Multiset ω
  | handler _ _ _ queue | cleanup _ queue => queue
  | _ => 0

def inTask : Place ω δ → Nat
  | task _ _ => 1
  | _ => 0

theorem held_of_idle {p : Place ω δ} (idle : p.work = 0) : p.held = 0 := by
  cases p with
  | handler => cases idle
  | cleanup m queue => exact congrArg _ (List.length_eq_zero_iff.mp idle)
  | _ => rfl

def Counted : Place ω δ → Prop
  | handler _ _ work queue => work = queue.length
  | _ => True

end Place

namespace Scheduler
variable {ι ω δ : Type*} [Fintype ι]

def weigh {M : Type*} [AddCommMonoid M] (s : Scheduler ι ω δ) (f : Place ω δ → M) : M :=
  Machine.total f s.place

def turn (s : Scheduler ι ω δ) : Nat := if s.hasTask then 1 else 0

/-- Where all work, all operations and the reactor's turn are. -/
structure Sound (s : Scheduler ι ω δ) : Prop where
  work : s.outstandingWork =
    (s.works + s.pending.card + (ops s.opQueue).length + s.weigh Place.work : Nat)
  account : s.submitted = s.pending + (ops s.opQueue : Multiset ω) + s.weigh Place.held + s.invoked
  turn : turns s.opQueue + s.weigh Place.inTask = s.turn
  behind : Behind s.opQueue
  counted : ∀ i, (s.place i).Counted

section changes
variable {s t : Scheduler ι ω δ} {i : ι} {p : Place ω δ}

theorem weigh_woken {M : Type*} [AddCommMonoid M] {f : Place ω δ → M}
    (blind : f (.waiting true) = f (.waiting false)) (h : Woken s t) : t.weigh f = s.weigh f := by
  refine Finset.sum_congr rfl fun j _ => ?_
  rcases h.place j with same | ⟨before, after⟩
  · rw [same]
  · rw [before, after, blind]

theorem Sound.woken (h : Sound s) (k : Woken s t) : Sound t where
  work := by
    rw [k.outstandingWork, k.works, k.pending, k.opQueue, weigh_woken rfl k, h.work]
  account := by
    rw [k.submitted, k.pending, k.opQueue, k.invoked, weigh_woken rfl k, h.account]
  turn := by
    rw [k.opQueue, weigh_woken rfl k, h.turn, Scheduler.turn, Scheduler.turn, k.hasTask]
  behind := k.opQueue ▸ h.behind
  counted j := by
    rcases k.place j with same | ⟨-, after⟩
    · exact same ▸ h.counted j
    · rw [after]
      trivial

/-- One thread goes to another place, and the rest of the service changes with it. -/
structure Change [DecidableEq ι] (s t : Scheduler ι ω δ) (i : ι) (p : Place ω δ) : Prop where
  place : t.place = Function.update s.place i p
  work : t.outstandingWork + (s.works + s.pending.card + (ops s.opQueue).length : Nat) +
      (s.place i).work =
    s.outstandingWork + (t.works + t.pending.card + (ops t.opQueue).length : Nat) + p.work
  account : t.submitted + (s.pending + (ops s.opQueue : Multiset ω) + (s.place i).held + s.invoked) =
    s.submitted + (t.pending + (ops t.opQueue : Multiset ω) + p.held + t.invoked)
  turn : turns t.opQueue + p.inTask + s.turn = turns s.opQueue + (s.place i).inTask + t.turn
  behind : Behind t.opQueue
  counted : p.Counted

theorem Sound.change [DecidableEq ι] (h : Sound s) (c : Change s t i p) : Sound t where
  work := by
    have total := Machine.total_update Place.work s.place i p
    rw [← c.place] at total
    have := h.work
    have := c.work
    unfold weigh at *
    push_cast at *
    omega
  account := by
    have total := Machine.total_update Place.held s.place i p
    rw [← c.place] at total
    have rest := h.account
    unfold weigh at *
    apply add_right_cancel (b := s.pending + (ops s.opQueue : Multiset ω) + (s.place i).held +
      s.invoked)
    rw [c.account, rest]
    calc s.pending + (ops s.opQueue : Multiset ω) + Machine.total Place.held s.place + s.invoked +
          (t.pending + (ops t.opQueue : Multiset ω) + p.held + t.invoked)
        = s.pending + (ops s.opQueue : Multiset ω) + s.invoked +
          (t.pending + (ops t.opQueue : Multiset ω) + t.invoked) +
            (Machine.total Place.held s.place + p.held) := by ac_rfl
      _ = s.pending + (ops s.opQueue : Multiset ω) + s.invoked +
          (t.pending + (ops t.opQueue : Multiset ω) + t.invoked) +
            (Machine.total Place.held t.place + (s.place i).held) := by rw [total]
      _ = t.pending + (ops t.opQueue : Multiset ω) + Machine.total Place.held t.place + t.invoked +
          (s.pending + (ops s.opQueue : Multiset ω) + (s.place i).held + s.invoked) := by ac_rfl
  turn := by
    have total := Machine.total_update Place.inTask s.place i p
    rw [← c.place] at total
    have := h.turn
    have := c.turn
    unfold weigh at *
    omega
  behind := c.behind
  counted j := by
    rw [c.place]
    by_cases same : j = i
    · rw [same, Function.update_self]
      exact c.counted
    · rw [Function.update_of_ne same]
      exact h.counted j

theorem Sound.still (h : Sound s) (places : t.place = s.place)
    (work : t.outstandingWork + (s.works + s.pending.card + (ops s.opQueue).length : Nat) =
      s.outstandingWork + (t.works + t.pending.card + (ops t.opQueue).length : Nat))
    (account : t.submitted + (s.pending + (ops s.opQueue : Multiset ω) + s.invoked) =
      s.submitted + (t.pending + (ops t.opQueue : Multiset ω) + t.invoked))
    (turn : turns t.opQueue + s.turn = turns s.opQueue + t.turn) (behind : Behind t.opQueue) :
    Sound t where
  work := by
    have := h.work
    unfold weigh at *
    rw [places]
    push_cast at *
    omega
  account := by
    have rest := h.account
    unfold weigh at *
    rw [places]
    apply add_right_cancel (b := s.pending + (ops s.opQueue : Multiset ω) + s.invoked)
    rw [account, rest]
    ac_rfl
  turn := by
    have := h.turn
    unfold weigh at *
    rw [places]
    omega
  behind := behind
  counted i := places ▸ h.counted i

theorem Sound.startOp {o : ω} (h : Sound s) : Sound (s.startOp o) := by
  refine h.still rfl ?_ ?_ rfl h.behind
  · simp only [Scheduler.startOp, Multiset.card_cons]
    push_cast
    omega
  · simp only [Scheduler.startOp, ← Multiset.singleton_add]
    ac_rfl

theorem Sound.newWork (h : Sound s) : Sound s.work := by
  refine h.still rfl ?_ rfl rfl h.behind
  simp only [Scheduler.work]
  push_cast
  omega

variable [DecidableEq ι]

theorem Sound.move (h : Sound s) (work : p.work = (s.place i).work)
    (held : p.held = (s.place i).held) (inTask : p.inTask = (s.place i).inTask)
    (counted : p.Counted) : Sound (s.move i p) :=
  h.change (i := i) (p := p)
    { place := place_move
      work := by rw [work]; rfl
      account := by rw [held]; rfl
      turn := by rw [inTask]; rfl
      behind := h.behind
      counted := counted }

section loop
variable {m : Mode} {w : Option ι} {x : Item ω δ} {q : List (Item ω δ)}

theorem Sound.popDescriptor {d : δ} (h : Sound s) (hi : s.place i = .ready m)
    (hq : s.opQueue = .descriptor d :: q) :
    Sound ({ s with opQueue := q }.move i (.descriptor m d)) :=
  h.change (i := i) (p := .descriptor m d)
    { place := place_move
      work := by rw [hi, hq]; rfl
      account := by rw [hi, hq]; rfl
      turn := by rw [hi, hq]; exact congrArg (· + 0 + s.turn) turns_descriptor.symm
      behind := (hq ▸ h.behind).tail
      counted := trivial }

theorem Sound.popOp {o : ω} (h : Sound s) (hi : s.place i = .ready m)
    (hq : s.opQueue = .op o :: q) : Sound ({ s with opQueue := q }.invoke i m o) :=
  h.change (i := i) (p := .handler m (some o) 0 [])
    { place := place_move
      work := by
        rw [hi, hq]
        simp only [invoke, Scheduler.move, Place.work, ops_op, List.length_cons]
        push_cast
        omega
      account := by
        rw [hi, hq]
        simp only [invoke, Scheduler.move, Place.held, ops_op, ← Multiset.cons_coe,
          Multiset.coe_nil, add_zero, Multiset.cons_add, Multiset.add_cons]
      turn := by rw [hi, hq]; exact congrArg (· + 0 + s.turn) turns_op.symm
      behind := (hq ▸ h.behind).tail
      counted := rfl }

theorem Sound.execute (h : Sound s) (hi : s.place i = .ready m) (hq : s.opQueue = x :: q)
    (ht : { s with opQueue := q }.execute i m w x = some t) : Sound t := by
  cases x with
  | task => cases ht
  | descriptor d => exact (h.popDescriptor hi hq).woken (wakeMore_woken ht).1
  | op o => exact (h.popOp hi hq).woken (wakeMore_woken ht).1

theorem Sound.takeTurn (h : Sound s) (hi : s.place i = .ready m) (hq : s.opQueue = .task :: q)
    (interrupted : Bool) (n : Mode) (block : Bool) :
    Sound ({ s with opQueue := q, taskInterrupted := interrupted }.move i (.task n block)) :=
  h.change (i := i) (p := .task n block)
    { place := place_move
      work := by rw [hi, hq]; rfl
      account := by rw [hi, hq]; rfl
      turn := by
        rw [hi, hq, turns_task]
        rfl
      behind := (hq ▸ h.behind).tail
      counted := trivial }

theorem Sound.rest (h : Sound s) (hi : s.place i = .ready m) :
    Sound ({ s with signalled := false }.move i (.waiting false)) :=
  h.change (i := i) (p := .waiting false)
    { place := place_move
      work := by rw [hi]; rfl
      account := by rw [hi]; rfl
      turn := by rw [hi]; rfl
      behind := h.behind
      counted := trivial }

theorem Sound.leave (h : Sound s) (hi : s.place i = .ready m) : Sound (s.move i .outside) :=
  h.move (by rw [hi]; rfl) (by rw [hi]; rfl) (by rw [hi]; rfl) trivial

theorem Sound.doRunOne (h : Sound s) (hi : s.place i = .ready .run)
    (ht : s.doRunOne i w = some t) : Sound t := by
  unfold Scheduler.doRunOne at ht
  split at ht
  · obtain rfl := Option.some.inj ht
    exact h.leave hi
  split at ht
  · obtain rfl := Option.some.inj ht
    exact h.rest hi
  · next hq =>
    obtain rfl := Option.some.inj ht
    exact h.takeTurn hi hq false .run true
  · next hq => exact (h.takeTurn hi hq true .run false).woken (signalOne_woken ht).1
  · next hq => exact h.execute hi hq ht

theorem Sound.pollNext (h : Sound s) (hi : s.place i = .ready .poll)
    (ht : s.pollNext i w = some t) : Sound t := by
  unfold Scheduler.pollNext at ht
  split at ht
  · obtain rfl := Option.some.inj ht
    exact h.leave hi
  · exact (h.leave hi).woken (signalOne_woken ht).1
  · next hq => exact h.execute hi hq ht

theorem Sound.loop (h : Sound s) (hi : s.place i = .ready m) (ht : s.loop i w m = some t) :
    Sound t := by
  cases m with
  | run => exact h.doRunOne hi ht
  | poll =>
    replace ht : s.doPollOne i w = some t := ht
    unfold Scheduler.doPollOne at ht
    split at ht
    · obtain rfl := Option.some.inj ht
      exact h.leave hi
    split at ht
    · next hq =>
      obtain rfl := Option.some.inj ht
      exact h.takeTurn hi hq s.taskInterrupted .poll false
    · exact h.pollNext hi ht

omit [DecidableEq ι] in
/-- A thread in the reactor has the turn, of which there is one. -/
theorem Sound.reactor {block : Bool} (h : Sound s) (hi : s.place i = .task m block) :
    turns s.opQueue = 0 ∧ s.hasTask = true := by
  have whole := h.turn
  have mine := Machine.le_total Place.inTask s.place i
  rw [hi] at mine
  replace mine : 1 ≤ s.weigh Place.inTask := mine
  unfold Scheduler.turn at whole
  split at whole
  · next some_ => exact ⟨by omega, some_⟩
  · omega

theorem Sound.reactor_unique {j : ι} {n : Mode} {b c : Bool} (h : Sound s)
    (hi : s.place i = .task m b) (hj : s.place j = .task n c) : i = j := by
  by_contra other
  have whole := h.turn
  have rest := Machine.total_update Place.inTask s.place i .outside
  have mine := Machine.le_total Place.inTask (Function.update s.place i .outside) j
  rw [Function.update_of_ne (Ne.symm other), hj] at mine
  rw [hi] at rest
  simp only [Place.inTask] at mine rest
  unfold Scheduler.turn weigh at whole
  split at whole <;> omega

theorem Sound.turnOver {block drained : Bool} {ds : List δ} (h : Sound s)
    (hi : s.place i = .task m block) (hd : ds.Nodup) : Sound (s.turnOver i m ds drained) :=
  h.change (i := i) (p := .ready m)
    { place := place_move
      work := by
        rw [hi]
        simp only [Scheduler.turnOver, Scheduler.move, ops_turn, Place.work]
      account := by
        rw [hi]
        simp only [Scheduler.turnOver, Scheduler.move, ops_turn, Place.held]
      turn := by
        rw [hi]
        simp only [Scheduler.turnOver, Scheduler.move, turns_turn, Place.inTask]
        rfl
      behind := h.behind.turn (h.reactor hi).1 hd
      counted := trivial }

theorem Sound.taskReturn {block drained : Bool} {ds : List δ} (h : Sound s)
    (hi : s.place i = .task m block) (hd : ds.Nodup) (ht : s.taskReturn i m ds drained w = some t) :
    Sound t := by
  have back : Sound (s.turnOver i m ds drained) := h.turnOver hi hd
  cases m with
  | run => exact back.doRunOne place_move_self ht
  | poll => exact back.pollNext place_move_self ht

theorem Sound.owes (h : Sound s) (stopping : Bool) : Sound (s.owes i stopping) :=
  h.still place_owes rfl rfl rfl h.behind

theorem Sound.enter {n : Mode} (h : Sound s) (ht : s.enter i n = some t) : Sound t := by
  unfold Scheduler.enter at ht
  split at ht
  · next hi =>
    obtain rfl := Option.some.inj ht
    split
    · exact h.owes true
    · exact h.move (by rw [hi]; rfl) (by rw [hi]; rfl) (by rw [hi]; rfl) trivial
  · cases ht

theorem Sound.finish {o : Option ω} {n : Nat} {queue : List ω} (h : Sound s)
    (hi : s.place i = .handler m o n queue) : Sound (s.finish i m n queue) := by
  have counted : n = queue.length := by
    have := h.counted i
    rwa [hi] at this
  refine Sound.owes (s := { s with
    outstandingWork := s.outstandingWork + (n - 1) }.move i (.cleanup m queue)) ?_ _
  refine h.change (i := i) (p := .cleanup m queue)
    { place := place_move, work := ?_, account := ?_, turn := ?_, behind := h.behind,
      counted := trivial }
  · rw [hi]
    simp only [Scheduler.move, Place.work]
    omega
  · rw [hi]
    rfl
  · rw [hi]
    rfl

theorem Sound.flush {queue : List ω} (h : Sound s) (hi : s.place i = .cleanup m queue) :
    Sound (s.flush i m queue) := by
  refine h.change (i := i) (p := .ready m)
    { place := place_move, work := ?_, account := ?_, turn := ?_,
      behind := h.behind.push queue, counted := trivial }
  · rw [hi]
    simp only [Scheduler.flush, Scheduler.move, Scheduler.push, ops_push, List.length_append,
      Place.work]
    push_cast
    omega
  · rw [hi]
    simp only [Scheduler.flush, Scheduler.move, Scheduler.push, ops_push, ← Multiset.coe_add,
      Place.held]
    ac_rfl
  · rw [hi]
    simp only [Scheduler.flush, Scheduler.move, Scheduler.push, turns_push, Place.inTask]
    rfl

theorem Sound.back (h : Sound s) (hi : s.place i = .cleanup m []) : Sound (s.move i (.ready m)) :=
  h.move (by rw [hi]; rfl) (by rw [hi]; rfl) (by rw [hi]; rfl) trivial

theorem Sound.cleanup {queue : List ω} (h : Sound s) (hi : s.place i = .cleanup m queue)
    (ht : s.cleanup i m queue w = some t) : Sound t := by
  unfold Scheduler.cleanup at ht
  split at ht
  · next none =>
    obtain rfl := Option.some.inj ht
    exact h.back (none ▸ hi)
  · exact (h.flush hi).loop place_move_self ht

omit [DecidableEq ι] in
theorem Sound.enqueue {o : ω} (h : Sound s) : Sound (s.enqueue o) := by
  refine h.still rfl ?_ ?_ (congrArg (· + s.turn) turns_push) (h.behind.push [o])
  · simp only [Scheduler.enqueue, submit, workStarted, Scheduler.push, ops_push,
      List.length_append, List.length_singleton]
    push_cast
    omega
  · simp only [Scheduler.enqueue, submit, workStarted, Scheduler.push, ops_push,
      ← Multiset.coe_add, Multiset.coe_singleton, ← Multiset.singleton_add]
    ac_rfl

theorem Sound.keep {p : Option ω} {n : Nat} {queue : List ω} {o : ω} (h : Sound s)
    (hi : s.place i = .handler m p n queue) :
    Sound ((s.submit o).move i (.handler m p (n + 1) (queue ++ [o]))) := by
  have counted : n = queue.length := by
    have := h.counted i
    rwa [hi] at this
  refine h.change (i := i) (p := .handler m p (n + 1) (queue ++ [o]))
    { place := place_move, work := ?_, account := ?_, turn := ?_, behind := h.behind, counted := ?_ }
  · rw [hi]
    rfl
  · rw [hi]
    simp only [Scheduler.move, submit, Place.held, ← Multiset.coe_add, Multiset.coe_singleton,
      ← Multiset.singleton_add]
    ac_rfl
  · rw [hi]
    rfl
  · show n + 1 = (queue ++ [o]).length
    rw [counted, List.length_append, List.length_singleton]

theorem Sound.post {o : ω} {isContinuation : Bool} (h : Sound s)
    (ht : s.post i o isContinuation w = some t) : Sound t := by
  unfold Scheduler.post at ht
  split at ht
  · next hi =>
    obtain rfl := Option.some.inj ht
    exact h.keep hi
  · exact h.enqueue.woken (wakeOne_woken ht).1

theorem Sound.unwork (h : Sound s) (some_ : 0 < s.works) : Sound (s.unwork i) := by
  refine Sound.owes (s := { s with
    works := s.works - 1, outstandingWork := s.outstandingWork - 1 }) ?_ _
  refine h.still rfl ?_ rfl rfl h.behind
  simp only
  omega

omit [DecidableEq ι] in
theorem Sound.newTask (h : Sound s) (first : s.hasTask = false) : Sound s.newTask := by
  have none : s.turn = 0 := if_neg (by simp [first])
  have alone := h.turn
  have queued : ops (s.opQueue ++ [Item.task]) = ops s.opQueue :=
    (ops_turn : ops (s.opQueue ++ (([] : List δ).map Item.descriptor ++ [Item.task])) = _)
  have behind : Behind (s.opQueue ++ [Item.task]) := h.behind.turn (by omega) List.nodup_nil
  refine h.still rfl ?_ ?_ ?_ behind
  · simp only [Scheduler.newTask, queued]
  · simp only [Scheduler.newTask, queued]
  · have after : turns (s.opQueue ++ (([] : List δ).map Item.descriptor ++ [Item.task])) =
        turns s.opQueue + 1 := turns_turn
    rw [none]
    exact after

theorem Sound.initTask (h : Sound s) (ht : s.initTask w = some t) : Sound t := by
  unfold Scheduler.initTask at ht
  split at ht
  · cases ht
  · next first => exact (h.newTask (by simpa using first)).woken (wakeOne_woken ht).1

theorem Sound.idle {d : δ} (h : Sound s) (hi : s.place i = .descriptor m d) :
    Sound (s.workStarted.move i (.handler m none 0 [])) := by
  refine h.change (i := i) (p := .handler m none 0 [])
    { place := place_move, work := ?_, account := ?_, turn := ?_, behind := h.behind,
      counted := rfl }
  · rw [hi]
    simp only [Scheduler.move, workStarted, Place.work]
    push_cast
    omega
  · rw [hi]
    rfl
  · rw [hi]
    rfl

variable [DecidableEq ω]

theorem Sound.complete {d : δ} {o : ω} {os : List ω} (h : Sound s)
    (hi : s.place i = .descriptor m d) (registered : (↑(o :: os) : Multiset ω) ≤ s.pending) :
    Sound ((s.complete i m o os).push os) := by
  obtain ⟨others, split⟩ := Multiset.le_iff_exists_add.mp registered
  rw [← Multiset.cons_coe] at split
  have left : s.pending - (o ::ₘ (os : Multiset ω)) = others := by
    rw [split, add_tsub_cancel_left]
  refine h.change (i := i) (p := .handler m (some o) 0 [])
    { place := place_move, work := ?_, account := ?_, turn := ?_,
      behind := h.behind.push os, counted := rfl }
  · have cards := congrArg Multiset.card split
    rw [Multiset.card_add, Multiset.card_cons, Multiset.coe_card] at cards
    rw [hi, cards]
    simp only [Scheduler.complete, invoke, Scheduler.move, Scheduler.push, ops_push, List.length_append,
      Place.work, left]
    push_cast
    omega
  · rw [hi]
    simp only [Scheduler.complete, invoke, Scheduler.move, Scheduler.push, left]
    rw [split]
    simp only [ops_push, Place.held, ← Multiset.coe_add, ← Multiset.singleton_add,
      Multiset.coe_nil]
    ac_rfl
  · rw [hi]
    simp only [Scheduler.complete, invoke, Scheduler.move, Scheduler.push, turns_push, Place.inTask]
    rfl

theorem Sound.perform {d : δ} {os : List ω} (h : Sound s) (hi : s.place i = .descriptor m d)
    (registered : (os : Multiset ω) ≤ s.pending) (ht : s.perform i m os w = some t) : Sound t := by
  unfold Scheduler.perform at ht
  split at ht
  · obtain rfl := Option.some.inj ht
    exact h.idle hi
  · obtain rfl := Option.some.inj ht
    have alone := h.complete hi registered
    simpa [Scheduler.push] using alone
  · exact (h.complete hi registered).woken (wakeOne_woken ht).1

omit [DecidableEq ι] in
theorem Sound.withdraw {os : List ω} (h : Sound s) (registered : (os : Multiset ω) ≤ s.pending) :
    Sound (s.withdraw os) := by
  obtain ⟨others, split⟩ := Multiset.le_iff_exists_add.mp registered
  have left : s.pending - (os : Multiset ω) = others := by rw [split, add_tsub_cancel_left]
  refine h.still rfl ?_ ?_ (congrArg (· + s.turn) turns_push) (h.behind.push os)
  · have cards := congrArg Multiset.card split
    rw [Multiset.card_add, Multiset.coe_card] at cards
    rw [cards]
    simp only [Scheduler.withdraw, Scheduler.push, ops_push, List.length_append, left]
    push_cast
    omega
  · simp only [Scheduler.withdraw, Scheduler.push, ops_push, ← Multiset.coe_add, left]
    rw [split]
    ac_rfl

theorem Sound.cancel {os : List ω} (h : Sound s) (ht : s.cancel os w = some t) : Sound t := by
  unfold Scheduler.cancel at ht
  split at ht
  · next registered => exact (h.withdraw registered.1).woken (wakeOne_woken ht).1
  · cases ht

theorem Sound.call {a : Act ι ω δ} (h : Sound s) (ht : s.call a = some t) : Sound t := by
  cases a with
  | post i o c w => exact h.post ht
  | start i o =>
    obtain rfl := Option.some.inj ht
    exact h.startOp
  | cancel i os w => exact h.cancel ht
  | work i =>
    obtain rfl := Option.some.inj ht
    exact h.newWork
  | unwork i =>
    replace ht : (if 0 < s.works then some (s.unwork i) else none) = some t := ht
    split at ht
    · next some_ =>
      obtain rfl := Option.some.inj ht
      exact h.unwork some_
    · cases ht
  | stop i =>
    obtain rfl := Option.some.inj ht
    exact h.woken (stopAll_woken s)
  | initTask i w => exact h.initTask ht
  | _ => cases ht

variable [DecidableEq δ]

theorem Sound.serve {a : Act ι ω δ} (h : Sound s) (ht : s.serve a = some t) : Sound t := by
  unfold Scheduler.serve at ht
  split at ht
  · split at ht
    · next hi => exact h.loop hi ht
    · cases ht
  · split at ht
    · next hi =>
      have weightless : ∀ p : Place ω δ, p.work = 0 → p.held = 0 → p.inTask = 0 → p.Counted →
          Sound (s.move _ p) := fun p work held inTask counted =>
        h.move (by rw [hi, work]; rfl) (by rw [hi, held]; rfl) (by rw [hi, inTask]; rfl) counted
      split at ht
      · exact (weightless (.ready .run) rfl rfl rfl trivial).doRunOne place_move_self ht
      · obtain rfl := Option.some.inj ht
        exact weightless _ rfl rfl rfl trivial
    · cases ht
  · split at ht
    · next hi =>
      obtain rfl := Option.some.inj ht
      exact h.move (by rw [hi]; rfl) (by rw [hi]; rfl) (by rw [hi]; rfl) trivial
    · cases ht
  · split at ht
    · next hi =>
      split at ht
      · next hd => exact h.taskReturn hi hd ht
      · cases ht
    · cases ht
  · split at ht
    · next hi =>
      split at ht
      · next registered => exact h.perform hi registered ht
      · cases ht
    · cases ht
  · split at ht
    · next hi =>
      obtain rfl := Option.some.inj ht
      exact h.finish hi
    · cases ht
  · split at ht
    · next hi => exact h.cleanup hi ht
    · cases ht
  · cases ht

theorem Sound.step {a : Act ι ω δ} (h : Sound s) (ht : Scheduler.step a s = some t) : Sound t := by
  rcases step_cases ht with ⟨i, -, -, rfl⟩ | ⟨-, ⟨i, n, -, he⟩ | hs | ⟨-, hc⟩⟩
  · exact (h.owes false).woken (stopAll_woken _)
  · exact h.enter he
  · exact h.serve hs
  · exact h.call hc

end loop

end changes

theorem weigh_fresh {M : Type*} [AddCommMonoid M] {f : Place ω δ → M} (rest : f .outside = 0) :
    weigh (fresh : Scheduler ι ω δ) f = 0 := Machine.total_zero fun _ => rest

theorem fresh_sound : Sound (fresh : Scheduler ι ω δ) where
  work := by
    rw [weigh_fresh rfl]
    rfl
  account := by
    rw [weigh_fresh rfl]
    rfl
  turn := by
    rw [weigh_fresh rfl]
    rfl
  behind := trivial
  counted _ := trivial

section runs
variable [DecidableEq ι] [DecidableEq ω] [DecidableEq δ] {s : Scheduler ι ω δ} {n : Nat}

theorem run_sound {allowed : Scheduler ι ω δ → Act ι ω δ → Prop}
    (run : Machine.Run step allowed fresh n s) : Sound s :=
  run.invariant fresh_sound fun _ _ _ sound _ h => sound.step h

omit [DecidableEq ι] [DecidableEq ω] [DecidableEq δ] in
theorem Sound.all_called (h : Sound s) (idle : s.outstandingWork = 0) :
    s.invoked = s.submitted := by
  have work := h.work
  have unregistered : s.pending = 0 := Multiset.card_eq_zero.mp (by omega)
  have unqueued : ops s.opQueue = [] := List.length_eq_zero_iff.mp (by omega)
  have unheld : s.weigh Place.held = 0 := Machine.total_zero fun i => by
    have mine := Machine.le_total Place.work s.place i
    replace mine : (s.place i).work ≤ s.weigh Place.work := mine
    have none : (s.place i).work = 0 := by omega
    exact Place.held_of_idle none
  rw [h.account, unregistered, unqueued, unheld, Multiset.coe_nil, add_zero, zero_add, zero_add]

/-- However the threads interleave, an operation is registered at the reactor, queued, kept by
the thread that has posted it, or its handler has been called; without outstanding work all
have been. Each descriptor is queued once, and none while a thread is in the reactor, where
one thread is at a time. -/
theorem conserved (run : Machine.Run step Machine.free (fresh : Scheduler ι ω δ) n s) :
    s.submitted = s.pending + (ops s.opQueue : Multiset ω) + s.weigh Place.held + s.invoked ∧
      0 ≤ s.outstandingWork ∧ (s.outstandingWork = 0 → s.invoked = s.submitted) ∧
      (descriptors s.opQueue).Nodup ∧
      ∀ i m b, s.place i = .task m b → descriptors s.opQueue = [] ∧
        ∀ j m' b', s.place j = .task m' b' → j = i := by
  have sound := run_sound run
  refine ⟨sound.account, ?_, sound.all_called, sound.behind.nodup, fun i m b hi => ⟨?_, ?_⟩⟩
  · rw [sound.work]
    exact Int.natCast_nonneg _
  · exact sound.behind.no_descriptors (sound.reactor hi).1
  · exact fun j m' b' hj => sound.reactor_unique hj hi

end runs

/-- One thread takes the reactor's turn and the operation behind it, of which the handler
posts another; the other thread has called `run` as well. -/
def twoThreads : List (Act Bool Nat Nat) :=
  [.initTask true none, .start true 7, .post true 1 false none, .enter false .run,
    .enter true .run, .loop false none, .taskReturn false [3] true none, .post false 2 true none]

theorem conserved_twoThreads :
    ∃ s : Scheduler Bool Nat Nat, Machine.Run step Machine.free fresh twoThreads.length s ∧
      s.submitted = {1, 2, 7} ∧
      s.invoked = {1} ∧ descriptors s.opQueue = [3] ∧
      s.submitted = s.pending + (ops s.opQueue : Multiset Nat) + s.weigh Place.held + s.invoked := by
  obtain ⟨s, run, view⟩ := Machine.exists_run step Machine.free
    (s := (fresh : Scheduler Bool Nat Nat))
    (f := fun s => (s.submitted, s.invoked, descriptors s.opQueue)) (b := ({1, 2, 7}, {1}, [3]))
    twoThreads (by decide +kernel)
  simp only [Prod.mk.injEq] at view
  exact ⟨s, run, view.1, view.2.1, view.2.2, (conserved run).1⟩

end Scheduler
end CqIrc.Asio
