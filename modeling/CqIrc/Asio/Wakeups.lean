import CqIrc.Asio.Account

/-! Threads that wait, for the event or in the reactor. A service that has something in its
queue never leaves all of its threads waiting, and one that is stopped leaves none. -/

namespace CqIrc.Asio.Scheduler

variable {ι ω δ : Type*}

/-- The thread goes on by itself from this place: it does not wait, or has been woken. -/
def Awake (s : Scheduler ι ω δ) : Place ω δ → Prop
  | .outside => False
  | .waiting woken => woken = true ∧ s.signalled = true
  | .task _ block => block = true → s.interrupt = true
  | .ready _ | .descriptor _ _ | .handler _ _ _ _ | .cleanup _ _ => True

section awake
variable {s t u : Scheduler ι ω δ} {i j : ι} {p : Place ω δ}

theorem awake_woken (k : Woken s t) (h : s.Awake (s.place j)) : t.Awake (t.place j) := by
  rcases k.place j with same | ⟨before, -⟩
  · rw [same]
    cases hp : s.place j with
    | outside => exact absurd h (by rw [hp]; exact id)
    | waiting woken =>
      rw [hp] at h
      exact ⟨h.1, k.signalled h.2⟩
    | task m block =>
      rw [hp] at h
      exact fun blocks => k.interrupt (h blocks)
    | _ => trivial
  · rw [before] at h
    cases h.1

theorem Awake.congr (h : s.Awake p) (signalled : t.signalled = s.signalled)
    (interrupt : t.interrupt = s.interrupt) : t.Awake p := by
  cases p with
  | waiting woken => exact ⟨h.1, signalled.trans h.2⟩
  | task m block => exact fun blocks => interrupt.trans (h blocks)
  | outside => exact h
  | _ => trivial

def Active : Place ω δ → Prop
  | .outside | .waiting _ | .task _ _ => False
  | .ready _ | .descriptor _ _ | .handler _ _ _ _ | .cleanup _ _ => True

theorem Active.awake (h : Active p) : s.Awake p := by
  cases p with
  | outside | waiting _ | task _ _ => exact h.elim
  | _ => trivial

end awake

section lively
variable [Fintype ι]

/-- The invariant while a thread is about to be woken: no interrupt of a reactor that
blocks is lost, and the threads of a stopped service are on their way out. -/
structure Alert (s : Scheduler ι ω δ) : Prop where
  sound : Sound s
  blocked : ∀ i m, s.place i = .task m true → s.taskInterrupted = true → s.interrupt = true
  released : s.stopped = true → ∀ i, s.place i ≠ .outside → s.Awake (s.place i)

/-- And with something in the queue not all threads wait. -/
structure Lively (s : Scheduler ι ω δ) : Prop extends Alert s where
  attended : s.stopped = false → s.opQueue ≠ [] → (∃ i, s.place i ≠ .outside) →
    ∃ i, s.Awake (s.place i)

variable {s t u : Scheduler ι ω δ} {i j : ι} {p : Place ω δ}

theorem Alert.woken (h : Alert s) (k : Woken s t) (stopped : t.stopped = s.stopped) : Alert t where
  sound := h.sound.woken k
  blocked j m hj interrupted := by
    rcases k.taskInterrupted interrupted with before | now
    · rcases k.place j with same | ⟨-, after⟩
      · exact k.interrupt (h.blocked j m (same ▸ hj) before)
      · rw [after] at hj
        cases hj
    · exact now
  released ht j hj := by
    refine awake_woken k (h.released (stopped ▸ ht) j ?_)
    rcases k.place j with same | ⟨before, -⟩
    · rwa [← same]
    · rw [before]
      exact fun h => by cases h

theorem Lively.woken (h : Lively s) (k : Woken s t) (stopped : t.stopped = s.stopped) :
    Lively t where
  toAlert := h.toAlert.woken k stopped
  attended ht some_ inside := by
    obtain ⟨j, hj⟩ := inside
    have before : s.place j ≠ .outside := by
      rcases k.place j with same | ⟨before, -⟩
      · rwa [← same]
      · rw [before]
        exact fun h => by cases h
    obtain ⟨l, hl⟩ := h.attended (stopped ▸ ht) (k.opQueue ▸ some_) ⟨j, before⟩
    exact ⟨l, awake_woken k hl⟩

variable [DecidableEq ι]

theorem signalOne_awake {w : Option ι} (h : s.signalOne w = some t) (hj : s.place j ≠ .outside)
    (free : ∀ m, s.place j ≠ .task m true) : ∃ l, t.Awake (t.place l) := by
  obtain ⟨k, signalled, -⟩ := signalOne_woken h
  cases hp : s.place j with
  | outside => exact absurd hp hj
  | task m block =>
    have open_ : block = false := by
      cases block with
      | false => rfl
      | true => exact absurd hp (free m)
    exact ⟨j, awake_woken k (by rw [hp, open_]; exact fun h => by cases h)⟩
  | waiting woken =>
    cases w with
    | none =>
      rw [signalOne] at h
      split at h
      · next none_ =>
        have up : woken = true := by
          have := none_ j
          rw [hp] at this
          simpa [Place.asleep] using this
        refine ⟨j, ?_⟩
        rcases k.place j with same | ⟨-, after⟩
        · rw [same, hp]
          exact ⟨up, signalled⟩
        · rw [after]
          exact ⟨rfl, signalled⟩
      · cases h
    | some l =>
      rw [signalOne] at h
      split at h
      · obtain rfl := Option.some.inj h
        exact ⟨l, by rw [place_move_self]; exact ⟨rfl, rfl⟩⟩
      · cases h
  | _ => exact ⟨j, awake_woken k (by rw [hp]; trivial)⟩

omit [DecidableEq ι] in
theorem Alert.interrupts (h : Alert s) {m : Mode} (hj : s.place j = .task m true)
    (interrupted : u.taskInterrupted = s.taskInterrupted) (pending : u.interrupt = s.interrupt)
    (hasTask : u.hasTask = s.hasTask) : u.interruptTask.interrupt = true := by
  have reactor := (h.sound.reactor hj).2
  unfold Scheduler.interruptTask
  split
  · rfl
  · next before =>
    rw [interrupted, hasTask, reactor] at before
    rw [pending]
    exact h.blocked j m hj (by simpa using before)

/-- Whatever has been queued, behind `wake_one_thread_and_unlock` it is attended to. -/
theorem Alert.wakeOne {w : Option ι} (h : Alert s) (ht : s.wakeOne w = some t) : Lively t := by
  obtain ⟨k, signalled, stopped⟩ := wakeOne_woken ht
  refine { toAlert := h.woken k stopped, attended := fun _ _ inside => ?_ }
  obtain ⟨j, hj⟩ := inside
  unfold Scheduler.wakeOne at ht
  split at ht
  · next waiters =>
    obtain ⟨l, hl⟩ := waiters
    obtain ⟨woken, hl⟩ := waits_iff.mp hl
    exact signalOne_awake ht (j := l) (by rw [hl]; exact fun h => by cases h)
      fun m => by rw [hl]; exact fun h => by cases h
  · next none_ =>
    obtain rfl := Option.some.inj ht
    have here : s.place j = (interruptTask { s with signalled := true }).place j :=
      (interruptTask_place (s := { s with signalled := true })).symm
    refine ⟨j, ?_⟩
    rw [← here] at hj ⊢
    cases hp : s.place j with
    | outside => exact absurd hp hj
    | waiting woken => exact absurd ⟨j, by rw [hp]; rfl⟩ none_
    | task m block =>
      intro blocks
      subst blocks
      exact h.interrupts (u := { s with signalled := true }) hp rfl rfl rfl
    | _ => trivial

/-- The flags by which threads are woken are as they were. -/
structure SameFlags (s t : Scheduler ι ω δ) : Prop where
  signalled : t.signalled = s.signalled
  interrupt : t.interrupt = s.interrupt
  taskInterrupted : t.taskInterrupted = s.taskInterrupted
  stopped : t.stopped = s.stopped

omit [DecidableEq ι] in
theorem Alert.still (h : Alert s) (sound : Sound t) (flags : SameFlags s t)
    (places : t.place = s.place) : Alert t where
  sound := sound
  blocked j m hj interrupted := by
    rw [flags.interrupt]
    exact h.blocked j m (places ▸ hj) (flags.taskInterrupted ▸ interrupted)
  released ht j hj := by
    rw [places] at hj ⊢
    exact (h.released (flags.stopped ▸ ht) j hj).congr flags.signalled flags.interrupt

omit [DecidableEq ι] in
theorem Lively.still (h : Lively s) (sound : Sound t) (flags : SameFlags s t)
    (places : t.place = s.place) (queue : t.opQueue = s.opQueue) : Lively t where
  toAlert := h.toAlert.still sound flags places
  attended ht some_ inside := by
    rw [places] at inside ⊢
    obtain ⟨j, hj⟩ := h.attended (flags.stopped ▸ ht) (queue ▸ some_) inside
    exact ⟨j, hj.congr flags.signalled flags.interrupt⟩

theorem Alert.go (h : Alert s) (sound : Sound t) (flags : SameFlags s t)
    (places : t.place = Function.update s.place i p) (active : Active p) : Lively t where
  sound := sound
  blocked j m hj interrupted := by
    rw [places] at hj
    by_cases same : j = i
    · rw [same, Function.update_self] at hj
      rw [hj] at active
      exact active.elim
    · rw [Function.update_of_ne same] at hj
      rw [flags.interrupt]
      exact h.blocked j m hj (flags.taskInterrupted ▸ interrupted)
  released ht j hj := by
    rw [places] at hj ⊢
    by_cases same : j = i
    · rw [same, Function.update_self]
      exact active.awake
    · rw [Function.update_of_ne same] at hj ⊢
      exact (h.released (flags.stopped ▸ ht) j hj).congr flags.signalled flags.interrupt
  attended _ _ _ := by
    refine ⟨i, ?_⟩
    rw [places, Function.update_self]
    exact active.awake

section loop
variable {m : Mode} {w : Option ι} {x : Item ω δ} {q : List (Item ω δ)}

theorem Alert.execute (h : Alert s) (hi : s.place i = .ready m) (hq : s.opQueue = x :: q)
    (ht : { s with opQueue := q }.execute i m w x = some t) : Lively t := by
  cases x with
  | task => cases ht
  | descriptor d =>
    obtain ⟨k, stopped⟩ := wakeMore_woken ht
    exact (h.go (h.sound.popDescriptor hi hq) ⟨rfl, rfl, rfl, rfl⟩ place_move trivial).woken k stopped
  | op o =>
    obtain ⟨k, stopped⟩ := wakeMore_woken ht
    exact (h.go (h.sound.popOp hi hq) ⟨rfl, rfl, rfl, rfl⟩ place_move trivial).woken k stopped

theorem Alert.leave (h : Alert s) (sound : Sound (s.move i .outside)) :
    Alert (s.move i .outside) where
  sound := sound
  blocked j n hj interrupted := by
    by_cases same : j = i
    · rw [same, place_move_self] at hj
      cases hj
    · rw [place_move_of_ne same] at hj
      exact h.blocked j n hj interrupted
  released ht j hj := by
    by_cases same : j = i
    · rw [same, place_move_self] at hj
      exact absurd rfl hj
    · rw [place_move_of_ne same] at hj ⊢
      exact (h.released ht j hj).congr rfl rfl

theorem Alert.doRunOne (h : Alert s) (hi : s.place i = .ready .run)
    (ht : s.doRunOne i w = some t) : Lively t := by
  unfold Scheduler.doRunOne at ht
  split at ht
  · next stopped =>
    obtain rfl := Option.some.inj ht
    refine { toAlert := h.leave (h.sound.leave hi), attended := fun open_ => ?_ }
    rw [show (s.move i .outside).stopped = s.stopped from rfl, stopped] at open_
    cases open_
  next open_ =>
  split at ht
  · next hq =>
    obtain rfl := Option.some.inj ht
    refine { sound := h.sound.rest hi, blocked := fun j n hj interrupted => ?_,
             released := fun stopped => absurd stopped open_,
             attended := fun _ some_ => absurd hq some_ }
    by_cases same : j = i
    · rw [same, place_move_self] at hj
      cases hj
    · rw [place_move_of_ne same] at hj
      exact h.blocked j n hj interrupted
  · next hq =>
    obtain rfl := Option.some.inj ht
    exact { sound := h.sound.takeTurn hi hq false .run true
            blocked := fun _ _ _ interrupted => by cases interrupted
            released := fun stopped => absurd stopped open_
            attended := fun _ some_ => absurd rfl some_ }
  · next hq =>
    obtain ⟨k, -, stopped⟩ := signalOne_woken ht
    have sound := h.sound.takeTurn hi hq true .run false
    refine Lively.woken { sound := sound, blocked := fun j n hj _ => ?_,
                          released := fun stopped => absurd stopped open_,
                          attended := fun _ _ _ => ⟨i, ?_⟩ } k stopped
    · obtain rfl := sound.reactor_unique hj place_move_self
      rw [place_move_self] at hj
      cases hj
    · rw [place_move_self]
      exact fun blocks => by cases blocks
  · next hq => exact h.execute hi hq ht

theorem Alert.pollNext (h : Alert s) (hi : s.place i = .ready .poll)
    (ht : s.pollNext i w = some t) : Lively t := by
  unfold Scheduler.pollNext at ht
  have left := h.leave (h.sound.leave hi)
  split at ht
  · next hq =>
    obtain rfl := Option.some.inj ht
    exact { toAlert := left, attended := fun _ some_ => absurd hq some_ }
  · next hq =>
    obtain ⟨k, -, stopped⟩ := signalOne_woken ht
    refine { toAlert := left.woken k stopped, attended := fun _ _ inside => ?_ }
    obtain ⟨j, hj⟩ := inside
    refine signalOne_awake ht (j := j) (fun outside => hj ?_) fun n hn => ?_
    · rcases k.place j with same | ⟨before, -⟩
      · rw [same, outside]
      · rw [outside] at before
        cases before
    · -- the turn is in the queue
      have gone := (left.sound.reactor hn).1
      rw [show (s.move i .outside).opQueue = s.opQueue from rfl, hq, turns_task] at gone
      omega
  · next hq => exact h.execute hi hq ht

theorem Alert.loop (h : Alert s) (hi : s.place i = .ready m) (ht : s.loop i w m = some t) :
    Lively t := by
  cases m with
  | run => exact h.doRunOne hi ht
  | poll =>
    replace ht : s.doPollOne i w = some t := ht
    unfold Scheduler.doPollOne at ht
    split at ht
    · next stopped =>
      obtain rfl := Option.some.inj ht
      refine { toAlert := h.leave (h.sound.leave hi), attended := fun open_ => ?_ }
      rw [show (s.move i .outside).stopped = s.stopped from rfl, stopped] at open_
      cases open_
    next open_ =>
    split at ht
    · next hq =>
      obtain rfl := Option.some.inj ht
      have sound := h.sound.takeTurn hi hq s.taskInterrupted .poll false
      refine { sound := sound, blocked := fun j n hj _ => ?_,
               released := fun stopped => absurd stopped open_,
               attended := fun _ _ _ => ⟨i, ?_⟩ }
      · obtain rfl := sound.reactor_unique hj place_move_self
        rw [place_move_self] at hj
        cases hj
      · rw [place_move_self]
        exact fun blocks => by cases blocks
    · exact h.pollNext hi ht

theorem Alert.taskReturn {block drained : Bool} {ds : List δ} (h : Alert s)
    (hi : s.place i = .task m block) (hd : ds.Nodup) (ht : s.taskReturn i m ds drained w = some t) :
    Lively t := by
  have sound : Sound (s.turnOver i m ds drained) := h.sound.turnOver hi hd
  have back : Alert (s.turnOver i m ds drained) := by
    refine { sound := sound, blocked := fun j n hj _ => ?_, released := fun stopped j hj => ?_ }
    · -- no other thread is in the reactor
      have gone := (sound.reactor hj).1
      rw [show (s.turnOver i m ds drained).opQueue =
        s.opQueue ++ (ds.map Item.descriptor ++ [Item.task]) from rfl, turns_turn] at gone
      omega
    · by_cases same : j = i
      · rw [same, Scheduler.turnOver, place_move_self]
        trivial
      · rw [Scheduler.turnOver, place_move_of_ne same] at hj ⊢
        have awake := h.released stopped j hj
        cases hp : s.place j with
        | task n c => exact absurd (h.sound.reactor_unique hp hi) same
        | outside => exact absurd hp hj
        | waiting woken =>
          rw [hp] at awake
          exact awake
        | _ => trivial
  cases m with
  | run => exact back.doRunOne place_move_self ht
  | poll => exact back.pollNext place_move_self ht

omit [DecidableEq ι] in
theorem Alert.stopAll (h : Alert s) : Lively s.stopAll := by
  have k := stopAll_woken s
  have stopped : s.stopAll.stopped = true := interruptTask_stopped
  have signalled : s.stopAll.signalled = true := interruptTask_signalled
  refine { sound := h.sound.woken k, blocked := fun j m hj interrupted => ?_,
           released := fun _ j hj => ?_, attended := fun open_ => ?_ }
  · rcases k.taskInterrupted interrupted with before | now
    · rcases k.place j with same | ⟨-, after⟩
      · exact k.interrupt (h.blocked j m (same ▸ hj) before)
      · rw [after] at hj
        cases hj
    · exact now
  · have place_eq : s.stopAll.place j =
        if (s.place j).waits then .waiting true else s.place j := by
      rw [Scheduler.stopAll, interruptTask_place]
      simp only [place]
      split <;> rfl
    rw [place_eq] at hj ⊢
    split
    · exact ⟨rfl, signalled⟩
    · next still =>
      rw [if_neg still] at hj
      cases hp : s.place j with
      | outside => exact absurd hp hj
      | waiting woken =>
        rw [hp] at still
        exact absurd rfl still
      | task m block =>
        intro blocks
        subst blocks
        exact h.interrupts hp rfl rfl rfl
      | _ => trivial
  · rw [stopped] at open_
    cases open_

theorem Alert.cleanup {queue : List ω} (h : Alert s) (hi : s.place i = .cleanup m queue)
    (ht : s.cleanup i m queue w = some t) : Lively t := by
  unfold Scheduler.cleanup at ht
  split at ht
  · next none =>
    obtain rfl := Option.some.inj ht
    exact h.go (h.sound.back (none ▸ hi)) ⟨rfl, rfl, rfl, rfl⟩ place_move trivial
  · have back : Lively (s.flush i m queue) :=
      h.go (h.sound.flush hi) ⟨rfl, rfl, rfl, rfl⟩ place_move trivial
    exact back.toAlert.loop place_move_self ht

theorem Lively.post {o : ω} {isContinuation : Bool} (h : Lively s)
    (ht : s.post i o isContinuation w = some t) : Lively t := by
  unfold Scheduler.post at ht
  split at ht
  · next hi =>
    obtain rfl := Option.some.inj ht
    exact h.toAlert.go (h.sound.keep hi) ⟨rfl, rfl, rfl, rfl⟩ place_move trivial
  · exact (h.toAlert.still h.sound.enqueue ⟨rfl, rfl, rfl, rfl⟩ rfl).wakeOne ht

theorem Lively.enter (h : Lively s) (ht : s.enter i m = some t) : Lively t := by
  have sound := h.sound.enter ht
  unfold Scheduler.enter at ht
  split at ht
  · obtain rfl := Option.some.inj ht
    by_cases idle : s.outstandingWork = 0
    · rw [if_pos idle] at sound ⊢
      exact h.still sound ⟨rfl, rfl, rfl, rfl⟩ place_owes rfl
    · rw [if_neg idle] at sound ⊢
      exact h.toAlert.go sound ⟨rfl, rfl, rfl, rfl⟩ place_move trivial
  · cases ht

theorem Lively.initTask (h : Lively s) (ht : s.initTask w = some t) : Lively t := by
  unfold Scheduler.initTask at ht
  split at ht
  · cases ht
  · next first =>
    have sound := h.sound.newTask (by simpa using first)
    refine Alert.wakeOne (s := s.newTask) ?_ ht
    exact { sound := sound
            blocked := fun _ _ _ _ => rfl
            released := fun stopped j hj => by
              have awake := h.released stopped j hj
              cases hp : s.place j with
              | outside => exact absurd hp hj
              | waiting woken =>
                rw [hp] at awake
                rw [show s.newTask.place j = s.place j from rfl, hp]
                exact awake
              | task n block =>
                rw [show s.newTask.place j = s.place j from rfl, hp]
                exact fun _ => rfl
              | _ =>
                rw [show s.newTask.place j = s.place j from rfl, hp]
                trivial }

variable [DecidableEq ω]

theorem Alert.perform {d : δ} {os : List ω} (h : Alert s) (hi : s.place i = .descriptor m d)
    (registered : (os : Multiset ω) ≤ s.pending) (ht : s.perform i m os w = some t) :
    Lively t := by
  have sound := h.sound.perform hi registered ht
  unfold Scheduler.perform at ht
  split at ht
  · obtain rfl := Option.some.inj ht
    exact h.go sound ⟨rfl, rfl, rfl, rfl⟩ place_move trivial
  · obtain rfl := Option.some.inj ht
    exact h.go sound ⟨rfl, rfl, rfl, rfl⟩ place_move trivial
  · have called := h.go (h.sound.complete hi registered) ⟨rfl, rfl, rfl, rfl⟩ place_move trivial
    exact called.toAlert.wakeOne ht

theorem Lively.call {a : Act ι ω δ} (h : Lively s) (ht : s.call a = some t) : Lively t := by
  have sound := h.sound.call ht
  cases a with
  | post i o c w => exact h.post ht
  | start i o =>
    obtain rfl := Option.some.inj ht
    exact h.still sound ⟨rfl, rfl, rfl, rfl⟩ rfl rfl
  | cancel i os w =>
    replace ht : s.cancel os w = some t := ht
    unfold Scheduler.cancel at ht
    split at ht
    · next registered =>
      have back := h.toAlert.still (h.sound.withdraw registered.1) ⟨rfl, rfl, rfl, rfl⟩ rfl
      exact back.wakeOne ht
    · cases ht
  | work i =>
    obtain rfl := Option.some.inj ht
    exact h.still sound ⟨rfl, rfl, rfl, rfl⟩ rfl rfl
  | unwork i =>
    replace ht : (if 0 < s.works then some (s.unwork i) else none) = some t := ht
    split at ht
    · obtain rfl := Option.some.inj ht
      exact h.still sound ⟨rfl, rfl, rfl, rfl⟩ place_owes rfl
    · cases ht
  | stop i =>
    obtain rfl := Option.some.inj ht
    exact h.toAlert.stopAll
  | initTask i w => exact h.initTask ht
  | _ => cases ht

omit [DecidableEq ω] in
theorem Lively.sleep (h : Lively s) (hi : s.place i = .waiting true) (unset : s.signalled = false)
    (sound : Sound (s.move i (.waiting false))) : Lively (s.move i (.waiting false)) := by
  have asleep : ¬ s.Awake (s.place i) := fun awake => by
    rw [hi] at awake
    rw [awake.2] at unset
    cases unset
  have inside : s.place i ≠ .outside := fun outside => by
    rw [hi] at outside
    cases outside
  refine { sound := sound, blocked := fun j m hj interrupted => ?_,
           released := fun stopped => absurd (h.released stopped i inside) asleep,
           attended := fun open_ some_ _ => ?_ }
  · by_cases same : j = i
    · rw [same, place_move_self] at hj
      cases hj
    · rw [place_move_of_ne same] at hj
      exact h.blocked j m hj interrupted
  · obtain ⟨j, hj⟩ := h.attended open_ some_ ⟨i, inside⟩
    have other : j ≠ i := fun same => asleep (same ▸ hj)
    exact ⟨j, by rw [place_move_of_ne other]; exact hj.congr rfl rfl⟩

variable [DecidableEq δ]

theorem Lively.serve {a : Act ι ω δ} (h : Lively s) (ht : s.serve a = some t) : Lively t := by
  have sound := h.sound.serve ht
  unfold Scheduler.serve at ht
  split at ht
  · split at ht
    · next hi => exact h.toAlert.loop hi ht
    · cases ht
  · split at ht
    · next hi =>
      split at ht
      · have back := h.sound.move (p := .ready .run) (by rw [hi]; rfl) (by rw [hi]; rfl)
          (by rw [hi]; rfl) trivial
        have ready := h.toAlert.go back ⟨rfl, rfl, rfl, rfl⟩ place_move trivial
        exact ready.toAlert.doRunOne place_move_self ht
      · next unset =>
        obtain rfl := Option.some.inj ht
        exact h.sleep hi (by simpa using unset) sound
    · cases ht
  · split at ht
    · next hi =>
      obtain rfl := Option.some.inj ht
      exact h.woken (.wake hi) rfl
    · cases ht
  · split at ht
    · next hi =>
      split at ht
      · next hd => exact h.toAlert.taskReturn hi hd ht
      · cases ht
    · cases ht
  · split at ht
    · next hi =>
      split at ht
      · next registered => exact h.toAlert.perform hi registered ht
      · cases ht
    · cases ht
  · split at ht
    · next hi =>
      obtain rfl := Option.some.inj ht
      exact h.toAlert.go sound ⟨rfl, rfl, rfl, rfl⟩ (place_owes.trans place_move) trivial
    · cases ht
  · split at ht
    · next hi => exact h.toAlert.cleanup hi ht
    · cases ht
  · cases ht

theorem Lively.step {a : Act ι ω δ} (h : Lively s) (ht : Scheduler.step a s = some t) :
    Lively t := by
  rcases step_cases ht with ⟨i, -, -, rfl⟩ | ⟨-, ⟨i, m, -, he⟩ | hs | ⟨-, hc⟩⟩
  · have free := h.toAlert.still (h.sound.owes (i := i) false) ⟨rfl, rfl, rfl, rfl⟩ place_owes
    exact free.stopAll
  · exact h.enter he
  · exact h.serve hs
  · exact h.call hc

end loop

omit [DecidableEq ι] in
theorem fresh_lively : Lively (fresh : Scheduler ι ω δ) where
  sound := fresh_sound
  blocked i m hi := by cases hi
  released stopped := by cases stopped
  attended _ some_ := absurd rfl some_

variable [DecidableEq ω] [DecidableEq δ] {n : Nat}

theorem run_lively {allowed : Scheduler ι ω δ → Act ι ω δ → Prop}
    (run : Machine.Run step allowed fresh n s) : Lively s :=
  run.invariant fresh_lively fun _ _ _ lively _ h => lively.step h

end lively

end CqIrc.Asio.Scheduler
