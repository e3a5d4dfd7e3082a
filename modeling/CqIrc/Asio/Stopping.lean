import CqIrc.Asio.Wakeups

/-! The end of `run`. While there is an `io_service::work` and nobody calls `stop`, no thread
comes out of `run`; behind `stop` every thread does, after at most the handler that it is
in or, in `poll`, the next. -/

namespace CqIrc.Asio

namespace Place
variable {ω δ : Type*}

def mode? : Place ω δ → Option Mode
  | outside => none
  | waiting _ => some .run
  | ready m | task m _ | descriptor m _ | handler m _ _ _ | cleanup m _ => some m

/-- How far the thread is from the end of a call, once the service is stopped. -/
def effort : Place ω δ → Nat
  | outside => 0
  | ready _ => 1
  | waiting _ | cleanup _ _ => 2
  | handler _ _ _ _ => 4
  | descriptor _ _ => 5
  | task _ _ => 6

end Place

def Thread.owed {ω δ : Type*} (x : Thread ω δ) : Nat := x.stopping.toNat

namespace Scheduler
variable {ι ω δ : Type*}

def Act.serves : Act ι ω δ → Bool
  | loop _ _ | wakeUp _ _ | taskReturn _ _ _ _ | perform _ _ _ | finish _ | cleanup _ _
  | workFinished _ => true
  | enter _ _ | spurious _ | post _ _ _ _ | start _ _ | cancel _ _ _ | work _ | unwork _ | stop _
  | initTask _ _ => false

structure Went (s t : Scheduler ι ω δ) (i : ι) (p : Place ω δ) : Prop where
  here : t.place i = p
  others : ∀ j, j ≠ i → t.place j = s.place j ∨ s.place j = .waiting false ∧ t.place j = .waiting true
  stopping : ∀ j, (t.threads j).stopping = (s.threads j).stopping
  stopped : t.stopped = s.stopped
  works : t.works = s.works

section went
variable {s t u : Scheduler ι ω δ} {i j : ι} {p : Place ω δ}

theorem Went.mode (h : Went s t i p) (hj : j ≠ i) : (t.place j).mode? = (s.place j).mode? := by
  rcases h.others j hj with same | ⟨before, after⟩
  · rw [same]
  · rw [before, after]
    rfl

theorem Went.weigh [Fintype ι] [DecidableEq ι] {M : Type*} [AddCommMonoid M] {f : Place ω δ → M}
    (blind : f (.waiting true) = f (.waiting false)) (h : Went s t i p) :
    t.weigh f + f (s.place i) = s.weigh f + f p := by
  have sums : t.weigh f = Machine.total f (Function.update s.place i p) := by
    refine Finset.sum_congr rfl fun j _ => ?_
    by_cases same : j = i
    · rw [same, Function.update_self, h.here]
    · rw [Function.update_of_ne same]
      rcases h.others j same with kept | ⟨before, after⟩
      · rw [kept]
      · rw [before, after, blind]
  rw [sums]
  exact Machine.total_update f s.place i p

variable [DecidableEq ι]

theorem went_move (threads : u.threads = s.threads) (stopped : u.stopped = s.stopped)
    (works : u.works = s.works) : Went s (u.move i p) i p where
  here := place_move_self
  others j hj := .inl ((place_move_of_ne hj).trans (congrArg (Thread.place <| · j) threads))
  stopping j := stopping_move.trans (congrArg (Thread.stopping <| · j) threads)
  stopped := stopped
  works := works

omit [DecidableEq ι] in
theorem Went.woken (h : Went s t i p) (hp : p.waits = false) (k : Woken t u)
    (stopped : u.stopped = t.stopped) : Went s u i p where
  here := by
    rcases k.place i with same | ⟨before, -⟩
    · rw [same, h.here]
    · rw [h.here] at before
      rw [before] at hp
      cases hp
  others j hj := by
    rcases k.place j with same | ⟨before, after⟩
    · rw [same]
      exact h.others j hj
    · rcases h.others j hj with kept | ⟨-, up⟩
      · exact .inr ⟨kept ▸ before, after⟩
      · rw [up] at before
        cases before
  stopping j := (k.stopping j).trans (h.stopping j)
  stopped := stopped.trans h.stopped
  works := k.works.trans h.works

theorem went_woken (k : Woken (u.move i p) t) (kept : t.stopped = u.stopped)
    (hp : p.waits = false) (threads : u.threads = s.threads) (stopped : u.stopped = s.stopped)
    (works : u.works = s.works) : Went s t i p :=
  (went_move threads stopped works).woken hp k kept

variable [Fintype ι] {m : Mode} {w : Option ι} {x : Item ω δ} {q : List (Item ω δ)}

theorem execute_went (ht : { s with opQueue := q }.execute i m w x = some t) :
    ∃ p, Went s t i p ∧ p.mode? = some m ∧ p.effort ≤ 5 := by
  cases x with
  | task => cases ht
  | descriptor d =>
    obtain ⟨k, stopped⟩ := wakeMore_woken ht
    exact ⟨.descriptor m d, went_woken k stopped rfl rfl rfl rfl, rfl, le_rfl⟩
  | op o =>
    obtain ⟨k, stopped⟩ := wakeMore_woken ht
    exact ⟨.handler m (some o) 0 [], went_woken k stopped rfl rfl rfl rfl, rfl, Nat.le_succ 4⟩

theorem doRunOne_went (ht : s.doRunOne i w = some t) :
    ∃ p, Went s t i p ∧ if s.stopped then p = .outside else p.mode? = some .run := by
  unfold Scheduler.doRunOne at ht
  split at ht
  · next stopped =>
    obtain rfl := Option.some.inj ht
    exact ⟨_, went_move rfl rfl rfl, by rw [if_pos stopped]⟩
  next open_ =>
  simp only [if_neg open_]
  split at ht
  · obtain rfl := Option.some.inj ht
    exact ⟨_, went_move rfl rfl rfl, rfl⟩
  · obtain rfl := Option.some.inj ht
    exact ⟨_, went_move rfl rfl rfl, rfl⟩
  · obtain ⟨k, -, stopped⟩ := signalOne_woken ht
    exact ⟨_, went_woken k stopped rfl rfl rfl rfl, rfl⟩
  · obtain ⟨p, went, mode, -⟩ := execute_went ht
    exact ⟨p, went, mode⟩

theorem pollNext_went (ht : s.pollNext i w = some t) :
    ∃ p, Went s t i p ∧ p.mode? ≠ some .run ∧ p.effort ≤ 5 := by
  unfold Scheduler.pollNext at ht
  split at ht
  · obtain rfl := Option.some.inj ht
    exact ⟨_, went_move rfl rfl rfl, by simp [Place.mode?], Nat.zero_le 5⟩
  · obtain ⟨k, -, stopped⟩ := signalOne_woken ht
    exact ⟨_, went_woken k stopped rfl rfl rfl rfl, by simp [Place.mode?], Nat.zero_le 5⟩
  · obtain ⟨p, went, mode, short⟩ := execute_went ht
    exact ⟨p, went, by simp [mode], short⟩

omit [DecidableEq ι] [Fintype ι] in
theorem Went.trans {p' : Place ω δ} (h : Went s t i p) (k : Went t u i p') : Went s u i p' where
  here := k.here
  others j hj := by
    rcases k.others j hj with same | ⟨before, after⟩
    · rw [same]
      exact h.others j hj
    · rcases h.others j hj with kept | ⟨-, up⟩
      · exact .inr ⟨kept ▸ before, after⟩
      · rw [up] at before
        cases before
  stopping j := (k.stopping j).trans (h.stopping j)
  stopped := k.stopped.trans h.stopped
  works := k.works.trans h.works

/-- What a turn of the loop does to a thread that was in the call before. -/
structure Turn (s t : Scheduler ι ω δ) (i : ι) (m : Mode) (p : Place ω δ) : Prop where
  went : Went s t i p
  stays : s.stopped = false → m = .run → p.mode? = some .run
  leaves : s.stopped = true → p = .outside

theorem loop_turn (ht : s.loop i w m = some t) : ∃ p, Turn s t i m p := by
  cases m with
  | run =>
    obtain ⟨p, went, goes⟩ := doRunOne_went (i := i) (w := w) ht
    exact ⟨p, went, fun open_ _ => by simpa [open_] using goes,
      fun stopped => by simpa [stopped] using goes⟩
  | poll =>
    replace ht : s.doPollOne i w = some t := ht
    unfold Scheduler.doPollOne at ht
    split at ht
    · next stopped =>
      obtain rfl := Option.some.inj ht
      exact ⟨_, went_move rfl rfl rfl, fun _ run => (by cases run), fun _ => rfl⟩
    next open_ =>
    split at ht
    · obtain rfl := Option.some.inj ht
      exact ⟨_, went_move rfl rfl rfl, fun _ run => (by cases run), fun stopped => absurd stopped open_⟩
    · obtain ⟨p, went, -⟩ := pollNext_went ht
      exact ⟨p, went, fun _ run => (by cases run), fun stopped => absurd stopped open_⟩

omit [DecidableEq ι] [Fintype ι] in
theorem Turn.from {o : Place ω δ} (turn : Turn u t i m p) (back : Went s u i (.ready m))
    (hi : s.place i = o) (mode : o.mode? = some m) (busy : 0 < o.effort) :
    Went s t i p ∧
      (s.stopped = false → (s.place i).mode? = some .run → p.mode? = some .run) ∧
      (s.stopped = true → p.effort < (s.place i).effort) := by
  rw [hi]
  refine ⟨back.trans turn.went, fun open_ run => ?_, fun stopped => ?_⟩
  · rw [mode] at run
    exact turn.stays (back.stopped.trans open_) (Option.some.inj run)
  · rw [turn.leaves (back.stopped.trans stopped)]
    exact busy

variable [DecidableEq ω]

theorem perform_went {os : List ω} (ht : s.perform i m os w = some t) :
    ∃ p, Went s t i p ∧ p.mode? = some m ∧ p.effort = 4 := by
  unfold Scheduler.perform at ht
  split at ht
  · obtain rfl := Option.some.inj ht
    exact ⟨_, went_move rfl rfl rfl, rfl, rfl⟩
  · obtain rfl := Option.some.inj ht
    exact ⟨_, went_move rfl rfl rfl, rfl, rfl⟩
  · next o os _ =>
    obtain ⟨k, -, stopped⟩ := wakeOne_woken ht
    have called : Went s ((s.complete i m o os).push os) i (.handler m (some o) 0 []) :=
      { went_move (u := { s with
          pending := s.pending - (o ::ₘ (os : Multiset ω)), invoked := o ::ₘ s.invoked })
          (p := .handler m (some o) 0 []) rfl rfl rfl with }
    exact ⟨_, called.woken rfl k stopped, rfl, rfl⟩

variable [DecidableEq δ]

/-- A step of the service: in `run` the thread stays there unless the service is stopped,
and then it comes nearer to the end of the call. -/
theorem serve_went {a : Act ι ω δ} (lively : Lively s) (serves : a.serves = true)
    (other : ∀ i, a ≠ .finish i) (ht : s.serve a = some t) :
    ∃ p, Went s t a.thread p ∧
      (s.stopped = false → (s.place a.thread).mode? = some .run → p.mode? = some .run) ∧
      (s.stopped = true → p.effort < (s.place a.thread).effort) := by
  cases a with
  | loop i w =>
    simp only [Scheduler.serve] at ht
    split at ht
    · next m hi =>
      obtain ⟨p, turn⟩ := loop_turn ht
      have here : Went s s i (.ready m) := ⟨hi, fun _ _ => .inl rfl, fun _ => rfl, rfl, rfl⟩
      exact ⟨p, turn.from here hi rfl Nat.one_pos⟩
    · cases ht
  | wakeUp i w =>
    simp only [Scheduler.serve] at ht
    split at ht
    · next hi =>
      split at ht
      · obtain ⟨p, turn⟩ := loop_turn (m := .run) ht
        exact ⟨p, turn.from (went_move rfl rfl rfl) hi rfl Nat.two_pos⟩
      · next unset =>
        obtain rfl := Option.some.inj ht
        refine ⟨_, went_move rfl rfl rfl, fun _ _ => rfl, fun stopped => ?_⟩
        have awake := lively.released stopped i (by rw [hi]; exact fun h => by cases h)
        rw [hi] at awake
        exact absurd awake.2 unset
    · cases ht
  | taskReturn i ds drained w =>
    simp only [Scheduler.serve] at ht
    split at ht
    · next m block hi =>
      split at ht
      · have back : Went s (s.turnOver i m ds drained) i (.ready m) := went_move rfl rfl rfl
        cases m with
        | run =>
          obtain ⟨p, turn⟩ := loop_turn (m := .run) ht
          exact ⟨p, turn.from back hi rfl (Nat.succ_pos 5)⟩
        | poll =>
          obtain ⟨p, went, -, short⟩ := pollNext_went ht
          have polls : ∀ k, (s.place k).mode? = some .run → k ≠ i := by
            rintro k run rfl
            rw [hi] at run
            cases run
          refine ⟨p, back.trans went, fun _ run => absurd rfl (polls i run), fun _ => ?_⟩
          show p.effort < (s.place i).effort
          rw [hi]
          exact Nat.lt_succ_of_le short
      · cases ht
    · cases ht
  | perform i os w =>
    simp only [Scheduler.serve] at ht
    split at ht
    · next m d hi =>
      split at ht
      · obtain ⟨p, went, mode, effort⟩ := perform_went ht
        show ∃ p, Went s t i p ∧ (_ → (s.place i).mode? = _ → _) ∧ (_ → _ < (s.place i).effort)
        rw [hi]
        exact ⟨p, went, fun _ run => mode.trans run, fun _ => effort ▸ Nat.lt_succ_self 4⟩
      · cases ht
    · cases ht
  | cleanup i w =>
    simp only [Scheduler.serve] at ht
    split at ht
    · next m queue hi =>
      unfold Scheduler.cleanup at ht
      split at ht
      · obtain rfl := Option.some.inj ht
        show ∃ p, Went s _ i p ∧ (_ → (s.place i).mode? = _ → _) ∧ (_ → _ < (s.place i).effort)
        rw [hi]
        exact ⟨_, went_move rfl rfl rfl, fun _ run => run, fun _ => Nat.lt_succ_self 1⟩
      · obtain ⟨p, turn⟩ := loop_turn ht
        exact ⟨p, turn.from (went_move rfl rfl rfl) hi rfl Nat.two_pos⟩
    · cases ht
  | finish i => exact absurd rfl (other i)
  | workFinished i => cases ht
  | _ => cases serves

end went

section employed
variable [Fintype ι]

structure Employed (s : Scheduler ι ω δ) : Prop extends Lively s where
  goesOn : s.stopped = false
  owesNone : ∀ i, (s.threads i).stopping = false
  works : 0 < s.works

/-- Nobody calls `stop`, or destroys the last `io_service::work`. -/
def KeepsWork (s : Scheduler ι ω δ) (a : Act ι ω δ) : Prop :=
  (∀ i, a ≠ .stop i) ∧ ∀ i, a = .unwork i → 1 < s.works

instance [DecidableEq ι] [DecidableEq ω] [DecidableEq δ] (s : Scheduler ι ω δ) (a : Act ι ω δ) :
    Decidable (KeepsWork s a) := inferInstanceAs (Decidable (_ ∧ _))

def Stays (s t : Scheduler ι ω δ) : Prop :=
  ∀ i, (s.place i).mode? = some .run → (t.place i).mode? = some .run

variable {s t u : Scheduler ι ω δ} {i : ι}

theorem Sound.works_le (h : Sound s) (i : ι) :
    (s.works + (s.place i).work : Nat) ≤ s.outstandingWork := by
  have mine := Machine.le_total Place.work s.place i
  replace mine : (s.place i).work ≤ s.weigh Place.work := mine
  rw [h.work]
  omega

omit [Fintype ι] in
theorem Stays.woken (threads : u.threads = s.threads) (k : Woken u t) : Stays s t := by
  intro i run
  have before : (u.place i).mode? = some .run := by
    rw [place, threads]
    exact run
  rcases k.place i with same | ⟨-, after⟩
  · exact same ▸ before
  · rw [after]
    rfl

theorem Employed.still (h : Employed s) (lively : Lively t) (k : Woken u t)
    (kept : t.stopped = u.stopped) (threads : u.threads = s.threads)
    (stopped : u.stopped = s.stopped) (works : s.works ≤ u.works) : Employed t ∧ Stays s t :=
  ⟨{ toLively := lively
     goesOn := (kept.trans stopped).trans h.goesOn
     owesNone := fun i => by
       rw [k.stopping i, threads]
       exact h.owesNone i
     works := k.works ▸ lt_of_lt_of_le h.works works }, .woken threads k⟩

variable [DecidableEq ι]

theorem Went.employed {p : Place ω δ} (h : Employed s) (lively : Lively t) (went : Went s t i p)
    (stays : (s.place i).mode? = some .run → p.mode? = some .run) : Employed t ∧ Stays s t := by
  refine ⟨{ toLively := lively, goesOn := went.stopped.trans h.goesOn,
            owesNone := fun j => (went.stopping j).trans (h.owesNone j),
            works := went.works ▸ h.works }, fun j run => ?_⟩
  by_cases same : j = i
  · subst same
    rw [went.here]
    exact stays run
  · rw [went.mode same]
    exact run

theorem Employed.owes (lively : Lively (u.owes i false)) (goesOn : u.stopped = false)
    (owesNone : ∀ j, (u.threads j).stopping = false) (works : 0 < u.works) (stays : Stays s u) :
    Employed (u.owes i false) ∧ Stays s (u.owes i false) := by
  refine ⟨{ toLively := lively, goesOn := goesOn, owesNone := fun j => ?_, works := works },
    fun j run => ?_⟩
  · by_cases same : j = i
    · subst same
      simp [Scheduler.owes]
    · simp [Scheduler.owes, Function.update_of_ne same, owesNone j]
  · rw [place_owes]
    exact stays j run

variable [DecidableEq ω]

theorem Employed.call {a : Act ι ω δ} (h : Employed s) (keeps : KeepsWork s a)
    (ht : s.call a = some t) : Employed t ∧ Stays s t := by
  have lively := h.toLively.call ht
  cases a with
  | post i o c w =>
    replace ht : s.post i o c w = some t := ht
    unfold Scheduler.post at ht
    split at ht
    · next m p n queue hi =>
      obtain rfl := Option.some.inj ht
      exact Went.employed (i := i) h lively (went_move rfl rfl rfl) (by rw [hi]; exact id)
    · obtain ⟨k, -, stopped⟩ := wakeOne_woken ht
      exact h.still lively k stopped rfl rfl le_rfl
  | start i o =>
    obtain rfl := Option.some.inj ht
    exact h.still lively (.refl _) rfl rfl rfl le_rfl
  | cancel i os w =>
    replace ht : s.cancel os w = some t := ht
    unfold Scheduler.cancel at ht
    split at ht
    · obtain ⟨k, -, stopped⟩ := wakeOne_woken ht
      exact h.still lively k stopped rfl rfl le_rfl
    · cases ht
  | work i =>
    obtain rfl := Option.some.inj ht
    exact h.still lively (.refl _) rfl rfl rfl (Nat.le_succ s.works)
  | unwork i =>
    replace ht : (if 0 < s.works then some (s.unwork i) else none) = some t := ht
    have more := keeps.2 i rfl
    have least := h.sound.works_le i
    have owed : s.unwork i =
        { s with works := s.works - 1, outstandingWork := s.outstandingWork - 1 }.owes i false := by
      rw [Scheduler.unwork, decide_eq_false (by omega)]
    rw [if_pos h.works, owed] at ht
    obtain rfl := Option.some.inj ht
    exact Employed.owes lively h.goesOn h.owesNone (Nat.sub_pos_of_lt more) fun _ run => run
  | stop i => exact absurd rfl (keeps.1 i)
  | initTask i w =>
    replace ht : s.initTask w = some t := ht
    unfold Scheduler.initTask at ht
    split at ht
    · cases ht
    · obtain ⟨k, -, stopped⟩ := wakeOne_woken ht
      exact h.still lively k stopped rfl rfl le_rfl
  | _ => cases ht

variable [DecidableEq δ]

theorem Employed.serve {a : Act ι ω δ} (h : Employed s) (ht : s.serve a = some t) :
    Employed t ∧ Stays s t := by
  have lively := h.toLively.serve ht
  cases a with
  | loop i w | wakeUp i w | taskReturn i ds drained w | perform i os w | cleanup i w =>
    obtain ⟨p, went, stays, -⟩ := serve_went h.toLively rfl (fun _ same => by cases same) ht
    exact went.employed h lively (stays h.goesOn)
  | finish i =>
    simp only [Scheduler.serve] at ht
    split at ht
    · next m o n queue hi =>
      have least := h.sound.works_le i
      have some_ := h.works
      rw [hi] at least
      have owed : s.finish i m n queue = ({ s with
          outstandingWork := s.outstandingWork + (n - 1) }.move i (.cleanup m queue)).owes i false := by
        have more : ¬ (n < 1 ∧ s.outstandingWork = 1) := fun last => by
          simp only [Place.work] at least
          omega
        rw [Scheduler.finish, decide_eq_false more]
      rw [owed] at ht
      obtain rfl := Option.some.inj ht
      refine Employed.owes lively h.goesOn (fun j => stopping_move.trans (h.owesNone j)) h.works
        fun j run => ?_
      by_cases same : j = i
      · subst same
        rw [hi] at run
        rw [place_move_self]
        exact run
      · rw [place_move_of_ne same]
        exact run
    · cases ht
  | spurious i =>
    simp only [Scheduler.serve] at ht
    split at ht
    · next hi =>
      obtain rfl := Option.some.inj ht
      exact Went.employed (i := i) h lively (went_move rfl rfl rfl) fun _ => rfl
    · cases ht
  | _ => cases ht

theorem Employed.step {a : Act ι ω δ} (h : Employed s) (keeps : KeepsWork s a)
    (ht : Scheduler.step a s = some t) : Employed t ∧ Stays s t := by
  have lively := h.toLively.step ht
  rcases step_cases ht with ⟨i, -, owes, -⟩ | ⟨-, ⟨i, m, -, he⟩ | hs | ⟨-, hc⟩⟩
  · rw [h.owesNone i] at owes
    cases owes
  · unfold Scheduler.enter at he
    split at he
    · next hi =>
      have some_ := h.works
      have least := h.sound.works_le i
      rw [if_neg (by omega)] at he
      obtain rfl := Option.some.inj he
      exact Went.employed (i := i) h lively (went_move rfl rfl rfl)
        fun run => by rw [hi] at run; cases run
    · cases he
  · exact h.serve hs
  · exact h.call keeps hc

end employed

section stopping
variable [Fintype ι] {s t : Scheduler ι ω δ} {i : ι}

def effort (s : Scheduler ι ω δ) : Nat :=
  s.weigh Place.effort + Machine.total Thread.owed s.threads

theorem effort_woken (k : Woken s t) : t.effort = s.effort := by
  have owed : Machine.total Thread.owed t.threads = Machine.total Thread.owed s.threads :=
    Finset.sum_congr rfl fun j _ => congrArg Bool.toNat (k.stopping j)
  rw [effort, effort, owed, weigh_woken rfl k]

variable [DecidableEq ι]

theorem effort_went {p : Place ω δ} (went : Went s t i p) :
    t.effort + (s.place i).effort = s.effort + p.effort := by
  have owed : Machine.total Thread.owed t.threads = Machine.total Thread.owed s.threads :=
    Finset.sum_congr rfl fun j _ => congrArg Bool.toNat (went.stopping j)
  have places := went.weigh (f := Place.effort) rfl
  rw [effort, effort, owed]
  omega

theorem effort_owes {b : Bool} :
    (s.owes i b).effort + (s.threads i).stopping.toNat = s.effort + b.toNat := by
  have owed := Machine.total_update Thread.owed s.threads i ⟨s.place i, b⟩
  have places : (s.owes i b).weigh Place.effort = s.weigh Place.effort := by
    rw [weigh, weigh, place_owes]
  rw [effort, effort, places, Nat.add_assoc, Nat.add_assoc]
  exact congrArg (s.weigh Place.effort + ·) owed

variable [DecidableEq ω]

theorem call_serves {a : Act ι ω δ} (h : s.call a = some t) : a.serves = false := by
  cases a with
  | post _ _ _ _ | start _ _ | cancel _ _ _ | work _ | unwork _ | stop _ | initTask _ _ => rfl
  | _ => cases h

variable [DecidableEq δ]

theorem serves_effort {a : Act ι ω δ} (lively : Lively s) (stopped : s.stopped = true)
    (serves : a.serves = true) (ht : step a s = some t) :
    t.stopped = true ∧ t.effort < s.effort := by
  rcases step_cases ht with ⟨i, rfl, owes, rfl⟩ | ⟨free, ⟨i, m, rfl, -⟩ | hs | ⟨-, hc⟩⟩
  · refine ⟨interruptTask_stopped, ?_⟩
    have paid := effort_owes (s := s) (i := i) (b := false)
    rw [owes, Bool.toNat_true, Bool.toNat_false] at paid
    rw [workFinished, effort_woken (stopAll_woken _)]
    omega
  · cases serves
  · by_cases last : ∃ i, a = .finish i
    · obtain ⟨i, rfl⟩ := last
      simp only [Scheduler.serve] at hs
      split at hs
      · next m o n queue hi =>
        obtain rfl := Option.some.inj hs
        refine ⟨stopped, ?_⟩
        have went : Went s ({ s with
            outstandingWork := s.outstandingWork + (n - 1) }.move i (.cleanup m queue)) i
            (.cleanup m queue) := went_move rfl rfl rfl
        have moved := effort_went went
        have owed := effort_owes (s := { s with
          outstandingWork := s.outstandingWork + (n - 1) }.move i (.cleanup m queue)) (i := i)
          (b := decide (n < 1 ∧ s.outstandingWork = 1))
        have one := Bool.toNat_le (decide (n < 1 ∧ s.outstandingWork = 1))
        rw [hi] at moved
        simp only [Place.effort] at moved
        rw [finish]
        omega
      · cases hs
    · obtain ⟨p, went, -, less⟩ := serve_went lively serves (fun i same => last ⟨i, same⟩) hs
      have moved := effort_went went
      have nearer := less stopped
      exact ⟨went.stopped.trans stopped, by omega⟩
  · rw [call_serves hc] at serves
    cases serves

omit [DecidableEq ω] [DecidableEq δ] in
theorem exists_signal (s : Scheduler ι ω δ) : ∃ w t, s.signalOne w = some t := by
  by_cases asleep : ∃ j, (s.place j).asleep = true
  · obtain ⟨j, hj⟩ := asleep
    exact ⟨some j, _, if_pos hj⟩
  · exact ⟨none, _, if_pos fun j => by simpa using fun h => asleep ⟨j, h⟩⟩

omit [DecidableEq ω] [DecidableEq δ] in
theorem exists_wake (s : Scheduler ι ω δ) : ∃ w t, s.wakeMore w = some t := by
  unfold wakeMore wakeOne
  split
  · exact ⟨none, _, rfl⟩
  split
  · exact exists_signal s
  · exact ⟨none, _, rfl⟩

omit [DecidableEq ω] [DecidableEq δ] in
theorem exists_execute {m : Mode} {x : Item ω δ} (hx : x ≠ .task) :
    ∃ w t, s.execute i m w x = some t := by
  cases x with
  | task => exact absurd rfl hx
  | descriptor d => exact exists_wake _
  | op o => exact exists_wake _

omit [DecidableEq ω] [DecidableEq δ] in
theorem exists_run (s : Scheduler ι ω δ) (i : ι) : ∃ w t, s.doRunOne i w = some t := by
  unfold doRunOne
  split
  · exact ⟨none, _, rfl⟩
  rcases s.opQueue with - | ⟨x, q⟩
  · exact ⟨none, _, rfl⟩
  cases x with
  | task =>
    cases q with
    | nil => exact ⟨none, _, rfl⟩
    | cons y q => exact exists_signal _
  | descriptor d => exact exists_execute fun same => by cases same
  | op o => exact exists_execute fun same => by cases same

omit [DecidableEq ω] [DecidableEq δ] in
theorem exists_poll (s : Scheduler ι ω δ) (i : ι) : ∃ w t, s.pollNext i w = some t := by
  unfold pollNext
  rcases s.opQueue with - | ⟨x, q⟩
  · exact ⟨none, _, rfl⟩
  cases x with
  | task => exact exists_signal _
  | descriptor d => exact exists_execute fun same => by cases same
  | op o => exact exists_execute fun same => by cases same

omit [DecidableEq ω] [DecidableEq δ] in
theorem exists_loop (s : Scheduler ι ω δ) (i : ι) (m : Mode) : ∃ w t, s.loop i w m = some t := by
  cases m with
  | run => exact exists_run s i
  | poll =>
    show ∃ w t, s.doPollOne i w = some t
    unfold doPollOne
    split
    · exact ⟨none, _, rfl⟩
    split
    · exact ⟨none, _, rfl⟩
    · exact exists_poll s i

theorem awake_serves (hi : s.Awake (s.place i)) :
    ∃ a t, Act.thread a = i ∧ a.serves = true ∧ step a s = some t := by
  cases owes : (s.threads i).stopping with
  | true =>
    refine ⟨.workFinished i, s.workFinished i, rfl, rfl, ?_⟩
    rw [step, Act.thread, owes, if_pos rfl]
  | false =>
    have serves : ∀ a t, Act.thread a = i → a.serves = true → s.serve a = some t →
        step a s = some t := by
      rintro a t rfl own hs
      have free : ¬ (s.threads a.thread).stopping = true := by simp [owes]
      cases a with
      | loop | wakeUp | taskReturn | perform | finish | cleanup => exact (if_neg free).trans hs
      | workFinished => cases hs
      | _ => cases own
    cases hp : s.place i with
    | outside =>
      rw [hp] at hi
      exact hi.elim
    | ready m =>
      obtain ⟨w, t, ht⟩ := exists_loop s i m
      exact ⟨.loop i w, t, rfl, rfl, serves _ _ rfl rfl (by simp only [serve, hp, ht])⟩
    | waiting woken =>
      rw [hp] at hi
      obtain ⟨rfl, signalled⟩ := hi
      obtain ⟨w, t, ht⟩ := exists_run (s.move i (.ready .run)) i
      exact ⟨.wakeUp i w, t, rfl, rfl,
        serves _ _ rfl rfl (by simp only [serve, hp, signalled, if_true, ht])⟩
    | task m block =>
      have turns : ∃ w t, s.taskReturn i m [] false w = some t := by
        cases m with
        | run => exact exists_run _ i
        | poll => exact exists_poll _ i
      obtain ⟨w, t, ht⟩ := turns
      exact ⟨.taskReturn i [] false w, t, rfl, rfl,
        serves _ _ rfl rfl (by simp only [serve, hp, List.nodup_nil, if_true, ht])⟩
    | descriptor m d =>
      refine ⟨.perform i [] none, s.workStarted.move i (.handler m none 0 []), rfl, rfl,
        serves _ _ rfl rfl ?_⟩
      simp only [serve, hp, Multiset.coe_nil, Multiset.zero_le, if_true]
      rfl
    | handler m o n queue =>
      exact ⟨.finish i, s.finish i m n queue, rfl, rfl,
        serves _ _ rfl rfl (by simp only [serve, hp])⟩
    | cleanup m queue =>
      have flushes : ∃ w t, s.cleanup i m queue w = some t := by
        unfold cleanup
        split
        · exact ⟨none, _, rfl⟩
        · exact exists_loop _ i m
      obtain ⟨w, t, ht⟩ := flushes
      exact ⟨.cleanup i w, t, rfl, rfl, serves _ _ rfl rfl (by simp only [serve, hp, ht])⟩

/-- Behind `stop` all calls of `run` and `poll` come to their ends: the threads have a bounded
number of steps left, and where they have none they are outside. -/
theorem stop_ends {n k : Nat} (run : Machine.Run step Machine.free (fresh : Scheduler ι ω δ) n s)
    (stopped : s.stopped = true) (later : Machine.Run step (fun _ a => a.serves = true) s k t) :
    k + t.effort ≤ s.effort ∧
      ((∀ a, a.serves = true → step a t = none) → ∀ i, t.place i = .outside) := by
  have start : Lively s ∧ s.stopped = true := ⟨run_lively run, stopped⟩
  have keep : ∀ (a : Act ι ω δ) (u v : Scheduler ι ω δ), Lively u ∧ u.stopped = true →
      a.serves = true → step a u = some v → Lively v ∧ v.stopped = true :=
    fun a u v h serves hs => ⟨h.1.step hs, (serves_effort h.1 h.2 serves hs).1⟩
  refine ⟨later.bounded start keep fun a u v h serves hs => (serves_effort h.1 h.2 serves hs).2,
    fun stuck i => ?_⟩
  obtain ⟨lively, ended⟩ := later.invariant start keep
  by_contra inside
  obtain ⟨a, u, -, serves, hs⟩ := awake_serves (lively.released ended i inside)
  rw [stuck a serves] at hs
  cases hs

theorem stop_ends_handler :
    ∃ s t : Scheduler Bool Nat Nat,
      Machine.Run step Machine.free fresh 8 s ∧ s.stopped = true ∧ s.effort = 6 ∧
      Machine.Run step (fun _ a => a.serves = true) s 3 t ∧ 3 + t.effort ≤ 6 ∧
      ((∀ a, a.serves = true → step a t = none) → ∀ i, t.place i = .outside) := by
  obtain ⟨s, run, view⟩ := Machine.exists_run step Machine.free
    (s := (fresh : Scheduler Bool Nat Nat))
    (f := fun s => (s.stopped, s.effort, (Machine.exec step (fun _ a => a.serves = true)
      [.wakeUp true none, .finish false, .cleanup false none] s).isSome))
    (b := (true, 6, true))
    [.work false, .post false 1 false none, .enter false .run, .loop false none,
      .enter true .run, .loop true none, .post false 2 true none, .stop false] (by decide +kernel)
  simp only [Prod.mk.injEq] at view
  obtain ⟨stopped, effort, goes⟩ := view
  obtain ⟨t, ht⟩ := Option.isSome_iff_exists.mp goes
  have later : Machine.Run step (fun _ a => a.serves = true) s 3 t := .of_exec _ ht
  have ends := stop_ends run stopped later
  rw [effort] at ends
  exact ⟨s, t, run, stopped, effort, later, ends⟩

end stopping

end Scheduler
end CqIrc.Asio
