import CqIrc.Threads

/-! The start of a session. `cq_irc_session_connect` copies the table of callbacks behind
`async_resolve`, when the threads of the service may already run the handlers of the
session; the first of these to read the table is `on_connect`. -/

namespace CqIrc

namespace Session

/-- The handler reads `session->callbacks`. -/
def ReadsCallbacks (s : Session) : Task → Prop
  | .onRead .eof _ | .threadParse _ => True
  | .onConnect .success => s.socket ≠ .closed
  | .onRead .operationAborted _ => s.socket = .closed
  | _ => False

variable {s t : Session}

theorem signal_fault (s : Session) (f : Signal) (e : Event) :
    (s.signal f e).fault = some .uninitialisedCallbacks ↔ s.callbacks = none := by
  cases hc : s.callbacks with
  | none => simp [signal, hc]
  | some cb =>
    simp only [signal, hc, reduceCtorEq, iff_false]
    split <;> simp

theorem signalDisconnect_same_fault (s : Session) :
    s.signalDisconnect.fault = (s.signal .disconnect .signalDisconnect).fault := by
  unfold signalDisconnect
  simp only
  split
  · exact abort_fault _
  · rfl

theorem signalDisconnect_fault (s : Session) :
    s.signalDisconnect.fault = some .uninitialisedCallbacks ↔ s.callbacks = none := by
  rw [signalDisconnect_same_fault]
  exact s.signal_fault .disconnect .signalDisconnect

theorem readMessage_fault (s : Session) (n : Nat) (sound : s.fault = none) :
    (s.readMessage n).fault ≠ some .uninitialisedCallbacks := by
  unfold readMessage
  split <;> simp [sound]

theorem runTask_fault (s : Session) (task : Task) (sound : s.fault = none) :
    (s.runTask task).fault = some .uninitialisedCallbacks ↔
      s.ReadsCallbacks task ∧ s.callbacks = none := by
  cases task with
  | onResolve error =>
    refine iff_of_false ?_ fun h => h.1
    cases error <;> simp [runTask, onResolve, sound]
  | onConnect error =>
    by_cases closed : s.socket = .closed
    · refine iff_of_false (by simp [runTask, connectOp, onConnect, closed, sound]) fun h => ?_
      cases error with
      | success => exact h.1 closed
      | _ => exact h.1
    · simp only [runTask, connectOp, if_neg closed]
      cases error with
      | success =>
        exact (s.signal_fault .connect .signalConnect).trans (and_iff_right closed).symm
      | _ => exact iff_of_false (by simp [onConnect, sound]) fun h => h.1
  | onRead error n =>
    cases error with
    | eof => exact (s.signalDisconnect_fault).trans (iff_of_eq (true_and _)).symm
    | success => exact iff_of_false (s.readMessage_fault n sound) fun h => h.1
    | operationAborted =>
      simp only [runTask, onRead, ReadsCallbacks]
      split
      · next closed => rw [s.signalDisconnect_fault, and_iff_right closed]
      · next other => exact iff_of_false (s.readMessage_fault n sound) fun h => other h.1
    | _ => exact iff_of_false (by simp [runTask, onRead, sound]) fun h => h.1
  | threadParse buf =>
    cases hc : s.callbacks with
    | none => simp [runTask, threadParse, hc, ReadsCallbacks]
    | some cb => simp [runTask, threadParse, hc, sound]

theorem Move.fault {a : Act} (move : Move s a t) (sound : s.fault = none) (hd : a ≠ .dispatch) :
    t.fault = none := by
  cases move with
  | freed | task => exact absurd rfl hd
  | firstRead | rearm =>
    unfold asyncReadUntil
    split <;> exact sound
  | disconnect =>
    unfold Session.disconnect
    split
    · exact s.abort_fault.trans sound
    · exact sound
  | _ => exact sound

theorem Move.callbacks_before {a : Act} (move : Move s a t) (hd : a ≠ .dispatch)
    (hc : t.callbacks = none) : s.callbacks = none := by
  obtain ⟨-, same | copied, -⟩ := move.outside hd
  · exact same ▸ hc
  · cases hc.symm.trans copied

end Session

namespace Pool
open Session Machine
variable {threads : Nat} {p p' : Pool threads}

/-- `on_connect` of a made connection is run only behind the copy of the table. -/
def InPlace (p : Pool threads) : Act threads → Prop
  | .take _ => p.session.queue.head? = some (.onConnect .success) → p.session.callbacks ≠ none
  | .outside _ | .proceed _ | .advance _ => True

instance (p : Pool threads) : (a : Act threads) → Decidable (p.InPlace a)
  | .take _ => inferInstanceAs (Decidable (_ = _ → _ ≠ _))
  | .outside _ | .proceed _ | .advance _ => inferInstanceAs (Decidable True)

/-- Nothing but resolves and connects has happened, and the threads are free. -/
structure Connecting (p : Pool threads) : Prop where
  alive : p.session.alive = true
  idle : p.session.frame = .idle
  op : p.session.op ≠ some .read
  setups : ∀ task ∈ p.session.queue, task.isSetup = true
  made : .onConnect .success ∈ p.session.queue → p.session.socket ≠ .closed
  free : ∀ k, p.workers k = .inside .idle

/-- Up to the copy of the table the session is connecting. -/
def CopiesInTime (p : Pool threads) : Prop :=
  p.session.fault = none → p.session.callbacks = none → Connecting p

theorem start_copiesInTime (threads : Nat) (table : Callbacks) (destroys : Bool)
    (wire : List Incoming) : CopiesInTime (start threads (fresh table destroys wire)) := by
  intro _ _
  exact ⟨rfl, rfl, by simp [start, fresh], by simp [start, fresh], by simp [start, fresh],
    fun _ => rfl⟩

theorem Connecting.outside (h : Connecting p) {a : Session.Act} {s : Session}
    (move : Session.Move p.session a s) (hd : a ≠ .dispatch) (hp : a ≠ .proceed)
    (hc : s.callbacks = none) : Connecting { p with session := s } := by
  have before := move.callbacks_before hd hc
  have queued (task : Task) (setup : task.isSetup = true) :
      ∀ t ∈ p.session.queue ++ [task], t.isSetup = true := by
    intro t ht
    rcases List.mem_append.mp ht with before | last
    · exact h.setups t before
    · exact List.mem_singleton.mp last ▸ setup
  cases move with
  | copyCallbacks => cases hc
  | resolved => exact ⟨h.alive, h.idle, by simp, queued _ rfl, by simpa using h.made, h.free⟩
  | @connected ok =>
    refine ⟨h.alive, h.idle, by simp, queued _ rfl, fun made => ?_, h.free⟩
    cases ok with
    | true => simp
    | false => exact h.made (by simpa [code] using made)
  | data hop | eof hop | error hop | complete hop => exact absurd hop h.op
  | freed | task => exact absurd rfl hd
  | firstRead | rearm | post => exact absurd rfl hp
  | reset => exact ⟨h.alive, h.idle, h.op, h.setups, by simp, h.free⟩
  | disconnect _ called => exact absurd before called
  | behind _ called => exact absurd before called

theorem Connecting.take (h : Connecting p) {k : Fin threads} {task : Task} {queue : List Task}
    (hq : p.session.queue = task :: queue) (early : task ≠ .onConnect .success) :
    let s := { p.session with queue := queue }.runTask task
    Connecting (p.put k (entered task s) s) := by
  intro s
  have setup := h.setups task (by simp [hq])
  have setups (t : Task) (ht : t ∈ queue) : t.isSetup = true :=
    h.setups t (hq ▸ List.mem_cons_of_mem _ ht)
  have made (ht : .onConnect .success ∈ queue) : p.session.socket ≠ .closed :=
    h.made (hq ▸ List.mem_cons_of_mem _ ht)
  have free (w : Worker) (hw : w = .inside .idle) (j : Fin threads) :
      Function.update p.workers k w j = .inside .idle := by
    by_cases same : j = k
    · rw [same, Function.update_self, hw]
    · rw [Function.update_of_ne same]
      exact h.free j
  have inside : s.frame = .idle → entered task s = .inside .idle := fun idle => by
    cases task with
    | threadParse => cases setup
    | _ => exact congrArg Worker.inside idle
  cases task with
  | onRead | threadParse => cases setup
  | onResolve error =>
    cases error with
    | success =>
      exact ⟨h.alive, rfl, by simp [s, runTask, onResolve, Pool.put], setups,
        by simp [s, runTask, onResolve, Pool.put], free _ (inside h.idle)⟩
    | _ => exact ⟨h.alive, rfl, h.op, setups, made, free _ (inside h.idle)⟩
  | onConnect error =>
    obtain same | ⟨rfl, -, -⟩ := runTask_onConnect { p.session with queue := queue } error
    · rw [show s = _ from same] at inside ⊢
      exact ⟨h.alive, rfl, h.op, setups, made, free _ (inside h.idle)⟩
    · exact absurd rfl early

theorem CopiesInTime.task (h : CopiesInTime p) (sound : p.session.fault = none) {k : Fin threads}
    {task : Task} {queue : List Task} (hq : p.session.queue = task :: queue) :
    let s := { p.session with queue := queue }.runTask task
    CopiesInTime (p.put k (entered task s) s) ∧
      (s.fault ≠ some .uninitialisedCallbacks ↔ p.InPlace (.take k)) := by
  intro s
  have read : s.fault = some .uninitialisedCallbacks ↔ _ :=
    runTask_fault { p.session with queue := queue } task sound
  have place : p.InPlace (.take k) ↔ (task = .onConnect .success → p.session.callbacks ≠ none) := by
    simp only [InPlace, hq, List.head?_cons, Option.some.injEq]
  constructor
  · intro fault hc
    have before : p.session.callbacks = none :=
      (runTask_handled { p.session with queue := queue } task).callbacks.symm.trans hc
    refine (h sound before).take hq fun early => ?_
    have made := (h sound before).made (by simp [hq, early])
    have tooEarly := read.mpr ⟨by rw [early]; exact made, before⟩
    cases tooEarly.symm.trans fault
  · rw [place, Ne, read, not_and]
    refine ⟨fun late early none => ?_, fun late reads none => ?_⟩
    · have made := (h sound none).made (by simp [hq, early])
      exact late (by rw [early]; exact made) none
    · have setup := (h sound none).setups task (by simp [hq])
      cases task with
      | onRead | threadParse => cases setup
      | onResolve error => exact reads
      | onConnect error =>
        cases error with
        | success => exact late rfl none
        | _ => exact reads

theorem step_copiesInTime {a : Act threads} (h : CopiesInTime p) (hs : Pool.step a p = some p') :
    CopiesInTime p' ∧ (p'.session.fault ≠ some .uninitialisedCallbacks ↔ p.InPlace a) := by
  obtain ⟨sound, move⟩ := step_move hs
  cases move with
  | outside hd hp moved =>
    have left := (Session.step_move moved).2
    refine ⟨fun _ hc => ?_, iff_of_true (by simp [left.fault sound hd]) trivial⟩
    exact (h sound (left.callbacks_before hd hc)).outside left hd hp hc
  | @take k task queue s _ hq moved =>
    cases (Session.step_move moved).2 with
    | freed _ _ dead =>
      refine ⟨fun fault => ?_, iff_of_true (by simp [Pool.put]) fun _ none => ?_⟩
      · cases fault
      · rw [(h sound none).alive] at dead
        cases dead
    | task _ hq' =>
      obtain ⟨rfl, rfl⟩ := List.cons.inj (hq.symm.trans hq')
      exact h.task sound hq
  | @proceed k f s hw moved =>
    have left := (Session.step_move moved).2
    refine ⟨fun _ hc => ?_, iff_of_true (by simp [Pool.put, left.fault sound (by simp)]) trivial⟩
    have free := (h sound (left.callbacks_before (by simp) hc)).free k
    rw [hw] at free
    obtain rfl := Worker.inside.inj free
    cases left with
    | firstRead inside | rearm inside | post inside => cases inside
  | @call k e rest hw =>
    refine ⟨fun _ hc => ?_, iff_of_true (by simp [Pool.put, sound]) trivial⟩
    cases hw.symm.trans ((h sound hc).free k)
  | @scanned k hw =>
    refine ⟨fun _ hc => ?_, iff_of_true (by simp [Pool.put, sound]) trivial⟩
    cases hw.symm.trans ((h sound hc).free k)
  | freed other =>
    refine ⟨fun fault => (by cases fault), iff_of_true (by simp [Pool.freed]) ?_⟩
    rcases other with rfl | rfl <;> trivial

/-- In every state the next step reads the table before it is there exactly if it runs
`on_connect` of a made connection before the copy; a run without such a step never does. -/
theorem in_place_iff {threads : Nat} {table : Callbacks} {destroys : Bool}
    {wire : List Incoming} {n : Nat} {p : Pool threads} :
    (Run Pool.step Machine.free (start threads (fresh table destroys wire)) n p →
      ∀ a p', Pool.step a p = some p' →
        (p'.session.fault ≠ some .uninitialisedCallbacks ↔ p.InPlace a)) ∧
    (Run Pool.step InPlace (start threads (fresh table destroys wire)) n p →
      p.session.fault ≠ some .uninitialisedCallbacks) := by
  have begins := start_copiesInTime threads table destroys wire
  constructor
  · intro run a p' hs
    have h : CopiesInTime p := run.invariant begins fun a u v hu _ hs => (step_copiesInTime hu hs).1
    exact (step_copiesInTime h hs).2
  · intro run
    have h : CopiesInTime p ∧ p.session.fault ≠ some .uninitialisedCallbacks :=
      run.invariant (P := fun p => CopiesInTime p ∧
        p.session.fault ≠ some .uninitialisedCallbacks) ⟨begins, by simp [start, fresh]⟩
      fun a u v hu allowed hs => by
        obtain ⟨inTime, place⟩ := step_copiesInTime hu.1 hs
        exact ⟨inTime, place.mpr allowed⟩
    exact h.2

def late (j k : Fin threads) : List (Act threads) :=
  [.outside (.resolved true), .take j, .outside .copyCallbacks, .outside (.connected true), .take k]

theorem in_place_late :
    (∃ p p', Run Pool.step Machine.free (start 2 (fresh .full false [])) 4 p ∧
      Pool.step (.take 1) p = some p' ∧ p.InPlace (.take 1) ∧
      p'.session.fault ≠ some .uninitialisedCallbacks) ∧
    ∃ p, Run Pool.step InPlace (start 2 (fresh .full false [])) (late (0 : Fin 2) 1).length p ∧
      p.session.events = [.signalConnect] ∧
      p.session.fault ≠ some .uninitialisedCallbacks := by
  constructor
  · obtain ⟨p, run, out⟩ := exists_run Pool.step Machine.free
      (s := start 2 (fresh .full false []))
      (f := fun p => (decide (p.InPlace (.take 1)), (Pool.step (.take 1) p).isSome))
      (b := (true, true)) ((late 0 1).take 4) (by decide)
    obtain ⟨place, some⟩ := Prod.mk.inj out
    obtain ⟨p', hs⟩ := Option.isSome_iff_exists.mp some
    have place := of_decide_eq_true place
    exact ⟨p, p', run, hs, place, (in_place_iff.1 run _ _ hs).mpr place⟩
  · obtain ⟨p, run, connected⟩ := exists_run Pool.step InPlace
      (s := start 2 (fresh .full false [])) (f := fun p => p.session.events)
      (b := [.signalConnect]) (late 0 1) (by decide)
    exact ⟨p, run, connected, in_place_iff.2 run⟩

theorem not_in_place_fast :
    ∃ p, Run Pool.step Machine.free (start 1 (fresh .full false [])) 4 p ∧
      p.session.fault = some .uninitialisedCallbacks :=
  exists_run Pool.step Machine.free (f := fun p => p.session.fault)
    [.outside (.resolved true), .take 0, .outside (.connected true), .take 0] (by decide)

end Pool
end CqIrc
