import CqIrc.Machine.Runs
import CqIrc.Outgoing

/-! How lines reach the socket. `async_write` is a chain of `async_write_some`, each of
which joins the socket's queue when the handler of the one before it runs; the strand
orders these handlers and nothing else. A line stays in one piece as long as no other
line is in the queue when a part of it has been sent, and none joins before its rest. -/

namespace CqIrc

structure Transfer where
  buffer : Bytes
  sent : Nat
  deriving DecidableEq, Repr

def Transfer.rest (x : Transfer) : Bytes := x.buffer.drop x.sent

def Transfer.advance (x : Transfer) (n : Nat) : Transfer := ⟨x.buffer, x.sent + n⟩

theorem Transfer.advance_rest (x : Transfer) (n : Nat) :
    x.rest.take n ++ (x.advance n).rest = x.rest := by
  rw [advance, rest, rest, ← List.drop_drop, List.take_append_drop]

/-- The next part of an `async_write`, or its end. -/
inductive WriteHandler where
  | writeOp (x : Transfer)
  | onWrite (buffer : Bytes)
  deriving DecidableEq, Repr

def continued : List WriteHandler → List Transfer
  | [] => []
  | .writeOp x :: handlers => x :: continued handlers
  | .onWrite _ :: handlers => continued handlers

theorem continued_append (hs ks : List WriteHandler) :
    continued (hs ++ ks) = continued hs ++ continued ks := by
  induction hs with
  | nil => rfl
  | cons h hs ih => cases h <;> simp [continued, ih]

/-- The writing side of a connected session: the bytes that the socket has taken, the
`async_write_some` operations that wait at it, the handlers at the strand, the blocking
`write` that a call is in, and the buffers that `on_write` has deleted. -/
structure Output where
  accepted : Bytes
  pending : List Transfer
  handlers : List WriteHandler
  sync : Option Transfer
  deleted : List Bytes
  calls : List Call
  deriving DecidableEq, Repr

namespace Output

/-- What can happen next; the calls are made one after another, and the socket takes `n` bytes
of the first operation in its queue, or of the blocking `write`. -/
inductive Act where
  | call (c : Call)
  | send (n : Nat)
  | syncSend (n : Nat)
  | dispatch
  deriving DecidableEq, Repr

def call (s : Output) (c : Call) : Option Output :=
  match s.sync, c.buffer with
  | none, .ok none => some { s with calls := s.calls ++ [c] }
  | none, .ok (some buffer) =>
    if c.isSync then some { s with sync := some ⟨buffer, 0⟩, calls := s.calls ++ [c] }
    else some { s with pending := s.pending ++ [⟨buffer, 0⟩], calls := s.calls ++ [c] }
  | _, _ => none

def sentHandler (x : Transfer) (n : Nat) : WriteHandler :=
  if n = x.rest.length then .onWrite x.buffer else .writeOp (x.advance n)

def send (s : Output) (n : Nat) : Option Output :=
  match s.pending with
  | [] => none
  | x :: pending =>
    if 0 < n ∧ n ≤ x.rest.length then
      some { s with
        accepted := s.accepted ++ x.rest.take n, pending := pending,
        handlers := s.handlers ++ [sentHandler x n] }
    else none

def syncSend (s : Output) (n : Nat) : Option Output :=
  match s.sync with
  | none => none
  | some x =>
    if 0 < n ∧ n ≤ x.rest.length then
      some { s with
        accepted := s.accepted ++ x.rest.take n,
        sync := if n = x.rest.length then none else some (x.advance n) }
    else none

def dispatch (s : Output) : Option Output :=
  match s.handlers with
  | [] => none
  | .writeOp x :: handlers => some { s with handlers := handlers, pending := s.pending ++ [x] }
  | .onWrite buffer :: handlers =>
    some { s with handlers := handlers, deleted := s.deleted ++ [buffer] }

def step : Act → Output → Option Output
  | .call c, s => s.call c
  | .send n, s => s.send n
  | .syncSend n, s => s.syncSend n
  | .dispatch, s => s.dispatch

def fresh : Output := ⟨[], [], [], none, [], []⟩

def remainders (s : Output) : List Transfer := continued s.handlers

/-- What has not been sent, in the order in which it will be if no line is torn. -/
def owed (s : Output) : Bytes :=
  s.remainders.flatMap Transfer.rest ++ (s.pending.flatMap Transfer.rest ++
    (s.sync.toList.flatMap Transfer.rest))

def lines (s : Output) : Bytes := (s.calls.filterMap Call.line).flatten

def Completed (s : Output) : Prop := s.remainders = [] ∧ s.pending = [] ∧ s.sync = none

instance (s : Output) : Decidable s.Completed :=
  inferInstanceAs (Decidable (_ ∧ _ ∧ _))

/-- A call's message fits an `int`, and it starts no `async_write` while a rest waits
for its handler; a part of a line is sent only if no other line is behind it; a blocking
`write` sends only when nothing else is to be sent. -/
def InTurn (s : Output) : Act → Prop
  | .call c => c.Fits ∧ (c.isSync = false → c.line ≠ none → s.remainders = [])
  | .send n => ∀ x ∈ s.pending.head?, n < x.rest.length → s.pending.tail = []
  | .syncSend _ => s.remainders = [] ∧ s.pending = []
  | .dispatch => True

instance (s : Output) (a : Act) : Decidable (InTurn s a) := by
  cases a <;> unfold InTurn <;> infer_instance

/-- All bytes of the calls are sent or owed, and a waiting rest is alone. -/
structure Ordered (s : Output) : Prop where
  account : s.accepted ++ s.owed = s.lines
  alone : s.remainders ≠ [] → s.remainders.length = 1 ∧ s.pending = []

theorem fresh_ordered : Ordered fresh := ⟨rfl, fun h => absurd rfl h⟩

section steps
variable {s s' : Output}

theorem Ordered.no_remainder (h : Ordered s) (hp : s.pending ≠ []) : s.remainders = [] := by
  by_contra some_
  exact hp (h.alone some_).2

theorem Ordered.call {c : Call} (h : Ordered s) (allowed : InTurn s (.call c))
    (hs : s.call c = some s') : Ordered s' := by
  obtain ⟨fits, turn⟩ := allowed
  unfold Output.call at hs
  split at hs
  · next made =>
    obtain rfl := Option.some.inj hs
    have empty : none = c.line := Call.buffer_eq fits made
    exact ⟨by simpa [owed, remainders, lines, ← empty] using h.account, h.alone⟩
  · next buffer idle made =>
    have line : some buffer = c.line := Call.buffer_eq fits made
    have account : (s.accepted ++ s.owed) ++ buffer = s.lines ++ buffer := by rw [h.account]
    split at hs
    · obtain rfl := Option.some.inj hs
      refine ⟨?_, h.alone⟩
      simpa [owed, remainders, lines, idle, Transfer.rest, ← line] using account
    · next async =>
      obtain rfl := Option.some.inj hs
      have clear : s.remainders = [] := turn (by simpa using async) (by simp [← line])
      refine ⟨?_, fun waiting => absurd clear waiting⟩
      simpa [owed, remainders, lines, idle, Transfer.rest, ← line] using account
  · cases hs

theorem Ordered.send {n : Nat} (h : Ordered s) (allowed : InTurn s (.send n))
    (hs : s.send n = some s') : Ordered s' := by
  unfold Output.send at hs
  split at hs
  · cases hs
  · next x pending hp =>
    obtain ⟨⟨pos, inside⟩, ⟨⟩⟩ := Option.ite_none_right_eq_some.mp hs
    have clear : continued s.handlers = [] := h.no_remainder (by simp [hp])
    have account := h.account
    simp only [owed, remainders, lines, clear, hp, List.flatMap_nil, List.nil_append,
      List.flatMap_cons, List.append_assoc] at account
    by_cases all : n = x.rest.length
    · have none : continued (s.handlers ++ [sentHandler x n]) = [] := by
        simp [continued_append, clear, sentHandler, all, continued]
      refine ⟨?_, fun some_ => absurd none some_⟩
      simp only [owed, remainders, lines, none, List.flatMap_nil, List.nil_append]
      simpa [all] using account
    · have last : pending = [] := by
        have turn := allowed x (by simp [hp]) (by omega)
        simpa [hp] using turn
      have one : continued (s.handlers ++ [sentHandler x n]) = [x.advance n] := by
        simp [continued_append, clear, sentHandler, all, continued]
      refine ⟨?_, fun _ => ⟨by simp [remainders, one], last⟩⟩
      simp only [owed, remainders, lines, one, List.flatMap_singleton, List.append_assoc]
      rw [← List.append_assoc (x.rest.take n), x.advance_rest]
      exact account

theorem Ordered.syncSend {n : Nat} (h : Ordered s) (allowed : InTurn s (.syncSend n))
    (hs : s.syncSend n = some s') : Ordered s' := by
  obtain ⟨clear, empty⟩ := allowed
  unfold Output.syncSend at hs
  split at hs
  · cases hs
  · next x hx =>
    obtain ⟨⟨pos, inside⟩, ⟨⟩⟩ := Option.ite_none_right_eq_some.mp hs
    refine ⟨?_, h.alone⟩
    have account := h.account
    change continued s.handlers = [] at clear
    simp only [owed, remainders, lines, clear, empty, hx, List.flatMap_nil, List.nil_append,
      Option.toList_some, List.flatMap_singleton, List.append_assoc] at account ⊢
    split
    · next all => simpa [all] using account
    · simpa [x.advance_rest] using account

theorem Ordered.dispatch (h : Ordered s) (hs : s.dispatch = some s') : Ordered s' := by
  unfold Output.dispatch at hs
  have account := h.account
  split at hs
  · cases hs
  · next x handlers hh =>
    obtain rfl := Option.some.inj hs
    have first : s.remainders = x :: continued handlers := by rw [remainders, hh, continued]
    obtain ⟨one, empty⟩ := h.alone (by simp [first])
    have none : continued handlers = [] := by simpa [first] using one
    refine ⟨?_, fun some_ => absurd none some_⟩
    simpa [owed, remainders, lines, hh, continued, none, empty] using account
  · next buffer handlers hh =>
    obtain rfl := Option.some.inj hs
    have same : continued handlers = s.remainders := by rw [remainders, hh, continued]
    refine ⟨?_, fun some_ => ?_⟩
    · simpa [owed, remainders, lines, hh, continued] using account
    · simp only [remainders, same] at some_ ⊢
      exact h.alone some_

theorem step_ordered {a : Act} (h : Ordered s) (allowed : InTurn s a) (hs : step a s = some s') :
    Ordered s' := by
  cases a with
  | call c => exact h.call allowed hs
  | send n => exact h.send allowed hs
  | syncSend n => exact h.syncSend allowed hs
  | dispatch => exact h.dispatch hs

end steps

/-- While every step is in turn, the socket has taken the lines of the calls in order up
to some byte, and all of them once the writes have completed. -/
theorem lines_in_turn {n : Nat} {s : Output} (run : Machine.Run step InTurn fresh n s) :
    s.accepted <+: s.lines ∧ (s.Completed → s.accepted = s.lines) := by
  have h : Ordered s := run.invariant fresh_ordered
    fun a u v hu allowed hs => step_ordered hu allowed hs
  refine ⟨⟨s.owed, h.account⟩, fun ⟨clear, empty, idle⟩ => ?_⟩
  simpa [owed, clear, empty, idle] using h.account

def pongA : Call := .pong (some (ascii ['a']))
def quitB : Call := .quit (some (ascii ['b']))

def inTurn : List Act :=
  [.call pongA, .send 3, .dispatch, .call quitB, .send 5, .send 9, .dispatch, .dispatch]

def torn : List Act :=
  [.call pongA, .call quitB, .send 3, .dispatch, .send 9, .send 5, .dispatch, .dispatch]

theorem lines_in_turn_pong :
    ∃ s, Machine.Run step InTurn fresh inTurn.length s ∧ s.Completed ∧
      s.accepted = s.lines := by
  obtain ⟨s, run, done⟩ := Machine.exists_run step InTurn (s := fresh)
    (f := fun s => decide s.Completed) (b := true) inTurn (by decide)
  exact ⟨s, run, of_decide_eq_true done, (lines_in_turn run).2 (of_decide_eq_true done)⟩

theorem lines_torn :
    ∃ s, Machine.Run step Machine.free fresh torn.length s ∧ s.Completed ∧
      s.accepted ≠ s.lines := by
  obtain ⟨s, run, h⟩ := Machine.exists_run step Machine.free (s := fresh)
    (f := fun s => decide (s.Completed ∧ s.accepted ≠ s.lines)) (b := true) torn (by decide)
  exact ⟨s, run, of_decide_eq_true h⟩

end Output
end CqIrc
