import CqIrc.Decoding
import CqIrc.Delivery
import CqIrc.Replies

/-! From the messages of the peer to the callbacks. The peer sends well-formed lines, one
behind the other; they arrive in any chunks and pass through the stream buffer, the queue
and the scans of the threads. Each message is called once, with what the peer has put into
it, and on serialised threads in the order in which the peer has sent them. -/

namespace CqIrc
open Flex Flex.Pattern

/-- A message as the peer sends it. -/
structure Sent where
  origin : Option Origin
  body : Body

/-- What a callback sees of a message, its user and host apart. -/
structure Received where
  signal : Signal
  command : Option Bytes
  source : Option Bytes
  params : List (Option Bytes)
  trailing : Option Bytes
  deriving DecidableEq, Repr

inductive Stage where
  | started
  | returned
  deriving DecidableEq, Repr

def Invocation.received (i : Invocation) : Received :=
  ⟨i.signal, i.command, i.message.pfx.source, i.message.params.listed, i.message.trailing⟩

def Entry.seen : Entry → Stage × Received
  | started call => (.started, call.received)
  | returned call => (.returned, call.received)

namespace Sent

def bytes (m : Sent) : Bytes := originBytes m.origin ++ m.body.bytes

def received (m : Sent) : Received :=
  ⟨commandSignal m.body.command,
    if commandSignal m.body.command = .unknown then some m.body.command else none,
    m.origin.map (·.source), m.body.middles.map fun x => some x.2, m.body.trailing.map (·.2)⟩

def seen (m : Sent) : List (Stage × Received) := [(.started, m.received), (.returned, m.received)]

end Sent

/-- The messages one behind the other. -/
def transmission (ms : List Sent) : Bytes := (ms.map Sent.bytes).flatten

/-! No byte of a message but its last two ends a line. -/

theorem spaces_plain (n : Nat) : cr ∉ spaces n := fun h => by
  cases List.eq_of_mem_replicate h

theorem Origin.plain (o : Origin) : cr ∉ o.bytes := by
  have source : cr ∉ o.source := fun h =>
    (source_of_letters (P := fun b => b ≠ cr) (fun b hb => by
      rintro rfl
      exact absurd hb (by decide))).mem (mem_alt.mpr o.source_mem) _ h rfl
  have user : cr ∉ markedBytes '!' o.user := by
    cases hu : o.user with
    | none => exact List.not_mem_nil
    | some u =>
      refine List.not_mem_cons_of_ne_of_not_mem (by decide) fun h => ?_
      exact (negated_iff.mp ((mem_user.mp (o.user_mem u hu)).2 _ h)).2 (by decide)
  have host : cr ∉ markedBytes '@' o.host := by
    cases hh : o.host with
    | none => exact List.not_mem_nil
    | some w =>
      refine List.not_mem_cons_of_ne_of_not_mem (by decide) fun h => ?_
      exact (host_of_letters (P := fun b => b ≠ cr) (fun b hb => by
        rintro rfl
        exact absurd hb (by decide)) (by simp [cr])).mem (o.host_mem w hh) _ h rfl
  simp only [Origin.bytes, List.mem_cons, List.mem_append, not_or]
  exact ⟨by decide, source, ⟨user, host⟩, spaces_plain o.extra⟩

theorem middleBytes_plain {ms : List (Nat × Bytes)} (h : ∀ x ∈ ms, x.2 ∈ middle.language) :
    cr ∉ middleBytes ms := by
  intro hb
  obtain ⟨x, hx, hb⟩ := List.mem_flatMap.mp hb
  rcases List.mem_append.mp hb with hb | hb
  · exact spaces_plain x.1 hb
  · exact (middle_clean (h x hx)).2.1 hb

theorem Body.plain (body : Body) : ∃ w, body.bytes = w ++ [cr, lf] ∧ cr ∉ w := by
  refine ⟨body.command ++ (middleBytes body.middles ++ trailingBytes body.trailing),
    by simp [Body.bytes], ?_⟩
  have trailing : cr ∉ trailingBytes body.trailing := by
    cases ht : body.trailing with
    | none => exact List.not_mem_nil
    | some x =>
      simp only [trailingBytes, List.mem_append, List.mem_cons, not_or]
      exact ⟨spaces_plain x.1, by decide, fun h => ((body.trailing_mem x ht).2 _ h).2.2.1 rfl⟩
  simp only [List.mem_append, not_or]
  refine ⟨fun h => ?_, middleBytes_plain body.middles_mem, trailing⟩
  exact absurd (alnum_of_command body.command_mem _ h) (by decide)

namespace Sent

theorem endsAtFirst (m : Sent) : Stream.EndsAtFirst delimiter m.bytes := by
  obtain ⟨w, split, plain⟩ := m.body.plain
  have origin : cr ∉ originBytes m.origin := by
    cases m.origin with
    | none => exact List.not_mem_nil
    | some o => exact o.plain
  have whole : m.bytes = originBytes m.origin ++ w ++ [cr, lf] := by
    rw [bytes, split, List.append_assoc]
  rw [whole]
  exact Stream.endsAtFirst_of_not_mem (by simp [origin, plain]) (by decide)

theorem lines_transmission {rest : Bytes} (ms : List Sent)
    (unterminated : Stream.cut delimiter [] rest = none) :
    Session.lines (transmission ms ++ rest) = ms.map bytes := by
  have ends : ∀ p ∈ ms.map bytes, Stream.EndsAtFirst delimiter p := by
    intro p hp
    obtain ⟨m, -, rfl⟩ := List.mem_map.mp hp
    exact m.endsAtFirst
  rw [Session.lines, transmission, Stream.pieces_of_split (by decide) ends unterminated]

theorem reach_head (cb : Callbacks) (o : Option Origin) (v : Bytes) :
    ∃ m al, Reaches cb false (Scan.begin (originBytes o ++ v)) ⟨.head, v, m, al⟩ ∧
      m.params = Message.zero.params ∧ m.trailing = none ∧ m.pfx.source = o.map (·.source) := by
  cases o with
  | none => exact ⟨.zero, [], .refl, rfl, rfl, rfl⟩
  | some o =>
    obtain ⟨m, al, options, params, trailing, source, -⟩ := reach_options cb false o.extra v
      (markedBytes '!' o.user ++ markedBytes '@' o.host) (Message.zero.withSource o.source)
      ([] ++ [o.source]) o.marked_letters
    exact ⟨m, al, (o.reach_source cb false v .zero []).trans options, params, trailing, source⟩

/-- One call of the scanner tells what has been sent. -/
theorem yylex_sent {cb : Callbacks} (full : ∀ f, cb.has f = true) (m : Sent) :
    ∃ e i, yylex cb false m.bytes = some (.ok e) ∧ e.calls = [i] ∧ i.received = m.received := by
  obtain ⟨x, al, reach, params, trailing, source⟩ := reach_head cb m.origin m.body.bytes
  obtain ⟨ps, hp, listed, -⟩ := m.body.exists_params
  obtain ⟨e, runs, -, -, calls⟩ := m.body.runs cb false al (params ▸ hp) (full _)
  refine ⟨e, _, (reach.runs runs).yylex (line_inTable m.origin m.body), calls, ?_⟩
  simp [Invocation.received, received, Target.invocation, Message.withParams, target_signal,
    target_word, source, listed, trailing]

theorem threadParse_sent {cb : Callbacks} (full : ∀ f, cb.has f = true) (m : Sent) :
    ∃ i, threadParse cb (terminated m.bytes) = .parsing [.started i, .returned i] ∧
      i.received = m.received := by
  obtain ⟨e, i, scanned, calls, same⟩ := m.yylex_sent full
  refine ⟨i, ?_, same⟩
  have text : (terminated m.bytes).take ((terminated m.bytes).length - 2) = m.bytes := by
    simp [terminated]
  have ends : [nul, nul] <:+ terminated m.bytes := List.suffix_append m.bytes [nul, nul]
  rw [threadParse, if_pos ends, text, scanned]
  simp [calls]

theorem told_sent {cb : Callbacks} (full : ∀ f, cb.has f = true) (m : Sent) :
    (Pool.told cb (terminated m.bytes)).map Entry.seen = m.seen := by
  obtain ⟨i, parsed, same⟩ := m.threadParse_sent full
  rw [Pool.told, parsed]
  simp [Worker.left, Entry.seen, seen, same]

end Sent

namespace Pool
open Session Machine
variable {threads : Nat} {table : Callbacks} {ms : List Sent} {rest : Bytes}
  {chunks : List Bytes} {n : Nat} {p : Pool threads}

def Undisturbed (_ : Pool threads) (a : Act threads) : Prop := a.disconnects = false

instance (p : Pool threads) (a : Act threads) : Decidable (Undisturbed p a) :=
  inferInstanceAs (Decidable (a.disconnects = false))

def SerialisedOnly (p : Pool threads) (a : Act threads) : Prop := p.Serialised a ∧ Undisturbed p a

instance (p : Pool threads) (a : Act threads) : Decidable (SerialisedOnly p a) :=
  inferInstanceAs (Decidable (p.Serialised a ∧ Undisturbed p a))

theorem connected_ordered (threads : Nat) (table : Callbacks) (wire : List Incoming) :
    Ordered table (wire.flatMap Incoming.bytes) (start threads (connected table wire))
      .idle [] where
  frames := .rest fun _ => rfl
  lefts := .rest fun _ => rfl
  idle := rfl
  given := rfl
  copied _ same := (Option.some.inj same).symm
  life := by
    have run : Run Session.step Machine.free (fresh table false wire) 4 (connected table wire) :=
      .of_exec [.copyCallbacks, .resolved true, .dispatch, .connected true] rfl
    exact run.invariant (fresh_lifeCycle table false wire) fun a u v hu _ hs =>
      (Session.step_move hs).2.lifeCycle hu (Session.step_move hs).1
  accounted := ⟨by simp [connected, start], [], rfl, rfl, rfl⟩
  log := rfl

/-- The buffers of the messages. -/
def buffersOf (ms : List Sent) : Multiset Bytes := ↑(ms.map fun m => terminated m.bytes)

theorem told_buffersOf (full : ∀ f, table.has f = true) (ms : List Sent) :
    ((ms.map fun m => terminated m.bytes).flatMap (told table)).map Entry.seen =
      ms.flatMap Sent.seen := by
  rw [List.map_flatMap, List.flatMap_map]
  exact List.flatMap_congr fun m _ => m.told_sent full

theorem costs_buffersOf (full : ∀ f, table.has f = true) (ms : List Sent) :
    costs table (buffersOf ms) = 3 * ms.length := by
  have three (m : Sent) : cost table (terminated m.bytes) = 3 := by
    obtain ⟨i, parsed, -⟩ := m.threadParse_sent full
    rw [cost, told, parsed]
    rfl
  simp [costs, buffersOf, Function.comp_def, three, Nat.mul_comm]

theorem seen_of_stuck (full : ∀ f, table.has f = true) (h : Conserved table (buffersOf ms) p)
    (pos : 0 < threads)
    (stuck : ∀ a, p.Serialised a → a.disconnects = false → Pool.step a p = none) :
    (p.log.map Entry.seen).Perm (ms.flatMap Sent.seen) := by
  obtain ⟨handed, log⟩ := h.stuck pos stuck
  have brought := (Multiset.coe_eq_coe.mp handed).flatMap_right (told table)
  have seen := ((Multiset.coe_eq_coe.mp log).trans brought).map Entry.seen
  rwa [told_buffersOf full] at seen

def twoSent : List Sent := [⟨some bareNick, pingBody⟩, ⟨none, pingBody⟩]

def twoChunks : List Bytes :=
  [(transmission twoSent).take 20, (transmission twoSent).drop 20 ++ [colon]]

theorem unterminated_colon : Stream.cut delimiter [] [colon] = none := by decide

theorem sent_twoChunks : twoChunks.flatten = transmission twoSent ++ [colon] := by decide

theorem short_twoSent : ∀ m ∈ twoSent, m.bytes.length < 2 ^ 31 - 2 := by decide

section runs
variable (full : ∀ f, table.has f = true)
  (unterminated : Stream.cut delimiter [] rest = none)
  (sent : chunks.flatten = transmission ms ++ rest)
  (short : ∀ m ∈ ms, m.bytes.length < 2 ^ 31 - 2)
include full unterminated sent short

theorem conserved_of_run {allowed : Pool threads → Act threads → Prop}
    (undisturbed : ∀ p a, allowed p a → Undisturbed p a)
    (run : Run Pool.step allowed (start threads (connected table (stream chunks))) n p) :
    Conserved table (buffersOf ms) p ∧ n ≤ 3 * chunks.flatten.length + chunks.length + 5 +
      3 * ms.length := by
  have begun := connected_conserved threads table chunks
  rw [sent, Sent.lines_transmission ms unterminated, List.map_map] at begun
  have fits : ∀ buf ∈ buffersOf ms, buf.length < 2 ^ 31 := by
    intro buf hb
    obtain ⟨m, hm, rfl⟩ := List.mem_map.mp (Multiset.mem_coe.mp hb)
    have := short m hm
    simp only [terminated, List.length_append, List.length_cons, List.length_nil]
    omega
  have sound : ∀ buf ∈ buffersOf ms, CqIrc.threadParse table buf ≠ .lost := by
    intro buf hb
    obtain ⟨m, -, rfl⟩ := List.mem_map.mp (Multiset.mem_coe.mp hb)
    obtain ⟨i, parsed, -⟩ := m.threadParse_sent full
    simp [parsed]
  have keep (a : Act threads) (u v : Pool threads) (hu : Conserved table (buffersOf ms) u)
      (ha : allowed u a) (hs : Pool.step a u = some v) :=
    hu.step full fits sound (undisturbed u a ha) hs
  refine ⟨run.invariant begun fun a u v hu ha hs => (keep a u v hu ha hs).1, ?_⟩
  have bound := run.bounded (μ := Pool.effort table (buffersOf ms)) begun
    (fun a u v hu ha hs => (keep a u v hu ha hs).1) fun a u v hu ha hs => (keep a u v hu ha hs).2
  have first : (start threads (connected table (stream chunks))).effort table (buffersOf ms) =
      3 * chunks.flatten.length + chunks.length + 5 + 3 * ms.length := by
    rw [Pool.effort, total_start rfl, start, connected_effort, costs_buffersOf full]
    rfl
  omega

/-- Whatever the chunks and however the threads overtake each other: every message is
called once and with what was sent, none is lost and none made up, and a run ends. -/
theorem delivered_once
    (run : Run Pool.step Undisturbed (start threads (connected table (stream chunks))) n p) :
    n ≤ 3 * chunks.flatten.length + chunks.length + 5 + 3 * ms.length ∧
      p.session.fault = none ∧
      (p.log.map Entry.seen).Subperm (ms.flatMap Sent.seen) ∧
      (0 < threads → (∀ a, Undisturbed p a → Pool.step a p = none) →
        (p.log.map Entry.seen).Perm (ms.flatMap Sent.seen)) := by
  obtain ⟨h, bound⟩ := conserved_of_run full unterminated sent short (fun _ _ ha => ha) run
  refine ⟨bound, h.serving.fault, ?_, fun pos stuck => ?_⟩
  · have below := Multiset.map_le_map (f := Entry.seen) h.log_le
    rw [buffersOf, Multiset.coe_bind, Multiset.map_coe, Multiset.map_coe,
      told_buffersOf full] at below
    exact Multiset.coe_le.mp below
  · exact seen_of_stuck full h pos fun a _ ha => stuck a ha

/-- On serialised threads, in the order in which the peer has sent them. -/
theorem delivered_in_order
    (run : Run Pool.step SerialisedOnly (start threads (connected table (stream chunks))) n p) :
    p.log.map Entry.seen <+: ms.flatMap Sent.seen ∧
      (0 < threads → (∀ a, SerialisedOnly p a → Pool.step a p = none) →
        p.log.map Entry.seen = ms.flatMap Sent.seen) := by
  obtain ⟨h, -⟩ := conserved_of_run full unterminated sent short (fun _ _ ha => ha.2) run
  have ordered := (connected_ordered threads table (stream chunks)).log_of_run
    (fun _ _ _ ha _ => ha.1) run
  have lines : ((Session.lines (chunks.flatten)).filterMap bufferOf) =
      ms.map fun m => terminated m.bytes := by
    rw [sent, Sent.lines_transmission ms unterminated, List.filterMap_map]
    rw [← List.filterMap_eq_map]
    refine List.filterMap_congr fun m hm => ?_
    have fits := short m hm
    have read : readBuffer (m.bytes ++ []) m.bytes.length = some (terminated m.bytes) :=
      readBuffer_eq (by omega)
    rwa [List.append_nil] at read
  rw [stream_bytes, expected, lines] at ordered
  have seen := ordered.map Entry.seen
  rw [told_buffersOf full] at seen
  exact ⟨seen, fun pos stuck => seen.eq_of_length
    (seen_of_stuck full h pos fun a serial ha => stuck a ⟨serial, ha⟩).length_eq⟩

end runs

def fast : Fin 2 := ⟨0, Nat.two_pos⟩
def slow : Fin 2 := ⟨1, Nat.one_lt_two⟩

def overtaking : List (Act 2) :=
  [.take fast, .proceed fast, .outside .receive, .outside .complete, .take fast, .proceed fast,
    .proceed fast, .outside .receive, .outside .complete, .take slow, .take fast, .proceed fast,
    .proceed fast, .take fast, .advance fast, .advance fast, .advance slow]

theorem delivered_once_overtaking :
    ∃ p : Pool 2, Run Pool.step Undisturbed (start 2 (connected .full (stream twoChunks)))
        overtaking.length p ∧
      p.log.map Entry.seen = [(.started, Sent.received ⟨none, pingBody⟩),
        (.returned, Sent.received ⟨none, pingBody⟩),
        (.started, Sent.received ⟨some bareNick, pingBody⟩)] ∧
      (p.log.map Entry.seen).Subperm (twoSent.flatMap Sent.seen) := by
  obtain ⟨p, run, log⟩ := exists_run Pool.step Undisturbed
    (s := start 2 (connected .full (stream twoChunks))) (f := fun p => p.log.map Entry.seen)
    (b := [(.started, Sent.received ⟨none, pingBody⟩), (.returned, Sent.received ⟨none, pingBody⟩),
      (.started, Sent.received ⟨some bareNick, pingBody⟩)]) overtaking (by decide +kernel)
  exact ⟨p, run, log, (delivered_once Callbacks.full_has unterminated_colon sent_twoChunks
    short_twoSent run).2.2.1⟩

def alternating : List (Act 2) :=
  [.take fast, .proceed fast, .outside .receive, .outside .complete, .take fast, .proceed fast,
    .proceed fast, .outside .receive, .outside .complete, .take slow, .advance slow, .take fast,
    .proceed fast, .advance slow, .proceed fast, .advance slow, .take fast, .advance fast,
    .advance fast]

theorem delivered_in_order_alternating :
    ∃ p : Pool 2, Run Pool.step SerialisedOnly (start 2 (connected .full (stream twoChunks)))
        alternating.length p ∧
      p.log.length = 4 ∧ p.log.map Entry.seen <+: twoSent.flatMap Sent.seen := by
  obtain ⟨p, run, four⟩ := exists_run Pool.step SerialisedOnly
    (s := start 2 (connected .full (stream twoChunks))) (f := fun p => p.log.length) (b := 4)
    alternating (by decide +kernel)
  exact ⟨p, run, four, (delivered_in_order Callbacks.full_has unterminated_colon sent_twoChunks
    short_twoSent run).1⟩

end Pool

end CqIrc
