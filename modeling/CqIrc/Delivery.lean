import CqIrc.Machine.Total
import CqIrc.Threads

/-! What every interleaving of the threads keeps. The threads may overtake each other, so
the order is not kept; but a line that has been sent is in one place at any time (still to
be read, held by a thread, queued, or brought to the scanner), and the callbacks of a
buffer that the scanner got are made, or are to come in one thread. -/

namespace CqIrc
open Machine

namespace Worker

def reads (w : Worker) : Nat := w.frame.holdsRead.toNat

def buffers (w : Worker) : Multiset Bytes := ↑w.frame.buffer?.toList

def entries (w : Worker) : Multiset Entry := ↑w.left

def effort : Worker → Nat
  | inside frame => Session.frameEffort frame
  | parsing left => left.length + 1
  | lost => 0

end Worker

namespace Session
variable {table : Callbacks} {target : List Bytes} {s : Session}

/-- A session with an open connection; where its threads stand is left open. -/
structure Serving (table : Callbacks) (s : Session) : Prop where
  fault : s.fault = none
  alive : s.alive = true
  stays : s.destroys = false
  callbacks : s.callbacks = some table
  socket : s.socket = .connected
  op : s.op = none ∨ s.op = some .read
  setup : ∀ task ∈ s.queue, task.isSetup = true →
    task = .onConnect .success ∧ ∃ chunks, s.wire = stream chunks
  reads : ∀ error n, .onRead error n ∈ s.queue →
    (error = .success ∧ ∃ p r, Stream.cut delimiter [] s.input = some (p, r) ∧ n = p.length) ∨
      (error = .eof ∧ s.wire = [])

def enter (s : Session) (f : Frame) : Session := { s with frame := f }

theorem Serving.enter (h : Serving table s) (f : Frame) : Serving table (s.enter f) :=
  ⟨h.fault, h.alive, h.stays, h.callbacks, h.socket, h.op, h.setup, h.reads⟩

theorem Framed.serving (h : Framed table target s) : Serving table s :=
  ⟨h.fault, h.alive, h.stays, h.callbacks, h.socket, h.op, h.setup, h.reads⟩

def post (s : Session) (buf : Bytes) : Session :=
  { s with queue := s.queue ++ [.threadParse buf] }

def scan (s : Session) (buf : Bytes) (queue : List Task) : Session :=
  { s with queue := queue, events := s.events ++ [.parse buf] }

theorem Serving.post (h : Serving table s) (buf : Bytes) : Serving table (s.post buf) :=
  { h with
    setup := fun task ht setup => by
      rcases List.mem_append.mp ht with old | new
      · exact h.setup task old setup
      · rw [List.mem_singleton.mp new] at setup
        cases setup
    reads := by simpa [Session.post] using h.reads }

theorem Serving.scan (h : Serving table s) {buf : Bytes} {queue : List Task}
    (hq : s.queue = .threadParse buf :: queue) : Serving table (s.scan buf queue) :=
  { h with
    setup := fun task ht => h.setup task (hq ▸ List.mem_cons_of_mem _ ht)
    reads := fun error n hr => h.reads error n (hq ▸ List.mem_cons_of_mem _ hr) }

def base (s : Session) : Multiset Bytes :=
  ↑s.handed + (↑(s.queue.filterMap Task.buffer?) + ↑((lines s.rest).map terminated))

theorem account_base (s : Session) :
    (s.account : Multiset Bytes) = s.base + ↑s.frame.buffer?.toList := by
  simp only [account, base, ← Multiset.coe_add]
  ac_rfl

theorem load_enter (idle : s.frame = .idle) (f : Frame) :
    (s.enter f).load = s.load + f.holdsRead.toNat := by
  have none : s.frame.holdsRead.toNat = 0 := by rw [idle]; rfl
  simp only [enter, load, setups, Session.reads, disconnects]
  omega

theorem load_leave (s : Session) : (s.enter .idle).load + s.frame.holdsRead.toNat = s.load :=
  (load_enter (s := s.enter .idle) rfl s.frame).symm

theorem effort_enter (idle : s.frame = .idle) (f : Frame) :
    (s.enter f).effort = s.effort + frameEffort f := by
  have none : frameEffort s.frame = 0 := by rw [idle]; rfl
  simp only [enter, effort, rest]
  omega

theorem effort_leave (s : Session) : (s.enter .idle).effort + frameEffort s.frame = s.effort :=
  (effort_enter (s := s.enter .idle) rfl s.frame).symm

theorem post_counts (s : Session) (buf : Bytes) :
    (s.post buf).setups = s.setups ∧ (s.post buf).reads = s.reads ∧ (s.post buf).load = s.load := by
  simp [post, load, setups, Session.reads, disconnects, Task.isSetup, Task.isRead]

theorem scan_counts {buf : Bytes} {queue : List Task} (hq : s.queue = .threadParse buf :: queue) :
    (s.scan buf queue).setups = s.setups ∧ (s.scan buf queue).reads = s.reads ∧
      (s.scan buf queue).load = s.load := by
  simp [scan, load, setups, Session.reads, disconnects, Task.isSetup, Task.isRead, hq]

theorem post_effort (s : Session) (buf : Bytes) : (s.post buf).effort = s.effort + 1 := by
  simp [post, effort, rest, Task.isSetup]
  omega

theorem scan_effort {buf : Bytes} {queue : List Task} (hq : s.queue = .threadParse buf :: queue) :
    (s.scan buf queue).effort + 1 = s.effort := by
  simp [scan, effort, rest, Task.isSetup, hq]
  omega

theorem post_base (s : Session) (buf : Bytes) : (s.post buf).base = s.base + {buf} := by
  have posted : (s.post buf).queue.filterMap Task.buffer? =
      s.queue.filterMap Task.buffer? ++ [buf] := by simp [post, Task.buffer?]
  have same : (s.post buf).handed = s.handed ∧ (s.post buf).rest = s.rest := ⟨rfl, rfl⟩
  rw [base, base, posted, same.1, same.2, ← Multiset.coe_add, ← Multiset.coe_singleton]
  ac_rfl

theorem scan_handed (s : Session) (buf : Bytes) (queue : List Task) :
    (s.scan buf queue).handed = s.handed ++ [buf] := by simp [scan, handed, Event.buffer?]

theorem scan_base {buf : Bytes} {queue : List Task} (hq : s.queue = .threadParse buf :: queue) :
    (s.scan buf queue).base = s.base := by
  have posted : s.queue.filterMap Task.buffer? = [buf] ++ queue.filterMap Task.buffer? := by
    simp [hq, Task.buffer?]
  have same : (s.scan buf queue).queue = queue ∧ (s.scan buf queue).rest = s.rest := ⟨rfl, rfl⟩
  rw [base, base, posted, scan_handed, same.1, same.2, ← Multiset.coe_add, ← Multiset.coe_add]
  ac_rfl

end Session

namespace Pool
open Session
variable {threads : Nat} {table : Callbacks} {target : Multiset Bytes} {p p' : Pool threads}

def account (p : Pool threads) : Multiset Bytes :=
  p.session.base + total Worker.buffers p.workers

theorem connected_effort (table : Callbacks) (chunks : List Bytes) :
    (connected table (stream chunks)).effort = 3 * chunks.flatten.length + chunks.length + 5 := by
  simp [Session.effort, Task.isSetup, frameEffort, Session.rest, connected, stream_bytes]
  simp [stream]
  omega

/-- Every line is in one place, every callback due for a buffer is made or to come, and
one operation at most is under way. -/
structure Conserved (table : Callbacks) (target : Multiset Bytes) (p : Pool threads) : Prop where
  serving : Serving table p.session
  idle : p.session.frame = .idle
  found : ∀ k, p.workers k ≠ .lost
  load : p.session.load + total Worker.reads p.workers ≤ 1
  going : p.session.wire ≠ [] →
    1 ≤ p.session.setups + p.session.reads + total Worker.reads p.workers
  remaining : (∃ chunks, p.session.wire = stream chunks) ∨
    (p.session.wire = [] ∧ Stream.cut delimiter [] p.session.input = none ∧
      p.session.op = none ∧ total Worker.reads p.workers = 0)
  account : p.account = target
  log : ↑p.log + total Worker.entries p.workers =
    (↑(p.session.handed.flatMap (told table)) : Multiset Entry)

theorem total_start {M : Type*} [AddCommMonoid M] {g : Worker → M}
    (none : g (.inside .idle) = 0) (s : Session) : total g (start threads s).workers = 0 :=
  total_zero fun _ => none

theorem connected_conserved (threads : Nat) (table : Callbacks) (chunks : List Bytes) :
    Conserved table ↑((lines chunks.flatten).map terminated)
      (start threads (connected table (stream chunks))) := by
  have framed := connected_framed table chunks
  have account := congrArg (fun l : List Bytes => (l : Multiset Bytes)) framed.account
  simp only [account_base] at account
  refine ⟨framed.serving, rfl, nofun, ?_, fun _ => Nat.le_add_right_of_le le_rfl,
    .inl ⟨chunks, rfl⟩, ?_, ?_⟩
  · rw [total_start rfl]
    exact le_rfl
  · rw [Pool.account, total_start rfl]
    exact account
  · rw [total_start rfl]
    rfl

theorem Conserved.whole (h : Conserved table target p) : p.session.enter .idle = p.session := by
  rw [enter, ← h.idle]

theorem Conserved.framed (h : Conserved table target p) {f : Frame}
    (mine : f.holdsRead.toNat ≤ total Worker.reads p.workers)
    (has : 1 ≤ p.session.setups + p.session.reads + f.holdsRead.toNat) :
    Framed table (p.session.enter f).account (p.session.enter f) := by
  have load := load_enter h.idle f
  have below := h.load
  have serving := h.serving.enter f
  refine ⟨by omega, serving.fault, serving.alive, serving.stays, serving.callbacks, serving.socket,
    serving.op, serving.setup, serving.reads, ?_, fun _ => ?_, rfl⟩
  · rcases h.remaining with open_ | ⟨hw, hc, hop, none⟩
    · exact .inl open_
    · have zero : f.holdsRead.toNat = 0 := by omega
      exact .inr ⟨hw, hc, hop, Bool.toNat_eq_zero.mp zero⟩
  · have none : p.session.frame.holdsRead.toNat = 0 := by rw [h.idle]; rfl
    simp only [enter, setups, Session.reads] at has ⊢
    omega

theorem Conserved.inside (h : Conserved table target p) {f : Frame}
    (mine : (↑f.buffer?.toList : Multiset Bytes) ≤ total Worker.buffers p.workers) :
    ∀ buf ∈ (p.session.enter f).account, buf ∈ target := by
  intro buf hb
  have mem : buf ∈ ((p.session.enter f).account : Multiset Bytes) := hb
  rw [account_base] at mem
  rw [← h.account]
  exact Multiset.mem_of_le (add_le_add_right mine _) mem

theorem Conserved.outside (h : Conserved table target p) {a : Session.Act} {s : Session}
    (full : ∀ f, table.has f = true) (short : ∀ buf ∈ target, buf.length < 2 ^ 31)
    (hd : a ≠ .dispatch) (hp : a ≠ .proceed) (stay : a.disconnects = false)
    (hs : Session.step a p.session = some s) :
    Conserved table target { p with session := s } ∧ s.effort < p.session.effort ∧
      s.handed = p.session.handed := by
  obtain ⟨-, move⟩ := Session.step_move hs
  obtain ⟨-, -, handed, idle⟩ := move.outside hd
  have same := (idle hp).trans h.idle
  have reading : p.session.op = some .read := by
    cases move with
    | copyCallbacks none => simp [h.serving.callbacks] at none
    | resolved hop | connected hop => simpa [hop] using h.serving.op
    | reset _ torn =>
      rcases h.remaining with ⟨chunks, hw⟩ | ⟨hw, -⟩
      · simp [hw, stream] at torn
      · simp [hw] at torn
    | data hop | eof hop | error hop | complete hop => exact hop
    | disconnect | behind => cases stay
    | freed | task | firstRead | rearm | post => contradiction
  have has : 1 ≤ p.session.reads := reads_of_op reading
  have framed := h.framed (f := .idle) (Nat.zero_le _) (by omega)
  have inside := h.inside (f := .idle) zero_le
  rw [h.whole] at framed inside
  obtain ⟨next, less⟩ := step_framed full (fun buf hb => short buf (inside buf hb)) framed stay hs
  refine ⟨{
    serving := next.serving
    idle := same
    found := h.found
    load := (Nat.add_le_add_right move.load _).trans h.load
    going := fun open_ => Nat.le_add_right_of_le (next.going open_)
    remaining := ?_
    account := ?_
    log := handed ▸ h.log }, less, handed⟩
  · rcases next.remaining with open_ | ⟨hw, hc, hop, -⟩
    · exact .inl open_
    · have load := h.load
      have counted : p.session.reads ≤ p.session.load := by
        rw [Session.load]
        omega
      refine .inr ⟨hw, hc, hop, ?_⟩
      change total Worker.reads p.workers = 0
      omega
  · have kept := congrArg (fun l : List Bytes => (l : Multiset Bytes)) next.account
    simp only [account_base, same, h.idle] at kept
    rw [← h.account, Pool.account, Pool.account, add_right_cancel kept]

/-! A thread does something to the session. -/

section threads
variable {k : Fin threads} {f : Frame} {w : Worker} {s : Session} {log : List Entry}

theorem Conserved.put (h : Conserved table target p) (serving : Serving table s)
    (found : w ≠ .lost)
    (load : (s.enter .idle).load + w.reads ≤ p.session.load + (p.workers k).reads)
    (going : s.wire ≠ [] → 1 ≤ s.setups + (s.enter .idle).reads +
      total Worker.reads (p.put k w s).workers)
    (remaining : (∃ chunks, s.wire = stream chunks) ∨
      (s.wire = [] ∧ Stream.cut delimiter [] s.input = none ∧ s.op = none ∧
        total Worker.reads (p.put k w s).workers = 0))
    (account : s.base + w.buffers = p.session.base + (p.workers k).buffers)
    (called : ↑log + w.entries + (↑(p.session.handed.flatMap (told table)) : Multiset Entry) =
      ↑p.log + (p.workers k).entries + ↑(s.handed.flatMap (told table))) :
    Conserved table target { p.put k w s with log := log } where
  serving := serving.enter .idle
  idle := rfl
  found j := by
    by_cases same : j = k
    · rw [same]
      simpa [Pool.put] using found
    · simpa [Pool.put, same] using h.found j
  load := (total_le load).trans h.load
  going := going
  remaining := remaining
  account := (total_transfer account).trans h.account
  log := by
    have entries := total_update Worker.entries p.workers k w
    apply add_right_cancel
      (b := (p.workers k).entries + ↑(p.session.handed.flatMap (told table)))
    calc ↑log + total Worker.entries (Function.update p.workers k w) +
          ((p.workers k).entries + ↑(p.session.handed.flatMap (told table)))
        = ↑log + (total Worker.entries (Function.update p.workers k w) + (p.workers k).entries) +
          ↑(p.session.handed.flatMap (told table)) := by ac_rfl
      _ = ↑log + w.entries + ↑(p.session.handed.flatMap (told table)) +
          total Worker.entries p.workers := by
        rw [entries]
        ac_rfl
      _ = ↑p.log + total Worker.entries p.workers +
          ((p.workers k).entries + ↑(s.handed.flatMap (told table))) := by
        rw [called]
        ac_rfl
      _ = ↑(s.handed.flatMap (told table)) +
          ((p.workers k).entries + ↑(p.session.handed.flatMap (told table))) := by
        rw [h.log]
        ac_rfl

theorem Conserved.operate (h : Conserved table target p) (hf : (p.workers k).frame = f)
    (has : 1 ≤ p.session.setups + p.session.reads + f.holdsRead.toNat) (found : w ≠ .lost)
    (hw : w.frame = s.frame) (none : w.entries = (p.workers k).entries)
    (framed : Framed table (p.session.enter f).account s)
    (load : s.load ≤ (p.session.enter f).load) (handed : s.handed = p.session.handed) :
    Conserved table target (p.put k w s) := by
  have old := load_enter h.idle f
  have left := s.load_leave
  have before : (p.workers k).reads = f.holdsRead.toNat := by rw [Worker.reads, hf]
  have after : w.reads = s.frame.holdsRead.toNat := by rw [Worker.reads, hw]
  refine h.put framed.serving found (by omega) (fun open_ => ?_) ?_ ?_ ?_
  · have going := framed.going open_
    have mine := le_total Worker.reads (p.put k w s).workers k
    have here : (p.put k w s).workers k = w := Function.update_self ..
    have none : (s.enter .idle).frame.holdsRead.toNat = 0 := rfl
    rw [here] at mine
    simp only [setups, Session.reads, enter] at going none ⊢
    omega
  · rcases framed.remaining with open_ | ⟨hw', hc, hop, idle⟩
    · exact .inl open_
    · have all := total_update Worker.reads p.workers k w
      have below := h.load
      have mine := le_total Worker.reads p.workers k
      have zero : s.frame.holdsRead.toNat = 0 := by rw [idle, Bool.toNat_false]
      have counted : p.session.setups + p.session.reads ≤ p.session.load := Nat.le_add_right _ _
      refine .inr ⟨hw', hc, hop, ?_⟩
      simp only [Pool.put]
      omega
  · have same := congrArg (fun l : List Bytes => (l : Multiset Bytes)) framed.account
    simp only [account_base] at same
    rw [Worker.buffers, Worker.buffers, hf, hw]
    exact same
  · rw [handed, none]

theorem Conserved.carry (h : Conserved table target p) (serving : Serving table s)
    (found : w ≠ .lost) (none : w.reads = (p.workers k).reads)
    (counts : s.setups = p.session.setups ∧ s.reads = p.session.reads ∧ s.load = p.session.load)
    (idle : s.frame = .idle) (wire : s.wire = p.session.wire) (input : s.input = p.session.input)
    (op : s.op = p.session.op)
    (account : s.base + w.buffers = p.session.base + (p.workers k).buffers)
    (called : ↑log + w.entries + (↑(p.session.handed.flatMap (told table)) : Multiset Entry) =
      ↑p.log + (p.workers k).entries + ↑(s.handed.flatMap (told table))) :
    Conserved table target { p.put k w s with log := log } := by
  have same : s.enter .idle = s := by rw [enter, ← idle]
  have reads : total Worker.reads (p.put k w s).workers = total Worker.reads p.workers :=
    total_keep none
  obtain ⟨setups, pending, load⟩ := counts
  refine h.put serving found ?_ ?_ ?_ account called
  · rw [same, load, none]
  · rw [same, setups, pending, reads, wire]
    exact h.going
  · rw [reads, wire, input, op]
    exact h.remaining

theorem Conserved.post (h : Conserved table target p) {buf : Bytes}
    (hw : p.workers k = .inside (.posting buf)) :
    Conserved table target (p.put k (.inside .idle) (p.session.post buf)) := by
  refine h.carry (h.serving.post buf) (by simp) (by rw [hw]; rfl) (post_counts _ buf) h.idle rfl
    rfl rfl ?_ (by rw [hw]; rfl)
  rw [post_base, hw]
  exact add_zero _

theorem Conserved.scan (h : Conserved table target p) {buf : Bytes} {queue : List Task}
    (hw : p.workers k = .inside .idle) (hq : p.session.queue = .threadParse buf :: queue)
    (found : CqIrc.threadParse table buf ≠ .lost) :
    Conserved table target
      (p.put k (CqIrc.threadParse table buf) (p.session.scan buf queue)) := by
  have frame := threadParse_frame table buf
  refine h.carry (h.serving.scan hq) found ?_ (scan_counts hq) h.idle rfl rfl rfl ?_ ?_
  · rw [Worker.reads, frame, hw]
    rfl
  · rw [scan_base hq, Worker.buffers, frame, hw]
    rfl
  · rw [scan_handed, hw]
    simp only [Worker.entries, Worker.left, told, List.flatMap_append, List.flatMap_cons,
      List.flatMap_nil, List.append_nil, ← Multiset.coe_add, Multiset.coe_nil, add_zero]
    ac_rfl

theorem Conserved.call (h : Conserved table target p) {e : Entry} {rest : List Entry}
    (hw : p.workers k = .parsing (e :: rest)) :
    Conserved table target { p.put k (.parsing rest) p.session with log := p.log ++ [e] } := by
  refine h.carry h.serving (by simp) (by rw [hw]; rfl) ⟨rfl, rfl, rfl⟩ h.idle rfl rfl rfl
    (by rw [hw]; rfl) ?_
  rw [hw]
  simp only [Worker.entries, Worker.left, ← Multiset.coe_add, ← Multiset.singleton_add,
    ← Multiset.cons_coe, Multiset.coe_nil, add_zero]
  ac_rfl

theorem Conserved.scanned (h : Conserved table target p) (hw : p.workers k = .parsing []) :
    Conserved table target (p.put k (.inside .idle) p.session) := by
  refine h.carry h.serving (by simp) ?_ ⟨rfl, rfl, rfl⟩ h.idle rfl rfl rfl ?_ ?_ <;> rw [hw] <;> rfl

end threads

def cost (table : Callbacks) (buf : Bytes) : Nat := (told table buf).length + 1

def costs (table : Callbacks) (bufs : Multiset Bytes) : Nat := (bufs.map (cost table)).sum

theorem costs_add (bufs others : Multiset Bytes) :
    costs table (bufs + others) = costs table bufs + costs table others := by
  simp [costs]

/-- Bounds the steps still to come. -/
def effort (table : Callbacks) (target : Multiset Bytes) (p : Pool threads) : Nat :=
  p.session.effort + total Worker.effort p.workers +
    (costs table target - costs table ↑p.session.handed)

theorem Conserved.handed_le (h : Conserved table target p) : ↑p.session.handed ≤ target := by
  rw [← h.account, Pool.account, base, add_assoc]
  exact Multiset.le_add_right _ _

theorem Conserved.log_le (h : Conserved table target p) :
    (↑p.log : Multiset Entry) ≤ target.bind fun buf => ↑(told table buf) := by
  obtain ⟨left, split⟩ := Multiset.le_iff_exists_add.mp h.handed_le
  rw [split, Multiset.add_bind, Multiset.coe_bind, ← h.log, add_assoc]
  exact Multiset.le_add_right _ _

theorem fault_of_step {k : Fin threads} {a : Act threads} (h : Conserved table target p)
    (ha : a = .proceed k ∨ a = .advance k) (hs : Pool.step a p = some p') :
    p'.session.fault = none := by
  rcases ha with rfl | rfl
  · simp only [Pool.step, Pool.proceed] at hs
    split at hs
    · obtain ⟨s, next, rfl⟩ := Option.map_eq_some_iff.mp hs
      have fault : s.fault = none := by
        cases (Session.step_move next).2 with
        | firstRead | rearm =>
          unfold asyncReadUntil
          split <;> exact h.serving.fault
        | post => exact h.serving.fault
      rw [if_pos h.serving.alive]
      exact fault
    · cases hs
  · obtain ⟨-, hs⟩ := Option.ite_none_right_eq_some.mp hs
    unfold Pool.advance at hs
    split at hs <;> cases hs
    · exact h.serving.fault
    · rw [if_pos h.serving.alive]
      exact h.serving.fault
    · exact h.serving.fault

section efforts
variable {k : Fin threads} {f : Frame} {w : Worker} {s : Session} {log : List Entry}

theorem effort_put (handed : s.handed = p.session.handed)
    (less : (s.enter .idle).effort + w.effort < p.session.effort + (p.workers k).effort) :
    effort table target { p.put k w s with log := log } < p.effort table target := by
  have all := total_lt (w := p.workers) (a := w) less
  have same : ({ p.put k w s with log := log } : Pool threads).session.handed = p.session.handed :=
    handed
  rw [Pool.effort, Pool.effort, same]
  exact Nat.add_lt_add_right all _

theorem threadParse_effort {buf : Bytes} (found : CqIrc.threadParse table buf ≠ .lost) :
    (CqIrc.threadParse table buf).effort = cost table buf := by
  rw [cost, told]
  cases hw : CqIrc.threadParse table buf with
  | inside frame =>
    unfold CqIrc.threadParse at hw
    split at hw
    · split at hw <;> cases hw
    · cases hw
  | parsing left => rfl
  | lost => exact absurd hw found

theorem Conserved.turn (full : ∀ f, table.has f = true)
    (short : ∀ buf ∈ target, buf.length < 2 ^ 31) (h : Conserved table target p)
    {a : Session.Act} (hw : p.workers k = .inside f)
    (has : 1 ≤ p.session.setups + p.session.reads + f.holdsRead.toNat)
    (stay : a.disconnects = false)
    (hs : Session.step a (p.session.enter f) = some s) (handed : s.handed = p.session.handed) :
    Conserved table target (p.put k (.inside s.frame) s) ∧
      (p.put k (.inside s.frame) s).effort table target < p.effort table target := by
  have hf : (p.workers k).frame = f := by rw [hw]; rfl
  have reads := le_total Worker.reads p.workers k
  have buffers := le_total Worker.buffers p.workers k
  rw [Worker.reads, hf] at reads
  rw [Worker.buffers, hf] at buffers
  have inside := h.inside buffers
  obtain ⟨framed, less⟩ := step_framed full (fun buf hb => short buf (inside buf hb))
    (h.framed reads has) stay hs
  have load := (Session.step_move hs).2.load
  refine ⟨h.operate hf has (by simp) rfl (by rw [hw]; rfl) framed load handed, ?_⟩
  refine effort_put handed ?_
  have before := effort_enter h.idle f
  have after := s.effort_leave
  rw [hw]
  simp only [Worker.effort]
  omega

theorem Conserved.takeScan (sound : ∀ buf ∈ target, CqIrc.threadParse table buf ≠ .lost)
    (h : Conserved table target p) {buf : Bytes} {queue : List Task}
    (hw : p.workers k = .inside .idle) (hq : p.session.queue = .threadParse buf :: queue) :
    Conserved table target (p.put k (CqIrc.threadParse table buf) (p.session.scan buf queue)) ∧
      (p.put k (CqIrc.threadParse table buf) (p.session.scan buf queue)).effort table target <
        p.effort table target := by
  have sent : buf ∈ target := by
    rw [← h.account, Pool.account, base, hq]
    simp [Task.buffer?]
  have next := h.scan hw hq (sound buf sent)
  refine ⟨next, ?_⟩
  obtain ⟨left, split⟩ := Multiset.le_iff_exists_add.mp next.handed_le
  have whole := congrArg (costs table) split
  have handed : (p.put k (CqIrc.threadParse table buf) (p.session.scan buf queue)).session.handed =
      p.session.handed ++ [buf] := scan_handed p.session buf queue
  have one : costs table ↑[buf] = cost table buf := by simp [costs]
  rw [handed, ← Multiset.coe_add, costs_add, costs_add, one] at whole
  have shorter := scan_effort hq
  have all := total_update Worker.effort p.workers k (CqIrc.threadParse table buf)
  rw [hw, threadParse_effort (sound buf sent)] at all
  rw [Pool.effort, Pool.effort, handed, ← Multiset.coe_add, costs_add, one]
  have same : (p.put k (CqIrc.threadParse table buf) (p.session.scan buf queue)).session =
      p.session.scan buf queue := by
    rw [Pool.put, ← (show (p.session.scan buf queue).frame = .idle from h.idle)]
  have free : (Worker.inside .idle).effort = 0 := rfl
  rw [same]
  simp only [Pool.put]
  omega

theorem Conserved.take (full : ∀ f, table.has f = true)
    (short : ∀ buf ∈ target, buf.length < 2 ^ 31)
    (sound : ∀ buf ∈ target, CqIrc.threadParse table buf ≠ .lost)
    (h : Conserved table target p) {task : Task} {queue : List Task}
    (hw : p.workers k = .inside .idle) (hq : p.session.queue = task :: queue)
    (hs : Session.step .dispatch p.session = some s) :
    Conserved table target (p.put k (entered task s) s) ∧
      (p.put k (entered task s) s).effort table target < p.effort table target := by
  have move := (Session.step_move hs).2
  have ran : s = { p.session with queue := queue }.runTask task := by
    cases move with
    | freed _ _ dead => simp [h.serving.alive] at dead
    | task _ same =>
      obtain ⟨rfl, rfl⟩ := List.cons.inj (hq.symm.trans same)
      rfl
  have operation (has : 1 ≤ p.session.setups + p.session.reads) (other : task.buffer? = none) :
      Conserved table target (p.put k (.inside s.frame) s) ∧
        (p.put k (.inside s.frame) s).effort table target < p.effort table target := by
    have handed : s.handed = p.session.handed := by rw [ran, runTask_handed _ other]; rfl
    exact h.turn full short hw has rfl (h.whole.symm ▸ hs) handed
  cases task with
  | threadParse buf =>
    have scanned : s = p.session.scan buf queue := by
      rw [ran]
      simp [runTask, Session.threadParse, h.serving.callbacks, Session.scan]
    have called : entered (.threadParse buf) s = CqIrc.threadParse table buf := by
      have same : s.callbacks = some table := by rw [scanned]; exact h.serving.callbacks
      simp only [entered, same]
    rw [called, scanned]
    exact h.takeScan sound hw hq
  | onResolve error => exact operation (Nat.le_add_right_of_le (setups_of_head hq rfl)) rfl
  | onConnect error => exact operation (Nat.le_add_right_of_le (setups_of_head hq rfl)) rfl
  | onRead error n =>
    exact operation (Nat.le_add_left_of_le (reads_of_task error n (by simp [hq]))) rfl

theorem Conserved.proceed (full : ∀ f, table.has f = true)
    (short : ∀ buf ∈ target, buf.length < 2 ^ 31) (h : Conserved table target p)
    (hw : p.workers k = .inside f)
    (hs : Session.step .proceed { p.session with frame := f } = some s) :
    Conserved table target (p.put k (.inside s.frame) s) ∧
      (p.put k (.inside s.frame) s).effort table target < p.effort table target := by
  have handed : s.handed = p.session.handed := ((Session.step_move hs).2.outside (by simp)).2.2.1
  cases f with
  | idle => simp [Session.step, act, Session.proceed] at hs
  | onConnect | onRead => exact h.turn full short hw (by simp [Frame.holdsRead]) rfl hs handed
  | posting buf =>
    have posted : p.put k (.inside s.frame) s = p.put k (.inside .idle) (p.session.post buf) := by
      cases (Session.step_move hs).2 with
      | post same => cases same; rfl
      | firstRead other | rearm other => cases other
    rw [posted]
    refine ⟨h.post hw, effort_put rfl ?_⟩
    have same : (p.session.post buf).enter .idle = p.session.post buf := by
      rw [enter, ← (show (p.session.post buf).frame = .idle from h.idle)]
    rw [same, post_effort, hw]
    exact Nat.lt_succ_self _


end efforts

/-- Every step short of a disconnect keeps what is conserved and uses up effort. -/
theorem Conserved.step (full : ∀ f, table.has f = true)
    (short : ∀ buf ∈ target, buf.length < 2 ^ 31)
    (sound : ∀ buf ∈ target, CqIrc.threadParse table buf ≠ .lost)
    (h : Conserved table target p) {a : Act threads} (stay : a.disconnects = false)
    (hs : Pool.step a p = some p') :
    Conserved table target p' ∧ p'.effort table target < p.effort table target := by
  obtain ⟨-, move⟩ := step_move hs
  cases move with
  | @outside a s hd hp outer =>
    obtain ⟨next, less, handed⟩ := h.outside full short hd hp stay outer
    refine ⟨next, ?_⟩
    simp only [Pool.effort, handed]
    omega
  | @take k task queue s hw hq taken =>
    obtain ⟨kept, less⟩ := h.take full short sound hw hq taken
    exact ⟨kept, less⟩
  | @proceed k f s hw next => exact h.proceed full short hw next
  | @call k e rest hw =>
    exact ⟨h.call hw, effort_put rfl (by rw [h.whole, hw]; simp [Worker.effort])⟩
  | @scanned k hw =>
    exact ⟨h.scanned hw, effort_put rfl (by rw [h.whole, hw]; exact Nat.lt_succ_self _)⟩
  | @freed k _ ha =>
    have none := fault_of_step h ha hs
    cases none

theorem Conserved.free (h : Conserved table target p) {k : Fin threads}
    (proceed : Pool.step (.proceed k) p = none) (advance : Pool.step (.advance k) p = none) :
    p.workers k = .inside .idle := by
  cases hw : p.workers k with
  | inside f =>
    cases f with
    | idle => rfl
    | onConnect | onRead | posting =>
      simp [Pool.step, Pool.proceed, hw, Session.step, h.serving.fault, act, Session.proceed]
        at proceed
  | parsing left =>
    rcases left with _ | ⟨_ | _, left⟩ <;>
      simp [Pool.step, Pool.advance, hw, h.serving.fault] at advance
  | lost => exact absurd hw (h.found k)

/-- Where nothing but a disconnect can happen, or what is not serialised, everything has been
brought to the scanner and all callbacks have returned. -/
theorem Conserved.stuck (h : Conserved table target p) (pos : 0 < threads)
    (stuck : ∀ a, p.Serialised a → a.disconnects = false → Pool.step a p = none) :
    (↑p.session.handed : Multiset Bytes) = target ∧
      (↑p.log : Multiset Entry) = ↑(p.session.handed.flatMap (told table)) := by
  have free (k : Fin threads) : p.workers k = .inside .idle :=
    h.free (stuck (.proceed k) trivial rfl) (stuck (.advance k) trivial rfl)
  have none {M : Type} [AddCommMonoid M] {g : Worker → M} (rest : g (.inside .idle) = 0) :
      total g p.workers = 0 := total_zero fun k => by rw [free k, rest]
  have no_act {a : Session.Act} (hd : a ≠ .dispatch) (hp : a ≠ .proceed)
      (ha : a.disconnects = false) :
      p.session.act a = .none := by
    simpa [Pool.step, hd, hp, Session.step, h.serving.fault] using
      stuck (.outside a) trivial ha
  have hq : p.session.queue = [] := by
    cases hq : p.session.queue with
    | nil => rfl
    | cons task queue =>
      have taken := stuck (.take ⟨0, pos⟩)
        ⟨fun _ k => by rw [free k]; rfl, fun _ k => by rw [free k]; rfl⟩ rfl
      simp [Pool.step, Pool.take, free, hq, Session.step, h.serving.fault, act, dispatch, h.idle]
        at taken
  have hop : p.session.op = .none := by
    refine h.serving.op.resolve_right fun hop => ?_
    have no_line := no_act (a := .complete) (by simp) (by simp) rfl
    have no_chunk := no_act (a := .receive) (by simp) (by simp) rfl
    simp only [act, hop, if_true, Option.map_eq_none_iff] at no_line
    rcases h.remaining with ⟨chunks, hw⟩ | ⟨-, -, gone, -⟩
    · cases chunks <;> simp [act, hop, no_line, receive, hw, stream] at no_chunk
    · cases hop.symm.trans gone
  have no_more : lines p.session.rest = [] := by
    rcases h.remaining with ⟨chunks, hw⟩ | ⟨hw, hc, -⟩
    · have going := h.going (hw ▸ stream_ne_nil chunks)
      rw [none rfl] at going
      simp [setups, Session.reads, hop, hq, h.idle, Frame.holdsRead] at going
    · simp [lines, Session.rest, hw, Stream.pieces_of_no_cut hc]
  constructor
  · rw [← h.account, Pool.account, none rfl, base, hq, no_more]
    simp
  · have log := h.log
    rwa [none rfl, add_zero] at log

end Pool
end CqIrc
