import CqIrc.ScanRuns

/-! The bytes of a line alone. `walk` reads a line byte by byte with seven modes, no
patterns and no stack; it counts the middles and finds where the line ends for the
scanner. Every turn of the scanner keeps what is left to walk. -/

namespace CqIrc
open Flex Flex.Pattern

inductive Mode where
  | initial
  | pfx
  | prefixOpt
  | params
  | param
  | trailing
  | text
  deriving DecidableEq, Repr

def startsCommand : Bytes → Bool
  | b :: c :: d :: _ => alpha b || (digit b && digit c && digit d)
  | b :: _ => alpha b
  | [] => false

def startsCrlf : Bytes → Bool
  | b :: c :: _ => (b == cr && c == lf) || (b == lf && c == cr)
  | _ => false

namespace Mode

/-- Behind a word: a space opens a parameter, a line end closes the line. -/
def separator (b : Byte) (v : Bytes) : Option Mode :=
  if b = sp then some param else if startsCrlf (b :: v) then none else some params

def next : Mode → Byte → Bytes → Option Mode
  | initial, b, v =>
    if b = colon then some pfx else if startsCommand (b :: v) then some params else some initial
  | pfx, b, _ => if alnum b || special b then some prefixOpt else some pfx
  | prefixOpt, b, _ => if b = sp then some initial else some prefixOpt
  | params, b, v => separator b v
  | param, b, _ =>
    if b = colon then some trailing else if middleStart b then some params else some param
  | trailing, b, _ => if trailingChar b then some text else some trailing
  | text, b, v => if trailingChar b then some text else separator b v

def counts (q : Mode) (b : Byte) : Nat :=
  if q = param ∧ b ≠ colon ∧ middleStart b = true then 1 else 0

end Mode

/-- The middles of a line and its remainder from the line end on. -/
def walk : Mode → Bytes → Nat × Option Bytes
  | _, [] => (0, none)
  | q, b :: v =>
    match q.next b v with
    | none => (0, some (b :: v))
    | some q' => (q.counts b + (walk q' v).1, (walk q' v).2)

def middleCount (line : Bytes) : Nat := (walk .initial line).1

def Phase.mode : Phase → Mode
  | head => .initial
  | pfx => .pfx
  | prefixOpt => .prefixOpt
  | params _ => .params
  | param _ => .param
  | trailing _ => .trailing

theorem walk_some {q q' : Mode} {b : Byte} {v : Bytes} (h : q.next b v = some q') :
    walk q (b :: v) = (q.counts b + (walk q' v).1, (walk q' v).2) := by
  rw [walk, h]

/-- Reading `w` in front of `v` takes a mode to another and adds this much to a count. -/
inductive Path (c : Mode → Byte → Bytes → Nat) : Mode → Bytes → Bytes → Mode → Nat → Prop where
  | refl {q v} : Path c q [] v q 0
  | step {q q' p b w v n} : q.next b (w ++ v) = some q' → Path c q' w v p n →
      Path c q (b :: w) v p (c q b (w ++ v) + n)
  /-- A text that cannot go on reads like the parameters. -/
  | close {w v p n} : Stops trailingChar (w ++ v) → Path c .params w v p n →
      Path c .text w v p n

/-- The count adds the weight of a token's rule where the token begins. -/
structure Weighs (c : Mode → Byte → Bytes → Nat) (weight : Rule → Nat) : Prop where
  head : ∀ b v, c .initial b v = 0
  source : ∀ b v, c .pfx b v = if alnum b || special b then weight .source else 0
  user : ∀ v, c .prefixOpt (UInt8.ofNat '!'.toNat) (quotedUser.tail ++ v) = weight .user
  host : ∀ v, c .prefixOpt (UInt8.ofNat '@'.toNat) (quotedHost.tail ++ v) = weight .host
  unquoted : ∀ b v, ¬ quotedUser <+: b :: v → ¬ quotedHost <+: b :: v → c .prefixOpt b v = 0
  params : ∀ b v, c .params b v = 0
  middle : ∀ b v, c .param b v = if b ≠ colon ∧ middleStart b = true then weight .middle else 0
  trailing : ∀ b v, c .trailing b v = if trailingChar b then weight .trailing else 0
  text : ∀ b v, c .text b v = 0

section paths
variable {c : Mode → Byte → Bytes → Nat} {q q' p : Mode} {b : Byte} {w v : Bytes} {n : Nat}

theorem Path.pass (h : q.next b (w ++ v) = some q') (zero : c q b (w ++ v) = 0)
    (rest : Path c q' w v p n) : Path c q (b :: w) v p n := by
  have path := Path.step h rest
  rwa [zero, Nat.zero_add] at path

theorem Path.single (h : q.next b v = some q') (zero : c q b v = 0) : Path c q [b] v q' 0 :=
  .pass h zero .refl

theorem Path.first (h : q.next b (w ++ v) = some q') (rest : Path c q' w v p 0) :
    Path c q (b :: w) v p (c q b (w ++ v)) := .step h rest

theorem Path.all (h : ∀ b ∈ w, ∀ u, q.next b u = some q ∧ c q b u = 0)
    (rest : Path c q [] v p n) : Path c q w v p n := by
  induction w with
  | nil => exact rest
  | cons b w ih =>
    obtain ⟨hb, hw⟩ := List.forall_mem_cons.mp h
    obtain ⟨next, zero⟩ := hb (w ++ v)
    exact .pass next zero (ih hw)

end paths

theorem startsCrlf_iff {u : Bytes} :
    startsCrlf u = true ↔ ∃ w v, u = w ++ v ∧ w ∈ crlf.language := by
  constructor
  · intro h
    rcases u with _ | ⟨b, _ | ⟨c, v⟩⟩
    · simp [startsCrlf] at h
    · simp [startsCrlf] at h
    · refine ⟨[b, c], v, rfl, mem_crlf.mpr ?_⟩
      simpa [startsCrlf] using h
  · rintro ⟨w, v, rfl, hw⟩
    rcases mem_crlf.mp hw with rfl | rfl <;> rfl

theorem startsCommand_of_mem {w v : Bytes} (h : w ∈ command.language) :
    startsCommand (w ++ v) = true := by
  rcases mem_command.mp h with ⟨ne, hw⟩ | ⟨len, hw⟩
  · obtain ⟨b, t, rfl⟩ := List.exists_cons_of_ne_nil ne
    have hb := hw b (by simp)
    rcases ht : t ++ v with _ | ⟨c, _ | ⟨d, u⟩⟩ <;> simp [startsCommand, ht, hb]
  · rcases w with _ | ⟨b, _ | ⟨c, _ | ⟨d, _ | ⟨e, t⟩⟩⟩⟩
    all_goals simp at len
    simp [startsCommand, hw]

theorem exists_command_of_starts {u : Bytes} (h : startsCommand u = true) :
    ∃ w v, u = w ++ v ∧ w ∈ command.language := by
  have letter (b : Byte) (v : Bytes) (hb : alpha b = true) :
      ∃ w x, b :: v = w ++ x ∧ w ∈ command.language :=
    ⟨[b], v, rfl, mem_command.mpr (.inl ⟨by simp, by simpa using hb⟩)⟩
  rcases u with _ | ⟨b, _ | ⟨c, _ | ⟨d, v⟩⟩⟩
  · simp [startsCommand] at h
  · exact letter b [] h
  · exact letter b [c] h
  · rcases Bool.or_eq_true _ _ ▸ h with hb | hd
    · exact letter b _ hb
    · refine ⟨[b, c, d], v, rfl, mem_command.mpr (.inr ⟨rfl, ?_⟩)⟩
      simp only [Bool.and_eq_true] at hd
      simp [hd]

theorem not_startsCommand {b : Byte} {v : Bytes}
    (h : ∀ w u, b :: v = w ++ u → ¬ CommandWord w u) : startsCommand (b :: v) = false := by
  by_contra hs
  obtain ⟨w, u, e, hw⟩ := exists_command_of_starts (by simpa using hs)
  exact not_command_of_no_word h e hw

theorem not_startsCrlf {b : Byte} {v : Bytes}
    (h : ∀ w u, b :: v = w ++ u → w ∉ crlf.language) : startsCrlf (b :: v) = false := by
  by_contra hc
  obtain ⟨w, u, e, hw⟩ := startsCrlf_iff.mp (by simpa using hc)
  exact h w u e hw

def plain (b : Byte) : Prop := b ≠ sp ∧ b ≠ cr ∧ b ≠ lf

theorem next_params_plain {b : Byte} (h : plain b) (v : Bytes) :
    Mode.next .params b v = some .params := by
  have no : startsCrlf (b :: v) = false := by
    cases v <;> simp [startsCrlf, h.2.1, h.2.2]
  simp [Mode.next, Mode.separator, h.1, no]

theorem plain_of_alnum {b : Byte} (h : alnum b = true) : plain b := by
  refine ⟨?_, ?_, ?_⟩ <;> grind [alnum, alpha, digit, sp, cr, lf]

theorem plain_of_middleChar {b : Byte} (h : middleChar b = true) : plain b := by
  have h := (negated_iff.mp h).2
  refine ⟨?_, ?_, ?_⟩ <;> rintro rfl <;> exact h (by decide)

theorem next_text {b : Byte} {v : Bytes} (h : Stops trailingChar (b :: v)) :
    Mode.next .text b v = Mode.next .params b v := by
  simp [Mode.next, h b v rfl]

theorem walk_text {v : Bytes} (h : Stops trailingChar v) : walk .text v = walk .params v := by
  cases v with
  | nil => rfl
  | cons b v =>
    rw [walk, walk, next_text h]
    rfl

theorem Skip.next {p : Phase} {b : Byte} {v : Bytes} (h : Skip p b v) :
    p.mode.next b v = some p.mode := by
  cases h with
  | head hc h => simp [Phase.mode, Mode.next, hc, not_startsCommand h]
  | pfx ha hs => simp [Phase.mode, Mode.next, ha, hs]
  | prefixOpt hs _ _ => simp [Phase.mode, Mode.next, hs]
  | params hs h => simp [Phase.mode, Mode.next, Mode.separator, hs, not_startsCrlf h]
  | param hc hm => simp [Phase.mode, Mode.next, hc, hm]
  | trailing ht => simp [Phase.mode, Mode.next, ht]

def Scan.total (s : Scan) : Nat × Option Bytes :=
  (s.message.params.length.toNat + (walk s.phase.mode s.input).1, (walk s.phase.mode s.input).2)

theorem next_source {b : Byte} {t : Bytes} (h : b :: t ∈ source.language) (u : Bytes) :
    Mode.next .pfx b u = some .prefixOpt := by
  obtain ⟨c, x, e, hc⟩ := source_head h
  obtain ⟨rfl, -⟩ := List.cons.inj e
  rcases hc with hc | hc <;> simp [Mode.next, hc]

theorem next_prefixOpt {b : Byte} (h : b ≠ sp) (u : Bytes) :
    Mode.next .prefixOpt b u = some .prefixOpt := by
  simp [Mode.next, h]

theorem not_quoted {b : Byte} (hu : b ≠ UInt8.ofNat '!'.toNat) (hh : b ≠ UInt8.ofNat '@'.toNat)
    (v : Bytes) : ¬ quotedUser <+: b :: v ∧ ¬ quotedHost <+: b :: v := by
  constructor
  · exact fun h => hu (List.cons_prefix_cons.mp h).1.symm
  · exact fun h => hh (List.cons_prefix_cons.mp h).1.symm

theorem CommandWord.next {b : Byte} {t v : Bytes} (h : CommandWord (b :: t) v) :
    Mode.next .initial b (t ++ v) = some .params ∧ ∀ c ∈ t, plain c := by
  have letters := alnum_of_command h.mem
  have no_colon : b ≠ colon := by
    rintro rfl
    exact absurd (letters colon (by simp)) (by decide)
  have starts := startsCommand_of_mem (v := v) h.mem
  refine ⟨?_, fun c hc => plain_of_alnum (letters c (by simp [hc]))⟩
  simpa [Mode.next, no_colon] using starts

theorem next_middle {b : Byte} (h : middleStart b = true) (u : Bytes) :
    b ≠ colon ∧ Mode.next .param b u = some .params := by
  have no_colon : b ≠ colon := by
    rintro rfl
    exact absurd h (by decide)
  exact ⟨no_colon, by simp [Mode.next, no_colon, h]⟩

theorem next_trailing {b : Byte} (h : trailingChar b = true) (u : Bytes) :
    Mode.next .trailing b u = some .text ∧ Mode.next .text b u = some .text := by
  simp [Mode.next, h]

/-! The path of each token, for any count that weighs tokens where they begin. -/

namespace Weighs
variable {c : Mode → Byte → Bytes → Nat} {weight : Rule → Nat} (h : Weighs c weight)
variable {b : Byte} {t w v : Bytes}
include h

theorem path_skip {p : Phase} (dropped : Skip p b v) : Path c p.mode [b] v p.mode 0 := by
  refine .single dropped.next ?_
  cases dropped with
  | head => exact h.head b v
  | pfx ha hs => simp [Phase.mode, h.source, ha, hs]
  | prefixOpt _ hu hh => exact h.unquoted b v hu hh
  | params => exact h.params b v
  | param _ hm => simp [Phase.mode, h.middle, hm]
  | trailing ht => simp [Phase.mode, h.trailing, ht]

theorem path_plain (letters : ∀ b ∈ w, plain b) : Path c .params w v .params 0 :=
  .all (fun b hb u => ⟨next_params_plain (letters b hb) u, h.params b u⟩) .refl

theorem path_word (hw : CommandWord w v) : Path c .initial w v .params 0 := by
  obtain ⟨b, t, rfl⟩ := List.exists_cons_of_ne_nil hw.ne_nil
  obtain ⟨first, rest⟩ := hw.next
  exact .pass first (h.head b _) (h.path_plain rest)

theorem path_options (letters : ∀ b ∈ w, b ≠ sp ∧ b ≠ UInt8.ofNat '!'.toNat ∧
    b ≠ UInt8.ofNat '@'.toNat) : Path c .prefixOpt w v .prefixOpt 0 := by
  refine .all (fun b hb u => ?_) .refl
  obtain ⟨no_space, no_user, no_host⟩ := letters b hb
  obtain ⟨hu, hh⟩ := not_quoted no_user no_host u
  exact ⟨next_prefixOpt no_space u, h.unquoted b u hu hh⟩

theorem path_source (hw : w ∈ CqIrc.source.language) :
    Path c .pfx w v .prefixOpt (weight .source) := by
  obtain ⟨b, t, rfl, hb⟩ := source_head hw
  have letters := source_within.mem hw
  have starts : (alnum b || special b) = true := by simpa using hb
  have path := Path.first (v := v) (next_source hw _)
    (h.path_options fun c hc => (letters c (List.mem_cons_of_mem b hc)).2)
  rwa [h.source, if_pos starts] at path

theorem path_quoted (hb : b ≠ sp) (letters : t.all (fun c => c != sp &&
    c != UInt8.ofNat '!'.toNat && c != UInt8.ofNat '@'.toNat) = true) :
    Path c .prefixOpt (b :: t) v .prefixOpt (c .prefixOpt b (t ++ v)) := by
  refine .first (next_prefixOpt hb _) (h.path_options fun c hc => ?_)
  simpa [and_assoc] using List.all_eq_true.mp letters c hc

theorem path_user : Path c .prefixOpt quotedUser v .prefixOpt (weight .user) :=
  h.user v ▸ h.path_quoted (b := UInt8.ofNat '!'.toNat) (by decide) (by decide)

theorem path_host : Path c .prefixOpt quotedHost v .prefixOpt (weight .host) :=
  h.host v ▸ h.path_quoted (b := UInt8.ofNat '@'.toNat) (by decide) (by decide)

theorem path_middle (hw : w ∈ CqIrc.middle.language) :
    Path c .param w v .params (weight .middle) := by
  obtain ⟨b, t, rfl, hb, ht⟩ := mem_middle.mp hw
  obtain ⟨no_colon, first⟩ := next_middle hb (t ++ v)
  have path := Path.first first (h.path_plain fun c hc => plain_of_middleChar (ht c hc))
  rwa [h.middle, if_pos ⟨no_colon, hb⟩] at path

theorem path_trailing (ne : w ≠ []) (hw : ∀ b ∈ w, trailingChar b = true)
    (stop : Stops trailingChar v) : Path c .trailing w v .params (weight .trailing) := by
  obtain ⟨b, t, rfl⟩ := List.exists_cons_of_ne_nil ne
  obtain ⟨hb, ht⟩ := List.forall_mem_cons.mp hw
  have path := Path.first (next_trailing hb _).1 (.all (fun c hc u =>
    ⟨(next_trailing (ht c hc) u).2, h.text c u⟩) (.close stop .refl))
  rwa [h.trailing, if_pos hb] at path

end Weighs

def Mode.middles (q : Mode) (b : Byte) (_ : Bytes) : Nat := q.counts b

def Rule.middles : Rule → Nat
  | .middle => 1
  | _ => 0

theorem weighs_middles : Weighs Mode.middles Rule.middles := by
  constructor <;> simp [Mode.middles, Mode.counts, Rule.middles]

theorem walk_path {q p : Mode} {w v : Bytes} {n : Nat} (h : Path Mode.middles q w v p n) :
    walk q (w ++ v) = (n + (walk p v).1, (walk p v).2) := by
  induction h with
  | refl => simp
  | step next _ ih =>
    rw [List.cons_append, walk_some next, ih, Nat.add_assoc]
    rfl
  | close stop _ ih => rw [walk_text stop, ih]

theorem walk_middle {w v : Bytes} (h : w ∈ middle.language) :
    walk .param (w ++ v) = (1 + (walk .params v).1, (walk .params v).2) :=
  walk_path (weighs_middles.path_middle h)

theorem walk_crlf {w v : Bytes} (h : w ∈ crlf.language) :
    walk .params (w ++ v) = (0, some (w ++ v)) := by
  rcases mem_crlf.mp h with rfl | rfl <;> rfl

/-- What a turn reads: bytes with columns, along a path past the middles that it stores. -/
theorem Turn.path {cb : Callbacks} {g : Bool} {s s' : Scan} (h : Turn cb g s (.next s')) :
    ∃ w n, s.input = w ++ s'.input ∧ (∀ b ∈ w, inTable b = true) ∧
      Path Mode.middles s.phase.mode w s'.input s'.phase.mode n ∧
      s'.message.params.length.toNat = s.message.params.length.toNat + n := by
  have columns {w : Bytes} (all : w.all inTable = true) : ∀ b ∈ w, inTable b = true :=
    List.all_eq_true.mp all
  cases h with
  | skip hb hs => exact ⟨_, 0, rfl, by simpa using hb, weighs_middles.path_skip hs, rfl⟩
  | enterPrefix =>
    exact ⟨[CqIrc.colon], 0, rfl, columns (by decide), .single (q := .initial) rfl rfl, rfl⟩
  | word h _ =>
    exact ⟨_, 0, rfl, command_inTable h.mem, weighs_middles.path_word h, rfl⟩
  | source h _ =>
    exact ⟨_, 0, rfl, fun b hb => (source_within.mem h b hb).1,
      weighs_middles.path_source h, rfl⟩
  | user => exact ⟨_, 0, rfl, columns (by decide), weighs_middles.path_user, rfl⟩
  | host => exact ⟨_, 0, rfl, columns (by decide), weighs_middles.path_host, rfl⟩
  | leavePrefix => exact ⟨[sp], 0, rfl, columns (by decide), .single (q := .prefixOpt) rfl rfl, rfl⟩
  | space => exact ⟨[sp], 0, rfl, columns (by decide), .single (q := .params) rfl rfl, rfl⟩
  | colon => exact ⟨[CqIrc.colon], 0, rfl, columns (by decide), .single (q := .param) rfl rfl, rfl⟩
  | middle h _ hp =>
    exact ⟨_, 1, rfl, middle_inTable h, weighs_middles.path_middle h, (Params.add_length hp).2⟩
  | trailing ne hw stop =>
    exact ⟨_, 0, rfl, fun b hb => inTable_of_negated (hw b hb),
      weighs_middles.path_trailing ne hw stop, rfl⟩

theorem Turn.total {cb : Callbacks} {g : Bool} {s s' : Scan} (h : Turn cb g s (.next s')) :
    s'.total = s.total := by
  obtain ⟨w, n, input, -, path, length⟩ := h.path
  rw [Scan.total, Scan.total, input, walk_path path, length, Nat.add_assoc]

theorem Reaches.total {cb : Callbacks} {g : Bool} {line : Bytes} {s : Scan}
    (h : Reaches cb g (Scan.begin line) s) : s.total = walk .initial line := by
  refine h.invariant (P := fun s => s.total = walk .initial line) ?_ ?_
  · simp [Scan.total, Scan.begin, Phase.mode]
  · exact fun a b ha ht => ht.total.trans ha

end CqIrc
