import CqIrc.Decoding
import CqIrc.Safety

/-! The language of the scanner on arbitrary bytes. flex appends to every start
condition the rule that drops one byte, so the accepted lines are those of the
grammar with dropped bytes between the tokens. `Lead` and `Tail` say where they may
stand; every token is read in full, and the last source and the last trailing count. -/

namespace CqIrc
open Flex Flex.Pattern

def Blank (b : Byte) : Prop := b = sp ∨ b = nul ∨ b = cr ∨ b = lf

/-- `Lead src u v`: in front of the command word `u` goes on with `v`, and `src` is the
last source on the way. -/
inductive Lead : Option Bytes → Bytes → Bytes → Prop where
  | done {v} : Lead none v v
  | dropped {src b u v} : b ≠ colon → startsCommand (b :: u) = false → Lead src u v →
      Lead src (b :: u) v
  | pfx {src d w x u v} : (∀ b ∈ d, alnum b = false ∧ special b = false) →
      w ∈ source.language →
      (∀ y z, x ++ sp :: u = y ++ z → y ≠ [] → w ++ y ∉ source.language) →
      sp ∉ x → Lead src u v →
      Lead (src.or (some w)) (colon :: (d ++ (w ++ (x ++ sp :: u)))) v

/-- `Tail ms tr u v`: behind the command word `u` holds these middles, the last trailing
`tr` and a line end, and goes on with `v`. -/
inductive Tail : List Bytes → Option Bytes → Bytes → Bytes → Prop where
  | lineEnd {w v} : w ∈ crlf.language → Tail [] none (w ++ v) v
  | dropped {ms tr b u v} : b ≠ sp → startsCrlf (b :: u) = false → Tail ms tr u v →
      Tail ms tr (b :: u) v
  | middle {ms tr d w u v} : (∀ b ∈ d, Blank b) → w ∈ middle.language → Stops middleChar u →
      Tail ms tr u v → Tail (w :: ms) tr (sp :: (d ++ (w ++ u))) v
  | trailing {ms tr d z w u v} : (∀ b ∈ d, Blank b) →
      (∀ b ∈ z, b = nul ∨ b = cr ∨ b = lf) → w ≠ [] → (∀ b ∈ w, trailingChar b = true) →
      Stops trailingChar u → Tail ms tr u v →
      Tail ms (tr.or (some w)) (sp :: (d ++ colon :: (z ++ (w ++ u)))) v

theorem Lead.split {src : Option Bytes} {u v : Bytes} (h : Lead src u v) : ∃ x, u = x ++ v := by
  induction h with
  | done => exact ⟨[], rfl⟩
  | @dropped _ b _ _ _ _ _ ih =>
    obtain ⟨x, rfl⟩ := ih
    exact ⟨b :: x, rfl⟩
  | @pfx _ d w x u v _ _ _ _ _ ih =>
    obtain ⟨y, rfl⟩ := ih
    exact ⟨colon :: (d ++ (w ++ (x ++ sp :: y))), by simp⟩

theorem Tail.split {ms : List Bytes} {tr : Option Bytes} {u v : Bytes} (h : Tail ms tr u v) :
    ∃ x, u = x ++ v := by
  induction h with
  | @lineEnd w => exact ⟨w, rfl⟩
  | @dropped _ _ b _ _ _ _ _ ih =>
    obtain ⟨x, rfl⟩ := ih
    exact ⟨b :: x, rfl⟩
  | @middle _ _ d w u v _ _ _ _ ih =>
    obtain ⟨y, rfl⟩ := ih
    exact ⟨sp :: (d ++ (w ++ y)), by simp⟩
  | @trailing _ _ d z w u v _ _ _ _ _ _ ih =>
    obtain ⟨y, rfl⟩ := ih
    exact ⟨sp :: (d ++ colon :: (z ++ (w ++ y))), by simp⟩

theorem blank_of_skip {b : Byte} (hb : inTable b = true) (hc : b ≠ colon)
    (hm : middleStart b = false) : Blank b := by
  have stop : b ∈ ascii [':', '\x00', '\r', '\n', ' '] := by
    by_contra no
    have := negated_iff.mpr ⟨hb, no⟩
    rw [middleStart] at hm
    simp [hm] at this
  simp [ascii] at stop
  simp only [colon] at hc
  simp only [Blank, sp, nul, cr, lf]
  tauto

theorem stop_of_skip {b : Byte} (hb : inTable b = true) (ht : trailingChar b = false) :
    b = nul ∨ b = cr ∨ b = lf := by
  by_contra no
  simp only [not_or] at no
  have := trailingChar_iff.mpr ⟨hb, no⟩
  simp [ht] at this

theorem not_blank_colon : ¬ Blank colon := by
  simp [Blank, colon, sp, nul, cr, lf]

section dropping
variable {ms : List Bytes} {tr : Option Bytes} {b : Byte} {u v : Bytes}

theorem Tail.drop_blank (h : Tail ms tr (sp :: u) v) (hb : Blank b) :
    Tail ms tr (sp :: b :: u) v := by
  generalize hx : sp :: u = x at h
  cases h with
  | lineEnd hw => rcases mem_crlf.mp hw with rfl | rfl <;> cases hx
  | dropped hs => exact absurd (List.cons.inj hx).1.symm hs
  | middle hd hw stop rest =>
    obtain rfl := (List.cons.inj hx).2
    exact .middle (d := b :: _) (List.forall_mem_cons.mpr ⟨hb, hd⟩) hw stop rest
  | trailing hd hz ne hw stop rest =>
    obtain rfl := (List.cons.inj hx).2
    exact .trailing (d := b :: _) (List.forall_mem_cons.mpr ⟨hb, hd⟩) hz ne hw stop rest

theorem Tail.drop_stop (h : Tail ms tr (sp :: colon :: u) v) (hb : b = nul ∨ b = cr ∨ b = lf) :
    Tail ms tr (sp :: colon :: b :: u) v := by
  have no_blank {d y : Bytes} {c : Byte} (hd : ∀ b ∈ d, Blank b) (e : colon :: u = d ++ c :: y) :
      d = [] ∧ c = colon ∧ y = u := by
    cases d with
    | nil => exact ⟨rfl, (List.cons.inj e).1.symm, (List.cons.inj e).2.symm⟩
    | cons c d =>
      obtain rfl := (List.cons.inj e).1
      exact absurd (hd _ (by simp)) not_blank_colon
  generalize hx : sp :: colon :: u = x at h
  cases h with
  | lineEnd hw => rcases mem_crlf.mp hw with rfl | rfl <;> cases hx
  | dropped hs => exact absurd (List.cons.inj hx).1.symm hs
  | middle hd hw stop rest =>
    obtain ⟨c, t, rfl, hc, -⟩ := mem_middle.mp hw
    obtain ⟨-, rfl, -⟩ := no_blank hd (List.cons.inj hx).2
    exact absurd hc (by decide)
  | trailing hd hz ne hw stop rest =>
    obtain ⟨rfl, -, rfl⟩ := no_blank hd (List.cons.inj hx).2
    exact .trailing (d := []) (z := b :: _) (by simp) (List.forall_mem_cons.mpr ⟨hb, hz⟩)
      ne hw stop rest

/-- Behind the colon of a prefix, a byte that opens no source is dropped. -/
theorem Lead.drop_mark {src : Option Bytes} (h : Lead src (colon :: u) v)
    (ahead : ∀ y, v ≠ colon :: y) (ha : alnum b = false) (hs : special b = false) :
    Lead src (colon :: b :: u) v := by
  generalize hx : colon :: u = x at h
  cases h with
  | done => exact absurd hx.symm (ahead u)
  | dropped hc => exact absurd (List.cons.inj hx).1.symm hc
  | pfx hd hw longest hx' rest =>
    obtain rfl := (List.cons.inj hx).2
    exact .pfx (d := b :: _) (List.forall_mem_cons.mpr ⟨⟨ha, hs⟩, hd⟩) hw longest hx' rest

end dropping

structure Told (i : Invocation) (m : Message) (src : Option Bytes) (ms : List Bytes)
    (tr : Option Bytes) : Prop where
  source : i.message.pfx.source = src.or m.pfx.source
  params : i.message.params.listed = m.params.listed ++ ms.map some
  trailing : i.message.trailing = tr.or m.trailing

def TailRead (e : Exit) (t : Target) (m : Message) (u : Bytes) : Prop :=
  ∃ ms tr i, Tail ms tr u e.rest ∧ e.calls = [i] ∧ i.signal = t.signal ∧
    i.command = t.word? ∧ Told i m none ms tr

def HeadRead (cb : Callbacks) (g : Bool) (e : Exit) (m : Message) (u : Bytes) : Prop :=
  ∃ src w v ms tr i, Lead src u (w ++ v) ∧ CommandWord w v ∧
    cb.has (target g w).signal = true ∧ Tail ms tr v e.rest ∧ e.calls = [i] ∧
    i.signal = (target g w).signal ∧ i.command = (target g w).word? ∧ Told i m src ms tr

/-- What each phase still has to read; the bytes that opened the phase are put back. -/
def Reads (cb : Callbacks) (g : Bool) (e : Exit) : Scan → Prop
  | ⟨.head, u, m, _⟩ => HeadRead cb g e m u
  | ⟨.pfx, u, m, _⟩ => HeadRead cb g e m (colon :: u)
  | ⟨.prefixOpt, u, m, _⟩ => ∃ x v, u = x ++ sp :: v ∧ sp ∉ x ∧ HeadRead cb g e m v
  | ⟨.params t, u, m, _⟩ => TailRead e t m u
  | ⟨.param t, u, m, _⟩ => TailRead e t m (sp :: u)
  | ⟨.trailing t, u, m, _⟩ => TailRead e t m (sp :: colon :: u)

section reading
variable {cb : Callbacks} {g : Bool} {e : Exit} {t : Target} {m m' : Message} {u v w : Bytes}

theorem TailRead.mono (h : TailRead e t m u)
    (tail : ∀ ms tr, Tail ms tr u e.rest → Tail ms tr v e.rest) : TailRead e t m v := by
  obtain ⟨ms, tr, i, ht, told⟩ := h
  exact ⟨ms, tr, i, tail ms tr ht, told⟩

theorem HeadRead.congr (h : HeadRead cb g e m u) (source : m.pfx.source = m'.pfx.source)
    (params : m.params = m'.params) (trailing : m.trailing = m'.trailing) :
    HeadRead cb g e m' u := by
  obtain ⟨src, w, v, ms, tr, i, hl, hw, hf, ht, calls, signal, word, told⟩ := h
  exact ⟨src, w, v, ms, tr, i, hl, hw, hf, ht, calls, signal, word,
    ⟨source ▸ told.source, params ▸ told.params, trailing ▸ told.trailing⟩⟩

theorem HeadRead.source (hw : w ∈ source.language)
    (longest : ∀ y z, v = y ++ z → y ≠ [] → w ++ y ∉ CqIrc.source.language)
    (h : ∃ x z, v = x ++ sp :: z ∧ sp ∉ x ∧ HeadRead cb g e (m.withSource w) z) :
    HeadRead cb g e m (colon :: (w ++ v)) := by
  obtain ⟨x, z, rfl, hx, src, c, y, ms, tr, i, hl, hc, hf, ht, calls, signal, word, told⟩ := h
  refine ⟨_, c, y, ms, tr, i, .pfx (d := []) (by simp) hw longest hx hl, hc, hf, ht, calls,
    signal, word, ⟨?_, told.params, told.trailing⟩⟩
  rw [Option.or_assoc, Option.some_or]
  exact told.source

theorem HeadRead.drop_mark {b : Byte} (h : HeadRead cb g e m (colon :: u))
    (ha : alnum b = false) (hs : special b = false) : HeadRead cb g e m (colon :: b :: u) := by
  obtain ⟨src, w, v, ms, tr, i, hl, hw, told⟩ := h
  refine ⟨src, w, v, ms, tr, i, hl.drop_mark (fun y hy => ?_) ha hs, hw, told⟩
  exact not_commandWord_cons (by decide : alnum colon = false) w v hy.symm hw

theorem TailRead.middle {ps : Params} (hw : w ∈ middle.language) (stop : Stops middleChar v)
    (hp : m.params.add w = some ps) (h : TailRead e t (m.withParams ps) v) :
    TailRead e t m (sp :: (w ++ v)) := by
  obtain ⟨ms, tr, i, ht, calls, signal, word, told⟩ := h
  refine ⟨w :: ms, tr, i, .middle (d := []) (by simp) hw stop ht, calls, signal, word,
    ⟨told.source, ?_, told.trailing⟩⟩
  rw [told.params]
  simp [Message.withParams, Params.add_listed hp]

theorem TailRead.trailing (ne : w ≠ []) (hw : ∀ b ∈ w, trailingChar b = true)
    (stop : Stops trailingChar v) (h : TailRead e t (m.withTrailing w) v) :
    TailRead e t m (sp :: colon :: (w ++ v)) := by
  obtain ⟨ms, tr, i, ht, calls, signal, word, told⟩ := h
  refine ⟨ms, tr.or (some w), i, .trailing (d := []) (z := []) (by simp) (by simp) ne hw stop ht,
    calls, signal, word, ⟨told.source, told.params, ?_⟩⟩
  rw [Option.or_assoc, Option.some_or]
  exact told.trailing

theorem Turn.reads {s s' : Scan} (h : Turn cb g s (.next s')) (hr : Reads cb g e s') :
    Reads cb g e s := by
  cases h with
  | skip hb hs => cases hs with
    | head hc hn =>
      obtain ⟨src, w, v, ms, tr, i, hl, told⟩ := hr
      exact ⟨src, w, v, ms, tr, i, .dropped hc (not_startsCommand hn) hl, told⟩
    | pfx ha hs => exact HeadRead.drop_mark hr ha hs
    | prefixOpt hs _ _ =>
      obtain ⟨x, v, rfl, hx, read⟩ := hr
      exact ⟨_ :: x, v, rfl, by simp [Ne.symm hs, hx], read⟩
    | params hs hn => exact TailRead.mono hr fun ms tr => .dropped hs (not_startsCrlf hn)
    | param hc hm => exact TailRead.mono hr fun ms tr ht => ht.drop_blank (blank_of_skip hb hc hm)
    | trailing ht => exact TailRead.mono hr fun ms tr h => h.drop_stop (stop_of_skip hb ht)
  | enterPrefix => exact hr
  | word hw hf =>
    obtain ⟨ms, tr, i, ht, told⟩ := hr
    exact ⟨none, _, _, ms, tr, i, .done, hw, hf, ht, told⟩
  | source hw longest => exact HeadRead.source hw longest hr
  | user =>
    obtain ⟨x, v, rfl, hx, read⟩ := hr
    exact ⟨quotedUser ++ x, v, by simp, by simp [hx]; decide, read.congr rfl rfl rfl⟩
  | host =>
    obtain ⟨x, v, rfl, hx, read⟩ := hr
    exact ⟨quotedHost ++ x, v, by simp, by simp [hx]; decide, read.congr rfl rfl rfl⟩
  | leavePrefix => exact ⟨[], _, rfl, by simp, hr⟩
  | space => exact hr
  | colon => exact hr
  | middle hw stop hp => exact TailRead.middle hw stop hp hr
  | trailing ne hw stop => exact TailRead.trailing ne hw stop hr

theorem Runs.reads {s : Scan} {r : Except Fault Exit} (h : Runs cb g s r) (hr : r = .ok e)
    (calls : e.calls ≠ []) : Reads cb g e s := by
  induction h with
  | ret ht =>
    obtain rfl := Except.ok.inj hr
    cases ht with
    | eof => exact absurd rfl calls
    | missing => exact absurd rfl calls
    | @crlf t w v m al hw =>
      exact ⟨[], none, t.invocation m, .lineEnd hw, rfl, rfl, rfl, ⟨rfl, by simp; rfl, rfl⟩⟩
  | fault => cases hr
  | next ht _ ih => exact ht.reads (ih hr)

end reading

/-- A message is delivered for lines of the grammar with dropped bytes only, and its
fields are the tokens of the line in full. -/
theorem yylex_sound {cb : Callbacks} {g : Bool} {line : Bytes} {e : Exit} {i : Invocation}
    (he : yylex cb g line = some (.ok e)) (call : i ∈ e.calls) :
    ∃ src x w y ms tr, line = x ++ (w ++ (y ++ e.rest)) ∧ Lead src line (w ++ (y ++ e.rest)) ∧
      CommandWord w (y ++ e.rest) ∧ Tail ms tr (y ++ e.rest) e.rest ∧
      cb.has i.signal = true ∧ i.signal = (target g w).signal ∧
      i.command = (target g w).word? ∧ i.message.pfx.source = src ∧
      i.message.params.listed = ms.map some ∧ i.message.trailing = tr := by
  obtain ⟨src, w, v, ms, tr, i', lead, word, has, tail, calls, signal, command, told⟩ :=
    (runs_of_yylex he).reads rfl (List.ne_nil_of_mem call)
  obtain rfl : i = i' := by simpa [calls] using call
  obtain ⟨x, split⟩ := lead.split
  obtain ⟨y, rfl⟩ := tail.split
  refine ⟨src, x, w, y, ms, tr, split, lead, word, tail, signal ▸ has, signal, command,
    ?_, ?_, ?_⟩
  · simpa [Scan.begin, Message.zero] using told.source
  · simpa [Scan.begin] using told.params
  · simpa [Scan.begin, Message.zero] using told.trailing

def spoilt : Bytes := UInt8.ofNat '$'.toNat :: filled

def filledCall : Invocation where
  signal := .unknown
  command := some (ascii ['F', 'O', 'O'])
  message :=
    { pfx :=
        { host := some (ascii ['{', 'h', 'o', 's', 't', '}'])
          user := some (ascii ['{', 'u', 's', 'e', 'r', '}'])
          source := some (ascii ['n']) }
      params := ⟨(Vector.replicate 14 none).set 0 (some (ascii ['a'])), 1⟩
      trailing := some (ascii ['t']) }

theorem yylex_spoilt :
    ∃ e, yylex .full false spoilt = some (.ok e) ∧ e.calls = [filledCall] :=
  exists_exit_view (by decide +kernel)

theorem yylex_sound_spoilt :
    ∃ e, yylex .full false spoilt = some (.ok e) ∧ filledCall ∈ e.calls ∧
      ∃ src x w y ms tr, spoilt = x ++ (w ++ (y ++ e.rest)) ∧
        Lead src spoilt (w ++ (y ++ e.rest)) ∧ CommandWord w (y ++ e.rest) ∧
        Tail ms tr (y ++ e.rest) e.rest ∧ Callbacks.full.has filledCall.signal = true ∧
        filledCall.signal = (target false w).signal ∧
        filledCall.command = (target false w).word? ∧ filledCall.message.pfx.source = src ∧
        filledCall.message.params.listed = ms.map some ∧ filledCall.message.trailing = tr := by
  obtain ⟨e, he, calls⟩ := yylex_spoilt
  have call : filledCall ∈ e.calls := by simp [calls]
  exact ⟨e, he, call, yylex_sound he call⟩

def dollarPing : Bytes := ascii ['$', 'P', 'I', 'N', 'G', '\r', '\n']

/-- The grammar without dropped bytes: the pieces of the line and nothing else. -/
def Grammatical (consumed : Bytes) (i : Invocation) : Prop :=
  ∃ (origin : Option Origin) (w : Bytes) (middles : List (Nat × Bytes))
    (trailing : Option (Nat × Bytes)) (eol : Bytes),
    consumed = originBytes origin ++
      (w ++ (middleBytes middles ++ (trailingBytes trailing ++ eol))) ∧
    w ∈ command.language ∧ (∀ x ∈ middles, x.2 ∈ middle.language) ∧
    (∀ x ∈ trailing, x.2 ≠ [] ∧ ∀ b ∈ x.2, trailingChar b = true) ∧ eol ∈ crlf.language ∧
    i.command = (target false w).word? ∧
    i.message.pfx = ⟨origin.bind (·.host), origin.bind (·.user), origin.map (·.source)⟩ ∧
    i.message.params.listed = middles.map (fun x => some x.2) ∧
    i.message.trailing = trailing.map (·.2)

theorem Grammatical.head {consumed : Bytes} {i : Invocation} (h : Grammatical consumed i) :
    ∃ b v, consumed = b :: v ∧ (b = colon ∨ alnum b = true) := by
  obtain ⟨origin, w, middles, trailing, eol, rfl, hw, -⟩ := h
  cases origin with
  | some o => exact ⟨colon, _, rfl, .inl rfl⟩
  | none =>
    cases w with
    | nil => exact absurd hw (by decide)
    | cons b v => exact ⟨b, _, rfl, .inr (alnum_of_command hw b List.mem_cons_self)⟩

/-- A message is delivered although the line holds a byte outside the grammar. -/
theorem not_grammatical_dollar :
    ∃ e i, yylex .full false dollarPing = some (.ok e) ∧ e.calls = [i] ∧
      ¬ ∃ consumed, dollarPing = consumed ++ e.rest ∧ Grammatical consumed i := by
  obtain ⟨e, he, one⟩ : ∃ e, yylex .full false dollarPing = some (.ok e) ∧ e.calls.length = 1 :=
    exists_exit_view (f := fun e => e.calls.length) (by decide +kernel)
  obtain ⟨i, hi⟩ := List.length_eq_one_iff.mp one
  refine ⟨e, i, he, hi, ?_⟩
  rintro ⟨consumed, split, grammatical⟩
  obtain ⟨b, v, rfl, hb⟩ := grammatical.head
  obtain rfl : UInt8.ofNat '$'.toNat = b := (List.cons.inj split).1
  exact absurd hb (by decide)

end CqIrc
