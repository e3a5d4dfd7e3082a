import CqIrc.Grammar
import CqIrc.LineEnds

/-! What a callback may rely on, whatever the line was. The grammar gives the form of
the source, the parameters and the trailing; an invariant of the run gives the place
of each text in the line; and no token that is copied holds a NUL. -/

namespace CqIrc
open Flex Flex.Pattern

def InOrder : List Bytes → Bytes → Prop
  | [], _ => True
  | w :: ws, u => ∃ x v, u = x ++ (w ++ v) ∧ InOrder ws v

theorem InOrder.behind {ws : List Bytes} {u : Bytes} (x : Bytes) (h : InOrder ws u) :
    InOrder ws (x ++ u) := by
  cases ws with
  | nil => trivial
  | cons w ws =>
    obtain ⟨y, v, rfl, rest⟩ := h
    exact ⟨x ++ y, v, by simp, rest⟩

theorem Lead.source_mem {src : Option Bytes} {u v : Bytes} (h : Lead src u v) :
    ∀ w ∈ src, w ∈ source.language := by
  induction h with
  | done => simp
  | dropped _ _ _ ih => exact ih
  | @pfx src d w x u v _ hw _ _ _ ih =>
    cases src with
    | none => simpa using hw
    | some c => simpa using ih

section tails
variable {ms : List Bytes} {tr : Option Bytes} {u v : Bytes}

theorem Tail.middles_mem (h : Tail ms tr u v) : ∀ w ∈ ms, w ∈ CqIrc.middle.language := by
  induction h with
  | lineEnd => simp
  | dropped _ _ _ ih => exact ih
  | middle _ hw _ _ ih => exact List.forall_mem_cons.mpr ⟨hw, ih⟩
  | trailing _ _ _ _ _ _ ih => exact ih

theorem Tail.trailing_mem (h : Tail ms tr u v) :
    ∀ w ∈ tr, w ≠ [] ∧ ∀ b ∈ w, trailingChar b = true := by
  induction h with
  | lineEnd => simp
  | dropped _ _ _ ih => exact ih
  | middle _ _ _ _ ih => exact ih
  | @trailing _ tr _ _ w _ _ _ _ ne hw _ _ ih =>
    cases tr with
    | none => simpa using ⟨ne, hw⟩
    | some c => simpa using ih

theorem Tail.inOrder (h : Tail ms tr u v) : InOrder ms u := by
  induction h with
  | lineEnd => trivial
  | @dropped _ _ b _ _ _ _ _ ih => exact ih.behind [b]
  | @middle _ _ d w u _ _ _ _ _ ih => exact ⟨sp :: d, u, rfl, ih⟩
  | @trailing _ _ d z w u _ _ _ _ _ _ _ ih =>
    have front : sp :: (d ++ colon :: (z ++ (w ++ u))) = (sp :: (d ++ colon :: (z ++ w))) ++ u := by
      simp
    exact front ▸ ih.behind _

/-- The room that a tail takes: each parameter with its space, the trailing with its
space and colon, and the line end. -/
theorem Tail.length_le (h : Tail ms tr u v) :
    ms.flatten.length + ms.length + (tr.elim 0 fun w => w.length + 2) + 2 + v.length ≤
      u.length := by
  induction h with
  | @lineEnd w v hw =>
    have two : w.length = 2 := by rcases mem_crlf.mp hw with rfl | rfl <;> rfl
    simp only [List.flatten_nil, List.length_nil, Option.elim_none, List.length_append, two]
    omega
  | dropped _ _ _ ih =>
    rw [List.length_cons]
    omega
  | middle _ _ _ _ ih =>
    simp only [List.flatten_cons, List.length_cons, List.length_append]
    omega
  | @trailing _ tr _ _ _ _ _ _ _ _ _ _ _ ih =>
    cases tr with
    | none =>
      simp only [Option.elim_none, Option.none_or, Option.elim_some, List.length_cons,
        List.length_append] at ih ⊢
      omega
    | some c =>
      simp only [Option.some_or, Option.elim_some, List.length_cons, List.length_append] at ih ⊢
      omega

end tails

def Rule.copied : Rule → Bytes → Option Bytes
  | .command, text | .source, text | .middle, text | .trailing, text => some text
  | .user, text | .host, text => some (text.drop 1)
  | .enterPrefix, _ | .event _, _ | .leavePrefix, _ | .space, _ | .genericCrlf, _ | .crlf, _
  | .colon, _ | .echo, _ => none

theorem Token.copied_whole {c : StartCondition} {r : Rule} {w v : Bytes} (h : Token c r w v) :
    ∀ x ∈ r.copied w, strndup x = x := by
  cases h with
  | word h =>
    unfold wordRule
    split
    · simpa [Rule.copied] using strndup_command h
    · simp [Rule.copied]
  | genericWord h => simpa [Rule.copied] using strndup_command h
  | source h _ => simpa [Rule.copied] using strndup_source h
  | middle h _ => simpa [Rule.copied] using strndup_middle h
  | trailing _ h _ =>
    simpa [Rule.copied] using strndup_letters (by decide : trailingChar nul = false) h
  | user => simpa [Rule.copied] using by decide
  | host => simpa [Rule.copied] using by decide
  | _ => simp [Rule.copied]

/-- The texts a message and its command hold, but for the parameters. -/
def texts (m : Message) (command : Option Bytes) : List Bytes :=
  m.pfx.source.toList ++ m.pfx.user.toList ++ m.pfx.host.toList ++ m.trailing.toList ++
    command.toList

def Scan.texts (s : Scan) : List Bytes := CqIrc.texts s.message s.phase.command

theorem Turn.texts {cb : Callbacks} {g : Bool} {s s' : Scan} (h : Turn cb g s (.next s')) :
    ∀ x ∈ s'.texts, x ∈ s.texts ∨ x <:+: s.input := by
  intro x hx
  cases h with
  | skip | enterPrefix | leavePrefix | space | colon => exact .inl hx
  | @word w v m al _ _ =>
    simp only [Scan.texts, CqIrc.texts, Phase.command, Phase.target?, Option.bind_some,
      List.mem_append] at hx ⊢
    rcases hx with hx | hx
    · exact .inl (.inl hx)
    · rw [CqIrc.target] at hx
      split at hx
      · obtain rfl : x = w := by simpa [Target.word?] using hx
        exact .inr ⟨[], v, rfl⟩
      · simp [Target.word?] at hx
  | @source w v =>
    simp only [Scan.texts, CqIrc.texts, Message.withSource, List.mem_append, Option.toList_some,
      List.mem_singleton] at hx ⊢
    rcases hx with (((rfl | hx) | hx) | hx) | hx
    · exact .inr ⟨[], v, rfl⟩
    all_goals tauto
  | @user v =>
    simp only [Scan.texts, CqIrc.texts, Message.withUser, List.mem_append, Option.toList_some,
      List.mem_singleton] at hx ⊢
    rcases hx with (((hx | rfl) | hx) | hx) | hx
    · tauto
    · exact .inr ⟨quotedUser.take 1, v, rfl⟩
    all_goals tauto
  | @host v =>
    simp only [Scan.texts, CqIrc.texts, Message.withHost, List.mem_append, Option.toList_some,
      List.mem_singleton] at hx ⊢
    rcases hx with (((hx | hx) | rfl) | hx) | hx
    · tauto
    · tauto
    · exact .inr ⟨quotedHost.take 1, v, rfl⟩
    all_goals tauto
  | middle => exact .inl hx
  | @trailing t w v =>
    simp only [Scan.texts, CqIrc.texts, Message.withTrailing, List.mem_append, Option.toList_some,
      List.mem_singleton] at hx ⊢
    rcases hx with (((hx | hx) | hx) | rfl) | hx
    · tauto
    · tauto
    · tauto
    · exact .inr ⟨[], v, rfl⟩
    · exact .inl (.inr hx)

theorem Reaches.texts {cb : Callbacks} {g : Bool} {line : Bytes} {s : Scan}
    (h : Reaches cb g (Scan.begin line) s) : ∀ x ∈ s.texts, x <:+: line := by
  induction h with
  | refl => simp [Scan.texts, CqIrc.texts, Scan.begin, Message.zero, Phase.command, Phase.target?]
  | @tail a b reach ht ih =>
    intro x hx
    rcases ht.texts x hx with old | new
    · exact ih x old
    · obtain ⟨w, e⟩ := Reaches.suffix reach
      exact new.trans ⟨w, [], by simpa [Scan.begin] using e.symm⟩

/-- What the fields of an invocation look like, and where they stand in the line. -/
structure Shaped (line : Bytes) (i : Invocation) : Prop where
  source : ∀ w ∈ i.message.pfx.source, w ∈ nickname.language ∨ w ∈ servername.language
  params : ∃ ms, i.message.params.listed = ms.map some ∧
    ms.length = i.message.params.length.toNat ∧ InOrder ms line ∧
    ∀ w ∈ ms, w ≠ [] ∧ w.head? ≠ some colon ∧ ∀ b ∈ w, b ≠ nul ∧ b ≠ cr ∧ b ≠ lf ∧ b ≠ sp
  trailing : ∀ w ∈ i.message.trailing, w ≠ [] ∧ ∀ b ∈ w, b ≠ nul ∧ b ≠ cr ∧ b ≠ lf
  command : i.signal = .unknown → ∃ w, i.command = some w ∧ w ∈ CqIrc.command.language
  pieces : ∀ w ∈ texts i.message i.command, w <:+: line

theorem middle_shape {w : Bytes} (h : w ∈ middle.language) :
    w ≠ [] ∧ w.head? ≠ some colon ∧ ∀ b ∈ w, b ≠ nul ∧ b ≠ cr ∧ b ≠ lf ∧ b ≠ sp := by
  have chars := middle_chars h
  obtain ⟨c, t, rfl, hc, -⟩ := mem_middle.mp h
  refine ⟨by simp, ?_, fun b hb => ?_⟩
  · rintro e
    obtain rfl : c = colon := by simpa using e
    exact absurd hc (by decide)
  · have stop := (negated_iff.mp (chars b hb)).2
    simp [ascii] at stop
    simp only [nul, cr, lf, sp]
    tauto

theorem trailing_shape {w : Bytes} (h : ∀ b ∈ w, trailingChar b = true) :
    ∀ b ∈ w, b ≠ nul ∧ b ≠ cr ∧ b ≠ lf := fun b hb => (trailingChar_iff.mp (h b hb)).2

/-- On every line, with every table: what is delivered has this shape, and every text
that is copied is copied in full. -/
theorem yylex_shaped (cb : Callbacks) (g : Bool) (line : Bytes) :
    (∀ e i, yylex cb g line = some (.ok e) → i ∈ e.calls → Shaped line i) ∧
      ∀ s, Steps cb (begin g line) s → ∀ r n, s.Fires r n →
        ∀ w ∈ r.copied (s.input.take n), (strndup w).length = w.length := by
  constructor
  · intro e i he call
    obtain ⟨src, x, w, y, ms, tr, split, lead, word, tail, -, signal, command, hs, hp, ht⟩ :=
      yylex_sound he call
    obtain ⟨s, t, reach, phase, rfl⟩ := (runs_of_yylex he).called call
    have pieces := reach.texts
    have slots := reach.length_le_slots
    rw [Scan.texts, phase] at pieces
    have count : ms.length = s.message.params.length.toNat := by
      have len := congrArg List.length hp
      simp only [Target.invocation, Params.listed, List.length_take, Vector.length_toList,
        List.length_map] at len
      omega
    refine ⟨?_, ⟨ms, hp, count, ?_, fun w hw => middle_shape (tail.middles_mem w hw)⟩, ?_, ?_,
      pieces⟩
    · exact fun w hw => mem_alt.mp (lead.source_mem w (hs ▸ hw))
    · rw [split, ← List.append_assoc]
      exact tail.inOrder.behind _
    · intro w hw
      obtain ⟨ne, chars⟩ := tail.trailing_mem w (ht ▸ hw)
      exact ⟨ne, trailing_shape chars⟩
    · intro unknown
      refine ⟨w, ?_, word.mem⟩
      rw [command]
      rw [signal] at unknown
      by_cases known : g = true ∨ commandSignal w = .unknown
      · rw [target_of_unknown known]
        rfl
      · obtain ⟨hg, hu⟩ := not_or.mp known
        obtain rfl : g = false := by simpa using hg
        rw [target_of_known hu] at unknown
        exact absurd unknown hu
  · intro s _ r n fires w hw
    rw [fires.token.copied_whole w hw]

theorem yylex_shaped_spoilt :
    ∃ e, yylex .full false spoilt = some (.ok e) ∧ filledCall ∈ e.calls ∧
      Shaped spoilt filledCall := by
  obtain ⟨e, he, calls⟩ := yylex_spoilt
  have call : filledCall ∈ e.calls := by simp [calls]
  exact ⟨e, he, call, (yylex_shaped .full false spoilt).1 e filledCall he call⟩

/-! The columns again: nothing between the socket and the scanner keeps a byte from 0x80 on
away from it. -/

section columns
variable {cb : Callbacks} {g : Bool} {line : Bytes} {s : Scan}

theorem Reaches.trailing (h : Reaches cb g (Scan.begin line) s) :
    ∀ text, s.message.trailing = some text → ∀ b ∈ text, inTable b = true := by
  refine h.invariant (P := fun s => ∀ text, s.message.trailing = some text →
    ∀ b ∈ text, inTable b = true) (by rintro _ ⟨⟩) fun a b ha turn => ?_
  cases turn with
  | trailing _ hw _ =>
    rintro _ ⟨⟩ b hb
    exact inTable_of_negated (hw b hb)
  | _ => exact ha

theorem trailing_of_yylex {e : Exit} (h : yylex cb g line = some (.ok e)) {i : Invocation}
    (call : i ∈ e.calls) {text : Bytes} (ht : i.message.trailing = some text) :
    text <:+: line ∧ ∀ b ∈ text, inTable b = true := by
  obtain ⟨s, t, reach, -, rfl⟩ := (runs_of_yylex h).called call
  change s.message.trailing = some text at ht
  exact ⟨reach.texts text (by simp [Scan.texts, texts, ht]), reach.trailing text ht⟩

end columns

/-- The scanner's tables cover the bytes of a line: with any table of callbacks and in
any mode, no lookup of the scan leaves the row of its state. -/
def Covered (line : Bytes) : Prop := ∀ cb g, StaysInTable cb g line

/-- The tables cover exactly the lines on which the bytes up to the one behind the line
end are below 0x80; a trailing stands in its line as it is delivered, and one with another
byte is delivered on no line. -/
theorem covered_iff (line : Bytes) :
    (Covered line ↔ ∀ b ∈ lookups .initial 14 line, b < 0x80) ∧
      ∀ cb g e, yylex cb g line = some (.ok e) → ∀ i ∈ e.calls, ∀ text,
        i.message.trailing = some text → text <:+: line ∧ ∀ b ∈ text, b < 0x80 := by
  refine ⟨⟨fun covered => staysInTable_full_iff.mp (covered .full false),
    fun clear cb g => staysInTable_of_lookups clear⟩, fun cb g e he i call text ht => ?_⟩
  simpa only [← inTable_iff] using trailing_of_yylex he call ht

theorem covered_ping : Covered pingLine :=
  (covered_iff pingLine).1.mpr fun b hb => inTable_iff.mp (List.all_eq_true.mp (by decide) b hb)

theorem not_covered_accented : EndsAtFirstCrlf accented ∧ ¬ Covered accented := by
  refine ⟨by decide, fun covered => ?_⟩
  have count : middleCount accented ≤ 14 := by decide
  obtain ⟨s, e, -, -, he⟩ := exists_exit count (covered .full false)
  have out : yylex .full false accented = some (.error .outOfTable) := by decide +kernel
  rw [out] at he
  cases he

end CqIrc
