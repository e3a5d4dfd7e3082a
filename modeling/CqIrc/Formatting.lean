import CqIrc.Fmt.Storage
import CqIrc.Outgoing

/-! The formats of `cq_irc_session_pong`, `cq_irc_session_privmsg` and
`cq_irc_session_quit`. What `fmt` makes of them is the text of the call, in a buffer that it
never leaves; a NULL argument is an error. -/

namespace CqIrc
open Fmt

namespace Call

/-- The format of a call and its arguments. -/
def format : Call → Option (Bytes × List ArgInfo)
  | write _ _ | writeSync _ _ => none
  | pong ping => some (ascii ['P', 'O', 'N', 'G', ' ', '{', '0', '}'], [.cString ping])
  | privmsg channel message =>
    some (ascii ['P', 'R', 'I', 'V', 'M', 'S', 'G', ' ', '{', '0', '}', ' ', ':', '{', '1', '}'],
      [.cString channel, .cString message])
  | quit (some message) =>
    some (ascii ['Q', 'U', 'I', 'T', ' ', ':', '{', '0', '}'], [.cString (some message)])
  | quit none => some (ascii ['Q', 'U', 'I', 'T'], [])

/-- What the format says. -/
def template : Call → List Segment
  | write _ _ | writeSync _ _ => []
  | pong _ => [.text (ascii ['P', 'O', 'N', 'G', ' ']), .field (some 0) none]
  | privmsg _ _ =>
    [.text (ascii ['P', 'R', 'I', 'V', 'M', 'S', 'G', ' ']), .field (some 0) none,
      .text (ascii [' ', ':']), .field (some 1) none]
  | quit (some _) => [.text (ascii ['Q', 'U', 'I', 'T', ' ', ':']), .field (some 0) none]
  | quit none => [.text (ascii ['Q', 'U', 'I', 'T'])]

theorem template_sound (c : Call) : ∀ x ∈ c.template, x.Sound := by
  have zero := Segment.plain_sound (i := 0) (Nat.two_pow_pos 32)
  have one := Segment.plain_sound (i := 1) (Nat.one_lt_two_pow (by decide))
  have text (bytes : Bytes) : (Segment.text bytes).Sound := trivial
  rcases c with _ | _ | _ | _ | (_ | _) <;> simp [template, zero, one, text]

theorem render_template {c : Call} {s : Bytes} {args : List ArgInfo}
    (hc : c.format = some (s, args)) : render c.template = s := by
  have zero : numeral 10 false 0 = [byte '0'] := rfl
  have one : numeral 10 false 1 = [byte '1'] := numeral_of_lt false (by decide)
  rcases c with _ | _ | _ | _ | (_ | _) <;> cases hc <;>
    simp [template, render, Segment.render, indexText, zero, one] <;> decide

theorem format_short {c : Call} {s : Bytes} {args : List ArgInfo}
    (hc : c.format = some (s, args)) : s.length ≤ inlineBufferSize / 2 := by
  rcases c with _ | _ | _ | _ | (_ | _) <;> cases hc <;> decide

/-- A field without a specification, by its argument. -/
theorem meaning_field {args : List ArgInfo} {next : Int} {i : Nat} {value : Option Bytes}
    (manual : next ≤ 0) (arg : args[i]? = some (.cString value)) (clean : ∀ a ∈ value, nul ∉ a)
    (template : List Segment) :
    meaning args next (.field (some i) none :: template) =
      value.elim (.error .nullString) fun text =>
        (meaning args (-1) template).map (text ++ ·) := by
  rw [meaning, takeArg, if_neg (by omega), arg]
  cases value with
  | none => rfl
  | some text =>
    simp only [Except.bind, Option.elim, formatArg_cString (clean text rfl)]

/-- The template says what the call writes. -/
theorem meaning_template {c : Call} {s : Bytes} {args : List ArgInfo}
    (hc : c.format = some (s, args)) (strings : ∀ a ∈ c.arguments, nul ∉ a) :
    meaning args 0 c.template = c.message.elim (.error .nullString) .ok := by
  rcases c with _ | _ | ping | ⟨channel, message⟩ | (_ | message) <;> cases hc
  · have clean : ∀ a ∈ ping, nul ∉ a := fun a ha => strings a (by simpa [arguments] using ha)
    rw [template, meaning, meaning_field le_rfl rfl clean]
    cases ping <;> simp [meaning, Except.map, message]
  · have first : ∀ a ∈ channel, nul ∉ a := fun a ha =>
      strings a (by simpa [arguments] using Or.inl ha)
    have second : ∀ a ∈ message, nul ∉ a := fun a ha =>
      strings a (by simpa [arguments] using Or.inr ha)
    rw [template, meaning, meaning_field le_rfl rfl first, meaning,
      meaning_field (by decide) rfl second]
    cases channel <;> cases message <;> simp [meaning, Except.map, Call.message]
  · simp [template, meaning, Except.map, message]
  · have clean : ∀ a ∈ some message, nul ∉ a := fun a ha =>
      strings a (by simpa [arguments, eq_comm] using ha)
    rw [template, meaning, meaning_field le_rfl rfl clean]
    simp [meaning, Except.map, Call.message]

theorem formats_of_format {c : Call} {s : Bytes} {args : List ArgInfo}
    (hc : c.format = some (s, args)) : c.formats = true := by
  cases c with
  | write | writeSync => cases hc
  | _ => rfl

/-- `out.Format` of a call leaves the text of the call in the buffer of `out`, and never
writes behind the buffer; the text is sent with CR LF, if the `int` sizes have room for both.
With a NULL argument it throws, and nothing is sent. -/
theorem format_writes {c : Call} {s : Bytes} {args : List ArgInfo}
    (hc : c.format = some (s, args)) (strings : ∀ a ∈ c.arguments, nul ∉ a) :
    ∃ out, Fmt.Array.empty.writeAll (Fmt.format s args).pieces = some out ∧
      c.message.elim
        ((Fmt.format s args).error = some .nullString ∧ c.buffer = .error .formatError)
        fun text => (Fmt.format s args).error = none ∧ out.data = text ∧
          (text.length + 2 < 2 ^ 31 → c.buffer = .ok (some (text ++ delimiter))) := by
  obtain ⟨out, stored, data⟩ := format_stored (format_short hc) args
  have read := format_render args c.template_sound
  rw [render_template hc, meaning_template hc strings] at read
  have formats := formats_of_format hc
  refine ⟨out, stored, ?_⟩
  rw [Formatted.result] at read
  cases hm : c.message with
  | none =>
    have unsent : c.buffer = .error .formatError := by rw [buffer_of_formats formats, formatted, hm]
    rw [hm] at read
    split at read
    · next e he => exact ⟨he.trans (congrArg some (Except.error.inj read)), unsent⟩
    · cases read
  | some text =>
    have sent (room : text.length + 2 < 2 ^ 31) : c.buffer = .ok (some (text ++ delimiter)) := by
      refine buffer_of_fits formats (fun other ho => ?_) hm
      rwa [← Option.some.inj (hm.symm.trans ho)]
    rw [hm] at read
    split at read
    · cases read
    · next he => exact ⟨he, data.trans (Except.ok.inj read), sent⟩

/-- A message, and a `pong` of NULL. -/
theorem format_writes_greeting :
    (∃ s args out, greeting.format = some (s, args) ∧
      Fmt.Array.empty.writeAll (Fmt.format s args).pieces = some out ∧
      (Fmt.format s args).error = none ∧
      out.data = ascii ['P', 'R', 'I', 'V', 'M', 'S', 'G', ' ', '#', 'c', ' ', ':', 'h', 'i'] ∧
      greeting.buffer = .ok (some (out.data ++ delimiter))) ∧
    ∃ s args, (pong none).format = some (s, args) ∧
      (Fmt.format s args).error = some .nullString ∧ (pong none).buffer = .error .formatError := by
  constructor
  · obtain ⟨out, stored, none, written, sent⟩ :=
      format_writes (c := greeting) rfl (by simp [greeting, arguments]; decide)
    exact ⟨_, _, out, rfl, stored, none, written, written ▸ sent (by decide)⟩
  · obtain ⟨-, -, thrown, unsent⟩ := format_writes (c := pong none) rfl (by simp [arguments])
    exact ⟨_, _, rfl, thrown, unsent⟩

end Call
end CqIrc
