import CqIrc.Lexer

/-! What each start condition matches, stated on the bytes themselves: `Token c r w v`
says that at the input `w ++ v` the start condition `c` matches `w` by rule `r`.
It is proved to be the longest match of the earliest rule, and some token exists
wherever the first byte has a column. -/

namespace CqIrc
open Flex Flex.Pattern

/-- No byte of this class at the front. -/
def Stops (p : Byte → Bool) (rest : Bytes) : Prop := ∀ b v, rest = b :: v → p b = false

/-- Equality up to ASCII case. -/
def sameText (w : Bytes) (text : List Char) : Prop :=
  w.map toLower = (ascii text).map toLower

instance (w : Bytes) (text : List Char) : Decidable (sameText w text) :=
  inferInstanceAs (Decidable (_ = _))

/-- The signal of a command word; `unknown` stands for every other word. -/
def commandSignal (w : Bytes) : Signal :=
  if sameText w ['0', '0', '4'] then .welcome
  else if sameText w ['P', 'I', 'N', 'G'] then .ping
  else if sameText w ['P', 'R', 'I', 'V', 'M', 'S', 'G'] then .privmsg
  else if sameText w ['N', 'O', 'T', 'I', 'C', 'E'] then .notice
  else if sameText w ['E', 'R', 'R', 'O', 'R'] then .error
  else .unknown

def wordRule (w : Bytes) : Rule :=
  if commandSignal w = .unknown then .command else .event (commandSignal w)

/-- A command word that the following bytes do not prolong. -/
inductive CommandWord : Bytes → Bytes → Prop where
  | letters {w v} : w ≠ [] → (∀ b ∈ w, alpha b = true) → Stops alpha v → CommandWord w v
  | digits {w v} : w.length = 3 → (∀ b ∈ w, digit b = true) → CommandWord w v

def trailingChar : Byte → Bool := negated (ascii ['\x00', '\n', '\r'])

def source : Pattern Byte := alt nickname servername

def quotedUser : Bytes := ascii ['!', '{', 'u', 's', 'e', 'r', '}']
def quotedHost : Bytes := ascii ['@', '{', 'h', 'o', 's', 't', '}']

inductive Token : StartCondition → Rule → Bytes → Bytes → Prop where
  | enterPrefix {v} : Token .initial .enterPrefix [colon] v
  | word {w v} : CommandWord w v → Token .initial (wordRule w) w v
  | skipInitial {b v} : inTable b = true → b ≠ colon →
      (∀ w u, b :: v = w ++ u → ¬ CommandWord w u) → Token .initial .echo [b] v
  | genericEnterPrefix {v} : Token .genericInitial .enterPrefix [colon] v
  | genericWord {w v} : CommandWord w v → Token .genericInitial .command w v
  | genericSkip {b v} : inTable b = true → b ≠ colon →
      (∀ w u, b :: v = w ++ u → ¬ CommandWord w u) → Token .genericInitial .echo [b] v
  | source {w v} : w ∈ source.language →
      (∀ x y, v = x ++ y → x ≠ [] → w ++ x ∉ source.language) → Token .pfx .source w v
  | skipPrefix {b v} : inTable b = true → alnum b = false → special b = false →
      Token .pfx .echo [b] v
  | user {v} : Token .prefixOpt .user quotedUser v
  | host {v} : Token .prefixOpt .host quotedHost v
  | leavePrefix {v} : Token .prefixOpt .leavePrefix [sp] v
  | skipPrefixOpt {b v} : inTable b = true → b ≠ sp →
      ¬ quotedUser <+: b :: v → ¬ quotedHost <+: b :: v → Token .prefixOpt .echo [b] v
  | genericSpace {v} : Token .genericParams .space [sp] v
  | genericCrlf {w v} : w ∈ crlf.language → Token .genericParams .genericCrlf w v
  | genericSkipParams {b v} : inTable b = true → b ≠ sp →
      (∀ w u, b :: v = w ++ u → w ∉ crlf.language) → Token .genericParams .echo [b] v
  | space {v} : Token .params .space [sp] v
  | crlf {w v} : w ∈ crlf.language → Token .params .crlf w v
  | skipParams {b v} : inTable b = true → b ≠ sp →
      (∀ w u, b :: v = w ++ u → w ∉ crlf.language) → Token .params .echo [b] v
  | colon {v} : Token .param .colon [colon] v
  | middle {w v} : w ∈ middle.language → Stops middleChar v → Token .param .middle w v
  | skipParam {b v} : inTable b = true → b ≠ colon → middleStart b = false →
      Token .param .echo [b] v
  | trailing {w v} : w ≠ [] → (∀ b ∈ w, trailingChar b = true) → Stops trailingChar v →
      Token .trailing .trailing w v
  | skipTrailing {b v} : inTable b = true → trailingChar b = false → Token .trailing .echo [b] v

theorem alpha_of_toLower {b : Byte} (h : alpha (toLower b) = true) : alpha b = true := by
  grind [alpha, toLower]

theorem digit_of_toLower {b : Byte} (h : digit (toLower b) = true) : digit b = true := by
  grind [digit, toLower]

theorem mem_echo {w : Bytes} :
    w ∈ echo.2.language ↔ ∃ b, inTable b = true ∧ w = [b] := by
  simp [echo, mem_cls, negated]

theorem commandSignal_command {w : Bytes} (h : commandSignal w ≠ .unknown) :
    w ∈ command.language := by
  have letters (text : List Char) (e : sameText w text) (ne : ascii text ≠ [])
      (ht : ((ascii text).map toLower).all alpha = true) : w ∈ command.language := by
    refine mem_command.mpr (.inl ⟨?_, fun b hb => alpha_of_toLower (List.all_eq_true.mp ht _ ?_)⟩)
    · rintro rfl
      exact ne (List.map_eq_nil_iff.mp e.symm)
    · exact e ▸ List.mem_map_of_mem hb
  unfold commandSignal at h
  split_ifs at h with h1 h2 h3 h4 h5
  · have len : w.length = 3 := by simpa [ascii] using congrArg List.length h1
    refine mem_command.mpr (.inr ⟨len, fun b hb => digit_of_toLower ?_⟩)
    have low : toLower b ∈ (ascii ['0', '0', '4']).map toLower := h1 ▸ List.mem_map_of_mem hb
    have digits : ((ascii ['0', '0', '4']).map toLower).all digit = true := by decide
    exact List.all_eq_true.mp digits _ low
  · exact letters _ h2 (by decide) (by decide)
  · exact letters _ h3 (by decide) (by decide)
  · exact letters _ h4 (by decide) (by decide)
  · exact letters _ h5 (by decide) (by decide)
  · exact absurd rfl h

theorem ascii_colon : ascii [':'] = [colon] := rfl
theorem ascii_sp : ascii [' '] = [sp] := rfl

theorem colon_not_command : [colon] ∉ command.language := by decide

theorem echo_eq : echo = (.echo, echo.2) := rfl

theorem select_initial (w : Bytes) :
    select (rules .initial) w =
      if w = [colon] then some .enterPrefix
      else if w ∈ command.language then some (wordRule w)
      else if w ∈ echo.2.language then some .echo else none := by
  have keyword (h : commandSignal w ≠ .unknown) : w ∈ command.language :=
    commandSignal_command h
  rw [rules, echo_eq]
  simp only [select_cons, mem_quoted, mem_anyCase, ascii_colon, select_nil]
  unfold wordRule
  unfold commandSignal at keyword ⊢
  simp only [sameText] at keyword ⊢
  split_ifs at keyword ⊢ <;> simp_all

theorem select_genericInitial (w : Bytes) :
    select (rules .genericInitial) w =
      if w = [colon] then some .enterPrefix
      else if w ∈ command.language then some .command
      else if w ∈ echo.2.language then some .echo else none := by
  rw [rules, echo_eq]
  simp only [select_cons, mem_quoted, ascii_colon, select_nil]

theorem select_pfx (w : Bytes) :
    select (rules .pfx) w =
      if w ∈ source.language then some .source
      else if w ∈ echo.2.language then some .echo else none := by
  rw [rules, echo_eq]
  simp only [select_cons, select_nil]
  rfl

theorem select_prefixOpt (w : Bytes) :
    select (rules .prefixOpt) w =
      if w = quotedUser then some .user
      else if w = quotedHost then some .host
      else if w = [sp] then some .leavePrefix
      else if w ∈ echo.2.language then some .echo else none := by
  rw [rules, echo_eq]
  simp only [select_cons, mem_quoted, ascii_sp, select_nil, quotedUser, quotedHost]

theorem select_params (w : Bytes) :
    select (rules .params) w =
      if w = [sp] then some .space
      else if w ∈ crlf.language then some .crlf
      else if w ∈ echo.2.language then some .echo else none := by
  rw [rules, echo_eq]
  simp only [select_cons, mem_quoted, ascii_sp, select_nil]

theorem select_genericParams (w : Bytes) :
    select (rules .genericParams) w =
      if w = [sp] then some .space
      else if w ∈ crlf.language then some .genericCrlf
      else if w ∈ echo.2.language then some .echo else none := by
  rw [rules, echo_eq]
  simp only [select_cons, mem_quoted, ascii_sp, select_nil]

theorem select_param (w : Bytes) :
    select (rules .param) w =
      if w = [colon] then some .colon
      else if w ∈ middle.language then some .middle
      else if w ∈ echo.2.language then some .echo else none := by
  rw [rules, echo_eq]
  simp only [select_cons, mem_quoted, ascii_colon, select_nil]

theorem select_trailing (w : Bytes) :
    select (rules .trailing) w =
      if w ∈ (star (cls trailingChar)).language then some .trailing
      else if w ∈ echo.2.language then some .echo else none := by
  rw [rules, echo_eq]
  simp only [select_cons, select_nil]
  rfl

theorem single_mem_echo {b : Byte} : [b] ∈ echo.2.language ↔ inTable b = true := by
  simp [mem_echo]

theorem append_not_echo {w x : Bytes} (hw : w ≠ []) (hx : x ≠ []) :
    w ++ x ∉ echo.2.language := by
  rw [mem_echo]
  rintro ⟨c, -, e⟩
  obtain ⟨b, t, rfl⟩ := List.exists_cons_of_ne_nil hw
  have empty : t ++ x = [] := (List.cons.inj e).2
  exact hx (List.append_eq_nil_iff.mp empty).2

/-! The command word: any matching text extends to one that cannot be prolonged. -/

theorem CommandWord.mem {w v : Bytes} (h : CommandWord w v) : w ∈ command.language := by
  cases h with
  | letters ne hw _ => exact mem_command.mpr (.inl ⟨ne, hw⟩)
  | digits len hw => exact mem_command.mpr (.inr ⟨len, hw⟩)

theorem CommandWord.ne_nil {w v : Bytes} (h : CommandWord w v) : w ≠ [] := by
  rintro rfl
  cases h with
  | letters ne _ _ => exact ne rfl
  | digits len _ => simp at len

theorem not_alpha_of_digit {b : Byte} (h : digit b = true) : alpha b = false := by
  grind [alpha, digit]

theorem CommandWord.longest {w v x y : Bytes} (h : CommandWord w v) (e : v = x ++ y)
    (hx : x ≠ []) : w ++ x ∉ command.language := by
  obtain ⟨c, z, rfl⟩ := List.exists_cons_of_ne_nil hx
  rw [mem_command]
  cases h with
  | letters ne hw stop =>
    obtain ⟨b, t, rfl⟩ := List.exists_cons_of_ne_nil ne
    rintro (⟨-, all⟩ | ⟨-, all⟩)
    · have := stop c (z ++ y) e
      simp [all c (by simp)] at this
    · have := not_alpha_of_digit (all b (by simp))
      simp [hw b (by simp)] at this
  | digits len hw =>
    obtain ⟨b, t, rfl⟩ := List.exists_cons_of_length_eq_add_one len
    rintro (⟨-, all⟩ | ⟨long, -⟩)
    · have := not_alpha_of_digit (hw b (by simp))
      simp [all b (by simp)] at this
    · rw [List.length_append, len] at long
      simp at long

theorem stops_dropWhile (p : Byte → Bool) (input : Bytes) : Stops p (input.dropWhile p) := by
  intro b v e
  have := List.head?_dropWhile_not p input
  simpa [e] using this

theorem exists_commandWord {w u : Bytes} (h : w ∈ command.language) :
    ∃ x y, w ++ u = x ++ y ∧ CommandWord x y := by
  rcases mem_command.mp h with ⟨ne, hw⟩ | ⟨len, hw⟩
  · refine ⟨(w ++ u).takeWhile alpha, (w ++ u).dropWhile alpha,
      List.takeWhile_append_dropWhile.symm, .letters ?_ ?_ (stops_dropWhile _ _)⟩
    · obtain ⟨b, t, rfl⟩ := List.exists_cons_of_ne_nil ne
      simp [hw b (by simp)]
    · exact fun b hb => List.mem_takeWhile_imp hb
  · exact ⟨w, u, rfl, .digits len hw⟩

theorem not_command_of_no_word {b : Byte} {v : Bytes}
    (h : ∀ w u, b :: v = w ++ u → ¬ CommandWord w u) {x y : Bytes} (e : b :: v = x ++ y) :
    x ∉ command.language := by
  intro hx
  obtain ⟨w, u, same, hw⟩ := exists_commandWord (u := y) hx
  exact h w u (e.trans same) hw

section words
variable {c : StartCondition} {f : Bytes → Rule}
  (sel : ∀ w, select (rules c) w =
    if w = [colon] then some .enterPrefix
    else if w ∈ command.language then some (f w)
    else if w ∈ echo.2.language then some .echo else none)
include sel

theorem isMunch_enterPrefix (v : Bytes) : IsMunch (rules c) ([colon] ++ v) .enterPrefix 1 := by
  refine .of_append (w := [colon]) (by rw [sel, if_pos rfl]) fun x y e hx => ?_
  have cmd : [colon] ++ x ∉ command.language := by
    rw [mem_command]
    rintro (⟨-, all⟩ | ⟨-, all⟩)
    · exact absurd (all colon (by simp)) (by decide)
    · exact absurd (all colon (by simp)) (by decide)
  rw [sel, if_neg (by simpa using hx), if_neg cmd, if_neg (append_not_echo (by simp) hx)]

theorem isMunch_word {w v : Bytes} (h : CommandWord w v) :
    IsMunch (rules c) (w ++ v) (f w) w.length := by
  have not_colon {u : Bytes} (hu : u ∈ command.language) : u ≠ [colon] := by
    rintro rfl
    exact colon_not_command hu
  refine .of_append (by rw [sel, if_neg (not_colon h.mem), if_pos h.mem]) fun x y e hx => ?_
  have ne := h.ne_nil
  rw [sel, if_neg (by simp [List.append_eq_singleton_iff, ne, hx]), if_neg (h.longest e hx),
    if_neg (append_not_echo ne hx)]

theorem isMunch_skip {b : Byte} {v : Bytes} (hb : inTable b = true) (hc : b ≠ colon)
    (h : ∀ w u, b :: v = w ++ u → ¬ CommandWord w u) : IsMunch (rules c) ([b] ++ v) .echo 1 := by
  refine .of_append (w := [b]) ?_ fun x y e hx => ?_
  · rw [sel, if_neg (by simpa using hc), if_neg (not_command_of_no_word h (y := v) rfl),
      if_pos (single_mem_echo.mpr hb)]
  · have cmd : [b] ++ x ∉ command.language :=
      not_command_of_no_word h (y := y) (by simp [e])
    rw [sel, if_neg (by simp [hx]), if_neg cmd, if_neg (append_not_echo (by simp) hx)]

end words

section separators
variable {c : StartCondition} {r : Rule}
  (sel : ∀ w, select (rules c) w =
    if w = [sp] then some .space
    else if w ∈ crlf.language then some r
    else if w ∈ echo.2.language then some .echo else none)
include sel

theorem isMunch_space (v : Bytes) : IsMunch (rules c) ([sp] ++ v) .space 1 := by
  refine .of_append (w := [sp]) (by rw [sel, if_pos rfl]) fun x y e hx => ?_
  have lines : [sp] ++ x ∉ crlf.language := by
    rw [mem_crlf]
    rintro (e | e) <;> exact absurd (List.cons.inj e).1 (by decide)
  rw [sel, if_neg (by simp [hx]), if_neg lines, if_neg (append_not_echo (by simp) hx)]

theorem isMunch_crlf {w : Bytes} (hw : w ∈ crlf.language) (v : Bytes) :
    IsMunch (rules c) (w ++ v) r w.length := by
  have len {u : Bytes} (hu : u ∈ crlf.language) : u.length = 2 := by
    rcases mem_crlf.mp hu with rfl | rfl <;> rfl
  have not_sp {u : Bytes} (hu : 2 ≤ u.length) : u ≠ [sp] := by
    rintro rfl
    simp at hu
  have two := len hw
  refine .of_append (by rw [sel, if_neg (not_sp two.ge), if_pos hw]) fun x y e hx => ?_
  have pos := List.length_pos_iff.mpr hx
  have long : 2 < (w ++ x).length := by
    rw [List.length_append]
    omega
  have ne : w ≠ [] := List.ne_nil_of_length_eq_add_one two
  rw [sel, if_neg (not_sp long.le), if_neg (fun h => by have := len h; omega),
    if_neg (append_not_echo ne hx)]

theorem isMunch_skip_separator {b : Byte} {v : Bytes} (hb : inTable b = true) (hs : b ≠ sp)
    (h : ∀ w u, b :: v = w ++ u → w ∉ crlf.language) : IsMunch (rules c) ([b] ++ v) .echo 1 := by
  refine .of_append (w := [b]) ?_ fun x y e hx => ?_
  · rw [sel, if_neg (by simpa using hs), if_neg (h [b] v rfl), if_pos (single_mem_echo.mpr hb)]
  · rw [sel, if_neg (by simp [hx]), if_neg (h ([b] ++ x) y (by simp [e])),
      if_neg (append_not_echo (by simp) hx)]

end separators

theorem source_head {w : Bytes} (h : w ∈ source.language) :
    ∃ b t, w = b :: t ∧ (alnum b = true ∨ special b = true) := by
  rcases mem_alt.mp h with h | h
  · obtain ⟨b, t, rfl, hb, -⟩ := mem_nickname.mp h
    refine ⟨b, t, rfl, ?_⟩
    rcases Bool.or_eq_true _ _ ▸ hb with hb | hb
    · simp [alnum, hb]
    · exact .inr hb
  · obtain ⟨⟨b, t, rfl, hb⟩, -⟩ := mem_servername h
    exact ⟨b, t, rfl, .inl hb⟩

theorem single_mem_source {b : Byte} (h : alnum b = true ∨ special b = true) :
    [b] ∈ source.language := by
  rcases h with h | h
  · exact mem_alt.mpr (.inr (singleton_mem_servername h))
  · exact mem_alt.mpr (.inl (mem_nickname.mpr ⟨b, [], rfl, by simp [nicknameStart, h], by simp⟩))

theorem not_mem_source {b : Byte} {t : Bytes} (ha : alnum b = false) (hs : special b = false) :
    [b] ++ t ∉ source.language := by
  intro h
  obtain ⟨c, u, e, hc⟩ := source_head h
  obtain ⟨rfl, rfl⟩ := List.cons.inj e
  simp [ha, hs] at hc

theorem not_mem_middle {b : Byte} {t : Bytes} (h : middleStart b = false) :
    [b] ++ t ∉ middle.language := by
  rw [mem_middle]
  rintro ⟨c, u, e, hc, -⟩
  obtain ⟨rfl, rfl⟩ := List.cons.inj e
  simp [h] at hc

theorem Token.isMunch {c : StartCondition} {r : Rule} {w v : Bytes} (h : Token c r w v) :
    IsMunch (rules c) (w ++ v) r w.length := by
  cases h with
  | enterPrefix => exact isMunch_enterPrefix select_initial v
  | word h => exact isMunch_word select_initial h
  | skipInitial hb hc h => exact isMunch_skip select_initial hb hc h
  | genericEnterPrefix => exact isMunch_enterPrefix select_genericInitial v
  | genericWord h => exact isMunch_word (f := fun _ => .command) select_genericInitial h
  | genericSkip hb hc h => exact isMunch_skip select_genericInitial hb hc h
  | source hw longest =>
    obtain ⟨b, t, rfl, -⟩ := source_head hw
    refine .of_append (by rw [select_pfx, if_pos hw]) fun x y e hx => ?_
    rw [select_pfx, if_neg (longest x y e hx), if_neg (append_not_echo (by simp) hx)]
  | skipPrefix hb ha hs =>
    refine .of_append (w := [_]) ?_ fun x y e hx => ?_
    · rw [select_pfx, if_neg (show [_] ∉ _ from not_mem_source (t := []) ha hs),
        if_pos (single_mem_echo.mpr hb)]
    · rw [select_pfx, if_neg (not_mem_source ha hs), if_neg (append_not_echo (by simp) hx)]
  | user =>
    refine .of_append (by rw [select_prefixOpt, if_pos rfl]) fun x y e hx => ?_
    have head : quotedUser ++ x ≠ quotedHost := by simp [quotedUser, quotedHost, ascii]
    rw [select_prefixOpt, if_neg (by simpa using hx), if_neg head, if_neg (by simp [quotedUser, ascii]),
      if_neg (append_not_echo (by decide) hx)]
  | host =>
    refine .of_append (by rw [select_prefixOpt]; rfl) fun x y e hx => ?_
    have head : quotedHost ++ x ≠ quotedUser := by simp [quotedUser, quotedHost, ascii]
    rw [select_prefixOpt, if_neg head, if_neg (by simpa using hx), if_neg (by simp [quotedHost, ascii]),
      if_neg (append_not_echo (by decide) hx)]
  | leavePrefix =>
    refine .of_append (w := [sp]) (by rw [select_prefixOpt]; rfl) fun x y e hx => ?_
    have user : [sp] ++ x ≠ quotedUser := by simp [quotedUser, ascii, sp]
    have host : [sp] ++ x ≠ quotedHost := by simp [quotedHost, ascii, sp]
    rw [select_prefixOpt, if_neg user, if_neg host, if_neg (by simp [hx]),
      if_neg (append_not_echo (by simp) hx)]
  | @skipPrefixOpt b _ hb hs hu hh =>
    have user {x y : Bytes} (e : v = x ++ y) : [b] ++ x ≠ quotedUser := fun h =>
      hu ⟨y, by rw [← h, e]; rfl⟩
    have host {x y : Bytes} (e : v = x ++ y) : [b] ++ x ≠ quotedHost := fun h =>
      hh ⟨y, by rw [← h, e]; rfl⟩
    refine .of_append (w := [b]) ?_ fun x y e hx => ?_
    · rw [select_prefixOpt, if_neg (show [b] ≠ _ from user (x := []) rfl),
        if_neg (show [b] ≠ _ from host (x := []) rfl),
        if_neg (by simpa using hs), if_pos (single_mem_echo.mpr hb)]
    · rw [select_prefixOpt, if_neg (user e), if_neg (host e), if_neg (by simp [hx]),
        if_neg (append_not_echo (by simp) hx)]
  | genericSpace => exact isMunch_space select_genericParams v
  | genericCrlf hw => exact isMunch_crlf select_genericParams hw v
  | genericSkipParams hb hs h => exact isMunch_skip_separator select_genericParams hb hs h
  | space => exact isMunch_space select_params v
  | crlf hw => exact isMunch_crlf select_params hw v
  | skipParams hb hs h => exact isMunch_skip_separator select_params hb hs h
  | colon =>
    refine .of_append (w := [CqIrc.colon]) (by rw [select_param]; rfl) fun x y e hx => ?_
    rw [select_param, if_neg (by simpa using hx), if_neg (not_mem_middle (by decide)),
      if_neg (append_not_echo (by simp) hx)]
  | middle hw stop =>
    obtain ⟨b, t, rfl, hb, ht⟩ := mem_middle.mp hw
    have not_colon {u : Bytes} : b :: u ≠ [CqIrc.colon] := by
      rintro e
      obtain rfl := (List.cons.inj e).1
      exact absurd hb (by decide)
    refine .of_append (by rw [select_param, if_neg not_colon, if_pos hw]) fun x y e hx => ?_
    obtain ⟨d, z, rfl⟩ := List.exists_cons_of_ne_nil hx
    have longer : b :: t ++ d :: z ∉ CqIrc.middle.language := by
      rw [mem_middle]
      rintro ⟨c, u, e', -, hu⟩
      obtain ⟨rfl, rfl⟩ := List.cons.inj e'
      have := stop d (z ++ y) e
      simp [hu d (by simp)] at this
    rw [select_param, List.cons_append, if_neg not_colon, ← List.cons_append, if_neg longer,
      if_neg (append_not_echo (by simp) hx)]
  | skipParam hb hc hs =>
    refine .of_append (w := [_]) ?_ fun x y e hx => ?_
    · rw [select_param, if_neg (by simpa using hc),
        if_neg (show [_] ∉ _ from not_mem_middle (t := []) hs), if_pos (single_mem_echo.mpr hb)]
    · rw [select_param, if_neg (by simp [hx]), if_neg (not_mem_middle hs),
        if_neg (append_not_echo (by simp) hx)]
  | trailing ne hw stop =>
    refine .of_append (by rw [select_trailing, if_pos (mem_star_cls.mpr hw)]) fun x y e hx => ?_
    obtain ⟨d, z, rfl⟩ := List.exists_cons_of_ne_nil hx
    have longer : w ++ d :: z ∉ (star (cls trailingChar)).language := by
      rw [mem_star_cls]
      intro all
      have := stop d (z ++ y) e
      simp [all d (by simp)] at this
    rw [select_trailing, if_neg longer, if_neg (append_not_echo ne hx)]
  | @skipTrailing b _ hb ht =>
    have none {x : Bytes} : [b] ++ x ∉ (star (cls trailingChar)).language := by
      rw [mem_star_cls]
      intro all
      simp [all b (by simp)] at ht
    refine .of_append (w := [b]) ?_ fun x y e hx => ?_
    · rw [select_trailing, if_neg (show [b] ∉ _ from none (x := [])),
        if_pos (single_mem_echo.mpr hb)]
    · rw [select_trailing, if_neg none, if_neg (append_not_echo (by simp) hx)]

end CqIrc
