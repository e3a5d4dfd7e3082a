import CqIrc.LexerTokens

/-! One turn of `yylex` seen through its tokens. `step_cases` says once what a turn
can do; every later result about runs goes through it or through `step_of_token`. -/

namespace CqIrc
open Flex Flex.Pattern

theorem Token.ne_nil {c : StartCondition} {r : Rule} {w v : Bytes} (h : Token c r w v) :
    w ≠ [] := by
  cases h with
  | word h => exact h.ne_nil
  | genericWord h => exact h.ne_nil
  | source hw _ =>
    obtain ⟨b, t, rfl, -⟩ := source_head hw
    simp
  | genericCrlf hw => rcases mem_crlf.mp hw with rfl | rfl <;> simp
  | crlf hw => rcases mem_crlf.mp hw with rfl | rfl <;> simp
  | middle hw _ =>
    obtain ⟨b, t, rfl, -⟩ := mem_middle.mp hw
    simp
  | trailing ne _ _ => exact ne
  | user => simp [quotedUser, ascii]
  | host => simp [quotedHost, ascii]
  | _ => simp

theorem Token.exists (c : StartCondition) {b : Byte} {v : Bytes} (hb : inTable b = true) :
    ∃ r w u, b :: v = w ++ u ∧ Token c r w u := by
  cases c with
  | initial =>
    by_cases hc : b = CqIrc.colon
    · subst hc
      exact ⟨_, _, v, rfl, .enterPrefix⟩
    by_cases hw : ∃ w u, b :: v = w ++ u ∧ CommandWord w u
    · obtain ⟨w, u, e, h⟩ := hw
      exact ⟨_, w, u, e, .word h⟩
    · exact ⟨_, [b], v, rfl, .skipInitial hb hc fun w u e h => hw ⟨w, u, e, h⟩⟩
  | genericInitial =>
    by_cases hc : b = CqIrc.colon
    · subst hc
      exact ⟨_, _, v, rfl, .genericEnterPrefix⟩
    by_cases hw : ∃ w u, b :: v = w ++ u ∧ CommandWord w u
    · obtain ⟨w, u, e, h⟩ := hw
      exact ⟨_, w, u, e, .genericWord h⟩
    · exact ⟨_, [b], v, rfl, .genericSkip hb hc fun w u e h => hw ⟨w, u, e, h⟩⟩
  | pfx =>
    by_cases hs : alnum b = true ∨ special b = true
    · obtain ⟨w, u, e, hw, longest⟩ := exists_longest (v := v) (single_mem_source hs)
      exact ⟨_, w, u, e, .source hw longest⟩
    · obtain ⟨ha, hs⟩ := not_or.mp hs
      exact ⟨_, [b], v, rfl, .skipPrefix hb (by simpa using ha) (by simpa using hs)⟩
  | prefixOpt =>
    by_cases hs : b = sp
    · subst hs
      exact ⟨_, _, v, rfl, .leavePrefix⟩
    by_cases hu : quotedUser <+: b :: v
    · obtain ⟨u, e⟩ := hu
      exact ⟨_, _, u, e.symm, .user⟩
    by_cases hh : quotedHost <+: b :: v
    · obtain ⟨u, e⟩ := hh
      exact ⟨_, _, u, e.symm, .host⟩
    · exact ⟨_, [b], v, rfl, .skipPrefixOpt hb hs hu hh⟩
  | genericParams =>
    by_cases hs : b = sp
    · subst hs
      exact ⟨_, _, v, rfl, .genericSpace⟩
    by_cases hw : ∃ w u, b :: v = w ++ u ∧ w ∈ CqIrc.crlf.language
    · obtain ⟨w, u, e, h⟩ := hw
      exact ⟨_, w, u, e, .genericCrlf h⟩
    · exact ⟨_, [b], v, rfl, .genericSkipParams hb hs fun w u e h => hw ⟨w, u, e, h⟩⟩
  | params =>
    by_cases hs : b = sp
    · subst hs
      exact ⟨_, _, v, rfl, .space⟩
    by_cases hw : ∃ w u, b :: v = w ++ u ∧ w ∈ CqIrc.crlf.language
    · obtain ⟨w, u, e, h⟩ := hw
      exact ⟨_, w, u, e, .crlf h⟩
    · exact ⟨_, [b], v, rfl, .skipParams hb hs fun w u e h => hw ⟨w, u, e, h⟩⟩
  | param =>
    by_cases hc : b = CqIrc.colon
    · subst hc
      exact ⟨_, _, v, rfl, .colon⟩
    by_cases hm : middleStart b = true
    · refine ⟨_, b :: v.takeWhile middleChar, v.dropWhile middleChar, by simp,
        .middle (mem_middle.mpr ⟨b, _, rfl, hm, fun d hd => ?_⟩) (stops_dropWhile _ _)⟩
      exact List.mem_takeWhile_imp hd
    · exact ⟨_, [b], v, rfl, .skipParam hb hc (by simpa using hm)⟩
  | trailing =>
    by_cases ht : trailingChar b = true
    · refine ⟨_, (b :: v).takeWhile trailingChar, (b :: v).dropWhile trailingChar,
        List.takeWhile_append_dropWhile.symm, .trailing (by simp [ht]) (fun d hd => ?_)
          (stops_dropWhile _ _)⟩
      exact List.mem_takeWhile_imp hd
    · exact ⟨_, [b], v, rfl, .skipTrailing hb (by simpa using ht)⟩

theorem rules_ne_nil (c : StartCondition) : rules c ≠ [] := by
  cases c <;> simp [rules]

theorem munch_token {c : StartCondition} {b : Byte} {v : Bytes} {r : Rule} {n : Nat}
    (h : munch inTable (rules c) (b :: v) = some (some (r, n))) :
    Token c r ((b :: v).take n) ((b :: v).drop n) := by
  have hb : inTable b = true := munch_head_column (v := v) (rules_ne_nil c) (by simp [h])
  obtain ⟨r', w, u, e, token⟩ := Token.exists c (v := v) hb
  obtain ⟨rfl, rfl⟩ := (munch_isMunch h).unique (e ▸ token.isMunch)
  simpa [e] using token

/-- What one turn of the scanner can do. -/
theorem step_cases (cb : Callbacks) (s : State) :
    (s.input = [] ∧ step cb s = s.exit (-2) (destroyMessage s.message ++ [s.command])) ∨
    (s.input ≠ [] ∧ munch inTable (rules s.start) s.input = none ∧
      step cb s = .fault .outOfTable) ∨
    ∃ r w v, s.input = w ++ v ∧ (∀ b ∈ w, inTable b = true) ∧ Token s.start r w v ∧
      step cb s = action cb { s with input := v } w r := by
  cases hi : s.input with
  | nil => exact .inl ⟨rfl, by simp [step, hi]⟩
  | cons b u =>
    right
    cases hm : munch inTable (rules s.start) (b :: u) with
    | none => exact .inl ⟨by simp, rfl, by simp [step, hi, hm]⟩
    | some res =>
      cases res with
      | none =>
        have hb : inTable b = true :=
          munch_head_column (v := u) (rules_ne_nil s.start) (by simp [hm])
        obtain ⟨r, w, v, e, token⟩ := Token.exists s.start (v := u) hb
        exact absurd hm (munch_ne_none_none (e ▸ token.isMunch))
      | some hit =>
        obtain ⟨r, n⟩ := hit
        refine .inr ⟨r, _, _, (List.take_append_drop n _).symm, munch_columns hm,
          munch_token hm, ?_⟩
        simp [step, hi, hm]

theorem step_of_token {cb : Callbacks} {s : State} {r : Rule} {w v : Bytes}
    (token : Token s.start r w v) (hi : s.input = w ++ v)
    (hc : ∀ b ∈ s.input, inTable b = true) :
    step cb s = action cb { s with input := v } w r := by
  have hm := munch_of_isMunch hc (hi ▸ token.isMunch)
  obtain ⟨b, u, e⟩ := List.exists_cons_of_ne_nil
    (show s.input ≠ [] by rw [hi]; simp [token.ne_nil])
  rw [hi] at hm
  simp only [step, e]
  rw [← e, hi, hm]
  simp

end CqIrc
