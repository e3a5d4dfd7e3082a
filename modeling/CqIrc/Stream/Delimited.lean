import Mathlib.Data.List.Infix

/-! Cutting a stream at a delimiter. `cut` reads letters behind those already held
until the held text ends with the delimiter; `pieces` goes on to the end. What has
been read so far is all that matters, so a stream may arrive in any chunks. -/

namespace CqIrc.Stream
variable {α : Type*}

theorem next_prefix {a : α} {acc u q : List α} (h : q <+: acc ++ a :: u)
    (long : acc.length < q.length) : acc ++ [a] <+: q := by
  have whole : acc ++ [a] <+: acc ++ a :: u := ⟨u, by simp⟩
  exact List.prefix_of_prefix_length_le whole h (by simpa [Nat.succ_le_iff] using long)

variable [DecidableEq α]

/-- A text that ends with the delimiter and none of whose front pieces does. -/
structure EndsAtFirst (d p : List α) : Prop where
  ends : d <:+ p
  first : ∀ q, q <+: p → d <:+ q → q = p

instance (d p : List α) : Decidable (EndsAtFirst d p) :=
  decidable_of_iff (d <:+ p ∧ ∀ q ∈ p.inits, d <:+ q → q = p)
    ⟨fun h => ⟨h.1, fun q hq => h.2 q ((List.mem_inits q p).mpr hq)⟩,
      fun h => ⟨h.ends, fun q hq => h.first q ((List.mem_inits q p).mp hq)⟩⟩

/-- The held letters and those up to the first delimiter, and the letters behind it. -/
def cut (d : List α) : List α → List α → Option (List α × List α)
  | _, [] => none
  | acc, a :: u => if d <:+ acc ++ [a] then some (acc ++ [a], u) else cut d (acc ++ [a]) u

def pieces (d : List α) : List α → List α → List (List α) × List α
  | acc, [] => ([], acc)
  | acc, a :: u =>
    if d <:+ acc ++ [a] then ((acc ++ [a]) :: (pieces d [] u).1, (pieces d [] u).2)
    else pieces d (acc ++ [a]) u

variable {d acc u v p rest : List α}

theorem cut_eq (h : cut d acc u = some (p, rest)) : acc ++ u = p ++ rest := by
  induction u generalizing acc with
  | nil => cases h
  | cons a u ih =>
    rw [cut] at h
    split at h
    · cases h
      simp
    · simpa using ih h

theorem cut_append (h : cut d acc u = some (p, rest)) (v : List α) :
    cut d acc (u ++ v) = some (p, rest ++ v) := by
  induction u generalizing acc with
  | nil => cases h
  | cons a u ih =>
    rw [cut] at h
    rw [List.cons_append, cut]
    split at h
    · next ends =>
      cases h
      rw [if_pos ends]
    · next inside =>
      rw [if_neg inside]
      exact ih h

theorem cut_first (h : cut d acc u = some (p, rest)) :
    d <:+ p ∧ ∀ q, q <+: p → acc.length < q.length → d <:+ q → q = p := by
  induction u generalizing acc with
  | nil => cases h
  | cons a u ih =>
    have whole := cut_eq h
    rw [cut] at h
    split at h
    · next ends =>
      cases h
      refine ⟨ends, fun q hq long _ => hq.eq_of_length_le ?_⟩
      simpa [Nat.succ_le_iff] using long
    · next inside =>
      obtain ⟨ends, first⟩ := ih h
      refine ⟨ends, fun q hq long hd => first q hq ?_ hd⟩
      have next := next_prefix (hq.trans ⟨rest, whole.symm⟩) long
      rcases Nat.eq_or_lt_of_le next.length_le with same | longer
      · exact absurd (next.eq_of_length same ▸ hd) inside
      · exact longer

theorem cut_endsAtFirst (hd : d ≠ []) (h : cut d [] u = some (p, rest)) : EndsAtFirst d p := by
  obtain ⟨ends, first⟩ := cut_first h
  refine ⟨ends, fun q hq hdq => first q hq ?_ hdq⟩
  exact lt_of_lt_of_le (List.length_pos_iff.mpr hd) hdq.length_le

theorem pieces_of_cut (h : cut d acc u = some (p, rest)) :
    pieces d acc u = (p :: (pieces d [] rest).1, (pieces d [] rest).2) := by
  induction u generalizing acc with
  | nil => cases h
  | cons a u ih =>
    rw [cut] at h
    rw [pieces]
    split at h
    · next ends =>
      cases h
      rw [if_pos ends]
    · next inside =>
      rw [if_neg inside]
      exact ih h

theorem pieces_of_no_cut (h : cut d acc u = none) : pieces d acc u = ([], acc ++ u) := by
  induction u generalizing acc with
  | nil => simp [pieces]
  | cons a u ih =>
    rw [cut] at h
    rw [pieces]
    split at h
    · cases h
    · next inside =>
      rw [if_neg inside, ih h]
      simp

theorem cut_of_endsAtFirst (h : EndsAtFirst d (acc ++ u)) (hu : u ≠ []) (v : List α) :
    cut d acc (u ++ v) = some (acc ++ u, v) := by
  induction u generalizing acc with
  | nil => exact absurd rfl hu
  | cons a u ih =>
    have split : acc ++ a :: u = acc ++ [a] ++ u := by simp
    rw [List.cons_append, cut]
    by_cases ends : d <:+ acc ++ [a]
    · have whole := h.first (acc ++ [a]) ⟨u, split.symm⟩ ends
      obtain rfl : u = [] := by simpa using whole
      rw [if_pos ends, List.nil_append]
    · have more : u ≠ [] := by
        rintro rfl
        exact ends h.ends
      rw [if_neg ends, split]
      exact ih (split ▸ h) more

theorem pieces_append {ps : List (List α)} (ne : d ≠ []) (hp : ∀ p ∈ ps, EndsAtFirst d p)
    (u : List α) :
    pieces d [] (ps.flatten ++ u) = (ps ++ (pieces d [] u).1, (pieces d [] u).2) := by
  induction ps with
  | nil => rfl
  | cons p ps ih =>
    obtain ⟨first, later⟩ := List.forall_mem_cons.mp hp
    have some_ : p ≠ [] := by
      rintro rfl
      exact ne (List.suffix_nil.mp first.ends)
    have read : cut d [] (p ++ (ps.flatten ++ u)) = some (p, ps.flatten ++ u) :=
      cut_of_endsAtFirst first some_ (ps.flatten ++ u)
    rw [List.flatten_cons, List.append_assoc, pieces_of_cut read, ih later]
    rfl

theorem pieces_of_split {ps : List (List α)} (ne : d ≠ []) (hp : ∀ p ∈ ps, EndsAtFirst d p)
    (hr : cut d [] rest = none) : pieces d [] (ps.flatten ++ rest) = (ps, rest) := by
  rw [pieces_append ne hp, pieces_of_no_cut hr, List.append_nil, List.nil_append]

omit [DecidableEq α] in
/-- A delimiter of which the first letter occurs nowhere in front of it. -/
theorem endsAtFirst_of_not_mem {a : α} {w : List α} (ha : a ∉ w) (hd : a ∉ d) :
    EndsAtFirst (a :: d) (w ++ a :: d) where
  ends := List.suffix_append w (a :: d)
  first q hq hdq := by
    obtain ⟨x, rfl⟩ := hdq
    obtain ⟨y, same⟩ := hq
    have split : w ++ a :: d = x ++ a :: (d ++ y) := by simpa using same.symm
    obtain ⟨rfl, -, -⟩ := (List.append_cons_inj_of_notMem ha hd).mp split
    rfl

def FreeBefore (d text : List α) (i : Nat) : Prop := ∀ j < i, ¬ d <+: text.drop j

section searching
variable {text : List α} {i : Nat}

/-- The first delimiter of a text is where the text is cut. -/
theorem cut_of_match (ne : d ≠ []) (free : FreeBefore d text i) (h : d <+: text.drop i) :
    cut d [] text = some (text.take (i + d.length), text.drop (i + d.length)) := by
  obtain ⟨v, hv⟩ := h
  have inside : i ≤ text.length := by
    by_contra beyond
    rw [List.drop_eq_nil_of_le (by omega)] at hv
    exact ne (List.append_eq_nil_iff.mp hv).1
  have piece : text.take (i + d.length) = text.take i ++ d := by
    rw [List.take_add, ← hv, List.take_left]
  have first : EndsAtFirst d (text.take (i + d.length)) := by
    refine ⟨piece ▸ List.suffix_append _ _, fun q hq hdq => ?_⟩
    obtain ⟨x, rfl⟩ := hdq
    have whole : x ++ d <+: text := hq.trans (List.take_prefix _ _)
    obtain ⟨y, hy⟩ := whole
    have match_ : d <+: text.drop x.length := ⟨y, by rw [← hy, List.append_assoc, List.drop_left]⟩
    have far : i ≤ x.length := Nat.le_of_not_lt fun near => free x.length near match_
    refine hq.eq_of_length_le ?_
    rw [piece, List.length_append, List.length_append, List.length_take]
    omega
  have some_ : text.take (i + d.length) ≠ [] := fun none => by
    rw [piece] at none
    exact ne (List.append_eq_nil_iff.mp none).2
  have read : cut d [] (text.take (i + d.length) ++ text.drop (i + d.length)) =
      some (text.take (i + d.length), text.drop (i + d.length)) :=
    cut_of_endsAtFirst first some_ (text.drop (i + d.length))
  rwa [List.take_append_drop] at read

theorem cut_of_free (ne : d ≠ []) (free : FreeBefore d text text.length) :
    cut d [] text = none := by
  refine Option.eq_none_iff_forall_not_mem.mpr fun x hx => ?_
  obtain ⟨p, rest⟩ := x
  have whole : text = p ++ rest := cut_eq hx
  obtain ⟨w, rfl⟩ := (cut_first hx).1
  have pos := List.length_pos_iff.mpr ne
  refine free w.length ?_ ⟨rest, ?_⟩
  · rw [whole, List.length_append, List.length_append]
    omega
  · rw [whole, List.append_assoc, List.drop_left]

end searching

end CqIrc.Stream
