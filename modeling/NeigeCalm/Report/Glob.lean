import Mathlib.Data.List.Forall2
import NeigeCalm.Library.Lines

/-!
# Name patterns

The matcher of `report find --name` goes back to one place only, the last star.  `Standing` says
why that is enough: what an earlier star would leave to the rest of the pattern, the last one can
take as well.
-/

namespace NeigeCalm.Report.Glob

open Library List

/-- The loop of the source, with the last star seen and the text position it is extended to;
`none` where the fuel runs out. -/
def loop (pattern text : Text) : Nat → Nat → Nat → Option (Nat × Nat) → Option Bool
  | 0, _, _, _ => none
  | fuel + 1, p, t, star =>
    if t < text.length then
      if pattern[p]? = some '?' ∨ pattern[p]? ≠ some '*' ∧ pattern[p]? = text[t]? then
        loop pattern text fuel (p + 1) (t + 1) star
      else if pattern[p]? = some '*' then loop pattern text fuel (p + 1) t (some (p, t))
      else star.elim (some false) fun (starP, starT) =>
        loop pattern text fuel (starP + 1) (starT + 1) (some (starP, starT + 1))
    else some ((pattern.drop p).all (· = '*'))

def globMatches (fuel : Nat) (pattern text : Text) : Option Bool := loop pattern text fuel 0 0 none

/-! ## Pieces -/

/-- The pieces a pattern character may take. -/
def Takes (c : Char) (piece : Text) : Prop :=
  c = '*' ∨ c = '?' ∧ piece.length = 1 ∨ c ≠ '?' ∧ piece = [c]

/-- The text is cut into consecutive pieces, one for each character of the pattern. -/
def Cut (pattern text : Text) : Prop :=
  ∃ pieces, pieces.flatten = text ∧ Forall₂ Takes pattern pieces

variable {pattern text : Text} {p t : Nat} {star : Option (Nat × Nat)}

theorem cut_nil : Cut [] text ↔ text = [] := by
  simp [Cut, eq_comm]

theorem cut_cons : Cut (c :: pattern) text ↔
    ∃ piece rest, piece ++ rest = text ∧ Takes c piece ∧ Cut pattern rest := by
  constructor
  · rintro ⟨_, rfl, pieces⟩
    obtain ⟨piece, rest, takes, cut, rfl⟩ := forall₂_cons_left_iff.mp pieces
    exact ⟨piece, rest.flatten, rfl, takes, rest, rfl, cut⟩
  · rintro ⟨piece, _, rfl, takes, rest, rfl, pieces⟩
    exact ⟨piece :: rest, rfl, pieces.cons takes⟩

theorem cut_star : Cut ('*' :: pattern) text ↔ ∃ rest, rest <:+ text ∧ Cut pattern rest := by
  rw [cut_cons]
  constructor
  · rintro ⟨piece, rest, whole, -, cut⟩
    exact ⟨rest, ⟨piece, whole⟩, cut⟩
  · rintro ⟨rest, ⟨piece, whole⟩, cut⟩
    exact ⟨piece, rest, whole, .inl rfl, cut⟩

theorem cut_one (noStar : c ≠ '*') :
    Cut (c :: pattern) text ↔ ∃ d rest, text = d :: rest ∧ (c = '?' ∨ c = d) ∧
      Cut pattern rest := by
  rw [cut_cons]
  constructor
  · rintro ⟨piece, rest, rfl, star | ⟨any, one⟩ | ⟨-, rfl⟩, cut⟩
    · exact absurd star noStar
    · obtain ⟨d, rfl⟩ := length_eq_one_iff.mp one
      exact ⟨d, rest, rfl, .inl any, cut⟩
    · exact ⟨c, rest, rfl, .inr rfl, cut⟩
  · rintro ⟨d, rest, rfl, fits, cut⟩
    refine ⟨[d], rest, rfl, .inr ?_, cut⟩
    by_cases any : c = '?'
    · exact .inl ⟨any, rfl⟩
    · exact .inr ⟨any, congrArg ([·]) (fits.resolve_left any).symm⟩

/-- A star takes nothing, or the first character and then goes on. -/
theorem cut_star_iff : Cut ('*' :: pattern) text ↔
    Cut pattern text ∨ Cut ('*' :: pattern) text.tail := by
  cases text with
  | nil => simp [cut_star]
  | cons d text => simp [cut_star, suffix_cons_iff, or_and_right, exists_or]

theorem cut_star_star (cut : Cut ('*' :: '*' :: pattern) text) : Cut ('*' :: pattern) text := by
  obtain ⟨rest, suffix, cut⟩ := cut_star.mp cut
  obtain ⟨rest', suffix', cut⟩ := cut_star.mp cut
  exact cut_star.mpr ⟨rest', suffix'.trans suffix, cut⟩

/-- The character behind a star takes one of the text, wherever it is. -/
theorem cut_star_one (noStar : c ≠ '*') (cut : Cut ('*' :: c :: pattern) text) :
    Cut ('*' :: pattern) text.tail := by
  obtain ⟨_, ⟨before, rfl⟩, found⟩ := cut_star.mp cut
  obtain ⟨d, rest, rfl, -, cut⟩ := (cut_one noStar).mp found
  refine cut_star.mpr ⟨rest, ?_, cut⟩
  cases before with
  | nil => exact suffix_rfl
  | cons _ before => exact ⟨before ++ [d], by simp⟩

theorem cut_all_stars : Cut pattern [] ↔ pattern.all (· = '*') = true := by
  induction pattern with
  | nil => simp [cut_nil]
  | cons c pattern ih =>
    by_cases isStar : c = '*'
    · subst isStar
      simp [cut_star, ih]
    · simp [cut_one isStar, isStar]

/-! ## The loop -/

theorem drop_of_get (here : pattern[p]? = some c) : pattern.drop p = c :: pattern.drop (p + 1) := by
  obtain ⟨inside, rfl⟩ := List.getElem?_eq_some_iff.mp here
  exact drop_eq_getElem_cons inside

theorem cut_here (within : t < text.length) (noStar : pattern[p]? ≠ some '*') :
    Cut (pattern.drop p) (text.drop t) ↔ (pattern[p]? = some '?' ∨ pattern[p]? = text[t]?) ∧
      Cut (pattern.drop (p + 1)) (text.drop (t + 1)) := by
  have there := List.getElem?_eq_getElem within
  cases here : pattern[p]? with
  | none =>
    rw [drop_eq_nil_of_le (getElem?_eq_none_iff.mp here), cut_nil, there]
    simp [within]
  | some c =>
    rw [drop_of_get here, drop_of_get there, cut_one fun star => noStar (star ▸ here), there]
    simp only [Option.some_inj]
    constructor
    · rintro ⟨_, _, ⟨⟩, found⟩
      exact found
    · exact fun found => ⟨_, _, rfl, found⟩

/-- What the loop knows at the positions `p` and `t`. -/
structure Standing (pattern text : Text) (p t : Nat) (star : Option (Nat × Nat)) : Prop where
  cut_iff : Cut pattern text ↔ Cut (pattern.drop p) (text.drop t) ∨
    ∃ last ∈ star, Cut (pattern.drop last.1) (text.drop (last.2 + 1))
  behind : ∀ last ∈ star, pattern[last.1]? = some '*' ∧ last.1 < p ∧ last.2 ≤ t
  /-- Since the last star, each character took one of the text. -/
  later : ∀ last ∈ star, Cut (pattern.drop last.1) (text.drop (last.2 + 1)) →
    Cut ('*' :: pattern.drop p) (text.drop t).tail

theorem Standing.of_star (here : pattern[p]? = some '*')
    (cut : Cut pattern text ↔ Cut (pattern.drop p) (text.drop t)) :
    Standing pattern text (p + 1) t (some (p, t)) where
  cut_iff := by
    have first := drop_of_get here
    rw [cut, first, cut_star_iff, tail_drop, ← first]
    simp
  behind last isLast := by
    cases isLast
    exact ⟨here, Nat.lt_succ_self p, Nat.le_refl t⟩
  later last isLast cut := by
    cases isLast
    rwa [tail_drop, ← drop_of_get here]

section

variable (standing : Standing pattern text p t star)

include standing

theorem Standing.next (within : t < text.length) (noStar : pattern[p]? ≠ some '*')
    (fits : pattern[p]? = some '?' ∨ pattern[p]? = text[t]?) :
    Standing pattern text (p + 1) (t + 1) star where
  cut_iff := by
    rw [standing.cut_iff, cut_here within noStar, and_iff_right fits]
  behind last isLast := by
    obtain ⟨isStar, before, taken⟩ := standing.behind last isLast
    exact ⟨isStar, Nat.lt_succ_of_lt before, Nat.le_succ_of_le taken⟩
  later last isLast cut := by
    have cut := standing.later last isLast cut
    obtain ⟨c, here⟩ : ∃ c, pattern[p]? = some c := by
      rw [List.getElem?_eq_getElem within] at fits
      exact fits.elim (⟨_, ·⟩) (⟨_, ·⟩)
    rw [drop_of_get here, tail_drop] at cut
    exact cut_star_one (fun star => noStar (star ▸ here)) cut

/-- What an earlier star would leave to the rest of the pattern, this one can take. -/
theorem Standing.pass (here : pattern[p]? = some '*') :
    Standing pattern text (p + 1) t (some (p, t)) := by
  refine .of_star here (standing.cut_iff.trans (or_iff_left_iff_imp.mpr ?_))
  rintro ⟨last, isLast, cut⟩
  have cut := standing.later last isLast cut
  rw [drop_of_get here] at cut ⊢
  exact cut_star_iff.mpr (.inr (cut_star_star cut))

theorem Standing.back (stuck : ¬Cut (pattern.drop p) (text.drop t)) (isLast : star = some last) :
    Standing pattern text (last.1 + 1) (last.2 + 1) (some (last.1, last.2 + 1)) := by
  refine .of_star (standing.behind last isLast).1 ?_
  rw [standing.cut_iff, or_iff_right stuck, isLast]
  simp

theorem Standing.ends (past : text.length ≤ t) :
    Cut pattern text ↔ (pattern.drop p).all (· = '*') = true := by
  rw [standing.cut_iff, drop_eq_nil_of_le past, cut_all_stars, or_iff_left_iff_imp]
  rintro ⟨last, isLast, cut⟩
  have cut := standing.later last isLast cut
  rw [drop_eq_nil_of_le past, tail_nil, cut_all_stars] at cut
  simpa using cut

end

/-- With enough fuel the loop answers, and more changes nothing. -/
def Answers (pattern text : Text) (p t : Nat) (star : Option (Nat × Nat)) : Prop :=
  ∃ fuel result, (∀ more, loop pattern text (fuel + more) p t star = some result) ∧
    (result = true ↔ Cut pattern text)

theorem Answers.of_step (answers : Answers pattern text p' t' star')
    (step : ∀ fuel, loop pattern text (fuel + 1) p t star = loop pattern text fuel p' t' star') :
    Answers pattern text p t star := by
  obtain ⟨fuel, result, found, exact⟩ := answers
  refine ⟨fuel + 1, result, fun more => ?_, exact⟩
  rw [Nat.add_right_comm, step, found]

/-- Every turn moves on in the text, or extends its star, or passes to a later one. -/
theorem Standing.answers {p t : Nat} {star : Option (Nat × Nat)}
    (standing : Standing pattern text p t star) : Answers pattern text p t star := by
  by_cases within : t < text.length
  · by_cases fits : pattern[p]? = some '?' ∨ pattern[p]? ≠ some '*' ∧ pattern[p]? = text[t]?
    · have next := standing.next within (by grind) (by grind)
      exact .of_step (Standing.answers next) fun fuel => by rw [loop, if_pos within, if_pos fits]
    by_cases isStar : pattern[p]? = some '*'
    · have next := standing.pass isStar
      exact .of_step (Standing.answers next) fun fuel => by
        rw [loop, if_pos within, if_neg fits, if_pos isStar]
    have stuck : ¬Cut (pattern.drop p) (text.drop t) := by
      rw [cut_here within isStar]
      grind
    cases isLast : star with
    | none =>
      refine ⟨1, false, fun more => ?_, ?_⟩
      · rw [Nat.add_comm, loop, if_pos within, if_neg fits, if_neg isStar]
        rfl
      · simpa [standing.cut_iff, isLast] using stuck
    | some last =>
      have next := standing.back stuck isLast
      exact .of_step (Standing.answers next) fun fuel => by
        rw [loop, if_pos within, if_neg fits, if_neg isStar]
        rfl
  · refine ⟨1, _, fun more => ?_, (standing.ends (by omega)).symm⟩
    rw [Nat.add_comm, loop, if_neg within]
termination_by (star.elim pattern.length fun last => pattern.length - (last.1 + 1),
  star.elim 0 fun last => text.length - last.2, text.length - t)
decreasing_by
  · exact .right _ (.right _ (by omega))
  · left
    have := (List.getElem?_eq_some_iff.mp isStar).1
    cases star with
    | none => simp only [Option.elim]; omega
    | some last =>
      have := standing.behind last rfl
      simp only [Option.elim]
      omega
  · have := standing.behind last isLast
    rw [isLast]
    refine .right _ (Prod.Lex.left _ _ ?_)
    simp only [Option.elim]
    omega

/-- **The name patterns are exact.**  With enough fuel the matcher answers, and its answer is
whether the text can be cut into one piece for each character of the pattern. -/
theorem globMatches_exact (pattern text : Text) : ∃ fuel result,
    (∀ more, globMatches (fuel + more) pattern text = some result) ∧
      (result = true ↔ Cut pattern text) :=
  Standing.answers ⟨by simp, nofun, nofun⟩

end NeigeCalm.Report.Glob
