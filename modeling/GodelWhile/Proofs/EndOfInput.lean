import Mathlib
import GodelWhile.Proofs.SideBySide

/-! # Nothing after the end is read

The parser stops where the input ends, be it that a stream has run dry or that it shows an end marker.
Streams that have the same tokens before their ends are read side by side, so they give the same
program or the same error. Only an error found at the end itself differs, in its place: that of the
end marker, or none if there is no marker. -/

namespace GodelWhile

/-- The same tokens before two ends. -/
def Parallel.ends (a b : List Located) : Parallel where
  streams ts us := ∃ w, (∀ t ∈ w, t.token ≠ .endOfInput) ∧ ts = w ++ a ∧ us = w ++ b
  errors e f :=
    (f = e ∧ ∀ expected, e.cause ≠ .unexpectedToken expected .endOfInput) ∨
      ∃ expected, e = ⟨(Parser.next a).pos, .unexpectedToken expected .endOfInput⟩ ∧
        f = ⟨(Parser.next b).pos, .unexpectedToken expected .endOfInput⟩
  code := id

/-- At the end only the end can be blamed, as an unexpected token. -/
theorem SyntaxError.Cause.Blames.endOfInput {cause : SyntaxError.Cause}
    (h : cause.Blames .endOfInput) : ∃ expected, cause = .unexpectedToken expected .endOfInput := by
  cases cause with
  | unexpectedToken expected found => exact ⟨expected, by rw [show found = .endOfInput from h]⟩
  | unknownDirective name => cases h.1
  | unknownCategory name => cases h.1
  | unexpectedCharacter c => cases h

theorem SyntaxError.Cause.Blames.not_endOfInput {cause : SyntaxError.Cause} {t : Token}
    (h : cause.Blames t) (ht : t ≠ .endOfInput) (expected : Expectation) :
    cause ≠ .unexpectedToken expected .endOfInput := by
  rintro rfl
  exact ht (Eq.symm h)

theorem Parallel.closed_ends {a b : List Located} (ha : (Parser.next a).token = .endOfInput)
    (hb : (Parser.next b).token = .endOfInput) : (Parallel.ends a b).Closed where
  token := by
    rintro _ _ ⟨w, -, rfl, rfl⟩
    cases w with
    | nil => exact ha.trans hb.symm
    | cons t w => rfl
  tail := by
    rintro _ _ ⟨w, hw, rfl, rfl⟩ hnext
    cases w with
    | nil => exact absurd ha hnext
    | cons t w => exact ⟨w, fun u hu => hw u (.tail _ hu), rfl, rfl⟩
  blame := by
    rintro _ _ cause ⟨w, hw, rfl, rfl⟩ hblames
    cases w with
    | nil =>
      rw [List.nil_append, ha] at hblames
      obtain ⟨expected, rfl⟩ := hblames.endOfInput
      exact .inr ⟨expected, rfl, rfl⟩
    | cons t w => exact .inl ⟨rfl, hblames.not_endOfInput (hw t (.head _))⟩
  trace := by
    rintro _ _ ⟨w, -, rfl, rfl⟩ hnext
    cases w with
    | nil => exact absurd ha hnext
    | cons t w => rfl
  shape := Code.keepsShape_id

/-- A stream without end marker, the same with one, and the same with more behind it give the same
program or the same error. Only if the error is found at the end, its place is that of the marker, or
none where there is no marker. -/
theorem parseProgram_end {w : List Located} (hw : ∀ t ∈ w, t.token ≠ .endOfInput) (p : Position)
    (following : List Located) :
    parseProgram (w ++ [⟨.endOfInput, p⟩] ++ following) = parseProgram (w ++ [⟨.endOfInput, p⟩]) ∧
    ((∃ c, parseProgram w = .ok c ∧ parseProgram (w ++ [⟨.endOfInput, p⟩]) = .ok c) ∨
      (∃ e, parseProgram w = .error e ∧ parseProgram (w ++ [⟨.endOfInput, p⟩]) = .error e ∧
        ∀ expected, e.cause ≠ .unexpectedToken expected .endOfInput) ∨
      ∃ expected,
        parseProgram w = .error ⟨.nowhere, .unexpectedToken expected .endOfInput⟩ ∧
        parseProgram (w ++ [⟨.endOfInput, p⟩]) =
          .error ⟨p, .unexpectedToken expected .endOfInput⟩) := by
  have hends : ∀ a b : List Located, (Parallel.ends a b).streams (w ++ a) (w ++ b) :=
    fun a b => ⟨w, hw, rfl, rfl⟩
  constructor
  · rw [List.append_assoc]
    rcases (Parallel.closed_ends rfl rfl).parseProgram
      (hends [⟨.endOfInput, p⟩] ([⟨.endOfInput, p⟩] ++ following)) with
      ⟨c, hc, hc'⟩ | ⟨e, f, he, hf, ⟨rfl, -⟩ | ⟨expected, rfl, rfl⟩⟩
    · rw [hc, hc']
      rfl
    · rw [he, hf]
    · rw [he, hf]
      rfl
  · have hdry := hends [] [⟨.endOfInput, p⟩]
    rw [List.append_nil] at hdry
    rcases (Parallel.closed_ends rfl rfl).parseProgram hdry with
      ⟨c, hc, hc'⟩ | ⟨e, f, he, hf, ⟨rfl, hcause⟩ | ⟨expected, rfl, rfl⟩⟩
    · exact .inl ⟨c, hc, hc'⟩
    · exact .inr (.inl ⟨_, he, hf, hcause⟩)
    · exact .inr (.inr ⟨expected, he, hf⟩)

/-- In `x := (1` a parenthesis is missing at the end, and one after the end does not help. -/
theorem parseProgram_end_unclosed :
    let w : List Located := [⟨.name "x", ⟨1, 1⟩⟩, ⟨.assign, ⟨1, 3⟩⟩, ⟨.openParen, ⟨1, 6⟩⟩,
      ⟨.number 1, ⟨1, 7⟩⟩]
    let e : SyntaxError.Cause := .unexpectedToken .closeParen .endOfInput
    (∀ t ∈ w, t.token ≠ .endOfInput) ∧ parseProgram w = .error ⟨⟨0, 0⟩, e⟩ ∧
      parseProgram (w ++ [⟨.endOfInput, ⟨1, 8⟩⟩]) = .error ⟨⟨1, 8⟩, e⟩ ∧
      parseProgram (w ++ [⟨.endOfInput, ⟨1, 8⟩⟩] ++ [⟨.closeParen, ⟨1, 9⟩⟩]) =
        .error ⟨⟨1, 8⟩, e⟩ := by
  intro w e
  have hw : ∀ t ∈ w, t.token ≠ .endOfInput := by decide
  have hmarked : parseProgram (w ++ [⟨.endOfInput, ⟨1, 8⟩⟩]) = .error ⟨⟨1, 8⟩, e⟩ := by cbv
  refine ⟨hw, by cbv, hmarked, ?_⟩
  rw [(parseProgram_end hw ⟨1, 8⟩ [⟨.closeParen, ⟨1, 9⟩⟩]).1]
  exact hmarked

end GodelWhile
