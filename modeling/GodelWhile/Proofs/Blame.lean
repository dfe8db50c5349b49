import Mathlib
import GodelWhile.Proofs.Places
import GodelWhile.Proofs.SideBySide

/-! # Errors name a token

A syntax error that the parser reports is about one token of the stream, and stands at that token's
place. Read a stream beside itself and keep in mind where it started: the parser only ever takes
tokens off its front that are not the end of the input, and blames the next one. So if the stream has
an end marker, it never runs dry, and the token blamed is one of its own. -/

namespace GodelWhile

open Rule (Takes)

/-- A stream beside itself, after some tokens of `start` have been taken. -/
def Parallel.within (start : List Located) : Parallel where
  streams ts us := us = ts ∧ Takes start ts
  errors e f := f = e ∧ ∃ ts, Takes start ts ∧ e.pos = (Parser.next ts).pos ∧
    e.cause.Blames (Parser.next ts).token
  code := id

theorem Rule.Takes.tail {start ts : List Located} (h : Takes start ts)
    (hnext : (Parser.next ts).token ≠ .endOfInput) : Takes start ts.tail := by
  rcases ts with _ | ⟨t, ts⟩
  · exact h
  · exact h.trans (.token hnext (.refl ts))

theorem Parallel.closed_within (start : List Located) : (Parallel.within start).Closed where
  token := by
    rintro ts _ ⟨rfl, -⟩
    rfl
  tail := by
    rintro ts _ ⟨rfl, htakes⟩ hnext
    exact ⟨rfl, htakes.tail hnext⟩
  blame := by
    rintro ts _ cause ⟨rfl, htakes⟩ hblames
    exact ⟨rfl, _, htakes, rfl, hblames⟩
  trace := by
    rintro ts _ ⟨rfl, -⟩ -
    rfl
  shape := Code.keepsShape_id

/-- An error is about the next token at some point of the reading. -/
theorem blames_of_parseProgram {ts : List Located} {e : SyntaxError} (h : parseProgram ts = .error e) :
    ∃ rest, Takes ts rest ∧ e.pos = (Parser.next rest).pos ∧
      e.cause.Blames (Parser.next rest).token := by
  rcases (Parallel.closed_within ts).parseProgram ⟨rfl, .refl ts⟩ with
    ⟨c, hc, -⟩ | ⟨e', f, he', -, -, hblames⟩
  · rw [h] at hc
    cases hc
  · rw [h] at he'
    cases he'
    exact hblames

/-- A stream with an end marker does not run dry: its next token is one of its own. -/
theorem Rule.Takes.next_mem {ts rest : List Located} (h : Takes ts rest)
    (hend : ∃ t ∈ ts, t.token = .endOfInput) : Parser.next rest ∈ ts := by
  induction h with
  | refl ts =>
    obtain ⟨t, ht, -⟩ := hend
    rcases ts with _ | ⟨u, ts⟩
    · cases ht
    · exact .head _
  | token hnext _ ih =>
    obtain ⟨t, ht, htoken⟩ := hend
    rcases List.mem_cons.mp ht with rfl | ht
    · exact absurd htoken hnext
    · exact .tail _ (ih ⟨t, ht, htoken⟩)

theorem DirectiveWord.not_mem_of_ofText? {s : String} (h : ofText? s = none) :
    s ∉ all.map text := by
  intro hmem
  obtain ⟨word, -, rfl⟩ := List.mem_map.mp hmem
  rw [ofText?_text] at h
  cases h

theorem Category.ne_name_of_ofName? {s : String} (h : ofName? s = none) (cat : Category) :
    s ≠ cat.name := by
  rintro rfl
  rw [ofName?_name] at h
  cases h

/-- A place in a text is not the one that stands for none. -/
theorem Position.after_ne_nowhere (before : List Char) : after before ≠ nowhere := by
  intro h
  have hline := congrArg line h
  simp [after, nowhere] at hline

theorem pos_ne_nowhere_of_tokenize {s : String} {ts : List Located} (hts : tokenize s = .ok ts)
    {t : Located} (ht : t ∈ ts) : t.pos ≠ .nowhere := by
  obtain ⟨ls, -, rfl⟩ := tokenize_eq_ok_iff.mp hts
  obtain ⟨start, -, rfl⟩ := List.mem_map.mp ht
  exact Position.after_ne_nowhere _

/-- An error of the parser stands at a token of the text and names it: as the one found in place of
what was expected, as a directive that is none of the nine, or as a category that is none of the
three. So it never stands nowhere. -/
theorem parse_error_names_token {s : String} {ts : List Located} {e : SyntaxError}
    (hts : tokenize s = .ok ts) (h : parse s = .error e) :
    (∃ t ∈ ts, e.pos = t.pos ∧
      ((∃ expected, e.cause = .unexpectedToken expected t.token ∧
          e.cause.describe =
            "Expected " ++ expected.describe ++ ", found " ++ t.token.describe ++ ".") ∨
        (∃ name, e.cause = .unknownDirective name ∧ t.token = .directive name ∧
          name ∉ ["trace", "exit", "help", "reset", "print", "eval", "numeric", "from_numeric",
            "run_numeric"]) ∨
        ∃ name, e.cause = .unknownCategory name ∧ t.token = .name name ∧
          name ≠ "a" ∧ name ≠ "b" ∧ name ≠ "stmt")) ∧
    e.pos ≠ .nowhere := by
  obtain ⟨w, q, hw, -⟩ := tokenizeFrom_eq_ok hts
  have hend : ∃ t ∈ ts, t.token = .endOfInput := ⟨⟨.endOfInput, q⟩, by simp [hw], rfl⟩
  rw [parse, hts] at h
  obtain ⟨rest, htakes, hpos, hblames⟩ := blames_of_parseProgram h
  have hmem := htakes.next_mem hend
  refine ⟨⟨Parser.next rest, hmem, hpos, ?_⟩, hpos ▸ pos_ne_nowhere_of_tokenize hts hmem⟩
  obtain ⟨p, cause⟩ := e
  cases cause with
  | unexpectedToken expected found =>
    obtain rfl : found = (Parser.next rest).token := hblames
    exact .inl ⟨expected, rfl, rfl⟩
  | unknownDirective name =>
    exact .inr (.inl ⟨name, rfl, hblames.1, DirectiveWord.not_mem_of_ofText? hblames.2⟩)
  | unknownCategory name =>
    have hne := Category.ne_name_of_ofName? hblames.2
    exact .inr (.inr ⟨name, rfl, hblames.1, hne .arithmetic, hne .boolean, hne .statement⟩)
  | unexpectedCharacter c => cases hblames

/-- An unknown directive, in an assignment that stands in parentheses on the second line. -/
theorem parse_error_names_token_directive :
    let s := "skip;\n(y := @up)"
    let ts : List Located := [⟨.keyword .skip, ⟨1, 1⟩⟩, ⟨.semicolon, ⟨1, 5⟩⟩, ⟨.openParen, ⟨2, 1⟩⟩,
      ⟨.name "y", ⟨2, 2⟩⟩, ⟨.assign, ⟨2, 4⟩⟩, ⟨.directive "up", ⟨2, 7⟩⟩, ⟨.closeParen, ⟨2, 10⟩⟩,
      ⟨.endOfInput, ⟨2, 11⟩⟩]
    let e : SyntaxError := ⟨⟨2, 7⟩, .unknownDirective "up"⟩
    tokenize s = .ok ts ∧ parse s = .error e ∧
    (∃ t ∈ ts, e.pos = t.pos ∧
      ((∃ expected, e.cause = .unexpectedToken expected t.token ∧
          e.cause.describe =
            "Expected " ++ expected.describe ++ ", found " ++ t.token.describe ++ ".") ∨
        (∃ name, e.cause = .unknownDirective name ∧ t.token = .directive name ∧
          name ∉ ["trace", "exit", "help", "reset", "print", "eval", "numeric", "from_numeric",
            "run_numeric"]) ∨
        ∃ name, e.cause = .unknownCategory name ∧ t.token = .name name ∧
          name ≠ "a" ∧ name ≠ "b" ∧ name ≠ "stmt")) ∧
    e.pos ≠ .nowhere := by
  intro s ts e
  have hts : tokenize s = .ok ts := by cbv
  have h : parse s = .error e := by cbv
  exact ⟨hts, h, parse_error_names_token hts h⟩

end GodelWhile
