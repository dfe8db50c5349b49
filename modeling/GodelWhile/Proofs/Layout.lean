import Mathlib
import GodelWhile.Proofs.Spelling

/-! # Tokens written with layout between them

Write down any tokens, each in one of its spellings, with some layout between one and the next: blanks
and comments, as many as one likes. The lexer reads the same tokens back. The layout is what makes this
true of every list of tokens: it starts with a character that goes on no lexeme, so the lexeme before
it ends where it was meant to end (`Layout.head_delimits`), and it has no tokens itself
(`Spells.after_layout`). -/

namespace GodelWhile

/-! ### How tokens are written -/

namespace Token

/-- The words that are not names. -/
def reserved : List String := ["true", "false", "skip", "if", "then", "else", "while", "do"]

/-- The tokens that can be written: a name is a letter followed by letters and digits, and is not
reserved; the name of a directive is made of letters. Underscores count as letters. -/
def isWritable : Token → Bool
  | .name x => Lexeme.isWord x.toList && decide (x ∉ reserved)
  | .directive s => decide (s ≠ "") && s.toList.all Lexeme.isLetter
  | .layout | .endOfInput => false
  | _ => true

/-- The spellings of a token: its text; for a number any digits of this value, with zeros in front or
without; and for the negation the sign of logic besides. -/
inductive WrittenAs : Token → String → Prop
  | plain (t : Token) : WrittenAs t t.text
  | digits {s : String} (hne : s ≠ "") (h : ∀ c ∈ s.toList, c.isDigit = true) :
      WrittenAs (.number (Nat.ofDigitChars 10 s.toList 0)) s
  | negationSign : WrittenAs .bang "¬"

theorem ofWord_of_not_reserved {x : String} (hx : x ∉ reserved) : ofWord x = .name x := by
  have hkeyword : Keyword.ofText? x = none := by
    refine List.find?_eq_none.mpr fun k _ => ?_
    rw [decide_eq_true_eq]
    rintro rfl
    exact hx (by cases k <;> decide)
  have htrue : x ≠ "true" := fun h => hx (h ▸ by decide)
  have hfalse : x ≠ "false" := fun h => hx (h ▸ by decide)
  rw [ofWord, if_neg htrue, if_neg hfalse, hkeyword]

/-- Each spelling of a token is read as this token. -/
theorem WrittenAs.spells {t : Token} {s : String} (h : t.WrittenAs s) (ht : t.isWritable = true) :
    Spells s [t] := by
  cases h with
  | digits hne hdigits => exact spells_digits hne hdigits
  | negationSign => exact spells_symbol rfl rfl
  | plain =>
    cases t with
    | number n => exact spells_number n
    | boolean b => exact spells_boolean b
    | keyword k => exact spells_keyword k
    | name x =>
      simp only [isWritable, Bool.and_eq_true, decide_eq_true_eq] at ht
      have hspells := spells_word ht.1
      rwa [ofWord_of_not_reserved ht.2] at hspells
    | directive x =>
      simp only [isWritable, Bool.and_eq_true, decide_eq_true_eq, List.all_eq_true] at ht
      exact spells_directiveName ht.1 ht.2
    | operator o => exact spells_operator o
    | assign => exact spells_symbolBeforeEquals rfl rfl
    | semicolon | openParen | closeParen | bang => exact spells_symbol rfl rfl
    | layout | endOfInput => cases ht

end Token

/-! ### Layout -/

/-- Blanks, and comments with the newlines that end them. -/
inductive Layout : String → Prop
  | none : Layout ""
  | blank {c : Char} {s : String} (hc : c ∈ [' ', '\t', '\x0c', '\r', '\n']) (hs : Layout s) :
      Layout (String.singleton c ++ s)
  | comment {text s : String} (htext : '\n' ∉ text.toList) (hs : Layout s) :
      Layout ("#" ++ text ++ "\n" ++ s)

theorem Lexeme.first?_blank {c : Char} (hc : c ∈ [' ', '\t', '\x0c', '\r', '\n'])
    (following : List Char) : first? c following = some ⟨[c], none⟩ := by
  simp only [List.mem_cons, List.not_mem_nil, or_false] at hc
  rcases hc with rfl | rfl | rfl | rfl | rfl <;> rfl

/-- A comment is one lexeme, and ends before the newline. -/
theorem Lexeme.first?_comment {text : List Char} (htext : '\n' ∉ text) (following : List Char) :
    first? '#' (text ++ '\n' :: following) = some ⟨'#' :: text, none⟩ := by
  have htake : (text ++ '\n' :: following).takeWhile (· ≠ '\n') = text := by
    rw [List.takeWhile_append_of_pos, List.takeWhile_cons_of_neg (by simp), List.append_nil]
    intro c hc
    exact decide_eq_true (ne_of_mem_of_not_mem hc htext)
  change some (⟨'#' :: (text ++ '\n' :: following).takeWhile (· ≠ '\n'), none⟩ : Lexeme) = _
  rw [htake]

namespace Spells

variable {s : String} {w : List Token}

theorem empty : Spells "" [] := by
  intro p following _
  refine ⟨[], rfl, ?_⟩
  change tokenizeFrom 0 p following = (tokenizeFrom 0 p following).map ([] ++ ·)
  cases tokenizeFrom 0 p following <;> rfl

theorem after_comment {text : String} (htext : '\n' ∉ text.toList) (hs : Spells s w) :
    Spells ("#" ++ text ++ "\n" ++ s) w := by
  have hline : Spells ("\n" ++ s) (none.toList ++ w) := hs.after rfl fun _ => rfl
  intro p following hfollowing
  obtain ⟨ts, hts, htokens⟩ := hline (p.advanceAll ('#' :: text.toList)) following hfollowing
  have htext' : ("#" ++ text ++ "\n" ++ s).toList = '#' :: text.toList ++ ("\n" ++ s).toList := by
    simp
  have hfirst : Lexeme.first? '#' (text.toList ++ (("\n" ++ s).toList ++ following)) =
      some ⟨'#' :: text.toList, none⟩ := by
    rw [String.toList_append]
    exact Lexeme.first?_comment htext _
  refine ⟨ts, hts, ?_⟩
  rw [htext', List.append_assoc, tokenizeFrom_lexeme hfirst rfl, htokens, Position.advanceAll_append]
  cases tokenizeFrom 0 _ following <;> rfl

/-- Layout in front of a text adds no token. -/
theorem after_layout {gap : String} (hgap : Layout gap) (hs : Spells s w) : Spells (gap ++ s) w := by
  induction hgap with
  | none => rwa [String.empty_append]
  | @blank c gap hc _ ih =>
    have hblank : Spells (String.singleton c ++ (gap ++ s)) (none.toList ++ w) :=
      ih.after (String.toList_singleton c) (Lexeme.first?_blank hc)
    rwa [← String.append_assoc] at hblank
  | comment htext _ ih =>
    have hcomment := ih.after_comment htext
    rwa [← String.append_assoc] at hcomment

end Spells

/-- Layout that is not empty ends what stands before it. -/
theorem Layout.head_delimits {gap : String} (h : Layout gap) (hne : gap ≠ "") :
    ∃ c cs, gap.toList = c :: cs ∧ Lexeme.isWordChar c = false ∧ c ≠ '=' := by
  cases h with
  | none => exact absurd rfl hne
  | @blank c s hc _ =>
    refine ⟨c, s.toList, by simp, ?_⟩
    simp only [List.mem_cons, List.not_mem_nil, or_false] at hc
    rcases hc with rfl | rfl | rfl | rfl | rfl <;> decide
  | @comment text s _ _ => exact ⟨'#', (text ++ "\n" ++ s).toList, by simp, by decide⟩

/-- Layout parts two texts and adds no token. -/
theorem Spells.parted {s t gap : String} {w v : List Token} (hs : Spells s w) (hgap : Layout gap)
    (hne : gap ≠ "") (ht : Spells t v) : Spells (s ++ gap ++ t) (w ++ v) := by
  obtain ⟨c, cs, hc, hdelimits⟩ := hgap.head_delimits hne
  have hstart : (gap ++ t).toList = c :: (cs ++ t.toList) := by
    rw [String.toList_append, hc, List.cons_append]
  rw [String.append_assoc]
  exact hs.append (ht.after_layout hgap) hstart hdelimits

/-! ### Whole texts -/

/-- The tokens written one after the other, with layout between one and the next. -/
inductive LaidOut : List Token → String → Prop
  | nothing : LaidOut [] ""
  | last {t : Token} {s : String} (ht : t.WrittenAs s) : LaidOut [t] s
  | more {t u : Token} {w : List Token} {s gap rest : String} (ht : t.WrittenAs s)
      (hgap : Layout gap) (hne : gap ≠ "") (hrest : LaidOut (u :: w) rest) :
      LaidOut (t :: u :: w) (s ++ gap ++ rest)

theorem LaidOut.spells {w : List Token} {s : String} (h : LaidOut w s)
    (hw : ∀ t ∈ w, t.isWritable = true) : Spells s w := by
  induction h with
  | nothing => exact .empty
  | last ht => exact ht.spells (hw _ (.head _))
  | more ht hgap hne _ ih =>
    have hfirst := ht.spells (hw _ (.head _))
    exact hfirst.parted hgap hne (ih fun t ht => hw t (.tail _ ht))

/-- Tokens that are written with layout between them, and with or without some at both ends, are read
back, and nothing else is. -/
theorem tokenize_laidOut {w : List Token} {s lead trail : String}
    (hw : ∀ t ∈ w, t.isWritable = true) (hs : LaidOut w s) (hlead : Layout lead)
    (htrail : Layout trail) :
    (tokenize (lead ++ s ++ trail)).map (List.map Located.token) = .ok (w ++ [.endOfInput]) := by
  have hspells : Spells (s ++ trail) w := by
    by_cases hne : trail = ""
    · rw [hne, String.append_empty]
      exact hs.spells hw
    · have hparted := (hs.spells hw).parted htrail hne .empty
      rwa [String.append_empty, List.append_nil] at hparted
  obtain ⟨ts, p, htokens, rfl⟩ := (hspells.after_layout hlead).tokenize
  rw [String.append_assoc, htokens]
  simp [Except.map]

/-- Symbols that would join without layout, a keyword beside a name that starts with it, a number with
zeros in front, and comments that look like code. -/
theorem tokenize_laidOut_joining :
    let w : List Token := [.keyword .whileWord, .name "whiles", .operator (.compare .lt), .operator .eq,
      .number 7, .directive "up", .bang]
    let s := "while#x := ¬1;\nwhiles\r<\t=\n\n007 @up #\n¬"
    (∀ t ∈ w, t.isWritable = true) ∧ LaidOut w s ∧ Layout "\x0c" ∧ Layout "# end\n" ∧
      (tokenize ("\x0c" ++ s ++ "# end\n")).map (List.map Located.token) =
        .ok (w ++ [.endOfInput]) := by
  intro w s
  have hw : ∀ t ∈ w, t.isWritable = true := by decide
  have hcode : Layout "#x := ¬1;\n" := .comment (show '\n' ∉ "x := ¬1;".toList by decide) .none
  have hreturn : Layout "\r" := .blank (show '\r' ∈ _ by decide) .none
  have htab : Layout "\t" := .blank (show '\t' ∈ _ by decide) .none
  have hlines : Layout "\n\n" :=
    .blank (show '\n' ∈ _ by decide) (.blank (show '\n' ∈ _ by decide) .none)
  have hspace : Layout " " := .blank (show ' ' ∈ _ by decide) .none
  have hempty : Layout " #\n" :=
    .blank (show ' ' ∈ _ by decide) (.comment (show '\n' ∉ "".toList by decide) .none)
  have hlead : Layout "\x0c" := .blank (show '\x0c' ∈ _ by decide) .none
  have htrail : Layout "# end\n" := .comment (show '\n' ∉ " end".toList by decide) .none
  have hseven : Token.WrittenAs (.number 7) "007" :=
    .digits (show "007" ≠ "" by decide) (show ∀ c ∈ "007".toList, c.isDigit = true by simp)
  have hs : LaidOut w s :=
    .more (.plain (.keyword .whileWord)) hcode (by decide) <|
    .more (.plain (.name "whiles")) hreturn (by decide) <|
    .more (.plain (.operator (.compare .lt))) htab (by decide) <|
    .more (.plain (.operator .eq)) hlines (by decide) <|
    .more hseven hspace (by decide) <|
    .more (.plain (.directive "up")) hempty (by decide) <|
    .last .negationSign
  exact ⟨hw, hs, hlead, htrail, tokenize_laidOut hw hs hlead htrail⟩

end GodelWhile
