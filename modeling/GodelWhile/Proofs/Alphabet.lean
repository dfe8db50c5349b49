import Mathlib
import GodelWhile.Proofs.Places

/-! # The texts that can be cut

Which texts the lexer accepts can be said character by character. Take the comments out of a text;
then it is accepted exactly if every character left may stand where it does (`areAllowed`). Only two
characters depend on what follows them, the colon and the at sign.

Both sides go along the cut of a text: a lexeme that is no comment consists of allowed characters
whatever follows it, a comment is taken out whole, and a character at which no lexeme starts is not
allowed. So the lexer also stops at the first character that is out of place. -/

namespace GodelWhile

/-! ### Characters -/

/-- The characters that are a symbol alone. -/
def isSymbolChar (c : Char) : Bool :=
  c ∈ [';', '(', ')', '|', '&', '=', '<', '>', '+', '-', '*', '/', '!', '¬']

/-- Whether the character may stand before `next?` outside of comments. -/
def isAllowed (c : Char) (next? : Option Char) : Bool :=
  Lexeme.isWordChar c || Lexeme.isBlank c || isSymbolChar c ||
    (c = ':' && next? = some '=') || (c = '@' && next?.any Lexeme.isLetter)

/-- Whether all characters may stand where they do, the last one before `next?`. -/
def areAllowed : List Char → Option Char → Bool
  | [], _ => true
  | c :: cs, next? => isAllowed c (cs.head?.or next?) && areAllowed cs next?

/-- The text without its comments, each of which starts with a number sign and ends before the next
newline; `inside` says that the text starts within a comment. -/
def dropComments (inside : Bool) : List Char → List Char
  | [] => []
  | c :: cs =>
    if c = '\n' then c :: dropComments false cs
    else if inside || c = '#' then dropComments true cs
    else c :: dropComments false cs

/-- The text without its comments. -/
def withoutComments (cs : List Char) : List Char := dropComments false cs

theorem areAllowed_append (cs ds : List Char) (next? : Option Char) :
    areAllowed (cs ++ ds) next? = (areAllowed cs (ds.head?.or next?) && areAllowed ds next?) := by
  induction cs with
  | nil => simp [areAllowed]
  | cons c cs ih => simp [areAllowed, ih, List.head?_append, Option.or_assoc, Bool.and_assoc]

theorem areAllowed_of_forall {cs : List Char} (h : ∀ c ∈ cs, ∀ next?, isAllowed c next? = true)
    (next? : Option Char) : areAllowed cs next? = true := by
  induction cs with
  | nil => rfl
  | cons c cs ih =>
    rw [areAllowed, h c (.head _), ih fun d hd => h d (.tail _ hd)]
    rfl

theorem isAllowed_of_isWordChar {c : Char} (h : Lexeme.isWordChar c = true) (next? : Option Char) :
    isAllowed c next? = true := by
  simp [isAllowed, h]

/-- A number sign opens a comment, and is allowed nowhere else. -/
theorem numberSign_not_mem {cs : List Char} {next? : Option Char} (h : areAllowed cs next? = true) :
    '#' ∉ cs := by
  induction cs with
  | nil => simp
  | cons c cs ih =>
    rw [areAllowed, Bool.and_eq_true] at h
    rintro (_ | ⟨_, hmem⟩)
    · have hnot : ∀ n, isAllowed '#' n = false := fun n => by
        simp [isAllowed, isSymbolChar, Lexeme.isBlank, Lexeme.isWordChar, Lexeme.isLetter]
      rw [hnot] at h
      cases h.1
    · exact ih h.2 hmem

/-- What is allowed at the end of a line is allowed anywhere. -/
theorem isAllowed_of_lineEnd {c : Char} {next? : Option Char} (h : isAllowed c next? = true)
    (hnext : ∀ d ∈ next?, d = '\n') (next'? : Option Char) : isAllowed c next'? = true := by
  have hequals : next? ≠ some '=' := fun heq => absurd (hnext '=' heq) (by decide)
  have hletter : next?.any Lexeme.isLetter = false := by
    cases next? with
    | none => rfl
    | some d =>
      obtain rfl := hnext d rfl
      rfl
  simp only [isAllowed, hequals, hletter, decide_false, Bool.and_false, Bool.or_false] at h
  simp [isAllowed, h]

theorem areAllowed_of_none {cs : List Char} (h : areAllowed cs none = true) (next? : Option Char) :
    areAllowed cs next? = true := by
  induction cs with
  | nil => rfl
  | cons c cs ih =>
    rw [areAllowed, Bool.and_eq_true] at h
    rw [areAllowed, ih h.2, Bool.and_true]
    rcases cs with _ | ⟨d, cs⟩
    · exact isAllowed_of_lineEnd h.1 (by simp) _
    · exact h.1

/-! ### Comments -/

theorem dropComments_of_not_mem {cs : List Char} (h : '#' ∉ cs) (ds : List Char) :
    dropComments false (cs ++ ds) = cs ++ dropComments false ds := by
  induction cs with
  | nil => rfl
  | cons c cs ih =>
    rw [List.mem_cons, not_or] at h
    rw [List.cons_append, dropComments, ih h.2]
    simp [Ne.symm h.1]

theorem withoutComments_of_not_mem {cs : List Char} (h : '#' ∉ cs) : withoutComments cs = cs := by
  have hself := dropComments_of_not_mem h []
  rwa [List.append_nil, dropComments, List.append_nil] at hself

theorem dropComments_inside {cs : List Char} (h : '\n' ∉ cs) (ds : List Char) :
    dropComments true (cs ++ ds) = dropComments true ds := by
  induction cs with
  | nil => rfl
  | cons c cs ih =>
    rw [List.mem_cons, not_or] at h
    rw [List.cons_append, dropComments, if_neg (Ne.symm h.1), ih h.2]
    rfl

/-- At the end of a line a comment is over. -/
theorem dropComments_lineEnd {cs : List Char} (h : ∀ c ∈ cs.head?, c = '\n') :
    dropComments true cs = dropComments false cs := by
  rcases cs with _ | ⟨c, cs⟩
  · rfl
  · obtain rfl := h c rfl
    rfl

/-- A comment is taken out up to the end of its line. -/
theorem withoutComments_comment {cs : List Char} (h : '\n' ∉ cs) {ds : List Char}
    (hds : ∀ d ∈ ds.head?, d = '\n') : withoutComments ('#' :: (cs ++ ds)) = withoutComments ds := by
  change dropComments true (cs ++ ds) = _
  rw [dropComments_inside h, dropComments_lineEnd hds, withoutComments]

theorem withoutComments_comment_alone {cs : List Char} (h : '\n' ∉ cs) :
    withoutComments ('#' :: cs) = [] := by
  rw [← List.append_nil cs, withoutComments_comment h (by simp)]
  rfl

/-- Where the comments are taken out, the text goes on as before or comes to the end of its line. -/
theorem head?_withoutComments (cs : List Char) :
    (withoutComments cs).head? = cs.head? ∨ ∀ d ∈ (withoutComments cs).head?, d = '\n' := by
  have hinside : ∀ cs, ∀ d ∈ (dropComments true cs).head?, d = '\n' := by
    intro cs
    induction cs with
    | nil => simp [dropComments]
    | cons c cs ih =>
      rw [dropComments]
      split_ifs with hnewline
      · simp [hnewline]
      · exact ih
      · exact absurd rfl (by assumption)
  rcases cs with _ | ⟨c, cs⟩
  · exact .inl rfl
  · rw [withoutComments, dropComments]
    split_ifs with hnewline hsign
    · exact .inl rfl
    · exact .inr (hinside cs)
    · exact .inl rfl

/-! ### Lexemes -/

/-- A lexeme is a comment, or all its characters are allowed, whatever follows it. -/
theorem Lexeme.Fits.comment_or_allowed {l : Lexeme} (h : l.Fits) :
    (∃ cs, '\n' ∉ cs ∧ l = ⟨'#' :: cs, none⟩) ∨ ∀ next?, areAllowed l.text next? = true := by
  cases h with
  | number h =>
    refine .inr (areAllowed_of_forall fun d hd => isAllowed_of_isWordChar ?_)
    simp [isWordChar, h d hd]
  | word hc hcs =>
    refine .inr (areAllowed_of_forall fun d hd => isAllowed_of_isWordChar ?_)
    rcases List.mem_cons.mp hd with rfl | hd
    · simp [isWordChar, hc]
    · exact hcs d hd
  | @directive c cs h =>
    refine .inr fun next? => ?_
    have hat : isAllowed '@' (some c) = true := by simp [isAllowed, h c (.head _)]
    rw [areAllowed, List.head?_cons, Option.some_or, hat, Bool.true_and]
    refine areAllowed_of_forall (fun d hd => isAllowed_of_isWordChar ?_) next?
    simp [isWordChar, h d hd]
  | @symbol t h =>
    have hall : ∀ t ∈ Token.symbols, areAllowed t.text.toList none = true := by decide
    exact .inr (areAllowed_of_none (hall t h))
  | negationSign => exact .inr fun _ => rfl
  | blank h =>
    exact .inr (areAllowed_of_forall fun d hd next? => by
      simp [isAllowed, List.mem_singleton.mp hd, h])
  | @comment cs h => exact .inl ⟨cs, h, rfl⟩

/-- The longest comment runs to the end of its line. -/
theorem Lexeme.Longest.lineEnd {cs rest : List Char}
    (h : Lexeme.Longest ⟨'#' :: cs, none⟩ ('#' :: cs ++ rest)) (hcs : '\n' ∉ cs) :
    ∀ c ∈ rest.head?, c = '\n' := by
  intro c hc
  obtain ⟨rest, rfl⟩ := List.head?_eq_some_iff.mp hc
  by_contra hne
  have hlonger : Fits ⟨'#' :: (cs ++ [c]), none⟩ := .comment (by simp [hcs, Ne.symm hne])
  have hle := h.longest _ hlonger ⟨rest, by simp⟩
  simp at hle

/-- Comments are taken out of a text lexeme by lexeme. -/
theorem withoutComments_lexeme {l : Lexeme} {rest ds : List Char} (h : l.Longest (l.text ++ rest))
    (hds : ds <+: rest) :
    withoutComments (l.text ++ ds) = withoutComments l.text ++ withoutComments ds := by
  rcases h.fits.comment_or_allowed with ⟨cs, hcs, rfl⟩ | hallowed
  · have hline : ∀ c ∈ ds.head?, c = '\n' := by
      intro c hc
      obtain ⟨ds, rfl⟩ := List.head?_eq_some_iff.mp hc
      obtain ⟨rest, rfl⟩ := hds
      exact h.lineEnd hcs c rfl
    rw [List.cons_append, withoutComments_comment hcs hline, withoutComments_comment_alone hcs,
      List.nil_append]
  · have hsign := numberSign_not_mem (hallowed none)
    rw [withoutComments_of_not_mem hsign]
    exact dropComments_of_not_mem hsign ds

theorem areAllowed_lexeme {l : Lexeme} (h : l.Fits) (next? : Option Char) :
    areAllowed (withoutComments l.text) next? = true := by
  rcases h.comment_or_allowed with ⟨cs, hcs, rfl⟩ | hallowed
  · rw [withoutComments_comment_alone hcs]
    rfl
  · rw [withoutComments_of_not_mem (numberSign_not_mem (hallowed none))]
    exact hallowed next?

/-- At an allowed character some lexeme starts. -/
theorem exists_fits_of_isAllowed {c : Char} {cs : List Char} (h : isAllowed c cs.head? = true) :
    ∃ l : Lexeme, l.Fits ∧ l.text <+: c :: cs := by
  simp only [isAllowed, Bool.or_eq_true, Bool.and_eq_true, decide_eq_true_eq, Lexeme.isWordChar] at h
  rcases h with ((((hletter | hdigit) | hblank) | hsymbol) | ⟨rfl, hequals⟩) | ⟨rfl, hletter⟩
  · have hword : Lexeme.Fits ⟨[c], some (.ofWord (String.ofList [c]))⟩ := .word hletter (by simp)
    exact ⟨_, hword, cs, rfl⟩
  · have hnumber : Lexeme.Fits ⟨[c], some (.number (Nat.ofDigitChars 10 [c] 0))⟩ :=
      .number (by simpa using hdigit)
    exact ⟨_, hnumber, cs, rfl⟩
  · exact ⟨_, .blank hblank, cs, rfl⟩
  · have hsome : ∃ t, Lexeme.symbol? c = some t := by
      simp only [isSymbolChar, List.mem_cons, List.not_mem_nil, or_false, decide_eq_true_eq] at hsymbol
      rcases hsymbol with rfl | rfl | rfl | rfl | rfl | rfl | rfl | rfl | rfl | rfl | rfl | rfl | rfl |
        rfl <;> exact ⟨_, rfl⟩
    obtain ⟨t, ht⟩ := hsome
    exact ⟨_, Lexeme.symbol?_fits ht, cs, rfl⟩
  · obtain ⟨rest, rfl⟩ := List.head?_eq_some_iff.mp hequals
    exact ⟨_, Lexeme.symbolBeforeEquals?_fits rfl, rest, rfl⟩
  · rcases cs with _ | ⟨d, cs⟩
    · cases hletter
    · have hdirective : Lexeme.Fits ⟨['@', d], some (.directive (String.ofList [d]))⟩ :=
        .directive (by simpa using hletter)
      exact ⟨_, hdirective, cs, rfl⟩

/-- A character at which no lexeme starts is not allowed there, even if the comments are taken out. -/
theorem isAllowed_of_stuck {c : Char} {cs : List Char} (h : Lexeme.first? c cs = none) :
    isAllowed c (withoutComments cs).head? = false := by
  have hnot : isAllowed c cs.head? = false := by
    by_contra hallowed
    obtain ⟨l, hl, hfront⟩ := exists_fits_of_isAllowed (Bool.not_eq_false _ ▸ hallowed)
    obtain ⟨l', hfirst, -⟩ := hl.exists_first? hfront
    rw [h] at hfirst
    cases hfirst
  rcases head?_withoutComments cs with hsame | hline
  · rw [hsame, hnot]
  · by_contra hallowed
    have hanywhere := isAllowed_of_lineEnd (Bool.not_eq_false _ ▸ hallowed) hline cs.head?
    rw [hnot] at hanywhere
    cases hanywhere

theorem withoutComments_stuck {c : Char} {cs : List Char} (h : Lexeme.first? c cs = none) :
    withoutComments (c :: cs) = c :: withoutComments cs := by
  have hsign : c ≠ '#' := by
    rintro rfl
    cases h
  rw [withoutComments, dropComments]
  simp [hsign, withoutComments]

/-! ### Texts -/

/-- In the text `before ++ c :: after` without its comments, `c` is the first character that is out
of place. -/
structure FirstOutOfPlace (before : List Char) (c : Char) (after : List Char) : Prop where
  /-- The character is part of no comment. -/
  kept : withoutComments (before ++ c :: after) =
    withoutComments before ++ c :: withoutComments after
  allowedBefore : areAllowed (withoutComments before) (some c) = true
  notAllowed : isAllowed c (withoutComments after).head? = false

namespace FirstOutOfPlace

variable {before after : List Char} {c : Char}

theorem areAllowed_eq_false (h : FirstOutOfPlace before c after) :
    areAllowed (withoutComments (before ++ c :: after)) none = false := by
  rw [h.kept, areAllowed_append, areAllowed]
  simp [h.notAllowed]

/-- A lexeme before it is in its place. -/
theorem lexeme {l : Lexeme} (hl : l.Longest (l.text ++ (before ++ c :: after)))
    (h : FirstOutOfPlace before c after) : FirstOutOfPlace (l.text ++ before) c after := by
  have hbefore := withoutComments_lexeme hl (List.prefix_append before (c :: after))
  refine ⟨?_, ?_, h.notAllowed⟩
  · rw [List.append_assoc, withoutComments_lexeme hl List.prefix_rfl, h.kept, hbefore,
      List.append_assoc]
  · rw [hbefore, areAllowed_append, areAllowed_lexeme hl.fits, h.allowedBefore]
    rfl

end FirstOutOfPlace

theorem areAllowed_of_cut {cs : List Char} {ls : List Lexeme} (h : Cut cs ls) :
    areAllowed (withoutComments cs) none = true := by
  induction h with
  | nil => rfl
  | cons hlongest _ ih =>
    rw [withoutComments_lexeme hlongest List.prefix_rfl, areAllowed_append, ih,
      areAllowed_lexeme hlongest.fits]
    rfl

/-- The lexer stops at the first character that is out of place. -/
theorem firstOutOfPlace_of_tokenizeFrom {p : Position} {cs : List Char} {e : SyntaxError}
    (h : tokenizeFrom 0 p cs = .error e) :
    ∃ before c after, cs = before ++ c :: after ∧ FirstOutOfPlace before c after ∧
      e = ⟨p.advanceAll before, .unexpectedCharacter c⟩ := by
  induction cs using lexeme_induction generalizing p with
  | nil => cases h
  | stuck c cs hfirst =>
    rw [tokenizeFrom, hfirst] at h
    cases h
    exact ⟨[], c, cs, rfl, ⟨withoutComments_stuck hfirst, rfl, isAllowed_of_stuck hfirst⟩, rfl⟩
  | lexeme l rest hlongest ih =>
    rw [tokenizeFrom_longest hlongest] at h
    cases hrest : tokenizeFrom 0 (p.advanceAll l.text) rest with
    | ok us => rw [hrest] at h; cases h
    | error e' =>
      rw [hrest] at h
      cases h
      obtain ⟨before, c, after, rfl, hout, rfl⟩ := ih hrest
      refine ⟨l.text ++ before, c, after, by rw [List.append_assoc], hout.lexeme hlongest, ?_⟩
      rw [Position.advanceAll_append]

/-- Layout is a blank or a comment. -/
theorem Lexeme.Fits.layout {l : Lexeme} (h : l.Fits) (hl : l.token? = none) :
    (∃ c, isBlank c = true ∧ l.text = [c]) ∨ ∃ cs, '\n' ∉ cs ∧ l.text = '#' :: cs := by
  cases h with
  | blank h => exact .inl ⟨_, h, rfl⟩
  | comment h => exact .inr ⟨_, h, rfl⟩
  | number | word | directive | symbol | negationSign => cases hl

theorem map_token_tokensOf (p : Position) (ls : List Lexeme) :
    (tokensOf p ls).map Located.token = ls.filterMap Lexeme.token? ++ [.endOfInput] := by
  induction ls generalizing p with
  | nil => rfl
  | cons l ls ih =>
    rw [tokensOf, Lexeme.emit]
    cases hl : l.token? with
    | none => rw [List.filterMap_cons_none hl, ← ih]
    | some t => rw [List.filterMap_cons_some hl, List.map_cons, ih, List.cons_append]

theorem endOfInput_not_mem {cs : List Char} {ls : List Lexeme} (h : Cut cs ls) :
    .endOfInput ∉ ls.filterMap Lexeme.token? := by
  intro hmem
  obtain ⟨l, hl, htoken⟩ := List.mem_filterMap.mp hmem
  obtain ⟨c, cs, -, hfirst⟩ := (h.fits hl).first?_text
  cases Lexeme.isLexical_first? hfirst htoken

/-- A text is accepted exactly if all its characters outside of comments are allowed where they stand,
and else the first one that is not is reported with its place. Of an accepted text nothing is lost: it
is cut into lexemes, of which those without a token are blanks and comments, and the tokens of the
others are those of the text, before its only end marker. -/
theorem tokenize_alphabet (s : String) :
    ((∃ ts, tokenize s = .ok ts) ↔ areAllowed (withoutComments s.toList) none = true) ∧
    (∀ e, tokenize s = .error e →
      ∃ before c after, s.toList = before ++ c :: after ∧ FirstOutOfPlace before c after ∧
        e = ⟨.after before, .unexpectedCharacter c⟩) ∧
    (∀ ts, tokenize s = .ok ts →
      ∃ ls, Cut s.toList ls ∧ ls.flatMap Lexeme.text = s.toList ∧
        (∀ l ∈ ls, l.token? = none →
          (∃ c, Lexeme.isBlank c = true ∧ l.text = [c]) ∨ ∃ cs, '\n' ∉ cs ∧ l.text = '#' :: cs) ∧
        ts.map Located.token = ls.filterMap Lexeme.token? ++ [.endOfInput] ∧
        .endOfInput ∉ ls.filterMap Lexeme.token?) := by
  refine ⟨⟨?_, ?_⟩, ?_, ?_⟩
  · rintro ⟨ts, h⟩
    obtain ⟨ls, hcut, -⟩ := tokenizeFrom_eq_ok_iff.mp h
    exact areAllowed_of_cut hcut
  · intro hallowed
    cases h : tokenize s with
    | ok ts => exact ⟨ts, rfl⟩
    | error e =>
      obtain ⟨before, c, after, hs, hout, -⟩ := firstOutOfPlace_of_tokenizeFrom h
      rw [hs, hout.areAllowed_eq_false] at hallowed
      cases hallowed
  · intro e h
    obtain ⟨before, c, after, hs, hout, rfl⟩ := firstOutOfPlace_of_tokenizeFrom h
    refine ⟨before, c, after, hs, hout, ?_⟩
    rw [show Position.start = .after [] from rfl, Position.advanceAll_after, List.nil_append]
  · intro ts h
    obtain ⟨ls, hcut, rfl⟩ := tokenizeFrom_eq_ok_iff.mp h
    exact ⟨ls, hcut, hcut.text_eq, fun l hl => (hcut.fits hl).layout, map_token_tokensOf .start ls,
      endOfInput_not_mem hcut⟩

/-- The dollar sign in the comment is ignored, and the colon on the second line, which has no equals
sign after it, is reported. -/
theorem tokenize_alphabet_colon :
    let s := "x := ¬y # $\n@a1 : z"
    let e : SyntaxError := ⟨⟨2, 5⟩, .unexpectedCharacter ':'⟩
    tokenize s = .error e ∧
      ∃ before c after, s.toList = before ++ c :: after ∧ FirstOutOfPlace before c after ∧
        e = ⟨.after before, .unexpectedCharacter c⟩ := by
  intro s e
  have h : tokenize s = .error e := by cbv
  exact ⟨h, (tokenize_alphabet s).2.1 e h⟩

end GodelWhile
