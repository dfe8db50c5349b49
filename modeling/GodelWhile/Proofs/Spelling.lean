import Mathlib
import GodelWhile.Code.Render
import GodelWhile.Token.Lexer

/-! # The tokens of a text

The lexer cuts a text into lexemes from the front. `Spells s w` says that the text `s` is cut into the
tokens `w` wherever it stands before the end of the input or before a character that can go on none
of its lexemes. Texts of single tokens spell them, and texts put together with blanks, semicolons and
parentheses spell what their parts do. So the text of a piece of code spells a list of tokens that
`Code.tokens` reads off the code. -/

namespace GodelWhile

/-! ### Lexemes at the front -/

theorem tokenizeFrom_inside (inside following : List Char) (p : Position) :
    tokenizeFrom inside.length p (inside ++ following) =
      tokenizeFrom 0 (p.advanceAll inside) following := by
  induction inside generalizing p with
  | nil => rfl
  | cons c cs ih =>
    rw [List.length_cons, List.cons_append, tokenizeFrom, ih, Position.advanceAll_cons]

/-- A lexeme at the front gives its token, and the text after it the others. -/
theorem tokenizeFrom_lexeme {c : Char} {cs following : List Char} {l : Lexeme}
    (hfirst : Lexeme.first? c (cs ++ following) = some l) (htext : l.text = c :: cs)
    (p : Position) :
    tokenizeFrom 0 p (c :: cs ++ following) =
      (tokenizeFrom 0 (p.advanceAll (c :: cs)) following).map (l.emit p) := by
  rw [List.cons_append, tokenizeFrom, hfirst]
  simp only [htext, List.length_cons, Nat.add_sub_cancel]
  rw [tokenizeFrom_inside, Position.advanceAll_cons]

/-- The text ends, or goes on with a character that belongs to no lexeme before it. -/
def Delimited (following : List Char) : Prop :=
  ∀ c ∈ following.head?, Lexeme.isWordChar c = false ∧ c ≠ '='

namespace Delimited

theorem nil : Delimited [] := by simp [Delimited]

theorem cons {c : Char} (hc : Lexeme.isWordChar c = false ∧ c ≠ '=') (cs : List Char) :
    Delimited (c :: cs) := by
  simpa [Delimited] using hc

variable {following : List Char} (h : Delimited following)
include h

theorem head?_ne_equals : following.head? ≠ some '=' := fun heq => (h '=' heq).2 rfl

/-- Characters of a word come to an end where the text is delimited. -/
theorem takeWhile_append {f : Char → Bool} (hf : ∀ c, f c = true → Lexeme.isWordChar c = true)
    {cs : List Char} (hcs : ∀ c ∈ cs, f c = true) : (cs ++ following).takeWhile f = cs := by
  have hnone : following.takeWhile f = [] := by
    rcases following with _ | ⟨c, following⟩
    · rfl
    · have hc : f c = false := by
        by_contra hc
        have hword := hf c (Bool.not_eq_false _ ▸ hc)
        rw [(h c rfl).1] at hword
        cases hword
      rw [List.takeWhile_cons, hc]
      rfl
  rw [List.takeWhile_append_of_pos hcs, hnone, List.append_nil]

end Delimited

/-! ### Texts that spell tokens -/

/-- The text is cut into the tokens wherever it is delimited. -/
def Spells (s : String) (w : List Token) : Prop :=
  ∀ p following, Delimited following → ∃ ts : List Located, ts.map Located.token = w ∧
    tokenizeFrom 0 p (s.toList ++ following) =
      (tokenizeFrom 0 (p.advanceAll s.toList) following).map (ts ++ ·)

/-- A text that spells tokens, as a whole. -/
theorem Spells.tokenize {s : String} {w : List Token} (h : Spells s w) :
    ∃ ts : List Located, ∃ p, GodelWhile.tokenize s = .ok (ts ++ [⟨.endOfInput, p⟩]) ∧
      ts.map Located.token = w := by
  obtain ⟨ts, hts, htokens⟩ := h .start [] .nil
  refine ⟨ts, Position.start.advanceAll s.toList, ?_, hts⟩
  rw [List.append_nil] at htokens
  rw [GodelWhile.tokenize, htokens]
  rfl

/-- Two texts, the second of which starts with a character that ends the first. -/
theorem Spells.append {s t : String} {w v : List Token} (hs : Spells s w) (ht : Spells t v)
    {c : Char} {cs : List Char} (hc : t.toList = c :: cs)
    (hdelimiter : Lexeme.isWordChar c = false ∧ c ≠ '=') : Spells (s ++ t) (w ++ v) := by
  intro p following hfollowing
  obtain ⟨us, hus, hus'⟩ := ht (p.advanceAll s.toList) following hfollowing
  obtain ⟨ts, hts, hts'⟩ := hs p (t.toList ++ following) (by rw [hc]; exact .cons hdelimiter _)
  refine ⟨ts ++ us, by rw [List.map_append, hts, hus], ?_⟩
  rw [String.toList_append, List.append_assoc, hts', hus', Position.advanceAll_append]
  cases tokenizeFrom 0 ((p.advanceAll s.toList).advanceAll t.toList) following with
  | error e => rfl
  | ok vs => simp [Except.map]

/-- A text of one lexeme. -/
theorem spells_of_first? {s : String} {t : Token} {c : Char} {cs : List Char}
    (hs : s.toList = c :: cs)
    (hfirst : ∀ following, Delimited following →
      Lexeme.first? c (cs ++ following) = some ⟨c :: cs, some t⟩) : Spells s [t] := by
  intro p following hfollowing
  refine ⟨[⟨t, p⟩], rfl, ?_⟩
  rw [hs, tokenizeFrom_lexeme (hfirst following hfollowing) rfl]
  rfl

/-- A first lexeme of one character that no text after it can make longer. -/
theorem Spells.after {a s : String} {c : Char} {t? : Option Token} {w : List Token}
    (hs : Spells s w) (ha : a.toList = [c])
    (hfirst : ∀ following, Lexeme.first? c following = some ⟨[c], t?⟩) :
    Spells (a ++ s) (t?.toList ++ w) := by
  intro p following hfollowing
  obtain ⟨ts, hts, htokens⟩ := hs (p.advance c) following hfollowing
  refine ⟨t?.toList.map (⟨·, p⟩) ++ ts, by cases t? <;> simp [hts], ?_⟩
  rw [String.toList_append, ha, List.singleton_append, List.cons_append, tokenizeFrom, hfirst,
    Position.advanceAll_cons]
  change (tokenizeFrom 0 (p.advance c) (s.toList ++ following)).map _ = _
  rw [htokens]
  cases tokenizeFrom 0 ((p.advance c).advanceAll s.toList) following with
  | error e => rfl
  | ok us => cases t? <;> simp [Except.map, Lexeme.emit]

/-! ### Texts of single tokens -/

namespace Lexeme

theorem first?_eq_symbolAt? {c : Char} {t : Token} (h : symbol? c = some t) (cs : List Char) :
    first? c cs = symbolAt? c cs := by
  unfold symbol? at h
  split at h
  case h_15 => cases h
  all_goals rfl

/-- A symbol of one character that starts none of two. -/
theorem first?_symbol {c : Char} {t : Token} (h : symbol? c = some t)
    (hequals : symbolBeforeEquals? c = none) (cs : List Char) :
    first? c cs = some ⟨[c], some t⟩ := by
  rw [first?_eq_symbolAt? h, symbolAt?, hequals, ite_self, h]
  rfl

theorem isDigit_of_isLetter {c : Char} (h : isLetter c = true) : c.isDigit = false := by
  by_contra hdigit
  simp only [isLetter, Char.isAlpha, Char.isUpper, Char.isLower, Bool.or_eq_true, Bool.and_eq_true,
    decide_eq_true_eq, Bool.not_eq_false, Char.isDigit, ge_iff_le, UInt32.le_iff_toNat_le] at h hdigit
  rcases h with (h | h) | rfl
  · have := h.1.trans hdigit.2
    simp at this
  · have := h.1.trans hdigit.2
    simp at this
  · simp at hdigit

/-- Words: a letter, then letters and digits. -/
def isWord : List Char → Bool
  | [] => false
  | c :: cs => isLetter c && cs.all isWordChar

/-- The words that are neither keywords nor boolean constants. -/
def isName (s : String) : Bool := isWord s.toList && decide (Token.ofWord s = .name s)

end Lexeme

theorem spells_symbol {s : String} {c : Char} {t : Token} (hs : s.toList = [c])
    (h : Lexeme.symbol? c = some t) : Spells s [t] := by
  refine spells_of_first? hs fun following hfollowing => ?_
  rw [List.nil_append, Lexeme.first?_eq_symbolAt? h, Lexeme.symbolAt?,
    if_neg hfollowing.head?_ne_equals, h]
  rfl

theorem spells_symbolBeforeEquals {s : String} {c : Char} {t : Token} (hs : s.toList = [c, '='])
    (h : Lexeme.symbolBeforeEquals? c = some t) : Spells s [t] := by
  refine spells_of_first? hs fun following _ => ?_
  unfold Lexeme.symbolBeforeEquals? at h
  split at h <;> cases h <;> rfl

theorem spells_operator (o : Operator) : Spells o.symbol [.operator o] := by
  rcases o with (_ | _ | _ | _) | (_ | _ | _ | _) | _ | _ | _
  case compare.le | compare.ge => exact spells_symbolBeforeEquals rfl rfl
  all_goals exact spells_symbol rfl rfl

theorem spells_digits {s : String} (hne : s ≠ "") (hdigit : ∀ d ∈ s.toList, d.isDigit = true) :
    Spells s [.number (Nat.ofDigitChars 10 s.toList 0)] := by
  rcases hs : s.toList with _ | ⟨c, cs⟩
  · exact absurd (String.toList_eq_nil_iff.mp hs) hne
  rw [hs] at hdigit
  -- All digits of the number go into the lexeme, and nothing after them does.
  refine spells_of_first? hs fun following hfollowing => ?_
  have htake : (cs ++ following).takeWhile Char.isDigit = cs :=
    hfollowing.takeWhile_append (fun d hd => by simp [Lexeme.isWordChar, hd])
      fun d hd => hdigit d (.tail _ hd)
  simp only [Lexeme.first?, hdigit c (.head _), if_true, htake]

theorem spells_number (n : Nat) : Spells (toString n) [.number n] := by
  have hdigits : (toString n).toList = Nat.toDigits 10 n := Nat.toList_repr
  have hne : toString n ≠ "" := by
    intro hempty
    rw [hempty] at hdigits
    exact Nat.toDigits_ne_nil hdigits.symm
  have hspells := spells_digits hne fun d hd =>
    Nat.isDigit_of_mem_toDigits (by decide) (by decide) (hdigits ▸ hd)
  rwa [hdigits, Nat.ofDigitChars_toDigits (by decide) (by decide)] at hspells

theorem spells_word {s : String} (hs : Lexeme.isWord s.toList = true) :
    Spells s [Token.ofWord s] := by
  rcases hword : s.toList with _ | ⟨c, cs⟩
  · rw [hword] at hs
    cases hs
  rw [hword, Lexeme.isWord, Bool.and_eq_true, List.all_eq_true] at hs
  refine spells_of_first? hword fun following hfollowing => ?_
  have htake : (cs ++ following).takeWhile Lexeme.isWordChar = cs :=
    hfollowing.takeWhile_append (fun _ hd => hd) hs.2
  simp only [Lexeme.first?, Lexeme.isDigit_of_isLetter hs.1, hs.1, htake, ← hword, String.ofList_toList]
  rfl

theorem spells_name {x : String} (hx : Lexeme.isName x = true) : Spells x [.name x] := by
  rw [Lexeme.isName, Bool.and_eq_true, decide_eq_true_eq] at hx
  exact hx.2 ▸ spells_word hx.1

theorem spells_keyword (k : Keyword) : Spells k.text [.keyword k] := by
  cases k <;> exact spells_word (by decide)

theorem spells_boolean (b : Bool) : Spells (Token.booleanText b) [.boolean b] := by
  cases b <;> exact spells_word (by decide)

theorem spells_category (cat : Category) : Spells cat.name [.name cat.name] := by
  cases cat <;> exact spells_name (by decide)

/-- A directive, whether its name means something or not. -/
theorem spells_directiveName {s : String} (hne : s ≠ "")
    (hletters : ∀ c ∈ s.toList, Lexeme.isLetter c = true) : Spells ("@" ++ s) [.directive s] := by
  rcases htext : s.toList with _ | ⟨c, cs⟩
  · exact absurd (String.toList_eq_nil_iff.mp htext) hne
  have hat : ("@" ++ s).toList = '@' :: c :: cs := by
    rw [String.toList_append, htext]
    rfl
  refine spells_of_first? hat fun following hfollowing => ?_
  have htake : (c :: cs ++ following).takeWhile Lexeme.isLetter = c :: cs :=
    hfollowing.takeWhile_append (fun d hd => by simp [Lexeme.isWordChar, hd]) (htext ▸ hletters)
  change (match (c :: cs ++ following).takeWhile Lexeme.isLetter with
    | [] => none
    | d :: ds => some (⟨'@' :: d :: ds, some (.directive (String.ofList (d :: ds)))⟩ : Lexeme)) = _
  rw [htake]
  simp only [← htext, String.ofList_toList]

theorem spells_directive (word : DirectiveWord) :
    Spells ("@" ++ word.text) [.directive word.text] := by
  refine spells_directiveName (by cases word <;> decide) ?_
  rw [← List.all_eq_true]
  cases word <;> rfl

/-! ### Tokens of any text -/

/-- The tokens that the lexer makes: names are never keywords or boolean constants, and neither
layout nor the end of the input has a lexeme. -/
def Token.isLexical : Token → Bool
  | .name x => Lexeme.isName x
  | .layout | .endOfInput => false
  | _ => true

theorem Token.ofWord_cases (s : String) :
    (∃ b, Token.ofWord s = .boolean b) ∨ (∃ k, Token.ofWord s = .keyword k) ∨
      Token.ofWord s = .name s := by
  unfold Token.ofWord
  split_ifs
  · exact .inl ⟨true, rfl⟩
  · exact .inl ⟨false, rfl⟩
  · cases Keyword.ofText? s with
    | some k => exact .inr (.inl ⟨k, rfl⟩)
    | none => exact .inr (.inr rfl)

theorem Token.isLexical_ofWord {s : String} (hs : Lexeme.isWord s.toList = true) :
    (Token.ofWord s).isLexical = true := by
  obtain ⟨b, h⟩ | ⟨k, h⟩ | h := Token.ofWord_cases s
  · rw [h]
    rfl
  · rw [h]
    rfl
  · rw [h, Token.isLexical, Lexeme.isName, hs, h]
    simp

theorem Lexeme.isLexical_symbolAt? {c : Char} {cs : List Char} {l : Lexeme} {t : Token}
    (h : symbolAt? c cs = some l) (ht : l.token? = some t) : t.isLexical = true := by
  unfold symbolAt? at h
  split at h
  · next t' hequals =>
    cases h
    cases ht
    split_ifs at hequals
    unfold symbolBeforeEquals? at hequals
    split at hequals <;> cases hequals <;> rfl
  · obtain ⟨t', hsymbol, rfl⟩ := Option.map_eq_some_iff.mp h
    cases ht
    unfold symbol? at hsymbol
    split at hsymbol <;> cases hsymbol <;> rfl

theorem Lexeme.isLexical_first? {c : Char} {cs : List Char} {l : Lexeme} {t : Token}
    (h : first? c cs = some l) (ht : l.token? = some t) : t.isLexical = true := by
  unfold first? at h
  split_ifs at h with hdigit hletter hat hcomment hblank
  · cases h
    cases ht
    rfl
  · cases h
    cases ht
    refine Token.isLexical_ofWord ?_
    rw [String.toList_ofList, isWord, hletter, Bool.true_and, List.all_eq_true]
    exact fun d hd => List.mem_takeWhile_imp hd
  · split at h
    · cases h
    · cases h
      cases ht
      rfl
  · cases h
    cases ht
  · cases h
    cases ht
  · exact isLexical_symbolAt? h ht

/-- The lexer ends the tokens of a text with the end of the input, and puts it nowhere else. -/
theorem tokenizeFrom_eq_ok {inside : Nat} {p : Position} {cs : List Char} {ts : List Located}
    (h : tokenizeFrom inside p cs = .ok ts) :
    ∃ w q, ts = w ++ [⟨.endOfInput, q⟩] ∧ ∀ t ∈ w, t.token.isLexical = true := by
  induction cs generalizing inside p ts with
  | nil =>
    cases h
    exact ⟨[], p, rfl, by simp⟩
  | cons c cs ih =>
    cases inside with
    | succ k => exact ih h
    | zero =>
      rw [tokenizeFrom] at h
      cases hfirst : Lexeme.first? c cs with
      | none => rw [hfirst] at h; cases h
      | some l =>
        simp only [hfirst] at h
        cases hus : tokenizeFrom (l.text.length - 1) (p.advance c) cs with
        | error e => rw [hus] at h; cases h
        | ok us =>
          rw [hus] at h
          cases h
          obtain ⟨w, q, rfl, hw⟩ := ih hus
          cases ht : l.token? with
          | none => exact ⟨w, q, by rw [Lexeme.emit, ht], hw⟩
          | some t =>
            refine ⟨⟨t, p⟩ :: w, q, by rw [Lexeme.emit, ht]; rfl, ?_⟩
            simpa using ⟨Lexeme.isLexical_first? hfirst ht, hw⟩

/-! ### Texts put together -/

namespace Spells

variable {s t m : String} {w v u : List Token}

/-- A blank parts two texts and adds no token. -/
theorem space (hs : Spells s w) (ht : Spells t v) : Spells (s ++ " " ++ t) (w ++ v) := by
  have hblank : Spells (" " ++ t) (none.toList ++ v) := ht.after rfl fun _ => rfl
  rw [String.append_assoc]
  exact hs.append hblank (String.toList_append ..) (by decide)

theorem leading (m' : String) (hm : Spells m u) (ht : Spells t v) (hblank : m' = m ++ " ") :
    Spells (m' ++ t) (u ++ v) :=
  hblank ▸ hm.space ht

theorem between (m' : String) (hs : Spells s w) (hm : Spells m u) (ht : Spells t v)
    (hblanks : m' = " " ++ m ++ " ") : Spells (s ++ m' ++ t) (w ++ u ++ v) := by
  have hwhole := (hs.space hm).space ht
  rwa [@String.append_assoc s, @String.append_assoc s, ← hblanks] at hwhole

theorem semicolon (hs : Spells s w) (ht : Spells t v) :
    Spells (s ++ "; " ++ t) (w ++ .semicolon :: v) := by
  have hmark : Spells ";" [.semicolon] := spells_symbol rfl rfl
  have hwhole := (hs.append hmark rfl (by decide)).space ht
  rwa [@String.append_assoc s, List.append_assoc] at hwhole

theorem parenthesize (hs : Spells s w) :
    Spells (Code.parenthesize s) (.openParen :: w ++ [.closeParen]) :=
  (hs.after rfl (Lexeme.first?_symbol rfl rfl)).append (spells_symbol rfl rfl) rfl (by decide)

theorem negation (hs : Spells s w) : Spells ("¬" ++ s) (.bang :: w) :=
  hs.after rfl (Lexeme.first?_symbol rfl rfl)

end Spells

/-! ### The tokens of code -/

namespace Directive

/-- The tokens that the directive is written with. -/
def tokens : Directive → List Token
  | .trace _ => [.directive DirectiveWord.trace.text]
  | .exit => [.directive DirectiveWord.exit.text]
  | .reset => [.directive DirectiveWord.reset.text]
  | .help => [.directive DirectiveWord.help.text]
  | .print x => [.directive DirectiveWord.print.text, .name x]
  | .eval x => [.directive DirectiveWord.eval.text, .name x]

/-- Whether the directive's name can be written. -/
def isWritable : Directive → Bool
  | .print x | .eval x => Lexeme.isName x
  | _ => true

theorem spells_tokens {d : Directive} (hd : d.isWritable = true) : Spells d.render d.tokens := by
  cases d with
  | trace p => exact spells_directive .trace
  | exit => exact spells_directive .exit
  | reset => exact spells_directive .reset
  | help => exact spells_directive .help
  | print x => exact (spells_directive .print).leading "@print " (spells_name hd) (by decide)
  | eval x => exact (spells_directive .eval).leading "@eval " (spells_name hd) (by decide)

end Directive

namespace Code

/-- Tokens in parentheses. -/
def enclosed (w : List Token) : List Token := .openParen :: w ++ [.closeParen]

/-- An operand's tokens: in parentheses unless the operand is atomic. -/
def operandTokens (e : Code) (w : List Token) : List Token := if e.isAtomic then w else enclosed w

mutual

/-- The tokens that the code is written with. -/
def tokens : Code → List Token
  | .int n => [.number n.toNat]
  | .bool b => [.boolean b]
  | .var x => [.name x]
  | .not e => .bang :: operandTokens e (tokens e)
  | .binary o l r => operandTokens l (tokens l) ++ [.operator o] ++ operandTokens r (tokens r)
  | .skip => [.keyword .skip]
  | .assign x e => [.name x] ++ [.assign] ++ tokens e
  | .suite items => itemTokens items
  | .ifThen c a =>
      [.keyword .ifWord] ++ operandTokens c (tokens c) ++ [.keyword .thenWord] ++
        enclosed (tokens a)
  | .ifElse c a b =>
      [.keyword .ifWord] ++ operandTokens c (tokens c) ++ [.keyword .thenWord] ++
        enclosed (tokens a) ++ [.keyword .elseWord] ++ enclosed (tokens b)
  | .loop c a =>
      [.keyword .whileWord] ++ operandTokens c (tokens c) ++ [.keyword .doWord] ++
        enclosed (tokens a)
  | .directive d => d.tokens
  | .number a => [.directive DirectiveWord.numeric.text] ++ enclosed (tokens a)
  | .decode cat e =>
      [.directive DirectiveWord.fromNumeric.text] ++ [.name cat.name] ++ operandTokens e (tokens e)
  | .run cat e =>
      [.directive DirectiveWord.runNumeric.text] ++ [.name cat.name] ++ operandTokens e (tokens e)

/-- The tokens that the items of a suite are written with. -/
def itemTokens : List Code → List Token
  | [] => [.keyword .skip]
  | [a] => tokens a
  | a :: b :: rest =>
      (if a.isOpenEnded then enclosed (tokens a) else tokens a) ++ .semicolon :: itemTokens (b :: rest)

end

mutual

/-- Whether all constants and names of the code can be written. -/
def isWritable : Code → Bool
  | .int n => decide (0 ≤ n)
  | .bool _ | .skip => true
  | .var x => Lexeme.isName x
  | .directive d => d.isWritable
  | .not e | .number e | .decode _ e | .run _ e => isWritable e
  | .assign x e => Lexeme.isName x && isWritable e
  | .binary _ a b | .ifThen a b | .loop a b => isWritable a && isWritable b
  | .ifElse c a b => isWritable c && isWritable a && isWritable b
  | .suite items => areWritable items

/-- Whether all constants and names of the items can be written. -/
def areWritable : List Code → Bool
  | [] => true
  | a :: rest => isWritable a && areWritable rest

end

theorem spells_operand {e : Code} (h : Spells e.render e.tokens) :
    Spells (operandText e e.render) (operandTokens e e.tokens) := by
  unfold operandText operandTokens
  split
  · exact h
  · exact h.parenthesize

mutual

/-- Code is written with its tokens. -/
theorem spells_tokens : ∀ {c : Code}, c.isWritable = true → Spells c.render c.tokens
  | .int n, h => by
      obtain ⟨k, rfl⟩ := Int.eq_ofNat_of_zero_le (of_decide_eq_true h)
      exact spells_number k
  | .bool b, _ => by
      rw [render, tokens]
      exact spells_boolean b
  | .var x, h => by
      rw [isWritable] at h
      rw [render, tokens]
      exact spells_name h
  | .not e, h => by
      rw [isWritable] at h
      rw [render, tokens]
      exact (spells_operand (spells_tokens h)).negation
  | .binary o l r, h => by
      rw [isWritable, Bool.and_eq_true] at h
      rw [render, tokens]
      exact ((spells_operand (spells_tokens h.1)).space (spells_operator o)).space
        (spells_operand (spells_tokens h.2))
  | .skip, _ => by
      rw [render, tokens]
      exact spells_keyword .skip
  | .assign x e, h => by
      rw [isWritable, Bool.and_eq_true] at h
      rw [render, tokens]
      have hassign : Spells ":=" [.assign] := spells_symbolBeforeEquals rfl rfl
      exact (spells_name h.1).between " := " hassign (spells_tokens h.2) (by decide)
  | .suite items, h => by
      rw [isWritable] at h
      rw [render, tokens]
      exact spells_itemTokens h
  | .ifThen c a, h => by
      rw [isWritable, Bool.and_eq_true] at h
      rw [render, tokens]
      have hc := (spells_keyword .ifWord).leading "if " (spells_operand (spells_tokens h.1)) rfl
      exact hc.between " then " (spells_keyword .thenWord) (spells_tokens h.2).parenthesize rfl
  | .ifElse c a b, h => by
      rw [isWritable, Bool.and_eq_true, Bool.and_eq_true] at h
      rw [render, tokens]
      have hc := (spells_keyword .ifWord).leading "if " (spells_operand (spells_tokens h.1.1)) rfl
      have ha := hc.between " then " (spells_keyword .thenWord) (spells_tokens h.1.2).parenthesize rfl
      exact ha.between " else " (spells_keyword .elseWord) (spells_tokens h.2).parenthesize rfl
  | .loop c a, h => by
      rw [isWritable, Bool.and_eq_true] at h
      rw [render, tokens]
      have hc := (spells_keyword .whileWord).leading "while " (spells_operand (spells_tokens h.1)) rfl
      exact hc.between " do " (spells_keyword .doWord) (spells_tokens h.2).parenthesize rfl
  | .directive d, h => by
      rw [isWritable] at h
      rw [render, tokens]
      exact Directive.spells_tokens h
  | .number a, h => by
      rw [isWritable] at h
      rw [render, tokens]
      exact (spells_directive .numeric).leading "@numeric " (spells_tokens h).parenthesize rfl
  | .decode cat e, h => by
      rw [isWritable] at h
      rw [render, tokens]
      have hcat := (spells_directive .fromNumeric).leading "@from_numeric " (spells_category cat) rfl
      exact hcat.space (spells_operand (spells_tokens h))
  | .run cat e, h => by
      rw [isWritable] at h
      rw [render, tokens]
      have hcat := (spells_directive .runNumeric).leading "@run_numeric " (spells_category cat) rfl
      exact hcat.space (spells_operand (spells_tokens h))

theorem spells_itemTokens : ∀ {items : List Code}, areWritable items = true →
    Spells (renderItems items) (itemTokens items)
  | [], _ => by
      rw [renderItems, itemTokens]
      exact spells_keyword .skip
  | [a], h => by
      rw [areWritable, Bool.and_eq_true] at h
      rw [renderItems, itemTokens]
      exact spells_tokens h.1
  | a :: b :: rest, h => by
      rw [areWritable, Bool.and_eq_true] at h
      have hrest := spells_itemTokens h.2
      rw [renderItems, itemTokens]
      split
      · exact (spells_tokens h.1).parenthesize.semicolon hrest
      · exact (spells_tokens h.1).semicolon hrest

end

end Code

end GodelWhile
