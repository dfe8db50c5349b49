import Mathlib
import GodelWhile.Proofs.Spelling

/-! # Cutting a text into lexemes

`Fits` lists the lexemes of the language, one rule for each kind, and knows nothing of a text around
them. A text is cut into lexemes if each of them is the longest one that fits where it stands (`Cut`),
and the lexer finds exactly this cut:

    tokenize s = ok ts  ↔  s is cut into lexemes whose tokens are ts

The lexer decides by the first character which kind of lexeme it reads. That no lexeme of another kind
is longer rests on two facts: a lexeme that stands alone is read as itself (`Fits.first?_text`), and a
longer text never gives a shorter first lexeme (`first?_mono`). -/

namespace GodelWhile

namespace Lexeme

/-! ### The lexemes there are -/

/-- The lexemes of the language. A word is a keyword or a boolean constant where it spells one, and
else a name. -/
inductive Fits : Lexeme → Prop
  | number {c : Char} {cs : List Char} (h : ∀ d ∈ c :: cs, d.isDigit = true) :
      Fits ⟨c :: cs, some (.number (Nat.ofDigitChars 10 (c :: cs) 0))⟩
  | word {c : Char} {cs : List Char} (hc : isLetter c = true) (hcs : ∀ d ∈ cs, isWordChar d = true) :
      Fits ⟨c :: cs, some (.ofWord (String.ofList (c :: cs)))⟩
  | directive {c : Char} {cs : List Char} (h : ∀ d ∈ c :: cs, isLetter d = true) :
      Fits ⟨'@' :: c :: cs, some (.directive (String.ofList (c :: cs)))⟩
  | symbol {t : Token} (h : t ∈ Token.symbols) : Fits ⟨t.text.toList, some t⟩
  | negationSign : Fits ⟨['¬'], some .bang⟩
  | blank {c : Char} (h : isBlank c = true) : Fits ⟨[c], none⟩
  | comment {cs : List Char} (h : '\n' ∉ cs) : Fits ⟨'#' :: cs, none⟩

/-- The lexeme stands at the front of the text, and no longer one does. -/
structure Longest (l : Lexeme) (cs : List Char) : Prop where
  fits : l.Fits
  front : l.text <+: cs
  longest : ∀ l' : Lexeme, l'.Fits → l'.text <+: cs → l'.text.length ≤ l.text.length

/-! ### The lexer reads lexemes -/

theorem Fits.of_symbol {t : Token} {cs : List Char} (h : t ∈ Token.symbols)
    (htext : t.text.toList = cs) : Fits ⟨cs, some t⟩ :=
  htext ▸ .symbol h

theorem symbol?_fits {c : Char} {t : Token} (h : symbol? c = some t) : Fits ⟨[c], some t⟩ := by
  unfold symbol? at h
  split at h <;> cases h
  case h_5 => exact .negationSign
  all_goals exact .of_symbol (by decide) rfl

theorem symbolBeforeEquals?_fits {c : Char} {t : Token} (h : symbolBeforeEquals? c = some t) :
    Fits ⟨[c, '='], some t⟩ := by
  unfold symbolBeforeEquals? at h
  split at h <;> cases h <;> exact .of_symbol (by decide) rfl

theorem symbolAt?_fits {c : Char} {cs : List Char} {l : Lexeme} (h : symbolAt? c cs = some l) :
    l.Fits ∧ l.text <+: c :: cs := by
  unfold symbolAt? at h
  split at h
  · next t hequals =>
    cases h
    split_ifs at hequals with hhead
    obtain ⟨rest, rfl⟩ := List.head?_eq_some_iff.mp hhead
    exact ⟨symbolBeforeEquals?_fits hequals, rest, rfl⟩
  · obtain ⟨t, hsymbol, rfl⟩ := Option.map_eq_some_iff.mp h
    exact ⟨symbol?_fits hsymbol, cs, rfl⟩

/-- What is read first is a lexeme, and stands at the front. -/
theorem first?_fits {c : Char} {cs : List Char} {l : Lexeme} (h : first? c cs = some l) :
    l.Fits ∧ l.text <+: c :: cs := by
  have hfront : ∀ f : Char → Bool, c :: cs.takeWhile f <+: c :: cs := fun f =>
    List.cons_prefix_cons.mpr ⟨rfl, List.takeWhile_prefix f⟩
  unfold first? at h
  split_ifs at h with hdigit hletter hat hcomment hblank
  · cases h
    refine ⟨.number ?_, hfront _⟩
    simpa using ⟨hdigit, fun d hd => List.mem_takeWhile_imp hd⟩
  · cases h
    exact ⟨.word hletter fun d hd => List.mem_takeWhile_imp hd, hfront _⟩
  · subst hat
    have hat := hfront isLetter
    split at h
    · cases h
    · next d ds htake =>
      cases h
      rw [htake] at hat
      exact ⟨.directive fun e he => List.mem_takeWhile_imp (htake ▸ he), hat⟩
  · cases h
    subst hcomment
    refine ⟨.comment fun hnewline => ?_, hfront _⟩
    simpa using List.mem_takeWhile_imp hnewline
  · cases h
    exact ⟨.blank hblank, cs, rfl⟩
  · exact symbolAt?_fits h

/-! ### The lexer reads the longest lexeme -/

theorem takeWhile_front {f : Char → Bool} {cs ds : List Char} (h : cs <+: ds) :
    cs.takeWhile f <+: ds.takeWhile f := by
  obtain ⟨rest, rfl⟩ := h
  rw [List.takeWhile_append]
  split_ifs
  · exact (List.takeWhile_prefix f).trans (List.prefix_append _ _)
  · exact List.prefix_rfl

theorem symbolAt?_mono {c : Char} {cs ds : List Char} {l : Lexeme} (h : cs <+: ds)
    (hl : symbolAt? c cs = some l) :
    ∃ l', symbolAt? c ds = some l' ∧ l.text.length ≤ l'.text.length := by
  rcases cs with _ | ⟨d, cs⟩
  · -- Alone the character is a symbol; an equals sign after it may make a longer one.
    obtain ⟨t, ht, rfl⟩ := Option.map_eq_some_iff.mp (show (symbol? c).map _ = some l from hl)
    unfold symbolAt?
    split
    · exact ⟨_, rfl, by simp⟩
    · exact ⟨_, by rw [ht]; rfl, le_rfl⟩
  · obtain ⟨rest, rfl⟩ := h
    exact ⟨l, hl, le_rfl⟩

/-- A longer text has no shorter first lexeme. -/
theorem first?_mono {c : Char} {cs ds : List Char} {l : Lexeme} (h : cs <+: ds)
    (hl : first? c cs = some l) :
    ∃ l', first? c ds = some l' ∧ l.text.length ≤ l'.text.length := by
  have hlength : ∀ f : Char → Bool, (cs.takeWhile f).length ≤ (ds.takeWhile f).length := fun f =>
    (takeWhile_front h).length_le
  unfold first? at hl ⊢
  split_ifs at hl ⊢ with hdigit hletter hat hcomment hblank
  · cases hl
    exact ⟨_, rfl, Nat.succ_le_succ (hlength _)⟩
  · cases hl
    exact ⟨_, rfl, Nat.succ_le_succ (hlength _)⟩
  · split at hl
    · cases hl
    · next d cs' htake =>
      cases hl
      have hfront := takeWhile_front (f := isLetter) h
      rw [htake] at hfront
      obtain ⟨rest, hrest⟩ := hfront
      rw [← hrest]
      exact ⟨_, rfl, by simp⟩
  · cases hl
    exact ⟨_, rfl, Nat.succ_le_succ (hlength _)⟩
  · cases hl
    exact ⟨_, rfl, le_rfl⟩
  · exact symbolAt?_mono h hl

theorem first?_of_mem_symbols {t : Token} (h : t ∈ Token.symbols) :
    ∃ c cs, t.text.toList = c :: cs ∧ first? c cs = some ⟨c :: cs, some t⟩ := by
  simp only [Token.symbols, Operator.all, List.map_cons, List.map_nil, List.cons_append,
    List.nil_append, List.mem_cons, List.not_mem_nil, or_false] at h
  rcases h with rfl | rfl | rfl | rfl | rfl | rfl | rfl | rfl | rfl | rfl | rfl | rfl | rfl | rfl |
    rfl | rfl <;> exact ⟨_, _, rfl, rfl⟩

/-- A lexeme that stands alone is read as itself. -/
theorem Fits.first?_text {l : Lexeme} (h : l.Fits) :
    ∃ c cs, l.text = c :: cs ∧ first? c cs = some l := by
  cases h with
  | @number c cs h =>
    have htake : cs.takeWhile Char.isDigit = cs :=
      List.takeWhile_eq_self_iff.mpr fun d hd => h d (.tail _ hd)
    exact ⟨c, cs, rfl, by rw [first?, if_pos (h c (.head _)), htake]⟩
  | @word c cs hc hcs =>
    have htake : cs.takeWhile isWordChar = cs := List.takeWhile_eq_self_iff.mpr hcs
    refine ⟨c, cs, rfl, ?_⟩
    rw [first?, if_neg (by rw [isDigit_of_isLetter hc]; decide), if_pos hc, htake]
  | @directive c cs h =>
    have htake : (c :: cs).takeWhile isLetter = c :: cs := List.takeWhile_eq_self_iff.mpr h
    exact ⟨'@', c :: cs, rfl, by simp [first?, isLetter, htake]⟩
  | symbol h =>
    obtain ⟨c, cs, htext, hfirst⟩ := first?_of_mem_symbols h
    exact ⟨c, cs, htext, by rw [htext, hfirst]⟩
  | negationSign => exact ⟨'¬', [], rfl, rfl⟩
  | @blank c h =>
    simp only [isBlank, Bool.or_eq_true, decide_eq_true_eq] at h
    refine ⟨c, [], rfl, ?_⟩
    rcases h with (((rfl | rfl) | rfl) | rfl) | rfl <;> rfl
  | @comment cs h =>
    have htake : cs.takeWhile (· ≠ '\n') = cs := by
      refine List.takeWhile_eq_self_iff.mpr fun d hd => decide_eq_true ?_
      rintro rfl
      exact h hd
    refine ⟨'#', cs, rfl, ?_⟩
    change some (⟨'#' :: cs.takeWhile (· ≠ '\n'), none⟩ : Lexeme) = _
    rw [htake]

theorem Fits.text_ne_nil {l : Lexeme} (h : l.Fits) : l.text ≠ [] := by
  obtain ⟨c, cs, htext, -⟩ := h.first?_text
  rw [htext]
  exact List.cons_ne_nil c cs

/-- Where a lexeme fits, one at least as long is read. -/
theorem Fits.exists_first? {l : Lexeme} (hl : l.Fits) {c : Char} {cs : List Char}
    (hfront : l.text <+: c :: cs) : ∃ l', first? c cs = some l' ∧ l.text.length ≤ l'.text.length := by
  obtain ⟨d, ds, htext, hfirst⟩ := hl.first?_text
  rw [htext, List.cons_prefix_cons] at hfront
  obtain ⟨rfl, hfront⟩ := hfront
  exact first?_mono hfront hfirst

/-- A lexeme is settled by its text. -/
theorem Fits.eq_of_text_eq {l l' : Lexeme} (hl : l.Fits) (hl' : l'.Fits) (h : l.text = l'.text) :
    l = l' := by
  obtain ⟨c, cs, htext, hfirst⟩ := hl.first?_text
  obtain ⟨d, ds, htext', hfirst'⟩ := hl'.first?_text
  obtain ⟨rfl, rfl⟩ := List.cons.inj ((htext.symm.trans h).trans htext')
  exact Option.some.inj (hfirst.symm.trans hfirst')

/-- The lexer reads the longest lexeme. -/
theorem first?_eq_some_iff {c : Char} {cs : List Char} {l : Lexeme} :
    first? c cs = some l ↔ l.Longest (c :: cs) := by
  constructor
  · intro h
    obtain ⟨hfits, hfront⟩ := first?_fits h
    refine ⟨hfits, hfront, fun l' hl' hfront' => ?_⟩
    obtain ⟨l'', hfirst, hle⟩ := hl'.exists_first? hfront'
    obtain rfl := Option.some.inj (h.symm.trans hfirst)
    exact hle
  · rintro ⟨hfits, hfront, hlongest⟩
    obtain ⟨l', hfirst, hle⟩ := hfits.exists_first? hfront
    obtain ⟨hfits', hfront'⟩ := first?_fits hfirst
    -- Both stand at the front and are of one length, so they have one text.
    have htext : l.text = l'.text := (List.prefix_of_prefix_length_le hfront hfront' hle).eq_of_length
      (le_antisymm hle (hlongest l' hfits' hfront'))
    rw [hfirst, hfits.eq_of_text_eq hfits' htext]

end Lexeme

/-! ### The cut -/

/-- The text is cut into the lexemes, each the longest that fits where it stands. -/
inductive Cut : List Char → List Lexeme → Prop
  | nil : Cut [] []
  | cons {l : Lexeme} {rest : List Char} {ls : List Lexeme} (hl : l.Longest (l.text ++ rest))
      (hrest : Cut rest ls) : Cut (l.text ++ rest) (l :: ls)

namespace Cut

variable {cs : List Char} {ls : List Lexeme}

/-- The lexemes put together are the text: none of it is lost. -/
theorem text_eq (h : Cut cs ls) : ls.flatMap Lexeme.text = cs := by
  induction h with
  | nil => rfl
  | cons _ _ ih => rw [List.flatMap_cons, ih]

theorem fits (h : Cut cs ls) {l : Lexeme} (hl : l ∈ ls) : l.Fits := by
  induction h with
  | nil => cases hl
  | cons hlongest _ ih =>
    rcases List.mem_cons.mp hl with rfl | hl
    · exact hlongest.fits
    · exact ih hl

end Cut

/-- The tokens of the lexemes, the first of which stands at `p`, and the end marker. -/
def tokensOf (p : Position) : List Lexeme → List Located
  | [] => [⟨.endOfInput, p⟩]
  | l :: ls => l.emit p (tokensOf (p.advanceAll l.text) ls)

/-- The longest lexeme at the front gives its token, and the text after it the others. -/
theorem tokenizeFrom_longest {l : Lexeme} {rest : List Char} (h : l.Longest (l.text ++ rest))
    (p : Position) :
    tokenizeFrom 0 p (l.text ++ rest) =
      (tokenizeFrom 0 (p.advanceAll l.text) rest).map (l.emit p) := by
  obtain ⟨c, cs, htext, -⟩ := h.fits.first?_text
  rw [htext] at h ⊢
  exact tokenizeFrom_lexeme (Lexeme.first?_eq_some_iff.mpr h) htext p

/-- Every text is empty, or starts with a longest lexeme, or with a character that starts none. -/
theorem lexeme_induction {motive : List Char → Prop} (nil : motive [])
    (stuck : ∀ c cs, Lexeme.first? c cs = none → motive (c :: cs))
    (lexeme : ∀ (l : Lexeme) rest, l.Longest (l.text ++ rest) → motive rest → motive (l.text ++ rest))
    (cs : List Char) : motive cs := by
  induction hn : cs.length using Nat.strong_induction_on generalizing cs with
  | _ n ih =>
    rcases cs with _ | ⟨c, cs⟩
    · exact nil
    · cases hfirst : Lexeme.first? c cs with
      | none => exact stuck c cs hfirst
      | some l =>
        have hlongest := Lexeme.first?_eq_some_iff.mp hfirst
        obtain ⟨rest, hrest⟩ := hlongest.front
        rw [← hrest] at hlongest hn ⊢
        have hpos := List.length_pos_of_ne_nil hlongest.fits.text_ne_nil
        rw [List.length_append] at hn
        exact lexeme l rest hlongest (ih rest.length (by omega) rest rfl)

/-- The lexer finds the cut of a text, and only texts that have one are accepted. -/
theorem tokenizeFrom_eq_ok_iff {p : Position} {cs : List Char} {ts : List Located} :
    tokenizeFrom 0 p cs = .ok ts ↔ ∃ ls, Cut cs ls ∧ ts = tokensOf p ls := by
  constructor
  · intro h
    induction cs using lexeme_induction generalizing p ts with
    | nil =>
      cases h
      exact ⟨[], .nil, rfl⟩
    | stuck c cs hfirst =>
      rw [tokenizeFrom, hfirst] at h
      cases h
    | lexeme l rest hlongest ih =>
      rw [tokenizeFrom_longest hlongest] at h
      cases hus : tokenizeFrom 0 (p.advanceAll l.text) rest with
      | error e => rw [hus] at h; cases h
      | ok us =>
        rw [hus] at h
        cases h
        obtain ⟨ls, hcut, rfl⟩ := ih hus
        exact ⟨l :: ls, .cons hlongest hcut, rfl⟩
  · rintro ⟨ls, hcut, rfl⟩
    induction hcut generalizing p with
    | nil => rfl
    | cons hlongest _ ih =>
      rw [tokenizeFrom_longest hlongest, ih]
      rfl

end GodelWhile
