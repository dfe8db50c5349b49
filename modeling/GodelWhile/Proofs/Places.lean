import Mathlib
import GodelWhile.Proofs.Lexemes

/-! # Where tokens stand

A token's place is found by walking over the text before it. It can as well be read off that text:
the line counts its newlines, the column the characters since the last of them. This holds at every
offset of a text, so it holds where the lexer cuts off a token; and since no lexeme is empty, the
places of the tokens grow along the text. -/

namespace GodelWhile

namespace Position

/-- The place right after the text `before`, which stands at the start: one line more than it has
newlines, and one column more than it has characters after the last of them. -/
def after (before : List Char) : Position :=
  ⟨1 + before.count '\n', 1 + (before.rtakeWhile (· ≠ '\n')).length⟩

theorem after_concat (before : List Char) (c : Char) :
    after (before ++ [c]) = (after before).advance c := by
  unfold after advance
  rw [List.rtakeWhile_concat, List.count_append]
  by_cases hc : c = '\n'
  · simp [hc, Nat.add_assoc]
  · simp [hc, Nat.add_assoc]

/-- Walking on from a place counted in the text gives the place counted in the longer text. -/
theorem advanceAll_after (before cs : List Char) :
    (after before).advanceAll cs = after (before ++ cs) := by
  induction cs generalizing before with
  | nil => rw [advanceAll_nil, List.append_nil]
  | cons c cs ih => rw [advanceAll_cons, ← after_concat, ih, List.append_assoc, List.singleton_append]

/-- The first place comes earlier in a text than the second. -/
def Before (p q : Position) : Prop := p.line < q.line ∨ p.line = q.line ∧ p.column < q.column

theorem Before.trans {p q r : Position} (h : p.Before q) (h' : q.Before r) : p.Before r := by
  unfold Before at *
  omega

theorem before_advance (p : Position) (c : Char) : p.Before (p.advance c) := by
  unfold advance
  split_ifs
  · exact .inl (Nat.lt_succ_self _)
  · exact .inr ⟨rfl, Nat.lt_succ_self _⟩

theorem before_advanceAll (p : Position) {cs : List Char} (h : cs ≠ []) :
    p.Before (p.advanceAll cs) := by
  induction cs generalizing p with
  | nil => exact absurd rfl h
  | cons c cs ih =>
    rw [advanceAll_cons]
    by_cases hcs : cs = []
    · rw [hcs, advanceAll_nil]
      exact before_advance p c
    · exact (before_advance p c).trans (ih (p.advance c) hcs)

/-- The place after a text is the place of its start, or a later one. -/
theorem eq_or_before_advanceAll (p : Position) (cs : List Char) :
    p.advanceAll cs = p ∨ p.Before (p.advanceAll cs) := by
  by_cases hcs : cs = []
  · exact .inl (by rw [hcs, advanceAll_nil])
  · exact .inr (before_advanceAll p hcs)

end Position

/-! ### Tokens and their offsets -/

/-- The tokens of the lexemes and then the end marker, each with the offset in the text at which it
starts; the first lexeme starts at `i`. -/
def startsOf (i : Nat) : List Lexeme → List (Nat × Token)
  | [] => [(i, .endOfInput)]
  | l :: ls =>
    match l.token? with
    | none => startsOf (i + l.text.length) ls
    | some t => (i, t) :: startsOf (i + l.text.length) ls

/-- The place of a token is counted in the text before its offset. -/
theorem tokensOf_after (before : List Char) (ls : List Lexeme) :
    tokensOf (.after before) ls = (startsOf before.length ls).map fun start =>
      ⟨start.2, .after ((before ++ ls.flatMap Lexeme.text).take start.1)⟩ := by
  induction ls generalizing before with
  | nil => simp [tokensOf, startsOf]
  | cons l ls ih =>
    have hrest := ih (before ++ l.text)
    rw [List.length_append, List.append_assoc] at hrest
    rw [tokensOf, Position.advanceAll_after, hrest, startsOf, List.flatMap_cons, Lexeme.emit]
    cases l.token? with
    | none => rfl
    | some t => simp

theorem eq_or_before_of_mem_tokensOf {p : Position} {ls : List Lexeme} {t : Located}
    (ht : t ∈ tokensOf p ls) : t.pos = p ∨ p.Before t.pos := by
  induction ls generalizing p with
  | nil =>
    obtain rfl := List.mem_singleton.mp ht
    exact .inl rfl
  | cons l ls ih =>
    have hlater : t ∈ tokensOf (p.advanceAll l.text) ls → t.pos = p ∨ p.Before t.pos := by
      intro hmem
      rcases ih hmem with heq | hbefore
      · exact heq ▸ p.eq_or_before_advanceAll l.text
      · rcases p.eq_or_before_advanceAll l.text with h | h
        · exact .inr (h ▸ hbefore)
        · exact .inr (h.trans hbefore)
    rw [tokensOf, Lexeme.emit] at ht
    cases hl : l.token? with
    | none => exact hlater (by simpa only [hl] using ht)
    | some u =>
      rw [hl] at ht
      rcases List.mem_cons.mp ht with rfl | hmem
      · exact .inl rfl
      · exact hlater hmem

/-- Since no lexeme is empty, later tokens stand at later places. -/
theorem pairwise_before_tokensOf {ls : List Lexeme} (hls : ∀ l ∈ ls, l.text ≠ []) (p : Position) :
    (tokensOf p ls).Pairwise fun t u => t.pos.Before u.pos := by
  induction ls generalizing p with
  | nil => exact List.pairwise_singleton _ _
  | cons l ls ih =>
    have hrest := ih (fun l' hl' => hls l' (.tail _ hl')) (p.advanceAll l.text)
    rw [tokensOf, Lexeme.emit]
    cases l.token? with
    | none => exact hrest
    | some t =>
      refine List.pairwise_cons.mpr ⟨fun u hu => ?_, hrest⟩
      have hbefore := p.before_advanceAll (hls l (.head _))
      rcases eq_or_before_of_mem_tokensOf hu with heq | hlater
      · exact heq ▸ hbefore
      · exact hbefore.trans hlater

theorem getLast?_startsOf (i : Nat) (ls : List Lexeme) :
    (startsOf i ls).getLast? = some (i + (ls.flatMap Lexeme.text).length, .endOfInput) := by
  induction ls generalizing i with
  | nil => rfl
  | cons l ls ih =>
    have hrest := ih (i + l.text.length)
    rw [Nat.add_assoc, ← List.length_append, ← List.flatMap_cons] at hrest
    rw [startsOf]
    cases l.token? with
    | none => exact hrest
    | some t => rw [List.getLast?_cons, hrest]; rfl

/-- The tokens of a text, each with the place counted in the text before it. -/
theorem tokenize_eq_ok_iff {s : String} {ts : List Located} :
    tokenize s = .ok ts ↔ ∃ ls, Cut s.toList ls ∧
      ts = (startsOf 0 ls).map fun start => ⟨start.2, .after (s.toList.take start.1)⟩ := by
  rw [tokenize, tokenizeFrom_eq_ok_iff]
  refine exists_congr fun ls => and_congr_right fun hcut => ?_
  rw [show Position.start = .after [] from rfl, tokensOf_after, List.nil_append, hcut.text_eq]
  rfl

/-- Tokens stand where they start: at one line more than there are newlines before that offset, and at
one column more than there are characters since the last of them. The end marker stands at the end of
the text. So the places of the tokens increase along the text. -/
theorem tokenize_places {s : String} {ts : List Located} (h : tokenize s = .ok ts) :
    (∃ ls, Cut s.toList ls ∧
      ts = (startsOf 0 ls).map fun start => ⟨start.2, .after (s.toList.take start.1)⟩) ∧
    ts.getLast? = some ⟨.endOfInput, .after s.toList⟩ ∧
    ts.Pairwise fun t u => t.pos.Before u.pos := by
  obtain ⟨ls, hcut, hts⟩ := tokenize_eq_ok_iff.mp h
  refine ⟨⟨ls, hcut, hts⟩, ?_, ?_⟩
  · rw [hts, List.getLast?_map, getLast?_startsOf, hcut.text_eq]
    simp
  · obtain ⟨ls, hcut, rfl⟩ := tokenizeFrom_eq_ok_iff.mp h
    exact pairwise_before_tokensOf (fun l hl => (hcut.fits hl).text_ne_nil) .start

/-- In a text of two lines, a comment with a character of two bytes does not shift what follows it. -/
theorem tokenize_places_two_lines :
    let s := "¬x # é\n  := 10"
    let ts : List Located := [⟨.bang, ⟨1, 1⟩⟩, ⟨.name "x", ⟨1, 2⟩⟩, ⟨.assign, ⟨2, 3⟩⟩,
      ⟨.number 10, ⟨2, 6⟩⟩, ⟨.endOfInput, ⟨2, 8⟩⟩]
    tokenize s = .ok ts ∧ (∃ ls, Cut s.toList ls ∧
      ts = (startsOf 0 ls).map fun start => ⟨start.2, .after (s.toList.take start.1)⟩) ∧
      ts.getLast? = some ⟨.endOfInput, .after s.toList⟩ ∧
      ts.Pairwise fun t u => t.pos.Before u.pos := by
  intro s ts
  have h : tokenize s = .ok ts := by cbv
  exact ⟨h, tokenize_places h⟩

end GodelWhile
