import Mathlib
import GodelWhile.Proofs.RoundTrip

/-! # Which programs survive printing

Not every program can be printed and parsed again. After `@from_numeric` and `@run_numeric` the
parser takes a statement, but the printer puts anything longer than a constant or a variable in
parentheses, and in parentheses the parser takes an expression there. So the text of a parsed program
can be parsed exactly if no statement stands for a number in it.

    @from_numeric a skip     is printed as     @from_numeric a (skip)

In one direction this is the round trip, for the names and constants of a parsed program can be
written. In the other, `isBlocked` says that such a parenthesis is next; the parser never passes one,
and the text of a statement in place of a number has one. -/

namespace GodelWhile

namespace Code

/-- Code that is not a suite. -/
def isSingle : Code → Bool
  | .suite _ => false
  | _ => true

theorem areShaped_iff {f : Code → Bool} {items : List Code} :
    areShaped f items = true ↔ ∀ a ∈ items, a.isShaped f = true := by
  induction items with
  | nil => simp [areShaped]
  | cons a items ih => simp [areShaped, ih]

theorem areWritable_iff {items : List Code} :
    areWritable items = true ↔ ∀ a ∈ items, a.isWritable = true := by
  induction items with
  | nil => simp [areWritable]
  | cons a items ih => simp [areWritable, ih]

/-- What all trees of the parser have in common. -/
structure Parsed (c : Code) : Prop where
  shaped : c.isShaped isSingle = true
  writable : c.isWritable = true

theorem Parsed.suite {items : List Code} (h : ∀ a ∈ items, Parsed a) : Parsed (.suite items) :=
  ⟨by rw [isShaped, areShaped_iff]; exact fun a ha => (h a ha).shaped,
    by rw [isWritable, areWritable_iff]; exact fun a ha => (h a ha).writable⟩

theorem isSingle_of_isExpression {c : Code} (h : c.isExpression = true) : c.isSingle = true := by
  cases c with
  | suite items => cases h
  | _ => rfl

end Code

namespace Rule

open Code

/-! ### The trees of the parser -/

/-- All names in the stream can be written. -/
def Named (ts : List Located) : Prop := ∀ t ∈ ts, ∀ x, t.token = .name x → Lexeme.isName x = true

theorem Named.tail {t : Located} {ts : List Located} (h : Named (t :: ts)) : Named ts :=
  fun t' ht' => h t' (.tail _ ht')

theorem Named.of_takes {ts mid : List Located} (h : Named ts) (hmid : Takes ts mid) : Named mid := by
  obtain ⟨taken, rfl, -⟩ := hmid.exists_append
  exact fun t ht => h t (List.mem_append_right _ ht)

/-- What a rule makes, given that what has been read before was parsed. -/
def Makes (r : Rule) (c : Code) : Prop :=
  match r with
  | .suite done => (∀ a ∈ done, Parsed a) → Parsed c
  | .item => Parsed c
  | .statement => Parsed c ∧ c.isSingle = true
  | .operators _ left => Parsed left ∧ left.isExpression = true → Parsed c ∧ c.isExpression = true
  | .level _ | .factor | .primary => Parsed c ∧ c.isExpression = true

theorem makes_operand {l : Level} {c : Code} (h : (operand l).Makes c) :
    Parsed c ∧ c.isExpression = true := by
  cases l <;> exact h

theorem Reads.makes {r : Rule} {ts rest : List Located} {c : Code} (h : Reads r ts c rest)
    (hts : Named ts) : r.Makes c := by
  induction h with
  | suiteEnd => exact fun hdone => .suite fun a ha => hdone a (List.mem_reverse.mp ha)
  | suiteLast _ _ _ ih =>
    intro hdone
    refine .suite fun a ha => ?_
    rcases List.mem_cons.mp (List.mem_reverse.mp ha) with rfl | ha
    · exact ih hts
    · exact hdone a ha
  | suiteMore _ ha _ iha ihc =>
    intro hdone
    refine ihc (hts.of_takes ha.takes).tail fun a ha => ?_
    rcases List.mem_cons.mp ha with rfl | ha
    · exact iha hts
    · exact hdone a ha
  | group _ _ ih => exact ih hts.tail nofun
  | operandFirst _ _ _ _ ih | item _ _ ih => exact (ih hts).1
  | skip => exact ⟨⟨rfl, rfl⟩, rfl⟩
  | ifThen hc ha _ ihc iha =>
    obtain ⟨hc', hexpression⟩ := ihc hts.tail
    have ha' := iha (hts.tail.of_takes hc.takes).tail nofun
    exact ⟨⟨by simp [isShaped, hc'.shaped, hexpression, ha'.shaped],
      by simp [isWritable, hc'.writable, ha'.writable]⟩, rfl⟩
  | ifElse hc ha hb ihc iha ihb =>
    obtain ⟨hc', hexpression⟩ := ihc hts.tail
    have hmid := (hts.tail.of_takes hc.takes).tail
    have ha' := iha hmid nofun
    have hb' := ihb (hmid.of_takes ha.takes).tail nofun
    exact ⟨⟨by simp [isShaped, hc'.shaped, hexpression, ha'.shaped, hb'.shaped],
      by simp [isWritable, hc'.writable, ha'.writable, hb'.writable]⟩, rfl⟩
  | loop hc ha ihc iha =>
    obtain ⟨hc', hexpression⟩ := ihc hts.tail
    have ha' := iha (hts.tail.of_takes hc.takes).tail nofun
    exact ⟨⟨by simp [isShaped, hc'.shaped, hexpression, ha'.shaped],
      by simp [isWritable, hc'.writable, ha'.writable]⟩, rfl⟩
  | assign _ ih =>
    obtain ⟨he, hexpression⟩ := ih hts.tail.tail
    have hname := hts _ List.mem_cons_self _ rfl
    exact ⟨⟨by simp [isShaped, he.shaped, hexpression], by simp [isWritable, he.writable, hname]⟩,
      rfl⟩
  | expression _ _ ih =>
    obtain ⟨he, hexpression⟩ := ih hts
    exact ⟨he, isSingle_of_isExpression hexpression⟩
  | level ha _ iha ihc => exact ihc (hts.of_takes ha.takes) (makes_operand (iha hts))
  | noOperator => exact id
  | operator _ hb _ ihb ihc =>
    rintro ⟨hleft, hexpression⟩
    obtain ⟨hright, hexpression'⟩ := makes_operand (ihb hts.tail)
    refine ihc (hts.tail.of_takes hb.takes) ⟨⟨?_, ?_⟩, rfl⟩
    · simp [isShaped, hleft.shaped, hexpression, hright.shaped, hexpression']
    · simp [isWritable, hleft.writable, hright.writable]
  | not _ ih =>
    obtain ⟨he, hexpression⟩ := ih hts.tail
    exact ⟨⟨by simp [isShaped, he.shaped, hexpression], by simp [isWritable, he.writable]⟩, rfl⟩
  | primary _ _ ih => exact ih hts
  | parens _ ih => exact ih hts.tail
  | var => exact ⟨⟨rfl, hts _ List.mem_cons_self _ rfl⟩, rfl⟩
  | int => exact ⟨⟨rfl, by simp [isWritable]⟩, rfl⟩
  | bool | trace | exit | help | reset => exact ⟨⟨rfl, rfl⟩, rfl⟩
  | print | eval => exact ⟨⟨rfl, hts.tail _ List.mem_cons_self _ rfl⟩, rfl⟩
  | number _ ih =>
    have ha := ih hts.tail nofun
    exact ⟨⟨by simp [isShaped, ha.shaped], by simp [isWritable, ha.writable]⟩, rfl⟩
  | decode _ ih | run _ ih =>
    obtain ⟨he, hsingle⟩ := ih hts.tail.tail
    exact ⟨⟨by simp [isShaped, he.shaped, hsingle], by simp [isWritable, he.writable]⟩, rfl⟩

/-! ### What the parser does not pass -/

/-- An expression starts with a factor, and is no longer than it if no operator follows. -/
theorem Reads.first_factor {l : Level} {ts rest : List Located} {c : Code}
    (h : Reads (.level l) ts c rest) :
    ∃ e mid, Reads .factor ts e mid ∧
      ((∀ o, (Parser.next mid).token ≠ .operator o) → rest = mid) := by
  cases h with
  | @level _ _ mid _ a _ ha hc =>
    -- The operand starts with the factor; the level adds to it only if one of its operators is next.
    have hmore : (∀ o, (Parser.next mid).token ≠ .operator o) → rest = mid := by
      intro hnone
      cases hc with
      | noOperator => rfl
      | operator => exact absurd rfl (hnone _)
    unfold operand at ha
    cases ht : l.tighter? with
    | none =>
      rw [ht] at ha
      exact ⟨a, mid, ha, hmore⟩
    | some t =>
      rw [ht] at ha
      obtain ⟨e, mid', he, hmid⟩ := ha.first_factor
      refine ⟨e, mid', he, fun hnone => ?_⟩
      obtain rfl := hmid hnone
      exact hmore hnone
termination_by (Rule.level l).rank
decreasing_by exact rank_lt_of_tighter ht

/-- What is read as an expression up to a closing parenthesis does not start like a statement. -/
theorem startsExpression_of_reads {ts rest : List Located} {e : Code} {p : Position}
    (h : Reads expression ts e (⟨.closeParen, p⟩ :: rest)) : startsExpression ts = true := by
  obtain ⟨e', mid, hfactor, hmid⟩ := h.first_factor
  by_contra hstart
  unfold startsExpression at hstart
  -- No keyword starts a factor. A name before `:=` is one, but then no parenthesis follows it.
  split at hstart
  · cases hfactor with
    | primary _ he => cases he
  · cases hfactor with
    | primary _ he => cases he
  · cases hfactor with
    | primary _ he => cases he
  · cases hfactor with
    | primary _ he =>
      cases he
      cases hmid nofun
  · exact hstart rfl

/-- In a statement that starts with a parenthesis, the parenthesis holds an expression. -/
theorem startsExpression_of_parenthesis {p : Position} {ts rest : List Located} {e : Code}
    (h : Reads .statement (⟨.openParen, p⟩ :: ts) e rest) : startsExpression ts = true := by
  cases h with
  | expression _ he =>
    obtain ⟨e', mid, hfactor, -⟩ := he.first_factor
    cases hfactor with
    | primary _ he =>
      cases he with
      | parens he => exact startsExpression_of_reads he

/-- A directive that reads a number is next, and then something in parentheses that starts like a
statement. -/
def isBlocked : List Located → Bool
  | ⟨t, _⟩ :: ⟨.name _, _⟩ :: ⟨.openParen, _⟩ :: ts => readsNumber t && !startsExpression ts
  | _ => false

theorem Reads.passes_unblocked {r : Rule} {ts rest : List Located} {c : Code}
    (h : Reads r ts c rest) : Passes (fun ts => isBlocked ts = false) ts rest := by
  refine h.passes ?_ ?_
  · intro t p ts _ ht
    unfold isBlocked
    split
    · next heq =>
      cases heq
      rw [ht]
      rfl
    · rfl
  · intro s x p q ts rest e he
    unfold isBlocked
    split
    · next heq =>
      cases heq
      rw [startsExpression_of_parenthesis he, Bool.not_true, Bool.and_false]
    · rfl

theorem startsExpression_append_eq_false {ts u : List Located} (h : startsExpression ts = false) :
    startsExpression (ts ++ u) = false := by
  unfold startsExpression at h
  split at h
  · rfl
  · rfl
  · rfl
  · rfl
  · cases h

theorem isBlocked_append {ts u : List Located} (h : isBlocked ts = true) :
    isBlocked (ts ++ u) = true := by
  unfold isBlocked at h
  split at h
  · rw [Bool.and_eq_true, Bool.not_eq_true'] at h
    simp [isBlocked, h.1, startsExpression_append_eq_false h.2]
  · cases h

end Rule

namespace Code

open Rule

/-- No directive in the tokens is blocked. -/
def Clear (w : List Token) : Prop := ∀ v, v <:+ w → isBlocked (v.map Token.bare) = false

theorem Clear.of_infix {w w' : List Token} (h : Clear w') (hw : w <:+: w') : Clear w := by
  intro v hv
  by_contra hblocked
  obtain ⟨a, b, rfl⟩ := hw
  have hlong := isBlocked_append (u := b.map Token.bare) (Bool.not_eq_false _ ▸ hblocked)
  have hsuffix : v ++ b <:+ a ++ w ++ b := by
    obtain ⟨a', rfl⟩ := hv
    exact ⟨a ++ a', by simp⟩
  rw [← List.map_append, h _ hsuffix] at hlong
  cases hlong

theorem Clear.left {w v : List Token} (h : Clear (w ++ v)) : Clear w :=
  h.of_infix ⟨[], v, by simp⟩

theorem Clear.right {w v : List Token} (h : Clear (w ++ v)) : Clear v :=
  h.of_infix ⟨w, [], by simp⟩

theorem Clear.inside {w : List Token} (h : Clear (enclosed w)) : Clear w :=
  h.of_infix ⟨[.openParen], [.closeParen], rfl⟩

theorem Clear.operand {e : Code} (h : Clear (operandTokens e e.tokens)) : Clear e.tokens := by
  unfold operandTokens at h
  split at h
  · exact h
  · exact h.inside

/-- A number is an expression if the directive before it is not blocked. -/
theorem isExpression_of_clear {e : Code} {s x : String} (hs : readsNumber (.directive s) = true)
    (he : e.isSingle = true)
    (h : Clear ([.directive s] ++ [.name x] ++ operandTokens e e.tokens)) :
    e.isExpression = true := by
  by_contra hstatement
  have hclear := h _ List.suffix_rfl
  cases e with
  | suite items => cases he
  | skip | assign x e | ifThen c a | ifElse c a b | loop c a =>
    rw [operandTokens, tokens] at hclear
    simp [isAtomic, enclosed, isBlocked, Token.bare, hs, startsExpression] at hclear
  | _ => exact hstatement rfl

mutual

/-- Where no directive is blocked, only expressions stand for numbers. -/
theorem isShaped_of_clear : ∀ {t : Code}, t.isShaped isSingle = true → Clear t.tokens →
    t.isShaped isExpression = true
  | .int _, _, _ | .bool _, _, _ | .var _, _, _ | .skip, _, _ | .directive _, _, _ => rfl
  | .not e, h, hclear => by
      rw [isShaped, Bool.and_eq_true] at h ⊢
      rw [tokens, ← List.singleton_append] at hclear
      exact ⟨h.1, isShaped_of_clear h.2 hclear.right.operand⟩
  | .assign x e, h, hclear => by
      rw [isShaped, Bool.and_eq_true] at h ⊢
      rw [tokens] at hclear
      exact ⟨h.1, isShaped_of_clear h.2 hclear.right⟩
  | .binary o l r, h, hclear => by
      simp only [isShaped, Bool.and_eq_true] at h ⊢
      rw [tokens] at hclear
      exact ⟨⟨h.1.1, isShaped_of_clear h.1.2 hclear.left.left.operand⟩,
        h.2.1, isShaped_of_clear h.2.2 hclear.right.operand⟩
  | .ifThen c a, h, hclear => by
      simp only [isShaped, Bool.and_eq_true] at h ⊢
      rw [tokens] at hclear
      exact ⟨⟨h.1.1, isShaped_of_clear h.1.2 hclear.left.left.right.operand⟩,
        isShaped_of_clear h.2 hclear.right.inside⟩
  | .ifElse c a b, h, hclear => by
      simp only [isShaped, Bool.and_eq_true] at h ⊢
      rw [tokens] at hclear
      exact ⟨⟨⟨h.1.1.1, isShaped_of_clear h.1.1.2 hclear.left.left.left.left.right.operand⟩,
        isShaped_of_clear h.1.2 hclear.left.left.right.inside⟩,
        isShaped_of_clear h.2 hclear.right.inside⟩
  | .loop c a, h, hclear => by
      simp only [isShaped, Bool.and_eq_true] at h ⊢
      rw [tokens] at hclear
      exact ⟨⟨h.1.1, isShaped_of_clear h.1.2 hclear.left.left.right.operand⟩,
        isShaped_of_clear h.2 hclear.right.inside⟩
  | .suite items, h, hclear => by
      rw [isShaped] at h ⊢
      rw [tokens] at hclear
      exact areShaped_of_clear h hclear
  | .number a, h, hclear => by
      rw [isShaped] at h ⊢
      rw [tokens] at hclear
      exact isShaped_of_clear h hclear.right.inside
  | .decode cat e, h, hclear => by
      rw [isShaped, Bool.and_eq_true] at h ⊢
      rw [tokens] at hclear
      exact ⟨isExpression_of_clear (by decide) h.1 hclear,
        isShaped_of_clear h.2 hclear.right.operand⟩
  | .run cat e, h, hclear => by
      rw [isShaped, Bool.and_eq_true] at h ⊢
      rw [tokens] at hclear
      exact ⟨isExpression_of_clear (by decide) h.1 hclear,
        isShaped_of_clear h.2 hclear.right.operand⟩

theorem areShaped_of_clear : ∀ {items : List Code}, areShaped isSingle items = true →
    Clear (itemTokens items) → areShaped isExpression items = true
  | [], _, _ => rfl
  | [a], h, hclear => by
      rw [areShaped, Bool.and_eq_true] at h ⊢
      rw [itemTokens] at hclear
      exact ⟨isShaped_of_clear h.1 hclear, rfl⟩
  | a :: b :: rest, h, hclear => by
      rw [areShaped, Bool.and_eq_true] at h ⊢
      rw [itemTokens, ← List.singleton_append] at hclear
      refine ⟨isShaped_of_clear h.1 ?_, areShaped_of_clear h.2 hclear.right.right⟩
      have hfirst := hclear.left
      split at hfirst
      · exact hfirst.inside
      · exact hfirst

end

end Code

/-! ### Printed programs -/

/-- What is parsed from a text. -/
theorem parsed_of_parse {s : String} {t : Code} (h : parse s = .ok t) : Code.Parsed t := by
  unfold parse at h
  cases htokens : tokenize s with
  | error e => rw [htokens] at h; cases h
  | ok ts =>
    rw [htokens] at h
    obtain ⟨w, q, rfl, hw⟩ := tokenizeFrom_eq_ok htokens
    obtain ⟨rest, hreads, -⟩ := parseProgram_eq_ok_iff.mp h
    have hnamed : Rule.Named (w ++ [⟨.endOfInput, q⟩]) := by
      intro t ht x hx
      rcases List.mem_append.mp ht with ht | ht
      · have hlexical := hw t ht
        rwa [hx] at hlexical
      · rw [List.mem_singleton.mp ht] at hx
        cases hx
    exact hreads.makes hnamed nofun

/-- The tokens of a tree whose text can be parsed. -/
theorem clear_of_parse_render {t t' : Code} (ht : t.isWritable = true)
    (h : parse t.render = .ok t') : Code.Clear t.tokens := by
  obtain ⟨ts, p, htokenize, hts⟩ := (Code.spells_tokens ht).tokenize
  have hend : ∀ t ∈ ts, t.token ≠ .endOfInput := by
    obtain ⟨w, q, heq, hw⟩ := tokenizeFrom_eq_ok htokenize
    obtain rfl := List.append_inj_left' heq rfl
    intro t ht hend
    have hlexical := hw t ht
    rw [hend] at hlexical
    cases hlexical
  rw [parse, htokenize] at h
  have hreads := reads_bare_of_parseProgram hend h
  rw [hts] at hreads
  -- What is blocked stays so before the end of the input, where the parser has passed it.
  intro v hv
  by_contra hblocked
  have hlong := Rule.isBlocked_append (u := [Token.bare .endOfInput])
    (Bool.not_eq_false _ ▸ hblocked)
  have hsuffix : v.map Token.bare ++ [Token.bare .endOfInput] <:+
      t.tokens.map Token.bare ++ [Token.bare .endOfInput] := by
    obtain ⟨u, hu⟩ := hv
    exact ⟨u.map Token.bare, by rw [← hu]; simp⟩
  have hlength : 1 < (v.map Token.bare ++ [Token.bare .endOfInput]).length := by
    rcases v with _ | ⟨t, v⟩
    · exact absurd rfl hblocked
    · simp
  rw [hreads.passes_unblocked.of_suffix hsuffix hlength] at hlong
  cases hlong

/-- The text of a parsed program can be parsed exactly if every number in it that is decoded or run
is an expression. -/
theorem parse_render_iff {s : String} {t : Code} (h : parse s = .ok t) :
    (∃ t', parse t.render = .ok t') ↔ t.isShaped Code.isExpression = true := by
  have hparsed := parsed_of_parse h
  constructor
  · rintro ⟨t', ht'⟩
    exact Code.isShaped_of_clear hparsed.shaped (clear_of_parse_render hparsed.writable ht')
  · intro hshaped
    have hprintable : t.isPrintable = true := by
      rw [Code.isPrintable, hshaped, hparsed.writable]
      rfl
    obtain ⟨t', ht', -⟩ := exists_parse_render hprintable
    exact ⟨t', ht'⟩

/-- In `@run_numeric b n + 1; y := @from_numeric a @numeric skip` the numbers are expressions. -/
theorem parse_render_iff_numbers :
    let t := Code.suite [.run .boolean (.binary (.arith .add) (.var "n") (.int 1)),
      .assign "y" (.decode .arithmetic (.number (.suite [.skip])))]
    parse "@run_numeric b n + 1; y := @from_numeric a @numeric skip" = .ok t ∧
      ∃ t', parse t.render = .ok t' := by
  intro t
  have h : parse "@run_numeric b n + 1; y := @from_numeric a @numeric skip" = .ok t := by cbv
  exact ⟨h, (parse_render_iff h).mpr (by decide)⟩

/-- `@from_numeric a skip` can be parsed, and its text cannot. -/
theorem not_parse_render_statement :
    let t := Code.suite [.decode .arithmetic .skip]
    parse "@from_numeric a skip" = .ok t ∧ t.render = "@from_numeric a (skip)" ∧
      ¬∃ t', parse t.render = .ok t' := by
  intro t
  refine ⟨by cbv, by cbv, ?_⟩
  rintro ⟨t', ht'⟩
  have herror : (parse t.render).isOk = false := by cbv
  rw [ht'] at herror
  cases herror

end GodelWhile
