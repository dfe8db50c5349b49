import Mathlib
import GodelWhile.Proofs.Placement

/-! # The parser accepts the grammar

`Derives` is the grammar of programs without directives, as a grammar: which phrases spell which
token lists, and with which trees. It is ambiguous. A semicolon or an `else` after an open body may
belong to the body or to the statement around it, and an expression in parentheses is also a suite.

    if a then while b do x; y else z

The parser decides without looking back: it takes a semicolon and an `else` for the innermost body
that can have them. This loses no program. While a body is read, let `n` be the number of branchings
around it that still lack an alternative. If some derivation accounts for the rest of the stream with
`n` of them, the parser accounts for it too, for it only ever has more of them left than the
derivation does (`Closes.succ`). What it reads is derivable at any rate, so parsing succeeds on
exactly the derivable programs. -/

namespace GodelWhile

/-- The phrases of the grammar. Those called `final` reach to the end of the input: there a suite
may be empty, and may end in a semicolon. -/
inductive Phrase where
  | suite (final : Bool)
  | item (final : Bool)
  | statement (final : Bool)
  | level (l : Level)
  | factor
  | primary

namespace Phrase

/-- Any expression. -/
def expression : Phrase := .level .disjunction

/-- What the operators of a level join. -/
def operand (l : Level) : Phrase :=
  match l.tighter? with
  | some tight => .level tight
  | none => .factor

end Phrase

/-- The phrase can be spelled by the tokens, and then has the tree. -/
inductive Derives : Phrase → List Token → Code → Prop
  | empty : Derives (.suite true) [] (.suite [])
  | single {final : Bool} {w : List Token} {a : Code} (ha : Derives (.item final) w a) :
      Derives (.suite final) w (.suite [a])
  | more {final : Bool} {w v : List Token} {a : Code} {items : List Code}
      (ha : Derives (.item false) w a) (hitems : Derives (.suite final) v (.suite items)) :
      Derives (.suite final) (w ++ .semicolon :: v) (.suite (a :: items))
  | group {final : Bool} {w : List Token} {c : Code} (hc : Derives (.suite false) w c) :
      Derives (.item final) (.openParen :: (w ++ [.closeParen])) c
  | item {final : Bool} {w : List Token} {c : Code} (hc : Derives (.statement final) w c) :
      Derives (.item final) w c
  | skip {final : Bool} : Derives (.statement final) [.keyword .skip] .skip
  | ifThen {final : Bool} {w v : List Token} {c a : Code} (hc : Derives .expression w c)
      (ha : Derives (.suite final) v a) :
      Derives (.statement final) (.keyword .ifWord :: (w ++ .keyword .thenWord :: v)) (.ifThen c a)
  | ifElse {final : Bool} {w v u : List Token} {c a b : Code} (hc : Derives .expression w c)
      (ha : Derives (.suite false) v a) (hb : Derives (.suite final) u b) :
      Derives (.statement final)
        (.keyword .ifWord :: (w ++ .keyword .thenWord :: (v ++ .keyword .elseWord :: u)))
        (.ifElse c a b)
  | loop {final : Bool} {w v : List Token} {c a : Code} (hc : Derives .expression w c)
      (ha : Derives (.suite final) v a) :
      Derives (.statement final) (.keyword .whileWord :: (w ++ .keyword .doWord :: v)) (.loop c a)
  | assign {final : Bool} {x : String} {w : List Token} {e : Code}
      (he : Derives .expression w e) :
      Derives (.statement final) (.name x :: .assign :: w) (.assign x e)
  | expression {final : Bool} {w : List Token} {e : Code} (he : Derives .expression w e) :
      Derives (.statement final) w e
  | operand {l : Level} {w : List Token} {e : Code} (he : Derives (.operand l) w e) :
      Derives (.level l) w e
  | operation {l : Level} {o : Operator} {w v : List Token} {a b : Code}
      (ha : Derives (.level l) w a) (ho : o.level = l) (hb : Derives (.operand l) v b) :
      Derives (.level l) (w ++ .operator o :: v) (.binary o a b)
  | not {w : List Token} {e : Code} (he : Derives .primary w e) :
      Derives .factor (.bang :: w) (.not e)
  | primary {w : List Token} {e : Code} (he : Derives .primary w e) : Derives .factor w e
  | parens {w : List Token} {e : Code} (he : Derives .expression w e) :
      Derives .primary (.openParen :: (w ++ [.closeParen])) e
  | var {x : String} : Derives .primary [.name x] (.var x)
  | int {n : Nat} : Derives .primary [.number n] (.int n)
  | bool {b : Bool} : Derives .primary [.boolean b] (.bool b)

/-! ### What the parser reads is derivable -/

namespace Rule

/-- The stream holds no directives. -/
def Plain (ts : List Located) : Prop := ∀ t ∈ ts, ∀ s, t.token ≠ .directive s

/-- The rule's contribution to a derivation: the tokens spell the phrase the rule is named for, or
go on with what has been read before. -/
def Spells (r : Rule) (final : Bool) (w : List Token) (c : Code) : Prop :=
  match r with
  | .suite done =>
      ∃ items, Derives (.suite final) w (.suite items) ∧ c = .suite (done.reverse ++ items)
  | .item => Derives (.item final) w c
  | .statement => Derives (.statement final) w c
  | .level l => Derives (.level l) w c
  | .operators l left => ∀ {v}, Derives (.level l) v left → Derives (.level l) (v ++ w) c
  | .factor => Derives .factor w c
  | .primary => Derives .primary w c

theorem derives_operand {l : Level} {final : Bool} {w : List Token} {c : Code}
    (h : (operand l).Spells final w c) : Derives (.operand l) w c := by
  cases l <;> exact h

/-- Whether nothing but the end of the input is left. -/
def atEnd (ts : List Located) : Bool := (Parser.next ts).token = .endOfInput

theorem atEnd_cons {t : Token} {p : Position} {ts : List Located} (ht : t ≠ .endOfInput) :
    atEnd (⟨t, p⟩ :: ts) = false := decide_eq_false ht

theorem Reads.spells {r : Rule} {ts rest : List Located} {c : Code} (h : Reads r ts c rest)
    (hplain : Plain ts) :
    ∃ taken, ts = taken ++ rest ∧ r.Spells (atEnd rest) (taken.map Located.token) c := by
  have hsuffix : ∀ {ts mid : List Located}, Plain (ts ++ mid) → Plain mid :=
    fun h t ht => h t (List.mem_append_right _ ht)
  have htail : ∀ {t : Located} {ts : List Located}, Plain (t :: ts) → Plain ts :=
    fun h t ht => h t (List.mem_cons_of_mem _ ht)
  induction h with
  | suiteEnd hend =>
    refine ⟨[], rfl, [], ?_, by simp⟩
    rw [atEnd, hend]
    exact .empty
  | suiteLast _ _ _ ih =>
    obtain ⟨taken, rfl, ha⟩ := ih hplain
    exact ⟨taken, rfl, [_], .single ha, by simp⟩
  | suiteMore _ _ _ iha ihc =>
    obtain ⟨first, rfl, ha⟩ := iha hplain
    obtain ⟨more, rfl, items, hitems, rfl⟩ := ihc (htail (hsuffix hplain))
    rw [atEnd_cons (by decide)] at ha
    exact ⟨first ++ _ :: more, by simp; rfl, _ :: items, by simpa using .more ha hitems, by simp⟩
  | @group p q _ _ _ _ _ ih =>
    obtain ⟨inside, rfl, items, hitems, rfl⟩ := ih (htail hplain)
    rw [atEnd_cons (by decide)] at hitems
    exact ⟨⟨.openParen, p⟩ :: (inside ++ [⟨.closeParen, q⟩]), by simp,
      by simpa [Spells] using .group hitems⟩
  | operandFirst _ _ _ _ ih | item _ _ ih =>
    obtain ⟨taken, hts, hc⟩ := ih hplain
    exact ⟨taken, hts, .item hc⟩
  | skip => exact ⟨[_], rfl, .skip⟩
  | @ifThen p q _ _ _ _ _ _ _ _ ihc iha =>
    obtain ⟨cond, rfl, hc⟩ := ihc (htail hplain)
    obtain ⟨body, rfl, items, ha, rfl⟩ := iha (htail (hsuffix (htail hplain)))
    exact ⟨⟨.keyword .ifWord, p⟩ :: (cond ++ ⟨.keyword .thenWord, q⟩ :: body), by simp,
      by simpa [Spells] using .ifThen hc ha⟩
  | @loop p q _ _ _ _ _ _ _ ihc iha =>
    obtain ⟨cond, rfl, hc⟩ := ihc (htail hplain)
    obtain ⟨body, rfl, items, ha, rfl⟩ := iha (htail (hsuffix (htail hplain)))
    exact ⟨⟨.keyword .whileWord, p⟩ :: (cond ++ ⟨.keyword .doWord, q⟩ :: body), by simp,
      by simpa [Spells] using .loop hc ha⟩
  | @ifElse p q s _ _ _ _ _ _ _ _ _ _ ihc iha ihb =>
    obtain ⟨cond, rfl, hc⟩ := ihc (htail hplain)
    have hplain := htail (hsuffix (htail hplain))
    obtain ⟨yes, rfl, yesItems, ha, rfl⟩ := iha hplain
    obtain ⟨no, rfl, noItems, hb, rfl⟩ := ihb (htail (hsuffix hplain))
    rw [atEnd_cons (by decide)] at ha
    exact ⟨⟨.keyword .ifWord, p⟩ ::
        (cond ++ ⟨.keyword .thenWord, q⟩ :: (yes ++ ⟨.keyword .elseWord, s⟩ :: no)), by simp,
      by simpa [Spells] using .ifElse hc ha hb⟩
  | @assign p q x _ _ _ _ ih =>
    obtain ⟨taken, rfl, he⟩ := ih (htail (htail hplain))
    exact ⟨⟨.name x, p⟩ :: ⟨.assign, q⟩ :: taken, rfl, .assign he⟩
  | expression _ _ ih =>
    obtain ⟨taken, hts, he⟩ := ih hplain
    exact ⟨taken, hts, .expression he⟩
  | level _ _ iha ihc =>
    obtain ⟨first, rfl, ha⟩ := iha hplain
    obtain ⟨more, rfl, hc⟩ := ihc (hsuffix hplain)
    exact ⟨first ++ more, by simp, by simpa [Spells] using hc (.operand (derives_operand ha))⟩
  | noOperator => exact ⟨[], rfl, fun ha => by simpa using ha⟩
  | operator ho _ _ ihb ihc =>
    obtain ⟨right, rfl, hb⟩ := ihb (htail hplain)
    obtain ⟨more, rfl, hc⟩ := ihc (hsuffix (htail hplain))
    refine ⟨_ :: (right ++ more), by simp; rfl, fun ha => ?_⟩
    simpa using hc (.operation ha ho (derives_operand hb))
  | @not p _ _ _ _ ih =>
    obtain ⟨taken, rfl, he⟩ := ih (htail hplain)
    exact ⟨⟨.bang, p⟩ :: taken, rfl, .not he⟩
  | primary _ _ ih =>
    obtain ⟨taken, hts, he⟩ := ih hplain
    exact ⟨taken, hts, .primary he⟩
  | @parens p q _ _ _ _ ih =>
    obtain ⟨inside, rfl, he⟩ := ih (htail hplain)
    exact ⟨⟨.openParen, p⟩ :: (inside ++ [⟨.closeParen, q⟩]), by simp,
      by simpa [Spells] using .parens he⟩
  | var => exact ⟨[_], rfl, .var⟩
  | int => exact ⟨[_], rfl, .int⟩
  | bool => exact ⟨[_], rfl, .bool⟩
  | trace | exit | help | reset | print | eval | number | decode | run =>
    exact absurd rfl (hplain _ List.mem_cons_self _)

end Rule

/-! ### Expressions are read as they are derived -/

namespace Token

/-- Tokens that expressions are spelled with. -/
def spellsExpression : Token → Bool
  | .number _ | .boolean _ | .name _ | .operator _ | .openParen | .closeParen | .bang => true
  | _ => false

end Token

/-- The phrases of expressions. -/
def Phrase.isExpression : Phrase → Bool
  | .level _ | .factor | .primary => true
  | _ => false

namespace Derives

open Rule

theorem isExpression_operand (l : Level) : (Phrase.operand l).isExpression = true := by
  cases l <;> rfl

theorem expression_spelled {ph : Phrase} {w : List Token} {c : Code} (h : Derives ph w c)
    (hph : ph.isExpression = true) : w ≠ [] ∧ ∀ t ∈ w, t.spellsExpression = true := by
  induction h with
  | empty | single | more | group | item | skip | ifThen | ifElse | loop | assign | expression =>
    cases hph
  | @operand l _ _ _ ih => exact ih (isExpression_operand l)
  | @operation l o w v _ _ _ _ _ iha ihb =>
    obtain ⟨-, ha⟩ := iha rfl
    obtain ⟨-, hb⟩ := ihb (isExpression_operand l)
    refine ⟨by simp, fun t ht => ?_⟩
    rcases List.mem_append.mp ht with ht | ht
    · exact ha t ht
    · rcases List.mem_cons.mp ht with rfl | ht
      · rfl
      · exact hb t ht
  | not _ ih =>
    obtain ⟨-, he⟩ := ih rfl
    refine ⟨by simp, fun t ht => ?_⟩
    rcases List.mem_cons.mp ht with rfl | ht
    · rfl
    · exact he t ht
  | primary _ ih => exact ih rfl
  | parens _ ih =>
    obtain ⟨-, he⟩ := ih rfl
    refine ⟨by simp, fun t ht => ?_⟩
    simp only [List.mem_cons, List.mem_append, List.not_mem_nil, or_false] at ht
    rcases ht with rfl | ht | rfl
    · rfl
    · exact he t ht
    · rfl
  | var | int | bool => simp [Token.spellsExpression]

/-- How the parser reads expressions: whatever follows is left, except that operators of the same
level are taken as well. -/
def ReadsOn (ph : Phrase) (w : List Token) (c : Code) : Prop :=
  match ph with
  | .level l => ∀ {u c' rest}, NoTighter l u → Reads (.operators l c) u c' rest →
      Reads (.level l) (w.map Token.bare ++ u) c' rest
  | .factor => ∀ u, Reads .factor (w.map Token.bare ++ u) c u
  | .primary => ∀ u, Reads .primary (w.map Token.bare ++ u) c u
  | _ => True

theorem reads_operand {l : Level} {w : List Token} {c : Code} (h : ReadsOn (.operand l) w c)
    {u : List Located} (hu : NoTighter l u) :
    Reads (Rule.operand l) (w.map Token.bare ++ u) c u := by
  unfold Phrase.operand at h
  unfold Rule.operand
  cases ht : l.tighter? with
  | none =>
    rw [ht] at h
    exact h u
  | some t =>
    rw [ht] at h
    obtain ⟨htight, hnone⟩ := hu.of_tighter ht
    exact h htight (.noOperator hnone)

theorem readsOn {ph : Phrase} {w : List Token} {c : Code} (h : Derives ph w c) :
    ReadsOn ph w c := by
  induction h with
  | empty | single | more | group | item | skip | ifThen | ifElse | loop | assign | expression =>
    trivial
  | operand _ ih => exact fun hu hmore => .level (reads_operand ih hu) hmore
  | @operation l o w v a b _ ho _ iha ihb =>
    intro u c' rest hu hmore
    have hright := Reads.operator (p := .nowhere) ho (reads_operand ihb hu) hmore
    have hop : NoTighter l (Token.bare (.operator o) :: (v.map Token.bare ++ u)) := by
      intro o' ho'
      cases ho'
      rw [ho]
    simpa using iha hop hright
  | not _ ih => exact fun u => .not (ih u)
  | @primary w e he ih =>
    intro u
    refine .primary ?_ (ih u)
    cases he <;> simp [Parser.next, Token.bare]
  | @parens w e he ih =>
    intro u
    have hinside : Reads Rule.expression (w.map Token.bare ++ Token.bare .closeParen :: u) e
        (Token.bare .closeParen :: u) := by
      refine ih (fun o ho => by cases ho) (.noOperator ?_)
      exact operator?_eq_none fun o ho => by cases ho
    simpa [Token.bare] using Reads.parens (p := .nowhere) hinside
  | var => exact fun u => .var
  | int => exact fun u => .int
  | bool => exact fun u => .bool

theorem reads_expression {w : List Token} {e : Code} (h : Derives .expression w e)
    {u : List Located} (hu : EndsExpression u) :
    Reads Rule.expression (w.map Token.bare ++ u) e u := by
  exact h.readsOn hu.noTighter (.noOperator hu.operator?_eq_none)

/-! ### Expressions as items -/

/-- What the tokens in a parenthesis at the front spell can be read as a suite, and only an operator
can follow the parenthesis. -/
def Grouped (w : List Token) : Prop :=
  ∀ v, w = .openParen :: v → ∃ inside after, v = inside ++ .closeParen :: after ∧
    (∀ u, ∃ c, Reads (.suite []) (inside.map Token.bare ++ Token.bare .closeParen :: u) c
      (Token.bare .closeParen :: u)) ∧
    (after = [] ∨ ∃ o after', after = .operator o :: after')

theorem startsExpression_append {w : List Token} (hne : w ≠ [])
    (hw : ∀ t ∈ w, t.spellsExpression = true) {u : List Located} (hu : EndsExpression u) :
    startsExpression (w.map Token.bare ++ u) = true := by
  rcases w with _ | ⟨t, w⟩
  · exact absurd rfl hne
  · have ht := hw t List.mem_cons_self
    cases t with
    | name x =>
      rcases w with _ | ⟨t', w⟩
      · rcases u with _ | ⟨⟨t', p⟩, u⟩
        · rfl
        · cases t' with
          | assign => exact absurd rfl hu.2
          | _ => rfl
      · have ht' := hw t' (List.mem_cons_of_mem _ List.mem_cons_self)
        cases t' with
        | assign => cases ht'
        | _ => rfl
    | keyword => cases ht
    | _ => rfl

/-- An expression is read as an item, though perhaps as a suite. -/
theorem reads_item {w : List Token} {e : Code} (h : Derives .expression w e) (hw : Grouped w)
    {u : List Located} (hu : EndsExpression u) :
    ∃ c, Reads .item (w.map Token.bare ++ u) c u := by
  obtain ⟨hne, hspelled⟩ := h.expression_spelled rfl
  have hstatement : Reads .statement (w.map Token.bare ++ u) e u :=
    .expression (startsExpression_append hne hspelled hu) (h.reads_expression hu)
  rcases w with _ | ⟨t, v⟩
  · exact absurd rfl hne
  · by_cases ht : t = .openParen
    · subst ht
      obtain ⟨inside, after, rfl, hinside, hafter⟩ := hw v rfl
      obtain ⟨nested, hnested⟩ := hinside (after.map Token.bare ++ u)
      rcases hafter with rfl | ⟨o, after', rfl⟩
      · exact ⟨nested, by simpa [Token.bare] using Reads.group (p := .nowhere) hnested hu.1⟩
      · refine ⟨e, ?_⟩
        have hopen := Reads.operandFirst (p := .nowhere) hnested rfl
          (by simpa [Token.bare] using hstatement)
        simpa [Token.bare] using hopen
    · exact ⟨e, .item ht hstatement⟩

theorem grouped {ph : Phrase} {w : List Token} {c : Code} (h : Derives ph w c)
    (hph : ph.isExpression = true) : Grouped w := by
  induction h with
  | empty | single | more | group | item | skip | ifThen | ifElse | loop | assign | expression =>
    cases hph
  | @operand l _ _ _ ih => exact ih (isExpression_operand l)
  | @operation l o w v _ _ ha _ _ iha _ =>
    intro v' hv'
    rcases w with _ | ⟨t, w⟩
    · exact absurd rfl (ha.expression_spelled rfl).1
    · obtain ⟨rfl, rfl⟩ := List.cons.inj hv'
      obtain ⟨inside, after, rfl, hinside, hafter⟩ := iha rfl w rfl
      refine ⟨inside, after ++ .operator o :: v, by simp, hinside, .inr ?_⟩
      rcases hafter with rfl | ⟨o', after', rfl⟩
      · exact ⟨o, v, rfl⟩
      · exact ⟨o', after' ++ .operator o :: v, rfl⟩
  | not => exact fun v hv => by cases hv
  | primary _ ih => exact ih rfl
  | @parens w e he ih =>
    intro v hv
    obtain ⟨-, rfl⟩ := List.cons.inj hv
    refine ⟨w, [], rfl, fun u => ?_, .inl rfl⟩
    obtain ⟨c, hc⟩ := he.reads_item (ih rfl) (u := Token.bare .closeParen :: u) ⟨rfl, nofun⟩
    refine ⟨.suite [c], .suiteLast ?_ hc nofun⟩
    obtain ⟨hne, hspelled⟩ := he.expression_spelled rfl
    rcases w with _ | ⟨t, w⟩
    · exact absurd rfl hne
    · have ht := hspelled t List.mem_cons_self
      rintro (rfl : t = .endOfInput)
      cases ht
  | var | int | bool => exact fun v hv => by cases hv

/-! ### Suites -/

/-- The stream `b` ends a suite: the input ends or a parenthesis is closed. -/
def EndsSuite (b : List Located) : Prop :=
  (Parser.next b).token = .endOfInput ∨ (Parser.next b).token = .closeParen

/-- The stream leads to the end `b` of the suites being read, of whose branchings `n` at least may
still take an alternative. -/
inductive Closes (b : List Located) : Nat → List Located → Prop
  | done (n : Nat) : Closes b n b
  | otherwise {n : Nat} {p : Position} {ts rest : List Located} {c : Code}
      (hc : Reads (.suite []) ts c rest) (hrest : Closes b n rest) :
      Closes b (n + 1) (⟨.keyword .elseWord, p⟩ :: ts)

/-- The stream leads to the end `b` after an item: as before, or through more items. -/
inductive Follows (b : List Located) (n : Nat) : List Located → Prop
  | closes {ts : List Located} (h : Closes b n ts) : Follows b n ts
  | more {p : Position} {ts : List Located}
      (h : ∀ done, ∃ c rest, Reads (.suite done) ts c rest ∧ Closes b n rest) :
      Follows b n (⟨.semicolon, p⟩ :: ts)

variable {b : List Located} {n : Nat}

/-- Branchings to spare do no harm. -/
theorem Closes.succ {ts : List Located} (h : Closes b n ts) : Closes b (n + 1) ts := by
  induction h with
  | done n => exact .done (n + 1)
  | otherwise hc _ ih => exact .otherwise hc ih

theorem Follows.succ {ts : List Located} (h : Follows b n ts) : Follows b (n + 1) ts := by
  cases h with
  | closes h => exact .closes h.succ
  | more h =>
    refine .more fun done => ?_
    obtain ⟨c, rest, hc, hrest⟩ := h done
    exact ⟨c, rest, hc, hrest.succ⟩

theorem Closes.next_ne_semicolon (hb : EndsSuite b) {ts : List Located} (h : Closes b n ts) :
    (Parser.next ts).token ≠ .semicolon := by
  cases h with
  | done => rcases hb with hb | hb <;> simp [hb]
  | otherwise => nofun

theorem Follows.endsExpression (hb : EndsSuite b) {ts : List Located} (h : Follows b n ts) :
    EndsExpression ts := by
  cases h with
  | more => exact ⟨rfl, nofun⟩
  | closes h =>
    cases h with
    | otherwise => exact ⟨rfl, nofun⟩
    | done => rcases hb with hb | hb <;> simp [EndsExpression, hb, continuesExpression]

/-- The stream is a suite, or the rest of one, that leads to the end `b`. -/
def Leads (b : List Located) (n : Nat) (ts : List Located) : Prop :=
  ∀ done, ∃ c rest, Reads (.suite done) ts c rest ∧ Closes b n rest

theorem leads_of_item (hb : EndsSuite b) {ts rest : List Located} {a : Code}
    (hend : (Parser.next ts).token ≠ .endOfInput) (ha : Reads .item ts a rest)
    (hrest : Follows b n rest) : Leads b n ts := by
  intro done
  cases hrest with
  | closes h => exact ⟨_, rest, .suiteLast hend ha (h.next_ne_semicolon hb), h⟩
  | more h =>
    obtain ⟨c, rest', hc, hclose⟩ := h (a :: done)
    exact ⟨c, rest', .suiteMore hend ha hc, hclose⟩

/-- A branching after the body of which the suites around it can be closed. Whether it has an
alternative is for the stream to say. -/
theorem leads_of_branching (hb : EndsSuite b) {ts mid rest : List Located} {c a : Code}
    (hc : Reads Rule.expression ts c (Token.bare (.keyword .thenWord) :: mid))
    (ha : Reads (.suite []) mid a rest) (hrest : Closes b (n + 1) rest) :
    Leads b n (Token.bare (.keyword .ifWord) :: ts) := by
  cases hrest with
  | done =>
    have helse : (Parser.next b).token ≠ .keyword .elseWord := by
      rcases hb with hb | hb <;> simp [hb]
    exact leads_of_item hb nofun (.item nofun (.ifThen hc ha helse)) (.closes (.done n))
  | otherwise hno hclose =>
    exact leads_of_item hb nofun (.item nofun (.ifElse hc ha hno)) (.closes hclose)

/-- The phrases that end a program when they are final. -/
def Phrase.isFinal : Phrase → Bool
  | .suite final | .item final | .statement final => final
  | _ => false

/-- Suites are read to their end whenever what follows them can be. A final suite has nothing
following it. -/
theorem leads {ph : Phrase} {w : List Token} {c : Code} (h : Derives ph w c)
    (hph : ph.isExpression = false) {b : List Located} {n : Nat} {u : List Located}
    (hb : EndsSuite b) (hu : Follows b n u)
    (hfinal : Phrase.isFinal ph = true → u = b ∧ (Parser.next b).token = .endOfInput) :
    Leads b n (w.map Token.bare ++ u) := by
  induction h generalizing b n u with
  | empty =>
    obtain ⟨rfl, hend⟩ := hfinal rfl
    exact fun done => ⟨_, _, .suiteEnd hend, .done n⟩
  | single _ ih => exact ih rfl hb hu hfinal
  | more _ _ iha ihitems =>
    have hmore := ihitems rfl hb hu hfinal
    have hfollows := Follows.more (p := .nowhere) hmore
    simpa [Token.bare] using iha rfl hb hfollows nofun
  | @group _ w _ _ ih =>
    -- inside the parenthesis the suite ends at its closing, and no branching is open
    obtain ⟨c, rest, hc, hclose⟩ := ih rfl (b := Token.bare .closeParen :: u) (n := 0) (.inr rfl)
      (.closes (.done 0)) nofun []
    cases hclose with
    | done =>
      have hitem := Reads.group (p := .nowhere) hc (hu.endsExpression hb).1
      simpa [Token.bare] using leads_of_item hb (by nofun) hitem hu
  | item _ ih => exact ih rfl hb hu hfinal
  | skip => exact leads_of_item hb nofun (.item nofun .skip) hu
  | @ifThen _ w v _ _ hc _ _ iha =>
    obtain ⟨a, rest, ha, hclose⟩ := iha rfl hb hu.succ hfinal []
    have hcond := hc.reads_expression
      (u := Token.bare (.keyword .thenWord) :: (v.map Token.bare ++ u)) ⟨rfl, nofun⟩
    simpa using leads_of_branching hb hcond ha hclose
  | @ifElse _ w v v' _ _ _ hc _ _ _ iha ihb =>
    obtain ⟨no, rest, hno, hclose⟩ := ihb rfl hb hu hfinal []
    have hfollows := Follows.closes (Closes.otherwise (p := .nowhere) hno hclose)
    obtain ⟨a, rest', ha, hclose'⟩ := iha rfl hb hfollows nofun []
    have hcond := hc.reads_expression
      (u := Token.bare (.keyword .thenWord) ::
        (v.map Token.bare ++ Token.bare (.keyword .elseWord) :: (v'.map Token.bare ++ u)))
      ⟨rfl, nofun⟩
    simpa using leads_of_branching hb hcond ha hclose'
  | @loop _ w v _ _ hc _ _ iha =>
    obtain ⟨a, rest, ha, hclose⟩ := iha rfl hb hu hfinal []
    have hcond := hc.reads_expression
      (u := Token.bare (.keyword .doWord) :: (v.map Token.bare ++ u)) ⟨rfl, nofun⟩
    have hitem := Reads.item (by nofun) (.loop (p := .nowhere) hcond ha)
    simpa [Token.bare] using leads_of_item hb (by nofun) hitem (.closes hclose)
  | assign he _ =>
    have hvalue := he.reads_expression (hu.endsExpression hb)
    exact leads_of_item hb nofun (.item nofun (.assign hvalue)) hu
  | @expression _ w _ he _ =>
    obtain ⟨c, hc⟩ := he.reads_item (he.grouped rfl) (hu.endsExpression hb)
    refine leads_of_item hb ?_ hc hu
    obtain ⟨hne, hspelled⟩ := he.expression_spelled rfl
    rcases w with _ | ⟨t, w⟩
    · exact absurd rfl hne
    · have ht := hspelled t List.mem_cons_self
      rintro (rfl : t = .endOfInput)
      cases ht
  | operand | operation | not | primary | parens | var | int | bool => cases hph

end Derives

/-! ### Programs -/

section Program

variable {w : List Located} {p : Position} (hend : ∀ t ∈ w, t.token ≠ .endOfInput)

include hend in
theorem derives_of_parseProgram (hdirective : ∀ t ∈ w, ∀ s, t.token ≠ .directive s) {c : Code}
    (h : parseProgram (w ++ [⟨.endOfInput, p⟩]) = .ok c) :
    Derives (.suite true) (w.map Located.token) c := by
  have hreads := (parseProgram_append_eq_ok_iff hend).mp h
  have hplain : Rule.Plain (w ++ [⟨.endOfInput, p⟩]) := by
    intro t ht s
    rcases List.mem_append.mp ht with ht | ht
    · exact hdirective t ht s
    · rw [List.mem_singleton.mp ht]
      nofun
  obtain ⟨taken, htaken, items, hitems, rfl⟩ := hreads.spells hplain
  obtain rfl := List.append_cancel_right htaken
  exact hitems

theorem Derives.exists_parseProgram {c : Code} (h : Derives (.suite true) (w.map Located.token) c) :
    ∃ c', parseProgram (w ++ [⟨.endOfInput, p⟩]) = .ok c' := by
  obtain ⟨c', rest, hreads, hclose⟩ := h.leads rfl (b := [Token.bare .endOfInput]) (n := 0)
    (.inl rfl) (.closes (.done 0)) (fun _ => ⟨rfl, rfl⟩) []
  obtain rfl : rest = [Token.bare .endOfInput] := by
    cases hclose
    rfl
  obtain ⟨c'', hparse, -⟩ := parseProgram_of_bare hreads p
  exact ⟨c'', hparse⟩

end Program

/-- Without directives, the parser accepts exactly the token lists that the grammar derives as a
program, and the tree it returns is the tree of a derivation. -/
theorem parseProgram_iff_derives (w : List Located) (p : Position)
    (hdirective : ∀ t ∈ w, ∀ s, t.token ≠ .directive s) (hend : ∀ t ∈ w, t.token ≠ .endOfInput) :
    ((∃ c, parseProgram (w ++ [⟨.endOfInput, p⟩]) = .ok c) ↔
        ∃ c, Derives (.suite true) (w.map Located.token) c) ∧
      ∀ c, parseProgram (w ++ [⟨.endOfInput, p⟩]) = .ok c →
        Derives (.suite true) (w.map Located.token) c := by
  constructor
  · constructor
    · rintro ⟨c, hc⟩
      exact ⟨c, derives_of_parseProgram hend hdirective hc⟩
    · rintro ⟨c, hc⟩
      exact hc.exists_parseProgram
  · intro c hc
    exact derives_of_parseProgram hend hdirective hc

/-- `if a then while b do x; y else z;` has a derivation in which the loop has two statements, the
alternative is the branching's, and the last semicolon ends it. -/
theorem parseProgram_iff_derives_branching :
    Derives (.suite true)
      [.keyword .ifWord, .name "a", .keyword .thenWord, .keyword .whileWord, .name "b",
        .keyword .doWord, .name "x", .semicolon, .name "y", .keyword .elseWord, .name "z",
        .semicolon]
      (.suite [.ifElse (.var "a") (.suite [.loop (.var "b") (.suite [.var "x", .var "y"])])
        (.suite [.var "z"])]) := by
  let w : List Located :=
    [.keyword .ifWord, .name "a", .keyword .thenWord, .keyword .whileWord, .name "b",
      .keyword .doWord, .name "x", .semicolon, .name "y", .keyword .elseWord, .name "z",
      .semicolon].map Token.bare
  have hdirective : ∀ t ∈ w, ∀ s, t.token ≠ .directive s := by simp [w, Token.bare]
  have hend : ∀ t ∈ w, t.token ≠ .endOfInput := by simp [w, Token.bare]
  have hparse : parseProgram (w ++ [⟨.endOfInput, .nowhere⟩]) =
      .ok (.suite [.ifElse (.var "a")
        (.suite [.loop (.var "b") (.suite [.var "x", .var "y"])]) (.suite [.var "z"])]) := by
    rfl
  exact (parseProgram_iff_derives w .nowhere hdirective hend).2 _ hparse

end GodelWhile
