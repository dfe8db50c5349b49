import Mathlib
import GodelWhile.Grammar.Program

/-! # What the rules read

A rule reads code off the front of a stream and leaves the rest. `Reads` says which code and which
rest that is, rule by rule and without fuel, and `parse` computes exactly this relation:

    r.parse ts = ok c rest  ↔  Reads r ts c rest

For the direction from right to left the fuel has to suffice. A rule of `rank` k calls only rules of
lower rank on the same stream, and any rule on a shorter one, because what is read is never empty
except for suites and for the operators that may follow an operand. So the fuel needed is bounded by
`need`, and beyond that bound more fuel changes nothing (`parseWithin_eq_parse`). -/

namespace GodelWhile

/-- Code is read if its parts are. -/
theorem Reply.andThen_eq_ok {α β : Type} {r : Reply α} {f : α → List Located → Reply β} {b : β}
    {rest : List Located} :
    r.andThen f = .ok b rest ↔ ∃ a mid, r = .ok a mid ∧ f a mid = .ok b rest := by
  cases r with
  | ok a mid => simp [andThen]
  | error e mid => simp [andThen]

namespace Parser

theorem expect_cons (t : Token) (e : Expectation) (p : Position) (ts : List Located) :
    expect t e (⟨t, p⟩ :: ts) = .ok () ts := by
  simp [expect, next]

theorem expect_eq_ok {t : Token} (ht : t ≠ .endOfInput) {e : Expectation} {ts rest : List Located}
    {u : Unit} (h : expect t e ts = .ok u rest) : ∃ p, ts = ⟨t, p⟩ :: rest := by
  rcases ts with _ | ⟨⟨t', p⟩, ts⟩
  · simp [expect, next, ht.symm, fail] at h
  · by_cases heq : t' = t
    · subst heq
      rw [expect_cons] at h
      cases h
      exact ⟨p, rfl⟩
    · simp [expect, next, heq, fail] at h

theorem name_eq_ok {ts rest : List Located} {x : String} (h : name ts = .ok x rest) :
    ∃ p, ts = ⟨.name x, p⟩ :: rest := by
  unfold name at h
  split at h
  · cases h
    exact ⟨_, rfl⟩
  · cases h

end Parser

theorem Category.name_of_ofName? {s : String} {c : Category} (h : ofName? s = some c) :
    s = c.name := by
  unfold ofName? at h
  split_ifs at h with ha hb hs <;> cases h
  · exact ha
  · exact hb
  · exact hs

theorem DirectiveWord.text_of_ofText? {s : String} {word : DirectiveWord}
    (h : ofText? s = some word) : s = word.text := by
  have htext := List.find?_some h
  exact (of_decide_eq_true htext).symm

theorem DirectiveWord.ofText?_text (word : DirectiveWord) : ofText? word.text = some word := by
  cases word <;> decide

namespace Rule

/-- Whether a statement that starts like this is an expression. -/
def startsExpression : List Located → Bool
  | ⟨.keyword .skip, _⟩ :: _ => false
  | ⟨.keyword .ifWord, _⟩ :: _ => false
  | ⟨.keyword .whileWord, _⟩ :: _ => false
  | ⟨.name _, _⟩ :: ⟨.assign, _⟩ :: _ => false
  | _ => true

/-- The rule reads the code off the front of the first stream and leaves the second. -/
inductive Reads : Rule → List Located → Code → List Located → Prop
  | suiteEnd {done : List Code} {ts : List Located}
      (hend : (Parser.next ts).token = .endOfInput) :
      Reads (.suite done) ts (.suite done.reverse) ts
  | suiteLast {done : List Code} {ts rest : List Located} {a : Code}
      (hend : (Parser.next ts).token ≠ .endOfInput) (ha : Reads .item ts a rest)
      (hlast : (Parser.next rest).token ≠ .semicolon) :
      Reads (.suite done) ts (.suite (a :: done).reverse) rest
  | suiteMore {done : List Code} {ts mid rest : List Located} {p : Position} {a c : Code}
      (hend : (Parser.next ts).token ≠ .endOfInput)
      (ha : Reads .item ts a (⟨.semicolon, p⟩ :: mid)) (hc : Reads (.suite (a :: done)) mid c rest) :
      Reads (.suite done) ts c rest
  | group {p q : Position} {ts rest : List Located} {c : Code}
      (hc : Reads (.suite []) ts c (⟨.closeParen, q⟩ :: rest))
      (hnext : continuesExpression (Parser.next rest).token = false) :
      Reads .item (⟨.openParen, p⟩ :: ts) c rest
  | operandFirst {p q : Position} {ts mid rest : List Located} {nested c : Code}
      (hnested : Reads (.suite []) ts nested (⟨.closeParen, q⟩ :: mid))
      (hnext : continuesExpression (Parser.next mid).token = true)
      (hc : Reads .statement (⟨.openParen, p⟩ :: ts) c rest) :
      Reads .item (⟨.openParen, p⟩ :: ts) c rest
  | item {ts rest : List Located} {c : Code} (hnext : (Parser.next ts).token ≠ .openParen)
      (hc : Reads .statement ts c rest) : Reads .item ts c rest
  | skip {p : Position} {ts : List Located} : Reads .statement (⟨.keyword .skip, p⟩ :: ts) .skip ts
  | ifThen {p q : Position} {ts mid rest : List Located} {c a : Code}
      (hc : Reads expression ts c (⟨.keyword .thenWord, q⟩ :: mid))
      (ha : Reads (.suite []) mid a rest)
      (helse : (Parser.next rest).token ≠ .keyword .elseWord) :
      Reads .statement (⟨.keyword .ifWord, p⟩ :: ts) (.ifThen c a) rest
  | ifElse {p q s : Position} {ts mid mid' rest : List Located} {c a b : Code}
      (hc : Reads expression ts c (⟨.keyword .thenWord, q⟩ :: mid))
      (ha : Reads (.suite []) mid a (⟨.keyword .elseWord, s⟩ :: mid'))
      (hb : Reads (.suite []) mid' b rest) :
      Reads .statement (⟨.keyword .ifWord, p⟩ :: ts) (.ifElse c a b) rest
  | loop {p q : Position} {ts mid rest : List Located} {c a : Code}
      (hc : Reads expression ts c (⟨.keyword .doWord, q⟩ :: mid))
      (ha : Reads (.suite []) mid a rest) :
      Reads .statement (⟨.keyword .whileWord, p⟩ :: ts) (.loop c a) rest
  | assign {p q : Position} {x : String} {ts rest : List Located} {e : Code}
      (he : Reads expression ts e rest) :
      Reads .statement (⟨.name x, p⟩ :: ⟨.assign, q⟩ :: ts) (.assign x e) rest
  | expression {ts rest : List Located} {e : Code} (hstart : startsExpression ts = true)
      (he : Reads expression ts e rest) : Reads .statement ts e rest
  | level {l : Level} {ts mid rest : List Located} {a c : Code}
      (ha : Reads (operand l) ts a mid) (hc : Reads (.operators l a) mid c rest) :
      Reads (.level l) ts c rest
  | noOperator {l : Level} {ts : List Located} {a : Code} (hnext : operator? l ts = none) :
      Reads (.operators l a) ts a ts
  | operator {l : Level} {o : Operator} {p : Position} {ts mid rest : List Located} {a b c : Code}
      (ho : o.level = l) (hb : Reads (operand l) ts b mid)
      (hc : Reads (.operators l (.binary o a b)) mid c rest) :
      Reads (.operators l a) (⟨.operator o, p⟩ :: ts) c rest
  | not {p : Position} {ts rest : List Located} {e : Code} (he : Reads .primary ts e rest) :
      Reads .factor (⟨.bang, p⟩ :: ts) (.not e) rest
  | primary {ts rest : List Located} {e : Code} (hnext : (Parser.next ts).token ≠ .bang)
      (he : Reads .primary ts e rest) : Reads .factor ts e rest
  | parens {p q : Position} {ts rest : List Located} {e : Code}
      (he : Reads expression ts e (⟨.closeParen, q⟩ :: rest)) :
      Reads .primary (⟨.openParen, p⟩ :: ts) e rest
  | var {p : Position} {x : String} {ts : List Located} :
      Reads .primary (⟨.name x, p⟩ :: ts) (.var x) ts
  | int {p : Position} {n : Nat} {ts : List Located} :
      Reads .primary (⟨.number n, p⟩ :: ts) (.int n) ts
  | bool {p : Position} {b : Bool} {ts : List Located} :
      Reads .primary (⟨.boolean b, p⟩ :: ts) (.bool b) ts
  | trace {p : Position} {ts : List Located} :
      Reads .primary (⟨.directive "trace", p⟩ :: ts) (.directive (.trace p)) ts
  | exit {p : Position} {ts : List Located} :
      Reads .primary (⟨.directive "exit", p⟩ :: ts) (.directive .exit) ts
  | help {p : Position} {ts : List Located} :
      Reads .primary (⟨.directive "help", p⟩ :: ts) (.directive .help) ts
  | reset {p : Position} {ts : List Located} :
      Reads .primary (⟨.directive "reset", p⟩ :: ts) (.directive .reset) ts
  | print {p q : Position} {x : String} {ts : List Located} :
      Reads .primary (⟨.directive "print", p⟩ :: ⟨.name x, q⟩ :: ts) (.directive (.print x)) ts
  | eval {p q : Position} {x : String} {ts : List Located} :
      Reads .primary (⟨.directive "eval", p⟩ :: ⟨.name x, q⟩ :: ts) (.directive (.eval x)) ts
  | number {p : Position} {ts rest : List Located} {a : Code} (ha : Reads (.suite []) ts a rest) :
      Reads .primary (⟨.directive "numeric", p⟩ :: ts) (.number a) rest
  | decode {p q : Position} {cat : Category} {ts rest : List Located} {e : Code}
      (he : Reads .statement ts e rest) :
      Reads .primary (⟨.directive "from_numeric", p⟩ :: ⟨.name cat.name, q⟩ :: ts)
        (.decode cat e) rest
  | run {p q : Position} {cat : Category} {ts rest : List Located} {e : Code}
      (he : Reads .statement ts e rest) :
      Reads .primary (⟨.directive "run_numeric", p⟩ :: ⟨.name cat.name, q⟩ :: ts)
        (.run cat e) rest

/-! ### The parser reads nothing else -/

theorem category_eq_ok {ts rest : List Located} {cat : Category} (h : category ts = .ok cat rest) :
    ∃ p, ts = ⟨.name cat.name, p⟩ :: rest := by
  unfold category at h
  split at h
  · split at h
    · next hname =>
      cases h
      exact ⟨_, by rw [Category.name_of_ofName? hname]⟩
    · cases h
  · cases h

section Sound

variable {sub : Rule → Parser Code}
  (hsub : ∀ {r : Rule} {ts rest : List Located} {c : Code}, sub r ts = .ok c rest →
    Reads r ts c rest)
include hsub

variable {ts rest : List Located} {c : Code}

theorem reads_of_suiteBody {done : List Code} (h : suiteBody sub done ts = .ok c rest) :
    Reads (.suite done) ts c rest := by
  unfold suiteBody at h
  split_ifs at h with hend
  · cases h
    exact .suiteEnd hend
  · obtain ⟨a, mid, ha, h⟩ := Reply.andThen_eq_ok.mp h
    unfold moreItems at h
    split at h
    · exact .suiteMore hend (hsub ha) (hsub h)
    · next hlast =>
      cases h
      refine .suiteLast hend (hsub ha) ?_
      intro hnext
      rcases rest with _ | ⟨⟨t, p⟩, rest⟩
      · cases hnext
      · exact hlast p rest (by rw [show t = .semicolon from hnext])

theorem reads_of_group {nested : Code} (h : group sub ts = .ok nested rest) :
    ∃ q, Reads (.suite []) ts nested (⟨.closeParen, q⟩ :: rest) := by
  simp only [group, Parser.bind_apply, Reply.andThen_eq_ok] at h
  obtain ⟨c, mid, hc, _, mid', hclose, h⟩ := h
  obtain ⟨q, rfl⟩ := Parser.expect_eq_ok (by decide) hclose
  cases h
  exact ⟨q, hsub hc⟩

theorem reads_of_itemBody (h : itemBody sub ts = .ok c rest) : Reads .item ts c rest := by
  unfold itemBody at h
  split at h
  · split at h
    · cases h
    · next hgroup =>
      obtain ⟨q, hnested⟩ := reads_of_group hsub hgroup
      split_ifs at h with hnext
      · exact .operandFirst hnested hnext (hsub h)
      · cases h
        exact .group hnested (Bool.eq_false_iff.mpr hnext)
  · next hopen =>
    refine .item ?_ (hsub h)
    intro hnext
    rcases ts with _ | ⟨⟨t, p⟩, ts⟩
    · cases hnext
    · exact hopen p ts (by rw [show t = .openParen from hnext])

theorem reads_of_conditional {p : Position} (h : conditional sub ts = .ok c rest) :
    Reads .statement (⟨.keyword .ifWord, p⟩ :: ts) c rest := by
  simp only [conditional, Parser.bind_apply, Reply.andThen_eq_ok] at h
  obtain ⟨cond, mid, hc, _, mid', hthen, a, mid'', ha, found, last, hfound, h⟩ := h
  obtain ⟨q, rfl⟩ := Parser.expect_eq_ok (by decide) hthen
  unfold Parser.accept at hfound
  split_ifs at hfound with helse
  · cases hfound
    obtain ⟨b, last, hb, h⟩ := Reply.andThen_eq_ok.mp h
    cases h
    rcases mid'' with _ | ⟨⟨t, s⟩, mid''⟩
    · cases helse
    · obtain rfl : t = .keyword .elseWord := helse
      exact .ifElse (hsub hc) (hsub ha) (hsub hb)
  · cases hfound
    cases h
    exact .ifThen (hsub hc) (hsub ha) helse

theorem reads_of_repetition {p : Position} (h : repetition sub ts = .ok c rest) :
    Reads .statement (⟨.keyword .whileWord, p⟩ :: ts) c rest := by
  simp only [repetition, Parser.bind_apply, Reply.andThen_eq_ok] at h
  obtain ⟨cond, mid, hc, _, mid', hdo, a, mid'', ha, h⟩ := h
  obtain ⟨q, rfl⟩ := Parser.expect_eq_ok (by decide) hdo
  cases h
  exact .loop (hsub hc) (hsub ha)

theorem reads_of_statementBody (h : statementBody sub ts = .ok c rest) :
    Reads .statement ts c rest := by
  unfold statementBody at h
  split at h
  · cases h
    exact .skip
  · exact reads_of_conditional hsub h
  · exact reads_of_repetition hsub h
  · simp only [assignment, Parser.bind_apply] at h
    obtain ⟨e, mid, he, h⟩ := Reply.andThen_eq_ok.mp h
    cases h
    exact .assign (hsub he)
  · next hskip hif hwhile hassign =>
    refine .expression ?_ (hsub h)
    unfold startsExpression
    split
    · exact absurd rfl (hskip _ _)
    · exact absurd rfl (hif _ _)
    · exact absurd rfl (hwhile _ _)
    · exact absurd rfl (hassign _ _ _ _)
    · rfl

theorem reads_of_levelBody {l : Level} (h : levelBody sub l ts = .ok c rest) :
    Reads (.level l) ts c rest := by
  simp only [levelBody, Parser.bind_apply] at h
  obtain ⟨a, mid, ha, h⟩ := Reply.andThen_eq_ok.mp h
  exact .level (hsub ha) (hsub h)

theorem reads_of_operatorsBody {l : Level} {left : Code}
    (h : operatorsBody sub l left ts = .ok c rest) : Reads (.operators l left) ts c rest := by
  unfold operatorsBody at h
  split at h
  · next hnext =>
    cases h
    exact .noOperator hnext
  · next o following hnext =>
    unfold operator? at hnext
    split at hnext
    · split_ifs at hnext with ho
      cases hnext
      simp only [operation, Parser.bind_apply] at h
      obtain ⟨b, mid, hb, h⟩ := Reply.andThen_eq_ok.mp h
      exact .operator ho (hsub hb) (hsub h)
    · cases hnext

theorem reads_of_directive {word : DirectiveWord} {p : Position}
    (h : directive sub p word ts = .ok c rest) :
    Reads .primary (⟨.directive word.text, p⟩ :: ts) c rest := by
  cases word with
  | trace => cases h; exact .trace
  | exit => cases h; exact .exit
  | help => cases h; exact .help
  | reset => cases h; exact .reset
  | print =>
    obtain ⟨x, mid, hx, h⟩ := Reply.andThen_eq_ok.mp h
    obtain ⟨q, rfl⟩ := Parser.name_eq_ok hx
    cases h
    exact .print
  | eval =>
    obtain ⟨x, mid, hx, h⟩ := Reply.andThen_eq_ok.mp h
    obtain ⟨q, rfl⟩ := Parser.name_eq_ok hx
    cases h
    exact .eval
  | numeric =>
    obtain ⟨a, mid, ha, h⟩ := Reply.andThen_eq_ok.mp h
    cases h
    exact .number (hsub ha)
  | fromNumeric =>
    simp only [directive, Parser.bind_apply, Reply.andThen_eq_ok] at h
    obtain ⟨cat, mid, hcat, e, mid', he, h⟩ := h
    obtain ⟨q, rfl⟩ := category_eq_ok hcat
    cases h
    exact .decode (hsub he)
  | runNumeric =>
    simp only [directive, Parser.bind_apply, Reply.andThen_eq_ok] at h
    obtain ⟨cat, mid, hcat, e, mid', he, h⟩ := h
    obtain ⟨q, rfl⟩ := category_eq_ok hcat
    cases h
    exact .run (hsub he)

theorem reads_of_primaryBody (h : primaryBody sub ts = .ok c rest) : Reads .primary ts c rest := by
  unfold primaryBody at h
  split at h
  · simp only [parenthesized, Parser.bind_apply, Reply.andThen_eq_ok] at h
    obtain ⟨e, mid, he, _, mid', hclose, h⟩ := h
    obtain ⟨q, rfl⟩ := Parser.expect_eq_ok (by decide) hclose
    cases h
    exact .parens (hsub he)
  · cases h; exact .var
  · cases h; exact .int
  · cases h; exact .bool
  · split at h
    · next hword =>
      rw [DirectiveWord.text_of_ofText? hword]
      exact reads_of_directive hsub h
    · cases h
  · cases h

theorem reads_of_factorBody (h : factorBody sub ts = .ok c rest) : Reads .factor ts c rest := by
  unfold factorBody at h
  split at h
  · simp only [negation, Parser.bind_apply] at h
    obtain ⟨e, mid, he, h⟩ := Reply.andThen_eq_ok.mp h
    cases h
    exact .not (hsub he)
  · next hbang =>
    refine .primary ?_ (hsub h)
    intro hnext
    rcases ts with _ | ⟨⟨t, p⟩, ts⟩
    · cases hnext
    · exact hbang p ts (by rw [show t = .bang from hnext])

theorem reads_of_step {r : Rule} (h : step sub r ts = .ok c rest) : Reads r ts c rest := by
  cases r with
  | suite done => exact reads_of_suiteBody hsub h
  | item => exact reads_of_itemBody hsub h
  | statement => exact reads_of_statementBody hsub h
  | level l => exact reads_of_levelBody hsub h
  | operators l left => exact reads_of_operatorsBody hsub h
  | factor => exact reads_of_factorBody hsub h
  | primary => exact reads_of_primaryBody hsub h

end Sound

theorem reads_of_parseWithin {fuel : Nat} {r : Rule} {ts rest : List Located} {c : Code}
    (h : parseWithin fuel r ts = .ok c rest) : Reads r ts c rest := by
  induction fuel generalizing r ts rest c with
  | zero => cases h
  | succ fuel ih => exact reads_of_step ih h

/-! ### What is read is taken off the front -/

/-- The second stream is what is left of the first after some of its tokens have been taken off its
front, each from a stream that satisfies `P`. -/
inductive Passes (P : List Located → Prop) : List Located → List Located → Prop
  | refl (ts : List Located) : Passes P ts ts
  | token {t : Located} {ts rest : List Located} (ht : P (t :: ts)) (h : Passes P ts rest) :
      Passes P (t :: ts) rest

namespace Passes

variable {P : List Located → Prop} {ts mid rest : List Located}

theorem trans (h : Passes P ts mid) (h' : Passes P mid rest) : Passes P ts rest := by
  induction h with
  | refl => exact h'
  | token ht _ ih => exact .token ht (ih h')

theorem length_le (h : Passes P ts rest) : rest.length ≤ ts.length := by
  induction h with
  | refl => exact le_rfl
  | token _ _ ih => exact Nat.le_succ_of_le ih

/-- Every stream on the way satisfies `P`. -/
theorem of_suffix (h : Passes P ts rest) {v : List Located} (hv : v <:+ ts)
    (hlength : rest.length < v.length) : P v := by
  induction h with
  | refl => exact absurd hv.length_le (not_le_of_gt hlength)
  | token ht _ ih =>
    rcases List.suffix_cons_iff.mp hv with rfl | hv
    · exact ht
    · exact ih hv hlength

end Passes

/-- The directives that read a category and then a statement. -/
def readsNumber : Token → Bool
  | .directive s => s = "from_numeric" || s = "run_numeric"
  | _ => false

/-- What reading passes over: single tokens, and directives before what they read. -/
theorem Reads.passes {P : List Located → Prop}
    (hplain : ∀ {t : Token} {p : Position} {ts : List Located}, t ≠ .endOfInput →
      readsNumber t = false → P (⟨t, p⟩ :: ts))
    (hnumber : ∀ {s x : String} {p q : Position} {ts rest : List Located} {e : Code},
      Reads .statement ts e rest → P (⟨.directive s, p⟩ :: ⟨.name x, q⟩ :: ts))
    {r : Rule} {ts rest : List Located} {c : Code} (h : Reads r ts c rest) : Passes P ts rest := by
  induction h with
  | suiteEnd | noOperator => exact .refl _
  | suiteLast _ _ _ ih | operandFirst _ _ _ _ ih => exact ih
  | item _ _ ih | expression _ _ ih | primary _ _ ih => exact ih
  | suiteMore _ _ _ iha ihc => exact iha.trans (.token (hplain nofun rfl) ihc)
  | group _ _ ih | parens _ ih =>
    exact .token (hplain nofun rfl) (ih.trans (.token (hplain nofun rfl) (.refl _)))
  | skip | var | int | bool => exact .token (hplain nofun rfl) (.refl _)
  | trace | exit | help | reset => exact .token (hplain nofun (by decide)) (.refl _)
  | print | eval =>
    exact .token (hplain nofun (by decide)) (.token (hplain nofun rfl) (.refl _))
  | ifThen _ _ _ ihc iha | loop _ _ ihc iha =>
    exact .token (hplain nofun rfl) (ihc.trans (.token (hplain nofun rfl) iha))
  | ifElse _ _ _ ihc iha ihb =>
    exact .token (hplain nofun rfl) (ihc.trans (.token (hplain nofun rfl)
      (iha.trans (.token (hplain nofun rfl) ihb))))
  | assign _ ih => exact .token (hplain nofun rfl) (.token (hplain nofun rfl) ih)
  | decode he ih | run he ih => exact .token (hnumber he) (.token (hplain nofun rfl) ih)
  | level _ _ iha ihc => exact iha.trans ihc
  | operator _ _ _ ihb ihc => exact .token (hplain nofun rfl) (ihb.trans ihc)
  | not _ ih => exact .token (hplain nofun rfl) ih
  | number _ ih => exact .token (hplain nofun (by decide)) ih

/-- Tokens are taken off the front, none of them the end of the input. -/
abbrev Takes : List Located → List Located → Prop :=
  Passes fun ts => (Parser.next ts).token ≠ .endOfInput

theorem Takes.exists_append {ts rest : List Located} (h : Takes ts rest) :
    ∃ taken, ts = taken ++ rest ∧ ∀ t ∈ taken, t.token ≠ .endOfInput := by
  induction h with
  | refl => exact ⟨[], rfl, by simp⟩
  | @token t _ _ ht _ ih =>
    obtain ⟨taken, rfl, htaken⟩ := ih
    exact ⟨t :: taken, rfl, by simpa using ⟨ht, htaken⟩⟩

theorem Reads.takes {r : Rule} {ts rest : List Located} {c : Code} (h : Reads r ts c rest) :
    Takes ts rest :=
  h.passes (fun ht _ => ht) fun _ => nofun

/-- Rules that may read nothing: a suite at the end of the input, and no operators at all. -/
def mayBeEmpty : Rule → Bool
  | .suite _ | .operators _ _ => true
  | _ => false

theorem mayBeEmpty_operand (l : Level) : (operand l).mayBeEmpty = false := by
  cases l <;> rfl

/-- What other rules read is not empty. -/
theorem Reads.length_lt {r : Rule} {ts rest : List Located} {c : Code} (h : Reads r ts c rest)
    (hr : r.mayBeEmpty = false) : rest.length < ts.length := by
  induction h with
  | suiteEnd | suiteLast | suiteMore | noOperator | operator => cases hr
  | operandFirst _ _ _ _ ih | item _ _ ih | expression _ _ ih | primary _ _ ih => exact ih rfl
  | @level l _ _ _ _ _ _ hc iha _ =>
    exact lt_of_le_of_lt hc.takes.length_le (iha (mayBeEmpty_operand l))
  | group hc _ | parens hc => exact Nat.lt_of_succ_le (Nat.le_succ_of_le hc.takes.length_le)
  | skip | var | int | bool | trace | exit | help | reset => exact Nat.lt_succ_self _
  | print | eval => exact Nat.lt_succ_of_lt (Nat.lt_succ_self _)
  | ifThen hc ha _ | loop hc ha =>
    have hcond := hc.takes.length_le
    have hbody := ha.takes.length_le
    simp only [List.length_cons] at hcond ⊢
    omega
  | ifElse hc ha hb =>
    have hcond := hc.takes.length_le
    have hyes := ha.takes.length_le
    have hno := hb.takes.length_le
    simp only [List.length_cons] at hcond hyes ⊢
    omega
  | assign he | decode he | run he =>
    exact Nat.lt_succ_of_lt (Nat.lt_succ_of_le he.takes.length_le)
  | not he | number he => exact Nat.lt_succ_of_le he.takes.length_le

/-! ### Fuel -/

/-- How far up the list of rules a rule stands: on the same stream it calls lower ones only. -/
def rank : Rule → Nat
  | .operators _ _ => 0
  | .primary => 0
  | .factor => 1
  | .level .multiplicative => 2
  | .level .additive => 3
  | .level .comparison => 4
  | .level .equality => 5
  | .level .conjunction => 6
  | .level .disjunction => 7
  | .statement => 8
  | .item => 9
  | .suite _ => 10

/-- Fuel enough to read by the rule from the stream. -/
def need (r : Rule) (ts : List Located) : Nat := 11 * ts.length + r.rank + 1

theorem rank_le (r : Rule) : r.rank ≤ 10 := by
  unfold rank
  split <;> decide

theorem rank_operand_lt (l : Level) : (operand l).rank < (Rule.level l).rank := by
  cases l <;> decide

theorem need_le_depthBound (r : Rule) (ts : List Located) : need r ts ≤ depthBound ts := by
  have hrank := r.rank_le
  unfold need depthBound
  omega

theorem need_lt_of_shorter {r r' : Rule} {ts ts' : List Located} (h : ts'.length < ts.length) :
    need r' ts' < need r ts := by
  have hrank := r'.rank_le
  unfold need
  omega

theorem need_lt_of_rank {r r' : Rule} {ts : List Located} (h : r'.rank < r.rank) :
    need r' ts < need r ts := by
  unfold need
  omega

section Fuel

variable {sub sub' : Rule → Parser Code}

/-- Two readers of a part that agree on it, and go on alike from what it leaves, agree. -/
theorem call_congr {r : Rule} {ts : List Located} {f g : Code → List Located → Reply Code}
    (hcall : sub r ts = sub' r ts) (hnext : ∀ a rest, sub r ts = .ok a rest → f a rest = g a rest) :
    (sub r ts).andThen f = (sub' r ts).andThen g := by
  rw [← hcall]
  cases hr : sub r ts with
  | ok a rest => exact hnext a rest hr
  | error e rest => rfl

theorem expect_congr {t : Token} (ht : t ≠ .endOfInput) {e : Expectation} {ts : List Located}
    {f g : Unit → List Located → Reply Code}
    (hnext : ∀ p rest, ts = ⟨t, p⟩ :: rest → f () rest = g () rest) :
    (Parser.expect t e ts).andThen f = (Parser.expect t e ts).andThen g := by
  cases hr : Parser.expect t e ts with
  | ok a rest =>
    obtain ⟨p, hp⟩ := Parser.expect_eq_ok ht hr
    exact hnext p rest hp
  | error e rest => rfl

variable {ts : List Located}

theorem group_congr {p : Position}
    (hcalls : ∀ {r' ts'}, need r' ts' < need .item (⟨.openParen, p⟩ :: ts) →
      sub r' ts' = sub' r' ts') : group sub ts = group sub' ts := by
  simp only [group, Parser.bind_apply]
  exact call_congr (hcalls (need_lt_of_shorter (Nat.lt_succ_self _))) fun _ _ _ => rfl

theorem itemBody_congr
    (hcalls : ∀ {r' ts'}, need r' ts' < need .item ts → sub r' ts' = sub' r' ts') :
    itemBody sub ts = itemBody sub' ts := by
  have hstatement : sub .statement ts = sub' .statement ts :=
    hcalls (need_lt_of_rank (by decide))
  unfold itemBody
  split
  · rw [group_congr hcalls, hstatement]
  · exact hstatement

theorem factorBody_congr
    (hcalls : ∀ {r' ts'}, need r' ts' < need .factor ts → sub r' ts' = sub' r' ts') :
    factorBody sub ts = factorBody sub' ts := by
  unfold factorBody
  split
  · simp only [negation, Parser.bind_apply]
    exact call_congr (hcalls (need_lt_of_shorter (Nat.lt_succ_self _))) fun e rest he => rfl
  · exact hcalls (need_lt_of_rank (by decide))

theorem directive_congr {p : Position} {word : DirectiveWord} {t : Located}
    (hcalls : ∀ {r' ts'}, need r' ts' < need .primary (t :: ts) → sub r' ts' = sub' r' ts') :
    directive sub p word ts = directive sub' p word ts := by
  have hnumber : ∀ (f : Category → Code → List Located → Reply Code),
      (category ts).andThen (fun cat mid => (sub .statement mid).andThen (f cat)) =
        (category ts).andThen fun cat mid => (sub' .statement mid).andThen (f cat) := by
    intro f
    cases hcat : category ts with
    | error e rest => rfl
    | ok cat mid =>
      obtain ⟨q, rfl⟩ := category_eq_ok hcat
      refine call_congr (hcalls (need_lt_of_shorter ?_)) fun e rest he => rfl
      simp only [List.length_cons]
      omega
  cases word with
  | trace | exit | help | reset | print | eval => rfl
  | numeric =>
    simp only [directive, Parser.bind_apply]
    exact call_congr (hcalls (need_lt_of_shorter (Nat.lt_succ_self _))) fun a rest ha => rfl
  | fromNumeric | runNumeric =>
    simp only [directive, Parser.bind_apply]
    exact hnumber _

theorem primaryBody_congr
    (hcalls : ∀ {r' ts'}, need r' ts' < need .primary ts → sub r' ts' = sub' r' ts') :
    primaryBody sub ts = primaryBody sub' ts := by
  unfold primaryBody
  split
  · simp only [parenthesized, Parser.bind_apply]
    exact call_congr (hcalls (need_lt_of_shorter (Nat.lt_succ_self _))) fun e rest he => rfl
  · rfl
  · rfl
  · rfl
  · split
    · exact directive_congr hcalls
    · rfl
  · rfl

variable
  (hsub : ∀ {r : Rule} {ts rest : List Located} {c : Code}, sub r ts = .ok c rest →
    Reads r ts c rest)
include hsub

theorem suiteBody_congr {done : List Code}
    (hcalls : ∀ {r' ts'}, need r' ts' < need (.suite done) ts → sub r' ts' = sub' r' ts') :
    suiteBody sub done ts = suiteBody sub' done ts := by
  unfold suiteBody
  refine if_congr Iff.rfl rfl ?_
  refine call_congr (hcalls (need_lt_of_rank (by simp only [rank]; decide))) fun a rest ha => ?_
  unfold moreItems
  split
  · have hlt := (hsub ha).length_lt rfl
    exact hcalls (need_lt_of_shorter (Nat.lt_of_succ_lt hlt))
  · rfl

theorem conditional_congr {p : Position}
    (hcalls : ∀ {r' ts'}, need r' ts' < need .statement (⟨.keyword .ifWord, p⟩ :: ts) →
      sub r' ts' = sub' r' ts') : conditional sub ts = conditional sub' ts := by
  simp only [conditional, Parser.bind_apply]
  refine call_congr (hcalls (need_lt_of_shorter (Nat.lt_succ_self _))) fun c mid hc => ?_
  refine expect_congr (by decide) fun q mid' hthen => ?_
  have hmid := (hsub hc).takes.length_le
  rw [hthen, List.length_cons] at hmid
  refine call_congr (hcalls (need_lt_of_shorter ?_)) fun a rest ha => ?_
  · rw [List.length_cons]
    omega
  · unfold Parser.accept
    split_ifs
    · have hrest := (hsub ha).takes.length_le
      have htail : rest.tail.length ≤ rest.length := by simp
      refine call_congr (hcalls (need_lt_of_shorter ?_)) fun b last hb => rfl
      rw [List.length_cons]
      omega
    · rfl

theorem repetition_congr {p : Position}
    (hcalls : ∀ {r' ts'}, need r' ts' < need .statement (⟨.keyword .whileWord, p⟩ :: ts) →
      sub r' ts' = sub' r' ts') : repetition sub ts = repetition sub' ts := by
  simp only [repetition, Parser.bind_apply]
  refine call_congr (hcalls (need_lt_of_shorter (Nat.lt_succ_self _))) fun c mid hc => ?_
  refine expect_congr (by decide) fun q mid' hdo => ?_
  have hmid := (hsub hc).takes.length_le
  rw [hdo, List.length_cons] at hmid
  refine call_congr (hcalls (need_lt_of_shorter ?_)) fun a rest ha => rfl
  rw [List.length_cons]
  omega

theorem statementBody_congr
    (hcalls : ∀ {r' ts'}, need r' ts' < need .statement ts → sub r' ts' = sub' r' ts') :
    statementBody sub ts = statementBody sub' ts := by
  unfold statementBody
  split
  · rfl
  · exact conditional_congr hsub hcalls
  · exact repetition_congr hsub hcalls
  · simp only [assignment, Parser.bind_apply]
    refine call_congr (hcalls (need_lt_of_shorter ?_)) fun e rest he => rfl
    simp only [List.length_cons]
    omega
  · exact hcalls (need_lt_of_rank (by decide))

theorem levelBody_congr {l : Level}
    (hcalls : ∀ {r' ts'}, need r' ts' < need (.level l) ts → sub r' ts' = sub' r' ts') :
    levelBody sub l ts = levelBody sub' l ts := by
  simp only [levelBody, Parser.bind_apply]
  refine call_congr (hcalls (need_lt_of_rank (rank_operand_lt l))) fun a rest ha => ?_
  exact hcalls (need_lt_of_shorter ((hsub ha).length_lt (mayBeEmpty_operand l)))

theorem operatorsBody_congr {l : Level} {left : Code}
    (hcalls : ∀ {r' ts'}, need r' ts' < need (.operators l left) ts → sub r' ts' = sub' r' ts') :
    operatorsBody sub l left ts = operatorsBody sub' l left ts := by
  unfold operatorsBody
  split
  · rfl
  · next o rest hnext =>
    unfold operator? at hnext
    split at hnext
    · split_ifs at hnext
      cases hnext
      simp only [operation, Parser.bind_apply]
      refine call_congr (hcalls (need_lt_of_shorter (Nat.lt_succ_self _))) fun b mid hb => ?_
      exact hcalls (need_lt_of_shorter (Nat.lt_succ_of_le (hsub hb).takes.length_le))
    · cases hnext

/-- A step is settled by the calls it makes, all of which need less fuel. -/
theorem step_congr {r : Rule}
    (hcalls : ∀ {r' ts'}, need r' ts' < need r ts → sub r' ts' = sub' r' ts') :
    step sub r ts = step sub' r ts := by
  cases r with
  | suite done => exact suiteBody_congr hsub hcalls
  | item => exact itemBody_congr hcalls
  | statement => exact statementBody_congr hsub hcalls
  | level l => exact levelBody_congr hsub hcalls
  | operators l left => exact operatorsBody_congr hsub hcalls
  | factor => exact factorBody_congr hcalls
  | primary => exact primaryBody_congr hcalls

end Fuel

theorem parseWithin_succ {fuel : Nat} {r : Rule} {ts : List Located} (h : need r ts ≤ fuel) :
    parseWithin fuel r ts = parseWithin (fuel + 1) r ts := by
  induction fuel generalizing r ts with
  | zero => cases h
  | succ fuel ih =>
    exact step_congr reads_of_parseWithin fun hlt => ih (Nat.le_of_lt_succ (lt_of_lt_of_le hlt h))

/-- Reading with fuel enough does not depend on the fuel. -/
theorem parseWithin_eq_parse {fuel : Nat} {r : Rule} {ts : List Located} (h : need r ts ≤ fuel) :
    parseWithin fuel r ts = r.parse ts := by
  have hconst : ∀ fuel, need r ts ≤ fuel → parseWithin fuel r ts = parseWithin (need r ts) r ts := by
    intro fuel hfuel
    induction fuel, hfuel using Nat.le_induction with
    | base => rfl
    | succ fuel hfuel ih => rw [← parseWithin_succ hfuel, ih]
  rw [parse, hconst fuel h, hconst _ (need_le_depthBound r ts)]

/-- The parser is its own step. -/
theorem parse_eq_step (r : Rule) (ts : List Located) : r.parse ts = step parse r ts := by
  rw [← parseWithin_eq_parse (Nat.le_succ_of_le (need_le_depthBound r ts))]
  refine step_congr reads_of_parseWithin fun hlt => parseWithin_eq_parse ?_
  exact le_trans (le_of_lt hlt) (need_le_depthBound r ts)

section Equations

variable (ts : List Located)

theorem parse_suite (done : List Code) : (Rule.suite done).parse ts = suiteBody parse done ts :=
  parse_eq_step _ ts

theorem parse_item : Rule.item.parse ts = itemBody parse ts := parse_eq_step _ ts

theorem parse_statement : Rule.statement.parse ts = statementBody parse ts := parse_eq_step _ ts

theorem parse_level (l : Level) : (Rule.level l).parse ts = levelBody parse l ts :=
  parse_eq_step _ ts

theorem parse_operators (l : Level) (left : Code) :
    (Rule.operators l left).parse ts = operatorsBody parse l left ts := parse_eq_step _ ts

theorem parse_factor : Rule.factor.parse ts = factorBody parse ts := parse_eq_step _ ts

theorem parse_primary : Rule.primary.parse ts = primaryBody parse ts := parse_eq_step _ ts

end Equations

/-! ### The parser reads all of it -/

theorem statementBody_expression (sub : Rule → Parser Code) {ts : List Located}
    (h : startsExpression ts = true) : statementBody sub ts = sub expression ts := by
  unfold statementBody
  split
  all_goals first | cases h | rfl

theorem operator?_cons {l : Level} {o : Operator} (ho : o.level = l) (p : Position)
    (ts : List Located) : operator? l (⟨.operator o, p⟩ :: ts) = some (o, ts) := by
  rw [operator?, if_pos ho]

theorem category_cons (cat : Category) (p : Position) (ts : List Located) :
    category (⟨.name cat.name, p⟩ :: ts) = .ok cat ts := by
  simp only [category, Category.ofName?_name]

theorem parse_directive (p : Position) (word : DirectiveWord) (ts : List Located) :
    Rule.primary.parse (⟨.directive word.text, p⟩ :: ts) = directive parse p word ts := by
  simp only [parse_primary, primaryBody, DirectiveWord.ofText?_text]

theorem parse_of_reads {r : Rule} {ts rest : List Located} {c : Code} (h : Reads r ts c rest) :
    r.parse ts = .ok c rest := by
  induction h with
  | suiteEnd hend => rw [parse_suite, suiteBody, if_pos hend]
  | suiteLast hend _ hlast ih =>
    rw [parse_suite, suiteBody, if_neg hend, ih, Reply.andThen_ok, moreItems]
    rintro p ts rfl
    exact hlast rfl
  | suiteMore hend _ _ iha ihc =>
    rw [parse_suite, suiteBody, if_neg hend, iha, Reply.andThen_ok, moreItems, ihc]
  | group _ hnext ih =>
    simp [parse_item, itemBody, Rule.group, ih, Parser.expect_cons, hnext]
  | operandFirst _ hnext _ ih ihc =>
    simp [parse_item, itemBody, Rule.group, ih, Parser.expect_cons, hnext, ihc]
  | item hnext _ ih =>
    rw [parse_item, itemBody, ih]
    rintro p ts rfl
    exact hnext rfl
  | skip => rw [parse_statement]; rfl
  | ifThen _ _ helse ihc iha =>
    simp [parse_statement, statementBody, conditional, ihc, Parser.expect_cons, iha,
      Parser.accept, helse]
  | ifElse _ _ _ ihc iha ihb =>
    simp [parse_statement, statementBody, conditional, ihc, Parser.expect_cons, iha,
      Parser.accept, Parser.next, ihb]
  | loop _ _ ihc iha =>
    simp [parse_statement, statementBody, repetition, ihc, Parser.expect_cons, iha]
  | assign _ ih => simp [parse_statement, statementBody, assignment, ih]
  | expression hstart _ ih => rw [parse_statement, statementBody_expression _ hstart, ih]
  | level _ _ iha ihc => simp [parse_level, levelBody, iha, ihc]
  | noOperator hnext => rw [parse_operators, operatorsBody, hnext]
  | operator ho _ _ ihb ihc =>
    rw [parse_operators, operatorsBody, operator?_cons ho]
    simp [operation, ihb, ihc]
  | not _ ih => simp [parse_factor, factorBody, negation, ih]
  | primary hnext _ ih =>
    rw [parse_factor, factorBody, ih]
    rintro p ts rfl
    exact hnext rfl
  | parens _ ih =>
    simp [parse_primary, primaryBody, parenthesized, ih, Parser.expect_cons]
  | var | int | bool => rw [parse_primary]; rfl
  | trace => exact parse_directive _ .trace _
  | exit => exact parse_directive _ .exit _
  | help => exact parse_directive _ .help _
  | reset => exact parse_directive _ .reset _
  | print => exact parse_directive _ .print _
  | eval => exact parse_directive _ .eval _
  | number _ ih =>
    rw [show "numeric" = DirectiveWord.numeric.text from rfl, parse_directive]
    simp [directive, ih]
  | decode _ ih =>
    rw [show "from_numeric" = DirectiveWord.fromNumeric.text from rfl, parse_directive]
    simp [directive, category_cons, ih]
  | run _ ih =>
    rw [show "run_numeric" = DirectiveWord.runNumeric.text from rfl, parse_directive]
    simp [directive, category_cons, ih]

/-- The parser computes what the rules read. -/
theorem parse_eq_ok_iff {r : Rule} {ts rest : List Located} {c : Code} :
    r.parse ts = .ok c rest ↔ Reads r ts c rest :=
  ⟨reads_of_parseWithin, parse_of_reads⟩

/-! ### After an expression -/

/-- No operator that binds tighter than level `l` is next. -/
def NoTighter (l : Level) (u : List Located) : Prop :=
  ∀ o, (Parser.next u).token = .operator o → (Rule.level l).rank ≤ (Rule.level o.level).rank

theorem operator?_eq_none {l : Level} {u : List Located}
    (h : ∀ o, (Parser.next u).token = .operator o → o.level ≠ l) : operator? l u = none := by
  unfold operator?
  split
  · exact if_neg (h _ rfl)
  · rfl

theorem rank_lt_of_tighter {l t : Level} (ht : l.tighter? = some t) :
    (Rule.level t).rank < (Rule.level l).rank := by
  have hlt := rank_operand_lt l
  rwa [operand, ht] at hlt

/-- Where no tighter operator is next, there is none of the next tighter level either. -/
theorem NoTighter.of_tighter {l t : Level} {u : List Located} (hu : NoTighter l u)
    (ht : l.tighter? = some t) : NoTighter t u ∧ operator? t u = none := by
  have hlt := rank_lt_of_tighter ht
  refine ⟨fun o ho => hlt.le.trans (hu o ho), operator?_eq_none fun o ho heq => ?_⟩
  have hle := hu o ho
  rw [heq] at hle
  omega

/-- Tokens after which an expression is complete. -/
def EndsExpression (u : List Located) : Prop :=
  continuesExpression (Parser.next u).token = false ∧ (Parser.next u).token ≠ .assign

namespace EndsExpression

variable {u : List Located} (h : EndsExpression u)
include h

theorem next_ne_operator (o : Operator) : (Parser.next u).token ≠ .operator o := by
  intro ho
  rw [EndsExpression, ho] at h
  cases h.1

theorem noTighter {l : Level} : NoTighter l u := fun o ho => absurd ho (h.next_ne_operator o)

theorem operator?_eq_none {l : Level} : operator? l u = none :=
  Rule.operator?_eq_none fun o ho => absurd ho (h.next_ne_operator o)

end EndsExpression

end Rule

/-! ### Programs -/

theorem parseProgram_eq_ok_iff {ts : List Located} {c : Code} :
    parseProgram ts = .ok c ↔
      ∃ rest, Rule.Reads (.suite []) ts c rest ∧ (Parser.next rest).token = .endOfInput := by
  have hend : ∀ rest, (Parser.next rest).token = .endOfInput →
      endOfProgram c rest = .ok c rest.tail := by
    intro rest hrest
    simp [endOfProgram, Parser.expect, hrest]
  unfold parseProgram
  constructor
  · intro h
    cases hr : (Rule.suite []).parse ts with
    | error e rest => rw [hr] at h; cases h
    | ok c' rest =>
      rw [hr] at h
      change (endOfProgram c' rest).toExcept = .ok c at h
      by_cases hrest : (Parser.next rest).token = .endOfInput
      · simp [endOfProgram, Parser.expect, hrest, Reply.toExcept] at h
        subst h
        exact ⟨rest, Rule.parse_eq_ok_iff.mp hr, hrest⟩
      · simp [endOfProgram, Parser.expect, hrest, Parser.fail, Reply.toExcept] at h
  · rintro ⟨rest, hreads, hrest⟩
    rw [Rule.parse_of_reads hreads]
    exact congrArg Reply.toExcept (hend rest hrest)

/-- The end of the input that a program is read up to is the one that stands at its end. -/
theorem taken_eq_of_append {w taken rest : List Located} {p : Position}
    (hw : ∀ t ∈ w, t.token ≠ .endOfInput) (htaken : ∀ t ∈ taken, t.token ≠ .endOfInput)
    (hrest : (Parser.next rest).token = .endOfInput)
    (h : w ++ [⟨.endOfInput, p⟩] = taken ++ rest) : taken = w := by
  rcases List.append_eq_append_iff.mp h with ⟨v, rfl, hv⟩ | ⟨v, rfl, hv⟩
  · rcases v with _ | ⟨t, v⟩
    · simp
    · obtain ⟨rfl, -⟩ := List.cons.inj hv
      exact absurd rfl (htaken ⟨.endOfInput, p⟩ (by simp))
  · rcases v with _ | ⟨t, v⟩
    · simp
    · subst hv
      exact absurd hrest (hw t (by simp))

/-- A program is read up to the end of the input, if there is none before. -/
theorem parseProgram_append_eq_ok_iff {w : List Located} {p : Position}
    (hw : ∀ t ∈ w, t.token ≠ .endOfInput) {c : Code} :
    parseProgram (w ++ [⟨.endOfInput, p⟩]) = .ok c ↔
      Rule.Reads (.suite []) (w ++ [⟨.endOfInput, p⟩]) c [⟨.endOfInput, p⟩] := by
  rw [parseProgram_eq_ok_iff]
  constructor
  · rintro ⟨rest, hreads, hrest⟩
    obtain ⟨taken, htaken, hnone⟩ := hreads.takes.exists_append
    obtain rfl := taken_eq_of_append hw hnone hrest htaken
    rwa [← List.append_cancel_left htaken] at hreads
  · exact fun hreads => ⟨_, hreads, rfl⟩

end GodelWhile
