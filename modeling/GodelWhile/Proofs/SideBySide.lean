import Mathlib
import GodelWhile.Proofs.Reading

/-! # Two readings side by side

Let a rule read from two streams that show the same tokens up to the end of the input. The parser then
does the same on both sides, and only places can differ in what it makes of them. `Parallel` says how
far the two sides are alike: it relates the streams and the errors, and changes the code. A few facts
about it (`Parallel.Closed`), none of which mentions a rule, carry over to all that is read
(`Closed.parse`).

This is the only case analysis of the rules that properties of this kind need. Such properties are that
places do not steer the parser and that nothing after the end marker is read; and with one stream on
both sides, how far the parser gets and which token it blames for an error. -/

namespace GodelWhile

/-- The token is what the error is about: one that the grammar cannot go on with, or one that names
no directive, or no category. -/
def SyntaxError.Cause.Blames : SyntaxError.Cause → Token → Prop
  | .unexpectedToken _ found, t => found = t
  | .unknownDirective name, t => t = .directive name ∧ DirectiveWord.ofText? name = none
  | .unknownCategory name, t => t = .name name ∧ Category.ofName? name = none
  | .unexpectedCharacter _, _ => False

theorem toExcept_endOfProgram (c : Code) (ts : List Located) :
    (endOfProgram c ts).toExcept = if (Parser.next ts).token = .endOfInput then .ok c
      else .error ⟨(Parser.next ts).pos, .unexpectedToken .semicolonOrEnd (Parser.next ts).token⟩ := by
  unfold endOfProgram
  rw [Parser.bind_apply, Parser.expect]
  split_ifs <;> rfl

/-- A change of code that can affect places only. -/
structure Code.KeepsShape (f : Code → Code) : Prop where
  int : ∀ n, f (.int n) = .int n
  bool : ∀ b, f (.bool b) = .bool b
  var : ∀ x, f (.var x) = .var x
  not : ∀ e, f (.not e) = .not (f e)
  binary : ∀ o a b, f (.binary o a b) = .binary o (f a) (f b)
  skip : f .skip = .skip
  assign : ∀ x e, f (.assign x e) = .assign x (f e)
  suite : ∀ items, f (.suite items) = .suite (items.map f)
  ifThen : ∀ c a, f (.ifThen c a) = .ifThen (f c) (f a)
  ifElse : ∀ c a b, f (.ifElse c a b) = .ifElse (f c) (f a) (f b)
  loop : ∀ c a, f (.loop c a) = .loop (f c) (f a)
  directive : ∀ d : Directive, (∀ p, d ≠ .trace p) → f (.directive d) = .directive d
  number : ∀ a, f (.number a) = .number (f a)
  decode : ∀ cat e, f (.decode cat e) = .decode cat (f e)
  run : ∀ cat e, f (.run cat e) = .run cat (f e)

theorem Code.keepsShape_id : Code.KeepsShape id := by
  constructor
  case suite => exact fun items => by rw [List.map_id]; rfl
  all_goals intros; rfl

/-- How far two readings are alike. -/
structure Parallel where
  streams : List Located → List Located → Prop
  errors : SyntaxError → SyntaxError → Prop
  /-- The code read on the second side, given that on the first. -/
  code : Code → Code

namespace Parallel

/-- The rule by which the second side reads, given that of the first. -/
def rule (R : Parallel) : Rule → Rule
  | .suite done => .suite (done.map R.code)
  | .operators l left => .operators l (R.code left)
  | r => r

theorem rule_operand (R : Parallel) (l : Level) : R.rule (Rule.operand l) = Rule.operand l := by
  cases l <;> rfl

/-- The replies are alike, with values in the relation `values`. -/
inductive Replies (R : Parallel) {α β : Type} (values : α → β → Prop) : Reply α → Reply β → Prop
  | ok {a : α} {b : β} {ts us : List Located} (hvalues : values a b) (h : R.streams ts us) :
      Replies R values (.ok a ts) (.ok b us)
  | error {e f : SyntaxError} {ts us : List Located} (herrors : R.errors e f)
      (h : R.streams ts us) : Replies R values (.error e ts) (.error f us)

/-- The replies are alike, and the second has the code of the first, changed. -/
abbrev Codes (R : Parallel) : Reply Code → Reply Code → Prop := R.Replies fun a b => b = R.code a

theorem Replies.andThen {R : Parallel} {α β γ δ : Type} {values : α → β → Prop}
    {values' : γ → δ → Prop} {r : Reply α} {r' : Reply β} {k : α → List Located → Reply γ}
    {k' : β → List Located → Reply δ} (h : R.Replies values r r')
    (hk : ∀ {a b ts us}, values a b → R.streams ts us → R.Replies values' (k a ts) (k' b us)) :
    R.Replies values' (r.andThen k) (r'.andThen k') := by
  cases h with
  | ok hvalues hstreams => exact hk hvalues hstreams
  | error herrors hstreams => exact .error herrors hstreams

theorem Replies.bind {R : Parallel} {α β γ δ : Type} {values : α → β → Prop}
    {values' : γ → δ → Prop} {x : Parser α} {x' : Parser β} {k : α → Parser γ} {k' : β → Parser δ}
    {ts us : List Located} (h : R.Replies values (x ts) (x' us))
    (hk : ∀ {a b ts us}, values a b → R.streams ts us → R.Replies values' (k a ts) (k' b us)) :
    R.Replies values' ((x >>= k) ts) ((x' >>= k') us) := by
  rw [Parser.bind_apply, Parser.bind_apply]
  exact h.andThen hk

/-- The facts from which it follows that two readings stay alike. -/
structure Closed (R : Parallel) : Prop where
  /-- Both sides show the same token. -/
  token : ∀ {ts us}, R.streams ts us → (Parser.next ts).token = (Parser.next us).token
  /-- They do so after it is taken off, unless it is the end of the input. -/
  tail : ∀ {ts us}, R.streams ts us → (Parser.next ts).token ≠ .endOfInput → R.streams ts.tail us.tail
  /-- Errors that blame it are alike. -/
  blame : ∀ {ts us} {cause : SyntaxError.Cause}, R.streams ts us →
    cause.Blames (Parser.next ts).token →
    R.errors ⟨(Parser.next ts).pos, cause⟩ ⟨(Parser.next us).pos, cause⟩
  /-- Its place may be copied into the code. -/
  trace : ∀ {ts us}, R.streams ts us → (Parser.next ts).token ≠ .endOfInput →
    R.code (.directive (.trace (Parser.next ts).pos)) = .directive (.trace (Parser.next us).pos)
  shape : Code.KeepsShape R.code

/-- Two streams side by side: they start with the same token, or both are at the end of the input. -/
inductive View (R : Parallel) : List Located → List Located → Prop
  | token {t : Token} {p q : Position} {ts us : List Located} (ht : t ≠ .endOfInput)
      (h : R.streams ts us) : View R (⟨t, p⟩ :: ts) (⟨t, q⟩ :: us)
  | bothEnded {p q : Position} {ts us : List Located} :
      View R (⟨.endOfInput, p⟩ :: ts) (⟨.endOfInput, q⟩ :: us)
  | firstDry {q : Position} {us : List Located} : View R [] (⟨.endOfInput, q⟩ :: us)
  | secondDry {p : Position} {ts : List Located} : View R (⟨.endOfInput, p⟩ :: ts) []
  | bothDry : View R [] []

namespace Closed

variable {R : Parallel} (hR : R.Closed)
include hR

theorem view {ts us : List Located} (h : R.streams ts us) : R.View ts us := by
  have htoken := hR.token h
  rcases ts with _ | ⟨⟨t, p⟩, ts⟩ <;> rcases us with _ | ⟨⟨t', q⟩, us⟩
  · exact .bothDry
  · obtain rfl : Token.endOfInput = t' := htoken
    exact .firstDry
  · obtain rfl : t = .endOfInput := htoken
    exact .secondDry
  · obtain rfl : t = t' := htoken
    by_cases ht : t = .endOfInput
    · subst ht
      exact .bothEnded
    · exact .token ht (hR.tail h ht)

/-! ### Single tokens -/

theorem fail {α β : Type} {values : α → β → Prop} {ts us : List Located} (h : R.streams ts us)
    (expected : Expectation) :
    R.Replies values (Parser.fail expected ts) (Parser.fail expected us) := by
  unfold Parser.fail
  rw [← hR.token h]
  exact .error (hR.blame h rfl) h

theorem expect {t : Token} (ht : t ≠ .endOfInput) (expected : Expectation) {ts us : List Located}
    (h : R.streams ts us) :
    R.Replies Eq (Parser.expect t expected ts) (Parser.expect t expected us) := by
  unfold Parser.expect
  rw [← hR.token h]
  split_ifs with hnext
  · exact .ok rfl (hR.tail h (hnext ▸ ht))
  · exact hR.fail h expected

theorem accept {t : Token} (ht : t ≠ .endOfInput) {ts us : List Located} (h : R.streams ts us) :
    R.Replies Eq (Parser.accept t ts) (Parser.accept t us) := by
  unfold Parser.accept
  rw [← hR.token h]
  split_ifs with hnext
  · exact .ok rfl (hR.tail h (hnext ▸ ht))
  · exact .ok rfl h

theorem name {ts us : List Located} (h : R.streams ts us) :
    R.Replies Eq (Parser.name ts) (Parser.name us) := by
  have hfail : R.Replies Eq (Parser.fail .name ts : Reply String) (Parser.fail .name us) :=
    hR.fail h .name
  cases hR.view h with
  | @token t _ _ _ _ _ hrest =>
    cases t with
    | name x => exact .ok rfl hrest
    | _ => exact hfail
  | _ => exact hfail

theorem category {ts us : List Located} (h : R.streams ts us) :
    R.Replies Eq (Rule.category ts) (Rule.category us) := by
  have hfail : R.Replies Eq (Parser.fail .name ts : Reply Category) (Parser.fail .name us) :=
    hR.fail h .name
  cases hR.view h with
  | @token t _ _ _ _ _ hrest =>
    cases t with
    | name x =>
      simp only [Rule.category]
      cases hx : Category.ofName? x with
      | some cat => exact .ok rfl hrest
      | none => exact .error (hR.blame h ⟨rfl, hx⟩) hrest
    | _ => exact hfail
  | _ => exact hfail

/-! ### One step of the parser -/

section Step

variable {sub sub' : Rule → Parser Code}
  (hsub : ∀ r {ts us : List Located}, R.streams ts us → R.Codes (sub r ts) (sub' (R.rule r) us))
include hsub

omit hR in
theorem operand (l : Level) {ts us : List Located} (h : R.streams ts us) :
    R.Codes (sub (Rule.operand l) ts) (sub' (Rule.operand l) us) := by
  have hoperand := hsub (Rule.operand l) h
  rwa [R.rule_operand] at hoperand

theorem suiteBody (done : List Code) {ts us : List Located} (h : R.streams ts us) :
    R.Codes (Rule.suiteBody sub done ts) (Rule.suiteBody sub' (done.map R.code) us) := by
  have hsuite : ∀ done : List Code,
      Code.suite (done.map R.code).reverse = R.code (.suite done.reverse) := by
    intro done
    rw [hR.shape.suite, List.map_reverse]
  unfold Rule.suiteBody
  rw [← hR.token h]
  split_ifs
  · exact .ok (hsuite done) h
  · refine (hsub .item h).andThen ?_
    rintro a _ ts us rfl h
    have hlast : R.Codes (.ok (.suite (a :: done).reverse) ts)
        (.ok (.suite ((a :: done).map R.code).reverse) us) := .ok (hsuite (a :: done)) h
    cases hR.view h with
    | @token t _ _ _ _ _ hrest =>
      cases t with
      | semicolon => exact hsub (.suite (a :: done)) hrest
      | _ => exact hlast
    | _ => exact hlast

theorem group {ts us : List Located} (h : R.streams ts us) :
    R.Codes (Rule.group sub ts) (Rule.group sub' us) := by
  unfold Rule.group
  refine (hsub (.suite []) h).bind fun hc h => ?_
  exact (hR.expect (by decide) .closeParen h).bind fun _ h => .ok hc h

theorem itemBody {ts us : List Located} (h : R.streams ts us) :
    R.Codes (Rule.itemBody sub ts) (Rule.itemBody sub' us) := by
  have hstatement := hsub .statement h
  cases hR.view h with
  | @token t _ _ ts' us' _ hrest =>
    cases t with
    | openParen =>
      have hgroup := hR.group hsub hrest
      simp only [Rule.itemBody]
      generalize Rule.group sub ts' = r, Rule.group sub' us' = r' at hgroup
      cases hgroup with
      | error herrors _ => exact .error herrors h
      | ok hnested hafter =>
        simp only [← hR.token hafter]
        split_ifs
        · exact hstatement
        · exact .ok hnested hafter
    | _ => exact hstatement
  | _ => exact hstatement

theorem conditional {ts us : List Located} (h : R.streams ts us) :
    R.Codes (Rule.conditional sub ts) (Rule.conditional sub' us) := by
  unfold Rule.conditional
  refine (hsub Rule.expression h).bind fun {c _ _ _} hc h => ?_
  refine (hR.expect (by decide) .thenWord h).bind fun _ h => ?_
  refine (hsub (.suite []) h).bind fun {a _ _ _} ha h => ?_
  subst hc ha
  refine (hR.accept (by decide) h).bind fun {found _ _ _} hfound h => ?_
  subst hfound
  cases found with
  | true =>
    refine Replies.bind (hsub (.suite []) h) fun {b _ _ _} hb h => ?_
    subst hb
    exact .ok (hR.shape.ifElse c a b).symm h
  | false => exact .ok (hR.shape.ifThen c a).symm h

theorem repetition {ts us : List Located} (h : R.streams ts us) :
    R.Codes (Rule.repetition sub ts) (Rule.repetition sub' us) := by
  unfold Rule.repetition
  refine (hsub Rule.expression h).bind fun {c _ _ _} hc h => ?_
  refine (hR.expect (by decide) .doWord h).bind fun _ h => ?_
  refine (hsub (.suite []) h).bind fun {a _ _ _} ha h => ?_
  subst hc ha
  exact .ok (hR.shape.loop c a).symm h

theorem statementBody {ts us : List Located} (h : R.streams ts us) :
    R.Codes (Rule.statementBody sub ts) (Rule.statementBody sub' us) := by
  have hexpression := hsub Rule.expression h
  cases hR.view h with
  | @token t _ _ _ _ _ hrest =>
    cases t with
    | keyword k =>
      cases k with
      | skip => exact .ok hR.shape.skip.symm hrest
      | ifWord => exact hR.conditional hsub hrest
      | whileWord => exact hR.repetition hsub hrest
      | _ => exact hexpression
    | name x =>
      -- Only here does a rule look at the second token.
      cases hR.view hrest with
      | @token t _ _ _ _ _ hafter =>
        cases t with
        | assign =>
          simp only [Rule.statementBody, Rule.assignment]
          refine (hsub Rule.expression hafter).bind fun {e _ _ _} he h => ?_
          subst he
          exact .ok (hR.shape.assign x e).symm h
        | _ => exact hexpression
      | _ => exact hexpression
    | _ => exact hexpression
  | _ => exact hexpression

omit hR in
theorem levelBody (l : Level) {ts us : List Located} (h : R.streams ts us) :
    R.Codes (Rule.levelBody sub l ts) (Rule.levelBody sub' l us) := by
  unfold Rule.levelBody
  refine (operand hsub l h).bind fun {a _ _ _} ha h => ?_
  subst ha
  exact hsub (.operators l a) h

theorem operatorsBody (l : Level) (left : Code) {ts us : List Located} (h : R.streams ts us) :
    R.Codes (Rule.operatorsBody sub l left ts) (Rule.operatorsBody sub' l (R.code left) us) := by
  have hnone : R.Codes (.ok left ts) (.ok (R.code left) us) := .ok rfl h
  cases hR.view h with
  | @token t _ _ _ _ _ hrest =>
    cases t with
    | operator o =>
      by_cases ho : o.level = l
      · simp only [Rule.operatorsBody, Rule.operator?_cons ho, Rule.operation]
        refine (operand hsub l hrest).bind fun {b _ _ _} hb h => ?_
        subst hb
        rw [← hR.shape.binary]
        exact hsub (.operators l (.binary o left b)) h
      · simp only [Rule.operatorsBody, Rule.operator?, if_neg ho]
        exact hnone
    | _ => exact hnone
  | _ => exact hnone

theorem directive {p q : Position} {word : DirectiveWord} {ts us : List Located}
    (htrace : R.code (.directive (.trace p)) = .directive (.trace q)) (h : R.streams ts us) :
    R.Codes (Rule.directive sub p word ts) (Rule.directive sub' q word us) := by
  cases word with
  | trace => exact .ok htrace.symm h
  | exit | help | reset => exact .ok (hR.shape.directive _ (by simp)).symm h
  | print | eval =>
    refine (hR.name h).bind fun {x _ _ _} hx h => ?_
    subst hx
    exact .ok (hR.shape.directive _ (by simp)).symm h
  | numeric =>
    refine (hsub (.suite []) h).bind fun {a _ _ _} ha h => ?_
    subst ha
    exact .ok (hR.shape.number a).symm h
  | fromNumeric =>
    refine (hR.category h).bind fun {cat _ _ _} hcat h => ?_
    refine (hsub .statement h).bind fun {e _ _ _} he h => ?_
    subst hcat he
    exact .ok (hR.shape.decode cat e).symm h
  | runNumeric =>
    refine (hR.category h).bind fun {cat _ _ _} hcat h => ?_
    refine (hsub .statement h).bind fun {e _ _ _} he h => ?_
    subst hcat he
    exact .ok (hR.shape.run cat e).symm h

theorem primaryBody {ts us : List Located} (h : R.streams ts us) :
    R.Codes (Rule.primaryBody sub ts) (Rule.primaryBody sub' us) := by
  have hfail : R.Codes (Parser.fail .expression ts) (Parser.fail .expression us) :=
    hR.fail h .expression
  cases hR.view h with
  | @token t _ _ _ _ ht hrest =>
    cases t with
    | openParen =>
      simp only [Rule.primaryBody, Rule.parenthesized]
      refine (hsub Rule.expression hrest).bind fun he h => ?_
      exact (hR.expect (by decide) .closeParen h).bind fun _ h => .ok he h
    | name x => exact .ok (hR.shape.var x).symm hrest
    | number n => exact .ok (hR.shape.int n).symm hrest
    | boolean b => exact .ok (hR.shape.bool b).symm hrest
    | directive s =>
      simp only [Rule.primaryBody]
      cases hs : DirectiveWord.ofText? s with
      | some word => exact hR.directive hsub (hR.trace h ht) hrest
      | none => exact .error (hR.blame h ⟨rfl, hs⟩) hrest
    | _ => exact hfail
  | _ => exact hfail

theorem factorBody {ts us : List Located} (h : R.streams ts us) :
    R.Codes (Rule.factorBody sub ts) (Rule.factorBody sub' us) := by
  have hprimary := hsub .primary h
  cases hR.view h with
  | @token t _ _ _ _ _ hrest =>
    cases t with
    | bang =>
      simp only [Rule.factorBody, Rule.negation]
      refine (hsub .primary hrest).bind fun {e _ _ _} he h => ?_
      subst he
      exact .ok (hR.shape.not e).symm h
    | _ => exact hprimary
  | _ => exact hprimary

theorem step (r : Rule) {ts us : List Located} (h : R.streams ts us) :
    R.Codes (Rule.step sub r ts) (Rule.step sub' (R.rule r) us) := by
  cases r with
  | suite done => exact hR.suiteBody hsub done h
  | item => exact hR.itemBody hsub h
  | statement => exact hR.statementBody hsub h
  | level l => exact levelBody hsub l h
  | operators l left => exact hR.operatorsBody hsub l left h
  | factor => exact hR.factorBody hsub h
  | primary => exact hR.primaryBody hsub h

end Step

/-! ### Whole readings -/

theorem parseWithin (fuel : Nat) (r : Rule) {ts us : List Located} (h : R.streams ts us) :
    R.Codes (Rule.parseWithin fuel r ts) (Rule.parseWithin fuel (R.rule r) us) := by
  induction fuel generalizing r ts us with
  | zero => exact hR.fail h .expression
  | succ fuel ih => exact hR.step (fun r _ _ h => ih r h) r h

/-- What a rule reads from two streams that are alike is alike. -/
theorem parse (r : Rule) {ts us : List Located} (h : R.streams ts us) :
    R.Codes (r.parse ts) ((R.rule r).parse us) := by
  have hparse := hR.parseWithin (max (Rule.depthBound ts) (Rule.depthBound us)) r h
  rwa [Rule.parseWithin_eq_parse ((Rule.need_le_depthBound r ts).trans (le_max_left _ _)),
    Rule.parseWithin_eq_parse ((Rule.need_le_depthBound _ us).trans (le_max_right _ _))] at hparse

/-- Programs read from two streams that are alike are alike, or the errors are. -/
theorem parseProgram {ts us : List Located} (h : R.streams ts us) :
    (∃ c, GodelWhile.parseProgram ts = .ok c ∧ GodelWhile.parseProgram us = .ok (R.code c)) ∨
      ∃ e f, GodelWhile.parseProgram ts = .error e ∧ GodelWhile.parseProgram us = .error f ∧
        R.errors e f := by
  have hsuite : R.Codes ((Rule.suite []).parse ts) ((Rule.suite []).parse us) :=
    hR.parse (.suite []) h
  unfold GodelWhile.parseProgram
  generalize (Rule.suite []).parse ts = r, (Rule.suite []).parse us = r' at hsuite
  cases hsuite with
  | error herrors _ => exact .inr ⟨_, _, rfl, rfl, herrors⟩
  | @ok c _ ts us hcode h =>
    subst hcode
    change (∃ c', (endOfProgram c ts).toExcept = .ok c' ∧
      (endOfProgram (R.code c) us).toExcept = .ok (R.code c')) ∨
      ∃ e f, (endOfProgram c ts).toExcept = .error e ∧
        (endOfProgram (R.code c) us).toExcept = .error f ∧ R.errors e f
    rw [toExcept_endOfProgram, toExcept_endOfProgram, ← hR.token h]
    split_ifs with hend
    · exact .inl ⟨c, rfl, rfl⟩
    · exact .inr ⟨_, _, rfl, rfl, hR.blame h rfl⟩

end Closed

end Parallel

end GodelWhile
