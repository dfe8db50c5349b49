import Mathlib
import GodelWhile.Proofs.Blame

/-! # Every rule ends and gets on

The rules call each other, and up to eleven calls lie between one token and the next. On a stream that
is as long as before a rule calls only rules of lower `rank`, and it calls any rule on a shorter one;
so every chain of calls ends (`wellFounded_calls`), and the body of a rule unfolded often enough says
what the rule reads, whatever lies at the bottom (`iterate_step_eq_parse`).

What has been read has been taken off the front of the stream, whether the reading succeeds or fails,
and an end marker is never taken. A rule that succeeds has taken something, except for a suite at the
end of the input and for the operators of a level where none follows. Four directives are complete with
their word, and nothing is taken behind it. -/

namespace GodelWhile

/-! ### Calls -/

namespace Rule

/-- The parser, but with `reply` as the reply to one call. -/
def parseBut (call : Rule × List Located) (reply : Reply Code) : Rule → Parser Code := fun r ts =>
  if (r, ts) = call then reply else r.parse ts

/-- Reading as `caller` does asks for what `callee` reads: some other reply to this call would change
the reply to `caller`. -/
def Calls (callee caller : Rule × List Located) : Prop :=
  ∃ reply, step (parseBut callee reply) caller.1 caller.2 ≠ step parse caller.1 caller.2

theorem Calls.need_lt {callee caller : Rule × List Located} (h : Calls callee caller) :
    need callee.1 callee.2 < need caller.1 caller.2 := by
  obtain ⟨reply, hreply⟩ := h
  by_contra hge
  -- No call that needs less fuel is the one whose reply is changed.
  refine hreply (step_congr parse_eq_ok_iff.mp fun {r us} hlt => ?_).symm
  refine (if_neg ?_).symm
  rintro rfl
  exact hge hlt

/-- A call goes to a shorter stream, or on the same length to a rule of lower rank. -/
theorem Calls.descends {callee caller : Rule × List Located} (h : Calls callee caller) :
    callee.2.length < caller.2.length ∨
      callee.2.length = caller.2.length ∧ callee.1.rank < caller.1.rank := by
  have hneed := h.need_lt
  have hrank := caller.1.rank_le
  unfold need at hneed
  omega

/-- Every chain of calls ends. -/
theorem wellFounded_calls : WellFounded Calls :=
  Subrelation.wf (fun h => Calls.need_lt h)
    (measure fun call : Rule × List Located => need call.1 call.2).wf

/-- Unfolded as often as it needs fuel, a rule says what it reads, whatever stands at the bottom. -/
theorem iterate_step_eq_parse (bottom : Rule → Parser Code) {depth : Nat} {r : Rule}
    {ts : List Located} (h : need r ts ≤ depth) : step^[depth] bottom r ts = r.parse ts := by
  induction depth generalizing r ts with
  | zero => cases h
  | succ depth ih =>
    rw [Function.iterate_succ_apply', parse_eq_step]
    refine (step_congr parse_eq_ok_iff.mp fun hlt => ?_).symm
    exact (ih (Nat.le_of_lt_succ (lt_of_lt_of_le hlt h))).symm

end Rule

/-! ### What is taken -/

/-- The reader has taken the tokens `taken` off the front of the stream, none of them an end marker,
and has left the rest. -/
structure Reply.Took {α : Type} (reply : Reply α) (ts taken : List Located) : Prop where
  front : ts = taken ++ reply.rest
  noEnd : ∀ t ∈ taken, t.token ≠ .endOfInput

theorem Parallel.Replies.rest {R : Parallel} {α β : Type} {values : α → β → Prop} {r : Reply α}
    {r' : Reply β} (h : R.Replies values r r') : R.streams r.rest r'.rest := by
  cases h with
  | ok _ hstreams => exact hstreams
  | error _ hstreams => exact hstreams

theorem exists_took {α β : Type} {values : α → β → Prop} {r : Reply α} {r' : Reply β}
    {ts : List Located} (h : (Parallel.within ts).Replies values r r') : ∃ taken, r.Took ts taken := by
  obtain ⟨taken, hfront, hnoEnd⟩ := h.rest.2.exists_append
  exact ⟨taken, hfront, hnoEnd⟩

/-- Of a stream with one token more in front, that token has been taken too. -/
theorem Reply.Took.cons {α : Type} {reply : Reply α} {ts taken : List Located} {t : Located}
    (h : reply.Took ts taken) (ht : t.token ≠ .endOfInput) : reply.Took (t :: ts) (t :: taken) where
  front := by rw [List.cons_append, ← h.front]
  noEnd := List.forall_mem_cons.mpr ⟨ht, h.noEnd⟩

theorem Reply.Took.ne_nil {α : Type} {reply : Reply α} {ts taken : List Located}
    (h : reply.Took ts taken) (hlt : reply.rest.length < ts.length) : taken ≠ [] := by
  rintro rfl
  have hfront := h.front
  rw [List.nil_append] at hfront
  rw [hfront] at hlt
  exact lt_irrefl _ hlt

theorem Reply.Took.ne_nil_or {α : Type} {reply : Reply α} {ts taken : List Located} {p : Prop}
    (h : reply.Took ts taken) (hlt : ¬p → reply.rest.length < ts.length) : taken ≠ [] ∨ p := by
  by_cases hp : p
  · exact .inr hp
  · exact .inl (h.ne_nil (hlt hp))

theorem exists_took_ne_nil {α β : Type} {values : α → β → Prop} {r : Reply α} {r' : Reply β}
    {ts : List Located} (h : (Parallel.within ts).Replies values r r')
    (hlt : ∀ a rest, r = .ok a rest → rest.length < ts.length) :
    ∃ taken, r.Took ts taken ∧ ∀ a rest, r = .ok a rest → taken ≠ [] := by
  obtain ⟨taken, htook⟩ := exists_took h
  refine ⟨taken, htook, fun a rest hok => ?_⟩
  rw [hok] at htook
  exact htook.ne_nil (hlt a rest hok)

namespace Rule

theorem Reads.length_lt_of_suite {done : List Code} {ts rest : List Located} {c : Code}
    (h : Reads (.suite done) ts c rest) (hend : (Parser.next ts).token ≠ .endOfInput) :
    rest.length < ts.length := by
  cases h with
  | suiteEnd hnext => exact absurd hnext hend
  | suiteLast _ ha _ => exact ha.length_lt rfl
  | suiteMore _ ha hc =>
    have hitem := ha.length_lt rfl
    have hmore := hc.takes.length_le
    rw [List.length_cons] at hitem
    omega

theorem Reads.length_lt_of_operators {l : Level} {left c : Code} {ts rest : List Located}
    (h : Reads (.operators l left) ts c rest) (hnext : operator? l ts ≠ none) :
    rest.length < ts.length := by
  cases h with
  | noOperator hnone => exact absurd hnone hnext
  | operator _ hb hc => exact Nat.lt_succ_of_le (hc.takes.length_le.trans hb.takes.length_le)

theorem length_lt_of_conditional {ts rest : List Located} {c : Code}
    (h : conditional parse ts = .ok c rest) : rest.length < ts.length := by
  cases reads_of_conditional (p := .nowhere) parse_eq_ok_iff.mp h with
  | ifThen hc ha _ =>
    have hcondition := hc.length_lt rfl
    have hyes := ha.takes.length_le
    rw [List.length_cons] at hcondition
    omega
  | ifElse hc ha hb =>
    have hcondition := hc.length_lt rfl
    have hyes := ha.takes.length_le
    have hno := hb.takes.length_le
    rw [List.length_cons] at hcondition hyes
    omega
  | expression hstart _ => cases hstart

theorem length_lt_of_repetition {ts rest : List Located} {c : Code}
    (h : repetition parse ts = .ok c rest) : rest.length < ts.length := by
  cases reads_of_repetition (p := .nowhere) parse_eq_ok_iff.mp h with
  | loop hc ha =>
    have hcondition := hc.length_lt rfl
    have hbody := ha.takes.length_le
    rw [List.length_cons] at hcondition
    omega
  | expression hstart _ => cases hstart

/-- The directives that ask for a name take it. -/
theorem length_lt_of_directive {p : Position} {word : DirectiveWord} {ts rest : List Located}
    {c : Code} (hword : word ∈ [.print, .eval, .fromNumeric, .runNumeric])
    (h : directive parse p word ts = .ok c rest) : rest.length < ts.length := by
  cases word with
  | print | eval =>
    obtain ⟨x, mid, hx, h⟩ := Reply.andThen_eq_ok.mp h
    obtain ⟨q, rfl⟩ := Parser.name_eq_ok hx
    cases h
    exact Nat.lt_succ_self _
  | fromNumeric | runNumeric =>
    simp only [directive, Parser.bind_apply, Reply.andThen_eq_ok] at h
    obtain ⟨cat, mid, hcat, e, mid', he, h⟩ := h
    obtain ⟨q, rfl⟩ := category_eq_ok hcat
    cases h
    exact Nat.lt_succ_of_le (parse_eq_ok_iff.mp he).takes.length_le
  | _ => simp at hword

theorem length_lt_of_numeric {p : Position} {ts rest : List Located} {c : Code}
    (h : directive parse p .numeric ts = .ok c rest) (hend : (Parser.next ts).token ≠ .endOfInput) :
    rest.length < ts.length := by
  obtain ⟨a, mid, ha, h⟩ := Reply.andThen_eq_ok.mp h
  cases h
  exact (parse_eq_ok_iff.mp ha).length_lt_of_suite hend

/-- The directives that are complete with their word take nothing behind it. -/
theorem directive_complete {word : DirectiveWord} (hword : word ∈ [.trace, .exit, .help, .reset])
    (p : Position) (ts : List Located) : ∃ c, directive parse p word ts = .ok c ts := by
  cases word with
  | trace | exit | help | reset => exact ⟨_, rfl⟩
  | _ => simp at hword

/-- On every stream, with end markers anywhere or nowhere, each rule unfolds to its body, each chain of
its calls ends, and eleven levels of calls for each token and for the end are enough to know what it
reads. On success and on failure it has taken tokens off the front, none of them an end marker. On
success it has taken one at least, unless it is a suite at the end of the input or the part of a level
behind its first operand, where no operator of this level follows.

The parts of rules that stand behind a word are no different: the rest of an `if` or a `while`, the
name of a category, and the rest of a directive, which with its word makes a primary. But a trace, an
exit, a help and a reset are complete with their word and take nothing behind it, and the numbering
directive takes a suite, which may be empty at the end of the input. -/
theorem parse_progress (ts : List Located) :
    (∀ r : Rule,
      r.parse ts = step parse r ts ∧ Acc Calls (r, ts) ∧
      (∀ callee, Calls callee (r, ts) → callee.2.length < ts.length ∨
        callee.2.length = ts.length ∧ callee.1.rank < r.rank) ∧
      (∀ bottom more, step^[11 * (ts.length + 1) + more] bottom r ts = r.parse ts) ∧
      ∃ taken, (r.parse ts).Took ts taken ∧ ∀ c rest, r.parse ts = .ok c rest →
        (r.mayBeEmpty = false → taken ≠ []) ∧
        (∀ done, r = .suite done → taken ≠ [] ∨ (Parser.next ts).token = .endOfInput) ∧
        ∀ l left, r = .operators l left → taken ≠ [] ∨ operator? l ts = none) ∧
    (∀ p word, ∃ taken, (directive parse p word ts).Took ts taken ∧
      (Rule.primary.parse (⟨.directive word.text, p⟩ :: ts)).Took (⟨.directive word.text, p⟩ :: ts)
        (⟨.directive word.text, p⟩ :: taken) ∧
      (word ∈ [.trace, .exit, .help, .reset] → taken = []) ∧
      ∀ c rest, directive parse p word ts = .ok c rest →
        (word ∈ [.print, .eval, .fromNumeric, .runNumeric] → taken ≠ []) ∧
        (word = .numeric → taken ≠ [] ∨ (Parser.next ts).token = .endOfInput)) ∧
    (∃ taken, (conditional parse ts).Took ts taken ∧
      ∀ c rest, conditional parse ts = .ok c rest → taken ≠ []) ∧
    (∃ taken, (repetition parse ts).Took ts taken ∧
      ∀ c rest, repetition parse ts = .ok c rest → taken ≠ []) ∧
    ∃ taken, (category ts).Took ts taken ∧ ∀ cat rest, category ts = .ok cat rest → taken ≠ [] := by
  have hwithin := Parallel.closed_within ts
  have hstart : (Parallel.within ts).streams ts ts := ⟨rfl, .refl ts⟩
  refine ⟨fun r => ?_, fun p word => ?_, ?_, ?_, ?_⟩
  · have hdepth : ∀ more, need r ts ≤ 11 * (ts.length + 1) + more := fun more =>
      (need_le_depthBound r ts).trans (Nat.le_add_right _ more)
    obtain ⟨taken, htook⟩ := exists_took (hwithin.parse r hstart)
    refine ⟨parse_eq_step r ts, wellFounded_calls.apply _, fun _ hcall => hcall.descends,
      fun bottom more => iterate_step_eq_parse bottom (hdepth more), taken, htook, ?_⟩
    intro c rest hok
    have hreads := parse_eq_ok_iff.mp hok
    rw [hok] at htook
    refine ⟨fun hr => htook.ne_nil (hreads.length_lt hr), ?_, ?_⟩
    · rintro done rfl
      exact htook.ne_nil_or hreads.length_lt_of_suite
    · rintro l left rfl
      exact htook.ne_nil_or hreads.length_lt_of_operators
  · have hreplies : (Parallel.within ts).Codes (directive parse p word ts) _ :=
      hwithin.directive hwithin.parse rfl hstart
    obtain ⟨taken, htook⟩ := exists_took hreplies
    refine ⟨taken, htook, ?_, ?_, ?_⟩
    · rw [parse_directive]
      exact htook.cons (by simp)
    · intro hword
      obtain ⟨c, hc⟩ := directive_complete hword p ts
      rw [hc] at htook
      exact List.self_eq_append_left.mp htook.front
    · intro c rest hok
      rw [hok] at htook
      refine ⟨fun hword => htook.ne_nil (length_lt_of_directive hword hok), ?_⟩
      rintro rfl
      exact htook.ne_nil_or (length_lt_of_numeric hok)
  · exact exists_took_ne_nil (hwithin.conditional hwithin.parse hstart) fun _ _ =>
      length_lt_of_conditional
  · exact exists_took_ne_nil (hwithin.repetition hwithin.parse hstart) fun _ _ =>
      length_lt_of_repetition
  · refine exists_took_ne_nil (hwithin.category hstart) fun cat rest hok => ?_
    obtain ⟨p, rfl⟩ := category_eq_ok hok
    exact Nat.lt_succ_self _

/-- A stream without an end marker: an item in parentheses that is read as a suite first and then, from
the same tokens, as an operand. -/
theorem parse_progress_reread :
    let ts : List Located := [⟨.openParen, ⟨1, 1⟩⟩, ⟨.name "x", ⟨1, 2⟩⟩, ⟨.closeParen, ⟨1, 3⟩⟩,
      ⟨.operator (.arith .mul), ⟨1, 5⟩⟩, ⟨.number 2, ⟨1, 7⟩⟩]
    Calls (.suite [], ts.tail) (.item, ts) ∧ Calls (.statement, ts) (.item, ts) ∧
      Rule.item.parse ts = .ok (.binary (.arith .mul) (.var "x") (.int 2)) [] ∧
      ∃ taken, (Rule.item.parse ts).Took ts taken ∧ taken ≠ [] := by
  intro ts
  have hparse : Rule.item.parse ts = .ok (.binary (.arith .mul) (.var "x") (.int 2)) [] := by cbv
  obtain ⟨-, -, -, -, taken, htook, hok⟩ := (parse_progress ts).1 .item
  refine ⟨?_, ?_, hparse, taken, htook, (hok _ _ hparse).1 rfl⟩
  · refine ⟨.ok .skip [], ?_⟩
    rw [← parse_eq_step, hparse]
    simp [ts, step, itemBody, group, parseBut, Parser.expect, Parser.next, Parser.fail]
  · have hgroup : group (parseBut (.statement, ts) (.ok .skip [])) ts.tail =
        .ok (.suite [.var "x"]) [⟨.operator (.arith .mul), ⟨1, 5⟩⟩, ⟨.number 2, ⟨1, 7⟩⟩] := by cbv
    refine ⟨.ok .skip [], ?_⟩
    rw [← parse_eq_step, hparse]
    simp only [ts, List.tail_cons] at hgroup ⊢
    simp [step, itemBody, hgroup, continuesExpression, Parser.next, parseBut]

end Rule

end GodelWhile
