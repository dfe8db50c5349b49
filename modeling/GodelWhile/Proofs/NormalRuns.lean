import Mathlib
import GodelWhile.Proofs.Correspondence
import GodelWhile.Proofs.Expression

/-! # Normal forms run alike

A program and its normal form leave the same variables behind, or both stop for want of an integer,
or both run for ever. They differ in their output, which the normal form does not have, and in the
values of statements, which nobody looks at. So a program and the one read back from its number are
exchangeable as far as the variables are concerned. -/

namespace GodelWhile

open GodelWhile.Numbering

/-- Machines with the same variables, whose output is never refused, and runs that both lack an
integer. -/
def Likeness.variables : Likeness where
  machine m m' := m.store = m'.store ∧ m.sink.limit = none ∧ m'.sink.limit = none
  error e e' := (∃ found, e = .expectedInteger found) ∧ ∃ found, e' = .expectedInteger found
  exit := False

namespace Code

open Ending (Corresponds)

/-! ### Output -/

/-- A run that writes: it changes nothing but the output, if that is never refused. -/
def Writes (r : Run Unit) : Prop :=
  ∀ m : Machine, m.sink.limit = none →
    ∃ sink : Sink, r m = .value () ⟨m.store, sink⟩ ∧ sink.limit = none

theorem writes_pure : Writes (pure ()) := fun m hm => ⟨m.sink, rfl, hm⟩

theorem writes_write (text : String) : Writes (Run.write text) := by
  rintro ⟨store, limit, written⟩ rfl
  exact ⟨⟨none, written ++ text.toUTF8⟩, rfl, rfl⟩

theorem Writes.bind {r r' : Run Unit} (h : Writes r) (h' : Writes r') : Writes (do r; r') := by
  intro m hm
  obtain ⟨sink, hr, hsink⟩ := h m hm
  obtain ⟨sink', hr', hsink'⟩ := h' ⟨m.store, sink⟩ hsink
  exact ⟨sink', by rw [Run.bind_apply, hr]; exact hr', hsink'⟩

theorem writes_store {f : Store → Run Unit} (h : ∀ s, Writes (f s)) :
    Writes (do f (← Run.store)) :=
  fun m hm => h m.store m hm

theorem writes_bindings : ∀ bs : List (String × Value), Writes (writeBindings bs)
  | [] => writes_pure
  | _ :: rest => (writes_write _).bind (writes_bindings rest)

theorem writes_trace (p : Position) : Writes (writeTrace p) :=
  (writes_write _).bind (writes_store fun s => writes_bindings s.bindings)

theorem writes_variable (x : String) : Writes (writeVariable x) :=
  writes_store fun _ => writes_write _

/-- Code that only writes does nothing to the variables. -/
theorem sameEffect_skip {r : Run Unit} (h : Writes r) {d : Directive}
    (hd : ∀ m, evalStep outcome (.directive d) m = (r m).andThen fun _ m => .value none m) :
    SameEffect .variables (.directive d) .skip := by
  rintro m m' ⟨hstore, hm, hm'⟩
  obtain ⟨sink, hr, hsink⟩ := h m hm
  rw [outcome_eq (.directive d), outcome_eq .skip, hd, hr]
  exact .value trivial ⟨hstore, hsink, hm'⟩

/-! ### One construct after the other -/

/-- Conditions correspond to their normal forms. -/
theorem sameCondition_normalize {c : Code} (hc : c.WellSorted .numbered .boolean) :
    SameCondition .variables c c.normalize := by
  rintro m m' hm
  have hyields := (yields_meaning hc (by decide) m).evalTruth .condition
  have hyields' :=
    (yields_meaning (canonical_normalize hc).wellSorted (by decide) m').evalTruth .condition
  rw [hyields, hyields', ← hm.1]
  rcases sameTruth_normalize hc rfl m.store with ⟨b, h, h'⟩ | ⟨⟨found, h⟩, ⟨found', h'⟩⟩
  · rw [h, h']
    exact .value rfl hm
  · rw [h, h']
    exact .error ⟨⟨found, rfl⟩, ⟨found', rfl⟩⟩ hm

theorem outcome_assign {V : Vocabulary} {e : Code} (he : e.WellSorted V .arithmetic) (x : String)
    (m : Machine) :
    outcome (.assign x e) m =
      (Run.ofExcept (e.meaning m.store) m).andThen fun v m =>
        .value none ⟨m.store.insert x v, m.sink⟩ := by
  rw [outcome_eq]
  change (evalValue outcome (.assignment x) e m).andThen _ = _
  rw [(yields_meaning he (by decide) m).evalValue]
  cases e.meaning m.store <;> rfl

/-- Assignments of arithmetic do the same to the same variables. -/
theorem sameEffect_assign {V : Vocabulary} {e : Code} (he : e.WellSorted V .arithmetic)
    (x : String) : SameEffect .variables (.assign x e) (.assign x e) := by
  intro m m' hm
  rw [outcome_assign he, outcome_assign he, ← hm.1]
  rcases meaning_arithmetic he rfl m.store with ⟨v, h⟩ | ⟨found, h⟩
  · rw [h]
    exact .value trivial ⟨congrArg (·.insert x v) hm.1, hm.2⟩
  · rw [h]
    exact .error ⟨⟨found, rfl⟩, ⟨found, rfl⟩⟩ hm

/-- An alternative that does nothing may be left out. -/
theorem outcome_ifElse_skip (c a : Code) (m : Machine) :
    outcome (.ifElse c a .skip) m = outcome (.ifThen c a) m := by
  have hskip : ∀ m, evalEffect outcome .skip m = .value none m := by
    intro m
    change (outcome .skip m).andThen _ = _
    rw [outcome_eq]
    rfl
  rw [outcome_eq (.ifElse c a .skip), outcome_eq (.ifThen c a)]
  change (evalTruth outcome .condition c m).andThen _ = (evalTruth outcome .condition c m).andThen _
  congr 1
  funext b m
  cases b with
  | true => rfl
  | false => exact hskip m

theorem outcome_branching (c a b : Code) (m : Machine) :
    outcome (branching c a b) m = outcome (.ifElse c a b) m := by
  by_cases hskip : b = .skip
  · rw [hskip, outcome_ifElse_skip, branching]
  · rw [branching]
    exact hskip

theorem evalItems_singleton (a : Code) (v : Option Value) (m : Machine) :
    evalItems outcome [a] v m = outcome a m := by
  change (outcome a m).andThen (fun v m => .value v m) = outcome a m
  cases outcome a m <;> rfl

/-- Items run one after the other like the suites of two that they become. -/
theorem corresponds_items {L : Likeness} : ∀ {items : List Code},
    (∀ a ∈ items, SameEffect L a a.normalize) → ∀ (v : Option Value) (m m' : Machine),
      L.machine m m' → Corresponds L (fun _ _ => True) (evalItems outcome items v m)
        (outcome (normalizeItems items) m')
  | [], _, v, m, m', hm => by
    rw [normalizeItems, outcome_eq .skip]
    exact .value trivial hm
  | [a], h, v, m, m', hm => by
    rw [normalizeItems, evalItems_singleton]
    exact h a List.mem_cons_self m m' hm
  | a :: b :: rest, h, v, m, m', hm => by
    have hrest := corresponds_items fun c hc => h c (List.mem_cons_of_mem a hc)
    rw [normalizeItems, outcome_eq (.suite _)]
    refine (h a List.mem_cons_self m m' hm).andThen ?_
    intro v₁ v₁' m₁ m₁' _ _ hm₁
    rw [evalItems_singleton]
    exact hrest v₁ m₁ m₁' hm₁

/-- Statements do the same to the variables as their normal forms. -/
theorem sameEffect_normalize {cat : Category} {t : Code} (ht : t.WellSorted .numbered cat)
    (hcat : cat = .statement) : SameEffect .variables t t.normalize := by
  induction ht with
  | skip =>
    intro m m' hm
    simp only [normalize, outcome_eq .skip]
    exact .value trivial hm
  | trace p =>
    simp only [normalize]
    exact sameEffect_skip (writes_trace p) fun _ => rfl
  | print x =>
    simp only [normalize]
    exact sameEffect_skip (writes_variable x) fun _ => rfl
  | help =>
    simp only [normalize]
    exact sameEffect_skip (writes_write helpText) fun _ => rfl
  | assign _ he =>
    simp only [normalize, normalize_arithmetic he]
    exact sameEffect_assign he _
  | loop hc _ _ iha =>
    intro m m' hm
    simp only [normalize]
    exact (corresponds_loop (sameCondition_normalize hc) (iha rfl) hm).mono fun _ _ _ => trivial
  | ifThen hc _ _ iha =>
    intro m m' hm
    simp only [normalize]
    exact (corresponds_ifThen (sameCondition_normalize hc) (iha rfl) hm).mono fun _ _ _ => trivial
  | ifElse hc _ _ _ iha ihb =>
    intro m m' hm
    rw [normalize, outcome_branching]
    exact (corresponds_ifElse (sameCondition_normalize hc) (iha rfl) (ihb rfl) hm).mono
      fun _ _ _ => trivial
  | suite _ ih =>
    intro m m' hm
    rw [normalize, outcome_eq (.suite _)]
    exact corresponds_items (fun a ha => ih a ha rfl) _ m m' hm
  -- arithmetic and booleans are no statements
  | _ => cases hcat

/-- A program and the one read back from its number do the same to the variables: from the same
variables both run for ever, or both come to an end with the same variables, or both stop with the
same variables for want of an integer. -/
theorem runs_alike_of_toNumber {t t' : Code} {n : Nat} (ht : t.WellSorted .any .statement)
    (hn : t.toNumber = .ok n) (ht' : ofNumber .statement n = .ok t') {m m' : Machine}
    (hstore : m.store = m'.store) (hm : m.sink.limit = none) (hm' : m'.sink.limit = none) :
    (t.Halts m ↔ t'.Halts m') ∧
      ∀ r r', t.Ends m r → t'.Ends m' r' →
        (∃ v v' m₁ m₁', r = .value v m₁ ∧ r' = .value v' m₁' ∧ m₁.store = m₁'.store) ∨
        (∃ found found' m₁ m₁', r = .error (.expectedInteger found) m₁ ∧
          r' = .error (.expectedInteger found') m₁' ∧ m₁.store = m₁'.store) := by
  have hnumbered := ht.numbered hn
  obtain rfl : t.normalize = t' := by
    rw [ofNumber_of_toNumber hnumbered hn, shallow] at ht'
    split at ht' <;> cases ht'
    rfl
  have halike := sameEffect_normalize hnumbered rfl m m' ⟨hstore, hm, hm'⟩
  refine ⟨?_, fun r r' hr hr' => ?_⟩
  · rw [halts_iff, halts_iff]
    exact not_congr halike.outOfFuel_iff
  · obtain ⟨hne, hr⟩ := ends_iff.mp hr
    obtain ⟨-, hr'⟩ := ends_iff.mp hr'
    rw [hr, hr'] at halike
    cases halike with
    | value _ hm₁ => exact .inl ⟨_, _, _, _, rfl, rfl, hm₁.1⟩
    | exit h _ => exact h.elim
    | error he hm₁ =>
      obtain ⟨⟨found, rfl⟩, ⟨found', rfl⟩⟩ := he
      exact .inr ⟨found, found', _, _, rfl, rfl, hm₁.1⟩
    | outOfFuel => exact absurd rfl hne

/-- Counting up to zero: the code read back has a negated `≤` for the `<` and shows no help, but
ends with the same variables. -/
theorem runs_alike_of_toNumber_loop :
    ∃ n t', (Code.loop (.binary (.compare .lt) (.var "x") (.int 0)) (.suite [.directive .help,
        .assign "x" (.binary (.arith .add) (.var "x") (.int 1))])).toNumber = .ok n ∧
      ofNumber .statement n = .ok t' ∧
      t'.Halts (.ofStore (.ofList [("x", .int (-1)), ("y", .bool true)]) none) ∧
      ∀ r', t'.Ends (.ofStore (.ofList [("x", .int (-1)), ("y", .bool true)]) none) r' →
        ∃ v m, r' = .value v m ∧ m.store = .ofList [("x", .int 0), ("y", .bool true)] := by
  have hc : WellSorted .any .boolean (.binary (.compare .lt) (.var "x") (.int 0)) :=
    .compare .lt (.var rfl) (.int rfl)
  have ha : WellSorted .any .statement
      (.suite [.directive .help, .assign "x" (.binary (.arith .add) (.var "x") (.int 1))]) :=
    .suite (by simpa using ⟨.help, .assign rfl (.arith (by decide) (.var rfl) (.int rfl))⟩)
  refine ⟨_, _, rfl, rfl, ?_⟩
  obtain ⟨hhalts, halike⟩ := runs_alike_of_toNumber (.loop hc ha) rfl rfl
    (m := .ofStore (.ofList [("x", .int (-1)), ("y", .bool true)]) none) rfl rfl rfl
  refine ⟨hhalts.mp ⟨8, nofun⟩, fun r' hr' => ?_⟩
  rcases halike (evalWithin 8 _ _) r' ⟨by nofun, 8, rfl⟩ hr' with
    ⟨v, v', m₁, m₁', hr, rfl, hstore⟩ | ⟨found, found', m₁, m₁', hr, rfl, hstore⟩
  · cases hr
    exact ⟨v', m₁', rfl, hstore.symm⟩
  · cases hr

end Code

end GodelWhile
