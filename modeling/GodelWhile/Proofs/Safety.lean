import Mathlib
import GodelWhile.Proofs.NormalRuns

/-! # Decoded code is safe to run

A program may compute any number and run the code that it stands for. Whatever the number, that code
writes nothing, does not end the program, touches no variable but the numbered ones, and can fail in
one way only, for want of an integer. If the numbered variables hold integers, it does not fail at
all, and they hold integers afterwards.

Decoded code need not end, and a run that is out of fuel leaves no machine to look at. So what it
leaves alone is stated of every moment of its run: `evalUntil` cuts a run short where it calls for
some piece of code, and hands over the machine as it is there. A run that ends is one that is never
cut short (`evalWithin_refines_evalUntil`).

For how a run ends, the categories play the part of types: arithmetic yields integers, booleans yield
booleans, statements yield nothing. A store is well-typed if the numbered variables hold integers.
Expressions have a value by recursion (`meaning_integers`); for statements the typing is carried
through sequences by `Safe.andThen` and through loops by induction on their rounds. -/

namespace GodelWhile

open GodelWhile.Numbering

/-! ### Every moment of a run -/

/-- What decoded code leaves as it was: the output and the variables without numbers. -/
structure Machine.Keeps (m m' : Machine) : Prop where
  sink : m'.sink = m.sink
  other : ∀ x ∉ numberedNames, m'.store.get? x = m.store.get? x

namespace Machine.Keeps

variable {m m₁ m₂ : Machine}

theorem refl (m : Machine) : m.Keeps m := ⟨rfl, fun _ _ => rfl⟩

theorem trans (h : m.Keeps m₁) (h' : m₁.Keeps m₂) : m.Keeps m₂ where
  sink := h'.sink.trans h.sink
  other x hx := (h'.other x hx).trans (h.other x hx)

theorem insert {x : String} (hx : x ∈ numberedNames) (v : Value) :
    m.Keeps ⟨m.store.insert x v, m.sink⟩ where
  sink := rfl
  other y hy := by
    have hne : x ≠ y := by
      rintro rfl
      exact hy hx
    rw [Store.get?_insert, if_neg hne]

end Machine.Keeps

/-- The same ending, but with `sink` as the output that is left. -/
def Ending.withSink {α : Type} (sink : Sink) : Ending α → Ending α
  | .value a m => .value a ⟨m.store, sink⟩
  | .exit m => .exit ⟨m.store, sink⟩
  | .error e m => .error e ⟨m.store, sink⟩
  | .outOfFuel => .outOfFuel

/-- Canonical code of some category. -/
def Code.IsCanonical (c : Code) : Prop := ∃ cat, c.Canonical cat

namespace Code.IsCanonical

variable {x : String} {cat : Category} {d : Directive} {e : Code}

theorem mem_of_assign (h : (Code.assign x e).IsCanonical) : x ∈ numberedNames := by
  obtain ⟨_, h⟩ := h
  cases h with
  | assign hx => exact hx

theorem not_directive : ¬(Code.directive d).IsCanonical := by
  rintro ⟨_, ⟨⟩⟩

theorem not_decode : ¬(Code.decode cat e).IsCanonical := by
  rintro ⟨_, ⟨⟩⟩

theorem not_run : ¬(Code.run cat e).IsCanonical := by
  rintro ⟨_, ⟨⟩⟩

end Code.IsCanonical

theorem Code.Canonical.builtFrom_isCanonical {cat : Category} {c : Code} (hc : c.Canonical cat) :
    c.BuiltFrom IsCanonical :=
  hc.builtFrom fun hd => ⟨_, hd⟩

open Code.IsCanonical in
/-- All that canonical code does keeps the output and the variables without numbers. Variables may
hold code of any kind, which canonical code has no means to run. -/
theorem Run.closed_keeps : Run.Closed Code.IsCanonical (fun _ => True) fun S r =>
    ∀ m, r m ≠ .outOfFuel ∧ (r m).Satisfies S m.Keeps where
  pure ha m := ⟨by simp, ha, .refl m⟩
  bind := by
    intro α β S T r f hr hf m
    obtain ⟨hne, hm⟩ := hr m
    rw [Run.bind_apply]
    cases hrm : r m with
    | value a m₁ =>
      rw [hrm] at hm
      obtain ⟨hne', hm'⟩ := hf a hm.1 m₁
      exact ⟨hne', hm'.mono fun _ => hm.2.trans⟩
    | exit m₁ | error e m₁ =>
      rw [hrm] at hm
      exact ⟨by simp, hm⟩
    | outOfFuel => exact absurd hrm hne
  fail _ m := ⟨by simp [Run.fail], .refl m⟩
  exit m := ⟨by simp [Run.exit], .refl m⟩
  read _ m := ⟨by simp [Run.read, Run.store], Value.builtFrom_true _, .refl m⟩
  insert hx _ m := ⟨by simp [Run.insert], trivial, .insert (mem_of_assign hx) _⟩
  reset h := absurd h not_directive
  write h := absurd h not_directive
  store h := absurd h not_directive
  held h := absurd h not_directive
  decoded h := absurd h not_decode
  run h := absurd h not_run

open Code.IsCanonical in
/-- Nothing that canonical code does depends on the output. -/
theorem Run.closed_withSink : Run.Closed Code.IsCanonical (fun _ => True) fun S r => ∀ m : Machine,
    (r m).Satisfies S (fun _ => True) ∧ ∀ sink, r ⟨m.store, sink⟩ = (r m).withSink sink where
  pure ha _ := ⟨⟨ha, trivial⟩, fun _ => rfl⟩
  bind := by
    intro α β S T r f hr hf m
    obtain ⟨hS, hsink⟩ := hr m
    refine ⟨hS.andThen (fun _ => id) fun a m₁ ha _ => (hf a ha m₁).1, fun sink => ?_⟩
    rw [Run.bind_apply, Run.bind_apply, hsink]
    cases hrm : r m with
    | value a m₁ =>
      rw [hrm] at hS
      exact (hf a hS.1 m₁).2 sink
    | _ => rfl
  fail _ _ := ⟨trivial, fun _ => rfl⟩
  exit _ := ⟨trivial, fun _ => rfl⟩
  read _ _ := ⟨⟨Value.builtFrom_true _, trivial⟩, fun _ => rfl⟩
  insert _ _ _ := ⟨⟨trivial, trivial⟩, fun _ => rfl⟩
  reset h := absurd h not_directive
  write h := absurd h not_directive
  store h := absurd h not_directive
  held h := absurd h not_directive
  decoded h := absurd h not_decode
  run h := absurd h not_run

namespace Code

/-- Runs code up to the first call that `stop` picks out, by the code and the machine, and not beyond
calls nested `k` deep. There the run exits, with the machine as it is at this moment. -/
def evalUntil (stop : Code → Machine → Bool) : Nat → Code → Machine → Ending (Option Value)
  | 0, _, m => .exit m
  | k + 1, c, m => if stop c m then .exit m else evalStep (evalUntil stop k) c m

/-- A run that ends within calls nested `k` deep is not cut short there. -/
theorem evalWithin_refines_evalUntil (k : Nat) (c : Code) (m : Machine) :
    (evalWithin k c m).Refines (evalUntil (fun _ _ => false) k c m) := by
  induction k generalizing c m with
  | zero => exact .inl rfl
  | succ k ih =>
    exact evalStep_compositional Ending.Refines.compositional
      (fun b => bif b then evalUntil (fun _ _ => false) k else evalWithin k) ih c m

/-- At every moment, canonical code has kept the output and the variables without numbers. -/
theorem evalUntil_keeps (stop : Code → Machine → Bool) (k : Nat) {c : Code}
    (hc : c.BuiltFrom IsCanonical) (m : Machine) :
    evalUntil stop k c m ≠ .outOfFuel ∧
      (evalUntil stop k c m).Satisfies (Value.OptionBuiltFrom fun _ => True) m.Keeps := by
  induction k generalizing c m with
  | zero => exact Run.closed_keeps.exit m
  | succ k ih =>
    rw [evalUntil]
    split
    · exact Run.closed_keeps.exit m
    · exact Run.closed_keeps.evalStep (fun _ => ih) hc m

/-- So it has at the end of a run that ends, which is never cut short. -/
theorem keeps_of_ends {c : Code} (hc : c.BuiltFrom IsCanonical) {m m' : Machine}
    {r : Ending (Option Value)} (hr : c.Ends m r) (hm' : r.machine? = some m') : m.Keeps m' := by
  obtain ⟨hne, k, rfl⟩ := hr
  rw [(evalWithin_refines_evalUntil k c m).eq hne] at hm'
  exact (evalUntil_keeps _ k hc m).2.machine hm'

/-- However far it is run, canonical code does the same whatever has been written before. -/
theorem evalWithin_withSink (k : Nat) {c : Code} (hc : c.BuiltFrom IsCanonical) (m : Machine)
    (sink : Sink) : evalWithin k c ⟨m.store, sink⟩ = (evalWithin k c m).withSink sink :=
  (Run.closed_withSink.evalWithin (fun _ => ⟨trivial, fun _ => rfl⟩) k hc m).2 sink

end Code

/-! ### Endings -/

/-- The variables that have numbers are unset or hold integers. -/
def Store.HoldsIntegers (s : Store) : Prop :=
  ∀ x ∈ numberedNames, ∀ v, s.get? x = some v → ∃ n, v = .int n

theorem Store.HoldsIntegers.insert {s : Store} (hs : s.HoldsIntegers) (x : String) (n : Int) :
    (s.insert x (.int n)).HoldsIntegers := by
  intro y hy w hw
  rw [Store.get?_insert] at hw
  split at hw
  · cases hw
    exact ⟨n, rfl⟩
  · exact hs y hy w hw

/-- What code of a category yields when nothing goes wrong. -/
inductive Category.IsResult : Category → Option Value → Prop
  | int (n : Int) : IsResult .arithmetic (some (.int n))
  | bool (b : Bool) : IsResult .boolean (some (.bool b))
  | none : IsResult .statement none

/-- The ways in which a run of decoded code from `m` may end, if it ends: with a value in `S`, and
with integers where there were integers; or, unless the numbered variables held integers, for want of
one. -/
inductive Ending.Safe (m : Machine) {α : Type} (S : α → Prop) : Ending α → Prop
  | value {a : α} {m' : Machine} (hm : m.store.HoldsIntegers → m'.store.HoldsIntegers) (ha : S a) :
      Safe m S (.value a m')
  | error {found : ValueType} {m' : Machine} (h : ¬m.store.HoldsIntegers) :
      Safe m S (.error (.expectedInteger found) m')
  | outOfFuel : Safe m S .outOfFuel

/-- A safe run that goes on with a safe run is safe on the whole. -/
theorem Ending.Safe.andThen {m : Machine} {α β : Type} {S : α → Prop} {T : β → Prop} {r : Ending α}
    {f : α → Machine → Ending β} (h : r.Safe m S)
    (hf : ∀ a m', r = .value a m' → S a → (f a m').Safe m' T) : (r.andThen f).Safe m T := by
  cases h with
  | @value a m₁ hm ha =>
    have hrest := hf a m₁ rfl ha
    change (f a m₁).Safe m T
    generalize f a m₁ = rest at hrest ⊢
    cases hrest with
    | value hm' hb => exact .value (fun hints => hm' (hm hints)) hb
    | error hlack => exact .error fun hints => hlack (hm hints)
    | outOfFuel => exact .outOfFuel
  | error hlack => exact .error hlack
  | outOfFuel => exact .outOfFuel

namespace Code

/-! ### Expressions -/

theorem get_integer {s : Store} (hs : s.HoldsIntegers) {x : String} (hx : x ∈ numberedNames) :
    ∃ n, s.get x = .int n := by
  rw [Store.get]
  cases h : s.get? x with
  | none => exact ⟨0, rfl⟩
  | some v => exact hs x hx v h

/-- Where the numbered variables hold integers, expressions have a value of their category. -/
theorem meaning_integers {cat : Category} {e : Code} (he : e.Canonical cat)
    (hcat : cat ≠ .statement) {s : Store} (hs : s.HoldsIntegers) :
    ∃ v, e.meaning s = .ok v ∧ cat.IsResult (some v) := by
  induction he with
  | int n => exact ⟨.int n, by rw [meaning], .int n⟩
  | var hx =>
    obtain ⟨n, hn⟩ := get_integer hs hx
    exact ⟨.int n, by rw [meaning, hn], .int n⟩
  | bool b => exact ⟨.bool b, by rw [meaning], .bool b⟩
  | @arith o _ _ ho _ _ ihl ihr =>
    obtain ⟨_, hl, ⟨_⟩⟩ := ihl hcat
    obtain ⟨_, hr, ⟨_⟩⟩ := ihr hcat
    rw [meaning, hl, hr]
    cases o with
    | div => exact absurd rfl ho
    | _ => exact ⟨_, rfl, .int _⟩
  | eq _ _ ihl ihr | le _ _ ihl ihr =>
    obtain ⟨_, hl, ⟨_⟩⟩ := ihl (by decide)
    obtain ⟨_, hr, ⟨_⟩⟩ := ihr (by decide)
    rw [meaning, hl, hr]
    exact ⟨_, rfl, .bool _⟩
  | not _ ih =>
    obtain ⟨_, he, ⟨_⟩⟩ := ih hcat
    rw [meaning, he]
    exact ⟨_, rfl, .bool _⟩
  | and _ _ ihl ihr =>
    obtain ⟨_, hl, hresult⟩ := ihl hcat
    obtain ⟨_, hr, ⟨_⟩⟩ := ihr hcat
    rw [meaning, hl, hr]
    cases hresult with
    | bool a => cases a <;> exact ⟨_, rfl, .bool _⟩
  | _ => exact absurd rfl hcat

/-- Expressions have a value, or lack an integer. -/
theorem meaning_or_lacking {cat : Category} {e : Code} (he : e.Canonical cat)
    (hcat : cat ≠ .statement) (s : Store) :
    (∃ v, e.meaning s = .ok v) ∨ LacksInteger (e.meaning s) := by
  cases cat with
  | arithmetic => exact meaning_arithmetic he.wellSorted rfl s
  | boolean =>
    rcases sameTruth_normalize he.wellSorted rfl s with ⟨b, hb, -⟩ | ⟨hlack, -⟩
    · exact .inl ⟨.bool b, hb⟩
    · exact .inr hlack
  | statement => exact absurd rfl hcat

/-- An integer is lacking only where some numbered variable holds none. -/
theorem not_holdsIntegers {cat : Category} {e : Code} (he : e.Canonical cat)
    (hcat : cat ≠ .statement) {s : Store} (h : LacksInteger (e.meaning s)) : ¬s.HoldsIntegers := by
  intro hs
  obtain ⟨found, hfound⟩ := h
  obtain ⟨v, hv, -⟩ := meaning_integers he hcat hs
  rw [hfound] at hv
  cases hv

/-- Expressions leave the machine as it is and end. They yield a value, of their category if the
numbered variables hold integers; otherwise they may lack an integer. -/
theorem outcome_expression {cat : Category} {e : Code} (he : e.Canonical cat)
    (hcat : cat ≠ .statement) (m : Machine) :
    (∃ v, outcome e m = .value v m ∧ (m.store.HoldsIntegers → cat.IsResult v)) ∨
      ∃ found, outcome e m = .error (.expectedInteger found) m ∧ ¬m.store.HoldsIntegers := by
  have hyields : outcome e m = _ := yields_meaning he.wellSorted hcat m
  rcases meaning_or_lacking he hcat m.store with ⟨v, hv⟩ | ⟨found, hfound⟩
  · rw [hv] at hyields
    refine .inl ⟨some v, hyields, fun hs => ?_⟩
    obtain ⟨w, hw, hresult⟩ := meaning_integers he hcat hs
    rw [hv] at hw
    cases hw
    exact hresult
  · rw [hfound] at hyields
    exact .inr ⟨found, hyields, not_holdsIntegers he hcat ⟨found, hfound⟩⟩

/-! ### Statements -/

theorem safe_condition {c : Code} (hc : c.Canonical .boolean) (m : Machine) :
    (evalTruth outcome .condition c m).Safe m fun _ => True := by
  rw [(yields_meaning hc.wellSorted (by decide) m).evalTruth]
  rcases sameTruth_normalize hc.wellSorted rfl m.store with ⟨b, hb, -⟩ | ⟨hlack, -⟩
  · rw [hb]
    exact .value id trivial
  · have hnot := not_holdsIntegers hc (by decide) hlack
    obtain ⟨found, hfound⟩ := hlack
    rw [hfound]
    exact .error hnot

theorem safe_assign (x : String) {e : Code} (he : e.Canonical .arithmetic) (m : Machine) :
    (outcome (.assign x e) m).Safe m (· = none) := by
  rw [outcome_assign he.wellSorted]
  rcases meaning_or_lacking he (by decide) m.store with ⟨v, hv⟩ | hlack
  · rw [hv]
    refine .value (fun hs => ?_) rfl
    obtain ⟨w, hw, hresult⟩ := meaning_integers he (by decide) hs
    rw [hv] at hw
    cases hw
    cases hresult
    exact hs.insert x _
  · have hnot := not_holdsIntegers he (by decide) hlack
    obtain ⟨found, hfound⟩ := hlack
    rw [hfound]
    exact .error hnot

theorem safe_effect {a : Code} {m : Machine} (ha : (outcome a m).Safe m (· = none)) :
    (evalEffect outcome a m).Safe m (· = none) :=
  ha.andThen fun _ _ _ _ => .value id rfl

/-- A loop is safe if its body is: each round starts from what the rounds before have kept. -/
theorem safe_loop {c a : Code} (hc : c.Canonical .boolean)
    (ha : ∀ m, (outcome a m).Safe m (· = none)) (m : Machine) :
    (outcome (.loop c a) m).Safe m (· = none) := by
  by_cases h : (Code.loop c a).Halts m
  · refine loop_induction (motive := fun m => (outcome (.loop c a) m).Safe m (· = none)) ?_ h
    intro m ih
    rw [outcome_eq]
    refine (safe_condition hc m).andThen ?_
    intro b m₁ hcond _
    cases b with
    | true =>
      refine (ha m₁).andThen ?_
      intro v m₂ hbody _
      exact ih m₁ v m₂ hcond hbody
    | false => exact .value id rfl
  · rw [halts_iff, not_not] at h
    rw [h]
    exact .outOfFuel

theorem safe_statement {cat : Category} {t : Code} (ht : t.Canonical cat) (hcat : cat = .statement)
    (m : Machine) : (outcome t m).Safe m (· = none) := by
  induction ht generalizing m with
  | skip =>
    rw [outcome_eq]
    exact .value id rfl
  | assign _ he => exact safe_assign _ he m
  | loop hc _ _ iha => exact safe_loop hc (iha rfl) m
  | suite _ _ iha ihb =>
    rw [outcome_eq]
    refine (iha rfl m).andThen ?_
    intro v m₁ _ _
    rw [evalItems_singleton]
    exact ihb rfl m₁
  | ifThen hc _ _ iha =>
    rw [outcome_eq]
    refine (safe_condition hc m).andThen ?_
    intro b m₁ _ _
    cases b with
    | true => exact safe_effect (iha rfl m₁)
    | false => exact .value id rfl
  | ifElse hc _ _ _ _ iha ihb =>
    rw [outcome_eq]
    refine (safe_condition hc m).andThen ?_
    intro b m₁ _ _
    cases b with
    | true => exact safe_effect (iha rfl m₁)
    | false => exact safe_effect (ihb rfl m₁)
  -- arithmetic and booleans are no statements
  | _ => cases hcat

/-! ### All decoded code -/

theorem safe_outcome {cat : Category} {t : Code} (ht : t.Canonical cat) (m : Machine) :
    (outcome t m).Safe m fun v => m.store.HoldsIntegers → cat.IsResult v := by
  by_cases hcat : cat = .statement
  · have hsafe := safe_statement ht hcat m
    subst hcat
    generalize outcome t m = r at hsafe ⊢
    cases hsafe with
    | value hm hv =>
      subst hv
      exact .value hm fun _ => .none
    | error hlack => exact .error hlack
    | outOfFuel => exact .outOfFuel
  · rcases outcome_expression ht hcat m with ⟨v, hv, hresult⟩ | ⟨found, hfound, hlack⟩
    · rw [hv]
      exact .value id hresult
    · rw [hfound]
      exact .error hlack

/-- Code of any number runs safely from any variables. At every moment of its run, whether that ends
or not, it has written nothing and changed none but the numbered variables; nor does it depend on what
has been written before. If it ends, it does so by itself or for want of an integer. If the numbered
variables were unset or held integers, it does not fail, they are so afterwards, and its result is of
its category. Arithmetic and booleans always end and change nothing at all. -/
theorem runs_safely_of_ofNumber {cat : Category} {n : Nat} {t : Code} (h : ofNumber cat n = .ok t)
    (m : Machine) :
    (∀ stop k, ∃ m', (evalUntil stop k t m).machine? = some m' ∧ m'.sink = m.sink ∧
      ∀ x ∉ numberedNames, m'.store.get? x = m.store.get? x) ∧
    (∀ k sink, evalWithin k t ⟨m.store, sink⟩ = (evalWithin k t m).withSink sink) ∧
    (∀ r, t.Ends m r →
      ∃ m', ((∃ v, r = .value v m') ∨ ∃ found, r = .error (.expectedInteger found) m') ∧
        m'.sink = m.sink ∧ ∀ x ∉ numberedNames, m'.store.get? x = m.store.get? x) ∧
    (m.store.HoldsIntegers → ∀ r, t.Ends m r →
      ∃ v m', r = .value v m' ∧ cat.IsResult v ∧ m'.store.HoldsIntegers) ∧
    (cat ≠ .statement → t.Halts m ∧ ∀ r, t.Ends m r →
      (∃ v, r = .value v m) ∨ ∃ found, r = .error (.expectedInteger found) m) := by
  obtain ⟨ht, -, -⟩ := ofNumber_eq_ok_iff.mp h
  have hbuilt := ht.builtFrom_isCanonical
  have hsafe := safe_outcome ht m
  refine ⟨?_, fun k sink => evalWithin_withSink k hbuilt m sink, ?_, ?_, ?_⟩
  · intro stop k
    obtain ⟨hne, hkeeps⟩ := evalUntil_keeps stop k hbuilt m
    obtain ⟨m', hm'⟩ := Ending.exists_machine hne
    have hm := hkeeps.machine hm'
    exact ⟨m', hm', hm.sink, hm.other⟩
  · intro r hr
    obtain ⟨hne, hout⟩ := ends_iff.mp hr
    obtain ⟨m', hm'⟩ := Ending.exists_machine hne
    have hm := keeps_of_ends hbuilt hr hm'
    refine ⟨m', ?_, hm.sink, hm.other⟩
    rw [hout] at hsafe
    cases hsafe with
    | value =>
      cases hm'
      exact .inl ⟨_, rfl⟩
    | error =>
      cases hm'
      exact .inr ⟨_, rfl⟩
    | outOfFuel => exact absurd rfl hne
  · intro hs r hr
    obtain ⟨hne, hr⟩ := ends_iff.mp hr
    rw [hr] at hsafe
    cases hsafe with
    | value hm hresult => exact ⟨_, _, rfl, hresult hs, hm hs⟩
    | error hlack => exact absurd hs hlack
    | outOfFuel => exact absurd rfl hne
  · intro hcat
    have hends := outcome_expression ht hcat m
    refine ⟨?_, ?_⟩
    · rw [halts_iff]
      rcases hends with ⟨v, hv, -⟩ | ⟨found, hfound, -⟩
      · simp [hv]
      · simp [hfound]
    · intro r hr
      obtain ⟨-, rfl⟩ := ends_iff.mp hr
      rcases hends with ⟨v, hv, -⟩ | ⟨found, hfound, -⟩
      · exact .inl ⟨v, hv⟩
      · exact .inr ⟨found, hfound⟩

/-- The loop `while x <= 0 do x := x + 1` where `x` is unset and another variable holds code; and
`while true do x := 1`, which never ends: it has set `x` after a round, but never touches the other
variable. -/
theorem runs_safely_of_ofNumber_loop :
    let t := Code.loop (.binary (.compare .le) (.var "x") (.int 0))
      (.assign "x" (.binary (.arith .add) (.var "x") (.int 1)))
    let t' := Code.loop (.bool true) (.assign "x" (.int 1))
    let m := Machine.ofStore (.ofList [("q", .code t), ("y", .int 3)]) (some 0)
    (ofNumber .statement 879101 = .ok t ∧ m.store.HoldsIntegers ∧ t.Halts m ∧
      ∀ r, t.Ends m r →
        ∃ m', r = .value none m' ∧ m'.store.HoldsIntegers ∧ m'.store.get? "q" = some (.code t)) ∧
    ofNumber .statement 337 = .ok t' ∧ ¬t'.Halts m ∧
      (∃ m', (evalUntil (fun _ _ => false) 3 t' m).machine? = some m' ∧
        m'.store.get? "x" = some (.int 1)) ∧
      ∀ stop k, ∃ m', (evalUntil stop k t' m).machine? = some m' ∧ m'.sink = .empty (some 0) ∧
        m'.store.get? "q" = some (.code t) := by
  intro t t' m
  have hdecoded : ofNumber .statement 879101 = .ok t := by decide
  have hdecoded' : ofNumber .statement 337 = .ok t' := by decide
  have hints : m.store.HoldsIntegers := by
    intro x hx v hv
    simp only [numberedNames, List.mem_cons, List.not_mem_nil, or_false] at hx
    rcases hx with rfl | rfl | rfl <;> cases hv
    exact ⟨3, rfl⟩
  have hhalts : t.Halts m := by
    refine ⟨6, ?_⟩
    intro hfuel
    cases hfuel
  have hforever : ¬t'.Halts m := by
    refine loop_induction (motive := fun _ => False) fun m ih => ?_
    have hcondition : evalTruth outcome .condition (.bool true) m = .value true m := by
      rw [(yields_meaning (Canonical.bool true).wellSorted (by decide) m).evalTruth]
      rfl
    have hbody : outcome (.assign "x" (.int 1)) m = .value none _ :=
      outcome_assign (Canonical.int 1).wellSorted "x" m
    exact ih m none _ hcondition hbody
  obtain ⟨-, -, hends, hresult, -⟩ := runs_safely_of_ofNumber hdecoded m
  refine ⟨⟨hdecoded, hints, hhalts, fun r hr => ?_⟩, hdecoded', hforever, ⟨_, rfl, rfl⟩, ?_⟩
  · obtain ⟨v, m', rfl, ⟨⟩, hints'⟩ := hresult hints r hr
    obtain ⟨m'', hshape, -, hother⟩ := hends _ hr
    rcases hshape with ⟨v, hv⟩ | ⟨found, hfound⟩
    · cases hv
      exact ⟨m', rfl, hints', hother "q" (by decide)⟩
    · cases hfound
  · intro stop k
    obtain ⟨m', hm', hsink, hother⟩ := (runs_safely_of_ofNumber hdecoded' m).1 stop k
    exact ⟨m', hm', hsink, hother "q" (by decide)⟩

end Code

end GodelWhile
