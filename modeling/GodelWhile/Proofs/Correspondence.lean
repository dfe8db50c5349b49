import Mathlib
import GodelWhile.Proofs.AllRuns

/-! # Corresponding runs

Two runs *correspond* if they end in the same way on machines that are alike, or both never end.
What counts as alike, for machines and for errors, is a parameter. Correspondence goes through
`andThen`, and so through all code but loops. Loops correspond as soon as their conditions and
bodies do: if one of them ends, it does after a number of rounds, and the other one keeps step; if
neither ends, there is nothing to show.

If machines that are alike have the same variables and take the same output, any code corresponds to
itself (`SameRun.refl`), and to code that differs from it in parts that correspond. -/

namespace GodelWhile

/-- What is not told apart in two runs. -/
structure Likeness where
  machine : Machine → Machine → Prop
  error : RunError → RunError → Prop
  /-- Whether both runs may exit. -/
  exit : Prop

/-- The same with the runs exchanged. -/
def Likeness.swap (L : Likeness) : Likeness :=
  ⟨Function.swap L.machine, Function.swap L.error, L.exit⟩

/-- Two endings correspond, with values in the relation `R`. -/
inductive Ending.Corresponds (L : Likeness) {α β : Type} (R : α → β → Prop) :
    Ending α → Ending β → Prop
  | value {a : α} {b : β} {m m' : Machine} (hab : R a b) (hm : L.machine m m') :
      Corresponds L R (.value a m) (.value b m')
  | exit {m m' : Machine} (h : L.exit) (hm : L.machine m m') : Corresponds L R (.exit m) (.exit m')
  | error {e e' : RunError} {m m' : Machine} (he : L.error e e') (hm : L.machine m m') :
      Corresponds L R (.error e m) (.error e' m')
  | outOfFuel : Corresponds L R .outOfFuel .outOfFuel

namespace Ending.Corresponds

variable {L : Likeness} {α β γ δ : Type} {R : α → β → Prop} {S : γ → δ → Prop}
  {r : Ending α} {r' : Ending β}

theorem swap (h : Corresponds L R r r') : Corresponds L.swap (Function.swap R) r' r := by
  cases h with
  | value hab hm => exact .value hab hm
  | exit h hm => exact .exit h hm
  | error he hm => exact .error he hm
  | outOfFuel => exact .outOfFuel

theorem mono {R' : α → β → Prop} (h : Corresponds L R r r') (hR : ∀ a b, R a b → R' a b) :
    Corresponds L R' r r' := by
  cases h with
  | value hab hm => exact .value (hR _ _ hab) hm
  | exit h hm => exact .exit h hm
  | error he hm => exact .error he hm
  | outOfFuel => exact .outOfFuel

/-- Runs that correspond so far and go on with runs that correspond do so on the whole. -/
theorem andThen {f : α → Machine → Ending γ} {f' : β → Machine → Ending δ}
    (h : Corresponds L R r r')
    (hf : ∀ a b m m', r = .value a m → R a b → L.machine m m' → Corresponds L S (f a m) (f' b m')) :
    Corresponds L S (r.andThen f) (r'.andThen f') := by
  cases h with
  | value hab hm => exact hf _ _ _ _ rfl hab hm
  | exit h hm => exact .exit h hm
  | error he hm => exact .error he hm
  | outOfFuel => exact .outOfFuel

/-- Runs that correspond to the same run correspond, if likeness to the same is likeness. -/
theorem join {r r' r₀ : Ending α}
    (hmachine : ∀ {m m' m₀}, L.machine m m₀ → L.machine m' m₀ → L.machine m m')
    (herror : ∀ {e e' e₀}, L.error e e₀ → L.error e' e₀ → L.error e e')
    (h : Corresponds L (· = ·) r r₀) (h' : Corresponds L (· = ·) r' r₀) :
    Corresponds L (· = ·) r r' := by
  cases h with
  | value hab hm =>
    cases h' with
    | value hab' hm' => exact .value (hab.trans hab'.symm) (hmachine hm hm')
  | exit hexit hm =>
    cases h' with
    | exit _ hm' => exact .exit hexit (hmachine hm hm')
  | error he hm =>
    cases h' with
    | error he' hm' => exact .error (herror he he') (hmachine hm hm')
  | outOfFuel =>
    cases h'
    exact .outOfFuel

theorem outOfFuel_iff (h : Corresponds L R r r') : r = .outOfFuel ↔ r' = .outOfFuel := by
  cases h <;> simp

end Ending.Corresponds

namespace Code

open Ending (Corresponds)

variable {L : Likeness} {c c' a a' : Code}

/-- Conditions that correspond: equal truth values on machines that are alike. -/
def SameCondition (L : Likeness) (c c' : Code) : Prop :=
  ∀ m m', L.machine m m' → Corresponds L (· = ·) (evalTruth outcome .condition c m)
    (evalTruth outcome .condition c' m')

/-- Code that corresponds whatever values it yields. -/
def SameEffect (L : Likeness) (a a' : Code) : Prop :=
  ∀ m m', L.machine m m' → Corresponds L (fun _ _ => True) (outcome a m) (outcome a' m')

theorem SameCondition.swap (h : SameCondition L c c') : SameCondition L.swap c' c :=
  fun m m' hm => (h m' m hm).swap.mono fun _ _ => Eq.symm

theorem SameEffect.swap (h : SameEffect L a a') : SameEffect L.swap a' a :=
  fun m m' hm => (h m' m hm).swap

/-- A loop that ends is kept step with. -/
theorem corresponds_loop_of_halts (hc : SameCondition L c c') (ha : SameEffect L a a')
    {m : Machine} (h : (Code.loop c a).Halts m) : ∀ m', L.machine m m' →
      Corresponds L (· = ·) (outcome (.loop c a) m) (outcome (.loop c' a') m') := by
  refine loop_induction (motive := fun m => ∀ m', L.machine m m' →
    Corresponds L (· = ·) (outcome (.loop c a) m) (outcome (.loop c' a') m')) ?_ h
  intro m ih m' hm
  rw [outcome_eq (.loop c a), outcome_eq (.loop c' a')]
  refine (hc m m' hm).andThen ?_
  rintro b _ m₁ m₁' hcond rfl hm₁
  cases b with
  | true =>
    refine (ha m₁ m₁' hm₁).andThen ?_
    intro v v' m₂ m₂' hbody _ hm₂
    exact ih m₁ v m₂ hcond hbody m₂' hm₂
  | false => exact .value rfl hm₁

/-- Loops correspond if their conditions and bodies do. -/
theorem corresponds_loop (hc : SameCondition L c c') (ha : SameEffect L a a') {m m' : Machine}
    (hm : L.machine m m') :
    Corresponds L (· = ·) (outcome (.loop c a) m) (outcome (.loop c' a') m') := by
  by_cases h : (Code.loop c a).Halts m
  · exact corresponds_loop_of_halts hc ha h m' hm
  · by_cases h' : (Code.loop c' a').Halts m'
    · exact (corresponds_loop_of_halts hc.swap ha.swap h' m hm).swap.mono fun _ _ => Eq.symm
    · rw [halts_iff, not_not] at h h'
      rw [h, h']
      exact .outOfFuel

theorem corresponds_ifThen (hc : SameCondition L c c') (ha : SameEffect L a a') {m m' : Machine}
    (hm : L.machine m m') :
    Corresponds L (· = ·) (outcome (.ifThen c a) m) (outcome (.ifThen c' a') m') := by
  rw [outcome_eq (.ifThen c a), outcome_eq (.ifThen c' a')]
  refine (hc m m' hm).andThen ?_
  rintro b _ m₁ m₁' - rfl hm₁
  cases b with
  | true => exact (ha m₁ m₁' hm₁).andThen fun _ _ _ _ _ _ hm₂ => .value rfl hm₂
  | false => exact .value rfl hm₁

theorem corresponds_ifElse {b b' : Code} (hc : SameCondition L c c') (ha : SameEffect L a a')
    (hb : SameEffect L b b') {m m' : Machine} (hm : L.machine m m') :
    Corresponds L (· = ·) (outcome (.ifElse c a b) m) (outcome (.ifElse c' a' b') m') := by
  rw [outcome_eq (.ifElse c a b), outcome_eq (.ifElse c' a' b')]
  refine (hc m m' hm).andThen ?_
  rintro t _ m₁ m₁' - rfl hm₁
  cases t with
  | true => exact (ha m₁ m₁' hm₁).andThen fun _ _ _ _ _ _ hm₂ => .value rfl hm₂
  | false => exact (hb m₁ m₁' hm₁).andThen fun _ _ _ _ _ _ hm₂ => .value rfl hm₂

end Code

/-! ### Machines that go in step -/

/-- Runs that correspond, with equal values, from all machines that are alike. -/
def Run.Corresponds (L : Likeness) {α : Type} (r r' : Run α) : Prop :=
  ∀ m m', L.machine m m' → Ending.Corresponds L (· = ·) (r m) (r' m')

/-- Machines that are alike have the same variables, can have them set to the same, and can write the
same. -/
structure Likeness.Lockstep (L : Likeness) : Prop where
  store : ∀ {m m'}, L.machine m m' → m.store = m'.store
  update : ∀ {m m'}, L.machine m m' → ∀ s, L.machine ⟨s, m.sink⟩ ⟨s, m'.sink⟩
  write : ∀ text, Run.Corresponds L (Run.write text) (Run.write text)
  error : ∀ e, L.error e e
  exit : L.exit

namespace Run.Corresponds

variable {L : Likeness} {α β : Type}

theorem pure (a : α) : Run.Corresponds L (Pure.pure a : Run α) (Pure.pure a) :=
  fun _ _ hm => .value rfl hm

theorem bind {r r' : Run α} {f f' : α → Run β} (h : Run.Corresponds L r r')
    (hf : ∀ a, Run.Corresponds L (f a) (f' a)) :
    Run.Corresponds L (r >>= f) (r' >>= f') := by
  intro m m' hm
  refine (h m m' hm).andThen ?_
  rintro a _ m₁ m₁' - rfl hm₁
  exact hf a m₁ m₁' hm₁

variable (hL : L.Lockstep)

include hL

theorem fail (e : RunError) : Run.Corresponds L (Run.fail e : Run α) (Run.fail e) :=
  fun _ _ hm => .error (hL.error e) hm

theorem ofExcept (x : Except RunError α) :
    Run.Corresponds L (Run.ofExcept x) (Run.ofExcept x) := by
  cases x with
  | ok a => exact pure a
  | error e => exact fail hL e

theorem ofNumbering (x : Except NumberingError α) :
    Run.Corresponds L (Run.ofNumbering x) (Run.ofNumbering x) := by
  cases x with
  | ok a => exact pure a
  | error e => exact fail hL _

theorem withStore {f f' : Store → Run α} (h : ∀ s, Run.Corresponds L (f s) (f' s)) :
    Run.Corresponds L (Run.store >>= f) (Run.store >>= f') := by
  intro m m' hm
  change Ending.Corresponds L (· = ·) (f m.store m) (f' m'.store m')
  rw [← hL.store hm]
  exact h m.store m m' hm

theorem insert (x : String) (v : Value) :
    Run.Corresponds L (Run.insert x v) (Run.insert x v) := by
  intro m m' hm
  refine .value rfl ?_
  rw [← hL.store hm]
  exact hL.update hm (m.store.insert x v)

theorem reset : Run.Corresponds L Run.reset Run.reset :=
  fun _ _ hm => .value rfl (hL.update hm .empty)

end Run.Corresponds

namespace Code

/-- The headline that a trace writes above the variables. -/
def traceHeadline (line : Nat) : String := s!"-=-=-=- Trace on line {line} -=-=-=-\n"

theorem evalItems_congr {L : Likeness} {sub : Code → Run (Option Value)} {items items' : List Code}
    (h : List.Forall₂ (fun a a' => Run.Corresponds L (sub a) (sub a')) items items')
    (v : Option Value) :
    Run.Corresponds L (evalItems sub items v) (evalItems sub items' v) := by
  induction h generalizing v with
  | nil => exact .pure v
  | cons ha _ ih => exact ha.bind ih

section Congruence

variable {L : Likeness} (hL : L.Lockstep) {sub : Code → Run (Option Value)}
  {c c' e e' l l' r r' a a' b b' : Code}

include hL

theorem evalValue_congr (he : Run.Corresponds L (sub e) (sub e')) (need : Need) :
    Run.Corresponds L (evalValue sub need e) (evalValue sub need e') := by
  refine he.bind ?_
  intro v
  cases v with
  | some v => exact .pure v
  | none => exact .fail hL _

theorem evalTruth_congr (he : Run.Corresponds L (sub e) (sub e')) (need : Need) :
    Run.Corresponds L (evalTruth sub need e) (evalTruth sub need e') :=
  (evalValue_congr hL he need).bind fun v => .ofExcept hL v.asBool

theorem evalDecoded_congr (cat : Category) (he : Run.Corresponds L (sub e) (sub e')) :
    Run.Corresponds L (evalDecoded sub cat e) (evalDecoded sub cat e') := by
  refine (evalValue_congr hL he .number).bind ?_
  intro v
  refine (Run.Corresponds.ofExcept hL v.asInt).bind ?_
  intro n
  split
  · exact .fail hL _
  · exact .ofNumbering hL _

theorem evalBinary_congr (o : Operator) (hl : Run.Corresponds L (sub l) (sub l'))
    (hr : Run.Corresponds L (sub r) (sub r')) :
    Run.Corresponds L (evalBinary sub o l r) (evalBinary sub o l' r') := by
  have values := evalValue_congr hL hl (.operand o.symbol)
  have values' := evalValue_congr hL hr (.operand o.symbol)
  have truths := evalTruth_congr hL hl (.operand o.symbol)
  have truths' := evalTruth_congr hL hr (.operand o.symbol)
  cases o with
  | arith | compare => exact values.bind fun v => values'.bind fun w => .ofExcept hL _
  | eq => exact values.bind fun v => values'.bind fun w => .pure _
  | and =>
    refine truths.bind ?_
    intro t
    cases t with
    | true => exact truths'.bind fun _ => .pure _
    | false => exact .pure _
  | or =>
    refine truths.bind ?_
    intro t
    cases t with
    | true => exact .pure _
    | false => exact truths'.bind fun _ => .pure _

theorem evalStep_not (he : Run.Corresponds L (sub e) (sub e')) :
    Run.Corresponds L (evalStep sub (.not e)) (evalStep sub (.not e')) :=
  (evalTruth_congr hL he _).bind fun _ => .pure _

theorem evalStep_binary (o : Operator) (hl : Run.Corresponds L (sub l) (sub l'))
    (hr : Run.Corresponds L (sub r) (sub r')) :
    Run.Corresponds L (evalStep sub (.binary o l r)) (evalStep sub (.binary o l' r')) :=
  (evalBinary_congr hL o hl hr).bind fun v => .pure (some v)

theorem evalStep_assign (x : String) (he : Run.Corresponds L (sub e) (sub e')) :
    Run.Corresponds L (evalStep sub (.assign x e)) (evalStep sub (.assign x e')) :=
  (evalValue_congr hL he _).bind fun v => (Run.Corresponds.insert hL x v).bind fun _ => .pure none

theorem evalStep_ifThen (hc : Run.Corresponds L (sub c) (sub c'))
    (ha : Run.Corresponds L (sub a) (sub a')) :
    Run.Corresponds L (evalStep sub (.ifThen c a)) (evalStep sub (.ifThen c' a')) := by
  refine (evalTruth_congr hL hc .condition).bind ?_
  intro t
  cases t with
  | true => exact ha.bind fun _ => .pure none
  | false => exact .pure none

theorem evalStep_ifElse (hc : Run.Corresponds L (sub c) (sub c'))
    (ha : Run.Corresponds L (sub a) (sub a'))
    (hb : Run.Corresponds L (sub b) (sub b')) :
    Run.Corresponds L (evalStep sub (.ifElse c a b)) (evalStep sub (.ifElse c' a' b')) := by
  refine (evalTruth_congr hL hc .condition).bind ?_
  intro t
  cases t with
  | true => exact ha.bind fun _ => .pure none
  | false => exact hb.bind fun _ => .pure none

theorem evalStep_decode (cat : Category) (he : Run.Corresponds L (sub e) (sub e')) :
    Run.Corresponds L (evalStep sub (.decode cat e)) (evalStep sub (.decode cat e')) :=
  (evalDecoded_congr hL cat he).bind fun _ => .pure _

theorem evalStep_run (cat : Category) (he : Run.Corresponds L (sub e) (sub e'))
    (hsub : ∀ c, Run.Corresponds L (sub c) (sub c)) :
    Run.Corresponds L (evalStep sub (.run cat e)) (evalStep sub (.run cat e')) :=
  (evalDecoded_congr hL cat he).bind hsub

theorem writeBindings_congr : ∀ bs : List (String × Value),
    Run.Corresponds L (writeBindings bs) (writeBindings bs)
  | [] => .pure ()
  | _ :: rest => (hL.write _).bind fun _ => writeBindings_congr rest

/-- Traces correspond if their headlines do. -/
theorem evalStep_trace {p q : Position}
    (h : Run.Corresponds L (Run.write (traceHeadline p.line))
      (Run.write (traceHeadline q.line))) :
    Run.Corresponds L (evalStep sub (.directive (.trace p)))
      (evalStep sub (.directive (.trace q))) :=
  (h.bind fun _ => .withStore hL fun s => writeBindings_congr hL s.bindings).bind fun _ => .pure none

end Congruence

end Code

/-! ### The same code on machines that are alike -/

/-- A run that goes alike from machines that are alike and yields the same value, in `S`. -/
def Run.Alike (L : Likeness) {α : Type} (S : α → Prop) (r : Run α) : Prop :=
  ∀ m m', L.machine m m' → Ending.Corresponds L (fun a a' => a = a' ∧ S a) (r m) (r m')

namespace Run.Alike

variable {L : Likeness} {α β : Type} {S : α → Prop} {T : β → Prop}

theorem pure {a : α} (ha : S a) : Run.Alike L S (Pure.pure a) := fun _ _ hm => .value ⟨rfl, ha⟩ hm

theorem bind {r : Run α} {f : α → Run β} (h : Run.Alike L S r)
    (hf : ∀ a, S a → Run.Alike L T (f a)) : Run.Alike L T (r >>= f) := by
  intro m m' hm
  refine (h m m' hm).andThen ?_
  rintro a _ m₁ m₁' - ⟨rfl, ha⟩ hm₁
  exact hf a ha m₁ m₁' hm₁

theorem of_corresponds {r : Run α} (h : Run.Corresponds L r r) (hS : ∀ a, S a) : Run.Alike L S r :=
  fun m m' hm => (h m m' hm).mono fun a _ hab => ⟨hab, hS a⟩

end Run.Alike

/-- Machines that go in step do so in all runs. -/
theorem Likeness.Lockstep.closed {L : Likeness} (hL : L.Lockstep) :
    Run.Closed (fun _ => True) (fun _ => True) (Run.Alike L) where
  pure := .pure
  bind := .bind
  fail e := fun _ _ hm => .error (hL.error e) hm
  exit _ _ hm := .exit hL.exit hm
  read x := .of_corresponds (.withStore hL fun s => .pure (s.get x)) Value.builtFrom_true
  insert _ _ := .of_corresponds (.insert hL _ _) fun _ => trivial
  reset _ := .of_corresponds (.reset hL) fun _ => trivial
  write _ text := .of_corresponds (hL.write text) fun _ => trivial
  store _ := .of_corresponds (.withStore hL fun s => .pure s) fun _ => trivial
  held _ _ := fun _ _ => trivial
  decoded _ _ := fun _ _ => trivial
  run _ _ := fun _ _ => trivial

namespace Code

/-- Runs that go alike within any number of calls have outcomes that correspond. -/
theorem corresponds_outcome {L : Likeness} {c : Code} {S : Option Value → Prop}
    (h : ∀ k, Run.Alike L S (evalWithin k c)) : Run.Corresponds L (outcome c) (outcome c) := by
  intro m m' hm
  obtain ⟨k, hk, hk'⟩ := ((eventually_evalWithin c m).and (eventually_evalWithin c m')).exists
  rw [← hk, ← hk']
  exact (h k m m' hm).mono fun _ _ => And.left

/-- Code that runs alike, with the same values. -/
def SameRun (L : Likeness) (c c' : Code) : Prop :=
  Run.Corresponds L (outcome c) (outcome c')

namespace SameRun

variable {L : Likeness} {c c' : Code}

theorem of_step (h : Run.Corresponds L (evalStep outcome c) (evalStep outcome c')) :
    SameRun L c c' := by
  intro m m' hm
  rw [outcome_eq c, outcome_eq c']
  exact h m m' hm

/-- The same code runs alike on machines that are alike. -/
theorem refl (hL : L.Lockstep) (c : Code) : SameRun L c c :=
  corresponds_outcome fun k =>
    hL.closed.evalWithin (fun _ _ _ => .outOfFuel) k fun _ _ => trivial

theorem sameEffect (h : SameRun L c c') : SameEffect L c c' :=
  fun m m' hm => (h m m' hm).mono fun _ _ _ => trivial

theorem loop (hL : L.Lockstep) {a a' : Code} (hc : SameRun L c c') (ha : SameRun L a a') :
    SameRun L (.loop c a) (.loop c' a') :=
  fun _ _ hm => corresponds_loop (evalTruth_congr hL hc .condition) ha.sameEffect hm

end SameRun

end Code

end GodelWhile
