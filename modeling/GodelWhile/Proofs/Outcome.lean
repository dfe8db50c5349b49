import Mathlib
import GodelWhile.Run.Eval

/-! # How a run ends

With more fuel a run that ends does so in the same way, so code and machine have one *outcome*: the
ending that enough fuel reaches, or `outOfFuel` if none does and the run never ends. The outcome
obeys the equations of the evaluator with the fuel left out (`outcome_eq`). Loops need one thing
more, an induction on their rounds (`loop_induction`), which only runs that end have.

Both monotonicity in the fuel and the passage to the limit are instances of one fact: the evaluator
puts runs together by constants and by `andThen` only, so a property of families of endings that
these keep carries over from the parts of code to the whole. -/

namespace GodelWhile

open Filter

/-! ### Properties that sequencing keeps -/

/-- A property of families of endings that constant families have and that `andThen` keeps. -/
structure Ending.Compositional {ι : Type} (P : ∀ {α : Type}, (ι → Ending α) → Prop) : Prop where
  const : ∀ {α : Type} (r : Ending α), P fun _ => r
  andThen : ∀ {α β : Type} {r : ι → Ending α} {f : ι → α → Machine → Ending β},
    P r → (∀ a m, P fun i => f i a m) → P fun i => (r i).andThen (f i)

namespace Code

section Compositional

variable {ι : Type} {P : ∀ {α : Type}, (ι → Ending α) → Prop} (hP : Ending.Compositional P)
  (sub : ι → Code → Run (Option Value)) (hsub : ∀ c m, P fun i => sub i c m)

include hP hsub

theorem evalValue_compositional (need : Need) (e : Code) (m : Machine) :
    P fun i => evalValue (sub i) need e m := by
  refine hP.andThen (hsub e m) ?_
  intro v m
  cases v <;> exact hP.const _

theorem evalTruth_compositional (need : Need) (e : Code) (m : Machine) :
    P fun i => evalTruth (sub i) need e m :=
  hP.andThen (evalValue_compositional hP sub hsub need e m) fun _ _ => hP.const _

theorem evalBinary_compositional (o : Operator) (l r : Code) (m : Machine) :
    P fun i => evalBinary (sub i) o l r m := by
  have value := evalValue_compositional hP sub hsub
  have truth := evalTruth_compositional hP sub hsub
  cases o with
  | arith | compare | eq =>
    refine hP.andThen (value _ l m) fun v m => ?_
    exact hP.andThen (value _ r m) fun _ _ => hP.const _
  | and =>
    refine hP.andThen (truth _ l m) fun b m => ?_
    cases b with
    | true => exact hP.andThen (truth _ r m) fun _ _ => hP.const _
    | false => exact hP.const _
  | or =>
    refine hP.andThen (truth _ l m) fun b m => ?_
    cases b with
    | true => exact hP.const _
    | false => exact hP.andThen (truth _ r m) fun _ _ => hP.const _

theorem evalItems_compositional (items : List Code) (v : Option Value) (m : Machine) :
    P fun i => evalItems (sub i) items v m := by
  induction items generalizing v m with
  | nil => exact hP.const _
  | cons a rest ih => exact hP.andThen (hsub a m) fun v m => ih v m

theorem evalDecoded_compositional (cat : Category) (e : Code) (m : Machine) :
    P fun i => evalDecoded (sub i) cat e m :=
  hP.andThen (evalValue_compositional hP sub hsub .number e m) fun _ _ => hP.const _

/-- What holds of the runs of the parts holds of the run of the whole. -/
theorem evalStep_compositional (c : Code) (m : Machine) : P fun i => evalStep (sub i) c m := by
  have value := evalValue_compositional hP sub hsub
  have truth := evalTruth_compositional hP sub hsub
  have effect : ∀ a m, P fun i => evalEffect (sub i) a m :=
    fun a m => hP.andThen (hsub a m) fun _ _ => hP.const _
  cases c with
  | int | bool | var | skip | number => exact hP.const _
  | not e => exact hP.andThen (truth _ e m) fun _ _ => hP.const _
  | binary o l r =>
    exact hP.andThen (evalBinary_compositional hP sub hsub o l r m) fun _ _ => hP.const _
  | assign x e => exact hP.andThen (value _ e m) fun _ _ => hP.const _
  | suite items => exact evalItems_compositional hP sub hsub items _ m
  | ifThen c a =>
    refine hP.andThen (truth _ c m) fun b m => ?_
    cases b with
    | true => exact effect a m
    | false => exact hP.const _
  | ifElse c a a' => exact hP.andThen (truth _ c m) fun _ m => effect _ m
  | loop c a =>
    refine hP.andThen (truth _ c m) fun b m => ?_
    cases b with
    | true => exact hP.andThen (hsub a m) fun _ m => hsub _ m
    | false => exact hP.const _
  | directive d =>
    cases d with
    | eval x => exact hP.andThen (hP.const _) fun c m => hsub c m
    | _ => exact hP.const _
  | decode cat e =>
    exact hP.andThen (evalDecoded_compositional hP sub hsub cat e m) fun _ _ => hP.const _
  | run cat e =>
    exact hP.andThen (evalDecoded_compositional hP sub hsub cat e m) fun c m => hsub c m

end Compositional

end Code

/-! ### More fuel -/

/-- The second ending is the first, unless that ran out of fuel. -/
def Ending.Refines {α : Type} (r r' : Ending α) : Prop := r = .outOfFuel ∨ r = r'

namespace Ending.Refines

variable {α : Type} {r r' : Ending α}

theorem eq (h : Refines r r') (hr : r ≠ .outOfFuel) : r = r' := h.resolve_left hr

theorem compositional :
    Compositional (fun {α} (r : Bool → Ending α) => Refines (r false) (r true)) where
  const _ := .inr rfl
  andThen := by
    intro α β r f hr hf
    change Refines ((r false).andThen (f false)) ((r true).andThen (f true))
    rcases hr with hr | hr
    · rw [hr]
      exact .inl rfl
    · rw [hr]
      cases r true with
      | value a m => exact hf a m
      | _ => exact .inr rfl

end Ending.Refines

namespace Code

/-- A run that ends does so the same way with more fuel. -/
theorem evalWithin_refines {k j : Nat} (h : k ≤ j) (c : Code) (m : Machine) :
    (evalWithin k c m).Refines (evalWithin j c m) := by
  induction k generalizing j c m with
  | zero => exact .inl rfl
  | succ k ih =>
    obtain ⟨j, rfl⟩ : ∃ i, j = i + 1 := ⟨j - 1, by omega⟩
    exact evalStep_compositional Ending.Refines.compositional
      (fun b => bif b then evalWithin j else evalWithin k) (ih (by omega)) c m

/-- The run ends. -/
def Halts (c : Code) (m : Machine) : Prop := ∃ k, evalWithin k c m ≠ .outOfFuel

/-- The run ends in the given way. -/
def Ends (c : Code) (m : Machine) (r : Ending (Option Value)) : Prop :=
  r ≠ .outOfFuel ∧ ∃ k, evalWithin k c m = r

/-! ### The outcome -/

open Classical in
/-- How the run ends with enough fuel; `outOfFuel` if it never ends. -/
noncomputable def outcome (c : Code) (m : Machine) : Ending (Option Value) :=
  if h : c.Halts m then evalWithin h.choose c m else .outOfFuel

/-- From some fuel on, a run ends with its outcome. -/
theorem eventually_evalWithin (c : Code) (m : Machine) :
    ∀ᶠ k in atTop, evalWithin k c m = outcome c m := by
  by_cases h : c.Halts m
  · rw [outcome, dif_pos h]
    filter_upwards [eventually_ge_atTop h.choose] with k hk
    exact ((evalWithin_refines hk c m).eq h.choose_spec).symm
  · rw [outcome, dif_neg h]
    simp only [Halts, not_exists, not_not] at h
    exact .of_forall h

theorem evalWithin_refines_outcome (k : Nat) (c : Code) (m : Machine) :
    (evalWithin k c m).Refines (outcome c m) := by
  obtain ⟨j, hj, hkj⟩ := ((eventually_evalWithin c m).and (eventually_ge_atTop k)).exists
  rw [← hj]
  exact evalWithin_refines hkj c m

theorem halts_iff {c : Code} {m : Machine} : c.Halts m ↔ outcome c m ≠ .outOfFuel := by
  constructor
  · rintro ⟨k, hk⟩
    rwa [← (evalWithin_refines_outcome k c m).eq hk]
  · intro h
    obtain ⟨k, hk⟩ := (eventually_evalWithin c m).exists
    exact ⟨k, by rwa [hk]⟩

theorem ends_iff {c : Code} {m : Machine} {r : Ending (Option Value)} :
    c.Ends m r ↔ r ≠ .outOfFuel ∧ outcome c m = r := by
  refine and_congr_right fun hr => ⟨?_, ?_⟩
  · rintro ⟨k, rfl⟩
    exact ((evalWithin_refines_outcome k c m).eq hr).symm
  · rintro rfl
    exact (eventually_evalWithin c m).exists

theorem settles_compositional :
    Ending.Compositional fun {α} (r : Option Nat → Ending α) =>
      ∀ᶠ k in atTop, r (some k) = r none where
  const _ := .of_forall fun _ => rfl
  andThen := by
    intro α β r f hr hf
    cases hnone : r none with
    | value a m =>
      filter_upwards [hr, hf a m] with k hk hfk
      rw [hk, hnone]
      exact hfk
    | _ =>
      filter_upwards [hr] with k hk
      rw [hk, hnone]
      rfl

/-- The outcome obeys the equations of the evaluator. -/
theorem outcome_eq (c : Code) (m : Machine) : outcome c m = evalStep outcome c m := by
  have hstep : ∀ᶠ k in atTop, evalStep (evalWithin k) c m = evalStep outcome c m :=
    evalStep_compositional settles_compositional
      (fun k => k.elim outcome evalWithin) eventually_evalWithin c m
  have hsucc : ∀ᶠ k in atTop, evalWithin (k + 1) c m = outcome c m :=
    (tendsto_add_atTop_nat 1).eventually (eventually_evalWithin c m)
  obtain ⟨k, hk, hk'⟩ := (hstep.and hsucc).exists
  rw [← hk', ← hk]
  rfl

/-- What holds of a machine whenever it holds after one more round holds of every machine from which
the loop ends. -/
theorem loop_induction {c a : Code} {motive : Machine → Prop}
    (step : ∀ m, (∀ m₁ v m₂, evalTruth outcome .condition c m = .value true m₁ →
      outcome a m₁ = .value v m₂ → motive m₂) → motive m)
    {m : Machine} (h : (Code.loop c a).Halts m) : motive m := by
  obtain ⟨k, hk⟩ := h
  induction k generalizing m with
  | zero => exact absurd rfl hk
  | succ k ih =>
    refine step m fun m₁ v m₂ hc ha => ih ?_
    -- the rounds of a run within `k` calls are those of the outcome
    have htruth : (evalTruth (evalWithin k) .condition c m).Refines
        (evalTruth outcome .condition c m) :=
      evalTruth_compositional Ending.Refines.compositional
        (fun b => bif b then outcome else evalWithin k) (evalWithin_refines_outcome k) _ c m
    have hk : ((evalTruth (evalWithin k) .condition c m).andThen fun b m =>
        if b then (evalWithin k a m).andThen fun _ m => evalWithin k (.loop c a) m
        else .value none m) ≠ .outOfFuel := hk
    rcases htruth with hout | heq
    · rw [hout] at hk
      exact absurd rfl hk
    · rw [heq, hc] at hk
      rcases evalWithin_refines_outcome k a m₁ with hout | heq
      · simp [hout] at hk
      · simpa [heq, ha] using hk

end Code

end GodelWhile
