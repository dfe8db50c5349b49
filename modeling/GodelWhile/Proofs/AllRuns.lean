import Mathlib
import GodelWhile.Proofs.Canonical
import GodelWhile.Proofs.Outcome

/-! # What all runs have in common

Code runs its parts, the code that variables hold, and the code that numbers stand for. Whatever
comes up in this way is built from few kinds of nodes: those of the program, those of the code that
the variables held at first, and those of decoded code, which is canonical. So a property of runs
holds of every run of code built from such nodes as soon as it goes through sequences and holds of
the little that code does by itself: read a variable, set one, write, fail
(`Run.Closed.evalWithin`). Code that is held but never run may be built from other nodes.

Properties are about a run and the values it yields, because a value may be code that is run later.
A property may look at one run from one machine, or compare how a run goes from two machines. -/

namespace GodelWhile

open GodelWhile.Numbering

/-! ### Nodes of a kind -/

section BuiltFrom

variable (N : Code → Prop)

/-- Code all of whose nodes are in `N`. -/
def Code.BuiltFrom (c : Code) : Prop := ∀ d ∈ c.nodes, N d

/-- A value that is no code, or code built from nodes in `N`. -/
def Value.BuiltFrom : Value → Prop
  | .code c => c.BuiltFrom N
  | _ => True

/-- No value, or one that is no code or code built from nodes in `N`. -/
def Value.OptionBuiltFrom (v : Option Value) : Prop := ∀ w ∈ v, w.BuiltFrom N

/-- Variables that hold no code but code built from nodes in `N`. -/
def Store.BuiltFrom (s : Store) : Prop := ∀ x, (s.get x).BuiltFrom N

end BuiltFrom

/-- A node of the code, or of code held by a variable. -/
def Code.InReach (t : Code) (s : Store) (d : Code) : Prop :=
  d ∈ t.nodes ∨ ∃ x c, s.get? x = some (.code c) ∧ d ∈ c.nodes

theorem Value.builtFrom_true (v : Value) : v.BuiltFrom fun _ => True := by
  cases v with
  | code c => exact fun _ _ => trivial
  | _ => trivial

theorem Value.builtFrom_some {N : Code → Prop} {v : Value} (hv : v.BuiltFrom N) :
    Value.OptionBuiltFrom N (some v) := by
  rintro _ ⟨⟩
  exact hv

theorem Value.builtFrom_none (N : Code → Prop) : Value.OptionBuiltFrom N none := by
  simp [Value.OptionBuiltFrom]

theorem Store.get?_eq_code_iff {s : Store} {x : String} {c : Code} :
    s.get? x = some (.code c) ↔ s.get x = .code c := by
  rw [Store.get]
  cases s.get? x <;> simp [Value.zero]

theorem Store.builtFrom_insert {N : Code → Prop} {s : Store} (hs : s.BuiltFrom N) (x : String)
    {v : Value} (hv : v.BuiltFrom N) : (s.insert x v).BuiltFrom N := by
  intro y
  rw [Store.get_insert]
  split
  · exact hv
  · exact hs y

theorem Store.builtFrom_empty (N : Code → Prop) : Store.empty.BuiltFrom N := fun _ => trivial

namespace Code

variable {N : Code → Prop}

theorem builtFrom_of_inReach {t : Code} {s : Store} (h : ∀ d, t.InReach s d → N d) :
    t.BuiltFrom N ∧ s.BuiltFrom N := by
  refine ⟨fun d hd => h d (.inl hd), fun x => ?_⟩
  cases hx : s.get x with
  | code c => exact fun d hd => h d (.inr ⟨x, c, Store.get?_eq_code_iff.mpr hx, hd⟩)
  | _ => trivial

theorem BuiltFrom.items {items : List Code} (h : ∀ d ∈ itemNodes items, N d) :
    ∀ a ∈ items, a.BuiltFrom N := by
  induction items with
  | nil => simp
  | cons a rest ih =>
    rw [itemNodes, List.forall_mem_append] at h
    rintro b (_ | ⟨_, hb⟩)
    · exact h.1
    · exact ih h.2 b hb

/-- The nodes of canonical code are canonical, so it is built from any kind that has these. -/
theorem Canonical.builtFrom (hN : ∀ {cat : Category} {d : Code}, d.Canonical cat → N d)
    {cat : Category} {c : Code} (hc : c.Canonical cat) : c.BuiltFrom N := by
  have hself := hN hc
  induction hc with
  | int | var | bool | skip =>
    simp only [BuiltFrom, nodes, List.forall_mem_singleton]
    exact hself
  | arith _ hl hr ihl ihr | eq hl hr ihl ihr | le hl hr ihl ihr | and hl hr ihl ihr
  | loop hl hr ihl ihr | ifThen hl hr ihl ihr =>
    simp only [BuiltFrom, nodes, List.forall_mem_cons, List.forall_mem_append]
    exact ⟨hself, ihl (hN hl), ihr (hN hr)⟩
  | not he ih | assign _ he ih =>
    simp only [BuiltFrom, nodes, List.forall_mem_cons]
    exact ⟨hself, ih (hN he)⟩
  | suite ha hb iha ihb =>
    simp only [BuiltFrom, nodes, itemNodes, List.forall_mem_cons, List.forall_mem_append]
    exact ⟨hself, iha (hN ha), ihb (hN hb), by simp⟩
  | ifElse hc ha hb _ ihc iha ihb =>
    simp only [BuiltFrom, nodes, List.forall_mem_cons, List.forall_mem_append]
    exact ⟨hself, ⟨ihc (hN hc), iha (hN ha)⟩, ihb (hN hb)⟩

end Code

/-! ### Endings of one run -/

namespace Ending

variable {α β : Type}

/-- The machine that is left. -/
def machine? : Ending α → Option Machine
  | .value _ m | .exit m | .error _ m => some m
  | .outOfFuel => none

/-- If the run ends, what it leaves is in `I`, and its value, if it has one, in `S`. -/
def Satisfies (S : α → Prop) (I : Machine → Prop) : Ending α → Prop
  | .value a m => S a ∧ I m
  | .exit m | .error _ m => I m
  | .outOfFuel => True

theorem Satisfies.mono {S : α → Prop} {I J : Machine → Prop} {r : Ending α} (h : r.Satisfies S I)
    (hI : ∀ m, I m → J m) : r.Satisfies S J := by
  cases r with
  | value a m => exact ⟨h.1, hI m h.2⟩
  | exit m | error _ m => exact hI m h
  | outOfFuel => trivial

theorem Satisfies.andThen {S : α → Prop} {T : β → Prop} {I J : Machine → Prop} {r : Ending α}
    {f : α → Machine → Ending β} (h : r.Satisfies S I) (hI : ∀ m, I m → J m)
    (hf : ∀ a m, S a → I m → (f a m).Satisfies T J) : (r.andThen f).Satisfies T J := by
  cases r with
  | value a m => exact hf a m h.1 h.2
  | exit m => exact hI m h
  | error e m => exact hI m h
  | outOfFuel => trivial

theorem Satisfies.machine {S : α → Prop} {I : Machine → Prop} {r : Ending α} (h : r.Satisfies S I)
    {m : Machine} (hm : r.machine? = some m) : I m := by
  cases r with
  | value => cases hm; exact h.2
  | exit | error => cases hm; exact h
  | outOfFuel => cases hm

theorem exists_machine {r : Ending α} (h : r ≠ .outOfFuel) : ∃ m, r.machine? = some m := by
  cases r with
  | outOfFuel => exact absurd rfl h
  | _ => exact ⟨_, rfl⟩

end Ending

/-! ### Properties of runs -/

/-- The code that the value is. -/
def Value.code? : Value → Option Code
  | .code c => some c
  | _ => none

namespace Run

/-- Reads a variable. -/
def read (x : String) : Run Value := do return (← Run.store).get x

/-- Zero is no code, so it makes no difference whether a variable is unset. -/
theorem heldCode_eq (x : String) :
    Code.heldCode x = Run.read x >>= fun v => v.code?.elim (Run.fail (.notCode x)) pure := by
  funext m
  simp only [Code.heldCode, read, Run.store, bind_apply, pure_apply, Ending.andThen_value,
    Store.get]
  rcases m.store.get? x with _ | _ | _ | _ <;> rfl

/-- A property of runs and their values, closed under all that code built from nodes in `N` does while
variables hold code built from nodes in `H`. -/
structure Closed (N H : Code → Prop) (P : ∀ {α : Type}, (α → Prop) → Run α → Prop) : Prop where
  pure : ∀ {α : Type} {S : α → Prop} {a : α}, S a → P S (pure a)
  bind : ∀ {α β : Type} {S : α → Prop} {T : β → Prop} {r : Run α} {f : α → Run β},
    P S r → (∀ a, S a → P T (f a)) → P T (r >>= f)
  fail : ∀ {α : Type} {S : α → Prop} (e : RunError), P S (Run.fail e)
  exit : ∀ {α : Type} {S : α → Prop}, P S Run.exit
  read : ∀ x, P (Value.BuiltFrom H) (Run.read x)
  insert : ∀ {x : String} {e : Code} {v : Value}, N (.assign x e) → v.BuiltFrom H →
    P (fun _ => True) (Run.insert x v)
  reset : N (.directive .reset) → P (fun _ => True) Run.reset
  /-- Only directives write. -/
  write : ∀ {d : Directive}, N (.directive d) → ∀ text, P (fun _ => True) (Run.write text)
  /-- Only traces look at all variables. -/
  store : ∀ {p : Position}, N (.directive (.trace p)) → P (fun _ => True) Run.store
  /-- Where held code is run, it is built from nodes in `N` too. -/
  held : ∀ {x : String} {c : Code}, N (.directive (.eval x)) → c.BuiltFrom H → c.BuiltFrom N
  /-- Where numbers are decoded, variables may come to hold canonical code. -/
  decoded : ∀ {cat : Category} {e c : Code}, N (.decode cat e) → c.Canonical cat → c.BuiltFrom H
  /-- Where decoded code is run, canonical code is built from nodes in `N`. -/
  run : ∀ {cat : Category} {e c : Code}, N (.run cat e) → c.Canonical cat → c.BuiltFrom N

end Run

namespace Run.Closed

open Code

variable {N H : Code → Prop} {P : ∀ {α : Type}, (α → Prop) → Run α → Prop} (h : Run.Closed N H P)

include h

theorem ofExcept {α : Type} {S : α → Prop} {x : Except RunError α} (hx : ∀ a, x = .ok a → S a) :
    P S (Run.ofExcept x) := by
  cases x with
  | ok a => exact h.pure (hx a rfl)
  | error e => exact h.fail e

theorem ofNumbering {α : Type} {S : α → Prop} {x : Except NumberingError α}
    (hx : ∀ a, x = .ok a → S a) : P S (Run.ofNumbering x) := by
  cases x with
  | ok a => exact h.pure (hx a rfl)
  | error e => exact h.fail _

theorem writeBindings {d : Directive} (hd : N (.directive d)) :
    ∀ bs : List (String × Value), P (fun _ => True) (writeBindings bs)
  | [] => h.pure trivial
  | _ :: rest => h.bind (h.write hd _) fun _ _ => writeBindings hd rest

theorem writeTrace {p : Position} (hp : N (.directive (.trace p))) :
    P (fun _ => True) (writeTrace p) := by
  refine h.bind (h.write hp _) fun _ _ => ?_
  exact h.bind (h.store hp) fun s _ => h.writeBindings hp s.bindings

theorem writeVariable {x : String} (hx : N (.directive (.print x))) :
    P (fun _ => True) (writeVariable x) := by
  change P _ (Run.read x >>= fun v => Run.write (Store.bindingText x v))
  exact h.bind (h.read x) fun _ _ => h.write hx _

theorem heldCode (x : String) : P (Code.BuiltFrom H) (heldCode x) := by
  rw [heldCode_eq]
  refine h.bind (h.read x) ?_
  intro v hv
  cases v with
  | code c => exact h.pure hv
  | _ => exact h.fail _

section Parts

variable {sub : Code → Run (Option Value)}
  (hsub : ∀ c, c.BuiltFrom N → P (Value.OptionBuiltFrom H) (sub c))

include hsub

theorem evalValue (need : Need) {e : Code} (he : e.BuiltFrom N) :
    P (Value.BuiltFrom H) (evalValue sub need e) := by
  refine h.bind (hsub e he) ?_
  intro v hv
  cases v with
  | some w => exact h.pure (hv w rfl)
  | none => exact h.fail _

theorem evalTruth (need : Need) {e : Code} (he : e.BuiltFrom N) :
    P (fun _ => True) (evalTruth sub need e) :=
  h.bind (h.evalValue hsub need he) fun _ _ => h.ofExcept fun _ _ => trivial

theorem evalBinary (o : Operator) {l r : Code} (hl : l.BuiltFrom N) (hr : r.BuiltFrom N) :
    P (Value.BuiltFrom H) (evalBinary sub o l r) := by
  have value := fun need {e} => h.evalValue hsub need (e := e)
  have truth := fun need {e} => h.evalTruth hsub need (e := e)
  cases o with
  | arith a =>
    refine h.bind (value _ hl) fun v _ => h.bind (value _ hr) fun w _ => h.ofExcept ?_
    intro u hu
    obtain ⟨_, _, hu⟩ := bind_eq_ok.mp hu
    obtain ⟨_, _, hu⟩ := bind_eq_ok.mp hu
    obtain ⟨n, _, hu⟩ := bind_eq_ok.mp hu
    cases hu
    trivial
  | compare c =>
    refine h.bind (value _ hl) fun v _ => h.bind (value _ hr) fun w _ => h.ofExcept ?_
    intro u hu
    obtain ⟨_, _, hu⟩ := bind_eq_ok.mp hu
    obtain ⟨_, _, hu⟩ := bind_eq_ok.mp hu
    cases hu
    trivial
  | eq => exact h.bind (value _ hl) fun _ _ => h.bind (value _ hr) fun _ _ => h.pure trivial
  | and =>
    refine h.bind (truth _ hl) ?_
    rintro (_ | _) _
    · exact h.pure trivial
    · exact h.bind (truth _ hr) fun _ _ => h.pure trivial
  | or =>
    refine h.bind (truth _ hl) ?_
    rintro (_ | _) _
    · exact h.bind (truth _ hr) fun _ _ => h.pure trivial
    · exact h.pure trivial

theorem evalItems {items : List Code} (hitems : ∀ a ∈ items, a.BuiltFrom N) {v : Option Value}
    (hv : Value.OptionBuiltFrom H v) :
    P (Value.OptionBuiltFrom H) (evalItems sub items v) := by
  induction items generalizing v with
  | nil => exact h.pure hv
  | cons a rest ih =>
    rw [List.forall_mem_cons] at hitems
    exact h.bind (hsub a hitems.1) fun _ hw => ih hitems.2 hw

theorem evalEffect {a : Code} (ha : a.BuiltFrom N) :
    P (Value.OptionBuiltFrom H) (evalEffect sub a) :=
  h.bind (hsub a ha) fun _ _ => h.pure (Value.builtFrom_none H)

/-- What is decoded is canonical. -/
theorem evalDecoded (cat : Category) {e : Code} (he : e.BuiltFrom N) :
    P (Code.Canonical cat) (evalDecoded sub cat e) := by
  refine h.bind (h.evalValue hsub .number he) fun v _ => ?_
  refine h.bind (h.ofExcept (S := fun _ => True) fun _ _ => trivial) fun n _ => ?_
  split
  · exact h.fail _
  · exact h.ofNumbering fun c hc => (ofNumber_eq_ok_iff.mp hc).1

/-- One step of the evaluator: what holds of the runs it calls holds of its own. -/
theorem evalStep {c : Code} (hc : c.BuiltFrom N) :
    P (Value.OptionBuiltFrom H) (evalStep sub c) := by
  have value := fun need {e} => h.evalValue hsub need (e := e)
  have truth := fun need {e} => h.evalTruth hsub need (e := e)
  have yields_value {v : Value} (hv : v.BuiltFrom H) :
      P (Value.OptionBuiltFrom H) (Pure.pure (some v)) := h.pure (Value.builtFrom_some hv)
  have yields_none : P (Value.OptionBuiltFrom H) (Pure.pure none) := h.pure (Value.builtFrom_none H)
  have hnodes := hc
  cases c <;>
    simp only [BuiltFrom, nodes, List.forall_mem_cons, List.forall_mem_append] at hnodes
  case int | bool => exact yields_value trivial
  case skip => exact yields_none
  case var x => exact h.bind (h.read x) fun _ hv => yields_value hv
  case not e => exact h.bind (truth _ hnodes.2) fun _ _ => yields_value trivial
  case binary o l r =>
    exact h.bind (h.evalBinary hsub o hnodes.2.1 hnodes.2.2) fun _ hv => yields_value hv
  case assign x e =>
    refine h.bind (value _ hnodes.2) fun v hv => ?_
    exact h.bind (h.insert hnodes.1 hv) fun _ _ => yields_none
  case suite items =>
    exact h.evalItems hsub (BuiltFrom.items hnodes.2) (Value.builtFrom_some trivial)
  case ifThen c a =>
    refine h.bind (truth .condition hnodes.2.1) ?_
    rintro (_ | _) _
    · exact yields_none
    · exact h.evalEffect hsub hnodes.2.2
  case ifElse c a b =>
    refine h.bind (truth .condition hnodes.2.1.1) ?_
    rintro (_ | _) _
    · exact h.evalEffect hsub hnodes.2.2
    · exact h.evalEffect hsub hnodes.2.1.2
  case loop c a =>
    refine h.bind (truth .condition hnodes.2.1) ?_
    rintro (_ | _) _
    · exact yields_none
    -- the next round runs the loop itself, which is built as before
    · exact h.bind (hsub a hnodes.2.2) fun _ _ => hsub _ hc
  case number body =>
    refine h.bind (h.ofNumbering (S := fun _ => True) fun _ _ => trivial) fun _ _ => ?_
    exact yields_value trivial
  case decode cat e =>
    exact h.bind (h.evalDecoded hsub cat hnodes.2) fun _ hd => yields_value (h.decoded hnodes.1 hd)
  case run cat e =>
    exact h.bind (h.evalDecoded hsub cat hnodes.2) fun _ hd => hsub _ (h.run hnodes.1 hd)
  case directive d =>
    cases d with
    | trace p => exact h.bind (h.writeTrace hnodes.1) fun _ _ => yields_none
    | exit => exact h.exit
    | reset => exact h.bind (h.reset hnodes.1) fun _ _ => yields_none
    | help => exact h.bind (h.write hnodes.1 _) fun _ _ => yields_none
    | print x => exact h.bind (h.writeVariable hnodes.1) fun _ _ => yields_none
    | eval x => exact h.bind (h.heldCode x) fun _ hd => hsub _ (h.held hnodes.1 hd)

end Parts

/-- Every run of code built from nodes in `N` has the property, if running out of fuel has it. -/
theorem evalWithin (hfuel : P (Value.OptionBuiltFrom H) fun _ => .outOfFuel) (k : Nat) {c : Code}
    (hc : c.BuiltFrom N) : P (Value.OptionBuiltFrom H) (evalWithin k c) := by
  induction k generalizing c with
  | zero => exact hfuel
  | succ k ih => exact h.evalStep (fun _ => ih) hc

end Run.Closed

end GodelWhile
