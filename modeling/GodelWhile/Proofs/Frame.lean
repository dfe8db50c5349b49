import Mathlib
import GodelWhile.Proofs.AllRuns

/-! # What a run can do to the variables

Without resets a run never forgets a variable: the names that were there stay in their order, and
new ones are put behind them. A variable is set where an assignment to it is in reach, in the
program or in code that some variable held at first. The one other way to set it is by decoded code,
which sets the numbered variables only.

All this holds whether the run completes, exits or fails, because it holds at every moment: the
invariant `Store.Extends` carries along that code which comes to be held sets nothing else either.
-/

namespace GodelWhile

open GodelWhile.Numbering

theorem Store.names_prefix_insert (s : Store) (x : String) (v : Value) :
    s.names <+: (s.insert x v).names := by
  rw [names, names, insert, Bindings.names_insert]
  split
  · exact List.prefix_rfl
  · exact List.prefix_append _ _

namespace Code

/-- The variables that a run of `t` from the variables `s` may set. -/
def MaySet (t : Code) (s : Store) (x : String) : Prop :=
  (∃ e, t.InReach s (.assign x e)) ∨
    x ∈ numberedNames ∧ ∃ cat e, t.InReach s (.decode cat e) ∨ t.InReach s (.run cat e)

/-- A node that forgets no variables and sets none but those in `X`. -/
def SetsOnly (X : String → Prop) : Code → Prop
  | .directive .reset => False
  | .assign x _ => X x
  | .decode _ _ | .run _ _ => ∀ x ∈ numberedNames, X x
  | _ => True

theorem setsOnly_of_inReach {t : Code} {s : Store} (hreset : ¬t.InReach s (.directive .reset))
    {d : Code} (hd : t.InReach s d) : d.SetsOnly (t.MaySet s) := by
  cases d with
  | assign x e => exact .inl ⟨e, hd⟩
  | decode cat e => exact fun x hx => .inr ⟨hx, cat, e, .inl hd⟩
  | run cat e => exact fun x hx => .inr ⟨hx, cat, e, .inr hd⟩
  | directive d =>
    cases d with
    | reset => exact absurd hd hreset
    | _ => trivial
  | _ => trivial

/-- Canonical code sets the numbered variables only. -/
theorem Canonical.setsOnly {X : String → Prop} (hX : ∀ x ∈ numberedNames, X x) {cat : Category}
    {c : Code} (hc : c.Canonical cat) : c.SetsOnly X := by
  cases hc with
  | assign hx => exact hX _ hx
  | _ => trivial

end Code

/-- The variables `s'` come from `s` by setting variables in `X`, and code that they hold sets no
others. -/
structure Store.Extends (X : String → Prop) (s s' : Store) : Prop where
  names : s.names <+: s'.names
  other : ∀ x, ¬X x → s'.get? x = s.get? x
  code : s'.BuiltFrom (Code.SetsOnly X)

namespace Store.Extends

variable {X : String → Prop} {s s' : Store}

theorem insert (h : s.Extends X s') {x : String} (hx : X x) {v : Value}
    (hv : v.BuiltFrom (Code.SetsOnly X)) : s.Extends X (s'.insert x v) where
  names := h.names.trans (s'.names_prefix_insert x v)
  other y hy := by
    have hne : x ≠ y := by
      rintro rfl
      exact hy hx
    rw [Store.get?_insert, if_neg hne]
    exact h.other y hy
  code := Store.builtFrom_insert h.code x hv

/-- The variables extend those at the start throughout. -/
theorem closed (X : String → Prop) (s : Store) :
    Run.Closed (Code.SetsOnly X) (Code.SetsOnly X) fun S r => ∀ m : Machine,
      s.Extends X m.store → (r m).Satisfies S fun m => s.Extends X m.store where
  pure ha _ hm := ⟨ha, hm⟩
  bind hr hf m hm := (hr m hm).andThen (fun _ => id) fun a m ha hm => hf a ha m hm
  fail _ _ hm := hm
  exit _ hm := hm
  read x _ hm := ⟨hm.code x, hm⟩
  insert hx hv _ hm := ⟨trivial, hm.insert hx hv⟩
  reset h := absurd h id
  write _ text := by
    intro m hm
    rw [Run.write_apply]
    split
    · exact ⟨trivial, hm⟩
    · exact hm
  store _ _ hm := ⟨trivial, hm⟩
  held _ hc := hc
  decoded h hc := hc.builtFrom (Code.Canonical.setsOnly h)
  run h hc := hc.builtFrom (Code.Canonical.setsOnly h)

end Store.Extends

namespace Code

/-- However a run without resets in reach ends, no name is bound twice, the names bound at first are
bound in the same order before all others, and a variable that was added or changed is one that the
run may set: an assignment to it is in reach, or it is a numbered variable and a directive that
decodes numbers is in reach. -/
theorem frame_of_ends {t : Code} {m : Machine} {r : Ending (Option Value)}
    (hreset : ¬t.InReach m.store (.directive .reset)) (hr : t.Ends m r) :
    ∃ m', r.machine? = some m' ∧ m'.store.names.Nodup ∧ m.store.names <+: m'.store.names ∧
      ∀ x, m'.store.get? x ≠ m.store.get? x → t.MaySet m.store x := by
  obtain ⟨hne, k, rfl⟩ := hr
  obtain ⟨m', hm'⟩ := Ending.exists_machine hne
  have hbuilt := builtFrom_of_inReach fun d => setsOnly_of_inReach hreset (d := d)
  have hstart : m.store.Extends (t.MaySet m.store) m.store :=
    ⟨List.prefix_rfl, fun _ _ => rfl, hbuilt.2⟩
  have hend : m.store.Extends (t.MaySet m.store) m'.store :=
    ((Store.Extends.closed _ _).evalWithin (fun _ _ => trivial) k hbuilt.1 m hstart).machine hm'
  refine ⟨m', hm', m'.store.nodup, hend.names, fun x hx => ?_⟩
  by_contra hset
  exact hx (hend.other x hset)

/-- Code decoded and held, then run, so that it sets `x`; the run fails after that. -/
theorem frame_of_ends_decoded :
    let t := Code.suite [.assign "c" (.decode .statement (.int 2)), .directive (.eval "c"),
      .binary (.arith .div) (.var "x") (.int 0)]
    let m := Machine.ofStore (.ofList [("y", .int 3)]) none
    ¬t.InReach m.store (.directive .reset) ∧
      ∃ m', t.Ends m (.error .divisionByZero m') ∧ m'.store.names = ["y", "c", "x"] ∧
        t.MaySet m.store "x" ∧ t.MaySet m.store "c" ∧ ¬t.MaySet m.store "d" := by
  intro t m
  have hreach : ∀ d, t.InReach m.store d ↔ d ∈ t.nodes := by
    intro d
    refine or_iff_left ?_
    rintro ⟨x, c, hx, -⟩
    have hget : m.store.get? x = if "y" = x then some (.int 3) else none := rfl
    rw [hget] at hx
    split at hx <;> cases hx
  have hreset : ¬t.InReach m.store (.directive .reset) := by
    rw [hreach]
    decide
  obtain ⟨m', hrun, hnames, hx, hc⟩ : ∃ m', evalWithin 4 t m = .error .divisionByZero m' ∧
      m'.store.names = ["y", "c", "x"] ∧ m'.store.get? "x" ≠ m.store.get? "x" ∧
      m'.store.get? "c" ≠ m.store.get? "c" := ⟨_, rfl, rfl, nofun, nofun⟩
  have hends : t.Ends m (.error .divisionByZero m') := ⟨by simp, 4, hrun⟩
  obtain ⟨_, ⟨⟩, -, -, hframe⟩ := frame_of_ends hreset hends
  refine ⟨hreset, m', hends, hnames, hframe "x" hx, hframe "c" hc, ?_⟩
  rintro (⟨e, he⟩ | ⟨hd, -⟩)
  · rw [hreach] at he
    simp [t, nodes, itemNodes] at he
  · exact absurd hd (by decide)

end Code

end GodelWhile
