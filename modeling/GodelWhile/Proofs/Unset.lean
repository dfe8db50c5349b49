import Mathlib
import GodelWhile.Proofs.Correspondence

/-! # Unset variables and zeros

A variable that was never set reads as zero, and a program cannot find out which of the two it is:
reading gives zero, printing shows zero, and neither can be run as code. Only a trace tells them
apart, since it lists the variables that are set. So two stores that read the same are exchangeable
for a program that comes across no trace, even if they bind different names in a different order. -/

namespace GodelWhile

/-- A node that is no trace. -/
def Code.NoTrace (d : Code) : Prop := ∀ p, d ≠ .directive (.trace p)

/-- Machines with the same output whose variables read the same and hold no code that traces. -/
structure Machine.ReadsLike (m m' : Machine) : Prop where
  sink : m.sink = m'.sink
  get : ∀ x, m.store.get x = m'.store.get x
  code : m.store.BuiltFrom Code.NoTrace

theorem Machine.ReadsLike.insert {m m' : Machine} (h : m.ReadsLike m') (x : String) {v : Value}
    (hv : v.BuiltFrom Code.NoTrace) :
    Machine.ReadsLike ⟨m.store.insert x v, m.sink⟩ ⟨m'.store.insert x v, m'.sink⟩ where
  sink := h.sink
  get y := by rw [Store.get_insert, Store.get_insert, h.get y]
  code := Store.builtFrom_insert h.code x hv

theorem Code.Canonical.noTrace {cat : Category} {c : Code} (hc : c.Canonical cat) : c.NoTrace := by
  rintro p rfl
  cases hc

namespace Likeness

/-- Machines that read alike; runs that both exit, or that end with the same error. -/
def upToUnset : Likeness where
  machine := Machine.ReadsLike
  error e e' := e = e'
  exit := True

/-- Machines that read alike do so in all runs that come across no trace. -/
theorem closed_upToUnset : Run.Closed Code.NoTrace Code.NoTrace (Run.Alike upToUnset) where
  pure := .pure
  bind := .bind
  fail _ _ _ hm := .error rfl hm
  exit _ _ hm := .exit trivial hm
  read x _ _ hm := .value ⟨hm.get x, hm.code x⟩ hm
  insert _ hv _ _ hm := .value ⟨rfl, trivial⟩ (hm.insert _ hv)
  reset _ _ _ hm := .value ⟨rfl, trivial⟩ ⟨hm.sink, fun _ => rfl, Store.builtFrom_empty _⟩
  write _ text := by
    intro m m' hm
    rw [Run.write_apply, Run.write_apply, hm.sink]
    split
    · exact .value ⟨rfl, trivial⟩ ⟨rfl, hm.get, hm.code⟩
    · exact .error rfl ⟨rfl, hm.get, hm.code⟩
  store h := absurd rfl (h _)
  held _ hc := hc
  decoded _ hc := hc.builtFrom Code.Canonical.noTrace
  run _ hc := hc.builtFrom Code.Canonical.noTrace

end Likeness

namespace Code

/-- From variables that read the same, code without traces in reach runs for ever or ends in the
same way: with the same value or error and the same output, and with variables that read the same.
-/
theorem runs_alike_of_get_eq {t : Code} {s s' : Store}
    (htrace : ∀ p, ¬t.InReach s (.directive (.trace p))) (hget : ∀ x, s.get x = s'.get x)
    (sink : Sink) :
    (t.Halts ⟨s, sink⟩ ↔ t.Halts ⟨s', sink⟩) ∧
      ∀ r r', t.Ends ⟨s, sink⟩ r → t.Ends ⟨s', sink⟩ r' → r.Corresponds .upToUnset (· = ·) r' := by
  obtain ⟨ht, hs⟩ : t.BuiltFrom NoTrace ∧ s.BuiltFrom NoTrace := by
    refine builtFrom_of_inReach ?_
    rintro d hd p rfl
    exact htrace p hd
  have hsame : Ending.Corresponds .upToUnset (· = ·) (t.outcome ⟨s, sink⟩) (t.outcome ⟨s', sink⟩) :=
    corresponds_outcome
      (fun k => Likeness.closed_upToUnset.evalWithin (fun _ _ _ => .outOfFuel) k ht)
      _ _ ⟨rfl, hget, hs⟩
  refine ⟨?_, ?_⟩
  · rw [halts_iff, halts_iff]
    exact not_congr hsame.outOfFuel_iff
  · intro r r' hr hr'
    obtain ⟨-, rfl⟩ := ends_iff.mp hr
    obtain ⟨-, rfl⟩ := ends_iff.mp hr'
    exact hsame

/-- Zeros are read, printed and refused as code where nothing was set. -/
theorem runs_alike_of_get_eq_zero :
    let t := Code.suite [.ifThen (.binary .eq (.var "x") (.int 0)) (.assign "y" (.int 1)),
      .directive (.print "x"), .directive (.eval "x")]
    let s := Store.ofList [("z", .int 0), ("x", .int 0)]
    (∀ p, ¬t.InReach .empty (.directive (.trace p))) ∧ (∀ x, Store.empty.get x = s.get x) ∧
      t.Halts ⟨s, .empty none⟩ ∧ ∀ r, t.Ends ⟨s, .empty none⟩ r →
        ∃ m, r = .error (.notCode "x") m ∧ m.store.get "y" = .int 1 ∧
          m.sink.written = "x := 0\n".toUTF8 := by
  intro t s
  have htrace : ∀ p, ¬t.InReach .empty (.directive (.trace p)) := by
    rintro p (hp | ⟨x, c, hx, -⟩)
    · simp [t, nodes, itemNodes] at hp
    · cases hx
  have hget : ∀ x, Store.empty.get x = s.get x := by
    intro x
    have hx : s.get? x =
        if "z" = x then some (.int 0) else if "x" = x then some (.int 0) else none := rfl
    rw [Store.get, Store.get, hx]
    split
    · rfl
    · split <;> rfl
  obtain ⟨hhalts, halike⟩ := runs_alike_of_get_eq htrace hget (.empty none)
  obtain ⟨m, hrun, hstore, hsink⟩ : ∃ m, evalWithin 4 t ⟨.empty, .empty none⟩ =
      .error (.notCode "x") m ∧ m.store.get "y" = .int 1 ∧
      m.sink.written = "x := 0\n".toUTF8 := ⟨_, rfl, rfl, rfl⟩
  have hends : t.Ends ⟨.empty, .empty none⟩ (.error (.notCode "x") m) := ⟨by simp, 4, hrun⟩
  refine ⟨htrace, hget, hhalts.mp ⟨4, by simp [hrun]⟩, fun r hr => ?_⟩
  cases halike _ _ hends hr with
  | @error _ e' _ m' he hm =>
    cases he
    refine ⟨m', rfl, ?_, ?_⟩
    · rw [← hm.get, hstore]
    · rw [← hm.sink, hsink]

end Code

end GodelWhile
