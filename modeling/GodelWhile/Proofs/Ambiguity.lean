import Mathlib
import GodelWhile.Grammar.Program
import GodelWhile.Proofs.NormalForm

/-! # Programs with the same number

Each category has a numbering of its own, and the number of a program does not say which one was
used: `0`, `true` and `skip` all have the number 0. Within one category the numbers of well-sorted
programs tell their normal forms apart, because canonical code is determined by its number
(`Canonical.eq_of_godel_eq`). The numbering also takes code in which the categories are mixed: it
checks the operands of conjunctions and disjunctions for variables and looks at no other operand. There
one number may belong to several normal forms. -/

namespace GodelWhile

open GodelWhile.Numbering

namespace Code

/-- Canonical code of a category is determined by its number. -/
theorem Canonical.eq_of_godel_eq {cat : Category} {c c' : Code} (h : c.Canonical cat)
    (h' : c'.Canonical cat) (heq : c.godel = c'.godel) : c = c' := by
  have hread : decodeWithin cat (max c.depth c'.depth) c.godel = .ok c :=
    decodeWithin_eq_ok_iff.mpr ⟨h, le_max_left _ _, rfl⟩
  have hread' : decodeWithin cat (max c.depth c'.depth) c.godel = .ok c' :=
    decodeWithin_eq_ok_iff.mpr ⟨h', le_max_right _ _, heq.symm⟩
  rw [hread] at hread'
  cases hread'
  rfl

/-- A program of a category: well-sorted code of it, alone in any number of suites. A parsed program
is a suite even if it is a single expression. -/
inductive IsProgram (cat : Category) : Code → Prop
  | code {c : Code} (hc : c.WellSorted .any cat) : IsProgram cat c
  | alone {c : Code} (hc : IsProgram cat c) : IsProgram cat (.suite [c])

/-- The number of a program is the number of its normal form, which is canonical. -/
theorem IsProgram.canonical {cat : Category} {p : Code} (h : p.IsProgram cat) {n : Nat}
    (hn : p.toNumber = .ok n) : p.normalize.Canonical cat ∧ p.normalize.godel = n := by
  induction h with
  | code hc =>
    have hnumbered := hc.numbered hn
    refine ⟨canonical_normalize hnumbered, ?_⟩
    rcases gives_toNumber hnumbered with hok | ⟨hlarge, -⟩
    · rw [hok] at hn
      cases hn
      rfl
    · rw [hlarge] at hn
      cases hn
  | alone _ ih =>
    rw [toNumber, itemsToNumber] at hn
    rw [normalize, normalizeItems]
    exact ih hn

end Code

/-- Two well-sorted programs of one category have the same number exactly if they have the same normal
form. -/
theorem toNumber_eq_iff {cat : Category} {p q : Code} {n m : Nat} (hp : p.IsProgram cat)
    (hq : q.IsProgram cat) (hn : p.toNumber = .ok n) (hm : q.toNumber = .ok m) :
    n = m ↔ p.normalize = q.normalize := by
  obtain ⟨hcanonical, hgodel⟩ := hp.canonical hn
  obtain ⟨hcanonical', hgodel'⟩ := hq.canonical hm
  rw [← hgodel, ← hgodel']
  constructor
  · exact hcanonical.eq_of_godel_eq hcanonical'
  · exact congrArg Code.godel

/-- A branching on `x > 0` and one on `¬(x <= 0)`, with bodies in different numbers of parentheses. -/
theorem toNumber_eq_iff_branching :
    let p := Code.suite [.ifElse (.binary (.compare .gt) (.var "x") (.int 0)) (.suite [.skip])
      (.suite [.assign "y" (.int 0)])]
    let q := Code.suite [.ifElse (.not (.binary (.compare .le) (.var "x") (.int 0)))
      (.suite [.suite [.skip]]) (.suite [.suite [.suite [.assign "y" (.int 0)]]])]
    parse "if x > 0 then skip else y := 0" = .ok p ∧
      parse "if ¬(x <= 0) then (skip) else ((y := 0))" = .ok q ∧
      p.toNumber = .ok 429496729600 ∧ q.toNumber = .ok 429496729600 ∧
      p.normalize = q.normalize := by
  intro p q
  have hx : Code.WellSorted .any .arithmetic (.var "x") := .var rfl
  have hzero : Code.WellSorted .any .arithmetic (.int 0) := .int rfl
  have hassign : Code.WellSorted .any .statement (.assign "y" (.int 0)) := .assign rfl hzero
  have hsuite : ∀ {c : Code}, c.WellSorted .any .statement →
      (Code.suite [c]).WellSorted .any .statement := fun hc => .suite (by simpa using hc)
  have hp : p.IsProgram .statement :=
    .code (hsuite (.ifElse (.compare .gt hx hzero) (hsuite .skip) (hsuite hassign)))
  have hq : q.IsProgram .statement :=
    .code (hsuite (.ifElse (.not (.compare .le hx hzero)) (hsuite (hsuite .skip))
      (hsuite (hsuite (hsuite hassign)))))
  have hn : p.toNumber = .ok 429496729600 := by decide
  have hm : q.toNumber = .ok 429496729600 := by decide
  exact ⟨by cbv, by cbv, hn, hm, (toNumber_eq_iff hp hq hn hm).mp rfl⟩

/-- Truth values and integers as operands of an equality are not told apart. -/
theorem toNumber_eq_of_truth_values :
    let p := Code.suite [.binary .and (.binary .eq (.var "x") (.bool true))
      (.binary .eq (.var "y") (.bool true))]
    let q := Code.suite [.binary .and (.binary .eq (.var "x") (.int 0))
      (.binary .eq (.var "y") (.int 0))]
    parse "x = true & y = true" = .ok p ∧ parse "x = 0 & y = 0" = .ok q ∧
      p.toNumber = .ok 130305 ∧ q.toNumber = .ok 130305 ∧ p.normalize ≠ q.normalize := by
  intro p q
  exact ⟨by cbv, by cbv, by decide, by decide, by decide⟩

end GodelWhile
