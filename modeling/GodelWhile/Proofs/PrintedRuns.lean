import Mathlib
import GodelWhile.Proofs.Canonical
import GodelWhile.Proofs.NormalRuns
import GodelWhile.Proofs.RoundTrip

/-! # Running what was printed

A program printed and parsed again runs like the program. What is read differs from what was written
in two ways: suites nest differently, which no run shows, and directives stand at other places, which
a trace shows in its headline. So both runs end in the same way, with the same variables and the same
output up to the lines of traces, or both never end.

Two kinds of code are left out. An empty suite is printed as `skip`, but yields zero where `skip`
yields nothing. The number of code depends on how its suites nest. -/

namespace GodelWhile

/-! ### Output up to the lines of traces -/

/-- The outputs differ in the line of one trace. -/
inductive Relined : ByteArray → ByteArray → Prop
  | headline (before after : ByteArray) (line line' : Nat) :
      Relined (before ++ (Code.traceHeadline line).toUTF8 ++ after)
        (before ++ (Code.traceHeadline line').toUTF8 ++ after)

/-- The outputs differ in the lines of traces only. -/
def SameUpToLines : ByteArray → ByteArray → Prop := Relation.EqvGen Relined

namespace SameUpToLines

variable {o o' : ByteArray}

theorem append (h : SameUpToLines o o') (bytes : ByteArray) :
    SameUpToLines (o ++ bytes) (o' ++ bytes) := by
  induction h with
  | rel _ _ h =>
    obtain ⟨before, after, line, line'⟩ := h
    have hstep := Relined.headline before (after ++ bytes) line line'
    simp only [← ByteArray.append_assoc] at hstep
    exact .rel _ _ hstep
  | refl o => exact .refl _
  | symm _ _ _ ih => exact .symm _ _ ih
  | trans _ _ _ _ _ ih ih' => exact .trans _ _ _ ih ih'

theorem headline (h : SameUpToLines o o') (line line' : Nat) :
    SameUpToLines (o ++ (Code.traceHeadline line).toUTF8)
      (o' ++ (Code.traceHeadline line').toUTF8) := by
  have hline := Relined.headline o' .empty line line'
  simp only [ByteArray.append_empty] at hline
  exact .trans _ _ _ (h.append _) (.rel _ _ hline)

end SameUpToLines

/-- Machines with the same variables, whose output is never refused and the same up to the lines of
traces; runs that both exit, or that end with the same error. -/
def Likeness.upToLines : Likeness where
  machine m m' := m.store = m'.store ∧ m.sink.limit = none ∧ m'.sink.limit = none ∧
    SameUpToLines m.sink.written m'.sink.written
  error e e' := e = e'
  exit := True

namespace Likeness

theorem upToLines_refl {m : Machine} (hm : m.sink.limit = none) : upToLines.machine m m :=
  ⟨rfl, hm, hm, .refl _⟩

theorem upToLines_join {m m' m₀ : Machine} (h : upToLines.machine m m₀)
    (h' : upToLines.machine m' m₀) : upToLines.machine m m' := by
  obtain ⟨hstore, hlimit, -, hsame⟩ := h
  obtain ⟨hstore', hlimit', -, hsame'⟩ := h'
  exact ⟨hstore.trans hstore'.symm, hlimit, hlimit', .trans _ _ _ hsame (.symm _ _ hsame')⟩

theorem write_upToLines {text text' : String} (h : ∀ {o o'}, SameUpToLines o o' →
      SameUpToLines (o ++ text.toUTF8) (o' ++ text'.toUTF8)) :
    Run.Corresponds upToLines (Run.write text) (Run.write text') := by
  rintro ⟨store, limit, written⟩ ⟨store', limit', written'⟩ ⟨rfl, rfl, rfl, hsame⟩
  exact .value rfl ⟨rfl, rfl, rfl, h hsame⟩

theorem lockstep_upToLines : upToLines.Lockstep where
  store h := h.1
  update h _ := ⟨rfl, h.2⟩
  write _ := write_upToLines fun h => h.append _
  error _ := rfl
  exit := trivial

end Likeness

namespace Code

open Likeness (lockstep_upToLines)

/-! ### Places -/

theorem sameRun_directive (d : Directive) :
    SameRun .upToLines (.directive d) (.directive d.unplaced) := by
  cases d with
  | trace p =>
    have hheadline := Likeness.write_upToLines fun h =>
      SameUpToLines.headline h p.line Position.nowhere.line
    exact .of_step (evalStep_trace lockstep_upToLines hheadline)
  | _ => exact .refl lockstep_upToLines _

theorem sameRun_number (a : Code) : SameRun .upToLines (.number a) (.number a.unplaced) := by
  have hsame : outcome (.number a.unplaced) = outcome (.number a) := by
    funext m
    rw [outcome_eq (.number a.unplaced), outcome_eq (.number a)]
    simp only [evalStep, toNumber_unplaced]
  rw [SameRun, hsame]
  exact SameRun.refl lockstep_upToLines (.number a)

mutual

/-- Places show in the output only, as lines of traces. -/
theorem sameRun_unplaced : ∀ c : Code, SameRun .upToLines c c.unplaced
  | .int _ | .bool _ | .var _ | .skip => by
      rw [unplaced]
      exact .refl lockstep_upToLines _
  | .not e => by
      rw [unplaced]
      exact .of_step (evalStep_not lockstep_upToLines (sameRun_unplaced e))
  | .binary o l r => by
      rw [unplaced]
      exact .of_step (evalStep_binary lockstep_upToLines o (sameRun_unplaced l)
        (sameRun_unplaced r))
  | .assign x e => by
      rw [unplaced]
      exact .of_step (evalStep_assign lockstep_upToLines x (sameRun_unplaced e))
  | .suite items => by
      rw [unplaced]
      exact .of_step (evalItems_congr (sameRun_unplacedItems items) _)
  | .ifThen c a => by
      rw [unplaced]
      exact .of_step (evalStep_ifThen lockstep_upToLines (sameRun_unplaced c) (sameRun_unplaced a))
  | .ifElse c a b => by
      rw [unplaced]
      exact .of_step (evalStep_ifElse lockstep_upToLines (sameRun_unplaced c) (sameRun_unplaced a)
        (sameRun_unplaced b))
  | .loop c a => by
      rw [unplaced]
      exact .loop lockstep_upToLines (sameRun_unplaced c) (sameRun_unplaced a)
  | .directive d => by
      rw [unplaced]
      exact sameRun_directive d
  | .number a => by
      rw [unplaced]
      exact sameRun_number a
  | .decode cat e => by
      rw [unplaced]
      exact .of_step (evalStep_decode lockstep_upToLines cat (sameRun_unplaced e))
  | .run cat e => by
      rw [unplaced]
      exact .of_step (evalStep_run lockstep_upToLines cat (sameRun_unplaced e)
        (SameRun.refl lockstep_upToLines))

theorem sameRun_unplacedItems : ∀ items : List Code,
    List.Forall₂ (SameRun .upToLines) items (unplacedItems items)
  | [] => by
      rw [unplacedItems]
      exact .nil
  | a :: rest => by
      rw [unplacedItems]
      exact .cons (sameRun_unplaced a) (sameRun_unplacedItems rest)

end

/-! ### Nesting -/

theorem evalItems_append (sub : Code → Run (Option Value)) (as bs : List Code) (v : Option Value) :
    evalItems sub (as ++ bs) v = evalItems sub as v >>= evalItems sub bs := by
  induction as generalizing v with
  | nil => rfl
  | cons a as ih =>
    funext m
    change ((sub a m).andThen fun v m => evalItems sub (as ++ bs) v m) =
      ((sub a m).andThen fun v m => evalItems sub as v m).andThen fun v m => evalItems sub bs v m
    cases sub a m with
    | value v m => exact congrFun (ih v) m
    | _ => rfl

/-- Run in order, the parts of code do what the code does. -/
theorem evalItems_parts {c : Code} (hc : c.parts ≠ []) (v : Option Value) :
    evalItems outcome c.parts v = outcome c := by
  funext m
  obtain ⟨items, rfl⟩ | hparts := parts_cases c
  · obtain ⟨a, rest, hitems⟩ := List.exists_cons_of_ne_nil hc
    change items = _ at hitems
    rw [outcome_eq, hitems]
    rfl
  · rw [hparts, evalItems_singleton]

theorem outcome_suite_parts {c : Code} (hc : c.parts ≠ []) :
    outcome (.suite c.parts) = outcome c := by
  funext m
  rw [outcome_eq]
  exact congrFun (evalItems_parts hc _) m

theorem outcome_asBody {c : Code} (hc : c.parts ≠ []) : outcome c.asBody = outcome c := by
  funext m
  rw [asBody, outcome_eq]
  change evalItems outcome [.suite c.parts] (some .zero) m = _
  rw [evalItems_singleton, outcome_suite_parts hc]

theorem sameRun_asBody {a : Code} (h : SameRun .upToLines a a.reread) :
    SameRun .upToLines a a.reread.asBody := by
  rw [SameRun, outcome_asBody (parts_reread_ne_nil a)]
  exact h

/-- Neither the empty suite nor the number of code. -/
def isRegular : Code → Bool
  | .suite [] | .number _ => false
  | _ => true

mutual

/-- What is read runs like what was written. -/
theorem sameRun_reread : ∀ {c : Code}, (∀ d ∈ c.nodes, d.isRegular = true) →
    SameRun .upToLines c c.reread
  | .int _, _ | .bool _, _ | .var _, _ | .skip, _ => by
      rw [reread]
      exact .refl lockstep_upToLines _
  | .not e, h => by
      simp only [nodes, List.forall_mem_cons] at h
      rw [reread]
      exact .of_step (evalStep_not lockstep_upToLines (sameRun_reread h.2))
  | .binary o l r, h => by
      simp only [nodes, List.forall_mem_cons, List.forall_mem_append] at h
      rw [reread]
      exact .of_step (evalStep_binary lockstep_upToLines o (sameRun_reread h.2.1)
        (sameRun_reread h.2.2))
  | .assign x e, h => by
      simp only [nodes, List.forall_mem_cons] at h
      rw [reread]
      exact .of_step (evalStep_assign lockstep_upToLines x (sameRun_reread h.2))
  | .suite [], h => absurd (h (.suite []) List.mem_cons_self) nofun
  | .suite (a :: rest), h => by
      simp only [nodes, List.forall_mem_cons] at h
      rw [reread]
      exact .of_step (corresponds_rereadItems (List.cons_ne_nil a rest) h.2 (some .zero) (some .zero))
  | .ifThen c a, h => by
      simp only [nodes, List.forall_mem_cons, List.forall_mem_append] at h
      rw [reread]
      exact .of_step (evalStep_ifThen lockstep_upToLines (sameRun_reread h.2.1)
        (sameRun_asBody (sameRun_reread h.2.2)))
  | .ifElse c a b, h => by
      simp only [nodes, List.forall_mem_cons, List.forall_mem_append] at h
      rw [reread]
      exact .of_step (evalStep_ifElse lockstep_upToLines (sameRun_reread h.2.1.1)
        (sameRun_asBody (sameRun_reread h.2.1.2)) (sameRun_asBody (sameRun_reread h.2.2)))
  | .loop c a, h => by
      simp only [nodes, List.forall_mem_cons, List.forall_mem_append] at h
      rw [reread]
      exact .loop lockstep_upToLines (sameRun_reread h.2.1) (sameRun_asBody (sameRun_reread h.2.2))
  | .directive d, _ => by
      rw [reread]
      exact sameRun_directive d
  | .number a, h => absurd (h (.number a) List.mem_cons_self) nofun
  | .decode cat e, h => by
      simp only [nodes, List.forall_mem_cons] at h
      rw [reread]
      exact .of_step (evalStep_decode lockstep_upToLines cat (sameRun_reread h.2))
  | .run cat e, h => by
      simp only [nodes, List.forall_mem_cons] at h
      rw [reread]
      exact .of_step (evalStep_run lockstep_upToLines cat (sameRun_reread h.2)
        (SameRun.refl lockstep_upToLines))

theorem corresponds_rereadItems : ∀ {items : List Code}, items ≠ [] →
    (∀ d ∈ itemNodes items, d.isRegular = true) → ∀ v v' : Option Value,
      Run.Corresponds .upToLines (evalItems outcome items v)
        (evalItems outcome (rereadItems items) v')
  | [], hne, _, _, _ => absurd rfl hne
  | [a], _, h, v, v' => by
      simp only [itemNodes, List.append_nil] at h
      rw [rereadItems, evalItems_parts (parts_reread_ne_nil a)]
      have ha : evalItems outcome [a] v = outcome a := funext (evalItems_singleton a v)
      rw [ha]
      exact sameRun_reread h
  | a :: b :: rest, _, h, v, v' => by
      rw [itemNodes, List.forall_mem_append] at h
      have hfirst : ∀ v, evalItems outcome
          (if a.isOpenEnded then [.suite a.reread.parts] else a.reread.parts) v =
            outcome a.reread := by
        intro v
        split
        · funext m
          rw [evalItems_singleton, outcome_suite_parts (parts_reread_ne_nil a)]
        · exact evalItems_parts (parts_reread_ne_nil a) v
      rw [rereadItems, evalItems_append outcome, hfirst]
      exact (sameRun_reread h.1).bind fun w =>
        corresponds_rereadItems (List.cons_ne_nil b rest) h.2 w w

end

end Code

/-- A printable tree without empty suites and without numbers of code runs like what its text is
parsed as: from the same variables both run for ever, or both end in the same way, with the same
value or error, the same variables in the same order, and the same output up to the lines of
traces. -/
theorem runs_alike_of_parse_render {t : Code} (h : t.isPrintable = true)
    (hsuite : .suite [] ∉ t.nodes) (hnumber : ∀ a, .number a ∉ t.nodes) :
    ∃ t', parse t.render = .ok t' ∧ ∀ m : Machine, m.sink.limit = none →
      (t.Halts m ↔ t'.Halts m) ∧ ∀ r r', t.Ends m r → t'.Ends m r' →
        r.Corresponds .upToLines (· = ·) r' := by
  have hregular : ∀ d ∈ t.nodes, d.isRegular = true := by
    intro d hd
    match d with
    | .suite [] => exact absurd hd hsuite
    | .number a => exact absurd hd (hnumber a)
    | .suite (_ :: _) | .int _ | .bool _ | .var _ | .not _ | .binary _ _ _ | .skip | .assign _ _
    | .ifThen _ _ | .ifElse _ _ _ | .loop _ _ | .directive _ | .decode _ _ | .run _ _ => rfl
  obtain ⟨t', hparse, hunplaced⟩ := exists_parse_render h
  refine ⟨t', hparse, fun m hm => ?_⟩
  have hsame : Ending.Corresponds .upToLines (· = ·) (t.outcome m) (t'.outcome m) := by
    have hm := Likeness.upToLines_refl hm
    have hread := Code.sameRun_reread hregular m m hm
    have hplaced := Code.sameRun_unplaced t' m m hm
    rw [hunplaced, Code.outcome_suite_parts (Code.parts_reread_ne_nil t)] at hplaced
    exact hread.join Likeness.upToLines_join (fun h h' => h.trans h'.symm) hplaced
  refine ⟨?_, ?_⟩
  · rw [Code.halts_iff, Code.halts_iff]
    exact not_congr hsame.outOfFuel_iff
  · intro r r' hr hr'
    obtain ⟨-, rfl⟩ := Code.ends_iff.mp hr
    obtain ⟨-, rfl⟩ := Code.ends_iff.mp hr'
    exact hsame

/-- A loop at the end of an inner suite, which is printed in parentheses as its body is, and a trace
that moves to line one. -/
theorem runs_alike_of_parse_render_loop :
    let t := Code.suite
      [.suite [.assign "x" (.int 0), .loop (.binary (.compare .lt) (.var "x") (.int 2))
        (.assign "x" (.binary (.arith .add) (.var "x") (.int 1)))],
      .directive (.trace ⟨7, 1⟩), .binary .eq (.var "x") (.int 2)]
    let t' := Code.suite
      [.suite [.assign "x" (.int 0), .loop (.binary (.compare .lt) (.var "x") (.int 2))
        (.suite [.suite [.assign "x" (.binary (.arith .add) (.var "x") (.int 1))]])],
      .directive (.trace ⟨1, 42⟩), .binary .eq (.var "x") (.int 2)]
    let m := Machine.ofStore .empty none
    let s := Store.ofList [("x", .int 2)]
    t.render = "(x := 0; while (x < 2) do (x := x + 1)); @trace; x = 2" ∧
      parse t.render = .ok t' ∧
      t.Ends m (.value (some (.bool true))
        ⟨s, none, "-=-=-=- Trace on line 7 -=-=-=-\n  x := 2\n".toUTF8⟩) ∧
      t'.Halts m ∧ ∀ r', t'.Ends m r' → ∃ m', r' = .value (some (.bool true)) m' ∧ m'.store = s ∧
        m'.sink.written = "-=-=-=- Trace on line 1 -=-=-=-\n  x := 2\n".toUTF8 := by
  intro t t' m s
  have hnumber : ∀ a, .number a ∉ t.nodes := by
    intro a
    simp [t, Code.nodes, Code.itemNodes]
  have hparse : parse t.render = .ok t' := by cbv
  obtain ⟨_, hread, hsame⟩ := runs_alike_of_parse_render (t := t) (by decide) (by decide) hnumber
  cases hread.symm.trans hparse
  obtain ⟨hhalts, halike⟩ := hsame m rfl
  have hends : t.Ends m (.value (some (.bool true))
      ⟨s, none, "-=-=-=- Trace on line 7 -=-=-=-\n  x := 2\n".toUTF8⟩) := ⟨by simp, 9, rfl⟩
  have hends' : t'.Ends m (.value (some (.bool true))
      ⟨s, none, "-=-=-=- Trace on line 1 -=-=-=-\n  x := 2\n".toUTF8⟩) := ⟨by simp, 11, rfl⟩
  refine ⟨by decide, hparse, hends, hhalts.mp ⟨9, hends.1⟩, fun r' hr' => ?_⟩
  cases halike _ _ hends hr' with
  | value hvalue hm =>
    have hsame := (Code.ends_iff.mp hr').2.symm.trans (Code.ends_iff.mp hends').2
    cases hsame
    exact ⟨_, rfl, hm.1.symm, rfl⟩

end GodelWhile
