import Mathlib
import GodelWhile.Proofs.Ambiguity
import GodelWhile.Proofs.RoundTrip

/-! # The text of decoded code

Numbers and texts forget different things about code. Numbers forget the difference between a suite
of many items and suites of two nested to the right; texts forget that too, so code whose other
constructs all have numbers of their own keeps its text when it is numbered and read back.

Texts forget more. The number of a suite shows whether its first item is a suite, and the text shows
it only if that item is open-ended and so stands in parentheses:

    suite [suite [a, b], c]    and    suite [a, suite [b, c]]    are both written    a; b; c

`regroup` is decoded code with its suites grouped to the right wherever the text does not show the
grouping. It is what the text stands for: reading the text gives the number of the regrouped code,
and two pieces of decoded code have the same text exactly if they are the same when regrouped. -/

namespace GodelWhile

open GodelWhile.Numbering

namespace Code

/-- Code with the same text, also where it stands as an item of a suite. -/
structure SameText (c c' : Code) : Prop where
  render : c.render = c'.render
  isOpenEnded : c.isOpenEnded = c'.isOpenEnded

namespace SameText

variable {a a' b b' c : Code}

theorem refl (c : Code) : SameText c c := ⟨rfl, rfl⟩

theorem loop (h : SameText a a') : SameText (.loop c a) (.loop c a') :=
  ⟨by rw [Code.render, Code.render, h.render], by simp [Code.isOpenEnded]⟩

theorem ifThen (h : SameText a a') : SameText (.ifThen c a) (.ifThen c a') :=
  ⟨by rw [Code.render, Code.render, h.render], by simp [Code.isOpenEnded]⟩

theorem ifElse (ha : SameText a a') (hb : SameText b b') :
    SameText (.ifElse c a b) (.ifElse c a' b') :=
  ⟨by rw [Code.render, Code.render, ha.render, hb.render], by simp [Code.isOpenEnded]⟩

/-- A first item and all items after it, as a suite of two. -/
theorem cons {rest : List Code} (ha : SameText a a') (hb : SameText b (.suite rest))
    (hrest : rest ≠ []) : SameText (.suite [a, b]) (.suite (a' :: rest)) := by
  obtain ⟨r, rest, rfl⟩ := List.exists_cons_of_ne_nil hrest
  have hrender := hb.render
  have hopen := hb.isOpenEnded
  rw [Code.render] at hrender
  rw [Code.isOpenEnded] at hopen
  exact ⟨by simp [Code.render, renderItems, ha.render, ha.isOpenEnded, hrender],
    by simp [Code.isOpenEnded, endsOpen, hopen]⟩

end SameText

/-! ### Numbers keep the text -/

/-- Statements of constructs that have numbers of their own, in suites of any length, with no
alternative that has the number of `skip`. -/
inductive Verbatim : Code → Prop
  | skip : Verbatim .skip
  | assign {x : String} {e : Code} (hx : x ∈ numberedNames) (he : e.Canonical .arithmetic) :
      Verbatim (.assign x e)
  | loop {c a : Code} (hc : c.Canonical .boolean) (ha : Verbatim a) : Verbatim (.loop c a)
  | ifThen {c a : Code} (hc : c.Canonical .boolean) (ha : Verbatim a) : Verbatim (.ifThen c a)
  | ifElse {c a b : Code} (hc : c.Canonical .boolean) (ha : Verbatim a) (hb : Verbatim b)
      (hno : b.toNumber ≠ .ok 0) : Verbatim (.ifElse c a b)
  | suite {items : List Code} (h : ∀ a ∈ items, Verbatim a) : Verbatim (.suite items)

namespace Verbatim

theorem wellSorted {t : Code} (ht : t.Verbatim) : t.WellSorted .numbered .statement := by
  induction ht with
  | skip => exact .skip
  | assign hx he => exact .assign (decide_eq_true hx) he.wellSorted
  | loop hc _ ih => exact .loop hc.wellSorted ih
  | ifThen hc _ ih => exact .ifThen hc.wellSorted ih
  | ifElse hc _ _ _ iha ihb => exact .ifElse hc.wellSorted iha ihb
  | suite _ ih => exact .suite ih

/-- Only what is normalized to `skip` has its number. -/
theorem toNumber_eq_zero_iff {t : Code} (ht : t.Verbatim) :
    t.toNumber = .ok 0 ↔ t.normalize = .skip := by
  have hgives := gives_toNumber ht.wellSorted
  constructor
  · intro hzero
    by_contra hskip
    rw [hzero] at hgives
    rcases hgives with hok | ⟨hlarge, -⟩
    · exact godel_ne_zero (canonical_normalize ht.wellSorted) hskip (Except.ok.inj hok).symm
    · cases hlarge
  · intro hskip
    rw [hskip, godel.eq_def .skip] at hgives
    rcases hgives with hok | ⟨-, hlarge⟩
    · exact hok
    · exact absurd hlarge (Nat.not_le.mpr (Nat.two_pow_pos _))

end Verbatim

theorem sameText_normalizeItems : ∀ {items : List Code}, (∀ a ∈ items, SameText a.normalize a) →
    SameText (normalizeItems items) (.suite items)
  | [], _ => by
    rw [normalizeItems]
    exact ⟨by simp [render, renderItems], by simp [isOpenEnded, endsOpen]⟩
  | [a], h => by
    have ha := h a List.mem_cons_self
    rw [normalizeItems]
    exact ⟨by simp [render, renderItems, ha.render], by simp [isOpenEnded, endsOpen, ha.isOpenEnded]⟩
  | a :: b :: rest, h => by
    have hrest := sameText_normalizeItems fun a' ha' => h a' (List.mem_cons_of_mem a ha')
    rw [normalizeItems]
    exact .cons (h a List.mem_cons_self) hrest (List.cons_ne_nil b rest)

/-- The normal form of such a statement has the text of the statement. -/
theorem Verbatim.sameText {t : Code} (ht : t.Verbatim) : SameText t.normalize t := by
  induction ht with
  | skip =>
    rw [normalize_canonical .skip]
    exact .refl _
  | assign hx he =>
    rw [normalize, normalize_canonical he]
    exact .refl _
  | loop hc _ ih =>
    rw [normalize, normalize_canonical hc]
    exact .loop ih
  | ifThen hc _ ih =>
    rw [normalize, normalize_canonical hc]
    exact .ifThen ih
  | ifElse hc _ hb hno iha ihb =>
    rw [normalize, normalize_canonical hc, branching]
    · exact .ifElse iha ihb
    · exact fun hskip => hno (hb.toNumber_eq_zero_iff.mpr hskip)
  | suite _ ih =>
    rw [normalize]
    exact sameText_normalizeItems ih

/-- A statement of constructs that have numbers of their own keeps its text when it is numbered and
read back. -/
theorem render_of_ofNumber_toNumber {t t' : Code} {n : Nat} (ht : t.Verbatim)
    (hn : t.toNumber = .ok n) (ht' : ofNumber .statement n = .ok t') : t'.render = t.render := by
  rw [ofNumber_of_toNumber ht.wellSorted hn, shallow] at ht'
  split at ht' <;> cases ht'
  exact ht.sameText.render

/-- Empty suites and suites of one item, the last one in a branching. -/
theorem render_of_ofNumber_toNumber_suites :
    let t := Code.suite [.suite [], .suite [.suite []], .assign "x" (.int 0),
      .ifElse (.bool true) (.suite []) (.suite [.skip, .loop (.bool false) (.suite [.skip])])]
    let t' := Code.suite [.skip, .suite [.skip, .suite [.assign "x" (.int 0),
      .ifElse (.bool true) .skip (.suite [.skip, .loop (.bool false) .skip])]]]
    let text := "skip; skip; x := 0; if true then (skip) else (skip; while false do (skip))"
    t.toNumber = .ok 1418203 ∧ ofNumber .statement 1418203 = .ok t' ∧ t.render = text ∧
      t'.render = text := by
  intro t t' text
  have hempty : Verbatim (.suite []) := .suite (by simp)
  have hnested : Verbatim (.suite [.suite []]) := .suite (by simpa using hempty)
  have hloop : Verbatim (.loop (.bool false) (.suite [.skip])) :=
    .loop (.bool false) (.suite (by simpa using .skip))
  have hno : Verbatim (.suite [.skip, .loop (.bool false) (.suite [.skip])]) :=
    .suite (by simpa using ⟨.skip, hloop⟩)
  have hbranching := Verbatim.ifElse (.bool true) hempty hno (by decide)
  have hassign : Verbatim (.assign "x" (.int 0)) := .assign (by decide) (.int 0)
  have ht : t.Verbatim := .suite (by simpa [t] using ⟨hempty, hnested, hassign, hbranching⟩)
  have hn : t.toNumber = .ok 1418203 := by decide
  have ht' : ofNumber .statement 1418203 = .ok t' := by decide
  have htext : t.render = text := by decide
  exact ⟨hn, ht', htext, (render_of_ofNumber_toNumber ht hn ht').trans htext⟩

/-! ### Grouping to the right -/

/-- Whether the code is written as one item where others follow it: it is no suite of two, or it is
open-ended and gets parentheses. -/
def isOneItem : Code → Bool
  | .suite [_, b] => b.isOpenEnded
  | _ => true

/-- The suite that is written as `a` followed by `c`, grouped to the right. -/
def follow : Code → Code → Code
  | .suite [a, b], c =>
      if b.isOpenEnded then .suite [.suite [a, b], c] else .suite [a, follow b c]
  | a, c => .suite [a, c]

/-- Canonical code with its suites grouped to the right where the text does not show the grouping. -/
def regroup : Code → Code
  | .suite [a, b] => follow (regroup a) (regroup b)
  | .ifThen c a => .ifThen c (regroup a)
  | .ifElse c a b => .ifElse c (regroup a) (regroup b)
  | .loop c a => .loop c (regroup a)
  | c => c

theorem isOpenEnded_pair (a b : Code) : (suite [a, b]).isOpenEnded = b.isOpenEnded := by
  simp only [isOpenEnded, endsOpen]

theorem isOneItem_of_isOpenEnded {a : Code} (ha : a.isOpenEnded = true) : a.isOneItem = true := by
  fun_cases isOneItem a with
  | case1 _ b => rwa [isOpenEnded_pair] at ha
  | case2 => rfl

theorem isOneItem_of_ne_pair {a : Code} (ha : ∀ b b', a ≠ .suite [b, b']) : a.isOneItem = true := by
  rw [isOneItem]
  exact ha

theorem follow_of_isOneItem {a : Code} (ha : a.isOneItem = true) (c : Code) :
    follow a c = .suite [a, c] := by
  fun_cases follow a c with
  | case1 a b c hopen => rfl
  | case2 a b c hclosed => exact absurd ha hclosed
  | case3 a c hpair => rfl

theorem follow_pair {b : Code} (hb : b.isOpenEnded = false) (a c : Code) :
    follow (.suite [a, b]) c = .suite [a, follow b c] := by
  rw [follow, hb]
  rfl

theorem isOpenEnded_follow (a c : Code) : (follow a c).isOpenEnded = c.isOpenEnded := by
  fun_induction follow a c with
  | case1 a b c hopen => rw [isOpenEnded_pair]
  | case2 a b c hclosed ih => rw [isOpenEnded_pair, ih]
  | case3 a c hpair => rw [isOpenEnded_pair]

theorem follow_assoc {b : Code} (hb : b.isOpenEnded = false) (a c : Code) :
    follow (follow a b) c = follow a (follow b c) := by
  fun_induction follow a b with
  | case1 a a' b hopen =>
    have hfirst : (suite [a, a']).isOneItem = true := hopen
    rw [follow_pair hb, follow_of_isOneItem hfirst]
  | case2 a a' b hclosed ih =>
    have hlast : (follow a' b).isOpenEnded = false := by rw [isOpenEnded_follow, hb]
    rw [follow_pair hlast, ih hb, follow_pair (Bool.eq_false_of_not_eq_true hclosed)]
  | case3 a b hpair => rw [follow_pair hb, follow_of_isOneItem (isOneItem_of_ne_pair hpair)]

/-! ### What the text stands for -/

theorem normalizeItems_cons (a : Code) {bs : List Code} (hbs : bs ≠ []) :
    normalizeItems (a :: bs) = .suite [a.normalize, normalizeItems bs] := by
  obtain ⟨b, bs, rfl⟩ := List.exists_cons_of_ne_nil hbs
  rw [normalizeItems]

theorem normalizeItems_parts (c : Code) : normalizeItems c.parts = c.normalize := by
  obtain ⟨items, rfl⟩ | hparts := parts_cases c
  · rw [normalize]
    rfl
  · rw [hparts, normalizeItems]

theorem normalize_suite_parts (c : Code) : (suite c.parts).normalize = c.normalize := by
  rw [normalize, normalizeItems_parts]

theorem normalize_asBody (c : Code) : c.asBody.normalize = c.normalize := by
  rw [asBody, normalize, normalizeItems, normalize_suite_parts]

/-- What is read where `t` is written has the normal form `r`, alone and, if no parentheses are
needed, before other items. -/
structure ReadsAs (t r : Code) : Prop where
  alone : t.reread.normalize = r
  before : t.isOpenEnded = false → ∀ {bs : List Code}, bs ≠ [] →
    normalizeItems (t.reread.parts ++ bs) = follow r (normalizeItems bs)
  isOpenEnded : r.isOpenEnded = t.isOpenEnded

namespace ReadsAs

variable {a b t r s : Code}

/-- Before other items, with the parentheses it gets there. -/
theorem item (h : ReadsAs t r) {bs : List Code} (hbs : bs ≠ []) :
    normalizeItems ((if t.isOpenEnded then [.suite t.reread.parts] else t.reread.parts) ++ bs) =
      follow r (normalizeItems bs) := by
  cases hopen : t.isOpenEnded with
  | true =>
    rw [if_pos rfl, List.singleton_append, normalizeItems_cons _ hbs, normalize_suite_parts,
      h.alone, follow_of_isOneItem (isOneItem_of_isOpenEnded (h.isOpenEnded.trans hopen))]
  | false =>
    rw [if_neg Bool.false_ne_true, h.before hopen hbs]

theorem pair (ha : ReadsAs a r) (hb : ReadsAs b s) : ReadsAs (.suite [a, b]) (follow r s) where
  alone := by
    rw [reread, normalize, rereadItems, rereadItems, ha.item (parts_reread_ne_nil b),
      normalizeItems_parts, hb.alone]
  before := by
    intro hclosed bs hbs
    rw [isOpenEnded_pair] at hclosed
    -- what follows `a` is the items of `b` and those after the suite, all in one list
    have hrest := List.append_ne_nil_of_right_ne_nil b.reread.parts hbs
    rw [reread, parts, rereadItems, rereadItems, List.append_assoc, ha.item hrest,
      hb.before hclosed hbs, follow_assoc (hb.isOpenEnded.trans hclosed)]
  isOpenEnded := by rw [isOpenEnded_follow, hb.isOpenEnded, isOpenEnded_pair]

/-- Code that is its own only item and is read as it is. -/
theorem unchanged (hread : t.reread = t) (hparts : t.parts = [t]) (hnormalize : t.normalize = t)
    (ht : t.isOneItem = true) : ReadsAs t t where
  alone := by rw [hread, hnormalize]
  before := by
    intro _ bs hbs
    rw [hread, hparts, List.singleton_append, normalizeItems_cons _ hbs, hnormalize,
      follow_of_isOneItem ht]
  isOpenEnded := rfl

/-- Code that never stands before other items without parentheses. -/
theorem parenthesized (hnormalize : t.reread.normalize = r) (ht : t.isOpenEnded = true)
    (hr : r.isOpenEnded = true) : ReadsAs t r where
  alone := hnormalize
  before := by
    intro hclosed
    rw [ht] at hclosed
    cases hclosed
  isOpenEnded := by rw [hr, ht]

end ReadsAs

/-- Canonical expressions have no directives. -/
theorem Canonical.isPure {cat : Category} {e : Code} (h : e.Canonical cat)
    (hcat : cat ≠ .statement) : e.isPure = true := by
  induction h with
  | int | var | bool => rfl
  | arith _ _ _ ihl ihr => simp only [Code.isPure, ihl hcat, ihr hcat, Bool.and_self]
  | eq _ _ ihl ihr | le _ _ ihl ihr =>
    simp only [Code.isPure, ihl (by decide), ihr (by decide), Bool.and_self]
  | not _ ih => simp only [Code.isPure, ih hcat]
  | and _ _ ihl ihr => simp only [Code.isPure, ihl hcat, ihr hcat, Bool.and_self]
  | _ => exact absurd rfl hcat

theorem Canonical.reread_expression {cat : Category} {e : Code} (h : e.Canonical cat)
    (hcat : cat ≠ .statement) : e.reread = e :=
  reread_of_isPure (h.isPure hcat)

theorem regroup_ne_skip {t : Code} (ht : t ≠ .skip) : t.regroup ≠ .skip := by
  have hfollow : ∀ a c : Code, follow a c ≠ .skip := by
    intro a c
    fun_cases follow a c <;> simp [*]
  fun_cases regroup t with
  | case1 a b => exact hfollow _ _
  | case5 => exact ht
  | _ => exact Code.noConfusion

/-- Decoded code is read as the regrouped code where it is written. -/
theorem Canonical.readsAs {t : Code} (ht : t.Canonical .statement) : ReadsAs t t.regroup := by
  generalize hcat : Category.statement = cat at ht
  induction ht with
  | skip =>
    simp only [regroup]
    exact .unchanged (by rw [reread]) rfl (normalize_canonical .skip) rfl
  | assign hx he =>
    simp only [regroup]
    exact .unchanged (by rw [reread, he.reread_expression (by decide)]) rfl
      (normalize_canonical (.assign hx he)) rfl
  | loop hc _ _ iha =>
    rw [regroup]
    refine .parenthesized ?_ (by simp [isOpenEnded]) (by simp [isOpenEnded])
    rw [reread, hc.reread_expression (by decide), normalize, normalize_canonical hc,
      normalize_asBody, (iha hcat).alone]
  | suite _ _ iha ihb =>
    rw [regroup]
    exact (iha hcat).pair (ihb hcat)
  | ifThen hc _ _ iha =>
    rw [regroup]
    refine .parenthesized ?_ (by simp [isOpenEnded]) (by simp [isOpenEnded])
    rw [reread, hc.reread_expression (by decide), normalize, normalize_canonical hc,
      normalize_asBody, (iha hcat).alone]
  | ifElse hc _ _ hskip _ iha ihb =>
    rw [regroup]
    refine .parenthesized ?_ (by simp [isOpenEnded]) (by simp [isOpenEnded])
    rw [reread, hc.reread_expression (by decide), normalize, normalize_canonical hc,
      normalize_asBody, (iha hcat).alone, normalize_asBody, (ihb hcat).alone, branching]
    exact regroup_ne_skip hskip
  | _ => cases hcat

/-! ### The text read back keeps the text -/

theorem Verbatim.parts {t : Code} (ht : t.Verbatim) : ∀ a ∈ t.parts, a.Verbatim := by
  obtain ⟨items, rfl⟩ | hparts := parts_cases t
  · cases ht with
    | suite h => exact h
  · rw [hparts]
    intro a ha
    rw [List.mem_singleton.mp ha]
    exact ht

theorem Verbatim.suite_parts {t : Code} (ht : t.Verbatim) : (Code.suite t.parts).Verbatim :=
  .suite ht.parts

theorem Verbatim.asBody {t : Code} (ht : t.Verbatim) : t.asBody.Verbatim :=
  .suite fun _ ha => List.mem_singleton.mp ha ▸ ht.suite_parts

/-- What is read where decoded code is written is made of constructs that have numbers. -/
theorem Canonical.verbatim_reread {t : Code} (ht : t.Canonical .statement) : t.reread.Verbatim := by
  generalize hcat : Category.statement = cat at ht
  induction ht with
  | skip =>
    rw [reread]
    exact .skip
  | assign hx he =>
    rw [reread, he.reread_expression (by decide)]
    exact .assign hx he
  | loop hc _ _ iha =>
    rw [reread, hc.reread_expression (by decide)]
    exact .loop hc (iha hcat).asBody
  | suite _ _ iha ihb =>
    rw [reread, rereadItems, rereadItems]
    refine .suite fun c hmem => ?_
    rcases List.mem_append.mp hmem with ha | hb
    · split at ha
      · rw [List.mem_singleton.mp ha]
        exact (iha hcat).suite_parts
      · exact (iha hcat).parts c ha
    · exact (ihb hcat).parts c hb
  | ifThen hc _ _ iha =>
    rw [reread, hc.reread_expression (by decide)]
    exact .ifThen hc (iha hcat).asBody
  | @ifElse c a b hc _ hb hskip _ iha ihb =>
    have hno : b.reread.asBody.toNumber ≠ .ok 0 := by
      rw [Ne, (ihb hcat).asBody.toNumber_eq_zero_iff, normalize_asBody, hb.readsAs.alone]
      exact regroup_ne_skip hskip
    rw [reread, hc.reread_expression (by decide)]
    exact .ifElse hc (iha hcat).asBody (ihb hcat).asBody hno
  | _ => cases hcat

/-- Regrouping keeps the text. -/
theorem Canonical.render_regroup {t : Code} (ht : t.Canonical .statement) :
    t.regroup.render = t.render := by
  rw [← ht.readsAs.alone, ht.verbatim_reread.sameText.render, render_reread]

theorem Canonical.regroup {t : Code} (ht : t.Canonical .statement) :
    t.regroup.Canonical .statement := by
  rw [← ht.readsAs.alone]
  exact canonical_normalize ht.verbatim_reread.wellSorted

/-! ### Grouped code -/

/-- Whether the text of a suite of two shows its first item as one item. -/
def showsGrouping : Code → Bool
  | .suite [a, _] => a.isOneItem
  | _ => true

/-- Whether the text shows the grouping of all suites in the code. -/
def isGrouped (t : Code) : Bool := t.nodes.all showsGrouping

theorem showsGrouping_of_isPure : ∀ {e : Code}, e.isPure = true → e.nodes.all showsGrouping = true
  | .int n, _ | .bool b, _ | .var x, _ => by simp [nodes, showsGrouping]
  | .not e, h => by
      have he := showsGrouping_of_isPure (e := e) h
      simp [nodes, showsGrouping, he]
  | .binary o l r, h => by
      rw [isPure, Bool.and_eq_true] at h
      have hl := showsGrouping_of_isPure h.1
      have hr := showsGrouping_of_isPure h.2
      simp [nodes, showsGrouping, hl, hr]

theorem isGrouped_assign {x : String} {e : Code} (he : e.Canonical .arithmetic) :
    (assign x e).isGrouped = true := by
  have hpure := showsGrouping_of_isPure (he.isPure (by decide))
  simp [isGrouped, nodes, showsGrouping, hpure]

theorem isGrouped_pair {a c : Code} :
    (suite [a, c]).isGrouped = true ↔
      a.isOneItem = true ∧ a.isGrouped = true ∧ c.isGrouped = true := by
  simp [isGrouped, nodes, itemNodes, showsGrouping]

theorem isGrouped_loop {c a : Code} (hc : c.Canonical .boolean) :
    (loop c a).isGrouped = a.isGrouped := by
  have hpure := showsGrouping_of_isPure (hc.isPure (by decide))
  simp [isGrouped, nodes, showsGrouping, hpure]

theorem isGrouped_ifThen {c a : Code} (hc : c.Canonical .boolean) :
    (ifThen c a).isGrouped = a.isGrouped := by
  have hpure := showsGrouping_of_isPure (hc.isPure (by decide))
  simp [isGrouped, nodes, showsGrouping, hpure]

theorem isGrouped_ifElse {c a b : Code} (hc : c.Canonical .boolean) :
    (ifElse c a b).isGrouped = true ↔ a.isGrouped = true ∧ b.isGrouped = true := by
  have hpure := showsGrouping_of_isPure (hc.isPure (by decide))
  simp [isGrouped, nodes, showsGrouping, hpure]

theorem isGrouped_follow {a c : Code} (ha : a.isGrouped = true) (hc : c.isGrouped = true) :
    (follow a c).isGrouped = true := by
  fun_induction follow a c with
  | case1 a b c hopen => exact isGrouped_pair.mpr ⟨hopen, ha, hc⟩
  | case2 a b c hclosed ih =>
    obtain ⟨hfirst, ha, hb⟩ := isGrouped_pair.mp ha
    exact isGrouped_pair.mpr ⟨hfirst, ha, ih hb hc⟩
  | case3 a c hpair => exact isGrouped_pair.mpr ⟨isOneItem_of_ne_pair hpair, ha, hc⟩

theorem Canonical.isGrouped_regroup {t : Code} (ht : t.Canonical .statement) :
    t.regroup.isGrouped = true := by
  generalize hcat : Category.statement = cat at ht
  induction ht with
  | skip => simp [Code.regroup, isGrouped, nodes, showsGrouping]
  | assign hx he =>
    simp only [Code.regroup]
    exact isGrouped_assign he
  | loop hc _ _ iha =>
    rw [Code.regroup, isGrouped_loop hc]
    exact iha hcat
  | suite _ _ iha ihb =>
    rw [Code.regroup]
    exact isGrouped_follow (iha hcat) (ihb hcat)
  | ifThen hc _ _ iha =>
    rw [Code.regroup, isGrouped_ifThen hc]
    exact iha hcat
  | ifElse hc _ _ _ _ iha ihb =>
    rw [Code.regroup, isGrouped_ifElse hc]
    exact ⟨iha hcat, ihb hcat⟩
  | _ => cases hcat

theorem Canonical.regroup_of_isGrouped {t : Code} (ht : t.Canonical .statement)
    (h : t.isGrouped = true) : t.regroup = t := by
  generalize hcat : Category.statement = cat at ht
  induction ht with
  | skip | assign => simp only [Code.regroup]
  | loop hc _ _ iha =>
    rw [isGrouped_loop hc] at h
    rw [Code.regroup, iha h hcat]
  | suite _ _ iha ihb =>
    obtain ⟨hfirst, ha, hb⟩ := isGrouped_pair.mp h
    rw [Code.regroup, iha ha hcat, ihb hb hcat, follow_of_isOneItem hfirst]
  | ifThen hc _ _ iha =>
    rw [isGrouped_ifThen hc] at h
    rw [Code.regroup, iha h hcat]
  | ifElse hc _ _ _ _ iha ihb =>
    obtain ⟨ha, hb⟩ := (isGrouped_ifElse hc).mp h
    rw [Code.regroup, iha ha hcat, ihb hb hcat]
  | _ => cases hcat

/-- Regrouping changes exactly the code whose text does not show its grouping. -/
theorem Canonical.regroup_eq_iff {t : Code} (ht : t.Canonical .statement) :
    t.regroup = t ↔ t.isGrouped = true := by
  constructor
  · intro heq
    rw [← heq]
    exact ht.isGrouped_regroup
  · exact ht.regroup_of_isGrouped

/-! ### Printing and parsing decoded code -/

theorem isExpression_of_isPure {e : Code} (h : e.isPure = true) : e.isExpression = true := by
  cases e with
  | int | bool | var | not | binary => rfl
  | _ => simp [isPure] at h

theorem isName_numbered {x : String} (hx : x ∈ numberedNames) : Lexeme.isName x = true := by
  simp only [numberedNames, List.mem_cons, List.not_mem_nil, or_false] at hx
  rcases hx with rfl | rfl | rfl <;> decide

theorem Canonical.isExpression {cat : Category} {e : Code} (h : e.Canonical cat)
    (hcat : cat ≠ .statement) : e.isExpression = true :=
  isExpression_of_isPure (h.isPure hcat)

theorem Canonical.isShaped {cat : Category} {c : Code} (h : c.Canonical cat) :
    c.isShaped Code.isExpression = true := by
  induction h with
  | int | var | bool | skip => simp [Code.isShaped]
  | arith _ hl hr ihl ihr | eq hl hr ihl ihr | le hl hr ihl ihr | and hl hr ihl ihr =>
    simp [Code.isShaped, hl.isExpression, hr.isExpression, ihl, ihr]
  | not he ih | assign _ he ih => simp [Code.isShaped, he.isExpression, ih]
  | loop hc _ ihc iha | ifThen hc _ ihc iha => simp [Code.isShaped, hc.isExpression, ihc, iha]
  | ifElse hc _ _ _ ihc iha ihb => simp [Code.isShaped, hc.isExpression, ihc, iha, ihb]
  | suite _ _ iha ihb => simp [Code.isShaped, areShaped, iha, ihb]

theorem Canonical.isWritable {cat : Category} {c : Code} (h : c.Canonical cat) :
    c.isWritable = true := by
  induction h with
  | int | bool | skip => simp [Code.isWritable]
  | var hx => rw [Code.isWritable, isName_numbered hx]
  | arith _ _ _ ihl ihr | eq _ _ ihl ihr | le _ _ ihl ihr | and _ _ ihl ihr =>
    simp [Code.isWritable, ihl, ihr]
  | not _ ih => simp [Code.isWritable, ih]
  | assign hx _ ih => simp [Code.isWritable, isName_numbered hx, ih]
  | loop _ _ ihc iha | ifThen _ _ ihc iha => simp [Code.isWritable, ihc, iha]
  | ifElse _ _ _ _ ihc iha ihb => simp [Code.isWritable, ihc, iha, ihb]
  | suite _ _ iha ihb => simp [Code.isWritable, areWritable, iha, ihb]

theorem Canonical.isPrintable {cat : Category} {c : Code} (h : c.Canonical cat) :
    c.isPrintable = true := by
  rw [Code.isPrintable, h.isShaped, h.isWritable, Bool.and_self]

end Code

/-- The text of decoded code is parsed as a program whose normal form is the regrouped code. -/
theorem Code.Canonical.exists_parse_render {t : Code} (ht : t.Canonical .statement) :
    ∃ p, parse t.render = .ok p ∧ p.unplaced.Verbatim ∧ p.unplaced.normalize = t.regroup := by
  obtain ⟨p, hparse, hunplaced⟩ := GodelWhile.exists_parse_render ht.isPrintable
  refine ⟨p, hparse, ?_, ?_⟩
  · rw [hunplaced]
    exact ht.verbatim_reread.suite_parts
  · rw [hunplaced, Code.normalize_suite_parts, ht.readsAs.alone]

/-- Decoded code has the text of other decoded code exactly if the two are the same when regrouped. -/
theorem Code.Canonical.render_eq_iff {t t' : Code} (ht : t.Canonical .statement)
    (ht' : t'.Canonical .statement) : t'.render = t.render ↔ t'.regroup = t.regroup := by
  constructor
  · intro htext
    -- one text has one program, and the program determines the regrouped code
    obtain ⟨p, hparse, -, hp⟩ := ht.exists_parse_render
    obtain ⟨p', hparse', -, hp'⟩ := ht'.exists_parse_render
    rw [htext, hparse] at hparse'
    cases hparse'
    rw [← hp', hp]
  · intro hregroup
    rw [← ht'.render_regroup, hregroup, ht.render_regroup]

/-- The text of decoded code is parsed as a program with the number of the regrouped code, which is
the number that was decoded exactly if the text shows the grouping. Decoded code has the text of
other decoded code exactly if the two are the same when regrouped. -/
theorem toNumber_parse_render {n : Nat} {t : Code} (h : Code.ofNumber .statement n = .ok t) :
    (∃ p, parse t.render = .ok p ∧ Gives p.toNumber t.regroup.godel) ∧
      (t.regroup.godel = n ↔ t.isGrouped = true) ∧
      ∀ n' t', Code.ofNumber .statement n' = .ok t' →
        (t'.render = t.render ↔ t'.regroup = t.regroup) := by
  obtain ⟨ht, -, rfl⟩ := Code.ofNumber_eq_ok_iff.mp h
  refine ⟨?_, ?_, ?_⟩
  · obtain ⟨p, hparse, hverbatim, hnormalize⟩ := ht.exists_parse_render
    refine ⟨p, hparse, ?_⟩
    rw [← Code.toNumber_unplaced, ← hnormalize]
    exact Code.gives_toNumber hverbatim.wellSorted
  · rw [← ht.regroup_eq_iff]
    constructor
    · exact ht.regroup.eq_of_godel_eq ht
    · exact congrArg Code.godel
  · intro n' t' h'
    obtain ⟨ht', -, -⟩ := Code.ofNumber_eq_ok_iff.mp h'
    exact ht.render_eq_iff ht'

/-- A suite in parentheses, which the text shows. -/
theorem toNumber_parse_render_parenthesized :
    let t := Code.suite [.suite [.skip, .loop (.bool true) .skip], .skip]
    Code.ofNumber .statement 8191 = .ok t ∧ t.render = "(skip; while true do (skip)); skip" ∧
      ∃ p, parse t.render = .ok p ∧ Gives p.toNumber 8191 := by
  intro t
  have ht : Code.ofNumber .statement 8191 = .ok t := by decide
  obtain ⟨⟨p, hparse, hp⟩, hiff, -⟩ := toNumber_parse_render ht
  rw [hiff.mpr (by decide)] at hp
  exact ⟨ht, by decide, p, hparse, hp⟩

/-- Two numbers whose code has the same text. The text is parsed as a program with one of them. -/
theorem render_eq_of_nested_suites :
    let t := Code.suite [.suite [.skip, .skip], .skip]
    let t' := Code.suite [.skip, .suite [.skip, .skip]]
    let p := Code.suite [.skip, .skip, .skip]
    Code.ofNumber .statement 31 = .ok t ∧ Code.ofNumber .statement 27 = .ok t' ∧
      t.render = "skip; skip; skip" ∧ t'.render = "skip; skip; skip" ∧
      parse "skip; skip; skip" = .ok p ∧ p.toNumber = .ok 27 := by
  intro t t' p
  exact ⟨by decide, by decide, by decide, by decide, by cbv, by decide⟩

end GodelWhile
