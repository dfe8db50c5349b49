import Mathlib
import GodelWhile.Code.Render
import GodelWhile.Numbering.Encoding
import GodelWhile.Proofs.Placement

/-! # Suites in suites

The text of a tree does not show how its suites nest: items of an inner suite are written as items of
the outer one, and a body is written in parentheses whether or not it is a suite. `flat` forgets this
nesting, and the places of directives with it. `reread` is the tree that the parser makes of the
text: inner suites are spliced except where parentheses were needed, and bodies are suites of one
suite. Both have the same `flat` tree and the same text (`flat_reread`, `render_reread`). Places alone
change neither the text nor the number (`render_unplaced`, `toNumber_unplaced`). -/

namespace GodelWhile

open GodelWhile.Numbering

theorem Directive.unplaced_unplaced (d : Directive) : d.unplaced.unplaced = d.unplaced := by
  cases d <;> rfl

namespace Code

/-- The items of a suite; other code is its own only item. -/
def parts : Code → List Code
  | .suite items => items
  | c => [c]

theorem parts_cases (c : Code) : (∃ items, c = .suite items) ∨ c.parts = [c] := by
  cases c <;> simp [parts]

mutual

/-- The code with nested suites spliced into the suites and bodies they stand in, an empty suite
taken for one that does nothing, and places forgotten. -/
def flat : Code → Code
  | .int n => .int n
  | .bool b => .bool b
  | .var x => .var x
  | .not e => .not (flat e)
  | .binary o l r => .binary o (flat l) (flat r)
  | .skip => .skip
  | .assign x e => .assign x (flat e)
  | .suite [] => .suite [.skip]
  | .suite (a :: rest) => .suite (flatItems (a :: rest))
  | .ifThen c a => .ifThen (flat c) (.suite (flat a).parts)
  | .ifElse c a b => .ifElse (flat c) (.suite (flat a).parts) (.suite (flat b).parts)
  | .loop c a => .loop (flat c) (.suite (flat a).parts)
  | .directive d => .directive d.unplaced
  | .number a => .number (.suite (flat a).parts)
  | .decode cat e => .decode cat (flat e)
  | .run cat e => .run cat (flat e)

/-- The items of all items. -/
def flatItems : List Code → List Code
  | [] => []
  | a :: rest => (flat a).parts ++ flatItems rest

end

/-- The body that is read where the code is written in parentheses. -/
def asBody (c : Code) : Code := .suite [.suite c.parts]

mutual

/-- The code that is read where the code is written. -/
def reread : Code → Code
  | .int n => .int n
  | .bool b => .bool b
  | .var x => .var x
  | .not e => .not (reread e)
  | .binary o l r => .binary o (reread l) (reread r)
  | .skip => .skip
  | .assign x e => .assign x (reread e)
  | .suite items => .suite (rereadItems items)
  | .ifThen c a => .ifThen (reread c) (reread a).asBody
  | .ifElse c a b => .ifElse (reread c) (reread a).asBody (reread b).asBody
  | .loop c a => .loop (reread c) (reread a).asBody
  | .directive d => .directive d.unplaced
  | .number a => .number (reread a).asBody
  | .decode cat e => .decode cat (reread e)
  | .run cat e => .run cat (reread e)

/-- The items that are read where the items are written. Only an item in parentheses stays a suite
of its own. -/
def rereadItems : List Code → List Code
  | [] => [.skip]
  | [a] => (reread a).parts
  | a :: b :: rest =>
      (if a.isOpenEnded then [.suite (reread a).parts] else (reread a).parts) ++
        rereadItems (b :: rest)

end

/-! ### The same statements -/

theorem flatItems_append (as bs : List Code) :
    flatItems (as ++ bs) = flatItems as ++ flatItems bs := by
  induction as with
  | nil => rw [List.nil_append, flatItems, List.nil_append]
  | cons a as ih => rw [List.cons_append, flatItems, flatItems, ih, List.append_assoc]

/-- Apart from the empty suite, the parts of code hold the same statements as the code. -/
theorem flatItems_parts {c : Code} (hc : c.parts ≠ []) : flatItems c.parts = c.flat.parts := by
  obtain ⟨items, rfl⟩ | hparts := parts_cases c
  · rcases items with _ | ⟨a, rest⟩
    · exact absurd rfl hc
    · rw [flat]
      rfl
  · rw [hparts, flatItems, flatItems, List.append_nil]

theorem flat_suite {items : List Code} (h : items ≠ []) :
    (suite items).flat = .suite (flatItems items) := by
  rcases items with _ | ⟨a, rest⟩
  · exact absurd rfl h
  · rw [flat]

/-- Splicing its parts into a suite of their own changes nothing. -/
theorem flat_suite_parts {c : Code} (hc : c.parts ≠ []) :
    (suite c.parts).flat.parts = c.flat.parts := by
  rw [flat_suite hc, parts, flatItems_parts hc]

theorem flat_asBody {c : Code} (hc : c.parts ≠ []) : c.asBody.flat.parts = c.flat.parts := by
  rw [asBody, flat, parts, flatItems, flatItems, List.append_nil, flat_suite_parts hc]

theorem rereadItems_ne_nil : ∀ items : List Code, (∀ a ∈ items, a.reread.parts ≠ []) →
    rereadItems items ≠ []
  | [], _ => by
      rw [rereadItems]
      exact List.cons_ne_nil _ _
  | [a], h => by
      rw [rereadItems]
      exact h a (.head _)
  | a :: b :: rest, h => by
      rw [rereadItems]
      exact List.append_ne_nil_of_right_ne_nil _
        (rereadItems_ne_nil (b :: rest) fun a ha => h a (.tail _ ha))

theorem parts_reread_ne_nil : ∀ c : Code, c.reread.parts ≠ []
  | .suite items => by
      rw [reread]
      exact rereadItems_ne_nil items fun a _ => parts_reread_ne_nil a
  | .int _ | .bool _ | .var _ | .not _ | .binary _ _ _ | .skip | .assign _ _ | .ifThen _ _
  | .ifElse _ _ _ | .loop _ _ | .directive _ | .number _ | .decode _ _ | .run _ _ => by
      simp [reread, parts]

mutual

/-- What is read holds the same statements as what was written. -/
theorem flat_reread : ∀ c : Code, c.reread.flat = c.flat
  | .int n => by rw [reread]
  | .bool b => by rw [reread]
  | .var x => by rw [reread]
  | .not e => by rw [reread, flat, flat, flat_reread e]
  | .binary o l r => by rw [reread, flat, flat, flat_reread l, flat_reread r]
  | .skip => by rw [reread]
  | .assign x e => by rw [reread, flat, flat, flat_reread e]
  | .suite [] => by simp [reread, rereadItems, flat, flatItems, parts]
  | .suite (a :: rest) => by
      rw [reread, flat_suite (rereadItems_ne_nil _ fun c _ => parts_reread_ne_nil c), flat,
        flatItems_rereadItems (a :: rest) (List.cons_ne_nil _ _)]
  | .ifThen c a => by
      rw [reread, flat, flat, flat_reread c, flat_asBody (parts_reread_ne_nil a), flat_reread a]
  | .ifElse c a b => by
      rw [reread, flat, flat, flat_reread c, flat_asBody (parts_reread_ne_nil a), flat_reread a,
        flat_asBody (parts_reread_ne_nil b), flat_reread b]
  | .loop c a => by
      rw [reread, flat, flat, flat_reread c, flat_asBody (parts_reread_ne_nil a), flat_reread a]
  | .directive d => by rw [reread, flat, flat, d.unplaced_unplaced]
  | .number a => by rw [reread, flat, flat, flat_asBody (parts_reread_ne_nil a), flat_reread a]
  | .decode cat e => by rw [reread, flat, flat, flat_reread e]
  | .run cat e => by rw [reread, flat, flat, flat_reread e]

theorem flatItems_rereadItems : ∀ items : List Code, items ≠ [] →
    flatItems (rereadItems items) = flatItems items
  | [], h => absurd rfl h
  | [a], _ => by
      rw [rereadItems, flatItems_parts (parts_reread_ne_nil a), flat_reread a, flatItems, flatItems,
        List.append_nil]
  | a :: b :: rest, _ => by
      have hrest := flatItems_rereadItems (b :: rest) (List.cons_ne_nil _ _)
      have hfirst : flatItems (if a.isOpenEnded then [.suite a.reread.parts] else a.reread.parts) =
          a.flat.parts := by
        split
        · rw [flatItems, flatItems, List.append_nil, flat_suite_parts (parts_reread_ne_nil a),
            flat_reread a]
        · rw [flatItems_parts (parts_reread_ne_nil a), flat_reread a]
      rw [rereadItems, flatItems_append, hfirst, hrest, ← flatItems]

end

/-! ### The same text -/

theorem renderItems_parts (c : Code) : renderItems c.parts = c.render := by
  obtain ⟨items, rfl⟩ | hparts := parts_cases c
  · rw [render]
    rfl
  · rw [hparts, renderItems]

theorem endsOpen_parts (c : Code) : endsOpen c.parts = c.isOpenEnded := by
  obtain ⟨items, rfl⟩ | hparts := parts_cases c
  · rw [isOpenEnded]
    rfl
  · rw [hparts, endsOpen]

theorem isAtomic_reread (c : Code) : c.reread.isAtomic = c.isAtomic := by
  cases c <;> rw [reread] <;> rfl

/-- Items that end closed are followed by others without parentheses. -/
theorem renderItems_append : ∀ {as bs : List Code}, as ≠ [] → endsOpen as = false → bs ≠ [] →
    renderItems (as ++ bs) = renderItems as ++ "; " ++ renderItems bs
  | [], _, has, _, _ => absurd rfl has
  | _, [], _, _, hbs => absurd rfl hbs
  | [a], b :: bs, _, hclosed, _ => by
      rw [endsOpen] at hclosed
      rw [List.singleton_append, renderItems, renderItems, hclosed]
      rfl
  | a :: a' :: as, b :: bs, _, hclosed, hbs => by
      rw [endsOpen] at hclosed
      have htail := renderItems_append (List.cons_ne_nil a' as) hclosed hbs
      rw [List.cons_append] at htail
      rw [List.cons_append, List.cons_append, renderItems, htail, renderItems]
      simp only [String.append_assoc]

/-- An open item is put in parentheses before others. -/
theorem renderItems_cons_open {a : Code} (hopen : a.isOpenEnded = true) {bs : List Code}
    (hbs : bs ≠ []) : renderItems (a :: bs) = parenthesize a.render ++ "; " ++ renderItems bs := by
  obtain ⟨b, bs, rfl⟩ := List.exists_cons_of_ne_nil hbs
  rw [renderItems, hopen]
  rfl

theorem endsOpen_append {as bs : List Code} (hbs : bs ≠ []) :
    endsOpen (as ++ bs) = endsOpen bs := by
  obtain ⟨b, bs, rfl⟩ := List.exists_cons_of_ne_nil hbs
  induction as with
  | nil => rfl
  | cons a as ih =>
    rw [← ih]
    cases as with
    | nil => rw [List.singleton_append, endsOpen, List.nil_append]
    | cons a' as => rw [List.cons_append, List.cons_append, endsOpen]

mutual

theorem isOpenEnded_reread : ∀ c : Code, c.reread.isOpenEnded = c.isOpenEnded
  | .suite items => by rw [reread, isOpenEnded, isOpenEnded, endsOpen_rereadItems items]
  | .assign x e => by rw [reread, isOpenEnded, isOpenEnded, isOpenEnded_reread e]
  | .int _ | .bool _ | .var _ | .not _ | .binary _ _ _ | .skip | .ifThen _ _ | .ifElse _ _ _
  | .loop _ _ | .directive _ | .number _ | .decode _ _ | .run _ _ => by
      simp [reread, isOpenEnded]

theorem endsOpen_rereadItems : ∀ items : List Code, endsOpen (rereadItems items) = endsOpen items
  | [] => by simp [rereadItems, endsOpen, isOpenEnded]
  | [a] => by rw [rereadItems, endsOpen_parts, isOpenEnded_reread a, endsOpen]
  | a :: b :: rest => by
      have hrest := rereadItems_ne_nil (b :: rest) fun c _ => parts_reread_ne_nil c
      rw [rereadItems, endsOpen_append hrest, endsOpen_rereadItems (b :: rest), endsOpen]

end

theorem render_suite_parts (c : Code) : (suite c.parts).render = c.render := by
  rw [render, renderItems_parts]

theorem render_asBody (c : Code) : c.asBody.render = c.render := by
  rw [asBody, render, renderItems, render_suite_parts]

theorem operandText_reread {e : Code} {s t : String} (h : s = t) :
    operandText e.reread s = operandText e t := by
  rw [operandText, operandText, isAtomic_reread, h]

mutual

/-- What is read has the text of what was written. -/
theorem render_reread : ∀ c : Code, c.reread.render = c.render
  | .int n => by rw [reread]
  | .bool b => by rw [reread]
  | .var x => by rw [reread]
  | .not e => by rw [reread, render, render, operandText_reread (render_reread e)]
  | .binary o l r => by
      rw [reread, render, render, operandText_reread (render_reread l),
        operandText_reread (render_reread r)]
  | .skip => by rw [reread]
  | .assign x e => by rw [reread, render, render, render_reread e]
  | .suite items => by rw [reread, render, render, renderItems_rereadItems items]
  | .ifThen c a => by
      rw [reread, render, render, operandText_reread (render_reread c), render_asBody,
        render_reread a]
  | .ifElse c a b => by
      rw [reread, render, render, operandText_reread (render_reread c), render_asBody,
        render_reread a, render_asBody, render_reread b]
  | .loop c a => by
      rw [reread, render, render, operandText_reread (render_reread c), render_asBody,
        render_reread a]
  | .directive d => by
      rw [reread, render, render]
      cases d <;> rfl
  | .number a => by rw [reread, render, render, render_asBody, render_reread a]
  | .decode cat e => by rw [reread, render, render, operandText_reread (render_reread e)]
  | .run cat e => by rw [reread, render, render, operandText_reread (render_reread e)]

theorem renderItems_rereadItems : ∀ items : List Code,
    renderItems (rereadItems items) = renderItems items
  | [] => by simp [rereadItems, renderItems, render]
  | [a] => by rw [rereadItems, renderItems_parts, render_reread a, renderItems]
  | a :: b :: rest => by
      have hrest := rereadItems_ne_nil (b :: rest) fun c _ => parts_reread_ne_nil c
      have hopen : endsOpen a.reread.parts = a.isOpenEnded := by
        rw [endsOpen_parts, isOpenEnded_reread]
      rw [rereadItems, renderItems, ← renderItems_rereadItems (b :: rest)]
      -- An open item is read as a suite of its own, which is open too and gets its parentheses again.
      cases ha : a.isOpenEnded with
      | true =>
        have hsuite : (suite a.reread.parts).isOpenEnded = true := by rw [isOpenEnded, hopen, ha]
        rw [if_pos rfl, if_pos rfl, List.singleton_append, renderItems_cons_open hsuite hrest,
          render_suite_parts, render_reread a]
      | false =>
        rw [if_neg Bool.false_ne_true, if_neg Bool.false_ne_true,
          renderItems_append (parts_reread_ne_nil a) (hopen.trans ha) hrest, renderItems_parts,
          render_reread a]

end

/-! ### Places -/

theorem operandText_unplaced {e : Code} {s t : String} (h : s = t) :
    operandText e.unplaced s = operandText e t := by
  have hatomic : e.unplaced.isAtomic = e.isAtomic := by cases e <;> rw [unplaced] <;> rfl
  rw [operandText, operandText, hatomic, h]

mutual

theorem isOpenEnded_unplaced : ∀ c : Code, c.unplaced.isOpenEnded = c.isOpenEnded
  | .suite items => by rw [unplaced, isOpenEnded, isOpenEnded, endsOpen_unplacedItems items]
  | .assign x e => by rw [unplaced, isOpenEnded, isOpenEnded, isOpenEnded_unplaced e]
  | .int _ | .bool _ | .var _ | .not _ | .binary _ _ _ | .skip | .ifThen _ _ | .ifElse _ _ _
  | .loop _ _ | .directive _ | .number _ | .decode _ _ | .run _ _ => by
      simp [unplaced, isOpenEnded]

theorem endsOpen_unplacedItems : ∀ items : List Code,
    endsOpen (unplacedItems items) = endsOpen items
  | [] => by rw [unplacedItems]
  | [a] => by rw [unplacedItems, unplacedItems, endsOpen, endsOpen, isOpenEnded_unplaced a]
  | a :: b :: rest => by
      rw [unplacedItems, unplacedItems, endsOpen, ← unplacedItems, endsOpen_unplacedItems (b :: rest),
        endsOpen]

end

mutual

/-- Places have no text. -/
theorem render_unplaced : ∀ c : Code, c.unplaced.render = c.render
  | .int n => by rw [unplaced]
  | .bool b => by rw [unplaced]
  | .var x => by rw [unplaced]
  | .not e => by rw [unplaced, render, render, operandText_unplaced (render_unplaced e)]
  | .binary o l r => by
      rw [unplaced, render, render, operandText_unplaced (render_unplaced l),
        operandText_unplaced (render_unplaced r)]
  | .skip => by rw [unplaced]
  | .assign x e => by rw [unplaced, render, render, render_unplaced e]
  | .suite items => by rw [unplaced, render, render, renderItems_unplacedItems items]
  | .ifThen c a => by
      rw [unplaced, render, render, operandText_unplaced (render_unplaced c), render_unplaced a]
  | .ifElse c a b => by
      rw [unplaced, render, render, operandText_unplaced (render_unplaced c), render_unplaced a,
        render_unplaced b]
  | .loop c a => by
      rw [unplaced, render, render, operandText_unplaced (render_unplaced c), render_unplaced a]
  | .directive d => by
      rw [unplaced, render, render]
      cases d <;> rfl
  | .number a => by rw [unplaced, render, render, render_unplaced a]
  | .decode cat e => by rw [unplaced, render, render, operandText_unplaced (render_unplaced e)]
  | .run cat e => by rw [unplaced, render, render, operandText_unplaced (render_unplaced e)]

theorem renderItems_unplacedItems : ∀ items : List Code,
    renderItems (unplacedItems items) = renderItems items
  | [] => by rw [unplacedItems]
  | [a] => by rw [unplacedItems, unplacedItems, renderItems, renderItems, render_unplaced a]
  | a :: b :: rest => by
      rw [unplacedItems, unplacedItems, renderItems, ← unplacedItems,
        renderItems_unplacedItems (b :: rest), renderItems, isOpenEnded_unplaced, render_unplaced a]

end

mutual

/-- The statements of code do not depend on places. -/
theorem flat_unplaced : ∀ c : Code, c.unplaced.flat = c.flat
  | .int n => by rw [unplaced]
  | .bool b => by rw [unplaced]
  | .var x => by rw [unplaced]
  | .not e => by rw [unplaced, flat, flat, flat_unplaced e]
  | .binary o l r => by rw [unplaced, flat, flat, flat_unplaced l, flat_unplaced r]
  | .skip => by rw [unplaced]
  | .assign x e => by rw [unplaced, flat, flat, flat_unplaced e]
  | .suite [] => by rw [unplaced, unplacedItems]
  | .suite (a :: rest) => by
      rw [unplaced, unplacedItems, flat, flat, ← unplacedItems, flatItems_unplacedItems (a :: rest)]
  | .ifThen c a => by rw [unplaced, flat, flat, flat_unplaced c, flat_unplaced a]
  | .ifElse c a b => by
      rw [unplaced, flat, flat, flat_unplaced c, flat_unplaced a, flat_unplaced b]
  | .loop c a => by rw [unplaced, flat, flat, flat_unplaced c, flat_unplaced a]
  | .directive d => by rw [unplaced, flat, flat, d.unplaced_unplaced]
  | .number a => by rw [unplaced, flat, flat, flat_unplaced a]
  | .decode cat e => by rw [unplaced, flat, flat, flat_unplaced e]
  | .run cat e => by rw [unplaced, flat, flat, flat_unplaced e]

theorem flatItems_unplacedItems : ∀ items : List Code,
    flatItems (unplacedItems items) = flatItems items
  | [] => by rw [unplacedItems]
  | a :: rest => by
      rw [unplacedItems, flatItems, flatItems, flat_unplaced a, flatItems_unplacedItems rest]

end

theorem checkOperands_unplaced (l r : Code) :
    checkOperands l.unplaced r.unplaced = checkOperands l r := by
  have hvar : ∀ c : Code, (∃ x, c = .var x ∧ c.unplaced = .var x) ∨
      (∀ x, c ≠ .var x) ∧ ∀ x, c.unplaced ≠ .var x := by
    intro c
    cases c <;> simp [unplaced]
  rcases hvar l with ⟨x, rfl, hx⟩ | ⟨hl, hl'⟩
  · rw [hx]
    rfl
  · rcases hvar r with ⟨y, rfl, hy⟩ | ⟨hr, hr'⟩
    · simp [checkOperands, hy]
    · simp [checkOperands]

mutual

/-- Places have no number. -/
theorem toNumber_unplaced : ∀ c : Code, c.unplaced.toNumber = c.toNumber
  | .int n => by rw [unplaced]
  | .bool b => by rw [unplaced]
  | .var x => by rw [unplaced]
  | .not e => by rw [unplaced, toNumber, toNumber, toNumber_unplaced e]
  | .binary o l r => by
      rw [unplaced]
      rcases o with (_ | _ | _ | _) | (_ | _ | _ | _) | _ | _ | _ <;>
        simp only [toNumber, toNumber_unplaced l, toNumber_unplaced r, checkOperands_unplaced]
  | .skip => by rw [unplaced]
  | .assign x e => by rw [unplaced, toNumber, toNumber, toNumber_unplaced e]
  | .suite items => by rw [unplaced, toNumber, toNumber, itemsToNumber_unplacedItems items]
  | .ifThen c a => by
      rw [unplaced, toNumber, toNumber, toNumber_unplaced c, toNumber_unplaced a]
  | .ifElse c a b => by
      rw [unplaced, toNumber, toNumber, toNumber_unplaced c, toNumber_unplaced a,
        toNumber_unplaced b]
  | .loop c a => by rw [unplaced, toNumber, toNumber, toNumber_unplaced c, toNumber_unplaced a]
  | .directive d => by
      rw [unplaced]
      cases d <;> simp only [Directive.unplaced, toNumber]
  | .number a => by
      rw [unplaced, toNumber, toNumber]
      rfl
  | .decode cat e => by
      rw [unplaced, toNumber, toNumber]
      rfl
  | .run cat e => by
      rw [unplaced, toNumber, toNumber]
      rfl

theorem itemsToNumber_unplacedItems : ∀ items : List Code,
    itemsToNumber (unplacedItems items) = itemsToNumber items
  | [] => by rw [unplacedItems]
  | [a] => by rw [unplacedItems, unplacedItems, itemsToNumber, itemsToNumber, toNumber_unplaced a]
  | a :: b :: rest => by
      rw [unplacedItems, unplacedItems, itemsToNumber, ← unplacedItems,
        itemsToNumber_unplacedItems (b :: rest), itemsToNumber, toNumber_unplaced a]

end

/-! ### Expressions without directives -/

/-- Expressions without directives: constants, variables, negations and operations. -/
def isPure : Code → Bool
  | .int _ | .bool _ | .var _ => true
  | .not e => e.isPure
  | .binary _ l r => l.isPure && r.isPure
  | _ => false

/-- Nothing in such an expression can nest. -/
theorem reread_of_isPure : ∀ {e : Code}, e.isPure = true → e.reread = e
  | .int n, _ => by rw [reread]
  | .bool b, _ => by rw [reread]
  | .var x, _ => by rw [reread]
  | .not e, h => by rw [reread, reread_of_isPure (e := e) h]
  | .binary o l r, h => by
      rw [isPure, Bool.and_eq_true] at h
      rw [reread, reread_of_isPure h.1, reread_of_isPure h.2]

theorem unplaced_of_isPure : ∀ {e : Code}, e.isPure = true → e.unplaced = e
  | .int n, _ => by rw [unplaced]
  | .bool b, _ => by rw [unplaced]
  | .var x, _ => by rw [unplaced]
  | .not e, h => by rw [unplaced, unplaced_of_isPure (e := e) h]
  | .binary o l r, h => by
      rw [isPure, Bool.and_eq_true] at h
      rw [unplaced, unplaced_of_isPure h.1, unplaced_of_isPure h.2]

theorem isPure_unplaced : ∀ c : Code, c.unplaced.isPure = c.isPure
  | .not e => by rw [unplaced, isPure, isPure, isPure_unplaced e]
  | .binary o l r => by rw [unplaced, isPure, isPure, isPure_unplaced l, isPure_unplaced r]
  | .int _ | .bool _ | .var _ | .skip | .assign _ _ | .suite _ | .ifThen _ _ | .ifElse _ _ _
  | .loop _ _ | .directive _ | .number _ | .decode _ _ | .run _ _ => by simp [unplaced, isPure]

/-- Such an expression has no place that could have been forgotten. -/
theorem eq_of_unplaced_eq {c e : Code} (he : e.isPure = true) (h : c.unplaced = e) : c = e := by
  have hc : c.isPure = true := by rw [← isPure_unplaced, h, he]
  rw [← unplaced_of_isPure hc, h]

end Code

end GodelWhile
