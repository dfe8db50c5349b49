import Mathlib
import GodelWhile.Proofs.NormalForm
import GodelWhile.Proofs.Outcome

/-! # The meaning of expressions

Well-sorted arithmetic and booleans read the variables and change nothing, so what they yield is a
function `meaning` of the variables alone, and their runs always end. They have a value unless an
integer is missing somewhere. Their normal forms have the same value; where an integer is missing,
one is missing for the normal form too, if not the same one, because comparisons change the order
of their operands. -/

namespace GodelWhile

namespace Code

/-- The value of an expression, given the values of the variables. -/
def meaning (s : Store) : Code → Except RunError Value
  | .int n => .ok (.int n)
  | .bool b => .ok (.bool b)
  | .var x => .ok (s.get x)
  | .not e => do return .bool !(← (← meaning s e).asBool)
  | .binary (.arith o) l r => do o.apply (← meaning s l) (← meaning s r)
  | .binary (.compare o) l r => do o.apply (← meaning s l) (← meaning s r)
  | .binary .eq l r => do return .bool ((← meaning s l) = (← meaning s r))
  | .binary .and l r => do
    if ← (← meaning s l).asBool then return .bool (← (← meaning s r).asBool)
    else return .bool false
  | .binary .or l r => do
    if ← (← meaning s l).asBool then return .bool true
    else return .bool (← (← meaning s r).asBool)
  -- statements and directives are no expressions
  | _ => .ok .zero

/-! ### Runs of expressions -/

theorem ofExcept_andThen {α β : Type} (r : Except RunError α) (f : α → Except RunError β)
    (m : Machine) :
    (Run.ofExcept r m).andThen (fun a m => Run.ofExcept (f a) m) = Run.ofExcept (r >>= f) m := by
  cases r <;> rfl

/-- The run of `e` yields the result `r` and leaves the machine as it is. -/
def Yields (e : Code) (m : Machine) (r : Except RunError Value) : Prop :=
  outcome e m = Run.ofExcept (r.map some) m

namespace Yields

variable {e : Code} {m : Machine} {r : Except RunError Value}

theorem evalValue (h : e.Yields m r) (need : Need) :
    evalValue outcome need e m = Run.ofExcept r m := by
  change (outcome e m).andThen _ = _
  rw [h]
  cases r <;> rfl

theorem evalTruth (h : e.Yields m r) (need : Need) :
    evalTruth outcome need e m = Run.ofExcept (r >>= Value.asBool) m := by
  change (Code.evalValue outcome need e m).andThen _ = _
  rw [h.evalValue]
  exact ofExcept_andThen r Value.asBool m

end Yields

theorem yields_binary {o : Operator} {l r : Code} {m : Machine} {rl rr : Except RunError Value}
    {f : Value → Value → Except RunError Value} (hl : l.Yields m rl) (hr : r.Yields m rr)
    (h : ∀ m, evalBinary outcome o l r m =
      (evalValue outcome (.operand o.symbol) l m).andThen fun v m =>
        (evalValue outcome (.operand o.symbol) r m).andThen fun w m => Run.ofExcept (f v w) m) :
    (Code.binary o l r).Yields m (do f (← rl) (← rr)) := by
  rw [Yields, outcome_eq]
  change (evalBinary outcome o l r m).andThen _ = _
  rw [h, hl.evalValue]
  cases rl with
  | error e => rfl
  | ok v =>
    change ((evalValue outcome (.operand o.symbol) r m).andThen _).andThen _ = _
    rw [hr.evalValue, ofExcept_andThen]
    cases rr with
    | error e => rfl
    | ok w =>
      change (Run.ofExcept (f v w) m).andThen _ = Run.ofExcept ((f v w).map some) m
      cases f v w <;> rfl

theorem yields_not {e : Code} {m : Machine} {r : Except RunError Value} (he : e.Yields m r) :
    (Code.not e).Yields m (do return .bool !(← (← r).asBool)) := by
  rw [Yields, outcome_eq]
  change (evalTruth outcome (.operand "¬") e m).andThen _ = _
  rw [he.evalTruth]
  cases r with
  | error e => rfl
  | ok v => cases v <;> rfl

theorem yields_and {l r : Code} {m : Machine} {rl rr : Except RunError Value}
    (hl : l.Yields m rl) (hr : r.Yields m rr) :
    (Code.binary .and l r).Yields m (do
      if ← (← rl).asBool then return .bool (← (← rr).asBool) else return .bool false) := by
  rw [Yields, outcome_eq]
  change ((evalTruth outcome (.operand "&") l m).andThen _).andThen _ = _
  rw [hl.evalTruth]
  match rl with
  | .error _ | .ok (.int _) | .ok (.code _) | .ok (.bool false) => rfl
  | .ok (.bool true) =>
    change ((evalTruth outcome (.operand "&") r m).andThen _).andThen _ = _
    rw [hr.evalTruth]
    match rr with
    | .error _ | .ok (.int _) | .ok (.code _) | .ok (.bool _) => rfl

theorem yields_or {l r : Code} {m : Machine} {rl rr : Except RunError Value}
    (hl : l.Yields m rl) (hr : r.Yields m rr) :
    (Code.binary .or l r).Yields m (do
      if ← (← rl).asBool then return .bool true else return .bool (← (← rr).asBool)) := by
  rw [Yields, outcome_eq]
  change ((evalTruth outcome (.operand "|") l m).andThen _).andThen _ = _
  rw [hl.evalTruth]
  match rl with
  | .error _ | .ok (.int _) | .ok (.code _) | .ok (.bool true) => rfl
  | .ok (.bool false) =>
    change ((evalTruth outcome (.operand "|") r m).andThen _).andThen _ = _
    rw [hr.evalTruth]
    match rr with
    | .error _ | .ok (.int _) | .ok (.code _) | .ok (.bool _) => rfl

/-- Expressions yield their meaning. -/
theorem yields_meaning {V : Vocabulary} {cat : Category} {e : Code} (h : e.WellSorted V cat)
    (hcat : cat ≠ .statement) (m : Machine) : e.Yields m (e.meaning m.store) := by
  induction h with
  | int | var | bool =>
    rw [Yields, outcome_eq]
    rfl
  | arith _ _ _ ihl ihr =>
    exact yields_binary (ihl hcat) (ihr hcat) fun _ => rfl
  | compare _ _ _ ihl ihr | eq _ _ ihl ihr =>
    exact yields_binary (ihl (by decide)) (ihr (by decide)) fun _ => rfl
  | not _ ih => exact yields_not (ih hcat)
  | and _ _ ihl ihr => exact yields_and (ihl hcat) (ihr hcat)
  | or _ _ ihl ihr => exact yields_or (ihl hcat) (ihr hcat)
  | _ => exact absurd rfl hcat

/-! ### Missing integers -/

/-- An integer was expected where there was none. -/
def LacksInteger (r : Except RunError Value) : Prop := ∃ found, r = .error (.expectedInteger found)

theorem LacksInteger.bind {r : Except RunError Value} (h : LacksInteger r)
    (f : Value → Except RunError Value) : LacksInteger (r >>= f) := by
  obtain ⟨found, rfl⟩ := h
  exact ⟨found, rfl⟩

/-- Arithmetic has a value or lacks an integer. -/
theorem meaning_arithmetic {V : Vocabulary} {cat : Category} {e : Code} (h : e.WellSorted V cat)
    (hcat : cat = .arithmetic) (s : Store) :
    (∃ v, e.meaning s = .ok v) ∨ LacksInteger (e.meaning s) := by
  induction h with
  | int | var => exact .inl ⟨_, rfl⟩
  | @arith o l r ho _ _ ihl ihr =>
    rw [meaning]
    rcases ihl hcat with ⟨v, hv⟩ | hl
    · rcases ihr hcat with ⟨w, hw⟩ | hr
      · rw [hv, hw]
        match v, w with
        | .int a, .int b =>
          cases o with
          | div => exact absurd rfl ho
          | _ => exact .inl ⟨_, rfl⟩
        | .int _, .bool _ | .int _, .code _ | .bool _, _ | .code _, _ => exact .inr ⟨_, rfl⟩
      · rw [hv]
        exact .inr (hr.bind (o.apply v))
    · exact .inr (hl.bind _)
  | _ => cases hcat

/-- Operands of a comparison are integers, or the comparison lacks one whichever way round it is. -/
theorem integers_or_lacking {a b : Except RunError Value} (ha : (∃ v, a = .ok v) ∨ LacksInteger a)
    (hb : (∃ v, b = .ok v) ∨ LacksInteger b) :
    (∃ m n, a = .ok (.int m) ∧ b = .ok (.int n)) ∨
      ∀ o : Comparison, LacksInteger (do o.apply (← a) (← b)) ∧
        LacksInteger (do o.apply (← b) (← a)) := by
  rcases ha with ⟨v, rfl⟩ | ⟨found, rfl⟩
  · rcases hb with ⟨w, rfl⟩ | ⟨found, rfl⟩
    · match v, w with
      | .int m, .int n => exact .inl ⟨m, n, rfl, rfl⟩
      | .int _, .bool _ | .int _, .code _ | .bool _, .int _ | .bool _, .bool _ | .bool _, .code _
      | .code _, .int _ | .code _, .bool _ | .code _, .code _ =>
        exact .inr fun o => ⟨⟨_, rfl⟩, ⟨_, rfl⟩⟩
    · exact .inr fun o => ⟨⟨found, rfl⟩, ⟨found, rfl⟩⟩
  · rcases hb with ⟨w, rfl⟩ | ⟨found', rfl⟩
    · exact .inr fun o => ⟨⟨found, rfl⟩, ⟨found, rfl⟩⟩
    · exact .inr fun o => ⟨⟨found, rfl⟩, ⟨found', rfl⟩⟩

/-! ### Normal forms of booleans -/

/-- The same boolean, or no boolean for want of an integer. -/
def SameTruth (r r' : Except RunError Value) : Prop :=
  (∃ b, r = .ok (.bool b) ∧ r' = .ok (.bool b)) ∨ LacksInteger r ∧ LacksInteger r'

theorem sameTruth_not {r r' : Except RunError Value} (h : SameTruth r r') :
    SameTruth (do return .bool !(← (← r).asBool)) (do return .bool !(← (← r').asBool)) := by
  rcases h with ⟨b, rfl, rfl⟩ | ⟨h, h'⟩
  · exact .inl ⟨!b, rfl, rfl⟩
  · exact .inr ⟨h.bind _, h'.bind _⟩

theorem sameTruth_and {l l' r r' : Except RunError Value} (hl : SameTruth l l')
    (hr : SameTruth r r') :
    SameTruth
      (do if ← (← l).asBool then return .bool (← (← r).asBool) else return .bool false)
      (do if ← (← l').asBool then return .bool (← (← r').asBool) else return .bool false) := by
  rcases hl with ⟨b, rfl, rfl⟩ | ⟨hl, hl'⟩
  · cases b with
    | false => exact .inl ⟨false, rfl, rfl⟩
    | true =>
      rcases hr with ⟨b, rfl, rfl⟩ | ⟨hr, hr'⟩
      · exact .inl ⟨b, rfl, rfl⟩
      · exact .inr ⟨hr.bind _, hr'.bind _⟩
  · exact .inr ⟨hl.bind _, hl'.bind _⟩

/-- A disjunction has the truth of the negated conjunction of the negations. -/
theorem sameTruth_or {l l' r r' : Code} {s : Store} (hl : SameTruth (l.meaning s) (l'.meaning s))
    (hr : SameTruth (r.meaning s) (r'.meaning s)) :
    SameTruth ((Code.binary .or l r).meaning s)
      ((Code.not (.binary .and (.not l') (.not r'))).meaning s) := by
  simp only [meaning]
  rcases hl with ⟨b, hl, hl'⟩ | ⟨hl, ⟨found, hl'⟩⟩
  · rw [hl, hl']
    cases b with
    | true => exact .inl ⟨true, rfl, rfl⟩
    | false =>
      rcases hr with ⟨b, hr, hr'⟩ | ⟨hr, ⟨found, hr'⟩⟩
      · rw [hr, hr']
        exact .inl ⟨b, rfl, by cases b <;> rfl⟩
      · rw [hr']
        exact .inr ⟨hr.bind _, ⟨found, rfl⟩⟩
  · rw [hl']
    exact .inr ⟨hl.bind _, ⟨found, rfl⟩⟩

theorem holds_lt (m n : Int) : Comparison.lt.holds m n = !Comparison.le.holds n m := by
  simp only [Comparison.holds, ← decide_not, Int.not_le]

theorem holds_gt (m n : Int) : Comparison.gt.holds m n = !Comparison.le.holds m n := by
  simp only [Comparison.holds, ← decide_not, Int.not_le]

/-- Comparisons have the truth of their normal forms, made of `≤` and negation. -/
theorem sameTruth_compare (o : Comparison) {l r : Code} (hl : l.normalize = l)
    (hr : r.normalize = r) (s : Store)
    (ha : (∃ v, l.meaning s = .ok v) ∨ LacksInteger (l.meaning s))
    (hb : (∃ v, r.meaning s = .ok v) ∨ LacksInteger (r.meaning s)) :
    SameTruth ((Code.binary (.compare o) l r).meaning s)
      ((Code.binary (.compare o) l r).normalize.meaning s) := by
  rcases integers_or_lacking ha hb with ⟨m, n, hm, hn⟩ | hlack
  · refine .inl ⟨o.holds m n, by simp only [meaning, hm, hn]; rfl, ?_⟩
    cases o with
    | lt => simp only [normalize, meaning, hl, hr, hm, hn, holds_lt]; rfl
    | le => simp only [normalize, meaning, hl, hr, hm, hn]; rfl
    | gt => simp only [normalize, meaning, hl, hr, hm, hn, holds_gt]; rfl
    | ge => simp only [normalize, meaning, hl, hr, hm, hn]; rfl
  · refine .inr ⟨by simp only [meaning]; exact (hlack o).1, ?_⟩
    cases o with
    | lt => simp only [normalize, meaning, hl, hr]; exact (hlack .le).2.bind _
    | le => simp only [normalize, meaning, hl, hr]; exact (hlack .le).1
    | gt => simp only [normalize, meaning, hl, hr]; exact (hlack .le).1.bind _
    | ge => simp only [normalize, meaning, hl, hr]; exact (hlack .le).2

/-- Booleans have the truth of their normal forms. -/
theorem sameTruth_normalize {V : Vocabulary} {cat : Category} {e : Code} (h : e.WellSorted V cat)
    (hcat : cat = .boolean) (s : Store) : SameTruth (e.meaning s) (e.normalize.meaning s) := by
  induction h with
  | bool b => exact .inl ⟨b, rfl, by simp only [normalize]; rfl⟩
  | eq hl hr =>
    simp only [normalize, normalize_arithmetic hl, normalize_arithmetic hr, meaning]
    rcases meaning_arithmetic hl rfl s with ⟨v, hv⟩ | hl
    · rw [hv]
      rcases meaning_arithmetic hr rfl s with ⟨w, hw⟩ | hr
      · rw [hw]
        exact .inl ⟨_, rfl, rfl⟩
      · exact .inr ⟨hr.bind _, hr.bind _⟩
    · exact .inr ⟨hl.bind _, hl.bind _⟩
  | compare o hl hr =>
    exact sameTruth_compare o (normalize_arithmetic hl) (normalize_arithmetic hr) s
      (meaning_arithmetic hl rfl s) (meaning_arithmetic hr rfl s)
  | not _ ih =>
    rw [normalize]
    exact sameTruth_not (ih hcat)
  | and _ _ ihl ihr =>
    simp only [normalize]
    exact sameTruth_and (ihl hcat) (ihr hcat)
  | or _ _ ihl ihr =>
    simp only [normalize]
    exact sameTruth_or (ihl hcat) (ihr hcat)
  | _ => cases hcat

end Code

end GodelWhile
