import Mathlib
import GodelWhile.Numbering.Decoding
import GodelWhile.Proofs.Pairing

/-! # Canonical code

A number of a category stands for at most one piece of code, and the code that numbers stand for is
the *canonical* code of the category: the constructs that have a tag of their own, suites of exactly
two items, and no alternative that does nothing. Canonical code has a number `godel` that knows no
limit of size. Reading numbers back is exactly its inverse, cut off at a depth:

    decodeWithin cat d x = ok c  ↔  c is canonical in cat, nests at most d levels, and c.godel = x

The argument reads a number through its *view*: which tag it carries and which pair its payload
stores. Every number has one view, and each view has one equation of the decoder, so both directions
follow the same few cases. -/

namespace GodelWhile

open GodelWhile.Numbering

namespace Code

/-! ### Depth -/

mutual

/-- How deep the code nests: constants, variables and `skip` not at all, all other code one level
more than its parts. -/
def depth : Code → Nat
  | .int _ | .bool _ | .var _ | .skip => 0
  | .not e => 1 + depth e
  | .binary _ l r => 1 + max (depth l) (depth r)
  | .assign _ e => 1 + depth e
  | .suite items => 1 + itemsDepth items
  | .ifThen c a => 1 + max (depth c) (depth a)
  | .ifElse c a b => 1 + max (depth c) (max (depth a) (depth b))
  | .loop c a => 1 + max (depth c) (depth a)
  | .directive _ => 1
  | .number a => 1 + depth a
  | .decode _ e => 1 + depth e
  | .run _ e => 1 + depth e

/-- The depth of the deepest item. -/
def itemsDepth : List Code → Nat
  | [] => 0
  | a :: rest => max (depth a) (itemsDepth rest)

end

/-! ### Nodes -/

mutual

/-- The code and all code in it. -/
def nodes : Code → List Code
  | .not e => .not e :: nodes e
  | .binary o l r => .binary o l r :: (nodes l ++ nodes r)
  | .assign x e => .assign x e :: nodes e
  | .suite items => .suite items :: itemNodes items
  | .ifThen c a => .ifThen c a :: (nodes c ++ nodes a)
  | .ifElse c a b => .ifElse c a b :: (nodes c ++ nodes a ++ nodes b)
  | .loop c a => .loop c a :: (nodes c ++ nodes a)
  | .number a => .number a :: nodes a
  | .decode cat e => .decode cat e :: nodes e
  | .run cat e => .run cat e :: nodes e
  | c => [c]

/-- All code in the items. -/
def itemNodes : List Code → List Code
  | [] => []
  | a :: rest => nodes a ++ itemNodes rest

end

/-! ### Canonical code and its number -/

/-- The code of a category that numbers of the category stand for. -/
inductive Canonical : Category → Code → Prop
  | int (n : Nat) : Canonical .arithmetic (.int n)
  | var {x : String} (hx : x ∈ numberedNames) : Canonical .arithmetic (.var x)
  | arith {o : Arithmetic} {l r : Code} (ho : o ≠ .div) (hl : Canonical .arithmetic l)
      (hr : Canonical .arithmetic r) : Canonical .arithmetic (.binary (.arith o) l r)
  | bool (b : Bool) : Canonical .boolean (.bool b)
  | eq {l r : Code} (hl : Canonical .arithmetic l) (hr : Canonical .arithmetic r) :
      Canonical .boolean (.binary .eq l r)
  | le {l r : Code} (hl : Canonical .arithmetic l) (hr : Canonical .arithmetic r) :
      Canonical .boolean (.binary (.compare .le) l r)
  | not {e : Code} (he : Canonical .boolean e) : Canonical .boolean (.not e)
  | and {l r : Code} (hl : Canonical .boolean l) (hr : Canonical .boolean r) :
      Canonical .boolean (.binary .and l r)
  | skip : Canonical .statement .skip
  | assign {x : String} {e : Code} (hx : x ∈ numberedNames) (he : Canonical .arithmetic e) :
      Canonical .statement (.assign x e)
  | loop {c a : Code} (hc : Canonical .boolean c) (ha : Canonical .statement a) :
      Canonical .statement (.loop c a)
  | suite {a b : Code} (ha : Canonical .statement a) (hb : Canonical .statement b) :
      Canonical .statement (.suite [a, b])
  | ifThen {c a : Code} (hc : Canonical .boolean c) (ha : Canonical .statement a) :
      Canonical .statement (.ifThen c a)
  | ifElse {c a b : Code} (hc : Canonical .boolean c) (ha : Canonical .statement a)
      (hb : Canonical .statement b) (hskip : b ≠ .skip) : Canonical .statement (.ifElse c a b)

/-- The tag of an operator of arithmetic; division has none. -/
def arithmeticTag : Arithmetic → Nat
  | .add => 2
  | .sub => 3
  | .mul => 4
  | .div => 0

/-- The number of canonical code, whatever its size. -/
def godel : Code → Nat
  | .int n => tagged 5 0 n.toNat
  | .var x => tagged 5 1 (numberedNames.idxOf x)
  | .binary (.arith o) l r => tagged 5 (arithmeticTag o) (pair (godel l) (godel r))
  | .bool b => if b then 0 else 1
  | .binary .eq l r => tagged 4 2 (pair (godel l) (godel r))
  | .binary (.compare .le) l r => tagged 4 3 (pair (godel l) (godel r))
  | .not e => tagged 4 4 (godel e)
  | .binary .and l r => tagged 4 5 (pair (godel l) (godel r))
  | .assign x e => tagged 4 2 (pair (numberedNames.idxOf x) (godel e))
  | .loop c a => tagged 4 1 (pair (godel c) (godel a))
  | .suite [a, b] => tagged 4 3 (pair (godel a) (godel b))
  | .ifThen c a => tagged 4 4 (pair (godel c) (pair (godel a) 0))
  | .ifElse c a b => tagged 4 4 (pair (godel c) (pair (godel a) (godel b)))
  -- `skip`, and code that is not canonical
  | _ => 0

end Code

namespace Numbering

/-! ### Views of a number -/

/-- A number of arithmetic is a constant, a variable or an operator applied to two operands. -/
theorem arithmetic_view (x : Nat) :
    (∃ n, x = tagged 5 0 n) ∨ (∃ i, x = tagged 5 1 i) ∨
      ∃ o l r, o ≠ .div ∧ x = tagged 5 (Code.arithmeticTag o) (pair l r) := by
  obtain ⟨l, r, hpair⟩ := exists_eq_pair (x / 5)
  have hx : x = tagged 5 (x % 5) (x / 5) := by rw [tagged]; omega
  have htag : x % 5 < 5 := Nat.mod_lt _ (by decide)
  interval_cases htag : x % 5
  · exact .inl ⟨_, hx⟩
  · exact .inr (.inl ⟨_, hx⟩)
  · exact .inr (.inr ⟨.add, l, r, by decide, hpair ▸ hx⟩)
  · exact .inr (.inr ⟨.sub, l, r, by decide, hpair ▸ hx⟩)
  · exact .inr (.inr ⟨.mul, l, r, by decide, hpair ▸ hx⟩)

/-- A number that is no boolean constant is a negation, a conjunction or a relation. -/
theorem boolean_view {x : Nat} (hx : 2 ≤ x) :
    (∃ n, x = tagged 4 4 n) ∨ (∃ l r, x = tagged 4 5 (pair l r)) ∨
      (∃ l r, x = tagged 4 2 (pair l r)) ∨ ∃ l r, x = tagged 4 3 (pair l r) := by
  obtain ⟨l, r, hpair⟩ := exists_eq_pair (x / 4)
  obtain ⟨l', r', hpair'⟩ := exists_eq_pair (x / 4 - 1)
  have htag : x % 4 < 4 := Nat.mod_lt _ (by decide)
  interval_cases htag : x % 4
  · exact .inl ⟨x / 4 - 1, by rw [tagged]; omega⟩
  · exact .inr (.inl ⟨l', r', by rw [← hpair', tagged]; omega⟩)
  · exact .inr (.inr (.inl ⟨l, r, by rw [← hpair, tagged]; omega⟩))
  · exact .inr (.inr (.inr ⟨l, r, by rw [← hpair, tagged]; omega⟩))

/-- A number other than zero is a loop, an assignment, a suite or a branching. -/
theorem statement_view {x : Nat} (hx : x ≠ 0) :
    (∃ c a, x = tagged 4 1 (pair c a)) ∨ (∃ i e, x = tagged 4 2 (pair i e)) ∨
      (∃ a b, x = tagged 4 3 (pair a b)) ∨ ∃ c a b, x = tagged 4 4 (pair c (pair a b)) := by
  obtain ⟨l, r, hpair⟩ := exists_eq_pair (x / 4)
  obtain ⟨c, branches, hpair'⟩ := exists_eq_pair (x / 4 - 1)
  obtain ⟨a, b, rfl⟩ := exists_eq_pair branches
  have htag : x % 4 < 4 := Nat.mod_lt _ (by decide)
  interval_cases htag : x % 4
  · exact .inr (.inr (.inr ⟨c, a, b, by rw [← hpair', tagged]; omega⟩))
  · exact .inl ⟨l, r, by rw [← hpair, tagged]; omega⟩
  · exact .inr (.inl ⟨l, r, by rw [← hpair, tagged]; omega⟩)
  · exact .inr (.inr (.inl ⟨l, r, by rw [← hpair, tagged]; omega⟩))

/-! ### One equation of the decoders for each view -/

theorem variableAt_idxOf {x : String} (hx : x ∈ numberedNames) :
    variableAt (numberedNames.idxOf x) = .ok x := by
  simp only [numberedNames, List.mem_cons, List.not_mem_nil, or_false] at hx
  rcases hx with rfl | rfl | rfl <;> rfl

theorem idxOf_of_variableAt {i : Nat} {x : String} (h : variableAt i = .ok x) :
    x ∈ numberedNames ∧ numberedNames.idxOf x = i := by
  rcases i with _ | _ | _ | i
  · cases h; decide
  · cases h; decide
  · cases h; decide
  · have hnone : (tableIndex? (i + 3)).bind (numberedNames[·]?) = none := by
      rw [tableIndex?]
      split <;> simp [numberedNames]
    simp [variableAt, hnone] at h

theorem arithmetic_int (d n : Nat) : arithmetic d (tagged 5 0 n) = .ok (.int n) := by
  rw [arithmetic, untag_tagged (by decide)]
  rfl

theorem arithmetic_var (d i : Nat) : arithmetic d (tagged 5 1 i) = (variableAt i).map .var := by
  rw [arithmetic, untag_tagged (by decide)]
  rfl

theorem arithmetic_node {o : Arithmetic} (ho : o ≠ .div) (d l r : Nat) :
    arithmetic (d + 1) (tagged 5 (Code.arithmeticTag o) (pair l r)) =
      do return .binary (.arith o) (← arithmetic d l) (← arithmetic d r) := by
  cases o with
  | div => exact absurd rfl ho
  | _ =>
    rw [arithmetic, Code.arithmeticTag, untag_tagged (by decide)]
    simp only [unpair_pair, arithmeticOperator]

theorem arithmetic_zero_node {o : Arithmetic} (ho : o ≠ .div) (x : Nat) :
    arithmetic 0 (tagged 5 (Code.arithmeticTag o) x) = .error .tooDeep := by
  cases o with
  | div => exact absurd rfl ho
  | _ =>
    rw [arithmetic, Code.arithmeticTag, untag_tagged (by decide)]
    rfl

theorem boolean_true (d : Nat) : boolean d 0 = .ok (.bool true) := by
  cases d <;> rfl

theorem boolean_false (d : Nat) : boolean d 1 = .ok (.bool false) := by
  cases d <;> rfl

theorem boolean_not (d n : Nat) :
    boolean (d + 1) (tagged 4 4 n) = do return .not (← boolean d n) := by
  have htag : untag 4 (tagged 4 4 n) = (n + 1, 0) := by
    rw [tagged_add_modulus 4 0, untag_tagged (by decide)]
  have h0 : tagged 4 4 n ≠ 0 := by rw [tagged]; omega
  have h1 : tagged 4 4 n ≠ 1 := by rw [tagged]; omega
  refine (if_neg h0).trans ((if_neg h1).trans ?_)
  rw [htag]
  rfl

theorem boolean_and (d l r : Nat) :
    boolean (d + 1) (tagged 4 5 (pair l r)) =
      do return .binary .and (← boolean d l) (← boolean d r) := by
  have htag : untag 4 (tagged 4 5 (pair l r)) = (pair l r + 1, 1) := by
    rw [tagged_add_modulus 4 1, untag_tagged (by decide)]
  have h0 : tagged 4 5 (pair l r) ≠ 0 := by rw [tagged]; omega
  have h1 : tagged 4 5 (pair l r) ≠ 1 := by rw [tagged]; omega
  refine (if_neg h0).trans ((if_neg h1).trans ?_)
  rw [htag]
  simp only [Nat.add_sub_cancel, unpair_pair]

theorem boolean_relation {tag : Nat} (htag : tag = 2 ∨ tag = 3) (d l r : Nat) :
    boolean (d + 1) (tagged 4 tag (pair l r)) =
      do return .binary (relation tag) (← arithmetic d l) (← arithmetic d r) := by
  have h0 : tagged 4 tag (pair l r) ≠ 0 := by rw [tagged]; omega
  have h1 : tagged 4 tag (pair l r) ≠ 1 := by rw [tagged]; omega
  refine (if_neg h0).trans ((if_neg h1).trans ?_)
  rw [untag_tagged (by omega)]
  rcases htag with rfl | rfl <;> simp only [unpair_pair]

theorem boolean_zero {x : Nat} (hx : 2 ≤ x) : boolean 0 x = .error .tooDeep := by
  exact (if_neg (by omega)).trans (if_neg (by omega))

theorem statement_skip (d : Nat) : statement d 0 = .ok .skip := by
  cases d <;> rfl

theorem statement_loop (d c a : Nat) :
    statement (d + 1) (tagged 4 1 (pair c a)) =
      do return .loop (← boolean d c) (← statement d a) := by
  have h0 : tagged 4 1 (pair c a) ≠ 0 := by rw [tagged]; omega
  refine (if_neg h0).trans ?_
  rw [untag_tagged (by decide)]
  simp only [unpair_pair]

theorem statement_assign (d i e : Nat) :
    statement (d + 1) (tagged 4 2 (pair i e)) =
      do return .assign (← variableAt i) (← arithmetic d e) := by
  have h0 : tagged 4 2 (pair i e) ≠ 0 := by rw [tagged]; omega
  refine (if_neg h0).trans ?_
  rw [untag_tagged (by decide)]
  simp only [unpair_pair]

theorem statement_suite (d a b : Nat) :
    statement (d + 1) (tagged 4 3 (pair a b)) =
      do return .suite [← statement d a, ← statement d b] := by
  have h0 : tagged 4 3 (pair a b) ≠ 0 := by rw [tagged]; omega
  refine (if_neg h0).trans ?_
  rw [untag_tagged (by decide)]
  simp only [unpair_pair]

theorem statement_branch (d c a b : Nat) :
    statement (d + 1) (tagged 4 4 (pair c (pair a b))) =
      if b = 0 then do return .ifThen (← boolean d c) (← statement d a)
      else do
        let no ← statement d b
        return .ifElse (← boolean d c) (← statement d a) no := by
  have htag : untag 4 (tagged 4 4 (pair c (pair a b))) = (pair c (pair a b) + 1, 0) := by
    rw [tagged_add_modulus 4 0, untag_tagged (by decide)]
  have h0 : tagged 4 4 (pair c (pair a b)) ≠ 0 := by rw [tagged]; omega
  refine (if_neg h0).trans ?_
  rw [htag]
  simp only [Nat.add_sub_cancel, unpair_pair]

theorem statement_zero {x : Nat} (hx : x ≠ 0) : statement 0 x = .error .tooDeep := by
  exact if_neg hx

/-! ### Numbers of canonical code are read back -/

/-- The decoder of a category. -/
def decodeWithin (cat : Category) (d x : Nat) : Except NumberingError Code :=
  match cat with
  | .arithmetic => arithmetic d x
  | .boolean => boolean d x
  | .statement => statement d x

theorem ofNumber_eq_decodeWithin (cat : Category) (x : Nat) :
    Code.ofNumber cat x = decodeWithin cat 1024 x := by
  cases cat <;> rfl

/-- The code, unless it nests deeper than `d` levels. -/
def shallow (d : Nat) (c : Code) : Except NumberingError Code :=
  if c.depth ≤ d then .ok c else .error .tooDeep

theorem shallow_leaf {c : Code} (hc : c.depth = 0) (d : Nat) : shallow d c = .ok c := by
  rw [shallow, if_pos (by omega)]

theorem shallow_zero {c : Code} (hc : c.depth ≠ 0) : shallow 0 c = .error .tooDeep := by
  rw [shallow, if_neg (by omega)]

theorem shallow_unary {f : Code → Code} {a : Code} (hf : (f a).depth = 1 + a.depth) (d : Nat) :
    (do return f (← shallow d a)) = shallow (d + 1) (f a) := by
  have hd : (f a).depth ≤ d + 1 ↔ a.depth ≤ d := by omega
  simp only [shallow, hd]
  by_cases ha : a.depth ≤ d <;> simp only [ha] <;> rfl

theorem shallow_binary {f : Code → Code → Code} {a b : Code}
    (hf : (f a b).depth = 1 + max a.depth b.depth) (d : Nat) :
    (do return f (← shallow d a) (← shallow d b)) = shallow (d + 1) (f a b) := by
  have hd : (f a b).depth ≤ d + 1 ↔ a.depth ≤ d ∧ b.depth ≤ d := by omega
  simp only [shallow, hd]
  by_cases ha : a.depth ≤ d <;> by_cases hb : b.depth ≤ d <;> simp only [ha, hb] <;> rfl

theorem shallow_ifElse (d : Nat) (c a b : Code) :
    (do let no ← shallow d b
        return .ifElse (← shallow d c) (← shallow d a) no) = shallow (d + 1) (.ifElse c a b) := by
  have hd : (Code.ifElse c a b).depth ≤ d + 1 ↔ c.depth ≤ d ∧ a.depth ≤ d ∧ b.depth ≤ d := by
    rw [Code.depth]; omega
  simp only [shallow, hd]
  by_cases hb : b.depth ≤ d <;> by_cases hc : c.depth ≤ d <;> by_cases ha : a.depth ≤ d <;>
    simp only [ha, hb, hc] <;> rfl

/-- Only `skip` has the number zero among canonical statements. -/
theorem godel_ne_zero {c : Code} (h : Code.Canonical .statement c) (hskip : c ≠ .skip) :
    c.godel ≠ 0 := by
  cases h with
  | skip => exact absurd rfl hskip
  | _ => simp only [Code.godel, tagged]; omega

/-- Canonical code that does not nest is read back at any depth. -/
theorem decodeWithin_leaf {cat : Category} {c : Code} (h : Code.Canonical cat c)
    (hc : c.depth = 0) (d : Nat) : decodeWithin cat d c.godel = .ok c := by
  cases h with
  | int n => exact arithmetic_int d n
  | var hx =>
    rw [decodeWithin, Code.godel, arithmetic_var, variableAt_idxOf hx]
    rfl
  | bool b =>
    cases b with
    | true => exact boolean_true d
    | false => exact boolean_false d
  | skip => exact statement_skip d
  | _ => simp [Code.depth] at hc

/-- Canonical code that nests is not read back when no level is left. -/
theorem decodeWithin_zero {cat : Category} {c : Code} (h : Code.Canonical cat c)
    (hc : c.depth ≠ 0) : decodeWithin cat 0 c.godel = .error .tooDeep := by
  cases h with
  | int | var | bool | skip => simp [Code.depth] at hc
  | arith ho => exact arithmetic_zero_node ho _
  | eq | le | not | and => exact boolean_zero (by simp [Code.godel, tagged])
  | assign | loop | suite | ifThen | ifElse => exact statement_zero (by simp [Code.godel, tagged])

/-- The decoder reads the number of canonical code back, as far as the depth allows. -/
theorem decodeWithin_godel {cat : Category} {c : Code} (h : Code.Canonical cat c) (d : Nat) :
    decodeWithin cat d c.godel = shallow d c := by
  induction d generalizing cat c with
  | zero =>
    by_cases hc : c.depth = 0
    · rw [shallow_leaf hc]; exact decodeWithin_leaf h hc 0
    · rw [shallow_zero hc]; exact decodeWithin_zero h hc
  | succ d ih =>
    -- One level down, the parts are read back by the hypothesis; what they make is put together.
    have arith : ∀ {e}, Code.Canonical .arithmetic e → arithmetic d e.godel = shallow d e := ih
    have bool : ∀ {e}, Code.Canonical .boolean e → boolean d e.godel = shallow d e := ih
    have stmt : ∀ {e}, Code.Canonical .statement e → statement d e.godel = shallow d e := ih
    cases h with
    | int n => exact decodeWithin_leaf (.int n) rfl _
    | var hx => exact decodeWithin_leaf (.var hx) rfl _
    | arith ho hl hr =>
      rw [decodeWithin, Code.godel, arithmetic_node ho, arith hl, arith hr]
      exact shallow_binary rfl d
    | bool b => exact decodeWithin_leaf (.bool b) rfl _
    | eq hl hr =>
      rw [decodeWithin, Code.godel, boolean_relation (.inl rfl), arith hl, arith hr]
      exact shallow_binary rfl d
    | le hl hr =>
      rw [decodeWithin, Code.godel, boolean_relation (.inr rfl), arith hl, arith hr]
      exact shallow_binary rfl d
    | not he =>
      rw [decodeWithin, Code.godel, boolean_not, bool he]
      exact shallow_unary rfl d
    | and hl hr =>
      rw [decodeWithin, Code.godel, boolean_and, bool hl, bool hr]
      exact shallow_binary rfl d
    | skip => exact decodeWithin_leaf .skip rfl _
    | assign hx he =>
      rw [decodeWithin, Code.godel, statement_assign, variableAt_idxOf hx, arith he]
      exact shallow_unary rfl d
    | loop hc ha =>
      rw [decodeWithin, Code.godel, statement_loop, bool hc, stmt ha]
      exact shallow_binary rfl d
    | suite ha hb =>
      rw [decodeWithin, Code.godel, statement_suite, stmt ha, stmt hb]
      exact shallow_binary (by simp [Code.depth, Code.itemsDepth]) d
    | ifThen hc ha =>
      rw [decodeWithin, Code.godel, statement_branch, if_pos rfl, bool hc, stmt ha]
      exact shallow_binary rfl d
    | ifElse hc ha hb hskip =>
      rw [decodeWithin, Code.godel, statement_branch, if_neg (godel_ne_zero hb hskip), bool hc,
        stmt ha, stmt hb]
      exact shallow_ifElse d _ _ _

/-! ### What is read is canonical code -/

theorem bind_eq_ok {ε α β : Type} {r : Except ε α} {f : α → Except ε β} {b : β} :
    r >>= f = .ok b ↔ ∃ a, r = .ok a ∧ f a = .ok b := by
  cases r <;> simp [bind, Except.bind]

theorem return_eq_ok {ε α β γ : Type} {r : Except ε α} {r' : Except ε β} {f : α → β → γ} {c : γ}
    (h : (do return f (← r) (← r')) = Except.ok c) : ∃ a b, r = .ok a ∧ r' = .ok b ∧ c = f a b := by
  obtain ⟨a, ha, h⟩ := bind_eq_ok.mp h
  obtain ⟨b, hb, h⟩ := bind_eq_ok.mp h
  cases h
  exact ⟨a, b, ha, hb, rfl⟩

theorem depth_le_succ {c : Code} {n d : Nat} (hc : c.depth = 1 + n) (hn : n ≤ d) :
    c.depth ≤ d + 1 := by
  omega

theorem canonical_of_arithmetic (d : Nat) {x : Nat} {c : Code} (h : arithmetic d x = .ok c) :
    Code.Canonical .arithmetic c ∧ c.depth ≤ d ∧ c.godel = x := by
  induction d using Nat.strong_induction_on generalizing x c with
  | _ d ih =>
    rcases arithmetic_view x with ⟨n, rfl⟩ | ⟨i, rfl⟩ | ⟨o, l, r, ho, rfl⟩
    · rw [arithmetic_int] at h
      cases h
      exact ⟨.int n, Nat.zero_le d, rfl⟩
    · rw [arithmetic_var] at h
      cases hi : variableAt i with
      | error => rw [hi] at h; cases h
      | ok name =>
        rw [hi] at h
        cases h
        obtain ⟨hmem, rfl⟩ := idxOf_of_variableAt hi
        exact ⟨.var hmem, Nat.zero_le d, rfl⟩
    · cases d with
      | zero => rw [arithmetic_zero_node ho] at h; cases h
      | succ d =>
        rw [arithmetic_node ho] at h
        obtain ⟨a, b, ha, hb, rfl⟩ := return_eq_ok h
        obtain ⟨hca, hda, rfl⟩ := ih d d.lt_succ_self ha
        obtain ⟨hcb, hdb, rfl⟩ := ih d d.lt_succ_self hb
        exact ⟨.arith ho hca hcb, depth_le_succ rfl (max_le hda hdb), rfl⟩

/-- Two operands read one level down, put together by a relation. -/
theorem canonical_of_relation {d l r : Nat} {o : Operator} {c : Code}
    (ho : ∀ {a b}, Code.Canonical .arithmetic a → Code.Canonical .arithmetic b →
      Code.Canonical .boolean (.binary o a b))
    (h : (do return .binary o (← arithmetic d l) (← arithmetic d r)) = Except.ok c) :
    ∃ a b, c = .binary o a b ∧ Code.Canonical .boolean c ∧ c.depth ≤ d + 1 ∧ a.godel = l ∧
      b.godel = r := by
  obtain ⟨a, b, ha, hb, rfl⟩ := return_eq_ok h
  obtain ⟨hca, hda, rfl⟩ := canonical_of_arithmetic d ha
  obtain ⟨hcb, hdb, rfl⟩ := canonical_of_arithmetic d hb
  exact ⟨a, b, rfl, ho hca hcb, depth_le_succ rfl (max_le hda hdb), rfl, rfl⟩

theorem canonical_of_boolean (d : Nat) {x : Nat} {c : Code} (h : boolean d x = .ok c) :
    Code.Canonical .boolean c ∧ c.depth ≤ d ∧ c.godel = x := by
  induction d using Nat.strong_induction_on generalizing x c with
  | _ d ih =>
    rcases x with _ | _ | x
    · rw [boolean_true] at h
      cases h
      exact ⟨.bool true, Nat.zero_le d, rfl⟩
    · rw [boolean_false] at h
      cases h
      exact ⟨.bool false, Nat.zero_le d, rfl⟩
    · have hx : 2 ≤ x + 1 + 1 := by omega
      cases d with
      | zero => rw [boolean_zero hx] at h; cases h
      | succ d =>
        rcases boolean_view hx with ⟨n, hn⟩ | ⟨l, r, hlr⟩ | ⟨l, r, hlr⟩ | ⟨l, r, hlr⟩
        · rw [hn, boolean_not] at h
          obtain ⟨e, he, h⟩ := bind_eq_ok.mp h
          cases h
          obtain ⟨hce, hde, rfl⟩ := ih d d.lt_succ_self he
          exact ⟨.not hce, depth_le_succ rfl hde, hn.symm⟩
        · rw [hlr, boolean_and] at h
          obtain ⟨a, b, ha, hb, rfl⟩ := return_eq_ok h
          obtain ⟨hca, hda, rfl⟩ := ih d d.lt_succ_self ha
          obtain ⟨hcb, hdb, rfl⟩ := ih d d.lt_succ_self hb
          exact ⟨.and hca hcb, depth_le_succ rfl (max_le hda hdb), hlr.symm⟩
        · rw [hlr, boolean_relation (.inl rfl)] at h
          obtain ⟨a, b, rfl, hc, hd, rfl, rfl⟩ := canonical_of_relation .eq h
          exact ⟨hc, hd, hlr.symm⟩
        · rw [hlr, boolean_relation (.inr rfl)] at h
          obtain ⟨a, b, rfl, hc, hd, rfl, rfl⟩ := canonical_of_relation .le h
          exact ⟨hc, hd, hlr.symm⟩

theorem canonical_of_statement (d : Nat) {x : Nat} {c : Code} (h : statement d x = .ok c) :
    Code.Canonical .statement c ∧ c.depth ≤ d ∧ c.godel = x := by
  induction d using Nat.strong_induction_on generalizing x c with
  | _ d ih =>
    rcases Nat.eq_zero_or_pos x with rfl | hx
    · rw [statement_skip] at h
      cases h
      exact ⟨.skip, Nat.zero_le d, rfl⟩
    · cases d with
      | zero => rw [statement_zero hx.ne'] at h; cases h
      | succ d =>
        rcases statement_view hx.ne' with ⟨k, a, rfl⟩ | ⟨i, e, rfl⟩ | ⟨a, b, rfl⟩ | ⟨k, a, b, rfl⟩
        · rw [statement_loop] at h
          obtain ⟨k, a, hk, ha, rfl⟩ := return_eq_ok h
          obtain ⟨hck, hdk, rfl⟩ := canonical_of_boolean d hk
          obtain ⟨hca, hda, rfl⟩ := ih d d.lt_succ_self ha
          exact ⟨.loop hck hca, depth_le_succ rfl (max_le hdk hda), rfl⟩
        · rw [statement_assign] at h
          obtain ⟨name, e, hname, he, rfl⟩ := return_eq_ok h
          obtain ⟨hmem, rfl⟩ := idxOf_of_variableAt hname
          obtain ⟨hce, hde, rfl⟩ := canonical_of_arithmetic d he
          exact ⟨.assign hmem hce, depth_le_succ rfl hde, rfl⟩
        · rw [statement_suite] at h
          obtain ⟨a, b, ha, hb, rfl⟩ := return_eq_ok h
          obtain ⟨hca, hda, rfl⟩ := ih d d.lt_succ_self ha
          obtain ⟨hcb, hdb, rfl⟩ := ih d d.lt_succ_self hb
          have hd := max_le hda (max_le hdb d.zero_le)
          exact ⟨.suite hca hcb, depth_le_succ rfl hd, rfl⟩
        · rw [statement_branch] at h
          by_cases hb0 : b = 0
          · rw [if_pos hb0] at h
            obtain ⟨k, a, hk, ha, rfl⟩ := return_eq_ok h
            obtain ⟨hck, hdk, rfl⟩ := canonical_of_boolean d hk
            obtain ⟨hca, hda, rfl⟩ := ih d d.lt_succ_self ha
            exact ⟨.ifThen hck hca, depth_le_succ rfl (max_le hdk hda), by rw [hb0]; rfl⟩
          · rw [if_neg hb0] at h
            obtain ⟨b, hb, h⟩ := bind_eq_ok.mp h
            obtain ⟨k, a, hk, ha, rfl⟩ := return_eq_ok h
            obtain ⟨hck, hdk, rfl⟩ := canonical_of_boolean d hk
            obtain ⟨hca, hda, rfl⟩ := ih d d.lt_succ_self ha
            obtain ⟨hcb, hdb, rfl⟩ := ih d d.lt_succ_self hb
            have hskip : b ≠ .skip := by rintro rfl; exact hb0 rfl
            have hd := max_le hdk (max_le hda hdb)
            exact ⟨.ifElse hck hca hcb hskip, depth_le_succ rfl hd, rfl⟩

/-- Reading a number succeeds exactly with the canonical code of that number that nests no deeper
than allowed. -/
theorem decodeWithin_eq_ok_iff {cat : Category} {d x : Nat} {c : Code} :
    decodeWithin cat d x = .ok c ↔ Code.Canonical cat c ∧ c.depth ≤ d ∧ c.godel = x := by
  constructor
  · intro h
    cases cat with
    | arithmetic => exact canonical_of_arithmetic d h
    | boolean => exact canonical_of_boolean d h
    | statement => exact canonical_of_statement d h
  · rintro ⟨hc, hd, rfl⟩
    rw [decodeWithin_godel hc, shallow, if_pos hd]

end Numbering

namespace Code

/-- Every category has canonical code whose number is too large to be given. -/
theorem exists_canonical_tooLarge (cat : Category) :
    ∃ c : Code, c.Canonical cat ∧ c.depth ≤ 1024 ∧ c.toNumber = .error .tooLarge := by
  -- the left operand alone is beyond the limit on exponents
  let sum : Code := .binary (.arith .add) (.int maxExponent) (.int 0)
  have hsum : sum.Canonical .arithmetic := .arith (by decide) (.int maxExponent) (.int 0)
  cases cat with
  | arithmetic => exact ⟨sum, hsum, by decide, by decide⟩
  | boolean => exact ⟨.binary .eq sum (.int 0), .eq hsum (.int 0), by decide, by decide⟩
  | statement => exact ⟨.assign "x" sum, .assign (by decide) hsum, by decide, by decide⟩

/-- The numbers of a category stand for its canonical code of at most 1024 levels. -/
theorem ofNumber_eq_ok_iff {cat : Category} {x : Nat} {c : Code} :
    ofNumber cat x = .ok c ↔ c.Canonical cat ∧ c.depth ≤ 1024 ∧ c.godel = x := by
  rw [ofNumber_eq_decodeWithin, decodeWithin_eq_ok_iff]

/-- In each category, reading numbers back is a bijection from the numbers it succeeds on to the
canonical code that nests at most 1024 levels, also to the code whose number is too large to be
given. -/
theorem ofNumber_bijective (cat : Category) :
    (∀ x c, ofNumber cat x = .ok c → c.Canonical cat ∧ c.depth ≤ 1024) ∧
      (∀ x y c, ofNumber cat x = .ok c → ofNumber cat y = .ok c → x = y) ∧
      (∀ c : Code, c.Canonical cat → c.depth ≤ 1024 → ∃ x, ofNumber cat x = .ok c) ∧
      ∃ x c, ofNumber cat x = .ok c ∧ c.toNumber = .error .tooLarge := by
  refine ⟨?_, ?_, ?_, ?_⟩
  · intro x c h
    obtain ⟨hc, hd, -⟩ := ofNumber_eq_ok_iff.mp h
    exact ⟨hc, hd⟩
  · intro x y c hx hy
    obtain ⟨-, -, rfl⟩ := ofNumber_eq_ok_iff.mp hx
    obtain ⟨-, -, rfl⟩ := ofNumber_eq_ok_iff.mp hy
    rfl
  · intro c hc hd
    exact ⟨c.godel, ofNumber_eq_ok_iff.mpr ⟨hc, hd, rfl⟩⟩
  · obtain ⟨c, hc, hd, hlarge⟩ := exists_canonical_tooLarge cat
    exact ⟨c.godel, c, ofNumber_eq_ok_iff.mpr ⟨hc, hd, rfl⟩, hlarge⟩

end Code

end GodelWhile
