import Mathlib
import GodelWhile.Proofs.Nesting
import GodelWhile.Proofs.Spelling

/-! # Reading what was written

The text of a printable tree can be read, and gives the tree back but for the nesting of suites
(`exists_parse_render`). The tokens of a tree are read by induction over the tree, for every stream
that may follow them. What may follow is the point of the parentheses that the printer puts: a tree
that ends in a body must not be followed by a semicolon, which the body would take, and no tree may
be followed by an operator or by an `else`. -/

namespace GodelWhile

namespace Code

/-! ### Printable trees -/

/-- Code that is an expression where it is written. -/
def isExpression : Code → Bool
  | .skip | .assign _ _ | .suite _ | .ifThen _ _ | .ifElse _ _ _ | .loop _ _ => false
  | _ => true

mutual

/-- Whether expressions stand wherever expressions are wanted, and operands that pass the test
wherever a number is to be decoded or run. -/
def isShaped (operand : Code → Bool) : Code → Bool
  | .int _ | .bool _ | .var _ | .skip | .directive _ => true
  | .not e | .assign _ e => e.isExpression && isShaped operand e
  | .binary _ l r => l.isExpression && isShaped operand l && (r.isExpression && isShaped operand r)
  | .ifThen c a | .loop c a => c.isExpression && isShaped operand c && isShaped operand a
  | .ifElse c a b =>
      c.isExpression && isShaped operand c && isShaped operand a && isShaped operand b
  | .suite items => areShaped operand items
  | .number a => isShaped operand a
  | .decode _ e | .run _ e => operand e && isShaped operand e

/-- Whether all items are shaped. -/
def areShaped (operand : Code → Bool) : List Code → Bool
  | [] => true
  | a :: rest => isShaped operand a && areShaped operand rest

end

/-- Trees that have a text of their own: expressions stand where expressions are wanted, and the
constants and names can be written. -/
def isPrintable (c : Code) : Bool := c.isShaped isExpression && c.isWritable

end Code

namespace Rule

/-! ### Expressions from their operands -/

theorem Reads.next_ne_endOfInput {r : Rule} {ts rest : List Located} {c : Code}
    (h : Reads r ts c rest) (hr : r.mayBeEmpty = false) : (Parser.next ts).token ≠ .endOfInput := by
  have hlt := h.length_lt hr
  cases h.takes with
  | refl => exact absurd hlt (lt_irrefl _)
  | token ht _ => exact ht

/-- A factor is an operand of any level that no tighter operator follows. -/
theorem reads_operand_of_factor {l : Level} {ts u : List Located} {c : Code}
    (h : Reads .factor ts c u) (hu : NoTighter l u) : Reads (operand l) ts c u := by
  unfold operand
  cases ht : l.tighter? with
  | none => exact h
  | some t =>
    obtain ⟨htight, hnone⟩ := hu.of_tighter ht
    exact .level (reads_operand_of_factor h htight) (.noOperator hnone)
termination_by (Rule.level l).rank
decreasing_by exact rank_lt_of_tighter ht

theorem reads_expression_of_factor {ts u : List Located} {c : Code} (h : Reads .factor ts c u)
    (hu : EndsExpression u) : Reads expression ts c u :=
  .level (reads_operand_of_factor h hu.noTighter) (.noOperator hu.operator?_eq_none)

/-- Code of some level is an expression where no operator follows. -/
theorem reads_expression_of_level {l : Level} {ts u : List Located} {c : Code}
    (h : Reads (.level l) ts c u) (hu : EndsExpression u) : Reads expression ts c u := by
  have hlooser : ∀ {l}, Reads (operand l) ts c u → Reads (.level l) ts c u :=
    fun h => .level h (.noOperator hu.operator?_eq_none)
  cases l with
  | disjunction => exact h
  | conjunction => exact hlooser h
  | equality => exact hlooser (hlooser h)
  | comparison => exact hlooser (hlooser (hlooser h))
  | additive => exact hlooser (hlooser (hlooser (hlooser h)))
  | multiplicative => exact hlooser (hlooser (hlooser (hlooser (hlooser h))))

theorem reads_expression_of_factors {o : Operator} {p : Position} {ts mid u : List Located}
    {a b : Code} (ha : Reads .factor ts a (⟨.operator o, p⟩ :: mid)) (hb : Reads .factor mid b u)
    (hu : EndsExpression u) : Reads expression ts (.binary o a b) u := by
  have hop : NoTighter o.level (⟨.operator o, p⟩ :: mid) := by
    rintro o' ⟨⟩
    exact le_rfl
  have hlevel : Reads (.level o.level) ts (.binary o a b) u :=
    .level (reads_operand_of_factor ha hop) (.operator rfl (reads_operand_of_factor hb hu.noTighter)
      (.noOperator hu.operator?_eq_none))
  exact reads_expression_of_level hlevel hu

/-! ### What may follow -/

/-- The suite goes on: what has been read is all, or a semicolon is next and more items are read. -/
inductive After (done : List Code) : List Located → Code → List Located → Prop
  | last {u : List Located} (hlast : (Parser.next u).token ≠ .semicolon) :
      After done u (.suite done.reverse) u
  | more {p : Position} {u rest : List Located} {c : Code} (hc : Reads (.suite done) u c rest) :
      After done (⟨.semicolon, p⟩ :: u) c rest

theorem After.reads_suite {done : List Code} {ts u rest : List Located} {a c : Code}
    (h : After (a :: done) u c rest) (ha : Reads .item ts a u) : Reads (.suite done) ts c rest := by
  have hnext := ha.next_ne_endOfInput rfl
  cases h with
  | last hlast => exact .suiteLast hnext ha hlast
  | more hc => exact .suiteMore hnext ha hc

end Rule

namespace Code

open Rule

/-- The stream can follow the code: neither takes anything from the other. -/
structure FollowedBy (t : Code) (u : List Located) : Prop where
  expression : EndsExpression u
  next_ne_else : (Parser.next u).token ≠ .keyword .elseWord
  next_ne_semicolon : t.isOpenEnded = true → (Parser.next u).token ≠ .semicolon

/-- What can follow some code can follow any code that is not more open. -/
theorem FollowedBy.of_open {t t' : Code} {u : List Located} (h : FollowedBy t u)
    (hopen : t'.isOpenEnded = true → t.isOpenEnded = true) : FollowedBy t' u :=
  ⟨h.expression, h.next_ne_else, fun h' => h.next_ne_semicolon (hopen h')⟩

theorem followedBy_closeParen (t : Code) (u : List Located) : FollowedBy t (Token.bare .closeParen :: u) :=
  ⟨⟨rfl, nofun⟩, nofun, fun _ => nofun⟩

/-- The tokens of the code are read back, as an expression if it is one, and as items of a suite. -/
structure Readable (t : Code) : Prop where
  reads_expression : t.isExpression = true → ∀ {u}, FollowedBy t u →
    Reads expression (t.tokens.map Token.bare ++ u) t.reread u
  reads_suite : ∀ {done u c rest}, FollowedBy t u → After (t.reread.parts.reverse ++ done) u c rest →
    Reads (.suite done) (t.tokens.map Token.bare ++ u) c rest

/-! ### Operands and bodies -/

theorem startsExpression_operand {e : Code} (he : e.isExpression = true) {u : List Located}
    (hu : (Parser.next u).token ≠ .assign) :
    startsExpression ((operandTokens e e.tokens).map Token.bare ++ u) = true := by
  cases hatomic : e.isAtomic with
  | false =>
    rw [operandTokens, hatomic]
    rfl
  | true =>
    rw [operandTokens, hatomic, if_pos rfl]
    cases e with
    | int n | bool b => rfl
    | var x =>
      rcases u with _ | ⟨⟨t, p⟩, u⟩
      · rfl
      · cases t with
        | assign => exact absurd rfl hu
        | _ => rfl
    | _ => cases hatomic

namespace Readable

variable {t : Code} (h : Readable t) {u : List Located}
include h

/-- Where no semicolon follows, the code is read as a suite. -/
theorem reads_whole (hu : FollowedBy t u) (hlast : (Parser.next u).token ≠ .semicolon) :
    Reads (.suite []) (t.tokens.map Token.bare ++ u) (.suite t.reread.parts) u := by
  have hafter : After t.reread.parts.reverse u (.suite t.reread.parts.reverse.reverse) u :=
    .last hlast
  rw [List.reverse_reverse, ← List.append_nil t.reread.parts.reverse] at hafter
  exact h.reads_suite hu hafter

theorem reads_group (u : List Located) :
    Reads (.suite []) (t.tokens.map Token.bare ++ Token.bare .closeParen :: u)
      (.suite t.reread.parts) (Token.bare .closeParen :: u) :=
  h.reads_whole (followedBy_closeParen t u) nofun

theorem reads_enclosed (hu : continuesExpression (Parser.next u).token = false) :
    Reads .item ((enclosed t.tokens).map Token.bare ++ u) (.suite t.reread.parts) u := by
  have hgroup := Reads.group (p := .nowhere) (h.reads_group u) hu
  simpa [enclosed, Token.bare] using hgroup

/-- A body is read back as a suite of one suite. -/
theorem reads_body (hu : continuesExpression (Parser.next u).token = false)
    (hlast : (Parser.next u).token ≠ .semicolon) :
    Reads (.suite []) ((enclosed t.tokens).map Token.bare ++ u) t.reread.asBody u :=
  (After.last hlast).reads_suite (h.reads_enclosed hu)

/-- An operand is read back whatever follows it. -/
theorem reads_operand (ht : t.isExpression = true) (hwritable : t.isWritable = true)
    (u : List Located) :
    Reads .primary ((operandTokens t t.tokens).map Token.bare ++ u) t.reread u := by
  cases hatomic : t.isAtomic with
  | false =>
    have hparens := Reads.parens (p := .nowhere) (h.reads_expression ht (followedBy_closeParen t u))
    rw [operandTokens, hatomic, if_neg Bool.false_ne_true]
    simpa [enclosed, Token.bare] using hparens
  | true =>
    rw [operandTokens, hatomic, if_pos rfl]
    cases t with
    | int n =>
      obtain ⟨k, rfl⟩ := Int.eq_ofNat_of_zero_le (of_decide_eq_true hwritable)
      exact .int
    | bool b => exact .bool
    | var x => exact .var
    | _ => cases hatomic

theorem reads_factor (ht : t.isExpression = true) (hwritable : t.isWritable = true)
    (u : List Located) :
    Reads .factor ((operandTokens t t.tokens).map Token.bare ++ u) t.reread u := by
  have hnext : (Parser.next ((operandTokens t t.tokens).map Token.bare ++ u)).token ≠ .bang := by
    cases hatomic : t.isAtomic with
    | false =>
      rw [operandTokens, hatomic]
      nofun
    | true =>
      rw [operandTokens, hatomic, if_pos rfl]
      cases t with
      | int n | bool b | var x => nofun
      | _ => cases hatomic
  exact .primary hnext (h.reads_operand ht hwritable u)

end Readable

/-! ### One construct at a time -/

/-- Code that is one item. -/
theorem Readable.of_item {t : Code} (hparts : t.reread.parts = [t.reread])
    (hexpression : t.isExpression = true → ∀ {u}, FollowedBy t u →
      Reads expression (t.tokens.map Token.bare ++ u) t.reread u)
    (hitem : ∀ {u}, FollowedBy t u → Reads .item (t.tokens.map Token.bare ++ u) t.reread u) :
    Readable t where
  reads_expression := hexpression
  reads_suite := by
    intro done u c rest hu hafter
    rw [hparts] at hafter
    exact hafter.reads_suite (hitem hu)

/-- Code that is a factor. -/
theorem Readable.of_factor {t : Code} (hparts : t.reread.parts = [t.reread])
    (hstart : ∀ {u}, EndsExpression u → startsExpression (t.tokens.map Token.bare ++ u) = true)
    (hopen : ∀ u, (Parser.next (t.tokens.map Token.bare ++ u)).token ≠ .openParen)
    (hfactor : ∀ {u}, FollowedBy t u → Reads .factor (t.tokens.map Token.bare ++ u) t.reread u) :
    Readable t := by
  have hexpression : ∀ {u}, FollowedBy t u →
      Reads expression (t.tokens.map Token.bare ++ u) t.reread u :=
    fun hu => reads_expression_of_factor (hfactor hu) hu.expression
  refine .of_item hparts (fun _ => hexpression) fun hu => ?_
  exact .item (hopen _) (.expression (hstart hu.expression) (hexpression hu))

/-- Tokens that only factors start with, whatever comes after. -/
def leadsFactor : Token → Bool
  | .number _ | .boolean _ | .bang | .directive _ => true
  | _ => false

/-- Code that is a factor and shows it by its first token. -/
theorem Readable.of_leading {t : Code} {lead : Token} {w : List Token}
    (htokens : t.tokens = lead :: w) (hlead : leadsFactor lead = true)
    (hparts : t.reread.parts = [t.reread])
    (hfactor : ∀ {u}, FollowedBy t u →
      Reads .factor (Token.bare lead :: (w.map Token.bare ++ u)) t.reread u) :
    Readable t := by
  refine .of_factor hparts ?_ ?_ ?_ <;> rw [htokens]
  · intro u _
    cases lead with
    | number | boolean | bang | directive => rfl
    | _ => cases hlead
  · intro u heq
    cases lead with
    | openParen => cases hlead
    | _ => cases heq
  · exact hfactor

/-- Code that is a statement, and no expression. -/
theorem Readable.of_statement {t : Code} (hparts : t.reread.parts = [t.reread])
    (ht : t.isExpression = false)
    (hopen : ∀ u, (Parser.next (t.tokens.map Token.bare ++ u)).token ≠ .openParen)
    (hstatement : ∀ {u}, FollowedBy t u →
      Reads .statement (t.tokens.map Token.bare ++ u) t.reread u) :
    Readable t :=
  .of_item hparts (fun h => by rw [ht] at h; cases h) fun hu => .item (hopen _) (hstatement hu)

section

variable {c e l r a b : Code}

theorem readable_int {n : Int} (h : (int n).isWritable = true) : Readable (.int n) := by
  obtain ⟨k, rfl⟩ := Int.eq_ofNat_of_zero_le (of_decide_eq_true h)
  exact .of_leading rfl rfl rfl fun _ => .primary nofun .int

theorem readable_bool (b : Bool) : Readable (.bool b) :=
  .of_leading rfl rfl rfl fun _ => .primary nofun .bool

theorem readable_var (x : String) : Readable (.var x) :=
  .of_factor rfl (fun hu => startsExpression_operand (e := .var x) rfl hu.2) (fun _ => nofun)
    fun _ => .primary nofun .var

theorem readable_directive (d : Directive) : Readable (.directive d) := by
  cases d with
  | trace p => exact .of_leading rfl rfl rfl fun _ => .primary nofun .trace
  | exit => exact .of_leading rfl rfl rfl fun _ => .primary nofun .exit
  | reset => exact .of_leading rfl rfl rfl fun _ => .primary nofun .reset
  | help => exact .of_leading rfl rfl rfl fun _ => .primary nofun .help
  | print x => exact .of_leading rfl rfl rfl fun _ => .primary nofun .print
  | eval x => exact .of_leading rfl rfl rfl fun _ => .primary nofun .eval

theorem readable_not (h : Readable e) (he : e.isExpression = true)
    (hwritable : e.isWritable = true) : Readable (.not e) := by
  refine .of_leading (by rw [tokens]) rfl (by rw [reread]; rfl) fun {u} _ => ?_
  rw [reread]
  exact .not (h.reads_operand he hwritable u)

theorem readable_number (h : Readable a) : Readable (.number a) := by
  refine .of_leading (by rw [tokens]; rfl) rfl (by rw [reread]; rfl) fun {u} hu => ?_
  rw [reread]
  exact .primary nofun (.number (h.reads_body hu.expression.1 (hu.next_ne_semicolon rfl)))

/-- What follows the name of a category is read as a statement, here an expression. -/
theorem reads_decoded (h : Readable e) (he : e.isExpression = true)
    (hwritable : e.isWritable = true) {u : List Located} (hu : EndsExpression u) :
    Reads .statement ((operandTokens e e.tokens).map Token.bare ++ u) e.reread u :=
  .expression (startsExpression_operand he hu.2)
    (reads_expression_of_factor (h.reads_factor he hwritable u) hu)

theorem readable_decode (cat : Category) (h : Readable e) (he : e.isExpression = true)
    (hwritable : e.isWritable = true) : Readable (.decode cat e) := by
  refine .of_leading (by rw [tokens]; rfl) rfl (by rw [reread]; rfl) fun {u} hu => ?_
  rw [reread]
  exact .primary nofun (.decode (reads_decoded h he hwritable hu.expression))

theorem readable_run (cat : Category) (h : Readable e) (he : e.isExpression = true)
    (hwritable : e.isWritable = true) : Readable (.run cat e) := by
  refine .of_leading (by rw [tokens]; rfl) rfl (by rw [reread]; rfl) fun {u} hu => ?_
  rw [reread]
  exact .primary nofun (.run (reads_decoded h he hwritable hu.expression))

/-- An operation in item position whose first operand is in parentheses is tried as a suite first;
the operator after the parenthesis then shows that it is none. -/
theorem readable_binary (o : Operator) (hl : Readable l) (hr : Readable r)
    (hel : l.isExpression = true) (her : r.isExpression = true) (hwl : l.isWritable = true)
    (hwr : r.isWritable = true) : Readable (.binary o l r) := by
  have hexpression : ∀ {u}, FollowedBy (.binary o l r) u →
      Reads expression ((binary o l r).tokens.map Token.bare ++ u) (binary o l r).reread u := by
    intro u hu
    have hleft := hl.reads_factor hel hwl
      (Token.bare (.operator o) :: ((operandTokens r r.tokens).map Token.bare ++ u))
    have hboth := reads_expression_of_factors hleft (hr.reads_factor her hwr u) hu.expression
    rw [tokens, reread]
    simpa using hboth
  refine .of_item (by rw [reread]; rfl) (fun _ => hexpression) fun {u} hu => ?_
  have hstart : startsExpression ((binary o l r).tokens.map Token.bare ++ u) = true := by
    rw [tokens, List.map_append, List.map_append, List.append_assoc, List.append_assoc]
    exact startsExpression_operand hel nofun
  have hstatement := Reads.expression hstart (hexpression hu)
  cases hatomic : l.isAtomic with
  | true =>
    refine .item ?_ hstatement
    rw [tokens, operandTokens, hatomic, if_pos rfl]
    cases l with
    | int n | bool b | var x => nofun
    | _ => cases hatomic
  | false =>
    have hgroup := hl.reads_group
      (Token.bare (.operator o) :: ((operandTokens r r.tokens).map Token.bare ++ u))
    have htokens : (binary o l r).tokens.map Token.bare ++ u =
        ⟨.openParen, .nowhere⟩ :: (l.tokens.map Token.bare ++ Token.bare .closeParen ::
          (Token.bare (.operator o) :: ((operandTokens r r.tokens).map Token.bare ++ u))) := by
      rw [tokens, operandTokens, hatomic]
      simp [enclosed, Token.bare]
    rw [htokens] at hstatement ⊢
    exact .operandFirst hgroup rfl hstatement

theorem readable_skip : Readable .skip :=
  .of_statement rfl rfl (fun _ => nofun) fun _ => .skip

theorem readable_assign (x : String) (h : Readable e) (he : e.isExpression = true) :
    Readable (.assign x e) := by
  refine .of_statement (by rw [reread]; rfl) rfl ?_ ?_ <;> rw [tokens]
  · exact fun _ => nofun
  · intro u hu
    have hvalue : FollowedBy e u := hu.of_open fun h => by rwa [isOpenEnded]
    rw [reread]
    exact .assign (h.reads_expression he hvalue)

/-- A condition is read up to the keyword after it. -/
theorem reads_condition (h : Readable c) (hc : c.isExpression = true)
    (hwritable : c.isWritable = true) (k : Keyword) (u : List Located) :
    Reads expression ((operandTokens c c.tokens).map Token.bare ++ Token.bare (.keyword k) :: u)
      c.reread (Token.bare (.keyword k) :: u) :=
  reads_expression_of_factor (h.reads_factor hc hwritable _) ⟨rfl, nofun⟩

theorem readable_ifThen (hc : Readable c) (hec : c.isExpression = true)
    (hwc : c.isWritable = true) (ha : Readable a) : Readable (.ifThen c a) := by
  refine .of_statement (by rw [reread]; rfl) rfl ?_ ?_ <;> rw [tokens]
  · exact fun _ => nofun
  · intro u hu
    have hcondition := reads_condition hc hec hwc .thenWord ((enclosed a.tokens).map Token.bare ++ u)
    have hbody := ha.reads_body hu.expression.1 (hu.next_ne_semicolon rfl)
    rw [reread]
    simpa [Token.bare] using
      Reads.ifThen (p := .nowhere) hcondition hbody hu.next_ne_else

theorem readable_ifElse (hc : Readable c) (hec : c.isExpression = true)
    (hwc : c.isWritable = true) (ha : Readable a) (hb : Readable b) :
    Readable (.ifElse c a b) := by
  refine .of_statement (by rw [reread]; rfl) rfl ?_ ?_ <;> rw [tokens]
  · exact fun _ => nofun
  · intro u hu
    have hno := hb.reads_body hu.expression.1 (hu.next_ne_semicolon rfl)
    have hyes : Reads (.suite []) ((enclosed a.tokens).map Token.bare ++
        Token.bare (.keyword .elseWord) :: ((enclosed b.tokens).map Token.bare ++ u))
        a.reread.asBody _ := ha.reads_body rfl nofun
    have hcondition := reads_condition hc hec hwc .thenWord ((enclosed a.tokens).map Token.bare ++
        Token.bare (.keyword .elseWord) :: ((enclosed b.tokens).map Token.bare ++ u))
    rw [reread]
    simpa [Token.bare] using Reads.ifElse (p := .nowhere) hcondition hyes hno

theorem readable_loop (hc : Readable c) (hec : c.isExpression = true)
    (hwc : c.isWritable = true) (ha : Readable a) : Readable (.loop c a) := by
  refine .of_statement (by rw [reread]; rfl) rfl ?_ ?_ <;> rw [tokens]
  · exact fun _ => nofun
  · intro u hu
    have hcondition := reads_condition hc hec hwc .doWord ((enclosed a.tokens).map Token.bare ++ u)
    have hbody := ha.reads_body hu.expression.1 (hu.next_ne_semicolon rfl)
    rw [reread]
    simpa [Token.bare] using Reads.loop (p := .nowhere) hcondition hbody

end

/-! ### All constructs -/

mutual

/-- Printable trees are read back. -/
theorem readable : ∀ {t : Code}, t.isShaped isExpression = true → t.isWritable = true → Readable t
  | .int n, _, hw => readable_int hw
  | .bool b, _, _ => readable_bool b
  | .var x, _, _ => readable_var x
  | .directive d, _, _ => readable_directive d
  | .skip, _, _ => readable_skip
  | .not e, h, hw => by
      rw [isShaped, Bool.and_eq_true] at h
      rw [isWritable] at hw
      exact readable_not (readable h.2 hw) h.1 hw
  | .binary o l r, h, hw => by
      simp only [isShaped, Bool.and_eq_true] at h
      rw [isWritable, Bool.and_eq_true] at hw
      exact readable_binary o (readable h.1.2 hw.1) (readable h.2.2 hw.2) h.1.1 h.2.1 hw.1 hw.2
  | .assign x e, h, hw => by
      rw [isShaped, Bool.and_eq_true] at h
      rw [isWritable, Bool.and_eq_true] at hw
      exact readable_assign x (readable h.2 hw.2) h.1
  | .suite items, h, hw => by
      rw [isShaped] at h
      rw [isWritable] at hw
      refine ⟨nofun, fun hu hafter => ?_⟩
      rw [reread] at hafter
      rw [tokens]
      exact reads_items h hw hu hafter
  | .ifThen c a, h, hw => by
      simp only [isShaped, Bool.and_eq_true] at h
      rw [isWritable, Bool.and_eq_true] at hw
      exact readable_ifThen (readable h.1.2 hw.1) h.1.1 hw.1 (readable h.2 hw.2)
  | .ifElse c a b, h, hw => by
      simp only [isShaped, Bool.and_eq_true] at h
      simp only [isWritable, Bool.and_eq_true] at hw
      exact readable_ifElse (readable h.1.1.2 hw.1.1) h.1.1.1 hw.1.1 (readable h.1.2 hw.1.2)
        (readable h.2 hw.2)
  | .loop c a, h, hw => by
      simp only [isShaped, Bool.and_eq_true] at h
      rw [isWritable, Bool.and_eq_true] at hw
      exact readable_loop (readable h.1.2 hw.1) h.1.1 hw.1 (readable h.2 hw.2)
  | .number a, h, hw => by
      rw [isShaped] at h
      rw [isWritable] at hw
      exact readable_number (readable h hw)
  | .decode cat e, h, hw => by
      rw [isShaped, Bool.and_eq_true] at h
      rw [isWritable] at hw
      exact readable_decode cat (readable h.2 hw) h.1 hw
  | .run cat e, h, hw => by
      rw [isShaped, Bool.and_eq_true] at h
      rw [isWritable] at hw
      exact readable_run cat (readable h.2 hw) h.1 hw

theorem reads_items : ∀ {items : List Code}, areShaped isExpression items = true →
    areWritable items = true → ∀ {done u c rest}, FollowedBy (.suite items) u →
    After ((rereadItems items).reverse ++ done) u c rest →
    Reads (.suite done) ((itemTokens items).map Token.bare ++ u) c rest
  | [], _, _, done, u, c, rest, _, hafter => by
      rw [rereadItems] at hafter
      rw [itemTokens]
      exact hafter.reads_suite (.item nofun .skip)
  | [a], h, hw, done, u, c, rest, hu, hafter => by
      rw [areShaped, Bool.and_eq_true] at h
      rw [areWritable, Bool.and_eq_true] at hw
      have ha : FollowedBy a u := hu.of_open fun h => by rwa [isOpenEnded, endsOpen]
      rw [rereadItems] at hafter
      rw [itemTokens]
      exact (readable h.1 hw.1).reads_suite ha hafter
  | a :: b :: rest', h, hw, done, u, c, rest, hu, hafter => by
      rw [areShaped, Bool.and_eq_true] at h
      rw [areWritable, Bool.and_eq_true] at hw
      have ha := readable h.1 hw.1
      have hmore : FollowedBy (.suite (b :: rest')) u := hu.of_open fun h => by
        rw [isOpenEnded] at h
        rwa [isOpenEnded, endsOpen]
      rw [rereadItems, List.reverse_append, List.append_assoc] at hafter
      have htail := After.more (p := .nowhere) (reads_items h.2 hw.2 hmore hafter)
      rw [itemTokens, List.map_append, List.append_assoc, List.map_cons, List.cons_append]
      -- `a` is in parentheses exactly if it would take the semicolon after it.
      cases hopen : a.isOpenEnded with
      | true =>
        rw [hopen, if_pos rfl] at htail
        rw [if_pos rfl]
        exact htail.reads_suite (ha.reads_enclosed rfl)
      | false =>
        rw [hopen, if_neg Bool.false_ne_true] at htail
        rw [if_neg Bool.false_ne_true]
        refine ha.reads_suite ⟨⟨rfl, nofun⟩, nofun, fun h => ?_⟩ htail
        rw [hopen] at h
        cases h

end

end Code

theorem Code.eq_suite_of_unplaced_eq {c e : Code} (he : e.isPure = true)
    (h : c.unplaced = .suite [e]) : c = .suite [e] := by
  cases c with
  | suite items =>
    rw [unplaced, unplacedItems_eq_map, suite.injEq] at h
    obtain ⟨a, rfl, ha⟩ := List.map_eq_singleton_iff.mp h
    rw [eq_of_unplaced_eq he ha]
  | _ => rw [unplaced] at h; cases h

/-- The text of a printable tree is parsed, as what is read back of the tree. -/
theorem exists_parse_render {t : Code} (h : t.isPrintable = true) :
    ∃ t', parse t.render = .ok t' ∧ t'.unplaced = .suite t.reread.parts := by
  rw [Code.isPrintable, Bool.and_eq_true] at h
  obtain ⟨hshaped, hwritable⟩ := h
  obtain ⟨ts, p, htokenize, hts⟩ := (Code.spells_tokens hwritable).tokenize
  have hreads := (Code.readable hshaped hwritable).reads_whole (u := [Token.bare .endOfInput])
    ⟨⟨rfl, nofun⟩, nofun, fun _ => nofun⟩ nofun
  rw [← hts] at hreads
  obtain ⟨t', hparse, hunplaced⟩ := parseProgram_of_bare hreads p
  refine ⟨t', ?_, hunplaced⟩
  rw [parse, htokenize]
  exact hparse

/-- Printing a tree and parsing the text gives the tree again, up to the nesting of suites and the
places of directives. The text of what is read is the same, and an expression without directives
comes back exactly. -/
theorem parse_render {t : Code} (h : t.isPrintable = true) :
    ∃ t', parse t.render = .ok t' ∧ t'.flat.parts = t.flat.parts ∧ t'.render = t.render ∧
      (t.isPure = true → t' = .suite [t]) := by
  obtain ⟨t', hparse, hunplaced⟩ := exists_parse_render h
  refine ⟨t', hparse, ?_, ?_, fun hpure => ?_⟩
  · rw [← Code.flat_unplaced t', hunplaced, Code.flat_suite_parts (Code.parts_reread_ne_nil t),
      Code.flat_reread]
  · rw [← Code.render_unplaced t', hunplaced, Code.render_suite_parts, Code.render_reread]
  · have hparts : t.reread.parts = [t] := by
      rw [Code.reread_of_isPure hpure]
      cases t with
      | suite items => cases hpure
      | _ => rfl
    rw [hparts] at hunplaced
    exact Code.eq_suite_of_unplaced_eq hpure hunplaced

/-- A branching and an assigned number, both open-ended, stand before other items, and suites nest
to either side of them. -/
theorem parse_render_nested :
    let t := Code.suite
      [.suite [.ifThen (.binary .eq (.binary (.arith .add) (.var "x") (.int 1)) (.int 2))
        (.loop (.not (.bool false)) (.suite [])), .directive (.trace .start)],
      .assign "n" (.number (.suite [.skip, .directive (.print "x")])),
      .binary .and (.not (.var "a")) (.run .boolean (.binary (.arith .mul) (.var "n") (.int 2)))]
    t.isPrintable = true ∧ ∃ t', parse t.render = .ok t' ∧ t'.flat.parts = t.flat.parts ∧
      t'.render = t.render ∧ (t.isPure = true → t' = .suite [t]) := by
  intro t
  have h : t.isPrintable = true := by decide
  exact ⟨h, parse_render h⟩

end GodelWhile
