import Mathlib
import GodelWhile.Proofs.Canonical

/-! # The normal form of numbered code

Code is *well-sorted* if arithmetic, booleans and statements stand where they belong. The numbering
takes all well-sorted code whose constants are natural and whose variables have numbers, but it
tells fewer constructs apart than the language has. `normalize` says which ones it takes for the
same: comparisons become `≤`, disjunctions become conjunctions, suites nest to the right in twos,
and what leaves the variables alone becomes `skip`. The number of well-sorted code is the number
`godel` of its normal form, unless a pair on the way is too large. -/

namespace GodelWhile

open GodelWhile.Numbering

/-- The constants and the variables that may stand in code. -/
structure Vocabulary where
  constant : Int → Bool
  name : String → Bool

namespace Vocabulary

/-- All constants and variables. -/
def any : Vocabulary := ⟨fun _ => true, fun _ => true⟩

/-- The constants and variables that have numbers. -/
def numbered : Vocabulary := ⟨(0 ≤ ·), (· ∈ numberedNames)⟩

theorem constant_numbered {n : Int} (h : numbered.constant n) : 0 ≤ n := of_decide_eq_true h

theorem name_numbered {x : String} (h : numbered.name x) : x ∈ numberedNames := of_decide_eq_true h

end Vocabulary

namespace Code

/-- Code of the given category, with its parts of the categories they should have. -/
inductive WellSorted (V : Vocabulary) : Category → Code → Prop
  | int {n : Int} (hn : V.constant n) : WellSorted V .arithmetic (.int n)
  | var {x : String} (hx : V.name x) : WellSorted V .arithmetic (.var x)
  | arith {o : Arithmetic} {l r : Code} (ho : o ≠ .div) (hl : WellSorted V .arithmetic l)
      (hr : WellSorted V .arithmetic r) : WellSorted V .arithmetic (.binary (.arith o) l r)
  | bool (b : Bool) : WellSorted V .boolean (.bool b)
  | eq {l r : Code} (hl : WellSorted V .arithmetic l) (hr : WellSorted V .arithmetic r) :
      WellSorted V .boolean (.binary .eq l r)
  | compare (o : Comparison) {l r : Code} (hl : WellSorted V .arithmetic l)
      (hr : WellSorted V .arithmetic r) : WellSorted V .boolean (.binary (.compare o) l r)
  | not {e : Code} (he : WellSorted V .boolean e) : WellSorted V .boolean (.not e)
  | and {l r : Code} (hl : WellSorted V .boolean l) (hr : WellSorted V .boolean r) :
      WellSorted V .boolean (.binary .and l r)
  | or {l r : Code} (hl : WellSorted V .boolean l) (hr : WellSorted V .boolean r) :
      WellSorted V .boolean (.binary .or l r)
  | skip : WellSorted V .statement .skip
  | trace (p : Position) : WellSorted V .statement (.directive (.trace p))
  | print (x : String) : WellSorted V .statement (.directive (.print x))
  | help : WellSorted V .statement (.directive .help)
  | assign {x : String} {e : Code} (hx : V.name x) (he : WellSorted V .arithmetic e) :
      WellSorted V .statement (.assign x e)
  | loop {c a : Code} (hc : WellSorted V .boolean c) (ha : WellSorted V .statement a) :
      WellSorted V .statement (.loop c a)
  | ifThen {c a : Code} (hc : WellSorted V .boolean c) (ha : WellSorted V .statement a) :
      WellSorted V .statement (.ifThen c a)
  | ifElse {c a b : Code} (hc : WellSorted V .boolean c) (ha : WellSorted V .statement a)
      (hb : WellSorted V .statement b) : WellSorted V .statement (.ifElse c a b)
  | suite {items : List Code} (h : ∀ a ∈ items, WellSorted V .statement a) :
      WellSorted V .statement (.suite items)

/-! ### The normal form -/

/-- A branching, without its alternative if that does nothing. -/
def branching (c a : Code) : Code → Code
  | .skip => .ifThen c a
  | b => .ifElse c a b

mutual

/-- The code that the numbering takes the code for. -/
def normalize : Code → Code
  | .not e => .not (normalize e)
  | .binary (.compare .ge) l r => .binary (.compare .le) (normalize r) (normalize l)
  | .binary (.compare .lt) l r => .not (.binary (.compare .le) (normalize r) (normalize l))
  | .binary (.compare .gt) l r => .not (.binary (.compare .le) (normalize l) (normalize r))
  | .binary .or l r => .not (.binary .and (.not (normalize l)) (.not (normalize r)))
  | .binary o l r => .binary o (normalize l) (normalize r)
  | .assign x e => .assign x (normalize e)
  | .suite items => normalizeItems items
  | .ifThen c a => .ifThen (normalize c) (normalize a)
  | .ifElse c a b => branching (normalize c) (normalize a) (normalize b)
  | .loop c a => .loop (normalize c) (normalize a)
  | .directive (.trace _) | .directive (.print _) | .directive .help => .skip
  | c => c

/-- The suite of the items, as suites of two. -/
def normalizeItems : List Code → Code
  | [] => .skip
  | [a] => normalize a
  | a :: b :: rest => .suite [normalize a, normalizeItems (b :: rest)]

end

/-- Arithmetic is in normal form. -/
theorem normalize_arithmetic {V : Vocabulary} {e : Code} (h : e.WellSorted V .arithmetic) :
    e.normalize = e := by
  generalize hcat : Category.arithmetic = cat at h
  induction h with
  | int | var => simp only [normalize]
  | arith ho _ _ ihl ihr => simp only [normalize, ihl hcat, ihr hcat]
  | _ => cases hcat

theorem canonical_branching {c a b : Code} (hc : c.Canonical .boolean)
    (ha : a.Canonical .statement) (hb : b.Canonical .statement) :
    (branching c a b).Canonical .statement := by
  by_cases hskip : b = .skip
  · rw [hskip]; exact .ifThen hc ha
  · rw [branching]
    · exact .ifElse hc ha hb hskip
    · exact hskip

theorem canonical_normalizeItems : ∀ {items : List Code},
    (∀ a ∈ items, a.normalize.Canonical .statement) → (normalizeItems items).Canonical .statement
  | [], _ => by simpa only [normalizeItems] using .skip
  | [a], h => by
    rw [normalizeItems]
    exact h a List.mem_cons_self
  | a :: b :: rest, h => by
    rw [normalizeItems]
    exact .suite (h a List.mem_cons_self)
      (canonical_normalizeItems fun a' ha' => h a' (List.mem_cons_of_mem a ha'))

/-- Normal forms are canonical. -/
theorem canonical_normalize {cat : Category} {t : Code} (ht : t.WellSorted .numbered cat) :
    t.normalize.Canonical cat := by
  induction ht with
  | int hn =>
    obtain ⟨n, rfl⟩ := Int.eq_ofNat_of_zero_le (Vocabulary.constant_numbered hn)
    simpa only [normalize] using .int n
  | var hx => simpa only [normalize] using .var (Vocabulary.name_numbered hx)
  | arith ho _ _ ihl ihr => simpa only [normalize] using .arith ho ihl ihr
  | bool b => simpa only [normalize] using .bool b
  | eq _ _ ihl ihr => simpa only [normalize] using .eq ihl ihr
  | compare o _ _ ihl ihr =>
    cases o with
    | lt => simpa only [normalize] using .not (.le ihr ihl)
    | le => simpa only [normalize] using .le ihl ihr
    | gt => simpa only [normalize] using .not (.le ihl ihr)
    | ge => simpa only [normalize] using .le ihr ihl
  | not _ ih => simpa only [normalize] using .not ih
  | and _ _ ihl ihr => simpa only [normalize] using .and ihl ihr
  | or _ _ ihl ihr => simpa only [normalize] using .not (.and (.not ihl) (.not ihr))
  | skip | trace | print | help => simpa only [normalize] using .skip
  | assign hx _ ih =>
    simpa only [normalize] using .assign (Vocabulary.name_numbered hx) ih
  | loop _ _ ihc iha => simpa only [normalize] using .loop ihc iha
  | ifThen _ _ ihc iha => simpa only [normalize] using .ifThen ihc iha
  | ifElse _ _ _ ihc iha ihb =>
    simpa only [normalize] using canonical_branching ihc iha ihb
  | suite _ ih => simpa only [normalize] using canonical_normalizeItems ih

/-- Canonical code is in normal form. -/
theorem normalize_canonical {cat : Category} {c : Code} (h : c.Canonical cat) :
    c.normalize = c := by
  induction h with
  | int | var | bool | skip => simp only [normalize]
  | arith _ _ _ ihl ihr | eq _ _ ihl ihr | le _ _ ihl ihr | and _ _ ihl ihr =>
    simp only [normalize, ihl, ihr]
  | not _ ih | assign _ _ ih => simp only [normalize, ih]
  | loop _ _ ihc iha | ifThen _ _ ihc iha => simp only [normalize, ihc, iha]
  | suite _ _ iha ihb => simp only [normalize, normalizeItems, iha, ihb]
  | ifElse _ _ _ hskip ihc iha ihb =>
    rw [normalize, ihc, iha, ihb, branching]
    exact hskip

end Code

namespace Numbering

/-! ### Numbers up to their size -/

/-- The computation gives the number `n`, unless it gets too large, which takes a large `n`. -/
def Gives (r : Except NumberingError Nat) (n : Nat) : Prop :=
  r = .ok n ∨ r = .error .tooLarge ∧ 2 ^ maxExponent ≤ n

namespace Gives

variable {r l : Except NumberingError Nat} {n m k : Nat}

theorem ok (n : Nat) : Gives (.ok n) n := .inl rfl

theorem bind {f : Nat → Except NumberingError Nat} (hr : Gives r n) (hle : n ≤ k)
    (hf : Gives (f n) k) : Gives (r >>= f) k := by
  rcases hr with rfl | ⟨rfl, hn⟩
  · exact hf
  · exact .inr ⟨rfl, le_trans hn hle⟩

theorem pairing (n m : Nat) : Gives (pairing n m) (pair n m) := by
  rcases Nat.lt_or_ge maxExponent n with h | h
  · have hpow : 2 ^ maxExponent < 2 ^ n := Nat.pow_lt_pow_right Nat.one_lt_two h
    have hlarge := Nat.le_of_lt_succ (lt_of_lt_of_le hpow (two_pow_le_pair_succ n m))
    exact .inr ⟨pairing_eq_tooLarge h m, hlarge⟩
  · exact .inl (pairing_eq_ok h m)

theorem taggedPair {modulus : Nat} (hmod : 0 < modulus) (tag n m : Nat) :
    Gives (taggedPair modulus tag n m) (tagged modulus tag (pair n m)) := by
  rw [Numbering.taggedPair]
  rcases pairing n m with h | ⟨h, hlarge⟩
  · exact .inl (by rw [h]; rfl)
  · exact .inr ⟨by rw [h]; rfl, le_trans hlarge (payload_le_tagged hmod tag _)⟩

/-- Two parts numbered one after the other and paired. -/
theorem taggedPairOf {modulus : Nat} (hmod : 0 < modulus) (tag : Nat) (hl : Gives l n)
    (hr : Gives r m) :
    Gives (do Numbering.taggedPair modulus tag (← l) (← r)) (tagged modulus tag (pair n m)) := by
  have hpair := payload_le_tagged hmod tag (pair n m)
  have hn := fst_le_pair n m
  have hm := two_mul_snd_le_pair n m
  exact hl.bind (by omega) (hr.bind (by omega) (taggedPair hmod tag n m))

theorem negated (hr : Gives r n) : Gives (do return negated (← r)) (tagged 4 4 n) :=
  hr.bind (payload_le_tagged (by decide) 4 n) (.ok _)

/-- A branching: the alternative is numbered already, the condition comes last. -/
theorem branches (hc : Gives l n) (ha : Gives r m) (b : Nat) :
    Gives (do
        let pair ← Numbering.pairing (← r) b
        Numbering.taggedPair 4 4 (← l) pair) (tagged 4 4 (pair n (pair m b))) := by
  have hpair := payload_le_tagged (by decide : 0 < 4) 4 (pair n (pair m b))
  have hn := fst_le_pair n (pair m b)
  have hbranches := two_mul_snd_le_pair n (pair m b)
  have hm := fst_le_pair m b
  exact ha.bind (by omega) ((pairing m b).bind (by omega)
    (hc.bind (by omega) (taggedPair (by decide) 4 n (pair m b))))

end Gives

theorem variableIndex_eq {x : String} (hx : x ∈ numberedNames) :
    variableIndex x = .ok (numberedNames.idxOf x) := by
  simp only [numberedNames, List.mem_cons, List.not_mem_nil, or_false] at hx
  rcases hx with rfl | rfl | rfl <;> rfl

/-- Booleans are never bare variables. -/
theorem checkOperands_eq_ok {V : Vocabulary} {l r : Code} (hl : l.WellSorted V .boolean)
    (hr : r.WellSorted V .boolean) : checkOperands l r = .ok () := by
  cases hl <;> cases hr <;> rfl

/-- A computation from two numbers has both of them. -/
theorem operands_of_ok {l r : Except NumberingError Nat} {n : Nat}
    {f : Nat → Nat → Except NumberingError Nat} (h : (do f (← l) (← r)) = .ok n) :
    (∃ a, l = .ok a) ∧ ∃ b, r = .ok b := by
  obtain ⟨a, ha, h⟩ := bind_eq_ok.mp h
  obtain ⟨b, hb, -⟩ := bind_eq_ok.mp h
  exact ⟨⟨a, ha⟩, ⟨b, hb⟩⟩

/-- A computation from a branch, then from the condition, has both numbers. -/
theorem branches_of_ok {c a : Except NumberingError Nat} {b n : Nat}
    (h : (do
      let branches ← pairing (← a) b
      taggedPair 4 4 (← c) branches) = .ok n) : (∃ k, c = .ok k) ∧ ∃ k, a = .ok k := by
  obtain ⟨k, hk, h⟩ := bind_eq_ok.mp h
  obtain ⟨_, _, h⟩ := bind_eq_ok.mp h
  obtain ⟨j, hj, -⟩ := bind_eq_ok.mp h
  exact ⟨⟨j, hj⟩, ⟨k, hk⟩⟩

theorem name_of_variableIndex {x : String} {i : Nat} (h : variableIndex x = .ok i) :
    x ∈ numberedNames := by
  by_contra hx
  rw [variableIndex, List.idxOf?_eq_none_iff.mpr hx] at h
  cases h

end Numbering

namespace Code

theorem godel_branching (c a b : Code) :
    (branching c a b).godel = tagged 4 4 (pair c.godel (pair a.godel b.godel)) := by
  by_cases hskip : b = .skip
  · rw [hskip, branching, godel, godel.eq_def .skip]
  · rw [branching, godel]
    exact hskip

theorem gives_itemsToNumber : ∀ {items : List Code},
    (∀ a ∈ items, Gives a.toNumber a.normalize.godel) →
      Gives (itemsToNumber items) (normalizeItems items).godel
  | [], _ => by
    rw [itemsToNumber, normalizeItems]
    exact .ok 0
  | [a], h => by
    rw [itemsToNumber, normalizeItems]
    exact h a List.mem_cons_self
  | a :: b :: rest, h => by
    have hrest := gives_itemsToNumber fun a' ha' => h a' (List.mem_cons_of_mem a ha')
    have ha := h a List.mem_cons_self
    rw [itemsToNumber, normalizeItems, godel]
    set n := a.normalize.godel
    set m := (normalizeItems (b :: rest)).godel
    -- the items after the first are numbered before it
    have hpair := payload_le_tagged (by decide : 0 < 4) 3 (pair n m)
    have hm := two_mul_snd_le_pair n m
    have hn := fst_le_pair n m
    exact hrest.bind (by omega) (ha.bind (by omega) (.taggedPair (by decide) 3 n m))

/-- Well-sorted code has the number of its normal form, unless that is too large. -/
theorem gives_toNumber {cat : Category} {t : Code} (ht : t.WellSorted .numbered cat) :
    Gives t.toNumber t.normalize.godel := by
  have five : 0 < 5 := by decide
  have four : 0 < 4 := by decide
  induction ht with
  | @int n hn =>
    have hnat : 0 ≤ n := Vocabulary.constant_numbered hn
    simp only [toNumber, hnat, if_true, normalize, godel]
    exact .ok _
  | var hx =>
    simp only [toNumber, variableIndex_eq (Vocabulary.name_numbered hx), normalize, godel]
    exact .ok _
  | @arith o _ _ ho _ _ ihl ihr =>
    cases o with
    | div => exact absurd rfl ho
    | _ =>
      simp only [toNumber, normalize, godel]
      exact .taggedPairOf five _ ihl ihr
  | bool b =>
    simp only [toNumber, normalize, godel]
    exact .ok _
  | eq _ _ ihl ihr =>
    simp only [toNumber, normalize, godel]
    exact .taggedPairOf four 2 ihl ihr
  | compare o _ _ ihl ihr =>
    cases o with
    | lt =>
      simp only [toNumber, normalize, godel]
      simpa only [bind_assoc] using (Gives.taggedPairOf four 3 ihr ihl).negated
    | le =>
      simp only [toNumber, normalize, godel]
      exact .taggedPairOf four 3 ihl ihr
    | gt =>
      simp only [toNumber, normalize, godel]
      simpa only [bind_assoc] using (Gives.taggedPairOf four 3 ihl ihr).negated
    | ge =>
      simp only [toNumber, normalize, godel]
      exact .taggedPairOf four 3 ihr ihl
  | not _ ih =>
    simp only [toNumber, normalize, godel]
    exact ih.negated
  | and hl hr ihl ihr =>
    simp only [toNumber, checkOperands_eq_ok hl hr, normalize, godel]
    exact .taggedPairOf four 5 ihl ihr
  | or hl hr ihl ihr =>
    simp only [toNumber, checkOperands_eq_ok hl hr, normalize, godel]
    have hor := (Gives.taggedPairOf four 5 ihl.negated ihr.negated).negated
    simp only [bind_assoc, pure_bind] at hor
    exact hor
  | skip | trace | print | help =>
    simp only [toNumber, normalize, godel]
    exact .ok 0
  | assign hx _ ih =>
    simp only [toNumber, variableIndex_eq (Vocabulary.name_numbered hx), normalize, godel]
    exact .taggedPairOf four 2 (.ok _) ih
  | loop _ _ ihc iha =>
    simp only [toNumber, normalize, godel]
    exact .taggedPairOf four 1 ihc iha
  | ifThen _ _ ihc iha =>
    simp only [toNumber, normalize, godel]
    exact .branches ihc iha 0
  | @ifElse c a b _ _ _ ihc iha ihb =>
    simp only [toNumber, normalize, godel_branching]
    have hb : b.normalize.godel ≤ tagged 4 4
        (pair c.normalize.godel (pair a.normalize.godel b.normalize.godel)) := by
      have htag := payload_le_tagged four 4
        (pair c.normalize.godel (pair a.normalize.godel b.normalize.godel))
      have houter := two_mul_snd_le_pair c.normalize.godel
        (pair a.normalize.godel b.normalize.godel)
      have hinner := two_mul_snd_le_pair a.normalize.godel b.normalize.godel
      omega
    exact ihb.bind hb (.branches ihc iha _)
  | suite _ ih =>
    simp only [toNumber, normalize]
    exact gives_itemsToNumber ih

theorem items_of_itemsToNumber : ∀ {items : List Code} {n : Nat},
    itemsToNumber items = .ok n → ∀ a ∈ items, ∃ k, a.toNumber = .ok k
  | [], _, _, a, ha => absurd ha List.not_mem_nil
  | [b], n, h, a, ha => by
    rw [itemsToNumber] at h
    rw [List.mem_singleton] at ha
    exact ⟨n, ha ▸ h⟩
  | b :: c :: rest, n, h, a, ha => by
    rw [itemsToNumber] at h
    obtain ⟨⟨k, hrest⟩, hb⟩ := operands_of_ok h
    rcases List.mem_cons.mp ha with rfl | ha
    · exact hb
    · exact items_of_itemsToNumber hrest a ha

/-- Well-sorted code with a number has natural constants and variables with numbers only. -/
theorem WellSorted.numbered {V : Vocabulary} {cat : Category} {t : Code} (ht : t.WellSorted V cat)
    {n : Nat} (hn : t.toNumber = .ok n) : t.WellSorted .numbered cat := by
  induction ht generalizing n with
  | @int k _ =>
    by_cases hk : 0 ≤ k
    · exact .int (decide_eq_true hk)
    · simp only [toNumber, hk, if_false, reduceCtorEq] at hn
  | @var x _ =>
    rw [toNumber] at hn
    cases hx : variableIndex x with
    | ok i => exact .var (decide_eq_true (name_of_variableIndex hx))
    | error e => rw [hx] at hn; cases hn
  | @arith o _ _ ho _ _ ihl ihr =>
    cases o with
    | div => exact absurd rfl ho
    | _ =>
      rw [toNumber] at hn
      obtain ⟨⟨_, hl⟩, ⟨_, hr⟩⟩ := operands_of_ok hn
      exact .arith ho (ihl hl) (ihr hr)
  | bool b => exact .bool b
  | eq _ _ ihl ihr =>
    rw [toNumber] at hn
    obtain ⟨⟨_, hl⟩, ⟨_, hr⟩⟩ := operands_of_ok hn
    exact .eq (ihl hl) (ihr hr)
  | compare o _ _ ihl ihr =>
    cases o with
    | le | gt =>
      rw [toNumber] at hn
      obtain ⟨⟨_, hl⟩, ⟨_, hr⟩⟩ := operands_of_ok hn
      exact .compare _ (ihl hl) (ihr hr)
    | ge | lt =>
      rw [toNumber] at hn
      obtain ⟨⟨_, hr⟩, ⟨_, hl⟩⟩ := operands_of_ok hn
      exact .compare _ (ihl hl) (ihr hr)
  | not _ ih =>
    rw [toNumber] at hn
    obtain ⟨k, hk, -⟩ := bind_eq_ok.mp hn
    exact .not (ih hk)
  | and _ _ ihl ihr =>
    rw [toNumber] at hn
    obtain ⟨_, _, hn⟩ := bind_eq_ok.mp hn
    obtain ⟨⟨_, hl⟩, ⟨_, hr⟩⟩ := operands_of_ok hn
    exact .and (ihl hl) (ihr hr)
  | or _ _ ihl ihr =>
    rw [toNumber] at hn
    obtain ⟨_, _, hn⟩ := bind_eq_ok.mp hn
    obtain ⟨⟨_, hl⟩, ⟨_, hr⟩⟩ := operands_of_ok hn
    exact .or (ihl hl) (ihr hr)
  | skip => exact .skip
  | trace p => exact .trace p
  | print x => exact .print x
  | help => exact .help
  | assign _ _ ih =>
    rw [toNumber] at hn
    obtain ⟨⟨_, hx⟩, ⟨_, he⟩⟩ := operands_of_ok hn
    exact .assign (decide_eq_true (name_of_variableIndex hx)) (ih he)
  | loop _ _ ihc iha =>
    rw [toNumber] at hn
    obtain ⟨⟨_, hc⟩, ⟨_, ha⟩⟩ := operands_of_ok hn
    exact .loop (ihc hc) (iha ha)
  | ifThen _ _ ihc iha =>
    rw [toNumber] at hn
    obtain ⟨⟨_, hc⟩, ⟨_, ha⟩⟩ := branches_of_ok hn
    exact .ifThen (ihc hc) (iha ha)
  | ifElse _ _ _ ihc iha ihb =>
    rw [toNumber] at hn
    obtain ⟨_, hb, hn⟩ := bind_eq_ok.mp hn
    obtain ⟨⟨_, hc⟩, ⟨_, ha⟩⟩ := branches_of_ok hn
    exact .ifElse (ihc hc) (iha ha) (ihb hb)
  | suite _ ih =>
    rw [toNumber] at hn
    refine .suite fun a ha => ?_
    obtain ⟨k, hk⟩ := items_of_itemsToNumber hn a ha
    exact ih a ha hk

/-- The number of well-sorted code is read back as its normal form, as far as the depth allows. -/
theorem ofNumber_of_toNumber {cat : Category} {t : Code} {n : Nat}
    (ht : t.WellSorted .numbered cat) (hn : t.toNumber = .ok n) :
    ofNumber cat n = shallow 1024 t.normalize := by
  rcases gives_toNumber ht with hok | ⟨hlarge, -⟩
  · rw [hok] at hn
    cases hn
    rw [ofNumber_eq_decodeWithin, decodeWithin_godel (canonical_normalize ht)]
  · rw [hlarge] at hn
    cases hn

/-- Reading the number of well-sorted code back gives its normal form if that nests at most 1024
levels, and the complaint that it nests too deep otherwise. Well-sorted code can only be too large
to have a number, and only if the number would not fit into `maxExponent` bits. -/
theorem ofNumber_toNumber {cat : Category} {t : Code} (ht : t.WellSorted .numbered cat) :
    t.toNumber = .error .tooLarge ∧ 2 ^ maxExponent ≤ t.normalize.godel ∨
      ∃ n, t.toNumber = .ok n ∧
        ofNumber cat n =
          if t.normalize.depth ≤ 1024 then .ok t.normalize else .error .tooDeep := by
  rcases gives_toNumber ht with hok | hlarge
  · exact .inr ⟨t.normalize.godel, hok, ofNumber_of_toNumber ht hok⟩
  · exact .inl hlarge

/-- A branching that gets a `≤` for its `<`, loses an output and keeps its alternative. -/
theorem ofNumber_toNumber_branching :
    ∃ n,
      (Code.ifElse (.binary (.compare .lt) (.var "x") (.int 0)) (.directive (.print "q"))
        (.suite [.assign "y" (.int 1), .directive .help])).toNumber = .ok n ∧
      ofNumber .statement n =
        .ok (.ifElse (.not (.binary (.compare .le) (.int 0) (.var "x"))) .skip
          (.suite [.assign "y" (.int 1), .skip])) := by
  have hyes : WellSorted .numbered .statement (.directive (.print "q")) := .print "q"
  have hno : WellSorted .numbered .statement
      (.suite [.assign "y" (.int 1), .directive .help]) :=
    .suite (by simpa using ⟨.assign (by decide) (.int (by decide)), .help⟩)
  have hc : WellSorted .numbered .boolean (.binary (.compare .lt) (.var "x") (.int 0)) :=
    .compare .lt (.var (by decide)) (.int (by decide))
  rcases ofNumber_toNumber (.ifElse hc hyes hno) with ⟨hlarge, -⟩ | ⟨n, hn, hdecoded⟩
  · exact absurd hlarge (by decide)
  · exact ⟨n, hn, hdecoded⟩

theorem Canonical.wellSorted {cat : Category} {c : Code} (h : c.Canonical cat) :
    c.WellSorted .numbered cat := by
  induction h with
  | int n => exact .int (decide_eq_true (Int.natCast_nonneg n))
  | var hx => exact .var (decide_eq_true hx)
  | arith ho _ _ ihl ihr => exact .arith ho ihl ihr
  | bool b => exact .bool b
  | eq _ _ ihl ihr => exact .eq ihl ihr
  | le _ _ ihl ihr => exact .compare .le ihl ihr
  | not _ ih => exact .not ih
  | and _ _ ihl ihr => exact .and ihl ihr
  | skip => exact .skip
  | assign hx _ ih => exact .assign (decide_eq_true hx) ih
  | loop _ _ ihc iha => exact .loop ihc iha
  | suite _ _ iha ihb => exact .suite (by simpa using ⟨iha, ihb⟩)
  | ifThen _ _ ihc iha => exact .ifThen ihc iha
  | ifElse _ _ _ _ ihc iha ihb => exact .ifElse ihc iha ihb

/-- Code read from a number has that number again, unless it is too large to have one; numbers below
two to the power of two to the power 24 are never too large. -/
theorem toNumber_ofNumber {cat : Category} {x : Nat} {c : Code} (h : ofNumber cat x = .ok c) :
    (c.toNumber = .ok x ∨ c.toNumber = .error .tooLarge) ∧
      (x < 2 ^ 2 ^ 24 → c.toNumber = .ok x) := by
  obtain ⟨hc, -, hx⟩ := ofNumber_eq_ok_iff.mp h
  have hgives := gives_toNumber hc.wellSorted
  rw [normalize_canonical hc, hx] at hgives
  rcases hgives with hok | ⟨hlarge, hle⟩
  · exact ⟨.inl hok, fun _ => hok⟩
  · have hmax : maxExponent = 2 ^ 24 := by decide
    rw [hmax] at hle
    exact ⟨.inr hlarge, fun hlt => absurd hlt (Nat.not_lt.mpr hle)⟩

/-- The number of `if true then x := 0 else while true do skip`. -/
theorem toNumber_ofNumber_branching :
    ofNumber .statement 92 =
        .ok (.ifElse (.bool true) (.assign "x" (.int 0)) (.loop (.bool true) .skip)) ∧
      (Code.ifElse (.bool true) (.assign "x" (.int 0)) (.loop (.bool true) .skip)).toNumber =
        .ok 92 := by
  have hdecoded : ofNumber .statement 92 =
      .ok (.ifElse (.bool true) (.assign "x" (.int 0)) (.loop (.bool true) .skip)) := by decide
  have hsmall : 92 < 2 ^ 2 ^ 24 :=
    lt_of_lt_of_le (by decide : 92 < 2 ^ 7) (Nat.pow_le_pow_right Nat.two_pos (by decide))
  exact ⟨hdecoded, (toNumber_ofNumber hdecoded).2 hsmall⟩

end Code

end GodelWhile
