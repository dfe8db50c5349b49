import Mathlib
import GodelWhile.Proofs.Canonical

/-! # The size of decoded code

A number of `b` bits stands for code of at most `2 * b + 1` nodes, so decoding cannot blow up. The
bits of a pair pay for both components: the second one has its bits in the number, and the first
one, as an exponent, takes up at least as many bits as it has itself. One bit is left over for each
pair (`size_add_size_lt`), and that pays for the node.

Every level of nesting divides the number by four at least. So a number below `4 ^ d` nests at most
`d` levels, and decoding it can fail in one way only, on a variable that there is not. -/

namespace GodelWhile

open GodelWhile.Numbering

namespace Numbering

/-! ### The bits of a pair -/

theorem size_pair_succ (n m : Nat) : (pair n m + 1).size = n + m.size + 1 := by
  have hodd : (2 * m + 1).size = m.size + 1 := by
    have hbit : 2 * m + 1 = Nat.bit true m := by simp [Nat.bit_val]
    rw [hbit, Nat.size_bit (by simp [Nat.bit_val])]
  have hshift : pair n m + 1 = (2 * m + 1) <<< n := by
    rw [pair_succ, Nat.shiftLeft_eq, Nat.mul_comm]
  rw [hshift, Nat.size_shiftLeft (by omega), hodd]
  omega

/-- The successor of a pair has more bits than both components together. -/
theorem size_add_size_lt (n m : Nat) : n.size + m.size < (pair n m + 1).size := by
  have hn : n.size ≤ n := Nat.size_le.mpr Nat.lt_two_pow_self
  rw [size_pair_succ]
  omega

/-- A pair has at least as many bits as both components together. -/
theorem size_add_size_le (n m : Nat) : n.size + m.size ≤ (pair n m).size := by
  have hsucc : (pair n m + 1).size ≤ (pair n m).size + 1 := by
    have hself := Nat.lt_size_self (pair n m)
    rw [Nat.size_le, Nat.pow_succ]
    omega
  have hlt := size_add_size_lt n m
  omega

/-- A tag above the modulus shifts the successor of the payload. -/
theorem size_tagged_four (n : Nat) : (tagged 4 4 n).size = (n + 1).size + 2 := by
  have hshift : tagged 4 4 n = (n + 1) <<< 2 := by
    rw [tagged, Nat.shiftLeft_eq]
    omega
  rw [hshift, Nat.size_shiftLeft (by omega)]

/-! ### What the bits pay for -/

/-- A tagged pair pays for one node more than its components do. -/
theorem pair_pays {modulus tag n m i j : Nat} (hmodulus : 0 < modulus) (htag : 0 < tag)
    (hi : i ≤ 2 * n.size + 1) (hj : j ≤ 2 * m.size + 1) :
    i + j + 1 ≤ 2 * (tagged modulus tag (pair n m)).size + 1 := by
  have hpair : pair n m + 1 ≤ tagged modulus tag (pair n m) :=
    Nat.add_le_add (Nat.le_mul_of_pos_right _ hmodulus) htag
  have hmono := Nat.size_le_size hpair
  have hlt := size_add_size_lt n m
  omega

/-- A negation pays for one node more than what it negates. -/
theorem negation_pays {n i : Nat} (hi : i ≤ 2 * n.size + 1) :
    i + 1 ≤ 2 * (tagged 4 4 n).size + 1 := by
  have hmono : n.size ≤ (n + 1).size := Nat.size_le_size (Nat.le_succ n)
  rw [size_tagged_four]
  omega

/-- A branching, whose payload is split twice, pays for one node more than its parts do. -/
theorem branching_pays {c a b i j k : Nat} (hi : i ≤ 2 * c.size + 1) (hj : j ≤ 2 * a.size + 1)
    (hk : k ≤ 2 * b.size + 1) :
    i + j + k + 1 ≤ 2 * (tagged 4 4 (pair c (pair a b))).size + 1 := by
  have hcondition := size_add_size_lt c (pair a b)
  have hbranches := size_add_size_le a b
  rw [size_tagged_four]
  omega

end Numbering

namespace Code

theorem arithmeticTag_pos {o : Arithmetic} (ho : o ≠ .div) : 0 < arithmeticTag o := by
  cases o with
  | div => exact absurd rfl ho
  | _ => simp [arithmeticTag]

/-- Canonical code has at most twice as many nodes as its number has bits, and one more. -/
theorem Canonical.nodes_length_le {cat : Category} {c : Code} (hc : c.Canonical cat) :
    c.nodes.length ≤ 2 * c.godel.size + 1 := by
  induction hc with
  | int | var | bool | skip => simp [nodes]
  | arith ho _ _ ihl ihr =>
    simpa [nodes, godel] using pair_pays (by decide : 0 < 5) (arithmeticTag_pos ho) ihl ihr
  | eq _ _ ihl ihr | le _ _ ihl ihr | and _ _ ihl ihr | loop _ _ ihl ihr =>
    simpa [nodes, godel] using pair_pays (by decide : 0 < 4) (by decide) ihl ihr
  | suite _ _ ihl ihr =>
    simpa [nodes, itemNodes, godel] using pair_pays (by decide : 0 < 4) (by decide) ihl ihr
  | not _ ih => simpa [nodes, godel] using negation_pays ih
  | @assign x e _ _ ih =>
    have hname : 0 ≤ 2 * (numberedNames.idxOf x).size + 1 := Nat.zero_le _
    simpa [nodes, godel] using pair_pays (by decide : 0 < 4) (by decide : 0 < 2) hname ih
  | ifThen _ _ ihc iha =>
    have hnone : 0 ≤ 2 * Nat.size 0 + 1 := Nat.zero_le _
    simpa [nodes, godel] using branching_pays ihc iha hnone
  | ifElse _ _ _ _ ihc iha ihb =>
    simpa [nodes, godel, Nat.add_assoc] using branching_pays ihc iha ihb

end Code

namespace Numbering

/-! ### Numbers that do not nest too deep -/

/-- Decoding that gives a result unless it comes across a variable that there is not. -/
def OnlyLacksVariables {α : Type} (r : Except NumberingError α) : Prop :=
  ∀ e, r = .error e → ∃ i, e = .unknownVariableIndex i

namespace OnlyLacksVariables

variable {α β : Type}

theorem ok (a : α) : OnlyLacksVariables (.ok a) := by simp [OnlyLacksVariables]

theorem bind {r : Except NumberingError α} {f : α → Except NumberingError β}
    (hr : OnlyLacksVariables r) (hf : ∀ a, OnlyLacksVariables (f a)) :
    OnlyLacksVariables (r >>= f) := by
  cases r with
  | ok a => exact hf a
  | error e =>
    rintro _ ⟨⟩
    exact hr e rfl

theorem return₂ {γ : Type} {r : Except NumberingError α} {r' : Except NumberingError β}
    {f : α → β → γ} (hr : OnlyLacksVariables r) (hr' : OnlyLacksVariables r') :
    OnlyLacksVariables (do return f (← r) (← r')) :=
  hr.bind fun _ => hr'.bind fun _ => .ok _

theorem variableAt (i : Nat) : OnlyLacksVariables (variableAt i) := by
  rw [Numbering.variableAt]
  split
  · exact .ok _
  · rintro _ ⟨⟩
    exact ⟨i, rfl⟩

end OnlyLacksVariables

/-- The components of a tagged pair lie below a quarter of any bound on it. -/
theorem lt_of_tagged_pair_lt {modulus tag n m b : Nat} (hmodulus : 4 ≤ modulus)
    (h : tagged modulus tag (pair n m) < 4 * b) : n < b ∧ m < b := by
  have hn := fst_le_pair n m
  have hm := two_mul_snd_le_pair n m
  have hpair : pair n m * 4 ≤ pair n m * modulus := Nat.mul_le_mul_left _ hmodulus
  rw [tagged] at h
  omega

theorem arithmetic_onlyLacksVariables {d x : Nat} (hx : x < 4 ^ d) :
    OnlyLacksVariables (arithmetic d x) := by
  induction d generalizing x with
  | zero =>
    obtain rfl : x = 0 := by simpa using hx
    exact .ok _
  | succ d ih =>
    rw [Nat.pow_succ, Nat.mul_comm] at hx
    rcases arithmetic_view x with ⟨n, rfl⟩ | ⟨i, rfl⟩ | ⟨o, l, r, ho, rfl⟩
    · rw [arithmetic_int]
      exact .ok _
    · rw [arithmetic_var]
      exact (OnlyLacksVariables.variableAt i).bind fun _ => .ok _
    · obtain ⟨hl, hr⟩ := lt_of_tagged_pair_lt (by decide) hx
      rw [arithmetic_node ho]
      exact (ih hl).return₂ (ih hr)

theorem relation_onlyLacksVariables {d tag l r : Nat} (htag : tag = 2 ∨ tag = 3)
    (hx : tagged 4 tag (pair l r) < 4 * 4 ^ d) :
    OnlyLacksVariables (boolean (d + 1) (tagged 4 tag (pair l r))) := by
  obtain ⟨hl, hr⟩ := lt_of_tagged_pair_lt (by decide) hx
  rw [boolean_relation htag]
  exact (arithmetic_onlyLacksVariables hl).return₂ (arithmetic_onlyLacksVariables hr)

theorem boolean_onlyLacksVariables {d x : Nat} (hx : x < 4 ^ d) :
    OnlyLacksVariables (boolean d x) := by
  induction d generalizing x with
  | zero =>
    obtain rfl : x = 0 := by simpa using hx
    exact .ok _
  | succ d ih =>
    rcases x with _ | _ | x
    · exact .ok _
    · exact .ok _
    rw [Nat.pow_succ, Nat.mul_comm] at hx
    rcases boolean_view (show 2 ≤ x + 1 + 1 by omega) with
      ⟨n, hn⟩ | ⟨l, r, hlr⟩ | ⟨l, r, hlr⟩ | ⟨l, r, hlr⟩
    · have hlt : n < 4 ^ d := by
        rw [hn, tagged] at hx
        omega
      rw [hn, boolean_not]
      exact (ih hlt).bind fun _ => .ok _
    · rw [hlr] at hx ⊢
      obtain ⟨hl, hr⟩ := lt_of_tagged_pair_lt (by decide) hx
      rw [boolean_and]
      exact (ih hl).return₂ (ih hr)
    · rw [hlr] at hx ⊢
      exact relation_onlyLacksVariables (.inl rfl) hx
    · rw [hlr] at hx ⊢
      exact relation_onlyLacksVariables (.inr rfl) hx

theorem statement_onlyLacksVariables {d x : Nat} (hx : x < 4 ^ d) :
    OnlyLacksVariables (statement d x) := by
  induction d generalizing x with
  | zero =>
    obtain rfl : x = 0 := by simpa using hx
    exact .ok _
  | succ d ih =>
    rcases Nat.eq_zero_or_pos x with rfl | hpos
    · exact .ok _
    rw [Nat.pow_succ, Nat.mul_comm] at hx
    rcases statement_view hpos.ne' with ⟨c, a, rfl⟩ | ⟨i, e, rfl⟩ | ⟨a, b, rfl⟩ | ⟨c, a, b, rfl⟩
    · obtain ⟨hc, ha⟩ := lt_of_tagged_pair_lt (by decide) hx
      rw [statement_loop]
      exact (boolean_onlyLacksVariables hc).return₂ (ih ha)
    · obtain ⟨-, he⟩ := lt_of_tagged_pair_lt (by decide) hx
      rw [statement_assign]
      exact (OnlyLacksVariables.variableAt i).return₂ (arithmetic_onlyLacksVariables he)
    · obtain ⟨ha, hb⟩ := lt_of_tagged_pair_lt (by decide) hx
      rw [statement_suite]
      exact (ih ha).return₂ (ih hb)
    · obtain ⟨hc, hbranches⟩ := lt_of_tagged_pair_lt (by decide) hx
      have ha : a < 4 ^ d := (fst_le_pair a b).trans_lt hbranches
      have hb : b < 4 ^ d := by
        have hle := two_mul_snd_le_pair a b
        omega
      rw [statement_branch]
      split
      · exact (boolean_onlyLacksVariables hc).return₂ (ih ha)
      · exact (ih hb).bind fun _ => (boolean_onlyLacksVariables hc).return₂ (ih ha)

theorem decodeWithin_onlyLacksVariables (cat : Category) {d x : Nat} (hx : x < 4 ^ d) :
    OnlyLacksVariables (decodeWithin cat d x) := by
  cases cat with
  | arithmetic => exact arithmetic_onlyLacksVariables hx
  | boolean => exact boolean_onlyLacksVariables hx
  | statement => exact statement_onlyLacksVariables hx

end Numbering

namespace Code

/-- Whatever the category, the code of a number of `b` bits has at most `2 * b + 1` nodes, and a
number below `4 ^ 1024` never nests too deep: if it has no code, then because of a variable that
there is not. -/
theorem nodes_length_le_of_ofNumber (cat : Category) (n : Nat) :
    (∀ t, ofNumber cat n = .ok t → t.nodes.length ≤ 2 * n.size + 1) ∧
      (n < 4 ^ 1024 → ofNumber cat n ≠ .error .tooDeep ∧
        ∀ e, ofNumber cat n = .error e → ∃ i, e = .unknownVariableIndex i) := by
  refine ⟨?_, ?_⟩
  · intro t ht
    obtain ⟨hcanonical, -, rfl⟩ := ofNumber_eq_ok_iff.mp ht
    exact hcanonical.nodes_length_le
  · intro hn
    have hlacks := decodeWithin_onlyLacksVariables cat hn
    rw [← ofNumber_eq_decodeWithin] at hlacks
    refine ⟨?_, hlacks⟩
    intro hdeep
    obtain ⟨i, hi⟩ := hlacks _ hdeep
    cases hi

/-- One bit pays for three nodes, in the loop that does nothing for ever; sixteen is the smallest
number of arithmetic that names a variable beyond the third. -/
theorem nodes_length_le_of_ofNumber_one :
    let t := Code.loop (.bool true) .skip
    (ofNumber .statement 1 = .ok t ∧ t.nodes.length = 2 * Nat.size 1 + 1) ∧
      ofNumber .arithmetic 16 = .error (.unknownVariableIndex 3) ∧
        ofNumber .arithmetic 16 ≠ .error .tooDeep := by
  intro t
  have hone : ofNumber .statement 1 = .ok t := by decide
  have hnodes := (nodes_length_le_of_ofNumber .statement 1).1 t hone
  have hbelow : ∀ d, 16 ≤ d → 16 < 4 ^ d := fun d hd => hd.trans_lt (Nat.lt_pow_self (by decide))
  have hdeep := (nodes_length_le_of_ofNumber .arithmetic 16).2 (hbelow 1024 (by decide))
  exact ⟨⟨hone, hnodes.antisymm (by simp [t, nodes])⟩, by decide, hdeep.1⟩

end Code

end GodelWhile
