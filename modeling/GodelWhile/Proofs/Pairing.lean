import Mathlib
import GodelWhile.Numbering.Encoding

/-! # Pairs and tags undone

The successor of the number that stores `(n, m)` is `2 ^ n * (2 * m + 1)`. Its exponent of two is
found without dividing: `exponent_eq` says that the highest bit in which `x + 1` and `x` differ
stands at it, because adding one changes the trailing ones and the zero above them.

Storing a pair and reading it back are inverse to each other, because a positive number is a power
of two times an odd number in exactly one way. Nothing here has a limit on the exponent but
`pairing`, which stores a pair whenever the first component is within the limit. A pair is never
smaller than its components, and at least two to the power of the first one but for one: a number
that is too large to be given has at least `maxExponent` bits. -/

namespace GodelWhile.Numbering

/-! ### The exponent -/

/-- The successor of a stored pair is a power of two times an odd number. -/
theorem pair_succ (n m : Nat) : pair n m + 1 = 2 ^ n * (2 * m + 1) := by
  have hpos : 0 < 2 ^ n * (2 * m + 1) := Nat.mul_pos (Nat.two_pow_pos n) (by omega)
  rw [pair, Nat.shiftLeft_eq, Nat.mul_comm]
  omega

/-- An even and an odd number differ in their last bit, and above it as their halves do. -/
theorem xor_double_succ (a b : Nat) : (2 * a) ^^^ (2 * b + 1) = 2 * (a ^^^ b) + 1 := by
  apply Nat.eq_of_testBit_eq
  rintro (_ | i)
  · simp [Nat.testBit_zero]
  · have ha : 2 * a / 2 = a := by omega
    have hb : (2 * b + 1) / 2 = b := by omega
    have hab : (2 * (a ^^^ b) + 1) / 2 = a ^^^ b := by omega
    rw [Nat.testBit_xor, Nat.testBit_succ, Nat.testBit_succ, Nat.testBit_succ, ha, hb, hab,
      Nat.testBit_xor]

/-- Adding one changes the trailing ones and the zero above them, and no other bit. -/
theorem succ_xor_self {n m x : Nat} (h : x + 1 = 2 ^ n * (2 * m + 1)) :
    (x + 1) ^^^ x = 2 ^ (n + 1) - 1 := by
  induction n generalizing x with
  | zero =>
    have hx : x = 2 * m := by omega
    have hlast := xor_double_succ m m
    rw [Nat.xor_self] at hlast
    rw [hx, Nat.xor_comm]
    exact hlast
  | succ n ih =>
    have hx : x + 1 = 2 * (2 ^ n * (2 * m + 1)) := by rw [h, Nat.pow_succ]; ac_rfl
    obtain ⟨y, rfl⟩ : ∃ y, x = 2 * y + 1 := ⟨x / 2, by omega⟩
    have hy : y + 1 = 2 ^ n * (2 * m + 1) := by omega
    have hpos := Nat.two_pow_pos (n + 1)
    have hdouble : 2 * y + 1 + 1 = 2 * (y + 1) := by omega
    rw [hdouble, xor_double_succ, ih hy, Nat.pow_succ 2 (n + 1)]
    omega

/-- The exponent of two in `x + 1`. -/
theorem exponent_eq {n m x : Nat} (h : x + 1 = 2 ^ n * (2 * m + 1)) : exponent x = n := by
  have hpos := Nat.two_pow_pos n
  rw [exponent, succ_xor_self h, Nat.log2_eq_iff (by rw [Nat.pow_succ]; omega), Nat.pow_succ]
  omega

/-! ### Pairs -/

/-- A stored pair is read back. -/
@[simp] theorem unpair_pair (n m : Nat) : unpair (pair n m) = (n, m) := by
  have hsucc := pair_succ n m
  have hexp : exponent (pair n m) = n := exponent_eq hsucc
  rw [unpair, hexp, hsucc, Nat.shiftRight_eq_div_pow, Nat.pow_succ,
    Nat.mul_div_mul_left _ _ (Nat.two_pow_pos n)]
  exact Prod.ext rfl (by simp only; omega)

/-- Every number stores a pair. -/
theorem exists_eq_pair (x : Nat) : ∃ n m, x = pair n m := by
  obtain ⟨n, k, ⟨m, hk⟩, hx⟩ := Nat.exists_eq_two_pow_mul_odd (Nat.succ_ne_zero x)
  have hpair := pair_succ n m
  rw [← hk, ← hx] at hpair
  exact ⟨n, m, by omega⟩

/-- The odd factor is left when all factors two are shifted out. -/
theorem succ_pair_shiftRight (n m : Nat) : (pair n m + 1) >>> n = 2 * m + 1 := by
  rw [pair_succ, Nat.shiftRight_eq_div_pow, Nat.mul_div_cancel_left _ (Nat.two_pow_pos n)]

/-! ### Sizes -/

theorem two_pow_le_pair_succ (n m : Nat) : 2 ^ n ≤ pair n m + 1 := by
  rw [pair_succ]
  exact Nat.le_mul_of_pos_right _ (by omega)

theorem fst_le_pair (n m : Nat) : n ≤ pair n m := by
  have hpow := two_pow_le_pair_succ n m
  have hlt : n < 2 ^ n := Nat.lt_two_pow_self
  omega

theorem two_mul_snd_le_pair (n m : Nat) : 2 * m ≤ pair n m := by
  have hsucc := pair_succ n m
  have hle : 2 * m + 1 ≤ 2 ^ n * (2 * m + 1) := Nat.le_mul_of_pos_left _ (Nat.two_pow_pos n)
  omega

/-! ### The limit on the exponent -/

theorem pairing_eq_ok {n : Nat} (h : n ≤ maxExponent) (m : Nat) :
    pairing n m = .ok (pair n m) := by
  simp [pairing, pair?, atMost?, h]

theorem pairing_eq_tooLarge {n : Nat} (h : maxExponent < n) (m : Nat) :
    pairing n m = .error .tooLarge := by
  simp [pairing, pair?, atMost?, Nat.not_le.mpr h]

/-- Storing and reading are inverse to each other, up to the limit on the exponent. Nothing is lost
where one is subtracted: neither the odd number that is shifted to the left nor the odd factor that
is left by shifting to the right is zero. -/
theorem pairing_unpair :
    (∀ n m : Nat, (pairing n m = .error .tooLarge ↔ 2 ^ 24 < n) ∧
      (2 ^ 24 < n ∨ ∃ x, pairing n m = .ok x ∧ unpair x = (n, m)) ∧
      1 ≤ (2 * m + 1) <<< n ∧ pair n m = (2 * m + 1) <<< n - 1) ∧
    ∀ x : Nat, ∃ n m : Nat, unpair x = (n, m) ∧
      2 ^ n * (2 * m + 1) = x + 1 ∧ n ≤ x ∧ 2 * m ≤ x ∧
      pairing n m = (if 2 ^ 24 < n then .error .tooLarge else .ok x) ∧
      1 ≤ (x + 1) >>> n ∧ m = ((x + 1) >>> n - 1) >>> 1 := by
  refine ⟨fun n m => ?_, fun x => ?_⟩
  · have hpos : 1 ≤ (2 * m + 1) <<< n := by
      rw [Nat.shiftLeft_eq]
      exact Nat.mul_pos (by omega) (Nat.two_pow_pos n)
    rcases Nat.lt_or_ge maxExponent n with hlarge | hsmall
    · exact ⟨⟨fun _ => hlarge, fun _ => pairing_eq_tooLarge hlarge m⟩, .inl hlarge, hpos, rfl⟩
    · have hok := pairing_eq_ok hsmall m
      refine ⟨⟨fun herror => ?_, fun hlarge => absurd hlarge (Nat.not_lt.mpr hsmall)⟩,
        .inr ⟨pair n m, hok, unpair_pair n m⟩, hpos, rfl⟩
      rw [hok] at herror
      cases herror
  · obtain ⟨n, m, rfl⟩ := exists_eq_pair x
    have hodd := succ_pair_shiftRight n m
    refine ⟨n, m, unpair_pair n m, (pair_succ n m).symm, fst_le_pair n m, two_mul_snd_le_pair n m,
      ?_, by omega, ?_⟩
    · split_ifs with hlarge
      · exact pairing_eq_tooLarge hlarge m
      · exact pairing_eq_ok (Nat.not_lt.mp hlarge) m
    · rw [hodd, Nat.shiftRight_one]
      omega

/-! ### Tags -/

@[simp] theorem untag_tagged {modulus tag : Nat} (h : tag < modulus) (payload : Nat) :
    untag modulus (tagged modulus tag payload) = (payload, tag) := by
  have hpos : 0 < modulus := Nat.zero_lt_of_lt h
  rw [untag, tagged, Nat.mul_comm, Nat.mul_add_div hpos, Nat.div_eq_of_lt h, Nat.mul_add_mod,
    Nat.mod_eq_of_lt h, Nat.add_zero]

/-- A tag that is not below the modulus counts as a smaller tag beside the next payload. -/
theorem tagged_add_modulus (modulus tag payload : Nat) :
    tagged modulus (tag + modulus) payload = tagged modulus tag (payload + 1) := by
  simp only [tagged, Nat.add_mul, Nat.one_mul]
  omega

theorem payload_le_tagged {modulus : Nat} (h : 0 < modulus) (tag payload : Nat) :
    payload ≤ tagged modulus tag payload :=
  le_trans (Nat.le_mul_of_pos_right _ h) (Nat.le_add_right _ _)

end GodelWhile.Numbering
