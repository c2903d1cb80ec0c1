import Mathlib.Algebra.Group.Nat.Defs

/-! # Decimal digits

Zeros in front of the digits of a number do not change what they spell. Of two numbers in equally many digits, the
smaller one comes first in the order of texts (`Decimal.lt_of_ofDigitChars_lt`). -/

namespace StateHistory.Decimal

variable {a b s t : List Char} {zeros n : Nat}

/-- The digits of a number, with zeros in front. -/
def filled (zeros n : Nat) : List Char := List.replicate zeros '0' ++ Nat.toDigits 10 n

theorem isDigit_of_mem_filled {c : Char} (h : c ∈ filled zeros n) : c.isDigit := by
  rcases List.mem_append.mp h with hzero | hdigit
  · rw [List.eq_of_mem_replicate hzero]
    rfl
  · exact Nat.isDigit_of_mem_toDigits (by decide) (by decide) hdigit

theorem ofDigitChars_filled : Nat.ofDigitChars 10 (filled zeros n) 0 = n := by
  simp [filled, Nat.ofDigitChars_append]

theorem digit_bounds {c : Char} (h : c.isDigit) : 48 ≤ c.toNat ∧ c.toNat ≤ 57 := by
  rw [Char.isDigit, Bool.and_eq_true, decide_eq_true_iff, decide_eq_true_iff] at h
  exact ⟨UInt32.le_iff_toNat_le.mp h.1, UInt32.le_iff_toNat_le.mp h.2⟩

theorem exists_of_isDigit {c : Char} (h : c.isDigit) : ∃ k < 10, c = Char.ofNat (48 + k) := by
  obtain ⟨hlow, hhigh⟩ := digit_bounds h
  refine ⟨c.toNat - 48, by omega, ?_⟩
  rw [Nat.add_sub_cancel' hlow, Char.ofNat_toNat]

theorem ofDigitChars_cons_zero (c : Char) : Nat.ofDigitChars 10 (c :: a) 0 =
    10 ^ a.length * (c.toNat - 48) + Nat.ofDigitChars 10 a 0 := by
  rw [Nat.ofDigitChars_cons, Nat.ofDigitChars_eq_ofDigitChars_zero, Nat.mul_zero, Nat.zero_add]
  rfl

theorem ofDigitChars_lt_pow (h : ∀ c ∈ a, c.isDigit) : Nat.ofDigitChars 10 a 0 < 10 ^ a.length := by
  induction a with
  | nil => exact Nat.one_pos
  | cons c a ih =>
      have hrest := ih fun d hd => h d (List.mem_cons_of_mem _ hd)
      have hdigit := digit_bounds (h c (List.mem_cons_self ..))
      rw [ofDigitChars_cons_zero, List.length_cons, Nat.pow_succ]
      calc _ < 10 ^ a.length * (c.toNat - 48) + 10 ^ a.length := Nat.add_lt_add_left hrest _
        _ = 10 ^ a.length * (c.toNat - 48 + 1) := (Nat.mul_succ _ _).symm
        _ ≤ 10 ^ a.length * 10 := Nat.mul_le_mul_left _ (by omega)

/-- Of two numbers in equally many digits, the smaller one comes first. -/
theorem lt_of_ofDigitChars_lt (hlength : a.length = b.length) (ha : ∀ c ∈ a, c.isDigit) (hb : ∀ c ∈ b, c.isDigit)
    (h : Nat.ofDigitChars 10 a 0 < Nat.ofDigitChars 10 b 0) : a < b := by
  induction a generalizing b with
  | nil =>
      cases List.length_eq_zero_iff.mp hlength.symm
      exact absurd h (Nat.lt_irrefl _)
  | cons c a ih =>
      cases b with
      | nil => cases hlength
      | cons d b =>
          obtain ⟨hc, ha⟩ := List.forall_mem_cons.mp ha
          obtain ⟨hd, hb⟩ := List.forall_mem_cons.mp hb
          have hlength := Nat.succ.inj hlength
          have hbelow := ofDigitChars_lt_pow hb
          have hc := digit_bounds hc
          have hd := digit_bounds hd
          rw [ofDigitChars_cons_zero, ofDigitChars_cons_zero, hlength] at h
          rw [List.cons_lt_cons_iff]
          rcases Nat.lt_trichotomy c.toNat d.toNat with hlt | heq | hgt
          · exact .inl hlt
          · rw [heq] at h
            exact .inr ⟨Char.toNat_inj.mp heq, ih hlength ha hb (Nat.lt_of_add_lt_add_left h)⟩
          · have hmul : 10 ^ b.length * (d.toNat - 48 + 1) ≤ 10 ^ b.length * (c.toNat - 48) :=
              Nat.mul_le_mul_left _ (by omega)
            rw [Nat.mul_succ] at hmul
            omega

theorem append_lt_append (hlength : a.length = b.length) (h : a < b) : a ++ s < b ++ t := by
  induction a generalizing b with
  | nil =>
      cases List.length_eq_zero_iff.mp hlength.symm
      exact absurd h (List.lt_irrefl _)
  | cons c a ih =>
      cases b with
      | nil => cases hlength
      | cons d b =>
          rw [List.cons_append, List.cons_append, List.cons_lt_cons_iff]
          exact (List.cons_lt_cons_iff.mp h).imp_right fun ⟨hc, h⟩ => ⟨hc, ih (Nat.succ.inj hlength) h⟩

end StateHistory.Decimal
