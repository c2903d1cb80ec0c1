import StateHistory.Proofs.Text.Decimal
import StateHistory.Text.Digits

/-! # Decimal numbers in texts

The text of a number in base 10 is read as this number: without a sign (`Digits.toNat?_toDigits`), below a bound
(`Digits.natural?_toDigits`), and with a sign as far as the bound allows it (`Digits.integer?_toString`). -/

namespace StateHistory.Digits

variable {c : Char} {cs : List Char} {n bound : Nat}

theorem value?_of_isDigit (h : c.isDigit) : value? c = some (c.toNat - 48) := by
  obtain ⟨hlow, hhigh⟩ := Decimal.digit_bounds h
  have hrange : '0' ≤ c ∧ c ≤ '9' := ⟨UInt32.le_iff_toNat_le.mpr hlow, UInt32.le_iff_toNat_le.mpr hhigh⟩
  rw [value?, if_pos hrange]

theorem isDigit_of_isDigit (h : c.isDigit) : isDigit 10 c := by
  have hhigh := (Decimal.digit_bounds h).2
  rw [isDigit, value?_of_isDigit h, Option.any_some, decide_eq_true_eq]
  omega

theorem isDigit_ten_iff : isDigit 10 c ↔ c.isDigit := by
  refine ⟨fun h => ?_, isDigit_of_isDigit⟩
  rw [isDigit, value?] at h
  split at h
  · rename_i hrange
    rwa [Char.isDigit, Bool.and_eq_true, decide_eq_true_iff, decide_eq_true_iff]
  split at h
  · rename_i hrange
    have hlow : 97 ≤ c.toNat := UInt32.le_iff_toNat_le.mp hrange.1
    have hlt : c.toNat - 87 < 10 := of_decide_eq_true h
    omega
  split at h
  · rename_i hrange
    have hlow : 65 ≤ c.toNat := UInt32.le_iff_toNat_le.mp hrange.1
    have hlt : c.toNat - 55 < 10 := of_decide_eq_true h
    omega
  · cases h

theorem toNat_eq_ofDigitChars (h : ∀ c ∈ cs, c.isDigit) : toNat 10 cs = Nat.ofDigitChars 10 cs 0 := by
  have hfold : ∀ m, cs.foldl (fun n d => 10 * n + (value? d).getD 0) m = Nat.ofDigitChars 10 cs m := by
    induction cs with
    | nil => exact fun m => rfl
    | cons c cs ih =>
        obtain ⟨hc, hcs⟩ := List.forall_mem_cons.mp h
        intro m
        rw [List.foldl_cons, ih hcs, Nat.ofDigitChars_cons, value?_of_isDigit hc]
        rfl
  exact hfold 0

/-- The digits of a number spell it. -/
theorem toNat?_toDigits (n : Nat) : toNat? 10 (Nat.toDigits 10 n) = some n := by
  have hdigits : ∀ c ∈ Nat.toDigits 10 n, c.isDigit := fun c hc =>
    Nat.isDigit_of_mem_toDigits (by decide) (by decide) hc
  have hall : (Nat.toDigits 10 n).all (isDigit 10) = true :=
    List.all_eq_true.mpr fun c hc => isDigit_of_isDigit (hdigits c hc)
  have hne : (Nat.toDigits 10 n).isEmpty = false := List.isEmpty_eq_false_iff.mpr Nat.toDigits_ne_nil
  rw [toNat?, hne, hall, toNat_eq_ofDigitChars hdigits]
  simp

theorem head_toDigits (n : Nat) : ∃ c cs, Nat.toDigits 10 n = c :: cs ∧ c.isDigit := by
  obtain ⟨c, cs, hcs⟩ := List.exists_cons_of_ne_nil (Nat.toDigits_ne_nil (b := 10) (n := n))
  refine ⟨c, cs, hcs, Nat.isDigit_of_mem_toDigits (b := 10) (n := n) (by decide) (by decide) ?_⟩
  rw [hcs]
  exact List.mem_cons_self ..

theorem natural?_toDigits (n bound : Nat) :
    natural? bound (Nat.toDigits 10 n) = if n < bound then some n else none := by
  obtain ⟨c, cs, hcs, hc⟩ := head_toDigits n
  have hsign : c ≠ '+' := by
    rintro rfl
    cases hc
  have hread := toNat?_toDigits n
  rw [hcs] at hread ⊢
  unfold natural?
  split
  · rename_i heq
    exact absurd (List.cons.inj heq).1 hsign
  · rw [hread]
    rfl

theorem integer?_of_ne_sign (h : c ≠ '-') : integer? bound (c :: cs) = (natural? bound (c :: cs)).map Int.ofNat := by
  unfold integer?
  split
  · rename_i heq
    exact absurd (List.cons.inj heq).1 h
  · rfl

theorem toList_toString_negSucc (m : Nat) : (toString (Int.negSucc m)).toList = '-' :: Nat.toDigits 10 (m + 1) :=
  (String.toList_append ..).trans (congrArg (['-'] ++ ·) Nat.toList_repr)

/-- The text of an integer is read as this integer, within the bound. -/
theorem integer?_toString (n : Int) (bound : Nat) :
    integer? bound (toString n).toList = if -(bound : Int) ≤ n ∧ n < bound then some n else none := by
  cases n with
  | ofNat m =>
      have htext : (toString (Int.ofNat m)).toList = Nat.toDigits 10 m := Nat.toList_repr
      obtain ⟨c, cs, hcs, hc⟩ := head_toDigits m
      have hsign : c ≠ '-' := by
        rintro rfl
        cases hc
      rw [htext, hcs, integer?_of_ne_sign hsign, ← hcs, natural?_toDigits, Int.ofNat_eq_natCast]
      by_cases hm : m < bound
      · rw [if_pos hm, if_pos (by omega)]
        rfl
      · rw [if_neg hm, if_neg (by omega)]
        rfl
  | negSucc m =>
      rw [toList_toString_negSucc, integer?, toNat?_toDigits, Option.bind_eq_bind, Option.bind_some]
      by_cases hm : m + 1 ≤ bound
      · rw [if_pos hm, if_pos (by omega)]
        rfl
      · rw [if_neg hm, if_neg (by omega)]

end StateHistory.Digits
