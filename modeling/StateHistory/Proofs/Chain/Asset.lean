import Mathlib.Algebra.Field.Rat
import Mathlib.Tactic.FieldSimp
import Mathlib.Tactic.Ring
import StateHistory.Proofs.Binary.Numbers
import StateHistory.Proofs.Text.Decimal

/-! # Assets in decimal notation

The text of an asset is an amount in decimal notation (`Asset.Amount`), a blank and the code of its symbol. The
digits of the amount are filled up with zeros until one of them stands before the places, and set off from the
places by a point, which divides them by the power of ten that the symbol names (`Asset.value_amountOf`). Nothing is
rounded, and there is an amount and a symbol to every sixteen bytes (`Asset.decoder_exact`). -/

namespace StateHistory

open Schema (Builtin)

namespace Asset

/-- An amount in decimal notation: its sign and the digits before and after the point. There is a digit before the
point, and no zero in front of other digits there. -/
structure Amount where
  negative : Bool
  whole : List Char
  fraction : List Char
  isDigit_whole : ∀ c ∈ whole, c.isDigit
  isDigit_fraction : ∀ c ∈ fraction, c.isDigit
  whole_ne_nil : whole ≠ []
  whole_minimal : whole.head? = some '0' → whole = ['0']

namespace Amount

/-- The text of an amount. The point is only written before digits. -/
def chars (a : Amount) : List Char :=
  (if a.negative then ['-'] else []) ++ a.whole ++ (if a.fraction = [] then [] else '.' :: a.fraction)

/-- The number that the text denotes. -/
def value (a : Amount) : ℚ :=
  (if a.negative then -1 else 1) *
    (Nat.ofDigitChars 10 a.whole 0 + Nat.ofDigitChars 10 a.fraction 0 / 10 ^ a.fraction.length)

theorem value_mul_pow (a : Amount) : a.value * 10 ^ a.fraction.length =
    (if a.negative then -1 else 1) * (Nat.ofDigitChars 10 (a.whole ++ a.fraction) 0 : ℚ) := by
  have hpow : (10 : ℚ) ^ a.fraction.length ≠ 0 := pow_ne_zero _ (by norm_num)
  have hshift := @Nat.ofDigitChars_eq_ofDigitChars_zero a.fraction (Nat.ofDigitChars 10 a.whole 0)
  rw [value, Nat.ofDigitChars_append, hshift]
  push_cast
  field_simp

end Amount

variable {places amount : Nat}

theorem eq_zero_of_head?_toDigits {n : Nat} (h : (Nat.toDigits 10 n).head? = some '0') : n = 0 := by
  induction n using Nat.strongRecOn with
  | ind n ih =>
      rw [Nat.toDigits_eq_if (by decide)] at h
      split at h
      · simpa using h
      · rw [List.head?_append_of_ne_nil _ Nat.toDigits_ne_nil] at h
        have hzero := ih (n / 10) (by omega) h
        omega

theorem isDigit_of_mem_digits {c : Char} (h : c ∈ digits places amount) : c.isDigit :=
  Decimal.isDigit_of_mem_filled h

/-- Zeros in front do not change what the digits spell. -/
theorem ofDigitChars_digits : Nat.ofDigitChars 10 (digits places amount) 0 = amount :=
  Decimal.ofDigitChars_filled

theorem lt_length_digits : places < (digits places amount).length := by
  rw [digits, List.length_append, List.length_replicate]
  omega

/-- There are no more zeros in front than are needed for a digit before the places. -/
theorem length_digits_of_head? (h : (digits places amount).head? = some '0') :
    (digits places amount).length = places + 1 := by
  have hpos : 0 < (Nat.toDigits 10 amount).length := Nat.length_toDigits_pos
  rw [digits, List.length_append, List.length_replicate]
  rcases Nat.lt_or_ge places (Nat.toDigits 10 amount).length with hlong | hshort
  · have hnone : places + 1 - (Nat.toDigits 10 amount).length = 0 := by omega
    rw [digits, hnone, List.replicate_zero, List.nil_append] at h
    obtain rfl := eq_zero_of_head?_toDigits h
    simp at hlong ⊢
  · omega

/-- An amount with its places set off. -/
def amountOf (places : Nat) (amount : Int) : Amount where
  negative := amount < 0
  whole := (digits places amount.natAbs).take ((digits places amount.natAbs).length - places)
  fraction := (digits places amount.natAbs).drop ((digits places amount.natAbs).length - places)
  isDigit_whole := fun _ h => isDigit_of_mem_digits (List.mem_of_mem_take h)
  isDigit_fraction := fun _ h => isDigit_of_mem_digits (List.mem_of_mem_drop h)
  whole_ne_nil := by
    have hlong := @lt_length_digits places amount.natAbs
    rw [← List.length_pos_iff, List.length_take]
    omega
  whole_minimal := by
    intro h
    have hlong := @lt_length_digits places amount.natAbs
    rw [List.head?_take, if_neg (by omega)] at h
    have hone : (digits places amount.natAbs).length - places = 1 := by
      rw [length_digits_of_head? h]
      omega
    obtain ⟨rest, hrest⟩ := List.head?_eq_some_iff.mp h
    rw [hone, hrest]
    rfl

theorem length_fraction (places : Nat) (amount : Int) : (amountOf places amount).fraction.length = places := by
  have hlong := @lt_length_digits places amount.natAbs
  rw [amountOf, List.length_drop]
  omega

theorem amountChars_eq (places : Nat) (amount : Int) :
    amountChars places amount = (amountOf places amount).chars := by
  have hpoint : (amountOf places amount).fraction = [] ↔ places = 0 := by
    rw [← List.length_eq_zero_iff, length_fraction]
  rw [amountChars, Amount.chars]
  simp only [hpoint]
  simp [amountOf]

theorem value_amountOf (places : Nat) (amount : Int) :
    (amountOf places amount).value * 10 ^ places = amount := by
  have hdigits : Nat.ofDigitChars 10 ((amountOf places amount).whole ++ (amountOf places amount).fraction) 0 =
      amount.natAbs := by
    rw [amountOf, List.take_append_drop, ofDigitChars_digits]
  have hvalue := (amountOf places amount).value_mul_pow
  rw [length_fraction, hdigits] at hvalue
  rw [hvalue, amountOf, Nat.cast_natAbs]
  by_cases hneg : amount < 0
  · simp [hneg, abs_of_neg hneg]
  · simp [hneg, abs_of_nonneg (not_lt.mp hneg)]

/-! ### Reading -/

theorem run_decoder (amount : Int64) (symbol : UInt64) (s : Bytes) :
    decoder.run (Encoder.signed 8 amount.toInt ++ Encoder.uint64 symbol ++ s) =
      .ok (render amount.toInt symbol) s := by
  have hlow := amount.le_toInt
  have hhigh := amount.toInt_lt
  have hpow : Nat.pow 256 8 = 0x10000000000000000 := rfl
  rw [decoder, EStateM.run_bind, List.append_assoc, Decoder.run_signed (by omega) (by omega)]
  dsimp only
  rw [EStateM.run_bind, Decoder.run_uint64]
  rfl

/-- Sixteen bytes are those of an amount and a symbol. -/
theorem exists_amount_symbol (w : Bytes.Block 16) : ∃ (amount : Int64) (symbol : UInt64),
    w.bytes = Encoder.signed 8 amount.toInt ++ Encoder.uint64 symbol := by
  obtain ⟨w, hw⟩ := w
  have hfirst : (w.take 8).length = 8 := by rw [List.length_take, hw]; rfl
  have hsecond : (w.drop 8).length = 8 := by rw [List.length_drop, hw]
  have hword := Bytes.ofLittleEndian_lt (w.take 8)
  have hword' := Bytes.ofLittleEndian_lt (w.drop 8)
  have hamount := Encoder.signed_twosComplement (w.take 8)
  have hsymbol := Bytes.littleEndian_ofLittleEndian (w.drop 8)
  rw [hfirst] at hword hamount
  rw [hsecond] at hword' hsymbol
  obtain ⟨hlow, hhigh⟩ := Bytes.twosComplement_bounds hword
  have hpow : Nat.pow 256 8 = 0x10000000000000000 := rfl
  refine ⟨Int64.ofInt (Bytes.twosComplement 8 (Bytes.ofLittleEndian (w.take 8))),
    UInt64.ofNat (Bytes.ofLittleEndian (w.drop 8)), ?_⟩
  rw [Int64.toInt_ofInt_of_le (by omega) (by omega), hamount, Encoder.uint64, UInt64.toNat_ofNat_of_lt' hword',
    hsymbol, List.take_append_drop]

/-- An asset is read off any sixteen bytes. Its text is the exact amount in decimal notation with as many places as
the first byte of its symbol says, a blank, and the bytes of the symbol behind that up to the first zero. -/
theorem decoder_exact :
    (∀ w : Bytes.Block 16, ∃ (amount : Int64) (symbol : UInt64),
        w.bytes = Encoder.signed 8 amount.toInt ++ Encoder.uint64 symbol) ∧
      ∀ (amount : Int64) (symbol : UInt64) (s : Bytes), ∃ (a : Amount) (code : List Char) (text : String),
        text = String.ofList (a.chars ++ ' ' :: code) ∧
        code = ((Encoder.uint64 symbol).tail.takeWhile (· != 0)).map (fun b => Char.ofNat b.toNat) ∧
        (a.negative = true ↔ amount.toInt < 0) ∧ a.fraction.length = symbol.toNat % 256 ∧
        a.value * 10 ^ (symbol.toNat % 256) = amount.toInt ∧
        decoder.outcome (Encoder.signed 8 amount.toInt ++ Encoder.uint64 symbol ++ s) = (.ok text, s) ∧
        Builtin.asset.decoder.outcome (Encoder.signed 8 amount.toInt ++ Encoder.uint64 symbol ++ s) =
          (.ok (.string text), s) ∧
        ∀ contract : UInt64, Builtin.extendedAsset.decoder.outcome
            (Encoder.signed 8 amount.toInt ++ Encoder.uint64 symbol ++ (Encoder.uint64 contract ++ s)) =
          (.ok (Json.ofMembers [("quantity", .string text), ("contract", .string (Name.render contract))]), s) := by
  refine ⟨exists_amount_symbol, fun amount symbol s => ?_⟩
  have hrun := run_decoder amount symbol
  refine ⟨amountOf (Symbol.places symbol) amount.toInt, Symbol.chars symbol, render amount.toInt symbol, ?_, rfl,
    decide_eq_true_iff, length_fraction _ _, value_amountOf _ _, Decoder.outcome_eq_ok_iff.mpr (hrun s), ?_, ?_⟩
  · rw [render, amountChars_eq]
  · rw [Decoder.outcome_eq_ok_iff, Builtin.decoder, Builtin.text, EStateM.run_bind, hrun]
    rfl
  · intro contract
    rw [Decoder.outcome_eq_ok_iff, Builtin.decoder, Builtin.extendedAssetDecoder, EStateM.run_bind, hrun]
    dsimp only
    rw [EStateM.run_bind, Decoder.run_uint64]
    rfl

end Asset

end StateHistory
