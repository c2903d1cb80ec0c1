import Mathlib.Data.Nat.Digits.Defs
import StateHistory.Proofs.Binary.Numbers
import StateHistory.Proofs.Binary.Width

/-! # Base-128 numerals

A numeral is a byte string whose last byte, and no other one, is below 128 (`Bytes.Numeral`). Every input begins
with a numeral of at most five bytes, or with five marked bytes, or is over after fewer (`Bytes.front_cases`),
and a variable-length number is read off it accordingly: the numeral's value if that has room in 32 bits, an
overflow, or too few bytes. The writer's numeral is the shortest of its value, and unfolding numbers with sign
goes through all of them once (`Decoder.varuint32_numerals`). -/

namespace StateHistory

namespace Bytes

/-- Bytes with their high bit set: more digits follow. -/
def Marked (w : Bytes) : Prop := ∀ b ∈ w, ¬ b < 128

instance (w : Bytes) : Decidable (Marked w) := List.decidableBAll _ w

/-- Marked bytes and a last one that is not. No proper first part of a numeral is one. -/
def Numeral (w : Bytes) : Prop := ∃ digits last, w = digits ++ [last] ∧ Marked digits ∧ last < 128

/-- The sum of `b % 128 * 128 ^ i` over the bytes `b` of a byte string and their places `i`. -/
def base128Value (w : Bytes) : Nat := Nat.ofDigits 128 (w.map fun b => b.toNat % 128)

theorem base128Value_cons (b : UInt8) (w : Bytes) :
    base128Value (b :: w) = b.toNat % 128 + 128 * base128Value w := Nat.ofDigits_cons

theorem base128Value_lt (w : Bytes) : base128Value w < 128 ^ w.length := by
  have hdigits : ∀ x ∈ w.map (fun b => b.toNat % 128), x < 128 := by
    intro x hx
    obtain ⟨b, -, rfl⟩ := List.mem_map.mp hx
    exact Nat.mod_lt _ (by decide)
  rw [← List.length_map fun b : UInt8 => b.toNat % 128]
  exact Nat.ofDigits_lt_base_pow_length (by decide) hdigits

theorem Numeral.singleton {b : UInt8} (h : b < 128) : Numeral [b] := ⟨[], b, rfl, List.forall_mem_nil _, h⟩

theorem Numeral.cons {b : UInt8} {w : Bytes} (h : ¬ b < 128) (hw : Numeral w) : Numeral (b :: w) := by
  obtain ⟨digits, last, rfl, hdigits, hlast⟩ := hw
  exact ⟨b :: digits, last, rfl, List.forall_mem_cons.mpr ⟨h, hdigits⟩, hlast⟩

/-- Every input begins with a numeral within the limit, or with as many marked bytes, or is over before that. -/
theorem front_cases (limit : Nat) (input : Bytes) :
    (∃ w s, input = w ++ s ∧ Numeral w ∧ w.length ≤ limit) ∨
      (∃ w s, input = w ++ s ∧ Marked w ∧ w.length = limit) ∨ (Marked input ∧ input.length < limit) := by
  induction limit generalizing input with
  | zero => exact .inr (.inl ⟨[], input, rfl, List.forall_mem_nil _, rfl⟩)
  | succ limit ih =>
      cases input with
      | nil => exact .inr (.inr ⟨List.forall_mem_nil _, Nat.zero_lt_succ limit⟩)
      | cons b input =>
          by_cases hb : b < 128
          · exact .inl ⟨[b], input, rfl, .singleton hb, Nat.succ_le_succ (Nat.zero_le limit)⟩
          · rcases ih input with ⟨w, s, rfl, hw, hlength⟩ | ⟨w, s, rfl, hw, hlength⟩ | ⟨hw, hlength⟩
            · exact .inl ⟨b :: w, s, rfl, hw.cons hb, Nat.succ_le_succ hlength⟩
            · exact .inr (.inl ⟨b :: w, s, rfl, List.forall_mem_cons.mpr ⟨hb, hw⟩, congrArg (· + 1) hlength⟩)
            · exact .inr (.inr ⟨List.forall_mem_cons.mpr ⟨hb, hw⟩, Nat.succ_lt_succ hlength⟩)

end Bytes

namespace Decoder

open Bytes (Marked Numeral base128Value base128Value_cons base128Value_lt)

variable {limit : Nat} {w : Bytes}

/-! ### The digits -/

theorem run_base128_marked {b : UInt8} (h : ¬ b < 128) (input : Bytes) :
    (base128 (limit + 1)).run (b :: input) =
      (do return b.toNat % 128 + 128 * (← base128 limit) : Decoder Nat).run input := by
  have hb := b.toNat_lt
  have hmarked : ¬ b.toNat < 128 := UInt8.lt_iff_toNat_lt.not.mp h
  have hdigit : b.toNat % 128 = b.toNat - 128 := by omega
  rw [run_base128_cons, if_neg h, hdigit]

theorem run_base128_numeral (hw : Numeral w) (hlength : w.length ≤ limit) (s : Bytes) :
    (base128 limit).run (w ++ s) = .ok (base128Value w) s := by
  obtain ⟨digits, last, rfl, hdigits, hlast⟩ := hw
  induction digits generalizing limit with
  | nil =>
      obtain ⟨limit, rfl⟩ := Nat.exists_eq_add_one.mpr hlength
      have hdigit : last.toNat % 128 = last.toNat := Nat.mod_eq_of_lt (UInt8.lt_iff_toNat_lt.mp hlast)
      rw [List.nil_append, List.singleton_append, run_base128_cons, if_pos hlast, base128Value_cons, hdigit]
      rfl
  | cons b digits ih =>
      obtain ⟨limit, rfl⟩ := Nat.exists_eq_add_one.mpr (Nat.zero_lt_of_lt hlength)
      obtain ⟨hb, hdigits⟩ := List.forall_mem_cons.mp hdigits
      rw [List.cons_append, List.cons_append, run_base128_marked hb, EStateM.run_bind,
        ih (Nat.le_of_succ_le_succ hlength) hdigits, base128Value_cons]
      rfl

theorem run_base128_overflow (hw : Marked w) (hlength : w.length = limit) (s : Bytes) :
    (base128 limit).run (w ++ s) = .error .varintOverflow s := by
  subst hlength
  induction w with
  | nil => rfl
  | cons b w ih =>
      obtain ⟨hb, hw⟩ := List.forall_mem_cons.mp hw
      rw [List.cons_append, List.length_cons, run_base128_marked hb, EStateM.run_bind, ih hw]

theorem run_base128_unfinished (hw : Marked w) (hlength : w.length < limit) :
    (base128 limit).run w = .error (.truncated 1 0) [] := by
  induction w generalizing limit with
  | nil =>
      obtain ⟨limit, rfl⟩ := Nat.exists_eq_add_one.mpr hlength
      rfl
  | cons b w ih =>
      obtain ⟨limit, rfl⟩ := Nat.exists_eq_add_one.mpr (Nat.zero_lt_of_lt hlength)
      obtain ⟨hb, hw⟩ := List.forall_mem_cons.mp hw
      rw [run_base128_marked hb, EStateM.run_bind, ih hw (Nat.lt_of_succ_lt_succ hlength)]

/-! ### Numbers without sign -/

theorem outcome_varuint32_of_ok {input rest : Bytes} {v : Nat} (h : (base128 5).run input = .ok v rest) :
    varuint32.outcome input =
      (if v < 0x100000000 then .ok (UInt32.ofNat v) else .error .varintOverflow, rest) := by
  rw [outcome, varuint32, EStateM.run_bind, h]
  by_cases hroom : v < 0x100000000
  · rw [if_pos hroom]
    dsimp only
    rw [if_pos hroom]
    rfl
  · rw [if_neg hroom]
    dsimp only
    rw [if_neg hroom]
    rfl

theorem outcome_varuint32_of_error {input rest : Bytes} {e : ProtocolError}
    (h : (base128 5).run input = .error e rest) : varuint32.outcome input = (.error e, rest) := by
  rw [outcome, varuint32, EStateM.run_bind, h]

theorem length_of_overflow (hlength : w.length ≤ 5) (h : 0x100000000 ≤ base128Value w) : w.length = 5 := by
  by_contra hne
  have hfour : w.length ≤ 4 := by omega
  have hlt := base128Value_lt w
  have hpow : 128 ^ w.length ≤ 128 ^ 4 := Nat.pow_le_pow_right (by decide) hfour
  omega

theorem length_varuint32_pos (v : UInt32) : 1 ≤ (Encoder.varuint32 v).length := by
  obtain ⟨w, hw, hlength⟩ := takes_varuint32 (run_varuint32 v [])
  rwa [List.append_cancel_right hw]

theorem length_varuint32_lt {input rest : Bytes} {v : UInt32} (h : varuint32.outcome input = (.ok v, rest))
    (hother : input ≠ Encoder.varuint32 v) : (Encoder.varuint32 v).length < input.length := by
  obtain ⟨w, rfl, hw⟩ := plain_varuint32.recognizes.sound (outcome_eq_ok_iff.mp h)
  rw [List.length_append]
  rcases varuint32_eq_or_length_lt hw with rfl | hlonger
  · have hrest : rest ≠ [] := by
      rintro rfl
      exact hother (List.append_nil _)
    exact Nat.lt_add_of_pos_right (List.length_pos_of_ne_nil hrest)
  · exact Nat.lt_add_right _ hlonger

/-! ### Numbers with sign -/

/-- The number with sign behind a number without sign. -/
def unfolded (v : UInt32) : Int32 := Int32.ofInt (unzigzag v.toNat)

theorem toInt_unfolded (v : UInt32) : (unfolded v).toInt = unzigzag v.toNat := by
  have hv := v.toNat_lt
  refine Int32.toInt_ofInt_of_le ?_ ?_ <;> rw [unzigzag] <;> split <;> omega

theorem unzigzag_inj {m n : Nat} (h : unzigzag m = unzigzag n) : m = n := by
  rw [unzigzag, unzigzag] at h
  split at h <;> split at h <;> omega

/-- Numbers with sign come from twice their size, less one if they are negative. -/
theorem exists_unzigzag {i : Int} (hlow : -0x80000000 ≤ i) (hhigh : i < 0x80000000) :
    ∃ n < UInt32.size, unzigzag n = i := by
  have hsize : UInt32.size = 0x100000000 := rfl
  rcases lt_or_ge i 0 with hneg | hpos
  · refine ⟨(-2 * i - 1).toNat, by omega, ?_⟩
    rw [unzigzag, if_neg (by omega)]
    omega
  · refine ⟨(2 * i).toNat, by omega, ?_⟩
    rw [unzigzag, if_pos (by omega)]
    omega

theorem bijective_unfolded : Function.Bijective unfolded := by
  constructor
  · intro v v' h
    have hsame := congrArg Int32.toInt h
    rw [toInt_unfolded, toInt_unfolded] at hsame
    exact UInt32.toNat_inj.mp (unzigzag_inj hsame)
  · intro i
    obtain ⟨n, hn, hi⟩ := exists_unzigzag i.le_toInt i.toInt_lt
    refine ⟨UInt32.ofNat n, Int32.toInt_inj.mp ?_⟩
    rw [toInt_unfolded, UInt32.toNat_ofNat_of_lt' hn, hi]

theorem outcome_varint32_written (v : UInt32) (s : Bytes) :
    varint32.outcome (Encoder.varuint32 v ++ s) = (.ok (unfolded v).toInt, s) := by
  rw [outcome_eq_ok_iff, varint32, EStateM.run_bind, run_varuint32, toInt_unfolded]
  rfl

/-- A variable-length number is read off the numeral at the front of the input, of which at most five bytes are
looked at. What is written for a number is the shortest byte string that is read as it, and as a number with sign it
stands for another one than any other number does. -/
theorem varuint32_numerals :
    (∀ w s, Numeral w → w.length ≤ 5 → varuint32.outcome (w ++ s) =
        (if base128Value w < 0x100000000 then .ok (UInt32.ofNat (base128Value w)) else .error .varintOverflow, s)) ∧
      (∀ w, Numeral w → w.length ≤ 5 → 0x100000000 ≤ base128Value w → w.length = 5) ∧
      (∀ w s, Marked w → w.length = 5 → varuint32.outcome (w ++ s) = (.error .varintOverflow, s)) ∧
      (∀ w, Marked w → w.length < 5 → varuint32.outcome w = (.error (.truncated 1 0), [])) ∧
      (∀ input, (∃ w s, input = w ++ s ∧ Numeral w ∧ w.length ≤ 5) ∨
        (∃ w s, input = w ++ s ∧ Marked w ∧ w.length = 5) ∨ (Marked input ∧ input.length < 5)) ∧
      (∀ v s, varuint32.outcome (Encoder.varuint32 v ++ s) = (.ok v, s)) ∧
      (∀ v input rest, varuint32.outcome input = (.ok v, rest) → input ≠ Encoder.varuint32 v →
        (Encoder.varuint32 v).length < input.length) ∧
      (∀ v, 1 ≤ (Encoder.varuint32 v).length ∧ (Encoder.varuint32 v).length ≤ 5) ∧
      ∃ f : UInt32 → Int32, Function.Bijective f ∧
        (∀ v s, varint32.outcome (Encoder.varuint32 v ++ s) = (.ok (f v).toInt, s)) ∧
        ∀ v, (f v).toInt = if v.toNat % 2 = 0 then (v.toNat : Int) / 2 else -(((v.toNat : Int) + 1) / 2) := by
  refine ⟨fun w s hw hlength => outcome_varuint32_of_ok (run_base128_numeral hw hlength s),
    fun w _ hlength hbig => length_of_overflow hlength hbig,
    fun w s hw hlength => outcome_varuint32_of_error (run_base128_overflow hw hlength s),
    fun w hw hlength => outcome_varuint32_of_error (run_base128_unfinished hw hlength),
    Bytes.front_cases 5, fun v s => outcome_eq_ok_iff.mpr (run_varuint32 v s),
    fun v input rest hread hother => length_varuint32_lt hread hother,
    fun v => ⟨length_varuint32_pos v, Encoder.length_varuint32_le v⟩, unfolded, bijective_unfolded,
    outcome_varint32_written, toInt_unfolded⟩

/-- Two digits, five digits of which the last one is too large, five marked digits before a sixth, too few digits,
and a zero with a digit too many. -/
theorem varuint32_numerals_samples :
    Numeral [0xac, 0x02] ∧ varuint32.outcome [0xac, 0x02, 7] = (.ok 300, [7]) ∧
    Numeral [0x80, 0x80, 0x80, 0x80, 0x10] ∧ base128Value [0x80, 0x80, 0x80, 0x80, 0x10] = 0x100000000 ∧
    varuint32.outcome [0x80, 0x80, 0x80, 0x80, 0x10, 7] = (.error .varintOverflow, [7]) ∧
    varuint32.outcome [0xff, 0xff, 0xff, 0xff, 0xff, 1] = (.error .varintOverflow, [1]) ∧
    varuint32.outcome [0xff, 0xff] = (.error (.truncated 1 0), []) ∧
    varuint32.outcome [0x80, 0] = (.ok 0, []) ∧ (Encoder.varuint32 0).length < 2 := by
  obtain ⟨hnumeral, hfive, hmarked, hshort, -, -, hlonger, -⟩ := varuint32_numerals
  have htwo : Numeral [0xac, 0x02] := ⟨[0xac], 0x02, rfl, by decide, by decide⟩
  have hlarge : Numeral [0x80, 0x80, 0x80, 0x80, 0x10] :=
    ⟨[0x80, 0x80, 0x80, 0x80], 0x10, rfl, by decide, by decide⟩
  have hvalue : base128Value [0x80, 0x80, 0x80, 0x80, 0x10] = 0x100000000 := by decide
  have hzero : Encoder.varuint32 0 = [0] := @Encoder.base128_digit 0 (by decide)
  have hpadded : varuint32.outcome [0x80, 0] = (.ok 0, []) := by decide
  refine ⟨htwo, hnumeral [0xac, 0x02] [7] htwo (by decide), hlarge, hvalue,
    hnumeral [0x80, 0x80, 0x80, 0x80, 0x10] [7] hlarge (hfive _ hlarge (by decide) hvalue.ge).le,
    hmarked [0xff, 0xff, 0xff, 0xff, 0xff] [1] (by decide) rfl, hshort [0xff, 0xff] (by decide) (by decide),
    hpadded, hlonger 0 [0x80, 0] [] hpadded ?_⟩
  rw [hzero]
  nofun

end Decoder

end StateHistory
