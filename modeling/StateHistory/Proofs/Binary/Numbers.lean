import StateHistory.Binary.Encoder
import StateHistory.Proofs.Binary.Recognition

/-! # Reading back what is written

Everything of a fixed size has one form: its reader recognizes exactly what its writer writes
(`Decoder.recognizes_uint32`, `Decoder.recognizes_exact`). With or without a sign, a number that has room is read
back (`Decoder.run_signed`), and a byte string is that of the number it stands for
(`Encoder.signed_twosComplement`). A variable-length number has several forms, since marked zeros may follow its
digits. The writer's form is read back (`Decoder.run_varuint32`) and is the only shortest one
(`Encoder.shortest_iff`). -/

namespace StateHistory

namespace Bytes

/-! ### Fixed sizes -/

theorem ofLittleEndian_lt (bs : Bytes) : ofLittleEndian bs < Nat.pow 256 bs.length := by
  induction bs with
  | nil => exact Nat.one_pos
  | cons b bs ih =>
      have hpow : Nat.pow 256 (b :: bs).length = Nat.pow 256 bs.length * 256 := rfl
      have hb := b.toNat_lt
      rw [ofLittleEndian, hpow]
      omega

theorem ofLittleEndian_littleEndian {width v : Nat} (h : v < Nat.pow 256 width) :
    ofLittleEndian (littleEndian width v) = v := by
  induction width generalizing v with
  | zero => exact (Nat.lt_one_iff.mp h).symm
  | succ width ih =>
      have hrest : v / 256 < Nat.pow 256 width := Nat.div_lt_of_lt_mul (by rwa [Nat.mul_comm])
      rw [littleEndian, ofLittleEndian, ih hrest, UInt8.toNat_ofNat']
      omega

theorem littleEndian_ofLittleEndian (bs : Bytes) : littleEndian bs.length (ofLittleEndian bs) = bs := by
  induction bs with
  | nil => rfl
  | cons b bs ih =>
      have hb := b.toNat_lt
      have hlow : UInt8.ofNat (b.toNat + 256 * ofLittleEndian bs) = b := by
        apply UInt8.toNat_inj.mp
        rw [UInt8.toNat_ofNat']
        omega
      have hrest : (b.toNat + 256 * ofLittleEndian bs) / 256 = ofLittleEndian bs := by omega
      rw [List.length_cons, ofLittleEndian, littleEndian, hlow, hrest, ih]

/-- Four bytes are those of the number they spell. -/
theorem ofNat_ofLittleEndian_eq_iff {w : Block 4} {v : UInt32} :
    UInt32.ofNat (ofLittleEndian w.bytes) = v ↔ w.bytes = littleEndian 4 v.toNat := by
  have hlt := ofLittleEndian_lt w.bytes
  have hbytes := littleEndian_ofLittleEndian w.bytes
  rw [w.length_eq] at hlt hbytes
  constructor
  · rintro rfl
    rw [UInt32.toNat_ofNat_of_lt' hlt, hbytes]
  · intro h
    rw [h, ofLittleEndian_littleEndian v.toNat_lt, UInt32.ofNat_toNat]

/-! ### Signs -/

/-- A number with room among the words of `width` bytes is what its remainder stands for. -/
theorem twosComplement_emod {width : Nat} {i : Int} (hlow : -(Nat.pow 256 width : Int) ≤ 2 * i)
    (hhigh : 2 * i < Nat.pow 256 width) : twosComplement width (i % Nat.pow 256 width).toNat = i := by
  rw [twosComplement]
  rcases Int.lt_or_le i 0 with hneg | hpos
  · have hword : i % (Nat.pow 256 width : Int) = i + Nat.pow 256 width := by
      rw [← Int.add_emod_right, Int.emod_eq_of_lt (by omega) (by omega)]
    rw [hword, if_neg (by omega)]
    omega
  · rw [Int.emod_eq_of_lt hpos (by omega), if_pos (by omega), Int.toNat_of_nonneg hpos]

theorem twosComplement_bounds {width v : Nat} (h : v < Nat.pow 256 width) :
    -(Nat.pow 256 width : Int) ≤ 2 * twosComplement width v ∧ 2 * twosComplement width v < Nat.pow 256 width := by
  rw [twosComplement]
  split <;> omega

theorem twosComplement_emod_pow {width v : Nat} (h : v < Nat.pow 256 width) :
    (twosComplement width v % Nat.pow 256 width).toNat = v := by
  have hword : twosComplement width v % (Nat.pow 256 width : Int) = v := by
    rw [twosComplement]
    split
    · exact Int.emod_eq_of_lt (by omega) (by omega)
    · rw [Int.sub_emod_right]
      exact Int.emod_eq_of_lt (by omega) (by omega)
  rw [hword, Int.toNat_natCast]

/-! ### Text -/

theorem toList_loop (bs : ByteArray) (i : Nat) (r : List UInt8) :
    ByteArray.toList.loop bs i r = r.reverse ++ bs.data.toList.drop i := by
  have hsize : bs.data.toList.length = bs.size := Array.length_toList
  induction hleft : bs.size - i generalizing i r with
  | zero =>
      rw [ByteArray.toList.loop, if_neg (by omega), List.drop_of_length_le (by omega), List.append_nil]
  | succ left ih =>
      have hi : i < bs.data.toList.length := by omega
      have hget : bs.get! i = bs.data.toList[i] := getElem!_pos bs.data i (by simpa using hi)
      rw [ByteArray.toList.loop, if_pos (by omega), ih _ _ (by omega), List.drop_eq_getElem_cons hi, hget]
      simp

/-- A byte string spells a text exactly if it is the bytes of the text. -/
theorem toText?_eq_some_iff {bs : Bytes} {s : String} : bs.toText? = some s ↔ bs = ofText s := by
  have hbytes : ofText s = s.toByteArray.data.toList := toList_loop s.toByteArray 0 []
  rw [toText?, String.fromUTF8?, hbytes]
  constructor
  · intro h
    split at h
    · obtain rfl := Option.some.inj h
      rfl
    · cases h
  · rintro rfl
    rw [dif_pos s.isValidUTF8]
    rfl

end Bytes

namespace Encoder

theorem signed_twosComplement (w : Bytes) :
    signed w.length (Bytes.twosComplement w.length (Bytes.ofLittleEndian w)) = w := by
  rw [signed, Bytes.twosComplement_emod_pow (Bytes.ofLittleEndian_lt w), Bytes.littleEndian_ofLittleEndian]

/-! ### Variable lengths -/

theorem base128_digit {b : UInt8} (h : b < 128) : base128 b.toNat = [b] := by
  have hdigit : b.toNat < 128 := UInt8.lt_iff_toNat_lt.mp h
  rw [base128, if_pos hdigit, UInt8.ofNat_toNat]

theorem base128_digits {b : UInt8} (h : ¬ b < 128) {v : Nat} (hv : v ≠ 0) :
    base128 (b.toNat - 128 + 128 * v) = b :: base128 v := by
  have hmarked : ¬ b.toNat < 128 := UInt8.lt_iff_toNat_lt.not.mp h
  have hb := b.toNat_lt
  have hlow : UInt8.ofNat (128 + (b.toNat - 128 + 128 * v) % 128) = b := by
    apply UInt8.toNat_inj.mp
    rw [UInt8.toNat_ofNat']
    omega
  have hquotient : (b.toNat - 128 + 128 * v) / 128 = v := by omega
  rw [base128, if_neg (by omega), hlow, hquotient]

theorem digit_or_digits (v : Nat) :
    (∃ b : UInt8, b < 128 ∧ v = b.toNat) ∨
      ∃ (b : UInt8) (rest : Nat), ¬ b < 128 ∧ rest ≠ 0 ∧ v = b.toNat - 128 + 128 * rest := by
  by_cases hv : v < 128
  · have hbyte : (UInt8.ofNat v).toNat = v := by
      rw [UInt8.toNat_ofNat']
      omega
    exact .inl ⟨UInt8.ofNat v, UInt8.lt_iff_toNat_lt.mpr (by rwa [hbyte]), hbyte.symm⟩
  · have hbyte : (UInt8.ofNat (128 + v % 128)).toNat = 128 + v % 128 := by
      rw [UInt8.toNat_ofNat']
      omega
    refine .inr ⟨UInt8.ofNat (128 + v % 128), v / 128, ?_, by omega, by omega⟩
    rw [UInt8.lt_iff_toNat_lt, hbyte]
    exact Nat.not_lt.mpr (Nat.le_add_right 128 _)

end Encoder

namespace Decoder

open Encoder (base128_digit base128_digits digit_or_digits)

/-! ### Readers of fixed sizes -/

theorem recognizes_exact (n : Nat) : (exact n).Recognizes fun w v => w = v.bytes where
  sound := by
    intro input v rest hrun
    rcases exact_cases n input with ⟨-, hshort⟩ | ⟨w, rest', rfl, htaken⟩
    · cases hshort.symm.trans hrun
    · obtain ⟨rfl, rfl⟩ := EStateM.Result.ok.inj (htaken.symm.trans hrun)
      exact ⟨w.bytes, rfl, rfl⟩
  complete := by
    rintro _ v rfl s
    exact exact_append v s

theorem recognizes_uint32 : uint32.Recognizes fun w v => w = Encoder.uint32 v := by
  refine ((((recognizes_exact 4).map _).map _).map _).of_iff fun w v => ⟨?_, ?_⟩
  · rintro ⟨_, ⟨_, ⟨block, rfl, rfl⟩, rfl⟩, rfl⟩
    exact Bytes.ofNat_ofLittleEndian_eq_iff.mp rfl
  · rintro rfl
    have hlength := Bytes.length_littleEndian 4 v.toNat
    exact ⟨_, ⟨_, ⟨⟨_, hlength⟩, rfl, rfl⟩, rfl⟩, (Bytes.ofNat_ofLittleEndian_eq_iff.mpr rfl).symm⟩

theorem run_unsigned {width : Nat} {w : Bytes} (h : w.length = width) (s : Bytes) :
    (unsigned width).run (w ++ s) = .ok (Bytes.ofLittleEndian w) s := by
  rw [unsigned, EStateM.run_bind, bytes, EStateM.run_bind, exact_append ⟨w, h⟩ s]
  rfl

theorem run_uint64 (v : UInt64) (s : Bytes) : uint64.run (Encoder.uint64 v ++ s) = .ok v s := by
  rw [uint64, EStateM.run_bind, Encoder.uint64, run_unsigned (Bytes.length_littleEndian 8 v.toNat)]
  dsimp only
  rw [Bytes.ofLittleEndian_littleEndian v.toNat_lt, UInt64.ofNat_toNat]
  rfl

theorem run_signed {width : Nat} {i : Int} (hlow : -(Nat.pow 256 width : Int) ≤ 2 * i)
    (hhigh : 2 * i < Nat.pow 256 width) (s : Bytes) :
    (signed width).run (Encoder.signed width i ++ s) = .ok i s := by
  have hpos : (0 : Int) < Nat.pow 256 width := by omega
  have hlt : (i % (Nat.pow 256 width : Int)).toNat < Nat.pow 256 width := by
    have := Int.emod_lt_of_pos i hpos
    have := Int.emod_nonneg i (Int.ne_of_gt hpos)
    omega
  rw [signed, EStateM.run_bind, Encoder.signed, run_unsigned (Bytes.length_littleEndian width _)]
  dsimp only
  rw [Bytes.ofLittleEndian_littleEndian hlt, Bytes.twosComplement_emod hlow hhigh]
  rfl

/-! ### Readers of variable lengths -/

theorem run_base128_cons (limit : Nat) (b : UInt8) (input : Bytes) :
    (base128 (limit + 1)).run (b :: input) =
      if b < 128 then .ok b.toNat input
      else (do return b.toNat - 128 + 128 * (← base128 limit) : Decoder Nat).run input := by
  rw [base128, EStateM.run_bind]
  dsimp only [uint8, EStateM.run]
  split <;> rfl

/-- A number with room for its digits is read back from its shortest form. -/
theorem run_base128 {limit v : Nat} (h : v < Nat.pow 128 (limit + 1)) (s : Bytes) :
    (base128 (limit + 1)).run (Encoder.base128 v ++ s) = .ok v s := by
  induction limit generalizing v with
  | zero =>
      have hv : v < 128 := h
      rcases digit_or_digits v with ⟨b, hb, rfl⟩ | ⟨b, rest, -, hrest, rfl⟩
      · rw [base128_digit hb, List.singleton_append, run_base128_cons, if_pos hb]
      · omega
  | succ limit ih =>
      rcases digit_or_digits v with ⟨b, hb, rfl⟩ | ⟨b, rest, hb, hrest, rfl⟩
      · rw [base128_digit hb, List.singleton_append, run_base128_cons, if_pos hb]
      · have hpow : Nat.pow 128 (limit + 1 + 1) = Nat.pow 128 (limit + 1) * 128 := rfl
        have hroom : rest < Nat.pow 128 (limit + 1) := by omega
        rw [base128_digits hb hrest, List.cons_append, run_base128_cons, if_neg hb, EStateM.run_bind, ih hroom]
        rfl

/-- What is read as a number is its shortest form or longer. -/
theorem base128_eq_or_length_lt {limit v : Nat} {w : Bytes} (h : (base128 limit).run w = .ok v []) :
    Encoder.base128 v = w ∨ (Encoder.base128 v).length < w.length := by
  induction limit generalizing v w with
  | zero => cases h
  | succ limit ih =>
      cases w with
      | nil => cases h
      | cons b w =>
          rw [run_base128_cons] at h
          split at h
          · rename_i hb
            obtain ⟨rfl, rfl⟩ := EStateM.Result.ok.inj h
            exact .inl (base128_digit hb)
          · rename_i hb
            rw [EStateM.run_bind] at h
            split at h
            · rename_i rest left hrest
              obtain ⟨rfl, rfl⟩ := EStateM.Result.ok.inj h
              by_cases hzero : rest = 0
              · have hb' := b.toNat_lt
                have hnil : w ≠ [] := by
                  rintro rfl
                  cases limit <;> cases hrest
                have hpos := List.length_pos_of_ne_nil hnil
                rw [Encoder.base128, if_pos (by omega)]
                exact .inr (Nat.succ_lt_succ hpos)
              · rw [base128_digits hb hzero, List.cons.injEq, List.length_cons, List.length_cons]
                rcases ih hrest with hsame | hshorter
                · exact .inl ⟨rfl, hsame⟩
                · exact .inr (Nat.succ_lt_succ hshorter)
            · cases h

theorem run_varuint32_eq_ok_iff {input rest : Bytes} {v : UInt32} :
    varuint32.run input = .ok v rest ↔ (base128 5).run input = .ok v.toNat rest := by
  rw [varuint32, EStateM.run_bind]
  cases (base128 5).run input with
  | error e left => simp
  | ok n left =>
      by_cases hn : n < 0x100000000
      · have hsame : UInt32.ofNat n = v ↔ n = v.toNat := by
          rw [← UInt32.toNat_inj, UInt32.toNat_ofNat_of_lt' hn]
        simp [hn, hsame]
      · have hv := v.toNat_lt
        have hother : n ≠ v.toNat := by omega
        simp only [hn, if_false, EStateM.Result.ok.injEq, hother, false_and, iff_false]
        nofun

theorem run_varuint32 (v : UInt32) (s : Bytes) : varuint32.run (Encoder.varuint32 v ++ s) = .ok v s := by
  have hv := v.toNat_lt
  exact run_varuint32_eq_ok_iff.mpr (run_base128 (Nat.lt_of_lt_of_le hv (by decide)) s)

/-- What is read as a number is the form in which it is written or longer. -/
theorem varuint32_eq_or_length_lt {w : Bytes} {v : UInt32} (h : varuint32.run w = .ok v []) :
    Encoder.varuint32 v = w ∨ (Encoder.varuint32 v).length < w.length :=
  base128_eq_or_length_lt (run_varuint32_eq_ok_iff.mp h)

end Decoder

namespace Encoder

theorem varuint32_injective {v w : UInt32} (h : varuint32 v = varuint32 w) : v = w := by
  have hrun := Decoder.run_varuint32 v []
  rw [h, Decoder.run_varuint32] at hrun
  exact (EStateM.Result.ok.inj hrun).1.symm

/-- No shorter byte string is read as the same number. -/
def Shortest (w : Bytes) : Prop :=
  ∀ w' v, Decoder.varuint32.run w = .ok v [] → Decoder.varuint32.run w' = .ok v [] → w.length ≤ w'.length

/-- Of all forms of a number, the one in which it is written is the shortest. -/
theorem shortest_iff {w : Bytes} {v : UInt32} (h : Decoder.varuint32.run w = .ok v []) :
    Shortest w ↔ varuint32 v = w := by
  have hwritten := Decoder.run_varuint32 v []
  rw [List.append_nil] at hwritten
  constructor
  · intro hshortest
    have hle := hshortest _ _ h hwritten
    exact (Decoder.varuint32_eq_or_length_lt h).resolve_right (Nat.not_lt.mpr hle)
  · rintro rfl w' v' hv hv'
    obtain ⟨rfl, -⟩ := EStateM.Result.ok.inj (hwritten.symm.trans hv)
    rcases Decoder.varuint32_eq_or_length_lt hv' with rfl | hlonger
    · exact Nat.le_refl _
    · exact Nat.le_of_lt hlonger

end Encoder

end StateHistory
