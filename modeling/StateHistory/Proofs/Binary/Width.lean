import StateHistory.Proofs.Binary.Numbers
import StateHistory.Proofs.Binary.Reading

/-! # How many bytes a value takes

A reader takes at least `n` bytes (`Decoder.Takes`) if all that it reads is read off a first part of the input
that is so long. Sequencing adds these numbers up, so that a list of values that take a byte each is never longer
than what it is read off (`Takes.exists_of_times`). All builtin types take a byte (`Schema.Builtin.takes_decoder`). -/

namespace StateHistory

namespace Decoder

variable {α β : Type} {d : Decoder α} {m n : Nat}

/-- Values are read off at least `n` bytes. -/
def Takes (n : Nat) (d : Decoder α) : Prop :=
  ∀ ⦃input v rest⦄, d.run input = .ok v rest → ∃ w, input = w ++ rest ∧ n ≤ w.length

theorem Takes.mono (h : d.Takes n) (hle : m ≤ n) : d.Takes m := by
  intro input v rest hrun
  obtain ⟨w, hinput, hlength⟩ := h hrun
  exact ⟨w, hinput, Nat.le_trans hle hlength⟩

theorem Takes.pure (v : α) : (Pure.pure v : Decoder α).Takes 0 := by
  rintro input v rest ⟨⟩
  exact ⟨[], rfl, Nat.le_refl 0⟩

theorem Takes.throw (e : ProtocolError) : (MonadExcept.throw e : Decoder α).Takes n := by
  rintro input v rest ⟨⟩

theorem takes_atEnd : atEnd.Takes 0 := by
  rintro input v rest ⟨⟩
  exact ⟨[], rfl, Nat.le_refl 0⟩

theorem Takes.bind {f : α → Decoder β} (hd : d.Takes m) (hf : ∀ v, (f v).Takes n) :
    (d >>= f).Takes (m + n) := by
  intro input v rest hrun
  rw [EStateM.run_bind] at hrun
  split at hrun
  · rename_i middle hfirst
    obtain ⟨w, rfl, hw⟩ := hd hfirst
    obtain ⟨w', rfl, hw'⟩ := hf _ hrun
    refine ⟨w ++ w', (List.append_assoc ..).symm, ?_⟩
    rw [List.length_append]
    exact Nat.add_le_add hw hw'
  · cases hrun

/-- What only looks at what it reads takes a byte if it reads nothing off no bytes. -/
theorem Plain.takes (hd : d.Plain) (h : ∀ v, d.run [] ≠ .ok v []) : d.Takes 1 := by
  intro input v rest hrun
  obtain ⟨w, hinput, hreads⟩ := hd.isLocal input v rest hrun
  refine ⟨w, hinput, Nat.pos_of_ne_zero fun hzero => h v ?_⟩
  obtain rfl := List.length_eq_zero_iff.mp hzero
  exact hreads.run_append []

theorem takes_bool : bool.Takes 1 := plain_bool.takes nofun

theorem takes_varuint32 : varuint32.Takes 1 := plain_varuint32.takes nofun

/-! ### Items -/

theorem length_of_timesOnto {k : Nat} {read items : List α} {input rest : Bytes}
    (hrun : (timesOnto d k read).run input = .ok items rest) : items.length = read.length + k := by
  induction k generalizing read input with
  | zero =>
      obtain ⟨rfl, rfl⟩ := EStateM.Result.ok.inj hrun
      exact List.length_reverse
  | succ k ih =>
      rw [timesOnto, EStateM.run_bind] at hrun
      split at hrun
      · rw [ih hrun, List.length_cons]
        omega
      · cases hrun

theorem length_of_times {k : Nat} {items : List α} {input rest : Bytes}
    (hrun : (times d k).run input = .ok items rest) : items.length = k := by
  rw [length_of_timesOnto hrun, List.length_nil, Nat.zero_add]

/-- Several values take several times as many bytes as one. -/
theorem Takes.timesOnto (hd : d.Takes n) (k : Nat) (read : List α) : (timesOnto d k read).Takes (k * n) := by
  induction k generalizing read with
  | zero =>
      rw [Nat.zero_mul]
      exact .pure _
  | succ k ih =>
      rw [Nat.succ_mul, Nat.add_comm]
      exact hd.bind fun v => ih (v :: read)

theorem Takes.times (hd : d.Takes n) (k : Nat) : (times d k).Takes (k * n) := hd.timesOnto k []

/-- Items that take a byte each are no more than the bytes that they are read off. -/
theorem Takes.exists_of_times (hd : d.Takes 1) {k : Nat} {items : List α} {input rest : Bytes}
    (hrun : (Decoder.times d k).run input = .ok items rest) : ∃ w, input = w ++ rest ∧ k ≤ w.length := by
  obtain ⟨w, hinput, hlength⟩ := hd.times k hrun
  rw [Nat.mul_one] at hlength
  exact ⟨w, hinput, hlength⟩

/-- The bytes of a vector of such items are as many after the count. -/
theorem Takes.exists_of_vector (hd : d.Takes 1) {items : List α} {input rest : Bytes}
    (hrun : (Decoder.vector d).run input = .ok items rest) :
    ∃ count w, varuint32.run input = .ok count (w ++ rest) ∧ items.length = count.toNat ∧ items.length ≤ w.length := by
  rw [Decoder.vector, EStateM.run_bind] at hrun
  split at hrun
  · rename_i count middle hcount
    obtain ⟨w, rfl, hw⟩ := hd.exists_of_times hrun
    have hlength := length_of_times hrun
    exact ⟨count, w, hcount, hlength, Nat.le_trans (Nat.le_of_eq hlength) hw⟩
  · cases hrun

theorem Takes.vector (hd : d.Takes 0) : (vector d).Takes 1 :=
  (takes_varuint32.bind fun count => (hd.times count.toNat).mono (Nat.zero_le 0)).mono (Nat.le_refl 1)

/-- A reader that reads nothing off no bytes does so as often as it is asked to. -/
theorem run_timesOnto_nil {v : α} (h : d.run [] = .ok v []) (k : Nat) (read : List α) :
    (timesOnto d k read).run [] = .ok (read.reverse ++ List.replicate k v) [] := by
  induction k generalizing read with
  | zero =>
      rw [List.replicate_zero, List.append_nil]
      rfl
  | succ k ih =>
      rw [timesOnto, EStateM.run_bind, h]
      dsimp only
      rw [ih, List.reverse_cons, List.append_assoc]
      rfl

theorem run_times_nil {v : α} (h : d.run [] = .ok v []) (k : Nat) :
    (times d k).run [] = .ok (List.replicate k v) [] := run_timesOnto_nil h k []

end Decoder

theorem Encoder.length_base128_le {limit v : Nat} (h : v < Nat.pow 128 (limit + 1)) :
    (Encoder.base128 v).length ≤ limit + 1 := by
  induction limit generalizing v with
  | zero =>
      have hv : v < 128 := h
      rw [Encoder.base128, if_pos hv]
      exact Nat.le_refl 1
  | succ limit ih =>
      have hpow : Nat.pow 128 (limit + 1 + 1) = Nat.pow 128 (limit + 1) * 128 := rfl
      rw [Encoder.base128]
      split
      · exact Nat.succ_le_succ (Nat.zero_le _)
      · exact Nat.succ_le_succ (ih (by omega))

theorem Encoder.length_varuint32_le (v : UInt32) : (Encoder.varuint32 v).length ≤ 5 := by
  have hv := v.toNat_lt
  exact length_base128_le (Nat.lt_of_lt_of_le hv (by decide))

theorem Schema.Builtin.takes_decoder (type : Builtin) : type.decoder.Takes 1 :=
  type.plain_decoder.takes (by cases type <;> exact nofun)

end StateHistory
