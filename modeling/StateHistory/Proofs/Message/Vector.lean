import StateHistory.Proofs.Binary.Width
import StateHistory.Proofs.Message.Format

/-! # Vectors are no longer than their bytes

A count is not checked against the input. It need not be: every value of the binary format takes a byte
(`Format.takes_decoder`), so that a vector whose count is beyond the input runs out of bytes.

`Filling` reads the items of a vector and keeps account of it: how many items were begun, how many are held, and
for how many there is room. It comes to the same as the reader of vectors (`Filling.outcome_fill`), and at each
step the items that are held are paid for by bytes that are used up (`Filling.Paid.step`, `Filling.Paid.run`).
So the room that is made at the start, which is never for more items than there are bytes, is enough to the end
(`Format.vector_within_input`). -/

namespace StateHistory

namespace Decoder

/-- The items of a vector while they are read. -/
structure Filling (α : Type) where
  /-- For how many items there is room. -/
  capacity : Nat
  /-- How many items were begun. -/
  attempts : Nat
  /-- The items that were read, the latest first. -/
  items : List α
  /-- Why no further item is read. -/
  failure : Option ProtocolError
  /-- What is left to read. -/
  rest : Bytes

namespace Filling

variable {α : Type} {d : Decoder α}

/-- For how many items room is made at the start: as many as are announced, but no more than there are bytes. -/
def reserved (count : Nat) (input : Bytes) : Nat := min count input.length

/-- Before the first item. -/
def start (count : Nat) (input : Bytes) : Filling α where
  capacity := reserved count input
  attempts := 0
  items := []
  failure := none
  rest := input

/-- One item more. A list that is full is given more room. -/
def step (d : Decoder α) (s : Filling α) : Filling α :=
  match d.run s.rest with
  | .ok v rest =>
    { capacity := max s.capacity (s.items.length + 1), attempts := s.attempts + 1, items := v :: s.items,
      failure := none, rest := rest }
  | .error e rest => { s with attempts := s.attempts + 1, failure := some e, rest := rest }

/-- Up to `n` items more: the first that cannot be read is the last. -/
def run (d : Decoder α) : (n : Nat) → Filling α → Filling α
  | 0, s => s
  | n + 1, s =>
    match s.failure with
    | some _ => s
    | none => run d n (s.step d)

/-- All items of a vector with the given count. -/
def fill (d : Decoder α) (count : UInt32) (input : Bytes) : Filling α := run d count.toNat (start count.toNat input)

/-- What was read in the end. -/
def outcome (s : Filling α) : Except ProtocolError (List α) × Bytes :=
  match s.failure with
  | some e => (.error e, s.rest)
  | none => (.ok s.items.reverse, s.rest)

theorem step_of_ok {s : Filling α} {v : α} {rest : Bytes} (h : d.run s.rest = .ok v rest) :
    s.step d = ⟨max s.capacity (s.items.length + 1), s.attempts + 1, v :: s.items, none, rest⟩ := by
  rw [step, h]

theorem step_of_error {s : Filling α} {e : ProtocolError} {rest : Bytes} (h : d.run s.rest = .error e rest) :
    s.step d = ⟨s.capacity, s.attempts + 1, s.items, some e, rest⟩ := by
  rw [step, h]

/-! ### The reader of vectors -/

theorem run_of_failure {s : Filling α} {e : ProtocolError} (h : s.failure = some e) (n : Nat) : run d n s = s := by
  cases n with
  | zero => rfl
  | succ n => rw [run, h]

theorem outcome_run {s : Filling α} (h : s.failure = none) (n : Nat) :
    (run d n s).outcome = (timesOnto d n s.items).outcome s.rest := by
  induction n generalizing s with
  | zero =>
      rw [run, outcome, h]
      rfl
  | succ n ih =>
      rw [run, h, Decoder.outcome, timesOnto, EStateM.run_bind]
      dsimp only
      cases hitem : d.run s.rest with
      | ok v rest =>
          rw [step_of_ok hitem, ih rfl]
          rfl
      | error e rest =>
          rw [step_of_error hitem, run_of_failure rfl]
          rfl

/-- Keeping account changes nothing about what is read. -/
theorem outcome_fill {input middle : Bytes} {count : UInt32} (hcount : varuint32.run input = .ok count middle) :
    (vector d).outcome input = (fill d count middle).outcome := by
  have hrun : (fill d count middle).outcome = (times d count.toNat).outcome middle := outcome_run rfl count.toNat
  rw [hrun, Decoder.outcome, vector, EStateM.run_bind, hcount]
  rfl

/-! ### Items and bytes -/

/-- Where `left` of `count` items are to come, and `room` bytes were there at the start: the items that are held
have used up a byte each, all that were begun are held but the one that failed, and no room was added. -/
structure Paid (count room left : Nat) (s : Filling α) : Prop where
  items : s.items.length + left ≤ count
  bytes : s.items.length + s.rest.length ≤ room
  attempts : s.attempts = s.items.length + s.failure.toList.length
  capacity : s.capacity = min count room

theorem paid_start (count : Nat) (input : Bytes) : (start count input : Filling α).Paid count input.length count where
  items := Nat.le_of_eq (Nat.zero_add count)
  bytes := Nat.le_of_eq (Nat.zero_add input.length)
  attempts := rfl
  capacity := rfl

variable {Failure : ProtocolError → Bytes → Prop} {count room left : Nat} {s : Filling α}

/-- An item that is read takes a byte, and one that is not leaves no more than there was. -/
theorem Paid.step (hd : d.Takes 1) (hforward : d.Forward Failure) (h : s.Paid count room (left + 1))
    (hs : s.failure = none) : (s.step d).Paid count room left := by
  obtain ⟨hitems, hbytes, hattempts, hcapacity⟩ := h
  rw [hs, Option.toList_none, List.length_nil] at hattempts
  cases hitem : d.run s.rest with
  | ok v rest =>
      obtain ⟨w, hw, htakes⟩ := hd hitem
      have hlength : s.rest.length = w.length + rest.length := by rw [hw, List.length_append]
      rw [step_of_ok hitem]
      constructor <;> simp only [List.length_cons, Option.toList_none, List.length_nil] <;> omega
  | error e rest =>
      have hlength := (hforward.of_error hitem).1.length_le
      rw [step_of_error hitem]
      constructor <;> simp only [Option.toList_some, List.length_singleton] <;> omega

theorem Paid.run (hd : d.Takes 1) (hforward : d.Forward Failure) (h : s.Paid count room left) :
    (run d left s).Paid count room 0 := by
  induction left generalizing s with
  | zero => exact h
  | succ left ih =>
      rw [Filling.run]
      cases hs : s.failure with
      | some e => exact ⟨Nat.le_trans (Nat.le_add_right _ _) h.items, h.bytes, h.attempts, h.capacity⟩
      | none => exact ih (h.step hd hforward hs)

theorem paid_fill (hd : d.Takes 1) (hforward : d.Forward Failure) (count : UInt32) (input : Bytes) :
    (fill d count input).Paid count.toNat input.length 0 :=
  (paid_start count.toNat input).run hd hforward

/-- No more is begun than there are bytes, and one item. -/
theorem Paid.attempts_le (h : s.Paid count room left) : s.attempts ≤ room + 1 := by
  have hfailure : s.failure.toList.length ≤ 1 := by cases s.failure <;> simp
  have hbytes := h.bytes
  have hattempts := h.attempts
  omega

end Filling

end Decoder

/-! ### Vectors of values -/

namespace Format

/-- Every value takes a byte. -/
theorem takes_decoder (f : Format) : f.decoder.Takes 1 := f.plain_decoder.takes (by cases f <;> exact nofun)

open Decoder (Filling)

/-- A vector that is read has at most as many items as it has bytes after its count. Whatever the count, room is made
for no more items than bytes are left and is enough to the end, and no more items are begun than there are bytes,
and one; if the count is beyond the input, one of them fails. -/
theorem vector_within_input (item : Format) :
    (∀ input vs rest, (Decoder.vector item.decoder).outcome input = (.ok vs, rest) →
      ∃ count w, Decoder.varuint32.outcome input = (.ok count, w ++ rest) ∧ vs.length = count.toNat ∧
        vs.length ≤ w.length) ∧
    ∀ input count middle, Decoder.varuint32.outcome input = (.ok count, middle) →
      (Decoder.vector item.decoder).outcome input = (Filling.fill item.decoder count middle).outcome ∧
      Filling.reserved count.toNat middle ≤ middle.length ∧
      (Filling.fill item.decoder count middle).capacity = Filling.reserved count.toNat middle ∧
      (Filling.fill item.decoder count middle).attempts ≤ middle.length + 1 ∧
      (middle.length < count.toNat → ∃ e rest, (Decoder.vector item.decoder).outcome input = (.error e, rest)) := by
  simp only [Decoder.outcome_eq_ok_iff]
  refine ⟨fun input vs rest hread => item.takes_decoder.exists_of_vector hread, fun input count middle hcount => ?_⟩
  have hpaid := Filling.paid_fill item.takes_decoder item.plain_decoder.forward count middle
  refine ⟨Filling.outcome_fill hcount, Nat.min_le_right _ _, hpaid.capacity, hpaid.attempts_le, fun hbeyond => ?_⟩
  rcases houtcome : (Decoder.vector item.decoder).outcome input with ⟨e | vs, rest⟩
  · exact ⟨e, rest, rfl⟩
  · have hread := Decoder.outcome_eq_ok_iff.mp houtcome
    obtain ⟨count', w, hcount', hlength, hw⟩ := item.takes_decoder.exists_of_vector hread
    obtain ⟨rfl, rfl⟩ := EStateM.Result.ok.inj (hcount.symm.trans hcount')
    rw [List.length_append] at hbeyond
    omega

/-- A thousand numbers are announced and one is there: the second fails. Of three lists that may be absent one is
there, with two flags. -/
theorem vector_within_input_samples :
    (Decoder.varuint32.outcome [0xe8, 0x07, 1, 0, 0, 0] = (.ok 1000, [1, 0, 0, 0]) ∧
      (Filling.fill Decoder.uint32 1000 [1, 0, 0, 0]).attempts ≤ 5 ∧
      ∃ e rest, (Decoder.vector Decoder.uint32).outcome [0xe8, 0x07, 1, 0, 0, 0] = (.error e, rest)) ∧
    (Decoder.vector (Decoder.option (Decoder.vector Decoder.bool))).outcome [3, 0, 1, 2, 1, 0, 0, 0xff] =
        (.ok [none, some [true, false], none], [0xff]) ∧
      ∃ count w, Decoder.varuint32.outcome [3, 0, 1, 2, 1, 0, 0, 0xff] = (.ok count, w ++ [0xff]) ∧
        3 = count.toNat ∧ 3 ≤ w.length := by
  have hcount : Decoder.varuint32.outcome [0xe8, 0x07, 1, 0, 0, 0] = (.ok 1000, [1, 0, 0, 0]) := by decide +kernel
  have hread : (Decoder.vector (Decoder.option (Decoder.vector Decoder.bool))).outcome [3, 0, 1, 2, 1, 0, 0, 0xff] =
      (.ok [none, some [true, false], none], [0xff]) := by decide +kernel
  obtain ⟨-, hbeyond⟩ := vector_within_input .uint32
  obtain ⟨-, -, -, hattempts, hfails⟩ := hbeyond _ _ _ hcount
  obtain ⟨hitems, -⟩ := vector_within_input (.option (.vector .bool))
  exact ⟨⟨hcount, hattempts, hfails (by decide)⟩, hread, hitems _ _ _ hread⟩

end Format

end StateHistory
