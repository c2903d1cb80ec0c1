import StateHistory.Proofs.Binary.Cursor
import StateHistory.Proofs.Message.Format
import StateHistory.Proofs.Schema.Traversal

/-! # Reads on one byte string

Values of all kinds can be read off one byte string, one after the other, and a read that fails does not keep the
next one from going on where it stopped (`Read`, `Read.Steps`). Whatever is read in whatever order, the positions
stay in the data and never go back, and bytes are reported missing only where they are (`Read.positions_in_data`). -/

namespace StateHistory

open Schema

/-! ### Reads -/

/-- What can be read off a byte string in one go. -/
inductive Read where
  | bytes (n : Nat)
  | uint8
  | unsigned (width : Nat)
  | signed (width : Nat)
  | uint64
  | varuint32
  | varint32
  | value (format : Format)
  | json (catalog : Catalog) (type : String)

/-- A fixed-size read: how many bytes are read, and what value they are. -/
structure FixedSize (α : Type) where
  size : Nat
  value : Bytes.Block size → α

namespace FixedSize

variable {α β : Type}

/-- The reader of a fixed-size read. -/
def decoder (f : FixedSize α) : Decoder α := do return f.value (← Decoder.exact f.size)

/-- The number without sign. -/
def unsigned (width : Nat) : FixedSize Nat := ⟨width, fun w => Bytes.ofLittleEndian w.bytes⟩

theorem map_decoder (f : FixedSize α) (g : α → β) :
    (do return g (← f.decoder) : Decoder β) = decoder ⟨f.size, fun w => g (f.value w)⟩ := by
  simp [decoder]

theorem decoder_unsigned (width : Nat) : Decoder.unsigned width = (unsigned width).decoder :=
  map_decoder ⟨width, Bytes.Block.bytes⟩ Bytes.ofLittleEndian

/-- A fixed-size read takes the bytes between its positions, or there are too few and it does not move. -/
theorem run_cases {f : FixedSize α} {data : Bytes} {p q : Nat} {accesses : List Access}
    {result : Except ProtocolError α} (hp : p ≤ data.length) (h : f.decoder.Run data p accesses result q) :
    (∃ w, data.slice? p q = some (Bytes.Block.bytes w) ∧ q = p + f.size ∧ result = .ok (f.value w)) ∨
      (data.length - p < f.size ∧ result = .error (.truncated f.size (data.length - p)) ∧ q = p) := by
  rcases Decoder.run_exact_cases hp f.size with ⟨hshort, hrun⟩ | ⟨w, hslice, hrun⟩
  · obtain ⟨rfl, rfl⟩ := h.unique hp (.stop hrun)
    exact .inr ⟨hshort, rfl, rfl⟩
  · obtain ⟨rfl, rfl⟩ := h.unique hp (.next hrun (.pure (f.value w) _))
    exact .inl ⟨w, hslice, rfl, rfl⟩

end FixedSize

namespace Read

/-- The values of a read. -/
def Value : Read → Type
  | bytes _ => Bytes
  | uint8 => UInt8
  | unsigned _ => Nat
  | signed _ => Int
  | uint64 => UInt64
  | varuint32 => UInt32
  | varint32 => Int
  | value format => format.Value
  | json _ _ => Json

/-- The reader of a read. -/
def decoder : (r : Read) → Decoder r.Value
  | bytes n => Decoder.bytes n
  | uint8 => Decoder.uint8
  | unsigned width => Decoder.unsigned width
  | signed width => Decoder.signed width
  | uint64 => Decoder.uint64
  | varuint32 => Decoder.varuint32
  | varint32 => Decoder.varint32
  | value format => format.decoder
  | json catalog type => catalog.read (TypeRef.parse type)

/-- The reads that are a fixed-size read and nothing more. A flag is one byte, too, but not every byte is a flag. -/
def fixedSize? : (r : Read) → Option (FixedSize r.Value)
  | bytes n => some ⟨n, Bytes.Block.bytes⟩
  | uint8 => some ⟨1, fun w => w.bytes.headD 0⟩
  | unsigned width => some (.unsigned width)
  | signed width => some ⟨width, fun w => Bytes.twosComplement width (Bytes.ofLittleEndian w.bytes)⟩
  | uint64 => some ⟨8, fun w => UInt64.ofNat (Bytes.ofLittleEndian w.bytes)⟩
  | value .uint32 => some ⟨4, fun w => UInt32.ofNat (Bytes.ofLittleEndian w.bytes)⟩
  | value .checksum => some ⟨32, id⟩
  | _ => none

theorem decoder_of_fixedSize {r : Read} {f : FixedSize r.Value} (h : r.fixedSize? = some f) :
    r.decoder = f.decoder := by
  cases r with
  | bytes n =>
      obtain rfl := Option.some.inj h
      rfl
  | uint8 =>
      obtain rfl := Option.some.inj h
      exact Decoder.uint8_eq
  | unsigned width =>
      obtain rfl := Option.some.inj h
      exact FixedSize.decoder_unsigned width
  | signed width =>
      obtain rfl := Option.some.inj h
      rw [decoder, Decoder.signed, FixedSize.decoder_unsigned]
      exact FixedSize.map_decoder _ _
  | uint64 =>
      obtain rfl := Option.some.inj h
      rw [decoder, Decoder.uint64, FixedSize.decoder_unsigned]
      exact FixedSize.map_decoder _ _
  | varuint32 => cases h
  | varint32 => cases h
  | value format =>
      cases format with
      | uint32 =>
          obtain rfl := Option.some.inj h
          rw [decoder, Format.decoder, Decoder.uint32, FixedSize.decoder_unsigned]
          exact FixedSize.map_decoder _ _
      | checksum =>
          obtain rfl := Option.some.inj h
          exact (bind_pure (Decoder.exact 32)).symm
      | _ => cases h
  | json catalog type => cases h

/-- What is left after each of several reads, and what it came to. -/
structure Outcome where
  read : Read
  result : Except ProtocolError read.Value
  rest : Bytes

/-- Reads one after the other, each off what the one before has left. -/
def outcomes : List Read → Bytes → List Outcome
  | [], _ => []
  | r :: reads, input =>
    let (result, rest) := r.decoder.outcome input
    ⟨r, result, rest⟩ :: outcomes reads rest

/-! ### Positions -/

/-- One of several reads: the positions before and after it, the fixed-size reads it made, and its result. -/
structure Step where
  read : Read
  start : Nat
  accesses : List Access
  result : Except ProtocolError read.Value
  stop : Nat

/-- Reads one after the other, each from where the one before has stopped, whether that one has failed or not. -/
inductive Steps (data : Bytes) : Nat → List Read → List Step → Prop
  | nil (p : Nat) : Steps data p [] []
  | cons {r : Read} {p q : Nat} {accesses : List Access} {result : Except ProtocolError r.Value} {reads : List Read}
      {steps : List Step} : r.decoder.Run data p accesses result q → Steps data q reads steps →
      Steps data p (r :: reads) (⟨r, p, accesses, result, q⟩ :: steps)

/-- What is left after a step. -/
def Step.outcome (data : Bytes) (s : Step) : Outcome := ⟨s.read, s.result, data.drop s.stop⟩

/-- What is right about a step: it goes forward and stays in the data, by fixed-size reads that are right; it misses
bytes only where they are missing; and a fixed-size read takes the bytes between its positions, or does not move. -/
structure Step.Sound (data : Bytes) (s : Step) : Prop where
  start_le : s.start ≤ s.stop
  stop_le : s.stop ≤ data.length
  linked : Access.Linked s.start s.accesses s.stop
  accesses : ∀ a ∈ s.accesses, a.Sound data
  truncated : ∀ needed remaining, s.result = .error (.truncated needed remaining) →
    remaining < needed ∧ remaining = data.length - s.stop
  fixedSize : ∀ f, s.read.fixedSize? = some f →
    (∃ w, data.slice? s.start s.stop = some (Bytes.Block.bytes w) ∧ s.stop = s.start + f.size ∧
      s.result = .ok (f.value w)) ∨
    (data.length - s.start < f.size ∧ s.result = .error (.truncated f.size (data.length - s.start)) ∧
      s.stop = s.start)

variable {data : Bytes} {p : Nat} {reads : List Read} {steps : List Step}

theorem runnable_decoder (r : Read) : r.decoder.Runnable := by
  cases r with
  | bytes n => exact (Decoder.plain_bytes n).runnable
  | uint8 => exact Decoder.plain_uint8.runnable
  | unsigned width => exact (Decoder.plain_unsigned width).runnable
  | signed width => exact (Decoder.plain_signed width).runnable
  | uint64 => exact Decoder.plain_uint64.runnable
  | varuint32 => exact Decoder.plain_varuint32.runnable
  | varint32 => exact Decoder.plain_varint32.runnable
  | value format => exact format.plain_decoder.runnable
  | json catalog type =>
      exact Decoder.compositional_runnable.readWithin (Q := fun _ => True) (fun _ _ => trivial)
        (fun _ _ => Decoder.runnable_atEnd) (fun _ _ => Decoder.runnable_throw nofun) maxLevels trivial

theorem exists_steps (data : Bytes) (reads : List Read) {p : Nat} (hp : p ≤ data.length) :
    ∃ steps, Steps data p reads steps := by
  induction reads generalizing p with
  | nil => exact ⟨[], .nil p⟩
  | cons r reads ih =>
      obtain ⟨accesses, result, q, hrun⟩ := r.runnable_decoder data p hp
      obtain ⟨steps, hsteps⟩ := ih (hrun.within hp).2
      exact ⟨⟨r, p, accesses, result, q⟩ :: steps, .cons hrun hsteps⟩

theorem Steps.outcomes_eq (h : Steps data p reads steps) :
    steps.map (Step.outcome data) = outcomes reads (data.drop p) := by
  induction h with
  | nil p => rfl
  | cons hrun _ ih =>
      rw [List.map_cons, ih, outcomes, hrun.outcome]
      rfl

/-- Every step is right, however the steps before it ended. -/
theorem Steps.sound (h : Steps data p reads steps) (hp : p ≤ data.length) : ∀ s ∈ steps, s.Sound data := by
  induction h with
  | nil p => exact List.forall_mem_nil _
  | @cons r p q accesses result reads steps hrun _ ih =>
      obtain ⟨hle, hq⟩ := hrun.within hp
      have hfixed : ∀ f, r.fixedSize? = some f → f.decoder.Run data p accesses result q := by
        intro f hf
        rwa [← decoder_of_fixedSize hf]
      refine List.forall_mem_cons.mpr ⟨⟨hle, hq, hrun.linked, hrun.sound, ?_, ?_⟩, ih hq⟩
      · exact fun needed remaining hresult => hrun.truncated hresult
      · exact fun f hf => FixedSize.run_cases hp (hfixed f hf)

theorem Steps.pairwise_stop (h : Steps data p reads steps) (hp : p ≤ data.length) :
    (p :: steps.map Step.stop).Pairwise (· ≤ ·) := by
  induction h with
  | nil p => exact List.pairwise_singleton _ p
  | cons hrun _ ih =>
      obtain ⟨hle, hq⟩ := hrun.within hp
      have hrest := ih hq
      refine List.pairwise_cons.mpr ⟨List.forall_mem_cons.mpr ⟨hle, fun stop hstop => ?_⟩, hrest⟩
      exact Nat.le_trans hle ((List.pairwise_cons.mp hrest).1 stop hstop)

theorem Steps.map_stop (h : Steps data p reads steps) (hp : p ≤ data.length) :
    steps.map Step.stop = (outcomes reads (data.drop p)).map fun o => data.length - o.rest.length := by
  rw [← h.outcomes_eq, List.map_map]
  refine List.map_congr_left fun s hs => ?_
  have hstop := (h.sound hp s hs).stop_le
  show s.stop = data.length - (data.drop s.stop).length
  rw [List.length_drop]
  omega

/-- Whatever is read off a byte string in whatever order: no number of bytes left is negative and no slice is out of
range, as otherwise there were no steps. The steps come to what the readers come to one after the other; their
positions never go back; and each step is right. -/
theorem positions_in_data (data : Bytes) (reads : List Read) :
    (∃ steps, Steps data 0 reads steps) ∧
      ∀ steps, Steps data 0 reads steps →
        steps.map (Step.outcome data) = outcomes reads data ∧ (steps.map Step.stop).Pairwise (· ≤ ·) ∧
          ∀ s ∈ steps, s.Sound data := by
  refine ⟨exists_steps data reads (Nat.zero_le _), fun steps hsteps => ⟨hsteps.outcomes_eq, ?_, ?_⟩⟩
  · exact (List.pairwise_cons.mp (hsteps.pairwise_stop (Nat.zero_le _))).2
  · exact hsteps.sound (Nat.zero_le _)

/-- A byte that is no flag, a text that is none, a number, a vector of which one item is there, and one byte more. -/
def sampleData : Bytes := [2, 1, 0xff, 0xff, 0xe8, 0x07, 1, 0, 0, 0, 9]

/-- A schema that declares nothing. -/
def sampleCatalog : Catalog := ⟨"eosio::abi/1.0", builtinLayouts, []⟩

/-- Five of these seven reads fail. -/
def sampleReads : List Read :=
  [.value .bool, .bytes 0xffffffffffffffff, .value .string, .signed 1, .value (.vector .uint32),
    .json sampleCatalog "uint8?", .json sampleCatalog "uint8[]$"]

theorem positions_in_data_sample : ∃ steps, Steps sampleData 0 sampleReads steps ∧
    steps.map Step.stop = [1, 1, 3, 4, 10, 11, 11] ∧ ∀ s ∈ steps, s.Sound sampleData := by
  obtain ⟨⟨steps, hsteps⟩, hright⟩ := positions_in_data sampleData sampleReads
  obtain ⟨-, -, hsound⟩ := hright steps hsteps
  refine ⟨steps, hsteps, ?_, hsound⟩
  rw [hsteps.map_stop (Nat.zero_le _)]
  decide +kernel

end Read

end StateHistory
