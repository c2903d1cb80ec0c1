import Mathlib.Data.List.Basic
import StateHistory.Schema.Builtin

/-! # What all readers have in common

Readers are put together of fixed-size reads (`Decoder.Plain`), and so the readers of all builtin types are
(`Schema.Builtin.plain_decoder`). Two things follow. A plain reader goes forward: what it leaves is the end of its
input, whether it succeeds or fails, and it fails only for what is wrong with its input (`Decoder.Forward`). And it
is local: a value is read from a first part of the input, whatever follows that part, and a shorter part is too
short for it (`Decoder.Local`). What plain readers have and sequencing keeps is found again in whatever is put
together of them (`Decoder.Compositional`). -/

namespace StateHistory

/-- What can be wrong with an input of which `rest` is left. A read that asks for too many bytes says how
many there are. -/
inductive ProtocolError.Arises : ProtocolError → Bytes → Prop
  | truncated {needed : Nat} {rest : Bytes} : rest.length < needed → Arises (.truncated needed rest.length) rest
  | invalidBool {byte : UInt8} {rest : Bytes} : Arises (.invalidBool byte) rest
  | varintOverflow {rest : Bytes} : Arises .varintOverflow rest
  | invalidUtf8 {rest : Bytes} : Arises .invalidUtf8 rest
  | invalidVariantIndex {variant : String} {index : UInt32} {rest : Bytes} :
      Arises (.invalidVariantIndex variant index) rest
  | recursionLimit {rest : Bytes} : Arises .recursionLimit rest

namespace Decoder

variable {α β : Type}

/-! ### Outcomes -/

theorem outcome_eq_ok_iff {d : Decoder α} {input rest : Bytes} {v : α} :
    d.outcome input = (.ok v, rest) ↔ d.run input = .ok v rest := by
  rw [outcome]
  cases d.run input <;> simp

theorem outcome_eq_error_iff {d : Decoder α} {input rest : Bytes} {e : ProtocolError} :
    d.outcome input = (.error e, rest) ↔ d.run input = .error e rest := by
  rw [outcome]
  cases d.run input <;> simp

/-! ### Going forward -/

/-- What a reader leaves is the end of its input, and its failures are as described. -/
structure Forward (Failure : ProtocolError → Bytes → Prop) (d : Decoder α) : Prop where
  of_ok : ∀ {input v rest}, d.run input = .ok v rest → rest <:+ input
  of_error : ∀ {input e rest}, d.run input = .error e rest → rest <:+ input ∧ Failure e rest

section Forward

variable {Failure : ProtocolError → Bytes → Prop} {d : Decoder α} {f : α → Decoder β}

theorem Forward.pure (v : α) : (Pure.pure v : Decoder α).Forward Failure where
  of_ok := by
    rintro input v rest ⟨⟩
    exact List.suffix_rfl
  of_error := by
    rintro input e rest ⟨⟩

theorem Forward.throw {e : ProtocolError} (h : ∀ rest, Failure e rest) :
    (MonadExcept.throw e : Decoder α).Forward Failure where
  of_ok := by
    rintro input v rest ⟨⟩
  of_error := by
    rintro input e rest ⟨⟩
    exact ⟨List.suffix_rfl, h _⟩

theorem Forward.bind (hd : d.Forward Failure) (hf : ∀ v, (f v).Forward Failure) :
    (d >>= f).Forward Failure := by
  constructor
  · intro input v rest h
    rw [EStateM.run_bind] at h
    split at h
    · rename_i hrun
      exact ((hf _).of_ok h).trans (hd.of_ok hrun)
    · cases h
  · intro input e rest h
    rw [EStateM.run_bind] at h
    split at h
    · rename_i hrun
      obtain ⟨hsuffix, hfailure⟩ := (hf _).of_error h
      exact ⟨hsuffix.trans (hd.of_ok hrun), hfailure⟩
    · rename_i hrun
      obtain ⟨rfl, rfl⟩ := EStateM.Result.error.inj h
      exact hd.of_error hrun

theorem forward_atEnd : atEnd.Forward Failure where
  of_ok := by
    rintro input v rest ⟨⟩
    exact List.suffix_rfl
  of_error := by
    rintro input e rest ⟨⟩

end Forward

/-! ### Locality -/

/-- A byte string is read as a value, whatever follows it, and is long enough for that only as a whole. -/
structure Reads (d : Decoder α) (w : Bytes) (v : α) : Prop where
  run_append : ∀ s, d.run (w ++ s) = .ok v s
  run_short : ∀ p s, w = p ++ s → s ≠ [] →
    ∃ needed remaining rest, d.run p = .error (.truncated needed remaining) rest

/-- Whatever is read is read from a first part of the input. -/
def Local (d : Decoder α) : Prop :=
  ∀ input v rest, d.run input = .ok v rest → ∃ w, input = w ++ rest ∧ d.Reads w v

section Local

variable {d : Decoder α} {f : α → Decoder β}

theorem Reads.pure (v : α) : (Pure.pure v : Decoder α).Reads [] v where
  run_append := fun _ => rfl
  run_short := by
    intro p s h hs
    exact absurd (List.append_eq_nil_iff.mp h.symm).2 hs

theorem Reads.bind {w w' : Bytes} {v : α} {v' : β} (h : d.Reads w v) (h' : (f v).Reads w' v') :
    (d >>= f).Reads (w ++ w') v' := by
  constructor
  · intro s
    rw [EStateM.run_bind, List.append_assoc, h.run_append]
    exact h'.run_append s
  · intro p s hsplit hs
    rw [EStateM.run_bind]
    rcases List.append_eq_append_iff.mp hsplit with ⟨p', rfl, hrest⟩ | ⟨s', rfl, hrest⟩
    · rw [h.run_append]
      exact h'.run_short p' s hrest hs
    · by_cases hnil : s' = []
      · subst hnil
        rw [List.append_nil] at h
        have hempty := h.run_append []
        rw [List.append_nil] at hempty
        rw [hempty]
        exact h'.run_short [] s (by simpa using hrest.symm) hs
      · obtain ⟨needed, remaining, rest, hrun⟩ := h.run_short p s' rfl hnil
        rw [hrun]
        exact ⟨needed, remaining, rest, rfl⟩

/-- A reader that is local reads a byte string whatever follows if it reads it to its end. -/
theorem Local.reads (h : d.Local) {w : Bytes} {v : α} (hrun : d.run w = .ok v []) : d.Reads w v := by
  obtain ⟨w', hw, hreads⟩ := h w v [] hrun
  rw [List.append_nil] at hw
  rwa [hw]

theorem Local.pure (v : α) : (Pure.pure v : Decoder α).Local := by
  rintro input v rest ⟨⟩
  exact ⟨[], rfl, .pure v⟩

theorem Local.throw (e : ProtocolError) : (MonadExcept.throw e : Decoder α).Local := by
  rintro input v rest ⟨⟩

theorem Local.bind (hd : d.Local) (hf : ∀ v, (f v).Local) : (d >>= f).Local := by
  intro input v rest h
  rw [EStateM.run_bind] at h
  split at h
  · rename_i v₁ middle hrun
    obtain ⟨w, rfl, hw⟩ := hd _ _ _ hrun
    obtain ⟨w', rfl, hw'⟩ := hf _ _ _ _ h
    exact ⟨w ++ w', (List.append_assoc ..).symm, hw.bind hw'⟩
  · cases h

/-- A value that is read is read from every input with the same first part, and from less than that part
nothing is read for lack of bytes. -/
theorem Local.outcome (h : d.Local) {input rest : Bytes} {v : α} (hread : d.outcome input = (.ok v, rest)) :
    ∃ w, input = w ++ rest ∧ (∀ s, d.outcome (w ++ s) = (.ok v, s)) ∧
      ∀ p, p <+: w → p ≠ w → ∃ needed remaining left, d.outcome p = (.error (.truncated needed remaining), left) := by
  simp only [outcome_eq_ok_iff, outcome_eq_error_iff] at hread ⊢
  obtain ⟨w, hsplit, hw⟩ := h _ _ _ hread
  refine ⟨w, hsplit, hw.run_append, fun p hp hne => ?_⟩
  obtain ⟨s, rfl⟩ := hp
  have hs : s ≠ [] := by
    rintro rfl
    exact hne (List.append_nil p).symm
  exact hw.run_short p s rfl hs

end Local

/-! ### Fixed sizes -/

theorem exact_append {n : Nat} (w : Bytes.Block n) (s : Bytes) : (exact n).run (w.bytes ++ s) = .ok w s := by
  obtain ⟨bytes, rfl⟩ := w
  simp [exact, EStateM.run, Bytes.split?, Bytes.Block.ofBytes?]

theorem exact_of_short {n : Nat} {input : Bytes} (h : input.length < n) :
    (exact n).run input = .error (.truncated n input.length) input := by
  have hmin : min n input.length ≠ n := by omega
  simp [exact, EStateM.run, Bytes.split?, Bytes.Block.ofBytes?, hmin]

theorem exact_cases (n : Nat) (input : Bytes) :
    input.length < n ∧ (exact n).run input = .error (.truncated n input.length) input ∨
      ∃ w rest, input = Bytes.Block.bytes w ++ rest ∧ (exact n).run input = .ok w rest := by
  rcases Nat.lt_or_ge input.length n with h | h
  · exact .inl ⟨h, exact_of_short h⟩
  · have hlength : (input.take n).length = n := by
      rw [List.length_take]
      omega
    have hrun := exact_append ⟨input.take n, hlength⟩ (input.drop n)
    rw [List.take_append_drop] at hrun
    exact .inr ⟨⟨input.take n, hlength⟩, input.drop n, (List.take_append_drop n input).symm, hrun⟩

theorem reads_exact {n : Nat} (w : Bytes.Block n) : (exact n).Reads w.bytes w where
  run_append := exact_append w
  run_short := by
    intro p s hw hs
    refine ⟨_, _, _, exact_of_short ?_⟩
    have hlength := congrArg List.length hw
    rw [w.length_eq, List.length_append] at hlength
    have hpos := List.length_pos_of_ne_nil hs
    omega

theorem local_exact (n : Nat) : (exact n).Local := by
  intro input v rest h
  rcases exact_cases n input with ⟨-, hrun⟩ | ⟨w, rest', hinput, hrun⟩
  · cases hrun.symm.trans h
  · obtain ⟨rfl, rfl⟩ := EStateM.Result.ok.inj (hrun.symm.trans h)
    exact ⟨w.bytes, hinput, reads_exact w⟩

theorem forward_exact (n : Nat) : (exact n).Forward ProtocolError.Arises := by
  constructor
  · intro input v rest h
    rcases exact_cases n input with ⟨-, hrun⟩ | ⟨w, rest', hinput, hrun⟩
    · cases hrun.symm.trans h
    · obtain ⟨rfl, rfl⟩ := EStateM.Result.ok.inj (hrun.symm.trans h)
      exact ⟨w.bytes, hinput.symm⟩
  · intro input e rest h
    rcases exact_cases n input with ⟨hshort, hrun⟩ | ⟨w, rest', -, hrun⟩
    · obtain ⟨rfl, rfl⟩ := EStateM.Result.error.inj (hrun.symm.trans h)
      exact ⟨List.suffix_rfl, .truncated hshort⟩
    · cases hrun.symm.trans h

theorem uint8_eq : uint8 = do return (← exact 1).bytes.headD 0 := by
  funext input
  cases input with
  | nil => rfl
  | cons b rest =>
      have hrun : (exact 1).run (b :: rest) = .ok ⟨[b], rfl⟩ rest := exact_append ⟨[b], rfl⟩ rest
      change _ = EStateM.run (do return (← exact 1).bytes.headD 0) (b :: rest)
      rw [EStateM.run_bind, hrun]
      rfl

/-! ### Plain readers -/

/-- A reader that is put together of fixed-size reads, so that it looks at nothing but what it reads. -/
inductive Plain : {α : Type} → Decoder α → Prop
  | pure {α : Type} (v : α) : Plain (Pure.pure v : Decoder α)
  | throw {α : Type} {e : ProtocolError} :
      (∀ rest, e.Arises rest) → Plain (MonadExcept.throw e : Decoder α)
  | exact (n : Nat) : Plain (exact n)
  | bind {α β : Type} {d : Decoder α} {f : α → Decoder β} :
      Plain d → (∀ v, Plain (f v)) → Plain (d >>= f)

section Plain

variable {d : Decoder α}

theorem Plain.isLocal (hd : d.Plain) : d.Local := by
  induction hd with
  | pure v => exact .pure v
  | throw _ => exact .throw _
  | exact n => exact local_exact n
  | bind _ _ ihd ihf => exact ihd.bind ihf

theorem Plain.forward (hd : d.Plain) : d.Forward ProtocolError.Arises := by
  induction hd with
  | pure v => exact .pure v
  | throw h => exact .throw h
  | exact n => exact forward_exact n
  | bind _ _ ihd ihf => exact ihd.bind ihf

theorem Plain.map (hd : d.Plain) (f : α → β) : (do return f (← d) : Decoder β).Plain :=
  hd.bind fun _ => .pure _

theorem plain_uint8 : uint8.Plain := by
  rw [uint8_eq]
  exact (Plain.exact 1).map _

theorem plain_bytes (n : Nat) : (bytes n).Plain := (Plain.exact n).map _

theorem plain_unsigned (width : Nat) : (unsigned width).Plain := (plain_bytes width).map _

theorem plain_signed (width : Nat) : (signed width).Plain := (plain_unsigned width).map _

theorem plain_uint32 : uint32.Plain := (plain_unsigned 4).map _

theorem plain_uint64 : uint64.Plain := (plain_unsigned 8).map _

theorem plain_bool : bool.Plain := by
  refine plain_uint8.bind fun b => ?_
  split
  · exact .pure _
  · split
    · exact .pure _
    · exact .throw fun _ => .invalidBool

/-! ### Variable lengths -/

theorem plain_base128 (limit : Nat) : (base128 limit).Plain := by
  induction limit with
  | zero => exact .throw fun _ => .varintOverflow
  | succ limit ih =>
      refine plain_uint8.bind fun b => ?_
      split
      · exact .pure _
      · exact ih.map _

theorem plain_varuint32 : varuint32.Plain := by
  refine (plain_base128 5).bind fun v => ?_
  split
  · exact .pure _
  · exact .throw fun _ => .varintOverflow

theorem plain_varint32 : varint32.Plain := plain_varuint32.map _

theorem plain_blob : blob.Plain := plain_varuint32.bind fun _ => plain_bytes _

theorem plain_string : string.Plain := by
  refine plain_blob.bind fun bs => ?_
  split
  · exact .pure _
  · exact .throw fun _ => .invalidUtf8

end Plain

/-! ### Composition -/

/-- A property of readers that plain ones have and that sequencing keeps. -/
structure Compositional (P : {α : Type} → Decoder α → Prop) : Prop where
  of_plain : ∀ {α : Type} {d : Decoder α}, d.Plain → P d
  bind : ∀ {α β : Type} {d : Decoder α} {f : α → Decoder β}, P d → (∀ v, P (f v)) → P (d >>= f)

theorem compositional_plain : Compositional Plain := ⟨id, Plain.bind⟩

theorem compositional_local : Compositional Local := ⟨Plain.isLocal, Local.bind⟩

theorem compositional_forward : Compositional (Forward ProtocolError.Arises) := ⟨Plain.forward, Forward.bind⟩

namespace Compositional

variable {P : {α : Type} → Decoder α → Prop} {d : Decoder α}

theorem map (hP : Compositional P) (hd : P d) (f : α → β) : P (do return f (← d)) :=
  hP.bind hd fun _ => hP.of_plain (.pure _)

theorem timesOnto (hP : Compositional P) (hd : P d) (n : Nat) (read : List α) : P (timesOnto d n read) := by
  induction n generalizing read with
  | zero => exact hP.of_plain (.pure _)
  | succ n ih => exact hP.bind hd fun v => ih (v :: read)

theorem vector (hP : Compositional P) (hd : P d) : P (vector d) :=
  hP.bind (hP.of_plain plain_varuint32) fun count => hP.timesOnto hd count.toNat []

/-- The flag of a value that may be absent, and the value if it is there. -/
theorem flagged (hP : Compositional P) (hd : P d) (absent : α) : P (do if ← bool then d else return absent) := by
  refine hP.bind (hP.of_plain plain_bool) fun there => ?_
  split
  · exact hd
  · exact hP.of_plain (.pure _)

end Compositional

theorem Plain.vector {d : Decoder α} (hd : d.Plain) : (vector d).Plain := compositional_plain.vector hd

theorem Plain.option {d : Decoder α} (hd : d.Plain) : (option d).Plain :=
  compositional_plain.flagged (hd.map some) none

end Decoder

/-! ### Builtin types -/

theorem Asset.plain_decoder : Asset.decoder.Plain :=
  (Decoder.plain_signed 8).bind fun _ => Decoder.plain_uint64.map _

namespace Key

open Decoder

theorem plain_render (mark : String) (tag : UInt32) (bytes : Bytes) : (render mark tag bytes).Plain := by
  rw [render]
  split
  · exact .pure _
  · exact .throw fun _ => .invalidVariantIndex

theorem plain_publicDecoder : publicDecoder.Plain := by
  refine plain_varuint32.bind fun tag => (plain_bytes 33).bind fun point => ?_
  split
  · exact plain_uint8.bind fun _ => plain_string.bind fun _ => plain_render _ _ _
  · exact plain_render _ _ _

theorem plain_signatureDecoder : signatureDecoder.Plain := by
  refine plain_varuint32.bind fun tag => (plain_bytes 65).bind fun compact => ?_
  split
  · exact plain_blob.bind fun _ => plain_string.bind fun _ => plain_render _ _ _
  · exact plain_render _ _ _

end Key

namespace Schema.Builtin

open Decoder

theorem plain_natural (width : Nat) : (natural width).Plain := (plain_unsigned width).map _

theorem plain_extendedAssetDecoder : extendedAssetDecoder.Plain :=
  Asset.plain_decoder.bind fun _ => plain_uint64.map _

/-- Whatever builtin type is read, nothing but its bytes is looked at. -/
theorem plain_decoder (type : Builtin) : type.decoder.Plain := by
  cases type with
  | bool => exact plain_bool.map _
  | int8 => exact (plain_signed 1).map _
  | uint8 => exact (plain_natural 1).map _
  | int16 => exact (plain_signed 2).map _
  | uint16 => exact (plain_natural 2).map _
  | int32 => exact (plain_signed 4).map _
  | uint32 => exact (plain_natural 4).map _
  | int64 => exact (plain_signed 8).map _
  | uint64 => exact (plain_natural 8).map _
  | int128 => exact (plain_signed 16).map _
  | uint128 => exact (plain_natural 16).map _
  | varint32 => exact plain_varint32.map _
  | varuint32 => exact plain_varuint32.map _
  | float32 => exact plain_uint32.map _
  | float64 => exact plain_uint64.map _
  | float128 => exact (plain_bytes 16).map _
  | timePoint => exact (plain_signed 8).map _
  | timePointSec => exact (plain_unsigned 4).map _
  | blockTimestamp => exact (plain_unsigned 4).map _
  | name => exact plain_uint64.map _
  | bytes => exact plain_blob.map _
  | string => exact plain_string.map _
  | checksum160 => exact (plain_bytes 20).map _
  | checksum256 => exact (plain_bytes 32).map _
  | checksum512 => exact (plain_bytes 64).map _
  | publicKey => exact Key.plain_publicDecoder.map _
  | signature => exact Key.plain_signatureDecoder.map _
  | symbolCode => exact plain_uint64.map _
  | symbol => exact plain_uint64.map _
  | asset => exact Asset.plain_decoder.map _
  | extendedAsset => exact plain_extendedAssetDecoder

end Schema.Builtin

end StateHistory
