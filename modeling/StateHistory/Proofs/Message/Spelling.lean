import StateHistory.Message.Encoding
import StateHistory.Proofs.Binary.Spelling

/-! # Ways to write a message

Positions and statuses have one form. A block report has one for every form of the lengths of its payloads,
and a request one for every form of its tag and of the number of its positions. The readers of
`StateHistory.Message.Encoding` accept exactly these forms, and the writers write the shortest ones. -/

namespace StateHistory

open Decoder

/-! ### Positions and statuses -/

theorem BlockPosition.accepts_decoder : decoder.Accepts fun p => .exactly p.encode := by
  simp only [Accepts, encode, Spelling.exactly_append]
  refine accepts_record (recognizes_uint32.accepts.field fun _ => (recognizes_exact 32).accepts.last fun p _ => ?_)
  cases p
  simp only [true_and, mk.injEq]

theorem BlockRange.accepts_decoder : decoder.Accepts fun r => .exactly r.encode := by
  have hnumber := recognizes_uint32.accepts
  simp only [Accepts, encode, Spelling.exactly_append]
  refine accepts_record (hnumber.field fun _ => hnumber.last fun r _ => ?_)
  cases r
  simp only [true_and, mk.injEq]

theorem ChainStatus.accepts_decoder : decoder.Accepts fun s => .exactly s.encode := by
  have hposition := BlockPosition.accepts_decoder
  have hrange := BlockRange.accepts_decoder
  simp only [Accepts, encode, Spelling.exactly_append, Spelling.append_assoc]
  refine accepts_record (hposition.field fun _ => hposition.field fun _ => hrange.field fun _ =>
    hrange.last fun s _ => ?_)
  cases s
  simp only [true_and, and_assoc, mk.injEq]

/-! ### Results -/

namespace BlockReport

/-- The forms of a block report. -/
def spelling (r : BlockReport) : Spelling :=
  .exactly (r.head.encode ++ r.lastIrreversible.encode)
    ++ .option (fun p => .exactly p.encode) r.block
    ++ .option (fun p => .exactly p.encode) r.previous
    ++ .option .blob r.signedBlock
    ++ .option .blob r.traces
    ++ .option .blob r.deltas

/-- The lengths of all payloads have a place in the format. -/
structure Fits (r : BlockReport) : Prop where
  signedBlock : ∀ bs ∈ r.signedBlock, bs.length < 0x100000000
  traces : ∀ bs ∈ r.traces, bs.length < 0x100000000
  deltas : ∀ bs ∈ r.deltas, bs.length < 0x100000000

theorem accepts_decoder : decoder.Accepts spelling := by
  have hposition := BlockPosition.accepts_decoder
  have hplace := hposition.option
  have hpayload := accepts_blob.option
  simp only [Accepts, spelling, Spelling.exactly_append, Spelling.append_assoc]
  refine accepts_record (hposition.field fun _ => hposition.field fun _ => hplace.field fun _ =>
    hplace.field fun _ => hpayload.field fun _ => hpayload.field fun _ => hpayload.last fun r _ => ?_)
  cases r
  simp only [true_and, and_assoc, mk.injEq]

theorem allows_encode {r : BlockReport} (h : r.Fits) : r.spelling.Allows r.encode := by
  have hplace : ∀ o : Option BlockPosition,
      (Spelling.option (fun p => .exactly p.encode) o).Allows (Encoder.option BlockPosition.encode o) :=
    fun o => Spelling.allows_option fun p _ => Spelling.allows_exactly p.encode
  have hpayload : ∀ o : Option Bytes, (∀ bs ∈ o, bs.length < 0x100000000) →
      (Spelling.option .blob o).Allows (Encoder.option Encoder.blob o) :=
    fun o ho => Spelling.allows_option fun bs hbs => Spelling.allows_blob (ho bs hbs)
  have hplaces := ((Spelling.allows_exactly (r.head.encode ++ r.lastIrreversible.encode)).append
    (hplace r.block)).append (hplace r.previous)
  exact ((hplaces.append (hpayload _ h.signedBlock)).append (hpayload _ h.traces)).append (hpayload _ h.deltas)

theorem shortens_encode (r : BlockReport) : r.spelling.Shortens r.encode := by
  have hplace := Spelling.shortens_option (S := fun p : BlockPosition => .exactly p.encode)
    fun p => Spelling.shortens_exactly p.encode
  have hpayload := Spelling.shortens_option Spelling.shortens_blob
  have hplaces := ((Spelling.shortens_exactly (r.head.encode ++ r.lastIrreversible.encode)).append
    (hplace r.block)).append (hplace r.previous)
  exact ((hplaces.append (hpayload r.signedBlock)).append (hpayload r.traces)).append (hpayload r.deltas)

end BlockReport

namespace Result

/-- The forms of a result without its tag. -/
def bodySpelling : Result → Spelling
  | status s => .exactly s.encode
  | blocks r => r.spelling

/-- The lengths of all payloads have a place in the format. -/
def Fits : Result → Prop
  | blocks r => r.Fits
  | _ => True

theorem allows_encodeBody {m : Result} (h : m.Fits) : m.bodySpelling.Allows m.encodeBody := by
  cases m with
  | status s => exact Spelling.allows_exactly _
  | blocks r => exact BlockReport.allows_encode h

end Result

/-! ### Requests -/

namespace BlocksRequest

/-- The forms of a request for blocks. -/
def spelling (r : BlocksRequest) : Spelling :=
  .exactly (Encoder.uint32 r.start ++ Encoder.uint32 r.stop ++ Encoder.uint32 r.maxMessagesInFlight)
    ++ .vector (fun p => .exactly p.encode) r.havePositions
    ++ .exactly (Encoder.bool r.irreversibleOnly) ++ .exactly (Encoder.bool r.fetchBlock)
    ++ .exactly (Encoder.bool r.fetchTraces) ++ .exactly (Encoder.bool r.fetchDeltas)

/-- The number of positions has a place in the format. -/
def Fits (r : BlocksRequest) : Prop := r.havePositions.length < 0x100000000

theorem accepts_decoder : decoder.Accepts spelling := by
  have hnumber := recognizes_uint32.accepts
  have hpositions := BlockPosition.accepts_decoder.vector
  have hbool : bool.Accepts fun b => .exactly (Encoder.bool b) := recognizes_bool.accepts
  simp only [Accepts, spelling, Spelling.exactly_append, Spelling.append_assoc]
  refine accepts_record (hnumber.field fun _ => hnumber.field fun _ => hnumber.field fun _ =>
    hpositions.field fun _ => hbool.field fun _ => hbool.field fun _ => hbool.field fun _ => hbool.last fun r _ => ?_)
  cases r
  simp only [true_and, and_assoc, mk.injEq]

theorem allows_encode {r : BlocksRequest} (h : r.Fits) : r.spelling.Allows r.encode := by
  have hpositions : (Spelling.vector (fun p => .exactly p.encode) r.havePositions).Allows
      (Encoder.vector BlockPosition.encode r.havePositions) :=
    Spelling.allows_vector h fun p _ => Spelling.allows_exactly p.encode
  have hbounds := (Spelling.allows_exactly
    (Encoder.uint32 r.start ++ Encoder.uint32 r.stop ++ Encoder.uint32 r.maxMessagesInFlight)).append hpositions
  exact (((hbounds.append (Spelling.allows_exactly _)).append (Spelling.allows_exactly _)).append
    (Spelling.allows_exactly _)).append (Spelling.allows_exactly _)

theorem shortens_encode (r : BlocksRequest) : r.spelling.Shortens r.encode := by
  have hpositions := Spelling.shortens_vector (S := fun p : BlockPosition => .exactly p.encode)
    (fun p => Spelling.shortens_exactly p.encode) r.havePositions
  have hbounds := (Spelling.shortens_exactly
    (Encoder.uint32 r.start ++ Encoder.uint32 r.stop ++ Encoder.uint32 r.maxMessagesInFlight)).append hpositions
  exact (((hbounds.append (Spelling.shortens_exactly _)).append (Spelling.shortens_exactly _)).append
    (Spelling.shortens_exactly _)).append (Spelling.shortens_exactly _)

end BlocksRequest

namespace Request

/-- The forms of a request without its tag. -/
def bodySpelling : Request → Spelling
  | status => .exactly []
  | blocks r => r.spelling
  | acknowledge messages => .exactly (Encoder.uint32 messages)

/-- The forms of a request with its canonical tag. -/
def spelling (r : Request) : Spelling := .number r.canonicalTag.toNat ++ r.bodySpelling

/-- The number of positions has a place in the format. -/
def Fits : Request → Prop
  | blocks r => r.Fits
  | _ => True

theorem accepts_decoder : decoder.Accepts spelling := by
  refine (accepts_number.bind (H := fun tag w r => r.canonicalTag = tag ∧ r.bodySpelling.Allows w)
    fun tag => ?_).of_iff fun w r => ?_
  · split
    · rename_i htag
      refine (Recognizes.pure _).of_iff fun w r => ?_
      cases r <;> simp [canonicalTag, bodySpelling, htag, Spelling.allows_exactly_iff]
    split
    · rename_i htag
      refine (BlocksRequest.accepts_decoder.map blocks).of_iff fun w r => ?_
      cases r <;> simp [canonicalTag, bodySpelling, htag]
    split
    · rename_i htag
      refine (recognizes_uint32.map acknowledge).of_iff fun w r => ?_
      cases r <;> simp [canonicalTag, bodySpelling, htag, Spelling.allows_exactly_iff]
    · rename_i hstatus hblocks hacknowledge
      refine (Recognizes.throw _).of_iff fun w r => ?_
      cases r <;> simp [canonicalTag, Ne.symm hstatus, Ne.symm hblocks, Ne.symm hacknowledge]
  · rw [spelling, Spelling.allows_append_iff]
    constructor
    · rintro ⟨_, w₁, w₂, rfl, hw₁, rfl, hw₂⟩
      exact ⟨w₁, w₂, hw₁, hw₂, rfl⟩
    · rintro ⟨w₁, w₂, hw₁, hw₂, rfl⟩
      exact ⟨_, w₁, w₂, rfl, hw₁, rfl, hw₂⟩

theorem count_canonicalTag (r : Request) : Encoder.count r.canonicalTag.toNat = Encoder.varuint32 r.canonicalTag := by
  rw [Encoder.count, UInt32.ofNat_toNat]

theorem allows_encode {r : Request} (h : r.Fits) : r.spelling.Allows r.encode := by
  have hbody : r.bodySpelling.Allows r.encodeBody := by
    cases r with
    | status => exact Spelling.allows_exactly []
    | blocks r => exact BlocksRequest.allows_encode h
    | acknowledge messages => exact Spelling.allows_exactly _
  exact (Spelling.allows_varuint32 r.canonicalTag).append hbody

theorem shortens_encode (r : Request) : r.spelling.Shortens r.encode := by
  have hbody : r.bodySpelling.Shortens r.encodeBody := by
    cases r with
    | status => exact Spelling.shortens_exactly []
    | blocks r => exact r.shortens_encode
    | acknowledge messages => exact Spelling.shortens_exactly _
  rw [encode, encodeWithTag, ← count_canonicalTag]
  exact (Spelling.shortens_number _).append hbody

end Request

end StateHistory
