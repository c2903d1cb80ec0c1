import StateHistory.Message.Encoding
import StateHistory.Proofs.Binary.Reading

/-! # Messages are read plainly

The readers of messages look at nothing but what they read, and fail for nothing but what is wrong with it
(`ChainStatus.plain_decoder`, `BlockReport.plain_decoder`, `Request.plain_decoder`). -/

namespace StateHistory

open Decoder

theorem BlockPosition.plain_decoder : BlockPosition.decoder.Plain :=
  plain_uint32.bind fun _ => (Plain.exact 32).map _

theorem BlockRange.plain_decoder : BlockRange.decoder.Plain :=
  plain_uint32.bind fun _ => plain_uint32.map _

theorem ChainStatus.plain_decoder : ChainStatus.decoder.Plain :=
  BlockPosition.plain_decoder.bind fun _ => BlockPosition.plain_decoder.bind fun _ =>
    BlockRange.plain_decoder.bind fun _ => BlockRange.plain_decoder.map _

theorem BlockReport.plain_decoder : BlockReport.decoder.Plain :=
  BlockPosition.plain_decoder.bind fun _ => BlockPosition.plain_decoder.bind fun _ =>
    BlockPosition.plain_decoder.option.bind fun _ => BlockPosition.plain_decoder.option.bind fun _ =>
      plain_blob.option.bind fun _ => plain_blob.option.bind fun _ => plain_blob.option.map _

theorem BlocksRequest.plain_decoder : BlocksRequest.decoder.Plain :=
  plain_uint32.bind fun _ => plain_uint32.bind fun _ => plain_uint32.bind fun _ =>
    BlockPosition.plain_decoder.vector.bind fun _ => plain_bool.bind fun _ => plain_bool.bind fun _ =>
      plain_bool.bind fun _ => plain_bool.map _

theorem Request.plain_decoder : Request.decoder.Plain := by
  refine plain_varuint32.bind fun tag => ?_
  split
  · exact .pure _
  · split
    · exact BlocksRequest.plain_decoder.map _
    · split
      · exact plain_uint32.map _
      · exact .throw fun _ => .invalidVariantIndex

end StateHistory
