import StateHistory.Proofs.Frame.Agreement
import StateHistory.Proofs.Frame.Tags

/-! # What a node reads of a request

A node reads a request by its schema. Where the schema declares the requests as the protocol does
(`Frame.Serves`), it finds in a frame what the client put there: the type of the request and all of its
fields, under their names (`Frame.encodeRequest_read`). -/

namespace StateHistory.Frame

open Schema

/-! ### The layouts of requests -/

/-- The struct of a request for the status. -/
def statusRequestStruct : StructDef := ⟨"get_status_request_v0", "", []⟩

/-- The struct of a request for blocks. -/
def blocksRequestStruct : StructDef where
  name := "get_blocks_request_v0"
  base := ""
  fields := [⟨"start_block_num", "uint32"⟩, ⟨"end_block_num", "uint32"⟩, ⟨"max_messages_in_flight", "uint32"⟩,
    ⟨"have_positions", "block_position[]"⟩, ⟨"irreversible_only", "bool"⟩, ⟨"fetch_block", "bool"⟩,
    ⟨"fetch_traces", "bool"⟩, ⟨"fetch_deltas", "bool"⟩]

/-- The struct of an acknowledgement. -/
def acknowledgementStruct : StructDef := ⟨"get_blocks_ack_request_v0", "", [⟨"num_messages", "uint32"⟩]⟩

/-- The struct of a request. -/
def requestStruct : Request → StructDef
  | .status => statusRequestStruct
  | .blocks _ => blocksRequestStruct
  | .acknowledge _ => acknowledgementStruct

/-- A catalog has the structs of the protocol that a request is made of. -/
structure Serves (c : Catalog) (r : Request) : Prop where
  position : c.find? positionStruct.name = some (.struct positionStruct.ownFields)
  request : c.find? r.typeName = some (.struct (requestStruct r).ownFields)

theorem ownFields_blocksRequest : blocksRequestStruct.ownFields =
    [⟨"start_block_num", .named "uint32"⟩, ⟨"end_block_num", .named "uint32"⟩,
      ⟨"max_messages_in_flight", .named "uint32"⟩, ⟨"have_positions", .array (.named "block_position")⟩,
      ⟨"irreversible_only", .named "bool"⟩, ⟨"fetch_block", .named "bool"⟩, ⟨"fetch_traces", .named "bool"⟩,
      ⟨"fetch_deltas", .named "bool"⟩] := by
  decide +kernel

theorem ownFields_acknowledgement : acknowledgementStruct.ownFields = [⟨"num_messages", .named "uint32"⟩] := by
  decide +kernel

section Serves

variable {d : Document} {c : Catalog} {cases : List TypeRef} {r : Request}

theorem readWithin_bool (hd : Catalog.ofDocument d = .ok c) (levels : Nat) :
    c.readWithin (levels + 1) (.named "bool") = Json.bool <$> Decoder.bool := by
  rw [Catalog.readWithin_builtin hd .bool (by decide), Builtin.decoder_bool]

theorem readWithin_statusRequest (hc : Serves c .status) (levels : Nat) :
    c.readWithin (levels + 1) (.named "get_status_request_v0") = pure (Json.ofMembers []) := by
  have hfind : c.find? "get_status_request_v0" = _ := hc.request
  rw [Catalog.readWithin, hfind]
  rfl

theorem readWithin_blocksRequest (hd : Catalog.ofDocument d = .ok c) {b : BlocksRequest}
    (hc : Serves c (.blocks b)) (levels : Nat) :
    c.readWithin (levels + 4) (.named "get_blocks_request_v0") =
      BlocksRequest.toJson <$> BlocksRequest.decoder := by
  have hfind : c.find? "get_blocks_request_v0" = _ := hc.request
  have hpositions := Catalog.readWithin_array_of_typed (readWithin_position hd hc.position levels)
  rw [Catalog.readWithin, hfind, requestStruct, ownFields_blocksRequest]
  simp [readFields, TypeRef.isExtension, Decoder.atEnd_bind, readWithin_uint32 hd, hpositions, readWithin_bool hd,
    BlocksRequest.decoder, BlocksRequest.toJson, Json.ofMembers]

theorem readWithin_acknowledgement (hd : Catalog.ofDocument d = .ok c) {messages : UInt32}
    (hc : Serves c (.acknowledge messages)) (levels : Nat) :
    c.readWithin (levels + 2) (.named "get_blocks_ack_request_v0") =
      (fun n => Json.ofMembers [("num_messages", .ofUInt32 n)]) <$> Decoder.uint32 := by
  have hfind : c.find? "get_blocks_ack_request_v0" = _ := hc.request
  rw [Catalog.readWithin, hfind, requestStruct, ownFields_acknowledgement]
  simp [readFields, TypeRef.isExtension, Decoder.atEnd_bind, readWithin_uint32 hd, Json.ofMembers]

/-- The body of a request is read as the object of its fields. -/
theorem run_readWithin_body (hd : Catalog.ofDocument d = .ok c) (hc : Serves c r) (hr : r.Fits) (levels : Nat)
    (s : Bytes) : (c.readWithin (levels + 4) (.named r.typeName)).run (r.encodeBody ++ s) = .ok r.fieldsToJson s := by
  cases r with
  | status =>
      rw [Request.typeName, readWithin_statusRequest hc (levels + 3)]
      rfl
  | blocks b =>
      have hfields := BlocksRequest.accepts_decoder.complete (BlocksRequest.allows_encode hr) s
      rw [Request.typeName, readWithin_blocksRequest hd hc levels, map_eq_pure_bind, EStateM.run_bind]
      rw [Request.encodeBody, hfields]
      rfl
  | acknowledge messages =>
      have hfields := Decoder.recognizes_uint32.complete (v := messages) rfl s
      rw [Request.typeName, readWithin_acknowledgement hd hc (levels + 2), map_eq_pure_bind, EStateM.run_bind]
      rw [Request.encodeBody, hfields]
      rfl

/-- A request that the schema lists and declares as the protocol does is written, and the node reads all of its
frame as the request. -/
theorem encodeRequest_read (hd : Catalog.ofDocument d = .ok c)
    (hrequest : c.find? requestVariant = some (.variant cases)) (hc : Serves c r) {tag : UInt32}
    (hlisted : cases[tag.toNat]? = some (.named r.typeName)) (hr : r.Fits) :
    ∃ frame, encodeRequest (some c) r = .ok frame ∧
      (c.read (TypeRef.parse requestVariant)).outcome frame = (.ok r.toJson, []) := by
  obtain ⟨types, htypes, rfl⟩ := Catalog.exists_offers_of_find? hd hrequest
  obtain ⟨type, htype, hparse⟩ : ∃ type, types[tag.toNat]? = some type ∧ TypeRef.parse type = .named r.typeName := by
    simpa using hlisted
  obtain rfl : type = r.typeName := (TypeRef.parse_eq_named_iff.mp hparse).1
  obtain ⟨first, hfirst, hframe⟩ := encodeRequest_of_lists hd ⟨types, htypes, htype⟩
  have hcase : (types.map TypeRef.parse)[first.toNat]? = some (.named r.typeName) := by
    rw [List.getElem?_map, (Catalog.lists_iff hd htypes).mp hfirst, Option.map_some, hparse]
  refine ⟨_, hframe, Decoder.outcome_eq_ok_iff.mpr ?_⟩
  have hvariant : TypeRef.parse requestVariant = .named requestVariant := by decide +kernel
  have hlevels : maxLevels = 27 + 4 + 1 := rfl
  have hbody := run_readWithin_body hd hc hr 27 []
  rw [List.append_nil] at hbody
  rw [Catalog.read, hvariant, hlevels, Catalog.readWithin, hrequest, Request.encodeWithTag]
  simp only [EStateM.run_bind, Decoder.run_varuint32, hcase, hbody]
  rfl

end Serves

/-- A document of the protocol whose requests come late in their variant. -/
def requestsDocument : Document where
  version := "eosio::abi/1.1"
  aliases := []
  structs := [positionStruct, blocksRequestStruct, acknowledgementStruct]
  variants := [⟨requestVariant, ["bool", acknowledgementStruct.name, blocksRequestStruct.name]⟩]
  tables := []

/-- A request for the blocks from 9 on, by a client that has seen block 8. -/
def sampleBlocksRequest : Request := .blocks (.streamFrom 9 [⟨8, .fill 32 0xab⟩])

theorem encodeRequest_read_requestsDocument : ∃ c, Catalog.ofDocument requestsDocument = .ok c ∧
    ∃ frame, encodeRequest (some c) sampleBlocksRequest = .ok frame ∧
      (c.read (TypeRef.parse requestVariant)).outcome frame = (.ok sampleBlocksRequest.toJson, []) := by
  have hfacts : ((Catalog.ofDocument requestsDocument).toOption.map fun c =>
      [positionStruct.name, sampleBlocksRequest.typeName, requestVariant].map c.find?) =
      some [some (.struct positionStruct.ownFields), some (.struct (requestStruct sampleBlocksRequest).ownFields),
        some (.variant [.named "bool", .named acknowledgementStruct.name, .named sampleBlocksRequest.typeName])] := by
    decide +kernel
  obtain ⟨c, hd, hlayouts⟩ := exists_ok_of_toOption_map hfacts
  obtain ⟨hposition, hrequest, hvariant⟩ : _ ∧ _ ∧ _ := by simpa using hlayouts
  have hlisted : [TypeRef.named "bool", .named acknowledgementStruct.name, .named sampleBlocksRequest.typeName][
      (2 : UInt32).toNat]? = some (.named sampleBlocksRequest.typeName) := rfl
  have hfits : sampleBlocksRequest.Fits := show 1 < 0x100000000 by decide
  exact ⟨c, hd, encodeRequest_read hd hvariant ⟨hposition, hrequest⟩ hlisted hfits⟩

end StateHistory.Frame
