import StateHistory.Frame
import StateHistory.Proofs.Binary.Numbers
import StateHistory.Proofs.Message.Json
import StateHistory.Proofs.Schema.Grammar
import StateHistory.Proofs.Schema.Variant

/-! # Typed results and results by schema

A result can be read in two ways: by the readers of `StateHistory.Message.Encoding`, which know the fields
of a result, and by `Catalog.read`, which learns them from the schema. Where the schema declares the
results as the protocol does (`Frame.Standard`), the two make the same reads: one reader is the other
one, followed by `toJson` (`Frame.readWithin_status`, `Frame.readWithin_blocks`). -/

namespace StateHistory

open Schema

/-! ### Lists -/

namespace Decoder

variable {α β : Type}

theorem timesOnto_map (f : α → β) (d : Decoder α) (n : Nat) (read : List α) :
    timesOnto (f <$> d) n (read.map f) = List.map f <$> timesOnto d n read := by
  induction n generalizing read with
  | zero => simp [timesOnto]
  | succ n ih =>
      rw [timesOnto, timesOnto, map_bind, bind_map_left]
      congr 1
      funext v
      exact ih (v :: read)

theorem vector_map (f : α → β) (d : Decoder α) : vector (f <$> d) = List.map f <$> vector d := by
  rw [vector, vector, map_bind]
  congr 1
  funext count
  exact timesOnto_map f d count.toNat []

end Decoder

/-! ### Builtin types -/

namespace Schema.Builtin

open Decoder

theorem decoder_uint32 : uint32.decoder = Json.ofUInt32 <$> Decoder.uint32 := by
  have hvalue : ∀ w : Bytes.Block 4,
      (UInt32.ofNat (Bytes.ofLittleEndian w.bytes)).toNat = Bytes.ofLittleEndian w.bytes := by
    intro w
    have hlt := Bytes.ofLittleEndian_lt w.bytes
    rw [w.length_eq] at hlt
    exact UInt32.toNat_ofNat_of_lt' hlt
  simp [decoder, integer, natural, Decoder.uint32, unsigned, Decoder.bytes, Json.ofUInt32, hvalue]

theorem decoder_bool : bool.decoder = Json.bool <$> Decoder.bool := (map_eq_pure_bind _ _).symm

theorem decoder_bytes : bytes.decoder = Json.ofBytes <$> blob := by
  simp [decoder, hex]
  rfl

theorem decoder_checksum256 : checksum256.decoder = (fun w => Json.ofBytes w.bytes) <$> exact 32 := by
  simp [decoder, hex, Json.ofBytes, Decoder.bytes]

end Schema.Builtin

/-! ### Values by schema -/

namespace Schema.Catalog

variable {d : Document} {c : Catalog} {α : Type}

theorem find?_builtin (hd : ofDocument d = .ok c) {name : String} {type : Builtin}
    (hmem : (name, type) ∈ Builtin.table) : c.find? name = some (.builtin type) :=
  ((typesOf_ofDocument hd).find?_eq_some_iff (wellFormed_of_ofDocument hd).toWellNamed).mpr (.builtin hmem)

theorem parse_render (hd : ofDocument d = .ok c) {name : String} {layout : Layout} {t : TypeRef}
    (hfind : c.find? name = some layout) (ht : t ∈ layout.references) : TypeRef.parse t.render = t := by
  have hnames := (wellFormed_of_ofDocument hd).toWellNamed
  have hdeclares := ((typesOf_ofDocument hd).find?_eq_some_iff hnames).mp hfind
  obtain ⟨type, -, rfl⟩ := hdeclares.exists_reference hnames ht
  rw [TypeRef.render_parse]

theorem readWithin_builtin (hd : ofDocument d = .ok c) {name : String} (type : Builtin)
    (hmem : (name, type) ∈ Builtin.table) (levels : Nat) :
    c.readWithin (levels + 1) (.named name) = type.decoder := by
  rw [readWithin, find?_builtin hd hmem]

theorem readWithin_optional_of_typed {levels : Nat} {inner : TypeRef} {d : Decoder α} {f : α → Json}
    (hread : c.readWithin levels inner = f <$> d) :
    c.readWithin (levels + 1) (.optional inner) = Json.ofOption f <$> Decoder.option d := by
  rw [readWithin, Decoder.option, hread, map_bind]
  congr 1
  funext there
  cases there with
  | false => rfl
  | true => simp [Json.ofOption]

theorem readWithin_array_of_typed {levels : Nat} {inner : TypeRef} {d : Decoder α} {f : α → Json}
    (hread : c.readWithin levels inner = f <$> d) :
    c.readWithin (levels + 1) (.array inner) = (fun vs => Json.array (vs.map f)) <$> Decoder.vector d := by
  rw [readWithin, hread, Decoder.vector_map]
  simp

end Schema.Catalog

namespace Frame

/-! ### The layouts of results -/

/-- The struct of a position. -/
def positionStruct : StructDef := ⟨"block_position", "", [⟨"block_num", "uint32"⟩, ⟨"block_id", "checksum256"⟩]⟩

/-- The struct of a status. -/
def statusStruct : StructDef where
  name := Result.statusType
  base := ""
  fields := [⟨"head", "block_position"⟩, ⟨"last_irreversible", "block_position"⟩,
    ⟨"trace_begin_block", "uint32"⟩, ⟨"trace_end_block", "uint32"⟩,
    ⟨"chain_state_begin_block", "uint32"⟩, ⟨"chain_state_end_block", "uint32"⟩]

/-- The struct of a block report. -/
def blocksStruct : StructDef where
  name := Result.blocksType
  base := ""
  fields := [⟨"head", "block_position"⟩, ⟨"last_irreversible", "block_position"⟩,
    ⟨"this_block", "block_position?"⟩, ⟨"prev_block", "block_position?"⟩,
    ⟨"block", "bytes?"⟩, ⟨"traces", "bytes?"⟩, ⟨"deltas", "bytes?"⟩]

/-- A catalog has the structs of the protocol. -/
structure Standard (c : Catalog) : Prop where
  position : c.find? positionStruct.name = some (.struct positionStruct.ownFields)
  status : c.find? statusStruct.name = some (.struct statusStruct.ownFields)
  blocks : c.find? blocksStruct.name = some (.struct blocksStruct.ownFields)

theorem ownFields_position : positionStruct.ownFields =
    [⟨"block_num", .named "uint32"⟩, ⟨"block_id", .named "checksum256"⟩] := by decide +kernel

theorem ownFields_status : statusStruct.ownFields =
    [⟨"head", .named "block_position"⟩, ⟨"last_irreversible", .named "block_position"⟩,
      ⟨"trace_begin_block", .named "uint32"⟩, ⟨"trace_end_block", .named "uint32"⟩,
      ⟨"chain_state_begin_block", .named "uint32"⟩, ⟨"chain_state_end_block", .named "uint32"⟩] := by
  decide +kernel

theorem ownFields_blocks : blocksStruct.ownFields =
    [⟨"head", .named "block_position"⟩, ⟨"last_irreversible", .named "block_position"⟩,
      ⟨"this_block", .optional (.named "block_position")⟩, ⟨"prev_block", .optional (.named "block_position")⟩,
      ⟨"block", .optional (.named "bytes")⟩, ⟨"traces", .optional (.named "bytes")⟩,
      ⟨"deltas", .optional (.named "bytes")⟩] := by
  decide +kernel

section Standard

variable {d : Document} {c : Catalog} {cases : List TypeRef} {frame : Bytes}

theorem readWithin_uint32 (hd : Catalog.ofDocument d = .ok c) (levels : Nat) :
    c.readWithin (levels + 1) (.named "uint32") = Json.ofUInt32 <$> Decoder.uint32 := by
  rw [Catalog.readWithin_builtin hd .uint32 (by decide), Builtin.decoder_uint32]

theorem readWithin_bytes (hd : Catalog.ofDocument d = .ok c) (levels : Nat) :
    c.readWithin (levels + 1) (.named "bytes") = Json.ofBytes <$> Decoder.blob := by
  rw [Catalog.readWithin_builtin hd .bytes (by decide), Builtin.decoder_bytes]

theorem readWithin_checksum256 (hd : Catalog.ofDocument d = .ok c) (levels : Nat) :
    c.readWithin (levels + 1) (.named "checksum256") =
      (fun w => Json.ofBytes w.bytes) <$> Decoder.exact 32 := by
  rw [Catalog.readWithin_builtin hd .checksum256 (by decide), Builtin.decoder_checksum256]

theorem readWithin_position (hd : Catalog.ofDocument d = .ok c)
    (hposition : c.find? positionStruct.name = some (.struct positionStruct.ownFields)) (levels : Nat) :
    c.readWithin (levels + 2) (.named "block_position") = BlockPosition.toJson <$> BlockPosition.decoder := by
  have hfind : c.find? "block_position" = _ := hposition
  rw [Catalog.readWithin, hfind, ownFields_position]
  simp [readFields, TypeRef.isExtension, Decoder.atEnd_bind, readWithin_uint32 hd, readWithin_checksum256 hd,
    BlockPosition.decoder, BlockPosition.toJson, Json.ofMembers]

theorem readWithin_status (hd : Catalog.ofDocument d = .ok c) (hc : Standard c) (levels : Nat) :
    c.readWithin (levels + 3) (.named Result.statusType) = ChainStatus.toJson <$> ChainStatus.decoder := by
  have hfind : c.find? Result.statusType = _ := hc.status
  rw [Catalog.readWithin, hfind, ownFields_status]
  simp [readFields, TypeRef.isExtension, Decoder.atEnd_bind, readWithin_uint32 hd, readWithin_position hd hc.position,
    ChainStatus.decoder, BlockRange.decoder, ChainStatus.toJson, Json.ofMembers]

theorem readWithin_blocks (hd : Catalog.ofDocument d = .ok c) (hc : Standard c) (levels : Nat) :
    c.readWithin (levels + 4) (.named Result.blocksType) = BlockReport.toJson <$> BlockReport.decoder := by
  have hfind : c.find? Result.blocksType = _ := hc.blocks
  have hposition := Catalog.readWithin_optional_of_typed (readWithin_position hd hc.position levels)
  have hbytes := Catalog.readWithin_optional_of_typed (readWithin_bytes hd (levels + 1))
  rw [Catalog.readWithin, hfind, ownFields_blocks]
  simp [readFields, TypeRef.isExtension, Decoder.atEnd_bind, readWithin_position hd hc.position, hposition, hbytes,
    BlockReport.decoder, BlockReport.toJson, Json.ofMembers]

/-! ### Results -/

/-- The tag of a frame selects none but the types of results. -/
def Supported (cases : List TypeRef) (frame : Bytes) : Prop :=
  ∀ tag rest case, Decoder.varuint32.run frame = .ok tag rest → cases[tag.toNat]? = some case →
    case.render = Result.statusType ∨ case.render = Result.blocksType

theorem readWithin_body (hd : Catalog.ofDocument d = .ok c) (hc : Standard c) {case : TypeRef}
    (hparse : TypeRef.parse case.render = case)
    (hcase : case.render = Result.statusType ∨ case.render = Result.blocksType) (levels : Nat) :
    (do return Json.array [.string case.render, ← c.readWithin (levels + 4) case]) =
      Result.toJson <$> bodyDecoder case.render := by
  rcases hcase with h | h
  · have hstatus : case = .named Result.statusType := by
      rw [← hparse, h]
      decide +kernel
    rw [h, bodyDecoder, if_pos rfl, hstatus, readWithin_status hd hc (levels + 1)]
    simp [Result.toJson, Result.typeName]
  · have hblocks : case = .named Result.blocksType := by
      rw [← hparse, h]
      decide +kernel
    rw [h, bodyDecoder, if_neg (by decide +kernel), if_pos rfl, hblocks, readWithin_blocks hd hc levels]
    simp [Result.toJson, Result.typeName]

theorem variantCase_eq (hd : Catalog.ofDocument d = .ok c) (hresult : c.find? resultVariant = some (.variant cases))
    (tag : UInt32) : c.variantCase resultVariant tag = match cases[tag.toNat]? with
      | some case => .ok case
      | none => .error (.invalidVariantIndex resultVariant tag) := by
  have hcases := (Catalog.variantCases_eq_ok_iff_offers hd).mpr (Catalog.exists_offers_of_find? hd hresult)
  rw [Catalog.variantCase, hcases]
  rfl

/-- The typed reader of a frame is the one that learns from the schema, up to `toJson`. -/
theorem run_read (hd : Catalog.ofDocument d = .ok c) (hc : Standard c)
    (hresult : c.find? resultVariant = some (.variant cases)) (hsupported : Supported cases frame) :
    (c.read (TypeRef.parse resultVariant)).run frame = (Result.toJson <$> resultDecoder c).run frame := by
  have hparse : TypeRef.parse resultVariant = .named resultVariant := by decide +kernel
  have hlevels : maxLevels = 27 + 4 + 1 := rfl
  rw [Catalog.read, hparse, hlevels, Catalog.readWithin, hresult, resultDecoder, map_bind]
  simp only [EStateM.run_bind]
  cases htag : Decoder.varuint32.run frame with
  | error e rest => rfl
  | ok tag rest =>
      dsimp only
      rw [variantCase_eq hd hresult]
      cases hcase : cases[tag.toNat]? with
      | none => rfl
      | some case =>
          have hmem : case ∈ (Layout.variant cases).references := List.mem_of_getElem? hcase
          have hrender := Catalog.parse_render hd hresult hmem
          dsimp only
          rw [readWithin_body hd hc hrender (hsupported tag rest case htag hcase)]

/-- Of a frame whose tag selects no other type, the typed reader and the one that learns from the schema make
the same result, or fail for the same reason. -/
theorem decodeResult_agrees (hd : Catalog.ofDocument d = .ok c) (hc : Standard c)
    (hresult : c.find? resultVariant = some (.variant cases)) (hsupported : Supported cases frame) :
    (∀ m, (∃ log, decodeResult c frame = .ok (m, log)) ↔ c.toJson resultVariant frame = .ok m.toJson) ∧
      ∀ e, decodeResult c frame = .error e ↔ c.toJson resultVariant frame = .error e := by
  have hread := run_read hd hc hresult hsupported
  rw [map_eq_pure_bind, EStateM.run_bind] at hread
  rw [Catalog.toJson, Decoder.decode, Decoder.outcome, hread, decodeResult, Decoder.outcome]
  cases (resultDecoder c).run frame with
  | error e rest => simp
  | ok m rest => cases rest <;> simp [Result.toJson_injective.eq_iff]

end Standard

/-- A document of the protocol, with the results in another order than usual. -/
def resultsDocument : Document where
  version := "eosio::abi/1.1"
  aliases := []
  structs := [positionStruct, statusStruct, blocksStruct]
  variants := [⟨resultVariant, [Result.blocksType, Result.statusType]⟩]
  tables := []

/-- A status of a node that retains four hundred blocks. -/
def sampleStatus : ChainStatus := ⟨⟨500, .fill 32 0xab⟩, ⟨480, .fill 32 0xcd⟩, ⟨100, 500⟩, ⟨0, 0⟩⟩

theorem agrees_resultsDocument : ∃ c, Catalog.ofDocument resultsDocument = .ok c ∧
    (∃ log, decodeResult c (1 :: sampleStatus.encode) = .ok (.status sampleStatus, log)) ∧
      c.toJson resultVariant (1 :: sampleStatus.encode) = .ok (Result.status sampleStatus).toJson := by
  have hfacts : ((Catalog.ofDocument resultsDocument).toOption.map fun c =>
      ([positionStruct.name, statusStruct.name, blocksStruct.name, resultVariant].map c.find?,
        decodeResult c (1 :: sampleStatus.encode))) =
      some ([some (.struct positionStruct.ownFields), some (.struct statusStruct.ownFields),
        some (.struct blocksStruct.ownFields),
        some (.variant [.named Result.blocksType, .named Result.statusType])],
        .ok (.status sampleStatus, [])) := by decide +kernel
  obtain ⟨c, hd, hfound⟩ := exists_ok_of_toOption_map hfacts
  obtain ⟨hlayouts, hdecoded⟩ := Prod.mk.inj hfound
  obtain ⟨hposition, hstatus, hblocks, hresult⟩ : _ ∧ _ ∧ _ ∧ _ := by simpa using hlayouts
  have hsupported : Supported [.named Result.blocksType, .named Result.statusType] (1 :: sampleStatus.encode) := by
    intro tag rest case _ hcase
    rcases List.mem_pair.mp (List.mem_of_getElem? hcase) with rfl | rfl
    · exact .inr rfl
    · exact .inl rfl
  obtain ⟨hagrees, -⟩ := decodeResult_agrees hd ⟨hposition, hstatus, hblocks⟩ hresult hsupported
  have hmessage : ∃ log, decodeResult c (1 :: sampleStatus.encode) = .ok (.status sampleStatus, log) :=
    ⟨[], hdecoded⟩
  exact ⟨c, hd, hmessage, (hagrees (.status sampleStatus)).mp hmessage⟩

end Frame

end StateHistory
