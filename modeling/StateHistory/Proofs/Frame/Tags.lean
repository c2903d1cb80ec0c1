import StateHistory.Frame
import StateHistory.Proofs.Message.Spelling
import StateHistory.Proofs.Schema.Variant

/-! # Tags

Which tag stands for which message is up to the node, whose schema lists the types of results in one variant
and the types of requests in another. A result is read under every tag at which its type is listed, and under
no other one (`Frame.recognizes_resultDecoder`). A request is written under the first tag at which its type is
listed (`Frame.encodeRequest_eq_ok_iff_isLeast`); behind the tag, its bytes are always the same. -/

namespace StateHistory.Frame

open Schema

variable {d : Document} {c : Catalog}

/-! ### Results -/

theorem statusType_ne_blocksType : Result.statusType ≠ Result.blocksType := by decide +kernel

/-- Of a result of the given type, any form is read. -/
theorem recognizes_bodyDecoder (type : String) :
    (bodyDecoder type).Recognizes fun w m => m.typeName = type ∧ m.bodySpelling.Allows w := by
  rw [bodyDecoder]
  split
  · rename_i htype
    refine (ChainStatus.accepts_decoder.map Result.status).of_iff fun w m => ?_
    cases m <;> simp [Result.typeName, Result.bodySpelling, htype, statusType_ne_blocksType.symm]
  split
  · rename_i htype
    refine (BlockReport.accepts_decoder.map Result.blocks).of_iff fun w m => ?_
    cases m <;> simp [Result.typeName, Result.bodySpelling, htype, statusType_ne_blocksType]
  · rename_i hstatus hblocks
    refine (Decoder.Recognizes.throw _).of_iff fun w m => ?_
    cases m <;> simp [Result.typeName, Ne.symm hstatus, Ne.symm hblocks]

/-- A result is a tag at which its type is listed, and any form of it. -/
theorem recognizes_resultDecoder (hd : Catalog.ofDocument d = .ok c) :
    (resultDecoder c).Recognizes fun w m => ∃ tag w₁ w₂, w = w₁ ++ w₂ ∧ (Spelling.number tag).Allows w₁ ∧
      d.Lists resultVariant tag m.typeName ∧ m.bodySpelling.Allows w₂ := by
  refine (Decoder.accepts_number.bind (H := fun tag w m =>
    d.Lists resultVariant tag.toNat m.typeName ∧ m.bodySpelling.Allows w) fun tag => ?_).of_iff fun w m => ?_
  · cases hcase : c.variantCase resultVariant tag with
    | error e =>
        refine (Decoder.Recognizes.throw e).of_iff fun w m => iff_of_false id ?_
        rintro ⟨hlisted, -⟩
        cases hcase.symm.trans ((Catalog.variantCase_eq_parse_iff hd).mpr hlisted)
    | ok case =>
        obtain ⟨type, hlisted, rfl⟩ := (Catalog.variantCase_eq_ok_iff hd).mp hcase
        refine (recognizes_bodyDecoder _).of_iff fun w m => and_congr_left fun _ => ?_
        rw [TypeRef.render_parse]
        refine ⟨?_, fun hm => Catalog.lists_unique hd hm hlisted⟩
        rintro rfl
        exact hlisted
  · constructor
    · rintro ⟨tag, w₁, w₂, rfl, htag, hm⟩
      exact ⟨_, w₁, w₂, rfl, htag, hm⟩
    · rintro ⟨_, w₁, w₂, rfl, ⟨_, ⟨tag, hrun, rfl⟩, rfl⟩, hm⟩
      exact ⟨tag, w₁, w₂, rfl, ⟨_, ⟨tag, hrun, rfl⟩, rfl⟩, hm⟩

theorem exists_decodeResult_iff {frame : Bytes} {m : Result} :
    (∃ log, decodeResult c frame = .ok (m, log)) ↔ ∃ rest, (resultDecoder c).run frame = .ok m rest := by
  rw [decodeResult, Decoder.outcome]
  cases (resultDecoder c).run frame with
  | error e rest => simp
  | ok m' rest => cases rest <;> simp

/-! ### Requests -/

theorem encodeRequest_eq_ok_iff {catalog : Option Catalog} {r : Request} {frame : Bytes} :
    encodeRequest catalog r = .ok frame ↔ ∃ tag, requestTag catalog r = .ok tag ∧ r.encodeWithTag tag = frame := by
  rw [encodeRequest, bind_eq_ok_iff]
  simp [pure, Except.pure]

/-- A request is written with the first place of its type for a tag. -/
theorem encodeRequest_eq_ok_iff_isLeast (hd : Catalog.ofDocument d = .ok c) {r : Request} {frame : Bytes} :
    encodeRequest (some c) r = .ok frame ↔
      ∃ place, IsLeast {place | d.Lists requestVariant place r.typeName} place ∧
        r.encodeWithTag (UInt32.ofNat place) = frame := by
  rw [encodeRequest_eq_ok_iff]
  simp only [requestTag, Catalog.variantTag_eq_ok_iff hd]
  constructor
  · rintro ⟨_, ⟨place, hleast, rfl⟩, rfl⟩
    exact ⟨place, hleast, rfl⟩
  · rintro ⟨place, hleast, rfl⟩
    exact ⟨_, ⟨place, hleast, rfl⟩, rfl⟩

theorem exists_encodeRequest_iff (hd : Catalog.ofDocument d = .ok c) {r : Request} :
    (∃ frame, encodeRequest (some c) r = .ok frame) ↔
      ∃ types, d.Offers requestVariant types ∧ r.typeName ∈ types := by
  rw [← Catalog.exists_variantTag_iff hd]
  constructor
  · rintro ⟨frame, hframe⟩
    obtain ⟨tag, htag, -⟩ := encodeRequest_eq_ok_iff.mp hframe
    exact ⟨tag, htag⟩
  · rintro ⟨tag, htag⟩
    exact ⟨_, encodeRequest_eq_ok_iff.mpr ⟨tag, htag, rfl⟩⟩

/-- A request whose type has a tag at all is written with a tag of its type. -/
theorem encodeRequest_of_lists (hd : Catalog.ofDocument d = .ok c) {r : Request} {tag : UInt32}
    (h : d.Lists requestVariant tag.toNat r.typeName) :
    ∃ first : UInt32, d.Lists requestVariant first.toNat r.typeName ∧
      encodeRequest (some c) r = .ok (r.encodeWithTag first) := by
  obtain ⟨types, htypes, htype⟩ := id h
  obtain ⟨frame, hframe⟩ := (exists_encodeRequest_iff hd).mpr ⟨types, htypes, List.mem_of_getElem? htype⟩
  obtain ⟨place, hleast, rfl⟩ := (encodeRequest_eq_ok_iff_isLeast hd).mp hframe
  have hlt : place < 0x100000000 := Nat.lt_of_le_of_lt (hleast.2 h) tag.toNat_lt
  refine ⟨UInt32.ofNat place, ?_, hframe⟩
  rw [UInt32.toNat_ofNat_of_lt' hlt]
  exact hleast.1

/-- The bytes of a request after its tag are the same under every catalog, and without one. -/
theorem outcome_encodeWithTag (r : Request) (tag : UInt32) :
    Decoder.varuint32.outcome (r.encodeWithTag tag) = (.ok tag, r.encodeBody) :=
  Decoder.outcome_eq_ok_iff.mpr (Decoder.run_varuint32 tag r.encodeBody)

/-- A node with the catalog takes a frame for what was meant: it finds the type of the request at the tag, and the
request behind it. -/
def Understands (c : Catalog) (r : Request) (frame : Bytes) : Prop :=
  ∃ tag, Decoder.varuint32.outcome frame = (.ok tag, r.encodeBody) ∧
    c.variantCase requestVariant tag = .ok (.parse r.typeName)

theorem understands_encodeWithTag_iff (hd : Catalog.ofDocument d = .ok c) {r : Request} {tag : UInt32} :
    Understands c r (r.encodeWithTag tag) ↔ d.Lists requestVariant tag.toNat r.typeName := by
  unfold Understands
  simp only [outcome_encodeWithTag, Catalog.variantCase_eq_parse_iff hd]
  constructor
  · rintro ⟨_, ⟨⟩, hlisted⟩
    exact hlisted
  · exact fun hlisted => ⟨tag, rfl, hlisted⟩

/-- What is written under a catalog is understood, if the type of the request has a tag at all. -/
theorem Understands.of_encodeRequest (hd : Catalog.ofDocument d = .ok c) {r : Request} {frame : Bytes} {tag : UInt32}
    (h : encodeRequest (some c) r = .ok frame) (hlisted : d.Lists requestVariant tag.toNat r.typeName) :
    Understands c r frame := by
  obtain ⟨first, hfirst, hframe⟩ := encodeRequest_of_lists hd hlisted
  obtain rfl := Except.ok.inj (hframe.symm.trans h)
  exact (understands_encodeWithTag_iff hd).mpr hfirst

/-- The types of requests in the order of their canonical tags. -/
def canonicalTypes : List String := ["get_status_request_v0", "get_blocks_request_v0", "get_blocks_ack_request_v0"]

theorem canonicalTypes_canonicalTag (r : Request) : canonicalTypes[r.canonicalTag.toNat]? = some r.typeName := by
  cases r <;> rfl

theorem nodup_canonicalTypes : canonicalTypes.Nodup := by decide +kernel

/-- Where the types of requests are listed first and in their order, the tags are the canonical ones. -/
theorem isLeast_canonicalTag (hd : Catalog.ofDocument d = .ok c) {more : List String}
    (h : d.Offers requestVariant (canonicalTypes ++ more)) (r : Request) :
    IsLeast {place | d.Lists requestVariant place r.typeName} r.canonicalTag.toNat := by
  have htag := canonicalTypes_canonicalTag r
  have hlt : r.canonicalTag.toNat < canonicalTypes.length := (List.getElem?_eq_some_iff.mp htag).1
  simp only [Catalog.lists_iff hd h]
  refine ⟨(List.getElem?_append_left hlt).trans htag, fun place hplace => ?_⟩
  by_contra hearlier
  have hplace' : canonicalTypes[place]? = some r.typeName := by
    rw [← hplace, List.getElem?_append_left (by omega)]
  have hsame := (List.getElem?_inj hlt nodup_canonicalTypes).mp (htag.trans hplace'.symm)
  omega

/-- A result is read under every tag at which its type is listed, and what is read has the type that is listed
at the tag. A request can be written if its type is listed. Its tag is the first place of its type, and that is
the canonical tag where the canonical types come first; what follows the tag is the same for all nodes. Of the
place only the lowest 32 bits are written, which matters for longer lists than a message can hold. -/
theorem tagged_as_listed (hd : Catalog.ofDocument d = .ok c) :
    (∀ m tag t, m.Fits → d.Lists resultVariant (UInt32.toNat tag) m.typeName →
        ∃ log, decodeResult c (Encoder.varuint32 tag ++ m.encodeBody ++ t) = .ok (m, log)) ∧
      (∀ frame m log, decodeResult c frame = .ok (m, log) → ∃ tag body,
        Decoder.varuint32.outcome frame = (.ok tag, body) ∧ d.Lists resultVariant tag.toNat m.typeName) ∧
      (∀ r, (∃ frame, encodeRequest (some c) r = .ok frame) ↔
        ∃ types, d.Offers requestVariant types ∧ r.typeName ∈ types) ∧
      (∀ r frame, encodeRequest (some c) r = .ok frame → ∃ place,
        IsLeast {place | d.Lists requestVariant place r.typeName} place ∧
          Decoder.varuint32.outcome frame = (.ok (.ofNat place), r.encodeBody) ∧
          (place < 0x100000000 → c.variantCase requestVariant (.ofNat place) = .ok (.parse r.typeName))) ∧
      (∀ catalog r frame, encodeRequest catalog r = .ok frame →
        ∃ tag, Decoder.varuint32.outcome frame = (.ok tag, r.encodeBody)) ∧
      ∀ more, d.Offers requestVariant (canonicalTypes ++ more) →
        ∀ r, encodeRequest (some c) r = encodeRequest none r := by
  refine ⟨?_, ?_, ?_, ?_, ?_, ?_⟩
  · intro m tag t hm hlisted
    have hform := Spelling.allows_varuint32 tag
    exact exists_decodeResult_iff.mpr ⟨t, (recognizes_resultDecoder hd).complete
      ⟨tag.toNat, _, _, rfl, hform, hlisted, Result.allows_encodeBody hm⟩ t⟩
  · intro frame m log hframe
    obtain ⟨rest, hrun⟩ := exists_decodeResult_iff.mp ⟨log, hframe⟩
    obtain ⟨_, rfl, _, w₁, w₂, rfl, ⟨_, ⟨tag, htag, rfl⟩, hnumbers⟩, hlisted, -⟩ :=
      (recognizes_resultDecoder hd).sound hrun
    refine ⟨tag, w₂ ++ rest, ?_, hlisted⟩
    rw [List.append_assoc]
    exact Decoder.outcome_eq_ok_iff.mpr (Decoder.accepts_number.complete ⟨_, ⟨tag, htag, rfl⟩, hnumbers⟩ _)
  · exact fun _ => exists_encodeRequest_iff hd
  · intro r frame hframe
    obtain ⟨place, hleast, rfl⟩ := (encodeRequest_eq_ok_iff_isLeast hd).mp hframe
    refine ⟨place, hleast, outcome_encodeWithTag r _, fun hplace => ?_⟩
    rw [Catalog.variantCase_eq_parse_iff hd, UInt32.toNat_ofNat_of_lt' hplace]
    exact hleast.1
  · intro catalog r frame hframe
    obtain ⟨tag, -, rfl⟩ := encodeRequest_eq_ok_iff.mp hframe
    exact ⟨tag, outcome_encodeWithTag r tag⟩
  · intro more hoffers r
    refine (encodeRequest_eq_ok_iff_isLeast hd).mpr ⟨_, isLeast_canonicalTag hd hoffers r, ?_⟩
    rw [UInt32.ofNat_toNat]

/-- A schema with two aliases for its results, and with repeated cases in both variants. -/
def aliasedDocument : Document where
  version := "eosio::abi/1.1"
  aliases := [⟨resultVariant, "answer"⟩, ⟨"answer", "reply"⟩]
  structs := [⟨Result.statusType, "", []⟩, ⟨Result.blocksType, "", []⟩, ⟨"get_status_request_v0", "", []⟩,
    ⟨"get_blocks_request_v0", "", []⟩]
  variants := [⟨"reply", [Result.blocksType, Result.statusType, "bool", Result.statusType]⟩,
    ⟨requestVariant, ["get_blocks_request_v0", "get_status_request_v0", "get_status_request_v0"]⟩]
  tables := []

/-- A status is read under its second tag, too; a request for it can be written, an acknowledgement cannot. -/
theorem tagged_aliasedDocument : ∃ c, Catalog.ofDocument aliasedDocument = .ok c ∧
    (∀ s t, ∃ log, decodeResult c (Encoder.varuint32 3 ++ ChainStatus.encode s ++ t) = .ok (.status s, log)) ∧
      (∃ frame, encodeRequest (some c) .status = .ok frame) ∧
      ¬ ∃ frame, encodeRequest (some c) (.acknowledge 5) = .ok frame := by
  have haccepted : (Catalog.ofDocument aliasedDocument).toOption.map (fun _ => ()) = some () := by decide +kernel
  obtain ⟨c, hd, -⟩ := exists_ok_of_toOption_map haccepted
  obtain ⟨hread, -, hwritten, -⟩ := tagged_as_listed hd
  have hpath : aliasedDocument.Renames 2 resultVariant "reply" :=
    .step (a := ⟨resultVariant, "answer"⟩) (.head _) (.step (a := ⟨"answer", "reply"⟩) (.tail _ (.head _)) .refl)
  have hresults : aliasedDocument.Offers resultVariant
      [Result.blocksType, Result.statusType, "bool", Result.statusType] := ⟨_, .head _, rfl, 2, hpath⟩
  have hrequests : aliasedDocument.Offers requestVariant
      ["get_blocks_request_v0", "get_status_request_v0", "get_status_request_v0"] :=
    ⟨_, .tail _ (.head _), rfl, 0, .refl⟩
  refine ⟨c, hd, fun s t => ?_, ?_, ?_⟩
  · exact hread (.status s) 3 t trivial ⟨_, hresults, rfl⟩
  · exact (hwritten .status).mpr ⟨_, hrequests, .tail _ (.head _)⟩
  · rw [hwritten]
    rintro ⟨types, htypes, hmem⟩
    rw [Catalog.offers_unique hd htypes hrequests] at hmem
    revert hmem
    decide +kernel

end StateHistory.Frame
