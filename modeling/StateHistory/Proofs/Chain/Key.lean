import StateHistory.Chain.Key
import StateHistory.Proofs.Binary.Spelling
import StateHistory.Proofs.Message.Json

/-! # Keys and signatures behind their texts

Keys and signatures are read in the same way (`Key.reading`): the tag of the kind, as many bytes as every kind has,
and for web authentication something more. `Key.Material` is what is read, with its binary forms and its text. A text
tells the kind and the bytes behind it, without the lengths among them (`Key.Material.text_eq_iff`).

For a public key that is enough, since its last part alone has a length: different keys have different texts. A
signature for web authentication has two such parts at its end. Its text does not say where the first one is over, and
nothing else is lost (`Key.texts_tell`, `Key.one_text_for_two`). -/

namespace StateHistory

theorem Bytes.Block.bytes_injective {n : Nat} {w w' : Block n} (h : w.bytes = w'.bytes) : w = w' := by
  obtain ⟨_, _⟩ := w
  obtain ⟨_, _⟩ := w'
  obtain rfl := h
  rfl

theorem Bytes.ofText_injective {s s' : String} (h : ofText s = ofText s') : s = s' := by
  have hs := toText?_eq_some_iff.mpr (Eq.refl (ofText s))
  rw [h, toText?_eq_some_iff.mpr rfl] at hs
  exact (Option.some.inj hs).symm

namespace Key

open Decoder Spelling
open Schema (Builtin)

/-! ### Material -/

/-- What a key or a signature consists of: the bytes that every kind has, and what is added to them for web
authentication. -/
inductive Material (size : Nat) (Addition : Type) where
  | curve (kind : Fin 2) (bytes : Bytes.Block size)
  | web (bytes : Bytes.Block size) (addition : Addition)

namespace Material

variable {size : Nat} {Addition : Type} (added : Addition → Bytes) (S : Addition → Spelling) (mark : String)

/-- The tag of the kind. -/
def tag : Material size Addition → UInt32
  | curve kind _ => UInt32.ofNat kind
  | web _ _ => webTag

/-- The bytes behind the tag, without lengths. -/
def content : Material size Addition → Bytes
  | curve _ bytes => bytes.bytes
  | web bytes addition => bytes.bytes ++ added addition

/-- The name of the kind. -/
def kindName (m : Material size Addition) : String := kinds.getD m.tag.toNat ""

/-- The text with the given mark in front. -/
def text (m : Material size Addition) : String := mark ++ "_" ++ m.kindName ++ ":" ++ (m.content added).toHex

/-- The binary forms of what comes after the tag, given those of the addition. -/
def body : Material size Addition → Spelling
  | curve _ bytes => exactly bytes.bytes
  | web bytes addition => exactly bytes.bytes ++ S addition

/-- The binary forms. -/
def spelling (m : Material size Addition) : Spelling := number m.tag.toNat ++ m.body S

/-- The shortest form, given that of the addition. -/
def encode (write : Addition → Bytes) : Material size Addition → Bytes
  | curve kind bytes => Encoder.count (UInt32.ofNat kind).toNat ++ bytes.bytes
  | web bytes addition => Encoder.count webTag.toNat ++ (bytes.bytes ++ write addition)

variable {added S mark} {m m' : Material size Addition} {w : Bytes}

theorem tag_lt (m : Material size Addition) : m.tag.toNat < 3 := by
  cases m with
  | curve kind bytes => exact (show ∀ kind : Fin 2, (UInt32.ofNat kind).toNat < 3 by decide) kind
  | web bytes addition => exact (by decide : webTag.toNat < 3)

theorem kinds_tag (m : Material size Addition) : kinds[m.tag.toNat]? = some m.kindName := by
  have hlt : m.tag.toNat < kinds.length := m.tag_lt
  rw [kindName, List.getD_eq_getElem?_getD, List.getElem?_eq_getElem hlt]
  rfl

theorem text_eq_of_kinds {kind : String} (h : kinds[m.tag.toNat]? = some kind) :
    m.text added mark = mark ++ "_" ++ kind ++ ":" ++ (m.content added).toHex := by
  rw [text, Option.some.inj (m.kinds_tag.symm.trans h)]

theorem tag_curve_ne (kind : Fin 2) (bytes : Bytes.Block size) :
    (curve kind bytes : Material size Addition).tag ≠ webTag :=
  (show ∀ kind : Fin 2, UInt32.ofNat kind ≠ webTag by decide) kind

theorem shortens_encode {write : Addition → Bytes} (h : ∀ a, (S a).Shortens (write a))
    (m : Material size Addition) : (m.spelling S).Shortens (m.encode write) := by
  cases m with
  | curve kind bytes => exact (shortens_number _).append (shortens_exactly _)
  | web bytes addition => exact (shortens_number _).append ((shortens_exactly _).append (h addition))

theorem kindName_injective (h : m.kindName = m'.kindName) : m.tag = m'.tag := by
  have hnames : ∀ i < 3, ∀ j < 3, kinds.getD i "" = kinds.getD j "" → i = j := by decide
  exact UInt32.toNat_inj.mp (hnames _ m.tag_lt _ m'.tag_lt h)

theorem length_kindName (m : Material size Addition) : m.kindName.toList.length = 2 :=
  (show ∀ i < 3, (kinds.getD i "").toList.length = 2 by decide) _ m.tag_lt

/-- A text tells the kind and the bytes behind it, and nothing else. -/
theorem text_eq_iff :
    m.text added mark = m'.text added mark ↔ m.tag = m'.tag ∧ m.content added = m'.content added := by
  constructor
  · intro h
    have hchars := congrArg String.toList h
    simp only [text, String.toList_append, List.append_assoc, List.append_cancel_left_eq] at hchars
    obtain ⟨hkind, hrest⟩ := List.append_inj hchars (m.length_kindName.trans m'.length_kindName.symm)
    exact ⟨kindName_injective (String.toList_inj.mp hkind),
      Bytes.toHex_injective (String.toList_inj.mp (List.append_cancel_left hrest))⟩
  · rintro ⟨htag, hcontent⟩
    rw [text, text, kindName, kindName, htag, hcontent]

/-- Different material has the same text only if it is for web authentication and what is added is spelled by the
same bytes. -/
theorem eq_or_added_eq (h : m.text added mark = m'.text added mark) :
    m = m' ∨ ∃ bytes a a', m = .web bytes a ∧ m' = .web bytes a' ∧ added a = added a' := by
  obtain ⟨htag, hcontent⟩ := text_eq_iff.mp h
  cases m with
  | curve kind fixed =>
      cases m' with
      | curve kind' fixed' =>
          have hkinds : ∀ k k' : Fin 2, UInt32.ofNat k = UInt32.ofNat k' → k = k' := by decide
          obtain rfl := hkinds kind kind' htag
          rw [show fixed = fixed' from Bytes.Block.bytes_injective hcontent]
          exact .inl rfl
      | web fixed' a' => exact absurd htag (tag_curve_ne kind fixed)
  | web fixed a =>
      cases m' with
      | curve kind' fixed' => exact absurd htag.symm (tag_curve_ne kind' fixed')
      | web fixed' a' =>
          obtain ⟨hfixed, hadded⟩ := List.append_inj hcontent (fixed.length_eq.trans fixed'.length_eq.symm)
          rw [show fixed = fixed' from Bytes.Block.bytes_injective hfixed]
          exact .inr ⟨fixed', a, a', rfl, rfl, hadded⟩

theorem eq_of_compact {write : Addition → Bytes} (hS : ∀ a, (S a).Shortens (write a)) {w' : Bytes}
    (h : (m.spelling S).Compact w) (h' : (m.spelling S).Compact w') : w = w' :=
  ((shortens_encode hS m).eq_of_compact h).symm.trans ((shortens_encode hS m).eq_of_compact h')

end Material

/-! ### Reading -/

section Reading

variable {size : Nat} {Addition : Type} {added : Addition → Bytes} {S : Addition → Spelling} {mark : String}
  {d : Decoder Addition}

/-- Reads a key or a signature as its text. -/
def reading (mark : String) (size : Nat) (d : Decoder Addition) (added : Addition → Bytes) : Decoder String := do
  let tag ← varuint32
  let bytes ← Decoder.bytes size
  if tag = webTag then
    let addition ← d
    render mark tag (bytes ++ added addition)
  else render mark tag bytes

theorem recognizes_render (mark : String) (tag : UInt32) (bytes : Bytes) :
    (render mark tag bytes).Recognizes fun w text => w = [] ∧ ∃ kind, kinds[tag.toNat]? = some kind ∧
      text = mark ++ "_" ++ kind ++ ":" ++ bytes.toHex := by
  rw [render]
  split
  · rename_i kind hkind
    refine (Recognizes.pure _).of_iff fun w text => ?_
    simp [hkind]
  · rename_i hnone
    refine (Recognizes.throw _).of_iff fun w text => ?_
    simp [hnone]

theorem exists_kind_of_ne_webTag {tag : UInt32} {kind : String} (htag : tag ≠ webTag)
    (hkind : kinds[tag.toNat]? = some kind) : ∃ k : Fin 2, k = tag.toNat := by
  have hlt : tag.toNat < 3 := (List.getElem?_eq_some_iff.mp hkind).1
  have hne : tag.toNat ≠ 2 := fun h => htag (UInt32.toNat_inj.mp h)
  exact ⟨⟨tag.toNat, by omega⟩, rfl⟩

/-- What comes after a tag is read as the text of a material with this tag. -/
theorem recognizes_body (hd : d.Accepts S) (tag : UInt32) :
    (do
      let bytes ← Decoder.bytes size
      if tag = webTag then
        let addition ← d
        render mark tag (bytes ++ added addition)
      else render mark tag bytes : Decoder String).Recognizes fun w text =>
        ∃ m : Material size Addition, m.tag = tag ∧ (m.body S).Allows w ∧ text = m.text added mark := by
  by_cases htag : tag = webTag
  · subst htag
    simp only [if_true]
    refine ((recognizes_bytes size).bind fun bytes => Recognizes.bind hd fun addition =>
      recognizes_render mark webTag (bytes ++ added addition)).of_iff fun w text => ?_
    constructor
    · rintro ⟨_, fixed, _, rfl, ⟨rfl, hsize⟩, addition, w, _, rfl, hw, rfl, kind, hkind, rfl⟩
      refine ⟨.web ⟨fixed, hsize⟩ addition, rfl, ?_, ?_⟩
      · rw [List.append_nil]
        exact (allows_exactly fixed).append hw
      · exact (Material.text_eq_of_kinds (m := .web ⟨fixed, hsize⟩ addition) hkind).symm
    · rintro ⟨m, hm, hw, rfl⟩
      cases m with
      | curve kind bytes => exact absurd hm (Material.tag_curve_ne kind bytes)
      | web fixed addition =>
          obtain ⟨_, w, hfixed, haddition, rfl⟩ := allows_append_iff.mp hw
          obtain rfl := allows_exactly_iff.mp hfixed
          exact ⟨_, _, _, rfl, ⟨rfl, fixed.length_eq⟩, addition, w, [], (List.append_nil w).symm, haddition, rfl,
            _, Material.kinds_tag (.web fixed addition), rfl⟩
  · simp only [if_neg htag]
    refine ((recognizes_bytes size).bind fun bytes => recognizes_render mark tag bytes).of_iff fun w text => ?_
    constructor
    · rintro ⟨_, fixed, _, rfl, ⟨rfl, hsize⟩, rfl, kind, hkind, rfl⟩
      obtain ⟨k, hk⟩ := exists_kind_of_ne_webTag htag hkind
      have hm : (Material.curve k ⟨fixed, hsize⟩ : Material size Addition).tag = tag := by
        rw [Material.tag, hk, UInt32.ofNat_toNat]
      refine ⟨.curve k ⟨fixed, hsize⟩, hm, ?_, ?_⟩
      · rw [List.append_nil]
        exact allows_exactly fixed
      · rw [← hm] at hkind
        exact (Material.text_eq_of_kinds (m := .curve k ⟨fixed, hsize⟩) hkind).symm
    · rintro ⟨m, rfl, hw, rfl⟩
      cases m with
      | curve kind fixed =>
          obtain rfl := allows_exactly_iff.mp hw
          exact ⟨_, _, [], (List.append_nil _).symm, ⟨rfl, fixed.length_eq⟩, rfl, _,
            Material.kinds_tag (.curve kind fixed), rfl⟩
      | web fixed addition => exact absurd rfl htag

theorem recognizes_reading (hd : d.Accepts S) : (reading mark size d added).Recognizes fun w text =>
    ∃ m : Material size Addition, (m.spelling S).Allows w ∧ text = m.text added mark := by
  refine (accepts_number.bind fun tag => recognizes_body hd tag).of_iff fun w text => ?_
  simp only [Material.spelling, allows_append_iff]
  constructor
  · rintro ⟨_, w₁, w₂, rfl, hw₁, m, rfl, hw₂, rfl⟩
    exact ⟨m, ⟨w₁, w₂, hw₁, hw₂, rfl⟩, rfl⟩
  · rintro ⟨m, ⟨w₁, w₂, hw₁, hw₂, rfl⟩, rfl⟩
    exact ⟨m.tag, w₁, w₂, rfl, hw₁, m, rfl, hw₂, rfl⟩

end Reading

/-! ### Public keys -/

/-- What a public key for web authentication adds: a flag for the presence of its user, and the relying party. -/
structure Credential where
  presence : UInt8
  party : String

namespace Credential

/-- The bytes of a credential, without the length of its last part. -/
def bytes (c : Credential) : Bytes := c.presence :: Bytes.ofText c.party

/-- Its binary forms. -/
def spelling (c : Credential) : Spelling := exactly [c.presence] ++ Spelling.blob (Bytes.ofText c.party)

/-- Its shortest form. -/
def encode (c : Credential) : Bytes := [c.presence] ++ Encoder.blob (Bytes.ofText c.party)

/-- Reads a credential. -/
def decoder : Decoder Credential := do return ⟨← uint8, ← string⟩

theorem accepts_decoder : decoder.Accepts spelling := by
  refine accepts_record (recognizes_uint8.accepts.field fun _ => accepts_string.last fun c _ => ?_)
  cases c
  simp only [true_and, mk.injEq]

theorem shortens_encode (c : Credential) : c.spelling.Shortens c.encode :=
  (shortens_exactly _).append (shortens_blob _)

theorem bytes_injective {c c' : Credential} (h : c.bytes = c'.bytes) : c = c' := by
  obtain ⟨presence, party⟩ := c
  obtain ⟨presence', party'⟩ := c'
  obtain ⟨rfl, hparty⟩ := List.cons.inj h
  obtain rfl := Bytes.ofText_injective hparty
  rfl

end Credential

/-- A public key. -/
abbrev PublicKey := Material 33 Credential

namespace PublicKey

/-- The binary forms of a public key. -/
def spelling (key : PublicKey) : Spelling := Material.spelling Credential.spelling key

/-- The text of a public key. -/
def text (key : PublicKey) : String := Material.text Credential.bytes "PUB" key

theorem text_injective {key key' : PublicKey} (h : key.text = key'.text) : key = key' := by
  rcases Material.eq_or_added_eq h with hsame | ⟨bytes, a, a', rfl, rfl, hadded⟩
  · exact hsame
  · rw [Credential.bytes_injective hadded]

end PublicKey

theorem publicDecoder_eq : publicDecoder = reading "PUB" 33 Credential.decoder Credential.bytes := by
  simp only [publicDecoder, reading, Credential.decoder, bind_assoc, pure_bind]
  rfl

theorem recognizes_publicDecoder : publicDecoder.Recognizes fun w text =>
    ∃ key : PublicKey, key.spelling.Allows w ∧ text = key.text := by
  rw [publicDecoder_eq]
  exact recognizes_reading Credential.accepts_decoder

/-! ### Signatures -/

/-- What a signature for web authentication adds: the authenticator's data and the client's document. -/
structure Assertion where
  authenticator : Bytes
  client : String

namespace Assertion

/-- The bytes of an assertion, without the lengths of its parts. -/
def bytes (a : Assertion) : Bytes := a.authenticator ++ Bytes.ofText a.client

/-- Its binary forms. -/
def spelling (a : Assertion) : Spelling :=
  Spelling.blob a.authenticator ++ Spelling.blob (Bytes.ofText a.client)

/-- Its shortest form. -/
def encode (a : Assertion) : Bytes := Encoder.blob a.authenticator ++ Encoder.blob (Bytes.ofText a.client)

/-- Reads an assertion. -/
def decoder : Decoder Assertion := do return ⟨← blob, ← string⟩

theorem accepts_decoder : decoder.Accepts spelling := by
  refine accepts_record (accepts_blob.field fun _ => accepts_string.last fun a _ => ?_)
  cases a
  simp only [true_and, mk.injEq]

theorem shortens_encode (a : Assertion) : a.spelling.Shortens a.encode :=
  (shortens_blob _).append (shortens_blob _)

/-- Where the first part is over is all that the bytes do not tell. -/
theorem eq_of_bytes_eq {a a' : Assertion} (h : a.bytes = a'.bytes)
    (hlength : a.authenticator.length = a'.authenticator.length) : a = a' := by
  obtain ⟨authenticator, client⟩ := a
  obtain ⟨authenticator', client'⟩ := a'
  obtain ⟨rfl, hclient⟩ := List.append_inj h hlength
  obtain rfl := Bytes.ofText_injective hclient
  rfl

end Assertion

/-- A signature. -/
abbrev Signature := Material 65 Assertion

namespace Signature

/-- The binary forms of a signature. -/
def spelling (sig : Signature) : Spelling := Material.spelling Assertion.spelling sig

/-- The text of a signature. -/
def text (sig : Signature) : String := Material.text Assertion.bytes "SIG" sig

/-- The bytes of a signature, without its tag and the lengths of its parts. -/
def content (sig : Signature) : Bytes := Material.content Assertion.bytes sig

/-- The length of the authenticator's data, if there are any. -/
def authenticatorLength : Signature → Nat
  | .curve _ _ => 0
  | .web _ a => a.authenticator.length

theorem eq_of_text_eq {sig sig' : Signature} (h : sig.text = sig'.text)
    (hknown : sig.tag ≠ webTag ∨ sig.authenticatorLength = sig'.authenticatorLength) : sig = sig' := by
  rcases Material.eq_or_added_eq h with hsame | ⟨bytes, a, a', rfl, rfl, hadded⟩
  · exact hsame
  · rw [Assertion.eq_of_bytes_eq hadded (hknown.resolve_left (absurd rfl))]

end Signature

theorem signatureDecoder_eq : signatureDecoder = reading "SIG" 65 Assertion.decoder Assertion.bytes := by
  simp only [signatureDecoder, reading, Assertion.decoder, bind_assoc, pure_bind, Assertion.bytes, List.append_assoc]

theorem recognizes_signatureDecoder : signatureDecoder.Recognizes fun w text =>
    ∃ sig : Signature, sig.spelling.Allows w ∧ text = sig.text := by
  rw [signatureDecoder_eq]
  exact recognizes_reading Assertion.accepts_decoder

/-! ### Values -/

section Values

variable {α : Type} {d : Decoder String} {spelling : α → Spelling} {text : α → String} {w s : Bytes} {v : Json}

theorem outcome_text_iff (hd : d.Recognizes fun w t => ∃ a, (spelling a).Allows w ∧ t = text a) :
    (Builtin.text d).outcome (w ++ s) = (.ok v, s) ↔ ∃ a, (spelling a).Allows w ∧ v = .string (text a) := by
  refine outcome_eq_ok_iff.trans ((hd.map Json.string).run_iff.trans ⟨?_, ?_⟩)
  · rintro ⟨_, ⟨a, hw, rfl⟩, rfl⟩
    exact ⟨a, hw, rfl⟩
  · rintro ⟨a, hw, rfl⟩
    exact ⟨_, ⟨a, hw, rfl⟩, rfl⟩

/-- What is read off a form is the text of what has this form. -/
theorem text_of_outcome (hd : d.Recognizes fun w t => ∃ a, (spelling a).Allows w ∧ t = text a) {a : α}
    (hread : (Builtin.text d).outcome (w ++ s) = (.ok v, s)) (hw : (spelling a).Compact w) :
    v = .string (text a) := by
  have hread' := (outcome_text_iff (s := s) hd).mpr ⟨a, hw.allows, rfl⟩
  rw [hread] at hread'
  exact Except.ok.inj (Prod.mk.inj hread').1

end Values

/-- The text of a public key tells the bytes that it was read off, given that the number of its kind and the length in
it are in their shortest forms. The text of a signature tells its kind and all its bytes but the lengths among them:
so it tells the bytes that it was read off, too, unless it is one for web authentication, and even then if the length
of the authenticator's data is known. -/
theorem texts_tell :
    (∀ w s v, Builtin.publicKey.decoder.outcome (w ++ s) = (.ok v, s) ↔
        ∃ key : PublicKey, key.spelling.Allows w ∧ v = .string key.text) ∧
      (∀ w w' s s' v, Builtin.publicKey.decoder.outcome (w ++ s) = (.ok v, s) →
        Builtin.publicKey.decoder.outcome (w' ++ s') = (.ok v, s') →
          (∃ key : PublicKey, key.spelling.Compact w) → (∃ key' : PublicKey, key'.spelling.Compact w') → w = w') ∧
      (∀ w s v, Builtin.signature.decoder.outcome (w ++ s) = (.ok v, s) ↔
        ∃ sig : Signature, sig.spelling.Allows w ∧ v = .string sig.text) ∧
      (∀ sig sig' : Signature, sig.text = sig'.text ↔ sig.tag = sig'.tag ∧ sig.content = sig'.content) ∧
      ∀ w w' s s' v (sig sig' : Signature), Builtin.signature.decoder.outcome (w ++ s) = (.ok v, s) →
        Builtin.signature.decoder.outcome (w' ++ s') = (.ok v, s') →
          sig.spelling.Compact w → sig'.spelling.Compact w' →
            sig.tag ≠ webTag ∨ sig.authenticatorLength = sig'.authenticatorLength → w = w' := by
  refine ⟨fun w s v => outcome_text_iff recognizes_publicDecoder, fun w w' s s' v hread hread' => ?_,
    fun w s v => outcome_text_iff recognizes_signatureDecoder, fun sig sig' => Material.text_eq_iff,
    fun w w' s s' v sig sig' hread hread' hw hw' hknown => ?_⟩
  · rintro ⟨key, hw⟩ ⟨key', hw'⟩
    have hsame := (text_of_outcome recognizes_publicDecoder hread hw).symm.trans
      (text_of_outcome recognizes_publicDecoder hread' hw')
    obtain rfl := PublicKey.text_injective (Json.string.inj hsame)
    exact Material.eq_of_compact Credential.shortens_encode hw hw'
  · have hsame := (text_of_outcome recognizes_signatureDecoder hread hw).symm.trans
      (text_of_outcome recognizes_signatureDecoder hread' hw')
    obtain rfl := Signature.eq_of_text_eq (Json.string.inj hsame) hknown
    exact Material.eq_of_compact Assertion.shortens_encode hw hw'

/-! ### Samples -/

theorem count_of_lt {n : Nat} (h : n < 128) : Encoder.count n = [UInt8.ofNat n] := by
  have hn : (UInt32.ofNat n).toNat = n := UInt32.toNat_ofNat_of_lt' (Nat.lt_trans h (by decide))
  rw [Encoder.count, Encoder.varuint32, hn, Encoder.base128, if_pos h]

/-- A signature for web authentication. -/
def webSignature (data : Bytes) (client : String) : Signature := .web (.fill 65 0) ⟨data, client⟩

theorem compact_webSignature {data : Bytes} {client : String} (hdata : data.length < 128)
    (hclient : (Bytes.ofText client).length < 128) : (webSignature data client).spelling.Compact
      (2 :: List.replicate 65 0 ++ (UInt8.ofNat data.length :: data ++
        UInt8.ofNat (Bytes.ofText client).length :: Bytes.ofText client)) := by
  have hallows : (webSignature data client).spelling.Allows
      (Material.encode Assertion.encode (webSignature data client)) :=
    (allows_varuint32 webTag).append ((allows_exactly _).append
      ((allows_blob (Nat.lt_trans hdata (by decide))).append (allows_blob (Nat.lt_trans hclient (by decide)))))
  have hcompact := (Material.shortens_encode Assertion.shortens_encode (webSignature data client)).compact hallows
  rw [webSignature, Material.encode, Assertion.encode, Encoder.blob, Encoder.blob, count_of_lt hdata,
    count_of_lt hclient, count_of_lt (by decide)] at hcompact
  exact hcompact

/-- A public key of a curve. -/
def curveKey (kind : Fin 2) : PublicKey := .curve kind (.fill 33 0)

theorem compact_curveKey (kind : Fin 2) :
    (curveKey kind).spelling.Compact (UInt8.ofNat kind :: List.replicate 33 0) := by
  have hlt : (UInt32.ofNat kind).toNat < 128 := Nat.lt_trans (Material.tag_lt (curveKey kind)) (by decide)
  have hallows : (curveKey kind).spelling.Allows (Material.encode Credential.encode (curveKey kind)) :=
    (allows_number (Nat.lt_trans hlt (by decide))).append (allows_exactly _)
  have hcompact := (Material.shortens_encode Credential.shortens_encode (curveKey kind)).compact hallows
  rw [curveKey, Material.encode, count_of_lt hlt] at hcompact
  have hkinds : ∀ k : Fin 2, UInt8.ofNat (UInt32.ofNat k).toNat = UInt8.ofNat k := by decide
  rwa [hkinds kind] at hcompact

theorem ofText_empty : Bytes.ofText "" = [] := by decide +kernel

theorem ofText_letter : Bytes.ofText "a" = [0x61] := by decide +kernel

/-- Two kinds of one point have different texts, and so have two documents behind the same data. -/
theorem texts_tell_samples :
    (∃ v v', Builtin.publicKey.decoder.outcome (0 :: List.replicate 33 0) = (.ok v, []) ∧
      Builtin.publicKey.decoder.outcome (1 :: List.replicate 33 0) = (.ok v', []) ∧ v ≠ v') ∧
    ∃ v v', Builtin.signature.decoder.outcome (2 :: List.replicate 65 0 ++ [1, 0x61, 0]) = (.ok v, []) ∧
      Builtin.signature.decoder.outcome (2 :: List.replicate 65 0 ++ [1, 0x61, 1, 0x61]) = (.ok v', []) ∧ v ≠ v' := by
  obtain ⟨hkeys, hkeysTell, hsignatures, -, hsignaturesTell⟩ := texts_tell
  constructor
  · have hw := compact_curveKey 0
    have hw' := compact_curveKey 1
    have hread := (hkeys _ [] _).mpr ⟨_, hw.allows, rfl⟩
    have hread' := (hkeys _ [] _).mpr ⟨_, hw'.allows, rfl⟩
    refine ⟨_, _, hread, hread', fun hsame => ?_⟩
    rw [hsame] at hread
    cases (List.cons.inj (hkeysTell _ _ _ _ _ hread hread' ⟨_, hw⟩ ⟨_, hw'⟩)).1
  · have hw := @compact_webSignature [0x61] ""
    have hw' := @compact_webSignature [0x61] "a"
    rw [ofText_empty] at hw
    rw [ofText_letter] at hw'
    have hread := (hsignatures _ [] _).mpr ⟨_, (hw (by decide) (by decide)).allows, rfl⟩
    have hread' := (hsignatures _ [] _).mpr ⟨_, (hw' (by decide) (by decide)).allows, rfl⟩
    refine ⟨_, _, hread, hread', fun hsame => ?_⟩
    rw [hsame] at hread
    have hbytes := hsignaturesTell _ _ _ _ _ _ _ hread hread' (hw (by decide) (by decide))
      (hw' (by decide) (by decide)) (.inr rfl)
    cases List.append_cancel_left hbytes

/-- Where the data of an authenticator are longer by what the document is shorter, the text is the same. In a key, the
padded number of its kind leaves no trace in the text, either. -/
theorem one_text_for_two :
    (∃ (w w' : Bytes) (v : Json), w = 2 :: List.replicate 65 0 ++ [1, 0x61, 0] ∧
      w' = 2 :: List.replicate 65 0 ++ [0, 1, 0x61] ∧ w ≠ w' ∧
      Builtin.signature.decoder.outcome w = (.ok v, []) ∧ Builtin.signature.decoder.outcome w' = (.ok v, []) ∧
      (∃ sig : Signature, sig.spelling.Compact w) ∧ ∃ sig' : Signature, sig'.spelling.Compact w') ∧
    ∃ v, Builtin.publicKey.decoder.outcome (0 :: List.replicate 33 0) = (.ok v, []) ∧
      Builtin.publicKey.decoder.outcome (0x80 :: 0 :: List.replicate 33 0) = (.ok v, []) := by
  constructor
  · have hw := @compact_webSignature [0x61] ""
    have hw' := @compact_webSignature [] "a"
    rw [ofText_empty] at hw
    rw [ofText_letter] at hw'
    have hcompact := hw (by decide) (by decide)
    have hcompact' := hw' (by decide) (by decide)
    have hcontent : [0x61] ++ Bytes.ofText "" = Bytes.ofText "a" := by
      rw [ofText_empty, ofText_letter, List.append_nil]
    have htext : (webSignature [0x61] "").text = (webSignature [] "a").text :=
      Material.text_eq_iff.mpr ⟨rfl, congrArg (List.replicate 65 0 ++ ·) hcontent⟩
    refine ⟨_, _, .string (webSignature [0x61] "").text, rfl, rfl,
      fun hsame => absurd (List.append_cancel_left hsame) (by decide), ?_, ?_, ⟨_, hcompact⟩, ⟨_, hcompact'⟩⟩
    · exact (outcome_text_iff (s := []) recognizes_signatureDecoder).mpr ⟨_, hcompact.allows, rfl⟩
    · rw [htext]
      exact (outcome_text_iff (s := []) recognizes_signatureDecoder).mpr ⟨_, hcompact'.allows, rfl⟩
  · have hpadded : varuint32.outcome [0x80, 0] = (.ok 0, []) := by decide
    have hnumber : (number 0).Allows [0x80, 0] := ⟨_, ⟨0, outcome_eq_ok_iff.mp hpadded, rfl⟩, rfl⟩
    have hallows : (curveKey 0).spelling.Allows ([0x80, 0] ++ List.replicate 33 0) :=
      hnumber.append (allows_exactly _)
    exact ⟨_, (outcome_text_iff (s := []) recognizes_publicDecoder).mpr ⟨_, (compact_curveKey 0).allows, rfl⟩,
      (outcome_text_iff (s := []) recognizes_publicDecoder).mpr ⟨_, hallows, rfl⟩⟩

end Key

end StateHistory
