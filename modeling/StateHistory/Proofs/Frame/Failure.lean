import StateHistory.Frame
import StateHistory.Proofs.Message.Reading

/-! # What frames fail with

A frame that is read fails for what is wrong with the frame itself, or with its schema: reading never complains of
a result that came before the schema, neither of a schema frame (`Frame.failsOnly_parseSchema`) nor of a result
(`Frame.failsOnly_decodeResult`). -/

namespace StateHistory

open Schema

/-- Nothing goes wrong but what is found in a frame or in a schema. -/
def FailsOnly {α : Type} (x : Except ProtocolError α) : Prop :=
  ∀ e, x = .error e → e ≠ .resultBeforeSchema

namespace FailsOnly

variable {α β : Type} {x : Except ProtocolError α}

theorem ok (a : α) : FailsOnly (.ok a) := nofun

theorem error {e : ProtocolError} (h : e ≠ .resultBeforeSchema) : FailsOnly (.error e : Except ProtocolError α) := by
  rintro _ ⟨⟩
  exact h

theorem bind {f : α → Except ProtocolError β} (hx : FailsOnly x) (hf : ∀ a, FailsOnly (f a)) :
    FailsOnly (x >>= f) := by
  cases x with
  | ok a => exact hf a
  | error e => exact error (hx e rfl)

theorem discard (hx : FailsOnly x) : FailsOnly (Functor.discard x) := by
  cases x with
  | ok a => exact ok _
  | error e => exact error (hx e rfl)

theorem mapM {f : α → Except ProtocolError β} (hf : ∀ a, FailsOnly (f a)) (xs : List α) :
    FailsOnly (xs.mapM f) := by
  induction xs with
  | nil => exact ok []
  | cons a xs ih =>
      rw [List.mapM_cons]
      exact (hf a).bind fun _ => ih.bind fun _ => ok _

theorem forM {f : α → Except ProtocolError Unit} (hf : ∀ a, FailsOnly (f a)) (xs : List α) :
    FailsOnly (xs.forM f) := by
  induction xs with
  | nil => exact ok ()
  | cons a xs ih => exact (hf a).bind fun _ => ih

end FailsOnly

/-! ### Documents -/

namespace Schema.Document

theorem failsOnly_parse (text : String) : FailsOnly (Document.parse text) := by
  unfold Document.parse
  split
  · exact .ok _
  · exact .error nofun

theorem failsOnly_checkNames (taken names : List String) : FailsOnly (checkNames taken names) := by
  induction names generalizing taken with
  | nil => exact .ok ()
  | cons name names ih =>
      rw [checkNames]
      split
      · exact .error nofun
      · split
        · exact .error nofun
        · exact ih _

theorem failsOnly_resolveBase (types : List (String × Layout)) (base : String) (room : Nat) (current : String) :
    FailsOnly (resolveBase types base room current) := by
  induction room generalizing current with
  | zero => exact .error nofun
  | succ room ih =>
      rw [resolveBase]
      split
      · exact .error nofun
      · exact ih _
      · exact .ok _

theorem failsOnly_baseOf (d : Document) (owner : String) (s : StructDef) : FailsOnly (d.baseOf owner s) := by
  unfold baseOf
  split
  · exact .ok none
  · refine (failsOnly_resolveBase _ _ _ _).bind fun base => ?_
    split
    · exact .ok _
    · exact .error nofun

theorem failsOnly_bases (d : Document) (owner : String) (room : Nat) (seen : List String) (s : StructDef) :
    FailsOnly (d.bases owner room seen s) := by
  induction room generalizing seen s with
  | zero =>
      rw [bases]
      refine (failsOnly_baseOf d owner s).bind fun base => ?_
      split
      · exact .ok []
      · split <;> exact .error nofun
  | succ room ih =>
      rw [bases]
      refine (failsOnly_baseOf d owner s).bind fun base => ?_
      split
      · exact .ok []
      · split
        · exact .error nofun
        · exact (ih _ _).bind fun _ => .ok _

theorem failsOnly_flatten (d : Document) (s : StructDef) : FailsOnly (d.flatten s) :=
  (failsOnly_bases d _ _ _ s).bind fun _ => .ok _

end Schema.Document

/-! ### Catalogs -/

namespace Schema.Catalog

theorem failsOnly_get (c : Catalog) (name : String) : FailsOnly (c.get name) := by
  unfold get
  split
  · exact .ok _
  · exact .error nofun

theorem failsOnly_checkRef (c : Catalog) (type : TypeRef) : FailsOnly (c.checkRef type) :=
  (failsOnly_get c _).discard

theorem failsOnly_resolveFrom (c : Catalog) (origin : String) (room : Nat) (type : TypeRef) :
    FailsOnly (c.resolveFrom origin room type) := by
  induction room generalizing type with
  | zero => exact .error nofun
  | succ room ih =>
      cases type with
      | named name =>
          refine (failsOnly_get c name).bind fun layout => ?_
          split
          · exact ih _
          · exact .ok _
      | optional inner | array inner | extension inner => exact .ok _

theorem failsOnly_resolve (c : Catalog) (type : String) : FailsOnly (c.resolve type) :=
  failsOnly_resolveFrom c _ _ _

theorem failsOnly_variantCases (c : Catalog) (variant : String) : FailsOnly (c.variantCases variant) := by
  refine (failsOnly_resolve c variant).bind fun type => ?_
  split
  · refine (failsOnly_get c _).bind fun layout => ?_
    split
    · exact .ok _
    · exact .error nofun
  · exact .error nofun

theorem failsOnly_variantCase (c : Catalog) (variant : String) (tag : UInt32) :
    FailsOnly (c.variantCase variant tag) := by
  refine (failsOnly_variantCases c variant).bind fun cases => ?_
  split
  · exact .ok _
  · exact .error nofun

theorem failsOnly_checkLayout (c : Catalog) (name : String) (layout : Layout) :
    FailsOnly (c.checkLayout name layout) := by
  cases layout with
  | builtin type => exact .ok ()
  | «alias» target => exact (failsOnly_checkRef c target).bind fun _ => (failsOnly_resolve c name).discard
  | struct fields => exact .forM (fun f => failsOnly_checkRef c f.type) fields
  | variant cases => exact .forM (failsOnly_checkRef c) cases

theorem failsOnly_check (c : Catalog) : FailsOnly c.check := by
  refine .forM (fun entry => ?_) c.types
  exact failsOnly_checkLayout c entry.1 entry.2

theorem failsOnly_ofDeclarations (d : Document) : FailsOnly (ofDeclarations d) :=
  (FailsOnly.mapM (fun s => (Document.failsOnly_flatten d s).bind fun _ => .ok _) d.structs).bind fun _ => .ok _

theorem failsOnly_ofDocument (d : Document) : FailsOnly (ofDocument d) := by
  have hversion : FailsOnly (checkVersion d.version) := by
    unfold checkVersion
    split
    · exact .ok ()
    · exact .error nofun
  exact hversion.bind fun _ => (Document.failsOnly_checkNames _ _).bind fun _ =>
    (failsOnly_ofDeclarations d).bind fun c => (failsOnly_check c).bind fun _ => .ok _

end Schema.Catalog

/-! ### Frames -/

namespace Frame

theorem failsOnly_parseSchema (frame : Bytes) : FailsOnly (parseSchema frame) := by
  unfold parseSchema
  split
  · exact .error nofun
  · exact (Document.failsOnly_parse _).bind fun d => (Catalog.failsOnly_ofDocument d).bind fun _ => .ok _

theorem ne_resultBeforeSchema_of_arises {e : ProtocolError} {rest : Bytes} (h : e.Arises rest) :
    e ≠ .resultBeforeSchema := by
  cases h <;> nofun

/-- A reader that goes forward and fails in no other way. -/
abbrev Heedful {α : Type} (d : Decoder α) : Prop := d.Forward fun e _ => e ≠ .resultBeforeSchema

theorem heedful_of_plain {α : Type} {d : Decoder α} (h : d.Plain) : Heedful d where
  of_ok := h.forward.of_ok
  of_error := fun hrun =>
    let ⟨hsuffix, harises⟩ := h.forward.of_error hrun
    ⟨hsuffix, ne_resultBeforeSchema_of_arises harises⟩

theorem heedful_bodyDecoder (type : String) : Heedful (bodyDecoder type) := by
  unfold bodyDecoder
  split
  · exact heedful_of_plain (ChainStatus.plain_decoder.map _)
  · split
    · exact heedful_of_plain (BlockReport.plain_decoder.map _)
    · exact .throw fun _ => nofun

theorem heedful_resultDecoder (c : Catalog) : Heedful (resultDecoder c) := by
  refine (heedful_of_plain Decoder.plain_varuint32).bind fun tag => ?_
  split
  · exact heedful_bodyDecoder _
  · rename_i e he
    exact .throw fun _ => Catalog.failsOnly_variantCase c _ _ e he

theorem failsOnly_decodeResult (c : Catalog) (frame : Bytes) : FailsOnly (decodeResult c frame) := by
  unfold decodeResult Decoder.outcome
  cases hrun : (resultDecoder c).run frame with
  | ok result rest =>
      cases rest <;> exact .ok _
  | error e rest => exact .error ((heedful_resultDecoder c).of_error hrun).2

end Frame

end StateHistory
