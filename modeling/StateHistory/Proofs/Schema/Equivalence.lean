import StateHistory.Frame

/-! # Catalogs that answer alike

A catalog is asked for nothing but its version, the layout of a name and the tables. Catalogs that answer alike
(`Catalog.Equiv`) may list their types in different orders, but there is no telling them apart: they resolve
aliases alike, know the same cases and tags of variants, read the same values and make the same frames. -/

namespace StateHistory

namespace Schema.Catalog

variable {c c' : Catalog}

/-- The same layouts under the same names, and the same tables. -/
structure Equiv (c c' : Catalog) : Prop where
  version : c.version = c'.version
  find? : c.find? = c'.find?
  tables : c.tables = c'.tables

namespace Equiv

/-! ### Look-up -/

theorem contains (h : c.Equiv c') : c.contains = c'.contains := by
  funext name
  rw [Catalog.contains, Catalog.contains, h.find?]

theorem get (h : c.Equiv c') : c.get = c'.get := by
  funext name
  rw [Catalog.get, Catalog.get, h.find?]

theorem droppedTables (h : c.Equiv c') : c.droppedTables = c'.droppedTables := by
  funext d
  simp only [Catalog.droppedTables, checkRef, h.get]

theorem resolveFrom (h : c.Equiv c') (origin : String) (room : Nat) (t : TypeRef) :
    c.resolveFrom origin room t = c'.resolveFrom origin room t := by
  induction room generalizing t with
  | zero => rfl
  | succ room ih =>
      cases t with
      | named name => simp only [Catalog.resolveFrom, h.get, ih]
      | _ => rfl

theorem resolve (h : c.Equiv c') : c.resolve = c'.resolve := by
  funext type
  rw [Catalog.resolve, Catalog.resolve, h.resolveFrom]

theorem variantCases (h : c.Equiv c') : c.variantCases = c'.variantCases := by
  funext variant
  rw [Catalog.variantCases, Catalog.variantCases, h.resolve, h.get]

theorem variantCase (h : c.Equiv c') : c.variantCase = c'.variantCase := by
  funext variant tag
  rw [Catalog.variantCase, Catalog.variantCase, h.variantCases]

theorem variantTag (h : c.Equiv c') : c.variantTag = c'.variantTag := by
  funext variant case
  rw [Catalog.variantTag, Catalog.variantTag, h.variantCases]

theorem table? (h : c.Equiv c') : c.table? = c'.table? := by
  funext name
  rw [Catalog.table?, Catalog.table?, h.tables]

/-! ### Reading -/

theorem readWithin (h : c.Equiv c') (levels : Nat) : c.readWithin levels = c'.readWithin levels := by
  induction levels with
  | zero =>
      funext t
      rw [Catalog.readWithin, Catalog.readWithin]
  | succ levels ih =>
      funext t
      cases t with
      | named name => rw [Catalog.readWithin, Catalog.readWithin, h.find?, ih]
      | _ => rw [Catalog.readWithin, Catalog.readWithin, ih]

theorem read (h : c.Equiv c') : c.read = c'.read := by
  funext type
  rw [Catalog.read, Catalog.read, h.readWithin]

theorem toJson (h : c.Equiv c') : c.toJson = c'.toJson := by
  funext type bytes
  rw [Catalog.toJson, Catalog.toJson, h.read]

end Equiv

end Schema.Catalog

/-! ### Frames -/

namespace Frame

open Schema

variable {c c' : Catalog}

theorem decodeResult_of_equiv (h : c.Equiv c') : decodeResult c = decodeResult c' := by
  funext frame
  rw [decodeResult, decodeResult, resultDecoder, resultDecoder, h.variantCase]

theorem encodeRequest_of_equiv (h : c.Equiv c') : encodeRequest (some c) = encodeRequest (some c') := by
  funext request
  rw [encodeRequest, encodeRequest, requestTag, requestTag, h.variantTag]

end Frame

end StateHistory
