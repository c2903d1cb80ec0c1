import Mathlib.Logic.Function.Basic
import StateHistory.Proofs.Schema.Declaration
import StateHistory.Json.Value
import StateHistory.Message.Basic

/-! # Messages as JSON

What a result or a request looks like as a JSON value: the name of its type beside the object of its fields,
heights as numbers, bytes in hexadecimal, and `null` for what is absent. Nothing of a result is lost in that
(`Result.toJson_injective`). -/

namespace StateHistory

/-! ### Hexadecimal -/

theorem Bytes.hexDigit_injective : ∀ m < 16, ∀ n < 16, hexDigit m = hexDigit n → m = n := by decide

theorem Bytes.hexChars_injective {bs bs' : Bytes} (h : hexChars bs = hexChars bs') : bs = bs' := by
  induction bs generalizing bs' with
  | nil =>
      cases bs' with
      | nil => rfl
      | cons b' bs' => simp [hexChars] at h
  | cons b bs ih =>
      cases bs' with
      | nil => simp [hexChars] at h
      | cons b' bs' =>
          simp only [hexChars, List.flatMap_cons, List.cons_append, List.nil_append, List.cons.injEq] at h
          obtain ⟨hhigh, hlow, hrest⟩ := h
          have hb := b.toNat_lt
          have hb' := b'.toNat_lt
          have hdiv := hexDigit_injective _ (by omega) _ (by omega) hhigh
          have hmod := hexDigit_injective _ (by omega) _ (by omega) hlow
          obtain rfl : b = b' := UInt8.toNat_inj.mp (by omega)
          rw [ih hrest]

theorem Bytes.toHex_injective {bs bs' : Bytes} (h : bs.toHex = bs'.toHex) : bs = bs' :=
  hexChars_injective (String.ofList_injective h)

/-! ### Objects -/

namespace Json

/-- The value of a member of an object. -/
def member? (key : String) : Json → Option Json
  | object members => members.lookup key
  | _ => none

theorem lookup_insertMember (key k : String) (v : Json) (members : List (String × Json)) :
    (insertMember k v members).lookup key = if key == k then some v else members.lookup key := by
  induction members with
  | nil =>
      rw [insertMember, List.lookup_cons]
      cases key == k <;> rfl
  | cons m members ih =>
      obtain ⟨k', v'⟩ := m
      rw [insertMember]
      split
      · rw [List.lookup_cons]
        cases key == k <;> rfl
      · split
        · rename_i hsame
          rw [hsame, List.lookup_cons, List.lookup_cons]
          cases key == k' <;> rfl
        · rename_i hother
          rw [List.lookup_cons, List.lookup_cons, ih]
          by_cases hkey : key = k
          · have hbeq : (key == k') = false := by simpa [hkey] using hother
            rw [hbeq]
          · have hbeq : (key == k) = false := by simpa using hkey
            simp [hbeq]

/-- Of two members with one key the later one counts. -/
theorem member?_ofMembers (key : String) (members : List (String × Json)) :
    (ofMembers members).member? key = members.reverse.lookup key := by
  rw [ofMembers, member?, List.foldl_eq_foldr_reverse]
  induction members.reverse with
  | nil => rfl
  | cons m members ih =>
      rw [List.foldr_cons, lookup_insertMember, ih, List.lookup_cons]
      cases key == m.1 <;> rfl

theorem isSome_member?_ofMembers {key : String} {members : List (String × Json)} :
    ((ofMembers members).member? key).isSome ↔ key ∈ members.map Prod.fst := by
  rw [member?_ofMembers, Option.isSome_iff_ne_none, Ne, lookup_eq_none_iff_not_mem, not_not, List.map_reverse,
    List.mem_reverse]

theorem eq_of_lookup_eq {members members' : List (String × Json)}
    (hkeys : members.map Prod.fst = members'.map Prod.fst) (hnodup : (members.map Prod.fst).Nodup)
    (h : ∀ key, members.lookup key = members'.lookup key) : members = members' := by
  induction members generalizing members' with
  | nil => exact (List.map_eq_nil_iff.mp hkeys.symm).symm
  | cons m members ih =>
      match members' with
      | [] => cases hkeys
      | m' :: members' =>
          obtain ⟨k, v⟩ := m
          obtain ⟨k', v'⟩ := m'
          obtain ⟨hnew, hrest⟩ := List.nodup_cons.mp hnodup
          obtain ⟨rfl, htail⟩ : k = k' ∧ members.map Prod.fst = members'.map Prod.fst := List.cons.inj hkeys
          have hv : v = v' := by simpa [List.lookup_cons] using h k
          rw [hv, ih htail hrest fun key => ?_]
          by_cases hkey : key = k
          · rw [hkey, lookup_eq_none_iff_not_mem.mpr hnew, lookup_eq_none_iff_not_mem.mpr (htail ▸ hnew)]
          · have hbeq : (key == k) = false := by simpa using hkey
            simpa [List.lookup_cons, hbeq] using h key

/-- An object holds nothing but its members, if their keys differ. -/
theorem ofMembers_injective {members members' : List (String × Json)}
    (h : ofMembers members = ofMembers members') (hkeys : members.map Prod.fst = members'.map Prod.fst)
    (hnodup : (members.map Prod.fst).Nodup) : members = members' := by
  refine List.reverse_injective (eq_of_lookup_eq ?_ ?_ fun key => ?_)
  · rw [List.map_reverse, List.map_reverse, hkeys]
  · rw [List.map_reverse]
    exact List.nodup_reverse.mpr hnodup
  · rw [← member?_ofMembers, h, member?_ofMembers]

/-! ### Values -/

/-- A number without sign. -/
def ofUInt32 (n : UInt32) : Json := .integer n.toNat

/-- Bytes in hexadecimal. -/
def ofBytes (bs : Bytes) : Json := .string bs.toHex

/-- A value that may be absent. -/
def ofOption {α : Type} (f : α → Json) (o : Option α) : Json := o.elim .null f

theorem ofUInt32_injective : Function.Injective ofUInt32 := by
  intro n n' h
  exact UInt32.toNat_inj.mp (Int.ofNat.inj (Json.integer.inj h))

theorem ofBytes_injective : Function.Injective ofBytes :=
  fun _ _ h => Bytes.toHex_injective (Json.string.inj h)

theorem ofOption_injective {α : Type} {f : α → Json} (hf : Function.Injective f) (hnull : ∀ v, f v ≠ .null) :
    Function.Injective (ofOption f) := by
  intro o o' h
  match o, o' with
  | none, none => rfl
  | none, some v' => exact absurd h.symm (hnull v')
  | some v, none => exact absurd h (hnull v)
  | some v, some v' => rw [hf h]

end Json

/-! ### Messages -/

namespace BlockPosition

/-- The object of a position. -/
def toJson (p : BlockPosition) : Json :=
  Json.ofMembers [("block_num", .ofUInt32 p.number), ("block_id", .ofBytes p.id.bytes)]

theorem toJson_injective : Function.Injective toJson := by
  intro ⟨number, id, hid⟩ ⟨number', id', hid'⟩ h
  rw [toJson, toJson] at h
  have hmembers := Json.ofMembers_injective h rfl (by simp)
  simp only [List.cons.injEq, Prod.mk.injEq, true_and, and_true, Json.ofUInt32_injective.eq_iff,
    Json.ofBytes_injective.eq_iff] at hmembers
  obtain ⟨rfl, rfl⟩ := hmembers
  rfl

end BlockPosition

namespace ChainStatus

/-- The object of a status. -/
def toJson (s : ChainStatus) : Json :=
  Json.ofMembers [("head", s.head.toJson), ("last_irreversible", s.lastIrreversible.toJson),
    ("trace_begin_block", .ofUInt32 s.traces.first), ("trace_end_block", .ofUInt32 s.traces.past),
    ("chain_state_begin_block", .ofUInt32 s.chainState.first),
    ("chain_state_end_block", .ofUInt32 s.chainState.past)]

theorem toJson_injective : Function.Injective toJson := by
  intro ⟨head, lastIrreversible, ⟨first, past⟩, ⟨first', past'⟩⟩ s h
  rw [toJson, toJson] at h
  have hmembers := Json.ofMembers_injective h rfl (by simp)
  simp only [List.cons.injEq, Prod.mk.injEq, true_and, and_true, Json.ofUInt32_injective.eq_iff,
    BlockPosition.toJson_injective.eq_iff] at hmembers
  obtain ⟨rfl, rfl, rfl, rfl, rfl, rfl⟩ := hmembers
  rfl

end ChainStatus

namespace BlockReport

/-- The object of a block report. -/
def toJson (r : BlockReport) : Json :=
  Json.ofMembers [("head", r.head.toJson), ("last_irreversible", r.lastIrreversible.toJson),
    ("this_block", .ofOption BlockPosition.toJson r.block),
    ("prev_block", .ofOption BlockPosition.toJson r.previous), ("block", .ofOption .ofBytes r.signedBlock),
    ("traces", .ofOption .ofBytes r.traces), ("deltas", .ofOption .ofBytes r.deltas)]

theorem toJson_injective : Function.Injective toJson := by
  have hposition := Json.ofOption_injective BlockPosition.toJson_injective nofun
  have hbytes := Json.ofOption_injective Json.ofBytes_injective nofun
  intro ⟨head, lastIrreversible, block, previous, signedBlock, traces, deltas⟩ r h
  rw [toJson, toJson] at h
  have hmembers := Json.ofMembers_injective h rfl (by simp)
  simp only [List.cons.injEq, Prod.mk.injEq, true_and, and_true, BlockPosition.toJson_injective.eq_iff,
    hposition.eq_iff, hbytes.eq_iff] at hmembers
  obtain ⟨rfl, rfl, rfl, rfl, rfl, rfl, rfl⟩ := hmembers
  rfl

end BlockReport

namespace Result

/-- The name of a result's type beside the object of its fields. -/
def toJson (m : Result) : Json :=
  .array [.string m.typeName, match m with
    | status s => s.toJson
    | blocks r => r.toJson]

theorem toJson_injective : Function.Injective toJson := by
  intro m m' h
  cases m with
  | status s =>
      cases m' with
      | status s' =>
          simp [toJson, typeName, ChainStatus.toJson_injective.eq_iff] at h
          rw [h]
      | blocks r' => simp [toJson, typeName, statusType, blocksType] at h
  | blocks r =>
      cases m' with
      | status s' => simp [toJson, typeName, statusType, blocksType] at h
      | blocks r' =>
          simp [toJson, typeName, BlockReport.toJson_injective.eq_iff] at h
          rw [h]

end Result

/-- The object of a request for blocks. -/
def BlocksRequest.toJson (r : BlocksRequest) : Json :=
  Json.ofMembers [("start_block_num", .ofUInt32 r.start), ("end_block_num", .ofUInt32 r.stop),
    ("max_messages_in_flight", .ofUInt32 r.maxMessagesInFlight),
    ("have_positions", .array (r.havePositions.map BlockPosition.toJson)),
    ("irreversible_only", .bool r.irreversibleOnly), ("fetch_block", .bool r.fetchBlock),
    ("fetch_traces", .bool r.fetchTraces), ("fetch_deltas", .bool r.fetchDeltas)]

/-- The object of the fields of a request. -/
def Request.fieldsToJson : Request → Json
  | status => Json.ofMembers []
  | blocks r => r.toJson
  | acknowledge messages => Json.ofMembers [("num_messages", .ofUInt32 messages)]

/-- The name of a request's type beside the object of its fields. -/
def Request.toJson (r : Request) : Json := .array [.string r.typeName, r.fieldsToJson]

end StateHistory
