import StateHistory.Configuration.Options
import StateHistory.Proofs.Schema.Declaration

/-! # Settings

The options of a client, one by one, as members of the sections of a configuration. A section is a table, which has
members by their names, or an array, which has them by their places (`Section.member?`). Options that are loaded are
what these members are read as (`Setting.reading?_of_ofValue`). -/

namespace StateHistory

namespace Configuration

/-! ### Settings -/

/-- The options of a client, one by one. -/
inductive Setting where
  | host | port | startBlock | stopBefore | initialDelay | maxDelay | factor
deriving DecidableEq, Repr

/-- The value of an option. -/
inductive Reading where
  | text (s : String)
  | word32 (w : UInt32)
  | word64 (w : UInt64)
  | float (x : Binary64)
deriving DecidableEq, Repr

namespace Setting

/-- The section of a setting. -/
def part : Setting → Section
  | host | port => .node
  | startBlock | stopBefore => .stream
  | initialDelay | maxDelay | factor => .reconnect

/-- The name of a setting in its section. -/
def key : Setting → String
  | host => "host"
  | port => "port"
  | startBlock => "start_block"
  | stopBefore => "stop_before"
  | initialDelay => "initial_delay_ms"
  | maxDelay => "max_delay_ms"
  | factor => "backoff_factor"

/-- The place of a setting in its section. -/
def place (t : Setting) : Nat := t.part.members.idxOf t.key

/-- The written path of a setting. -/
def path : Setting → String
  | host => "node.host"
  | port => "node.port"
  | startBlock => "stream.start_block"
  | stopBefore => "stream.stop_before"
  | initialDelay => "reconnect.initial_delay_ms"
  | maxDelay => "reconnect.max_delay_ms"
  | factor => "reconnect.backoff_factor"

/-- What a scalar is read as. -/
def read? (c : Scalar) : Setting → Option Reading
  | host | port => c.text?.map .text
  | startBlock | stopBefore => c.integer?.map fun n => .word32 (UInt32.ofInt n)
  | initialDelay | maxDelay => c.integer?.map fun n => .word64 (UInt64.ofInt n)
  | factor => c.float?.map .float

theorem read?_nothing (t : Setting) : t.read? .nothing = none := by
  cases t <;> rfl

end Setting

/-- The value of a member of a section. -/
def Section.member? (part : Section) (name : String) : Value → Option Value
  | .table _ entries => entries.lookup name
  | .array _ items => items[part.members.idxOf name]?
  | .scalar _ _ => none

end Configuration

open StateHistory.Configuration

/-- The value of a setting. -/
def Options.get (o : Options) : Setting → Reading
  | .host => .text o.node.host
  | .port => .text o.node.port
  | .startBlock => .word32 o.stream.startBlock
  | .stopBefore => .word32 o.stream.stopBefore
  | .initialDelay => .word64 o.reconnect.initialDelay
  | .maxDelay => .word64 o.reconnect.maxDelay
  | .factor => .float o.reconnect.factor

/-! ### Reading sections -/

namespace Configuration

variable {part : Section} {v : Value} {name : String}

theorem Section.map_value_contents {member : String → Option Member} (h : part.contents v = .ok member)
    (name : String) : (member name).map Member.value = part.member? name v := by
  cases v with
  | scalar origin content => cases h
  | array origin items =>
      cases h
      rw [Option.map_map]
      exact Option.map_id'
  | table origin entries =>
      cases h
      rw [Option.map_map]
      exact Option.map_id'

/-- The value of a setting in a section. -/
def Setting.find? (t : Setting) (v : Value) : Option Value := t.part.member? t.key v

/-- What the value of a setting in a section is read as. -/
def Setting.reading? (t : Setting) (v : Value) : Option Reading :=
  (t.find? v).bind fun w => w.scalar?.bind t.read?

theorem Setting.reading?_of_required {α : Type} {t : Setting} {member : String → Option Member}
    {f : Member → Except ConfigurationError α} {g : α → Reading} {x : Option α} {a : α}
    (hf : ∀ m a, f m = .ok a → m.value.scalar?.bind t.read? = some (g a))
    (hmember : t.part.contents v = .ok member) (hx : (member t.key).mapM f = .ok x)
    (ha : t.part.required v t.key x = .ok a) : t.reading? v = some (g a) := by
  cases hm : member t.key with
  | none =>
      rw [hm] at hx
      cases hx
      cases ha
  | some m =>
      rw [hm] at hx
      obtain ⟨b, hb, hx⟩ := bind_eq_ok_iff.mp hx
      cases hx
      cases ha
      rw [reading?, find?, ← Section.map_value_contents hmember, hm]
      exact hf m a hb

theorem Member.read_text {m : Member} {s : String} (h : m.text = .ok s) :
    (m.value.scalar?.bind fun c => c.text?.map Reading.text) = some (.text s) := by
  rw [Member.text] at h
  split at h
  · rename_i hs
    cases h
    exact (Option.map_bind ..).symm.trans (congrArg (Option.map _) hs)
  · cases h

theorem Member.read_float {m : Member} {x : Binary64} (h : m.float = .ok x) :
    (m.value.scalar?.bind fun c => c.float?.map Reading.float) = some (.float x) := by
  rw [Member.float] at h
  split at h
  · rename_i hx
    cases h
    exact (Option.map_bind ..).symm.trans (congrArg (Option.map _) hx)
  · cases h

theorem Member.read_integer {g : Int → Reading} {m : Member} {n : Int} (h : m.integer = .ok n) :
    (m.value.scalar?.bind fun c => c.integer?.map g) = some (g n) := by
  rw [Member.integer] at h
  split at h
  · rename_i hn
    cases h
    exact (Option.map_bind ..).symm.trans (congrArg (Option.map _) hn)
  · cases h

theorem Member.read_word32 {m : Member} {w : UInt32} (h : m.word32 = .ok w) :
    (m.value.scalar?.bind fun c => c.integer?.map fun n => Reading.word32 (UInt32.ofInt n)) = some (.word32 w) := by
  obtain ⟨n, hn, hw⟩ := bind_eq_ok_iff.mp h
  cases hw
  exact Member.read_integer hn

theorem Member.read_word64 {m : Member} {w : UInt64} (h : m.word64 = .ok w) :
    (m.value.scalar?.bind fun c => c.integer?.map fun n => Reading.word64 (UInt64.ofInt n)) = some (.word64 w) := by
  obtain ⟨n, hn, hw⟩ := bind_eq_ok_iff.mp h
  cases hw
  exact Member.read_integer hn

theorem Setting.reading?_of_endpoint {e : Endpoint} (h : Endpoint.ofValue v = .ok e) :
    Setting.reading? .host v = some (.text e.host) ∧ Setting.reading? .port v = some (.text e.port) := by
  obtain ⟨member, hmember, h⟩ := bind_eq_ok_iff.mp h
  obtain ⟨host, hhost, h⟩ := bind_eq_ok_iff.mp h
  obtain ⟨port, hport, h⟩ := bind_eq_ok_iff.mp h
  obtain ⟨a, ha, h⟩ := bind_eq_ok_iff.mp h
  obtain ⟨b, hb, h⟩ := bind_eq_ok_iff.mp h
  cases h
  exact ⟨reading?_of_required (fun _ _ => Member.read_text) hmember hhost ha,
    reading?_of_required (fun _ _ => Member.read_text) hmember hport hb⟩

theorem Setting.reading?_of_stream {s : StreamOptions} (h : StreamOptions.ofValue v = .ok s) :
    Setting.reading? .startBlock v = some (.word32 s.startBlock) ∧
      Setting.reading? .stopBefore v = some (.word32 s.stopBefore) := by
  obtain ⟨member, hmember, h⟩ := bind_eq_ok_iff.mp h
  obtain ⟨start, hstart, h⟩ := bind_eq_ok_iff.mp h
  obtain ⟨stop, hstop, h⟩ := bind_eq_ok_iff.mp h
  obtain ⟨a, ha, h⟩ := bind_eq_ok_iff.mp h
  obtain ⟨b, hb, h⟩ := bind_eq_ok_iff.mp h
  cases h
  exact ⟨reading?_of_required (fun _ _ => Member.read_word32) hmember hstart ha,
    reading?_of_required (fun _ _ => Member.read_word32) hmember hstop hb⟩

theorem Setting.reading?_of_reconnect {r : ReconnectOptions} (h : ReconnectOptions.ofValue v = .ok r) :
    Setting.reading? .initialDelay v = some (.word64 r.initialDelay) ∧
      Setting.reading? .maxDelay v = some (.word64 r.maxDelay) ∧
      Setting.reading? .factor v = some (.float r.factor) := by
  obtain ⟨member, hmember, h⟩ := bind_eq_ok_iff.mp h
  obtain ⟨initial, hinitial, h⟩ := bind_eq_ok_iff.mp h
  obtain ⟨limit, hlimit, h⟩ := bind_eq_ok_iff.mp h
  obtain ⟨factor, hfactor, h⟩ := bind_eq_ok_iff.mp h
  obtain ⟨a, ha, h⟩ := bind_eq_ok_iff.mp h
  obtain ⟨b, hb, h⟩ := bind_eq_ok_iff.mp h
  obtain ⟨c, hc, h⟩ := bind_eq_ok_iff.mp h
  cases h
  exact ⟨reading?_of_required (fun _ _ => Member.read_word64) hmember hinitial ha,
    reading?_of_required (fun _ _ => Member.read_word64) hmember hlimit hb,
    reading?_of_required (fun _ _ => Member.read_float) hmember hfactor hc⟩

theorem Section.exists_value {root v : Value} (h : Options.sectionValue root part = .ok v) :
    root.at? [.member part.name] = some v := by
  rw [Options.sectionValue] at h
  split at h <;> cases h
  assumption

/-- Every option is what the member of its section is read as. -/
theorem Setting.reading?_of_ofValue {root : Value} {o : Options} (h : Options.ofValue root = .ok o) (t : Setting) :
    (root.at? [.member t.part.name]).bind t.reading? = some (o.get t) := by
  obtain ⟨node, hnode, h⟩ := bind_eq_ok_iff.mp h
  obtain ⟨e, he, h⟩ := bind_eq_ok_iff.mp h
  obtain ⟨stream, hstream, h⟩ := bind_eq_ok_iff.mp h
  obtain ⟨s, hs, h⟩ := bind_eq_ok_iff.mp h
  obtain ⟨reconnect, hreconnect, h⟩ := bind_eq_ok_iff.mp h
  obtain ⟨r, hr, h⟩ := bind_eq_ok_iff.mp h
  cases h
  have hnode := Section.exists_value hnode
  have hstream := Section.exists_value hstream
  have hreconnect := Section.exists_value hreconnect
  cases t with
  | host => exact (congrArg (Option.bind · _) hnode).trans (reading?_of_endpoint he).1
  | port => exact (congrArg (Option.bind · _) hnode).trans (reading?_of_endpoint he).2
  | startBlock => exact (congrArg (Option.bind · _) hstream).trans (reading?_of_stream hs).1
  | stopBefore => exact (congrArg (Option.bind · _) hstream).trans (reading?_of_stream hs).2
  | initialDelay => exact (congrArg (Option.bind · _) hreconnect).trans (reading?_of_reconnect hr).1
  | maxDelay => exact (congrArg (Option.bind · _) hreconnect).trans (reading?_of_reconnect hr).2.1
  | factor => exact (congrArg (Option.bind · _) hreconnect).trans (reading?_of_reconnect hr).2.2

end Configuration

end StateHistory
