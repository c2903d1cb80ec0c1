import Mathlib.Data.List.Basic
import StateHistory.Session.Turn

/-! # Views of a trace

What can be read off the trace of a session: what the consumer was told (`calls`) and what it answered
(`answers`), the notifications of the end, the requests that were accepted, and whether anybody asked for
a close. All other events are plain: they only make reports.

Whatever a program of uses does to a session is told by the events it leaves (`Handle.run_used`): it
lengthens the queue and the trace, and nothing else changes. -/

namespace StateHistory

/-- Where an element of a list that was appended to stands. -/
theorem split_of_append {α : Type} {l m pre post : List α} {x : α} (h : l ++ m = pre ++ x :: post) :
    (∃ post', l = pre ++ x :: post' ∧ post = post' ++ m) ∨
      ∃ pre', pre = l ++ pre' ∧ m = pre' ++ x :: post := by
  rcases List.append_eq_append_iff.mp h with ⟨pre', hpre, hm⟩ | ⟨l', hl, hpost⟩
  · exact .inr ⟨pre', hpre, hm⟩
  · match l' with
    | [] =>
        rw [List.append_nil] at hl
        exact .inr ⟨[], by rw [hl, List.append_nil], hpost.symm⟩
    | y :: post' =>
        obtain ⟨hxy, hrest⟩ := List.cons.inj hpost
        exact .inl ⟨post', by rw [hl, hxy], hrest⟩

deriving instance DecidableEq for Event

namespace Event

/-- The call of an event. -/
def call? : Event → Option Call
  | called call => some call
  | _ => none

/-- The answer of an event. -/
def answer? : Event → Option (Except Failure Flow)
  | answered outcome => some outcome
  | _ => none

/-- The flag of a notification. -/
def notification? : Event → Option Bool
  | notified retry => some retry
  | _ => none

/-- The request of an event, with its frame. -/
def acceptance? : Event → Option (Request × Bytes)
  | accepted request frame => some (request, frame)
  | _ => none

/-- The flag of a close that was asked for. -/
def closeRequest? : Event → Option Bool
  | closeRequested retry => some retry
  | _ => none

/-- The command that a use of a handle leaves in the queue. -/
def command? : Event → Option Command
  | accepted _ frame => some (.send frame)
  | closeRequested retry => some (.close retry)
  | _ => none

/-- Whether the event is none of those above. -/
def isPlain : Event → Bool
  | accepted .. | closeRequested _ | called _ | answered _ | notified _ => false
  | _ => true

theorem call?_of_isPlain {e : Event} (h : e.isPlain) : e.call? = none := by
  cases e <;> simp_all [isPlain, call?]

theorem answer?_of_isPlain {e : Event} (h : e.isPlain) : e.answer? = none := by
  cases e <;> simp_all [isPlain, answer?]

theorem notification?_of_isPlain {e : Event} (h : e.isPlain) : e.notification? = none := by
  cases e <;> simp_all [isPlain, notification?]

theorem acceptance?_of_isPlain {e : Event} (h : e.isPlain) : e.acceptance? = none := by
  cases e <;> simp_all [isPlain, acceptance?]

theorem closeRequest?_of_isPlain {e : Event} (h : e.isPlain) : e.closeRequest? = none := by
  cases e <;> simp_all [isPlain, closeRequest?]

/-- Plain events do not show in a view that does not see them. -/
theorem filterMap_plain {α : Type} {view : Event → Option α} {es : List Event}
    (hv : ∀ {e : Event}, e.isPlain → view e = none) (h : ∀ e ∈ es, e.isPlain) :
    es.filterMap view = [] :=
  List.filterMap_eq_nil_iff.mpr fun e he => hv (h e he)

end Event

namespace Session

variable {α : Type} (view : Event → Option α) (s : Session)

/-- What a view sees of the trace, in order. -/
def seen : List α := s.trace.filterMap view

/-- What the consumer was told. -/
abbrev calls : List Call := s.seen Event.call?

/-- What the consumer answered. -/
abbrev answers : List (Except Failure Flow) := s.seen Event.answer?

/-- The notifications of the end. -/
abbrev notifications : List Bool := s.seen Event.notification?

/-- The requests that were accepted, and their frames. -/
abbrev acceptances : List (Request × Bytes) := s.seen Event.acceptance?

/-- The closes that were asked for. -/
abbrev closeRequests : List Bool := s.seen Event.closeRequest?

theorem eq_began_of_start {t : Target} {pre post : List Event} {e : Event}
    (h : (start t).trace = pre ++ e :: post) : e = .began := by
  have hmem : e ∈ (start t).trace := by
    rw [h]
    exact List.mem_append_right _ List.mem_cons_self
  exact List.mem_singleton.mp hmem

/-! ### Changes of a session -/

/-- The report of the frames that a session loses at its end. -/
def loss (s : Session) : List Event := if s.outbound.isEmpty then [] else [.unsent s.outbound.length]

theorem isPlain_of_mem_loss {s : Session} : ∀ e ∈ s.loss, e.isPlain := by
  intro e h
  unfold loss at h
  split at h
  · simp at h
  · rw [List.mem_singleton.mp h]; rfl

theorem meet_eq (s : Session) (e : Ending) :
    s.meet e = { s with isOpen := false, ending := some e, trace := s.trace ++ s.loss } := by
  unfold meet loss
  split
  · rename_i h; simp [h]
  · rename_i h; simp [h, note]

theorem ending_meet (s : Session) (e : Ending) : (s.meet e).ending = some e := by simp [meet_eq]

theorem catalog_meet (s : Session) (e : Ending) : (s.meet e).catalog = s.catalog := by simp [meet_eq]

theorem hand_zero (s : Session) : s.hand 0 = s := by simp [hand]

theorem seen_note (e : Event) : (s.note e).seen view = s.seen view ++ (view e).toList := by
  cases h : view e <;> simp [seen, note, h]

theorem seen_meet (hv : ∀ {e : Event}, e.isPlain → view e = none) (e : Ending) :
    (s.meet e).seen view = s.seen view := by
  simp [seen, meet_eq, Event.filterMap_plain hv isPlain_of_mem_loss]

/-! ### Uses of a handle -/

/-- The events that uses of a handle can leave in a session. -/
def Allows (s : Session) : Event → Prop
  | .accepted request frame =>
    s.phase.takesRequests ∧ s.isOpen ∧ Frame.encodeRequest s.catalog request = .ok frame
  | .closeRequested _ => True
  | _ => False

/-- The session after uses that left the given events. -/
def used (s : Session) (es : List Event) : Session :=
  { s with
    queue := s.queue ++ if s.isOpen then es.filterMap Event.command? else []
    trace := s.trace ++ es }

theorem used_nil (s : Session) : s.used [] = s := by simp [used]

theorem used_used (s : Session) (es es' : List Event) : (s.used es).used es' = s.used (es ++ es') := by
  by_cases h : s.isOpen <;> simp [used, h]

theorem allows_used {s : Session} {es : List Event} : (s.used es).Allows = s.Allows := by
  funext e
  cases e <;> rfl

theorem send_used {s s' : Session} {r : Request} (h : s.send r = .ok s') :
    ∃ frame, s' = s.used [.accepted r frame] ∧ s.Allows (.accepted r frame) := by
  unfold send at h
  split at h
  · cases h
  · rename_i hp
    split at h
    · cases h
    · rename_i frame hf
      split at h
      · rename_i ho
        cases h
        exact ⟨frame, by simp [used, ho, Event.command?], by simpa using hp, ho, hf⟩
      · cases h

theorem seen_used (es : List Event) : (s.used es).seen view = s.seen view ++ es.filterMap view := by
  simp [seen, used]

theorem seen_used_unseen {s : Session} {es : List Event} (ha : ∀ r f, view (.accepted r f) = none)
    (hc : ∀ retry, view (.closeRequested retry) = none) (h : ∀ e ∈ es, s.Allows e) :
    (s.used es).seen view = s.seen view := by
  have hes : es.filterMap view = [] := by
    rw [List.filterMap_eq_nil_iff]
    intro e he
    have hallowed := h e he
    match e with
    | .accepted r f => exact ha r f
    | .closeRequested retry => exact hc retry
  rw [seen_used, hes, List.append_nil]

theorem close_used (s : Session) (retry : Bool) : s.close retry = s.used [.closeRequested retry] := by
  by_cases h : s.isOpen <;> simp [close, used, note, h, Event.command?]

end Session

/-- A program of uses does nothing but leave the events of its uses. -/
theorem Handle.run_used {α : Type} (h : Handle α) (s : Session) :
    ∃ es, (∀ e ∈ es, s.Allows e) ∧ (h.run s).2 = s.used es := by
  induction h generalizing s with
  | done result => exact ⟨[], by simp, by rw [Handle.run, Session.used_nil]⟩
  | send request next ih =>
      rw [Handle.run]
      split
      · rename_i s' hs
        obtain ⟨frame, rfl, hf⟩ := Session.send_used hs
        obtain ⟨es, hes, hrun⟩ := ih (.ok ()) (s.used [.accepted request frame])
        rw [Session.allows_used] at hes
        refine ⟨.accepted request frame :: es, ?_, by rw [hrun, Session.used_used]; rfl⟩
        intro e he
        rcases List.mem_cons.mp he with rfl | he
        · exact hf
        · exact hes e he
      · exact ih _ s
  | close retry next ih =>
      obtain ⟨es, hes, hrun⟩ := ih (s.used [.closeRequested retry])
      rw [Session.allows_used] at hes
      refine ⟨.closeRequested retry :: es, ?_, ?_⟩
      · intro e he
        rcases List.mem_cons.mp he with rfl | he
        · trivial
        · exact hes e he
      · rw [Handle.run, Session.close_used, hrun, Session.used_used]; rfl
  | phase next ih => exact ih s.phase s
  | catalog next ih => exact ih s.catalog s

theorem Handle.used_of_run {α : Type} {h : Handle α} {s s' : Session} {result : α}
    (hrun : h.run s = (result, s')) : ∃ es, (∀ e ∈ es, s.Allows e) ∧ s' = s.used es := by
  obtain ⟨es, hes, hused⟩ := h.run_used s
  rw [hrun] at hused
  exact ⟨es, hes, hused⟩

end StateHistory
