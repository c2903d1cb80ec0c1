import StateHistory.Proofs.Frame.Failure
import StateHistory.Proofs.Session.Closing
import StateHistory.Proofs.Session.Moment
import StateHistory.Proofs.Session.Reception

/-! # The life of a session

A session publishes its phases as it enters them (`Session.phases`). It enters them in one order, leaves none out and
none twice, and may close from each of them; after that it enters no other (`Session.Staged`). The catalog is there
from the moment at which the schema is accepted, which is when the session begins to stream, and stays what it is.
The schema is the first data frame that the session looks at (`catalog_lived`); when it cannot be accepted, the
session never streams.

`life_cycle` says all this of every moment of a session, those in which its consumer is called included. -/

namespace StateHistory

namespace Phase

/-- The phases before the end, in their order. -/
def inOrder : List Phase := [.disconnected, .resolving, .connecting, .handshaking, .awaitingSchema, .streaming]

/-- The phases up to a given one. -/
def upTo (p : Phase) : List Phase := inOrder.take (inOrder.idxOf p + 1)

theorem upTo_afterStep {p : Phase} {step : String} (h : p.openingStep? = some step) :
    p.upTo ++ [p.afterStep] = p.afterStep.upTo := by
  cases p <;> first | rfl | cases h

end Phase

namespace Event

/-- The phase that an event publishes. -/
def phase? : Event → Option Phase
  | entered _ next => some next
  | _ => none

/-- Version and size of the schema that an event accepts. -/
def schema? : Event → Option (String × Nat)
  | schemaAccepted version size => some (version, size)
  | _ => none

/-- Whether an event neither publishes a phase nor accepts a schema. -/
def IsStill (e : Event) : Prop := e.phase? = none ∧ e.schema? = none

end Event

namespace Session

variable {σ : Type} {c : Consumer σ} {s s' : Session} {k : σ}

/-- The phases that a session has published: the one in which it began, and all that it entered. -/
def phases (s : Session) : List Phase := .disconnected :: s.seen Event.phase?

/-- The schemas that a session has accepted. -/
abbrev schemas (s : Session) : List (String × Nat) := s.seen Event.schema?

/-- What holds of the phases and of the catalog of a session at every moment of its life. -/
structure Staged (s : Session) : Prop where
  live : s.phase ≠ .closed → s.phases = s.phase.upTo
  closed : s.phase = .closed → ∃ p : Phase, p ≠ .closed ∧ s.phases = p.upTo ++ [Phase.closed]
  streamed_iff : s.catalog.isSome ↔ .streaming ∈ s.phases
  schemas_eq : s.schemas = (s.catalog.map fun catalog => (catalog.version, catalog.size)).toList

theorem start_staged (t : Target) : (start t).Staged where
  live := fun _ => rfl
  closed := nofun
  streamed_iff := by simp [start, phases, seen, Event.phase?]
  schemas_eq := rfl

theorem Staged.isSome_catalog (h : s.Staged) (hp : s.phase = .streaming) : s.catalog.isSome := by
  rw [h.streamed_iff, h.live (by rw [hp]; nofun), hp]
  decide

/-! ### What keeps the phase -/

/-- Still events leave a session on its stage. -/
theorem Staged.extend (h : s.Staged) (es : List Event) (ht : s'.trace = s.trace ++ es) (hes : ∀ e ∈ es, e.IsStill)
    (hp : s'.phase = s.phase) (hcat : s'.catalog = s.catalog) : s'.Staged := by
  have hphases : s'.phases = s.phases := by
    have hnone : es.filterMap Event.phase? = [] := List.filterMap_eq_nil_iff.mpr fun e he => (hes e he).1
    rw [phases, phases, seen, seen, ht, List.filterMap_append, hnone, List.append_nil]
  have hschemas : s'.schemas = s.schemas := by
    have hnone : es.filterMap Event.schema? = [] := List.filterMap_eq_nil_iff.mpr fun e he => (hes e he).2
    rw [schemas, schemas, seen, seen, ht, List.filterMap_append, hnone, List.append_nil]
  constructor
  case live => rw [hp, hphases]; exact h.live
  case closed => rw [hp, hphases]; exact h.closed
  case streamed_iff => rw [hcat, hphases]; exact h.streamed_iff
  case schemas_eq => rw [hcat, hschemas]; exact h.schemas_eq

theorem Staged.same (h : s.Staged) (ht : s'.trace = s.trace) (hp : s'.phase = s.phase)
    (hcat : s'.catalog = s.catalog) : s'.Staged :=
  h.extend [] (by rw [ht, List.append_nil]) (by simp) hp hcat

theorem Staged.note (h : s.Staged) {e : Event} (he : e.IsStill) : (s.note e).Staged :=
  h.extend [e] rfl (fun x hx => by rwa [List.mem_singleton.mp hx]) rfl rfl

theorem Staged.meet (h : s.Staged) (e : Ending) : (s.meet e).Staged := by
  rw [meet_eq]
  refine h.extend s.loss rfl (fun x hx => ?_) rfl rfl
  unfold loss at hx
  split at hx
  · cases hx
  · rw [List.mem_singleton.mp hx]
    exact ⟨rfl, rfl⟩

theorem Staged.hand (h : s.Staged) (room : Nat) : (s.hand room).Staged := h.same rfl rfl rfl

theorem Staged.used (h : s.Staged) {es : List Event} (hes : ∀ e ∈ es, s.Allows e) : (s.used es).Staged := by
  refine h.extend es rfl (fun e he => ?_) rfl rfl
  have hallowed := hes e he
  match e with
  | .accepted _ _ => exact ⟨rfl, rfl⟩
  | .closeRequested _ => exact ⟨rfl, rfl⟩

theorem Staged.answered (h : s.Staged) (call : Call) (outcome : Except Failure Flow) :
    (s.answered call outcome).Staged := by
  have hnote : (s.note (.answered outcome)).Staged := h.note ⟨rfl, rfl⟩
  unfold Session.answered
  split
  · exact hnote
  · exact hnote.meet _

/-! ### What enters a phase -/

theorem phases_enter (s : Session) (p : Phase) : (s.enter p).phases = s.phases ++ [p] := by
  simp [phases, seen, Session.enter, Event.phase?]

theorem schemas_enter (s : Session) (p : Phase) : (s.enter p).schemas = s.schemas := by
  simp [seen, Session.enter, Event.schema?]

theorem Staged.enter (h : s.Staged) {p : Phase} (hlive : s.phase ≠ .closed) (hnext : s.phase.upTo ++ [p] = p.upTo)
    (hp : p ≠ .streaming) (hp' : p ≠ .closed) : (s.enter p).Staged := by
  constructor
  case live =>
    intro _
    rw [phases_enter, h.live hlive]
    exact hnext
  case closed => exact fun hclosed => absurd hclosed hp'
  case streamed_iff =>
    have hlast : .streaming ∈ [p] ↔ False := by simpa using Ne.symm hp
    rw [phases_enter, List.mem_append, hlast, or_false]
    exact h.streamed_iff
  case schemas_eq => rw [schemas_enter]; exact h.schemas_eq

theorem Staged.enter_closed (h : s.Staged) (hlive : s.phase ≠ .closed) : (s.enter .closed).Staged := by
  constructor
  case live => exact fun hclosed => absurd rfl hclosed
  case closed =>
    intro _
    refine ⟨s.phase, hlive, ?_⟩
    rw [phases_enter, h.live hlive]
  case streamed_iff =>
    rw [phases_enter, List.mem_append, show .streaming ∈ [Phase.closed] ↔ False by decide, or_false]
    exact h.streamed_iff
  case schemas_eq => rw [schemas_enter]; exact h.schemas_eq

/-- A session that takes a data frame streams, from now on if the frame is its schema. -/
theorem Staged.accepting (h : s.Staged) (hs : s.Coherent) (he : s.ending = none) (hp : s.phase.takesRequests)
    (room : Nat) {frame : Bytes} {call : Call} (hf : callFor s.catalog frame = .ok call) :
    ((s.hand room).accepting frame (reportsOf s.catalog frame)).Staged := by
  have hphase := hs.phase_of_takesRequests he hp
  cases hcat : s.catalog with
  | some catalog =>
      rw [hcat] at hphase
      refine (h.hand room).extend (reportsOf (some catalog) frame) rfl (fun e he => ?_) hphase.symm ?_
      · unfold reportsOf at he
        dsimp only at he
        split at he
        · obtain ⟨entry, -, rfl⟩ := List.mem_map.mp he
          exact ⟨rfl, rfl⟩
        · cases he
      · change catalogAfter s.catalog frame = s.catalog
        rw [hcat, catalogAfter]
  | none =>
      rw [hcat] at hphase hf
      cases hparse : Frame.parseSchema frame with
      | error e => simp [callFor, hparse, Except.map] at hf
      | ok parsed =>
          obtain ⟨catalog, entries⟩ := parsed
          have hphases : ((s.hand room).accepting frame (reportsOf none frame)).phases =
              s.phases ++ [.streaming] := by
            simp [phases, seen, Session.accepting, Session.hand, reportsOf, hparse, Event.phase?,
              List.filterMap_map, Function.comp_def, List.filterMap_cons]
          have hschemas : ((s.hand room).accepting frame (reportsOf none frame)).schemas =
              s.schemas ++ [(catalog.version, catalog.size)] := by
            simp [seen, Session.accepting, Session.hand, reportsOf, hparse, Event.schema?,
              List.filterMap_map, Function.comp_def, List.filterMap_cons]
          have hafter : ((s.hand room).accepting frame (reportsOf none frame)).catalog = some catalog := by
            simp [Session.accepting, Session.hand, catalogAfter, hcat, hparse, Except.toOption]
          constructor
          case live =>
            intro _
            rw [hphases, h.live (by simp [hphase]), hphase]
            rfl
          case closed =>
            intro hclosed
            cases hclosed
          case streamed_iff => simp [hphases, hafter]
          case schemas_eq => rw [hschemas, hafter, h.schemas_eq, hcat]; rfl

/-! ### Turns -/

theorem Staged.openingTurn (h : s.Staged) {step : String} (hp : s.phase.openingStep? = some step) (r : Readiness) :
    (s.openingTurn step s.phase.afterStep r).Staged := by
  unfold Session.openingTurn
  match hq : s.queue with
  | .send _ :: rest =>
      have hrest : { s with queue := rest }.Staged := h.same rfl rfl rfl
      exact hrest.note ⟨rfl, rfl⟩
  | .close retry :: rest =>
      have hrest : { s with queue := rest }.Staged := h.same rfl rfl rfl
      exact hrest.meet _
  | [] =>
      match r.opening with
      | none => exact h
      | some (.error text) => exact h.meet _
      | some (.ok ()) =>
          obtain ⟨-, hstreaming, hclosed⟩ := afterStep_of_openingStep? hp
          have hlive : s.phase ≠ .closed := by
            intro hphase
            rw [hphase] at hp
            cases hp
          have hnext := h.enter hlive (Phase.upTo_afterStep hp) hstreaming hclosed
          dsimp only
          split
          · exact hnext.note ⟨rfl, rfl⟩
          · exact hnext

theorem Staged.tell (h : s.Staged) (call : Call) (k : σ) : (tell c call s k).1.Staged := by
  have hcalled : (s.note (.called call)).Staged := h.note ⟨rfl, rfl⟩
  obtain ⟨uses, huses, hrun⟩ := (c.answer call k).run_used (s.note (.called call))
  rw [tell_eq, hrun]
  exact (hcalled.used huses).answered call _

theorem Staged.receive (h : s.Staged) (hs : s.Coherent) (he : s.ending = none) (hp : s.phase.takesRequests)
    (i : Incoming) (room : Nat) (k : σ) : (receive c i (s.hand room) k).1.Staged := by
  match i with
  | .control => exact h.hand room
  | .closing => exact (h.hand room).meet _
  | .failed text => exact (h.hand room).meet _
  | .over => exact (h.hand room).meet _
  | .data frame =>
      cases hf : callFor s.catalog frame with
      | error e =>
          rw [receive_of_refusal room hs he hp hf]
          have hrefused : ((s.hand room).note (refusalOf s.catalog frame e)).Staged := by
            refine (h.hand room).note ?_
            cases s.catalog <;> exact ⟨rfl, rfl⟩
          exact hrefused.meet _
      | ok call =>
          rw [receive_of_call room hs he hp hf]
          exact (h.accepting hs he hp room hf).tell call k

theorem Staged.exchangeTurn (h : s.Staged) (hs : s.Coherent) (he : s.ending = none) (hp : s.phase.takesRequests)
    (r : Readiness) (k : σ) : (exchangeTurn c r s k).1.Staged := by
  have hroom : (if s.unflushed then s.hand r.room else s) = s.hand (s.roomFor r) := by
    unfold roomFor
    split
    · rfl
    · exact (hand_zero s).symm
  unfold Session.exchangeTurn
  match hq : s.queue with
  | .send frame :: rest => exact h.same rfl rfl rfl
  | .close retry :: rest =>
      have hrest : { s with queue := rest }.Staged := h.same rfl rfl rfl
      exact hrest.meet _
  | [] =>
      have hhanded := h.hand (s.roomFor r)
      dsimp only
      rw [hroom]
      split
      · exact hhanded.same rfl rfl rfl
      · exact hhanded.meet _
      · split
        · exact h.receive hs he hp _ _ k
        · exact hhanded

/-- What a consumer that was told of the end has left: it has returned, or it has panicked. -/
def returned (result : (Option Panic × σ) × Session) : Session :=
  match result.1.1 with
  | some p => result.2.note (.notificationPanicked p)
  | none => result.2

theorem finish_eq (e : Ending) (s : Session) (k : σ) : finish c e s k =
    ((returned ((c.onEnd e.retry k).run (s.noticing e))).enter .closed,
      ((c.onEnd e.retry k).run (s.noticing e)).1.2) := rfl

theorem phase_run {α : Type} (h : Handle α) (s : Session) : (h.run s).2.phase = s.phase := by
  obtain ⟨es, -, hrun⟩ := h.run_used s
  rw [hrun]
  rfl

theorem phase_returned (p : Handle (Option Panic × σ)) (s : Session) : (returned (p.run s)).phase = s.phase := by
  unfold returned
  split
  · exact phase_run p s
  · exact phase_run p s

theorem Staged.noticing (h : s.Staged) (e : Ending) : (s.noticing e).Staged :=
  (h.note (e := .ended e) ⟨rfl, rfl⟩).note ⟨rfl, rfl⟩

theorem Staged.finish (h : s.Staged) (hp : s.phase ≠ .closed) (e : Ending) (k : σ) :
    (finish c e s k).1.Staged := by
  have hreturned : (returned ((c.onEnd e.retry k).run (s.noticing e))).Staged := by
    obtain ⟨uses, huses, hrun⟩ := (c.onEnd e.retry k).run_used (s.noticing e)
    have hused := (h.noticing e).used huses
    unfold returned
    rw [hrun]
    split
    · exact hused.note ⟨rfl, rfl⟩
    · exact hused
  rw [finish_eq]
  refine hreturned.enter_closed ?_
  rw [phase_returned]
  exact hp

theorem Staged.turn (h : s.Staged) (hs : s.Coherent) (r : Readiness) (k : σ) : (turn c r s k).1.Staged := by
  cases he : s.ending with
  | some e =>
      by_cases hp : s.phase = .closed
      · unfold Session.turn
        rw [hp]
        exact h
      · rw [turn_of_ending he hp]
        exact h.finish hp e k
  | none =>
      unfold Session.turn
      rw [he]
      have hopening : ∀ step, s.phase.openingStep? = some step → (s.openingTurn step s.phase.afterStep r).Staged :=
        fun _ hp => h.openingTurn hp r
      have hexchange := fun hp => h.exchangeTurn (c := c) hs he hp r k
      match hp : s.phase with
      | .disconnected => exact h.enter (by rw [hp]; nofun) (by rw [hp]; rfl) nofun nofun
      | .resolving => rw [hp] at hopening; exact hopening "resolve" rfl
      | .connecting => rw [hp] at hopening; exact hopening "connect" rfl
      | .handshaking => rw [hp] at hopening; exact hopening "handshake" rfl
      | .awaitingSchema => exact hexchange (by rw [hp]; rfl)
      | .streaming => exact hexchange (by rw [hp]; rfl)
      | .closed => exact h

/-- Whatever moves are made, a session stays on its stages. -/
theorem Staged.moves (h : s.Staged) (hs : s.Coherent) (ms : List (Move σ)) : (moves c ms s k).1.Staged := by
  induction ms generalizing s k with
  | nil => exact h
  | cons m ms ih =>
      refine ih ?_ (hs.move m)
      match m with
      | .turn r => exact h.turn hs r k
      | .use p =>
          obtain ⟨es, hes, hused⟩ := move_use (c := c) p s k
          change (move c (.use p) s k).1.Staged
          rw [hused]
          exact h.used hes

/-- The stages hold while the consumer is called, too. -/
theorem Passes.staged (h : Passes c s k s') (hs : s.Coherent) (hstaged : s.Staged) : s'.Staged := by
  induction h with
  | between ms => exact hstaged.moves hs ms
  | @calling ms r call s' hcallback =>
      obtain ⟨he, frame, hframe, hf, rfl⟩ := callback?_eq_call hcallback
      obtain ⟨-, hp, -⟩ := occurrence?_eq_incoming_iff.mp hframe
      exact ((hstaged.moves hs ms).accepting (hs.moves ms) he hp _ hf).note ⟨rfl, rfl⟩
  | @noticing ms r e s' hcallback =>
      obtain ⟨-, -, rfl⟩ := callback?_eq_notice hcallback
      exact (hstaged.moves hs ms).noticing e
  | accepted _ hsend ih =>
      obtain ⟨frame, rfl, hallowed⟩ := send_used hsend
      exact ih.used fun e he => by rwa [List.mem_singleton.mp he]
  | close retry _ ih =>
      rw [close_used]
      exact ih.used fun e he => by rw [List.mem_singleton.mp he]; trivial

/-! ### The catalog -/

theorem catalogAfter_of_refusal {catalog : Option Schema.Catalog} {frame : Bytes} {e : ProtocolError}
    (h : callFor catalog frame = .error e) : catalogAfter catalog frame = catalog := by
  cases catalog with
  | some catalog => rfl
  | none =>
      unfold callFor at h
      unfold catalogAfter
      cases hparse : Frame.parseSchema frame with
      | error e => rfl
      | ok parsed =>
          rw [hparse] at h
          cases h

/-- Nothing but a data frame changes the catalog. -/
theorem Turned.catalog_eq {o : Option Occurrence} {p : Session × σ} (h : Turned c s k o p) : p.1.catalog =
    match (o.bind Occurrence.incoming?).bind Incoming.data? with
    | some frame => catalogAfter s.catalog frame
    | none => s.catalog := by
  cases h with
  | idle | begun | dropped | advanced | taken | handed | flushed | ignored | finished => rfl
  | closed | openingFailed | writeFailed => exact catalog_meet _ _
  | broken room i e he hp hq hi =>
      match i with
      | .control | .closing | .failed _ | .over => exact catalog_meet _ _
  | refused room frame error report he hp hq hf hr =>
      exact (catalog_meet _ _).trans (catalogAfter_of_refusal hf).symm
  | told room frame call reports outcome k' s' he hp hq hf hr hrun =>
      obtain ⟨uses, -, rfl⟩ := Handle.used_of_run hrun
      exact catalog_answered _ _ _

/-- A session that has ended looks at nothing. -/
theorem occurrences_of_ending {e : Ending} (hs : s.Coherent) (he : s.ending = some e) (ms : List (Move σ)) :
    occurrences c ms s k = [] := by
  induction ms generalizing s k with
  | nil => rfl
  | cons m ms ih =>
      have hnone : m.occurrence? s = none := by
        match m with
        | .turn r => simp [Move.occurrence?, occurrence?, he]
        | .use p => rfl
      rw [occurrences, hnone, ih (hs.move m) (ending_move hs he m)]
      rfl

/-- The first data frame of a history. -/
def firstFrame? (os : List Occurrence) : Option Bytes :=
  ((os.filterMap Occurrence.incoming?).filterMap Incoming.data?).head?

theorem firstFrame?_append (os more : List Occurrence) :
    firstFrame? (os ++ more) = (firstFrame? os).or (firstFrame? more) := by
  simp [firstFrame?, List.head?_append]

theorem firstFrame?_toList (o : Option Occurrence) :
    firstFrame? o.toList = (o.bind Occurrence.incoming?).bind Incoming.data? := by
  cases o with
  | none => rfl
  | some o =>
      cases hi : o.incoming? with
      | none => simp [firstFrame?, hi]
      | some i => cases hd : i.data? <;> simp [firstFrame?, hi, hd]

/-- A schema that is not accepted ends the session. -/
theorem Turned.ending_ne_none {o : Option Occurrence} {p : Session × σ} {frame : Bytes} (h : Turned c s k o p)
    (hframe : (o.bind Occurrence.incoming?).bind Incoming.data? = some frame)
    (hnone : catalogAfter s.catalog frame = none) : p.1.ending ≠ none := by
  cases h with
  | idle | begun | dropped | closed | advanced | openingFailed | taken | handed | flushed | writeFailed | ignored
  | finished => cases hframe
  | broken room i e he hp hq hi =>
      match i with
      | .data frame => cases hi
      | .control | .closing | .failed _ | .over => cases hframe
  | refused room frame error report he hp hq hf hr =>
      rw [ending_meet]
      nofun
  | told room frame call reports outcome k' s' he hp hq hf hr hrun =>
      obtain rfl := Option.some.inj hframe
      have hsome := isSome_catalogAfter hf
      rw [hnone] at hsome
      cases hsome

/-- The catalog is the one of the first data frame, from the moment on at which the session looks at that frame. -/
theorem catalog_moves (hs : s.Coherent) (ms : List (Move σ)) : (moves c ms s k).1.catalog =
    s.catalog.or ((firstFrame? (occurrences c ms s k)).bind (catalogAfter none)) := by
  induction ms generalizing s k with
  | nil => simp [moves, occurrences, firstFrame?]
  | cons m ms ih =>
      rw [moves_cons, ih (hs.move m), occurrences, firstFrame?_append, firstFrame?_toList]
      cases m with
      | use p =>
          obtain ⟨es, -, hused⟩ := move_use (c := c) p s k
          rw [hused]
          rfl
      | turn r =>
          have hturned : Turned c s k (s.occurrence? r) (move c (.turn r) s k) := turn_turned hs
          rw [show (Move.turn r : Move σ).occurrence? s = s.occurrence? r from rfl, hturned.catalog_eq]
          cases hframe : ((s.occurrence? r).bind Occurrence.incoming?).bind Incoming.data? with
          | none => rw [Option.none_or]
          | some frame =>
              rw [Option.some_or]
              cases hcat : s.catalog with
              | some catalog => rfl
              | none =>
                  cases hafter : catalogAfter none frame with
                  | some catalog => simp [hafter]
                  | none =>
                      obtain ⟨e, he⟩ := Option.ne_none_iff_exists'.mp
                        (hturned.ending_ne_none hframe (by rw [hcat]; exact hafter))
                      rw [occurrences_of_ending (hs.move (.turn r)) he]
                      simp [firstFrame?, hafter]

theorem Passes.catalog_eq {catalog : Schema.Catalog} (h : Passes c s k s') (hs : s.Coherent)
    (hcat : s.catalog = some catalog) : s'.catalog = some catalog :=
  h.preserves (P := fun s' => s'.catalog = some catalog)
    (fun ms => by rw [catalog_moves hs, hcat, Option.some_or])
    (fun {s} _ frame _ hcat _ _ => by
      change catalogAfter s.catalog frame = some catalog
      rw [hcat, catalogAfter])
    (fun hcat _ => hcat) fun hcat _ => hcat

/-- A session that has ended gets no catalog any more. -/
theorem Passes.catalog_of_ending {e : Ending} (h : Passes c s k s') (hs : s.Coherent) (he : s.ending = some e) :
    s'.ending = some e ∧ s'.catalog = s.catalog :=
  h.preserves (P := fun s' => s'.ending = some e ∧ s'.catalog = s.catalog)
    (fun ms => ⟨ending_moves hs he ms, by simp [catalog_moves hs, occurrences_of_ending hs he, firstFrame?]⟩)
    (fun _ h hnone _ => by cases h.1.symm.trans hnone)
    (fun h _ => h) fun h _ => h

/-- A first data frame that is no acceptable schema is what a history ends with. -/
theorem account_first {os : List Occurrence} {answers : List (Except Failure Flow)} {frame : Bytes}
    {e : ProtocolError} (hframe : firstFrame? os = some frame) (hparse : Frame.parseSchema frame = .error e)
    (hread : (account none os answers).unread = []) : (account none os answers).ending = some (.protocol e) := by
  induction os with
  | nil => cases hframe
  | cons o os ih =>
      rw [← List.singleton_append, firstFrame?_append, show [o] = (some o).toList from rfl,
        firstFrame?_toList] at hframe
      by_cases hdata : ∃ frame, o = .incoming (.data frame)
      · obtain ⟨frame', rfl⟩ := hdata
        obtain rfl : frame' = frame := Option.some.inj hframe
        have hrefused : callFor none frame' = .error e := congrArg (Except.map fun _ => Call.schema) hparse
        rw [account_refused hrefused]
      · have hne : ∀ frame, o ≠ .incoming (.data frame) := fun frame ho => hdata ⟨frame, ho⟩
        have hnone : o.incoming?.bind Incoming.data? = none := by
          match o with
          | .command _ | .opening _ _ | .writing _ => rfl
          | .incoming (.data frame) => exact absurd rfl (hne frame)
          | .incoming .control | .incoming .closing | .incoming (.failed _) | .incoming .over => rfl
        rw [Option.bind_some, hnone, Option.none_or] at hframe
        rw [account_cons hne] at hread ⊢
        cases hend : o.ending? with
        | none =>
            rw [hend] at hread
            exact ih hframe hread
        | some e' =>
            rw [hend] at hread
            obtain rfl : os = [] := hread
            cases hframe

/-! ### Ends -/

/-- A session never complains of a result that came before the schema. -/
def Seemly (s : Session) : Prop := s.ending ≠ some (.protocol .resultBeforeSchema)

theorem callFor_failsOnly (catalog : Option Schema.Catalog) (frame : Bytes) : FailsOnly (callFor catalog frame) := by
  intro e he
  cases catalog with
  | none =>
      refine Frame.failsOnly_parseSchema frame e ?_
      cases hparse : Frame.parseSchema frame <;> simp_all [callFor, Except.map]
  | some catalog =>
      refine Frame.failsOnly_decodeResult catalog frame e ?_
      cases hdecode : Frame.decodeResult catalog frame <;> simp_all [callFor, Except.map]

theorem Seemly.turned {o : Option Occurrence} {p : Session × σ} (h : s.Seemly) (_ : s.Coherent)
    (hturn : Turned c s k o p) : p.1.Seemly := by
  cases hturn with
  | idle | begun | dropped | advanced | taken | handed | flushed | ignored | finished => exact h
  | closed | openingFailed | writeFailed =>
      rw [Seemly, ending_meet]
      nofun
  | broken room i e he hp hq hi =>
      rw [Seemly, ending_meet]
      rintro ⟨⟩
      cases i <;> cases hi
  | refused room frame error report he hp hq hf hr =>
      rw [Seemly, ending_meet]
      rintro ⟨⟩
      exact callFor_failsOnly _ _ _ hf rfl
  | told room frame call reports outcome k' s' he hp hq hf hr hrun =>
      obtain ⟨uses, -, rfl⟩ := Handle.used_of_run hrun
      have hend : ((((s.hand room).accepting frame reports).note (.called call)).used uses).ending = none := he
      rw [Seemly, ending_answered, hend, Option.or_none]
      rcases outcome with failure | ⟨⟨⟩ | ⟨⟩⟩ <;> nofun

theorem Passes.seemly (h : Passes c s k s') (hs : s.Coherent) (hseemly : s.Seemly) : s'.Seemly :=
  h.preserves (fun ms => hs.preserves Seemly.turned (fun h _ => h) hseemly ms) (fun _ h _ _ => h) (fun h _ => h)
    fun h _ => h

/-- A session that has met no end does not close. -/
theorem Turned.phase_ne_closed {o : Option Occurrence} {p : Session × σ} (h : Turned c s k o p) (hs : s.Coherent)
    (he : s.ending = none) : p.1.phase ≠ .closed := by
  have hlive := hs.not_closed he
  have hmeet : ∀ (s : Session) (e : Ending), (s.meet e).phase = s.phase := fun s e => by rw [meet_eq]
  cases h with
  | idle | dropped | taken | handed | flushed | ignored => exact hlive
  | begun => nofun
  | advanced step reports he hp hq hr => exact (afterStep_of_openingStep? hp).2.2
  | closed | openingFailed | writeFailed | broken | refused =>
      rw [hmeet]
      exact hlive
  | told room frame call reports outcome k' s' he hp hq hf hr hrun =>
      obtain ⟨uses, -, rfl⟩ := Handle.used_of_run hrun
      unfold answered
      split
      · nofun
      · rw [hmeet]
        nofun
  | finished e uses reports hp he' hu hr => cases he.symm.trans he'

/-- A session closes in no move but a turn that tells its consumer of the end, and then not before the consumer is
done with that. -/
theorem move_closes {m : Move σ} (hs : s.Coherent) (hp : s.phase ≠ .closed)
    (hclosed : (move c m s k).1.phase = .closed) :
    ∃ r e s', m = .turn r ∧ s.callback? r = some (.notice e s') ∧
      (∀ p : Handle Unit, (p.run s').2.phase ≠ .closed) ∧
      (move c m s k).1 = (returned ((c.onEnd e.retry k).run s')).enter .closed := by
  match m with
  | .use p =>
      obtain ⟨es, -, hused⟩ := move_use (c := c) p s k
      rw [hused] at hclosed
      exact absurd hclosed hp
  | .turn r =>
      have hturned : Turned c s k (s.occurrence? r) (move c (.turn r) s k) := turn_turned hs
      cases he : s.ending with
      | none => exact absurd hclosed (hturned.phase_ne_closed hs he)
      | some e =>
          refine ⟨r, e, s.noticing e, rfl, ?_, ?_, ?_⟩
          · rw [callback?, he]
            exact if_neg hp
          · intro p
            rw [phase_run]
            exact hp
          · rw [move, turn_of_ending he hp, finish_eq]

/-! ### The first data frame -/

theorem catalog_lived (c : Consumer σ) (t : Target) (ms : List (Move σ)) (k : σ) :
    (lived c t ms k).catalog = (firstFrame? (history c t ms k)).bind (catalogAfter none) :=
  catalog_moves (start_coherent t) ms

section Refusal

variable {t : Target} {ms : List (Move σ)} {frame : Bytes} {e : ProtocolError}

/-- A session whose first data frame is no acceptable schema ends with the error of that frame. -/
theorem ending_lived_of_refusal (hframe : firstFrame? (history c t ms k) = some frame)
    (hparse : Frame.parseSchema frame = .error e) : (lived c t ms k).ending = some (.protocol e) := by
  have haccount := account_history c t ms k
  have hfirst := account_first hframe hparse (by rw [haccount])
  rw [haccount] at hfirst
  exact hfirst

/-- A session whose first data frame is no acceptable schema does not stream, then or later. -/
theorem not_streaming_of_refusal {k' : σ} (hframe : firstFrame? (history c t ms k) = some frame)
    (hparse : Frame.parseSchema frame = .error e) (hs : Passes c (lived c t ms k) k' s) :
    .streaming ∉ s.phases ∧ s.ending = some (.protocol e) := by
  have hlived := lived_coherent c t ms k
  have hstaged : (lived c t ms k).Staged := (start_staged t).moves (start_coherent t) ms
  have hnone : (lived c t ms k).catalog = none := by
    rw [catalog_lived, hframe, Option.bind_some, catalogAfter, hparse]
    rfl
  obtain ⟨hend, hcat⟩ := hs.catalog_of_ending hlived (ending_lived_of_refusal hframe hparse)
  refine ⟨fun hstreaming => ?_, hend⟩
  have hsome := (hs.staged hlived hstaged).streamed_iff.mpr hstreaming
  rw [hcat, hnone] at hsome
  cases hsome

theorem Orderly.notifications_of_protocol (h : s.Orderly) (he : s.ending = some (.protocol e)) :
    s.notifications = if s.phase = .closed then [false] else [] := by
  rw [h.notifications_eq, he]
  rfl

end Refusal

/-- The life of a session. At every moment of it, those at which the consumer is called included, the phases
published so far are those of the order up to some phase, and then the end of the session if it is closed; the
catalog is there if and only if the session has begun to stream, and was accepted as the one schema; and the session
does not complain of a result before the schema.

A session that has met its end closes at the next turn, and no session closes before its consumer has dealt with the
notification of the end. The catalog is the one of the first data frame that the session looked at, and never
changes. If that frame is no acceptable schema, the session does not stream then or later, and its consumer is told
that another attempt makes no sense. -/
theorem life_cycle (c : Consumer σ) (t : Target) (k : σ) :
    (∀ s, Passes c (start t) k s → s.Staged ∧ (s.phase = .streaming → s.catalog.isSome) ∧ s.Seemly) ∧
    ∀ ms,
      ((lived c t ms k).ending ≠ none → ∀ r k', (turn c r (lived c t ms k) k').1.phase = .closed) ∧
      (∀ m k', (lived c t ms k).phase ≠ .closed → (move c m (lived c t ms k) k').1.phase = .closed →
        ∃ r e s', m = .turn r ∧ (lived c t ms k).callback? r = some (.notice e s') ∧
          (∀ p : Handle Unit, (p.run s').2.phase ≠ .closed) ∧
          (move c m (lived c t ms k) k').1 = (returned ((c.onEnd e.retry k').run s')).enter .closed) ∧
      (lived c t ms k).catalog =
        ((firstFrame? (history c t ms k)).bind fun frame => (Frame.parseSchema frame).toOption.map (·.1)) ∧
      (∀ catalog k' s, (lived c t ms k).catalog = some catalog → Passes c (lived c t ms k) k' s →
        s.catalog = some catalog) ∧
      ∀ frame e, firstFrame? (history c t ms k) = some frame → Frame.parseSchema frame = .error e →
        (∀ k' s, Passes c (lived c t ms k) k' s → .streaming ∉ s.phases ∧ s.ending = some (.protocol e)) ∧
        (lived c t ms k).notifications = (if (lived c t ms k).phase = .closed then [false] else []) ∧
        ∀ r k', (turn c r (lived c t ms k) k').1.phase = .closed ∧
          (turn c r (lived c t ms k) k').1.notifications = [false] := by
  have hstart := start_coherent t
  refine ⟨fun s hs => ?_, fun ms => ?_⟩
  · have hstaged := hs.staged hstart (start_staged t)
    exact ⟨hstaged, hstaged.isSome_catalog, hs.seemly hstart nofun⟩
  have hlived := lived_coherent c t ms k
  have horderly : (lived c t ms k).Orderly := (start_orderly t).moves hstart ms
  refine ⟨fun hend r k' => ?_, fun m k' hp hclosed => move_closes hlived hp hclosed, catalog_lived c t ms k,
    fun catalog k' s hcat hs => hs.catalog_eq hlived hcat, fun frame e hframe hparse => ?_⟩
  · obtain ⟨e, he⟩ := Option.ne_none_iff_exists'.mp hend
    exact phase_turn_of_ending he r k'
  · have he := ending_lived_of_refusal hframe hparse
    refine ⟨fun k' s hs => not_streaming_of_refusal hframe hparse hs, horderly.notifications_of_protocol he,
      fun r k' => ?_⟩
    have hturned : Turned c (lived c t ms k) k' _ _ := turn_turned (r := r) hlived
    have hphase := phase_turn_of_ending (c := c) he r k'
    refine ⟨hphase, ?_⟩
    rw [(horderly.turned hlived hturned).notifications_of_protocol (hturned.ending_eq he), if_pos hphase]

/-- A session whose first data frame is empty. -/
def refusedMoves : List (Move Unit) :=
  openingMoves [.ok (), .ok (), .ok ()] ++ [.turn (.received (.data []))]

/-- A session that its node leaves has been through all phases, under the schema that came first. A session that comes
to no schema tells its consumer not to try again. -/
theorem life_of_leaving :
    (lived listener somewhere leavingMoves ()).phases =
        [.disconnected, .resolving, .connecting, .handshaking, .awaitingSchema, .streaming, .closed] ∧
      (lived listener somewhere leavingMoves ()).catalog.isSome ∧
      (lived listener somewhere leavingMoves ()).catalog =
        (Frame.parseSchema (Bytes.ofText nodeSchema)).toOption.map (·.1) ∧
      ∀ r, (turn listener r (lived listener somewhere refusedMoves ()) ()).1.notifications = [false] := by
  obtain ⟨htrace, hhistory⟩ := lived_streaming_leaving.2
  obtain ⟨hmoments, hwhole⟩ := life_cycle listener somewhere ()
  have hphases : (lived listener somewhere leavingMoves ()).phases =
      [.disconnected, .resolving, .connecting, .handshaking, .awaitingSchema, .streaming, .closed] := by
    rw [phases, seen, htrace]
    rfl
  refine ⟨hphases, ?_, ?_, fun r => ?_⟩
  · have hstreamed := (hmoments _ (.lived _ _ leavingMoves _)).1.streamed_iff
    rw [hstreamed, hphases]
    decide
  · have hfirst : firstFrame? (history listener somewhere leavingMoves ()) = some (Bytes.ofText nodeSchema) := by
      rw [hhistory]
      rfl
    rw [(hwhole leavingMoves).2.2.1, hfirst, Option.bind_some]
  · have hrefused : firstFrame? (history listener somewhere refusedMoves ()) = some [] := by decide +kernel
    have hparse : Frame.parseSchema [] = .error .malformedSchema := by decide +kernel
    exact (((hwhole refusedMoves).2.2.2.2 [] _ hrefused hparse).2.2 r ()).2

end Session

end StateHistory
