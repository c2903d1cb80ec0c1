import StateHistory.Proofs.Session.Trace

/-! # What a turn deals with

A turn deals with at most one thing, its occurrence: the oldest command of the queue; else, while the
session opens, the outcome of the step under way; else the outcome of the pending write; else what has come
in (`Session.occurrence?`).

`Turned` lists everything that a turn can do to a session, each case under its occurrence, and
`turn_turned` says that there is nothing else. A session that began with `Session.start` stays `Coherent`,
whatever moves are made; all that is said of runs in the modules after this one comes from these two. -/

namespace StateHistory

/-- What a turn can deal with. -/
inductive Occurrence where
  /-- A command from the queue. -/
  | command (command : Command)
  /-- The outcome of a step of the opening. -/
  | opening (step : String) (outcome : Except String Unit)
  /-- The outcome of writing all that waited. -/
  | writing (outcome : Except String Unit)
  /-- Something came in. -/
  | incoming (incoming : Incoming)
deriving DecidableEq

/-- The step of the opening that is under way in a phase. -/
def Phase.openingStep? : Phase → Option String
  | .resolving => some "resolve"
  | .connecting => some "connect"
  | .handshaking => some "handshake"
  | _ => none

/-- The phase after a step of the opening. -/
def Phase.afterStep : Phase → Phase
  | .resolving => .connecting
  | .connecting => .handshaking
  | .handshaking => .awaitingSchema
  | p => p

namespace Session

/-- The outcome of the pending write, if there is one: it failed, or every frame is out. -/
def writeOutcome? (s : Session) (r : Readiness) : Option (Except String Unit) :=
  if s.unflushed then
    match r.flush with
    | some (.error text) => some (.error text)
    | some (.ok ()) => if s.outbound.length ≤ r.room then some (.ok ()) else none
    | none => none
  else none

/-- What a turn of the session deals with, when the world has `r` ready. -/
def occurrence? (s : Session) (r : Readiness) : Option Occurrence :=
  if s.ending.isSome ∨ s.phase = .disconnected ∨ s.phase = .closed then none
  else
    match s.queue with
    | command :: _ => some (.command command)
    | [] =>
      match s.phase.openingStep? with
      | some step => r.opening.map (.opening step)
      | none => ((s.writeOutcome? r).map .writing).or (r.incoming.map .incoming)

/-! ### Data frames -/

/-- The call that a data frame leads to, given the catalog accepted before it. -/
def callFor (catalog : Option Schema.Catalog) (frame : Bytes) : Except ProtocolError Call :=
  match catalog with
  | none => (Frame.parseSchema frame).map fun _ => .schema
  | some c => (Frame.decodeResult c frame).map fun (result, _) => callOf result frame

/-- The catalog after a data frame. -/
def catalogAfter (catalog : Option Schema.Catalog) (frame : Bytes) : Option Schema.Catalog :=
  match catalog with
  | none => (Frame.parseSchema frame).toOption.map (·.1)
  | some c => some c

/-- What is noted of a data frame that leads to a call. -/
def reportsOf (catalog : Option Schema.Catalog) (frame : Bytes) : List Event :=
  match catalog with
  | none =>
    match Frame.parseSchema frame with
    | .ok (catalog, entries) =>
      entries.map .reported ++
        [.schemaAccepted catalog.version catalog.size, .entered .awaitingSchema .streaming]
    | .error _ => []
  | some catalog =>
    match Frame.decodeResult catalog frame with
    | .ok (_, entries) => entries.map .reported
    | .error _ => []

/-- What is noted of a data frame that cannot be read. -/
def refusalOf (catalog : Option Schema.Catalog) (frame : Bytes) (error : ProtocolError) : Event :=
  match catalog with
  | none => .schemaRefused error
  | some _ => .resultRefused frame.length error

/-- The session that has accepted a data frame, with reports of it. -/
def accepting (s : Session) (frame : Bytes) (reports : List Event) : Session :=
  { s with
    phase := .streaming
    catalog := catalogAfter s.catalog frame
    trace := s.trace ++ reports }

/-- The session after an answer of the consumer. -/
def answered (s : Session) (call : Call) (outcome : Except Failure Flow) : Session :=
  match call.ending? outcome with
  | none => s.note (.answered outcome)
  | some e => (s.note (.answered outcome)).meet e

/-- The session that is closed, with the events of its last turn. -/
def closedWith (s : Session) (e : Ending) (uses reports : List Event) : Session :=
  { s with
    phase := .closed
    trace := s.trace ++ (.ended e :: .notified e.retry :: uses ++ reports) }

end Session

/-- The failure of the transport that has come in. -/
def Incoming.fault? : Incoming → Option Ending
  | .closing => some (.transport Session.readStep Session.closedByPeer)
  | .failed text => some (.transport Session.readStep text)
  | .over => some (.transport Session.readStep Session.endOfStream)
  | .data _ | .control => none

namespace Session

variable {σ : Type}

/-- What a turn can do to a session and its consumer, under its occurrence. -/
inductive Turned (c : Consumer σ) (s : Session) (k : σ) : Option Occurrence → Session × σ → Prop
  | idle : Turned c s k none (s, k)
  | begun : s.phase = .disconnected → s.ending = none → Turned c s k none (s.enter .resolving, k)
  /-- A request was dropped during the opening. -/
  | dropped (frame : Bytes) (rest : List Command) :
    s.ending = none → s.phase.openingStep?.isSome → s.queue = .send frame :: rest →
    Turned c s k (some (.command (.send frame))) ({ s with queue := rest }.note .requestDropped, k)
  | closed (retry : Bool) (rest : List Command) :
    s.ending = none → s.queue = .close retry :: rest →
    Turned c s k (some (.command (.close retry))) ({ s with queue := rest }.meet (.requested retry), k)
  | advanced (step : String) (reports : List Event) :
    s.ending = none → s.phase.openingStep? = some step → s.queue = [] → (∀ e ∈ reports, e.isPlain) →
    Turned c s k (some (.opening step (.ok ())))
      ({ s with phase := s.phase.afterStep, trace := s.trace ++ reports }, k)
  | openingFailed (step text : String) :
    s.ending = none → s.phase.openingStep? = some step → s.queue = [] →
    Turned c s k (some (.opening step (.error text))) (s.meet (.transport step text), k)
  /-- A request was taken from the queue, to be written. -/
  | taken (frame : Bytes) (rest : List Command) :
    s.ending = none → s.phase.takesRequests → s.queue = .send frame :: rest →
    Turned c s k (some (.command (.send frame)))
      ({ s with queue := rest, outbound := s.outbound ++ [frame], unflushed := true }, k)
  | handed (room : Nat) :
    s.ending = none → s.phase.takesRequests → s.queue = [] → Turned c s k none (s.hand room, k)
  | flushed (room : Nat) :
    s.ending = none → s.phase.takesRequests → s.queue = [] → (s.hand room).outbound = [] →
    Turned c s k (some (.writing (.ok ()))) ({ s.hand room with unflushed := false }, k)
  | writeFailed (room : Nat) (text : String) :
    s.ending = none → s.phase.takesRequests → s.queue = [] →
    Turned c s k (some (.writing (.error text))) ((s.hand room).meet (.transport writeStep text), k)
  | ignored (room : Nat) :
    s.ending = none → s.phase.takesRequests → s.queue = [] →
    Turned c s k (some (.incoming .control)) (s.hand room, k)
  | broken (room : Nat) (i : Incoming) (e : Ending) :
    s.ending = none → s.phase.takesRequests → s.queue = [] → i.fault? = some e →
    Turned c s k (some (.incoming i)) ((s.hand room).meet e, k)
  | refused (room : Nat) (frame : Bytes) (error : ProtocolError) (report : Event) :
    s.ending = none → s.phase.takesRequests → s.queue = [] →
    callFor s.catalog frame = .error error → report.isPlain →
    Turned c s k (some (.incoming (.data frame)))
      (((s.hand room).note report).meet (.protocol error), k)
  | told (room : Nat) (frame : Bytes) (call : Call) (reports : List Event)
      (outcome : Except Failure Flow) (k' : σ) (s' : Session) :
    s.ending = none → s.phase.takesRequests → s.queue = [] →
    callFor s.catalog frame = .ok call → (∀ e ∈ reports, e.isPlain) →
    (c.answer call k).run (((s.hand room).accepting frame reports).note (.called call))
      = ((outcome, k'), s') →
    Turned c s k (some (.incoming (.data frame))) (s'.answered call outcome, k')
  | finished (e : Ending) (uses reports : List Event) :
    s.phase ≠ .closed → s.ending = some e → (∀ e ∈ uses, ∃ retry, e = .closeRequested retry) →
    (∀ e ∈ reports, e.isPlain) →
    Turned c s k none (s.closedWith e uses reports,
      ((c.onEnd e.retry k).run ((s.note (.ended e)).note (.notified e.retry))).1.2)

/-- What holds of a session at every moment of its life. -/
structure Coherent (s : Session) : Prop where
  isOpen_iff : s.isOpen ↔ s.ending = none
  not_closed : s.ending = none → s.phase ≠ .closed
  streaming_iff : s.ending = none → (s.phase = .streaming ↔ s.catalog.isSome)
  /-- A close that was asked for is waiting, unless the end has come. -/
  close_waits : s.ending = none → s.closeRequests ≠ [] → ∃ retry, .close retry ∈ s.queue
  /-- Nobody but a handle asks for a close. -/
  close_queued : ∀ retry, .close retry ∈ s.queue → retry ∈ s.closeRequests
  close_met : ∀ retry, s.ending = some (.requested retry) → retry ∈ s.closeRequests

theorem start_coherent (t : Target) : (start t).Coherent where
  isOpen_iff := by simp [start]
  not_closed := by simp [start]
  streaming_iff := by simp [start]
  close_waits := by simp [start, seen, Event.closeRequest?]
  close_queued := by simp [start]
  close_met := by simp [start]

variable {c : Consumer σ} {s : Session} {k : σ}

/-! ### Answers -/

theorem seen_answered {α : Type} {view : Event → Option α}
    (hv : ∀ {e : Event}, e.isPlain → view e = none) (s : Session) (call : Call)
    (outcome : Except Failure Flow) :
    (s.answered call outcome).seen view = s.seen view ++ (view (.answered outcome)).toList := by
  unfold answered
  split
  · rw [seen_note]
  · rw [seen_meet _ _ hv, seen_note]

theorem seen_accepting {α : Type} {view : Event → Option α} (hv : ∀ {e : Event}, e.isPlain → view e = none)
    {reports : List Event} (hr : ∀ e ∈ reports, e.isPlain) (s : Session) (room : Nat) (frame : Bytes) :
    ((s.hand room).accepting frame reports).seen view = s.seen view := by
  simp [seen, accepting, hand, Event.filterMap_plain hv hr]

theorem ending_answered (s : Session) (call : Call) (outcome : Except Failure Flow) :
    (s.answered call outcome).ending = (call.ending? outcome).or s.ending := by
  unfold answered
  split <;> rename_i h <;> simp [h, note, meet_eq]

theorem catalog_answered (s : Session) (call : Call) (outcome : Except Failure Flow) :
    (s.answered call outcome).catalog = s.catalog := by
  unfold answered
  split <;> simp [note, meet_eq]

theorem trace_answered (s : Session) (call : Call) (outcome : Except Failure Flow) :
    ∃ es, (s.answered call outcome).trace = s.trace ++ .answered outcome :: es ∧ ∀ e ∈ es, e.isPlain := by
  unfold answered
  split
  · exact ⟨[], rfl, by simp⟩
  · rw [meet_eq]
    exact ⟨(s.note (.answered outcome)).loss, by simp [note], isPlain_of_mem_loss⟩

/-! ### The turns -/

theorem openingTurn_turned {step : String} {next : Phase} {r : Readiness} (he : s.ending = none)
    (hp : s.phase.openingStep? = some step) (hn : s.phase.afterStep = next) :
    Turned c s k
      (match s.queue with
        | command :: _ => some (.command command)
        | [] => r.opening.map (.opening step))
      (s.openingTurn step next r, k) := by
  unfold openingTurn
  match hq : s.queue with
  | .send frame :: rest => exact .dropped frame rest he (by simp [hp]) hq
  | .close retry :: rest => exact .closed retry rest he hq
  | [] =>
      match r.opening with
      | none => exact .idle
      | some (.error text) => exact .openingFailed step text he hp hq
      | some (.ok ()) =>
          subst hn
          by_cases ha : s.phase.afterStep = .awaitingSchema
          · have h := Turned.advanced (c := c) (k := k) step
              [.entered s.phase s.phase.afterStep, .opened] he hp hq (by simp [Event.isPlain])
            simpa [ha, enter, note] using h
          · have h := Turned.advanced (c := c) (k := k) step
              [.entered s.phase s.phase.afterStep] he hp hq (by simp [Event.isPlain])
            simpa [ha, enter] using h

theorem tell_eq (call : Call) (s : Session) (k : σ) :
    tell c call s k =
      ((((c.answer call k).run (s.note (.called call))).2.answered call
          ((c.answer call k).run (s.note (.called call))).1.1),
        ((c.answer call k).run (s.note (.called call))).1.2) := by
  unfold tell answered
  dsimp only
  split <;> rename_i h <;> rw [h]

theorem note_reports (entries : List LogEntry) (s : Session) :
    entries.foldl (fun s e => s.note (.reported e)) s
      = { s with trace := s.trace ++ entries.map .reported } := by
  induction entries generalizing s with
  | nil => simp
  | cons e es ih => rw [List.foldl_cons, ih]; simp [note]

theorem isPlain_of_mem_reportsOf {catalog : Option Schema.Catalog} {frame : Bytes} :
    ∀ e ∈ reportsOf catalog frame, e.isPlain := by
  unfold reportsOf
  split <;> split <;> simp [or_imp, forall_and, Event.isPlain]

theorem isPlain_refusalOf (catalog : Option Schema.Catalog) (frame : Bytes) (error : ProtocolError) :
    (refusalOf catalog frame error).isPlain := by
  cases catalog <;> rfl

/-- An open session without a catalog awaits it, and reads results when it has one. -/
theorem Coherent.phase_of_takesRequests (hs : s.Coherent) (he : s.ending = none) (hp : s.phase.takesRequests) :
    s.phase = if s.catalog.isSome then .streaming else .awaitingSchema := by
  have hstream := hs.streaming_iff he
  cases hph : s.phase <;> simp_all [Phase.takesRequests]

/-- The consumer is told of a data frame that can be read. -/
theorem receive_of_call {frame : Bytes} {call : Call} (room : Nat) (hs : s.Coherent) (he : s.ending = none)
    (hp : s.phase.takesRequests) (hf : callFor s.catalog frame = .ok call) :
    receive c (.data frame) (s.hand room) k =
      tell c call ((s.hand room).accepting frame (reportsOf s.catalog frame)) k := by
  have hphase := hs.phase_of_takesRequests he hp
  rw [receive, show (s.hand room).phase = s.phase from rfl, hphase]
  cases hcat : s.catalog with
  | none =>
      rw [hcat] at hphase hf
      rw [receiveSchema]
      cases hparse : Frame.parseSchema frame with
      | error e => simp [callFor, hparse, Except.map] at hf
      | ok parsed =>
          obtain ⟨catalog, entries⟩ := parsed
          obtain rfl : Call.schema = call := by simpa [callFor, hparse, Except.map] using hf
          simp only [note_reports]
          simp [reportsOf, hparse, accepting, catalogAfter, hand, note, enter, hcat, hphase, Except.toOption]
  | some catalog =>
      rw [hcat] at hphase hf
      rw [receiveResult, show (s.hand room).catalog = s.catalog from rfl, hcat]
      cases hdecode : Frame.decodeResult catalog frame with
      | error e => simp [callFor, hdecode, Except.map] at hf
      | ok decoded =>
          obtain ⟨result, entries⟩ := decoded
          obtain rfl : callOf result frame = call := by simpa [callFor, hdecode, Except.map] using hf
          simp only [note_reports]
          simp [reportsOf, hdecode, accepting, catalogAfter, hand, hcat, hphase]

/-- A data frame that cannot be read ends the session. -/
theorem receive_of_refusal {frame : Bytes} {error : ProtocolError} (room : Nat) (hs : s.Coherent)
    (he : s.ending = none) (hp : s.phase.takesRequests) (hf : callFor s.catalog frame = .error error) :
    receive c (.data frame) (s.hand room) k =
      (((s.hand room).note (refusalOf s.catalog frame error)).meet (.protocol error), k) := by
  have hphase := hs.phase_of_takesRequests he hp
  rw [receive, show (s.hand room).phase = s.phase from rfl, hphase]
  cases hcat : s.catalog with
  | none =>
      rw [hcat] at hf
      rw [receiveSchema]
      cases hparse : Frame.parseSchema frame with
      | error e =>
          obtain rfl : e = error := by simpa [callFor, hparse, Except.map] using hf
          rfl
      | ok parsed => simp [callFor, hparse, Except.map] at hf
  | some catalog =>
      rw [hcat] at hf
      rw [receiveResult, show (s.hand room).catalog = s.catalog from rfl, hcat]
      cases hdecode : Frame.decodeResult catalog frame with
      | error e =>
          obtain rfl : e = error := by simpa [callFor, hdecode, Except.map] using hf
          simp [hdecode, refusalOf]
      | ok decoded => simp [callFor, hdecode, Except.map] at hf

theorem receive_turned (i : Incoming) (room : Nat) (hs : s.Coherent) (he : s.ending = none)
    (hp : s.phase.takesRequests) (hq : s.queue = []) :
    Turned c s k (some (.incoming i)) (receive c i (s.hand room) k) := by
  match i with
  | .control => exact .ignored room he hp hq
  | .closing => exact .broken room _ _ he hp hq rfl
  | .failed text => exact .broken room _ _ he hp hq rfl
  | .over => exact .broken room _ _ he hp hq rfl
  | .data frame =>
      cases hf : callFor s.catalog frame with
      | error e =>
          rw [receive_of_refusal room hs he hp hf]
          exact .refused room frame e _ he hp hq hf (isPlain_refusalOf _ _ _)
      | ok call =>
          rw [receive_of_call room hs he hp hf, tell_eq]
          exact .told room frame call _ _ _ _ he hp hq hf isPlain_of_mem_reportsOf rfl

theorem exchangeTurn_turned {r : Readiness} (hs : s.Coherent) (he : s.ending = none)
    (hp : s.phase.takesRequests) :
    Turned c s k
      (match s.queue with
        | command :: _ => some (.command command)
        | [] => ((s.writeOutcome? r).map .writing).or (r.incoming.map .incoming))
      (exchangeTurn c r s k) := by
  obtain ⟨opening, room, flush, incoming⟩ := r
  unfold exchangeTurn writeOutcome?
  match hq : s.queue with
  | .send frame :: rest => exact .taken frame rest he hp hq
  | .close retry :: rest => exact .closed retry rest he hq
  | [] =>
      have hread : ∀ i, Turned c s k (some (.incoming i)) (receive c i s k) := by
        intro i
        have h := receive_turned (c := c) (k := k) i 0 hs he hp hq
        rwa [hand_zero] at h
      dsimp only
      cases hu : s.unflushed with
      | false =>
          cases incoming with
          | none => simpa [hu] using Turned.idle
          | some i => simpa [hu] using hread i
      | true =>
          have hu' : (s.hand room).unflushed = true := hu
          rcases flush with _ | (text | ⟨⟨⟩⟩)
          · cases incoming with
            | none => simpa [hu'] using Turned.handed room he hp hq
            | some i => simpa [hu'] using receive_turned i room hs he hp hq
          · simpa [hu'] using Turned.writeFailed room text he hp hq
          · by_cases hroom : s.outbound.length ≤ room
            · have ho : (s.hand room).outbound = [] := by simpa [hand] using hroom
              have h := Turned.flushed (c := c) (k := k) room he hp hq ho
              simpa [hu', hroom, ho] using h
            · have ho : (s.hand room).outbound ≠ [] := by simpa [hand] using hroom
              obtain ⟨frame, frames, ho⟩ := List.exists_cons_of_ne_nil ho
              cases incoming with
              | none => simpa [hu', hroom, ho] using Turned.handed room he hp hq
              | some i => simpa [hu', hroom, ho] using receive_turned i room hs he hp hq

theorem finish_turned {e : Ending} (hs : s.Coherent) (he : s.ending = some e)
    (hp : s.phase ≠ .closed) : Turned c s k none (finish c e s k) := by
  have ho : s.isOpen = false := by
    rw [Bool.eq_false_iff, ne_eq, hs.isOpen_iff, he]
    simp
  obtain ⟨uses, huses, hrun⟩ :=
    (c.onEnd e.retry k).run_used ((s.note (.ended e)).note (.notified e.retry))
  have hclose : ∀ x ∈ uses, ∃ retry, x = .closeRequested retry := by
    intro x hx
    have := huses x hx
    cases x <;> simp_all [Allows, note]
  have hfinished := fun reports => Turned.finished (c := c) (k := k) e uses reports hp he hclose
  dsimp only [finish]
  generalize (c.onEnd e.retry k).run ((s.note (.ended e)).note (.notified e.retry)) = result
    at hrun hfinished ⊢
  obtain ⟨⟨panicked, k'⟩, s'⟩ := result
  subst hrun
  cases panicked with
  | none =>
      have h := hfinished [.entered s.phase .closed] (by simp [Event.isPlain])
      simpa [used, closedWith, note, enter, ho] using h
  | some p =>
      have h := hfinished [.notificationPanicked p, .entered s.phase .closed] (by simp [Event.isPlain])
      simpa [used, closedWith, note, enter, ho] using h

/-- A turn does what is listed for its occurrence. -/
theorem turn_turned {r : Readiness} (hs : s.Coherent) :
    Turned c s k (s.occurrence? r) (turn c r s k) := by
  unfold turn occurrence?
  cases he : s.ending with
  | some e =>
      by_cases hp : s.phase = .closed
      · simpa [hp] using Turned.idle
      · have h := finish_turned (c := c) (k := k) hs he hp
        cases hph : s.phase <;> simp_all
  | none =>
      have hopening : ∀ step, s.phase.openingStep? = some step → Turned c s k _ _ := fun step hp =>
        openingTurn_turned (r := r) he hp rfl
      have hexchange : s.phase.takesRequests → Turned c s k _ _ := exchangeTurn_turned (r := r) hs he
      match hp : s.phase with
      | .disconnected => simpa [hp] using Turned.begun hp he
      | .resolving => simpa [hp, Phase.openingStep?, Phase.afterStep] using hopening "resolve" (by rw [hp]; rfl)
      | .connecting => simpa [hp, Phase.openingStep?, Phase.afterStep] using hopening "connect" (by rw [hp]; rfl)
      | .handshaking => simpa [hp, Phase.openingStep?, Phase.afterStep] using hopening "handshake" (by rw [hp]; rfl)
      | .awaitingSchema => simpa [hp, Phase.openingStep?] using hexchange (by rw [hp]; rfl)
      | .streaming => simpa [hp, Phase.openingStep?] using hexchange (by rw [hp]; rfl)
      | .closed => exact absurd hp (hs.not_closed he)

/-! ### Coherence -/

theorem Coherent.closeRequests_eq_nil (hs : s.Coherent) (he : s.ending = none)
    (hq : ∀ retry, .close retry ∉ s.queue) : s.closeRequests = [] := by
  by_contra h
  obtain ⟨retry, hmem⟩ := hs.close_waits he h
  exact hq retry hmem

theorem meet_coherent {e : Ending} (hq : ∀ retry, .close retry ∈ s.queue → retry ∈ s.closeRequests)
    (he : ∀ retry, e = .requested retry → retry ∈ s.closeRequests) : (s.meet e).Coherent where
  isOpen_iff := by simp [meet_eq]
  not_closed := by simp [meet_eq]
  streaming_iff := by simp [meet_eq]
  close_waits := by simp [meet_eq]
  close_queued := by
    intro retry h
    rw [closeRequests, seen_meet _ _ Event.closeRequest?_of_isPlain]
    exact hq retry (by simpa [meet_eq] using h)
  close_met := by
    intro retry h
    rw [closeRequests, seen_meet _ _ Event.closeRequest?_of_isPlain]
    exact he retry (by simpa [meet_eq] using h)

theorem Coherent.used {es : List Event} (hs : s.Coherent) : (s.used es).Coherent where
  isOpen_iff := hs.isOpen_iff
  not_closed := hs.not_closed
  streaming_iff := hs.streaming_iff
  close_waits := by
    intro he hr
    have hopen : s.isOpen := hs.isOpen_iff.mpr he
    simp only [Session.used, hopen, if_true, List.mem_append, List.mem_filterMap]
    simp only [seen_used, ne_eq, List.append_eq_nil_iff, not_and_or] at hr
    rcases hr with hr | hr
    · obtain ⟨retry, hmem⟩ := hs.close_waits he hr
      exact ⟨retry, .inl hmem⟩
    · obtain ⟨retry, hmem⟩ := List.exists_mem_of_ne_nil _ hr
      obtain ⟨e, he, hretry⟩ := List.mem_filterMap.mp hmem
      refine ⟨retry, .inr ⟨e, he, ?_⟩⟩
      cases e <;> simp_all [Event.closeRequest?, Event.command?]
  close_queued := by
    intro retry hmem
    rw [closeRequests, seen_used, List.mem_append]
    rcases List.mem_append.mp hmem with hmem | hmem
    · exact .inl (hs.close_queued retry hmem)
    · split at hmem
      · obtain ⟨e, he, hcommand⟩ := List.mem_filterMap.mp hmem
        refine .inr (List.mem_filterMap.mpr ⟨e, he, ?_⟩)
        cases e <;> simp_all [Event.closeRequest?, Event.command?]
      · cases hmem
  close_met := by
    intro retry he
    rw [closeRequests, seen_used, List.mem_append]
    exact .inl (hs.close_met retry he)

theorem Coherent.note (hs : s.Coherent) {e : Event} (h : e.closeRequest? = none) :
    (s.note e).Coherent := by
  have hr : (s.note e).closeRequests = s.closeRequests := by
    rw [closeRequests, seen_note, h]
    exact List.append_nil _
  constructor
  case close_waits => rw [hr]; exact hs.close_waits
  case close_queued => rw [hr]; exact hs.close_queued
  case close_met => rw [hr]; exact hs.close_met
  case isOpen_iff => exact hs.isOpen_iff
  case not_closed => exact hs.not_closed
  case streaming_iff => exact hs.streaming_iff

theorem ending?_ne_requested (call : Call) (outcome : Except Failure Flow) (retry : Bool) :
    call.ending? outcome ≠ some (.requested retry) := by
  rcases outcome with failure | ⟨⟨⟩ | ⟨⟩⟩ <;> simp [Call.ending?]

theorem Coherent.answered (hs : s.Coherent) (call : Call) (outcome : Except Failure Flow) :
    (s.answered call outcome).Coherent := by
  have hnote : (s.note (.answered outcome)).Coherent := hs.note rfl
  unfold Session.answered
  split
  · exact hnote
  · rename_i e h
    refine meet_coherent hnote.close_queued ?_
    rintro retry rfl
    exact absurd h (ending?_ne_requested call outcome retry)

theorem isSome_catalogAfter {catalog : Option Schema.Catalog} {frame : Bytes} {call : Call}
    (h : callFor catalog frame = .ok call) : (catalogAfter catalog frame).isSome := by
  unfold callFor at h
  unfold catalogAfter
  split at h
  · cases hf : Frame.parseSchema frame <;> simp_all [Except.map, Except.toOption]
  · rfl

/-- A session goes on from another one without forgetting a close. -/
theorem Coherent.goOn {s' : Session} (hs : s.Coherent) (he : s.ending = none)
    (ho : s'.isOpen = s.isOpen) (he' : s'.ending = s.ending) (hp : s'.phase ≠ .closed)
    (hst : s'.phase = .streaming ↔ s'.catalog.isSome) (hr : s'.closeRequests = s.closeRequests)
    (hq : ∀ retry, .close retry ∈ s'.queue ↔ .close retry ∈ s.queue) : s'.Coherent where
  isOpen_iff := by rw [ho, he']; exact hs.isOpen_iff
  not_closed := fun _ => hp
  streaming_iff := fun _ => hst
  close_waits := by
    intro _ h
    rw [hr] at h
    obtain ⟨retry, hmem⟩ := hs.close_waits he h
    exact ⟨retry, (hq retry).mpr hmem⟩
  close_queued := by
    intro retry h
    rw [hr]
    exact hs.close_queued retry ((hq retry).mp h)
  close_met := by simp [he', he]

theorem Coherent.accepting {frame : Bytes} {call : Call} {reports : List Event} (hs : s.Coherent) (room : Nat)
    (he : s.ending = none) (hf : callFor s.catalog frame = .ok call) (hr : ∀ e ∈ reports, e.isPlain) :
    ((s.hand room).accepting frame reports).Coherent := by
  refine hs.goOn he rfl rfl (by simp [Session.accepting])
    (by simp [Session.accepting, hand, isSome_catalogAfter hf]) ?_ (fun _ => .rfl)
  exact seen_accepting Event.closeRequest?_of_isPlain hr s room frame

theorem afterStep_of_openingStep? {p : Phase} {step : String} (h : p.openingStep? = some step) :
    p ≠ .streaming ∧ p.afterStep ≠ .streaming ∧ p.afterStep ≠ .closed := by
  cases p <;> simp_all [Phase.openingStep?, Phase.afterStep]

theorem Incoming.fault?_ne_requested {i : Incoming} {e : Ending} (h : i.fault? = some e) (retry : Bool) :
    e ≠ .requested retry := by
  rintro rfl
  cases i <;> simp [Incoming.fault?] at h

theorem Coherent.turned {o : Option Occurrence} {p : Session × σ} (hs : s.Coherent)
    (h : Turned c s k o p) : p.1.Coherent := by
  have hst := hs.streaming_iff
  have hcl := hs.not_closed
  have hreq := hs.close_queued
  cases h with
  | idle => exact hs
  | begun hp he =>
      have hcat := hst he
      rw [hp] at hcat
      refine hs.goOn he rfl rfl (by simp [enter]) (by simpa [enter] using hcat) ?_ (fun _ => .rfl)
      simp [seen, enter, Event.closeRequest?]
  | dropped frame rest he hp hq =>
      refine hs.goOn he rfl rfl (hcl he) (hst he) ?_ ?_
      · simp [seen, Session.note, Event.closeRequest?]
      · simp [hq, Session.note]
  | closed retry rest he hq =>
      refine meet_coherent (fun retry h => hreq retry ?_) ?_
      · rw [hq]
        exact List.mem_cons_of_mem _ h
      · rintro retry ⟨⟩
        exact hreq retry (by simp [hq])
  | advanced step reports he hp hq hr =>
      obtain ⟨h1, h2, h3⟩ := afterStep_of_openingStep? hp
      refine hs.goOn he rfl rfl h3 ?_ ?_ (fun _ => .rfl)
      · have hcat := (hst he).not.mp h1
        simpa [h2] using hcat
      · simp [seen, Event.filterMap_plain Event.closeRequest?_of_isPlain hr]
  | openingFailed step text he hp hq => exact meet_coherent hreq (by simp)
  | taken frame rest he hp hq => exact hs.goOn he rfl rfl (hcl he) (hst he) rfl (by simp [hq])
  | handed room he hp hq => exact hs.goOn he rfl rfl (hcl he) (hst he) rfl (fun _ => .rfl)
  | flushed room he hp hq ho => exact hs.goOn he rfl rfl (hcl he) (hst he) rfl (fun _ => .rfl)
  | writeFailed room text he hp hq => exact meet_coherent hreq (by simp)
  | ignored room he hp hq => exact hs.goOn he rfl rfl (hcl he) (hst he) rfl (fun _ => .rfl)
  | broken room i e he hp hq hi =>
      exact meet_coherent hreq fun retry h => absurd h (Incoming.fault?_ne_requested hi retry)
  | refused room frame error report he hp hq hf hr =>
      exact meet_coherent (by simp [hand, Session.note, hq]) (by simp)
  | told room frame call reports outcome k' s' he hp hq hf hr hrun =>
      obtain ⟨uses, huses, rfl⟩ := Handle.used_of_run hrun
      exact ((hs.accepting room he hf hr).note rfl).used.answered call outcome
  | finished e uses reports hp he hu hr =>
      have hmem : ∀ retry ∈ s.closeRequests, retry ∈ (s.closedWith e uses reports).closeRequests := by
        intro retry h
        simp only [closeRequests, seen, closedWith, List.filterMap_append, List.mem_append]
        exact .inl h
      constructor
      case isOpen_iff => exact hs.isOpen_iff
      case close_queued => exact fun retry h => hmem retry (hreq retry h)
      case close_met => exact fun retry h => hmem retry (hs.close_met retry h)
      all_goals simp [closedWith, he]

/-- Whoever uses a handle in a move does nothing but leave the events of the uses. -/
theorem move_use (h : σ → Handle σ) (s : Session) (k : σ) :
    ∃ es, (∀ e ∈ es, s.Allows e) ∧ (move c (.use h) s k).1 = s.used es := (h k).run_used s

/-- Whatever move is made, a session stays coherent. -/
theorem Coherent.move (hs : s.Coherent) (m : Move σ) : (move c m s k).1.Coherent := by
  match m with
  | .turn r => exact hs.turned (turn_turned hs)
  | .use h =>
      obtain ⟨es, -, hused⟩ := move_use (c := c) h s k
      rw [hused]
      exact hs.used

theorem moves_cons (m : Move σ) (ms : List (Move σ)) (s : Session) (k : σ) :
    moves c (m :: ms) s k = moves c ms (move c m s k).1 (move c m s k).2 := rfl

theorem Coherent.moves (hs : s.Coherent) (ms : List (Move σ)) : (moves c ms s k).1.Coherent := by
  induction ms generalizing s k with
  | nil => exact hs
  | cons m ms ih => exact ih (hs.move m)

/-- What every turn and every use of a handle preserves holds after whatever moves are made. -/
theorem Coherent.preserves {P : Session → Prop} (hs : s.Coherent)
    (hturn : ∀ {s : Session} {k : σ} {o : Option Occurrence} {p : Session × σ}, P s → s.Coherent →
      Turned c s k o p → P p.1)
    (huse : ∀ {s : Session} {es : List Event}, P s → (∀ e ∈ es, s.Allows e) → P (s.used es))
    (h : P s) (ms : List (Move σ)) : P (Session.moves c ms s k).1 := by
  induction ms generalizing s k with
  | nil => exact h
  | cons m ms ih =>
      refine ih (hs.move m) ?_
      match m with
      | .turn r => exact hturn h hs (turn_turned hs)
      | .use p =>
          obtain ⟨es, hes, hused⟩ := move_use (c := c) p s k
          change P (Session.move c (.use p) s k).1
          rw [hused]
          exact huse h hes

end Session

end StateHistory
