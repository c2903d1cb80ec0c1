import StateHistory.Proofs.Session.Notification

/-! # Closes

Only the first close that is asked for counts. `MoreCloses` compares two runs: whoever uses a handle in the
second run does what is done in the first, but may ask for further closes as soon as one has been asked
for. Two such runs stay `Alike`: they differ in their queues behind the first close and in the closes that
were asked for, and in nothing else. -/

namespace StateHistory

/-- The second program does what the first one does, and asks for further closes once one has been asked
for, be it before the program or in it. -/
inductive Handle.MoreCloses {α : Type} : Prop → Handle α → Handle α → Prop
  | done {asked : Prop} (result : α) : MoreCloses asked (.done result) (.done result)
  | send {asked : Prop} (request : Request) {next next' : Except SendError Unit → Handle α} :
    (∀ answer, MoreCloses asked (next answer) (next' answer)) →
    MoreCloses asked (.send request next) (.send request next')
  | close {asked : Prop} (retry : Bool) {next next' : Handle α} :
    MoreCloses True next next' → MoreCloses asked (.close retry next) (.close retry next')
  | phase {asked : Prop} {next next' : Phase → Handle α} :
    (∀ p, MoreCloses asked (next p) (next' p)) → MoreCloses asked (.phase next) (.phase next')
  | catalog {asked : Prop} {next next' : Option Schema.Catalog → Handle α} :
    (∀ c, MoreCloses asked (next c) (next' c)) → MoreCloses asked (.catalog next) (.catalog next')
  | further {asked : Prop} (retry : Bool) {h h' : Handle α} :
    asked → MoreCloses asked h h' → MoreCloses asked h (.close retry h')

namespace Handle

variable {α β : Type} {asked : Prop}

theorem MoreCloses.refl (h : Handle α) : h.MoreCloses asked h := by
  induction h generalizing asked with
  | done result => exact .done result
  | send request next ih => exact .send request fun answer => ih answer
  | close retry next ih => exact .close retry ih
  | phase next ih => exact .phase fun p => ih p
  | catalog next ih => exact .catalog fun c => ih c

theorem MoreCloses.bind {h h' : Handle α} (hh : h.MoreCloses asked h') (f : α → Handle β) :
    (h.bind f).MoreCloses asked (h'.bind f) := by
  induction hh with
  | done result => exact .refl _
  | send request _ ih => exact .send request ih
  | close retry _ ih => exact .close retry ih
  | phase _ ih => exact .phase ih
  | catalog _ ih => exact .catalog ih
  | further retry hasked _ ih => exact .further retry hasked ih

end Handle

/-- The second consumer does what the first one does, and asks for further closes. Nobody has asked for a
close when a consumer is told something before the end. -/
structure Consumer.MoreCloses {σ : Type} (c c' : Consumer σ) : Prop where
  onSchema : ∀ k, (c.onSchema k).MoreCloses False (c'.onSchema k)
  onStatus : ∀ status frame k, (c.onStatus status frame k).MoreCloses False (c'.onStatus status frame k)
  onBlocks : ∀ report frame k, (c.onBlocks report frame k).MoreCloses False (c'.onBlocks report frame k)
  onEnd : ∀ retry k, (c.onEnd retry k).MoreCloses True (c'.onEnd retry k)

theorem Consumer.MoreCloses.answer {σ : Type} {c c' : Consumer σ} (hc : c.MoreCloses c') (call : Call)
    (k : σ) : (c.answer call k).MoreCloses False (c'.answer call k) := by
  cases call with
  | schema => exact (hc.onSchema k).bind _
  | status status frame => exact hc.onStatus status frame k
  | blocks report frame => exact hc.onBlocks report frame k

namespace Session

variable {σ : Type} {c c' : Consumer σ} {s s' : Session} {k : σ}

/-! ### Queues and traces that differ in further closes -/

/-- The commands of a queue that can be taken from it: a close is the last one. -/
def upToClose : List Command → List Command
  | [] => []
  | .send frame :: rest => .send frame :: upToClose rest
  | .close retry :: _ => [.close retry]

/-- The events of a trace, but for the closes that were asked for. -/
def apartFromCloses (trace : List Event) : List Event := trace.filter fun e => e.closeRequest?.isNone

theorem upToClose_append_of_mem {queue : List Command} {retry : Bool} (h : .close retry ∈ queue)
    (more : List Command) : upToClose (queue ++ more) = upToClose queue := by
  induction queue with
  | nil => cases h
  | cons command rest ih =>
      cases command with
      | close retry' => rfl
      | send frame =>
          have hrest : .close retry ∈ rest := by simpa using h
          rw [List.cons_append, upToClose, upToClose, ih hrest]

theorem eq_nil_of_upToClose {queue : List Command} (h : upToClose queue = []) : queue = [] := by
  match queue with
  | [] => rfl
  | .send _ :: _ => cases h
  | .close _ :: _ => cases h

theorem eq_send_of_upToClose {queue more : List Command} {frame : Bytes}
    (h : upToClose queue = .send frame :: more) :
    ∃ rest, queue = .send frame :: rest ∧ upToClose rest = more := by
  match queue with
  | [] => cases h
  | .close _ :: _ => cases h
  | .send _ :: rest =>
      obtain ⟨hcommand, hrest⟩ := List.cons.inj h
      exact ⟨rest, by rw [hcommand], hrest⟩

theorem eq_close_of_upToClose {queue more : List Command} {retry : Bool}
    (h : upToClose queue = .close retry :: more) : ∃ rest, queue = .close retry :: rest := by
  match queue with
  | [] => cases h
  | .send _ :: _ => cases h
  | .close _ :: rest =>
      obtain ⟨hcommand, -⟩ := List.cons.inj h
      exact ⟨rest, by rw [hcommand]⟩

theorem upToClose_append_congr {queue queue' : List Command} (h : upToClose queue' = upToClose queue)
    (more : List Command) : upToClose (queue' ++ more) = upToClose (queue ++ more) := by
  induction queue generalizing queue' with
  | nil => rw [eq_nil_of_upToClose h]
  | cons command rest ih =>
      cases command with
      | send frame =>
          obtain ⟨rest', rfl, hrest⟩ := eq_send_of_upToClose h
          rw [List.cons_append, List.cons_append, upToClose, upToClose, ih hrest]
      | close retry =>
          obtain ⟨rest', rfl⟩ := eq_close_of_upToClose h
          rfl

theorem apartFromCloses_append (trace es : List Event) :
    apartFromCloses (trace ++ es) = apartFromCloses trace ++ apartFromCloses es :=
  List.filter_append ..

/-! ### Sessions that differ in further closes -/

/-- The second session differs from the first one only behind the first close of its queue, and in the
closes that were asked for. After the end, no queue matters. -/
def Alike (s s' : Session) : Prop :=
  ∃ queue trace, s' = { s with queue := queue, trace := trace } ∧
    (s.ending = none → upToClose queue = upToClose s.queue) ∧
    apartFromCloses trace = apartFromCloses s.trace

theorem Alike.refl (s : Session) : s.Alike s := ⟨s.queue, s.trace, rfl, fun _ => rfl, rfl⟩

theorem Alike.seen_eq {α : Type} {view : Event → Option α} (h : s.Alike s')
    (hc : ∀ retry, view (.closeRequested retry) = none) : s'.seen view = s.seen view := by
  have hseen : ∀ trace, (apartFromCloses trace).filterMap view = trace.filterMap view := by
    intro trace
    rw [apartFromCloses, List.filterMap_filter]
    congr 1
    funext e
    cases e <;> simp [Event.closeRequest?, hc]
  obtain ⟨queue, trace, rfl, -, ht⟩ := h
  rw [seen, seen, ← hseen trace, ht, hseen]

theorem Alike.note (h : s.Alike s') (e : Event) : (s.note e).Alike (s'.note e) := by
  obtain ⟨queue, trace, rfl, hq, ht⟩ := h
  exact ⟨queue, trace ++ [e], rfl, hq, by
    rw [Session.note, apartFromCloses_append, apartFromCloses_append, ht]⟩

theorem Alike.enter (h : s.Alike s') (p : Phase) : (s.enter p).Alike (s'.enter p) := by
  obtain ⟨queue, trace, rfl, hq, ht⟩ := h
  exact ⟨queue, trace ++ [.entered s.phase p], rfl, hq, by
    rw [Session.enter, apartFromCloses_append, apartFromCloses_append, ht]⟩

theorem Alike.accept (h : s.Alike s') (catalog : Schema.Catalog) :
    Alike { s with catalog := some catalog } { s' with catalog := some catalog } := by
  obtain ⟨queue, trace, rfl, hq, ht⟩ := h
  exact ⟨queue, trace, rfl, hq, ht⟩

theorem Alike.hand (h : s.Alike s') (room : Nat) : (s.hand room).Alike (s'.hand room) := by
  obtain ⟨queue, trace, rfl, hq, ht⟩ := h
  exact ⟨queue, trace, rfl, hq, ht⟩

/-- Sessions that meet an end are alike whatever their queues. -/
theorem meet_alike (queue queue' : List Command) {trace : List Event}
    (ht : apartFromCloses trace = apartFromCloses s.trace) (e : Ending) :
    ({ s with queue := queue }.meet e).Alike ({ s with queue := queue', trace := trace }.meet e) := by
  rw [meet_eq, meet_eq]
  refine ⟨queue', trace ++ s.loss, rfl, by simp, ?_⟩
  change _ = apartFromCloses (s.trace ++ s.loss)
  rw [apartFromCloses_append, apartFromCloses_append, ht]

theorem Alike.meet (h : s.Alike s') (e : Ending) : (s.meet e).Alike (s'.meet e) := by
  obtain ⟨queue, trace, rfl, -, ht⟩ := h
  exact meet_alike s.queue queue ht e

theorem Alike.answered (h : s.Alike s') (call : Call) (outcome : Except Failure Flow) :
    (s.answered call outcome).Alike (s'.answered call outcome) := by
  unfold Session.answered
  split
  · exact h.note _
  · exact (h.note _).meet _

/-! ### Uses of a handle -/

theorem Alike.send (h : s.Alike s') (request : Request) :
    (∃ e, s.send request = .error e ∧ s'.send request = .error e) ∨
      ∃ es s₁', s.send request = .ok (s.used es) ∧ s'.send request = .ok s₁' ∧ (s.used es).Alike s₁' := by
  obtain ⟨queue, trace, rfl, hq, ht⟩ := h
  unfold Session.send
  dsimp only
  split
  · exact .inl ⟨_, rfl, rfl⟩
  · split
    · exact .inl ⟨_, rfl, rfl⟩
    · rename_i frame _
      split
      · rename_i ho
        refine .inr ⟨[.accepted request frame], _, ?_, rfl, ?_⟩
        · simp [used, ho, Event.command?]
        · refine ⟨queue ++ [.send frame], trace ++ [.accepted request frame], rfl, ?_, ?_⟩
          · intro he
            simpa [used, ho, Event.command?] using upToClose_append_congr (hq he) _
          · rw [used, apartFromCloses_append, apartFromCloses_append, ht]
      · exact .inl ⟨_, rfl, rfl⟩

theorem Alike.close (h : s.Alike s') (retry : Bool) : (s.close retry).Alike (s'.close retry) := by
  obtain ⟨queue, trace, rfl, hq, ht⟩ := h
  rw [close_used, close_used]
  refine ⟨_, _, rfl, ?_, ?_⟩
  · intro he
    exact upToClose_append_congr (hq he) _
  · change apartFromCloses (trace ++ _) = apartFromCloses (s.trace ++ _)
    rw [apartFromCloses_append, apartFromCloses_append, ht]

/-- A further close does not show. -/
theorem Alike.further (h : s.Alike s') (hasked : s.ending = none → ∃ retry, .close retry ∈ s.queue)
    (retry : Bool) : s.Alike (s'.close retry) := by
  obtain ⟨queue, trace, rfl, hq, ht⟩ := h
  rw [close_used]
  refine ⟨_, _, rfl, ?_, ?_⟩
  · intro he
    obtain ⟨retry', hmem⟩ := hasked he
    have hlast := upToClose_append_congr (hq he)
    rw [hlast, upToClose_append_of_mem hmem]
  · change apartFromCloses (trace ++ [.closeRequested retry]) = _
    rw [apartFromCloses_append, ht]
    exact List.append_nil _

/-- Programs that differ in further closes have the same result, and leave sessions that are alike. -/
theorem Alike.run {α : Type} {asked : Prop} {h h' : Handle α} (hh : h.MoreCloses asked h')
    (hs : s.Alike s') (ho : s.isOpen ↔ s.ending = none)
    (hasked : asked → s.ending = none → ∃ retry, .close retry ∈ s.queue) :
    (h'.run s').1 = (h.run s).1 ∧ (h.run s).2.Alike (h'.run s').2 := by
  induction hh generalizing s s' with
  | done result => exact ⟨rfl, hs⟩
  | send request _ ih =>
      rcases hs.send request with ⟨e, h1, h2⟩ | ⟨es, s₁', h1, h2, hs₁⟩
      · rw [Handle.run, Handle.run, h1, h2]
        exact ih (.error e) hs ho hasked
      · rw [Handle.run, Handle.run, h1, h2]
        refine ih (.ok ()) hs₁ ho fun ha he => ?_
        obtain ⟨retry, hmem⟩ := hasked ha he
        exact ⟨retry, List.mem_append_left _ hmem⟩
  | close retry _ ih =>
      refine ih (hs.close retry) ?_ fun _ he => ⟨retry, ?_⟩
      · rw [close_used]
        exact ho
      · rw [close_used] at he ⊢
        simp [used, ho.mpr he, Event.command?]
  | phase _ ih =>
      obtain ⟨queue, trace, rfl, hq, ht⟩ := hs
      exact ih s.phase ⟨queue, trace, rfl, hq, ht⟩ ho hasked
  | catalog _ ih =>
      obtain ⟨queue, trace, rfl, hq, ht⟩ := hs
      exact ih s.catalog ⟨queue, trace, rfl, hq, ht⟩ ho hasked
  | further retry ha _ ih => exact ih (hs.further (hasked ha) retry) ho hasked

/-! ### Turns -/

theorem Alike.openingTurn (h : s.Alike s') (he : s.ending = none) (step : String) (next : Phase)
    (r : Readiness) : (s.openingTurn step next r).Alike (s'.openingTurn step next r) := by
  obtain ⟨queue, trace, rfl, hq, ht⟩ := h
  have hqueue := hq he
  unfold Session.openingTurn
  dsimp only
  match hs : s.queue with
  | .send frame :: rest =>
      rw [hs] at hqueue
      obtain ⟨rest', rfl, hrest⟩ := eq_send_of_upToClose hqueue
      have halike : Alike { s with queue := rest } { s with queue := rest', trace := trace } :=
        ⟨rest', trace, rfl, fun _ => hrest, ht⟩
      exact halike.note _
  | .close retry :: rest =>
      rw [hs] at hqueue
      obtain ⟨rest', rfl⟩ := eq_close_of_upToClose hqueue
      exact meet_alike rest rest' ht _
  | [] =>
      rw [hs] at hqueue
      obtain rfl := eq_nil_of_upToClose hqueue
      have halike : s.Alike { s with queue := [], trace := trace } :=
        ⟨[], trace, rfl, fun _ => by rw [hs], ht⟩
      match r.opening with
      | none => exact halike
      | some (.error text) => exact halike.meet _
      | some (.ok ()) =>
          dsimp only
          split
          · exact (halike.enter next).note _
          · exact halike.enter next

theorem Alike.tell (h : s.Alike s') (hc : c.MoreCloses c') (ho : s.isOpen ↔ s.ending = none) (call : Call)
    (k : σ) : (tell c' call s' k).2 = (tell c call s k).2 ∧
      (tell c call s k).1.Alike (tell c' call s' k).1 := by
  obtain ⟨hresult, halike⟩ := Alike.run (hc.answer call k) (h.note (.called call)) ho False.elim
  rw [tell_eq, tell_eq, hresult]
  exact ⟨rfl, halike.answered call _⟩

theorem Alike.receive (h : s.Alike s') (hc : c.MoreCloses c') (ho : s.isOpen ↔ s.ending = none)
    (i : Incoming) (k : σ) : (receive c' i s' k).2 = (receive c i s k).2 ∧
      (receive c i s k).1.Alike (receive c' i s' k).1 := by
  match i with
  | .control => exact ⟨rfl, h⟩
  | .closing => exact ⟨rfl, h.meet _⟩
  | .failed text => exact ⟨rfl, h.meet _⟩
  | .over => exact ⟨rfl, h.meet _⟩
  | .data frame =>
      obtain ⟨queue, trace, rfl, hq, ht⟩ := h
      have halike : s.Alike { s with queue := queue, trace := trace } := ⟨queue, trace, rfl, hq, ht⟩
      have hreports : ∀ entries : List LogEntry,
          Alike { s with trace := s.trace ++ entries.map .reported }
            { s with queue := queue, trace := trace ++ entries.map .reported } := fun entries =>
        ⟨queue, trace ++ entries.map .reported, rfl, hq, by
          rw [apartFromCloses_append, apartFromCloses_append, ht]⟩
      unfold Session.receive
      dsimp only
      split
      · unfold receiveSchema
        split
        · exact ⟨rfl, (halike.note _).meet _⟩
        · rename_i catalog entries _
          rw [note_reports, note_reports]
          have hschema := (((hreports entries).note (.schemaAccepted catalog.version catalog.size)).accept
            catalog).enter .streaming
          exact hschema.tell hc ho .schema k
      · unfold receiveResult
        dsimp only
        split
        · exact ⟨rfl, halike.meet _⟩
        · split
          · exact ⟨rfl, (halike.note _).meet _⟩
          · rename_i result entries _
            rw [note_reports, note_reports]
            exact (hreports entries).tell hc ho (callOf result frame) k

theorem Alike.exchangeTurn (h : s.Alike s') (hc : c.MoreCloses c') (hs : s.Coherent) (he : s.ending = none)
    (r : Readiness) (k : σ) : (exchangeTurn c' r s' k).2 = (exchangeTurn c r s k).2 ∧
      (exchangeTurn c r s k).1.Alike (exchangeTurn c' r s' k).1 := by
  obtain ⟨queue, trace, rfl, hq, ht⟩ := h
  have hqueue := hq he
  unfold Session.exchangeTurn
  dsimp only
  match hsq : s.queue with
  | .send frame :: rest =>
      rw [hsq] at hqueue
      obtain ⟨rest', rfl, hrest⟩ := eq_send_of_upToClose hqueue
      exact ⟨rfl, rest', trace, rfl, fun _ => hrest, ht⟩
  | .close retry :: rest =>
      rw [hsq] at hqueue
      obtain ⟨rest', rfl⟩ := eq_close_of_upToClose hqueue
      exact ⟨rfl, meet_alike rest rest' ht _⟩
  | [] =>
      rw [hsq] at hqueue
      obtain rfl := eq_nil_of_upToClose hqueue
      have halike : s.Alike { s with queue := [], trace := trace } :=
        ⟨[], trace, rfl, fun _ => by rw [hsq], ht⟩
      have hhanded : (if s.unflushed then s.hand r.room else s).Alike
          (if s.unflushed then Session.hand r.room { s with queue := [], trace := trace }
            else { s with queue := [], trace := trace }) := by
        split
        · exact halike.hand r.room
        · exact halike
      have ho : (if s.unflushed then s.hand r.room else s).isOpen ↔
          (if s.unflushed then s.hand r.room else s).ending = none := by
        split <;> exact hs.isOpen_iff
      dsimp only
      generalize (if s.unflushed then s.hand r.room else s) = s₁ at hhanded ho ⊢
      generalize (if s.unflushed then Session.hand r.room { s with queue := [], trace := trace }
        else { s with queue := [], trace := trace }) = s₁' at hhanded ⊢
      obtain ⟨queue₁, trace₁, rfl, hq₁, ht₁⟩ := hhanded
      have halike₁ : s₁.Alike { s₁ with queue := queue₁, trace := trace₁ } :=
        ⟨queue₁, trace₁, rfl, hq₁, ht₁⟩
      dsimp only
      split
      · exact ⟨rfl, queue₁, trace₁, rfl, hq₁, ht₁⟩
      · exact ⟨rfl, halike₁.meet _⟩
      · split
        · exact halike₁.receive hc ho _ k
        · exact ⟨rfl, halike₁⟩

theorem Alike.finish (h : s.Alike s') (hc : c.MoreCloses c') (hs : s.Coherent) {e : Ending}
    (he : s.ending = some e) (k : σ) : (finish c' e s' k).2 = (finish c e s k).2 ∧
      (finish c e s k).1.Alike (finish c' e s' k).1 := by
  have hnoted := (h.note (.ended e)).note (.notified e.retry)
  have hasked : True → ((s.note (.ended e)).note (.notified e.retry)).ending = none →
      ∃ retry, .close retry ∈ ((s.note (.ended e)).note (.notified e.retry)).queue := by
    intro _ hnone
    exact absurd (hnone.symm.trans he) (by simp)
  obtain ⟨hresult, halike⟩ := hnoted.run (hc.onEnd e.retry k) hs.isOpen_iff hasked
  unfold Session.finish
  dsimp only
  generalize (c.onEnd e.retry k).run ((s.note (.ended e)).note (.notified e.retry)) = result
    at hresult halike ⊢
  generalize (c'.onEnd e.retry k).run ((s'.note (.ended e)).note (.notified e.retry)) = result'
    at hresult halike ⊢
  obtain ⟨⟨panicked, k₁⟩, s₁⟩ := result
  obtain ⟨⟨panicked', k₁'⟩, s₁'⟩ := result'
  obtain ⟨rfl, rfl⟩ := Prod.mk.inj hresult
  cases panicked' with
  | none => exact ⟨rfl, halike.enter _⟩
  | some p => exact ⟨rfl, (halike.note _).enter _⟩

theorem Alike.turn (h : s.Alike s') (hc : c.MoreCloses c') (hs : s.Coherent) (r : Readiness) (k : σ) :
    (turn c' r s' k).2 = (turn c r s k).2 ∧ (turn c r s k).1.Alike (turn c' r s' k).1 := by
  have hphase : s'.phase = s.phase := by obtain ⟨queue, trace, rfl, -, -⟩ := h; rfl
  have hending : s'.ending = s.ending := by obtain ⟨queue, trace, rfl, -, -⟩ := h; rfl
  unfold Session.turn
  rw [hphase, hending]
  cases he : s.ending with
  | some e =>
      match hp : s.phase with
      | .closed => exact ⟨rfl, h⟩
      | .disconnected | .resolving | .connecting | .handshaking | .awaitingSchema | .streaming =>
          exact h.finish hc hs he k
  | none =>
      match hp : s.phase with
      | .closed => exact ⟨rfl, h⟩
      | .disconnected => exact ⟨rfl, h.enter _⟩
      | .resolving | .connecting | .handshaking => exact ⟨rfl, h.openingTurn he _ _ r⟩
      | .awaitingSchema | .streaming => exact h.exchangeTurn hc hs he r k

/-! ### Runs -/

/-- The moves of a second run do what those of the first one do, and ask for further closes once one has
been asked for. -/
inductive MoreCloses (c : Consumer σ) : List (Move σ) → List (Move σ) → Session → σ → Prop
  | nil (s : Session) (k : σ) : MoreCloses c [] [] s k
  | turn {ms ms' : List (Move σ)} {s : Session} {k : σ} (r : Readiness) :
    MoreCloses c ms ms' (turn c r s k).1 (turn c r s k).2 →
    MoreCloses c (.turn r :: ms) (.turn r :: ms') s k
  | use {ms ms' : List (Move σ)} {s : Session} {k : σ} (h h' : σ → Handle σ) :
    (h k).MoreCloses (s.closeRequests ≠ []) (h' k) →
    MoreCloses c ms ms' (move c (.use h) s k).1 (move c (.use h) s k).2 →
    MoreCloses c (.use h :: ms) (.use h' :: ms') s k
  /-- Somebody only asks for closes. -/
  | further {ms ms' : List (Move σ)} {s : Session} {k : σ} (h : σ → Handle σ) :
    s.closeRequests ≠ [] → (Handle.done k).MoreCloses True (h k) →
    MoreCloses c ms ms' s k → MoreCloses c ms (.use h :: ms') s k

/-- Runs that differ in further closes stay alike. -/
theorem Alike.moves {ms ms' : List (Move σ)} (h : s.Alike s') (hc : c.MoreCloses c')
    (hm : MoreCloses c ms ms' s k) (hs : s.Coherent) :
    (moves c' ms' s' k).2 = (moves c ms s k).2 ∧ (moves c ms s k).1.Alike (moves c' ms' s' k).1 := by
  induction hm generalizing s' with
  | nil s k => exact ⟨rfl, h⟩
  | turn r _ ih =>
      obtain ⟨hk, halike⟩ := h.turn hc hs r _
      rw [moves_cons, moves_cons, show Session.move c' (.turn r) s' _ = Session.turn c' r s' _ from rfl, hk]
      exact ih halike (hs.move (.turn r))
  | use p p' hp _ ih =>
      obtain ⟨hk, halike⟩ := h.run hp hs.isOpen_iff fun hasked he => hs.close_waits he hasked
      rw [moves_cons, moves_cons,
        show (Session.move c' (.use p') s' _).2 = (Session.move c (.use p) _ _).2 from hk]
      exact ih halike (hs.move (.use p))
  | further p hasked hp _ ih =>
      obtain ⟨hk, halike⟩ := h.run hp hs.isOpen_iff fun _ he => hs.close_waits he hasked
      rw [moves_cons, show (Session.move c' (.use p) s' _).2 = _ from hk]
      exact ih halike hs

/-! ### The end of a session -/

/-- A session that has met its end closes at the next turn. -/
theorem phase_turn_of_ending {e : Ending} (he : s.ending = some e) (r : Readiness) (k : σ) :
    (turn c r s k).1.phase = .closed := by
  have hfinish : ∀ (s : Session), (Session.finish c e s k).1.phase = .closed := fun _ => rfl
  unfold Session.turn
  rw [he]
  match hp : s.phase with
  | .closed => exact hp
  | .disconnected | .resolving | .connecting | .handshaking | .awaitingSchema | .streaming =>
      exact hfinish s

/-- The consumer is told of the end once, when the session closes, and is told nothing after that or after
a close was asked for. It is told whether to try again by the first occurrence that ends the session: so
it is for a failure of the transport and for a close that asks for it. Further closes change nothing that
the consumer hears. -/
theorem notified_once (c : Consumer σ) (t : Target) (ms : List (Move σ)) (k : σ) :
    ((lived c t ms k).ending = none ∧ (lived c t ms k).phase ≠ .closed ∧
        (lived c t ms k).notifications = [] ∨
      ∃ before last e, history c t ms k = before ++ [last] ∧
        (account none before (lived c t ms k).answers).ending = none ∧
        (lived c t ms k).ending = some e ∧
        (e.retry = true ↔ last.IsFault ∨ last = .command (.close true)) ∧
        (lived c t ms k).notifications =
          (if (lived c t ms k).phase = .closed then [e.retry] else []) ∧
        ∀ r k', (turn c r (lived c t ms k) k').1.phase = .closed) ∧
      Silenced (lived c t ms k).trace ∧
      ∀ c' ms', c.MoreCloses c' → MoreCloses c ms ms' (start t) k →
        (lived c' t ms' k).calls = (lived c t ms k).calls ∧
          (lived c' t ms' k).answers = (lived c t ms k).answers ∧
          (lived c' t ms' k).notifications = (lived c t ms k).notifications ∧
          (lived c' t ms' k).ending = (lived c t ms k).ending ∧
          (lived c' t ms' k).phase = (lived c t ms k).phase ∧
          (moves c' ms' (start t) k).2 = (moves c ms (start t) k).2 := by
  have horderly : (lived c t ms k).Orderly := (start_orderly t).moves (start_coherent t) ms
  have haccount := account_history c t ms k
  refine ⟨?_, horderly.silenced, ?_⟩
  · cases he : (lived c t ms k).ending with
    | none =>
        have hp := (lived_coherent c t ms k).not_closed he
        exact .inl ⟨rfl, hp, horderly.notifications_eq_nil hp⟩
    | some e =>
        obtain ⟨before, last, hhistory, hbefore, hretry⟩ :=
          account_last (by rw [haccount]; exact he) (by rw [haccount])
        refine .inr ⟨before, last, e, hhistory, hbefore, rfl, hretry, ?_, ?_⟩
        · rw [horderly.notifications_eq, he]
          rfl
        · exact fun r k' => phase_turn_of_ending he r k'
  · intro c' ms' hc hm
    obtain ⟨hk, halike⟩ := (Alike.refl (start t)).moves hc hm (start_coherent t)
    refine ⟨halike.seen_eq fun _ => rfl, halike.seen_eq fun _ => rfl, halike.seen_eq fun _ => rfl, ?_, ?_, hk⟩
    · obtain ⟨queue, trace, heq, -, -⟩ := halike
      rw [lived, heq]
    · obtain ⟨queue, trace, heq, -, -⟩ := halike
      rw [lived, heq]

/-- A consumer that asks for a close when it is told of the end. -/
def insistent : Consumer Unit := { listener with onEnd := fun _ k => .close false (.done (none, k)) }

theorem moreCloses_insistent : listener.MoreCloses insistent where
  onSchema := fun _ => .refl _
  onStatus := fun _ _ _ => .refl _
  onBlocks := fun _ _ _ => .refl _
  onEnd := fun _ _ => .further false trivial (.done _)

theorem MoreCloses.refl (ms : List (Move σ)) : MoreCloses c ms ms s k := by
  induction ms generalizing s k with
  | nil => exact .nil s k
  | cons m ms ih =>
      match m with
      | .turn r => exact .turn r ih
      | .use h => exact .use h h (.refl _) ih

/-- The consumer of a session that its node leaves is told once to try again, whether it asks for a close then or
not. -/
theorem notified_of_leaving :
    (∃ e, (lived listener somewhere leavingMoves ()).ending = some e ∧ e.retry = true) ∧
      Silenced (lived listener somewhere leavingMoves ()).trace ∧
      (lived insistent somewhere leavingMoves ()).notifications = [true] := by
  obtain ⟨htrace, hhistory⟩ := lived_streaming_leaving.2
  have hnotified : (lived listener somewhere leavingMoves ()).notifications = [true] := by
    rw [notifications, seen, htrace]
    rfl
  have honce := notified_once listener somewhere leavingMoves ()
  refine ⟨?_, honce.2.1, ?_⟩
  · rcases honce.1 with ⟨-, -, hnone⟩ | ⟨before, last, e, hlast, -, he, hretry, -, -⟩
    · cases hnone.symm.trans hnotified
    · have hclosing : last = .incoming .closing := by
        have hlasts := congrArg List.getLast? (hlast.symm.trans hhistory)
        simpa using hlasts
      exact ⟨e, he, hretry.mpr (.inl (by rw [hclosing]; trivial))⟩
  · rw [(honce.2.2 insistent leavingMoves moreCloses_insistent (.refl _)).2.2.1, hnotified]

end Session

end StateHistory
