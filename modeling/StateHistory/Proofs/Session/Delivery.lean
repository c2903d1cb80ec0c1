import StateHistory.Proofs.Session.Moment
import StateHistory.Proofs.Session.Sending

/-! # The delivery of requests

A request that was accepted waits in the queue, then among the outbound frames, and is then handed to the socket.
At every moment of a session these three make up the requests that were accepted so far, in the order of the
calls (`delivered_in_order`): none is lost, doubled or overtaken, whatever the socket takes at a time and whoever
makes the requests (`Session.sends`). -/

namespace StateHistory

/-- The requests of a program that are accepted, in the order of the calls. -/
def Handle.sends {α : Type} : Handle α → Session → List Request
  | done _, _ => []
  | send request next, s =>
    match s.send request with
    | .ok s => request :: (next (.ok ())).sends s
    | .error e => (next (.error e)).sends s
  | close retry next, s => next.sends (s.close retry)
  | phase next, s => (next s.phase).sends s
  | catalog next, s => (next s.catalog).sends s

namespace Session

variable {σ : Type} {c : Consumer σ} {s s' : Session} {k : σ} {r : Readiness}

/-- The requests that are accepted in a move: its owner's, or those of the callback of the turn. -/
def sendsIn (c : Consumer σ) (s : Session) (k : σ) : Move σ → List Request
  | .use h => (h k).sends s
  | .turn r =>
    match s.callback? r with
    | none => []
    | some (.call call s') => (c.answer call k).sends s'
    | some (.notice e s') => (c.onEnd e.retry k).sends s'

/-- The requests that are accepted in a run, in the order of the calls. -/
def sends (c : Consumer σ) : List (Move σ) → Session → σ → List Request
  | [], _, _ => []
  | m :: ms, s, k => sendsIn c s k m ++ sends c ms (move c m s k).1 (move c m s k).2

/-! ### What is accepted -/

theorem acceptances_calling (room : Nat) (frame : Bytes) (call : Call) :
    (s.calling room frame call).acceptances = s.acceptances :=
  (seen_calling Event.acceptance?_of_isPlain room frame call).trans (List.append_nil _)

theorem acceptances_noticing (e : Ending) : (s.noticing e).acceptances = s.acceptances :=
  (seen_noticing Event.acceptance?_of_isPlain e).trans (List.append_nil _)

/-- An accepted request is the next one, with the frame that it has under the catalog. -/
theorem acceptances_of_send {request : Request} (h : s.send request = .ok s') :
    ∃ frame, Frame.encodeRequest s.catalog request = .ok frame ∧
      s'.acceptances = s.acceptances ++ [(request, frame)] := by
  obtain ⟨frame, rfl, -, -, hframe⟩ := send_used h
  exact ⟨frame, hframe, seen_used _ _ _⟩

theorem acceptances_run {α : Type} (h : Handle α) (s : Session) :
    (h.run s).2.acceptances.map Prod.fst = s.acceptances.map Prod.fst ++ h.sends s := by
  induction h generalizing s with
  | done result => exact (List.append_nil _).symm
  | send request next ih =>
      rw [Handle.run, Handle.sends]
      cases hsend : s.send request with
      | error e => exact ih _ s
      | ok s' =>
          obtain ⟨frame, -, haccepted⟩ := acceptances_of_send hsend
          dsimp only
          rw [ih, haccepted, List.map_append, List.append_assoc]
          rfl
  | close retry next ih =>
      rw [Handle.run, Handle.sends, ih, close_used, acceptances, seen_used]
      exact congrArg (List.map Prod.fst · ++ _) (List.append_nil _)
  | phase next ih => exact ih _ s
  | catalog next ih => exact ih _ s

theorem Turned.acceptances_eq {o : Option Occurrence} {p : Session × σ} (h : Turned c s k o p)
    (hcall : ∀ frame call, o = some (.incoming (.data frame)) → callFor s.catalog frame ≠ .ok call)
    (hnotice : ∀ e, s.ending = some e → s.phase = .closed) : p.1.acceptances = s.acceptances := by
  cases h with
  | idle | taken | handed | flushed | ignored => rfl
  | begun hp he => simp [seen, enter, Event.acceptance?]
  | dropped frame rest he hp hq => simp [seen, note, Event.acceptance?]
  | closed | openingFailed | writeFailed | broken => exact seen_meet _ _ Event.acceptance?_of_isPlain _
  | advanced step reports he hp hq hr => simp [seen, Event.filterMap_plain Event.acceptance?_of_isPlain hr]
  | refused room frame error report he hp hq hf hr =>
      rw [acceptances, seen_meet _ _ Event.acceptance?_of_isPlain, seen_note, Event.acceptance?_of_isPlain hr]
      exact List.append_nil _
  | told room frame call reports outcome k' s' he hp hq hf hr hrun => exact absurd hf (hcall frame call rfl)
  | finished e uses reports hp he hu hr => exact absurd (hnotice e he) hp

theorem acceptances_turn_of_no_callback (hs : s.Coherent) (h : s.callback? r = none) :
    (turn c r s k).1.acceptances = s.acceptances := by
  refine (turn_turned hs).acceptances_eq (fun frame call hframe hf => ?_) fun e he => ?_
  · obtain ⟨he, -⟩ := occurrence?_eq_incoming_iff.mp hframe
    simp [callback?, he, hframe, hf] at h
  · by_contra hp
    simp [callback?, he, hp] at h

theorem acceptances_finish (e : Ending) : (finish c e s k).1.acceptances =
    ((c.onEnd e.retry k).run (s.noticing e)).2.acceptances := by
  unfold finish
  dsimp only
  rw [show (s.note (.ended e)).note (.notified e.retry) = s.noticing e from rfl]
  generalize (c.onEnd e.retry k).run (s.noticing e) = result
  obtain ⟨⟨panicked, k'⟩, s'⟩ := result
  cases panicked <;> simp [seen, enter, note, Event.acceptance?]

theorem acceptances_move (hs : s.Coherent) (m : Move σ) :
    (move c m s k).1.acceptances.map Prod.fst = s.acceptances.map Prod.fst ++ sendsIn c s k m := by
  match m with
  | .use h => exact acceptances_run (h k) s
  | .turn r =>
      rw [move, sendsIn]
      cases hcallback : s.callback? r with
      | none => rw [acceptances_turn_of_no_callback hs hcallback, List.append_nil]
      | some callback =>
          match callback with
          | .call call s' =>
              obtain ⟨he, frame, -, -, rfl⟩ := callback?_eq_call hcallback
              rw [turn_of_call hs hcallback, acceptances, seen_answered Event.acceptance?_of_isPlain,
                show Event.acceptance? (.answered _) = none from rfl, Option.toList_none, List.append_nil]
              rw [acceptances_run, acceptances_calling]
          | .notice e s' =>
              obtain ⟨he, hp, rfl⟩ := callback?_eq_notice hcallback
              rw [turn_of_ending he hp, acceptances_finish, acceptances_run, acceptances_noticing]

/-- The requests that were accepted in a run are those that its programs made with success, in their order. -/
theorem acceptances_moves (hs : s.Coherent) (ms : List (Move σ)) :
    (moves c ms s k).1.acceptances.map Prod.fst = s.acceptances.map Prod.fst ++ sends c ms s k := by
  induction ms generalizing s k with
  | nil => exact (List.append_nil _).symm
  | cons m ms ih => rw [moves_cons, ih (hs.move m), acceptances_move hs, sends, List.append_assoc]

/-! ### What the socket has taken -/

/-- The socket takes frames off the front of those that wait, and none after the end. -/
theorem Turned.exists_written {o : Option Occurrence} {p : Session × σ} (h : Turned c s k o p) :
    ∃ frames, p.1.written = s.written ++ frames ∧ (s.ending ≠ none → frames = []) := by
  have hlive : ∀ {frames : List Bytes}, s.ending = none → s.ending ≠ none → frames = [] := fun he hne => absurd he hne
  cases h with
  | idle => exact ⟨[], (List.append_nil _).symm, fun _ => rfl⟩
  | begun | dropped | advanced | taken => exact ⟨[], (List.append_nil _).symm, fun _ => rfl⟩
  | closed | openingFailed => exact ⟨[], by simp [meet_eq], fun _ => rfl⟩
  | handed room he | ignored room he | flushed room he => exact ⟨_, rfl, hlive he⟩
  | writeFailed room text he => exact ⟨s.outbound.take room, by simp [meet_eq, hand], hlive he⟩
  | broken room i e he => exact ⟨s.outbound.take room, by simp [meet_eq, hand], hlive he⟩
  | refused room frame error report he => exact ⟨s.outbound.take room, by simp [meet_eq, hand, note], hlive he⟩
  | told room frame call reports outcome k' s' he hp hq hf hr hrun =>
      obtain ⟨uses, -, rfl⟩ := Handle.used_of_run hrun
      refine ⟨s.outbound.take room, ?_, hlive he⟩
      unfold answered
      split <;> simp [meet_eq, note, used, accepting, hand]
  | finished => exact ⟨[], (List.append_nil _).symm, fun _ => rfl⟩

theorem exists_written_move (hs : s.Coherent) (m : Move σ) :
    ∃ frames, (move c m s k).1.written = s.written ++ frames ∧ (s.ending ≠ none → frames = []) := by
  match m with
  | .turn r => exact (turn_turned hs).exists_written
  | .use h =>
      obtain ⟨es, -, hused⟩ := move_use (c := c) h s k
      rw [hused]
      exact ⟨[], (List.append_nil _).symm, fun _ => rfl⟩

theorem exists_written_moves (hs : s.Coherent) (ms : List (Move σ)) :
    ∃ frames, (moves c ms s k).1.written = s.written ++ frames ∧ (s.ending ≠ none → frames = []) := by
  induction ms generalizing s k with
  | nil => exact ⟨[], (List.append_nil _).symm, fun _ => rfl⟩
  | cons m ms ih =>
      obtain ⟨frames, hframes, hnone⟩ := exists_written_move (c := c) (k := k) hs m
      obtain ⟨frames', hframes', hnone'⟩ := ih (hs.move m) (k := (move c m s k).2)
      refine ⟨frames ++ frames', ?_, fun hne => ?_⟩
      · rw [moves_cons, hframes', hframes, List.append_assoc]
      · obtain ⟨e, he⟩ := Option.ne_none_iff_exists'.mp hne
        rw [hnone hne, hnone' (by simp [ending_move hs he m])]
        rfl

/-! ### What waits for the socket -/

/-- Frames wait for the socket only as long as the session knows that they do. -/
def Flushed (s : Session) : Prop := s.unflushed = false → s.outbound = []

theorem Flushed.hand (h : s.Flushed) (room : Nat) : (s.hand room).Flushed := by
  intro hflushed
  rw [Session.hand, h hflushed]
  exact List.drop_nil

theorem Flushed.meet (h : s.Flushed) (e : Ending) : (s.meet e).Flushed := by
  rw [meet_eq]
  exact h

theorem Flushed.turned {o : Option Occurrence} {p : Session × σ} (h : s.Flushed) (_ : s.Coherent)
    (hturn : Turned c s k o p) : p.1.Flushed := by
  cases hturn with
  | idle | begun | dropped | advanced | finished => exact h
  | closed retry rest => exact Flushed.meet (s := { s with queue := rest }) h _
  | openingFailed => exact h.meet _
  | taken => exact nofun
  | handed room | ignored room => exact h.hand room
  | flushed room he hp hq ho => exact fun _ => ho
  | writeFailed room | broken room => exact (h.hand room).meet _
  | refused room frame error report => exact Flushed.meet (s := (s.hand room).note report) (h.hand room) _
  | told room frame call reports outcome k' s' he hp hq hf hr hrun =>
      obtain ⟨uses, -, rfl⟩ := Handle.used_of_run hrun
      have hused : (((((s.hand room).accepting frame reports).note (.called call)).used uses).note
          (.answered outcome)).Flushed := h.hand room
      unfold answered
      split
      · exact hused
      · exact hused.meet _

/-- Before a session is open there is no request in its queue. -/
theorem Faithful.send_not_mem_queue (h : s.Faithful) (hp : s.phase.openingStep?.isSome) (frame : Bytes) :
    .send frame ∉ s.queue := by
  have hnone : s.acceptances = [] := by
    refine h.none_before (takesRequests_of_openingStep? hp) fun hclosed => ?_
    rw [hclosed] at hp
    cases hp
  have hsent := h.sent_eq
  rw [hnone, List.map_nil, List.append_eq_nil_iff, List.filterMap_eq_nil_iff] at hsent
  intro hmem
  cases hsent.2 _ hmem

theorem Faithful.noticing (h : s.Faithful) (e : Ending) : (s.noticing e).Faithful := by
  refine h.extend [.ended e, .notified e.retry] (by simp [Session.noticing, Session.note])
    (by simp [Event.acceptance?]) rfl (fun h1 h2 => ⟨h1, h2⟩) (fun _ => rfl) ?_
  simpa [Session.noticing, Session.note] using h.told_iff

theorem Passes.faithful {t : Target} (h : Passes c (start t) k s) : s.Faithful :=
  h.preserves (fun ms => (start_faithful t).moves (start_coherent t) ms)
    (fun room h _ hf => h.called room hf isPlain_of_mem_reportsOf) (fun h _ => h.noticing _)
    fun h hes => h.used hes

theorem Passes.flushed {t : Target} (h : Passes c (start t) k s) : s.Flushed :=
  h.preserves (fun ms => (start_coherent t).preserves Flushed.turned (fun h _ => h) (fun _ => rfl) ms)
    (fun room h _ _ => h.hand room) (fun h _ => h) fun h _ => h

/-- At every moment the frames that the socket has taken, those that wait for it and those in the queue are the
frames of the requests that were accepted so far, each made under the catalog of its time; frames wait only while
the session knows that they do, and no request is in the queue that a session which opens could drop. The accepted
requests are those that the programs of the run made with success, in the order of the calls. The socket is handed
more and more of the frames, until the end. -/
theorem delivered_in_order (c : Consumer σ) (t : Target) (k : σ) :
    (∀ s, Passes c (start t) k s →
      s.written ++ s.outbound ++ s.queue.filterMap Command.frame? = s.acceptances.map Prod.snd ∧
      (∀ pre post request frame, s.trace = pre ++ .accepted request frame :: post →
        (.called .schema ∉ pre → Frame.encodeRequest none request = .ok frame) ∧
        (.called .schema ∈ pre → Frame.encodeRequest s.catalog request = .ok frame)) ∧
      (s.unflushed = false → s.outbound = []) ∧
      (s.phase.openingStep?.isSome → ∀ frame, .send frame ∉ s.queue)) ∧
    (∀ ms, (lived c t ms k).acceptances.map Prod.fst = sends c ms (start t) k) ∧
    ∀ ms more, ∃ frames, (lived c t (ms ++ more) k).written = (lived c t ms k).written ++ frames ∧
      ((lived c t ms k).ending ≠ none → frames = []) := by
  refine ⟨fun s hs => ?_, fun ms => ?_, fun ms more => ?_⟩
  · have h := hs.faithful
    refine ⟨h.sent_eq, fun pre post request frame htrace => ?_, hs.flushed, fun hp => h.send_not_mem_queue hp⟩
    exact ⟨h.early pre post request frame htrace, h.late pre post request frame htrace⟩
  · exact acceptances_moves (start_coherent t) ms
  · rw [lived, moves_append]
    exact exists_written_moves (lived_coherent c t ms k) more

/-- Of the three requests of a session that streams, one is with the socket, one waits for it, and one is in the
queue. -/
theorem delivered_of_streaming :
    (lived listener somewhere streamingMoves ()).acceptances.map Prod.snd = [[0], [0], [0]] ∧
      (sends listener streamingMoves (start somewhere) ()).length = 3 ∧
      ∃ frames, (lived listener somewhere leavingMoves ()).written = [[0]] ++ frames := by
  obtain ⟨-, -, hwritten, houtbound, hqueue, -⟩ := lived_streaming_leaving.1
  obtain ⟨hmoments, hsends, hmore⟩ := delivered_in_order listener somewhere ()
  have hframes := (hmoments _ (.lived _ _ streamingMoves _)).1
  rw [hwritten, houtbound, hqueue] at hframes
  refine ⟨hframes.symm, ?_, ?_⟩
  · rw [← hsends, List.length_map, ← List.length_map Prod.snd, ← hframes]
    rfl
  · obtain ⟨frames, hmore, -⟩ := hmore streamingMoves [.turn .nothing, .turn (.received .closing), .turn .nothing]
    rw [hwritten] at hmore
    exact ⟨frames, by rw [leavingMoves, hmore]⟩

end Session

end StateHistory
