import StateHistory.Proofs.Session.History

/-! # Moments at which a handle is used

The owner of a session uses a handle between moves, the consumer inside of a turn. A turn calls the consumer at
most once (`Session.callback?`): with the session that `Callback` holds, and otherwise it does the same for all
consumers (`turn_congr`). A session therefore passes through its states between moves, through the states in
which it calls its consumer, and from there through what uses of a handle make of them (`Session.Passes`). -/

namespace StateHistory

/-- What a turn has its consumer do, and the session as the consumer finds it. -/
inductive Callback where
  | call (call : Call) (s : Session)
  | notice (e : Ending) (s : Session)

namespace Session

variable {σ : Type} {c c' : Consumer σ} {s s' : Session} {k : σ} {r : Readiness}

/-- How many frames the socket takes in a turn that goes on to receive. -/
def roomFor (s : Session) (r : Readiness) : Nat := if s.unflushed then r.room else 0

/-- The session that tells its consumer of a data frame. -/
def calling (s : Session) (room : Nat) (frame : Bytes) (call : Call) : Session :=
  ((s.hand room).accepting frame (reportsOf s.catalog frame)).note (.called call)

/-- The session that tells its consumer of its end. -/
def noticing (s : Session) (e : Ending) : Session := (s.note (.ended e)).note (.notified e.retry)

/-- The callback of a turn, if it makes one. -/
def callback? (s : Session) (r : Readiness) : Option Callback :=
  match s.ending with
  | some e => if s.phase = .closed then none else some (.notice e (s.noticing e))
  | none =>
    match s.occurrence? r with
    | some (.incoming (.data frame)) =>
      match callFor s.catalog frame with
      | .ok call => some (.call call (s.calling (s.roomFor r) frame call))
      | .error _ => none
    | _ => none

theorem seen_calling {α : Type} {view : Event → Option α} (hv : ∀ {e : Event}, e.isPlain → view e = none)
    (room : Nat) (frame : Bytes) (call : Call) :
    (s.calling room frame call).seen view = s.seen view ++ (view (.called call)).toList := by
  rw [calling, seen_note, seen_accepting hv isPlain_of_mem_reportsOf]

theorem seen_noticing {α : Type} {view : Event → Option α} (hv : ∀ {e : Event}, e.isPlain → view e = none)
    (e : Ending) : (s.noticing e).seen view = s.seen view ++ (view (.notified e.retry)).toList := by
  rw [noticing, seen_note, seen_note, hv rfl, Option.toList_none, List.append_nil]

theorem callback?_eq_call {call : Call} (h : s.callback? r = some (.call call s')) :
    s.ending = none ∧ ∃ frame, s.occurrence? r = some (.incoming (.data frame)) ∧
      callFor s.catalog frame = .ok call ∧ s' = s.calling (s.roomFor r) frame call := by
  unfold callback? at h
  split at h
  · split at h <;> cases h
  · rename_i he
    split at h
    · rename_i frame hframe
      split at h
      · rename_i call hcall
        cases h
        exact ⟨he, frame, hframe, hcall, rfl⟩
      · cases h
    · cases h

theorem callback?_eq_notice {e : Ending} (h : s.callback? r = some (.notice e s')) :
    s.ending = some e ∧ s.phase ≠ .closed ∧ s' = s.noticing e := by
  unfold callback? at h
  split at h
  · rename_i he
    split at h
    · cases h
    · rename_i hp
      cases h
      exact ⟨he, hp, rfl⟩
  · split at h
    · split at h <;> cases h
    · cases h

/-! ### Turns and their callbacks -/

/-- A turn receives where there is nothing else to do. -/
theorem occurrence?_eq_incoming_iff {i : Incoming} : s.occurrence? r = some (.incoming i) ↔
    s.ending = none ∧ s.phase.takesRequests ∧ s.queue = [] ∧ s.writeOutcome? r = none ∧ r.incoming = some i := by
  have hopen : s.phase.takesRequests ↔ s.phase.openingStep? = none ∧ s.phase ≠ .disconnected ∧ s.phase ≠ .closed := by
    cases s.phase <;> simp [Phase.openingStep?, Phase.takesRequests]
  unfold occurrence?
  rw [hopen]
  split
  · rename_i hover
    constructor
    · rintro ⟨⟩
    · rintro ⟨he, ⟨-, hp, hp'⟩, -⟩
      simp [he, hp, hp'] at hover
  · rename_i hlive
    obtain ⟨he, hp, hp'⟩ : s.ending = none ∧ s.phase ≠ .disconnected ∧ s.phase ≠ .closed := by
      simpa [not_or] using hlive
    split
    · rename_i hq
      simp [hq]
    · rename_i hq
      split
      · rename_i hstep
        simp [hstep]
      · rename_i hstep
        cases hw : s.writeOutcome? r <;> simp [he, hp, hp', hq, hstep]

/-- An open session receives what has come in, unless it has something else to do; that it does without its
consumer. -/
theorem exchangeTurn_cases (s : Session) (r : Readiness) (k : σ) :
    (∃ i, s.queue = [] ∧ s.writeOutcome? r = none ∧ r.incoming = some i ∧
      ∀ c : Consumer σ, exchangeTurn c r s k = receive c i (s.hand (s.roomFor r)) k) ∨
    (s.queue ≠ [] ∨ s.writeOutcome? r ≠ none ∨ r.incoming = none) ∧
      ∃ s', ∀ c : Consumer σ, exchangeTurn c r s k = (s', k) := by
  obtain ⟨opening, room, flush, incoming⟩ := r
  unfold exchangeTurn writeOutcome? roomFor
  -- The cases are those that a turn tells apart, in its order: the queue, then the pending write, then the rest.
  match hq : s.queue with
  | .send frame :: rest => exact .inr ⟨.inl (List.cons_ne_nil _ _), _, fun _ => rfl⟩
  | .close retry :: rest => exact .inr ⟨.inl (List.cons_ne_nil _ _), _, fun _ => rfl⟩
  | [] =>
      cases hu : s.unflushed with
      | false =>
          cases incoming with
          | none => exact .inr ⟨.inr (.inr rfl), s, fun _ => by simp [hu]⟩
          | some i => exact .inl ⟨i, rfl, by simp, rfl, fun _ => by simp [hu, hand_zero]⟩
      | true =>
          have hu' : (s.hand room).unflushed = true := hu
          rcases flush with _ | (text | ⟨⟨⟩⟩)
          · cases incoming with
            | none => exact .inr ⟨.inr (.inr rfl), s.hand room, fun _ => by simp [hu']⟩
            | some i => exact .inl ⟨i, rfl, by simp, rfl, fun _ => by simp [hu']⟩
          · refine .inr ⟨.inr (.inl (by simp)), (s.hand room).meet (.transport writeStep text), fun _ => ?_⟩
            simp [hu']
          · by_cases hroom : s.outbound.length ≤ room
            · have ho : (s.hand room).outbound = [] := by simpa [hand] using hroom
              refine .inr ⟨.inr (.inl (by simp [hroom])), { s.hand room with unflushed := false }, fun _ => ?_⟩
              simp [hu', ho]
            · have ho : (s.hand room).outbound ≠ [] := by simpa [hand] using hroom
              obtain ⟨frame, frames, ho⟩ := List.exists_cons_of_ne_nil ho
              cases incoming with
              | none => exact .inr ⟨.inr (.inr rfl), s.hand room, fun _ => by simp [hu', ho]⟩
              | some i => exact .inl ⟨i, rfl, by simp [hroom], rfl, fun _ => by simp [hu', ho]⟩

theorem turn_of_incoming {i : Incoming} (h : s.occurrence? r = some (.incoming i)) :
    turn c r s k = receive c i (s.hand (s.roomFor r)) k := by
  obtain ⟨he, hp, hq, hw, hi⟩ := occurrence?_eq_incoming_iff.mp h
  have hexchange : turn c r s k = exchangeTurn c r s k := by
    unfold turn
    rw [he]
    cases hphase : s.phase <;> simp_all [Phase.takesRequests]
  rcases exchangeTurn_cases s r k with ⟨j, -, -, hj, hreceive⟩ | ⟨hidle | hidle | hidle, -⟩
  · obtain rfl := Option.some.inj (hi.symm.trans hj)
    rw [hexchange, hreceive]
  · exact absurd hq hidle
  · exact absurd hw hidle
  · cases hi.symm.trans hidle

theorem turn_of_ending {e : Ending} (he : s.ending = some e) (hp : s.phase ≠ .closed) :
    turn c r s k = finish c e s k := by
  unfold turn
  rw [he]
  cases hphase : s.phase <;> first | rfl | exact absurd hphase hp

theorem turn_of_call {call : Call} (hs : s.Coherent) (h : s.callback? r = some (.call call s')) :
    turn c r s k = (((c.answer call k).run s').2.answered call ((c.answer call k).run s').1.1,
      ((c.answer call k).run s').1.2) := by
  obtain ⟨he, frame, hframe, hcall, rfl⟩ := callback?_eq_call h
  obtain ⟨-, hp, -⟩ := occurrence?_eq_incoming_iff.mp hframe
  rw [turn_of_incoming hframe, receive_of_call _ hs he hp hcall, tell_eq]
  rfl

/-- A turn does the same for all consumers that do the same when it calls them. -/
theorem turn_congr (hs : s.Coherent)
    (hcall : ∀ call s', s.callback? r = some (.call call s') →
      (c'.answer call k).run s' = (c.answer call k).run s')
    (hnotice : ∀ e s', s.callback? r = some (.notice e s') →
      (c'.onEnd e.retry k).run s' = (c.onEnd e.retry k).run s') : turn c' r s k = turn c r s k := by
  cases he : s.ending with
  | some e =>
      by_cases hp : s.phase = .closed
      · unfold turn
        rw [hp]
      · have hrun := hnotice e (s.noticing e) (by simp [callback?, he, hp])
        rw [turn_of_ending he hp, turn_of_ending he hp]
        unfold finish
        dsimp only
        rw [show (s.note (.ended e)).note (.notified e.retry) = s.noticing e from rfl, hrun]
  | none =>
      have hexchange : s.phase.takesRequests → exchangeTurn c' r s k = exchangeTurn c r s k := by
        intro hp
        rcases exchangeTurn_cases s r k with ⟨i, hq, hw, hi, hreceive⟩ | ⟨-, s', hsame⟩
        · rw [hreceive, hreceive]
          match i with
          | .control | .closing | .failed _ | .over => rfl
          | .data frame =>
              have hframe := occurrence?_eq_incoming_iff.mpr ⟨he, hp, hq, hw, hi⟩
              cases hf : callFor s.catalog frame with
              | error e => rw [receive_of_refusal _ hs he hp hf, receive_of_refusal _ hs he hp hf]
              | ok call =>
                  have hrun := hcall call (s.calling (s.roomFor r) frame call) (by
                    simp [callback?, he, hframe, hf])
                  rw [receive_of_call _ hs he hp hf, receive_of_call _ hs he hp hf, tell_eq, tell_eq]
                  rw [calling] at hrun
                  rw [hrun]
        · rw [hsame, hsame]
      unfold turn
      rw [he]
      match hp : s.phase with
      | .disconnected | .resolving | .connecting | .handshaking | .closed => rfl
      | .awaitingSchema | .streaming => exact hexchange (by rw [hp]; rfl)

/-! ### Ends -/

theorem Turned.ending_eq {o : Option Occurrence} {p : Session × σ} {e : Ending} (h : Turned c s k o p)
    (he : s.ending = some e) : p.1.ending = some e := by
  cases h with
  | idle | finished => exact he
  | begun _ hlive => cases he.symm.trans hlive
  | dropped _ _ hlive | closed _ _ hlive | advanced _ _ hlive | openingFailed _ _ hlive | taken _ _ hlive
  | handed _ hlive | flushed _ hlive | writeFailed _ _ hlive | ignored _ hlive | broken _ _ _ hlive
  | refused _ _ _ _ hlive | told _ _ _ _ _ _ _ hlive => cases he.symm.trans hlive

theorem ending_move {e : Ending} (hs : s.Coherent) (he : s.ending = some e) (m : Move σ) :
    (move c m s k).1.ending = some e := by
  match m with
  | .turn r => exact (turn_turned hs).ending_eq he
  | .use h =>
      obtain ⟨es, -, hused⟩ := move_use (c := c) h s k
      rw [hused]
      exact he

/-- A session that has met its end does not meet another one. -/
theorem ending_moves {e : Ending} (hs : s.Coherent) (he : s.ending = some e) (ms : List (Move σ)) :
    (moves c ms s k).1.ending = some e := by
  induction ms generalizing s k with
  | nil => exact he
  | cons m ms ih => exact ih (hs.move m) (ending_move hs he m)

theorem moves_append (ms more : List (Move σ)) :
    moves c (ms ++ more) s k = moves c more (moves c ms s k).1 (moves c ms s k).2 := by
  rw [moves, List.foldl_append]
  rfl

/-! ### States -/

/-- The states that a session passes through: those between its moves, those in which it calls its consumer, and
whatever uses of a handle make of them. A program of uses changes a session by nothing but requests that are
accepted and by closes. -/
inductive Passes (c : Consumer σ) (s : Session) (k : σ) : Session → Prop
  | between (ms : List (Move σ)) : Passes c s k (moves c ms s k).1
  | calling {ms : List (Move σ)} {r : Readiness} {call : Call} {s' : Session} :
      (moves c ms s k).1.callback? r = some (.call call s') → Passes c s k s'
  | noticing {ms : List (Move σ)} {r : Readiness} {e : Ending} {s' : Session} :
      (moves c ms s k).1.callback? r = some (.notice e s') → Passes c s k s'
  | accepted {s' s'' : Session} {request : Request} :
      Passes c s k s' → s'.send request = .ok s'' → Passes c s k s''
  | close {s' : Session} (retry : Bool) : Passes c s k s' → Passes c s k (s'.close retry)

/-- A program that begins in a state of a session comes to nothing but states of the session. -/
theorem Passes.run {α : Type} (h : Passes c s k s') (p : Handle α) : Passes c s k (p.run s').2 := by
  induction p generalizing s' with
  | done result => exact h
  | send request next ih =>
      rw [Handle.run]
      split
      · exact ih _ (h.accepted ‹_›)
      · exact ih _ h
  | close retry next ih => exact ih (h.close retry)
  | phase next ih => exact ih _ h
  | catalog next ih => exact ih _ h

/-- What holds between moves, and is kept up when the consumer is called and by uses of a handle, holds of all
states. -/
theorem Passes.preserves {P : Session → Prop} (h : Passes c s k s') (hmoves : ∀ ms, P (moves c ms s k).1)
    (hcalling : ∀ {s : Session} {call : Call} {frame : Bytes} (room : Nat), P s → s.ending = none →
      callFor s.catalog frame = .ok call → P (s.calling room frame call))
    (hnoticing : ∀ {s : Session} {e : Ending}, P s → s.ending = some e → P (s.noticing e))
    (hused : ∀ {s : Session} {es : List Event}, P s → (∀ e ∈ es, s.Allows e) → P (s.used es)) : P s' := by
  induction h with
  | between ms => exact hmoves ms
  | calling hcallback =>
      obtain ⟨he, frame, -, hcall, rfl⟩ := callback?_eq_call hcallback
      exact hcalling _ (hmoves _) he hcall
  | noticing hcallback =>
      obtain ⟨he, -, rfl⟩ := callback?_eq_notice hcallback
      exact hnoticing (hmoves _) he
  | accepted _ hsend ih =>
      obtain ⟨frame, rfl, hallowed⟩ := send_used hsend
      exact hused ih fun e he => by rwa [List.mem_singleton.mp he]
  | close retry _ ih =>
      rw [close_used]
      exact hused ih fun e he => by rw [List.mem_singleton.mp he]; trivial

theorem Passes.lived (c : Consumer σ) (t : Target) (ms : List (Move σ)) (k : σ) :
    Passes c (start t) k (lived c t ms k) := .between ms

theorem Passes.coherent (h : Passes c s k s') (hs : s.Coherent) : s'.Coherent :=
  h.preserves hs.moves (fun room h he hf => (h.accepting room he hf isPlain_of_mem_reportsOf).note rfl)
    (fun h _ => (h.note rfl).note rfl) fun h _ => h.used

end Session

end StateHistory
