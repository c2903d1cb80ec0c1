import StateHistory.Proofs.Session.Delivery
import StateHistory.Proofs.Session.Notification

/-! # Requests that are refused

A request is accepted exactly if the session is open, has not met its end and, once it has a schema, finds the
request among those of the schema (`exists_send_iff`). A request that is refused leaves nothing behind: a run in
which some such requests are not made comes to the same session (`Omits`, `moves_of_omits`). -/

namespace StateHistory

/-! ### Leaving refused requests out -/

/-- A program does on a session what another one does, without some of its requests that are refused there. -/
inductive Handle.Omits {α : Type} : Session → Handle α → Handle α → Prop
  | done {s : Session} {result : α} : Omits s (.done result) (.done result)
  | refused {s : Session} {request : Request} {e : SendError} {next : Except SendError Unit → Handle α}
      {h' : Handle α} : s.send request = .error e → Omits s (next (.error e)) h' → Omits s (.send request next) h'
  | kept {s : Session} {request : Request} {e : SendError} {next next' : Except SendError Unit → Handle α} :
      s.send request = .error e → Omits s (next (.error e)) (next' (.error e)) →
      Omits s (.send request next) (.send request next')
  | accepted {s s' : Session} {request : Request} {next next' : Except SendError Unit → Handle α} :
      s.send request = .ok s' → Omits s' (next (.ok ())) (next' (.ok ())) →
      Omits s (.send request next) (.send request next')
  | close {s : Session} {retry : Bool} {next next' : Handle α} : Omits (s.close retry) next next' →
      Omits s (.close retry next) (.close retry next')
  | phase {s : Session} {next next' : Phase → Handle α} : Omits s (next s.phase) (next' s.phase) →
      Omits s (.phase next) (.phase next')
  | catalog {s : Session} {next next' : Option Schema.Catalog → Handle α} :
      Omits s (next s.catalog) (next' s.catalog) → Omits s (.catalog next) (.catalog next')

theorem Handle.Omits.run_eq {α : Type} {s : Session} {h h' : Handle α} (ho : h.Omits s h') : h'.run s = h.run s := by
  induction ho with
  | done => rfl
  | refused hsend _ ih =>
      rw [ih, Handle.run, hsend]
  | kept hsend _ ih =>
      rw [Handle.run, Handle.run, hsend]
      exact ih
  | accepted hsend _ ih =>
      rw [Handle.run, Handle.run, hsend]
      exact ih
  | close _ ih => exact ih
  | phase _ ih => exact ih
  | catalog _ ih => exact ih

theorem Handle.Omits.refl {α : Type} (h : Handle α) (s : Session) : h.Omits s h := by
  induction h generalizing s with
  | done => exact .done
  | send request next ih =>
      cases hsend : s.send request with
      | error e => exact .kept hsend (ih _ s)
      | ok s' => exact .accepted hsend (ih _ s')
  | close retry next ih => exact .close (ih _)
  | phase next ih => exact .phase (ih _ s)
  | catalog next ih => exact .catalog (ih _ s)

/-- When a consumer is called, another one does the same without some of the requests that are refused. -/
def Consumer.OmitsIn {σ : Type} (c c' : Consumer σ) (k : σ) : Option Callback → Prop
  | none => True
  | some (.call call s) => (c.answer call k).Omits s (c'.answer call k)
  | some (.notice e s) => (c.onEnd e.retry k).Omits s (c'.onEnd e.retry k)

theorem Consumer.OmitsIn.refl {σ : Type} (c : Consumer σ) (k : σ) : (callback : Option Callback) →
    c.OmitsIn c k callback
  | none => trivial
  | some (.call _ _) => Handle.Omits.refl _ _
  | some (.notice _ _) => Handle.Omits.refl _ _

namespace Session

variable {σ : Type} {c c' : Consumer σ} {s s' : Session} {k : σ} {r : Readiness}

/-- In a second run the owner and the consumer do what they do in the first one, without some of their requests
that are refused in it. -/
inductive Omits (c c' : Consumer σ) : List (Move σ) → List (Move σ) → Session → σ → Prop
  | nil {s : Session} {k : σ} : Omits c c' [] [] s k
  | turn {ms ms' : List (Move σ)} {s : Session} {k : σ} (r : Readiness) : c.OmitsIn c' k (s.callback? r) →
      Omits c c' ms ms' (turn c r s k).1 (turn c r s k).2 → Omits c c' (.turn r :: ms) (.turn r :: ms') s k
  | use {ms ms' : List (Move σ)} {s : Session} {k : σ} (h h' : σ → Handle σ) : (h k).Omits s (h' k) →
      Omits c c' ms ms' (move c (.use h) s k).1 (move c (.use h) s k).2 →
      Omits c c' (.use h :: ms) (.use h' :: ms') s k
  /-- The owner makes nothing but requests that are refused. -/
  | refused {ms ms' : List (Move σ)} {s : Session} {k : σ} (h : σ → Handle σ) : (h k).Omits s (.done k) →
      Omits c c' ms ms' s k → Omits c c' (.use h :: ms) ms' s k

theorem Omits.refl (ms : List (Move σ)) : Omits c c ms ms s k := by
  induction ms generalizing s k with
  | nil => exact .nil
  | cons m ms ih =>
      match m with
      | .turn r => exact .turn r (.refl c k _) ih
      | .use h => exact .use h h (.refl _ _) ih

theorem turn_of_omits (hs : s.Coherent) (h : c.OmitsIn c' k (s.callback? r)) : turn c' r s k = turn c r s k := by
  refine turn_congr hs (fun call s' hcallback => ?_) fun e s' hcallback => ?_
  · rw [hcallback] at h
    exact Handle.Omits.run_eq h
  · rw [hcallback] at h
    exact Handle.Omits.run_eq h

theorem move_use_of_omits {h h' : σ → Handle σ} (ho : (h k).Omits s (h' k)) :
    move c' (.use h') s k = move c (.use h) s k := by
  rw [move, move, ho.run_eq]

/-- A run without some of the requests that are refused comes to the same session. -/
theorem moves_of_omits {ms ms' : List (Move σ)} (hs : s.Coherent) (h : Omits c c' ms ms' s k) :
    moves c' ms' s k = moves c ms s k := by
  induction h with
  | nil => rfl
  | turn r hcallback _ ih =>
      have hturn : move c' (.turn r) _ _ = move c (.turn r) _ _ := turn_of_omits hs hcallback
      rw [moves_cons, moves_cons, hturn]
      exact ih (hs.move (.turn r))
  | use h h' hprogram _ ih =>
      rw [moves_cons, moves_cons, move_use_of_omits (c := c) hprogram]
      exact ih (hs.move (.use h))
  | @refused _ _ s k h hprogram _ ih =>
      have hsame : move c (.use Handle.done) s k = move c (.use h) s k := move_use_of_omits hprogram
      rw [moves_cons, ← hsame]
      exact ih hs

/-! ### When a request is accepted -/

/-- The schema of a session lists a request, if the session has a schema yet. -/
def Admits (s : Session) (request : Request) : Prop :=
  ∀ catalog, s.catalog = some catalog → ∃ d types, Schema.Catalog.ofDocument d = .ok catalog ∧
    d.Offers Frame.requestVariant types ∧ request.typeName ∈ types

theorem Passes.grounded {t : Target} (h : Passes c (start t) k s) : s.Grounded :=
  h.preserves (fun ms => lived_grounded c t ms k)
    (fun _ h _ _ => h.catalogAfter _) (fun h _ => h) fun h _ => h

theorem exists_encodeRequest_iff_admits (hg : s.Grounded) {request : Request} :
    (∃ frame, Frame.encodeRequest s.catalog request = .ok frame) ↔ s.Admits request := by
  unfold Admits
  cases hcat : s.catalog with
  | none => exact ⟨fun _ => nofun, fun _ => ⟨_, rfl⟩⟩
  | some catalog =>
      obtain ⟨d, hd⟩ := hg catalog hcat
      rw [Frame.exists_encodeRequest_iff hd]
      constructor
      · rintro ⟨types, htypes, hmem⟩ _ ⟨⟩
        exact ⟨d, types, hd, htypes, hmem⟩
      · intro hadmits
        obtain ⟨d', types, hd', htypes, hmem⟩ := hadmits catalog rfl
        exact (Frame.exists_encodeRequest_iff hd).mp ((Frame.exists_encodeRequest_iff hd').mpr ⟨types, htypes, hmem⟩)

/-- A request is accepted where nothing is in its way. -/
theorem exists_send_iff (hs : s.Coherent) (hg : s.Grounded) {request : Request} :
    (∃ s', s.send request = .ok s') ↔ s.phase.takesRequests ∧ s.ending = none ∧ s.Admits request := by
  rw [← hs.isOpen_iff, ← exists_encodeRequest_iff_admits hg]
  constructor
  · rintro ⟨s', hsend⟩
    obtain ⟨frame, -, hp, hopen, hframe⟩ := send_used hsend
    exact ⟨hp, hopen, frame, hframe⟩
  · rintro ⟨hp, hopen, frame, hframe⟩
    rw [send, hp, hframe, hopen]
    exact ⟨_, rfl⟩

/-! ### The end -/

/-- A session that tells its consumer of the end has met it. -/
def Notifies (s : Session) : Prop := s.ending = none → s.notifications = []

theorem Passes.notifies {t : Target} (h : Passes c (start t) k s) : s.Notifies :=
  h.preserves
    (fun ms he => ((start_orderly t).moves (start_coherent t) ms).notifications_eq_nil
      ((lived_coherent c t ms k).not_closed he))
    (fun room h he _ _ => (seen_calling Event.notification?_of_isPlain room _ _).trans
      ((List.append_nil _).trans (h he)))
    (fun _ he hnone => by cases he.symm.trans hnone)
    fun h hes he => (seen_used_unseen _ (fun _ _ => rfl) (fun _ => rfl) hes).trans (h he)

theorem Passes.ending_eq {e : Ending} (h : Passes c s k s') (hs : s.Coherent) (he : s.ending = some e) :
    s'.ending = some e :=
  h.preserves (P := fun s' => s'.ending = some e) (ending_moves hs he)
    (fun _ he hnone _ => by cases he.symm.trans hnone) (fun he _ => he) fun he _ => he

/-- After the end every request is refused. -/
theorem Coherent.exists_refusal (hs : s.Coherent) (he : s.ending ≠ none) (request : Request) :
    ∃ e, s.send request = .error e := by
  cases hsend : s.send request with
  | error e => exact ⟨e, rfl⟩
  | ok s' =>
      obtain ⟨frame, -, -, hopen, -⟩ := send_used hsend
      exact absurd (hs.isOpen_iff.mp hopen) he

/-- A request is accepted exactly if it is made while the session awaits the schema or streams, before the end,
and if the schema lists it once there is one: between the moves of the session and inside of the calls of its
consumer. So none is accepted when the consumer is told of the end, or at any time after the end was met. Without
the requests that are refused, everything else in a run stays what it is. -/
theorem accepted_iff (c : Consumer σ) (t : Target) (k : σ) :
    (∀ s, Passes c (start t) k s → ∀ request, (∃ s', s.send request = .ok s') ↔
      s.phase.takesRequests ∧ s.ending = none ∧ s.Admits request) ∧
    (∀ s, Passes c (start t) k s → ∀ retry, .notified retry ∈ s.trace → ∀ request,
      ∃ e, s.send request = .error e) ∧
    (∀ ms k' s, (lived c t ms k).ending ≠ none → Passes c (lived c t ms k) k' s → ∀ request,
      ∃ e, s.send request = .error e) ∧
    ∀ c' ms ms', Omits c c' ms ms' (start t) k → moves c' ms' (start t) k = moves c ms (start t) k := by
  have hstart := start_coherent t
  refine ⟨fun s hs request => exists_send_iff (hs.coherent hstart) hs.grounded, ?_, ?_, ?_⟩
  · intro s hs retry hnotified
    refine (hs.coherent hstart).exists_refusal fun he => ?_
    have hnone := List.filterMap_eq_nil_iff.mp (hs.notifies he) _ hnotified
    cases hnone
  · intro ms k' s hend hs
    obtain ⟨e, he⟩ := Option.ne_none_iff_exists'.mp hend
    have hlived := lived_coherent c t ms k
    refine (hs.coherent hlived).exists_refusal ?_
    rw [hs.ending_eq hlived he]
    nofun
  · exact fun c' ms ms' h => moves_of_omits hstart h

/-- A session that streams accepts a request for the status and refuses an acknowledgement, which its schema does not
list. When the node has left, it refuses everything. A request at its very beginning, which is refused, changes
nothing. -/
theorem accepted_of_streaming :
    (lived listener somewhere streamingMoves ()).Admits .status ∧
      ¬ (lived listener somewhere streamingMoves ()).Admits (.acknowledge 1) ∧
      (∀ request, ∃ e, (lived listener somewhere leavingMoves ()).send request = .error e) ∧
      moves listener streamingMoves (start somewhere) () =
        moves listener (askStatus :: streamingMoves) (start somewhere) () := by
  obtain ⟨hphase, hopen, -, -, -, hstatus, hacknowledge⟩ := lived_streaming_leaving.1
  obtain ⟨haccepted, hnotified, -, homits⟩ := accepted_iff listener somewhere ()
  have hstreaming := haccepted _ (.lived _ _ streamingMoves _)
  refine ⟨?_, fun hadmits => ?_, ?_, ?_⟩
  · cases hsend : (lived listener somewhere streamingMoves ()).send .status with
    | error e =>
        rw [hsend] at hstatus
        cases hstatus
    | ok s' => exact ((hstreaming .status).mp ⟨s', hsend⟩).2.2
  · obtain ⟨s', hsend⟩ := (hstreaming (.acknowledge 1)).mpr ⟨by rw [hphase]; rfl, hopen, hadmits⟩
    rw [hsend] at hacknowledge
    cases hacknowledge
  · refine hnotified _ (.lived _ _ leavingMoves _) true ?_
    rw [lived_streaming_leaving.2.1]
    simp
  · exact homits listener _ _ (.refused _ (.refused rfl .done) (.refl _))

end Session

end StateHistory
