import StateHistory.Proofs.Session.History

/-! # The notification of the end

The consumer is told of the end once, when the session closes, and is told nothing after that; nor is it
told anything after somebody has asked for a close (`Session.Orderly`). Which end it is told of is settled
by one occurrence, the last of the history (`account_last`). -/

namespace StateHistory

/-- Whether nothing more is said to the consumer after an event. -/
def Event.Silences (e : Event) : Prop := e.closeRequest? ≠ none ∨ e.notification? ≠ none

/-- Whether an event says nothing to the consumer. -/
def Event.IsQuiet (e : Event) : Prop := e.call? = none ∧ e.notification? = none

theorem Event.isQuiet_of_isPlain {e : Event} (h : e.isPlain) : e.IsQuiet :=
  ⟨call?_of_isPlain h, notification?_of_isPlain h⟩

theorem Event.not_silences_of_isPlain {e : Event} (h : e.isPlain) : ¬ e.Silences := by
  rw [Silences, closeRequest?_of_isPlain h, notification?_of_isPlain h]
  simp

/-- Whether an occurrence is a failure of the transport. -/
def Occurrence.IsFault : Occurrence → Prop
  | .opening _ (.error _) => True
  | .writing (.error _) => True
  | .incoming .closing => True
  | .incoming (.failed _) => True
  | .incoming .over => True
  | _ => False

namespace Session

variable {σ : Type} {c : Consumer σ} {s : Session} {k : σ}

/-- A trace in which the consumer is told nothing after an event that silences it. -/
def Silenced (trace : List Event) : Prop := trace.Pairwise fun a b => a.Silences → b.call? = none

/-- What holds of the notifications of a session at every moment of its life. -/
structure Orderly (s : Session) : Prop where
  notifications_eq : s.notifications =
    if s.phase = .closed then (s.ending.map Ending.retry).toList else []
  silenced : Silenced s.trace

theorem silenced_append {trace es : List Event} (h : Silenced trace) (hes : ∀ e ∈ es, e.call? = none) :
    Silenced (trace ++ es) := by
  refine List.pairwise_append.mpr ⟨h, ?_, fun a _ b hb _ => hes b hb⟩
  exact List.pairwise_of_forall_mem_list fun a _ b hb _ => hes b hb

theorem silenced_call {trace : List Event} (h : ∀ e ∈ trace, ¬ e.Silences) (call : Call) :
    Silenced (trace ++ [.called call]) := by
  refine List.pairwise_append.mpr ⟨?_, List.pairwise_singleton _ _, fun a ha _ _ hs => absurd hs (h a ha)⟩
  exact List.pairwise_of_forall_mem_list fun a ha _ _ hs => absurd hs (h a ha)

theorem start_orderly (t : Target) : (start t).Orderly where
  notifications_eq := rfl
  silenced := List.pairwise_singleton _ _

theorem Orderly.notifications_eq_nil (h : s.Orderly) (hp : s.phase ≠ .closed) : s.notifications = [] := by
  rw [h.notifications_eq, if_neg hp]

/-- A session that is not closed stays orderly when quiet events are added. -/
theorem Orderly.extend {s' : Session} (h : s.Orderly) (es : List Event) (hp : s.phase ≠ .closed)
    (hp' : s'.phase ≠ .closed) (ht : s'.trace = s.trace ++ es) (hes : ∀ e ∈ es, e.IsQuiet) :
    s'.Orderly where
  notifications_eq := by
    have hn : es.filterMap Event.notification? = [] :=
      List.filterMap_eq_nil_iff.mpr fun e he => (hes e he).2
    rw [if_neg hp', notifications, seen, ht, List.filterMap_append, hn, List.append_nil]
    exact h.notifications_eq_nil hp
  silenced := by
    rw [ht]
    exact silenced_append h.silenced fun e he => (hes e he).1

theorem Orderly.note (h : s.Orderly) (hp : s.phase ≠ .closed) {e : Event} (he : e.IsQuiet) :
    (s.note e).Orderly :=
  h.extend [e] hp hp rfl fun x hx => by rwa [List.mem_singleton.mp hx]

theorem Orderly.meet (h : s.Orderly) (hp : s.phase ≠ .closed) (e : Ending) : (s.meet e).Orderly := by
  refine h.extend s.loss hp (by rwa [meet_eq]) (by rw [meet_eq]) ?_
  intro x hx
  exact Event.isQuiet_of_isPlain (isPlain_of_mem_loss x hx)

theorem Orderly.hand (h : s.Orderly) (room : Nat) : (s.hand room).Orderly :=
  ⟨h.notifications_eq, h.silenced⟩

theorem Orderly.used {es : List Event} (h : s.Orderly) (hes : ∀ e ∈ es, s.Allows e) :
    (s.used es).Orderly where
  notifications_eq := by
    rw [notifications, seen_used_unseen _ (fun _ _ => rfl) (fun _ => rfl) hes]
    exact h.notifications_eq
  silenced := by
    refine silenced_append h.silenced fun e he => ?_
    have hallowed := hes e he
    cases e <;> first | rfl | cases hallowed

theorem Orderly.answered (h : s.Orderly) (hp : s.phase ≠ .closed) (call : Call)
    (outcome : Except Failure Flow) : (s.answered call outcome).Orderly := by
  have hnote : (s.note (.answered outcome)).Orderly := h.note hp ⟨rfl, rfl⟩
  unfold Session.answered
  split
  · exact hnote
  · exact hnote.meet hp _

theorem Orderly.turned {o : Option Occurrence} {p : Session × σ} (h : s.Orderly) (hs : s.Coherent)
    (hturn : Turned c s k o p) : p.1.Orderly := by
  have hcl := hs.not_closed
  cases hturn with
  | idle => exact h
  | begun hp he =>
      refine h.extend [.entered s.phase .resolving] (hcl he) (by simp [enter]) rfl ?_
      simp [Event.IsQuiet, Event.call?, Event.notification?]
  | dropped frame rest he hp hq =>
      have hrest : { s with queue := rest }.Orderly := ⟨h.notifications_eq, h.silenced⟩
      exact hrest.note (hcl he) ⟨rfl, rfl⟩
  | closed retry rest he hq =>
      have hrest : { s with queue := rest }.Orderly := ⟨h.notifications_eq, h.silenced⟩
      exact hrest.meet (hcl he) _
  | advanced step reports he hp hq hr =>
      exact h.extend reports (hcl he) (afterStep_of_openingStep? hp).2.2 rfl
        fun e hmem => Event.isQuiet_of_isPlain (hr e hmem)
  | openingFailed step text he hp hq => exact h.meet (hcl he) _
  | taken frame rest he hp hq => exact ⟨h.notifications_eq, h.silenced⟩
  | handed room he hp hq => exact h.hand room
  | flushed room he hp hq ho => exact ⟨h.notifications_eq, h.silenced⟩
  | writeFailed room text he hp hq => exact (h.hand room).meet (hcl he) _
  | ignored room he hp hq => exact h.hand room
  | broken room i e he hp hq hi => exact (h.hand room).meet (hcl he) _
  | refused room frame error report he hp hq hf hr =>
      exact ((h.hand room).note (hcl he) (Event.isQuiet_of_isPlain hr)).meet (hcl he) _
  | told room frame call reports outcome k' s' he hp hq hf hr hrun =>
      obtain ⟨uses, huses, rfl⟩ := Handle.used_of_run hrun
      have hcloses : s.closeRequests = [] := hs.closeRequests_eq_nil he (by simp [hq])
      have hloud : ∀ e ∈ s.trace ++ reports, ¬ e.Silences := by
        intro e hmem
        rcases List.mem_append.mp hmem with hmem | hmem
        · have hn := h.notifications_eq_nil (hcl he)
          have h1 := List.filterMap_eq_nil_iff.mp hcloses e hmem
          have h2 := List.filterMap_eq_nil_iff.mp hn e hmem
          rw [Event.Silences, h1, h2]
          simp
        · exact Event.not_silences_of_isPlain (hr e hmem)
      have hcalled : (((s.hand room).accepting frame reports).note (.called call)).Orderly := by
        constructor
        case silenced => exact silenced_call hloud call
        case notifications_eq =>
          have hn := h.notifications_eq_nil (hcl he)
          have hstream : (((s.hand room).accepting frame reports).note (.called call)).phase ≠ .closed := by
            simp [accepting, Session.note]
          rw [if_neg hstream, notifications, seen_note, seen_accepting Event.notification?_of_isPlain hr]
          exact (List.append_nil _).trans hn
      exact (hcalled.used huses).answered (by simp [Session.used, Session.note, accepting]) call outcome
  | finished e uses reports hp he hu hr =>
      have huses : ∀ x ∈ uses, x.IsQuiet := by
        intro x hx
        obtain ⟨retry, rfl⟩ := hu x hx
        exact ⟨rfl, rfl⟩
      have hquiet : ∀ x ∈ uses ++ reports, x.IsQuiet := by
        intro x hx
        rcases List.mem_append.mp hx with hx | hx
        · exact huses x hx
        · exact Event.isQuiet_of_isPlain (hr x hx)
      constructor
      case notifications_eq =>
        have hn : (uses ++ reports).filterMap Event.notification? = [] :=
          List.filterMap_eq_nil_iff.mpr fun x hx => (hquiet x hx).2
        rw [notifications, seen]
        simp only [closedWith, List.filterMap_append, List.cons_append, List.filterMap_cons, he] at hn ⊢
        rw [show s.trace.filterMap Event.notification? = [] from h.notifications_eq_nil hp]
        simpa [Event.notification?] using hn
      case silenced =>
        refine silenced_append h.silenced ?_
        intro x hx
        rcases List.mem_cons.mp hx with rfl | hx
        · rfl
        · rcases List.mem_cons.mp hx with rfl | hx
          · rfl
          · exact (hquiet x hx).1

/-- Whatever moves are made, a session stays orderly. -/
theorem Orderly.moves (h : s.Orderly) (hs : s.Coherent) (ms : List (Move σ)) :
    (moves c ms s k).1.Orderly :=
  hs.preserves Orderly.turned Orderly.used h ms

/-! ### The occurrence that counts -/

theorem retry_of_ending? {o : Occurrence} {e : Ending} (h : o.ending? = some e) :
    e.retry = true ↔ o.IsFault ∨ o = .command (.close true) := by
  match o with
  | .command (.send _) => cases h
  | .command (.close retry) => cases h; simp [Ending.retry, Occurrence.IsFault]
  | .opening _ (.error _) => cases h; simp [Ending.retry, Occurrence.IsFault]
  | .opening _ (.ok ()) => cases h
  | .writing (.error _) => cases h; simp [Ending.retry, Occurrence.IsFault]
  | .writing (.ok ()) => cases h
  | .incoming (.data _) => cases h
  | .incoming .control => cases h
  | .incoming .closing => cases h; simp [Ending.retry, Occurrence.IsFault]
  | .incoming (.failed _) => cases h; simp [Ending.retry, Occurrence.IsFault]
  | .incoming .over => cases h; simp [Ending.retry, Occurrence.IsFault]

/-- A consumer that fails or stops is not tried again, and neither is a frame that cannot be read. -/
theorem retry_ending? {call : Call} {answer : Except Failure Flow} {e : Ending}
    (h : call.ending? answer = some e) : e.retry = false := by
  rcases answer with failure | ⟨⟨⟩ | ⟨⟩⟩ <;> simp [Call.ending?] at h <;> subst h <;> rfl

/-- An account that reads a whole history and ends owes its end to the last occurrence. -/
theorem account_last {os : List Occurrence} {catalog : Option Schema.Catalog}
    {answers : List (Except Failure Flow)} {e : Ending}
    (he : (account catalog os answers).ending = some e) (hu : (account catalog os answers).unread = []) :
    ∃ before last, os = before ++ [last] ∧ (account catalog before answers).ending = none ∧
      (e.retry = true ↔ last.IsFault ∨ last = .command (.close true)) := by
  induction os generalizing catalog answers with
  | nil => cases catalog <;> cases he
  | cons o os ih =>
      have hnil : (account catalog [] answers).ending = none := by cases catalog <;> rfl
      by_cases hdata : ∃ frame, o = .incoming (.data frame)
      · obtain ⟨frame, rfl⟩ := hdata
        have hfalse : ∀ {e : Ending}, e.retry = false → (e.retry = true ↔
            (Occurrence.incoming (.data frame)).IsFault ∨
              Occurrence.incoming (.data frame) = .command (.close true)) := by
          intro e h
          simp [h, Occurrence.IsFault]
        cases hf : callFor catalog frame with
        | error error =>
            rw [account_refused hf] at he hu
            cases he
            obtain rfl : os = [] := hu
            exact ⟨[], _, rfl, hnil, hfalse rfl⟩
        | ok call =>
            match answers with
            | [] =>
                rw [account, hf] at he
                cases he
            | answer :: answers =>
                rw [account_told hf] at he hu
                cases hend : call.ending? answer with
                | some e' =>
                    rw [hend] at he hu
                    obtain rfl : os = [] := hu
                    obtain rfl : e' = e := Option.some.inj he
                    exact ⟨[], _, rfl, hnil, hfalse (retry_ending? hend)⟩
                | none =>
                    rw [hend] at he hu
                    obtain ⟨before, last, rfl, hbefore, hretry⟩ := ih he hu
                    refine ⟨_ :: before, last, rfl, ?_, hretry⟩
                    rw [account_told hf, hend]
                    exact hbefore
      · have hne : ∀ frame, o ≠ .incoming (.data frame) := fun frame ho => hdata ⟨frame, ho⟩
        rw [account_cons hne] at he hu
        cases hend : o.ending? with
        | some e' =>
            rw [hend] at he hu
            obtain rfl : os = [] := hu
            obtain rfl : e' = e := Option.some.inj he
            exact ⟨[], o, rfl, hnil, retry_of_ending? hend⟩
        | none =>
            rw [hend] at he hu
            obtain ⟨before, last, rfl, hbefore, hretry⟩ := ih he hu
            refine ⟨o :: before, last, rfl, ?_, hretry⟩
            rw [account_cons hne, hend]
            exact hbefore

end Session

end StateHistory
