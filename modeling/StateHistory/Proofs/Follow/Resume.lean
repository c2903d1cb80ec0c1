import StateHistory.Follow.Follower
import StateHistory.Proofs.Configuration.Checked
import StateHistory.Proofs.Follow.Progress
import StateHistory.Proofs.Schema.Text
import StateHistory.Proofs.Session.History

/-! # Where a follower resumes

A follower asks for blocks when it is told the status of a node, and at no other time. Over all sessions of
a run, it asks for them from the height after the last block that it was told, or from where the node
still has blocks, and it names the blocks that it remembers (`resumes_exactly`). -/

namespace StateHistory

/-- The block of an event, with the last irreversible height of its report. -/
def Event.block? : Event → Option (BlockPosition × UInt32)
  | .called (.blocks report _) => report.block.map fun b => (b, report.lastIrreversible.number)
  | _ => none

/-- The blocks that the consumer was told in a list of events. -/
def recorded (events : List Event) : List (BlockPosition × UInt32) := events.filterMap Event.block?

theorem recorded_append (es es' : List Event) : recorded (es ++ es') = recorded es ++ recorded es' :=
  List.filterMap_append

/-- Whether an event has nothing to do with statuses, blocks and requests for blocks. -/
def Event.IsIdle (e : Event) : Prop :=
  (∀ status raw, e ≠ .called (.status status raw)) ∧ (∀ r frame, e ≠ .accepted (.blocks r) frame) ∧
    e.block? = none

theorem Event.isIdle_of_isPlain {e : Event} (h : e.isPlain) : e.IsIdle := by
  cases e <;> simp_all [isPlain, IsIdle, block?]

theorem recorded_of_isIdle {es : List Event} (h : ∀ e ∈ es, e.IsIdle) : recorded es = [] :=
  List.filterMap_eq_nil_iff.mpr fun e he => (h e he).2.2

namespace Follower

variable {p : Progress} {s : Session} {f : Follower}

/-! ### What is asked for -/

/-- The name of the type of a request for blocks. -/
def blocksRequest : String := "get_blocks_request_v0"

/-- What follows a status: the request for blocks, unless the node does not know such requests. -/
def Asks (p : Progress) (status : ChainStatus) (catalog : Option Schema.Catalog) (post : List Event) :
    Prop :=
  (∃ frame post', post = .accepted (.blocks (.streamFrom (status.resumeStart p.nextBlock) p.positions)) frame
      :: .answered (.ok .proceed) :: post') ∨
    ∃ c e, catalog = some c ∧ c.variantTag Frame.requestVariant blocksRequest = .error e

/-- A session asks for blocks after every status, and at no other time. Before it, the progress was `p`. -/
structure Resumes (p : Progress) (s : Session) : Prop where
  asked : ∀ pre post status raw, s.trace = pre ++ .called (.status status raw) :: post →
    Asks (p.after (recorded pre)) status s.catalog post
  unasked : ∀ pre post r frame, s.trace = pre ++ .accepted (.blocks r) frame :: post →
    ∃ pre' status raw, pre = pre' ++ [.called (.status status raw)]

/-- A follower in a session remembers what it was told, and resumes from there. -/
structure Follows (p : Progress) (s : Session) (f : Follower) : Prop extends Resumes p s where
  agrees : (p.after (recorded s.trace)).Agrees f.progress

theorem Asks.append {status : ChainStatus} {catalog : Option Schema.Catalog} {post : List Event}
    (h : Asks p status catalog post) (es : List Event) : Asks p status catalog (post ++ es) := by
  rcases h with ⟨frame, post', rfl⟩ | h
  · exact .inl ⟨frame, post' ++ es, rfl⟩
  · exact .inr h

/-- What is appended to the trace of a session has to be as that which is there. -/
theorem Follows.append {s' : Session} {f' : Follower} (h : Follows p s f) (es : List Event)
    (ht : s'.trace = s.trace ++ es) (hcat : s.catalog.isSome → s'.catalog = s.catalog)
    (hasked : ∀ pre post status raw, es = pre ++ .called (.status status raw) :: post →
      Asks (p.after (recorded (s.trace ++ pre))) status s'.catalog post)
    (hunasked : ∀ pre post r frame, es = pre ++ .accepted (.blocks r) frame :: post →
      ∃ pre' status raw, pre = pre' ++ [.called (.status status raw)])
    (hagrees : (p.after (recorded (s.trace ++ es))).Agrees f'.progress) : Follows p s' f' where
  asked := by
    intro pre post status raw htrace
    rw [ht] at htrace
    rcases split_of_append htrace with ⟨post', hs, rfl⟩ | ⟨pre', rfl, hes⟩
    · refine Asks.append ?_ es
      rcases h.asked pre post' status raw hs with hreq | ⟨c, e, hc, he⟩
      · exact .inl hreq
      · exact .inr ⟨c, e, by rw [hcat (by rw [hc]; rfl), hc], he⟩
    · exact hasked pre' post status raw hes
  unasked := by
    intro pre post r frame htrace
    rw [ht] at htrace
    rcases split_of_append htrace with ⟨post', hs, -⟩ | ⟨pre', rfl, hes⟩
    · exact h.unasked pre post' r frame hs
    · obtain ⟨pre'', status, raw, rfl⟩ := hunasked pre' post r frame hes
      exact ⟨s.trace ++ pre'', status, raw, (List.append_assoc ..).symm⟩
  agrees := by rw [ht]; exact hagrees

theorem Follows.remember {s' : Session} {f' : Follower} (h : Follows p s f) (es : List Event)
    (ht : s'.trace = s.trace ++ es) (hcat : s.catalog.isSome → s'.catalog = s.catalog)
    (hstatus : ∀ e ∈ es, ∀ status raw, e ≠ .called (.status status raw))
    (hrequest : ∀ e ∈ es, ∀ r frame, e ≠ .accepted (.blocks r) frame)
    (hagrees : (p.after (recorded (s.trace ++ es))).Agrees f'.progress) : Follows p s' f' := by
  refine h.append es ht hcat ?_ ?_ hagrees
  · rintro pre post status raw rfl
    exact absurd rfl (hstatus (.called (.status status raw)) (by simp) status raw)
  · rintro pre post r frame rfl
    exact absurd rfl (hrequest (.accepted (.blocks r) frame) (by simp) r frame)

theorem Follows.idle {s' : Session} (h : Follows p s f) (es : List Event)
    (ht : s'.trace = s.trace ++ es) (hes : ∀ e ∈ es, e.IsIdle)
    (hcat : s.catalog.isSome → s'.catalog = s.catalog) : Follows p s' f := by
  refine h.remember es ht hcat (fun e he => (hes e he).1) (fun e he => (hes e he).2.1) ?_
  rw [recorded_append, recorded_of_isIdle hes, List.append_nil]
  exact h.agrees

/-! ### The answers -/

theorem send_blocks {catalog : Schema.Catalog} (hp : s.phase.takesRequests) (ho : s.isOpen)
    (hcat : s.catalog = some catalog) (r : BlocksRequest) :
    (∃ frame, s.send (.blocks r) = .ok (s.used [.accepted (.blocks r) frame])) ∨
      ∃ e, s.send (.blocks r) = .error (.protocol e) ∧
        catalog.variantTag Frame.requestVariant blocksRequest = .error e := by
  have htag : Frame.encodeRequest (some catalog) (.blocks r) =
      (catalog.variantTag Frame.requestVariant blocksRequest).map (Request.encodeWithTag · (.blocks r)) := rfl
  rw [Session.send, hp, hcat, htag]
  cases catalog.variantTag Frame.requestVariant blocksRequest with
  | error e => exact .inr ⟨e, rfl, rfl⟩
  | ok tag =>
      refine .inl ⟨Request.encodeWithTag tag (.blocks r), ?_⟩
      simp [Except.map, ho, hcat, Session.used, Event.command?]

/-- After the schema, the follower asks for the status, if it can. -/
theorem run_schema (f : Follower) (s : Session) :
    ∃ es outcome, (consumer.answer .schema f).run s = ((outcome, f), s.used es) ∧ ∀ e ∈ es, e.IsIdle := by
  have hanswer : consumer.answer .schema f = .send .status fun answer =>
      .done ((requested () answer).map fun _ => .proceed, f) := rfl
  rw [hanswer, Handle.run]
  cases hs : s.send .status with
  | error e => exact ⟨[], _, by rw [Session.used_nil]; rfl, by simp⟩
  | ok s' =>
      obtain ⟨frame, rfl, -⟩ := Session.send_used hs
      exact ⟨_, _, rfl, by simp [Event.IsIdle, Event.block?]⟩

/-- After a status, the follower asks for the blocks that come next. -/
theorem run_status {catalog : Schema.Catalog} (f : Follower) (s : Session) (status : ChainStatus) (raw : Bytes)
    (hp : s.phase.takesRequests) (ho : s.isOpen) (hcat : s.catalog = some catalog) :
    (∃ frame f', (consumer.answer (.status status raw) f).run s = ((.ok .proceed, f'),
        s.used [.accepted (.blocks (.streamFrom (status.resumeStart f.progress.nextBlock)
          f.progress.positions)) frame]) ∧ f'.progress = f.progress) ∨
      ∃ e failure f', (consumer.answer (.status status raw) f).run s = ((.error failure, f'), s) ∧
        f'.progress = f.progress ∧ catalog.variantTag Frame.requestVariant blocksRequest = .error e := by
  have hanswer : consumer.answer (.status status raw) f =
      .send (.blocks (.streamFrom (status.resumeStart f.progress.nextBlock) f.progress.positions))
        fun answer => .done (requested .proceed answer, f.note (.nodeStatus status)) := rfl
  rw [hanswer, Handle.run]
  rcases send_blocks hp ho hcat (.streamFrom (status.resumeStart f.progress.nextBlock) f.progress.positions)
    with ⟨frame, hs⟩ | ⟨e, hs, htag⟩
  · rw [hs]
    exact .inl ⟨frame, _, rfl, rfl⟩
  · rw [hs]
    exact .inr ⟨e, _, _, rfl, rfl, htag⟩

/-- The follower after a block of a report, with the events of its changes. -/
def withDeltas (f : Follower) (catalog : Option Schema.Catalog) (report : BlockReport)
    (block : BlockPosition) : Follower :=
  match catalog, report.deltas with
  | some c, some deltas => (f.takeBlock report block).note (deltasEvent c deltas)
  | _, _ => f.takeBlock report block

theorem progress_withDeltas (f : Follower) (catalog : Option Schema.Catalog) (report : BlockReport)
    (block : BlockPosition) : (f.withDeltas catalog report block).progress =
      f.progress.record block report.lastIrreversible.number := by
  unfold withDeltas
  split <;> rfl

theorem run_blocks (f : Follower) (s : Session) (report : BlockReport) (raw : Bytes)
    (h : p.Agrees f.progress) :
    ∃ outcome f', (consumer.answer (.blocks report raw) f).run s = ((outcome, f'), s) ∧
      (p.after (recorded [.called (.blocks report raw)])).Agrees f'.progress := by
  rw [show consumer.answer (.blocks report raw) f = onBlocks report raw f from rfl, onBlocks]
  cases hblock : report.block with
  | none =>
      refine ⟨_, _, rfl, ?_⟩
      rw [recorded, List.filterMap_cons_none (by rw [Event.block?, hblock]; rfl)]
      exact h
  | some block =>
      have hrecorded : recorded [.called (.blocks report raw)] =
          [(block, report.lastIrreversible.number)] := by
        rw [recorded, List.filterMap_cons_some (by rw [Event.block?, hblock]; rfl)]
        rfl
      have hrecord := h.record block report.lastIrreversible.number
      rw [← progress_withDeltas f s.catalog] at hrecord
      rw [hrecorded]
      by_cases hreached : (f.withDeltas s.catalog report block).hasReached
      · refine ⟨.ok .stop, { f.withDeltas s.catalog report block with
          progress := { (f.withDeltas s.catalog report block).progress with finished := true } }, ?_,
          ⟨hrecord.nextBlock, hrecord.positions⟩⟩
        change Handle.run (if (f.withDeltas s.catalog report block).hasReached then _ else _) s = _
        rw [if_pos hreached]
        rfl
      · refine ⟨.ok .proceed, f.withDeltas s.catalog report block, ?_, hrecord⟩
        change Handle.run (if (f.withDeltas s.catalog report block).hasReached then _ else _) s = _
        rw [if_neg hreached]
        rfl

/-! ### Turns -/

theorem Asks.of_agrees {q : Progress} {status : ChainStatus} {catalog : Option Schema.Catalog}
    {post : List Event} (h : p.Agrees q) (ha : Asks q status catalog post) : Asks p status catalog post := by
  rw [Asks, ← h.nextBlock, ← h.positions]
  exact ha

/-- A status may be appended with at most one request for blocks, and with idle events after it. -/
theorem Follows.status {s' : Session} {f' : Follower} (h : Follows p s f) (status : ChainStatus) (raw : Bytes)
    (uses quiet : List Event)
    (ht : s'.trace = s.trace ++ .called (.status status raw) :: (uses ++ quiet))
    (huses : uses = [] ∨ ∃ r frame, uses = [.accepted (.blocks r) frame])
    (hquiet : ∀ e ∈ quiet, e.IsIdle) (hcat : s'.catalog = s.catalog)
    (hasks : Asks f.progress status s'.catalog (uses ++ quiet)) (hf : f'.progress = f.progress) :
    Follows p s' f' := by
  have hmem : ∀ e ∈ uses ++ quiet, e.IsIdle ∨ ∃ r frame, e = .accepted (.blocks r) frame := by
    intro e he
    rcases List.mem_append.mp he with he | he
    · rcases huses with rfl | ⟨r, frame, rfl⟩
      · cases he
      · exact .inr ⟨r, frame, List.mem_singleton.mp he⟩
    · exact .inl (hquiet e he)
  refine h.append _ ht (fun _ => hcat) ?_ ?_ ?_
  · intro pre post status' raw' hes
    match pre with
    | [] =>
        obtain ⟨hcall, rfl⟩ := List.cons.inj hes
        cases hcall
        rw [List.append_nil]
        exact hasks.of_agrees h.agrees
    | _ :: pre =>
        have hrest := (List.cons.inj hes).2
        rcases hmem (.called (.status status' raw')) (by simp [hrest]) with hidle | ⟨r, frame, hreq⟩
        · exact absurd rfl (hidle.1 status' raw')
        · cases hreq
  · intro pre post r frame hes
    match pre with
    | [] => cases (List.cons.inj hes).1
    | e :: pre =>
        obtain ⟨rfl, hrest⟩ := List.cons.inj hes
        have hquiet' : .accepted (.blocks r) frame ∉ quiet := fun hm =>
          (hquiet _ hm).2.1 r frame rfl
        rcases huses with rfl | ⟨r', frame', rfl⟩
        · exact absurd (by rw [List.nil_append] at hrest; simp [hrest]) hquiet'
        · match pre with
          | [] => exact ⟨[], status, raw, rfl⟩
          | e :: pre =>
              have htail : quiet = pre ++ .accepted (.blocks r) frame :: post := (List.cons.inj hrest).2
              exact absurd (by simp [htail]) hquiet'
  · have hrecorded : recorded (.called (.status status raw) :: (uses ++ quiet)) = [] := by
      rw [recorded, List.filterMap_eq_nil_iff]
      intro e he
      rcases List.mem_cons.mp he with rfl | he
      · rfl
      · rcases hmem e he with hidle | ⟨r, frame, rfl⟩
        · exact hidle.2.2
        · rfl
    rw [recorded_append, hrecorded, List.append_nil, hf]
    exact h.agrees

/-- Whatever a follower is told in a session that streams, it resumes as it should. -/
theorem Follows.told {s' : Session} {f' : Follower} {call : Call} {outcome : Except Failure Flow}
    (h : Follows p s f) (hp : s.phase = .streaming) (ho : s.isOpen) (hcat : s.catalog.isSome)
    (hrun : (consumer.answer call f).run (s.note (.called call)) = ((outcome, f'), s')) :
    Follows p (s'.answered call outcome) f' := by
  obtain ⟨catalog, hcat⟩ := Option.isSome_iff_exists.mp hcat
  obtain ⟨es, htrace, hes⟩ := Session.trace_answered s' call outcome
  have hquiet : ∀ e ∈ .answered outcome :: es, e.IsIdle := by
    intro e he
    rcases List.mem_cons.mp he with rfl | he
    · simp [Event.IsIdle, Event.block?]
    · exact Event.isIdle_of_isPlain (hes e he)
  cases call with
  | schema =>
      obtain ⟨uses, outcome', hrun', huses⟩ := run_schema f (s.note (.called .schema))
      obtain ⟨hresult, rfl⟩ := Prod.mk.inj (hrun.symm.trans hrun')
      obtain ⟨rfl, rfl⟩ := Prod.mk.inj hresult
      refine h.idle (.called .schema :: (uses ++ .answered outcome :: es)) ?_ ?_ ?_
      · rw [htrace]
        simp [Session.used, Session.note]
      · intro e he
        rcases List.mem_cons.mp he with rfl | he
        · simp [Event.IsIdle, Event.block?]
        · exact (List.mem_append.mp he).elim (huses e) (hquiet e)
      · intro _
        rw [Session.catalog_answered]
        rfl
  | status status raw =>
      have hp' : (s.note (.called (.status status raw))).phase.takesRequests := by
        rw [show (s.note _).phase = s.phase from rfl, hp]
        rfl
      rcases run_status f (s.note (.called (.status status raw))) status raw hp' ho hcat
        with ⟨frame, f₁, hrun', hf⟩ | ⟨e, failure, f₁, hrun', hf, htag⟩
      · obtain ⟨hresult, rfl⟩ := Prod.mk.inj (hrun.symm.trans hrun')
        obtain ⟨rfl, rfl⟩ := Prod.mk.inj hresult
        refine h.status status raw
          [.accepted (.blocks (.streamFrom (status.resumeStart f.progress.nextBlock) f.progress.positions)) frame]
          (.answered (.ok .proceed) :: es) ?_ (.inr ⟨_, frame, rfl⟩) hquiet ?_ ?_ hf
        · rw [htrace]
          simp [Session.used, Session.note]
        · rw [Session.catalog_answered]
          rfl
        · exact .inl ⟨frame, es, rfl⟩
      · obtain ⟨hresult, rfl⟩ := Prod.mk.inj (hrun.symm.trans hrun')
        obtain ⟨rfl, rfl⟩ := Prod.mk.inj hresult
        refine h.status status raw [] (.answered (.error failure) :: es) ?_ (.inl rfl) hquiet ?_ ?_ hf
        · rw [htrace]
          simp [Session.note]
        · rw [Session.catalog_answered]
          rfl
        · exact .inr ⟨catalog, e, by rw [Session.catalog_answered]; exact hcat, htag⟩
  | blocks report raw =>
      obtain ⟨outcome', f₁, hrun', hagrees⟩ := run_blocks f (s.note (.called (.blocks report raw))) report raw
        h.agrees
      obtain ⟨hresult, rfl⟩ := Prod.mk.inj (hrun.symm.trans hrun')
      obtain ⟨rfl, rfl⟩ := Prod.mk.inj hresult
      refine h.remember (.called (.blocks report raw) :: .answered outcome :: es) ?_ ?_ ?_ ?_ ?_
      · rw [htrace]
        simp [Session.note]
      · intro _
        rw [Session.catalog_answered]
        rfl
      · intro e he
        rcases List.mem_cons.mp he with rfl | he
        · intro status raw' hcall
          cases hcall
        · exact (hquiet e he).1
      · intro e he
        rcases List.mem_cons.mp he with rfl | he
        · intro r frame hrequest
          cases hrequest
        · exact (hquiet e he).2.1
      · have hrecorded : recorded (.called (.blocks report raw) :: .answered outcome :: es) =
            recorded [.called (.blocks report raw)] := by
          rw [← List.singleton_append, recorded_append, recorded_of_isIdle hquiet, List.append_nil]
        rw [recorded_append, hrecorded, Progress.after_append]
        exact hagrees

theorem Follows.meet (h : Follows p s f) (e : Ending) : Follows p (s.meet e) f := by
  refine h.idle s.loss (by rw [Session.meet_eq]) ?_ (fun _ => Session.catalog_meet s e)
  exact fun x hx => Event.isIdle_of_isPlain (Session.isPlain_of_mem_loss x hx)

theorem Follows.hand (h : Follows p s f) (room : Nat) : Follows p (s.hand room) f :=
  h.idle [] (List.append_nil _).symm (by simp) (fun _ => rfl)

theorem Follows.turned {k : Follower} {o : Option Occurrence} {r : Session × Follower}
    (h : Follows p s k) (hs : s.Coherent) (hturn : Session.Turned consumer s k o r) :
    Follows p r.1 r.2 := by
  have hplain : ∀ {es : List Event}, (∀ e ∈ es, e.isPlain) → ∀ e ∈ es, e.IsIdle := fun hes e he =>
    Event.isIdle_of_isPlain (hes e he)
  cases hturn with
  | idle => exact h
  | begun hp he =>
      exact h.idle [.entered s.phase .resolving] rfl (hplain (by simp [Event.isPlain])) (fun _ => rfl)
  | dropped frame rest he hp hq =>
      exact h.idle [.requestDropped] rfl (hplain (by simp [Event.isPlain])) (fun _ => rfl)
  | closed retry rest he hq =>
      have hrest : Follows p { s with queue := rest } k :=
        h.idle [] (List.append_nil _).symm (by simp) (fun _ => rfl)
      exact hrest.meet _
  | advanced step reports he hp hq hr => exact h.idle reports rfl (hplain hr) (fun _ => rfl)
  | openingFailed step text he hp hq => exact h.meet _
  | taken frame rest he hp hq =>
      exact h.idle [] (List.append_nil _).symm (by simp) (fun _ => rfl)
  | handed room he hp hq => exact h.hand room
  | flushed room he hp hq ho => exact h.idle [] (List.append_nil _).symm (by simp) (fun _ => rfl)
  | writeFailed room text he hp hq => exact (h.hand room).meet _
  | ignored room he hp hq => exact h.hand room
  | broken room i e he hp hq hi => exact (h.hand room).meet _
  | refused room frame error report he hp hq hf hr =>
      have hreport : Follows p ((s.hand room).note report) k :=
        h.idle [report] rfl (hplain (by simpa using hr)) (fun _ => rfl)
      exact hreport.meet _
  | told room frame call reports outcome k' s' he hp hq hf hr hrun =>
      have haccepted : Follows p ((s.hand room).accepting frame reports) k := by
        refine h.idle reports rfl (hplain hr) fun hsome => ?_
        obtain ⟨catalog, hcat⟩ := Option.isSome_iff_exists.mp hsome
        simp [Session.accepting, Session.hand, Session.catalogAfter, hcat]
      have hopen : s.isOpen := hs.isOpen_iff.mpr he
      exact haccepted.told rfl hopen (Session.isSome_catalogAfter hf) hrun
  | finished e uses reports hp he hu hr =>
      have huses : ∀ x ∈ uses, x.IsIdle := by
        intro x hx
        obtain ⟨retry, rfl⟩ := hu x hx
        simp [Event.IsIdle, Event.block?]
      refine h.idle (.ended e :: .notified e.retry :: (uses ++ reports)) ?_ ?_ (fun _ => rfl)
      · simp [Session.closedWith]
      · intro x hx
        rcases List.mem_cons.mp hx with rfl | hx
        · exact Event.isIdle_of_isPlain rfl
        · rcases List.mem_cons.mp hx with rfl | hx
          · simp [Event.IsIdle, Event.block?]
          · exact (List.mem_append.mp hx).elim (huses x) (hplain hr x)

/-! ### Sessions -/

theorem Follows.turn (h : Follows p s f) (hs : s.Coherent) (r : Readiness) :
    Follows p (Session.turn consumer r s f).1 (Session.turn consumer r s f).2 :=
  h.turned hs (Session.turn_turned hs)

theorem Follows.moves (h : Follows p s f) (hs : s.Coherent) (rs : List Readiness) :
    Follows p (Session.moves consumer (rs.map .turn) s f).1
      (Session.moves consumer (rs.map .turn) s f).2 := by
  induction rs generalizing s f with
  | nil => exact h
  | cons r rs ih => exact ih (h.turn hs r) (hs.move (.turn r))

theorem Follows.turns (h : Follows p s f) (hs : s.Coherent) (count : Nat) :
    Follows p (Session.turns consumer count s f).1 (Session.turns consumer count s f).2 := by
  induction count generalizing s f with
  | zero => exact h
  | succ count ih =>
      exact ih (h.turn hs (.writable s.outbound.length)) (hs.move (.turn (.writable s.outbound.length)))

theorem Follows.close (h : Follows p s f) (retry : Bool) : Follows p (s.close retry) f := by
  rw [Session.close_used]
  exact h.idle [.closeRequested retry] rfl (by simp [Event.IsIdle, Event.block?]) (fun _ => rfl)

theorem follows_start (h : p.Agrees f.progress) (t : Target) : Follows p (Session.start t) f where
  asked := by
    intro pre post status raw htrace
    cases Session.eq_began_of_start htrace
  unasked := by
    intro pre post r frame htrace
    cases Session.eq_began_of_start htrace
  agrees := h

theorem follows_visit {rs : List Readiness} {f' : Follower} (h : p.Agrees f.progress)
    (hv : f.visit rs = .ok (s, f')) : Follows p s f' ∧ s.Coherent := by
  cases ht : Target.ofEndpoint f.options.node with
  | error e => rw [visit, Session.connect, ht] at hv; cases hv
  | ok t =>
      rw [visit, Session.connect, ht] at hv
      obtain ⟨rfl, rfl⟩ := Prod.mk.inj (Except.ok.inj hv)
      have hs := Session.start_coherent t
      exact ⟨(follows_start h t).moves hs rs, hs.moves (rs.map .turn)⟩

/-! ### Runs -/

theorem progress_afterSession (f : Follower) (before : Nat) (retry : Bool) (jitter : Binary64) :
    (f.afterSession before retry jitter).2.progress = f.progress := by
  unfold afterSession
  split
  · rfl
  · split <;> rfl

/-- In every session of a run, a follower resumes after the blocks of the sessions before it. -/
theorem run_resumes (h : p.Agrees f.progress) (visits : List Visit) {before after : List Session}
    (hrun : (f.run visits).2.1 = before ++ s :: after) :
    Resumes (p.after (recorded (before.flatMap (·.trace)))) s := by
  induction visits generalizing p f before with
  | nil => cases before <;> cases hrun
  | cons v vs ih =>
      have hsingle : ∀ {s₁ : Session}, Resumes p s₁ → [s₁] = before ++ s :: after →
          Resumes (p.after (recorded (before.flatMap (·.trace)))) s := by
        intro s₁ hs₁ hsplit
        match before with
        | [] =>
            obtain ⟨rfl, -⟩ := List.cons.inj hsplit
            exact hs₁
        | _ :: before => cases before <;> cases (List.cons.inj hsplit).2
      rw [run] at hrun
      cases hv : f.visit v.turns with
      | error e =>
          rw [hv] at hrun
          cases before <;> cases hrun
      | ok result =>
          obtain ⟨s₁, f₁⟩ := result
          obtain ⟨hfollows, hs₁⟩ := follows_visit h hv
          rw [hv] at hrun
          dsimp only at hrun
          split at hrun
          · rename_i e _ _
            have hprogress := progress_afterSession f₁ f.progress.received e.retry v.jitter
            split at hrun
            · exact hsingle hfollows.toResumes hrun
            · exact hsingle hfollows.toResumes hrun
            · rename_i f₂ hafter
              rw [hafter] at hprogress
              match before with
              | [] =>
                  obtain ⟨rfl, -⟩ := List.cons.inj hrun
                  exact hfollows.toResumes
              | _ :: before =>
                  obtain ⟨rfl, hrest⟩ := List.cons.inj hrun
                  have hagrees : (p.after (recorded s₁.trace)).Agrees f₂.progress := by
                    rw [show f₂.progress = f₁.progress from hprogress]
                    exact hfollows.agrees
                  have hresumes := ih hagrees hrest
                  rw [← Progress.after_append, ← recorded_append] at hresumes
                  exact hresumes
          · have hclosed : (s₁.close false).Coherent := by
              rw [Session.close_used]
              exact hs₁.used
            exact hsingle ((hfollows.close false).turns hclosed _).toResumes hrun

/-- What a follower asks for when it is told the status of a node, after the blocks that it was told
before, if it was to begin at `first`. -/
structure ResumeRequest (first : UInt32) (blocks : List (BlockPosition × UInt32)) (status : ChainStatus)
    (next : UInt32) (held : List BlockPosition) : Prop where
  /-- The height after the last block comes next. -/
  next_eq : next = match blocks.getLast? with
    | some b => Progress.successor b.1.number
    | none => first
  held_eq : held = ((Progress.start first).after blocks).positions
  ascending : Progress.Ascending held
  length_le : held.length ≤ 1024
  mem_blocks : ∀ q ∈ held, q ∈ blocks.map Prod.fst
  /-- The blocks that are named lie below those that are asked for. -/
  below : (∀ b ∈ blocks, b.1.number ≠ 0xffffffff) → ∀ q ∈ held, q.number < max next status.availableStart
  /-- Nothing that the node has is skipped. -/
  complete : ∀ r, r = status.traces ∨ r = status.chainState → r.first < r.past →
    ∀ n, next ≤ n → n < max next status.availableStart → ¬ (r.first ≤ n ∧ n < r.past)

theorem resumeRequest_after (first : UInt32) (blocks : List (BlockPosition × UInt32))
    (status : ChainStatus) : ResumeRequest first blocks status ((Progress.start first).after blocks).nextBlock
      ((Progress.start first).after blocks).positions := by
  have hsound := (Progress.start_sound first).after blocks
  rw [List.nil_append] at hsound
  constructor
  case next_eq => exact Progress.nextBlock_after _ _
  case held_eq => rfl
  case ascending => exact hsound.ascending
  case length_le => exact hsound.length_le
  case mem_blocks => exact hsound.mem_seen
  case below =>
    intro hmax q hq
    obtain ⟨b, hb, rfl⟩ := List.mem_map.mp (hsound.mem_seen q hq)
    have hlt := (hsound.below b.1 hq).resolve_right (hmax b hb)
    exact UInt32.lt_of_lt_of_le hlt (le_resumeStart status _)
  case complete => exact fun r hr _ n hnext hn => not_available_of_lt_resumeStart hr hnext hn

/-- In every session of a run, a follower that is told the status of a node makes exactly one request for
blocks at once, if the node knows such requests: from the height that comes next, or from where the node
still has blocks, with the blocks that it remembers of all sessions. It makes no other requests for
blocks. -/
theorem resumes_exactly (o : Options) (visits : List Visit) :
    (∀ before s after pre post status raw, ((start o).run visits).2.1 = before ++ s :: after →
      s.trace = pre ++ .called (.status status raw) :: post →
      (∀ catalog, s.catalog = some catalog →
        ∃ tag, catalog.variantTag Frame.requestVariant "get_blocks_request_v0" = .ok tag) →
      ∃ next held frame post',
        post = .accepted (.blocks (.streamFrom (max next status.availableStart) held)) frame
          :: .answered (.ok .proceed) :: post' ∧
        ResumeRequest o.stream.startBlock (recorded (before.flatMap (·.trace) ++ pre)) status next held) ∧
    ∀ s ∈ ((start o).run visits).2.1, ∀ pre post r frame,
      s.trace = pre ++ .accepted (.blocks r) frame :: post →
        ∃ pre' status raw, pre = pre' ++ [.called (.status status raw)] := by
  have hagrees : (Progress.start o.stream.startBlock).Agrees (start o).progress := ⟨rfl, rfl⟩
  refine ⟨?_, ?_⟩
  · intro before s after pre post status raw hrun htrace hknown
    have hresumes := run_resumes hagrees visits hrun
    rcases hresumes.asked pre post status raw htrace with ⟨frame, post', hpost⟩ | ⟨catalog, e, hcat, he⟩
    · rw [← Progress.after_append, ← recorded_append] at hpost
      exact ⟨_, _, frame, post', hpost, resumeRequest_after _ _ status⟩
    · obtain ⟨tag, htag⟩ := hknown catalog hcat
      cases htag.symm.trans he
  · intro s hs pre post r frame htrace
    obtain ⟨before, after, hrun⟩ := List.append_of_mem hs
    exact (run_resumes hagrees visits hrun).unasked pre post r frame htrace

/-! ### A run of two sessions -/

theorem run_again {f' : Follower} {v : Visit} {s : Session} {e : Ending} (hvisit : f.visit v.turns = .ok (s, f'))
    (hp : s.phase = .closed) (he : s.ending = some e) (hretry : e.retry = true) (hf : f'.progress.finished = false)
    (vs : List Visit) :
    (f.run (v :: vs)).2.1 = s :: ((f'.afterSession f.progress.received true v.jitter).2.run vs).2.1 := by
  rw [run, hvisit]
  dsimp only
  rw [hp, he]
  dsimp only
  rw [hretry, afterSession, if_neg (by rw [hf]; exact Bool.false_ne_true)]
  rfl

theorem run_left {f' : Follower} {v : Visit} {s : Session} (hvisit : f.visit v.turns = .ok (s, f'))
    (hp : s.phase ≠ .closed) (vs : List Visit) :
    (f.run (v :: vs)).2.1 = [(Session.settle consumer (s.close false) f').1] := by
  rw [run, hvisit]
  dsimp only
  split
  · contradiction
  · rfl

/-- A schema of a node that tells its status and serves blocks. -/
def servingSchema : String :=
  "[\"eosio::abi/1.1\",[],[[\"get_status_request_v0\"],[\"get_blocks_request_v0\"],"
    ++ "[\"get_status_result_v0\"],[\"get_blocks_result_v0\"]],"
    ++ "[[\"request\",[\"get_status_request_v0\",\"get_blocks_request_v0\"]],"
    ++ "[\"result\",[\"get_status_result_v0\",\"get_blocks_result_v0\"]]]]"

/-- The document of it. -/
def servingDocument : Schema.Document where
  version := "eosio::abi/1.1"
  aliases := []
  structs := ["get_status_request_v0", "get_blocks_request_v0", "get_status_result_v0", "get_blocks_result_v0"].map
    (⟨·, "", []⟩)
  variants := [⟨"request", ["get_status_request_v0", "get_blocks_request_v0"]⟩,
    ⟨"result", ["get_status_result_v0", "get_blocks_result_v0"]⟩]
  tables := []

/-- A report of the block of a height. -/
def reportAt (height : UInt32) : BlockReport :=
  ⟨⟨height, .fill 32 1⟩, ⟨0, .fill 32 0⟩, some ⟨height, .fill 32 1⟩, none, none, none, none⟩

/-- A session that opens and receives the schema. -/
def servedTurns (more : List Readiness) : List Readiness :=
  .nothing :: List.replicate 3 (.opened (.ok ())) ++ .received (.data (Bytes.ofText servingSchema)) :: more

/-- Such a session, about to tell of the schema. -/
def served : Session :=
  { Session.start Session.somewhere with
    phase := .streaming
    catalog := (Frame.catalogOf servingDocument).toOption.map (·.1)
    trace := Session.openingTrace ++ [.schemaAccepted "eosio::abi/1.1" 37, .entered .awaitingSchema .streaming] }

/-- What it comes to with a follower. -/
def servedTo (f : Follower) (more : List Readiness) : Session × Follower :=
  Session.moves consumer (more.map .turn) (Session.tell consumer .schema served f).1
    (Session.tell consumer .schema served f).2

theorem visit_served (hf : f.options.node = Session.somewhere.endpoint) (more : List Readiness) :
    f.visit (servedTurns more) = .ok (f.servedTo more) := by
  have htarget : Target.ofEndpoint Session.somewhere.endpoint = .ok Session.somewhere := by decide +kernel
  have hdocument : Schema.Document.parse servingSchema = .ok servingDocument := by decide +kernel
  have hcatalog : (Frame.catalogOf servingDocument).toOption.map (fun p => (p.1.version, p.1.size, p.2)) =
      some ("eosio::abi/1.1", 37, []) := by decide +kernel
  obtain ⟨⟨catalog, entries⟩, hc, heq⟩ := exists_ok_of_toOption_map hcatalog
  obtain ⟨hversion, hsize, rfl⟩ : catalog.version = "eosio::abi/1.1" ∧ catalog.size = 37 ∧ entries = [] := by
    simpa using heq
  have hparse : Frame.parseSchema (Bytes.ofText servingSchema) = .ok (catalog, []) := by
    rw [Schema.parseSchema_ofText, hdocument]
    exact hc
  have hserved : served = Session.accepted Session.somewhere catalog := by
    rw [served, Session.accepted, hc, hversion, hsize]
    rfl
  rw [visit, hf, Session.connect, htarget]
  refine congrArg Except.ok ?_
  rw [servedTo, hserved, ← Session.moves_of_schema hparse]
  rfl

/-- A follower of this node. -/
def servedFollower : Follower := start { Options.bounded with node := Session.somewhere.endpoint }

/-- The node tells its status. -/
def tellsStatus : List Readiness :=
  [.nothing, .writable 1, .received (.data Session.statusFrame), .nothing, .writable 1]

/-- The node tells its status, sends the block of height 3, and leaves. -/
def sendsBlock : List Readiness :=
  tellsStatus ++ [.received (.data (1 :: (reportAt 3).encode)), .received .closing, .nothing]

/-- The follower between the sessions. -/
def resumed : Follower :=
  ((servedFollower.servedTo sendsBlock).2.afterSession servedFollower.progress.received true Delay.minJitter).2

/-- The second session, closed when the follower is asked to stop. -/
def resumedSession : Session :=
  (Session.settle consumer ((resumed.servedTo tellsStatus).1.close false) (resumed.servedTo tellsStatus).2).1

/-- A session that brings a block, and another one. -/
def servedVisits : List Visit :=
  [⟨servedTurns sendsBlock, Delay.minJitter⟩, ⟨servedTurns tellsStatus, Delay.minJitter⟩]

theorem run_servedVisits :
    (servedFollower.run servedVisits).2.1 = [(servedFollower.servedTo sendsBlock).1, resumedSession] := by
  have hclosed : (servedFollower.servedTo sendsBlock).1.phase = .closed ∧
      (servedFollower.servedTo sendsBlock).1.ending =
        some (.transport "async_read" "connection closed by peer") ∧
      (servedFollower.servedTo sendsBlock).2.progress.finished = false := by decide +kernel
  have hopen : resumed.options.node = Session.somewhere.endpoint ∧
      (resumed.servedTo tellsStatus).1.phase ≠ .closed := by decide +kernel
  have hfirst := run_again (v := ⟨servedTurns sendsBlock, Delay.minJitter⟩) (visit_served rfl sendsBlock) hclosed.1
    hclosed.2.1 rfl hclosed.2.2 [⟨servedTurns tellsStatus, Delay.minJitter⟩]
  have hsecond := run_left (v := ⟨servedTurns tellsStatus, Delay.minJitter⟩) (visit_served hopen.1 tellsStatus)
    hopen.2 []
  exact hfirst.trans (congrArg _ hsecond)

/-- What happens in a session of this node before it tells its status. -/
def beforeStatus : List Event :=
  Session.openingTrace ++ [.schemaAccepted "eosio::abi/1.1" 37, .entered .awaitingSchema .streaming, .called .schema,
    .accepted .status [0], .answered (.ok .proceed)]

/-- The second session resumes after the block of the first one. -/
theorem resumes_after_loss : ∃ before s after next,
    (servedFollower.run servedVisits).2.1 = before ++ s :: after ∧
      ResumeRequest Options.bounded.stream.startBlock (recorded (before.flatMap (·.trace) ++ beforeStatus))
        Session.nodeStatus next [⟨3, .fill 32 1⟩] ∧
      max next Session.nodeStatus.availableStart = 4 := by
  have htrace : resumedSession.trace = beforeStatus ++ .called (.status Session.nodeStatus Session.statusFrame) ::
      [.accepted (.blocks (.streamFrom 4 [⟨3, .fill 32 1⟩]))
          ((Request.blocks (.streamFrom 4 [⟨3, .fill 32 1⟩])).encodeWithTag 1),
        .answered (.ok .proceed), .closeRequested false, .ended (.requested false), .notified false,
        .entered .streaming .closed] := by
    decide +kernel
  have htag : resumedSession.catalog.map (·.variantTag Frame.requestVariant "get_blocks_request_v0") =
      some (.ok 1) := by decide +kernel
  obtain ⟨next, held, _, _, hpost, hresumes⟩ :=
    (resumes_exactly { Options.bounded with node := Session.somewhere.endpoint } servedVisits).1
      [_] resumedSession [] beforeStatus _ _ _ run_servedVisits htrace fun catalog hcat => by
        rw [hcat] at htag
        exact ⟨1, Option.some.inj htag⟩
  obtain ⟨haccepted, -⟩ := List.cons.inj hpost
  obtain ⟨hstart, hheld⟩ : 4 = max next Session.nodeStatus.availableStart ∧ [⟨3, .fill 32 1⟩] = held := by
    injection haccepted with hrequest
    injection hrequest with hrequest
    injection hrequest with hstart _ _ hheld
    exact ⟨hstart, hheld⟩
  exact ⟨[_], resumedSession, [], next, run_servedVisits, hheld ▸ hresumes, hstart.symm⟩

end Follower

end StateHistory
