import StateHistory.Proofs.Configuration.Checked
import StateHistory.Proofs.Follow.Resume
import StateHistory.Proofs.Follow.Survivors
import StateHistory.Proofs.Session.Life

/-! # A follower and its sessions

What a session makes of the follower that attends it: the follower takes note of the blocks that it is told, and
stops the session at the first one that reaches the block to stop before (`Follower.Attends`). It asks for no
close.

`Follower.Ran` lists what a run can come to, session by session, and `run_ran` says that there is nothing else. What
is said of runs in the modules after this one is proved along it. -/

namespace StateHistory

/-- Whether a block of the given height reaches the height to stop before. No block reaches 0. -/
def Reaches (stop height : UInt32) : Prop := stop ≠ 0 ∧ stop.toNat ≤ height.toNat + 1

instance (stop height : UInt32) : Decidable (Reaches stop height) := inferInstanceAs (Decidable (_ ∧ _))

/-- Whether one of the blocks reaches the height to stop before. -/
def Reached (stop : UInt32) (blocks : List (BlockPosition × UInt32)) : Prop :=
  ∃ b ∈ blocks, Reaches stop b.1.number

theorem not_reached_nil (stop : UInt32) : ¬ Reached stop [] := by simp [Reached]

theorem reached_append {stop : UInt32} {bs bs' : List (BlockPosition × UInt32)} :
    Reached stop (bs ++ bs') ↔ Reached stop bs ∨ Reached stop bs' := by
  simp [Reached, or_and_right, exists_or]

/-- No element of a list comes after one of the given kind. -/
def Final {α : Type} (P : α → Prop) (xs : List α) : Prop :=
  ∀ earlier x later, xs = earlier ++ x :: later → P x → later = []

theorem final_of_forall_not {α : Type} {P : α → Prop} {xs : List α} (h : ∀ x ∈ xs, ¬ P x) : Final P xs := by
  rintro earlier x later rfl hx
  exact absurd hx (h x (by simp))

theorem final_of_length_le_one {α : Type} {P : α → Prop} {xs : List α} (h : xs.length ≤ 1) : Final P xs := by
  rintro earlier x later rfl -
  rw [List.length_append, List.length_cons] at h
  exact List.eq_nil_of_length_eq_zero (by omega)

theorem Final.append {α : Type} {P : α → Prop} {xs ys : List α} (hys : Final P ys) (hxs : ∀ x ∈ xs, ¬ P x) :
    Final P (xs ++ ys) := by
  intro earlier x later hsplit hx
  rcases split_of_append hsplit with ⟨later', rfl, -⟩ | ⟨earlier', -, hrest⟩
  · exact absurd hx (hxs x (by simp))
  · exact hys earlier' x later hrest hx

theorem Final.filterMap {α β : Type} {P : α → Prop} {Q : β → Prop} {view : α → Option β} {xs : List α}
    (h : Final P xs) (hview : ∀ x y, view x = some y → Q y → P x) : Final Q (xs.filterMap view) := by
  intro earlier y later hsplit hy
  obtain ⟨before, rest, rfl, -, hrest⟩ := List.filterMap_eq_append_iff.mp hsplit
  obtain ⟨skipped, x, after, rfl, -, hx, rfl⟩ := List.filterMap_eq_cons_iff.mp hrest
  have hafter : after = [] := h (before ++ skipped) x after (List.append_assoc ..).symm (hview x y hx hy)
  rw [hafter]
  rfl

/-- What a follower reports that counts for its run: the blocks that it records, with the last irreversible heights
of their reports, and the delays that it waits. -/
def FollowerEvent.landmark? : FollowerEvent → Option (BlockPosition × UInt32 ⊕ Nat)
  | block position _ lastIrreversible => some (.inl (position, lastIrreversible))
  | reconnecting millis => some (.inr millis)
  | _ => none

namespace Follower

variable {f f' : Follower} {s : Session}

/-- The blocks that a follower has recorded and the delays that it has waited, the oldest first. -/
def landmarks (f : Follower) : List (BlockPosition × UInt32 ⊕ Nat) := f.trace.filterMap FollowerEvent.landmark?

theorem landmarks_note (f : Follower) (e : FollowerEvent) :
    (f.note e).landmarks = f.landmarks ++ e.landmark?.toList := by
  cases h : e.landmark? <;> simp [landmarks, note, h]

/-! ### Answers -/

/-- What a follower makes of a call. -/
structure Answers (f : Follower) (call : Call) (outcome : Except Failure Flow) (f' : Follower) : Prop where
  options_eq : f'.options = f.options
  delay_eq : f'.delay = f.delay
  landmarks_eq : f'.landmarks = f.landmarks ++ (recorded [.called call]).map .inl
  received_eq : f'.progress.received = f.progress.received + (recorded [.called call]).length
  finished_iff : f'.progress.finished = true ↔
    f.progress.finished = true ∨ Reached f.options.stream.stopBefore (recorded [.called call])
  stops_iff : outcome = .ok .stop ↔ Reached f.options.stream.stopBefore (recorded [.called call])

/-- A call without a block leaves a follower as it is, apart from what it reports. -/
theorem answers_of_no_block {call : Call} {outcome : Except Failure Flow} (hcall : recorded [.called call] = [])
    (houtcome : outcome ≠ .ok .stop) (ho : f'.options = f.options) (hd : f'.delay = f.delay)
    (hp : f'.progress = f.progress) (hl : f'.landmarks = f.landmarks) : f.Answers call outcome f' where
  options_eq := ho
  delay_eq := hd
  landmarks_eq := by rw [hcall, hl]; exact (List.append_nil _).symm
  received_eq := by rw [hcall, hp]; rfl
  finished_iff := by simp [hcall, hp, not_reached_nil]
  stops_iff := by simp [hcall, houtcome, not_reached_nil]

theorem hasReached_iff {block : BlockPosition} (h : f.progress.nextBlock = Progress.successor block.number) :
    f.hasReached = true ↔ Reaches f.options.stream.stopBefore block.number := by
  have hlt := f.options.stream.stopBefore.toNat_lt
  have hsuccessor := Progress.toNat_successor block.number
  rw [hasReached, h, Bool.and_eq_true, bne_iff_ne, decide_eq_true_iff, UInt32.le_iff_toNat_le, Reaches]
  refine and_congr_right fun _ => ?_
  omega

theorem landmarks_takeBlock (f : Follower) (report : BlockReport) (block : BlockPosition) :
    (f.takeBlock report block).landmarks = f.landmarks ++ [.inl (block, report.lastIrreversible.number)] := by
  rw [takeBlock, landmarks_note]
  refine congrArg (· ++ _) ?_
  change (if f.progress.forks block then f.note (.forkSwitch block.number) else f).landmarks = f.landmarks
  split
  · rw [landmarks_note]
    exact List.append_nil _
  · rfl

theorem options_takeBlock (f : Follower) (report : BlockReport) (block : BlockPosition) :
    (f.takeBlock report block).options = f.options ∧ (f.takeBlock report block).delay = f.delay := by
  unfold takeBlock
  dsimp only
  split <;> exact ⟨rfl, rfl⟩

theorem landmark?_deltasEvent (c : Schema.Catalog) (deltas : Bytes) : (deltasEvent c deltas).landmark? = none := by
  unfold deltasEvent
  split <;> rfl

theorem options_withDeltas (f : Follower) (catalog : Option Schema.Catalog) (report : BlockReport)
    (block : BlockPosition) : (f.withDeltas catalog report block).options = f.options ∧
      (f.withDeltas catalog report block).delay = f.delay := by
  unfold withDeltas
  split <;> exact options_takeBlock f report block

theorem landmarks_withDeltas (f : Follower) (catalog : Option Schema.Catalog) (report : BlockReport)
    (block : BlockPosition) : (f.withDeltas catalog report block).landmarks =
      f.landmarks ++ [.inl (block, report.lastIrreversible.number)] := by
  unfold withDeltas
  split
  · rw [landmarks_note, landmark?_deltasEvent, landmarks_takeBlock]
    exact List.append_nil _
  · exact landmarks_takeBlock f report block

/-- A follower records a block, and stops if the block reaches the height to stop before. -/
theorem exists_answers_block (f : Follower) (s : Session) {report : BlockReport} {block : BlockPosition}
    (hblock : report.block = some block) (raw : Bytes) : ∃ outcome f',
      (onBlocks report raw f).run s = ((outcome, f'), s) ∧ f.Answers (.blocks report raw) outcome f' := by
  have hrecorded : recorded [.called (.blocks report raw)] = [(block, report.lastIrreversible.number)] := by
    simp [recorded, Event.block?, hblock]
  obtain ⟨hoptions, hdelay⟩ := options_withDeltas f s.catalog report block
  have hlandmarks := landmarks_withDeltas f s.catalog report block
  have hprogress := progress_withDeltas f s.catalog report block
  have hreached : (f.withDeltas s.catalog report block).hasReached = true ↔
      Reached f.options.stream.stopBefore (recorded [.called (.blocks report raw)]) := by
    rw [hasReached_iff (show _ = Progress.successor block.number by rw [hprogress]; rfl), hoptions, hrecorded]
    simp [Reached]
  rw [onBlocks, hblock]
  by_cases h : (f.withDeltas s.catalog report block).hasReached
  · refine ⟨.ok .stop, { f.withDeltas s.catalog report block with
      progress := { (f.withDeltas s.catalog report block).progress with finished := true } }, ?_, ?_⟩
    · change Handle.run (if (f.withDeltas s.catalog report block).hasReached then _ else _) s = _
      rw [if_pos h]
      rfl
    · constructor
      case options_eq => exact hoptions
      case delay_eq => exact hdelay
      case landmarks_eq => rw [hrecorded]; exact hlandmarks
      case received_eq => rw [hprogress, hrecorded]; rfl
      case finished_iff => simp [hreached.mp h]
      case stops_iff => simp [hreached.mp h]
  · refine ⟨.ok .proceed, f.withDeltas s.catalog report block, ?_, ?_⟩
    · change Handle.run (if (f.withDeltas s.catalog report block).hasReached then _ else _) s = _
      rw [if_neg h]
      rfl
    · have hnot := hreached.not.mp h
      constructor
      case options_eq => exact hoptions
      case delay_eq => exact hdelay
      case landmarks_eq => rw [hrecorded]; exact hlandmarks
      case received_eq => rw [hprogress, hrecorded]; rfl
      case finished_iff => simp [hnot, hprogress, Progress.record]
      case stops_iff => simp [hnot]

theorem run_request {α : Type} (request : Request) (g : Except SendError Unit → α) (s : Session) :
    ∃ answer uses, (Handle.send request fun answer => .done (g answer)).run s = (g answer, s.used uses) ∧
      ∀ e ∈ uses, ∃ r frame, e = .accepted r frame := by
  rw [Handle.run]
  cases hsend : s.send request with
  | error e => exact ⟨.error e, [], by rw [Session.used_nil]; rfl, by simp⟩
  | ok s' =>
      obtain ⟨frame, rfl, -⟩ := Session.send_used hsend
      exact ⟨.ok (), _, rfl, by simp⟩

theorem requested_proceed_ne_stop (answer : Except SendError Unit) :
    requested Flow.proceed answer ≠ .ok .stop := by
  rcases answer with e | ⟨⟨⟩⟩ <;> nofun

/-- Whatever a follower is told, it answers as it should, and makes no use of its handle but requests. -/
theorem exists_answers (f : Follower) (call : Call) (s : Session) : ∃ outcome f' uses,
    (consumer.answer call f).run s = ((outcome, f'), s.used uses) ∧
      (∀ e ∈ uses, ∃ request frame, e = .accepted request frame) ∧
      f.Answers call outcome f' := by
  match call with
  | .schema =>
      have hanswer : consumer.answer .schema f = .send .status fun answer =>
          .done ((requested () answer).map fun _ => .proceed, f) := rfl
      obtain ⟨answer, uses, hrun, huses⟩ := run_request .status
        (fun answer => ((requested () answer).map fun _ => Flow.proceed, f)) s
      refine ⟨_, f, uses, by rw [hanswer, hrun], huses, answers_of_no_block rfl ?_ rfl rfl rfl rfl⟩
      rcases answer with e | ⟨⟨⟩⟩ <;> nofun
  | .status status raw =>
      have hanswer : consumer.answer (.status status raw) f =
          .send (.blocks (.streamFrom (status.resumeStart f.progress.nextBlock) f.progress.positions))
            fun answer => .done (requested .proceed answer, f.note (.nodeStatus status)) := rfl
      obtain ⟨answer, uses, hrun, huses⟩ := run_request
        (.blocks (.streamFrom (status.resumeStart f.progress.nextBlock) f.progress.positions))
        (fun answer => (requested Flow.proceed answer, f.note (.nodeStatus status))) s
      refine ⟨_, f.note (.nodeStatus status), uses, by rw [hanswer, hrun], huses,
        answers_of_no_block rfl ?_ rfl rfl rfl ?_⟩
      · exact requested_proceed_ne_stop answer
      · rw [landmarks_note]
        exact List.append_nil _
  | .blocks report raw =>
      change ∃ outcome f' uses, (onBlocks report raw f).run s = _ ∧ _
      cases hblock : report.block with
      | none =>
          have hrecorded : recorded [.called (.blocks report raw)] = [] := by simp [recorded, Event.block?, hblock]
          refine ⟨.ok .proceed, f.note (.caughtUp report.head.number), [], ?_, by simp,
            answers_of_no_block hrecorded (by simp) rfl rfl rfl ?_⟩
          · rw [onBlocks, hblock, Session.used_nil]
            rfl
          · rw [landmarks_note]
            exact List.append_nil _
      | some block =>
          obtain ⟨outcome, f', hrun, hanswers⟩ := exists_answers_block f s hblock raw
          exact ⟨outcome, f', [], by rw [Session.used_nil, hrun], by simp, hanswers⟩

end Follower

/-! ### Turns -/

/-- A turn of a session that has met no end leaves its consumer alone, or tells it something. -/
theorem Session.Turned.alone_or_told {σ : Type} {c : Consumer σ} {s : Session} {k : σ} {o : Option Occurrence}
    {p : Session × σ} (h : Session.Turned c s k o p) (he : s.ending = none) :
    (p.2 = k ∧ p.1.ending ≠ some .stopped ∧ ∃ es, p.1.trace = s.trace ++ es ∧ ∀ e ∈ es, e.isPlain) ∨
    ∃ (s₁ s₂ : Session) (reports : List Event) (call : Call) (outcome : Except Failure Flow),
      s₁.ending = none ∧ s₁.trace = s.trace ++ reports ∧ (∀ e ∈ reports, e.isPlain) ∧
      (c.answer call k).run (s₁.note (.called call)) = ((outcome, p.2), s₂) ∧ p.1 = s₂.answered call outcome := by
  have hne : s.ending ≠ some .stopped := by simp [he]
  have hmeet : ∀ (s : Session) (e : Ending), e ≠ .stopped → (s.meet e).ending ≠ some .stopped ∧
      ∃ es, (s.meet e).trace = s.trace ++ es ∧ ∀ x ∈ es, x.isPlain := fun s e hstop =>
    ⟨by rw [Session.ending_meet]; exact fun heq => hstop (Option.some.inj heq), s.loss, by rw [Session.meet_eq],
      Session.isPlain_of_mem_loss⟩
  cases h with
  | idle | taken | handed | flushed | ignored => exact .inl ⟨rfl, hne, [], (List.append_nil _).symm, by simp⟩
  | begun => exact .inl ⟨rfl, hne, [_], rfl, by simp [Event.isPlain]⟩
  | dropped => exact .inl ⟨rfl, hne, [_], rfl, by simp [Event.isPlain]⟩
  | advanced step reports _ hp hq hr => exact .inl ⟨rfl, hne, reports, rfl, hr⟩
  | closed | openingFailed | writeFailed => exact .inl ⟨rfl, hmeet _ _ (by simp)⟩
  | broken room i e _ hp hq hi =>
      refine .inl ⟨rfl, hmeet _ _ ?_⟩
      rintro rfl
      cases i <;> cases hi
  | refused room frame error report _ hp hq hf hr =>
      obtain ⟨hending, es, htrace, hes⟩ := hmeet ((s.hand room).note report) (.protocol error) (by simp)
      refine .inl ⟨rfl, hending, report :: es, by rw [htrace]; exact List.append_assoc _ [report] es, ?_⟩
      simpa using ⟨hr, hes⟩
  | told room frame call reports outcome k' s' _ hp hq hf hr hrun =>
      exact .inr ⟨(s.hand room).accepting frame reports, s', reports, call, outcome, he, rfl, hr, hrun, rfl⟩
  | finished e uses reports hp he' hu hr => cases he.symm.trans he'

namespace Follower

variable {f f' f'' : Follower} {s s' : Session}

/-- What a session makes of the follower that attends it. -/
structure Attends (f : Follower) (s : Session) (f' : Follower) : Prop where
  options_eq : f'.options = f.options
  delay_eq : f'.delay = f.delay
  landmarks_eq : f'.landmarks = f.landmarks ++ (recorded s.trace).map .inl
  received_eq : f'.progress.received = f.progress.received + (recorded s.trace).length
  finished_iff : f'.progress.finished = true ↔
    f.progress.finished = true ∨ Reached f.options.stream.stopBefore (recorded s.trace)
  stopped_iff : s.ending = some .stopped ↔ Reached f.options.stream.stopBefore (recorded s.trace)
  /-- The block that reaches the height to stop before is the last one. -/
  last : Final (fun b => Reaches f.options.stream.stopBefore b.1.number) (recorded s.trace)

theorem attends_start (f : Follower) (t : Target) : f.Attends (Session.start t) f where
  options_eq := rfl
  delay_eq := rfl
  landmarks_eq := (List.append_nil _).symm
  received_eq := rfl
  finished_iff := (or_iff_left (not_reached_nil _)).symm
  stopped_iff := iff_of_false nofun (not_reached_nil _)
  last := final_of_forall_not nofun

/-- Events without blocks do not matter to a follower. -/
theorem Attends.alone (h : f.Attends s f') (es : List Event) (ht : s'.trace = s.trace ++ es)
    (hes : recorded es = []) (he : s'.ending = some .stopped ↔ s.ending = some .stopped) : f.Attends s' f' := by
  have hrecorded : recorded s'.trace = recorded s.trace := by rw [ht, recorded_append, hes, List.append_nil]
  constructor
  case options_eq => exact h.options_eq
  case delay_eq => exact h.delay_eq
  case stopped_iff => rw [he, hrecorded]; exact h.stopped_iff
  all_goals rw [hrecorded]
  case landmarks_eq => exact h.landmarks_eq
  case received_eq => exact h.received_eq
  case finished_iff => exact h.finished_iff
  case last => exact h.last

theorem Attends.plain (h : f.Attends s f') {es : List Event} (ht : s'.trace = s.trace ++ es)
    (hes : ∀ e ∈ es, e.isPlain) (he : s'.ending = some .stopped ↔ s.ending = some .stopped) : f.Attends s' f' :=
  h.alone es ht (recorded_of_isIdle fun e hmem => Event.isIdle_of_isPlain (hes e hmem)) he

theorem ending?_eq_stopped_iff (call : Call) (outcome : Except Failure Flow) :
    call.ending? outcome = some .stopped ↔ outcome = .ok .stop := by
  rcases outcome with failure | ⟨⟨⟩ | ⟨⟩⟩ <;> simp [Call.ending?]

theorem length_recorded_singleton_le (e : Event) : (recorded [e]).length ≤ 1 := List.length_filterMap_le _ _

/-- A follower that is told something in a session that has met no end goes on as it should. -/
theorem Attends.answered (h : f.Attends s f') {call : Call} {outcome : Except Failure Flow}
    (hanswers : f'.Answers call outcome f'') (hlive : s.ending = none)
    (hrecorded : recorded s'.trace = recorded s.trace ++ recorded [.called call])
    (he : s'.ending = some .stopped ↔ outcome = .ok .stop) : f.Attends s' f'' := by
  have hnot : ¬ Reached f.options.stream.stopBefore (recorded s.trace) := by
    rw [← h.stopped_iff, hlive]
    nofun
  have hstops := hanswers.stops_iff
  have hfinished := hanswers.finished_iff
  rw [h.options_eq] at hstops hfinished
  constructor
  case options_eq => exact hanswers.options_eq.trans h.options_eq
  case delay_eq => exact hanswers.delay_eq.trans h.delay_eq
  case landmarks_eq =>
    rw [hanswers.landmarks_eq, h.landmarks_eq, hrecorded, List.map_append, List.append_assoc]
  case received_eq =>
    rw [hanswers.received_eq, h.received_eq, hrecorded, List.length_append, Nat.add_assoc]
  case finished_iff =>
    rw [hfinished, h.finished_iff, hrecorded, reached_append, or_assoc]
  case stopped_iff =>
    rw [he, hstops, hrecorded, reached_append, or_iff_right hnot]
  case last =>
    rw [hrecorded]
    exact (final_of_length_le_one (length_recorded_singleton_le _)).append fun b hmem hb => hnot ⟨b, hmem, hb⟩

/-- What a view sees of a call, when it sees neither the answer nor the requests that are made meanwhile. -/
theorem seen_told {α : Type} {view : Event → Option α} (hplain : ∀ {e : Event}, e.isPlain → view e = none)
    (haccepted : ∀ request frame, view (.accepted request frame) = none)
    (hanswer : ∀ outcome, view (.answered outcome) = none) {s₁ : Session} {reports uses : List Event} {call : Call}
    {outcome : Except Failure Flow} (ht : s₁.trace = s.trace ++ reports) (hreports : ∀ e ∈ reports, e.isPlain)
    (huses : ∀ e ∈ uses, ∃ request frame, e = .accepted request frame) :
    (((s₁.note (.called call)).used uses).answered call outcome).seen view =
      s.seen view ++ (view (.called call)).toList := by
  have hnone : uses.filterMap view = [] := List.filterMap_eq_nil_iff.mpr fun e hmem => by
    obtain ⟨request, frame, rfl⟩ := huses e hmem
    exact haccepted request frame
  have hseen₁ : s₁.seen view = s.seen view := by
    rw [Session.seen, ht, List.filterMap_append, Event.filterMap_plain hplain hreports, List.append_nil]
    rfl
  rw [Session.seen_answered hplain, Session.seen_used, hnone, Session.seen_note, hseen₁, hanswer, List.append_nil]
  exact List.append_nil _

/-- A turn leaves a follower attending, and asks for no close. -/
theorem Attends.turn (h : f.Attends s f') (hs : s.Coherent) (r : Readiness) :
    f.Attends (Session.turn consumer r s f').1 (Session.turn consumer r s f').2 ∧
      (Session.turn consumer r s f').1.closeRequests = s.closeRequests := by
  cases he : s.ending with
  | some e =>
      by_cases hp : s.phase = .closed
      · have hidle : Session.turn consumer r s f' = (s, f') := by
          unfold Session.turn
          rw [hp]
        rw [hidle]
        exact ⟨h, rfl⟩
      · have hfinish : Session.turn consumer r s f' = ((s.noticing e).enter .closed, f') := by
          rw [Session.turn_of_ending he hp]
          rfl
        rw [hfinish]
        refine ⟨h.alone [.ended e, .notified e.retry, .entered s.phase .closed] ?_ rfl .rfl, ?_⟩
        · simp [Session.noticing, Session.note, Session.enter]
        · simp [Session.seen, Session.noticing, Session.note, Session.enter, Event.closeRequest?]
  | none =>
      have hturned : Session.Turned consumer s f' (s.occurrence? r) (Session.turn consumer r s f') :=
        Session.turn_turned hs
      rcases hturned.alone_or_told he with ⟨hk, hending, es, htrace, hes⟩ |
        ⟨s₁, s₂, reports, call, outcome, he₁, htrace₁, hreports, hrun, hanswered⟩
      · rw [hk]
        refine ⟨h.plain htrace hes (by simp [hending, he]), ?_⟩
        unfold Session.closeRequests Session.seen
        rw [htrace, List.filterMap_append, Event.filterMap_plain Event.closeRequest?_of_isPlain hes,
          List.append_nil]
      · obtain ⟨outcome', f₁, uses, hrun', huses, hanswers⟩ := exists_answers f' call (s₁.note (.called call))
        obtain ⟨hresult, rfl⟩ := Prod.mk.inj (hrun.symm.trans hrun')
        obtain ⟨rfl, rfl⟩ := Prod.mk.inj hresult
        have hstopped : (Session.turn consumer r s f').1.ending = some .stopped ↔ outcome = .ok .stop := by
          have hlive : ((s₁.note (.called call)).used uses).ending = none := he₁
          rw [hanswered, Session.ending_answered, hlive, Option.or_none]
          exact ending?_eq_stopped_iff call outcome
        refine ⟨h.answered hanswers he ?_ hstopped, ?_⟩
        · have hblock : recorded [.called call] = (Event.called call).block?.toList := by
            cases hb : (Event.called call).block? <;> simp [recorded, hb]
          rw [hanswered, hblock]
          exact seen_told (fun hp => (Event.isIdle_of_isPlain hp).2.2) (fun _ _ => rfl) (fun _ => rfl) htrace₁
            hreports huses
        · rw [hanswered, Session.closeRequests, seen_told Event.closeRequest?_of_isPlain (fun _ _ => rfl)
            (fun _ => rfl) htrace₁ hreports huses]
          exact List.append_nil _

/-! ### Sessions -/

theorem Attends.moves (h : f.Attends s f') (hs : s.Coherent) (rs : List Readiness) :
    f.Attends (Session.moves consumer (rs.map .turn) s f').1 (Session.moves consumer (rs.map .turn) s f').2 ∧
      (Session.moves consumer (rs.map .turn) s f').1.closeRequests = s.closeRequests := by
  induction rs generalizing s f' with
  | nil => exact ⟨h, rfl⟩
  | cons r rs ih =>
      obtain ⟨hturn, hcloses⟩ := h.turn hs r
      obtain ⟨hrest, hcloses'⟩ := ih hturn (hs.move (.turn r))
      exact ⟨hrest, hcloses'.trans hcloses⟩

theorem Attends.turns (h : f.Attends s f') (hs : s.Coherent) (count : Nat) :
    f.Attends (Session.turns consumer count s f').1 (Session.turns consumer count s f').2 ∧
      (Session.turns consumer count s f').1.closeRequests = s.closeRequests := by
  induction count generalizing s f' with
  | zero => exact ⟨h, rfl⟩
  | succ count ih =>
      obtain ⟨hturn, hcloses⟩ := h.turn hs (.writable s.outbound.length)
      obtain ⟨hrest, hcloses'⟩ := ih hturn (hs.move (.turn (.writable s.outbound.length)))
      exact ⟨hrest, hcloses'.trans hcloses⟩

/-- A follower begins a session as soon as its endpoint can be used, and asks for no close in it. -/
theorem visit_attends {t : Target} (ht : Target.ofEndpoint f.options.node = .ok t) (rs : List Readiness) :
    ∃ s f', f.visit rs = .ok (s, f') ∧ f.Attends s f' ∧ s.Coherent ∧ s.Orderly ∧ s.closeRequests = [] := by
  have hs := Session.start_coherent t
  obtain ⟨hattends, hcloses⟩ := (attends_start f t).moves hs rs
  refine ⟨_, _, ?_, hattends, hs.moves _, (Session.start_orderly t).moves hs _, hcloses⟩
  rw [visit, Session.connect, ht]
  rfl

/-- A session that is left open is closed, and goes on for as long as it has something to do. -/
theorem Attends.left (h : f.Attends s f') (hs : s.Coherent) :
    f.Attends (Session.settle consumer (s.close false) f').1 (Session.settle consumer (s.close false) f').2 ∧
      (Session.settle consumer (s.close false) f').1.closeRequests ≠ [] := by
  have hclosed : f.Attends (s.close false) f' := by
    rw [Session.close_used]
    exact h.alone [.closeRequested false] rfl rfl .rfl
  have hs' : (s.close false).Coherent := by
    rw [Session.close_used]
    exact hs.used
  obtain ⟨hattends, hcloses⟩ := hclosed.turns hs' ((s.close false).queue.length + 2)
  refine ⟨hattends, ?_⟩
  rw [show Session.settle consumer (s.close false) f' = Session.turns consumer _ (s.close false) f' from rfl, hcloses,
    Session.close_used, Session.closeRequests, Session.seen_used]
  simp [Event.closeRequest?]

theorem Attends.not_finished (h : f.Attends s f') (hf : f.progress.finished = false)
    (hnot : ¬ Reached f.options.stream.stopBefore (recorded s.trace)) : f'.progress.finished = false := by
  rw [← Bool.not_eq_true, h.finished_iff, hf]
  simpa using hnot

/-! ### Runs -/

/-- The follower that waits for its next session. -/
def waiting (f : Follower) (before : Nat) (jitter : Binary64) : Follower := (f.afterSession before true jitter).2

/-- What a run of a follower whose endpoint can be used comes to: how it ends, its sessions, and the follower after
it. -/
inductive Ran : Follower → List Visit → Outcome → List Session → Follower → Prop
  /-- The follower is asked to stop before another session begins. -/
  | none_left {f : Follower} : Ran f [] .stopped [] f
  /-- The follower is asked to stop in a session. -/
  | left {f f' : Follower} {s : Session} {v : Visit} {vs : List Visit} : f.Attends s f' → s.closeRequests ≠ [] →
      Ran f (v :: vs) .stopped [s] f'
  | finished {f f' : Follower} {s : Session} {v : Visit} {vs : List Visit} : f.Attends s f' →
      s.closeRequests = [] → s.notifications = [false] → Reached f.options.stream.stopBefore (recorded s.trace) →
      Ran f (v :: vs) .finished [s] (f'.note (.reached f'.options.stream.stopBefore f'.progress.received))
  | failed {f f' : Follower} {s : Session} {v : Visit} {vs : List Visit} : f.Attends s f' →
      s.closeRequests = [] → s.notifications = [false] → ¬ Reached f.options.stream.stopBefore (recorded s.trace) →
      Ran f (v :: vs) .failed [s] f'
  | again {f f' f'' : Follower} {s : Session} {v : Visit} {vs : List Visit} {outcome : Outcome}
      {sessions : List Session} : f.Attends s f' → s.closeRequests = [] → s.phase = .closed →
      s.notifications = [true] → ¬ Reached f.options.stream.stopBefore (recorded s.trace) →
      Ran (f'.waiting f.progress.received v.jitter) vs outcome sessions f'' →
      Ran f (v :: vs) outcome (s :: sessions) f''

/-- The delays of a follower that another session follows, with the delay that it waits. -/
def delayAfter (f : Follower) (before : Nat) : Delay :=
  if before < f.progress.received then f.delay.reset else f.delay

theorem afterSession_again (h : f.progress.finished = false) (before : Nat) (jitter : Binary64) :
    f.afterSession before true jitter =
      (.again ((f.delayAfter before).wait jitter), f.waiting before jitter) := by
  rw [waiting, afterSession, if_neg (by rw [h]; exact Bool.false_ne_true)]
  rfl

/-- A follower that waits for its next session has the delay after the one that it waits. -/
theorem waiting_eq (h : f.progress.finished = false) (before : Nat) (jitter : Binary64) :
    f.waiting before jitter = { f with delay := (f.delayAfter before).next }.note
      (.reconnecting ((f.delayAfter before).wait jitter)) := by
  rw [waiting, afterSession, if_neg (by rw [h]; exact Bool.false_ne_true)]
  rfl

theorem landmarks_waiting (h : f.progress.finished = false) (before : Nat) (jitter : Binary64) :
    (f.waiting before jitter).landmarks = f.landmarks ++ [.inr ((f.delayAfter before).wait jitter)] := by
  rw [waiting_eq h, landmarks_note]
  rfl

theorem options_waiting (f : Follower) (before : Nat) (jitter : Binary64) :
    (f.waiting before jitter).options = f.options := by
  unfold waiting afterSession
  split
  · rfl
  · split <;> rfl

/-- A follower that has not come to the height to stop before runs as it should, and never fails to begin a
session. -/
theorem run_ran {t : Target} (ht : Target.ofEndpoint f.options.node = .ok t) (hf : f.progress.finished = false)
    (visits : List Visit) : Ran f visits (f.run visits).1 (f.run visits).2.1 (f.run visits).2.2 := by
  induction visits generalizing f with
  | nil => exact .none_left
  | cons v vs ih =>
      obtain ⟨s, f', hvisit, hattends, hs, horderly, hcloses⟩ := visit_attends ht v.turns
      rw [run, hvisit]
      dsimp only
      split
      · rename_i e hp he
        have hnotified : s.notifications = [e.retry] := by
          rw [horderly.notifications_eq, if_pos hp, he]
          rfl
        by_cases hreached : Reached f.options.stream.stopBefore (recorded s.trace)
        · have hstop : e = .stopped := Option.some.inj (he.symm.trans (hattends.stopped_iff.mpr hreached))
          have hfinished : f'.progress.finished = true := hattends.finished_iff.mpr (.inr hreached)
          rw [afterSession, if_pos hfinished]
          exact .finished hattends hcloses (by rw [hnotified, hstop]; rfl) hreached
        · have hfinished := hattends.not_finished hf hreached
          cases hretry : e.retry with
          | false =>
              rw [afterSession, if_neg (by simp [hfinished])]
              exact .failed hattends hcloses (by rw [hnotified, hretry]) hreached
          | true =>
              rw [afterSession_again hfinished]
              refine .again hattends hcloses hp (by rw [hnotified, hretry]) hreached (ih ?_ ?_)
              · rw [options_waiting, hattends.options_eq]
                exact ht
              · rw [waiting, progress_afterSession]
                exact hfinished
      · obtain ⟨hattends', hcloses'⟩ := hattends.left hs
        exact .left hattends' hcloses'

end Follower

end StateHistory
