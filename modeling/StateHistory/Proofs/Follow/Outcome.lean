import StateHistory.Proofs.Follow.Attendance

/-! # How a run ends

A follower goes on to another session only when the session before it ended with the word that another attempt
makes sense, and before the height to stop before was reached. A run has finished if the height was reached, has
failed if a session ended with the word that another attempt makes no sense, and was stopped otherwise
(`run_concludes`). Nobody but who runs the follower asks for a close, so a session in which one was asked for is one
in which the follower was asked to stop. -/

namespace StateHistory

theorem exists_ofEndpoint {e : Endpoint} {url : Url} (h : e.location = .ok url) :
    ∃ t, Target.ofEndpoint e = .ok t := by
  have hlocation := h
  rw [Endpoint.location] at hlocation
  split at hlocation
  · cases hlocation
  · obtain ⟨port, hport, -⟩ := bind_eq_ok_iff.mp hlocation
    rw [Target.ofEndpoint, h, hport]
    exact ⟨_, rfl⟩

namespace Follower

variable {stop : UInt32} {f f' : Follower} {s : Session} {sessions : List Session}

/-- The blocks that a follower was told in sessions, with the last irreversible heights of their reports. -/
def blocksOf (sessions : List Session) : List (BlockPosition × UInt32) := recorded (sessions.flatMap (·.trace))

theorem blocksOf_cons (s : Session) (sessions : List Session) :
    blocksOf (s :: sessions) = recorded s.trace ++ blocksOf sessions := by
  rw [blocksOf, List.flatMap_cons, recorded_append]
  rfl

theorem blocksOf_singleton (s : Session) : blocksOf [s] = recorded s.trace := by
  rw [blocksOf_cons]
  exact List.append_nil _

/-- Whether a landmark is a block that reaches the height to stop before. -/
def IsGoal (stop : UInt32) : BlockPosition × UInt32 ⊕ Nat → Prop
  | .inl b => Reaches stop b.1.number
  | .inr _ => False

/-- How a run ends, given what was ready for its sessions, with its sessions, the landmarks of the follower, and
whether the follower is through. -/
structure Concludes (stop : UInt32) (visits : List Visit) (outcome : Outcome) (sessions : List Session)
    (landmarks : List (BlockPosition × UInt32 ⊕ Nat)) (through : Bool) : Prop where
  /-- No session fails to begin. -/
  begins : ∀ e, outcome ≠ .endpoint e
  /-- What it takes for another session to follow. -/
  again : ∀ before s next after, sessions = before ++ s :: next :: after →
    s.phase = .closed ∧ s.notifications = [true] ∧ ¬ Reached stop (blocksOf (before ++ [s]))
  finished_iff : outcome = .finished ↔
    Reached stop (blocksOf sessions) ∧ ∀ s ∈ sessions, s.closeRequests = []
  failed_iff : outcome = .failed ↔
    ¬ Reached stop (blocksOf sessions) ∧ (∀ s ∈ sessions, s.closeRequests = []) ∧
      ∃ s ∈ sessions, s.notifications = [false]
  /-- The follower is asked to stop in a session, or before another one begins. -/
  stopped_iff : outcome = .stopped ↔
    (∃ s ∈ sessions, s.closeRequests ≠ []) ∨
      sessions.length = visits.length ∧ ∀ s ∈ sessions, s.notifications = [true]
  blocks_eq : landmarks.filterMap Sum.getLeft? = blocksOf sessions
  /-- Neither a block nor a delay comes after the block that reaches the height to stop before. -/
  final : Final (IsGoal stop) landmarks
  /-- Every block but the last one lies below the one that would reach it. -/
  lt_stop : stop ≠ 0 → ∀ earlier b next later, blocksOf sessions = earlier ++ b :: next :: later →
    b.1.number.toNat + 1 < stop.toNat
  through_iff : through = true ↔ Reached stop (blocksOf sessions)

theorem lt_of_not_reaches {height : UInt32} (hstop : stop ≠ 0) (h : ¬ Reaches stop height) :
    height.toNat + 1 < stop.toNat := by
  rw [Reaches, not_and] at h
  exact Nat.lt_of_not_le (h hstop)

/-- A block that another one follows does not reach the height to stop before. -/
theorem lt_stop_of_final {landmarks : List (BlockPosition × UInt32 ⊕ Nat)} {blocks : List (BlockPosition × UInt32)}
    (hfinal : Final (IsGoal stop) landmarks) (hblocks : landmarks.filterMap Sum.getLeft? = blocks) (hstop : stop ≠ 0)
    {earlier later : List (BlockPosition × UInt32)} {b next : BlockPosition × UInt32}
    (hsplit : blocks = earlier ++ b :: next :: later) : b.1.number.toNat + 1 < stop.toNat := by
  have hfinal' : Final (fun b : BlockPosition × UInt32 => Reaches stop b.1.number) blocks := by
    rw [← hblocks]
    refine hfinal.filterMap fun landmark b hview hb => ?_
    obtain rfl := Sum.getLeft?_eq_some_iff.mp hview
    exact hb
  refine lt_of_not_reaches hstop fun hb => ?_
  exact List.cons_ne_nil next later (hfinal' earlier b (next :: later) hsplit hb)

/-! ### One session -/

theorem filterMap_getLeft?_map_inl (blocks : List (BlockPosition × UInt32)) :
    (blocks.map (.inl : _ → BlockPosition × UInt32 ⊕ Nat)).filterMap Sum.getLeft? = blocks := by
  rw [List.filterMap_map]
  exact List.filterMap_some

theorem Attends.final (h : f.Attends s f') :
    Final (IsGoal f.options.stream.stopBefore) ((recorded s.trace).map .inl) := by
  intro earlier landmark later hsplit hgoal
  obtain ⟨before, rest, hblocks, rfl, hrest⟩ := List.map_eq_append_iff.mp hsplit
  obtain ⟨b, after, rfl, rfl, rfl⟩ := List.map_eq_cons_iff.mp hrest
  rw [h.last before b after hblocks hgoal]
  rfl

theorem Attends.concludes (h : f.Attends s f') (hf : f.progress.finished = false)
    (hstop : f.options.stream.stopBefore = stop) {visits : List Visit} {outcome : Outcome}
    (hbegins : ∀ e, outcome ≠ .endpoint e)
    (hfinished : outcome = .finished ↔ Reached stop (recorded s.trace) ∧ s.closeRequests = [])
    (hfailed : outcome = .failed ↔
      ¬ Reached stop (recorded s.trace) ∧ s.closeRequests = [] ∧ s.notifications = [false])
    (hstopped : outcome = .stopped ↔
      s.closeRequests ≠ [] ∨ 1 = visits.length ∧ s.notifications = [true]) :
    Concludes stop visits outcome [s] ((recorded s.trace).map .inl) f'.progress.finished := by
  subst hstop
  have hblocks := filterMap_getLeft?_map_inl (recorded s.trace)
  constructor
  case begins => exact hbegins
  case again =>
    intro before s next after hsplit
    have hlength := congrArg List.length hsplit
    simp only [List.length_append, List.length_cons, List.length_nil] at hlength
    omega
  case finished_iff => simpa [blocksOf_singleton] using hfinished
  case failed_iff => simpa [blocksOf_singleton] using hfailed
  case stopped_iff => simpa using hstopped
  case blocks_eq => rw [hblocks, blocksOf_singleton]
  case final => exact h.final
  case lt_stop =>
    intro hne earlier b next later hsplit
    exact lt_stop_of_final h.final hblocks hne (hsplit ▸ (blocksOf_singleton s).symm)
  case through_iff => rw [h.finished_iff, hf, blocksOf_singleton, or_iff_right Bool.false_ne_true]

/-! ### Runs -/

theorem reached_blocksOf_cons (hnot : ¬ Reached stop (recorded s.trace)) (sessions : List Session) :
    Reached stop (blocksOf (s :: sessions)) ↔ Reached stop (blocksOf sessions) := by
  rw [blocksOf_cons, reached_append, or_iff_right hnot]

/-- A run with one session more before it concludes as it does, if another attempt made sense. -/
theorem Concludes.cons {visits : List Visit} {v : Visit} {outcome : Outcome}
    {landmarks : List (BlockPosition × UInt32 ⊕ Nat)} {through : Bool}
    (h : Concludes stop visits outcome sessions landmarks through) (hnot : ¬ Reached stop (recorded s.trace))
    (hcloses : s.closeRequests = []) (hphase : s.phase = .closed) (hnotified : s.notifications = [true])
    (millis : Nat) : Concludes stop (v :: visits) outcome (s :: sessions)
      ((recorded s.trace).map .inl ++ .inr millis :: landmarks) through := by
  have hreached := reached_blocksOf_cons hnot
  have hblocks : ((recorded s.trace).map Sum.inl ++ Sum.inr millis :: landmarks).filterMap Sum.getLeft? =
      blocksOf (s :: sessions) := by
    rw [List.filterMap_append, filterMap_getLeft?_map_inl, blocksOf_cons, ← h.blocks_eq]
    rfl
  have hfinal : Final (IsGoal stop) ((recorded s.trace).map .inl ++ .inr millis :: landmarks) := by
    rw [List.append_cons]
    refine h.final.append fun landmark hmem hgoal => ?_
    rcases List.mem_append.mp hmem with hmem | hmem
    · obtain ⟨b, hb, rfl⟩ := List.mem_map.mp hmem
      exact hnot ⟨b, hb, hgoal⟩
    · rw [List.mem_singleton.mp hmem] at hgoal
      exact hgoal
  constructor
  case begins => exact h.begins
  case again =>
    intro before s' next after hsplit
    match before with
    | [] =>
        obtain ⟨rfl, -⟩ := List.cons.inj hsplit
        exact ⟨hphase, hnotified, by rw [List.nil_append, blocksOf_singleton]; exact hnot⟩
    | first :: before =>
        obtain ⟨rfl, hrest⟩ := List.cons.inj hsplit
        obtain ⟨hphase', hnotified', hnot'⟩ := h.again before s' next after hrest
        exact ⟨hphase', hnotified', by rw [List.cons_append, hreached]; exact hnot'⟩
  case finished_iff => rw [h.finished_iff, hreached, List.forall_mem_cons, and_iff_right hcloses]
  case failed_iff => simp [h.failed_iff, hreached, hcloses, hnotified]
  case stopped_iff => simp [h.stopped_iff, hcloses, hnotified]
  case blocks_eq => exact hblocks
  case final => exact hfinal
  case lt_stop => exact fun hne _ _ _ _ hsplit => lt_stop_of_final hfinal hblocks hne hsplit
  case through_iff => rw [h.through_iff, hreached]

/-- Whatever a run comes to, it concludes as it should. -/
theorem Ran.concludes {visits : List Visit} {outcome : Outcome} (h : Ran f visits outcome sessions f')
    (hf : f.progress.finished = false) : ∃ landmarks, f'.landmarks = f.landmarks ++ landmarks ∧
      Concludes f.options.stream.stopBefore visits outcome sessions landmarks f'.progress.finished := by
  induction h with
  | none_left =>
      refine ⟨[], (List.append_nil _).symm, ?_⟩
      constructor
      case begins => nofun
      case again => exact fun before _ _ _ hsplit => by cases before <;> cases hsplit
      case finished_iff => simp [blocksOf, recorded, not_reached_nil]
      case failed_iff => simp
      case stopped_iff => simp
      case blocks_eq => rfl
      case final => exact final_of_forall_not (by simp)
      case lt_stop => exact fun _ earlier _ _ _ hsplit => by cases earlier <;> cases hsplit
      case through_iff => simp [hf, blocksOf, recorded, not_reached_nil]
  | left hattends hcloses =>
      exact ⟨_, hattends.landmarks_eq, hattends.concludes hf rfl (by simp) (by simp [hcloses]) (by simp [hcloses])
        (by simp [hcloses])⟩
  | finished hattends hcloses hnotified hreached =>
      refine ⟨_, ?_, hattends.concludes hf rfl (by simp) (by simp [hcloses, hreached]) (by simp [hreached])
        (by simp [hcloses, hnotified])⟩
      rw [landmarks_note, hattends.landmarks_eq]
      exact List.append_nil _
  | failed hattends hcloses hnotified hnot =>
      exact ⟨_, hattends.landmarks_eq, hattends.concludes hf rfl (by simp) (by simp [hnot])
        (by simp [hnot, hcloses, hnotified]) (by simp [hcloses, hnotified])⟩
  | @again f f' f'' s v vs outcome sessions hattends hcloses hphase hnotified hnot _ ih =>
      have hf' := hattends.not_finished hf hnot
      obtain ⟨landmarks, hlandmarks, hconcludes⟩ := ih (by rw [waiting, progress_afterSession]; exact hf')
      rw [landmarks_waiting hf', hattends.landmarks_eq, List.append_assoc, List.append_assoc] at hlandmarks
      rw [options_waiting, hattends.options_eq] at hconcludes
      exact ⟨_, hlandmarks, hconcludes.cons hnot hcloses hphase hnotified _⟩

/-- However a run of a follower with accepted options goes, its end is the one that its sessions call for. Every
session begins, and follows one that ended before the height to stop before was reached and with the word that
another attempt makes sense. The run has finished exactly if a block has reached the height to stop before; it has
failed exactly if a session ended with the word that another attempt makes no sense; in both cases the follower was
not asked to stop. No block, no session and no delay comes after the block that reaches the height to stop before. -/
theorem run_concludes (o : Options) (h : o.Accepted) (visits : List Visit) :
    Concludes o.stream.stopBefore visits ((start o).run visits).1 ((start o).run visits).2.1
      ((start o).run visits).2.2.landmarks ((start o).run visits).2.2.progress.finished := by
  obtain ⟨url, hlocation⟩ := h.checked.location_ok
  obtain ⟨t, ht⟩ := exists_ofEndpoint hlocation
  have hran := run_ran (f := start o) ht rfl visits
  obtain ⟨landmarks, hlandmarks, hconcludes⟩ := hran.concludes rfl
  rw [hlandmarks]
  exact hconcludes

/-- A session that does not find its node. -/
def lostVisit : Visit := ⟨[.nothing, .opened (.error "no such host"), .nothing], Delay.minJitter⟩

/-- A schema of a node that tells its status and reports blocks. -/
def followedSchema : String :=
  "[\"eosio::abi/1.1\",[],[[\"get_status_request_v0\",\"\",[]],[\"get_blocks_result_v0\",\"\",[]]],"
    ++ "[[\"request\",[\"get_status_request_v0\"]],[\"result\",[\"get_blocks_result_v0\"]]],[]]"

/-- A session that brings the block of a height. -/
def visitAt (height : UInt32) : Visit where
  turns := .nothing :: List.replicate 3 (.opened (.ok ())) ++
    [.received (.data (Bytes.ofText followedSchema)), .nothing, .received (.data (0 :: (reportAt height).encode)),
      .nothing]
  jitter := Delay.minJitter

theorem concludes_bounded : ((start .bounded).run [lostVisit, visitAt 4]).1 = .finished ∧
    Concludes 5 [lostVisit, visitAt 4] ((start .bounded).run [lostVisit, visitAt 4]).1
      ((start .bounded).run [lostVisit, visitAt 4]).2.1 ((start .bounded).run [lostVisit, visitAt 4]).2.2.landmarks
      ((start .bounded).run [lostVisit, visitAt 4]).2.2.progress.finished :=
  ⟨by decide +kernel, run_concludes .bounded Options.accepted_bounded _⟩

end Follower

end StateHistory
