import StateHistory.Proofs.Follow.Outcome
import StateHistory.Proofs.Number.Binary64

/-! # How delays grow over a run

The delay that a follower waits after a session is drawn from a value that grows from session to session, and goes
back to where it started after a session that brought a block. `ReconnectOptions.backoff` is that value after a
number of steps; `run_delays` says how many steps there were: as many as there are sessions after the last one that
brought a block, or, if no session brought any, as many as there are sessions before. With accepted options the value
is positive and keeps below the largest delay (`backoff_bounds`). -/

namespace StateHistory

namespace ReconnectOptions

variable {r : ReconnectOptions}

/-- The value of the delay after one session more. -/
def grow (r : ReconnectOptions) (millis : Nat) : Nat := min r.maxDelay.toNat (Delay.scaled millis r.factor)

/-- The value of the delay that has grown a number of times. -/
def backoff (r : ReconnectOptions) (steps : Nat) : Nat := r.grow^[steps] r.initialDelay.toNat

theorem backoff_succ (r : ReconnectOptions) (steps : Nat) : r.backoff (steps + 1) = r.grow (r.backoff steps) :=
  Function.iterate_succ_apply' _ _ _

/-- The delays of a client whose value has grown a number of times. -/
def delayAt (r : ReconnectOptions) (steps : Nat) : Delay := { r.delay with current := r.backoff steps }

theorem delayAt_zero (h : r.initialDelay.toNat ≤ r.maxDelay.toNat) : r.delayAt 0 = r.delay := by
  rw [delayAt, delay, Delay.start, Nat.min_eq_left h]
  rfl

theorem next_delayAt (r : ReconnectOptions) (steps : Nat) : (r.delayAt steps).next = r.delayAt (steps + 1) := by
  rw [delayAt, delayAt, backoff_succ, grow, Nat.min_comm]
  rfl

theorem reset_delayAt (h : r.initialDelay.toNat ≤ r.maxDelay.toNat) (steps : Nat) :
    (r.delayAt steps).reset = r.delayAt 0 := by
  rw [delayAt_zero h]
  rfl

end ReconnectOptions

theorem Delay.scaled_pos {millis : Nat} {factor : Binary64} (h : 0 < millis) (hfactor : factor.AtLeastOne) :
    0 < Delay.scaled millis factor :=
  ((Binary64.atLeastOne_ofNat h).mul hfactor).truncate_pos

theorem Options.Checked.backoff_bounds {o : Options} (h : o.Checked) (steps : Nat) :
    1 ≤ o.reconnect.backoff steps ∧ o.reconnect.backoff steps ≤ o.reconnect.maxDelay.toNat := by
  have hfactor := Binary64.atLeastOne_of_not_lt h.factor_number h.factor_ge
  induction steps with
  | zero => exact ⟨h.initialDelay_pos, h.initialDelay_le⟩
  | succ steps ih =>
      have hmax := Nat.lt_of_lt_of_le h.initialDelay_pos h.initialDelay_le
      rw [ReconnectOptions.backoff_succ, ReconnectOptions.grow]
      exact ⟨Nat.le_min.mpr ⟨hmax, Delay.scaled_pos ih.1 hfactor⟩, Nat.min_le_left _ _⟩

namespace Follower

variable {r : ReconnectOptions} {f f' : Follower} {s : Session} {sessions : List Session} {visits : List Visit}
  {outcome : Outcome}

/-- The delays that a follower has waited, the oldest first. -/
def delays (f : Follower) : List Nat := f.landmarks.filterMap Sum.getRight?

/-- The delays that are waited between sessions, if the value of the delay has grown `grown` times before the first
one. -/
structure Backs (r : ReconnectOptions) (grown : Nat) (visits : List Visit) (sessions : List Session)
    (delays : List Nat) : Prop where
  length_le : delays.length ≤ sessions.length
  /-- A delay is waited before every session but the first one. -/
  waits : ∀ before s next after, sessions = before ++ s :: next :: after → before.length < delays.length
  /-- What a delay is drawn from. -/
  drawn : ∀ before s after millis, sessions = before ++ s :: after → delays[before.length]? = some millis →
    ∃ v, visits[before.length]? = some v ∧
      (∀ earlier last later, before ++ [s] = earlier ++ last :: later → recorded last.trace ≠ [] →
        (∀ x ∈ later, recorded x.trace = []) → millis = Delay.scaled (r.backoff later.length) v.jitter) ∧
      ((∀ x ∈ before ++ [s], recorded x.trace = []) →
        millis = Delay.scaled (r.backoff (before.length + grown)) v.jitter)

theorem backs_of_no_delay {grown : Nat} (h : sessions.length ≤ 1) : Backs r grown visits sessions [] where
  length_le := Nat.zero_le _
  waits := by
    rintro before s next after rfl
    simp only [List.length_append, List.length_cons] at h
    omega
  drawn := by
    intro before s after millis _ hmillis
    rw [List.getElem?_nil] at hmillis
    cases hmillis

theorem Backs.cons {grown steps : Nat} {delays : List Nat} {v : Visit} (h : Backs r (steps + 1) visits sessions delays)
    (hsteps : steps = if recorded s.trace = [] then grown else 0) :
    Backs r grown (v :: visits) (s :: sessions) (Delay.scaled (r.backoff steps) v.jitter :: delays) := by
  constructor
  case length_le => exact Nat.succ_le_succ h.length_le
  case waits =>
    intro before s' next after hsplit
    match before with
    | [] => exact Nat.succ_pos _
    | first :: before => exact Nat.succ_lt_succ (h.waits before s' next after (List.cons.inj hsplit).2)
  case drawn =>
    intro before s' after millis hsplit hmillis
    match before with
    | [] =>
        obtain ⟨rfl, -⟩ := List.cons.inj hsplit
        obtain rfl : Delay.scaled (r.backoff steps) v.jitter = millis := Option.some.inj hmillis
        refine ⟨v, rfl, ?_, ?_⟩
        · intro earlier last later hlast hne _
          match earlier with
          | [] =>
              obtain ⟨rfl, rfl⟩ := List.cons.inj hlast
              rw [hsteps, if_neg hne]
              rfl
          | _ :: earlier => cases earlier <;> cases (List.cons.inj hlast).2
        · intro hnone
          rw [hsteps, if_pos (hnone s (List.mem_singleton_self s)), List.length_nil, Nat.zero_add]
    | first :: before =>
        obtain ⟨rfl, hrest⟩ := List.cons.inj hsplit
        obtain ⟨v', hv', hlast', hnone'⟩ := h.drawn before s' after millis hrest hmillis
        refine ⟨v', hv', ?_, ?_⟩
        · intro earlier last later hlast hne hlater
          match earlier with
          | [] =>
              obtain ⟨rfl, rfl⟩ := List.cons.inj hlast
              have hlength : (before.append [s']).length = before.length + 1 := List.length_append
              rw [hnone' hlater, hsteps, if_neg hne, hlength]
          | _ :: earlier => exact hlast' earlier last later (List.cons.inj hlast).2 hne hlater
        · intro hnone
          obtain ⟨hfirst, hothers⟩ := List.forall_mem_cons.mp hnone
          rw [hnone' hothers, hsteps, if_pos hfirst, List.length_cons, Nat.add_right_comm, Nat.add_assoc]

/-- The delays of a follower whose value has grown a number of times. -/
theorem Attends.delayAfter_eq {grown : Nat} (h : f.Attends s f') (hdelay : f.delay = r.delayAt grown)
    (hr : r.initialDelay.toNat ≤ r.maxDelay.toNat) : f'.delayAfter f.progress.received =
      r.delayAt (if recorded s.trace = [] then grown else 0) := by
  unfold delayAfter
  rw [h.received_eq, h.delay_eq, hdelay, r.reset_delayAt hr]
  cases recorded s.trace with
  | nil => simp
  | cons b bs => simp

theorem Ran.backs {grown : Nat} (h : Ran f visits outcome sessions f') (hf : f.progress.finished = false)
    (hdelay : f.delay = r.delayAt grown) (hr : r.initialDelay.toNat ≤ r.maxDelay.toNat) :
    ∃ delays, f'.delays = f.delays ++ delays ∧ Backs r grown visits sessions delays := by
  have hblocks : ∀ blocks : List (BlockPosition × UInt32),
      (blocks.map (Sum.inl : _ → BlockPosition × UInt32 ⊕ Nat)).filterMap Sum.getRight? = [] := by
    simp [List.filterMap_map, Function.comp_def]
  have hattended : ∀ {f f' : Follower} {s : Session}, f.Attends s f' → f'.delays = f.delays := by
    intro f f' s h
    rw [delays, h.landmarks_eq, List.filterMap_append, hblocks, List.append_nil]
    rfl
  induction h generalizing grown with
  | none_left => exact ⟨[], (List.append_nil _).symm, backs_of_no_delay (Nat.zero_le 1)⟩
  | left hattends | failed hattends =>
      exact ⟨[], by rw [hattended hattends, List.append_nil], backs_of_no_delay (Nat.le_refl 1)⟩
  | finished hattends =>
      refine ⟨[], ?_, backs_of_no_delay (Nat.le_refl 1)⟩
      rw [delays, landmarks_note, List.append_nil, ← hattended hattends]
      exact congrArg _ (List.append_nil _)
  | @again f f' f'' s v vs outcome sessions hattends hcloses hphase hnotified hnot _ ih =>
      have hf' := hattends.not_finished hf hnot
      have hafter := hattends.delayAfter_eq hdelay hr
      obtain ⟨delays', hdelays', hbacks⟩ := ih (by rw [waiting, progress_afterSession]; exact hf')
        (by rw [waiting_eq hf', hafter]; exact r.next_delayAt _)
      refine ⟨_, ?_, hbacks.cons rfl⟩
      rw [hdelays', delays, landmarks_waiting hf', hafter, List.filterMap_append, List.append_cons,
        ← hattended hattends]
      rfl

/-- The delay after a session of a run is drawn from the smallest delay, grown once for every session after the last
one that brought a block; or, if none has brought any yet, for every session before. What delays are drawn from is at
least one millisecond and at most the largest delay. -/
theorem run_delays (o : Options) (h : o.Accepted) (visits : List Visit) :
    Backs o.reconnect 0 visits ((start o).run visits).2.1 ((start o).run visits).2.2.delays ∧
      ∀ steps, 1 ≤ o.reconnect.backoff steps ∧ o.reconnect.backoff steps ≤ o.reconnect.maxDelay.toNat := by
  have hchecked := h.checked
  obtain ⟨url, hlocation⟩ := hchecked.location_ok
  obtain ⟨t, ht⟩ := exists_ofEndpoint hlocation
  have hran := run_ran (f := start o) ht rfl visits
  have hdelay : (start o).delay = o.reconnect.delayAt 0 :=
    (ReconnectOptions.delayAt_zero hchecked.initialDelay_le).symm
  obtain ⟨delays, hdelays, hbacks⟩ := hran.backs rfl hdelay hchecked.initialDelay_le
  rw [hdelays]
  exact ⟨hbacks, hchecked.backoff_bounds⟩

theorem delays_bounded : ((start .bounded).run [lostVisit, lostVisit]).2.2.delays = [75, 150] ∧
    Backs Options.bounded.reconnect 0 [lostVisit, lostVisit] ((start .bounded).run [lostVisit, lostVisit]).2.1
      ((start .bounded).run [lostVisit, lostVisit]).2.2.delays ∧
    ∀ steps, 1 ≤ Options.bounded.reconnect.backoff steps ∧
      Options.bounded.reconnect.backoff steps ≤ Options.bounded.reconnect.maxDelay.toNat :=
  ⟨by decide +kernel, run_delays .bounded Options.accepted_bounded _⟩

end Follower

end StateHistory
