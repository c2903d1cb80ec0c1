import StateHistory.Proofs.Session.Occurrence

/-! # The history of a session

The history of a run is the list of its occurrences, in the order in which the turns came to them
(`Session.occurrences`). An `account` reads a history from its beginning until something in it ends the
session, and says what the consumer was told until then; it knows nothing of queues, phases or traces, and
the consumer only through its answers.

`account_history` says that a session is what the account of its history makes of it: the consumer was
told exactly the calls of the account, the session ended as the account ends, and nothing was looked at
after the end. -/

namespace StateHistory

/-- The ending that an occurrence other than a data frame leads to, if it leads to one. -/
def Occurrence.ending? : Occurrence → Option Ending
  | .command (.close retry) => some (.requested retry)
  | .command (.send _) => none
  | .opening step (.error text) => some (.transport step text)
  | .opening _ (.ok ()) => none
  | .writing (.error text) => some (.transport Session.writeStep text)
  | .writing (.ok ()) => none
  | .incoming i => i.fault?

namespace Session

variable {σ : Type}

/-- What a move deals with. Somebody who uses a handle is not dealt with before a turn comes to it. -/
def Move.occurrence? (s : Session) : Move σ → Option Occurrence
  | .turn r => s.occurrence? r
  | .use _ => none

/-- The history of a run. -/
def occurrences (c : Consumer σ) : List (Move σ) → Session → σ → List Occurrence
  | [], _, _ => []
  | m :: ms, s, k => (m.occurrence? s).toList ++ occurrences c ms (move c m s k).1 (move c m s k).2

/-! ### Accounts -/

/-- What a history comes to. -/
structure Account where
  /-- What the consumer is told. -/
  calls : List Call
  ending : Option Ending
  /-- What comes after the end. -/
  unread : List Occurrence

/-- The account with calls before it. -/
def Account.after (calls : List Call) (a : Account) : Account := { a with calls := calls ++ a.calls }

/-- The account of a history, for a consumer that gives the answers in turn. The first data frame is the
schema; its catalog is the one under which every later data frame is read. -/
def account : Option Schema.Catalog → List Occurrence → List (Except Failure Flow) → Account
  | _, [], _ => ⟨[], none, []⟩
  | catalog, .incoming (.data frame) :: os, answers =>
    match callFor catalog frame with
    | .error e => ⟨[], some (.protocol e), os⟩
    | .ok call =>
      match answers with
      | [] => ⟨[call], none, os⟩
      | answer :: answers =>
        match call.ending? answer with
        | some e => ⟨[call], some e, os⟩
        | none => (account (catalogAfter catalog frame) os answers).after [call]
  | catalog, o :: os, answers =>
    match o.ending? with
    | some e => ⟨[], some e, os⟩
    | none => account catalog os answers

/-- The account of what follows when the session may have ended before. -/
def accountFrom (ending : Option Ending) (catalog : Option Schema.Catalog) (os : List Occurrence)
    (answers : List (Except Failure Flow)) : Account :=
  match ending with
  | some e => ⟨[], some e, os⟩
  | none => account catalog os answers

theorem account_cons {o : Occurrence} (h : ∀ frame, o ≠ .incoming (.data frame))
    (catalog : Option Schema.Catalog) (os : List Occurrence) (answers : List (Except Failure Flow)) :
    account catalog (o :: os) answers = accountFrom o.ending? catalog os answers := by
  rw [account.eq_3 _ _ _ _ h]
  rfl

theorem account_refused {catalog : Option Schema.Catalog} {frame : Bytes} {e : ProtocolError}
    (h : callFor catalog frame = .error e) (os : List Occurrence) (answers : List (Except Failure Flow)) :
    account catalog (.incoming (.data frame) :: os) answers = ⟨[], some (.protocol e), os⟩ := by
  rw [account, h]

theorem account_told {catalog : Option Schema.Catalog} {frame : Bytes} {call : Call}
    (h : callFor catalog frame = .ok call) (os : List Occurrence) (answer : Except Failure Flow)
    (answers : List (Except Failure Flow)) :
    account catalog (.incoming (.data frame) :: os) (answer :: answers) =
      (accountFrom (call.ending? answer) (catalogAfter catalog frame) os answers).after [call] := by
  rw [account, h]
  dsimp only
  cases call.ending? answer <;> simp [accountFrom, Account.after]

/-! ### Runs and their accounts -/

variable {c : Consumer σ} {s : Session} {k : σ}

theorem seen_closedWith {α : Type} {view : Event → Option α} {s : Session} {e : Ending}
    {uses reports : List Event} (hv : ∀ {e : Event}, e.isPlain → view e = none)
    (hc : ∀ retry, view (.closeRequested retry) = none) (hn : ∀ retry, view (.notified retry) = none)
    (hu : ∀ e ∈ uses, ∃ retry, e = .closeRequested retry) (hr : ∀ e ∈ reports, e.isPlain) :
    (s.closedWith e uses reports).seen view = s.seen view := by
  have huses : uses.filterMap view = [] := by
    rw [List.filterMap_eq_nil_iff]
    intro x hx
    obtain ⟨retry, rfl⟩ := hu x hx
    exact hc retry
  have hend : view (.ended e) = none := hv rfl
  simp only [seen, closedWith, List.filterMap_append, List.filterMap_cons, List.cons_append, hend,
    hn, huses, Event.filterMap_plain hv hr, List.append_nil]

/-- What leads from `s` to `s'` is accounted for by one occurrence. -/
def Accounts (s : Session) (o : Option Occurrence) (s' : Session) : Prop :=
  ∃ calls answers, s'.calls = s.calls ++ calls ∧ s'.answers = s.answers ++ answers ∧
    answers.length = calls.length ∧ ∀ os more, accountFrom s.ending s.catalog (o.toList ++ os) (answers ++ more) =
      (accountFrom s'.ending s'.catalog os more).after calls

theorem accounts_of_ending {o : Occurrence} {s' : Session} (he : s.ending = none)
    (h : ∀ frame, o ≠ .incoming (.data frame)) (he' : s'.ending = o.ending?)
    (hcat : s'.catalog = s.catalog) (hc : s'.calls = s.calls) (ha : s'.answers = s.answers) :
    s.Accounts (some o) s' := by
  refine ⟨[], [], by simp [hc], by simp [ha], rfl, fun os more => ?_⟩
  rw [he, he', hcat]
  exact account_cons h _ _ _

theorem accounts_none {s' : Session} (he : s'.ending = s.ending) (hcat : s'.catalog = s.catalog)
    (hc : s'.calls = s.calls) (ha : s'.answers = s.answers) : s.Accounts none s' :=
  ⟨[], [], by simp [hc], by simp [ha], rfl, fun os more => by rw [he, hcat]; rfl⟩

theorem accounts_meet {o : Occurrence} {s' : Session} {e : Ending} (he : s.ending = none)
    (h : ∀ frame, o ≠ .incoming (.data frame)) (ho : o.ending? = some e)
    (hcat : s'.catalog = s.catalog) (hc : s'.calls = s.calls) (ha : s'.answers = s.answers) :
    s.Accounts (some o) (s'.meet e) :=
  accounts_of_ending he h (by rw [ending_meet, ho]) (by rw [catalog_meet, hcat])
    (by rw [← hc]; exact seen_meet _ _ Event.call?_of_isPlain _)
    (by rw [← ha]; exact seen_meet _ _ Event.answer?_of_isPlain _)

theorem Turned.accounts {o : Option Occurrence} {p : Session × σ} (h : Turned c s k o p) :
    s.Accounts o p.1 := by
  cases h with
  | idle => exact accounts_none rfl rfl rfl rfl
  | begun hp he =>
      exact accounts_none rfl rfl (by simp [seen, enter, Event.call?])
        (by simp [seen, enter, Event.answer?])
  | dropped frame rest he hp hq =>
      exact accounts_of_ending he (by simp) he rfl (by simp [seen, note, Event.call?])
        (by simp [seen, note, Event.answer?])
  | closed retry rest he hq => exact accounts_meet he (by simp) rfl rfl rfl rfl
  | advanced step reports he hp hq hr =>
      exact accounts_of_ending he (by simp) he rfl
        (by simp [seen, Event.filterMap_plain Event.call?_of_isPlain hr])
        (by simp [seen, Event.filterMap_plain Event.answer?_of_isPlain hr])
  | openingFailed step text he hp hq => exact accounts_meet he (by simp) rfl rfl rfl rfl
  | taken frame rest he hp hq => exact accounts_of_ending he (by simp) he rfl rfl rfl
  | handed room he hp hq => exact accounts_none rfl rfl rfl rfl
  | flushed room he hp hq ho => exact accounts_of_ending he (by simp) he rfl rfl rfl
  | writeFailed room text he hp hq => exact accounts_meet he (by simp) rfl rfl rfl rfl
  | ignored room he hp hq => exact accounts_of_ending he (by simp) he rfl rfl rfl
  | broken room i e he hp hq hi =>
      refine accounts_meet he ?_ hi rfl rfl rfl
      rintro frame h
      cases h
      cases hi
  | refused room frame error report he hp hq hf hr =>
      refine ⟨[], [], ?_, ?_, rfl, fun os more => ?_⟩ <;> dsimp only [Session.calls, Session.answers]
      · rw [seen_meet _ _ Event.call?_of_isPlain, seen_note, Event.call?_of_isPlain hr]
        rfl
      · rw [seen_meet _ _ Event.answer?_of_isPlain, seen_note, Event.answer?_of_isPlain hr]
        rfl
      · rw [he, ending_meet]
        exact account_refused hf _ _
  | told room frame call reports outcome k' s' he hp hq hf hr hrun =>
      obtain ⟨uses, huses, rfl⟩ := Handle.used_of_run hrun
      refine ⟨[call], [outcome], ?_, ?_, rfl, fun os more => ?_⟩ <;> dsimp only [Session.calls, Session.answers]
      · rw [seen_answered Event.call?_of_isPlain, seen_used_unseen _ (fun _ _ => rfl) (fun _ => rfl) huses,
          seen_note, seen_accepting Event.call?_of_isPlain hr]
        exact List.append_nil _
      · rw [seen_answered Event.answer?_of_isPlain, seen_used_unseen _ (fun _ _ => rfl) (fun _ => rfl) huses,
          seen_note, seen_accepting Event.answer?_of_isPlain hr]
        exact congrArg (· ++ _) (List.append_nil _)
      · have hend : ((((s.hand room).accepting frame reports).note (.called call)).used uses).ending = none := he
        rw [he, ending_answered, catalog_answered, hend, Option.or_none]
        exact account_told hf _ _ _
  | finished e uses reports hp he hu hr =>
      refine accounts_none rfl rfl ?_ ?_
      · exact seen_closedWith Event.call?_of_isPlain (fun _ => rfl) (fun _ => rfl) hu hr
      · exact seen_closedWith Event.answer?_of_isPlain (fun _ => rfl) (fun _ => rfl) hu hr

theorem move_accounts (hs : s.Coherent) (m : Move σ) :
    s.Accounts (m.occurrence? s) (move c m s k).1 := by
  match m with
  | .turn r => exact (turn_turned (c := c) (k := k) (r := r) hs).accounts
  | .use h =>
      obtain ⟨es, hes, hused⟩ := move_use (c := c) h s k
      rw [hused]
      refine accounts_none rfl rfl ?_ ?_
      · exact seen_used_unseen _ (fun _ _ => rfl) (fun _ => rfl) hes
      · exact seen_used_unseen _ (fun _ _ => rfl) (fun _ => rfl) hes

/-- A session is what the account of its history makes of it. -/
theorem account_occurrences (hs : s.Coherent) (ms : List (Move σ)) :
    ∃ calls answers, (moves c ms s k).1.calls = s.calls ++ calls ∧
      (moves c ms s k).1.answers = s.answers ++ answers ∧ answers.length = calls.length ∧
      accountFrom s.ending s.catalog (occurrences c ms s k) answers
        = ⟨calls, (moves c ms s k).1.ending, []⟩ := by
  induction ms generalizing s k with
  | nil =>
      refine ⟨[], [], by simp [moves], by simp [moves], rfl, ?_⟩
      cases he : s.ending <;> simp [accountFrom, occurrences, account, moves, he]
  | cons m ms ih =>
      obtain ⟨calls, answers, hc, ha, hl, hstep⟩ := move_accounts (c := c) (k := k) hs m
      obtain ⟨calls', answers', hc', ha', hl', hrest⟩ := ih (hs.move m) (k := (move c m s k).2)
      rw [moves_cons]
      refine ⟨calls ++ calls', answers ++ answers', ?_, ?_, ?_, ?_⟩
      · rw [hc', hc, List.append_assoc]
      · rw [ha', ha, List.append_assoc]
      · rw [List.length_append, List.length_append, hl, hl']
      · rw [occurrences, hstep, hrest]
        rfl

/-! ### Whole lives -/

/-- The session after moves from its beginning. -/
abbrev lived (c : Consumer σ) (t : Target) (ms : List (Move σ)) (k : σ) : Session :=
  (moves c ms (start t) k).1

/-- The history of a session from its beginning. -/
abbrev history (c : Consumer σ) (t : Target) (ms : List (Move σ)) (k : σ) : List Occurrence :=
  occurrences c ms (start t) k

variable (c : Consumer σ) (t : Target) (ms : List (Move σ)) (k : σ)

theorem lived_coherent : (lived c t ms k).Coherent := (start_coherent t).moves ms

theorem account_history : account none (history c t ms k) (lived c t ms k).answers
    = ⟨(lived c t ms k).calls, (lived c t ms k).ending, []⟩ := by
  obtain ⟨calls, answers, hc, ha, -, h⟩ := account_occurrences (c := c) (k := k) (start_coherent t) ms
  rw [lived, hc, ha]
  exact h

/-- Every call of a session has been answered. -/
theorem length_answers : (lived c t ms k).answers.length = (lived c t ms k).calls.length := by
  obtain ⟨calls, answers, hc, ha, hl, -⟩ := account_occurrences (c := c) (k := k) (start_coherent t) ms
  rw [lived, hc, ha, List.length_append, List.length_append, hl]
  rfl

/-! ### A session that streams -/

/-- What happens while a session opens. -/
def openingTrace : List Event :=
  [.began, .entered .disconnected .resolving, .entered .resolving .connecting, .entered .connecting .handshaking,
    .entered .handshaking .awaitingSchema, .opened]

/-- A session that has opened and accepted a schema. -/
def accepted (t : Target) (catalog : Schema.Catalog) : Session :=
  { start t with
    phase := .streaming
    catalog := some catalog
    trace := openingTrace ++ [.schemaAccepted catalog.version catalog.size, .entered .awaitingSchema .streaming] }

theorem moves_of_schema {frame : Bytes} {catalog : Schema.Catalog}
    (hparse : Frame.parseSchema frame = .ok (catalog, [])) (c : Consumer σ) (t : Target) (ms : List (Move σ)) (k : σ) :
    moves c (openingMoves [.ok (), .ok (), .ok ()] ++ .turn (.received (.data frame)) :: ms) (start t) k =
      moves c ms (tell c .schema (accepted t catalog) k).1 (tell c .schema (accepted t catalog) k).2 := by
  have hreceive : receiveSchema c frame { start t with phase := .awaitingSchema, trace := openingTrace } k =
      tell c .schema (accepted t catalog) k := by
    rw [receiveSchema, hparse]
    rfl
  rw [← hreceive]
  rfl

/-- A consumer that only listens. -/
def listener : Consumer Unit where
  onSchema := fun k => .done (.ok (), k)
  onStatus := fun _ _ k => .done (.ok .proceed, k)
  onBlocks := fun _ _ k => .done (.ok .proceed, k)
  onEnd := fun _ k => .done (none, k)

/-- A place to connect to. -/
def somewhere : Target where
  endpoint := ⟨"node", "8080"⟩
  host := "node"
  port := 8080
  url := ⟨[], .domain "node".toList, some 8080, "/".toList, [], []⟩

/-- Somebody asks for the status. -/
def askStatus : Move Unit := .use fun _ => Handle.requestStatus.bind fun _ => .done ()

/-- A schema of a node that tells its status. -/
def nodeSchema : String :=
  "[\"eosio::abi/1.1\",[],[[\"get_status_request_v0\"],[\"get_status_result_v0\"]],"
    ++ "[[\"request\",[\"get_status_request_v0\"]],[\"result\",[\"get_status_result_v0\"]]]]"

/-- The status of a node that has the blocks from 3 to 8. -/
def nodeStatus : ChainStatus := ⟨⟨8, .fill 32 8⟩, ⟨6, .fill 32 6⟩, ⟨3, 9⟩, ⟨3, 9⟩⟩

/-- The frame of the status. -/
def statusFrame : Bytes := 0 :: nodeStatus.encode

/-- A session opens and streams. Its owner asks for the status before the schema is there, when it is there, and after
the first answer; the socket has taken one of the requests by then. -/
def streamingMoves : List (Move Unit) :=
  openingMoves [.ok (), .ok (), .ok ()] ++
    [askStatus, .turn .nothing, .turn (.received .control), .turn (.received (.data (Bytes.ofText nodeSchema))),
      askStatus, .turn .nothing, .turn (.writable 1), .turn (.received (.data statusFrame)), askStatus]

/-- The node leaves the session. -/
def leavingMoves : List (Move Unit) :=
  streamingMoves ++ [.turn .nothing, .turn (.received .closing), .turn .nothing]

theorem lived_streaming_leaving :
    ((lived listener somewhere streamingMoves ()).phase = .streaming ∧
      (lived listener somewhere streamingMoves ()).ending = none ∧
      (lived listener somewhere streamingMoves ()).written = [[0]] ∧
      (lived listener somewhere streamingMoves ()).outbound = [[0]] ∧
      (lived listener somewhere streamingMoves ()).queue = [.send [0]] ∧
      ((lived listener somewhere streamingMoves ()).send .status).toOption.isSome ∧
      ((lived listener somewhere streamingMoves ()).send (.acknowledge 1)).toOption.isNone) ∧
    (lived listener somewhere leavingMoves ()).trace =
        [.began, .entered .disconnected .resolving, .entered .resolving .connecting,
          .entered .connecting .handshaking, .entered .handshaking .awaitingSchema, .opened, .accepted .status [0],
          .schemaAccepted "eosio::abi/1.1" 35, .entered .awaitingSchema .streaming, .called .schema,
          .answered (.ok .proceed), .accepted .status [0], .called (.status nodeStatus statusFrame),
          .answered (.ok .proceed), .accepted .status [0], .unsent 2,
          .ended (.transport "async_read" "connection closed by peer"), .notified true,
          .entered .streaming .closed] ∧
      history listener somewhere leavingMoves () =
        [.opening "resolve" (.ok ()), .opening "connect" (.ok ()), .opening "handshake" (.ok ()), .command (.send [0]),
          .incoming .control, .incoming (.data (Bytes.ofText nodeSchema)), .command (.send [0]),
          .incoming (.data statusFrame), .command (.send [0]), .incoming .closing] := by
  decide +kernel

end Session

end StateHistory
