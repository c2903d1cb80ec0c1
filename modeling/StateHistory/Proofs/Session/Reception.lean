import StateHistory.Proofs.Session.History

/-! # What a consumer hears of the frames that come in

`expected` says what a consumer should hear, frame by frame and with nothing of a session in it: control
frames are dropped; the first other frame is a schema, and every later one is a result under that schema's
catalog; a frame that cannot be read is the last one that counts, and so is one whose call the consumer
fails, and the end of the stream.

`calls_expected` says that this is what the consumer of a session hears, whatever the session's owner and
the consumer itself do meanwhile. -/

namespace StateHistory

/-- What comes of the frames that come in. -/
structure Reception where
  /-- What the consumer is told. -/
  calls : List Call
  /-- The end, if the frames or the answers to them led to one. -/
  ending : Option Ending

/-- The data of a frame. -/
def Incoming.data? : Incoming → Option Bytes
  | .data frame => some frame
  | _ => none

/-- The frame that a call comes with. -/
def Call.frame? : Call → Option Bytes
  | .schema => none
  | .status _ frame => some frame
  | .blocks _ frame => some frame

/-- The incoming thing of an occurrence. -/
def Occurrence.incoming? : Occurrence → Option Incoming
  | .incoming i => some i
  | _ => none

namespace Reception

/-- The consumer is told something, and the rest follows if it wants to go on. -/
def hear (call : Call) (answers : List (Except Failure Flow))
    (rest : List (Except Failure Flow) → Reception) : Reception :=
  match answers with
  | [] => ⟨[call], none⟩
  | .ok .proceed :: answers => ⟨call :: (rest answers).calls, (rest answers).ending⟩
  | .ok .stop :: _ => ⟨[call], some .stopped⟩
  | .error failure :: _ => ⟨[call], some (.consumer (call.label ++ failure.message))⟩

/-- The reception of results under a catalog. -/
def results (catalog : Schema.Catalog) : List Incoming → List (Except Failure Flow) → Reception
  | [], _ => ⟨[], none⟩
  | .control :: rest, answers => results catalog rest answers
  | .data frame :: rest, answers =>
    match Frame.decodeResult catalog frame with
    | .error e => ⟨[], some (.protocol e)⟩
    | .ok (.status status, _) => hear (.status status frame) answers fun as => results catalog rest as
    | .ok (.blocks report, _) => hear (.blocks report frame) answers fun as => results catalog rest as
  | .closing :: _, _ => ⟨[], some (.transport "async_read" "connection closed by peer")⟩
  | .failed text :: _, _ => ⟨[], some (.transport "async_read" text)⟩
  | .over :: _, _ => ⟨[], some (.transport "async_read" "end of stream")⟩

/-- The reception that a consumer with the given answers should have of what comes in. -/
def expected : List Incoming → List (Except Failure Flow) → Reception
  | [], _ => ⟨[], none⟩
  | .control :: rest, answers => expected rest answers
  | .data frame :: rest, answers =>
    match Frame.parseSchema frame with
    | .error e => ⟨[], some (.protocol e)⟩
    | .ok (catalog, _) => hear .schema answers fun as => results catalog rest as
  | .closing :: _, _ => ⟨[], some (.transport "async_read" "connection closed by peer")⟩
  | .failed text :: _, _ => ⟨[], some (.transport "async_read" text)⟩
  | .over :: _, _ => ⟨[], some (.transport "async_read" "end of stream")⟩

/-! ### Its order -/

theorem hear_calls (call : Call) (answers : List (Except Failure Flow))
    (rest : List (Except Failure Flow) → Reception) :
    (hear call answers rest).calls = [call] ∨
      ∃ answers', answers = .ok .proceed :: answers' ∧
        (hear call answers rest).calls = call :: (rest answers').calls := by
  rcases answers with _ | ⟨failure | ⟨⟨⟩ | ⟨⟩⟩, answers⟩
  · exact .inl rfl
  · exact .inl rfl
  · exact .inr ⟨answers, rfl, rfl⟩
  · exact .inl rfl

/-- Results come with the frames that were received, in their order, and none is left out. -/
theorem prefix_results (catalog : Schema.Catalog) (is : List Incoming)
    (answers : List (Except Failure Flow)) :
    (results catalog is answers).calls.map Call.frame? <+: (is.filterMap Incoming.data?).map some := by
  induction is generalizing answers with
  | nil => exact List.prefix_rfl
  | cons i is ih =>
      have hdata : ∀ (call : Call) (frame : Bytes), call.frame? = some frame →
          (hear call answers fun as => results catalog is as).calls.map Call.frame?
            <+: some frame :: (is.filterMap Incoming.data?).map some := by
        intro call frame hframe
        rcases hear_calls call answers fun as => results catalog is as with h | ⟨answers', -, h⟩
        · rw [h, List.map_singleton, hframe]
          exact List.prefix_append [some frame] _
        · rw [h, List.map_cons, hframe]
          exact (List.prefix_cons_inj _).mpr (ih answers')
      match i with
      | .control => exact ih answers
      | .closing => exact List.nil_prefix
      | .failed _ => exact List.nil_prefix
      | .over => exact List.nil_prefix
      | .data frame =>
          rw [results]
          split
          · exact List.nil_prefix
          · exact hdata _ frame rfl
          · exact hdata _ frame rfl

/-- The schema comes first, and nothing follows it before the consumer has accepted it. -/
theorem expected_calls (is : List Incoming) (answers : List (Except Failure Flow)) :
    (expected is answers).calls = [] ∨
      ∃ told, (expected is answers).calls = .schema :: told ∧
        (told = [] ∨ answers.head? = some (.ok .proceed)) ∧
        told.map Call.frame? <+: (is.filterMap Incoming.data?).tail.map some := by
  induction is with
  | nil => exact .inl rfl
  | cons i is ih =>
      match i with
      | .control => exact ih
      | .closing => exact .inl rfl
      | .failed _ => exact .inl rfl
      | .over => exact .inl rfl
      | .data frame =>
          rw [expected]
          split
          · exact .inl rfl
          · rename_i catalog _ _
            right
            rcases hear_calls .schema answers fun as => results catalog is as with h | ⟨answers', ha, h⟩
            · exact ⟨[], h, .inl rfl, List.nil_prefix⟩
            · refine ⟨_, h, .inr (by rw [ha]; rfl), ?_⟩
              exact prefix_results catalog is answers'

/-! ### Its account -/

/-- The reception of what comes in after a catalog was accepted, or while there is none. -/
def under (catalog : Option Schema.Catalog) (is : List Incoming) (answers : List (Except Failure Flow)) :
    Reception :=
  match catalog with
  | none => expected is answers
  | some catalog => results catalog is answers

theorem under_nil (catalog : Option Schema.Catalog) (answers : List (Except Failure Flow)) :
    under catalog [] answers = ⟨[], none⟩ := by
  cases catalog <;> rfl

theorem under_fault (catalog : Option Schema.Catalog) {i : Incoming} (h : ∀ frame, i ≠ .data frame)
    (is : List Incoming) (answers : List (Except Failure Flow)) :
    under catalog (i :: is) answers =
      match i.fault? with
      | some e => ⟨[], some e⟩
      | none => under catalog is answers := by
  match i, h with
  | .data frame, h => exact absurd rfl (h frame)
  | .control, _ => cases catalog <;> rfl
  | .closing, _ => cases catalog <;> rfl
  | .failed text, _ => cases catalog <;> rfl
  | .over, _ => cases catalog <;> rfl

theorem under_data (catalog : Option Schema.Catalog) (frame : Bytes) (is : List Incoming)
    (answers : List (Except Failure Flow)) :
    under catalog (.data frame :: is) answers =
      match Session.callFor catalog frame with
      | .error e => ⟨[], some (.protocol e)⟩
      | .ok call => hear call answers fun as => under (Session.catalogAfter catalog frame) is as := by
  cases catalog with
  | none =>
      rw [under, expected, Session.callFor, Session.catalogAfter]
      cases Frame.parseSchema frame <;> rfl
  | some catalog =>
      rw [under, results, Session.callFor, Session.catalogAfter]
      rcases Frame.decodeResult catalog frame with e | ⟨status | report, entries⟩ <;> rfl

theorem hear_cons (call : Call) (answer : Except Failure Flow) (answers : List (Except Failure Flow))
    (rest : List (Except Failure Flow) → Reception) :
    hear call (answer :: answers) rest =
      match call.ending? answer with
      | some e => ⟨[call], some e⟩
      | none => ⟨call :: (rest answers).calls, (rest answers).ending⟩ := by
  rcases answer with failure | ⟨⟨⟩ | ⟨⟩⟩ <;> rfl

end Reception

namespace Session

/-- How an account that leaves nothing unread compares to a reception: there are the same calls, and the
end is the same if the reception has one; else it may come from what did not come in. -/
def Account.Meets (a : Account) (r : Reception) (os : List Occurrence) : Prop :=
  a.calls = r.calls ∧
    (a.ending = r.ending ∨
      r.ending = none ∧ ∃ o ∈ os, o.incoming? = none ∧ o.ending? = a.ending)

theorem Account.Meets.cons {a : Account} {r : Reception} {os : List Occurrence} (h : a.Meets r os)
    (o : Occurrence) : a.Meets r (o :: os) := by
  obtain ⟨hcalls, he | ⟨hr, o', hmem, ho'⟩⟩ := h
  · exact ⟨hcalls, .inl he⟩
  · exact ⟨hcalls, .inr ⟨hr, o', List.mem_cons_of_mem o hmem, ho'⟩⟩

theorem Account.Meets.after {a : Account} {r : Reception} {os : List Occurrence} (h : a.Meets r os)
    (call : Call) : (a.after [call]).Meets ⟨call :: r.calls, r.ending⟩ os :=
  ⟨by rw [Account.after, h.1]; rfl, h.2⟩

/-- An account that reads a whole history is the reception of what came in. -/
theorem account_meets {os : List Occurrence} {catalog : Option Schema.Catalog}
    {answers : List (Except Failure Flow)} (h : (account catalog os answers).unread = []) :
    (account catalog os answers).Meets
      (Reception.under catalog (os.filterMap Occurrence.incoming?) answers) os := by
  induction os generalizing catalog answers with
  | nil =>
      rw [List.filterMap_nil, Reception.under_nil]
      cases catalog <;> exact ⟨rfl, .inl rfl⟩
  | cons o os ih =>
      by_cases hdata : ∃ frame, o = .incoming (.data frame)
      · obtain ⟨frame, rfl⟩ := hdata
        rw [show (Occurrence.incoming (.data frame) :: os).filterMap Occurrence.incoming?
          = .data frame :: os.filterMap Occurrence.incoming? from rfl, Reception.under_data]
        cases hf : callFor catalog frame with
        | error e =>
            rw [account_refused hf]
            exact ⟨rfl, .inl rfl⟩
        | ok call =>
            match answers with
            | [] =>
                rw [account, hf]
                exact ⟨rfl, .inl rfl⟩
            | answer :: answers =>
                rw [account_told hf] at h ⊢
                dsimp only
                rw [Reception.hear_cons]
                cases he : call.ending? answer with
                | some e => exact ⟨rfl, .inl rfl⟩
                | none =>
                    rw [he] at h
                    exact ((ih h).after call).cons _
      · have hne : ∀ frame, o ≠ .incoming (.data frame) := fun frame ho => hdata ⟨frame, ho⟩
        rw [account_cons hne] at h ⊢
        cases hi : o.incoming? with
        | some i =>
            obtain rfl : o = .incoming i := by
              cases o <;> simp_all [Occurrence.incoming?]
            rw [List.filterMap_cons_some hi,
              Reception.under_fault _ (fun frame hframe => hne frame (by rw [hframe]))]
            rw [show (Occurrence.incoming i).ending? = i.fault? from rfl] at h ⊢
            cases hfault : i.fault? with
            | some e => exact ⟨rfl, .inl rfl⟩
            | none =>
                rw [hfault] at h
                exact (ih h).cons _
        | none =>
            rw [List.filterMap_cons_none hi]
            cases he : o.ending? with
            | some e =>
                rw [he] at h
                obtain rfl : os = [] := h
                rw [List.filterMap_nil, Reception.under_nil]
                exact ⟨rfl, .inr ⟨rfl, o, List.mem_singleton_self o, hi, he⟩⟩
            | none =>
                rw [he] at h
                exact (ih h).cons _

/-! ### Whole lives -/

variable {σ : Type} (c : Consumer σ) (t : Target) (ms : List (Move σ)) (k : σ)

/-- What a session has looked at of what came in, in order. -/
def received : List Incoming := (history c t ms k).filterMap Occurrence.incoming?

/-- A consumer hears what it should hear of the frames that a session received: no frame is left out,
doubled or out of its place, and nothing precedes the schema. The session ends as the reception does,
unless opening it or writing failed, or a close was asked for. -/
theorem calls_expected :
    (lived c t ms k).calls = (Reception.expected (received c t ms k) (lived c t ms k).answers).calls ∧
      (lived c t ms k).answers.length = (lived c t ms k).calls.length ∧
      ((lived c t ms k).ending
          = (Reception.expected (received c t ms k) (lived c t ms k).answers).ending ∨
        (Reception.expected (received c t ms k) (lived c t ms k).answers).ending = none ∧
          ((∃ step text, .opening step (.error text) ∈ history c t ms k ∧
              (lived c t ms k).ending = some (.transport step text)) ∨
            (∃ text, .writing (.error text) ∈ history c t ms k ∧
              (lived c t ms k).ending = some (.transport "async_write" text)) ∨
            ∃ retry ∈ (lived c t ms k).closeRequests,
              (lived c t ms k).ending = some (.requested retry))) ∧
      ((lived c t ms k).calls = [] ∨
        ∃ told, (lived c t ms k).calls = .schema :: told ∧
          (told = [] ∨ (lived c t ms k).answers.head? = some (.ok .proceed)) ∧
          told.map Call.frame? <+: ((received c t ms k).filterMap Incoming.data?).tail.map some) := by
  have haccount := account_history c t ms k
  have hread : (account none (history c t ms k) (lived c t ms k).answers).unread = [] := by rw [haccount]
  have hmeets := account_meets hread
  rw [haccount] at hmeets
  obtain ⟨hcalls, hending⟩ := hmeets
  change (lived c t ms k).calls = (Reception.expected (received c t ms k) _).calls at hcalls
  refine ⟨hcalls, length_answers c t ms k, ?_, ?_⟩
  · rcases hending with he | ⟨hr, o, hmem, hi, he⟩
    · exact .inl he
    · by_cases hnone : (lived c t ms k).ending = none
      · exact .inl (hnone.trans hr.symm)
      · refine .inr ⟨hr, ?_⟩
        match o with
        | .command (.send _) => exact absurd he.symm hnone
        | .command (.close retry) =>
            exact .inr (.inr ⟨retry, (lived_coherent c t ms k).close_met retry he.symm, he.symm⟩)
        | .opening _ (.ok ()) => exact absurd he.symm hnone
        | .opening step (.error text) => exact .inl ⟨step, text, hmem, he.symm⟩
        | .writing (.ok ()) => exact absurd he.symm hnone
        | .writing (.error text) => exact .inr (.inl ⟨text, hmem, he.symm⟩)
        | .incoming _ => cases hi
  · rw [hcalls]
    exact Reception.expected_calls _ _

/-- The consumer of a session that its node leaves hears the schema and the status. -/
theorem calls_of_leaving :
    received listener somewhere leavingMoves () =
        [.control, .data (Bytes.ofText nodeSchema), .data statusFrame, .closing] ∧
      (Reception.expected [.control, .data (Bytes.ofText nodeSchema), .data statusFrame, .closing]
        [.ok .proceed, .ok .proceed]).calls = [.schema, .status nodeStatus statusFrame] := by
  obtain ⟨htrace, hhistory⟩ := lived_streaming_leaving.2
  have hreceived : received listener somewhere leavingMoves () =
      [.control, .data (Bytes.ofText nodeSchema), .data statusFrame, .closing] := by
    rw [received, hhistory]
    rfl
  have hanswers : (lived listener somewhere leavingMoves ()).answers = [.ok .proceed, .ok .proceed] := by
    rw [answers, seen, htrace]
    rfl
  have hcalls : (lived listener somewhere leavingMoves ()).calls = [.schema, .status nodeStatus statusFrame] := by
    rw [calls, seen, htrace]
    rfl
  refine ⟨hreceived, ?_⟩
  rw [← hcalls, (calls_expected listener somewhere leavingMoves ()).1, hreceived, hanswers]

end Session

end StateHistory
