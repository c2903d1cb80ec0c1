import StateHistory.Proofs.Frame.Tags
import StateHistory.Proofs.Session.History

/-! # The requests of a session

Requests go out in the order in which they were accepted, each as the frame that it was accepted as
(`Session.Faithful.sent_eq`). That frame is made when the request is accepted: under the catalog if the consumer has
been told of the schema, else with the canonical tag, for there is no catalog to look it up in. What follows the schema
is therefore understood by the node; what precedes it is if the node lists the request at its canonical tag
(`written_under_schema_iff`). -/

namespace StateHistory

/-! ### Tags -/

/-- The frame of a command to send one. -/
def Command.frame? : Command → Option Bytes
  | .send frame => some frame
  | .close _ => none

theorem Request.encodeWithTag_injective {r : Request} {tag tag' : UInt32}
    (h : r.encodeWithTag tag = r.encodeWithTag tag') : tag = tag' :=
  Encoder.varuint32_injective (List.append_cancel_right h)

theorem encodeRequest_some {catalog : Schema.Catalog} {r : Request} {tag : UInt32} :
    Frame.encodeRequest (some catalog) r = .ok (r.encodeWithTag tag) ↔
      catalog.variantTag Frame.requestVariant r.typeName = .ok tag := by
  rw [Frame.encodeRequest_eq_ok_iff]
  constructor
  · rintro ⟨tag', htag', hframe⟩
    rwa [← Request.encodeWithTag_injective hframe]
  · exact fun htag => ⟨tag, htag, rfl⟩

namespace Session

variable {σ : Type} {c : Consumer σ} {s : Session} {k : σ}

/-- What holds of the requests of a session at every moment of its life. -/
structure Faithful (s : Session) : Prop where
  sent_eq : s.written ++ s.outbound ++ s.queue.filterMap Command.frame? = s.acceptances.map Prod.snd
  none_before : s.phase.takesRequests = false → s.phase ≠ .closed → s.acceptances = []
  told_iff : s.catalog.isSome ↔ .called .schema ∈ s.trace
  early : ∀ pre post r f, s.trace = pre ++ .accepted r f :: post → .called .schema ∉ pre →
    Frame.encodeRequest none r = .ok f
  late : ∀ pre post r f, s.trace = pre ++ .accepted r f :: post → .called .schema ∈ pre →
    Frame.encodeRequest s.catalog r = .ok f

theorem start_faithful (t : Target) : (start t).Faithful where
  sent_eq := rfl
  none_before := fun _ _ => rfl
  told_iff := by simp [start]
  early := by
    intro pre post r f h
    cases eq_began_of_start h
  late := by
    intro pre post r f h
    cases eq_began_of_start h

/-- A session stays faithful when no request is accepted and no frame is lost. -/
theorem Faithful.extend {s' : Session} (h : s.Faithful) (es : List Event)
    (ht : s'.trace = s.trace ++ es) (hes : ∀ e ∈ es, e.acceptance? = none)
    (hsent : s'.written ++ s'.outbound ++ s'.queue.filterMap Command.frame? =
      s.written ++ s.outbound ++ s.queue.filterMap Command.frame?)
    (hphase : s'.phase.takesRequests = false → s'.phase ≠ .closed →
      s.phase.takesRequests = false ∧ s.phase ≠ .closed)
    (hcat : s.catalog.isSome → s'.catalog = s.catalog)
    (htold : s'.catalog.isSome ↔ .called .schema ∈ s.trace ++ es) : s'.Faithful := by
  have hacceptances : s'.acceptances = s.acceptances := by
    rw [acceptances, seen, ht, List.filterMap_append, List.filterMap_eq_nil_iff.mpr hes]
    exact List.append_nil _
  have hsplit : ∀ pre post r f, s'.trace = pre ++ .accepted r f :: post →
      ∃ post', s.trace = pre ++ .accepted r f :: post' := by
    intro pre post r f h'
    rw [ht] at h'
    rcases split_of_append h' with ⟨post', hpre, -⟩ | ⟨pre', -, hmem⟩
    · exact ⟨post', hpre⟩
    · have hnone := hes (.accepted r f) (by simp [hmem])
      cases hnone
  constructor
  case sent_eq => rw [hsent, hacceptances, h.sent_eq]
  case none_before =>
    intro h1 h2
    rw [hacceptances]
    exact h.none_before (hphase h1 h2).1 (hphase h1 h2).2
  case told_iff => rw [ht]; exact htold
  case early =>
    intro pre post r f h' hpre
    obtain ⟨post', hs⟩ := hsplit pre post r f h'
    exact h.early pre post' r f hs hpre
  case late =>
    intro pre post r f h' hpre
    obtain ⟨post', hs⟩ := hsplit pre post r f h'
    have hmem : .called .schema ∈ s.trace := by
      rw [hs]
      exact List.mem_append_left _ hpre
    rw [hcat (h.told_iff.mpr hmem)]
    exact h.late pre post' r f hs hpre

/-- Plain events leave a session faithful. -/
theorem Faithful.report {s' : Session} (h : s.Faithful) (es : List Event)
    (ht : s'.trace = s.trace ++ es) (hes : ∀ e ∈ es, e.isPlain)
    (hsent : s'.written ++ s'.outbound ++ s'.queue.filterMap Command.frame? =
      s.written ++ s.outbound ++ s.queue.filterMap Command.frame?)
    (hphase : s'.phase.takesRequests = false → s'.phase ≠ .closed →
      s.phase.takesRequests = false ∧ s.phase ≠ .closed)
    (hcat : s'.catalog = s.catalog) : s'.Faithful := by
  refine h.extend es ht (fun e he => Event.acceptance?_of_isPlain (hes e he)) hsent hphase
    (fun _ => hcat) ?_
  rw [hcat, h.told_iff, List.mem_append]
  refine ⟨.inl, ?_⟩
  rintro (hmem | hmem)
  · exact hmem
  · cases hes _ hmem

theorem Faithful.note (h : s.Faithful) {e : Event} (he : e.isPlain) : (s.note e).Faithful :=
  h.report [e] rfl (fun x hx => by rwa [List.mem_singleton.mp hx]) rfl (fun h1 h2 => ⟨h1, h2⟩) rfl

theorem Faithful.meet (h : s.Faithful) (e : Ending) : (s.meet e).Faithful := by
  rw [meet_eq]
  exact h.report s.loss rfl isPlain_of_mem_loss rfl (fun h1 h2 => ⟨h1, h2⟩) rfl

theorem Faithful.hand (h : s.Faithful) (room : Nat) : (s.hand room).Faithful := by
  refine h.report [] (List.append_nil _).symm (by simp) ?_ (fun h1 h2 => ⟨h1, h2⟩) rfl
  simp [Session.hand]

/-- A request is accepted as the frame that it has under the catalog of that moment. -/
theorem Faithful.used {es : List Event} (h : s.Faithful) (hes : ∀ e ∈ es, s.Allows e) :
    (s.used es).Faithful := by
  have hcalled : .called .schema ∉ es := fun hmem => hes _ hmem
  constructor
  case sent_eq =>
    have hframes : (es.filterMap Event.acceptance?).map Prod.snd =
        (if s.isOpen then es.filterMap Event.command? else []).filterMap Command.frame? := by
      split
      · rw [List.map_filterMap, List.filterMap_filterMap]
        congr 1
        funext e
        cases e <;> rfl
      · rename_i hclosed
        have hnone : es.filterMap Event.acceptance? = [] := by
          rw [List.filterMap_eq_nil_iff]
          intro e he
          have hallowed := hes e he
          match e with
          | .accepted r f => exact absurd hallowed.2.1 hclosed
          | .closeRequested _ => rfl
        rw [hnone]
        rfl
    have hs := h.sent_eq
    rw [acceptances, seen_used, List.map_append, hframes, ← hs]
    simp [Session.used]
  case none_before =>
    intro h1 h2
    have hnone : es.filterMap Event.acceptance? = [] := by
      rw [List.filterMap_eq_nil_iff]
      intro e he
      have hallowed := hes e he
      match e with
      | .accepted r f => exact absurd hallowed.1 (by rw [show s.phase.takesRequests = false from h1]; simp)
      | .closeRequested _ => rfl
    rw [acceptances, seen_used, hnone, List.append_nil]
    exact h.none_before h1 h2
  case told_iff =>
    rw [show (s.used es).trace = s.trace ++ es from rfl, List.mem_append]
    exact h.told_iff.trans ⟨.inl, fun hmem => hmem.resolve_right hcalled⟩
  case early =>
    intro pre post r f htrace hpre
    rcases split_of_append htrace with ⟨post', hs, -⟩ | ⟨pre', rfl, hes'⟩
    · exact h.early pre post' r f hs hpre
    · have hnone : s.catalog = none := by
        have hnot := h.told_iff.not.mpr fun hmem => hpre (List.mem_append_left _ hmem)
        simpa using hnot
      have hallowed := hes (.accepted r f) (by simp [hes'])
      rw [← hnone]
      exact hallowed.2.2
  case late =>
    intro pre post r f htrace hpre
    rcases split_of_append htrace with ⟨post', hs, -⟩ | ⟨pre', rfl, hes'⟩
    · exact h.late pre post' r f hs hpre
    · exact (hes (.accepted r f) (by simp [hes'])).2.2

theorem Faithful.answered (h : s.Faithful) (call : Call) (outcome : Except Failure Flow) :
    (s.answered call outcome).Faithful := by
  have hnote : (s.note (.answered outcome)).Faithful := by
    refine h.extend [.answered outcome] rfl (by simp [Event.acceptance?]) rfl (fun h1 h2 => ⟨h1, h2⟩)
      (fun _ => rfl) ?_
    simpa [Session.note] using h.told_iff
  unfold Session.answered
  split
  · exact hnote
  · exact hnote.meet _

theorem takesRequests_of_openingStep? {p : Phase} (h : p.openingStep?.isSome) :
    p.takesRequests = false := by
  cases p <;> simp_all [Phase.openingStep?, Phase.takesRequests]

theorem call_eq_schema_iff {catalog : Option Schema.Catalog} {frame : Bytes} {call : Call}
    (h : callFor catalog frame = .ok call) : call = .schema ↔ catalog = none := by
  cases catalog with
  | none =>
      cases hf : Frame.parseSchema frame with
      | error e => simp [callFor, hf, Except.map] at h
      | ok parsed => simp_all [callFor, Except.map]
  | some catalog =>
      cases hf : Frame.decodeResult catalog frame with
      | error e => simp [callFor, hf, Except.map] at h
      | ok decoded =>
          obtain ⟨status | report, entries⟩ := decoded <;>
            simp_all [callFor, Except.map, callOf]
          all_goals subst h; simp

theorem Faithful.called {frame : Bytes} {call : Call} {reports : List Event} (h : s.Faithful) (room : Nat)
    (hf : callFor s.catalog frame = .ok call) (hr : ∀ e ∈ reports, e.isPlain) :
    (((s.hand room).accepting frame reports).note (.called call)).Faithful := by
  refine (h.hand room).extend (reports ++ [.called call]) (by simp [accepting, Session.note]) ?_ rfl ?_ ?_ ?_
  · intro e hmem
    rcases List.mem_append.mp hmem with hmem | hmem
    · exact Event.acceptance?_of_isPlain (hr e hmem)
    · rw [List.mem_singleton.mp hmem]; rfl
  · intro h1 _
    cases h1
  · intro hsome
    obtain ⟨catalog, hcat⟩ := Option.isSome_iff_exists.mp hsome
    simp [accepting, Session.note, hcat, catalogAfter]
  · have hsome : (catalogAfter s.catalog frame).isSome := isSome_catalogAfter hf
    refine ⟨fun _ => ?_, fun _ => hsome⟩
    by_cases hschema : call = .schema
    · simp [hschema]
    · have hcat : s.catalog.isSome := by
        rw [Option.isSome_iff_ne_none]
        exact (call_eq_schema_iff hf).not.mp hschema
      exact List.mem_append_left _ (h.told_iff.mp hcat)

theorem Faithful.turned {o : Option Occurrence} {p : Session × σ} (h : s.Faithful) (hs : s.Coherent)
    (hturn : Turned c s k o p) : p.1.Faithful := by
  have hcl := hs.not_closed
  cases hturn with
  | idle => exact h
  | begun hp he =>
      exact h.report [.entered s.phase .resolving] rfl (by simp [Event.isPlain]) rfl
        (fun _ _ => ⟨by rw [hp]; rfl, hcl he⟩) rfl
  | dropped frame rest he hp hq =>
      have hnone := h.none_before (takesRequests_of_openingStep? hp) (hcl he)
      have hsent := h.sent_eq
      rw [hnone, hq] at hsent
      simp [Command.frame?] at hsent
  | closed retry rest he hq =>
      have hrest : { s with queue := rest }.Faithful := by
        refine h.report [] (List.append_nil _).symm (by simp) ?_ (fun h1 h2 => ⟨h1, h2⟩) rfl
        rw [hq, List.filterMap_cons_none rfl]
      exact hrest.meet _
  | advanced step reports he hp hq hr =>
      exact h.report reports rfl hr rfl
        (fun _ _ => ⟨takesRequests_of_openingStep? (by rw [hp]; rfl), hcl he⟩) rfl
  | openingFailed step text he hp hq => exact h.meet _
  | taken frame rest he hp hq =>
      refine h.report [] (List.append_nil _).symm (by simp) ?_ (fun h1 h2 => ⟨h1, h2⟩) rfl
      simp [hq, Command.frame?]
  | handed room he hp hq => exact h.hand room
  | flushed room he hp hq ho =>
      exact (h.hand room).report [] (List.append_nil _).symm (by simp) rfl (fun h1 h2 => ⟨h1, h2⟩) rfl
  | writeFailed room text he hp hq => exact (h.hand room).meet _
  | ignored room he hp hq => exact h.hand room
  | broken room i e he hp hq hi => exact (h.hand room).meet _
  | refused room frame error report he hp hq hf hr => exact ((h.hand room).note hr).meet _
  | told room frame call reports outcome k' s' he hp hq hf hr hrun =>
      obtain ⟨uses, huses, rfl⟩ := Handle.used_of_run hrun
      exact ((h.called room hf hr).used huses).answered call outcome
  | finished e uses reports hp he hu hr =>
      have huses : ∀ x ∈ uses ++ reports, x.acceptance? = none ∧ x ≠ .called .schema := by
        intro x hx
        rcases List.mem_append.mp hx with hx | hx
        · obtain ⟨retry, rfl⟩ := hu x hx
          exact ⟨rfl, by simp⟩
        · refine ⟨Event.acceptance?_of_isPlain (hr x hx), ?_⟩
          rintro rfl
          cases hr _ hx
      refine h.extend (.ended e :: .notified e.retry :: (uses ++ reports)) (by simp [closedWith]) ?_ rfl
        (fun _ hne => absurd rfl hne) (fun _ => rfl) ?_
      · simpa [Event.acceptance?] using fun x hx => (huses x (List.mem_append.mpr hx)).1
      · refine h.told_iff.trans ⟨List.mem_append_left _, fun hmem => ?_⟩
        rcases List.mem_append.mp hmem with hmem | hmem
        · exact hmem
        · have hrest : .called .schema ∈ uses ++ reports := by simpa using hmem
          exact absurd rfl (huses _ hrest).2

/-- Whatever moves are made, a session stays faithful. -/
theorem Faithful.moves (h : s.Faithful) (hs : s.Coherent) (ms : List (Move σ)) :
    (moves c ms s k).1.Faithful :=
  hs.preserves Faithful.turned Faithful.used h ms

/-! ### The document of a session -/

/-- The catalog of a session is one of a document. -/
def Grounded (s : Session) : Prop :=
  ∀ catalog, s.catalog = some catalog → ∃ d, Schema.Catalog.ofDocument d = .ok catalog

theorem exists_document_of_parseSchema {frame : Bytes} {catalog : Schema.Catalog} {entries : List LogEntry}
    (h : Frame.parseSchema frame = .ok (catalog, entries)) : ∃ d, Schema.Catalog.ofDocument d = .ok catalog := by
  unfold Frame.parseSchema at h
  split at h
  · cases h
  · obtain ⟨d, -, hcatalog⟩ := bind_eq_ok_iff.mp h
    obtain ⟨catalog', hd, hpair⟩ := bind_eq_ok_iff.mp hcatalog
    obtain ⟨rfl, -⟩ := Prod.mk.inj (Except.ok.inj hpair)
    exact ⟨d, hd⟩

theorem Grounded.catalogAfter (h : s.Grounded) (frame : Bytes) :
    ∀ catalog, Session.catalogAfter s.catalog frame = some catalog →
      ∃ d, Schema.Catalog.ofDocument d = .ok catalog := by
  intro catalog hcatalog
  cases hcat : s.catalog with
  | some catalog' =>
      rw [hcat] at hcatalog
      exact h catalog (hcat.trans hcatalog)
  | none =>
      rw [hcat, Session.catalogAfter] at hcatalog
      cases hparse : Frame.parseSchema frame with
      | error e =>
          rw [hparse] at hcatalog
          cases hcatalog
      | ok parsed =>
          rw [hparse] at hcatalog
          obtain rfl := Option.some.inj hcatalog
          exact exists_document_of_parseSchema hparse

theorem Grounded.turned {o : Option Occurrence} {p : Session × σ} (h : s.Grounded) (_ : s.Coherent)
    (hturn : Turned c s k o p) : p.1.Grounded := by
  cases hturn with
  | idle | begun | dropped | advanced | taken | handed | flushed | ignored | finished => exact h
  | closed | openingFailed | writeFailed | broken | refused =>
      rw [Grounded, catalog_meet]
      exact h
  | told room frame call reports outcome k' s' he hp hq hf hr hrun =>
      obtain ⟨uses, -, rfl⟩ := Handle.used_of_run hrun
      rw [Grounded, catalog_answered]
      exact h.catalogAfter frame

theorem lived_grounded (c : Consumer σ) (t : Target) (ms : List (Move σ)) (k : σ) : (lived c t ms k).Grounded :=
  (start_coherent t).preserves Grounded.turned (fun h _ => h) nofun ms

/-! ### Requests and the schema -/

/-- The frames that reach the socket are those of the accepted requests, in their order. A request that was accepted
after the consumer was told of the schema has the frame that it has under the schema, and the node understands it. A
request that was accepted before has its canonical tag: that is its frame under the schema exactly if the schema gives
it this tag, and the node understands it exactly if its schema lists the request there. -/
theorem written_under_schema_iff (c : Consumer σ) (t : Target) (ms : List (Move σ)) (k : σ) :
    (lived c t ms k).written <+: (lived c t ms k).acceptances.map Prod.snd ∧
      ∀ catalog, (lived c t ms k).catalog = some catalog → ∃ d, Schema.Catalog.ofDocument d = .ok catalog ∧
        ∀ pre post r frame, (lived c t ms k).trace = pre ++ .accepted r frame :: post →
          (Frame.encodeRequest (some catalog) r = .ok frame ↔ .called .schema ∈ pre ∨
            catalog.variantTag Frame.requestVariant r.typeName = .ok r.canonicalTag) ∧
          (.called .schema ∈ pre → (∃ tag : UInt32, d.Lists Frame.requestVariant tag.toNat r.typeName) →
            Frame.Understands catalog r frame) ∧
          (.called .schema ∉ pre → Frame.encodeRequest none r = .ok frame ∧
            (Frame.Understands catalog r frame ↔
              d.Lists Frame.requestVariant r.canonicalTag.toNat r.typeName)) := by
  have h : (lived c t ms k).Faithful := (start_faithful t).moves (start_coherent t) ms
  refine ⟨?_, fun catalog hcat => ?_⟩
  · rw [← h.sent_eq, List.append_assoc]
    exact List.prefix_append _ _
  obtain ⟨d, hd⟩ := lived_grounded c t ms k catalog hcat
  refine ⟨d, hd, fun pre post r frame htrace => ?_⟩
  have hlate : .called .schema ∈ pre → Frame.encodeRequest (some catalog) r = .ok frame := fun hpre => by
    rw [← hcat]
    exact h.late pre post r frame htrace hpre
  have hearly : .called .schema ∉ pre → r.encodeWithTag r.canonicalTag = frame := fun hpre =>
    Except.ok.inj (h.early pre post r frame htrace hpre)
  refine ⟨?_, ?_, ?_⟩
  · by_cases hpre : .called .schema ∈ pre
    · exact ⟨fun _ => .inl hpre, fun _ => hlate hpre⟩
    · rw [← hearly hpre, encodeRequest_some]
      exact ⟨.inr, fun h => h.resolve_left hpre⟩
  · rintro hpre ⟨tag, hlisted⟩
    exact .of_encodeRequest hd (hlate hpre) hlisted
  · intro hpre
    rw [← hearly hpre]
    exact ⟨rfl, Frame.understands_encodeWithTag_iff hd⟩

/-! ### A request before the schema -/

/-- A schema that lists the request for blocks before the request for the status. -/
def reorderedSchema : String :=
  "[\"eosio::abi/1.0\",[],[[\"get_status_request_v0\"],[\"get_blocks_request_v0\"]],"
    ++ "[[\"request\",[\"get_blocks_request_v0\",\"get_status_request_v0\"]]]]"

/-- A session opens. Somebody asks for the status, the request goes out, the schema comes in, and somebody asks
again. -/
def askingTwice : List (Move Unit) :=
  openingMoves [.ok (), .ok (), .ok ()] ++
    [askStatus, .turn .nothing, .turn (.writable 1), .turn (.received (.data (Bytes.ofText reorderedSchema))),
      askStatus]

theorem lived_askingTwice :
    (lived listener somewhere askingTwice ()).trace =
        [.began, .entered .disconnected .resolving, .entered .resolving .connecting,
          .entered .connecting .handshaking, .entered .handshaking .awaitingSchema, .opened, .accepted .status [0],
          .schemaAccepted "eosio::abi/1.0" 34, .entered .awaitingSchema .streaming, .called .schema,
          .answered (.ok .proceed), .accepted .status [1]] ∧
      (lived listener somewhere askingTwice ()).written = [[0]] ∧
      ((lived listener somewhere askingTwice ()).catalog.map fun catalog =>
        Frame.encodeRequest (some catalog) .status) = some (.ok [1]) ∧
      (lived listener somewhere askingTwice ()).catalog.map (·.variantCase Frame.requestVariant 0) =
        some (.ok (.parse "get_blocks_request_v0")) ∧
      (lived listener somewhere askingTwice ()).catalog.map (·.variantCase Frame.requestVariant 1) =
        some (.ok (.parse "get_status_request_v0")) := by
  decide +kernel

/-- The first request for the status went out as what the node takes for a request for blocks. -/
theorem early_request_misread :
    (lived listener somewhere askingTwice ()).acceptances = [(.status, [0]), (.status, [1])] ∧
      (lived listener somewhere askingTwice ()).written = [[0]] ∧
      ((lived listener somewhere askingTwice ()).catalog.map fun catalog =>
        Frame.encodeRequest (some catalog) .status) = some (.ok [1]) ∧
      (lived listener somewhere askingTwice ()).catalog.map (·.variantCase Frame.requestVariant 0) =
        some (.ok (.parse "get_blocks_request_v0")) := by
  obtain ⟨htrace, hwritten, hframe, hcase, -⟩ := lived_askingTwice
  refine ⟨?_, hwritten, hframe, hcase⟩
  rw [acceptances, seen, htrace]
  rfl

/-- The node does not understand the first request, and it understands the second one. -/
theorem late_request_understood : ∃ catalog,
    (lived listener somewhere askingTwice ()).catalog = some catalog ∧
      ¬ Frame.Understands catalog .status [0] ∧ Frame.Understands catalog .status [1] := by
  obtain ⟨htrace, -, -, hblocks, hstatus⟩ := lived_askingTwice
  obtain ⟨catalog, hcat, hstatus⟩ := Option.map_eq_some_iff.mp hstatus
  rw [hcat] at hblocks
  obtain ⟨d, hd, hrequests⟩ := (written_under_schema_iff listener somewhere askingTwice ()).2 catalog hcat
  have hsecond : (lived listener somewhere askingTwice ()).trace =
      (lived listener somewhere askingTwice ()).trace.take 11 ++ [.accepted .status [1]] := by
    rw [htrace]
    rfl
  refine ⟨catalog, hcat, fun hunderstood => ?_, (hrequests _ _ _ _ hsecond).2.1 ?_ ⟨1, ?_⟩⟩
  · have hlisted := ((hrequests [_, _, _, _, _, _] _ .status [0] htrace).2.2 (by simp)).2.mp hunderstood
    have hcase : catalog.variantCase Frame.requestVariant 0 = .ok (.parse Request.status.typeName) :=
      (Schema.Catalog.variantCase_eq_parse_iff hd).mpr hlisted
    have hparse := Except.ok.inj ((Option.some.inj hblocks).symm.trans hcase)
    exact absurd (Function.LeftInverse.injective TypeRef.render_parse hparse) (by decide)
  · rw [htrace]
    simp
  · exact (Schema.Catalog.variantCase_eq_parse_iff hd).mp hstatus

end Session

end StateHistory
