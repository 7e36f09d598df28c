import BlockProgram.Proofs.Session.Request

/-!
# What a session keeps at hand and what it tells

The program and the document at hand are always those of the canvas, and a channel that keeps
every message holds a program and a document for the opening and for each accepted change, and
nothing else. A session that never got a canvas has told of that once and tells nothing more.
-/

namespace BlockProgram

/-- What the host is told of a canvas. -/
def Workspace.messages (order : Order) (w : Workspace) : List HostMessage :=
  [.program (w.program order), .document (Document.write w)]

/-- A session that keeps every message works with this. -/
def Setup.log (order : Order) : Setup (List HostMessage) := ⟨.log, order⟩

namespace Session

variable {σ : Type}

/-- What the host is to be told in answer to requests: for every accepted change the program and
the document of the canvas right after it. -/
def news (setup : Setup σ) : Session σ → List Request → List HostMessage
  | _, [] => []
  | s, r :: rs =>
    let (answer, s') := s.serve setup r
    (if r.mutates && answer.isOk then s'.workspace.messages setup.order else []) ++
      s'.news setup rs

/-- The canvas is sound, and the program and the document at hand are those of the canvas. -/
structure Current (setup : Setup σ) (s : Session σ) : Prop where
  /-- The canvas is sound. -/
  sound : s.workspace.Sound
  /-- The program at hand is that of the canvas. -/
  code : s.code = s.workspace.program setup.order
  /-- The document at hand is that of the canvas. -/
  document : s.document = Document.write s.workspace

theorem current_publish (setup : Setup σ) (s : Session σ) {w : Workspace} (hw : w.Sound) :
    (s.publish setup w).Current setup := ⟨hw, rfl, rfl⟩

theorem sent_publish (order : Order) (s : Session (List HostMessage)) (w : Workspace) :
    (s.publish (.log order) w).sent = s.sent ++ w.messages order := by
  simp [publish, tell, Channel.offer, Setup.log, Channel.log, Workspace.messages]

/-- A request to a session that is current: an accepted change has been published, on a sound
canvas, or the canvas and all that is at hand are as they were. -/
theorem Current.serve_cases {setup : Setup σ} {s : Session σ} (hs : s.Current setup)
    {r : Request} (hr : r.Ordered) :
    (∃ w, w.Sound ∧ r.mutates ∧ s.serve setup r = (.ok (), s.publish setup w)) ∨
    ∃ answer stage, s.serve setup r = (answer, { s with stage := stage }) ∧
      (r.mutates && answer.isOk) = false := by
  rcases Session.serve_cases setup s r with ⟨e, w, rfl, -, happly, h⟩ |
    ⟨e, fault, w, rfl, -, happly, h⟩ | ⟨xml, w, hm, -, hread, h⟩ | ⟨answer, stage, h, -, herr⟩
  · obtain ⟨c, hc⟩ := Event.exists_call hr happly
    refine .inl ⟨w, ?_, ?_, h⟩
    · rw [show w = s.workspace.call c from hc]
      exact hs.sound.call c
    · rw [Request.mutates, ← e.apply_isSome s.workspace, happly]
      rfl
  · obtain rfl := Event.eq_of_apply_error hs.sound happly
    exact .inr ⟨_, s.stage, h, by simp [Except.isOk, Except.toBool]⟩
  · exact .inl ⟨_, (Document.sound_of_read hread).1.migrate, hm, h⟩
  · refine .inr ⟨answer, stage, h, ?_⟩
    by_cases hm : r.mutates
    · obtain ⟨e, rfl⟩ := herr hm
      rw [hm]
      rfl
    · rw [Bool.not_eq_true] at hm
      rw [hm]
      rfl

theorem Current.serve {setup : Setup σ} {s : Session σ} (hs : s.Current setup) {r : Request}
    (hr : r.Ordered) : (s.serve setup r).2.Current setup := by
  rcases hs.serve_cases hr with ⟨w, hw, -, h⟩ | ⟨answer, stage, h, -⟩
  · rw [h]
    exact current_publish setup s hw
  · rw [h]
    exact ⟨hs.sound, hs.code, hs.document⟩

theorem Current.serveAll {setup : Setup σ} {s : Session σ} (hs : s.Current setup)
    {requests : List Request} (hr : ∀ r ∈ requests, r.Ordered) :
    (s.serveAll setup requests).Current setup := by
  induction requests generalizing s with
  | nil => exact hs
  | cons r rs ih =>
    obtain ⟨hr, hrs⟩ := List.forall_mem_cons.mp hr
    exact ih (hs.serve hr) hrs

/-- One request adds to the log what it is to add. -/
theorem Current.sent_serve {order : Order} {s : Session (List HostMessage)}
    (hs : s.Current (.log order)) {r : Request} (hr : r.Ordered) :
    (s.serve (.log order) r).2.sent = s.sent ++
      if r.mutates && (s.serve (.log order) r).1.isOk then
        (s.serve (.log order) r).2.workspace.messages order
      else [] := by
  rcases hs.serve_cases hr with ⟨w, -, hm, h⟩ | ⟨answer, stage, h, hno⟩
  · rw [h, hm]
    exact sent_publish order s w
  · rw [h, hno]
    simp

/-- Requests add to the log what they are to add. -/
theorem Current.sent_serveAll {order : Order} {s : Session (List HostMessage)}
    (hs : s.Current (.log order)) {requests : List Request} (hr : ∀ r ∈ requests, r.Ordered) :
    (s.serveAll (.log order) requests).sent = s.sent ++ s.news (.log order) requests := by
  induction requests generalizing s with
  | nil => exact (List.append_nil _).symm
  | cons r rs ih =>
    obtain ⟨hr, hrs⟩ := List.forall_mem_cons.mp hr
    calc (s.serveAll (.log order) (r :: rs)).sent
        = (s.serve (.log order) r).2.sent ++
            (s.serve (.log order) r).2.news (.log order) rs := ih (hs.serve hr) hrs
      _ = s.sent ++ s.news (.log order) (r :: rs) := by
          rw [hs.sent_serve hr, List.append_assoc]
          rfl

/-! ### Without a canvas -/

/-- A session that is not ready never gets so, and tells nothing. -/
theorem serve_of_not_ready (setup : Setup σ) {s : Session σ} (hs : s.stage ≠ .ready) (r : Request) :
    (s.serve setup r).2.stage ≠ .ready ∧ (s.serve setup r).2.sent = s.sent := by
  rcases Session.serve_cases setup s r with ⟨e, w, -, hready, -⟩ | ⟨e, fault, w, -, hready, -⟩ |
    ⟨xml, w, -, hready, -⟩ | ⟨answer, stage, h, rfl | rfl, -⟩
  · exact absurd hready hs
  · exact absurd hready hs
  · exact absurd hready hs
  · rw [h]
    exact ⟨hs, rfl⟩
  · rw [h]
    exact ⟨by simp, rfl⟩

theorem sent_serveAll_of_not_ready (setup : Setup σ) {s : Session σ} (hs : s.stage ≠ .ready)
    (requests : List Request) : (s.serveAll setup requests).sent = s.sent := by
  induction requests generalizing s with
  | nil => rfl
  | cons r rs ih =>
    obtain ⟨hstage, hsent⟩ := serve_of_not_ready setup hs r
    exact (ih hstage).trans hsent

/-! ### Whole sessions -/

theorem start_of_canvas (setup : Setup σ) (sent : σ) {answers : List (Option Workspace)}
    {w : Workspace} (h : answers.findSome? (·) = some w) :
    start setup sent answers = { new sent with stage := .ready }.publish setup w.migrate.2 := by
  simp only [start, h]

/-- A session that has been opened on a canvas is current. -/
theorem current_start (setup : Setup σ) (sent : σ) {answers : List (Option Workspace)}
    {w : Workspace} (h : answers.findSome? (·) = some w) (hw : w.Origin) :
    (start setup sent answers).Current setup := by
  rw [start_of_canvas setup sent h]
  exact current_publish _ _ hw.sound.migrate

/-- **What a session has at hand and what it has told**, after any requests. If a canvas is
handed over, which is empty or has been read from a document, then the program and the document
at hand are those of the canvas, and the log holds the two for the opening and for every accepted
change. If none is, then the log holds one failure. -/
theorem cache_and_log (order : Order) (answers : List (Option Workspace))
    (requests : List Request) :
    (∀ w, answers.findSome? (·) = some w → w.Origin → (∀ r ∈ requests, r.Ordered) →
      let opened := start (.log order) [] answers
      let s := opened.serveAll (.log order) requests
      s.code = s.workspace.program order ∧ s.document = Document.write s.workspace ∧
        s.sent = opened.workspace.messages order ++ opened.news (.log order) requests) ∧
    (answers.findSome? (·) = none →
      ((start (.log order) [] answers).serveAll (.log order) requests).sent =
        [.failure timeoutMessage]) := by
  refine ⟨fun w hw horigin hr => ?_, fun hnone => ?_⟩
  · have hopened : (start (.log order) [] answers).Current (.log order) := by
      rw [start_of_canvas _ _ hw]
      exact current_publish _ _ horigin.sound.migrate
    have hfirst : (start (.log order) [] answers).sent =
        (start (.log order) [] answers).workspace.messages order := by
      rw [start_of_canvas _ _ hw]
      exact sent_publish order _ _
    have hend := hopened.serveAll hr
    exact ⟨hend.code, hend.document, by rw [hopened.sent_serveAll hr, hfirst]⟩
  · have hfailed : start (.log order) [] answers =
        { new [.failure timeoutMessage] with stage := .failed } := by
      simp only [start, hnone]
      rfl
    rw [hfailed]
    exact sent_serveAll_of_not_ready _ (by simp) requests

/-- An empty canvas comes late; a block is put on it, a document is refused, one is restored, and
the session ends. Then the same without a canvas. -/
theorem cache_and_log_late :
    let requests : List Request := [.event (.created (.leaf ⟨"a"⟩ .print .empty) none),
      .restore "<xml>", .text "[\"restore\",\"<xml/>\"]", .dispose]
    let opened := start (.log .visual) [] [none, some .empty]
    let s := opened.serveAll (.log .visual) requests
    (s.code = s.workspace.program .visual ∧ s.document = Document.write s.workspace ∧
      s.sent = opened.workspace.messages .visual ++ opened.news (.log .visual) requests) ∧
    ((start (.log .visual) [] [none, none]).serveAll (.log .visual) requests).sent =
      [.failure timeoutMessage] := by
  refine ⟨(cache_and_log .visual [none, some .empty] _).1 .empty rfl .empty ?_,
    (cache_and_log .visual [none, none] _).2 rfl⟩
  simp [Request.Ordered, Event.Ordered, Block.Ordered, Block.leaf, Fields.sorted_empty,
    Children.ordered_nil]

end Session

end BlockProgram
