import BlockProgram.Proofs.Host.Line
import BlockProgram.Proofs.Session.Log

/-!
# What is seen of a session

A session learns nothing from its channel: whatever becomes of its messages, it answers the same
and goes on in the same way. So a session over any channel goes along with one that keeps every
message, and its channel has been offered exactly the messages that the other one has kept. If the
channel writes lines, these messages are read back from what has been written.
-/

namespace BlockProgram

/-- All of a session but what the host has been told. -/
structure View where
  /-- How far it is. -/
  stage : Stage
  /-- The canvas. -/
  workspace : Workspace
  /-- The program at hand. -/
  code : String
  /-- The document at hand. -/
  document : String
  deriving DecidableEq, Repr

/-- What is done with a session at a time. -/
inductive Turn where
  /-- It is asked for something. -/
  | ask (r : Request)
  /-- It runs commands one by one. -/
  | run (commands : List Command)
  deriving DecidableEq, Repr

namespace Session

variable {σ : Type}

/-- What is seen of a session. -/
def view (s : Session σ) : View := ⟨s.stage, s.workspace, s.code, s.document⟩

/-- One turn: the answer, with the outcome if there is one, and the session after it. -/
def turn (setup : Setup σ) (s : Session σ) :
    Turn → Except SessionError (Option Outcome) × Session σ
  | .ask (.event e) => let (answer, s) := s.handle setup e; (answer.map some, s)
  | .ask r => let (answer, s) := s.serve setup r; (answer.map fun _ => none, s)
  | .run commands => (.ok none, s.run setup commands)

/-- The session after some turns. -/
def turns (setup : Setup σ) (s : Session σ) (ts : List Turn) : Session σ :=
  ts.foldl (fun s t => (s.turn setup t).2) s

/-- The answers to some turns, each with what is seen of the session right after it. -/
def history (setup : Setup σ) :
    Session σ → List Turn → List (Except SessionError (Option Outcome) × View)
  | _, [] => []
  | s, t :: ts =>
    ((s.turn setup t).1, (s.turn setup t).2.view) :: (s.turn setup t).2.history setup ts

/-- A session goes along with one that keeps every message: the same is seen of both, and the
channel, which had taken `sent`, has been offered the messages that are kept. -/
structure Follows (channel : Channel σ) (sent : σ) (s : Session σ)
    (kept : Session (List HostMessage)) : Prop where
  /-- The same is seen of both. -/
  view : s.view = kept.view
  /-- The channel has been offered the messages that are kept. -/
  sent : s.sent = kept.sent.foldl channel.offer sent

/-- Both sessions have given the same answer, and one goes along with the other. -/
def Together {α : Type} (channel : Channel σ) (sent : σ) (a : α × Session σ)
    (b : α × Session (List HostMessage)) : Prop :=
  a.1 = b.1 ∧ Follows channel sent a.2 b.2

namespace Follows

variable {channel : Channel σ} {sent : σ} {s : Session σ} {kept : Session (List HostMessage)}

theorem stage_eq (h : Follows channel sent s kept) : s.stage = kept.stage :=
  congrArg View.stage h.view

theorem workspace_eq (h : Follows channel sent s kept) : s.workspace = kept.workspace :=
  congrArg View.workspace h.view

theorem tell (h : Follows channel sent s kept) (order : Order) (m : HostMessage) :
    Follows channel sent (s.tell ⟨channel, order⟩ m) (kept.tell (.log order) m) where
  view := h.view
  sent := by
    show channel.offer s.sent m = (kept.sent ++ [m]).foldl channel.offer sent
    rw [List.foldl_append, ← h.sent]
    rfl

theorem publish (h : Follows channel sent s kept) (order : Order) (w : Workspace) :
    Follows channel sent (s.publish ⟨channel, order⟩ w) (kept.publish (.log order) w) := by
  have hcanvas : Follows channel sent
      { s with workspace := w, code := w.program order, document := Document.write w }
      { kept with workspace := w, code := w.program order, document := Document.write w } :=
    ⟨congrArg (View.mk · w _ _) h.stage_eq, h.sent⟩
  exact (hcanvas.tell order _).tell order _

theorem dispose (h : Follows channel sent s kept) : Follows channel sent s.dispose kept.dispose :=
  ⟨congrArg (fun v : View => { v with stage := .disposed }) h.view, h.sent⟩

theorem handle (h : Follows channel sent s kept) (order : Order) (e : Event) :
    Together channel sent (s.handle ⟨channel, order⟩ e) (kept.handle (.log order) e) := by
  simp only [Session.handle, h.stage_eq, h.workspace_eq]
  split
  · split
    · exact ⟨rfl, h⟩
    · exact ⟨rfl, h.publish order _⟩
    · rename_i w _
      exact ⟨rfl, congrArg (fun v : View => View.mk kept.stage w v.code v.document) h.view, h.sent⟩
  · exact ⟨rfl, h⟩

theorem restore (h : Follows channel sent s kept) (order : Order) (xml : String) :
    Together channel sent (s.restore ⟨channel, order⟩ xml) (kept.restore (.log order) xml) := by
  simp only [Session.restore, h.stage_eq]
  split
  · split
    · exact ⟨rfl, h⟩
    · exact ⟨rfl, h.publish order _⟩
  · exact ⟨rfl, h⟩

theorem obey (h : Follows channel sent s kept) (order : Order) (c : HostCommand) :
    Together channel sent (s.obey ⟨channel, order⟩ c) (kept.obey (.log order) c) := by
  cases c with
  | restore xml => exact h.restore order xml
  | dispose => exact ⟨rfl, h.dispose⟩

theorem hear (h : Follows channel sent s kept) (order : Order) (text : String) :
    Together channel sent (s.hear ⟨channel, order⟩ text) (kept.hear (.log order) text) := by
  simp only [Session.hear]
  split
  · exact h.obey order _
  · exact ⟨rfl, h⟩

theorem step (h : Follows channel sent s kept) (order : Order) (c : Command) :
    Follows channel sent (s.step ⟨channel, order⟩ c) (kept.step (.log order) c) := by
  cases c with
  | event e => exact (h.handle order e).2
  | host c => exact (h.obey order c).2
  | dispose => exact h.dispose

theorem run (h : Follows channel sent s kept) (order : Order) (commands : List Command) :
    Follows channel sent (s.run ⟨channel, order⟩ commands) (kept.run (.log order) commands) := by
  induction commands generalizing s kept with
  | nil => exact h
  | cons c cs ih =>
    have hstep := h.step order c
    simp only [Session.run, hstep.stage_eq]
    split
    · exact hstep
    · exact ih hstep

/-- One turn gives the same answer, and the session still goes along with the other one. -/
theorem turn (h : Follows channel sent s kept) (order : Order) (t : Turn) :
    Together channel sent (s.turn ⟨channel, order⟩ t) (kept.turn (.log order) t) := by
  have hmap : ∀ {α β : Type} (f : α → β) {a : Except SessionError α × Session σ}
      {b : Except SessionError α × Session (List HostMessage)}, Together channel sent a b →
      Together channel sent (a.1.map f, a.2) (b.1.map f, b.2) :=
    fun f _ _ hab => ⟨congrArg (Except.map f) hab.1, hab.2⟩
  cases t with
  | run commands => exact ⟨rfl, h.run order commands⟩
  | ask r =>
    cases r with
    | event e => exact hmap _ (h.handle order e)
    | restore xml => exact hmap _ (h.restore order xml)
    | host c => exact hmap _ (h.obey order c)
    | text t => exact hmap _ (h.hear order t)
    | dispose => exact ⟨rfl, h.dispose⟩

/-- After any turns both sessions have given the same answers and have looked the same throughout,
and one still goes along with the other. -/
theorem turns (h : Follows channel sent s kept) (order : Order) (ts : List Turn) :
    s.history ⟨channel, order⟩ ts = kept.history (.log order) ts ∧
      Follows channel sent (s.turns ⟨channel, order⟩ ts) (kept.turns (.log order) ts) := by
  induction ts generalizing s kept with
  | nil => exact ⟨rfl, h⟩
  | cons t ts ih =>
    obtain ⟨hanswer, hafter⟩ := h.turn order t
    obtain ⟨hhistory, hend⟩ := ih hafter
    refine ⟨?_, hend⟩
    rw [history, history, hanswer, hafter.view, hhistory]

end Follows

/-- A session over any channel is opened as one that keeps every message is. -/
theorem follows_start (channel : Channel σ) (sent : σ) (order : Order)
    (answers : List (Option Workspace)) :
    Follows channel sent (start ⟨channel, order⟩ sent answers) (start (.log order) [] answers) := by
  have hnew : ∀ stage, Follows channel sent { new sent with stage := stage }
      { new [] with stage := stage } := fun stage => ⟨rfl, rfl⟩
  simp only [start]
  split
  · exact (hnew .failed).tell order _
  · exact (hnew .ready).publish order _

/-! ### Restoring -/

/-- What a session that is ready makes of another document. -/
theorem restore_of_ready (setup : Setup σ) {s : Session σ} (hs : s.stage = .ready) (xml : String) :
    s.restore setup xml =
      match Document.read xml with
      | .error fault => (.error (.document fault), s)
      | .ok w => (.ok (), s.publish setup w.migrate.2) := by
  cases hread : Document.read xml <;> simp only [restore, if_pos hs, hread]

/-- **Restoring erases the past.** Two sessions that are ready, over any channels, and that are
given the same document answer and look the same from then on, and tell the same messages. -/
theorem history_restore {τ : Type} (order : Order) (channel : Channel σ) (channel' : Channel τ)
    {s : Session σ} {s' : Session τ} (hs : s.stage = .ready) (hs' : s'.stage = .ready)
    {text : String} {w : Workspace} (hread : Document.read text = .ok w) (ts : List Turn) :
    let all := .ask (.restore text) :: ts
    s.history ⟨channel, order⟩ all = s'.history ⟨channel', order⟩ all ∧
      ∃ ms : List HostMessage,
        (s.turns ⟨channel, order⟩ all).sent = ms.foldl channel.offer s.sent ∧
        (s'.turns ⟨channel', order⟩ all).sent = ms.foldl channel'.offer s'.sent := by
  intro all
  -- both go along with one that keeps every message and has been given the document
  let kept : Session (List HostMessage) := ({ new [] with stage := .ready }).publish (.log order)
    w.migrate.2
  have hfollows : ∀ {ρ : Type} (c : Channel ρ) {t : Session ρ}, t.stage = .ready →
      (t.turn ⟨c, order⟩ (.ask (.restore text))).1 = .ok none ∧
      Follows c t.sent (t.turn ⟨c, order⟩ (.ask (.restore text))).2 kept := by
    intro ρ c t ht
    have hturn : t.turn ⟨c, order⟩ (.ask (.restore text)) =
        (.ok none, t.publish ⟨c, order⟩ w.migrate.2) := by
      simp only [turn, serve, restore_of_ready _ ht, hread]
      rfl
    rw [hturn]
    exact ⟨rfl, congrArg (View.mk · _ _ _) ht, rfl⟩
  obtain ⟨hanswer, hafter⟩ := hfollows channel hs
  obtain ⟨hanswer', hafter'⟩ := hfollows channel' hs'
  obtain ⟨hhistory, hend⟩ := hafter.turns order ts
  obtain ⟨hhistory', hend'⟩ := hafter'.turns order ts
  refine ⟨?_, (kept.turns (.log order) ts).sent, hend.sent, hend'.sent⟩
  simp only [all, history, hanswer, hanswer', hafter.view, hafter'.view, hhistory, hhistory']

/-! ### The wire -/

/-- **The wire.** Whatever a session is opened with and whatever is done with it, it answers and
looks the same over every channel: one that keeps every message, one that writes lines, and one that
refuses all or some of them. What has been written as lines has a line feed at the end of each line
and nowhere else, it has a line for each message that would have been kept, and these messages are
read back from the lines one by one. -/
theorem history_and_lines (order : Order) (answers : List (Option Workspace)) (ts : List Turn) :
    let kept := start (.log order) [] answers
    let messages := (kept.turns (.log order) ts).sent
    let text := ((start ⟨.lines, order⟩ "" answers).turns ⟨.lines, order⟩ ts).sent
    (∀ (σ : Type) (channel : Channel σ) (sent : σ),
      let s := start ⟨channel, order⟩ sent answers
      s.view = kept.view ∧ s.history ⟨channel, order⟩ ts = kept.history (.log order) ts) ∧
    text = String.join ((Text.lines text).map (· ++ "\n")) ∧
    (∀ line ∈ Text.lines text, '\n' ∉ line.toList) ∧
    Text.lines text = messages.map HostMessage.json ∧
    (Text.lines text).mapM HostMessage.parse? = some messages := by
  intro kept messages text
  have htext : text = String.join (messages.map HostMessage.line) := by
    obtain ⟨-, hend⟩ := (follows_start .lines "" order answers).turns order ts
    rw [show text = _ from hend.sent, Channel.foldl_offer_lines, String.empty_append]
  have hlines : Text.lines text = messages.map HostMessage.json := by
    rw [htext, HostMessage.lines_join]
  refine ⟨fun σ channel sent => ?_, ?_, ?_, hlines, ?_⟩
  · have hopened := follows_start channel sent order answers
    exact ⟨hopened.view, (hopened.turns order ts).1⟩
  · rw [hlines, List.map_map]
    exact htext
  · rw [hlines, List.forall_mem_map]
    exact fun m _ => m.unbroken_json
  · rw [hlines, HostMessage.mapM_parse?_json]

end Session

end BlockProgram
