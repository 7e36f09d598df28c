import BlockProgram.Proofs.Session.Log

/-!
# Requests without effect

A request that is refused, for whatever reason, leaves the whole session as it was: its stage, its
canvas with all counters, the program and the document at hand, and what the host has been told.
So does a request that is ignored, and so does every request to a session that has ended. A run
of commands is therefore nothing but the commands taken one by one, up to the one that ends the
session.
-/

namespace BlockProgram

/-- A request that nothing is done about: an event that does not touch the canvas, or a text that
is no command. -/
def Request.Ignored : Request → Prop
  | event e => e.mutates = false
  | text s => HostCommand.parse? s = none
  | _ => False

/-- The request that a command makes. -/
def Command.request : Command → Request
  | event e => .event e
  | host c => .host c
  | dispose => .dispose

namespace Session

variable {σ : Type} (setup : Setup σ)

/-! ### Refused requests -/

theorem restore_eq_of_error {s : Session σ} {xml : String} {fault : SessionError}
    (h : (s.restore setup xml).1 = .error fault) : (s.restore setup xml).2 = s := by
  rcases s.restore_cases setup xml with ⟨w, -, -, heq⟩ | ⟨e, heq⟩
  · rw [heq] at h
    cases h
  · rw [heq]

theorem obey_eq_of_error {s : Session σ} {c : HostCommand} {fault : SessionError}
    (h : (s.obey setup c).1 = .error fault) : (s.obey setup c).2 = s := by
  cases c with
  | restore xml => exact restore_eq_of_error setup h
  | dispose => cases h

theorem hear_eq_of_error {s : Session σ} {text : String} {fault : SessionError}
    (h : (s.hear setup text).1 = .error fault) : (s.hear setup text).2 = s := by
  cases hc : HostCommand.parse? text with
  | none => simp only [hear, hc]
  | some c =>
    simp only [hear, hc] at h ⊢
    exact obey_eq_of_error setup h

/-- An event that is refused leaves a session on a sound canvas as it was. -/
theorem handle_eq_of_error {s : Session σ} (hs : s.workspace.Sound) {e : Event}
    {fault : SessionError} (h : (s.handle setup e).1 = .error fault) :
    (s.handle setup e).2 = s := by
  rcases s.handle_cases setup e with ⟨w, -, -, heq⟩ | ⟨f, w, -, happly, heq⟩ | ⟨-, heq⟩ | ⟨f, heq⟩
  · rw [heq] at h
    cases h
  · obtain rfl := Event.eq_of_apply_error hs happly
    rw [heq]
  · rw [heq]
  · rw [heq]

/-- A request that is refused leaves a session on a sound canvas as it was. -/
theorem serve_eq_of_error {s : Session σ} (hs : s.workspace.Sound) {r : Request}
    {fault : SessionError} (h : (s.serve setup r).1 = .error fault) :
    (s.serve setup r).2 = s := by
  cases r with
  | event e =>
    cases hanswer : (s.handle setup e).1 with
    | error f => exact handle_eq_of_error setup hs hanswer
    | ok outcome =>
      have hmap : (s.handle setup e).1.map (fun _ => ()) = .error fault := h
      rw [hanswer] at hmap
      cases hmap
  | restore xml => exact restore_eq_of_error setup h
  | host c => exact obey_eq_of_error setup h
  | text t => exact hear_eq_of_error setup h
  | dispose => cases h

/-! ### Ignored requests, and late ones -/

theorem serve_eq_of_ignored {s : Session σ} {r : Request} (hr : r.Ignored) :
    (s.serve setup r).2 = s := by
  cases r with
  | event e =>
    rcases s.handle_cases setup e with ⟨w, -, happly, -⟩ | ⟨f, w, -, happly, -⟩ | ⟨-, heq⟩ |
      ⟨f, heq⟩
    · have hmutates := e.apply_isSome s.workspace
      rw [happly, show e.mutates = false from hr] at hmutates
      cases hmutates
    · have hmutates := e.apply_isSome s.workspace
      rw [happly, show e.mutates = false from hr] at hmutates
      cases hmutates
    · rw [serve, heq]
    · rw [serve, heq]
  | restore xml => cases hr
  | host c => cases hr
  | text t => simp only [serve, hear, show HostCommand.parse? t = none from hr]
  | dispose => cases hr

/-- A session that has ended takes note of nothing. -/
theorem serve_eq_of_disposed {s : Session σ} (hs : s.stage = .disposed) (r : Request) :
    (s.serve setup r).2 = s := by
  have hready : s.stage ≠ .ready := by simp [hs]
  have hdispose : s.dispose = s := by
    rw [dispose, ← hs]
  have hrestore : ∀ xml, (s.restore setup xml).2 = s := fun xml => by rw [restore, if_neg hready]
  have hobey : ∀ c, (s.obey setup c).2 = s := by
    intro c
    cases c with
    | restore xml => exact hrestore xml
    | dispose => exact hdispose
  cases r with
  | event e => rw [serve, handle, if_neg hready]
  | restore xml => exact hrestore xml
  | host c => exact hobey c
  | text t =>
    cases hc : HostCommand.parse? t with
    | none => simp only [serve, hear, hc]
    | some c =>
      simp only [serve, hear, hc]
      exact hobey c
  | dispose => exact hdispose

/-! ### Runs -/

theorem step_eq_serve (s : Session σ) (c : Command) :
    s.step setup c = (s.serve setup c.request).2 := by
  cases c <;> rfl

/-- A run takes commands one by one, and stops after the first that leaves the session ended. -/
theorem run_eq_serveAll_take (s : Session σ) (cs : List Command) :
    ∃ k ≤ cs.length, s.run setup cs = s.serveAll setup ((cs.take k).map Command.request) ∧
      (∀ j, 0 < j → j < k →
        (s.serveAll setup ((cs.take j).map Command.request)).stage ≠ .disposed) ∧
      (k < cs.length → 0 < k ∧ (s.run setup cs).stage = .disposed) := by
  induction cs generalizing s with
  | nil => exact ⟨0, Nat.le_refl 0, rfl, fun j hj hlt => absurd hlt (Nat.not_lt_zero j), by simp⟩
  | cons c cs ih =>
    have hstep := s.step_eq_serve setup c
    rw [run]
    split
    · rename_i hend
      refine ⟨1, by simp, hstep, fun j hj hlt => by omega, fun _ => ⟨Nat.one_pos, hend⟩⟩
    · rename_i hgoes
      obtain ⟨k, hk, hrun, hbefore, hafter⟩ := ih (s.step setup c)
      -- after the first command everything is as in the run of the others
      have htake : ∀ j, s.serveAll setup (((c :: cs).take (j + 1)).map Command.request) =
          (s.step setup c).serveAll setup ((cs.take j).map Command.request) := by
        intro j
        rw [hstep]
        rfl
      refine ⟨k + 1, Nat.succ_le_succ hk, by rw [htake, hrun], fun j hj hlt => ?_, fun hlt => ?_⟩
      · obtain ⟨i, rfl⟩ : ∃ i, j = i + 1 := ⟨j - 1, by omega⟩
        rw [htake]
        rcases Nat.eq_zero_or_pos i with rfl | hi
        · exact hgoes
        · exact hbefore i hi (by omega)
      · exact ⟨Nat.succ_pos k, (hafter (Nat.lt_of_succ_lt_succ hlt)).2⟩

/-- **Requests without effect.** In every state that a session can come to, opened on a canvas that
is empty or read from a document, a request that is refused or ignored leaves the whole session as
it was, and so does any request once the session has ended. A run of commands is the same as the
commands taken one by one, up to the first that leaves the session ended. -/
theorem unchanged_and_run (sent : σ) {answers : List (Option Workspace)} {w : Workspace}
    (hw : answers.findSome? (·) = some w) (horigin : w.Origin) {requests : List Request}
    (hr : ∀ r ∈ requests, r.Ordered) :
    let s := (start setup sent answers).serveAll setup requests
    (∀ r fault, (s.serve setup r).1 = .error fault → (s.serve setup r).2 = s) ∧
    (∀ r : Request, r.Ignored → (s.serve setup r).2 = s) ∧
    (s.stage = .disposed → ∀ r, (s.serve setup r).2 = s) ∧
    ∀ cs : List Command, ∃ k ≤ cs.length,
      s.run setup cs = s.serveAll setup ((cs.take k).map Command.request) ∧
      (∀ j, 0 < j → j < k →
        (s.serveAll setup ((cs.take j).map Command.request)).stage ≠ .disposed) ∧
      (k < cs.length → 0 < k ∧ (s.run setup cs).stage = .disposed) := by
  intro s
  have hsound : s.workspace.Sound :=
    ((current_start setup sent hw horigin).serveAll hr).sound
  exact ⟨fun r fault h => serve_eq_of_error setup hsound h, fun r h => serve_eq_of_ignored setup h,
    fun h r => serve_eq_of_disposed setup h r, run_eq_serveAll_take setup s⟩

/-- An empty canvas came late, and a block has been put on it. -/
theorem unchanged_and_run_created :
    let setup : Setup (List HostMessage) := .log .insertion
    let created : Request := .event (.created (.leaf ⟨"a"⟩ .print .empty) none)
    let s := (start setup [] [none, some .empty]).serveAll setup [created]
    (∀ r fault, (s.serve setup r).1 = .error fault → (s.serve setup r).2 = s) ∧
    (∀ r : Request, r.Ignored → (s.serve setup r).2 = s) ∧
    (s.stage = .disposed → ∀ r, (s.serve setup r).2 = s) ∧
    ∀ cs : List Command, ∃ k ≤ cs.length,
      s.run setup cs = s.serveAll setup ((cs.take k).map Command.request) ∧
      (∀ j, 0 < j → j < k →
        (s.serveAll setup ((cs.take j).map Command.request)).stage ≠ .disposed) ∧
      (k < cs.length → 0 < k ∧ (s.run setup cs).stage = .disposed) := by
  refine unchanged_and_run (.log .insertion) [] (w := .empty) rfl .empty ?_
  simp [Request.Ordered, Event.Ordered, Block.Ordered, Block.leaf, Fields.sorted_empty,
    Children.ordered_nil]

end Session

end BlockProgram
