import BlockProgram.Session
import BlockProgram.Proofs.Workspace.History

/-!
# Requests to a session

A session is asked one thing after the other: to take note of an event, to restore a document,
to do what the host asks for, by a command or by a text, or to end. An event that is refused
leaves a sound canvas as it was, so that what a request can do to a session is little: an
accepted change is published, and otherwise only the stage may be another one.
-/

namespace BlockProgram

/-- Whether an event touches the canvas. -/
def Event.mutates : Event → Bool
  | .viewport => false
  | .selection _ => false
  | _ => true

/-- The settings and slots of a block that an event brings are in order, as those of any map by
name are. -/
def Event.Ordered : Event → Prop
  | .created b _ => b.Ordered
  | _ => True

/-- Whether the host asks for another canvas. -/
def HostCommand.mutates : HostCommand → Bool
  | .restore _ => true
  | .dispose => false

/-- What a session can be asked for. -/
inductive Request where
  /-- To take note of an event. -/
  | event (e : Event)
  /-- To restore a document. -/
  | restore (xml : String)
  /-- To do what the host asks for. -/
  | host (c : HostCommand)
  /-- To do what the host writes. -/
  | text (s : String)
  /-- To end. -/
  | dispose
  deriving DecidableEq, Repr

namespace Request

/-- Whether a request is for a change of the canvas or for another canvas. -/
def mutates : Request → Bool
  | event e => e.mutates
  | restore _ => true
  | host c => c.mutates
  | text s => (HostCommand.parse? s).any HostCommand.mutates
  | dispose => false

/-- The settings and slots of a block that a request brings are in order. -/
def Ordered : Request → Prop
  | event e => e.Ordered
  | _ => True

end Request

/-! ### Events -/

namespace Event

/-- Exactly the events that touch the canvas have an effect on it. -/
theorem apply_isSome (w : Workspace) (e : Event) : (e.apply w).isSome = e.mutates := by
  cases e <;> rfl

/-- What registries keep is kept by every event. -/
theorem registry_apply {I : Registry → Prop} (hI : Registry.Kept I) {w : Workspace} {e : Event}
    {edited : Edited Unit} (hw : I w.registry) (h : e.apply w = some edited) :
    I edited.2.registry := by
  cases e with
  | created b position => cases h; exact Workspace.registry_add hI hw b position
  | moved id placement => cases h; exact Workspace.registry_move hw id placement
  | changed id name value => cases h; exact Workspace.registry_setField hI hw id name value
  | deleted id => cases h; exact Workspace.registry_remove hw id
  | variableCreated name => cases h; exact hI.register hw name
  | variableRenamed g name => cases h; exact Workspace.registry_renameVariable hI hw g name
  | variableDeleted g => cases h; exact Workspace.registry_deleteVariable hI hw g
  | viewport => cases h
  | selection id => cases h

/-- An event makes one of the calls that change a canvas. -/
theorem exists_call {w : Workspace} {e : Event} (he : e.Ordered) {edited : Edited Unit}
    (h : e.apply w = some edited) : ∃ c : Call, edited.2 = w.call c := by
  cases e with
  | created b position => cases h; exact ⟨.add b he position, rfl⟩
  | moved id placement => cases h; exact ⟨.move id placement, rfl⟩
  | changed id name value => cases h; exact ⟨.setField id name value, rfl⟩
  | deleted id => cases h; exact ⟨.remove id, rfl⟩
  | variableCreated name => cases h; exact ⟨.createVariable name, rfl⟩
  | variableRenamed g name => cases h; exact ⟨.renameVariable g name, rfl⟩
  | variableDeleted g => cases h; exact ⟨.deleteVariable g, rfl⟩
  | viewport => cases h
  | selection id => cases h

/-- **An event that is refused leaves a sound canvas as it was.** -/
theorem eq_of_apply_error {w w' : Workspace} (hw : w.Sound) {e : Event} {fault : EditError}
    (h : e.apply w = some (.error fault, w')) : w' = w := by
  cases e with
  | created b position =>
    rcases Workspace.add_cases w b position with ⟨f, heq⟩ | ⟨-, heq⟩ <;>
      rw [apply, heq] at h <;> cases h
    rfl
  | moved id placement =>
    rcases hw.move_cases id placement with ⟨f, heq⟩ | ⟨top, heq, -⟩ <;>
      rw [apply, heq] at h <;> cases h
    rfl
  | changed id name value =>
    rcases Workspace.setField_cases w id name value with ⟨f, heq⟩ | ⟨b, value', r, -, -, -, heq⟩ <;>
      rw [apply, heq] at h <;> cases h
    rfl
  | deleted id =>
    rcases Workspace.remove_cases w id with ⟨f, heq⟩ | ⟨b, top, -, heq⟩ <;>
      rw [apply, heq] at h <;> cases h
    rfl
  | variableCreated name => cases h
  | variableRenamed g name =>
    rcases Workspace.renameVariable_cases w g name with
        ⟨f, heq⟩ | ⟨holder, r, -, heq | heq⟩ <;>
      rw [apply, heq] at h <;> cases h
    rfl
  | variableDeleted g =>
    rcases Workspace.deleteVariable_cases hw.ordered g with ⟨f, heq⟩ | ⟨top, heq, -⟩ <;>
      rw [apply, heq] at h <;> cases h
    rfl
  | viewport => cases h
  | selection id => cases h

end Event

/-! ### One request -/

namespace Session

variable {σ : Type} (setup : Setup σ)

/-- The answer to a request, and the session after it. -/
def serve (s : Session σ) : Request → Except SessionError Unit × Session σ
  | .event e => let (answer, s) := s.handle setup e; (answer.map fun _ => (), s)
  | .restore xml => s.restore setup xml
  | .host c => s.obey setup c
  | .text t => s.hear setup t
  | .dispose => (.ok (), s.dispose)

/-- The session after requests, one after the other. -/
def serveAll (s : Session σ) (requests : List Request) : Session σ :=
  requests.foldl (fun s r => (s.serve setup r).2) s

/-- Nothing is published: only the stage may be another one, and a change is not accepted. -/
def Idle (s : Session σ) (r : Request) : Prop :=
  ∃ answer stage, s.serve setup r = (answer, { s with stage := stage }) ∧
    (stage = s.stage ∨ stage = .disposed) ∧ (r.mutates → ∃ e, answer = .error e)

/-- An event is published, refused by the canvas, of no effect on the canvas, or refused because
of the stage. -/
theorem handle_cases (s : Session σ) (e : Event) :
    (∃ w, s.stage = .ready ∧ e.apply s.workspace = some (.ok (), w) ∧
      s.handle setup e = (.ok .regenerated, s.publish setup w)) ∨
    (∃ fault w, s.stage = .ready ∧ e.apply s.workspace = some (.error fault, w) ∧
      s.handle setup e = (.error (.edit fault), { s with workspace := w })) ∨
    (e.mutates = false ∧ s.handle setup e = (.ok .layoutRefresh, s)) ∨
    ∃ fault, s.handle setup e = (.error fault, s) := by
  rw [handle]
  split
  · rename_i hready
    split
    · rename_i hnone
      refine .inr (.inr (.inl ⟨?_, rfl⟩))
      rw [← e.apply_isSome s.workspace, hnone]
      rfl
    · rename_i w hok
      exact .inl ⟨w, hready, hok, rfl⟩
    · rename_i fault w herr
      exact .inr (.inl ⟨fault, w, hready, herr, rfl⟩)
  · exact .inr (.inr (.inr ⟨_, rfl⟩))

/-- Another canvas is asked for: it is read and published, or nothing happens. -/
theorem restore_cases (s : Session σ) (xml : String) :
    (∃ w, s.stage = .ready ∧ Document.read xml = .ok w ∧
      s.restore setup xml = (.ok (), s.publish setup w.migrate.2)) ∨
    ∃ e, s.restore setup xml = (.error e, s) := by
  rw [restore]
  split
  · rename_i hready
    cases hread : Document.read xml with
    | error fault => exact .inr ⟨_, rfl⟩
    | ok w => exact .inl ⟨w, hready, rfl, rfl⟩
  · exact .inr ⟨_, rfl⟩

/-- The host asks for something: another canvas is published, or only the stage changes. -/
theorem obey_cases (s : Session σ) (c : HostCommand) :
    (∃ xml w, c = .restore xml ∧ s.stage = .ready ∧ Document.read xml = .ok w ∧
      s.obey setup c = (.ok (), s.publish setup w.migrate.2)) ∨
    ∃ answer stage, s.obey setup c = (answer, { s with stage := stage }) ∧
      (stage = s.stage ∨ stage = .disposed) ∧ (c.mutates → ∃ e, answer = .error e) := by
  cases c with
  | restore xml =>
    rcases s.restore_cases setup xml with ⟨w, hready, hread, h⟩ | ⟨e, h⟩
    · exact .inl ⟨xml, w, rfl, hready, hread, h⟩
    · exact .inr ⟨_, s.stage, h, .inl rfl, fun _ => ⟨e, rfl⟩⟩
  | dispose => exact .inr ⟨_, _, rfl, .inr rfl, fun h => by cases h⟩

/-- The four things that a request can do: an event is published, an event is refused, another
canvas is published, or nothing is published. -/
theorem serve_cases (s : Session σ) (r : Request) :
    (∃ e w, r = .event e ∧ s.stage = .ready ∧ e.apply s.workspace = some (.ok (), w) ∧
      s.serve setup r = (.ok (), s.publish setup w)) ∨
    (∃ e fault w, r = .event e ∧ s.stage = .ready ∧
      e.apply s.workspace = some (.error fault, w) ∧
      s.serve setup r = (.error (.edit fault), { s with workspace := w })) ∨
    (∃ xml w, r.mutates ∧ s.stage = .ready ∧ Document.read xml = .ok w ∧
      s.serve setup r = (.ok (), s.publish setup w.migrate.2)) ∨
    s.Idle setup r := by
  cases r with
  | event e =>
    rcases s.handle_cases setup e with ⟨w, hready, happly, h⟩ | ⟨fault, w, hready, happly, h⟩ |
      ⟨hview, h⟩ | ⟨fault, h⟩
    · exact .inl ⟨e, w, rfl, hready, happly, by rw [serve, h]; rfl⟩
    · exact .inr (.inl ⟨e, fault, w, rfl, hready, happly, by rw [serve, h]; rfl⟩)
    · refine .inr (.inr (.inr ⟨.ok (), s.stage, by rw [serve, h]; rfl, .inl rfl, fun hm => ?_⟩))
      rw [Request.mutates, hview] at hm
      cases hm
    · exact .inr (.inr (.inr ⟨.error fault, s.stage, by rw [serve, h]; rfl, .inl rfl,
        fun _ => ⟨fault, rfl⟩⟩))
  | restore xml =>
    rcases s.restore_cases setup xml with ⟨w, hready, hread, h⟩ | ⟨e, h⟩
    · exact .inr (.inr (.inl ⟨xml, w, rfl, hready, hread, h⟩))
    · exact .inr (.inr (.inr ⟨_, s.stage, h, .inl rfl, fun _ => ⟨e, rfl⟩⟩))
  | host c =>
    rcases s.obey_cases setup c with ⟨xml, w, rfl, hready, hread, h⟩ | hidle
    · exact .inr (.inr (.inl ⟨xml, w, rfl, hready, hread, h⟩))
    · exact .inr (.inr (.inr hidle))
  | text t =>
    cases hc : HostCommand.parse? t with
    | none =>
      refine .inr (.inr (.inr ⟨.ok (), s.stage, ?_, .inl rfl, fun h => ?_⟩))
      · simp only [serve, hear, hc]
      · simp [Request.mutates, hc] at h
    | some c =>
      have hserve : s.serve setup (.text t) = s.obey setup c := by simp only [serve, hear, hc]
      have hmutates : Request.mutates (.text t) = c.mutates := by simp [Request.mutates, hc]
      rcases s.obey_cases setup c with ⟨xml, w, rfl, hready, hread, h⟩ |
        ⟨answer, stage, h, hstage, herr⟩
      · exact .inr (.inr (.inl ⟨xml, w, hmutates, hready, hread, hserve.trans h⟩))
      · exact .inr (.inr (.inr ⟨answer, stage, hserve.trans h, hstage,
          fun hm => herr (hmutates ▸ hm)⟩))
  | dispose => exact .inr (.inr (.inr ⟨_, _, rfl, .inr rfl, fun h => by cases h⟩))

end Session

end BlockProgram
