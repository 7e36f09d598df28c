import BlockProgram.Proofs.Session.Request

/-!
# Names in a session

A session migrates the names of every canvas that it takes, and from then on only does to the
registry what keeps it clean. So the variables of a session always go by distinct identifiers,
and a handle stands for exactly the name of its variable.
-/

namespace BlockProgram.Session

open Identifier

variable {σ : Type} (setup : Setup σ)

theorem clean_of_read {text : String} {w : Workspace} (h : Document.read text = .ok w) :
    w.migrate.2.registry.Clean :=
  Registry.clean_migrate (Document.sound_of_read h).2.nodup_handles _

/-- The registry is clean when a session has been opened. -/
theorem clean_start (sent : σ) {answers : List (Option Workspace)}
    (h : ∀ w, answers.findSome? (·) = some w → w.registry.Built) :
    (start setup sent answers).workspace.registry.Clean := by
  rw [start]
  cases hw : answers.findSome? (·) with
  | none => exact Registry.clean_empty
  | some w => exact Registry.clean_migrate (h w hw).nodup_handles _

/-- A request keeps the registry clean. -/
theorem clean_serve {s : Session σ} (hs : s.workspace.registry.Clean) (r : Request) :
    (s.serve setup r).2.workspace.registry.Clean := by
  rcases s.serve_cases setup r with ⟨e, w, -, -, happly, h⟩ | ⟨e, fault, w, -, -, happly, h⟩ |
    ⟨xml, w, -, -, hread, h⟩ | ⟨answer, stage, h, -⟩
  · rw [h]
    exact Event.registry_apply Registry.kept_clean hs happly
  · rw [h]
    exact Event.registry_apply Registry.kept_clean hs happly
  · rw [h]
    exact clean_of_read hread
  · rwa [h]

theorem clean_serveAll {s : Session σ} (hs : s.workspace.registry.Clean) (requests : List Request) :
    (s.serveAll setup requests).workspace.registry.Clean := by
  induction requests generalizing s with
  | nil => exact hs
  | cons r rs ih => exact ih (clean_serve setup hs r)

/-- **The names of a live session**, opened on any canvas whose registry has been built by the
operations of registries: after any requests, the variables go by distinct identifiers, they have
distinct handles, and each handle is resolved to the name of its variable. -/
theorem names_of_serveAll (sent : σ) {answers : List (Option Workspace)}
    (h : ∀ w, answers.findSome? (·) = some w → w.registry.Built) (requests : List Request) :
    let r := ((start setup sent answers).serveAll setup requests).workspace.registry
    (∀ v ∈ r.vars, isIdentifier v.resolved) ∧ (r.vars.map Variable.resolved).Nodup ∧
      (r.vars.map Variable.handle).Nodup ∧
      ∀ v ∈ r.vars, r.resolve (some v.handle) = v.resolved := by
  have hclean := clean_serveAll setup (clean_start setup sent h) requests
  exact ⟨hclean.identifiers, hclean.names_nodup, hclean.handles, fun v hv => hclean.resolve_eq hv⟩

/-- A canvas with a name that is no identifier is handed over, and a variable is created. -/
theorem names_of_serveAll_declared :
    let w : Workspace := .ofParts [] (Registry.empty.declare ⟨"h"⟩ "my var")
    let r := ((start ⟨.refusing, .visual⟩ () [some w]).serveAll ⟨.refusing, .visual⟩
      [.event (.variableCreated "x"), .event (.variableRenamed ⟨"var_1"⟩ "x")]).workspace.registry
    (∀ v ∈ r.vars, isIdentifier v.resolved) ∧ (r.vars.map Variable.resolved).Nodup ∧
      (r.vars.map Variable.handle).Nodup ∧
      ∀ v ∈ r.vars, r.resolve (some v.handle) = v.resolved := by
  refine names_of_serveAll ⟨.refusing, .visual⟩ () ?_ _
  intro w hw
  cases hw
  exact .declare .empty _ _

end BlockProgram.Session
