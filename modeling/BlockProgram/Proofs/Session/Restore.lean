import BlockProgram.Proofs.Code.Handles
import BlockProgram.Proofs.Document.Legible
import BlockProgram.Proofs.Session.Log
import BlockProgram.Proofs.Session.Names
import BlockProgram.Proofs.Workspace.Migration

/-!
# Restoring a session from its own document

The document at hand can be handed back to the session. If all strings on the canvas are texts
that a document may hold, the canvas is read back and the program stays the same. But a session
takes in strings of any characters and writes all of them as they are: as soon as one of them has
a character that no document may hold, the session refuses its own document.
-/

namespace BlockProgram

/-! ### Kinds over time -/

/-- The kinds of the blocks that an event brings are named by tags. -/
def Event.Tagged : Event → Prop
  | .created b _ => ∀ n ∈ b.nodes, n.Tagged
  | _ => True

/-- The kinds of the blocks that a request brings are named by tags. -/
def Request.Tagged : Request → Prop
  | .event e => e.Tagged
  | _ => True

/-- Giving a setting a value changes no kind. -/
theorem kinds_setField {id : BlockId} {name : String} {value : Field} {top top' : List TopBlock}
    (h : Workspace.updateTop? id (Block.setField · name value) top = some top') :
    ((topNodes top').map Node.kind).Perm ((topNodes top).map Node.kind) := by
  obtain ⟨b, others, -, hold, hnew⟩ := Workspace.perm_updateTop? h
  exact (hnew.map Node.kind).trans (hold.map Node.kind).symm

/-- An event changes no kind, and brings only kinds that are named by tags. -/
theorem Event.tagged_apply {w w' : Workspace} (hw : w.Sound) (ht : ∀ n ∈ w.nodes, n.Tagged)
    {e : Event} (he : e.Tagged) (h : e.apply w = some (.ok (), w')) :
    ∀ n ∈ w'.nodes, n.Tagged := by
  cases e with
  | created b position =>
    rcases Workspace.add_cases w b position with ⟨f, heq⟩ | ⟨-, heq⟩ <;>
      rw [apply, heq] at h <;> cases h
    have hkinds : (b.mapState Workspace.bindNode w.registry).1.nodes.map Node.kind =
        b.nodes.map Node.kind := Block.map_nodes_mapState Workspace.kind_bindNode b _
    rw [Workspace.nodes, topNodes_append, topNodes_cons, topNodes_nil, List.append_nil]
    exact List.forall_mem_append.mpr ⟨ht, tagged_of_kinds (List.Perm.of_eq hkinds).subset he⟩
  | moved id placement =>
    rcases hw.move_cases id placement with ⟨f, heq⟩ | ⟨top, heq, hperm, -⟩ <;>
      rw [apply, heq] at h <;> cases h
    exact fun n hn => ht n (hperm.mem_iff.mp hn)
  | changed id name value =>
    rcases Workspace.setField_cases w id name value with
        ⟨f, heq⟩ | ⟨b, value', r, hfind, -, -, heq⟩ <;>
      rw [apply, heq] at h <;> cases h
    cases htop : Workspace.updateTop? id (Block.setField · name value') w.top with
    | none => exact ht
    | some top => exact tagged_of_kinds (kinds_setField htop).subset ht
  | deleted id =>
    rcases Workspace.remove_cases w id with ⟨f, heq⟩ | ⟨b, top, htake, heq⟩ <;>
      rw [apply, heq] at h <;> cases h
    exact fun n hn => ht n ((Workspace.subperm_take? htake).subset hn)
  | variableCreated name =>
    cases h
    exact ht
  | variableRenamed g name =>
    rcases Workspace.renameVariable_cases w g name with
        ⟨f, heq⟩ | ⟨holder, r, -, heq | heq⟩ <;>
      rw [apply, heq] at h <;> cases h
    · exact ht
    · exact tagged_of_kinds (List.Perm.of_eq (kinds_mapHandle _ w.top)).subset ht
  | variableDeleted g =>
    rcases Workspace.deleteVariable_cases hw.ordered g with ⟨f, heq⟩ | ⟨top, heq, hsub, -⟩ <;>
      rw [apply, heq] at h <;> cases h
    exact fun n hn => ht n (hsub.subset hn)
  | viewport => cases h
  | selection id => cases h

theorem Workspace.Origin.tagged {w : Workspace} (hw : w.Origin) : ∀ n ∈ w.nodes, n.Tagged := by
  cases hw with
  | empty => exact fun n hn => absurd hn List.not_mem_nil
  | read h => exact Document.tagged_of_read h

theorem Workspace.Origin.built {w : Workspace} (hw : w.Origin) : w.registry.Built := by
  cases hw with
  | empty => exact .empty
  | read h => exact (Document.sound_of_read h).2

namespace Session

variable {σ : Type} {setup : Setup σ}

theorem Current.tagged_serve {s : Session σ} (hs : s.Current setup)
    (ht : ∀ n ∈ s.workspace.nodes, n.Tagged) {r : Request} (hr : r.Tagged) :
    ∀ n ∈ (s.serve setup r).2.workspace.nodes, n.Tagged := by
  rcases s.serve_cases setup r with ⟨e, w, rfl, -, happly, h⟩ | ⟨e, fault, w, rfl, -, happly, h⟩ |
    ⟨xml, w, -, -, hread, h⟩ | ⟨answer, stage, h, -⟩
  · rw [h]
    exact Event.tagged_apply hs.sound ht hr happly
  · rw [h, Event.eq_of_apply_error hs.sound happly]
    exact ht
  · rw [h]
    exact Workspace.tagged_migrate (Document.tagged_of_read hread)
  · rw [h]
    exact ht

theorem Current.tagged_serveAll {s : Session σ} (hs : s.Current setup)
    (ht : ∀ n ∈ s.workspace.nodes, n.Tagged) {requests : List Request}
    (hr : ∀ r ∈ requests, r.Ordered ∧ r.Tagged) :
    ∀ n ∈ (s.serveAll setup requests).workspace.nodes, n.Tagged := by
  induction requests generalizing s with
  | nil => exact ht
  | cons r rs ih =>
    obtain ⟨hr, hrs⟩ := List.forall_mem_cons.mp hr
    exact ih (hs.serve hr.1) (hs.tagged_serve ht hr.2) hrs

/-! ### Restoring -/

/-- A session that is ready reads its own document back exactly if its canvas is legible. -/
theorem Current.restore_cases {s : Session σ} (hs : s.Current setup)
    (hclean : s.workspace.registry.Clean) (ht : ∀ n ∈ s.workspace.nodes, n.Tagged)
    (hready : s.stage = .ready) :
    (s.workspace.Legible → ∃ w, s.restore setup s.document = (.ok (), s.publish setup w) ∧
      w.top.map TopBlock.block = s.workspace.top.map TopBlock.block ∧
      ∀ h, w.registry.lookup h = s.workspace.registry.lookup h) ∧
    (¬ s.workspace.Legible →
      s.restore setup s.document = (.error (.document .malformed), s)) := by
  rw [hs.document]
  refine ⟨fun hlegible => ?_, fun hlegible => ?_⟩
  · obtain ⟨w, hread, hblocks, hvars⟩ := hlegible.read_back hs.sound ht
    refine ⟨w, ?_, hblocks, Registry.lookup_congr hvars⟩
    -- the names read back are those of a clean registry, so that migration has nothing to do
    rw [restore, if_pos hready, hread]
    simp only [Workspace.migrate_of_clean (hclean.congr hvars)]
  · rw [restore, if_pos hready, Document.read_write_of_not_legible hlegible]

/-- **Restoring a session from its own document**, in the order of arrival, after any requests to a
session that was opened on a canvas which is empty or has been read. If every string on the canvas
is a text that a document may hold, the document is accepted and the program stays as it is.
Otherwise the document is refused, and the session stays as it is. -/
theorem restore_document (setup : Setup σ) (horder : setup.order = .insertion) (sent : σ)
    {answers : List (Option Workspace)} {w : Workspace} (hw : answers.findSome? (·) = some w)
    (horigin : w.Origin) {requests : List Request} (hr : ∀ r ∈ requests, r.Ordered ∧ r.Tagged)
    (hready : ((start setup sent answers).serveAll setup requests).stage = .ready) :
    let s := (start setup sent answers).serveAll setup requests
    (s.workspace.Legible → (s.restore setup s.document).1 = .ok () ∧
      (s.restore setup s.document).2.code = s.code) ∧
    (¬ s.workspace.Legible →
      s.restore setup s.document = (.error (.document .malformed), s)) := by
  intro s
  have hopened := current_start setup sent hw horigin
  have htagged : ∀ n ∈ (start setup sent answers).workspace.nodes, n.Tagged := by
    rw [start_of_canvas setup sent hw]
    exact Workspace.tagged_migrate horigin.tagged
  have hclean : s.workspace.registry.Clean := by
    refine clean_serveAll setup (clean_start setup sent fun w' hw' => ?_) requests
    rw [← Option.some.inj (hw.symm.trans hw')]
    exact horigin.built
  have hs : s.Current setup := hopened.serveAll fun r hmem => (hr r hmem).1
  obtain ⟨haccepted, hrefused⟩ :=
    hs.restore_cases hclean (hopened.tagged_serveAll htagged hr) hready
  refine ⟨fun hlegible => ?_, hrefused⟩
  obtain ⟨w', h, hblocks, hlookup⟩ := haccepted hlegible
  rw [h]
  refine ⟨rfl, ?_⟩
  rw [hs.code]
  show Program.text setup.order w'.registry w'.top = Program.text setup.order _ _
  rw [horder]
  exact Program.text_insertion_congr hblocks hlookup

/-- A variable is created, and a block of it is put half a unit from the left, with a text that has
to be escaped in its input. -/
theorem restore_document_escaped :
    let setup : Setup Unit := ⟨.refusing, .insertion⟩
    let value : Node := ⟨⟨"b"⟩, .text, ⟨[("TEXT", .text "1 < \"2\"\r\n")]⟩⟩
    let head : Node := ⟨⟨"a"⟩, .variableSet, ⟨[("VAR", .text "x")]⟩⟩
    let place : Position := ⟨⟨false, 0x3FE0000000000000⟩, .zero true⟩
    let requests : List Request := [.event (.variableCreated "x"),
      .event (.created ⟨head, .cons (.input "VALUE") value .nil .nil⟩ (some place))]
    let s := (start setup () [some .empty]).serveAll setup requests
    s.code = "x = \"1 < \\\"2\\\"\\r\\n\"\n" ∧ (s.restore setup s.document).1 = .ok () ∧
      (s.restore setup s.document).2.code = s.code := by
  intro setup value head place requests
  have hr : ∀ r ∈ requests, r.Ordered ∧ r.Tagged := by
    refine List.forall_mem_cons.mpr ⟨⟨trivial, trivial⟩, List.forall_mem_singleton.mpr ⟨?_, ?_⟩⟩
    · simp only [Request.Ordered, Event.Ordered, Block.Ordered, Children.Ordered, Fields.Sorted]
      decide
    · exact List.forall_mem_cons.mpr ⟨⟨"variables_set", rfl⟩,
        List.forall_mem_singleton.mpr ⟨"text", rfl⟩⟩
  have hlegible : ((start setup () [some .empty]).serveAll setup requests).workspace.Legible := by
    decide
  exact ⟨by decide, (restore_document setup rfl () rfl .empty hr rfl).1 hlegible⟩

/-- A text with a control character: the document of the session is refused by the session. -/
theorem restore_refused_control :
    let setup : Setup Unit := ⟨.refusing, .insertion⟩
    let b : Block := .leaf ⟨"t"⟩ .text ⟨[("TEXT", .text "\x01")]⟩
    let s := (start setup () [some .empty]).serveAll setup [.event (.created b none)]
    s.stage = .ready ∧ s.code = "\"\\x01\"\n" ∧
      s.restore setup s.document = (.error (.document .malformed), s) :=
  ⟨rfl, by decide, rfl⟩

end Session

end BlockProgram
