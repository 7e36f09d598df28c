import BlockProgram.CommandLine.Run

/-!
# What a run does

A run is given its files by its surroundings, and `Shell.Lawful` says all that it relies on there: a
file of text has a full path under which it is found as well, a text that is put into a file is
found there, and nothing else changes that can be seen. Then a run fails because of a document
exactly if the document is refused, and otherwise it puts the program and the document where they
are asked for.
-/

namespace BlockProgram.CommandLine

/-! ### The parts of a run -/

section Parts

variable {m : Type → Type} [Monad m]

/-- The line for a stage of a run is told. -/
def tellStage (sh : Shell m) (o : Options) (step : Nat) (label : String) :
    ExceptT RunError m Unit :=
  sh.report (progressLine step o.stages label)

/-- The document is written, if a run is asked for it. -/
def emitDocument (sh : Shell m) (o : Options) (document : String) : ExceptT RunError m Unit :=
  match o.emitDocument with
  | some target => do
    tellStage sh o 4 "Writing normalized document"
    writeText sh target document
  | none => pure ()

/-- The program is written or printed. -/
def emitProgram (sh : Shell m) (o : Options) (code : String) : ExceptT RunError m Unit :=
  match o.output with
  | some target => do
    tellStage sh o o.stages "Writing Python output"
    writeText sh target code
  | none => sh.print code

/-- A run in its parts. -/
theorem generate_eq [LawfulMonad m] (sh : Shell m) (o : Options) (input : String) :
    generate sh o input = (do
      tellStage sh o 1 "Resolving input path"
      let path ← locate sh input
      tellStage sh o 2 "Reading block document"
      let read ← readWorkspace sh path
      tellStage sh o 3 "Sanitizing variables and generating Python"
      emitDocument sh o (Document.write read.migrate.2)
      emitProgram sh o (read.migrate.2.program o.order)) := by
  unfold generate emitDocument
  cases o.emitDocument with
  | none => simp only [pure_bind]; rfl
  | some target => simp only [bind_assoc]; rfl

end Parts

/-! ### Actions in some surroundings -/

section Actions

variable {σ α β : Type} {s s' : σ}

/-- What comes of an action in a state of its surroundings, and the state after it. -/
def exec (s : σ) (action : ExceptT RunError (StateM σ) α) : Except RunError α × σ :=
  action.run.run s

theorem exec_bind_ok {action : ExceptT RunError (StateM σ) α} {a : α}
    (h : exec s action = (.ok a, s')) (next : α → ExceptT RunError (StateM σ) β) :
    exec s (action >>= next) = exec s' (next a) := by
  have h : action.run.run s = (.ok a, s') := h
  simp only [exec, ExceptT.run_bind, StateT.run_bind, h]
  rfl

theorem exec_bind_error {action : ExceptT RunError (StateM σ) α} {fault : RunError}
    (h : exec s action = (.error fault, s')) (next : α → ExceptT RunError (StateM σ) β) :
    exec s (action >>= next) = (.error fault, s') := by
  have h : action.run.run s = (.error fault, s') := h
  simp only [exec, ExceptT.run_bind, StateT.run_bind, h]
  rfl

/-- What the surroundings do never fails. -/
theorem exec_liftM (action : StateM σ α) :
    exec s (liftM action) = (.ok (action.run s).1, (action.run s).2) := rfl

end Actions

/-! ### Surroundings -/

/-- What can be seen of surroundings in a state: the texts in files, the places that paths name for
files to be written, and the output. -/
structure Outlook (σ π : Type) where
  /-- The text of the file that a path leads to. -/
  text? : σ → String → Option String
  /-- The place that a path names for a file to be written. -/
  target? : σ → String → Option π
  /-- What has been printed. -/
  printed : σ → String

variable {σ π : Type}

namespace Outlook

/-- What can be seen is the same in two states. -/
structure Same (view : Outlook σ π) (s s' : σ) : Prop where
  /-- The texts in files are the same. -/
  text : view.text? s' = view.text? s
  /-- The places for files are the same. -/
  target : view.target? s' = view.target? s
  /-- The output is the same. -/
  printed : view.printed s' = view.printed s

theorem Same.trans {view : Outlook σ π} {s s' s'' : σ} (h : view.Same s s')
    (h' : view.Same s' s'') : view.Same s s'' :=
  ⟨h'.text.trans h.text, h'.target.trans h.target, h'.printed.trans h.printed⟩

end Outlook

/-- What a run relies on in its surroundings. -/
structure Shell.Lawful (sh : Shell (StateM σ)) (view : Outlook σ π) : Prop where
  /-- A file of text is there. -/
  isFile : ∀ {s path text}, view.text? s path = some text → (sh.isFile path).run s = (true, s)
  /-- It has a full path, and it is found under that path as well. -/
  fullPath : ∀ {s path text}, view.text? s path = some text →
    ∃ full, (sh.fullPath path).run s = (some full, s) ∧ view.text? s full = some text
  /-- It can be read. -/
  read : ∀ {s path text}, view.text? s path = some text → (sh.read path).run s = (some text, s)
  /-- A text can be put into a file that has a place. It is found there, what can be written at
  other places is as it was, and neither the places nor the output change. -/
  write : ∀ {s path place} text, view.target? s path = some place →
    ∃ s', (sh.write path text).run s = (true, s') ∧ view.text? s' path = some text ∧
      (∀ other elsewhere, view.target? s other = some elsewhere → elsewhere ≠ place →
        view.text? s' other = view.text? s other) ∧
      view.target? s' = view.target? s ∧ view.printed s' = view.printed s
  /-- What is printed is added to the output, and no file changes. -/
  print : ∀ s text, ∃ s', (sh.print text).run s = ((), s') ∧ view.text? s' = view.text? s ∧
    view.target? s' = view.target? s ∧ view.printed s' = view.printed s ++ text
  /-- Nothing is seen of what is told of progress. -/
  report : ∀ s text, ∃ s', (sh.report text).run s = ((), s') ∧ view.Same s s'

namespace Outlook

/-- The files that a run is asked to write can be written, and they are not one file. -/
structure Accepts (view : Outlook σ π) (s : σ) (o : Options) : Prop where
  /-- The file for the program can be written. -/
  output : ∀ path ∈ o.output, (view.target? s path).isSome
  /-- The file for the document can be written. -/
  emitDocument : ∀ path ∈ o.emitDocument, (view.target? s path).isSome
  /-- They are not one file. -/
  apart : ∀ path ∈ o.output, ∀ other ∈ o.emitDocument,
    view.target? s path ≠ view.target? s other

theorem Accepts.congr {view : Outlook σ π} {s s' : σ} {o : Options} (h : view.Accepts s o)
    (htarget : view.target? s' = view.target? s) : view.Accepts s' o :=
  ⟨htarget ▸ h.output, htarget ▸ h.emitDocument, htarget ▸ h.apart⟩

/-- A program and a document are where they were asked for: in files, and the program in the output
if no file is named for it. -/
structure Received (view : Outlook σ π) (s s' : σ) (o : Options) (code document : String) :
    Prop where
  /-- The program is in its file. -/
  output : ∀ path ∈ o.output, view.text? s' path = some code
  /-- The program is printed if there is no file for it. -/
  printed : view.printed s' =
    if o.output.isSome then view.printed s else view.printed s ++ code
  /-- The document is in its file. -/
  emitDocument : ∀ path ∈ o.emitDocument, view.text? s' path = some document

end Outlook

/-! ### Steps of a run -/

namespace Shell.Lawful

variable {sh : Shell (StateM σ)} {view : Outlook σ π} (h : sh.Lawful view) {s : σ}
include h

theorem exec_tellStage (o : Options) (step : Nat) (label : String) :
    ∃ s', exec s (tellStage sh o step label) = (.ok (), s') ∧ view.Same s s' := by
  obtain ⟨s', hrun, hsame⟩ := h.report s (progressLine step o.stages label)
  exact ⟨s', by rw [tellStage, exec_liftM, hrun], hsame⟩

theorem exec_locate {path text : String} (htext : view.text? s path = some text) :
    ∃ full, exec s (locate sh path) = (.ok full, s) ∧ view.text? s full = some text := by
  obtain ⟨full, hrun, hfull⟩ := h.fullPath htext
  have hfile : exec s (liftM (sh.isFile path)) = (.ok true, s) := by
    rw [exec_liftM, h.isFile htext]
  have hpath : exec s (liftM (sh.fullPath path)) = (.ok (some full), s) := by
    rw [exec_liftM, hrun]
  refine ⟨full, ?_, hfull⟩
  rw [locate, exec_bind_ok hfile, if_pos rfl, exec_bind_ok hpath]
  rfl

theorem exec_readWorkspace {path text : String} (htext : view.text? s path = some text) :
    exec s (readWorkspace sh path) = ((Document.read text).mapError (.document · path), s) := by
  have hread : exec s (liftM (sh.read path)) = (.ok (some text), s) := by
    rw [exec_liftM, h.read htext]
  have htext : exec s (readText sh path) = (.ok text, s) := by
    rw [readText, exec_bind_ok hread]
    rfl
  rw [readWorkspace, exec_bind_ok htext]
  cases Document.read text <;> rfl

/-- A stage is told and a file is written: the text is found, and what can be written elsewhere is
as it was. -/
theorem exec_write {path : String} {place : π} (hplace : view.target? s path = some place)
    (text : String) (o : Options) (step : Nat) (label : String) :
    ∃ s', exec s (do tellStage sh o step label; writeText sh path text) = (.ok (), s') ∧
      view.text? s' path = some text ∧
      (∀ other elsewhere, view.target? s other = some elsewhere → elsewhere ≠ place →
        view.text? s' other = view.text? s other) ∧
      view.target? s' = view.target? s ∧ view.printed s' = view.printed s := by
  obtain ⟨s₁, htell, hsame⟩ := h.exec_tellStage (s := s) o step label
  obtain ⟨s₂, hrun, htext, hkept, htarget, hprinted⟩ :=
    h.write text (hsame.target ▸ hplace : view.target? s₁ path = some place)
  refine ⟨s₂, ?_, htext, fun other elsewhere hother hne => ?_, htarget.trans hsame.target,
    hprinted.trans hsame.printed⟩
  · have hwrite : exec s₁ (liftM (sh.write path text)) = (.ok true, s₂) := by
      rw [exec_liftM, hrun]
    rw [exec_bind_ok htell, writeText, exec_bind_ok hwrite]
    rfl
  · rw [← hsame.target] at hother
    rw [hkept other elsewhere hother hne, hsame.text]

theorem exec_emitDocument {o : Options}
    (ho : ∀ path ∈ o.emitDocument, (view.target? s path).isSome) (document : String) :
    ∃ s', exec s (emitDocument sh o document) = (.ok (), s') ∧
      (∀ path ∈ o.emitDocument, view.text? s' path = some document) ∧
      view.target? s' = view.target? s ∧ view.printed s' = view.printed s := by
  rw [emitDocument]
  cases hpath : o.emitDocument with
  | none => exact ⟨s, rfl, by simp, rfl, rfl⟩
  | some path =>
    obtain ⟨place, hplace⟩ := Option.isSome_iff_exists.mp (ho path hpath)
    obtain ⟨s', hexec, htext, -, hsame⟩ := h.exec_write hplace document o 4
      "Writing normalized document"
    refine ⟨s', hexec, ?_, hsame⟩
    rintro _ ⟨⟩
    exact htext

theorem exec_emitProgram {o : Options} (ho : ∀ path ∈ o.output, (view.target? s path).isSome)
    (code : String) :
    ∃ s', exec s (emitProgram sh o code) = (.ok (), s') ∧
      (∀ path ∈ o.output, view.text? s' path = some code) ∧
      view.printed s' = (if o.output.isSome then view.printed s else view.printed s ++ code) ∧
      ∀ other, (view.target? s other).isSome →
        (∀ path ∈ o.output, view.target? s path ≠ view.target? s other) →
        view.text? s' other = view.text? s other := by
  rw [emitProgram]
  cases hpath : o.output with
  | none =>
    obtain ⟨s', hrun, htext, -, hprinted⟩ := h.print s code
    exact ⟨s', by rw [exec_liftM, hrun], by simp, hprinted, fun other _ _ => by rw [htext]⟩
  | some path =>
    obtain ⟨place, hplace⟩ := Option.isSome_iff_exists.mp (ho path hpath)
    obtain ⟨s', hexec, htext, hkept, -, hprinted⟩ := h.exec_write hplace code o o.stages
      "Writing Python output"
    refine ⟨s', hexec, ?_, hprinted, fun other hother hapart => ?_⟩
    · rintro _ ⟨⟩
      exact htext
    · obtain ⟨elsewhere, helsewhere⟩ := Option.isSome_iff_exists.mp hother
      refine hkept other elsewhere helsewhere fun heq => hapart path rfl ?_
      rw [hplace, helsewhere, heq]

end Shell.Lawful

/-! ### Failures -/

/-- An action that never fails because of a document. -/
def Undocumented (action : ExceptT RunError (StateM σ) Unit) : Prop :=
  ∀ (s : σ) (fault : DocumentError) (path : String),
    (exec s action).1 ≠ .error (.document fault path)

theorem Undocumented.bind {action next : ExceptT RunError (StateM σ) Unit}
    (haction : Undocumented action) (hnext : Undocumented next) :
    Undocumented (action >>= fun _ => next) := by
  intro s fault path
  cases h : exec s action with
  | mk answer s' =>
    cases answer with
    | ok _ =>
      rw [exec_bind_ok h]
      exact hnext s' fault path
    | error e =>
      rw [exec_bind_error h]
      exact fun heq => haction s fault path (by rw [h]; exact heq)

section Undocumented

variable (sh : Shell (StateM σ)) (o : Options)

theorem undocumented_tellStage (step : Nat) (label : String) :
    Undocumented (tellStage sh o step label) :=
  fun s fault path h => by cases h

theorem undocumented_writeText (path text : String) : Undocumented (writeText sh path text) := by
  intro s fault other
  have hwrite := exec_liftM (s := s) (sh.write path text)
  rw [writeText, exec_bind_ok hwrite]
  cases ((sh.write path text).run s).1 <;> exact fun h => by cases h

theorem undocumented_emitDocument (document : String) :
    Undocumented (emitDocument sh o document) := by
  rw [emitDocument]
  cases o.emitDocument with
  | none => exact fun s fault path h => by cases h
  | some path =>
    exact (undocumented_tellStage sh o _ _).bind (undocumented_writeText sh path document)

theorem undocumented_emitProgram (code : String) : Undocumented (emitProgram sh o code) := by
  rw [emitProgram]
  cases o.output with
  | none => exact fun s fault path h => by cases h
  | some path =>
    exact (undocumented_tellStage sh o _ _).bind (undocumented_writeText sh path code)

/-- What a run does with a canvas that it has read. -/
def deliver (w : Workspace) : ExceptT RunError (StateM σ) Unit := do
  tellStage sh o 3 "Sanitizing variables and generating Python"
  emitDocument sh o (Document.write w.migrate.2)
  emitProgram sh o (w.migrate.2.program o.order)

theorem undocumented_deliver (w : Workspace) : Undocumented (deliver sh o w) :=
  (undocumented_tellStage sh o _ _).bind
    ((undocumented_emitDocument sh o _).bind (undocumented_emitProgram sh o _))

end Undocumented

/-! ### Runs -/

namespace Shell.Lawful

variable {sh : Shell (StateM σ)} {view : Outlook σ π} (h : sh.Lawful view) {s : σ}
  {input text : String} (hinput : view.text? s input = some text)
include h

theorem exec_deliver {o : Options} (ho : view.Accepts s o) (w : Workspace) :
    ∃ s', exec s (deliver sh o w) = (.ok (), s') ∧
      view.Received s s' o (w.migrate.2.program o.order) (Document.write w.migrate.2) := by
  obtain ⟨s₁, htell, hsame⟩ := h.exec_tellStage (s := s) o 3
    "Sanitizing variables and generating Python"
  have ho₁ := ho.congr hsame.target
  obtain ⟨s₂, hemit, hdocument, htarget₂, hprinted₂⟩ :=
    h.exec_emitDocument ho₁.emitDocument (Document.write w.migrate.2)
  have ho₂ := ho₁.congr htarget₂
  obtain ⟨s₃, hprogram, houtput, hprinted₃, hkept⟩ :=
    h.exec_emitProgram ho₂.output (w.migrate.2.program o.order)
  refine ⟨s₃, ?_, houtput, ?_, fun path hpath => ?_⟩
  · rw [deliver, exec_bind_ok htell, exec_bind_ok hemit]
    exact hprogram
  · rw [hprinted₃, hprinted₂, hsame.printed]
  · -- the document is in another file than the program, so that it is still there
    rw [hkept path (ho₂.emitDocument path hpath) fun other hother =>
      ho₂.apart other hother path hpath]
    exact hdocument path hpath

include hinput

/-- A run on a file of text reads the text, and goes on with its canvas or fails. -/
theorem exec_generate (o : Options) :
    ∃ path s', view.Same s s' ∧
      exec s (generate sh o input) =
        match Document.read text with
        | .error fault => (.error (.document fault path), s')
        | .ok w => exec s' (deliver sh o w) := by
  obtain ⟨s₁, htell₁, hsame₁⟩ := h.exec_tellStage (s := s) o 1 "Resolving input path"
  obtain ⟨full, hlocate, hfull⟩ := h.exec_locate (hsame₁.text ▸ hinput : view.text? s₁ input = _)
  obtain ⟨s₂, htell₂, hsame₂⟩ := h.exec_tellStage (s := s₁) o 2 "Reading block document"
  have hread := h.exec_readWorkspace (hsame₂.text ▸ hfull : view.text? s₂ full = _)
  refine ⟨full, s₂, hsame₁.trans hsame₂, ?_⟩
  rw [generate_eq, exec_bind_ok htell₁, exec_bind_ok hlocate, exec_bind_ok htell₂]
  cases hdocument : Document.read text with
  | error fault =>
    rw [hdocument] at hread
    exact exec_bind_error hread _
  | ok w =>
    rw [hdocument] at hread
    exact exec_bind_ok hread _

/-- **A run fails because of the document exactly if the document is refused.** -/
theorem generate_document_iff (o : Options) (fault : DocumentError) :
    (∃ path, (exec s (generate sh o input)).1 = .error (.document fault path)) ↔
      Document.read text = .error fault := by
  obtain ⟨path, s', -, hexec⟩ := h.exec_generate hinput o
  rw [hexec]
  cases Document.read text with
  | error e => simp
  | ok w => simp [undocumented_deliver sh o w s' fault]

/-- **A run on a document that is not refused delivers**: its program and its document are where
they are asked for. -/
theorem generate_received {o : Options} (ho : view.Accepts s o) {w : Workspace}
    (hread : Document.read text = .ok w) :
    ∃ s', exec s (generate sh o input) = (.ok (), s') ∧
      view.Received s s' o (w.migrate.2.program o.order) (Document.write w.migrate.2) := by
  obtain ⟨path, s₁, hsame, hexec⟩ := h.exec_generate hinput o
  obtain ⟨s₂, hdeliver, hreceived⟩ := h.exec_deliver (ho.congr hsame.target) w
  rw [hread] at hexec
  refine ⟨s₂, hexec.trans hdeliver, hreceived.output, ?_, hreceived.emitDocument⟩
  rw [← hsame.printed]
  exact hreceived.printed

end Shell.Lawful

end BlockProgram.CommandLine
