import BlockProgram.Proofs.CommandLine.Directory
import BlockProgram.Proofs.CommandLine.Run
import BlockProgram.Proofs.Session.View

/-!
# One program, however it is asked for

A document can be turned into a program by itself, by a run that reads it from a file, by a session
that is opened on it, and by a session that it is restored in. They agree: the same documents are
refused, and of the others all make the same program and the same document again. This holds of runs
in all lawful surroundings, whatever their paths look like, and a working directory is one example.
-/

namespace BlockProgram.CommandLine

/-! ### Agreement -/

section Lawful

variable {ρ π : Type} {sh : Shell (StateM ρ)} {view : Outlook ρ π} (h : sh.Lawful view) {r : ρ}
  {input text : String} (hinput : view.text? r input = some text)
include h hinput

/-- A document is refused for the same reason by all that read it. -/
theorem Shell.Lawful.refused_by_all (o : Options) (fault : DocumentError) :
    (Document.generate o.order text = .error fault ↔ Document.read text = .error fault) ∧
    (Document.normalize text = .error fault ↔ Document.read text = .error fault) ∧
    ((∃ path, (exec r (generate sh o input)).1 = .error (.document fault path)) ↔
      Document.read text = .error fault) ∧
    ∀ {σ : Type} (setup : Setup σ) (s : Session σ), s.stage = .ready →
      ((s.restore setup text).1 = .error (.document fault) ↔
        Document.read text = .error fault) := by
  have hmap : ∀ {α β : Type} (f : α → β) (x : Except DocumentError α),
      x.map f = .error fault ↔ x = .error fault := by
    intro α β f x
    cases x <;> simp [Except.map]
  refine ⟨?_, ?_, h.generate_document_iff hinput o fault, fun setup s hs => ?_⟩
  · rw [Document.generate, Document.load, hmap, hmap]
  · rw [Document.normalize, Document.load, hmap, hmap]
  · rw [Session.restore_of_ready setup hs]
    cases Document.read text <;> simp

/-- **All ways from a document to a program agree**, for a document in a file of lawful
surroundings, and in either order of chains. It is refused by one of them exactly if it is refused
by all, for the same reason. Otherwise there are a program and a document which a run puts where
they are asked for, which a session has at hand that is opened on the canvas, however often it has
to ask for it, and which any session that is ready has at hand when the document has been restored
in it. And then nothing is left of what that session was before: any two of them, over any channels,
answer and look the same from the restoring on, and tell the same messages. -/
theorem Shell.Lawful.ways_agree (o : Options) :
    (∀ fault,
      (Document.generate o.order text = .error fault ↔ Document.read text = .error fault) ∧
      (Document.normalize text = .error fault ↔ Document.read text = .error fault) ∧
      ((∃ path, (exec r (generate sh o input)).1 = .error (.document fault path)) ↔
        Document.read text = .error fault) ∧
      ∀ {σ : Type} (setup : Setup σ) (s : Session σ), s.stage = .ready →
        ((s.restore setup text).1 = .error (.document fault) ↔
          Document.read text = .error fault)) ∧
    ∀ w, Document.read text = .ok w →
      (∃ code document, Document.generate o.order text = .ok code ∧
        Document.normalize text = .ok document ∧
        (view.Accepts r o → ∃ r', exec r (generate sh o input) = (.ok (), r') ∧
          view.Received r r' o code document) ∧
        (∀ {σ : Type} (channel : Channel σ) (sent : σ) (polls : Nat)
            (later : List (Option Workspace)),
          let s := Session.start ⟨channel, o.order⟩ sent
            (List.replicate polls none ++ some w :: later)
          s.stage = .ready ∧ s.code = code ∧ s.document = document) ∧
        ∀ {σ : Type} (channel : Channel σ) (s : Session σ), s.stage = .ready →
          let restored := s.restore ⟨channel, o.order⟩ text
          restored.1 = .ok () ∧ restored.2.stage = .ready ∧ restored.2.code = code ∧
            restored.2.document = document) ∧
      ∀ {σ τ : Type} (channel : Channel σ) (channel' : Channel τ) (s : Session σ) (s' : Session τ),
        s.stage = .ready → s'.stage = .ready → ∀ ts : List Turn,
          let all := .ask (.restore text) :: ts
          s.history ⟨channel, o.order⟩ all = s'.history ⟨channel', o.order⟩ all ∧
            ∃ ms : List HostMessage,
              (s.turns ⟨channel, o.order⟩ all).sent = ms.foldl channel.offer s.sent ∧
              (s'.turns ⟨channel', o.order⟩ all).sent = ms.foldl channel'.offer s'.sent := by
  refine ⟨h.refused_by_all hinput o, fun w hread => ⟨?_, ?_⟩⟩
  · have hload : Document.load text = .ok w.migrate.2 := by
      rw [Document.load, hread]
      rfl
    refine ⟨_, _, by rw [Document.generate, hload]; rfl, by rw [Document.normalize, hload]; rfl,
      fun ho => h.generate_received hinput ho hread, fun channel sent polls later => ?_,
      fun channel s hs => ?_⟩
    · rw [Session.start_of_canvas _ _ (w := w) (by simp)]
      exact ⟨rfl, rfl, rfl⟩
    · rw [Session.restore_of_ready _ hs, hread]
      exact ⟨rfl, hs, rfl, rfl⟩
  · exact fun channel channel' s s' hs hs' ts =>
      Session.history_restore o.order channel channel' hs hs' hread ts

end Lawful

/-! ### Working directories -/

namespace WorkingDirectory

/-- The text of the file that a path leads to. -/
def text? (d : WorkingDirectory) (path : String) : Option String :=
  match d.at? path with
  | some (.text s) => some s
  | _ => none

theorem text?_eq_some {d : WorkingDirectory} {path text : String} :
    d.text? path = some text ↔ d.at? path = some (.text text) := by
  rw [text?]
  split
  · rename_i heq
    rw [heq, Option.some.injEq, Option.some.injEq, Entry.text.injEq]
  · rename_i hne
    exact iff_of_false (by simp) (hne text)

/-- What can be seen of a working directory. -/
def outlook : Outlook WorkingDirectory (List String) where
  text? := text?
  target? := target?
  printed := printed

/-- What can be seen in files is a matter of the entries alone. -/
theorem outlook_of_entries_eq {d d' : WorkingDirectory} (h : d'.entries = d.entries) :
    outlook.text? d' = outlook.text? d ∧ outlook.target? d' = outlook.target? d := by
  refine ⟨funext fun path => ?_, funext (sameTree_of_entries_eq h).target?⟩
  show d'.text? path = d.text? path
  rw [text?, text?, at?_of_entries_eq h]

/-- **A working directory is lawful.** -/
theorem lawful_shell : shell.Lawful outlook where
  isFile {d path text} h := by
    have hat : d.at? path = some (.text text) := text?_eq_some.mp h
    show ((d.at? path).any Entry.isFile, d) = (true, d)
    rw [hat]
    rfl
  fullPath {d path text} h := by
    obtain ⟨steps, hsteps, htext⟩ := Option.bind_eq_some_iff.mp (text?_eq_some.mp h)
    refine ⟨"/".intercalate steps, ?_, text?_eq_some.mpr ?_⟩
    · show ((d.resolve? path).map "/".intercalate, d) = _
      rw [hsteps]
      rfl
    · rw [at?, resolve?_intercalate hsteps]
      exact htext
  read {d path text} h := by
    have hat : d.at? path = some (.text text) := text?_eq_some.mp h
    simp only [shell, StateT.run_bind, StateT.run_get, pure_bind, hat]
    rfl
  write {d path steps} text h := by
    have htarget : d.target? path = some steps := h
    refine ⟨d.put steps text, ?_, text?_eq_some.mpr (at?_put htarget text),
      fun other place hother hne => ?_, funext (sameTree_put htarget text).target?, rfl⟩
    · simp only [shell, StateT.run_bind, StateT.run_get, pure_bind, htarget]
      rfl
    · show (d.put steps text).text? other = d.text? other
      rw [text?, text?, at?_put_of_ne htarget (resolve?_of_target? hother).1 hne]
  print d text := by
    have hentries : { d with printed := d.printed ++ text }.entries = d.entries := rfl
    obtain ⟨htext, htarget⟩ := outlook_of_entries_eq hentries
    exact ⟨_, rfl, htext, htarget, rfl⟩
  report d text := by
    have hentries : { d with reported := d.reported ++ text }.entries = d.entries := rfl
    obtain ⟨htext, htarget⟩ := outlook_of_entries_eq hentries
    exact ⟨_, rfl, htext, htarget, rfl⟩

/-- A run that writes the program of the document in a file, in a working directory. -/
def run (d : WorkingDirectory) (o : Options) (input : String) :
    Except RunError Unit × WorkingDirectory :=
  exec d (generate shell o input)

/-- The files that a run is asked to write can be written, and they are not one file. -/
structure Accepts (d : WorkingDirectory) (o : Options) : Prop where
  /-- The file for the program can be written. -/
  output : ∀ path ∈ o.output, (d.target? path).isSome
  /-- The file for the document can be written. -/
  emitDocument : ∀ path ∈ o.emitDocument, (d.target? path).isSome
  /-- They are not one file. -/
  apart : ∀ path ∈ o.output, ∀ other ∈ o.emitDocument, d.target? path ≠ d.target? other

/-- A program and a document are where they were asked for: in files, and the program in the output
if no file is named for it. -/
structure Received (d d' : WorkingDirectory) (o : Options) (code document : String) : Prop where
  /-- The program is in its file. -/
  output : ∀ path ∈ o.output, d'.at? path = some (.text code)
  /-- The program is printed if there is no file for it. -/
  printed : d'.printed = if o.output.isSome then d.printed else d.printed ++ code
  /-- The document is in its file. -/
  emitDocument : ∀ path ∈ o.emitDocument, d'.at? path = some (.text document)

theorem received_of_outlook {d d' : WorkingDirectory} {o : Options} {code document : String}
    (h : outlook.Received d d' o code document) : d.Received d' o code document where
  output path hpath := text?_eq_some.mp (h.output path hpath)
  printed := h.printed
  emitDocument path hpath := text?_eq_some.mp (h.emitDocument path hpath)

end WorkingDirectory

/-- **All ways from a document to a program agree**, for a document in a file of a working
directory, and in either order of chains. It is refused by one of them exactly if it is refused by
all, for the same reason. Otherwise there are a program and a document which a run puts where they
are asked for, which a session has at hand that is opened on the canvas, however often it has to
ask for it, and which any session that is ready has at hand when the document has been restored in
it. And then nothing is left of what that session was before: any two of them, over any channels,
answer and look the same from the restoring on, and tell the same messages. -/
theorem front_ends_agree {d : WorkingDirectory} {input text : String}
    (hinput : d.at? input = some (.text text)) (o : Options) :
    (∀ fault,
      (Document.generate o.order text = .error fault ↔ Document.read text = .error fault) ∧
      (Document.normalize text = .error fault ↔ Document.read text = .error fault) ∧
      ((∃ path, (d.run o input).1 = .error (.document fault path)) ↔
        Document.read text = .error fault) ∧
      ∀ {σ : Type} (setup : Setup σ) (s : Session σ), s.stage = .ready →
        ((s.restore setup text).1 = .error (.document fault) ↔
          Document.read text = .error fault)) ∧
    ∀ w, Document.read text = .ok w →
      (∃ code document, Document.generate o.order text = .ok code ∧
        Document.normalize text = .ok document ∧
        (d.Accepts o → ∃ d', d.run o input = (.ok (), d') ∧
          d.Received d' o code document) ∧
        (∀ {σ : Type} (channel : Channel σ) (sent : σ) (polls : Nat)
            (later : List (Option Workspace)),
          let s := Session.start ⟨channel, o.order⟩ sent
            (List.replicate polls none ++ some w :: later)
          s.stage = .ready ∧ s.code = code ∧ s.document = document) ∧
        ∀ {σ : Type} (channel : Channel σ) (s : Session σ), s.stage = .ready →
          let restored := s.restore ⟨channel, o.order⟩ text
          restored.1 = .ok () ∧ restored.2.stage = .ready ∧ restored.2.code = code ∧
            restored.2.document = document) ∧
      ∀ {σ τ : Type} (channel : Channel σ) (channel' : Channel τ) (s : Session σ) (s' : Session τ),
        s.stage = .ready → s'.stage = .ready → ∀ ts : List Turn,
          let all := .ask (.restore text) :: ts
          s.history ⟨channel, o.order⟩ all = s'.history ⟨channel', o.order⟩ all ∧
            ∃ ms : List HostMessage,
              (s.turns ⟨channel, o.order⟩ all).sent = ms.foldl channel.offer s.sent ∧
              (s'.turns ⟨channel', o.order⟩ all).sent = ms.foldl channel'.offer s'.sent := by
  obtain ⟨hrefused, hagree⟩ :=
    WorkingDirectory.lawful_shell.ways_agree (WorkingDirectory.text?_eq_some.mpr hinput) o
  refine ⟨hrefused, fun w hread => ?_⟩
  obtain ⟨⟨code, document, hcode, hdocument, hrun, hsessions⟩, hhistory⟩ := hagree w hread
  refine ⟨⟨code, document, hcode, hdocument, fun ho => ?_, hsessions⟩, hhistory⟩
  obtain ⟨d', hd', hreceived⟩ := hrun ⟨ho.output, ho.emitDocument, ho.apart⟩
  exact ⟨d', hd', WorkingDirectory.received_of_outlook hreceived⟩

/-- A document in a directory with a name that is no identifier; the program is to be written next
to the directory, and the document into it. -/
theorem front_ends_agree_in_files :
    let text := "<xml><variables><variable id=\"v\">2 fast</variable></variables>" ++
      "<block type=\"variables_set\" id=\"s\"><field name=\"VAR\" id=\"v\"/></block></xml>"
    let d : WorkingDirectory :=
      ⟨[(["saved"], .directory), (["saved", "in.xml"], .text text)], "", ""⟩
    let o : Options :=
      { Options.none with output := some "out.py", emitDocument := some "saved/../saved/out.xml" }
    let code := "_2_fast = None\n"
    d.at? "saved/./in.xml" = some (.text text) ∧ d.Accepts o ∧
    Document.generate o.order text = .ok code ∧
    ∃ document, Document.normalize text = .ok document ∧
      ∃ d', d.run o "saved/./in.xml" = (.ok (), d') ∧ d.Received d' o code document := by
  intro text d o code
  have hinput : d.at? "saved/./in.xml" = some (.text text) := by decide +kernel
  have haccepts : d.Accepts o := by
    refine ⟨?_, ?_, ?_⟩
    · rintro _ ⟨⟩
      decide +kernel
    · rintro _ ⟨⟩
      decide +kernel
    · rintro _ ⟨⟩ _ ⟨⟩
      decide +kernel
  have hcode : Document.generate o.order text = .ok code := by decide +kernel
  obtain ⟨hrefused, hagree⟩ := front_ends_agree hinput o
  cases hread : Document.read text with
  | error fault =>
    have herror : Document.generate o.order text = .error fault := (hrefused fault).1.mpr hread
    cases herror.symm.trans hcode
  | ok w =>
    obtain ⟨⟨code', document, hcode', hdocument, hrun, -⟩, -⟩ := hagree w hread
    obtain rfl : code' = code := Except.ok.inj (hcode'.symm.trans hcode)
    exact ⟨hinput, haccepts, hcode, document, hdocument, hrun haccepts⟩

end BlockProgram.CommandLine

