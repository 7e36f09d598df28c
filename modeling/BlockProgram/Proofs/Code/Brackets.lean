import BlockProgram.Proofs.Code.OneLine
import BlockProgram.Text.Automaton

/-!
# Values end where they are closed

A reader that goes through program text from left to right, and knows no more than how strings are
quoted and how brackets match, takes the text of a value as one piece: it begins and ends outside
of strings, every bracket that is opened is closed by its partner, and there is no comment and no
end of a line on the way. This holds of every tree of values, whatever texts, numbers and names it
is made of. So a text in brackets ends at the bracket that was written to close it, and nowhere
before.
-/

namespace BlockProgram

/-! ### The reader -/

/-- The kinds of brackets. -/
inductive Bracket where
  /-- Parentheses. -/
  | round
  /-- Square brackets. -/
  | square
  /-- Braces. -/
  | curly
  deriving DecidableEq, Repr

namespace Bracket

/-- The character that opens a bracket. -/
def opening : Bracket → Char
  | round => '('
  | square => '['
  | curly => '\x7b'

/-- The character that closes a bracket. -/
def closing : Bracket → Char
  | round => ')'
  | square => ']'
  | curly => '\x7d'

/-- All kinds of brackets. -/
def all : List Bracket := [round, square, curly]

end Bracket

namespace Lexer

/-- Where in a text a reader is. -/
inductive Mode where
  /-- Outside of strings. -/
  | code
  /-- In a string. -/
  | string
  /-- In a string, after a backslash. -/
  | escape
  deriving DecidableEq, Repr

end Lexer

/-- A reader of program text: where it is, and which brackets are open, the last one first. -/
structure Lexer where
  /-- Where it is. -/
  mode : Lexer.Mode
  /-- The open brackets. -/
  pending : List Bracket
  deriving DecidableEq, Repr

namespace Lexer

/-- Outside of strings and brackets. -/
def start : Lexer := ⟨.code, []⟩

/-- The characters at which a line ends. -/
def lineEnds : List Char := ['\n', '\r']

/-- The characters that outside of strings begin a comment, a string in other quotes, or a line that
goes on. -/
def refused : List Char := ['#', '\'', '\\']

/-- A character outside of strings. -/
def stepCode (pending : List Bracket) (c : Char) : Option Lexer :=
  if c = '"' then some ⟨.string, pending⟩
  else if c ∈ refused then none
  else match Bracket.all.find? (·.opening = c), Bracket.all.find? (·.closing = c) with
    | some b, _ => some ⟨.code, b :: pending⟩
    | none, some b => if pending.head? = some b then some ⟨.code, pending.tail⟩ else none
    | none, none => some ⟨.code, pending⟩

/-- One character more; none if the text cannot go on with it on the same line. -/
def step (s : Lexer) (c : Char) : Option Lexer :=
  if c ∈ lineEnds then none
  else match s.mode with
    | .code => stepCode s.pending c
    | .string =>
      if c = '"' then some { s with mode := .code }
      else if c = '\\' then some { s with mode := .escape }
      else some s
    | .escape => some { s with mode := .string }

/-- A text from left to right. -/
abbrev run (s : Lexer) (cs : List Char) : Option Lexer := Text.run step s cs

/-- What a text has up to the point where no bracket is open any more, and what follows. -/
def untilClosed (s : Lexer) : List Char → Option (List Char × List Char)
  | [] => none
  | c :: cs =>
    match s.step c with
    | none => none
    | some s =>
      if s.pending = [] then some ([c], cs)
      else (s.untilClosed cs).map fun (before, after) => (c :: before, after)

/-- The reader with more brackets around. -/
def within (s : Lexer) (outer : List Bracket) : Lexer := { s with pending := s.pending ++ outer }

/-- Where a line ends, so does reading. -/
theorem step_lineEnd (s : Lexer) {c : Char} (h : c ∈ lineEnds) : s.step c = none := if_pos h

theorem not_mem_of_run {s s' : Lexer} {cs : List Char} (h : s.run cs = some s') {c : Char}
    (hc : c ∈ lineEnds) : c ∉ cs := by
  have hstep : ∀ (s : Lexer) (d : Char) (s' : Lexer), s.step d = some s' → d ∉ lineEnds := by
    intro s d s' hd hend
    rw [step_lineEnd s hend] at hd
    cases hd
  exact fun hmem => Text.forall_mem_of_run hstep h c hmem hc

/-! ### Brackets around -/

theorem stepCode_within {pending : List Bracket} {c : Char} {s : Lexer}
    (h : stepCode pending c = some s) (outer : List Bracket) :
    stepCode (pending ++ outer) c = some (s.within outer) := by
  unfold stepCode at h ⊢
  split at h
  · cases h
    simp [within, *]
  · split at h
    · cases h
    · rw [if_neg (by assumption), if_neg (by assumption)]
      split at h
      · cases h
        simp [within, *]
      · split at h
        · -- the bracket that is closed is among those that were open
          rename_i hhead
          obtain ⟨rest, rfl⟩ := List.head?_eq_some_iff.mp hhead
          cases h
          simp [within, *]
        · cases h
      · cases h
        simp [within, *]

/-- What a character does is the same with more brackets around. -/
theorem step_within {s s' : Lexer} {c : Char} (h : s.step c = some s') (outer : List Bracket) :
    (s.within outer).step c = some (s'.within outer) := by
  unfold step at h ⊢
  split at h
  · cases h
  · rw [if_neg (by assumption)]
    obtain ⟨mode, pending⟩ := s
    cases mode with
    | code => exact stepCode_within h outer
    | string =>
      dsimp only [within] at h ⊢
      split at h
      · cases h; simp [*]
      · split at h
        · cases h; simp [*]
        · cases h; simp [*]
    | escape =>
      cases h
      rfl

/-- So is what a text does. -/
theorem run_within {s s' : Lexer} {cs : List Char} (h : s.run cs = some s')
    (outer : List Bracket) : (s.within outer).run cs = some (s'.within outer) :=
  Text.run_map (f := fun s => s.within outer) (fun _ _ _ hstep => step_within hstep outer) h

/-- A text that can be read on its own closes no bracket around it. -/
theorem untilClosed_within {s s' : Lexer} {cs : List Char} (h : s.run cs = some s') (b : Bracket)
    (rest : List Char) :
    (s.within [b]).untilClosed (cs ++ rest) =
      ((s'.within [b]).untilClosed rest).map fun (before, after) => (cs ++ before, after) := by
  induction cs generalizing s with
  | nil =>
    cases h
    simp
  | cons c cs ih =>
    obtain ⟨s₁, hstep, hrun⟩ := Option.bind_eq_some_iff.mp h
    have hopen : (s₁.within [b]).pending ≠ [] := by simp [within]
    rw [List.cons_append, untilClosed, step_within hstep]
    simp only [if_neg hopen, ih hrun, Option.map_map]
    rfl

/-! ### Single characters -/

/-- The characters that a reader looks at. -/
def special : List Char :=
  lineEnds ++ '"' :: refused ++ Bracket.all.map Bracket.opening ++ Bracket.all.map Bracket.closing

/-- Other characters make no difference outside of strings. -/
theorem step_of_not_special {c : Char} (h : c ∉ special) (pending : List Bracket) :
    step ⟨.code, pending⟩ c = some ⟨.code, pending⟩ := by
  simp only [special, List.mem_append, List.mem_cons, not_or, List.mem_map, not_exists,
    not_and] at h
  obtain ⟨⟨⟨hend, hquote, hrefused⟩, hopen⟩, hclose⟩ := h
  have hopen : Bracket.all.find? (·.opening = c) = none := by
    simpa using hopen
  have hclose : Bracket.all.find? (·.closing = c) = none := by
    simpa using hclose
  simp [step, stepCode, hend, hquote, hrefused, hopen, hclose]

/-- In a string it is fewer characters that make a difference. -/
theorem step_string {c : Char} (h : c ∉ lineEnds) (hquote : c ≠ '"') (hslash : c ≠ '\\')
    (pending : List Bracket) : step ⟨.string, pending⟩ c = some ⟨.string, pending⟩ := by
  simp [step, h, hquote, hslash]

theorem step_opening (b : Bracket) (pending : List Bracket) :
    step ⟨.code, pending⟩ b.opening = some ⟨.code, b :: pending⟩ := by
  cases b <;> rfl

theorem step_closing (b : Bracket) (pending : List Bracket) :
    step ⟨.code, b :: pending⟩ b.closing = some ⟨.code, pending⟩ := by
  cases b <;> rfl

end Lexer

/-! ### Closed texts -/

namespace Text

/-- A text that a reader takes as one piece. -/
def Closed (s : String) : Prop := Lexer.start.run s.toList = some .start

instance (s : String) : Decidable (Closed s) := inferInstanceAs (Decidable (_ = _))

theorem Closed.run {s : String} (h : Closed s) (pending : List Bracket) :
    Text.run Lexer.step ⟨.code, pending⟩ s.toList = some ⟨.code, pending⟩ :=
  Lexer.run_within h pending

theorem Closed.append {s t : String} (hs : Closed s) (ht : Closed t) : Closed (s ++ t) := by
  rw [Closed, String.toList_append, Lexer.run, Text.run_append, show Text.run _ _ _ = _ from hs]
  exact ht

/-- A text of characters of a class to which no character belongs that a reader looks at. -/
theorem closed_of_class {p : Char → Bool} (hp : Lexer.special.all fun c => !p c) {s : String}
    (hs : ∀ c ∈ s.toList, p c) : Closed s := by
  rw [Closed]
  generalize s.toList = cs at hs
  induction cs with
  | nil => rfl
  | cons c cs ih =>
    obtain ⟨hc, hcs⟩ := List.forall_mem_cons.mp hs
    have hplain : c ∉ Lexer.special := by
      intro hmem
      have hnot := List.all_eq_true.mp hp c hmem
      rw [hc] at hnot
      cases hnot
    rw [Lexer.run, Text.run_cons, Lexer.start, Lexer.step_of_not_special hplain]
    exact ih hcs

theorem closed_of_isIdentifier {s : String} (h : Identifier.isIdentifier s) : Closed s :=
  closed_of_class (by decide) (Identifier.isTail_of_isIdentifier h)

end Text

open Text (Closed)

/-! ### Literals -/

/-- What stands for a character in a string does not end it. -/
theorem Literal.run_escape (c : Char) (pending : List Bracket) :
    Text.run Lexer.step ⟨.string, pending⟩ (Literal.escape c) = some ⟨.string, pending⟩ := by
  have hdigit : ∀ n, Lexer.step ⟨.string, pending⟩ (Nat.digitChar n) = some ⟨.string, pending⟩ :=
    fun n => Lexer.step_string (by simp [Lexer.lineEnds]) (by simp) (by simp) pending
  unfold escape
  split
  case h_6 hslash hquote hfeed hreturn _ =>
    split
    · show Text.run Lexer.step ⟨.string, pending⟩ (Text.hexByte c.toNat) = _
      simp [Text.hexByte, hdigit]
    · have hend : c ∉ Lexer.lineEnds := by simpa [Lexer.lineEnds] using ⟨hfeed, hreturn⟩
      simp [Lexer.step_string hend hquote hslash]
  all_goals rfl

/-- **A text in quotes is closed**, whatever it holds. -/
theorem Literal.closed_quote (s : String) : Closed (Literal.quote s) := by
  have hbody : ∀ cs : List Char,
      Text.run Lexer.step ⟨.string, []⟩ (cs.flatMap Literal.escape) = some ⟨.string, []⟩ := by
    intro cs
    induction cs with
    | nil => rfl
    | cons c cs ih => rw [List.flatMap_cons, Text.run_append, run_escape, Option.bind_some, ih]
  rw [Closed, quote, String.toList_ofList, quoteChars, Lexer.run, Text.run_cons]
  show Text.run Lexer.step ⟨.string, []⟩ _ = _
  rw [Text.run_append, hbody]
  rfl

theorem Literal.closed_number (typed : Option String) : Closed (Literal.number typed) :=
  Text.closed_of_class (p := Numeral.isPart) (by decide) (Literal.isPart_number typed).2

theorem Registry.closed_resolve (r : Registry) (h : Option Handle) : Closed (r.resolve h) := by
  rw [resolve]
  cases hname : r.lookup h with
  | none => decide
  | some name => exact Text.closed_of_isIdentifier (isIdentifier_of_lookup hname)

/-! ### Texts in brackets -/

/-- A text in brackets, with what stands before and after it. -/
structure Enclosure where
  /-- What stands before the brackets. -/
  before : String
  /-- The brackets. -/
  bracket : Bracket
  /-- What stands in them. -/
  inside : String
  /-- What stands after them. -/
  after : String
  deriving DecidableEq, Repr

namespace Enclosure

/-- All characters, from first to last. -/
def chars (e : Enclosure) : List Char :=
  e.before.toList ++ e.bracket.opening :: (e.inside.toList ++ e.bracket.closing :: e.after.toList)

/-- The three texts are closed. -/
structure Closed (e : Enclosure) : Prop where
  /-- The one before the brackets. -/
  before : Text.Closed e.before
  /-- The one in them. -/
  inside : Text.Closed e.inside
  /-- The one after them. -/
  after : Text.Closed e.after

theorem Closed.run {e : Enclosure} (h : e.Closed) : Lexer.start.run e.chars = some .start := by
  rw [chars, Lexer.run, Text.run_append, Lexer.start, h.before.run, Option.bind_some,
    Text.run_cons, Lexer.step_opening, Option.bind_some, Text.run_append, h.inside.run,
    Option.bind_some, Text.run_cons, Lexer.step_closing]
  exact h.after

/-- **The brackets are closed where they were written to be**, whatever follows. -/
theorem Closed.untilClosed {e : Enclosure} (h : e.Closed) (rest : List Char) :
    Lexer.untilClosed ⟨.code, [e.bracket]⟩ (e.inside.toList ++ e.bracket.closing :: rest) =
      some (e.inside.toList ++ [e.bracket.closing], rest) := by
  have hskip := Lexer.untilClosed_within (show Lexer.start.run _ = _ from h.inside) e.bracket
    (e.bracket.closing :: rest)
  refine hskip.trans ?_
  rw [show Lexer.start.within [e.bracket] = ⟨.code, [e.bracket]⟩ from rfl, Lexer.untilClosed,
    Lexer.step_closing]
  rfl

end Enclosure

/-- The texts of a block that has brackets, given the texts of its inputs. -/
def Node.enclosure? (n : Node) (args : Arguments) : Option Enclosure :=
  match n.kind with
  | .round => some ⟨"round", .round, args.get "VALUE" "0", ""⟩
  | .print => some ⟨"print", .round, args.get "VALUE" "\"\"", ""⟩
  | .inputText => some ⟨"input", .round, Literal.quote ((n.text? "PROMPT").getD ""), ""⟩
  | .listCreate =>
    some ⟨"", .square,
      commaText [args.get "ITEM0" "None", args.get "ITEM1" "None", args.get "ITEM2" "None"], ""⟩
  | .dictCreate =>
    some ⟨"", .curly, commaText [args.get "KEY0" "\"\"" ++ ": " ++ args.get "VALUE0" "None",
      args.get "KEY1" "\"\"" ++ ": " ++ args.get "VALUE1" "None"], ""⟩
  | .tupleCreate =>
    some ⟨"", .round, commaText [args.get "ITEM0" "None", args.get "ITEM1" "None"], ""⟩
  | .listGet => some ⟨args.get "LIST" "[]", .square, args.get "INDEX" "0", ""⟩
  | .dictGet => some ⟨args.get "DICT" "\x7b\x7d", .square, args.get "KEY" "\"\"", ""⟩
  | .tupleGet => some ⟨args.get "TUPLE" "()", .square, args.get "INDEX" "0", ""⟩
  | .listSet =>
    some ⟨args.get "LIST" "[]", .square, args.get "INDEX" "0", " = " ++ args.get "VALUE" "None"⟩
  | .dictSet =>
    some ⟨args.get "DICT" "\x7b\x7d", .square, args.get "KEY" "\"\"",
      " = " ++ args.get "VALUE" "None"⟩
  | _ => none

/-- These are the texts that it is written with. -/
theorem Node.toList_expression (r : Registry) {n : Node} {args : Arguments} {e : Enclosure}
    (he : n.enclosure? args = some e) : (n.expression r args).toList = e.chars := by
  rw [enclosure?] at he
  rw [expression]
  generalize n.kind = k at he
  cases k with
  | round | print | inputText | listCreate | dictCreate | tupleCreate | listGet | dictGet
  | tupleGet | listSet | dictSet =>
    cases he
    simp [Enclosure.chars, Bracket.opening, Bracket.closing, itemText, assignText]
  | _ => cases he

/-! ### Values -/

theorem closed_commaText {items : List String} (h : ∀ s ∈ items, Closed s) :
    Closed (commaText items) := by
  induction items with
  | nil => decide
  | cons s items ih =>
    obtain ⟨hs, h⟩ := List.forall_mem_cons.mp h
    cases items with
    | nil => simpa [commaText] using hs
    | cons t items =>
      have hrest : commaText (s :: t :: items) = s ++ ", " ++ commaText (t :: items) := by
        simp [commaText]
      rw [hrest]
      exact (hs.append (by decide)).append (ih h)

theorem closed_operatorText {left op right : String} (hl : Closed left) (hop : Closed op)
    (hr : Closed right) : Closed (operatorText left op right) :=
  (((hl.append (by decide)).append hop).append (by decide)).append hr

theorem CompareOp.closed_symbol (op : CompareOp) : Closed op.symbol := by cases op <;> decide

theorem LogicOp.closed_keyword (op : LogicOp) : Closed op.keyword := by cases op <;> decide

theorem ArithOp.closed_symbol (op : ArithOp) : Closed op.symbol := by cases op <;> decide

/-- Every text is closed. -/
def Arguments.Closed (args : Arguments) : Prop := ∀ e ∈ args, Text.Closed e.2

/-- The texts of a block with brackets are closed, if those of its inputs are. -/
theorem Node.closed_enclosure {n : Node} {args : Arguments} (ha : args.Closed) {e : Enclosure}
    (he : n.enclosure? args = some e) : e.Closed := by
  have hget : ∀ name {placeholder}, Closed placeholder → Closed (args.get name placeholder) :=
    fun name _ hp => Arguments.get_of_forall ha name hp
  have hword : ∀ word ∈ ["round", "print", "input"], Closed word := by decide
  have hnone := fun name => hget name (show Closed "None" by decide)
  have hentry : ∀ key value,
      Closed (args.get key "\"\"" ++ ": " ++ args.get value "None") :=
    fun key value => ((hget key (by decide)).append (by decide)).append (hnone value)
  rw [enclosure?] at he
  generalize n.kind = k at he
  cases k with
  | round | print =>
    cases he
    exact ⟨hword _ (by simp), hget _ (by decide), rfl⟩
  | inputText =>
    cases he
    exact ⟨hword _ (by simp), Literal.closed_quote _, rfl⟩
  | listCreate | tupleCreate =>
    cases he
    exact ⟨rfl, closed_commaText (by simp [hnone]), rfl⟩
  | dictCreate =>
    cases he
    exact ⟨rfl, closed_commaText (by simp [hentry]), rfl⟩
  | listGet | dictGet | tupleGet =>
    cases he
    exact ⟨hget _ (by decide), hget _ (by decide), rfl⟩
  | listSet | dictSet =>
    cases he
    exact ⟨hget _ (by decide), hget _ (by decide), .append (by decide) (hnone _)⟩
  | _ => cases he

/-- The kinds that are written on one line in the place of a value. -/
def Kind.isInline : Kind → Bool
  | .ifThen | .ifElse | .ifElifElse | .forRange | .whileLoop | .importModule | .unknown _ => false
  | _ => true

/-- **A value is closed**, if the texts of its inputs are. -/
theorem Node.closed_text (r : Registry) {n : Node} (hn : n.kind.isInline) {args : Arguments}
    (ha : args.Closed) : Closed (n.expression r args) := by
  cases he : n.enclosure? args with
  | some e =>
    rw [Closed, n.toList_expression r he]
    exact (closed_enclosure ha he).run
  | none =>
    have hget : ∀ name {placeholder}, Closed placeholder → Closed (args.get name placeholder) :=
      fun name _ hp => Arguments.get_of_forall ha name hp
    rw [enclosure?] at he
    rw [expression]
    generalize n.kind = k at hn he
    cases k with
    | variableGet => exact r.closed_resolve _
    | variableSet =>
      exact ((r.closed_resolve _).append (by decide)).append (hget _ (by decide))
    | compare =>
      exact closed_operatorText (hget _ (by decide)) (CompareOp.closed_symbol _)
        (hget _ (by decide))
    | logic =>
      exact closed_operatorText (hget _ (by decide)) (LogicOp.closed_keyword _)
        (hget _ (by decide))
    | boolean =>
      dsimp only
      split <;> decide
    | number => exact Literal.closed_number _
    | arithmetic =>
      exact closed_operatorText (hget _ (by decide)) (ArithOp.closed_symbol _)
        (hget _ (by decide))
    | text => exact Literal.closed_quote _
    | round | print | inputText | listCreate | dictCreate | tupleCreate | listGet | dictGet
    | tupleGet | listSet | dictSet => cases he
    | ifThen | ifElse | ifElifElse | forRange | whileLoop | importModule | unknown _ => cases hn

/-! ### Trees of values -/

/-- The blocks of a forest that are reached through value inputs. -/
def Children.inputNodes : Children → List Node
  | .nil => []
  | .cons (.input _) n below rest => n :: (below.inputNodes ++ rest.inputNodes)
  | .cons _ _ _ rest => rest.inputNodes

/-- A block and the blocks that are reached from it through value inputs. -/
def Block.inputNodes (b : Block) : List Node := b.node :: b.children.inputNodes

/-- The texts of a block that has brackets. -/
def Block.enclosure? (r : Registry) (b : Block) : Option Enclosure :=
  b.node.enclosure? (b.children.arguments r)

theorem Children.closed_arguments (r : Registry) {cs : Children}
    (h : ∀ n ∈ cs.inputNodes, n.kind.isInline) : (cs.arguments r).Closed := by
  induction cs with
  | nil => exact fun e he => absurd he List.not_mem_nil
  | cons s n below rest ihb ihr =>
    cases s with
    | input name =>
      obtain ⟨hn, h⟩ := List.forall_mem_cons.mp h
      obtain ⟨hbelow, hrest⟩ := List.forall_mem_append.mp h
      exact List.forall_mem_cons.mpr ⟨n.closed_text r hn (ihb hbelow), ihr hrest⟩
    | statement name => exact ihr h
    | next => exact ihr h

/-- **The text of a value is one piece.** If all blocks that are reached through value inputs are of
kinds that are written on one line, the text has no end of a line in it, and a reader that starts
outside of strings and brackets gets through it and ends so. Where the text has brackets of its own,
the reader comes to them outside of strings and other brackets, and finds them closed exactly where
they were written to be, whatever follows. -/
theorem Block.closed_expression (r : Registry) {b : Block}
    (h : ∀ n ∈ b.inputNodes, n.kind.isInline) :
    let cs := (b.expression r).toList
    '\n' ∉ cs ∧ '\r' ∉ cs ∧ Lexer.start.run cs = some .start ∧
    ∀ e ∈ b.enclosure? r, cs = e.chars ∧ Lexer.start.run e.before.toList = some .start ∧
      ∀ rest, Lexer.untilClosed ⟨.code, [e.bracket]⟩
          (e.inside.toList ++ e.bracket.closing :: rest) =
        some (e.inside.toList ++ [e.bracket.closing], rest) := by
  intro cs
  obtain ⟨hn, hinputs⟩ := List.forall_mem_cons.mp h
  have hargs := Children.closed_arguments r hinputs
  have hrun : Lexer.start.run cs = some .start := b.node.closed_text r hn hargs
  refine ⟨Lexer.not_mem_of_run hrun (by decide), Lexer.not_mem_of_run hrun (by decide), hrun, ?_⟩
  intro e he
  have hclosed := Node.closed_enclosure hargs he
  exact ⟨b.node.toList_expression r he, hclosed.before, hclosed.untilClosed⟩

/-- An entry of a dictionary under a key that is a text of quotes, brackets and backslashes. -/
theorem Block.closed_expression_quoted :
    let key : Node := ⟨⟨"k"⟩, .text, ⟨[("TEXT", .text "\"])\n# \\")]⟩⟩
    let b : Block := ⟨⟨⟨"g"⟩, .dictGet, .empty⟩, .cons (.input "KEY") key .nil .nil⟩
    (∀ n ∈ b.inputNodes, n.kind.isInline) ∧
    let cs := (b.expression .empty).toList
    '\n' ∉ cs ∧ '\r' ∉ cs ∧ Lexer.start.run cs = some .start ∧
    ∀ e ∈ b.enclosure? .empty, cs = e.chars ∧ Lexer.start.run e.before.toList = some .start ∧
      ∀ rest, Lexer.untilClosed ⟨.code, [e.bracket]⟩
          (e.inside.toList ++ e.bracket.closing :: rest) =
        some (e.inside.toList ++ [e.bracket.closing], rest) := by
  intro key b
  have hinline : ∀ n ∈ b.inputNodes, n.kind.isInline := by decide
  exact ⟨hinline, Block.closed_expression .empty hinline⟩

end BlockProgram
