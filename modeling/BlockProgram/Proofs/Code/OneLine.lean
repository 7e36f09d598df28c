import BlockProgram.Code.Statement
import BlockProgram.Proofs.Block.Nodes
import BlockProgram.Proofs.Code.Nesting
import BlockProgram.Proofs.Code.Quotation
import BlockProgram.Proofs.Identifier
import Mathlib.Data.List.TakeWhile

/-!
# Every statement is one line

Two settings go into a program as they are: the tag of a kind that is not known and the name of an
imported module. Where neither has a line feed, every line of a program is one line on paper and
begins with a character that is no space, whatever the other settings hold and however deep the
expressions on the line are.
-/

namespace BlockProgram

/-! ### Texts -/

namespace Text

instance (s : String) : Decidable (OneLine s) :=
  decidable_of_iff ((s.toList.head?.any (· ≠ ' ')) = true ∧ '\n' ∉ s.toList) <| by
    constructor
    · intro ⟨hstarts, hunbroken⟩
      cases hs : s.toList with
      | nil => simp [hs] at hstarts
      | cons c cs => exact ⟨⟨c, cs, hs, by simpa [hs] using hstarts⟩, hunbroken⟩
    · intro ⟨⟨c, cs, hs, hc⟩, hunbroken⟩
      exact ⟨by simpa [hs] using hc, hunbroken⟩

/-- What follows on a line does not change how it begins. -/
theorem OneLine.append {s t : String} (hs : OneLine s) (ht : '\n' ∉ t.toList) :
    OneLine (s ++ t) := by
  obtain ⟨c, cs, hcs, hc⟩ := hs.starts
  exact ⟨⟨c, cs ++ t.toList, by simp [hcs], hc⟩, by simp [hs.unbroken, ht]⟩

/-- A text on a line, with something before it and after it. -/
theorem OneLine.enclose {left s right : String} (hl : OneLine left) (hs : '\n' ∉ s.toList)
    (hr : '\n' ∉ right.toList) : OneLine (left ++ s ++ right) :=
  (hl.append hs).append hr

theorem oneLine_of_isIdentifier {s : String} (h : Identifier.isIdentifier s) : OneLine s := by
  obtain ⟨c, cs, hs, hc, -⟩ := Identifier.accepts_iff.mp h
  refine ⟨⟨c, cs, hs, ?_⟩, fun hfeed => ?_⟩
  · rintro rfl
    exact absurd hc (by decide)
  · exact absurd (Identifier.isTail_of_isIdentifier h _ hfeed) (by decide)

end Text

open Text (OneLine)

/-! ### Literals -/

/-- Whatever a text holds, there is no line feed in its quotes, nor any other control character. -/
theorem Literal.oneLine_quote (s : String) : OneLine (Literal.quote s) := by
  refine ⟨⟨'"', _, by rw [quote, String.toList_ofList, quoteChars], by decide⟩, fun hfeed => ?_⟩
  cases isControl_of_mem_quote hfeed

namespace Numeral

/-- The characters that a number is written with. -/
def isPart (c : Char) : Bool := Text.isDigit c || ['+', '-', '.', 'e', 'E'].contains c

theorem isPart_of_isDigit {cs : List Char} (h : ∀ c ∈ cs, Text.isDigit c) : ∀ c ∈ cs, isPart c :=
  fun c hc => by simp [isPart, h c hc]

theorem isPart_of_splitSign {cs : List Char} (h : ∀ c ∈ (splitSign cs).2, isPart c) :
    ∀ c ∈ cs, isPart c := by
  unfold splitSign at h
  split at h
  · exact List.forall_mem_cons.mpr ⟨by decide, h⟩
  · exact List.forall_mem_cons.mpr ⟨by decide, h⟩
  · exact h

theorem isPart_of_exponent? {cs : List Char} {e : Int} (h : exponent? cs = some e) :
    ∀ c ∈ cs, isPart c := by
  cases cs with
  | nil => exact fun c hc => absurd hc List.not_mem_nil
  | cons c cs =>
    simp only [exponent?, Option.ite_none_right_eq_some, Bool.and_eq_true, Bool.or_eq_true,
      beq_iff_eq, List.all_eq_true] at h
    obtain ⟨⟨⟨hc, -⟩, hdigits⟩, -⟩ := h
    refine List.forall_mem_cons.mpr ⟨?_, isPart_of_splitSign (isPart_of_isDigit hdigits)⟩
    rcases hc with rfl | rfl <;> decide

/-- A run of digits is written with such characters if what follows it is. -/
theorem isPart_of_dropWhile {cs : List Char} (h : ∀ c ∈ cs.dropWhile Text.isDigit, isPart c) :
    ∀ c ∈ cs, isPart c := by
  rw [← List.takeWhile_append_dropWhile (p := Text.isDigit) (l := cs), List.forall_mem_append]
  exact ⟨isPart_of_isDigit fun c hc => List.mem_takeWhile_imp hc, h⟩

theorem isPart_of_parse? {cs : List Char} {n : Numeral} (h : parse? cs = some n) :
    ∀ c ∈ cs, isPart c := by
  apply isPart_of_dropWhile
  simp only [parse?] at h
  split at h
  · rename_i rest hrest
    simp only [Option.ite_none_left_eq_some, Option.map_eq_some_iff] at h
    obtain ⟨-, e, he, -⟩ := h
    rw [hrest]
    exact List.forall_mem_cons.mpr ⟨by decide, isPart_of_dropWhile (isPart_of_exponent? he)⟩
  · simp only [Option.ite_none_left_eq_some, Option.map_eq_some_iff] at h
    obtain ⟨-, e, he, -⟩ := h
    exact isPart_of_exponent? he

end Numeral

@[simp] theorem Double.isFinite_infinity (negative : Bool) :
    (Double.infinity negative).isFinite = false := by
  cases negative <;> decide

@[simp] theorem Double.isFinite_nan (negative : Bool) : (Double.nan negative).isFinite = false := by
  cases negative <;> decide

/-- A text that is read as a finite number is a signed numeral; the words for infinity and for
"not a number" are none. -/
theorem Double.numeral_of_readFinite? {s : String} (h : (Double.readFinite? s).isSome) :
    ∃ n, Numeral.parse? (Numeral.splitSign (Text.trimChars s.toList)).2 = some n := by
  obtain ⟨d, hd⟩ := Option.isSome_iff_exists.mp h
  obtain ⟨hparse, hfinite⟩ := Option.filter_eq_some_iff.mp hd
  simp only [parse?] at hparse
  split at hparse
  case h_4 =>
    obtain ⟨n, hn, -⟩ := Option.map_eq_some_iff.mp hparse
    exact ⟨n, hn⟩
  all_goals
    cases hparse
    simp at hfinite

/-- A number is written with at least one character, and with none but those of numerals. -/
theorem Literal.isPart_number (typed : Option String) :
    (Literal.number typed).toList ≠ [] ∧
      ∀ c ∈ (Literal.number typed).toList, Numeral.isPart c := by
  have hzero : "0".toList ≠ [] ∧ ∀ c ∈ "0".toList, Numeral.isPart c :=
    ⟨by decide, List.all_eq_true.mp (by decide)⟩
  cases typed with
  | none => exact hzero
  | some s =>
    rw [number]
    split
    case isFalse => exact hzero
    case isTrue h =>
      obtain ⟨n, hn⟩ := Double.numeral_of_readFinite? h
      rw [Text.trim, String.toList_ofList]
      refine ⟨fun hs => ?_, Numeral.isPart_of_splitSign (Numeral.isPart_of_parse? hn)⟩
      rw [hs] at hn
      cases hn

theorem Literal.oneLine_number (typed : Option String) : OneLine (Literal.number typed) := by
  obtain ⟨hne, hparts⟩ := Literal.isPart_number typed
  obtain ⟨c, cs, hcs⟩ := List.exists_cons_of_ne_nil hne
  refine ⟨⟨c, cs, hcs, ?_⟩, fun hmem => absurd (hparts _ hmem) (by decide)⟩
  rintro rfl
  exact absurd (hparts ' ' (hcs ▸ List.mem_cons_self)) (by decide)

/-! ### Expressions -/

/-- No line feed stands where a setting goes into the program as it is. -/
structure Node.Unbroken (n : Node) : Prop where
  /-- None in the tag of a kind that is not known. -/
  tag : ∀ t, n.kind = .unknown t → '\n' ∉ t.toList
  /-- None in the name of an imported module. -/
  moduleName : n.kind = .importModule → ∀ m, n.text? "MODULE" = some m → '\n' ∉ m.toList

theorem Registry.isIdentifier_of_lookup {r : Registry} {h : Option Handle} {name : String}
    (hname : r.lookup h = some name) : Identifier.isIdentifier name := by
  simp only [lookup, Option.bind_eq_bind, Option.bind_eq_some_iff, Option.some.injEq] at hname
  obtain ⟨_, -, index, -, v, -, rfl⟩ := hname
  exact Identifier.isIdentifier_sanitize _ _

theorem Registry.oneLine_getD_lookup (r : Registry) (h : Option Handle) (other : String)
    (ho : OneLine other) : OneLine ((r.lookup h).getD other) := by
  cases hname : r.lookup h with
  | none => exact ho
  | some name => exact Text.oneLine_of_isIdentifier (isIdentifier_of_lookup hname)

theorem Registry.oneLine_resolve (r : Registry) (h : Option Handle) : OneLine (r.resolve h) :=
  r.oneLine_getD_lookup h unknownName (by decide)

/-- What is true of all texts and of a placeholder is true of what is found. -/
theorem Arguments.get_of_forall {p : String → Prop} {args : Arguments} (h : ∀ e ∈ args, p e.2)
    (name : String) {placeholder : String} (hp : p placeholder) : p (args.get name placeholder) := by
  rw [Arguments.get]
  cases harg : args.lookup name with
  | none => exact hp
  | some text =>
    obtain ⟨before, after, hargs, -⟩ := List.lookup_eq_some_iff.mp harg
    exact h (name, text) (by simp [hargs])

/-- Every text is one line. -/
def Arguments.OneLine (args : Arguments) : Prop := ∀ e ∈ args, Text.OneLine e.2

theorem Arguments.OneLine.get {args : Arguments} (h : args.OneLine) (name placeholder : String)
    (hp : Text.OneLine placeholder) : Text.OneLine (args.get name placeholder) :=
  Arguments.get_of_forall h name hp

theorem oneLine_operatorText {left op right : String} (hl : OneLine left)
    (hop : '\n' ∉ op.toList) (hr : OneLine right) : OneLine (operatorText left op right) :=
  (((hl.append (by decide)).append hop).append (by decide)).append hr.unbroken

theorem oneLine_itemText {container index : String} (hc : OneLine container)
    (hi : OneLine index) : OneLine (itemText container index) :=
  ((hc.append (by decide)).append hi.unbroken).append (by decide)

theorem oneLine_assignText {target value : String} (ht : OneLine target) (hv : OneLine value) :
    OneLine (assignText target value) :=
  (ht.append (by decide)).append hv.unbroken

theorem unbroken_commaText {items : List String} (h : ∀ s ∈ items, '\n' ∉ s.toList) :
    '\n' ∉ (commaText items).toList := by
  induction items with
  | nil => decide
  | cons s items ih =>
    obtain ⟨hs, h⟩ := List.forall_mem_cons.mp h
    cases items with
    | nil => simpa [commaText] using hs
    | cons t items => simpa [commaText, hs] using ih h

theorem CompareOp.unbroken_symbol (op : CompareOp) : '\n' ∉ op.symbol.toList := by
  cases op <;> decide

theorem LogicOp.unbroken_keyword (op : LogicOp) : '\n' ∉ op.keyword.toList := by
  cases op <;> decide

theorem ArithOp.unbroken_symbol (op : ArithOp) : '\n' ∉ op.symbol.toList := by
  cases op <;> decide

theorem Kind.oneLine_unsupported {k : Kind} (h : ∀ t, k = .unknown t → '\n' ∉ t.toList) :
    OneLine k.unsupported := by
  have htag : '\n' ∉ k.tag.toList := by
    cases k with
    | unknown t => exact h t rfl
    | _ => decide
  exact Text.OneLine.append (by decide) htag

/-- **A value is one line**, if the texts of its inputs are. -/
theorem Node.oneLine_expression (r : Registry) {n : Node} (hn : n.Unbroken) {args : Arguments}
    (ha : args.OneLine) : OneLine (n.expression r args) := by
  have hzero := fun name => ha.get name "0" (by decide)
  have hnone := fun name => ha.get name "None" (by decide)
  have hfalse := fun name => ha.get name "False" (by decide)
  have hempty := fun name => ha.get name "\"\"" (by decide)
  have hlist := fun name => ha.get name "[]" (by decide)
  have hdict := fun name => ha.get name "\x7b\x7d" (by decide)
  have htuple := fun name => ha.get name "()" (by decide)
  have htag := Kind.oneLine_unsupported hn.tag
  rw [expression]
  generalize n.kind = k at htag
  cases k with
  | variableGet => exact r.oneLine_resolve _
  | variableSet => exact oneLine_assignText (r.oneLine_resolve _) (hnone _)
  | compare => exact oneLine_operatorText (hzero _) (CompareOp.unbroken_symbol _) (hzero _)
  | logic => exact oneLine_operatorText (hfalse _) (LogicOp.unbroken_keyword _) (hfalse _)
  | boolean =>
    simp only
    split <;> decide
  | number => exact Literal.oneLine_number _
  | arithmetic => exact oneLine_operatorText (hzero _) (ArithOp.unbroken_symbol _) (hzero _)
  | round => exact .enclose (by decide) (hzero _).unbroken (by decide)
  | text => exact Literal.oneLine_quote _
  | print => exact .enclose (by decide) (hempty _).unbroken (by decide)
  | listCreate =>
    refine .enclose (by decide) (unbroken_commaText ?_) (by decide)
    simp [(hnone _).unbroken]
  | listGet => exact oneLine_itemText (hlist _) (hzero _)
  | listSet => exact oneLine_assignText (oneLine_itemText (hlist _) (hzero _)) (hnone _)
  | dictCreate =>
    refine .enclose (by decide) (unbroken_commaText ?_) (by decide)
    simp [(hempty _).unbroken, (hnone _).unbroken]
  | dictGet => exact oneLine_itemText (hdict _) (hempty _)
  | dictSet => exact oneLine_assignText (oneLine_itemText (hdict _) (hempty _)) (hnone _)
  | tupleCreate =>
    refine .enclose (by decide) (unbroken_commaText ?_) (by decide)
    simp [(hnone _).unbroken]
  | tupleGet => exact oneLine_itemText (htuple _) (hzero _)
  | inputText => exact .enclose (by decide) (Literal.oneLine_quote _).unbroken (by decide)
  | ifThen | ifElse | ifElifElse | forRange | whileLoop | importModule | unknown _ => exact htag

/-! ### Statements -/

/-- Every line of every suite is one line. -/
def Suites.OneLine (suites : Suites) : Prop := ∀ e ∈ suites, ∀ l ∈ e.2.lines, Text.OneLine l

@[simp] theorem Suite.lines_line (text : String) : (Suite.line text).lines = [text] := rfl

@[simp] theorem Suite.lines_head (text : String) (body : Suite) :
    (Suite.head text body).lines = text :: body.lines := by
  simp [head, lines]

/-- What is found under a slot, or taken in its place, has lines that are one line each. -/
theorem Suites.OneLine.getD {suites : Suites} (h : suites.OneLine) (slot : Slot) {other : Suite}
    (ho : ∀ l ∈ other.lines, Text.OneLine l) :
    ∀ l ∈ ((suites.lookup slot).getD other).lines, Text.OneLine l := by
  cases hsuite : suites.lookup slot with
  | none => exact ho
  | some s =>
    obtain ⟨before, after, hsuites, -⟩ := List.lookup_eq_some_iff.mp hsuite
    exact h (slot, s) (by simp [hsuites])

theorem Suites.OneLine.body {suites : Suites} (h : suites.OneLine) (name : String) :
    ∀ l ∈ (suites.body name).lines, Text.OneLine l :=
  h.getD (.statement name) (by decide)

theorem Suites.OneLine.following {suites : Suites} (h : suites.OneLine) :
    ∀ l ∈ suites.following.lines, Text.OneLine l :=
  h.getD .next (by decide)

/-- **A statement is made of lines**, if its inputs and its bodies are. -/
theorem Node.oneLine_statement (r : Registry) {n : Node} (hn : n.Unbroken) {args : Arguments}
    (ha : args.OneLine) {suites : Suites} (hs : suites.OneLine) :
    ∀ l ∈ (n.statement r args suites).lines, OneLine l := by
  have hfalse := fun name => (ha.get name "False" (by decide)).unbroken
  have hzero := fun name => (ha.get name "0" (by decide)).unbroken
  have hif : OneLine ("if " ++ args.get "IF0" "False" ++ ":") :=
    .enclose (by decide) (hfalse _) (by decide)
  have helif : OneLine ("elif " ++ args.get "IF1" "False" ++ ":") :=
    .enclose (by decide) (hfalse _) (by decide)
  have himport : n.kind = .importModule →
      OneLine ("import " ++ (n.text? "MODULE").getD "") := by
    intro hk
    refine Text.OneLine.append (by decide) ?_
    cases hm : n.text? "MODULE" with
    | none => decide
    | some m => exact hn.moduleName hk m hm
  have hvalue := n.oneLine_expression r hn ha
  rw [statement]
  generalize n.kind = k at himport
  cases k with
  | ifThen =>
    simp only [Suite.lines_head, List.forall_mem_cons]
    exact ⟨hif, hs.body _⟩
  | ifElse =>
    simp only [Suite.lines_append, Suite.lines_head, List.forall_mem_append, List.forall_mem_cons]
    exact ⟨⟨hif, hs.body _⟩, by decide, hs.body _⟩
  | ifElifElse =>
    simp only [Suite.lines_append, Suite.lines_head, List.forall_mem_append, List.forall_mem_cons]
    exact ⟨⟨⟨hif, hs.body _⟩, helif, hs.body _⟩, by decide, hs.body _⟩
  | forRange =>
    have hname :=
      (r.oneLine_getD_lookup (n.handle? variableField) loopName (by decide)).unbroken
    simp only [Suite.lines_head, List.forall_mem_cons]
    refine ⟨?_, hs.body _⟩
    exact .enclose (.enclose (.enclose (by decide) hname (by decide)) (hzero _) (by decide))
      (hzero _) (by decide)
  | whileLoop =>
    simp only [Suite.lines_head, List.forall_mem_cons]
    exact ⟨.enclose (by decide) (hfalse _) (by decide), hs.body _⟩
  | importModule =>
    simp only [Suite.lines_line, List.forall_mem_singleton]
    exact himport rfl
  | _ =>
    simp only [Suite.lines_line, List.forall_mem_singleton]
    exact hvalue

/-! ### Trees -/

theorem Children.oneLine_arguments (r : Registry) {cs : Children}
    (h : ∀ n ∈ cs.nodes, n.Unbroken) : (cs.arguments r).OneLine := by
  induction cs with
  | nil => exact fun e he => absurd he List.not_mem_nil
  | cons s n below rest ihb ihr =>
    obtain ⟨hn, h⟩ := List.forall_mem_cons.mp h
    obtain ⟨hbelow, hrest⟩ := List.forall_mem_append.mp h
    cases s with
    | input name =>
      exact List.forall_mem_cons.mpr ⟨n.oneLine_expression r hn (ihb hbelow), ihr hrest⟩
    | statement name => exact ihr hrest
    | next => exact ihr hrest

theorem Children.oneLine_suites (r : Registry) {cs : Children}
    (h : ∀ n ∈ cs.nodes, n.Unbroken) : (cs.suites r).OneLine := by
  induction cs with
  | nil => exact fun e he => absurd he List.not_mem_nil
  | cons s n below rest ihb ihr =>
    obtain ⟨hn, h⟩ := List.forall_mem_cons.mp h
    obtain ⟨hbelow, hrest⟩ := List.forall_mem_append.mp h
    have hchain : ∀ l ∈ (n.statement r (below.arguments r) (below.suites r) ++
        (below.suites r).following).lines, OneLine l := by
      rw [Suite.lines_append, List.forall_mem_append]
      exact ⟨n.oneLine_statement r hn (oneLine_arguments r hbelow) (ihb hbelow),
        (ihb hbelow).following⟩
    cases s with
    | input name => exact ihr hrest
    | statement name => exact List.forall_mem_cons.mpr ⟨hchain, ihr hrest⟩
    | next => exact List.forall_mem_cons.mpr ⟨hchain, ihr hrest⟩

/-- **A chain is made of lines.** -/
theorem Block.oneLine_suite (r : Registry) {b : Block} (h : ∀ n ∈ b.nodes, n.Unbroken) :
    ∀ l ∈ (b.suite r).lines, OneLine l := by
  obtain ⟨hn, hbelow⟩ := List.forall_mem_cons.mp h
  have hsuites := Children.oneLine_suites r hbelow
  rw [suite, Suite.lines_append, List.forall_mem_append]
  exact ⟨b.node.oneLine_statement r hn (Children.oneLine_arguments r hbelow) hsuites,
    hsuites.following⟩

end BlockProgram
