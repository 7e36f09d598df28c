import BlockProgram.Proofs.Code.Layout

/-!
# Texts and the lines of a program

Which lines a program has, and how deep they stand, is decided by the kinds of its blocks and by how
they hang together. Two chains that differ in nothing but texts, in tags that are not known and in
identities have line feeds in the same places, as far as these come from the ends of statements. All
other line feeds come from two settings that go into a program as they are: the tag of a kind that is
not known and the name of an imported module. Where these have none, the lines are the same in number
and in depth.
-/

namespace BlockProgram

/-! ### Blocks without their texts -/

/-- A kind, whatever its tag if it is not known. -/
def Kind.shape : Kind → Kind
  | .unknown _ => .unknown ""
  | k => k

/-- A setting, whatever its text if it holds one. -/
def Field.shape : Field → Field
  | .text _ => .text ""
  | .var h => .var h

/-- A block, whatever its identity, its texts and, if its kind is not known, its tag. -/
def Node.shape (n : Node) : Node := ⟨⟨""⟩, n.kind.shape, n.fields.mapValues Field.shape⟩

/-- Two chains differ at most in identities, texts and tags that are not known. -/
def Block.Alike (b c : Block) : Prop := b.map Node.shape = c.map Node.shape

instance (b c : Block) : Decidable (b.Alike c) := inferInstanceAs (Decidable (_ = _))

instance (n : Node) : Decidable n.Unbroken :=
  decidable_of_iff ((n.kind.isUnknown → '\n' ∉ n.kind.tag.toList) ∧
      (n.kind = .importModule → ∀ m ∈ n.text? "MODULE", '\n' ∉ m.toList)) <| by
    constructor
    · intro ⟨htag, hmodule⟩
      refine ⟨fun t ht => ?_, hmodule⟩
      rw [ht] at htag
      exact htag rfl
    · intro hn
      refine ⟨fun hunknown => ?_, hn.moduleName⟩
      cases hkind : n.kind with
      | unknown t => exact hn.tag t hkind
      | _ => rw [hkind] at hunknown; cases hunknown

/-! ### Suites without their texts -/

namespace Suite

/-- Lines, whatever stands on them. -/
def shape : Suite → Suite
  | nil => nil
  | cons _ body rest => cons "" body.shape rest.shape

@[simp] theorem shape_append (s t : Suite) : (s ++ t).shape = s.shape ++ t.shape := by
  induction s with
  | nil => rfl
  | cons text body rest _ ih => simp [shape, ih]

@[simp] theorem shape_line (text : String) : (line text).shape = line "" := rfl

@[simp] theorem shape_head (text : String) (body : Suite) :
    (head text body).shape = head "" body.shape := rfl

/-- How many spaces stand before the lines on paper. -/
def depths (level : Nat) : Suite → List Nat
  | nil => []
  | cons _ body rest => 2 * level :: (body.depths (level + 1) ++ rest.depths level)

@[simp] theorem depths_shape (level : Nat) (s : Suite) : s.shape.depths level = s.depths level := by
  induction s generalizing level with
  | nil => rfl
  | cons text body rest ihb ihr => simp [shape, depths, ihb, ihr]

theorem length_depths (level : Nat) (s : Suite) : (s.depths level).length = s.lines.length := by
  induction s generalizing level with
  | nil => rfl
  | cons text body rest ihb ihr => simp [depths, lines, ihb, ihr]

theorem map_depth_indented {s : Suite} (h : ∀ l ∈ s.lines, Text.OneLine l) (level : Nat) :
    (s.indented level).lines.map Text.depth = s.depths level := by
  induction s generalizing level with
  | nil => rfl
  | cons text body rest ihb ihr =>
    obtain ⟨htext, h⟩ := List.forall_mem_cons.mp h
    obtain ⟨hbody, hrest⟩ := List.forall_mem_append.mp h
    simp only [indented, lines, depths, List.map_cons, List.map_append, ihb hbody, ihr hrest,
      Text.depth_indent htext]

/-- Where every line is one line on paper, the text has a line for each, as deep as it should be. -/
theorem map_depth_lines_print {s : Suite} (h : ∀ l ∈ s.lines, Text.OneLine l) (level : Nat) :
    (Text.lines (s.print level)).map Text.depth = s.depths level := by
  have hlines := lines_print h level ""
  rw [String.append_empty, Text.lines_empty, List.append_nil] at hlines
  rw [hlines, map_depth_indented h]

end Suite

/-! ### Line feeds -/

theorem Text.length_charLines (cs rest : List Char) :
    (charLines (cs ++ '\n' :: rest)).length = cs.count '\n' + 1 + (charLines rest).length := by
  induction cs with
  | nil => simp [charLines, Nat.add_comm]
  | cons c cs ih =>
    rw [List.cons_append, charLines]
    split
    · rename_i hc
      subst hc
      rw [List.length_cons, ih, List.count_cons_self]
      omega
    · rename_i hc
      rw [List.count_cons_of_ne hc]
      cases hlines : charLines (cs ++ '\n' :: rest) with
      | nil =>
        rw [hlines, List.length_nil] at ih
        omega
      | cons line lines => rwa [hlines] at ih

/-- How many line feeds stand on a line, the one at its end aside. -/
def Text.feeds (line : String) : Nat := line.toList.count '\n'

/-- How many line feeds stand on lines, those at their ends aside. -/
def Suite.feeds : Suite → Nat
  | nil => 0
  | cons text body rest => Text.feeds text + body.feeds + rest.feeds

/-- **Every line feed on a line makes one more of it.** -/
theorem Suite.length_lines_print (s : Suite) (level : Nat) (rest : String) :
    (Text.lines (s.print level ++ rest)).length =
      s.lines.length + s.feeds + (Text.lines rest).length := by
  induction s generalizing level rest with
  | nil => simp [feeds, lines]
  | cons text body after ihb iha =>
    have hfirst : ∀ after : String,
        (Text.lines (Text.indent level ++ text ++ "\n" ++ after)).length =
          Text.feeds text + 1 + (Text.lines after).length := by
      intro after
      have hlength := Text.length_charLines (Text.indent level ++ text).toList after.toList
      simpa [Text.lines, Text.feeds, List.count_replicate] using hlength
    simp only [print, String.append_assoc] at hfirst ⊢
    rw [hfirst, ihb, iha]
    simp only [feeds, lines, List.length_cons, List.length_append]
    omega

/-! ### The shape of a program -/

/-- Suites by slot, whatever stands on their lines. -/
def Suites.shape (suites : Suites) : Suites := suites.map fun e => (e.1, e.2.shape)

theorem Suites.shape_lookup (suites : Suites) (slot : Slot) :
    suites.shape.lookup slot = (suites.lookup slot).map Suite.shape := by
  induction suites with
  | nil => rfl
  | cons e suites ih =>
    rw [shape, List.map_cons, List.lookup_cons, List.lookup_cons]
    cases slot == e.1 with
    | true => rfl
    | false => exact ih

/-- What is found under a slot, or taken in its place. -/
theorem Suites.shape_getD {suites suites' : Suites} (h : suites.shape = suites'.shape) (slot : Slot)
    (other : Suite) :
    ((suites.lookup slot).getD other).shape = ((suites'.lookup slot).getD other).shape := by
  have hgetD : ∀ suites : Suites, ((suites.lookup slot).getD other).shape =
      (suites.shape.lookup slot).getD other.shape := by
    intro suites
    rw [shape_lookup]
    cases suites.lookup slot <;> rfl
  rw [hgetD, hgetD, h]

section Shape

variable (r : Registry)

/-- The lines of a block are decided by its kind and by its bodies. -/
theorem Node.shape_statement (n : Node) (args args' : Arguments) {suites suites' : Suites}
    (h : suites.shape = suites'.shape) :
    (n.shape.statement r args suites).shape = (n.statement r args' suites').shape := by
  have hbody : ∀ name, (suites.body name).shape = (suites'.body name).shape :=
    fun name => Suites.shape_getD h (.statement name) (.line "pass")
  have hkind : n.shape.kind = n.kind.shape := rfl
  simp only [statement, hkind]
  cases n.kind with
  | ifThen | ifElse | ifElifElse | forRange | whileLoop => simp [Kind.shape, hbody]
  | _ => rfl

/-- The lines of a block and of the chain after it, given the children of the block. -/
theorem Node.shape_chain (n : Node) {below below' : Children}
    (h : Suites.shape (below.suites r) = Suites.shape (below'.suites r)) :
    (n.shape.statement r (below.arguments r) (below.suites r) ++
        Suites.following (below.suites r)).shape =
      (n.statement r (below'.arguments r) (below'.suites r) ++
        Suites.following (below'.suites r)).shape := by
  rw [Suite.shape_append, Suite.shape_append, shape_statement r n _ _ h]
  exact congrArg _ (Suites.shape_getD h .next .nil)

theorem Children.shape_suites (cs : Children) :
    Suites.shape ((cs.map Node.shape).suites r) = Suites.shape (cs.suites r) := by
  induction cs with
  | nil => rfl
  | cons s n below rest ihb ihr =>
    have hchain := n.shape_chain r ihb
    cases s with
    | input name => exact ihr
    | statement name => exact congrArg₂ List.cons (congrArg (Prod.mk _) hchain) ihr
    | next => exact congrArg₂ List.cons (congrArg (Prod.mk _) hchain) ihr

theorem Block.shape_suite (b : Block) :
    ((b.map Node.shape).suite r).shape = (b.suite r).shape :=
  b.node.shape_chain r (Children.shape_suites r b.children)

variable {r} in
/-- Chains that are alike have the same lines, whatever stands on them. -/
theorem Block.Alike.shape_suite {b c : Block} (h : b.Alike c) :
    (b.suite r).shape = (c.suite r).shape := by
  rw [← b.shape_suite r, ← c.shape_suite r, h]

end Shape

/-- **Texts add no lines to a program**, but for line feeds in the tag of a kind that is not known
and in the name of an imported module: of two chains that are alike and have none there the texts have
the same lines, as to their number and as to the spaces before each. In general the numbers of
lines differ by the line feeds that stand on lines. -/
theorem Block.depths_lines_render {b c : Block} (h : b.Alike c) (r : Registry) (level : Nat) :
    ((∀ n ∈ b.nodes, n.Unbroken) → (∀ n ∈ c.nodes, n.Unbroken) →
      (Text.lines (b.render r level)).map Text.depth =
        (Text.lines (c.render r level)).map Text.depth) ∧
    (Text.lines (b.render r level)).length + (c.suite r).feeds =
      (Text.lines (c.render r level)).length + (b.suite r).feeds := by
  have hdepths : (b.suite r).depths level = (c.suite r).depths level := by
    rw [← Suite.depths_shape, h.shape_suite, Suite.depths_shape]
  constructor
  · intro hb hc
    rw [render, render, Suite.map_depth_lines_print (b.oneLine_suite r hb),
      Suite.map_depth_lines_print (c.oneLine_suite r hc), hdepths]
  · have hlength : (b.suite r).lines.length = (c.suite r).lines.length := by
      rw [← Suite.length_depths level, hdepths, Suite.length_depths]
    have hcount : ∀ d : Block, (Text.lines (d.render r level)).length =
        (d.suite r).lines.length + (d.suite r).feeds := by
      intro d
      have hprint := (d.suite r).length_lines_print level ""
      rwa [String.append_empty, Text.lines_empty, List.length_nil, Nat.add_zero] at hprint
    rw [hcount, hcount, hlength]
    omega

/-- A loop and a block of a kind that is not known, once with line feeds, quotes and spaces in its
texts, and once with other texts or none. -/
theorem Block.depths_lines_render_loop :
    let loop (left right printed tag : String) : Block :=
      ⟨⟨⟨left⟩, .whileLoop, .empty⟩,
        .cons (.input "BOOL") ⟨⟨right⟩, .compare, ⟨[("OP", .text left)]⟩⟩
          (.cons (.input "A") ⟨⟨"a"⟩, .number, ⟨[("NUM", .text left)]⟩⟩ .nil
            (.cons (.input "B") ⟨⟨"b"⟩, .text, ⟨[("TEXT", .text right)]⟩⟩ .nil .nil))
          (.cons (.statement "DO") ⟨⟨"d"⟩, .print, .empty⟩
            (.cons (.input "VALUE") ⟨⟨"v"⟩, .inputText, ⟨[("PROMPT", .text printed)]⟩⟩ .nil .nil)
            (.cons .next ⟨⟨"n"⟩, .ofTag tag, .empty⟩ .nil .nil))⟩
    let b := loop "\n 12\t" "\"\n  x" "\\\n" "robot  arm"
    let c := loop "LT" "" "ready?" "#"
    b.Alike c ∧
      b.render .empty 1 = "  while 12 == \"\\\"\\n  x\":\n    print(input(\"\\\\\\n\"))\n" ++
        "  # Unsupported block type: robot  arm\n" ∧
      ((Text.lines (b.render .empty 1)).map Text.depth =
        (Text.lines (c.render .empty 1)).map Text.depth) ∧
      (Text.lines (b.render .empty 1)).length + (c.suite .empty).feeds =
        (Text.lines (c.render .empty 1)).length + (b.suite .empty).feeds := by
  intro loop b c
  have halike : b.Alike c := by decide
  have hb : ∀ n ∈ b.nodes, n.Unbroken := by decide
  have hc : ∀ n ∈ c.nodes, n.Unbroken := by decide
  obtain ⟨hdepths, hlength⟩ := depths_lines_render halike .empty 1
  exact ⟨halike, by decide +kernel, hdepths hb hc, hlength⟩

/-- A line feed in a tag that is not known, or in the name of a module, makes a line of its own. -/
theorem Block.added_lines :
    let tagged (tag : String) : Block := .leaf ⟨"u"⟩ (.ofTag tag) .empty
    let imported (name : String) : Block := .leaf ⟨"i"⟩ .importModule ⟨[("MODULE", .text name)]⟩
    let depths (b : Block) : List Nat := (Text.lines (b.render .empty 1)).map Text.depth
    ((tagged "a\nb").Alike (tagged "ab") ∧ (tagged "a\nb").kind.isUnknown ∧
      (tagged "ab").kind.isUnknown ∧ depths (tagged "a\nb") = [2, 0] ∧
      depths (tagged "ab") = [2]) ∧
    (imported "os\nquit()").Alike (imported "os") ∧ depths (imported "os\nquit()") = [2, 0] ∧
      depths (imported "os") = [2] := by
  decide

end BlockProgram
