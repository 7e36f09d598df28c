import BlockProgram.Proofs.Code.OneLine

/-!
# The layout of a program

The indentation of a program tells how its blocks are nested. Read back from the spaces alone, the
text of a chain has the head lines of its blocks one after the other; under a head line with a
body stands what is read back from the text of that body, one level deeper, or the line `pass`;
and under no other line stands anything.
-/

namespace BlockProgram

/-! ### Chains -/

/-- The blocks of the chain that goes on from a forest by its slot for the next block. -/
def Children.chain : Children → List Block
  | .nil => []
  | .cons s n below rest => if s = .next then ⟨n, below⟩ :: below.chain else rest.chain

/-- The blocks of a chain, from its head on. -/
def Block.chain (b : Block) : List Block := b :: b.children.chain

theorem Children.subset_nodes_of_get? {slot : Slot} {b : Block} {cs : Children}
    (h : cs.get? slot = some b) : b.nodes ⊆ cs.nodes :=
  fun _ hn => (perm_get? h).mem_iff.mpr (List.mem_append_left _ hn)

theorem Children.subset_nodes_of_mem_chain {b : Block} {cs : Children} (h : b ∈ cs.chain) :
    b.nodes ⊆ cs.nodes := by
  induction cs with
  | nil => exact absurd h List.not_mem_nil
  | cons s n below rest ihb ihr =>
    rw [chain] at h
    split at h
    · rcases List.mem_cons.mp h with rfl | h
      · exact List.cons_subset_cons n (List.subset_append_left _ _)
      · exact fun m hm => by simp [nodes, ihb h hm]
    · exact fun m hm => by simp [nodes, ihr h hm]

theorem Block.subset_nodes_of_mem_chain {b c : Block} (h : c ∈ b.chain) : c.nodes ⊆ b.nodes := by
  rcases List.mem_cons.mp h with rfl | h
  · exact List.Subset.refl _
  · exact fun n hn => List.mem_cons_of_mem _ (Children.subset_nodes_of_mem_chain h hn)

/-! ### Head lines and what stands under them -/

/-- Suites one after the other. -/
def Suite.concat (suites : List Suite) : Suite := suites.foldr (· ++ ·) .nil

/-- For each head line of a kind the statement input whose body stands under it, if there is one. -/
def Kind.sections : Kind → List (Option String)
  | .ifThen => [some "DO0"]
  | .ifElse => [some "DO0", some "ELSE"]
  | .ifElifElse => [some "DO0", some "DO1", some "ELSE"]
  | .forRange | .whileLoop => [some "DO"]
  | _ => [none]

namespace Block

/-- The text of a value input, or a placeholder if it is empty. -/
def argument (r : Registry) (b : Block) (name placeholder : String) : String :=
  ((b.input? name).map (Block.expression r)).getD placeholder

/-- The head lines of a block. -/
def headers (r : Registry) (b : Block) : List String :=
  match b.kind with
  | .ifThen => ["if " ++ b.argument r "IF0" "False" ++ ":"]
  | .ifElse => ["if " ++ b.argument r "IF0" "False" ++ ":", "else:"]
  | .ifElifElse =>
    ["if " ++ b.argument r "IF0" "False" ++ ":", "elif " ++ b.argument r "IF1" "False" ++ ":",
      "else:"]
  | .forRange =>
    ["for " ++ (r.lookup (b.node.handle? variableField)).getD loopName ++ " in range(" ++
      b.argument r "FROM" "0" ++ ", " ++ b.argument r "TO" "0" ++ " + 1):"]
  | .whileLoop => ["while " ++ b.argument r "BOOL" "False" ++ ":"]
  | .importModule => ["import " ++ (b.node.text? "MODULE").getD ""]
  | _ => [b.expression r]

/-- What is read off the text of a body. -/
def under (r : Registry) (level : Nat) (b : Block) : Option String → Suite
  | none => .nil
  | some slot =>
    match b.statement? slot with
    | some body => .nest (Text.lines (body.render r level))
    | none => .line (Text.indent level ++ "pass")

/-- The head lines of a block at a level, each over what is read off the text of its body. -/
def layout (r : Registry) (level : Nat) (b : Block) : Suite :=
  .concat (List.zipWith (fun text slot => .head (Text.indent level ++ text) (b.under r (level + 1) slot))
    (b.headers r) b.kind.sections)

/-- The lines of a block itself, without those of the chain below it. -/
def statement (r : Registry) (b : Block) : Suite :=
  b.node.statement r (b.children.arguments r) (b.children.suites r)

theorem get_arguments (r : Registry) (b : Block) (name placeholder : String) :
    Arguments.get (b.children.arguments r) name placeholder = b.argument r name placeholder := by
  rw [Arguments.get, Children.lookup_arguments]
  rfl

end Block

/-! ### The lines of a chain -/

theorem Children.following_suites (r : Registry) (cs : Children) :
    Suites.following (cs.suites r) = .concat (cs.chain.map (Block.statement r)) := by
  have hnext : ∀ cs : Children, Suites.following (cs.suites r) =
      ((cs.get? .next).map (Block.suite r)).getD .nil :=
    fun cs => congrArg (·.getD .nil) (lookup_suites r .next cs (by simp))
  induction cs with
  | nil => rfl
  | cons s n below rest ihb ihr =>
    rw [hnext, get?, chain]
    split
    · exact congrArg (Block.statement r ⟨n, below⟩ ++ ·) ihb
    · rw [← hnext, ihr]

theorem Block.suite_eq (r : Registry) (b : Block) :
    b.suite r = .concat (b.chain.map (Block.statement r)) := by
  rw [suite, Children.following_suites]
  rfl

theorem Suite.indented_concat (level : Nat) (suites : List Suite) :
    (Suite.concat suites).indented level = .concat (suites.map (Suite.indented level)) := by
  induction suites with
  | nil => rfl
  | cons s suites ih => exact (indented_append level s _).trans (congrArg _ ih)

section Layout

variable {r : Registry} {level : Nat} {b : Block}

theorem Block.nest_render (h : ∀ n ∈ b.nodes, n.Unbroken) :
    Suite.nest (Text.lines (b.render r level)) = (b.suite r).indented level :=
  Suite.nest_print (b.oneLine_suite r h) level

theorem Block.indented_body (h : ∀ n ∈ b.nodes, n.Unbroken) (slot : String) :
    (b.body r slot).indented level = b.under r level (some slot) := by
  rw [body_eq, under]
  cases hbody : b.statement? slot with
  | none => rfl
  | some body =>
    have hsub : ∀ n ∈ body.nodes, n.Unbroken :=
      fun n hn => h n (List.mem_cons_of_mem _ (Children.subset_nodes_of_get? hbody hn))
    exact (nest_render hsub).symm

theorem Block.indented_statement (h : ∀ n ∈ b.nodes, n.Unbroken) :
    (b.statement r).indented level = b.layout r level := by
  have hbody : ∀ slot, (Suites.body (b.children.suites r) slot).indented (level + 1) =
      b.under r (level + 1) (some slot) := indented_body h
  simp only [statement, Node.statement, layout, headers, get_arguments]
  rw [kind]
  cases b.node.kind with
  | ifThen | ifElse | ifElifElse | forRange | whileLoop =>
    simp [Kind.sections, Suite.concat, Suite.head, Suite.indented, hbody]
  | _ =>
    simp [Kind.sections, Suite.concat, Suite.line, Suite.head, Suite.indented, under, expression]

theorem Block.length_headers (r : Registry) (b : Block) :
    (b.headers r).length = b.kind.sections.length := by
  rw [headers]
  cases b.kind <;> rfl

/-- A head line is a line of the block. -/
theorem Block.headers_subset_lines (r : Registry) (b : Block) :
    b.headers r ⊆ (b.statement r).lines := by
  simp only [statement, Node.statement, headers, get_arguments]
  rw [kind]
  cases b.node.kind with
  | ifThen | ifElse | ifElifElse | forRange | whileLoop => simp
  | _ => simp [expression]

/-- No chain is without a line. -/
theorem Block.suite_ne_nil (r : Registry) (b : Block) : b.suite r ≠ .nil := by
  simp only [suite, Node.statement]
  cases b.node.kind with
  | ifThen | ifElse | ifElifElse | forRange | whileLoop => simp [Suite.head]
  | _ => simp [Suite.line]

/-- No head line with a body is left without a line under it. -/
theorem Block.under_ne_nil (h : ∀ n ∈ b.nodes, n.Unbroken) (slot : String) :
    b.under r level (some slot) ≠ .nil := by
  rw [← indented_body h, body_eq]
  cases b.statement? slot with
  | none => exact Suite.noConfusion
  | some body =>
    rw [Option.map_some, Option.getD_some]
    cases hbody : body.suite r with
    | nil => exact absurd hbody (body.suite_ne_nil r)
    | cons text below rest => exact Suite.noConfusion

/-- **The indentation of a program is its nesting.** Each line of a chain begins with an even
number of spaces, those of its level at least, and then a character that is no space. Read from the
spaces alone, each line under the nearest earlier line with fewer of them, the text is the head
lines of its blocks in their order, each over what is read from the text of its body. -/
theorem Block.nest_lines_render (r : Registry) (level : Nat) (b : Block)
    (h : ∀ n ∈ b.nodes, n.Unbroken) :
    (∀ l ∈ Text.lines (b.render r level), ∃ deep c cs,
      level ≤ deep ∧ c ≠ ' ' ∧ l.toList = List.replicate (2 * deep) ' ' ++ c :: cs) ∧
    (Suite.nest (Text.lines (b.render r level))).IsNesting (Text.lines (b.render r level)) ∧
    Suite.nest (Text.lines (b.render r level)) = .concat (b.chain.map (Block.layout r level)) ∧
    ∀ c ∈ b.chain,
      (c.headers r).length = c.kind.sections.length ∧
      (∀ text ∈ c.headers r, Text.depth (Text.indent level ++ text) = 2 * level) ∧
      ∀ slot, c.under r (level + 1) (some slot) ≠ .nil := by
  have hnest : Suite.nest (Text.lines (b.render r level)) = (b.suite r).indented level :=
    nest_render h
  have hchain : ∀ c ∈ b.chain, ∀ n ∈ c.nodes, n.Unbroken :=
    fun c hc n hn => h n (subset_nodes_of_mem_chain hc hn)
  refine ⟨fun l hl => ?_, Suite.isNesting_nest _, ?_, fun c hc => ⟨c.length_headers r, ?_, ?_⟩⟩
  · rw [← Suite.lines_nest (Text.lines (b.render r level)), hnest] at hl
    obtain ⟨deep, text, hdeep, htext, rfl⟩ := Suite.mem_lines_indented hl
    obtain ⟨c, cs, hcs, hc⟩ := (b.oneLine_suite r h text htext).starts
    exact ⟨deep, c, cs, hdeep, hc, by simp [hcs]⟩
  · rw [hnest, suite_eq, Suite.indented_concat, List.map_map]
    exact congrArg Suite.concat (List.map_congr_left fun c hc => indented_statement (hchain c hc))
  · intro text htext
    obtain ⟨hn, hbelow⟩ := List.forall_mem_cons.mp (hchain c hc)
    exact Text.depth_indent (c.node.oneLine_statement r hn (Children.oneLine_arguments r hbelow)
      (Children.oneLine_suites r hbelow) text (c.headers_subset_lines r htext)) level
  · exact under_ne_nil (hchain c hc)

end Layout

/-- A choice whose first body is a loop without a body and whose second body is empty,
and an import after it. -/
theorem Block.nest_lines_render_choice :
    let loop : Node := ⟨⟨"loop"⟩, .whileLoop, .empty⟩
    let imported : Node := ⟨⟨"import"⟩, .importModule, ⟨[("MODULE", .text "math")]⟩⟩
    let b : Block := ⟨⟨⟨"choice"⟩, .ifElse, .empty⟩,
      .cons (.statement "DO0") loop .nil (.cons .next imported .nil .nil)⟩
    b.render .empty 1 =
      "  if False:\n    while False:\n      pass\n  else:\n    pass\n  import math\n" ∧
    Suite.nest (Text.lines (b.render .empty 1)) = .concat (b.chain.map (Block.layout .empty 1)) := by
  intro loop imported b
  have h : ∀ n ∈ b.nodes, n.Unbroken := by
    simp only [b, Block.nodes, Children.nodes, List.forall_mem_cons, List.append_nil,
      List.nil_append]
    refine ⟨⟨by simp, by simp⟩, ⟨by simp [loop], by simp [loop]⟩, ⟨by simp [imported], ?_⟩, by simp⟩
    intro _ m hm
    cases hm
    decide
  exact ⟨by decide, (Block.nest_lines_render .empty 1 b h).2.2.1⟩

end BlockProgram
