import BlockProgram.Proofs.Code.Layout
import BlockProgram.Proofs.Code.Regrouping
import BlockProgram.Proofs.Number.Range

/-!
# Reading arithmetic back

The text of an arithmetic block is the texts of its operands with an operator between them and
without parentheses. It is read in exactly one way, but the number that is read need not be the
one that the block stands for: it is if the formula of the block is flat, and its numbers are
small enough to be taken over as they were typed. In every shape that is not flat some
numbers give another value.
-/

namespace BlockProgram

/-- The selector by which a block names an operation. -/
def Operation.selector : Operation → String
  | add => "ADD"
  | sub => "MINUS"
  | mul => "MULTIPLY"

theorem Operation.symbol_ofSelector (o : Operation) :
    (ArithOp.ofSelector (some o.selector)).symbol = o.symbol := by
  cases o <;> rfl

/-- What hangs in an input stands for a formula. Nothing stands for zero. -/
inductive Computes : Option Block → Formula → Prop where
  /-- An operand that is missing. -/
  | missing : Computes none (.num 0)
  /-- A number. -/
  | number {b : Block} {n : Nat} (hkind : b.kind = .number)
      (htyped : b.node.text? "NUM" = some (toString n)) : Computes (some b) (.num n)
  /-- An operation on two operands. -/
  | arithmetic {b : Block} {o : Operation} {left right : Formula} (hkind : b.kind = .arithmetic)
      (hop : b.node.text? "OP" = some o.selector) (hleft : Computes (b.input? "A") left)
      (hright : Computes (b.input? "B") right) : Computes (some b) (.op o left right)

/-- A block that stands for a formula. -/
def Formula.block (id : String) : Formula → Block
  | num n => ⟨⟨⟨id⟩, .number, ⟨[("NUM", .text (toString n))]⟩⟩, .nil⟩
  | op o a b =>
    let left := a.block (id ++ "a")
    let right := b.block (id ++ "b")
    ⟨⟨⟨id⟩, .arithmetic, ⟨[("OP", .text o.selector)]⟩⟩,
      .cons (.input "A") left.node left.children
        (.cons (.input "B") right.node right.children .nil)⟩

theorem Formula.computes_block (id : String) (f : Formula) : Computes (some (f.block id)) f := by
  induction f generalizing id with
  | num n => exact .number rfl rfl
  | op o a b iha ihb => exact .arithmetic rfl rfl (iha _) (ihb _)

/-- Every number of a formula is finite as a number of 64 bits. -/
def Formula.Fits (f : Formula) : Prop := f.All (· < Double.limit)

theorem Formula.All.fits {f : Formula} (h : f.All (· ≤ 1)) : f.Fits :=
  h.imp fun _ hn => Nat.lt_of_le_of_lt hn (Double.lt_limit (by decide))

/-- A formula as it gets into a program: zero takes the place of numbers that are not finite. -/
def Formula.shown : Formula → Formula
  | num n => num (if n < Double.limit then n else 0)
  | op o a b => op o a.shown b.shown

theorem Formula.Fits.shown_eq {f : Formula} (h : f.Fits) : f.shown = f := by
  induction f with
  | num n => exact congrArg num (if_pos h)
  | op o a b iha ihb => rw [shown, iha h.1, ihb h.2]

/-- The text in the place of an operand is that of its formula. -/
theorem Computes.text_eq {operand : Option Block} {t : Formula} (h : Computes operand t)
    (r : Registry) : (operand.map (Block.expression r)).getD "0" = t.shown.text := by
  induction h with
  | missing =>
    rw [Formula.shown, ite_self]
    rfl
  | @number b n hkind htyped =>
    have hkind : b.node.kind = .number := hkind
    simp only [Option.map_some, Option.getD_some, Block.expression, Node.expression, hkind, htyped,
      Literal.number_toString, Formula.shown, Formula.text]
  | @arithmetic b o left right hkind hop _ _ ihleft ihright =>
    have hkind : b.node.kind = .arithmetic := hkind
    have hleft : b.argument r "A" "0" = left.shown.text := ihleft
    have hright : b.argument r "B" "0" = right.shown.text := ihright
    simp only [Option.map_some, Option.getD_some, Block.expression, Node.expression, hkind, hop,
      Block.get_arguments, Operation.symbol_ofSelector, hleft, hright]
    rfl

theorem Computes.expression_eq {b : Block} {t : Formula} (hb : Computes (some b) t) (r : Registry) :
    b.expression r = t.shown.text := hb.text_eq r

theorem Computes.exists_reads {b : Block} {t : Formula} (hb : Computes (some b) t) (r : Registry) :
    ∃ f : Formula, f.Reads (b.expression r) := by
  rw [hb.expression_eq]
  exact t.shown.exists_reads

/-- The number that is read from a block is its formula worked out from the left. -/
theorem Computes.value_eq {b : Block} {t f : Formula} (hb : Computes (some b) t) (hfits : t.Fits)
    {r : Registry} (hf : f.Reads (b.expression r)) :
    f.value = Formula.total 0 t.first t.rest := by
  rw [hb.expression_eq, hfits.shown_eq] at hf
  exact hf.value_eq

/-- **Arithmetic is read back in one way, and rightly if it is flat.** The text of a block that
stands for a formula is read as exactly one formula. If the formula of the block is flat and its
numbers are finite, the two stand for the same number. If it is not flat, there is a block of the
same shape whose text is read as another number. -/
theorem Block.reads_expression {b : Block} {t : Formula} (hb : Computes (some b) t) (r : Registry) :
    ∃ f : Formula, f.Reads (b.expression r) ∧
      (∀ g : Formula, g.Reads (b.expression r) → g = f) ∧
      (t.Flat → t.Fits → f.value = t.value) ∧
      (¬ t.Flat → ∃ (c : Block) (u g : Formula), Computes (some c) u ∧ u.cleared = t.cleared ∧
        u.Fits ∧ g.Reads (c.expression r) ∧ g.value ≠ u.value) := by
  obtain ⟨f, hf⟩ := hb.exists_reads r
  refine ⟨f, hf, fun g hg => hg.unique hf, fun hflat hfits => ?_, fun hflat => ?_⟩
  · exact (hb.value_eq hfits hf).trans hflat.total_eq
  · obtain ⟨u, hshape, hall, hne⟩ := Formula.exists_total_ne hflat
    have hc := u.computes_block "u"
    obtain ⟨g, hg⟩ := hc.exists_reads r
    refine ⟨u.block "u", u, g, hc, hshape, hall.fits, hg, ?_⟩
    rwa [hc.value_eq hall.fits hg]

/-- A product is taken away from a number, and to the difference a sum is added whose second operand
is missing. -/
theorem Block.reads_expression_flat :
    let number (id n : String) : Node := ⟨⟨id⟩, .number, ⟨[("NUM", .text n)]⟩⟩
    let operation (id op : String) : Node := ⟨⟨id⟩, .arithmetic, ⟨[("OP", .text op)]⟩⟩
    let product : Children :=
      .cons (.input "A") (number "b" "2") .nil (.cons (.input "B") (number "c" "3") .nil .nil)
    let difference : Children :=
      .cons (.input "A") (number "a" "5") .nil
        (.cons (.input "B") (operation "p" "MULTIPLY") product .nil)
    let b : Block := ⟨operation "s" "ADD",
      .cons (.input "A") (operation "m" "MINUS") difference
        (.cons (.input "B") (operation "t" "ADD")
          (.cons (.input "A") (number "d" "4") .nil .nil) .nil)⟩
    let t : Formula := .op .add (.op .sub (.num 5) (.op .mul (.num 2) (.num 3)))
      (.op .add (.num 4) (.num 0))
    Computes (some b) t ∧ t.Flat ∧ t.Fits ∧ b.expression .empty = "5 - 2 * 3 + 4 + 0" ∧
      ∃ f : Formula, f.Reads (b.expression .empty) ∧
        (∀ g : Formula, g.Reads (b.expression .empty) → g = f) ∧
        (t.Flat → t.Fits → f.value = t.value) ∧
        (¬ t.Flat → ∃ (c : Block) (u g : Formula), Computes (some c) u ∧ u.cleared = t.cleared ∧
          u.Fits ∧ g.Reads (c.expression .empty) ∧ g.value ≠ u.value) := by
  intro number operation product difference b t
  have hproduct : Computes (some ⟨operation "p" "MULTIPLY", product⟩)
      (.op .mul (.num 2) (.num 3)) :=
    .arithmetic rfl rfl (.number rfl rfl) (.number rfl rfl)
  have hdifference : Computes (some ⟨operation "m" "MINUS", difference⟩)
      (.op .sub (.num 5) (.op .mul (.num 2) (.num 3))) :=
    .arithmetic rfl rfl (.number rfl rfl) hproduct
  have hsum : Computes
      (some ⟨operation "t" "ADD", .cons (.input "A") (number "d" "4") .nil .nil⟩)
      (.op .add (.num 4) (.num 0)) :=
    .arithmetic rfl rfl (.number rfl rfl) .missing
  have hb : Computes (some b) t := .arithmetic rfl rfl hdifference hsum
  have hflat : t.Flat := ⟨⟨trivial, ⟨trivial, trivial, by decide, by decide⟩, by decide⟩,
    trivial, trivial⟩
  have hfits : t.Fits := by
    refine ⟨⟨?_, ?_, ?_⟩, ?_, ?_⟩ <;> exact Double.lt_limit (by decide)
  refine ⟨hb, hflat, hfits, ?_, reads_expression hb .empty⟩
  rw [hb.expression_eq, hfits.shown_eq]
  decide

/-- The product of a sum is read as a sum with a product, and a number that is not finite as zero. -/
theorem Block.regrouped_expression :
    let number (id n : String) : Node := ⟨⟨id⟩, .number, ⟨[("NUM", .text n)]⟩⟩
    let operation (id op : String) : Node := ⟨⟨id⟩, .arithmetic, ⟨[("OP", .text op)]⟩⟩
    let sum : Children :=
      .cons (.input "A") (number "a" "1") .nil (.cons (.input "B") (number "b" "2") .nil .nil)
    let b : Block := ⟨operation "p" "MULTIPLY",
      .cons (.input "A") (operation "s" "ADD") sum (.cons (.input "B") (number "c" "3") .nil .nil)⟩
    let t : Formula := .op .mul (.op .add (.num 1) (.num 2)) (.num 3)
    let large : Block := ⟨number "n" (toString Double.limit), .nil⟩
    (Computes (some b) t ∧ t.value = 9 ∧ ∀ r f, Formula.Reads f (b.expression r) → f.value = 7) ∧
    Computes (some large) (.num Double.limit) ∧
      ∀ r f, Formula.Reads f (large.expression r) → f.value ≠ (Formula.num Double.limit).value := by
  intro number operation sum b t large
  have hsum : Computes (some ⟨operation "s" "ADD", sum⟩) (.op .add (.num 1) (.num 2)) :=
    .arithmetic rfl rfl (.number rfl rfl) (.number rfl rfl)
  have hb : Computes (some b) t := .arithmetic rfl rfl hsum (.number rfl rfl)
  have hfits : t.Fits := by
    refine ⟨⟨?_, ?_⟩, ?_⟩ <;> exact Double.lt_limit (by decide)
  have hlarge : Computes (some large) (.num Double.limit) := .number rfl rfl
  refine ⟨⟨hb, rfl, fun r f hf => ?_⟩, hlarge, fun r f hf => ?_⟩
  · have hreads : Formula.Reads (.op .add (.num 1) (.op .mul (.num 2) (.num 3)))
        (b.expression r) := by
      rw [hb.expression_eq, hfits.shown_eq]
      exact ⟨by simp [Formula.Grouped, Formula.precedence, Operation.precedence], rfl⟩
    rw [hf.unique hreads]
    rfl
  · have hreads : Formula.Reads (.num 0) (large.expression r) := by
      rw [hlarge.expression_eq, Formula.shown, if_neg (Nat.lt_irrefl _)]
      exact ⟨trivial, rfl⟩
    have hpos : 0 < Double.limit := Double.lt_limit (by decide)
    rw [hf.unique hreads]
    show (0 : Int) ≠ (Double.limit : Int)
    omega

end BlockProgram
