import BlockProgram.Proofs.Number.Whole

/-!
# Formulas without parentheses

A formula that is written without parentheses has to be grouped again by whoever reads it: products
before sums and differences, and from the left. What is written tells the numbers and the operators
in their order and nothing else, and there is exactly one grouped formula that has them.

It stands for the same number if no operand of a product is a sum or a difference, and none is
what a difference takes away; sums may hang on either side of a sum.
-/

namespace BlockProgram

/-! ### Formulas -/

/-- An operation on whole numbers. -/
inductive Operation where
  /-- The sum. -/
  | add
  /-- The difference. -/
  | sub
  /-- The product. -/
  | mul
  deriving DecidableEq, Repr

namespace Operation

/-- How an operation is written. -/
def symbol : Operation → String
  | add => "+"
  | sub => "-"
  | mul => "*"

/-- The number that two numbers give. -/
def apply : Operation → Int → Int → Int
  | add, x, y => x + y
  | sub, x, y => x - y
  | mul, x, y => x * y

/-- How tightly an operation binds. -/
def precedence : Operation → Nat
  | add | sub => 0
  | mul => 1

theorem precedence_lt_two (o : Operation) : o.precedence < 2 := by
  cases o <;> decide

/-- The one character of a symbol. -/
def sign : Operation → Char
  | add => '+'
  | sub => '-'
  | mul => '*'

theorem toList_symbol (o : Operation) : o.symbol.toList = [o.sign] := by
  cases o <;> rfl

theorem sign_injective {o p : Operation} (h : o.sign = p.sign) : o = p := by
  revert h
  cases o <;> cases p <;> decide

end Operation

/-- Whole numbers combined by operations. -/
inductive Formula where
  /-- A number. -/
  | num (n : Nat)
  /-- An operation on two formulas. -/
  | op (o : Operation) (left right : Formula)
  deriving DecidableEq, Repr

namespace Formula

/-- The number that a formula stands for. -/
def value : Formula → Int
  | num n => n
  | op o a b => o.apply a.value b.value

/-- A formula as it is written, without parentheses. -/
def text : Formula → String
  | num n => toString n
  | op o a b => a.text ++ " " ++ o.symbol ++ " " ++ b.text

/-- How tightly a formula holds together. -/
def precedence : Formula → Nat
  | num _ => 2
  | op o _ _ => o.precedence

/-- A formula is grouped as it is read without parentheses: products first, and from the left. -/
def Grouped : Formula → Prop
  | num _ => True
  | op o a b => o.precedence ≤ a.precedence ∧ o.precedence < b.precedence ∧ a.Grouped ∧ b.Grouped

/-- A text is read as a formula. -/
def Reads (f : Formula) (s : String) : Prop := f.Grouped ∧ f.text = s

/-- No sum and no difference is an operand of a product, or is taken away. -/
def Flat : Formula → Prop
  | num _ => True
  | op .add a b => a.Flat ∧ b.Flat
  | op .sub a b => a.Flat ∧ b.Flat ∧ 0 < b.precedence
  | op .mul a b => a.Flat ∧ b.Flat ∧ 0 < a.precedence ∧ 0 < b.precedence

theorem Grouped.flat {f : Formula} (h : f.Grouped) : f.Flat := by
  induction f with
  | num n => trivial
  | op o a b iha ihb =>
    obtain ⟨hleft, hright, ha, hb⟩ := h
    cases o with
    | add => exact ⟨iha ha, ihb hb⟩
    | sub => exact ⟨iha ha, ihb hb, hright⟩
    | mul => exact ⟨iha ha, ihb hb, hleft, Nat.lt_trans Nat.zero_lt_one hright⟩

/-! ### What is written -/

/-- The number that a formula begins with. -/
def first : Formula → Nat
  | num n => n
  | op _ a _ => a.first

/-- The operators and numbers that follow. -/
def rest : Formula → List (Operation × Nat)
  | num _ => []
  | op o a b => a.rest ++ (o, b.first) :: b.rest

/-- An operator and a number as they are written. -/
def spellItem (e : Operation × Nat) : List Char :=
  ' ' :: e.1.sign :: ' ' :: Nat.toDigits 10 e.2

/-- A number, and operators and numbers after it, as they are written. -/
def spell (n : Nat) (items : List (Operation × Nat)) : List Char :=
  Nat.toDigits 10 n ++ items.flatMap spellItem

theorem toList_text (f : Formula) : f.text.toList = spell f.first f.rest := by
  induction f with
  | num n => simp [text, spell, first, rest, Nat.toString_eq_repr, Nat.toList_repr]
  | op o a b iha ihb =>
    simp [text, iha, ihb, spell, first, rest, spellItem, Operation.toList_symbol]

/-- Where a number ends is seen from the blank after it. -/
theorem spell_inj {m n : Nat} {us vs : List (Operation × Nat)}
    (h : spell m us = spell n vs) :
    m = n ∧ us.flatMap spellItem = vs.flatMap spellItem := by
  have hdigits : ∀ k, ∀ c ∈ Nat.toDigits 10 k, c.isDigit := fun k c hc =>
    Nat.isDigit_of_mem_toDigits (by decide) (by decide) hc
  have hstop : ∀ es : List (Operation × Nat),
      (es.flatMap spellItem).takeWhile Char.isDigit = [] := by
    intro es
    cases es with
    | nil => rfl
    | cons e es => rfl
  have htake := congrArg (List.takeWhile Char.isDigit) h
  rw [spell, spell, List.takeWhile_append_of_pos (hdigits m),
    List.takeWhile_append_of_pos (hdigits n), hstop, hstop, List.append_nil,
    List.append_nil] at htake
  have hvalue := congrArg Text.decimalValue htake
  rw [Double.decimalValue_toDigits, Double.decimalValue_toDigits] at hvalue
  subst hvalue
  exact ⟨rfl, List.append_cancel_left h⟩

theorem flatMap_spellItem_inj {us vs : List (Operation × Nat)}
    (h : us.flatMap spellItem = vs.flatMap spellItem) : us = vs := by
  induction us generalizing vs with
  | nil =>
    cases vs with
    | nil => rfl
    | cons e vs => cases h
  | cons e us ih =>
    cases vs with
    | nil => cases h
    | cons e' vs =>
      obtain ⟨o, m⟩ := e
      obtain ⟨p, n⟩ := e'
      have hparts : o.sign = p.sign ∧ spell m us = spell n vs := by
        simpa only [List.flatMap_cons, spellItem, List.cons_append, List.cons.injEq, true_and,
          spell] using h
      obtain ⟨rfl, htail⟩ := spell_inj hparts.2
      rw [Operation.sign_injective hparts.1, ih htail]

/-- **What is written tells the numbers and the operators.** -/
theorem items_eq_of_text_eq {f g : Formula} (h : f.text = g.text) :
    f.first = g.first ∧ f.rest = g.rest := by
  have hspell := congrArg String.toList h
  rw [toList_text, toList_text] at hspell
  obtain ⟨hfirst, hrest⟩ := spell_inj hspell
  exact ⟨hfirst, flatMap_spellItem_inj hrest⟩

/-- Conversely, numbers and operators are all that is written. -/
theorem text_eq_of_items_eq {f g : Formula} (hfirst : f.first = g.first) (hrest : f.rest = g.rest) :
    f.text = g.text := by
  rw [← String.toList_inj, toList_text, toList_text, hfirst, hrest]

/-! ### Reading -/

/-- A formula with an operator and a number put at its right end, as they are grouped when they are
read. -/
def extend (o : Operation) (n : Nat) : Formula → Formula
  | num m => op o (num m) (num n)
  | op p a b => if o.precedence ≤ p.precedence then op o (op p a b) (num n) else op p a (b.extend o n)

/-- A formula with operators and numbers put at its right end, one after the other. -/
def extendAll (f : Formula) (items : List (Operation × Nat)) : Formula :=
  items.foldl (fun f e => f.extend e.1 e.2) f

section Extend

variable (o : Operation) (n : Nat)

theorem first_extend (f : Formula) : (f.extend o n).first = f.first := by
  induction f with
  | num m => rfl
  | op p a b _ _ =>
    rw [extend]
    split <;> rfl

theorem rest_extend (f : Formula) : (f.extend o n).rest = f.rest ++ [(o, n)] := by
  induction f with
  | num m => rfl
  | op p a b _ ihb =>
    rw [extend]
    split
    · rfl
    · simp [rest, first_extend, ihb]

theorem precedence_extend (f : Formula) :
    min f.precedence o.precedence ≤ (f.extend o n).precedence := by
  cases f with
  | num m => exact Nat.min_le_right _ _
  | op p a b =>
    rw [extend]
    split
    · exact Nat.min_le_right _ _
    · exact Nat.min_le_left _ _

theorem Grouped.extend {f : Formula} (h : f.Grouped) : (f.extend o n).Grouped := by
  induction f with
  | num m => exact ⟨Nat.le_of_lt o.precedence_lt_two, o.precedence_lt_two, trivial, trivial⟩
  | op p a b _ ihb =>
    rw [Formula.extend]
    split
    · rename_i hle
      exact ⟨hle, o.precedence_lt_two, h, trivial⟩
    · rename_i hlt
      obtain ⟨hleft, hright, ha, hb⟩ := h
      have hend := precedence_extend o n b
      refine ⟨hleft, by omega, ha, ihb hb⟩

end Extend

theorem extendAll_cons (f : Formula) (e : Operation × Nat) (items : List (Operation × Nat)) :
    f.extendAll (e :: items) = (f.extend e.1 e.2).extendAll items := rfl

theorem extendAll_append (f : Formula) (us vs : List (Operation × Nat)) :
    f.extendAll (us ++ vs) = (f.extendAll us).extendAll vs := List.foldl_append

/-- What is read is grouped, and nothing gets lost. -/
theorem Grouped.extendAll {f : Formula} (h : f.Grouped) (items : List (Operation × Nat)) :
    (f.extendAll items).Grouped ∧ (f.extendAll items).first = f.first ∧
      (f.extendAll items).rest = f.rest ++ items := by
  induction items generalizing f with
  | nil => exact ⟨h, rfl, (List.append_nil _).symm⟩
  | cons e items ih =>
    obtain ⟨hgrouped, hfirst, hrest⟩ := ih (h.extend e.1 e.2)
    rw [first_extend] at hfirst
    rw [rest_extend, List.append_assoc] at hrest
    exact ⟨hgrouped, hfirst, hrest⟩

/-- In a grouped formula nothing binds less tightly than the whole. -/
theorem Grouped.precedence_le {f : Formula} (h : f.Grouped) :
    ∀ e ∈ f.rest, f.precedence ≤ e.1.precedence := by
  induction f with
  | num n => exact fun e he => absurd he List.not_mem_nil
  | op o a b iha ihb =>
    obtain ⟨hleft, hright, ha, hb⟩ := h
    intro e he
    rcases List.mem_append.mp he with he | he
    · exact Nat.le_trans hleft (iha ha e he)
    · rcases List.mem_cons.mp he with rfl | he
      · exact Nat.le_refl _
      · exact Nat.le_trans (Nat.le_of_lt hright) (ihb hb e he)

/-- What binds more tightly goes to the right operand. -/
theorem extendAll_op (o : Operation) (a b : Formula) {items : List (Operation × Nat)}
    (h : ∀ e ∈ items, o.precedence < e.1.precedence) :
    (op o a b).extendAll items = op o a (b.extendAll items) := by
  induction items generalizing b with
  | nil => rfl
  | cons e items ih =>
    obtain ⟨he, hitems⟩ := List.forall_mem_cons.mp h
    have hstep : (op o a b).extend e.1 e.2 = op o a (b.extend e.1 e.2) :=
      if_neg (Nat.not_le.mpr he)
    rw [extendAll_cons, extendAll_cons, hstep, ih _ hitems]

/-- **A grouped formula is what is read from its numbers and operators.** -/
theorem Grouped.eq_extendAll {f : Formula} (h : f.Grouped) :
    f = (num f.first).extendAll f.rest := by
  induction f with
  | num n => rfl
  | op o a b iha ihb =>
    obtain ⟨hleft, hright, ha, hb⟩ := h
    have hjoin : a.extend o b.first = op o a (num b.first) := by
      cases a with
      | num m => rfl
      | op p c d => exact if_pos hleft
    have hitems : ∀ e ∈ b.rest, o.precedence < e.1.precedence :=
      fun e he => Nat.lt_of_lt_of_le hright (hb.precedence_le e he)
    calc op o a b = op o a ((num b.first).extendAll b.rest) := by rw [← ihb hb]
      _ = (a.extend o b.first).extendAll b.rest := by rw [hjoin, extendAll_op o a _ hitems]
      _ = (((num a.first).extendAll a.rest).extend o b.first).extendAll b.rest := by
        rw [← iha ha]
      _ = (num a.first).extendAll (a.rest ++ (o, b.first) :: b.rest) := by
        rw [extendAll_append, extendAll_cons]

/-- **A text is read in one way.** -/
theorem Reads.unique {f g : Formula} {s : String} (hf : f.Reads s) (hg : g.Reads s) : f = g := by
  obtain ⟨hfirst, hrest⟩ := items_eq_of_text_eq (hf.2.trans hg.2.symm)
  rw [hf.1.eq_extendAll, hg.1.eq_extendAll, hfirst, hrest]

/-- **What is written can be read**, whatever the formula. -/
theorem exists_reads (t : Formula) : ∃ f : Formula, f.Reads t.text := by
  obtain ⟨hgrouped, hfirst, hrest⟩ := Grouped.extendAll (f := num t.first) trivial t.rest
  exact ⟨_, hgrouped, text_eq_of_items_eq hfirst hrest⟩

/-! ### Values -/

/-- Numbers and operators worked out from the left, given the sum so far and the product that is
still open. -/
def total (sum product : Int) : List (Operation × Nat) → Int
  | [] => sum + product
  | (.add, n) :: items => total (sum + product) n items
  | (.sub, n) :: items => total (sum + product) (-n) items
  | (.mul, n) :: items => total sum (product * n) items

/-- What comes next does not go on with a product. -/
def Closes (items : List (Operation × Nat)) : Prop := ∀ e, items.head? = some e → e.1 ≠ .mul

/-- Where no product goes on the open one can be closed. -/
theorem total_close {items : List (Operation × Nat)} (h : Closes items) (sum product : Int) :
    total sum product items = total (sum + product) 0 items := by
  cases items with
  | nil => simp [total]
  | cons e items =>
    obtain ⟨o, n⟩ := e
    cases o with
    | add => simp [total]
    | sub => simp [total]
    | mul => exact absurd rfl (h _ rfl)

/-- A product goes on with an open one, whatever its sign. -/
theorem Flat.total_product {f : Formula} (h : f.Flat) (hf : 0 < f.precedence) (sum factor : Int)
    (items : List (Operation × Nat)) :
    total sum (factor * f.first) (f.rest ++ items) = total sum (factor * f.value) items := by
  induction f generalizing factor items with
  | num n => rfl
  | op o a b iha ihb =>
    cases o with
    | add => exact absurd hf (Nat.lt_irrefl 0)
    | sub => exact absurd hf (Nat.lt_irrefl 0)
    | mul =>
      obtain ⟨ha, hb, hleft, hright⟩ := h
      calc total sum (factor * a.first) (a.rest ++ (.mul, b.first) :: b.rest ++ items)
          = total sum (factor * a.value) ((.mul, b.first) :: (b.rest ++ items)) := by
            rw [List.append_assoc]
            exact iha ha hleft factor _
        _ = total sum (factor * a.value * b.value) items := ihb hb hright _ items
        _ = total sum (factor * (a.value * b.value)) items := by rw [Int.mul_assoc]

/-- A flat formula adds its value to the sum, if no product goes on after it. -/
theorem Flat.total_append {f : Formula} (h : f.Flat) (sum : Int) {items : List (Operation × Nat)}
    (hitems : Closes items) :
    total sum f.first (f.rest ++ items) = total (sum + f.value) 0 items := by
  induction f generalizing sum items with
  | num n => exact total_close hitems sum n
  | op o a b iha ihb =>
    cases o with
    | add =>
      obtain ⟨ha, hb⟩ := h
      calc total sum a.first (a.rest ++ (.add, b.first) :: b.rest ++ items)
          = total (sum + a.value) 0 ((.add, b.first) :: (b.rest ++ items)) := by
            rw [List.append_assoc]
            exact iha ha sum (by simp [Closes])
        _ = total (sum + a.value + 0) b.first (b.rest ++ items) := rfl
        _ = total (sum + a.value + b.value) 0 items := by rw [Int.add_zero, ihb hb _ hitems]
        _ = total (sum + (a.value + b.value)) 0 items := by rw [Int.add_assoc]
    | sub =>
      obtain ⟨ha, hb, hright⟩ := h
      have hproduct := hb.total_product hright (sum + a.value) (-1) items
      calc total sum a.first (a.rest ++ (.sub, b.first) :: b.rest ++ items)
          = total (sum + a.value) 0 ((.sub, b.first) :: (b.rest ++ items)) := by
            rw [List.append_assoc]
            exact iha ha sum (by simp [Closes])
        _ = total (sum + a.value) (-1 * b.first) (b.rest ++ items) := by
          rw [total, Int.add_zero, Int.neg_one_mul]
        _ = total (sum + a.value + -1 * b.value) 0 items := by
          rw [hproduct, total_close hitems]
        _ = total (sum + (a.value - b.value)) 0 items := by
          rw [Int.neg_one_mul, Int.add_assoc, ← Int.sub_eq_add_neg]
    | mul =>
      have hproduct := Flat.total_product (f := op .mul a b) h Nat.zero_lt_one sum 1 items
      rw [Int.one_mul, Int.one_mul] at hproduct
      rw [hproduct, total_close hitems]

/-- Working out a flat formula from the left gives its value. -/
theorem Flat.total_eq {f : Formula} (h : f.Flat) : total 0 f.first f.rest = f.value := by
  have hclosed : Closes [] := by simp [Closes]
  simpa [total] using h.total_append 0 hclosed

/-- **What is read is worked out from the left**, whatever was written. -/
theorem Reads.value_eq {f t : Formula} (h : f.Reads t.text) :
    f.value = total 0 t.first t.rest := by
  obtain ⟨hfirst, hrest⟩ := items_eq_of_text_eq h.2
  rw [← hfirst, ← hrest, h.1.flat.total_eq]

end Formula

end BlockProgram
