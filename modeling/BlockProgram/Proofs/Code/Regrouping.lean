import BlockProgram.Proofs.Code.Formula

/-!
# Formulas that are not read back

A formula that is not flat is read as another one. Whether the two stand for the same number depends
on the numbers in it, but there are always numbers, zeros and ones, for which they do not: one for
the factors with which an operand begins or ends, and zero everywhere else. What is read keeps these
factors apart from the rest, whereas in the formula they are multiplied by zero, or counted with
the opposite sign.
-/

namespace BlockProgram.Formula

/-! ### Other numbers in a formula -/

/-- A formula with zero in the place of every number: its shape. -/
def cleared : Formula → Formula
  | num _ => num 0
  | op o a b => op o a.cleared b.cleared

/-- All numbers of a formula have a property. -/
def All (p : Nat → Prop) : Formula → Prop
  | num n => p n
  | op _ a b => a.All p ∧ b.All p

/-- All operations of a formula are products. -/
def isProduct : Formula → Bool
  | num _ => true
  | op o a b => o = .mul && a.isProduct && b.isProduct

/-- A formula with one for the factors that it begins with, up to the first sum or difference, and
zero for all other numbers. -/
def lead : Formula → Formula
  | num _ => num 1
  | op o a b => op o a.lead (if o = .mul ∧ a.isProduct then b.lead else b.cleared)

/-- A formula with one for the factors that it ends with, from the last sum or difference on, and
zero for all other numbers. -/
def trail : Formula → Formula
  | num _ => num 1
  | op o a b => op o (if o = .mul ∧ b.isProduct then a.trail else a.cleared) b.trail

theorem All.imp {p q : Nat → Prop} (hpq : ∀ n, p n → q n) {f : Formula} (h : f.All p) :
    f.All q := by
  induction f with
  | num n => exact hpq n h
  | op o a b iha ihb => exact ⟨iha h.1, ihb h.2⟩

theorem isProduct_op {o : Operation} {a b : Formula} :
    (op o a b).isProduct ↔ o = .mul ∧ a.isProduct ∧ b.isProduct := by
  simp [isProduct, and_assoc]

theorem flat_of_isProduct {f : Formula} (h : f.isProduct) : f.Flat ∧ 0 < f.precedence := by
  induction f with
  | num n => exact ⟨trivial, Nat.zero_lt_two⟩
  | op o a b iha ihb =>
    obtain ⟨rfl, ha, hb⟩ := isProduct_op.mp h
    exact ⟨⟨(iha ha).1, (ihb hb).1, (iha ha).2, (ihb hb).2⟩, Nat.zero_lt_one⟩

section Cleared

variable (f : Formula)

@[simp] theorem cleared_cleared : f.cleared.cleared = f.cleared := by
  induction f with
  | num n => rfl
  | op o a b iha ihb => simp [cleared, iha, ihb]

@[simp] theorem cleared_lead : f.lead.cleared = f.cleared := by
  induction f with
  | num n => rfl
  | op o a b iha ihb => simp [lead, cleared, iha, apply_ite cleared, ihb]

@[simp] theorem cleared_trail : f.trail.cleared = f.cleared := by
  induction f with
  | num n => rfl
  | op o a b iha ihb => simp [trail, cleared, iha, apply_ite cleared, ihb]

theorem all_cleared : f.cleared.All (· ≤ 1) := by
  induction f with
  | num n => exact Nat.zero_le 1
  | op o a b iha ihb => exact ⟨iha, ihb⟩

theorem all_lead : f.lead.All (· ≤ 1) := by
  induction f with
  | num n => exact Nat.le_refl 1
  | op o a b iha ihb =>
    refine ⟨iha, ?_⟩
    split
    · exact ihb
    · exact b.all_cleared

theorem all_trail : f.trail.All (· ≤ 1) := by
  induction f with
  | num n => exact Nat.le_refl 1
  | op o a b iha ihb =>
    refine ⟨?_, ihb⟩
    split
    · exact iha
    · exact a.all_cleared

@[simp] theorem value_cleared : f.cleared.value = 0 := by
  induction f with
  | num n => rfl
  | op o a b iha ihb => cases o <;> simp [cleared, value, Operation.apply, iha, ihb]

theorem value_lead : f.lead.value = 0 ∨ f.lead.value = 1 := by
  induction f with
  | num n => exact .inr rfl
  | op o a b iha ihb =>
    cases o with
    | add => simpa [lead, value, Operation.apply] using iha
    | sub => simpa [lead, value, Operation.apply] using iha
    | mul =>
      rw [lead, value]
      split
      · rcases iha with ha | ha <;> rcases ihb with hb | hb <;> simp [ha, hb, Operation.apply]
      · simp [Operation.apply]

@[simp] theorem first_cleared : f.cleared.first = 0 := by
  induction f with
  | num n => rfl
  | op o a b iha _ => exact iha

@[simp] theorem first_lead : f.lead.first = 1 := by
  induction f with
  | num n => rfl
  | op o a b iha _ => exact iha

end Cleared

/-! ### What is read from them -/

/-- Zeros change nothing once the open product is zero. -/
theorem total_cleared (f : Formula) (sum : Int) (items : List (Operation × Nat)) :
    total sum 0 (f.cleared.rest ++ items) = total sum 0 items := by
  induction f generalizing items with
  | num n => rfl
  | op o a b iha ihb =>
    rw [cleared, rest, List.append_assoc, iha, first_cleared, List.cons_append]
    cases o <;> simpa [total] using ihb items

theorem total_cleared_rest (f : Formula) (sum : Int) : total sum 0 f.cleared.rest = sum := by
  simpa [total] using f.total_cleared sum []

/-- A sum with zeros, or a difference, is what it is without them. -/
theorem total_append_cleared (f : Formula) {o : Operation} (ho : o ≠ .mul) (sum product : Int)
    (items : List (Operation × Nat)) :
    total sum product (items ++ (o, f.cleared.first) :: f.cleared.rest) =
      total sum product items := by
  induction items generalizing sum product with
  | nil =>
    cases o with
    | mul => exact absurd rfl ho
    | _ => simp [total, total_cleared_rest]
  | cons e items ih =>
    obtain ⟨p, n⟩ := e
    cases p <;> exact ih _ _

/-- After the leading factors the product is still open if there is nothing else, and closed
otherwise. -/
theorem total_lead (f : Formula) (sum product : Int) (items : List (Operation × Nat)) :
    total sum product (f.lead.rest ++ items) =
      if f.isProduct then total sum product items else total (sum + product) 0 items := by
  induction f generalizing sum product items with
  | num n => rfl
  | op o a b iha ihb =>
    rw [lead, rest, List.append_assoc, iha]
    by_cases ha : a.isProduct <;> cases o <;> simp [ha, isProduct, total, total_cleared, ihb]

/-- Where everything is a factor the first factors are the last ones. -/
theorem trail_eq_lead {f : Formula} (h : f.isProduct) : f.trail = f.lead := by
  induction f with
  | num n => rfl
  | op o a b iha ihb =>
    obtain ⟨ho, ha, hb⟩ := isProduct_op.mp h
    rw [trail, lead, if_pos ⟨ho, hb⟩, if_pos ⟨ho, ha⟩, iha ha, ihb hb]

theorem total_trail_of_isProduct {f : Formula} (h : f.isProduct) (sum product : Int)
    (items : List (Operation × Nat)) :
    total sum product (f.trail.rest ++ items) = total sum product items := by
  rw [trail_eq_lead h, total_lead, if_pos h]

/-- After a sum or a difference the last factors are an open product that is not zero. -/
theorem total_trail {f : Formula} (h : ¬ f.isProduct) :
    f.trail.first = 0 ∧ ∃ product : Int, product ≠ 0 ∧
      ∀ sum items, total sum 0 (f.trail.rest ++ items) = total sum product items := by
  induction f with
  | num n => exact absurd rfl h
  | op o a b iha ihb =>
    by_cases hb : b.isProduct
    · have hfirst : b.trail.first = 1 := by rw [trail_eq_lead hb, first_lead]
      cases o with
      | add => exact ⟨by simp [trail, first], 1, by decide, fun sum items => by
          simp [trail, rest, total, total_cleared, hfirst, total_trail_of_isProduct hb]⟩
      | sub => exact ⟨by simp [trail, first], -1, by decide, fun sum items => by
          simp [trail, rest, total, total_cleared, hfirst, total_trail_of_isProduct hb]⟩
      | mul =>
        -- The factors go on into the left operand.
        have ha : ¬ a.isProduct := fun ha => h (isProduct_op.mpr ⟨rfl, ha, hb⟩)
        obtain ⟨hzero, product, hproduct, htotal⟩ := iha ha
        refine ⟨by simpa [trail, first, hb] using hzero, product, hproduct, fun sum items => ?_⟩
        simp [trail, rest, hb, htotal, total, hfirst, total_trail_of_isProduct hb]
    · obtain ⟨hzero, product, hproduct, htotal⟩ := ihb hb
      refine ⟨by simp [trail, first, hb], product, hproduct, fun sum items => ?_⟩
      cases o <;> simp [trail, rest, hb, total, total_cleared, hzero, htotal]

/-! ### Numbers that are not read back -/

/-- A product of sums or differences is zero with some numbers but is not read as zero, neither when
it is added nor when it is taken away. -/
theorem exists_total_mul_ne_zero {a b : Formula} (h : ¬ (op .mul a b).Flat) :
    ∃ u : Formula, u.cleared = (op .mul a b).cleared ∧ u.All (· ≤ 1) ∧ u.value = 0 ∧
      ∀ factor : Int, factor ≠ 0 → total 0 (factor * u.first) u.rest ≠ 0 := by
  have hfactors : ¬ a.isProduct ∨ ¬ b.isProduct := by
    by_contra hboth
    rw [not_or, not_not, not_not] at hboth
    exact h (flat_of_isProduct (isProduct_op.mpr ⟨rfl, hboth⟩)).1
  rcases hfactors with ha | hb
  · refine ⟨op .mul a.lead b.cleared, by simp [cleared], ⟨a.all_lead, b.all_cleared⟩,
      by simp [value, Operation.apply], fun factor hfactor => ?_⟩
    rw [rest, total_lead, if_neg ha]
    simpa [first, total, total_cleared_rest] using hfactor
  · obtain ⟨-, product, hproduct, htotal⟩ := total_trail hb
    refine ⟨op .mul a.cleared b.trail, by simp [cleared], ⟨a.all_cleared, b.all_trail⟩,
      by simp [value, Operation.apply], fun _ _ => ?_⟩
    have hlast : total 0 0 b.trail.rest = product := by simpa [total] using htotal 0 []
    simpa [first, rest, total_cleared, total, hlast] using hproduct

/-- What is taken away is read with another value for some numbers, unless it is flat and no sum or
difference: of a sum only the first operand is taken away. -/
theorem exists_total_neg_ne {t : Formula} (h : ¬ (t.Flat ∧ 0 < t.precedence)) :
    ∃ u : Formula, u.cleared = t.cleared ∧ u.All (· ≤ 1) ∧
      total 0 (-u.first) u.rest ≠ -u.value := by
  cases t with
  | num n => exact absurd ⟨trivial, Nat.zero_lt_two⟩ h
  | op o a b =>
    have hlead : ∀ product : Int, total 0 product b.lead.rest = product := by
      intro product
      simpa [total] using b.total_lead 0 product []
    by_cases ho : o = .mul
    · subst ho
      obtain ⟨u, hshape, hall, hvalue, hne⟩ :=
        exists_total_mul_ne_zero fun hflat => h ⟨hflat, Nat.zero_lt_one⟩
      refine ⟨u, hshape, hall, ?_⟩
      simpa [hvalue] using hne (-1) (by decide)
    · refine ⟨op o a.cleared b.lead, by simp [cleared], ⟨a.all_cleared, b.all_lead⟩, ?_⟩
      cases o with
      | mul => exact absurd rfl ho
      | _ =>
        rcases b.value_lead with hb | hb <;>
          simp [first, rest, total_cleared, total, hlead, value, Operation.apply, hb]

/-- **Only flat formulas are read back whatever their numbers.** A formula that is not flat has
numbers, none of them above one, with which it is read as another number. -/
theorem exists_total_ne {t : Formula} (h : ¬ t.Flat) :
    ∃ u : Formula, u.cleared = t.cleared ∧ u.All (· ≤ 1) ∧ total 0 u.first u.rest ≠ u.value := by
  induction t with
  | num n => exact absurd trivial h
  | op o a b iha ihb =>
    have hleft : o ≠ .mul → ¬ a.Flat → ∃ u : Formula, u.cleared = (op o a b).cleared ∧
        u.All (· ≤ 1) ∧ total 0 u.first u.rest ≠ u.value := by
      intro ho ha
      obtain ⟨u, hshape, hall, hne⟩ := iha ha
      refine ⟨op o u b.cleared, by simp [cleared, hshape], ⟨hall, b.all_cleared⟩, ?_⟩
      rw [first, rest, total_append_cleared b ho]
      cases o with
      | mul => exact absurd rfl ho
      | _ => simpa [value, Operation.apply] using hne
    cases o with
    | add =>
      by_cases ha : a.Flat
      · obtain ⟨u, hshape, hall, hne⟩ := ihb fun hb => h ⟨ha, hb⟩
        refine ⟨op .add a.cleared u, by simp [cleared, hshape], ⟨a.all_cleared, hall⟩, ?_⟩
        simpa [first, rest, total_cleared, total, value, Operation.apply] using hne
      · exact hleft (by decide) ha
    | sub =>
      by_cases ha : a.Flat
      · obtain ⟨u, hshape, hall, hne⟩ := exists_total_neg_ne fun hb => h ⟨ha, hb⟩
        refine ⟨op .sub a.cleared u, by simp [cleared, hshape], ⟨a.all_cleared, hall⟩, ?_⟩
        simpa [first, rest, total_cleared, total, value, Operation.apply] using hne
      · exact hleft (by decide) ha
    | mul =>
      obtain ⟨u, hshape, hall, hvalue, hne⟩ := exists_total_mul_ne_zero h
      refine ⟨u, hshape, hall, ?_⟩
      simpa [hvalue] using hne 1 (by decide)

end BlockProgram.Formula
