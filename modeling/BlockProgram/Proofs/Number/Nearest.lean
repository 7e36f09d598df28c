import BlockProgram.Proofs.Number.Range
import Mathlib.Data.Nat.Dist
import Mathlib.Tactic.Linarith

/-!
# The nearest number

Every number is some bits times a power of two, and a fraction is rounded to the number whose
value is nearest. Rounding keeps the order, and the fraction may be expanded first.
-/

namespace BlockProgram.Double

/-! ### Rounding quotients -/

/-- A quotient is rounded to the multiple that is less than half a step away, or half a step if it
is even. -/
theorem divRoundEven_eq_iff {n d q : Nat} (hd : 0 < d) :
    divRoundEven n d = q ↔
      2 * Nat.dist n (q * d) < d ∨ (2 * Nat.dist n (q * d) = d ∧ q % 2 = 0) := by
  have hsplit : n / d * d + n % d = n := Nat.div_add_mod' n d
  have hrem : n % d < d := Nat.mod_lt n hd
  have hdown : Nat.dist n (n / d * d) = n % d := by
    rw [Nat.dist_eq_sub_of_le_right (by omega)]
    omega
  have hup : Nat.dist n ((n / d + 1) * d) = d - n % d := by
    have : (n / d + 1) * d = n / d * d + d := by ring
    rw [Nat.dist_eq_sub_of_le (by omega)]
    omega
  -- any other multiple is at least a whole step away
  have hfar : q ≠ n / d → q ≠ n / d + 1 → d ≤ Nat.dist n (q * d) := by
    intro hne hne'
    rcases Nat.lt_or_ge q (n / d) with hlt | hge
    · have : (q + 1) * d ≤ n / d * d := Nat.mul_le_mul_right d hlt
      rw [Nat.add_mul, Nat.one_mul] at this
      rw [Nat.dist_eq_sub_of_le_right (by omega)]
      omega
    · have : (n / d + 2) * d ≤ q * d := Nat.mul_le_mul_right d (by omega)
      rw [Nat.add_mul] at this
      rw [Nat.dist_eq_sub_of_le (by omega)]
      omega
  unfold divRoundEven
  simp only [Bool.or_eq_true, decide_eq_true_eq, Bool.and_eq_true, beq_iff_eq]
  by_cases hq : q = n / d
  · subst hq
    rw [hdown]
    split <;> omega
  · by_cases hq' : q = n / d + 1
    · subst hq'
      rw [hup]
      split <;> omega
    · have := hfar hq hq'
      split <;> omega

/-- No multiple is nearer than the one that a quotient is rounded to. -/
theorem dist_divRoundEven_le {d : Nat} (hd : 0 < d) (n k : Nat) :
    Nat.dist n (divRoundEven n d * d) ≤ Nat.dist n (k * d) := by
  have hhalf := (divRoundEven_eq_iff (n := n) hd).mp rfl
  by_cases hk : k = divRoundEven n d
  · rw [hk]
  · have hstep : d ≤ Nat.dist (divRoundEven n d * d) (k * d) := by
      rw [Nat.dist_mul_right]
      exact Nat.le_mul_of_pos_left d (Nat.dist_pos_of_ne (Ne.symm hk))
    have htriangle := Nat.dist.triangle_inequality (divRoundEven n d * d) n (k * d)
    rw [Nat.dist_comm _ n] at htriangle
    omega

/-- What is no farther from a multiple than something that is rounded to it is rounded to it. -/
theorem divRoundEven_of_dist_le {n m d q : Nat} (hd : 0 < d) (hq : divRoundEven n d = q)
    (h : Nat.dist m (q * d) ≤ Nat.dist n (q * d)) : divRoundEven m d = q := by
  rw [divRoundEven_eq_iff hd] at hq ⊢
  omega

theorem divRoundEven_mono {n m d : Nat} (hd : 0 < d) (h : n ≤ m) :
    divRoundEven n d ≤ divRoundEven m d := by
  by_contra hlt
  have hn := (divRoundEven_eq_iff (n := n) hd).mp rfl
  have hm := (divRoundEven_eq_iff (n := m) hd).mp rfl
  have hstep : (divRoundEven m d + 1) * d ≤ divRoundEven n d * d :=
    Nat.mul_le_mul_right d (by omega)
  rw [Nat.add_mul, Nat.one_mul] at hstep
  simp only [Nat.dist] at hn hm
  -- the two are on either side of the same half, and only one of them is even
  have hone : divRoundEven m d + 1 < divRoundEven n d →
      (divRoundEven m d + 2) * d ≤ divRoundEven n d * d :=
    fun hlt' => Nat.mul_le_mul_right d hlt'
  rw [Nat.add_mul] at hone
  omega

theorem divRoundEven_mul_mul {c : Nat} (hc : 0 < c) (n : Nat) {d : Nat} (hd : 0 < d) :
    divRoundEven (n * c) (d * c) = divRoundEven n d := by
  rw [divRoundEven_eq_iff (Nat.mul_pos hd hc), ← Nat.mul_assoc, Nat.dist_mul_right, ← Nat.mul_assoc]
  have hhalf := (divRoundEven_eq_iff (n := n) hd).mp rfl
  rcases hhalf with hlt | ⟨heq, heven⟩
  · exact .inl (Nat.mul_lt_mul_of_pos_right hlt hc)
  · exact .inr ⟨by rw [heq], heven⟩

/-! ### Magnitudes and values -/

/-- A magnitude is split into an exponent and 53 bits, of which the first one is set unless the
exponent is the least one. -/
theorem exists_magnitude_eq (d : Double) :
    ∃ e f, d.magnitude.val = e * binade + f ∧ f < 2 * binade ∧ (e = 0 ∨ binade ≤ f) ∧
      d.units = f * 2 ^ e := by
  have hsplit := Nat.div_add_mod' d.magnitude.val binade
  have hrem : d.magnitude.val % binade < binade := Nat.mod_lt _ (by decide)
  by_cases he : d.magnitude.val / binade = 0
  · refine ⟨0, d.magnitude.val % binade, ?_, by omega, .inl rfl, ?_⟩
    · rw [he] at hsplit
      exact hsplit.symm
    · simp [units, he]
  · obtain ⟨k, hk⟩ := Nat.exists_eq_succ_of_ne_zero he
    refine ⟨k, binade + d.magnitude.val % binade, ?_, by omega, .inr (Nat.le_add_right _ _), ?_⟩
    · rw [hk, Nat.succ_mul] at hsplit
      omega
    · simp [units, hk]

/-- The value of a number from its exponent and its bits; the bits may have been rounded up. -/
theorem units_eq {d : Double} {e f : Nat} (hmag : d.magnitude.val = e * binade + f)
    (hf : f ≤ 2 * binade) (hnormal : e = 0 ∨ binade ≤ f) : d.units = f * 2 ^ e := by
  obtain ⟨e', f', hmag', hf', hnormal', hunits⟩ := exists_magnitude_eq d
  rw [hunits]
  have hpos : 0 < binade := by decide
  rcases Nat.lt_trichotomy e e' with hlt | rfl | hgt
  · -- rounding up has led to the next exponent
    have hstep : (e + 1) * binade ≤ e' * binade := Nat.mul_le_mul_right _ hlt
    have hnext : e' = e + 1 := by
      by_contra hne
      have hstep' : (e + 2) * binade ≤ e' * binade := Nat.mul_le_mul_right _ (by omega)
      rw [Nat.add_mul] at hstep'
      omega
    subst hnext
    rw [Nat.add_mul] at hmag'
    have hbits : f = 2 * f' := by omega
    rw [hbits, Nat.pow_succ]
    ring
  · rw [show f' = f by omega]
  · have hstep : (e' + 1) * binade ≤ e * binade := Nat.mul_le_mul_right _ hgt
    rw [Nat.add_mul] at hstep
    omega

/-- Values grow with magnitudes. -/
theorem units_mono {c d : Double} (h : c.magnitude.val ≤ d.magnitude.val) : c.units ≤ d.units := by
  obtain ⟨e, f, hmag, hf, hnormal, hunits⟩ := exists_magnitude_eq c
  obtain ⟨e', f', hmag', hf', hnormal', hunits'⟩ := exists_magnitude_eq d
  rw [hunits, hunits']
  rcases Nat.lt_trichotomy e e' with hlt | rfl | hgt
  · calc f * 2 ^ e ≤ 2 * binade * 2 ^ e := Nat.mul_le_mul_right _ hf.le
      _ = binade * 2 ^ (e + 1) := by rw [Nat.pow_succ]; ring
      _ ≤ binade * 2 ^ e' := Nat.mul_le_mul_left _ (Nat.pow_le_pow_right (by decide) hlt)
      _ ≤ f' * 2 ^ e' := Nat.mul_le_mul_right _ (by omega)
  · exact Nat.mul_le_mul_right _ (by omega)
  · have hstep : (e' + 1) * binade ≤ e * binade := Nat.mul_le_mul_right _ hgt
    rw [Nat.add_mul] at hstep
    omega

/-! ### The nearest number -/

theorem magnitude_ofMagnitude (negative : Bool) (m : Nat) :
    (ofMagnitude negative m).magnitude.val = min m infinite := rfl

theorem log2_mono {n m : Nat} (h : n ≤ m) : n.log2 ≤ m.log2 := by
  by_cases hn : n = 0
  · rw [hn]
    exact Nat.zero_le _
  · exact (Nat.le_log2 (by omega)).mpr ((Nat.log2_self_le hn).trans h)

/-- How many low bits of a fraction are dropped. -/
def dropped (num den : Nat) : Nat := (num * one / den).log2 - 52

/-- The bits of a fraction that are kept, rounded. -/
def significant (num den : Nat) : Nat :=
  divRoundEven (num * one) (den * 2 ^ dropped num den)

theorem ofFraction_eq (negative : Bool) (num den : Nat) :
    ofFraction negative num den =
      ofMagnitude negative (dropped num den * binade + significant num den) := rfl

section Fraction

variable {num den : Nat} (hden : 0 < den)
include hden

/-- Unless nothing is dropped, the kept bits begin with one that is set. -/
theorem binade_mul_le (hdropped : dropped num den ≠ 0) :
    binade * 2 ^ dropped num den * den ≤ num * one := by
  have hne : num * one / den ≠ 0 := by
    intro hzero
    rw [dropped, hzero] at hdropped
    exact hdropped rfl
  have hlog : 52 + dropped num den = (num * one / den).log2 := by
    rw [dropped] at hdropped ⊢
    omega
  have hfirst : 2 ^ (52 + dropped num den) ≤ num * one / den := hlog ▸ Nat.log2_self_le hne
  rw [Nat.pow_add] at hfirst
  exact (Nat.le_div_iff_mul_le hden).mp hfirst

theorem significant_bounds :
    significant num den ≤ 2 * binade ∧ (dropped num den = 0 ∨ binade ≤ significant num den) := by
  have hpos : 0 < den * 2 ^ dropped num den := Nat.mul_pos hden (Nat.two_pow_pos _)
  have hexact : ∀ k,
      divRoundEven (k * (den * 2 ^ dropped num den)) (den * 2 ^ dropped num den) = k :=
    fun k => divRoundEven_mul k hpos
  constructor
  · have hlt : num * one / den < 2 * binade * 2 ^ dropped num den := by
      have hlast : num * one / den < 2 ^ ((num * one / den).log2 + 1) := Nat.lt_log2_self
      have hpow : 2 ^ ((num * one / den).log2 + 1) ≤ 2 ^ (53 + dropped num den) :=
        Nat.pow_le_pow_right (by decide) (by rw [dropped]; omega)
      rw [Nat.pow_add 2 53] at hpow
      exact hlast.trans_le hpow
    have hle : num * one ≤ 2 * binade * (den * 2 ^ dropped num den) := by
      have := ((Nat.div_lt_iff_lt_mul hden).mp hlt).le
      calc num * one ≤ 2 * binade * 2 ^ dropped num den * den := this
        _ = 2 * binade * (den * 2 ^ dropped num den) := by ring
    calc significant num den ≤ _ := divRoundEven_mono hpos hle
      _ = 2 * binade := hexact _
  · by_cases hzero : dropped num den = 0
    · exact .inl hzero
    · refine .inr ?_
      have hle : binade * (den * 2 ^ dropped num den) ≤ num * one := by
        calc binade * (den * 2 ^ dropped num den) = binade * 2 ^ dropped num den * den := by ring
          _ ≤ num * one := binade_mul_le hden hzero
      calc binade = _ := (hexact _).symm
        _ ≤ significant num den := divRoundEven_mono hpos hle

/-- The value of the number that a fraction is rounded to. -/
theorem units_ofFraction {negative : Bool} (hfinite : (ofFraction negative num den).isFinite) :
    (ofFraction negative num den).units = significant num den * 2 ^ dropped num den := by
  obtain ⟨hle, hnormal⟩ := @significant_bounds num den hden
  refine units_eq ?_ hle hnormal
  rw [isFinite, decide_eq_true_eq, ofFraction_eq, magnitude_ofMagnitude] at hfinite
  rw [ofFraction_eq, magnitude_ofMagnitude]
  omega

/-- **A fraction is rounded to the nearest number**: no other one is nearer to it. -/
theorem dist_ofFraction_le {negative : Bool} (hfinite : (ofFraction negative num den).isFinite)
    (x : Double) :
    Nat.dist ((ofFraction negative num den).units * den) (num * one) ≤
      Nat.dist (x.units * den) (num * one) := by
  have hpos : 0 < den * 2 ^ dropped num den := Nat.mul_pos hden (Nat.two_pow_pos _)
  have hbest : ∀ k, Nat.dist ((ofFraction negative num den).units * den) (num * one) ≤
      Nat.dist (k * 2 ^ dropped num den * den) (num * one) := by
    intro k
    have hnear := dist_divRoundEven_le hpos (num * one) k
    have hassoc : ∀ j, j * (den * 2 ^ dropped num den) = j * 2 ^ dropped num den * den :=
      fun j => by ring
    rw [units_ofFraction hden hfinite, Nat.dist_comm _ (num * one), Nat.dist_comm _ (num * one),
      ← hassoc, ← hassoc]
    exact hnear
  obtain ⟨e, f, -, hf, -, hunits⟩ := exists_magnitude_eq x
  rcases Nat.lt_or_ge e (dropped num den) with hlt | hge
  · -- with a lower exponent, the least number with this one is nearer
    have hbelow : x.units * den ≤ binade * 2 ^ dropped num den * den := by
      refine Nat.mul_le_mul_right den ?_
      calc x.units ≤ 2 * binade * 2 ^ e := hunits ▸ Nat.mul_le_mul_right _ hf.le
        _ = binade * 2 ^ (e + 1) := by rw [Nat.pow_succ]; ring
        _ ≤ binade * 2 ^ dropped num den :=
          Nat.mul_le_mul_left _ (Nat.pow_le_pow_right (by decide) hlt)
    have hleast := @binade_mul_le num den hden (by omega)
    refine (hbest binade).trans ?_
    rw [Nat.dist_eq_sub_of_le hleast, Nat.dist_eq_sub_of_le (hbelow.trans hleast)]
    omega
  · have hmultiple : x.units = f * 2 ^ (e - dropped num den) * 2 ^ dropped num den := by
      rw [hunits, Nat.mul_assoc, ← Nat.pow_add, Nat.sub_add_cancel hge]
    rw [hmultiple]
    exact hbest _

/-- A fraction may be expanded. -/
theorem ofFraction_mul_mul (negative : Bool) {c : Nat} (hc : 0 < c) :
    ofFraction negative (num * c) (den * c) = ofFraction negative num den := by
  have hdropped : dropped (num * c) (den * c) = dropped num den := by
    rw [dropped, Nat.mul_right_comm, Nat.mul_div_mul_right _ _ hc, dropped]
  have hsignificant : significant (num * c) (den * c) = significant num den := by
    rw [significant, hdropped, Nat.mul_right_comm num, Nat.mul_right_comm den,
      divRoundEven_mul_mul hc _ (Nat.mul_pos hden (Nat.two_pow_pos _)), significant]
  rw [ofFraction_eq, ofFraction_eq, hdropped, hsignificant]

/-- **Rounding keeps the order.** -/
theorem magnitude_ofFraction_mono {other : Nat} (h : num ≤ other) (negative negative' : Bool) :
    (ofFraction negative num den).magnitude.val ≤
      (ofFraction negative' other den).magnitude.val := by
  have hscaled : num * one ≤ other * one := Nat.mul_le_mul_right one h
  have hexponent : dropped num den ≤ dropped other den := by
    have hlog := log2_mono (Nat.div_le_div_right (c := den) hscaled)
    rw [dropped, dropped]
    omega
  have hle : dropped num den * binade + significant num den ≤
      dropped other den * binade + significant other den := by
    obtain ⟨hhigh, -⟩ := @significant_bounds num den hden
    obtain ⟨-, hnormal⟩ := @significant_bounds other den hden
    rcases Nat.lt_or_eq_of_le hexponent with hlt | heq
    · have hstep : (dropped num den + 1) * binade ≤ dropped other den * binade :=
        Nat.mul_le_mul_right _ hlt
      rw [Nat.add_mul] at hstep
      omega
    · have hbits : significant num den ≤ significant other den := by
        rw [significant, significant, ← heq]
        exact divRoundEven_mono (Nat.mul_pos hden (Nat.two_pow_pos _)) hscaled
      rw [heq]
      omega
  rw [ofFraction_eq, ofFraction_eq, magnitude_ofMagnitude, magnitude_ofMagnitude]
  exact min_le_min_right infinite hle

end Fraction

end BlockProgram.Double
