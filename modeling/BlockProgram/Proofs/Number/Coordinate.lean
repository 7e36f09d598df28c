import BlockProgram.Proofs.Number.Nearest
import Mathlib.Data.List.DropRight

/-!
# Written coordinates

The text of a finite coordinate is a sign and a count of millionths. Reading it gives the number
nearest to that count, `Coordinate.saved`. From then on nothing is lost: the number that was read is
written with the same millionths again. Only the sign of a count of zero goes, since a zero is
written without one. Numbers keep their order on the way, though different ones may become the same.
-/

namespace BlockProgram

namespace Coordinate

open Double

/-! ### What is written -/

/-- How many whole numbers of a sign can be written. -/
def ceiling (negative : Bool) : Nat :=
  if negative then 0x8000000000000000 else 0x7FFFFFFFFFFFFFFF

/-- How many millionths are written of the absolute value of a number. -/
def millionths (d : Double) : Nat :=
  min (divRoundEven (d.units * 1000000) one) (ceiling d.negative * 1000000)

/-- Whether a number is written with a minus sign. -/
def isSigned (d : Double) : Bool := d.negative && decide (one ≤ 1000000000 * d.units)

/-- The number that is read from the text of a finite number. -/
def saved (d : Double) : Double := ofFraction (isSigned d) (millionths d) 1000000

theorem le_ceiling (negative : Bool) : 2 ^ 53 ≤ ceiling negative := by
  cases negative <;> decide

/-- A number is near the whole number that is less than a thousand-millionth away from it. -/
theorem isNearWhole_and_nearest_iff {d : Double} {n : Nat} :
    isNearWhole d ∧ nearest d = n ↔ 1000000000 * Nat.dist d.units (n * one) < one := by
  have hnear : isNearWhole d ↔ 1000000000 * Nat.dist d.units (nearest d * one) < one := by
    simp only [isNearWhole, decide_eq_true_eq, Nat.dist]
  constructor
  · rintro ⟨hwhole, rfl⟩
    exact hnear.mp hwhole
  · intro hdist
    have hnearest : nearest d = n := by
      rw [Nat.dist] at hdist
      rw [nearest, divRoundUp]
      refine Nat.div_eq_of_lt_le ?_ ?_
      · rw [Nat.mul_left_comm]
        omega
      · rw [Nat.add_mul, Nat.mul_left_comm]
        omega
    exact ⟨hnear.mpr (hnearest ▸ hdist), hnearest⟩

theorem divRoundEven_of_near {d : Double} {n : Nat}
    (h : 1000000000 * Nat.dist d.units (n * one) < one) :
    divRoundEven (d.units * 1000000) one = n * 1000000 := by
  rw [divRoundEven_eq_iff Double.one_pos, Nat.mul_right_comm, Nat.dist_mul_right]
  omega

/-- A number that is not near a whole number has few digits before the point. -/
theorem units_lt_of_not_isNearWhole {d : Double} (h : ¬ isNearWhole d) :
    d.units < 2 ^ 53 * one := by
  obtain ⟨e, f, -, hf, -, hunits⟩ := exists_magnitude_eq d
  obtain ⟨k, hk, hone⟩ := exists_one_eq
  rcases Nat.lt_or_ge e k with hlt | hge
  · calc d.units = f * 2 ^ e := hunits
      _ < 2 * binade * 2 ^ e := Nat.mul_lt_mul_of_pos_right hf (Nat.two_pow_pos e)
      _ ≤ 2 * binade * 2 ^ k := Nat.mul_le_mul_left _ (Nat.pow_le_pow_right (by decide) hlt.le)
      _ = 2 ^ 53 * one := by rw [hone]; rfl
  · -- otherwise it is a whole number
    have hwhole : d.units = f * 2 ^ (e - k) * one := by
      rw [hunits, hone, Nat.mul_assoc, ← Nat.pow_add, Nat.sub_add_cancel hge]
    have hdist : 1000000000 * Nat.dist d.units (f * 2 ^ (e - k) * one) < one := by
      rw [hwhole, Nat.dist_self]
      exact Double.one_pos
    exact absurd (isNearWhole_and_nearest_iff.mpr hdist).1 h

theorem toString_signed (negative : Bool) (n : Nat) :
    toString (if negative then -(n : Int) else n) =
      signText (negative && n != 0) ++ toString n := by
  rw [Int.toString_eq_repr, Nat.toString_eq_repr, Int.repr_eq_if]
  cases negative with
  | false => simp [signText]
  | true =>
    by_cases hn : n = 0
    · subst hn
      rfl
    · simp [hn, signText]

theorem wholeText_eq (negative : Bool) (n : Nat) :
    wholeText negative n =
      signText (negative && n != 0) ++ toString (min n (ceiling negative)) := by
  have hclamp : max least (min greatest (if negative then -(n : Int) else n)) =
      if negative then -((min n (ceiling negative) : Nat) : Int)
      else ((min n (ceiling negative) : Nat) : Int) := by
    cases negative with
    | false => simp only [least, greatest, ceiling, Bool.false_eq_true, if_false]; omega
    | true => simp only [least, greatest, ceiling, if_true]; omega
  have hzero : (min n (ceiling negative) != 0) = (n != 0) := by
    have hpos := le_ceiling negative
    rw [Bool.eq_iff_iff, bne_iff_ne, bne_iff_ne]
    omega
  unfold wholeText
  dsimp only
  rw [hclamp, toString_signed, hzero]

theorem millionthsText_whole (n : Nat) : millionthsText (n * 1000000) = toString n := by
  have hplaces : ((sixDigits 0).reverse.dropWhile (· == '0')).reverse = [] := by decide
  simp [millionthsText, Nat.mul_mod_left, hplaces]

/-- **The text of a number** is its sign and the millionths that are written of it. -/
theorem text_eq {d : Double} (hd : d.isFinite) :
    text d = signText (isSigned d) ++ millionthsText (millionths d) := by
  have hnan : d.isNaN = false := by
    rw [isFinite, decide_eq_true_eq] at hd
    rw [isNaN, decide_eq_false_iff_not]
    omega
  have hceiling := le_ceiling d.negative
  rw [text, hnan, hd, if_neg Bool.false_ne_true, Bool.not_true, if_neg Bool.false_ne_true]
  by_cases hnear : isNearWhole d
  · have hdist := isNearWhole_and_nearest_iff.mp ⟨hnear, rfl⟩
    have hsign : isSigned d = (d.negative && nearest d != 0) := by
      have hzero : decide (one ≤ 1000000000 * d.units) = (nearest d != 0) := by
        rw [Bool.eq_iff_iff, decide_eq_true_iff, bne_iff_ne, ← Nat.not_lt, not_iff_not]
        constructor
        · intro hlt
          refine (isNearWhole_and_nearest_iff.mpr ?_).2
          rw [Nat.zero_mul, Nat.dist_zero_right]
          exact hlt
        · intro hzero
          rw [hzero, Nat.zero_mul, Nat.dist_zero_right] at hdist
          exact hdist
      rw [isSigned, hzero]
    rw [if_pos hnear, wholeText_eq, hsign, millionths, divRoundEven_of_near hdist,
      Nat.mul_min_mul_right, millionthsText_whole]
  · have hbelow := units_lt_of_not_isNearWhole hnear
    have hround : divRoundEven (d.units * 1000000) one ≤ ceiling d.negative * 1000000 := by
      calc divRoundEven (d.units * 1000000) one
          ≤ divRoundEven (2 ^ 53 * 1000000 * one) one := by
            refine divRoundEven_mono Double.one_pos ?_
            rw [Nat.mul_right_comm (2 ^ 53)]
            exact Nat.mul_le_mul_right _ hbelow.le
        _ = 2 ^ 53 * 1000000 := divRoundEven_mul _ Double.one_pos
        _ ≤ ceiling d.negative * 1000000 := Nat.mul_le_mul_right _ hceiling
    have hsign : isSigned d = d.negative := by
      have hfar : one ≤ 1000000000 * d.units := by
        by_contra hlt
        have hdist : 1000000000 * Nat.dist d.units (0 * one) < one := by
          rw [Nat.zero_mul, Nat.dist_zero_right]
          omega
        exact hnear (isNearWhole_and_nearest_iff.mpr hdist).1
      rw [isSigned, decide_eq_true hfar, Bool.and_true]
    rw [if_neg hnear, hsign, millionths, Nat.min_eq_left hround]

/-! ### What is read -/

theorem isDigit_of_mem_sixDigits {n : Nat} {c : Char} (hc : c ∈ sixDigits n) : c.isDigit := by
  obtain ⟨place, -, rfl⟩ := List.mem_map.mp hc
  rw [Nat.isDigit_digitChar, decide_eq_true_eq]
  exact Nat.mod_lt _ (by decide)

/-- Six digits after others move those by six places. -/
theorem decimalValue_append_sixDigits (cs : List Char) {n : Nat} (hn : n < 1000000) :
    Text.decimalValue (cs ++ sixDigits n) = Text.decimalValue cs * 1000000 + n := by
  have hdigit : ∀ place, (Nat.digitChar (n / place % 10)).toNat - '0'.toNat = n / place % 10 := by
    intro place
    rw [Nat.toNat_digitChar_of_lt_ten (Nat.mod_lt _ (by decide))]
    exact Nat.add_sub_cancel_left 48 _
  simp only [Text.decimalValue, sixDigits, List.foldl_append, List.map_cons, List.map_nil,
    List.foldl_cons, List.foldl_nil, hdigit]
  omega

theorem decimalValue_append_zeros (cs : List Char) (k : Nat) :
    Text.decimalValue (cs ++ List.replicate k '0') = Text.decimalValue cs * 10 ^ k := by
  induction k with
  | zero => simp
  | succ k ih =>
    rw [List.replicate_succ', ← List.append_assoc]
    rw [Text.decimalValue, List.foldl_append, ← Text.decimalValue, ih, Nat.pow_succ]
    simp only [List.foldl_cons, List.foldl_nil, Nat.sub_self, Nat.add_zero]
    ring

/-- The digits after the point: at most six, and closing zeros make them the full six. -/
theorem exists_zeros (n : Nat) :
    ∃ places k, millionthsText n =
        toString (n / 1000000) ++ (if places.isEmpty then "" else "." ++ String.ofList places) ∧
      sixDigits (n % 1000000) = places ++ List.replicate k '0' := by
  refine ⟨(sixDigits (n % 1000000)).rdropWhile (· == '0'),
    ((sixDigits (n % 1000000)).rtakeWhile (· == '0')).length, rfl, ?_⟩
  have hzeros : (sixDigits (n % 1000000)).rtakeWhile (· == '0') =
      List.replicate ((sixDigits (n % 1000000)).rtakeWhile (· == '0')).length '0' :=
    List.eq_replicate_iff.mpr ⟨rfl, fun c hc =>
      eq_of_beq (List.mem_rtakeWhile_imp (p := fun c => c == '0') hc)⟩
  rw [← hzeros, List.rdropWhile_append_rtakeWhile]

theorem ofFraction_zero_num (negative : Bool) {den : Nat} (hden : 0 < den) :
    ofFraction negative 0 den = zero negative := by
  have hexpand := @ofFraction_mul_mul 0 1 Nat.one_pos negative den hden
  rw [Nat.zero_mul, Nat.one_mul, ofFraction_zero] at hexpand
  exact hexpand

/-- Digits with some more after the point are read as the fraction that they stand for. -/
theorem toDouble_places (negative : Bool) (whole : List Char) {places : List Char}
    (hplaces : places.length ≤ 400) (hsome : places ≠ []) :
    Numeral.toDouble negative ⟨whole, some places, 0⟩ =
      ofFraction negative (Text.decimalValue (whole ++ places)) (10 ^ places.length) := by
  obtain ⟨k, hk⟩ := Nat.exists_eq_succ_of_ne_zero (mt List.length_eq_zero_iff.mp hsome)
  have hscale : Numeral.scale ⟨whole, some places, 0⟩ = Int.negSucc k := by
    simp only [Numeral.scale, Option.getD_some, hk]
    omega
  have hdigits : Numeral.digits ⟨whole, some places, 0⟩ = whole ++ places := rfl
  have hlength := congrArg List.length hdigits
  rw [List.length_append] at hlength
  simp only [Numeral.toDouble, hscale]
  rw [← hdigits]
  split
  · rename_i hzero
    rw [hzero, ofFraction_zero_num negative (Nat.pow_pos (by decide))]
  · rw [if_neg (by omega), if_neg (by omega), hk, Nat.pow_eq]

/-- Digits on both sides of a point are read as such. -/
theorem parse?_point {whole places : List Char} (hwhole : ∀ c ∈ whole, Text.isDigit c)
    (hplaces : ∀ c ∈ places, Text.isDigit c) (hne : places ≠ []) :
    Numeral.parse? (whole ++ '.' :: places) = some ⟨whole, some places, 0⟩ := by
  have hpoint : Text.isDigit '.' = false := by decide
  rw [Numeral.parse?, List.takeWhile_append_of_pos hwhole, List.dropWhile_append_of_pos hwhole,
    List.takeWhile_cons_of_neg (by simp [hpoint]), List.dropWhile_cons_of_neg (by simp [hpoint]),
    List.append_nil]
  simp only [List.takeWhile_eq_self_iff.mpr hplaces, List.dropWhile_eq_nil_iff.mpr hplaces]
  rw [if_neg (by simp [hne]), Numeral.exponent?, Option.map_some]

/-- The text of some millionths is read as their number. -/
theorem parse?_millionthsText (negative : Bool) (n : Nat) :
    Double.parse? ((signText negative).toList ++ (millionthsText n).toList) =
      some (ofFraction negative n 1000000) := by
  obtain ⟨places, k, htext, hzeros⟩ := exists_zeros n
  have hsign : (signText negative).toList = if negative then ['-'] else [] := by
    cases negative <;> rfl
  have hsix : places.length + k = 6 := by
    have hlength := congrArg List.length hzeros
    rw [List.length_append, List.length_replicate] at hlength
    exact hlength.symm
  have hvalue : Text.decimalValue (Nat.toDigits 10 (n / 1000000) ++ places) * 10 ^ k = n := by
    rw [← decimalValue_append_zeros, List.append_assoc, ← hzeros,
      decimalValue_append_sixDigits _ (Nat.mod_lt _ (by decide)), decimalValue_toDigits]
    exact Nat.div_add_mod' n 1000000
  have hread : ofFraction negative (Text.decimalValue (Nat.toDigits 10 (n / 1000000) ++ places))
      (10 ^ places.length) = ofFraction negative n 1000000 := by
    rw [← ofFraction_mul_mul (Nat.pow_pos (by decide)) negative (c := 10 ^ k)
      (Nat.pow_pos (by decide)), hvalue, ← Nat.pow_add, hsix]
  have hdigits : ∀ c ∈ Nat.toDigits 10 (n / 1000000), Text.isDigit c := fun c hc =>
    Text.isDigit_of_isDigit (Nat.isDigit_of_mem_toDigits (by decide) (by decide) hc)
  have hafter : ∀ c ∈ places, Text.isDigit c := fun c hc =>
    Text.isDigit_of_isDigit (isDigit_of_mem_sixDigits (hzeros ▸ List.mem_append_left _ hc))
  obtain ⟨c, cs, hcons, hc⟩ := exists_toDigits_eq_cons (n / 1000000)
  rw [htext, String.toList_append, Nat.toString_eq_repr, Nat.toList_repr, hsign, hcons,
    List.cons_append, parse?_of_isDigit negative hc, ← List.cons_append, ← hcons]
  by_cases hempty : places = []
  · subst hempty
    rw [List.append_nil, List.length_nil, Nat.pow_zero, decimalValue_toDigits] at hread
    rw [List.isEmpty_nil, if_pos rfl, String.toList_empty, List.append_nil, parse?_toDigits,
      Option.map_some, toDouble_toDigits, ← hread]
    split
    · rename_i hzero
      rw [hzero, ofFraction_zero]
    · rfl
  · have hchars : ("." ++ String.ofList places).toList = '.' :: places := by
      simp
    rw [if_neg (by simpa using hempty), hchars, parse?_point hdigits hafter hempty, Option.map_some,
      toDouble_places negative _ (by omega) hempty, hread]

@[simp] theorem negative_saved (d : Double) : (saved d).negative = isSigned d := rfl

theorem isFinite_saved (d : Double) : (saved d).isFinite := by
  have hle : millionths d ≤ 2 ^ 63 * 1000000 := by
    have hceiling : ceiling d.negative ≤ 2 ^ 63 := by cases d.negative <;> decide
    calc millionths d ≤ ceiling d.negative * 1000000 := Nat.min_le_right _ _
      _ ≤ 2 ^ 63 * 1000000 := Nat.mul_le_mul_right _ hceiling
  have hbound : (ofFraction false (2 ^ 63) 1).isFinite := by
    obtain ⟨e, he, hlimit⟩ := exists_limit_eq
    rw [isFinite_ofFraction_iff, hlimit]
    calc 2 ^ 63 < (2 ^ 54 - 1) * 2 ^ 10 := by decide
      _ ≤ (2 ^ 54 - 1) * 2 ^ e :=
          Nat.mul_le_mul_left _ (Nat.pow_le_pow_right (by decide) (by omega))
  rw [← @ofFraction_mul_mul _ 1 Nat.one_pos false 1000000 (by decide), Nat.one_mul, isFinite,
    decide_eq_true_eq] at hbound
  rw [isFinite, decide_eq_true_eq]
  exact (magnitude_ofFraction_mono (by decide) hle _ _).trans_lt hbound

theorem mem_text {d : Double} (hd : d.isFinite) {c : Char} (hc : c ∈ (text d).toList) :
    c = '-' ∨ c = '.' ∨ c.isDigit := by
  obtain ⟨places, k, htext, hzeros⟩ := exists_zeros (millionths d)
  rw [text_eq hd, String.toList_append, htext, String.toList_append, Nat.toString_eq_repr,
    Nat.toList_repr, List.mem_append, List.mem_append] at hc
  rcases hc with hc | hc | hc
  · cases hsign : isSigned d with
    | false => simp [hsign, signText] at hc
    | true => exact .inl (by simpa [hsign, signText] using hc)
  · exact .inr (.inr (Nat.isDigit_of_mem_toDigits (by decide) (by decide) hc))
  · split at hc
    · simp at hc
    · simp only [String.toList_append, String.toList_ofList, List.mem_append] at hc
      rcases hc with hc | hc
      · exact .inr (.inl (by simpa using hc))
      · exact .inr (.inr (isDigit_of_mem_sixDigits (hzeros ▸ List.mem_append_left _ hc)))

/-- **What is read from the text of a coordinate.** -/
theorem readFinite?_text {d : Double} (hd : d.isFinite) :
    readFinite? (text d) = some (saved d) := by
  have htrim : Text.trimChars (text d).toList = (text d).toList := by
    refine Text.trimChars_eq_self fun c hc => ?_
    rcases mem_text hd hc with rfl | rfl | hc
    · decide
    · decide
    · exact Text.not_isBlank_of_isDigit hc
  rw [readFinite?, htrim, text_eq hd, String.toList_append, parse?_millionthsText]
  exact Option.filter_some_pos (isFinite_saved d)

/-! ### Writing again -/

theorem divRoundEven_eq_zero_iff {n d : Nat} (hd : 0 < d) : divRoundEven n d = 0 ↔ 2 * n ≤ d := by
  rw [divRoundEven_eq_iff hd, Nat.zero_mul, Nat.dist_zero_right]
  omega

/-- A number without millionths is less than half a millionth. -/
theorem millionths_eq_zero_iff (d : Double) : millionths d = 0 ↔ 2000000 * d.units ≤ one := by
  have hceiling := le_ceiling d.negative
  have hround := divRoundEven_eq_zero_iff (n := d.units * 1000000) Double.one_pos
  rw [millionths]
  omega

/-- The sign is left out of a number that is nearly zero only. -/
theorem isSigned_eq_negative {d : Double} (h : millionths d ≠ 0) : isSigned d = d.negative := by
  have hfar : one ≤ 1000000000 * d.units := by
    rw [ne_eq, millionths_eq_zero_iff] at h
    omega
  rw [isSigned, decide_eq_true hfar, Bool.and_true]

/-- The last whole number before infinity that is written is read as a power of two. -/
theorem units_ofFraction_ceiling (negative : Bool) :
    (ofFraction negative (ceiling negative) 1).units = 2 ^ 63 * one := by
  cases negative <;> decide +kernel

/-- **The number that was read is written with the same millionths.** -/
theorem millionths_saved (d : Double) : millionths (saved d) = millionths d := by
  by_cases hclamped : divRoundEven (d.units * 1000000) one ≤ ceiling d.negative * 1000000
  · have hm : millionths d = divRoundEven (d.units * 1000000) one := Nat.min_eq_left hclamped
    -- the number itself is a candidate, so what was read is at least as near
    have hround : divRoundEven ((saved d).units * 1000000) one = millionths d := by
      refine divRoundEven_of_dist_le Double.one_pos hm.symm ?_
      exact dist_ofFraction_le (by decide) (isFinite_saved d) d
    by_cases hzero : millionths d = 0
    · rw [hzero, millionths, hround, hzero, Nat.zero_min]
    · rw [millionths, hround, negative_saved, isSigned_eq_negative hzero, hm,
        Nat.min_eq_left hclamped]
  · have hm : millionths d = ceiling d.negative * 1000000 :=
      Nat.min_eq_right (Nat.le_of_not_le hclamped)
    have hceiling := le_ceiling d.negative
    have hnegative : isSigned d = d.negative := isSigned_eq_negative (by omega)
    have hunits : (saved d).units = 2 ^ 63 * one := by
      rw [saved, hm, hnegative, ← units_ofFraction_ceiling d.negative,
        ← @ofFraction_mul_mul _ 1 Nat.one_pos d.negative 1000000 (by decide), Nat.one_mul]
    rw [millionths, hunits, Nat.mul_right_comm, divRoundEven_mul _ Double.one_pos, negative_saved,
      hnegative, hm]
    cases d.negative <;> decide

theorem isSigned_saved (d : Double) :
    isSigned (saved d) = (isSigned d && decide (millionths d ≠ 0)) := by
  by_cases hzero : millionths d = 0
  · have hnothing : (saved d).units = 0 := by
      rw [saved, hzero, ofFraction_zero_num _ (by decide)]
      simp [units, zero, ofMagnitude]
    have hfar : ¬ one ≤ 1000000000 * 0 := Nat.not_le.mpr Double.one_pos
    rw [isSigned, hnothing, decide_eq_false hfar, Bool.and_false,
      decide_eq_false (not_not.mpr hzero),
      Bool.and_false]
  · rw [isSigned_eq_negative (by rwa [millionths_saved]), negative_saved, decide_eq_true hzero,
      Bool.and_true]

/-- Only a negative number that is no zero but has no millionths is written as a negative zero. -/
theorem text_eq_minus_zero_iff {d : Double} (hd : d.isFinite) :
    text d = "-0" ↔ isSigned d ∧ millionths d = 0 := by
  constructor
  · intro htext
    have hread : readFinite? "-0" = some (saved d) := htext ▸ readFinite?_text hd
    have hzero : readFinite? "-0" = some (zero true) := by decide +kernel
    have hsaved : saved d = zero true := Option.some.inj (hread.symm.trans hzero)
    constructor
    · rw [← negative_saved, hsaved]
      rfl
    · rw [← millionths_saved, hsaved]
      decide +kernel
  · rintro ⟨hsigned, hzero⟩
    rw [text_eq hd, hsigned, hzero]
    decide

/-- **A coordinate is written once more as it was read**, the negative zero aside. -/
theorem text_saved {d : Double} (hd : d.isFinite) :
    text (saved d) = if text d = "-0" then "0" else text d := by
  rw [text_eq (isFinite_saved d), millionths_saved, isSigned_saved]
  by_cases hminus : text d = "-0"
  · obtain ⟨-, hzero⟩ := (text_eq_minus_zero_iff hd).mp hminus
    rw [if_pos hminus, hzero]
    cases isSigned d <;> decide
  · have hsign : (isSigned d && decide (millionths d ≠ 0)) = isSigned d := by
      rw [text_eq_minus_zero_iff hd, not_and] at hminus
      cases hsigned : isSigned d with
      | false => rfl
      | true => rw [decide_eq_true (hminus hsigned), Bool.and_true]
    rw [if_neg hminus, hsign, text_eq hd]

theorem text_saved_ne {d : Double} (hd : d.isFinite) : text (saved d) ≠ "-0" := by
  rw [text_saved hd]
  split
  · decide
  · assumption

/-! ### Order -/

theorem millionths_mono {c d : Double} (hsign : c.negative = d.negative) (h : c.units ≤ d.units) :
    millionths c ≤ millionths d := by
  have hround : divRoundEven (c.units * 1000000) one ≤ divRoundEven (d.units * 1000000) one :=
    divRoundEven_mono Double.one_pos (Nat.mul_le_mul_right 1000000 h)
  rw [millionths, millionths, hsign]
  omega

theorem saved_of_not_isSigned {d : Double} (hnegative : d.negative) (h : isSigned d = false) :
    saved d = zero false := by
  have hnear : 1000000000 * d.units < one := by
    rw [isSigned, hnegative, Bool.true_and, decide_eq_false_iff_not, Nat.not_le] at h
    exact h
  have hzero : millionths d = 0 := (millionths_eq_zero_iff d).mpr (by omega)
  rw [saved, h, hzero, ofFraction_zero_num _ (by decide)]

/-- **Saving keeps the order of coordinates**, though it may make different ones equal. -/
theorem rank_saved_mono {c d : Double} (h : c.rank ≤ d.rank) : (saved c).rank ≤ (saved d).rank := by
  have hnonneg : ∀ e : Double, e.negative = false → e.rank = (e.magnitude.val : Int) := by
    intro e he
    rw [rank, he, if_neg Bool.false_ne_true]
  have hneg : ∀ e : Double, e.negative = true → e.rank = -(e.magnitude.val : Int) - 1 := by
    intro e he
    rw [rank, he, if_pos rfl]
  have hunsigned : ∀ e : Double, e.negative = false → isSigned e = false := by
    intro e he
    rw [isSigned, he, Bool.false_and]
  cases hd : d.negative with
  | false =>
    rw [hnonneg (saved d) (hunsigned d hd)]
    cases hc : c.negative with
    | false =>
      rw [hnonneg c hc, hnonneg d hd, Int.ofNat_le] at h
      rw [hnonneg (saved c) (hunsigned c hc), Int.ofNat_le]
      exact magnitude_ofFraction_mono (by decide)
        (millionths_mono (hc.trans hd.symm) (units_mono h)) _ _
    | true =>
      cases hsigned : isSigned c with
      | false =>
        rw [saved_of_not_isSigned hc hsigned]
        exact Int.natCast_nonneg _
      | true =>
        rw [hneg (saved c) hsigned]
        omega
  | true =>
    have hc : c.negative = true := by
      by_contra hc
      rw [hnonneg c (Bool.eq_false_of_not_eq_true hc), hneg d hd] at h
      omega
    rw [hneg c hc, hneg d hd] at h
    have hunits : d.units ≤ c.units := units_mono (by omega)
    cases hsigned : isSigned d with
    | false =>
      rw [saved_of_not_isSigned hd hsigned]
      cases hsigned' : isSigned c with
      | false => rw [saved_of_not_isSigned hc hsigned']
      | true =>
        rw [hneg (saved c) hsigned']
        have : 0 ≤ (zero false).rank := by decide
        omega
    | true =>
      have hsigned' : isSigned c = true := by
        rw [isSigned, hd, Bool.true_and, decide_eq_true_eq] at hsigned
        rw [isSigned, hc, Bool.true_and, decide_eq_true_eq]
        exact hsigned.trans (Nat.mul_le_mul_left _ hunits)
      have hmagnitude := magnitude_ofFraction_mono (by decide : 0 < 1000000)
        (millionths_mono (hd.trans hc.symm) hunits) (isSigned d) (isSigned c)
      rw [hneg (saved c) hsigned', hneg (saved d) hsigned]
      unfold saved
      omega

end Coordinate

end BlockProgram
