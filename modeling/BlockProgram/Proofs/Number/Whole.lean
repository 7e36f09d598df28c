import BlockProgram.Number.Coordinate
import BlockProgram.Number.Numeral
import Mathlib.Data.List.TakeWhile

/-!
# Whole coordinates survive

A finite number is determined by its sign and by how many of the smallest positive number it is
made of, and rounding such a multiple gives the number back. So a coordinate that is a whole
number of at most 53 bits is read back from its text.
-/

namespace BlockProgram

namespace Double

theorem one_pos : 0 < one := by
  have hpow : ∀ k, 0 < Nat.pow 2 k := Nat.two_pow_pos
  unfold one
  apply hpow

theorem divRoundEven_mul (k : Nat) {m : Nat} (hm : 0 < m) : divRoundEven (k * m) m = k := by
  simp [divRoundEven, Nat.mul_mod_left, hm, Nat.mul_div_cancel k hm]

/-- With 53 significant bits, the leading one tells the exponent. -/
theorem log2_mul_two_pow {f : Nat} (hf : f < binade) (e : Nat) :
    ((binade + f) * Nat.pow 2 e).log2 = 52 + e := by
  have hpos : (binade + f) * Nat.pow 2 e ≠ 0 :=
    Nat.ne_of_gt (Nat.mul_pos (Nat.add_pos_left (by decide) f) (Nat.two_pow_pos e))
  rw [Nat.log2_eq_iff hpos, Nat.pow_add, Nat.add_right_comm, Nat.pow_add]
  have hlow : 2 ^ 52 ≤ binade + f := Nat.le_add_right (2 ^ 52) f
  have hhigh : binade + f < 2 ^ (52 + 1) := by
    rw [binade] at hf ⊢
    omega
  exact ⟨Nat.mul_le_mul_right _ hlow, Nat.mul_lt_mul_of_pos_right hhigh (Nat.two_pow_pos e)⟩

/-- The magnitude of a finite number, from its multiple of the smallest positive number. -/
theorem magnitude_eq (d : Double) :
    (d.units.log2 - 52) * binade + divRoundEven d.units (Nat.pow 2 (d.units.log2 - 52)) =
      d.magnitude.val := by
  have hsplit := Nat.div_add_mod d.magnitude.val binade
  have hf : d.magnitude.val % binade < binade := Nat.mod_lt _ (by decide)
  by_cases he : d.magnitude.val / binade = 0
  · -- below the first binade the multiple is the magnitude
    have hunits : d.units = d.magnitude.val % binade := by simp [units, he]
    have hlog : d.units.log2 - 52 = 0 := by
      by_cases hz : d.units = 0
      · rw [hz]
        rfl
      · have hlt : d.units < 2 ^ 52 := by rw [hunits]; exact hf
        have := (Nat.log2_lt hz).mpr hlt
        omega
    have hround : divRoundEven d.units (Nat.pow 2 0) = d.units := by
      simpa using divRoundEven_mul d.units Nat.one_pos
    rw [he, Nat.mul_zero, Nat.zero_add] at hsplit
    rw [hlog, hround, hunits, Nat.zero_mul, Nat.zero_add, hsplit]
  · have hunits : d.units = (binade + d.magnitude.val % binade) *
        Nat.pow 2 (d.magnitude.val / binade - 1) := if_neg he
    have hlog : d.units.log2 - 52 = d.magnitude.val / binade - 1 := by
      rw [hunits, log2_mul_two_pow hf]
      omega
    have hpow : 0 < Nat.pow 2 (d.magnitude.val / binade - 1) := Nat.two_pow_pos _
    rw [hlog, hunits, divRoundEven_mul _ hpow]
    obtain ⟨k, hk⟩ := Nat.exists_eq_succ_of_ne_zero he
    rw [hk, Nat.mul_succ] at hsplit
    rw [hk, Nat.succ_sub_one, Nat.mul_comm]
    omega

/-- **A finite number is the nearest one to its own value.** -/
theorem ofFraction_of_units {d : Double} (hd : d.isFinite) {n : Nat} (h : d.units = n * one) :
    ofFraction d.negative n 1 = d := by
  have hmag := magnitude_eq d
  have hle : d.magnitude.val ≤ infinite := Nat.le_of_lt (by simpa [isFinite] using hd)
  simp only [ofFraction, Nat.div_one, Nat.one_mul, ← h, hmag]
  simp [ofMagnitude, Nat.min_eq_left hle]

theorem ofFraction_zero (negative : Bool) : ofFraction negative 0 1 = zero negative := by
  simp [ofFraction, zero, divRoundEven]

/-- A whole number of at most 53 bits, the negative zero aside. -/
def IsWhole (d : Double) : Prop :=
  d.isFinite ∧ ∃ n ≤ Nat.pow 2 53, d.units = n * one ∧ (d.negative → n ≠ 0)

end Double

/-! ### The text of a whole coordinate -/

namespace Coordinate

open Double

theorem nearest_of_units {d : Double} {n : Nat} (h : d.units = n * one) : nearest d = n := by
  have hone := one_pos
  rw [nearest, divRoundUp, h]
  refine Nat.div_eq_of_lt_le ?_ ?_
  · calc n * (2 * one) = 2 * (n * one) := Nat.mul_left_comm n 2 one
      _ ≤ 2 * (n * one) + one := Nat.le_add_right _ _
  · calc 2 * (n * one) + one < 2 * (n * one) + 2 * one := by omega
      _ = (n + 1) * (2 * one) := by rw [Nat.add_mul, Nat.mul_left_comm n 2 one, Nat.one_mul]

theorem text_of_isWhole {d : Double} (hd : d.isFinite) {n : Nat} (hn : n ≤ Nat.pow 2 53)
    (h : d.units = n * one) :
    (text d).toList = (if d.negative && n != 0 then ['-'] else []) ++ Nat.toDigits 10 n := by
  have hnan : d.isNaN = false := by
    simp only [isFinite, decide_eq_true_eq] at hd
    simpa [isNaN] using Nat.le_of_lt hd
  have hnear : isNearWhole d := by
    simp [isNearWhole, nearest_of_units h, h, one_pos]
  have hn : n ≤ 9007199254740992 := hn
  have hclamp : ∀ z : Int, -9007199254740992 ≤ z → z ≤ 9007199254740992 →
      max least (min greatest z) = z := by
    intro z hlow hhigh
    simp only [least, greatest]
    omega
  have hvalue : text d = Int.repr (if d.negative then -(n : Int) else n) := by
    simp only [text, hnan, hd, hnear, nearest_of_units h, wholeText, Bool.false_eq_true, if_false,
      if_true, Bool.not_true, Int.toString_eq_repr]
    rw [hclamp _ (by split <;> omega) (by split <;> omega)]
  rw [hvalue, Int.repr_eq_if]
  cases d.negative with
  | false => simp
  | true =>
    by_cases hz : n = 0
    · subst hz
      simp
    · simp [hz]

end Coordinate

/-! ### Reading it -/

theorem Text.toNat_of_isDigit {c : Char} (h : c.isDigit) : 48 ≤ c.toNat ∧ c.toNat ≤ 57 := by
  simp only [Char.isDigit, Bool.and_eq_true, decide_eq_true_eq] at h
  exact ⟨h.1, h.2⟩

theorem Text.isDigit_of_isDigit {c : Char} (h : c.isDigit) : Text.isDigit c := by
  simp only [Char.isDigit, Bool.and_eq_true, decide_eq_true_eq] at h
  simp only [Text.isDigit, Bool.and_eq_true, decide_eq_true_eq]
  exact ⟨h.1, h.2⟩

theorem Text.not_isBlank_of_isDigit {c : Char} (h : c.isDigit) : Text.isBlank c = false := by
  have := Text.toNat_of_isDigit h
  simp only [Text.isBlank, Bool.or_eq_false_iff, Bool.and_eq_false_imp, decide_eq_true_eq,
    decide_eq_false_iff_not, beq_eq_false_iff_ne]
  omega

/-- Where nothing is blank nothing is trimmed. -/
theorem Text.trimChars_eq_self {cs : List Char} (h : ∀ c ∈ cs, Text.isBlank c = false) :
    Text.trimChars cs = cs := by
  have hdrop : ∀ ds : List Char, (∀ c ∈ ds, Text.isBlank c = false) →
      ds.dropWhile Text.isBlank = ds := by
    intro ds hds
    cases ds with
    | nil => rfl
    | cons c ds => simp [hds c List.mem_cons_self]
  rw [trimChars, hdrop cs h, hdrop cs.reverse fun c hc => h c (List.mem_reverse.mp hc),
    List.reverse_reverse]

namespace Double

theorem decimalValue_toDigits (n : Nat) : Text.decimalValue (Nat.toDigits 10 n) = n :=
  Nat.ofDigitChars_eq_foldl.symm.trans Nat.ofDigitChars_ten_toDigits

/-- A run of digits is read as the number that it stands for. -/
theorem parse?_toDigits (n : Nat) :
    Numeral.parse? (Nat.toDigits 10 n) = some ⟨Nat.toDigits 10 n, none, 0⟩ := by
  have hdigits : ∀ c ∈ Nat.toDigits 10 n, Text.isDigit c := fun c hc =>
    Text.isDigit_of_isDigit (Nat.isDigit_of_mem_toDigits (by decide) (by decide) hc)
  rw [Numeral.parse?, List.takeWhile_eq_self_iff.mpr hdigits, List.dropWhile_eq_nil_iff.mpr hdigits]
  simp [Numeral.exponent?]

theorem toDouble_toDigits (negative : Bool) (n : Nat) :
    Numeral.toDouble negative ⟨Nat.toDigits 10 n, none, 0⟩ =
      if n = 0 then zero negative else ofFraction negative n 1 := by
  have hvalue : Text.decimalValue (Numeral.digits ⟨Nat.toDigits 10 n, none, 0⟩) = n := by
    simp [Numeral.digits, decimalValue_toDigits]
  have hscale : Numeral.scale ⟨Nat.toDigits 10 n, none, 0⟩ = Int.ofNat 0 := rfl
  simp only [Numeral.toDouble, hvalue, hscale]
  split
  · rfl
  · rw [if_neg (by decide), if_neg (by simp)]
    simp

theorem toLower_of_isDigit {c : Char} (h : c.isDigit) : c.toLower = c := by
  have hc := Text.toNat_of_isDigit h
  have hupper : ¬ (c.val ≥ 'A'.val ∧ c.val ≤ 'Z'.val) := by
    rintro ⟨hlow, -⟩
    have : 65 ≤ c.toNat := hlow
    omega
  exact dif_neg hupper

/-- What begins with a digit is no word. -/
theorem ofList_toLower_ne {c : Char} (hc : c.isDigit) (cs : List Char) {word : String}
    (hword : word.toList.head?.any Char.isDigit = false) :
    String.ofList ((c :: cs).map Char.toLower) ≠ word := by
  rintro rfl
  simp [toLower_of_isDigit hc, hc] at hword

/-- A sign is told from the digit after it. -/
theorem splitSign_signed (negative : Bool) {c : Char} (hc : c.isDigit) (cs : List Char) :
    Numeral.splitSign ((if negative then ['-'] else []) ++ c :: cs) = (negative, c :: cs) := by
  cases negative with
  | true => rfl
  | false =>
    simp only [Bool.false_eq_true, if_false, List.nil_append]
    unfold Numeral.splitSign
    split
    · rename_i heq
      cases heq
      exact absurd hc (by decide)
    · rename_i heq
      cases heq
      exact absurd hc (by decide)
    · rfl

/-- What begins with a sign and a digit is read as a numeral. -/
theorem parse?_of_isDigit (negative : Bool) {c : Char} (hc : c.isDigit) (cs : List Char) :
    parse? ((if negative then ['-'] else []) ++ c :: cs) =
      (Numeral.parse? (c :: cs)).map (Numeral.toDouble negative) := by
  unfold parse?
  rw [splitSign_signed negative hc]
  dsimp only
  split
  · rename_i heq
    exact absurd heq (ofList_toLower_ne hc cs (by decide))
  · rename_i heq
    exact absurd heq (ofList_toLower_ne hc cs (by decide))
  · rename_i heq
    exact absurd heq (ofList_toLower_ne hc cs (by decide))
  · rfl

theorem exists_toDigits_eq_cons (n : Nat) :
    ∃ c cs, Nat.toDigits 10 n = c :: cs ∧ c.isDigit := by
  obtain ⟨c, cs, hcons⟩ := List.exists_cons_of_ne_nil (Nat.toDigits_ne_nil (n := n) (b := 10))
  have hmem : c ∈ Nat.toDigits 10 n := hcons ▸ List.mem_cons_self
  exact ⟨c, cs, hcons, Nat.isDigit_of_mem_toDigits (by decide) (by decide) hmem⟩

/-- A sign and digits are read as a number. -/
theorem parse?_signed (negative : Bool) (n : Nat) :
    parse? ((if negative then ['-'] else []) ++ Nat.toDigits 10 n) =
      some (if n = 0 then zero negative else ofFraction negative n 1) := by
  obtain ⟨c, cs, hcons, hc⟩ := exists_toDigits_eq_cons n
  rw [hcons, parse?_of_isDigit negative hc, ← hcons, parse?_toDigits, Option.map_some,
    toDouble_toDigits]

/-- The text of a whole number is its sign and its digits. -/
theorem IsWhole.exists_text {d : Double} (hd : d.IsWhole) :
    ∃ n, d.units = n * one ∧ (Coordinate.text d).toList =
      (if d.negative then ['-'] else []) ++ Nat.toDigits 10 n := by
  obtain ⟨hfinite, n, hn, hunits, hzero⟩ := hd
  have hsign : (d.negative && n != 0) = d.negative := by
    cases hneg : d.negative with
    | false => rfl
    | true => simpa using hzero hneg
  exact ⟨n, hunits, hsign ▸ Coordinate.text_of_isWhole hfinite hn hunits⟩

theorem IsWhole.mem_text {d : Double} (hd : d.IsWhole) {c : Char}
    (hc : c ∈ (Coordinate.text d).toList) : c = '-' ∨ c.isDigit := by
  obtain ⟨n, -, hchars⟩ := hd.exists_text
  rw [hchars] at hc
  rcases List.mem_append.mp hc with hc | hc
  · split at hc
    · exact .inl (List.mem_singleton.mp hc)
    · cases hc
  · exact .inr (Nat.isDigit_of_mem_toDigits (by decide) (by decide) hc)

/-- **A whole coordinate is read back from its text.** -/
theorem IsWhole.readFinite?_text {d : Double} (hd : d.IsWhole) :
    readFinite? (Coordinate.text d) = some d := by
  obtain ⟨n, hunits, hchars⟩ := hd.exists_text
  have htrim : Text.trimChars (Coordinate.text d).toList = (Coordinate.text d).toList := by
    refine Text.trimChars_eq_self fun c hc => ?_
    rcases hd.mem_text hc with rfl | hc
    · decide
    · exact Text.not_isBlank_of_isDigit hc
  have hread : (if n = 0 then zero d.negative else ofFraction d.negative n 1) = d := by
    split
    · rename_i hz
      subst hz
      rw [← ofFraction_zero]
      exact ofFraction_of_units hd.1 hunits
    · exact ofFraction_of_units hd.1 hunits
  rw [readFinite?, htrim, hchars, parse?_signed, hread]
  simp [hd.1]

end Double

end BlockProgram
