import BlockProgram.Proofs.Code.OneLine

/-!
# How numbers are spelled

The target language spells a whole number with digits, of which the first is no zero unless all of
them are, and a number with a point or an exponent in it with any digits. A number goes into a
program as it was typed, with a sign or without one, and what is taken for a number when it is typed
may begin with zeros. So the text of a number block is a number of the target language unless it is
a whole number with zeros in front; nothing else can go wrong, whatever was typed.
-/

namespace BlockProgram

namespace Numeral

/-! ### The grammar -/

/-- One digit or more. -/
structure Digits (cs : List Char) : Prop where
  /-- There is one. -/
  nonempty : cs ≠ []
  /-- There is nothing else. -/
  all : ∀ c ∈ cs, Text.isDigit c

/-- Digits around a point, or on one side of it. -/
inductive Pointed : List Char → Prop where
  | intro {whole fraction : List Char} (hwhole : ∀ c ∈ whole, Text.isDigit c)
      (hfraction : ∀ c ∈ fraction, Text.isDigit c) (hone : whole ≠ [] ∨ fraction ≠ []) :
      Pointed (whole ++ '.' :: fraction)

/-- A number of some spelling, with a sign or without one. -/
inductive Signed (p : List Char → Prop) : List Char → Prop where
  /-- Without a sign. -/
  | bare {cs : List Char} (h : p cs) : Signed p cs
  /-- With a plus sign. -/
  | plus {cs : List Char} (h : p cs) : Signed p ('+' :: cs)
  /-- With a minus sign. -/
  | minus {cs : List Char} (h : p cs) : Signed p ('-' :: cs)

/-- An exponent of ten: its mark, and digits with a sign or without one. -/
inductive Exponent : List Char → Prop where
  | intro {mark : Char} {cs : List Char} (hmark : mark = 'e' ∨ mark = 'E')
      (hdigits : Signed Digits cs) : Exponent (mark :: cs)

/-- A number with a point, an exponent, or both. -/
inductive Floating : List Char → Prop where
  /-- A point and no exponent. -/
  | pointed {cs : List Char} (h : Pointed cs) : Floating cs
  /-- An exponent, with a point before it or without one. -/
  | scaled {cs exponent : List Char} (h : Digits cs ∨ Pointed cs) (hexponent : Exponent exponent) :
      Floating (cs ++ exponent)

/-- A number without a sign, with any digits in front. -/
inductive Spelled : List Char → Prop where
  /-- A whole number. -/
  | whole {cs : List Char} (h : Digits cs) : Spelled cs
  /-- Any other number. -/
  | floating {cs : List Char} (h : Floating cs) : Spelled cs

/-- A number without a sign, as the target language spells it. -/
inductive Unsigned : List Char → Prop where
  /-- A whole number; its first digit is no zero, or all of them are. -/
  | whole {cs : List Char} (h : Digits cs) (hzero : cs.head? = some '0' → ∀ c ∈ cs, c = '0') :
      Unsigned cs
  /-- Any other number. -/
  | floating {cs : List Char} (h : Floating cs) : Unsigned cs

/-- A whole number with zeros in front of other digits. -/
structure ZeroLed (cs : List Char) : Prop where
  /-- It is written with digits. -/
  all : ∀ c ∈ cs, Text.isDigit c
  /-- The first is a zero. -/
  zero : cs.head? = some '0'
  /-- Another is none. -/
  other : ∃ c ∈ cs, c ≠ '0'

/-! ### What is taken for a number -/

/-- The sign that is split off and what follows it. -/
theorem signed_of_splitSign {p : List Char → Prop} {cs : List Char} (h : p (splitSign cs).2) :
    Signed p cs := by
  unfold splitSign at h
  split at h
  · exact .minus h
  · exact .plus h
  · exact .bare h

theorem exponent_of_exponent? {cs : List Char} {e : Int} (h : exponent? cs = some e) :
    cs = [] ∨ Exponent cs := by
  cases cs with
  | nil => exact .inl rfl
  | cons c cs =>
    simp only [exponent?, Option.ite_none_right_eq_some, Bool.and_eq_true, Bool.or_eq_true,
      beq_iff_eq, List.all_eq_true, Bool.not_eq_true', List.isEmpty_eq_false_iff] at h
    obtain ⟨⟨⟨hmark, hne⟩, hdigits⟩, -⟩ := h
    exact .inr (.intro hmark (signed_of_splitSign ⟨hne, hdigits⟩))

/-- Digits with a point or without one, and an exponent behind them if there is one. -/
theorem spelled_append {cs rest : List Char} {e : Int} (h : Digits cs ∨ Pointed cs)
    (he : exponent? rest = some e) : Spelled (cs ++ rest) := by
  obtain rfl | hexponent := exponent_of_exponent? he
  · rw [List.append_nil]
    exact h.elim .whole fun hpointed => .floating (.pointed hpointed)
  · exact .floating (.scaled h hexponent)

/-- What is taken for a number is spelled as one, zeros in front aside. -/
theorem spelled_of_parse? {cs : List Char} {n : Numeral} (h : parse? cs = some n) :
    Spelled cs := by
  have hsplit := List.takeWhile_append_dropWhile (p := Text.isDigit) (l := cs)
  have hwhole : ∀ c ∈ cs.takeWhile Text.isDigit, Text.isDigit c :=
    fun c hc => List.mem_takeWhile_imp hc
  simp only [parse?] at h
  split at h
  case h_1 rest hrest =>
    simp only [Option.ite_none_left_eq_some, Option.map_eq_some_iff, Bool.and_eq_true,
      List.isEmpty_iff, not_and_or] at h
    obtain ⟨hone, e, he, -⟩ := h
    have hfraction : ∀ c ∈ rest.takeWhile Text.isDigit, Text.isDigit c :=
      fun c hc => List.mem_takeWhile_imp hc
    have hcs : cs = (cs.takeWhile Text.isDigit ++ '.' :: rest.takeWhile Text.isDigit) ++
        rest.dropWhile Text.isDigit := by
      rw [List.append_assoc, List.cons_append, List.takeWhile_append_dropWhile, ← hrest, hsplit]
    rw [hcs]
    exact spelled_append (.inr (.intro hwhole hfraction hone)) he
  case h_2 =>
    simp only [Option.ite_none_left_eq_some, Option.map_eq_some_iff, List.isEmpty_iff] at h
    obtain ⟨hne, e, he, -⟩ := h
    rw [← hsplit]
    exact spelled_append (.inl ⟨hne, hwhole⟩) he

/-! ### What is a number of the target language -/

theorem Floating.exists_not_isDigit {cs : List Char} (h : Floating cs) :
    ∃ c ∈ cs, ¬ Text.isDigit c := by
  cases h with
  | pointed h =>
    obtain ⟨-, -, -⟩ := h
    exact ⟨'.', List.mem_append_right _ List.mem_cons_self, by decide⟩
  | scaled _ hexponent =>
    obtain ⟨hmark, -⟩ := hexponent
    refine ⟨_, List.mem_append_right _ List.mem_cons_self, ?_⟩
    rcases hmark with rfl | rfl <;> decide

/-- A number without a sign is one of the target language unless zeros lead it. -/
theorem unsigned_iff {cs : List Char} (h : Spelled cs) : Unsigned cs ↔ ¬ ZeroLed cs := by
  constructor
  · intro hnumber hled
    cases hnumber with
    | whole _ hzero =>
      obtain ⟨c, hc, hne⟩ := hled.other
      exact hne (hzero hled.zero c hc)
    | floating hfloating =>
      obtain ⟨c, hc, hnot⟩ := hfloating.exists_not_isDigit
      exact hnot (hled.all c hc)
  · intro hled
    cases h with
    | whole hdigits =>
      refine .whole hdigits fun hzero c hc => ?_
      by_contra hne
      exact hled ⟨hdigits.all, hzero, c, hc, hne⟩
    | floating hfloating => exact .floating hfloating

/-! ### Signs -/

/-- There is a first character, and it is not a sign. -/
def Unmarked (cs : List Char) : Prop := ∃ c rest, cs = c :: rest ∧ c ≠ '+' ∧ c ≠ '-'

theorem Unmarked.append {cs : List Char} (h : Unmarked cs) (more : List Char) :
    Unmarked (cs ++ more) := by
  obtain ⟨c, rest, rfl, hc⟩ := h
  exact ⟨c, rest ++ more, rfl, hc⟩

theorem unmarked_of_isDigit {c : Char} (h : Text.isDigit c) (rest : List Char) :
    Unmarked (c :: rest) := by
  refine ⟨c, rest, rfl, ?_, ?_⟩
  · rintro rfl
    cases h
  · rintro rfl
    cases h

theorem Digits.unmarked {cs : List Char} (h : Digits cs) : Unmarked cs := by
  obtain ⟨c, rest, rfl⟩ := List.exists_cons_of_ne_nil h.nonempty
  exact unmarked_of_isDigit (h.all c List.mem_cons_self) rest

theorem Pointed.unmarked {cs : List Char} (h : Pointed cs) : Unmarked cs := by
  obtain @⟨whole, fraction, hwhole, -, -⟩ := h
  cases whole with
  | nil => exact ⟨'.', fraction, rfl, by decide, by decide⟩
  | cons c rest => exact unmarked_of_isDigit (hwhole c List.mem_cons_self) _

theorem Spelled.unmarked {cs : List Char} (h : Spelled cs) : Unmarked cs := by
  cases h with
  | whole h => exact h.unmarked
  | floating h =>
    cases h with
    | pointed h => exact h.unmarked
    | scaled h _ => exact (h.elim Digits.unmarked Pointed.unmarked).append _

theorem Unsigned.spelled {cs : List Char} (h : Unsigned cs) : Spelled cs := by
  cases h with
  | whole h _ => exact .whole h
  | floating h => exact .floating h

theorem ZeroLed.unmarked {cs : List Char} (h : ZeroLed cs) : Unmarked cs := by
  obtain ⟨rest, rfl⟩ := List.head?_eq_some_iff.mp h.zero
  exact ⟨'0', rest, rfl, by decide, by decide⟩

theorem splitSign_of_unmarked {cs : List Char} (h : Unmarked cs) : splitSign cs = (false, cs) := by
  obtain ⟨c, rest, rfl, hplus, hminus⟩ := h
  simp [splitSign, hplus, hminus]

/-- What follows the sign of a number is what is left when its sign is split off, since no number
begins with a sign of its own. -/
theorem signed_iff {p : List Char → Prop} (hp : ∀ cs, p cs → Unmarked cs) (cs : List Char) :
    Signed p cs ↔ p (splitSign cs).2 := by
  constructor
  · intro h
    cases h with
    | bare h => rwa [splitSign_of_unmarked (hp cs h)]
    | plus h => exact h
    | minus h => exact h
  · exact signed_of_splitSign

/-- A number is one of the target language unless zeros lead it. -/
theorem signed_unsigned_iff {cs : List Char} (h : Signed Spelled cs) :
    Signed Unsigned cs ↔ ¬ Signed ZeroLed cs := by
  rw [signed_iff fun _ h => h.spelled.unmarked, signed_iff fun _ h => h.unmarked]
  exact unsigned_iff ((signed_iff (fun _ h => h.unmarked) cs).mp h)

end Numeral

/-! ### Number blocks -/

open Numeral

namespace Literal

/-- The number that takes the place of what is none. -/
theorem unsigned_zero : Unsigned "0".toList :=
  .whole ⟨by decide, List.forall_mem_singleton.mpr (by decide)⟩
    fun _ => List.forall_mem_singleton.mpr rfl

theorem signed_spelled_number (typed : Option String) : Signed Spelled (number typed).toList := by
  have hzero : Signed Spelled "0".toList := .bare unsigned_zero.spelled
  cases typed with
  | none => exact hzero
  | some s =>
    rw [number]
    split
    case isFalse => exact hzero
    case isTrue h =>
      obtain ⟨n, hn⟩ := Double.numeral_of_readFinite? h
      rw [Text.trim, String.toList_ofList]
      exact signed_of_splitSign (spelled_of_parse? hn)

/-- Only zeros in front of what was typed keep it from being a number of the target language. -/
theorem signed_unsigned_number_iff (typed : Option String) :
    Signed Unsigned (number typed).toList ↔
      ∀ s, typed = some s → (Double.readFinite? s).isSome →
        ¬ Signed ZeroLed (Text.trimChars s.toList) := by
  have hzero : Signed Unsigned "0".toList := .bare unsigned_zero
  cases typed with
  | none => exact iff_of_true hzero fun s h => nomatch h
  | some s =>
    simp only [Option.some.injEq, forall_eq']
    by_cases h : (Double.readFinite? s).isSome
    · rw [signed_unsigned_iff (signed_spelled_number _), number, if_pos h, Text.trim,
        String.toList_ofList, imp_iff_right h]
    · rw [number, if_neg h]
      exact iff_of_true hzero fun hfinite => absurd hfinite h

end Literal

namespace Block

/-- **A number block is a number with a sign or without one, and one of the target language unless
it is a whole number with zeros in front.** Its digits, points and exponents stand where the target
language has them, whatever was typed or if nothing was. Zeros in front get into a program in one
way: they were typed, and what was typed is a finite number. -/
theorem signed_expression {b : Block} (hkind : b.kind = .number) (r : Registry) :
    Signed Spelled (b.expression r).toList ∧
      (Signed Unsigned (b.expression r).toList ↔
        ∀ typed, b.node.text? "NUM" = some typed → (Double.readFinite? typed).isSome →
          ¬ Signed ZeroLed (Text.trimChars typed.toList)) := by
  have hkind : b.node.kind = .number := hkind
  have htext : b.expression r = Literal.number (b.node.text? "NUM") := by
    rw [expression, Node.expression, hkind]
  rw [htext]
  exact ⟨Literal.signed_spelled_number _, Literal.signed_unsigned_number_iff _⟩

/-- A sign, a point without digits before it, an exponent, and white space around them. -/
theorem signed_expression_point :
    let b : Block := ⟨⟨⟨"n"⟩, .number, ⟨[("NUM", .text " -.5e3 ")]⟩⟩, .nil⟩
    b.kind = .number ∧ b.expression .empty = "-.5e3" ∧
      Signed Unsigned (b.expression .empty).toList := by
  refine ⟨rfl, by decide +kernel, (signed_expression rfl .empty).2.mpr ?_⟩
  intro typed htyped _ hled
  cases htyped
  exact absurd ((signed_iff (fun _ h => h.unmarked) _).mp hled).zero (by decide)

/-- Zeros in front of a number stay there. -/
theorem zeroLed_expression :
    let b : Block := ⟨⟨⟨"n"⟩, .number, ⟨[("NUM", .text "007")]⟩⟩, .nil⟩
    b.kind = .number ∧ b.expression .empty = "007" ∧
      ¬ Signed Unsigned (b.expression .empty).toList := by
  intro b
  have htext : b.expression .empty = "007" := by decide +kernel
  refine ⟨rfl, htext, fun hnumber => ?_⟩
  rw [htext, signed_iff fun _ h => h.spelled.unmarked] at hnumber
  cases hnumber with
  | whole _ hzero => exact absurd (hzero (by decide) '7' (by decide)) (by decide)
  | floating h =>
    obtain ⟨c, hc, hnot⟩ := h.exists_not_isDigit
    exact hnot (List.all_eq_true.mp (by decide : ['0', '0', '7'].all Text.isDigit) c hc)

end Block

end BlockProgram
