import BlockProgram.Proofs.Fresh
import BlockProgram.Proofs.Identifier
import Mathlib.Computability.RegularExpressions

/-!
# Identifiers are the strings of a pattern

The identifiers are the strings of the pattern `[A-Za-z_][A-Za-z0-9_]*`. The pattern is written here
as a regular expression: a range in brackets is the sum of its characters, a bracket the sum of its
ranges, and what a regular expression matches is the language that Mathlib gives to it. A bracket
matches single characters only (`OneOf`), so that a bracket with a star matches the strings that are
made of them.

Sanitizing is a projection onto the language of the pattern: it ends in the language, and the strings
of the language are its fixed points.
-/

namespace BlockProgram.Identifier

open RegularExpression (char star)

/-! ### The pattern -/

/-- `first-last`, in brackets: any character from the first to the last. -/
def range (first last : Char) : RegularExpression Char := ((first...=last).toList.map char).sum

/-- `[A-Za-z_]` -/
def headBracket : RegularExpression Char := range 'A' 'Z' + range 'a' 'z' + char '_'

/-- `[A-Za-z0-9_]` -/
def tailBracket : RegularExpression Char :=
  range 'A' 'Z' + range 'a' 'z' + range '0' '9' + char '_'

/-- `[A-Za-z_][A-Za-z0-9_]*` -/
def pattern : RegularExpression Char := headBracket * star tailBracket

/-! ### Brackets -/

/-- The expression matches the strings of one character that belongs to a class. -/
def OneOf (e : RegularExpression Char) (p : Char → Prop) : Prop :=
  ∀ cs, cs ∈ e.matches' ↔ ∃ c, p c ∧ cs = [c]

theorem oneOf_char (a : Char) : OneOf (char a) (· = a) := by
  intro cs
  constructor
  · intro h
    exact ⟨a, rfl, h⟩
  · rintro ⟨c, rfl, rfl⟩
    rfl

theorem OneOf.add {e f : RegularExpression Char} {p q : Char → Prop} (he : OneOf e p)
    (hf : OneOf f q) : OneOf (e + f) fun c => p c ∨ q c := by
  intro cs
  rw [RegularExpression.matches'_add, Language.mem_add, he cs, hf cs, ← exists_or]
  simp only [or_and_right]

/-- The class may be described in another way. -/
theorem OneOf.congr {e : RegularExpression Char} {p q : Char → Prop} (he : OneOf e p)
    (h : ∀ c, p c ↔ q c) : OneOf e q := by
  intro cs
  rw [he cs]
  simp only [h]

/-- A sum of characters. -/
theorem oneOf_sum (l : List Char) : OneOf (l.map char).sum (· ∈ l) := by
  induction l with
  | nil =>
    intro cs
    refine iff_of_false (Language.notMem_zero cs) ?_
    rintro ⟨c, hc, -⟩
    exact List.not_mem_nil hc
  | cons a l ih =>
    rw [List.map_cons, List.sum_cons]
    exact ((oneOf_char a).add ih).congr fun c => List.mem_cons.symm

theorem oneOf_range (first last : Char) :
    OneOf (range first last) fun c => first ≤ c ∧ c ≤ last :=
  (oneOf_sum _).congr fun c => by rw [Std.Rcc.mem_toList_iff_mem, Std.Rcc.mem_iff]

/-- With a star it matches the strings whose characters all belong to the class. -/
theorem OneOf.mem_star {e : RegularExpression Char} {p : Char → Prop} (he : OneOf e p)
    {cs : List Char} : cs ∈ (star e).matches' ↔ ∀ c ∈ cs, p c := by
  rw [RegularExpression.matches'_star, Language.mem_kstar]
  constructor
  · rintro ⟨pieces, rfl, hpieces⟩ c hc
    obtain ⟨piece, hpiece, hc⟩ := List.mem_flatten.mp hc
    obtain ⟨d, hd, rfl⟩ := (he piece).mp (hpieces piece hpiece)
    rwa [List.mem_singleton.mp hc]
  · intro h
    refine ⟨cs.map fun c => [c], ?_, fun piece hpiece => ?_⟩
    · rw [← List.flatMap_def, List.flatMap_singleton']
    · obtain ⟨c, hc, rfl⟩ := List.mem_map.mp hpiece
      exact (he [c]).mpr ⟨c, h c hc, rfl⟩

theorem oneOf_headBracket : OneOf headBracket fun c => isHead c :=
  (((oneOf_range 'A' 'Z').add (oneOf_range 'a' 'z')).add (oneOf_char '_')).congr fun c => by
    rw [isHead_iff, or_assoc]

theorem oneOf_tailBracket : OneOf tailBracket fun c => isTail c :=
  ((((oneOf_range 'A' 'Z').add (oneOf_range 'a' 'z')).add (oneOf_range '0' '9')).add
    (oneOf_char '_')).congr fun c => by
      rw [isTail_iff, isHead_iff, isDigit_iff, or_right_comm, or_assoc (c := c = '_')]

/-! ### The language -/

/-- The characters of an identifier are what the pattern matches. -/
theorem mem_pattern_iff {cs : List Char} : cs ∈ pattern.matches' ↔ accepts cs := by
  rw [pattern, RegularExpression.matches'_mul, Language.mem_mul, accepts_iff]
  constructor
  · rintro ⟨head, hhead, tail, htail, rfl⟩
    obtain ⟨c, hc, rfl⟩ := (oneOf_headBracket head).mp hhead
    exact ⟨c, tail, rfl, hc, oneOf_tailBracket.mem_star.mp htail⟩
  · rintro ⟨c, ds, rfl, hc, hds⟩
    exact ⟨[c], (oneOf_headBracket [c]).mpr ⟨c, hc, rfl⟩, ds, oneOf_tailBracket.mem_star.mpr hds,
      rfl⟩

/-! ### The projection -/

/-- Positions are told apart by the names that they give. -/
theorem fallback_injective : Function.Injective fallback := fun _ _ h =>
  Nat.succ_injective (Fresh.name_injective "var" h)

/-- The position matters exactly for a name that is missing or empty. -/
theorem sanitize_eq_sanitize_iff {name : Option String} {i j : Nat} :
    sanitize name i = sanitize name j ↔ i = j ∨ ∃ s, name = some s ∧ s ≠ "" := by
  cases name with
  | none => simp [fallback_injective.eq_iff]
  | some s =>
    by_cases hs : s = ""
    · simp [hs, fallback_injective.eq_iff]
    · simp [sanitize_of_ne_empty hs, hs]

/-- **Sanitizing is a projection onto the identifiers.** Whatever the name and the position are, an
identifier comes out; the names that are left as they are are the identifiers; sanitizing again, at
whatever position, changes nothing; and two positions give the same unless they differ and the name is
missing or empty. The identifiers are the strings of the pattern `[A-Za-z_][A-Za-z0-9_]*`. -/
theorem projection_sanitize (raw : Option String) (s : String) (i j : Nat) :
    isIdentifier (sanitize raw i) ∧
    (sanitize (some s) i = s ↔ isIdentifier s) ∧
    sanitize (some (sanitize raw i)) j = sanitize raw i ∧
    (sanitize raw i = sanitize raw j ↔ i = j ∨ ∃ t, raw = some t ∧ t ≠ "") ∧
    (isIdentifier s ↔ s.toList ∈ pattern.matches') := by
  have hidentifier : isIdentifier (sanitize raw i) := isIdentifier_sanitize raw i
  exact ⟨hidentifier, sanitize_eq_self_iff, sanitize_of_isIdentifier hidentifier j,
    sanitize_eq_sanitize_iff, mem_pattern_iff.symm⟩

end BlockProgram.Identifier
