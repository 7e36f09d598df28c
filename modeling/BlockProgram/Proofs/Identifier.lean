import BlockProgram.Identifier

/-!
# Sanitizing makes identifiers

Whatever name is sanitized, at whatever position, the result is an identifier, and a name
that is one already is left as it is. Both rest on one description of the identifiers, a
character that may lead and then characters that may follow (`accepts_iff`).
-/

namespace BlockProgram.Identifier

/-! ### Characters -/

/-- What may lead is a letter or an underscore. -/
theorem isHead_iff {c : Char} :
    isHead c ↔ ('A' ≤ c ∧ c ≤ 'Z') ∨ ('a' ≤ c ∧ c ≤ 'z') ∨ c = '_' := by
  have hupper : c.isUpper = decide ('A' ≤ c ∧ c ≤ 'Z') := rfl
  have hlower : c.isLower = (decide ('a' ≤ c) && decide (c ≤ 'z')) := rfl
  have halpha : c.isAlpha = (c.isUpper || c.isLower) := rfl
  simp only [isHead, halpha, hupper, hlower, Bool.or_eq_true, Bool.and_eq_true, decide_eq_true_eq,
    beq_iff_eq, or_assoc]

theorem isDigit_iff {c : Char} : c.isDigit ↔ '0' ≤ c ∧ c ≤ '9' := by
  simp only [Char.isDigit, Bool.and_eq_true, decide_eq_true_eq, ge_iff_le, Char.le_def]

/-- What may follow may lead or is a digit. -/
theorem isTail_iff {c : Char} : isTail c ↔ isHead c ∨ c.isDigit := by
  simp only [isTail, isHead, Char.isAlphanum, Bool.or_eq_true, or_right_comm]

theorem isTail_of_isHead {c : Char} (h : isHead c) : isTail c := isTail_iff.mpr (Or.inl h)

theorem isTail_of_isDigit {c : Char} (h : c.isDigit) : isTail c := isTail_iff.mpr (Or.inr h)

/-- What may follow and is no digit may lead. -/
theorem isHead_of_isTail {c : Char} (h : isTail c) (hd : c.isDigit = false) : isHead c :=
  (isTail_iff.mp h).resolve_right (by simp [hd])

/-- What may lead is no digit. -/
theorem isDigit_of_isHead {c : Char} (h : isHead c) : c.isDigit = false := by
  rw [Bool.eq_false_iff]
  intro hd
  -- the digits come before the letters and the underscore
  have hnine : c ≤ '9' := (isDigit_iff.mp hd).2
  rcases isHead_iff.mp h with ⟨h, -⟩ | ⟨h, -⟩ | rfl
  · exact absurd (Char.le_trans h hnine) (by decide)
  · exact absurd (Char.le_trans h hnine) (by decide)
  · exact absurd hnine (by decide)

theorem isTail_mask (c : Char) : isTail (mask c) := by
  unfold mask
  split
  · assumption
  · decide

theorem mask_of_isTail {c : Char} (h : isTail c) : mask c = c := if_pos h

/-! ### Identifiers -/

/-- An identifier is a character that may lead and any number that may follow. -/
theorem accepts_iff {cs : List Char} :
    accepts cs ↔ ∃ c ds, cs = c :: ds ∧ isHead c ∧ ∀ d ∈ ds, isTail d := by
  constructor
  · intro h
    cases cs with
    | nil => cases h
    | cons c ds =>
      obtain ⟨hc, hds⟩ := Bool.and_eq_true_iff.mp h
      exact ⟨c, ds, rfl, hc, List.all_eq_true.mp hds⟩
  · rintro ⟨c, ds, rfl, hc, hds⟩
    exact Bool.and_eq_true_iff.mpr ⟨hc, List.all_eq_true.mpr hds⟩

/-- Every character of an identifier may follow. -/
theorem isTail_of_isIdentifier {s : String} (h : isIdentifier s) : ∀ c ∈ s.toList, isTail c := by
  obtain ⟨c, ds, hs, hc, hds⟩ := accepts_iff.mp h
  rw [hs]
  exact List.forall_mem_cons.mpr ⟨isTail_of_isHead hc, hds⟩

/-- An identifier with a number after it is an identifier. -/
theorem isIdentifier_append_toString {stem : String} (h : isIdentifier stem) (n : Nat) :
    isIdentifier (stem ++ toString n) := by
  obtain ⟨c, ds, hstem, hc, hds⟩ := accepts_iff.mp h
  refine accepts_iff.mpr ⟨c, ds ++ Nat.toDigits 10 n, ?_, hc, fun d hd => ?_⟩
  · rw [String.toList_append, hstem, Nat.toString_eq_repr, Nat.toList_repr, List.cons_append]
  · rcases List.mem_append.mp hd with hd | hd
    · exact hds d hd
    · exact isTail_of_isDigit (Nat.isDigit_of_mem_toDigits (by decide) (by decide) hd)

theorem isIdentifier_fallback (index : Nat) : isIdentifier (fallback index) :=
  isIdentifier_append_toString (by decide) (index + 1)

/-- A run of characters that may follow is an identifier once a leading digit is guarded. -/
theorem accepts_guardDigit {cs : List Char} (hne : cs ≠ []) (h : ∀ c ∈ cs, isTail c) :
    accepts (guardDigit cs) := by
  cases cs with
  | nil => exact absurd rfl hne
  | cons c cs =>
    obtain ⟨hc, hcs⟩ := List.forall_mem_cons.mp h
    rw [guardDigit]
    split
    · exact accepts_iff.mpr ⟨'_', c :: cs, rfl, by decide, h⟩
    · rename_i hd
      exact accepts_iff.mpr ⟨c, cs, rfl, isHead_of_isTail hc (by simpa using hd), hcs⟩

/-! ### Sanitizing -/

/-- The position is looked at only for a name that is missing or empty. -/
theorem sanitize_of_ne_empty {s : String} (h : s ≠ "") (index : Nat) :
    sanitize (some s) index = String.ofList (guardDigit (s.toList.map mask)) := by
  have hne : s.isEmpty = false := by simpa using h
  rw [sanitize, hne]
  rfl

/-- **What is sanitized is an identifier.** -/
theorem isIdentifier_sanitize (name : Option String) (index : Nat) :
    isIdentifier (sanitize name index) := by
  cases name with
  | none => exact isIdentifier_fallback index
  | some s =>
    by_cases hs : s = ""
    · rw [hs]
      exact isIdentifier_fallback index
    · have hne : s.toList.map mask ≠ [] := by simpa using hs
      rw [sanitize_of_ne_empty hs, isIdentifier, String.toList_ofList]
      refine accepts_guardDigit hne fun c hc => ?_
      obtain ⟨d, -, rfl⟩ := List.mem_map.mp hc
      exact isTail_mask d

/-- **An identifier is left as it is.** -/
theorem sanitize_of_isIdentifier {s : String} (h : isIdentifier s) (index : Nat) :
    sanitize (some s) index = s := by
  have hmask : s.toList.map mask = s.toList :=
    (List.map_congr_left fun c hc => mask_of_isTail (isTail_of_isIdentifier h c hc)).trans
      (List.map_id' s.toList)
  obtain ⟨c, cs, hs, hc, -⟩ := accepts_iff.mp h
  have hguard : guardDigit s.toList = s.toList := by
    rw [hs, guardDigit, isDigit_of_isHead hc]
    rfl
  have hne : s ≠ "" := by
    rintro rfl
    cases hs
  rw [sanitize_of_ne_empty hne, hmask, hguard, String.ofList_toList]

/-- What is left as it is are the identifiers, and nothing else. -/
theorem sanitize_eq_self_iff {s : String} {index : Nat} :
    sanitize (some s) index = s ↔ isIdentifier s :=
  ⟨fun h => h ▸ isIdentifier_sanitize (some s) index, fun h => sanitize_of_isIdentifier h index⟩

end BlockProgram.Identifier
