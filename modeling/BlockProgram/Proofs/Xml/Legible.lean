import BlockProgram.Proofs.Xml.Tree

/-!
# Characters that no document may hold

In the first version, in which documents are written, the scanner stops at a character that a
document may not hold, whatever it is in the middle of. So only texts of characters that a document
may hold are read. What is written of a string shows all its characters, escaped or as they are, and
no character that a document may not hold is escaped.
-/

namespace BlockProgram.Xml

/-! ### The scanner stops -/

section Stops

variable {c : Char} (hc : isChar c = false)
include hc

theorem ne_of_isChar {d : Char} (hd : isChar d) : c ≠ d := by
  rintro rfl
  rw [hc] at hd
  cases hd

theorem not_isNameChar : isNameChar c = false := by
  have hle : ∀ a b : Char, a ≤ b ↔ a.toNat ≤ b.toNat := fun _ _ => Iff.rfl
  have heq : ∀ d : Char, c = d ↔ c.toNat = d.toNat := fun d => Char.toNat_inj.symm
  simp only [isChar, Bool.or_eq_false_iff, Bool.and_eq_false_iff, beq_eq_false_iff_ne,
    decide_eq_false_iff_not] at hc
  rw [Bool.eq_false_iff]
  simp only [ne_eq, isNameChar, isNameHead, Bool.or_eq_true, Bool.and_eq_true, beq_iff_eq,
    decide_eq_true_eq, hle, heq, Char.reduceToNat]
  omega

theorem not_isSpace : isSpace c = false := by
  simp [isSpace, ne_of_isChar hc (by decide : isChar ' '), ne_of_isChar hc (by decide : isChar '\t'),
    ne_of_isChar hc (by decide : isChar '\n'), ne_of_isChar hc (by decide : isChar '\r')]

theorem opened?_eq_none (seen : List Char) : Section.opened? (seen ++ [c]) = none := by
  have hnone : [Section.comment, Section.data].find?
      (fun s => (seen ++ [c]).isPrefixOf s.opening) = none := by
    rw [List.find?_eq_none]
    intro s _ hprefix
    have hmem : c ∈ s.opening :=
      (List.isPrefixOf_iff_prefix.mp hprefix).subset (by simp)
    have hopening : s.opening.all isChar := by cases s <;> rfl
    exact ne_of_isChar hc (List.all_eq_true.mp hopening c hmem) rfl
  rw [Section.opened?, hnone]

/-- In a value the scanner stops. -/
theorem ValueMode.step_eq_none (m : ValueMode) (value : List Char) :
    m.step .first value c = none := by
  have hne := @ne_of_isChar c hc
  cases m with
  | plain => simp [step, hc, hne (by decide : isChar '<'), hne (by decide : isChar '&')]
  | reference name =>
    simp [step, not_isNameChar hc, hne (by decide : isChar ';'), hne (by decide : isChar '#')]
  | markup => simp [step, hne (by decide : isChar '/'), hne (by decide : isChar '!')]
  | bang seen => simp [step, opened?_eq_none hc]
  | comment dashes => simp [step, hc, hne (by decide : isChar '>')]
  | data brackets => simp [step, hc, hne (by decide : isChar '>')]

end Stops

/-- The quotation mark that ends the value of an attribute, where the scanner is in one. -/
def Mode.quote? : Mode → Option Char
  | .attrValue _ _ quote _ _ => some quote
  | _ => none

/-- **The scanner stops at a character that no document may hold.** -/
theorem Mode.step_eq_none {c : Char} (hc : isChar c = false) {m : Mode}
    (hm : ∀ q ∈ m.quote?, isChar q) : m.step .first c = none := by
  have hne := @ne_of_isChar c hc
  have hname := not_isNameChar hc
  have hspace := not_isSpace hc
  have hclose := hne (by decide : isChar '>')
  have hslash := hne (by decide : isChar '/')
  have hequals := hne (by decide : isChar '=')
  have hhead : isNameHead c = false := by
    rw [Bool.eq_false_iff]
    intro h
    rw [isNameChar_of_isNameHead h] at hname
    cases hname
  cases m with
  | text brackets => simp [step, hc, hne (by decide : isChar '<'), hne (by decide : isChar '&')]
  | reference name =>
    simp [step, hname, hne (by decide : isChar ';'), hne (by decide : isChar '#')]
  | markup =>
    simp [step, hhead, hslash, hne (by decide : isChar '!'), hne (by decide : isChar '?')]
  | bang seen => simp [step, opened?_eq_none hc]
  | comment body dashes => simp [step, hc, hclose]
  | data body brackets => simp [step, hc, hclose]
  | target name => simp [step, hspace, hname, hhead, hne (by decide : isChar '?')]
  | targetEnd name => simp [step, hclose]
  | instruction goal body mark => simp [step, hc, hclose]
  | closeName name => simp [step, hclose, hspace, hname]
  | closeEnd name => simp [step, hclose, hspace]
  | openName name => simp [step, hclose, hslash, hspace, hname]
  | tag t spaced => simp [step, hclose, hslash, hspace, hhead]
  | attrName t name => simp [step, hequals, hspace, hname]
  | attrEquals t name => simp [step, hequals, hspace]
  | attrQuote t name =>
    simp [step, hspace, hne (by decide : isChar '"'), hne (by decide : isChar '\'')]
  | attrValue t name quote value mode =>
    simp [step, hne (hm quote rfl), ValueMode.step_eq_none hc]
  | slash t => simp [step, hclose]

/-- A value ends in a quotation mark that a document may hold. -/
theorem Mode.isChar_quote {m m' : Mode} {c : Char} {t : Option Token}
    (hm : ∀ q ∈ m.quote?, isChar q) (h : m.step .first c = some (m', t)) :
    ∀ q ∈ m'.quote?, isChar q := by
  have hopen {m : Mode} (hm : m.quote? = none) : ∀ q ∈ m.quote?, isChar q := by simp [hm]
  cases m with
  | bang seen =>
    obtain ⟨s, -, hs⟩ := Option.map_eq_some_iff.mp h
    cases hs
    cases s with
    | none => exact hopen rfl
    | some s => cases s <;> exact hopen rfl
  | attrQuote tag name =>
    rw [step] at h
    split at h
    · rename_i hquote
      cases h
      rintro q ⟨⟩
      rcases (by simpa using hquote : c = '"' ∨ c = '\'') with rfl | rfl <;> decide
    · split at h <;> cases h
      exact hopen rfl
  | attrValue tag name quote value mode =>
    rw [step] at h
    split at h
    · cases h
      exact hopen rfl
    · obtain ⟨p, -, hp⟩ := Option.map_eq_some_iff.mp h
      cases hp
      exact hm
  | _ => grind [Mode.step, Mode.quote?, Option.map_eq_some_iff]

/-- A step of the scanner takes a character that a document may hold. -/
theorem Scanner.isChar_of_step {s s' : Scanner} {c : Char} (hs : ∀ q ∈ s.mode.quote?, isChar q)
    (h : s.step .first c = some s') : isChar c ∧ ∀ q ∈ s'.mode.quote?, isChar q := by
  obtain ⟨⟨m, t⟩, hstep, rfl⟩ := Option.map_eq_some_iff.mp h
  refine ⟨?_, Mode.isChar_quote hs hstep⟩
  by_contra hc
  rw [Mode.step_eq_none (by simpa using hc) hs] at hstep
  cases hstep

/-- **What is made of tokens has only characters that a document may hold.** -/
theorem isChar_of_tokens? {cs : List Char} {ts : List Token} (h : tokens? .first cs = some ts) :
    ∀ c ∈ cs, isChar c := by
  obtain ⟨s, hs, -⟩ := Option.bind_eq_some_iff.mp h
  have hstart : ∀ q ∈ (Mode.text 0).quote?, isChar q := fun q hq => by cases hq
  refine (Text.run_invariant (P := fun s => ∀ q ∈ s.mode.quote?, isChar q) ?_ hstart hs).1
  exact fun _ _ _ => Scanner.isChar_of_step

/-! ### Every string is shown -/

theorem all_escapeText (c : Char) : (escapeText c).all isChar = isChar c := by
  unfold escapeText
  split
  case h_4 => simp
  all_goals decide

theorem all_escapeValue (c : Char) : (escapeValue c).all isChar = isChar c := by
  unfold escapeValue
  split
  case h_5 => exact all_escapeText c
  all_goals decide

@[simp] theorem isText_textChars (s : String) : isText (textChars s) = isText s := by
  simp [isText, textChars, List.all_flatMap, all_escapeText]

@[simp] theorem isText_valueChars (s : String) : isText (valueChars s) = isText s := by
  simp [isText, valueChars, List.all_flatMap, all_escapeValue]

theorem isText_of_headText {name : String} {attributes : List (String × String)}
    (h : isText (headText name attributes)) : ∀ a ∈ attributes, isText a.2 := by
  simp only [headText, isText_append, Bool.and_eq_true] at h
  replace h := h.2
  induction attributes with
  | nil => exact fun a ha => absurd ha List.not_mem_nil
  | cons a attributes ih =>
    simp only [List.map_cons, String.join_cons, attributeText, isText_append, isText_valueChars,
      Bool.and_eq_true] at h
    exact List.forall_mem_cons.mpr ⟨h.1.1.2, ih h.2⟩

namespace Markup

/-- All values and texts are such as a document may hold. -/
def Legible : Markup → Prop
  | nil => True
  | text _ attributes content rest =>
    (∀ a ∈ attributes, isText a.2) ∧ isText content ∧ rest.Legible
  | element _ attributes children rest =>
    (∀ a ∈ attributes, isText a.2) ∧ children.Legible ∧ rest.Legible

theorem legible_of_print {m : Markup} {level : Nat} (h : isText (m.print level)) : m.Legible := by
  induction m generalizing level with
  | nil => trivial
  | text name attributes content rest ih =>
    simp only [print, isText_append, isText_textChars, Bool.and_eq_true] at h
    obtain ⟨⟨⟨⟨⟨-, hhead⟩, -⟩, hcontent⟩, -⟩, hrest⟩ := h
    exact ⟨isText_of_headText hhead, hcontent, ih hrest⟩
  | element name attributes children rest ihc ihr =>
    simp only [print, isText_append, Bool.and_eq_true] at h
    obtain ⟨⟨⟨-, hhead⟩, hchildren⟩, hrest⟩ := h
    refine ⟨isText_of_headText hhead, ?_, ihr hrest⟩
    cases children with
    | nil => trivial
    | _ =>
      simp only [isNil, Bool.false_eq_true, if_false, isText_append, Bool.and_eq_true] at hchildren
      exact ihc hchildren.1.1.1.2

theorem legible_of_document {name : String} {children : Markup}
    (h : isText (document name children)) : children.Legible := by
  rw [document, isText_append, Bool.and_eq_true] at h
  cases children with
  | nil => trivial
  | _ =>
    simp only [isNil, Bool.false_eq_true, if_false, isText_append, Bool.and_eq_true] at h
    exact legible_of_print h.2.1.1.2

/-- **What was written is read only if it is legible.** -/
theorem legible_of_root? {name : String} (hname : isSimple name) {children : Markup}
    {root : Tag × Content Tag} (h : root? (document name children) = some root) :
    children.Legible := by
  obtain ⟨content, hcontent, -⟩ := Option.bind_eq_some_iff.mp h
  simp only [content?, source?_document hname, Option.bind_eq_bind, Option.bind_some,
    Option.bind_eq_some_iff] at hcontent
  obtain ⟨ts, hts, -⟩ := hcontent
  exact legible_of_document (List.all_eq_true.mpr (isChar_of_tokens? hts))

end Markup

end BlockProgram.Xml
