import BlockProgram.Code.Literal

/-!
# Texts are read back from their quotes

A reader that takes a text in double quotes from the left, one character at a time, comes to the end
of it where its closing quote was written, whatever follows, and has by then the text that was put
in quotes. It knows a handful of escapes and takes every other character for itself. So texts in
quotes are told apart, and no text, whatever backslashes and quotes it holds or ends in, closes its
own quotes before their end. What stands between the quotes is free of control characters.
-/

namespace BlockProgram.Literal

/-! ### The reader -/

/-- Where in a quoted text a reader is. -/
inductive Place where
  /-- Before a character of the text. -/
  | plain
  /-- After a backslash. -/
  | escape
  /-- After a backslash and an `x`. -/
  | number
  /-- After the first of two hexadecimal digits, which has a value. -/
  | digit (high : Nat)
  deriving DecidableEq, Repr

/-- What a character does to a reader. -/
inductive Move where
  /-- It closes the text. -/
  | close
  /-- It takes the reader to another place, and may complete a character of the text. -/
  | advance (place : Place) (completed : Option Char)
  deriving DecidableEq, Repr

/-- The characters that are read from a backslash and one more character. -/
def escapes : List (Char × Char) :=
  [('\\', '\\'), ('"', '"'), ('n', '\n'), ('r', '\r'), ('t', '\t')]

/-- One character more; none if it does not belong there. -/
def Place.move : Place → Char → Option Move
  | plain, c =>
    some (if c = '"' then .close
      else if c = '\\' then .advance escape none
      else .advance plain (some c))
  | escape, c =>
    if c = 'x' then some (.advance number none)
    else (escapes.lookup c).map fun d => .advance plain (some d)
  | number, c => (Text.hexDigitValue? c).map fun high => .advance (digit high) none
  | digit high, c =>
    (Text.hexDigitValue? c).map fun low => .advance plain (some (Char.ofNat (16 * high + low)))

theorem move_backslash : Place.plain.move '\\' = some (.advance .escape none) := rfl

theorem move_x : Place.escape.move 'x' = some (.advance .number none) := rfl

/-- What is read up to the closing quote, and what follows it. -/
def readFrom (place : Place) : List Char → Option (List Char × List Char)
  | [] => none
  | c :: cs =>
    match place.move c with
    | none => none
    | some .close => some ([], cs)
    | some (.advance place completed) =>
      (readFrom place cs).map (Prod.map (completed.toList ++ ·) id)

/-- The text in double quotes at the head of program text, and what follows it. -/
def read? : List Char → Option (String × List Char)
  | '"' :: cs => (readFrom .plain cs).map (Prod.map String.ofList id)
  | _ => none

/-- A character that completes nothing leaves what is read as it is. -/
theorem readFrom_pending {place next : Place} {c : Char}
    (h : place.move c = some (.advance next none)) (cs : List Char) :
    readFrom place (c :: cs) = readFrom next cs := by
  simp only [readFrom, h]
  exact congrFun Option.map_id (readFrom next cs)

/-- A character that completes one puts it in front of what is read. -/
theorem readFrom_completed {place next : Place} {c d : Char}
    (h : place.move c = some (.advance next (some d))) (cs : List Char) :
    readFrom place (c :: cs) = (readFrom next cs).map (Prod.map (d :: ·) id) := by
  simp only [readFrom, h]
  rfl

/-- Nothing behind the closing quote is looked at. -/
theorem readFrom_append {place : Place} {cs text rest : List Char}
    (h : readFrom place cs = some (text, rest)) (more : List Char) :
    readFrom place (cs ++ more) = some (text, rest ++ more) := by
  induction cs generalizing place text with
  | nil => cases h
  | cons c cs ih =>
    rw [List.cons_append]
    unfold readFrom at h ⊢
    cases hmove : place.move c with
    | none => simp only [hmove] at h; cases h
    | some move =>
      simp only [hmove] at h ⊢
      cases move with
      | close =>
        cases h
        rfl
      | advance next completed =>
        obtain ⟨⟨tail, after⟩, hread, heq⟩ := Option.map_eq_some_iff.mp h
        cases heq
        simp only [ih hread]
        rfl

theorem read?_append {cs rest : List Char} {s : String} (h : read? cs = some (s, rest))
    (more : List Char) : read? (cs ++ more) = some (s, rest ++ more) := by
  unfold read? at h
  split at h
  · rename_i cs
    obtain ⟨⟨text, after⟩, hread, heq⟩ := Option.map_eq_some_iff.mp h
    cases heq
    rw [List.cons_append]
    simp only [read?, readFrom_append hread]
    rfl
  · cases h

/-! ### What is written -/

theorem toNat_lt_of_isControl {c : Char} (h : isControl c) : c.toNat < 256 := by
  simp only [isControl, Bool.or_eq_true, decide_eq_true_eq] at h
  omega

/-- The two digits of a byte are read as its number. -/
theorem readFrom_hexByte {n : Nat} (h : n < 256) (rest : List Char) :
    readFrom .number (Text.hexByte n ++ rest) =
      (readFrom .plain rest).map (Prod.map (Char.ofNat n :: ·) id) := by
  have hhigh : Place.number.move (n / 16).digitChar = some (.advance (.digit (n / 16)) none) := by
    simp only [Place.move, Text.hexDigitValue?_digitChar (n := n / 16) (by omega), Option.map_some]
  have hlow : (Place.digit (n / 16)).move (n % 16).digitChar =
      some (.advance .plain (some (Char.ofNat n))) := by
    simp only [Place.move, Text.hexDigitValue?_digitChar (n := n % 16) (by omega),
      Option.map_some, Nat.div_add_mod]
  rw [Text.hexByte, List.cons_append, List.cons_append, List.nil_append, readFrom_pending hhigh,
    readFrom_completed hlow]

/-- A backslash and the character that is written behind it are read as what they stand for. -/
theorem readFrom_backslash {c d : Char} (h : escapes.lookup c = some d) (hx : c ≠ 'x')
    (rest : List Char) :
    readFrom .plain ('\\' :: c :: rest) =
      (readFrom .plain rest).map (Prod.map (d :: ·) id) := by
  have hmove : Place.escape.move c = some (.advance .plain (some d)) := by
    simp only [Place.move, if_neg hx, h, Option.map_some]
  rw [readFrom_pending move_backslash, readFrom_completed hmove]

/-- What stands for a character in quotes is read as that character. -/
theorem readFrom_escape (c : Char) (rest : List Char) :
    readFrom .plain (escape c ++ rest) =
      (readFrom .plain rest).map (Prod.map (c :: ·) id) := by
  unfold escape
  split
  case h_6 hslash hquote _ _ _ =>
    split
    case isTrue hcontrol =>
      have hbyte := toNat_lt_of_isControl hcontrol
      rw [List.cons_append, List.cons_append, readFrom_pending move_backslash,
        readFrom_pending move_x, readFrom_hexByte hbyte, Char.ofNat_toNat]
    case isFalse =>
      have hmove : Place.plain.move c = some (.advance .plain (some c)) := by
        simp only [Place.move, if_neg hquote, if_neg hslash]
      exact readFrom_completed hmove rest
  -- the remaining cases are the characters with an escape of their own
  all_goals exact readFrom_backslash (by decide) (by decide) rest

/-- What stands for a text in quotes is read as that text, up to the quote that follows it. -/
theorem readFrom_flatMap_escape (text rest : List Char) :
    readFrom .plain (text.flatMap escape ++ '"' :: rest) = some (text, rest) := by
  induction text with
  | nil => rfl
  | cons c text ih =>
    rw [List.flatMap_cons, List.append_assoc, readFrom_escape, ih]
    rfl

/-- A text in quotes is read as that text, and nothing of what follows is. -/
theorem read?_quote_append (s : String) (rest : List Char) :
    read? ((quote s).toList ++ rest) = some (s, rest) := by
  rw [quote, String.toList_ofList, quoteChars, List.cons_append, List.append_assoc]
  simp only [read?, List.singleton_append, readFrom_flatMap_escape, Option.map_some]
  rw [Prod.map_apply, String.ofList_toList]
  rfl

theorem isControl_digitChar {n : Nat} (h : n < 16) : isControl n.digitChar = false := by
  revert n
  decide

/-- A control character goes into quotes as its number, so none goes there as itself. -/
theorem isControl_of_mem_escape {c d : Char} (h : d ∈ escape c) : isControl d = false := by
  unfold escape at h
  split at h
  case h_6 =>
    split at h
    case isTrue hcontrol =>
      have hbyte := toNat_lt_of_isControl hcontrol
      simp only [Text.hexByte, List.mem_cons, List.not_mem_nil, or_false] at h
      rcases h with rfl | rfl | rfl | rfl
      · decide
      · decide
      · exact isControl_digitChar (by omega)
      · exact isControl_digitChar (by omega)
    case isFalse hplain =>
      rw [List.mem_singleton.mp h]
      exact Bool.eq_false_iff.mpr hplain
  all_goals
    simp only [List.mem_cons, List.not_mem_nil, or_false] at h
    rcases h with rfl | rfl <;> decide

theorem isControl_of_mem_quote {s : String} {c : Char} (h : c ∈ (quote s).toList) :
    isControl c = false := by
  simp only [quote, String.toList_ofList, quoteChars, List.mem_cons, List.mem_append,
    List.mem_flatMap, List.not_mem_nil, or_false] at h
  obtain rfl | ⟨d, -, hd⟩ | rfl := h
  · decide
  · exact isControl_of_mem_escape hd
  · decide

/-- Two texts in quotes with something behind each that look alike are alike. -/
theorem eq_of_quote_append {s t : String} {left right : List Char}
    (h : (quote s).toList ++ left = (quote t).toList ++ right) : s = t ∧ left = right := by
  have hread := read?_quote_append s left
  rw [h, read?_quote_append] at hread
  cases hread
  exact ⟨rfl, rfl⟩

/-- A part of a text in quotes that ends before its closing quote is not read as a text. -/
theorem read?_eq_none_of_append {s : String} {before after : List Char}
    (h : before ++ after = (quote s).toList) (hafter : after ≠ []) : read? before = none := by
  cases hread : read? before with
  | none => rfl
  | some result =>
    obtain ⟨text, rest⟩ := result
    have hmore := read?_append hread after
    rw [h, ← List.append_nil (quote s).toList, read?_quote_append] at hmore
    cases hrest : rest ++ after with
    | nil => exact absurd (List.append_eq_nil_iff.mp hrest).2 hafter
    | cons c cs =>
      rw [hrest] at hmore
      cases hmore

/-- **A text in quotes is read back**: read with anything behind it, it ends where its closing quote
was written and gives the text that was put in quotes, and nothing that ends earlier is a text in
quotes at all. It holds no control character. So different texts differ in quotes. -/
theorem read?_quote (s : String) :
    (∀ rest, read? ((quote s).toList ++ rest) = some (s, rest)) ∧
    (∀ c ∈ (quote s).toList, isControl c = false) ∧
    (∀ before after, before ++ after = (quote s).toList → after ≠ [] → read? before = none) ∧
    ∀ t, quote t = quote s → t = s := by
  refine ⟨read?_quote_append s, fun c hc => isControl_of_mem_quote hc,
    fun before after h hafter => read?_eq_none_of_append h hafter, ?_⟩
  intro t h
  have hends : (quote t).toList ++ [] = (quote s).toList ++ [] := by rw [h]
  exact (eq_of_quote_append hends).1

/-- A quote that follows a backslash stays in the text, and a digit that follows a number is not
taken for a part of it. -/
example : read? ['"', '\\', '\\', '\\', '"', '\\', 'x', '0', '1', 'f', '"', '+'] =
    some ("\\\"\x01f", ['+']) := by decide

end BlockProgram.Literal
