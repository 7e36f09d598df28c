import BlockProgram.Host.Channel
import BlockProgram.Proofs.Code.Nesting

/-!
# Messages as lines

A program and a document have many lines, and a message has to be one. That rests on how strings
are quoted: no quoted string has a line feed in it, and the scanner reads every one back, whatever
its characters are. So a message is read back from its line, and messages that are written one
after the other are told apart by the line feeds between them.
-/

namespace BlockProgram

namespace Json

/-! ### Quoted strings -/

/-- The four digits of a control character are read as its number. -/
theorem hexValue?_hexByte {n : Nat} (h : n < 0x20) :
    Text.hexValue? ('0' :: '0' :: Text.hexByte n) = some n := by
  revert n
  decide

/-- An escape by number of a control character is read as that character. -/
theorem run_escape_number (cs : List Char) (tokens : List Token) {c : Char} (h : c.toNat < 0x20) :
    Text.run Scanner.step ⟨.string cs, tokens⟩ ('\\' :: 'u' :: '0' :: '0' :: Text.hexByte c.toNat) =
      some ⟨.string (c :: cs), tokens⟩ := by
  have hfirst := Text.hexDigitValue?_digitChar (n := c.toNat / 16) (by omega)
  have hzero : Text.hexDigitValue? '0' = some 0 := by decide
  have hmode : afterDigits? cs none c.toNat = some (.string (c :: cs)) := by
    rw [afterDigits?, Char.ofNat_toNat]
    simp only [Bool.and_eq_true, decide_eq_true_eq]
    rw [if_neg (by omega), if_neg (by omega)]
  have hvalue := hexValue?_hexByte h
  rw [Text.hexByte] at hvalue
  simp [Scanner.step, Mode.step, Text.hexByte, hzero, hfirst, hvalue, hmode]

/-- What stands for a character in a quoted string is read as that character. -/
theorem run_escape (cs : List Char) (tokens : List Token) (c : Char) :
    Text.run Scanner.step ⟨.string cs, tokens⟩ (escape c) = some ⟨.string (c :: cs), tokens⟩ := by
  unfold escape
  split
  case h_8 _ hquote hslash _ _ _ _ _ =>
    split
    · exact run_escape_number cs tokens ‹_›
    · rename_i hcontrol
      simp only [Text.run_cons, Scanner.step, Mode.step]
      rw [if_neg hquote, if_neg hslash, if_neg hcontrol]
      rfl
  all_goals rfl

theorem run_flatMap_escape (cs : List Char) (tokens : List Token) (text : List Char) :
    Text.run Scanner.step ⟨.string cs, tokens⟩ (text.flatMap escape) =
      some ⟨.string (text.reverse ++ cs), tokens⟩ := by
  induction text generalizing cs with
  | nil => rfl
  | cons c text ih =>
    rw [List.flatMap_cons, Text.run_append, run_escape, Option.bind_some, ih]
    simp

/-- **A quoted string is read back**, whatever its characters are. -/
theorem run_quote (tokens : List Token) (s : String) :
    Text.run Scanner.step ⟨.gap, tokens⟩ (quote s).toList = some ⟨.gap, .string s :: tokens⟩ := by
  have hopen : ∀ rest, Text.run Scanner.step ⟨.gap, tokens⟩ ('"' :: rest) =
      Text.run Scanner.step ⟨.string [], tokens⟩ rest := fun rest => rfl
  rw [quote, String.toList_ofList, hopen, Text.run_append, run_flatMap_escape]
  simp [Scanner.step, Mode.step]

theorem unbroken_escape (c : Char) : '\n' ∉ escape c := by
  unfold escape
  split
  case h_8 _ _ _ _ _ hfeed _ _ =>
    split
    · simp [Text.hexByte]
    · simpa using Ne.symm hfeed
  all_goals decide

/-- A quoted string is always on one line. -/
theorem unbroken_quote (s : String) : '\n' ∉ (quote s).toList := by
  simp [quote, unbroken_escape]

/-! ### Pieces -/

/-- A mark or a string: the pieces that messages are made of. -/
def Token.isPlain : Token → Bool
  | .mark c => isMark c
  | .string _ => true
  | _ => false

/-- How a mark or a string is written. -/
def Token.written : Token → List Char
  | .mark c => [c]
  | .string s => (quote s).toList
  | _ => []

theorem run_written {t : Token} (h : t.isPlain) (tokens : List Token) :
    Text.run Scanner.step ⟨.gap, tokens⟩ t.written = some ⟨.gap, t :: tokens⟩ := by
  cases t with
  | mark c =>
    simp only [Token.isPlain, isMark, Bool.or_eq_true, beq_iff_eq] at h
    obtain ((((rfl | rfl) | rfl) | rfl) | rfl) | rfl := h <;> rfl
  | string s => exact run_quote tokens s
  | number value => cases h
  | bool value => cases h
  | null => cases h

theorem run_flatMap_written {pieces : List Token} (h : ∀ t ∈ pieces, t.isPlain)
    (tokens : List Token) :
    Text.run Scanner.step ⟨.gap, tokens⟩ (pieces.flatMap Token.written) =
      some ⟨.gap, pieces.reverse ++ tokens⟩ := by
  induction pieces generalizing tokens with
  | nil => rfl
  | cons t pieces ih =>
    obtain ⟨ht, hpieces⟩ := List.forall_mem_cons.mp h
    rw [List.flatMap_cons, Text.run_append, run_written ht, Option.bind_some, ih hpieces]
    simp

/-- Marks and strings that are written one after the other are scanned as such. -/
theorem tokens?_written {pieces : List Token} (h : ∀ t ∈ pieces, t.isPlain) :
    tokens? (pieces.flatMap Token.written) = some pieces := by
  rw [tokens?, run_flatMap_written h]
  simp [Scanner.finish]

theorem unbroken_written {t : Token} (h : t.isPlain) : '\n' ∉ t.written := by
  cases t with
  | mark c =>
    intro hmem
    obtain rfl := List.mem_singleton.mp hmem
    cases h
  | string s => exact unbroken_quote s
  | number value => cases h
  | bool value => cases h
  | null => cases h

end Json

namespace HostMessage

open Json (Token)

/-- The pieces of a message. -/
def tokens (m : HostMessage) : List Token :=
  let (tag, name, value) := m.parts
  [.mark '\x7b', .string "type", .mark ':', .string tag, .mark ',', .string name, .mark ':',
    .string value, .mark '\x7d']

theorem isPlain_of_mem_tokens (m : HostMessage) : ∀ t ∈ m.tokens, t.isPlain := by
  simp [tokens, Token.isPlain, Json.isMark]

theorem toList_json (m : HostMessage) : m.json.toList = m.tokens.flatMap Token.written := by
  have htype : ("\x7b\"type\":" : String).toList =
      '\x7b' :: ((Json.quote "type").toList ++ [':']) := by decide
  simp [json, tokens, Token.written, htype]

/-- **A message is read back from its text.** -/
theorem parse?_json (m : HostMessage) : parse? m.json = some m := by
  have htokens : Json.tokens? m.json.toList = some m.tokens := by
    rw [toList_json, Json.tokens?_written m.isPlain_of_mem_tokens]
  rw [parse?, Json.parse?, htokens]
  cases m <;> rfl

/-- The text of a message is one line. -/
theorem unbroken_json (m : HostMessage) : '\n' ∉ m.json.toList := by
  rw [toList_json, List.mem_flatMap]
  rintro ⟨t, ht, hmem⟩
  exact Json.unbroken_written (m.isPlain_of_mem_tokens t ht) hmem

/-! ### Lines -/

/-- Messages that are written as lines make as many lines, which are their texts. -/
theorem lines_join (ms : List HostMessage) :
    Text.lines (String.join (ms.map line)) = ms.map json := by
  induction ms with
  | nil => rfl
  | cons m ms ih =>
    rw [List.map_cons, String.join_cons, line, Text.lines_append m.unbroken_json, ih, List.map_cons]

/-- The messages are read back, line by line. -/
theorem mapM_parse?_json (ms : List HostMessage) : (ms.map json).mapM parse? = some ms := by
  induction ms with
  | nil => rfl
  | cons m ms ih => simp [parse?_json, ih]

end HostMessage

/-- What a channel for lines holds after some messages. -/
theorem Channel.foldl_offer_lines (sent : String) (ms : List HostMessage) :
    ms.foldl Channel.lines.offer sent = sent ++ String.join (ms.map HostMessage.line) := by
  induction ms generalizing sent with
  | nil => simp
  | cons m ms ih =>
    rw [List.foldl_cons, ih, List.map_cons, String.join_cons, ← String.append_assoc]
    rfl

end BlockProgram
