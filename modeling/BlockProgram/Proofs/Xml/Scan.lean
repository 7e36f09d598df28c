import BlockProgram.Xml.Markup
import BlockProgram.Xml.Reader
import Mathlib.Data.List.TakeWhile

/-!
# Scanning what was written

A text that was written as markup is scanned into the tokens of that markup: the gaps before
elements become characters, tags become tags, and every escaped character becomes a reference to
itself. Each piece of the text is scanned from the mode in which the piece before it ends. What is
written declares no version, and so it is scanned by the first one.
-/

namespace BlockProgram.Xml

/-- Scanning characters leads from a mode to a mode and completes tokens. -/
inductive Scans : Mode → List Char → Mode → List Token → Prop where
  /-- No characters. -/
  | nil (m : Mode) : Scans m [] m []
  /-- A character that completes no token. -/
  | silent {m m' m'' : Mode} {c : Char} {cs : List Char} {ts : List Token}
      (h : m.step .first c = some (m', none)) (hs : Scans m' cs m'' ts) : Scans m (c :: cs) m'' ts
  /-- A character that completes a token. -/
  | emit {m m' m'' : Mode} {c : Char} {t : Token} {cs : List Char} {ts : List Token}
      (h : m.step .first c = some (m', some t)) (hs : Scans m' cs m'' ts) :
      Scans m (c :: cs) m'' (t :: ts)

namespace Scans

variable {m m' m'' : Mode} {cs ds : List Char} {ts us : List Token}

theorem append (h : Scans m cs m' ts) (h' : Scans m' ds m'' us) :
    Scans m (cs ++ ds) m'' (ts ++ us) := by
  induction h with
  | nil => exact h'
  | silent h _ ih => exact .silent h (ih h')
  | emit h _ ih => exact .emit h (ih h')

/-- The scanner runs as it should. -/
theorem run (h : Scans m cs m' ts) (before : List Token) :
    Text.run (Scanner.step .first) ⟨m, before⟩ cs = some ⟨m', ts.reverse ++ before⟩ := by
  induction h generalizing before with
  | nil => rfl
  | silent h _ ih => rw [Text.run_cons, Scanner.step, h]; exact ih before
  | emit h _ ih =>
    rw [Text.run_cons, Scanner.step, h, List.reverse_cons, List.append_assoc]
    exact ih _

/-- A text that is scanned from between tags to between tags is made of its tokens. -/
theorem tokens? {b b' : Nat} (h : Scans (.text b) cs (.text b') ts) (hb : b = 0) :
    Xml.tokens? .first cs = some ts := by
  subst hb
  simp [Xml.tokens?, h.run, Scanner.finish]

end Scans

/-! ### Names -/

/-- A name without a colon. -/
def isSimple (s : String) : Bool :=
  s.toList.head?.any isNameHead && s.toList.all fun c => isNameChar c && c != ':'

/-- The name as it is written, without a space of names. -/
def QName.ofString (s : String) : QName := ⟨none, s⟩

theorem exists_cons_of_isSimple {s : String} (h : isSimple s) :
    ∃ c cs, s.toList = c :: cs ∧ isNameHead c ∧ ∀ d ∈ s.toList, isNameChar d ∧ d ≠ ':' := by
  simp only [isSimple, Bool.and_eq_true, List.all_eq_true, bne_iff_ne, ne_eq] at h
  obtain ⟨hhead, hall⟩ := h
  cases hs : s.toList with
  | nil => rw [hs] at hhead; cases hhead
  | cons c cs =>
    rw [hs] at hhead hall
    exact ⟨c, cs, rfl, hhead, hall⟩

theorem parse?_of_isSimple {s : String} (h : isSimple s) :
    QName.parse? s.toList = some (.ofString s) := by
  obtain ⟨c, cs, hs, hhead, hall⟩ := exists_cons_of_isSimple h
  have htake : s.toList.takeWhile (· != ':') = s.toList :=
    List.takeWhile_eq_self_iff.mpr fun d hd => by simpa using (hall d hd).2
  have hdrop : s.toList.dropWhile (· != ':') = [] :=
    List.dropWhile_eq_nil_iff.mpr fun d hd => by simpa using (hall d hd).2
  have hname : s.toList.all isNameChar := List.all_eq_true.mpr fun d hd => (hall d hd).1
  have hfirst : (s.toList.take 1).all isNameHead := by simp [hs, hhead]
  have hne : s.toList.isEmpty = false := by rw [hs]; rfl
  simp [QName.parse?, htake, hdrop, hname, hfirst, hne, QName.ofString]

theorem ne_of_isNameChar {c d : Char} (h : isNameChar c) (hd : isNameChar d = false) : c ≠ d := by
  rintro rfl
  rw [hd] at h
  cases h

theorem not_isSpace_of_isNameChar {c : Char} (h : isNameChar c) : isSpace c = false := by
  have hspace := ne_of_isNameChar h (d := ' ') (by decide)
  have htab := ne_of_isNameChar h (d := '\t') (by decide)
  have hfeed := ne_of_isNameChar h (d := '\n') (by decide)
  have hreturn := ne_of_isNameChar h (d := '\r') (by decide)
  simp [isSpace, hspace, htab, hfeed, hreturn]

/-- Characters of a class are collected in a mode that collects them. -/
theorem scans_collect {p : Char → Bool} {f : List Char → Mode}
    (hf : ∀ seen c, p c → (f seen).step .first c = some (f (c :: seen), none))
    {cs : List Char} (h : ∀ c ∈ cs, p c) (seen : List Char) :
    Scans (f seen) cs (f (cs.reverse ++ seen)) [] := by
  induction cs generalizing seen with
  | nil => exact .nil _
  | cons c cs ih =>
    obtain ⟨hc, hcs⟩ := List.forall_mem_cons.mp h
    rw [List.reverse_cons, List.append_assoc]
    exact .silent (hf seen c hc) (ih hcs (c :: seen))

theorem step_openName (name : List Char) (c : Char) (h : isNameChar c) :
    (Mode.openName name).step .first c = some (.openName (c :: name), none) := by
  simp [Mode.step, h, not_isSpace_of_isNameChar h, ne_of_isNameChar h (d := '>') (by decide),
    ne_of_isNameChar h (d := '/') (by decide)]

theorem step_closeName (name : List Char) (c : Char) (h : isNameChar c) :
    (Mode.closeName name).step .first c = some (.closeName (c :: name), none) := by
  simp [Mode.step, h, not_isSpace_of_isNameChar h, ne_of_isNameChar h (d := '>') (by decide)]

theorem step_attrName (t : RawTag) (name : List Char) (c : Char) (h : isNameChar c) :
    (Mode.attrName t name).step .first c = some (.attrName t (c :: name), none) := by
  simp [Mode.step, h, not_isSpace_of_isNameChar h, ne_of_isNameChar h (d := '=') (by decide)]

/-! ### Tags -/

/-- A tag that closes an element. -/
theorem scans_close {name : String} (h : isSimple name) (b : Nat) :
    Scans (.text b) (closeText name).toList (.text 0) [.closeTag (.ofString name)] := by
  obtain ⟨c, cs, -, -, hall⟩ := exists_cons_of_isSimple h
  have hname := scans_collect step_closeName (fun d hd => (hall d hd).1) []
  have hend : (Mode.closeName (name.toList.reverse ++ [])).step .first '>' =
      some (.text 0, some (.closeTag (.ofString name))) := by
    simp [Mode.step, parse?_of_isSimple h]
  have hchars : (closeText name).toList = '<' :: '/' :: (name.toList ++ ['>']) := by
    simp [closeText]
  rw [hchars]
  exact .silent rfl (.silent rfl (hname.append (.emit hend (.nil _))))

/-- Two modes in which a character does the same. -/
theorem Scans.of_step_eq {m n m' : Mode} {c : Char} {cs : List Char} {ts : List Token}
    (h : Scans n (c :: cs) m' ts) (heq : m.step .first c = n.step .first c) :
    Scans m (c :: cs) m' ts := by
  cases h with
  | silent hc hs => exact .silent (heq.trans hc) hs
  | emit hc hs => exact .emit (heq.trans hc) hs

/-- The name at the head of a tag; what follows it is scanned as in a tag without attributes. -/
theorem scans_open {name : String} (h : isSimple name) {c : Char} (hc : c = ' ' ∨ c = '>')
    {cs : List Char} {m : Mode} {ts : List Token}
    (hs : Scans (.tag ⟨.ofString name, []⟩ false) (c :: cs) m ts) (b : Nat) :
    Scans (.text b) ('<' :: (name.toList ++ c :: cs)) m ts := by
  obtain ⟨d, ds, hname, hhead, hall⟩ := exists_cons_of_isSimple h
  have hd : isNameChar d := isNameChar_of_isNameHead hhead
  have hfirst : Mode.markup.step .first d = some (.openName [d], none) := by
    simp [Mode.step, hhead, ne_of_isNameChar hd (d := '!') (by decide),
      ne_of_isNameChar hd (d := '?') (by decide), ne_of_isNameChar hd (d := '/') (by decide)]
  have hrest : Scans (.openName [d]) ds (.openName (ds.reverse ++ [d])) [] :=
    scans_collect step_openName (fun e he => (hall e (hname ▸ List.mem_cons_of_mem d he)).1) [d]
  have hparse : QName.parse? (d :: ds) = some (.ofString name) :=
    hname ▸ parse?_of_isSimple h
  have hstep : (Mode.openName (ds.reverse ++ [d])).step .first c =
      (Mode.tag ⟨.ofString name, []⟩ false).step .first c := by
    rcases hc with rfl | rfl
    · simp [Mode.step, isSpace, hparse]
    · simp [Mode.step, hparse]
  rw [hname]
  exact .silent rfl (.silent hfirst (hrest.append (hs.of_step_eq hstep)))

/-! ### References -/

/-- A character that may stand in a reference. -/
def isReferenceChar (c : Char) : Bool := isNameChar c || c = '#'

theorem ne_semicolon_of_isReferenceChar {c : Char} (h : isReferenceChar c) : c ≠ ';' := by
  rintro rfl
  revert h
  decide

/-- Between tags a reference is a token of its own. -/
theorem scans_reference (b : Nat) (name : List Char) {c : Char} (hname : name.all isReferenceChar)
    (hc : reference? .first name = some c) :
    Scans (.text b) ('&' :: (name ++ [';'])) (.text 0) [.quoted [c]] := by
  have hstep : ∀ seen d, isReferenceChar d →
      (Mode.reference seen).step .first d = some (.reference (d :: seen), none) := by
    intro seen d hd
    rw [Mode.step, if_neg (ne_semicolon_of_isReferenceChar hd)]
    exact if_pos hd
  have hbody := scans_collect hstep (List.all_eq_true.mp hname) []
  have hend : (Mode.reference (name.reverse ++ [])).step .first ';' =
      some (.text 0, some (.quoted [c])) := by
    simp [Mode.step, hc]
  exact .silent rfl (hbody.append (.emit hend (.nil _)))

/-- In a value a reference adds its character. -/
theorem scans_valueReference (t : RawTag) (q : QName) (value name : List Char) {c : Char}
    (hname : name.all isReferenceChar) (hc : reference? .first name = some c) :
    Scans (.attrValue t q '"' value .plain) ('&' :: (name ++ [';']))
      (.attrValue t q '"' (c :: value) .plain) [] := by
  have hstep : ∀ seen d, isReferenceChar d →
      (Mode.attrValue t q '"' value (.reference seen)).step .first d =
        some (.attrValue t q '"' value (.reference (d :: seen)), none) := by
    intro seen d hd
    have hvalue : (ValueMode.reference seen).step .first value d =
        some (.reference (d :: seen), value) := by
      rw [ValueMode.step, if_neg (ne_semicolon_of_isReferenceChar hd)]
      exact if_pos hd
    simp [Mode.step, hvalue]
  have hbody := scans_collect hstep (List.all_eq_true.mp hname) []
  have hend : (Mode.attrValue t q '"' value (.reference (name.reverse ++ []))).step .first ';' =
      some (.attrValue t q '"' (c :: value) .plain, none) := by
    simp [Mode.step, ValueMode.step, hc]
  exact .silent rfl (hbody.append (.silent hend (.nil _)))

/-! ### Attributes -/

/-- A text that a document may hold. -/
def isText (s : String) : Bool := s.toList.all isChar

@[simp] theorem isText_append (s t : String) : isText (s ++ t) = (isText s && isText t) := by
  simp [isText]

section Attributes

variable (t : RawTag) (q : QName) (value : List Char)

/-- A character of a value stands for itself, escaped or not. -/
theorem scans_escapeValue {c : Char} (hc : isChar c) :
    Scans (.attrValue t q '"' value .plain) (escapeValue c)
      (.attrValue t q '"' (c :: value) .plain) [] := by
  unfold escapeValue
  split
  · exact scans_valueReference t q value "quot".toList rfl rfl
  · exact scans_valueReference t q value "apos".toList rfl rfl
  · exact scans_valueReference t q value "#xA".toList rfl rfl
  · exact scans_valueReference t q value "#xD".toList rfl rfl
  · rename_i hquote _ _ _
    have hquote : c ≠ '"' := hquote
    unfold escapeText
    split
    · exact scans_valueReference t q value "lt".toList rfl rfl
    · exact scans_valueReference t q value "gt".toList rfl rfl
    · exact scans_valueReference t q value "amp".toList rfl rfl
    · rename_i hlt _ hamp
      have hstep : (Mode.attrValue t q '"' value .plain).step .first c =
          some (.attrValue t q '"' (c :: value) .plain, none) := by
        simp [Mode.step, hquote, ValueMode.step_plain (v := .first) value hc hlt hamp]
      exact .silent hstep (.nil _)

theorem scans_value {cs : List Char} (h : ∀ c ∈ cs, isChar c) :
    Scans (.attrValue t q '"' value .plain) (cs.flatMap escapeValue)
      (.attrValue t q '"' (cs.reverse ++ value) .plain) [] := by
  induction cs generalizing value with
  | nil => exact .nil _
  | cons c cs ih =>
    obtain ⟨hc, hcs⟩ := List.forall_mem_cons.mp h
    rw [List.flatMap_cons, List.reverse_cons, List.append_assoc]
    exact (scans_escapeValue t q value hc).append (ih (c :: value) hcs)

end Attributes

/-- One attribute with the space before it. -/
theorem scans_attribute (t : RawTag) {a : String × String} (hname : isSimple a.1)
    (hvalue : isText a.2) :
    Scans (.tag t false) (attributeText a).toList
      (.tag { t with attributes := t.attributes ++ [(.ofString a.1, a.2)] } false) [] := by
  obtain ⟨d, ds, hcons, hhead, hall⟩ := exists_cons_of_isSimple hname
  have hd : isNameChar d := isNameChar_of_isNameHead hhead
  have hfirst : (Mode.tag t true).step .first d = some (.attrName t [d], none) := by
    simp [Mode.step, hhead, not_isSpace_of_isNameChar hd,
      ne_of_isNameChar hd (d := '>') (by decide), ne_of_isNameChar hd (d := '/') (by decide)]
  have hrest : Scans (.attrName t [d]) ds (.attrName t (ds.reverse ++ [d])) [] :=
    scans_collect (step_attrName t) (fun e he => (hall e (hcons ▸ List.mem_cons_of_mem d he)).1) [d]
  have hequals : (Mode.attrName t (ds.reverse ++ [d])).step .first '=' =
      some (.attrQuote t (.ofString a.1), none) := by
    have hparse : QName.parse? (d :: ds) = some (.ofString a.1) := hcons ▸ parse?_of_isSimple hname
    simp [Mode.step, hparse]
  have hbody := scans_value t (.ofString a.1) [] (List.all_eq_true.mp hvalue)
  have hend :
      (Mode.attrValue t (.ofString a.1) '"' (a.2.toList.reverse ++ []) .plain).step .first '"' =
      some (.tag { t with attributes := t.attributes ++ [(.ofString a.1, a.2)] } false, none) := by
    simp [Mode.step, RawTag.push]
  have hchars : (attributeText a).toList =
      ' ' :: d :: (ds ++ '=' :: '"' :: (a.2.toList.flatMap escapeValue ++ ['"'])) := by
    simp [attributeText, valueChars, hcons]
  rw [hchars]
  exact .silent rfl (.silent hfirst (hrest.append (.silent hequals (.silent rfl
    (hbody.append (.silent hend (.nil _)))))))

/-- The attributes are simple names, none twice and none the word for declarations, with texts
that a document may hold. -/
structure Plain (attributes : List (String × String)) : Prop where
  /-- The names are simple. -/
  names : ∀ a ∈ attributes, isSimple a.1
  /-- None declares a space of names. -/
  undeclared : ∀ a ∈ attributes, a.1 ≠ declarator
  /-- The values are texts. -/
  values : ∀ a ∈ attributes, isText a.2
  /-- No name comes twice. -/
  nodup : (attributes.map Prod.fst).Nodup

/-- The tag of an element as it is scanned. -/
def rawTag (name : String) (attributes : List (String × String)) : RawTag :=
  ⟨.ofString name, attributes.map fun a => (.ofString a.1, a.2)⟩

theorem scans_attributes {attributes : List (String × String)}
    (h : ∀ a ∈ attributes, isSimple a.1 ∧ isText a.2) (t : RawTag) :
    Scans (.tag t false) (attributes.flatMap fun a => (attributeText a).toList)
      (.tag { t with attributes := t.attributes ++ attributes.map fun a => (.ofString a.1, a.2) }
        false) [] := by
  induction attributes generalizing t with
  | nil => simpa using Scans.nil (.tag t false)
  | cons a as ih =>
    obtain ⟨ha, has⟩ := List.forall_mem_cons.mp h
    have hrest := ih has { t with attributes := t.attributes ++ [(.ofString a.1, a.2)] }
    rw [List.append_assoc] at hrest
    exact (scans_attribute t ha.1 ha.2).append hrest

/-- The head of an element; what follows it is scanned in its tag. -/
theorem scans_head {name : String} (hname : isSimple name) {attributes : List (String × String)}
    (h : Plain attributes) {c : Char} (hc : c = ' ' ∨ c = '>') {cs : List Char} {m : Mode}
    {ts : List Token} (hs : Scans (.tag (rawTag name attributes) false) (c :: cs) m ts) (b : Nat) :
    Scans (.text b) ((headText name attributes).toList ++ c :: cs) m ts := by
  have hattributes := (scans_attributes (fun a ha => ⟨h.names a ha, h.values a ha⟩)
    ⟨.ofString name, []⟩).append hs
  have hchars : (headText name attributes).toList ++ c :: cs =
      '<' :: (name.toList ++
        (attributes.flatMap (fun a => (attributeText a).toList) ++ c :: cs)) := by
    simp [headText, List.flatMap_map]
  rw [hchars]
  cases attributes with
  | nil => exact scans_open hname hc hattributes b
  | cons a as =>
    rw [List.flatMap_cons] at hattributes ⊢
    have hspace : (attributeText a).toList = ' ' :: (attributeText a).toList.tail := by
      simp [attributeText]
    rw [hspace] at hattributes ⊢
    exact scans_open hname (.inl rfl) hattributes b

/-! ### Between tags -/

/-- What stands before an element on a level: a line feed and the indent. -/
def gap (level : Nat) : List Char := '\n' :: List.replicate (2 * level) ' '

theorem scans_gap (level b : Nat) :
    Scans (.text b) (gap level) (.text 0) ((gap level).map Token.char) := by
  have hspaces : ∀ n, Scans (.text 0) (List.replicate n ' ') (.text 0)
      ((List.replicate n ' ').map Token.char) := by
    intro n
    induction n with
    | zero => exact .nil _
    | succ n ih => exact .emit rfl ih
  have hfeed : (Mode.text b).step .first '\n' = some (.text 0, some (.char '\n')) := by
    simp [Mode.step, isChar]
  exact .emit hfeed (hspaces _)

/-- The token of a character of a text. -/
def textToken (c : Char) : Token :=
  if c = '<' ∨ c = '>' ∨ c = '&' then .quoted [c] else .char c

/-- A character of a text stands for itself, escaped or not. -/
theorem scans_escapeText {c : Char} (hc : isChar c) (b : Nat) :
    ∃ b', Scans (.text b) (escapeText c) (.text b') [textToken c] := by
  unfold escapeText
  split
  · exact ⟨0, scans_reference b "lt".toList rfl rfl⟩
  · exact ⟨0, scans_reference b "gt".toList rfl rfl⟩
  · exact ⟨0, scans_reference b "amp".toList rfl rfl⟩
  · rename_i hlt hgt hamp
    have hlt : c ≠ '<' := hlt
    have hgt : c ≠ '>' := hgt
    have hamp : c ≠ '&' := hamp
    have hstep : (Mode.text b).step .first c =
        some (.text (if c = ']' then b + 1 else 0), some (textToken c)) := by
      simp [Mode.step, textToken, hlt, hgt, hamp, hc]
    exact ⟨_, .emit hstep (.nil _)⟩

theorem scans_text {cs : List Char} (h : ∀ c ∈ cs, isChar c) (b : Nat) :
    ∃ b', Scans (.text b) (cs.flatMap escapeText) (.text b') (cs.map textToken) := by
  induction cs generalizing b with
  | nil => exact ⟨b, .nil _⟩
  | cons c cs ih =>
    obtain ⟨hc, hcs⟩ := List.forall_mem_cons.mp h
    obtain ⟨b', hfirst⟩ := scans_escapeText hc b
    obtain ⟨b'', hrest⟩ := ih hcs b'
    exact ⟨b'', hfirst.append hrest⟩

/-! ### Whole markup -/

namespace Markup

/-- All names are simple, and all texts are such as a document may hold. -/
def Readable : Markup → Prop
  | nil => True
  | text name attributes content rest =>
    isSimple name ∧ Plain attributes ∧ isText content ∧ rest.Readable
  | element name attributes children rest =>
    isSimple name ∧ Plain attributes ∧ children.Readable ∧ rest.Readable

/-- The tokens of elements on a level. -/
def tokens (level : Nat) : Markup → List Token
  | nil => []
  | text name attributes content rest =>
    (gap level).map Token.char ++ .openTag (rawTag name attributes) ::
      (content.toList.map textToken ++ .closeTag (.ofString name) :: rest.tokens level)
  | element name attributes children rest =>
    (gap level).map Token.char ++
      ((if children.isNil then [.emptyTag (rawTag name attributes)]
        else .openTag (rawTag name attributes) :: (children.tokens (level + 1) ++
          ((gap level).map Token.char ++ [.closeTag (.ofString name)]))) ++
        rest.tokens level)

/-- An element without children. -/
theorem scans_empty {name : String} (hname : isSimple name) {attributes : List (String × String)}
    (h : Plain attributes) (b : Nat) :
    Scans (.text b) ((headText name attributes).toList ++ " />".toList) (.text 0)
      [.emptyTag (rawTag name attributes)] :=
  scans_head hname h (.inl rfl) (.silent rfl (.silent rfl (.emit rfl (.nil _)))) b

/-- The tag that opens an element. -/
theorem scans_openTag {name : String} (hname : isSimple name)
    {attributes : List (String × String)} (h : Plain attributes) (b : Nat) :
    Scans (.text b) ((headText name attributes).toList ++ ['>']) (.text 0)
      [.openTag (rawTag name attributes)] :=
  scans_head hname h (.inr rfl) (.emit rfl (.nil _)) b

/-- **What was written is scanned into its tokens.** -/
theorem scans_print {m : Markup} (h : m.Readable) (level b : Nat) :
    ∃ b', Scans (.text b) (m.print level).toList (.text b') (m.tokens level) := by
  induction m generalizing level b with
  | nil => exact ⟨b, .nil _⟩
  | text name attributes content rest ih =>
    obtain ⟨hname, hattributes, hcontent, hrest⟩ := h
    obtain ⟨b₁, htext⟩ := scans_text (List.all_eq_true.mp hcontent) 0
    obtain ⟨b₂, hafter⟩ := ih hrest level 0
    refine ⟨b₂, ?_⟩
    have hchars : ((Markup.text name attributes content rest).print level).toList =
        gap level ++ (((headText name attributes).toList ++ ['>']) ++
          (content.toList.flatMap escapeText ++
            ((closeText name).toList ++ (rest.print level).toList))) := by
      simp [print, gap, textChars]
    rw [hchars]
    exact (scans_gap level b).append ((scans_openTag hname hattributes 0).append
      (htext.append ((scans_close hname b₁).append hafter)))
  | element name attributes children rest ihc ihr =>
    obtain ⟨hname, hattributes, hchildren, hrest⟩ := h
    obtain ⟨b₁, hafter⟩ := ihr hrest level 0
    refine ⟨b₁, ?_⟩
    by_cases hnil : children.isNil
    · have hchars : ((Markup.element name attributes children rest).print level).toList =
          gap level ++ (((headText name attributes).toList ++ " />".toList) ++
            (rest.print level).toList) := by
        simp [print, gap, hnil]
      rw [hchars, tokens, if_pos hnil]
      exact (scans_gap level b).append ((scans_empty hname hattributes 0).append hafter)
    · obtain ⟨b₂, hinner⟩ := ihc hchildren (level + 1) 0
      have hchars : ((Markup.element name attributes children rest).print level).toList =
          gap level ++ ((((headText name attributes).toList ++ ['>']) ++
            ((children.print (level + 1)).toList ++ (gap level ++ (closeText name).toList))) ++
              (rest.print level).toList) := by
        simp [print, gap, hnil]
      rw [hchars, tokens, if_neg hnil]
      exact (scans_gap level b).append (((scans_openTag hname hattributes 0).append
        (hinner.append ((scans_gap level b₂).append (scans_close hname 0)))).append hafter)

/-- The text of an outermost element, without the gap that stands before other elements. -/
theorem tokens?_document {name : String} (hname : isSimple name) {children : Markup}
    (h : children.Readable) :
    tokens? .first (document name children).toList =
      some ((Markup.element name [] children nil).tokens 0).tail := by
  have hplain : Plain [] := ⟨by simp, by simp, by simp, by simp⟩
  obtain ⟨b, hscan⟩ :=
    scans_print (m := .element name [] children nil) ⟨hname, hplain, h, trivial⟩ 0 0
  have hchars : ((Markup.element name [] children nil).print 0).toList =
      '\n' :: (document name children).toList := by
    by_cases hnil : children.isNil <;> simp [print, document, hnil]
  have hfeed : (Mode.text 0).step .first '\n' = some (.text 0, some (.char '\n')) := rfl
  rw [hchars] at hscan
  have htokens : (Markup.element name [] children nil).tokens 0 =
      .char '\n' :: ((Markup.element name [] children nil).tokens 0).tail := rfl
  rw [htokens] at hscan
  cases hscan with
  | silent hstep hrest => rw [hfeed] at hstep; cases hstep
  | emit hstep hrest =>
    rw [hfeed] at hstep
    cases hstep
    exact hrest.tokens? rfl

end Markup

end BlockProgram.Xml
