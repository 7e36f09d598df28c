import BlockProgram.Proofs.Xml.Scan
import Mathlib.Data.List.Nodup

/-!
# The tree of what was written

The tokens of written markup are put together again into elements, with the gaps between them as
text, and no name needs a space of names. So the first element of a written text is the element
that was written.
-/

namespace BlockProgram.Xml

/-! ### The tree of markup -/

namespace Content

variable {τ : Type}

/-- A content after the gap of a level. -/
def afterGap (level : Nat) (c : Content τ) : Content τ := (gap level).foldr consChar c

/-- A content after the characters of a text, of which some were escaped. -/
def afterText (cs : List Char) (c : Content τ) : Content τ :=
  cs.foldr
    (fun d rest => if d = '<' ∨ d = '>' ∨ d = '&' then quoted [d] rest else rest.consChar d) c

theorem afterText_cons (c : Char) (cs : List Char) (x : Content τ) :
    x.afterText (c :: cs) =
      if c = '<' ∨ c = '>' ∨ c = '&' then quoted [c] (x.afterText cs)
      else (x.afterText cs).consChar c := rfl

theorem chars_consChar (c : Char) (x : Content τ) : (x.consChar c).chars = c :: x.chars := by
  cases x <;> rfl

/-- Nothing of a text is lost. -/
theorem chars_afterText (cs : List Char) (x : Content τ) :
    (x.afterText cs).chars = cs ++ x.chars := by
  induction cs with
  | nil => rfl
  | cons c cs ih =>
    rw [afterText_cons]
    split
    · exact congrArg (c :: ·) ih
    · rw [chars_consChar, ih, List.cons_append]

end Content

/-- The tree of elements on a level, before a content, with heads made by a rule. -/
def Markup.tree {τ : Type} (mk : String → List (String × String) → τ) (level : Nat) :
    Markup → Content τ → Content τ
  | nil, after => after
  | text name attributes content rest, after =>
    (Content.element (mk name attributes) (Content.nil.afterText content.toList)
      (rest.tree mk level after)).afterGap level
  | element name attributes children rest, after =>
    (Content.element (mk name attributes)
      (if children.isNil then .nil else children.tree mk (level + 1) (Content.nil.afterGap level))
      (rest.tree mk level after)).afterGap level

/-! ### From tokens to the tree -/

/-- What follows, with tokens put before it. -/
def Tail.consAll? (tokens : List Token) (t : Tail) : Option Tail :=
  tokens.foldr (fun token t => t.bind (Tail.cons? token)) (some t)

namespace Tail

theorem ofTokens?_eq (tokens : List Token) : ofTokens? tokens = consAll? tokens ⟨.nil, []⟩ := by
  induction tokens with
  | nil => rfl
  | cons token tokens ih => rw [ofTokens?, ih]; rfl

theorem consAll?_append {ts us : List Token} {t t' : Tail} (h : consAll? us t = some t') :
    consAll? (ts ++ us) t = consAll? ts t' := by
  rw [consAll?, List.foldr_append, ← consAll?, h]
  rfl

theorem consAll?_cons {token : Token} {us : List Token} {t t' : Tail}
    (h : consAll? us t = some t') : consAll? (token :: us) t = t'.cons? token := by
  rw [consAll?, List.foldr_cons, ← consAll?, h]
  rfl

theorem consAll?_gap (level : Nat) (t : Tail) :
    consAll? ((gap level).map Token.char) t =
      some { t with content := t.content.afterGap level } := by
  have hall : ∀ cs : List Char, consAll? (cs.map Token.char) t =
      some { t with content := cs.foldr Content.consChar t.content } := by
    intro cs
    induction cs with
    | nil => rfl
    | cons c cs ih => rw [List.map_cons, consAll?_cons ih]; rfl
  exact hall _

theorem consAll?_text (cs : List Char) (t : Tail) :
    consAll? (cs.map textToken) t = some { t with content := t.content.afterText cs } := by
  induction cs with
  | nil => rfl
  | cons c cs ih =>
    rw [List.map_cons, consAll?_cons ih, textToken, Content.afterText_cons]
    split
    · rfl
    · rfl

/-- A closing tag, the tokens of a content and the opening tag make an element. -/
theorem consAll?_element (name : String) (attributes : List (String × String))
    {ts us : List Token} {t : Tail} {after content : Content RawTag}
    (hus : consAll? us t = some { t with content := after })
    (hts : consAll? ts ⟨.nil, (.ofString name, after) :: t.pending⟩ =
      some ⟨content, (.ofString name, after) :: t.pending⟩) :
    consAll? (.openTag (rawTag name attributes) :: (ts ++ .closeTag (.ofString name) :: us)) t =
      some { t with content := .element (rawTag name attributes) content after } := by
  have hclose : consAll? (.closeTag (.ofString name) :: us) t =
      some ⟨.nil, (.ofString name, after) :: t.pending⟩ := by
    rw [consAll?_cons hus]
    rfl
  rw [consAll?_cons ((consAll?_append hclose).trans hts)]
  simp [cons?, rawTag]

/-- The tokens of an element without the gap before it make its tree, if the tokens of its
children do. -/
theorem consAll?_children (name : String) (attributes : List (String × String))
    {children : Markup} {level : Nat} {us : List Token} {t : Tail} {after : Content RawTag}
    (hchildren : ∀ u : Tail, consAll? (children.tokens (level + 1)) u =
      some { u with content := children.tree rawTag (level + 1) u.content })
    (hus : consAll? us t = some { t with content := after }) :
    consAll? ((if children.isNil then [.emptyTag (rawTag name attributes)]
        else .openTag (rawTag name attributes) :: (children.tokens (level + 1) ++
          ((gap level).map Token.char ++ [.closeTag (.ofString name)]))) ++ us) t =
      some ⟨.element (rawTag name attributes)
        (if children.isNil then .nil
          else children.tree rawTag (level + 1) (Content.nil.afterGap level)) after,
        t.pending⟩ := by
  by_cases hnil : children.isNil
  · rw [if_pos hnil, if_pos hnil, List.singleton_append, consAll?_cons hus]
    rfl
  · have hinner : ∀ u : Tail, consAll?
        (children.tokens (level + 1) ++ (gap level).map Token.char) u = some { u with
          content := children.tree rawTag (level + 1) (u.content.afterGap level) } := by
      intro u
      rw [consAll?_append (consAll?_gap level u), hchildren]
    have hfull := consAll?_element name attributes hus (hinner _)
    rw [if_neg hnil, if_neg hnil, List.cons_append, List.append_assoc, List.append_assoc,
      List.singleton_append, ← List.append_assoc (children.tokens (level + 1)), hfull]

/-- The tokens of markup make its tree. -/
theorem consAll?_tokens (m : Markup) (level : Nat) (t : Tail) :
    consAll? (m.tokens level) t = some { t with content := m.tree rawTag level t.content } := by
  induction m generalizing level t with
  | nil => rfl
  | text name attributes content rest ih =>
    rw [Markup.tokens,
      consAll?_append (consAll?_element name attributes (ih level t) (consAll?_text _ _)),
      consAll?_gap]
    rfl
  | element name attributes children rest ihc ihr =>
    rw [Markup.tokens, Markup.tree,
      consAll?_append (consAll?_children name attributes (ihc (level + 1)) (ihr level t)),
      consAll?_gap]

end Tail

/-! ### Names without spaces -/

theorem isDeclaration_ofString {s : String} (h : s ≠ declarator) :
    isDeclaration (.ofString s) = false := by
  simp [isDeclaration, QName.ofString, h]

theorem plain_rawTag (name : String) {attributes : List (String × String)} (h : Plain attributes) :
    (rawTag name attributes).plain = attributes.map fun a => (.ofString a.1, a.2) := by
  refine List.filter_eq_self.mpr fun q hq => ?_
  obtain ⟨a, ha, rfl⟩ := List.mem_map.mp hq
  simp [isDeclaration_ofString (h.undeclared a ha)]

theorem declared_rawTag (name : String) (attributes : List (String × String)) :
    (rawTag name attributes).declared = [] := by
  have hnone : (rawTag name attributes).attributes.filter
      (fun a => a.1.space = some declarator) = [] := by
    refine List.filter_eq_nil_iff.mpr fun q hq => ?_
    obtain ⟨a, -, rfl⟩ := List.mem_map.mp hq
    simp [QName.ofString]
  rw [RawTag.declared, hnone]
  rfl

theorem toTag_rawTag (name : String) {attributes : List (String × String)} (h : Plain attributes) :
    (rawTag name attributes).toTag = ⟨name, attributes⟩ := by
  rw [RawTag.toTag, plain_rawTag name h, List.map_map]
  simp [rawTag, QName.ofString, Function.comp_def]

theorem isLawful_rawTag (known : List String) (name : String)
    {attributes : List (String × String)} (h : Plain attributes) :
    (rawTag name attributes).isLawful known := by
  have hall : (rawTag name attributes).attributes.all
      (fun a => !isDeclaration a.1 || isLawful a.1 a.2) := by
    refine List.all_eq_true.mpr fun q hq => ?_
    obtain ⟨a, ha, rfl⟩ := List.mem_map.mp hq
    simp [isDeclaration_ofString (h.undeclared a ha)]
  have hbound : (attributes.map fun a => (QName.ofString a.1, a.2)).all
      fun a => isBound known a.1 := by
    simp [isBound, QName.ofString]
  have hnodup : ((attributes.map fun a => (QName.ofString a.1, a.2)).map Prod.fst).Nodup := by
    rw [List.map_map]
    have hinj : Function.Injective QName.ofString := fun a b hab => congrArg QName.base hab
    have hmap := List.Nodup.map hinj h.nodup
    rwa [List.map_map] at hmap
  rw [RawTag.isLawful, hall, plain_rawTag name h, hbound, decide_eq_true hnodup]
  simp [rawTag, QName.ofString, isBound]

/-- Characters need no space of names. -/
theorem Content.resolve?_consChar (known : List String) (c : Char) (x : Content RawTag) :
    (x.consChar c).resolve? known = (x.resolve? known).map (Content.consChar c) := by
  cases x with
  | nil => rfl
  | text cs rest =>
    simp only [consChar, resolve?, Option.map_map]
    rfl
  | quoted cs rest =>
    simp only [consChar, resolve?, Option.map_map]
    rfl
  | comment body rest =>
    simp only [consChar, resolve?, Option.map_map]
    rfl
  | instruction target body rest =>
    simp only [consChar, resolve?, Option.map_map]
    rfl
  | element t content rest =>
    simp only [consChar, resolve?]
    split
    · split
      · rfl
      · rfl
    · rfl

theorem Content.resolve?_afterGap (known : List String) (level : Nat) (x : Content RawTag) :
    (x.afterGap level).resolve? known = (x.resolve? known).map (Content.afterGap level) := by
  have hall : ∀ cs : List Char, (cs.foldr consChar x).resolve? known =
      (x.resolve? known).map fun y => cs.foldr consChar y := by
    intro cs
    induction cs with
    | nil => simp
    | cons c cs ih =>
      rw [List.foldr_cons, resolve?_consChar, ih, Option.map_map]
      rfl
  exact hall _

theorem Content.resolve?_afterText (known : List String) (cs : List Char) :
    ((Content.nil.afterText cs : Content RawTag)).resolve? known =
      some (Content.nil.afterText cs) := by
  induction cs with
  | nil => rfl
  | cons c cs ih =>
    rw [afterText_cons, afterText_cons]
    split
    · rw [resolve?, ih]
      rfl
    · rw [resolve?_consChar, ih]
      rfl

/-- An element whose tag was written needs no space of names if what is in it and what follows
it need none. -/
theorem Content.resolve?_element {known : List String} (name : String)
    {attributes : List (String × String)} (h : Plain attributes) {content rest : Content RawTag}
    {content' rest' : Content Tag} (hcontent : content.resolve? known = some content')
    (hrest : rest.resolve? known = some rest') :
    (Content.element (rawTag name attributes) content rest).resolve? known =
      some (.element ⟨name, attributes⟩ content' rest') := by
  rw [resolve?, declared_rawTag, List.nil_append, if_pos (isLawful_rawTag known name h), hcontent,
    hrest, toTag_rawTag name h]

/-- A tree of markup needs no space of names. -/
theorem Markup.resolve?_tree {m : Markup} (h : m.Readable) (known : List String) (level : Nat)
    {after : Content RawTag} {after' : Content Tag} (hafter : after.resolve? known = some after') :
    (m.tree rawTag level after).resolve? known = some (m.tree Tag.mk level after') := by
  induction m generalizing level after after' with
  | nil => exact hafter
  | text name attributes content rest ih =>
    obtain ⟨-, hattributes, -, hrest⟩ := h
    rw [tree, tree, Content.resolve?_afterGap, Content.resolve?_element name hattributes
      (Content.resolve?_afterText known _) (ih hrest level hafter)]
    rfl
  | element name attributes children rest ihc ihr =>
    obtain ⟨-, hattributes, hchildren, hrest⟩ := h
    have hinner : (if children.isNil then .nil
          else children.tree rawTag (level + 1) (Content.nil.afterGap level)).resolve? known =
        some (if children.isNil then .nil
          else children.tree Tag.mk (level + 1) (Content.nil.afterGap level)) := by
      split
      · rfl
      · exact ihc hchildren (level + 1) (Content.resolve?_afterGap known level .nil)
    rw [tree, tree, Content.resolve?_afterGap,
      Content.resolve?_element name hattributes hinner (ihr hrest level hafter)]
    rfl

/-! ### The outermost element -/

/-- The content of an outermost element. -/
def Markup.body (children : Markup) : Content Tag :=
  if children.isNil then .nil else children.tree Tag.mk 1 (Content.nil.afterGap 0)

/-- A written text begins neither with a mark of byte order nor with a declaration. -/
theorem source?_document {name : String} (hname : isSimple name) (children : Markup) :
    source? (Markup.document name children) =
      some (.first, (Markup.document name children).toList) := by
  obtain ⟨c, cs, hcons, hhead, -⟩ := exists_cons_of_isSimple hname
  have hmark : c ≠ '?' := ne_of_isNameChar (isNameChar_of_isNameHead hhead) (by decide)
  obtain ⟨rest, hchars⟩ : ∃ rest, (Markup.document name children).toList = '<' :: c :: rest := by
    simp only [Markup.document, headText, String.toList_append, hcons]
    exact ⟨_, rfl⟩
  rw [source?, hchars]
  show skipHeader? false ('<' :: c :: rest) = _
  unfold skipHeader?
  split
  · rename_i heq
    cases heq
    exact absurd rfl hmark
  · rfl

/-- **The first element of a written text is the one that was written.** -/
theorem root?_document {name : String} (hname : isSimple name) {children : Markup}
    (h : children.Readable) :
    root? (Markup.document name children) = some (⟨name, []⟩, children.body) := by
  -- the tree of the tokens, in which nothing follows the element
  have htail : Tail.ofTokens? ((Markup.element name [] children .nil).tokens 0).tail =
      some ⟨.element (rawTag name []) (if children.isNil then .nil
        else children.tree rawTag 1 (Content.nil.afterGap 0)) .nil, []⟩ :=
    (Tail.ofTokens?_eq _).trans
      (Tail.consAll?_children name [] (Tail.consAll?_tokens children 1) rfl)
  have hplain : Plain [] := ⟨by simp, by simp, by simp, by simp⟩
  have hbody : (if children.isNil then .nil
      else children.tree rawTag 1 (Content.nil.afterGap 0)).resolve? [builtin, declarator] =
        some children.body := by
    rw [Markup.body]
    split
    · rfl
    · exact Markup.resolve?_tree h _ 1 (Content.resolve?_afterGap _ 0 .nil)
  have hcontent : content? (Markup.document name children) =
      some (.element ⟨name, []⟩ children.body .nil) := by
    simp only [content?, source?_document hname, Markup.tokens?_document hname h,
      Content.ofTokens?, htail, Option.bind_eq_bind, Option.bind_some, Content.isOuter, if_true]
    exact Content.resolve?_element name hplain hbody rfl
  rw [root?, hcontent]
  rfl

end BlockProgram.Xml
