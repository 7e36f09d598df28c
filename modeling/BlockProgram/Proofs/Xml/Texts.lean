import BlockProgram.Proofs.Xml.Legible

/-!
# Texts of what is read

In the first version the scanner stops at characters that no document may hold, and a reference
stands for none of them. So whatever is read between tags, and whatever the value of an attribute
is, all its characters are such as a document may hold, in whatever way they were written. A
document that declares the second version can have other characters in it.
-/

namespace BlockProgram.Xml

/-! ### Tokens -/

theorem isChar_of_charOfNat? {n : Nat} {r : Char} (h : charOfNat? .first n = some r) :
    isChar r := by
  rw [charOfNat?] at h
  split at h
  · rename_i hn
    cases h
    exact (Bool.and_eq_true_iff.mp hn).2
  · cases h

/-- A reference stands for a character that a document may hold. -/
theorem isChar_of_reference? {name : List Char} {r : Char}
    (h : reference? .first name = some r) : isChar r := by
  unfold reference? at h
  split at h
  case h_6 =>
    split at h
    · cases h
    · obtain ⟨n, -, hn⟩ := Option.bind_eq_some_iff.mp h
      exact isChar_of_charOfNat? hn
  case h_7 =>
    split at h
    · cases h
    · exact isChar_of_charOfNat? h
  case h_8 => cases h
  all_goals
    cases h
    decide

/-- What is added to the value of an attribute is the character that is read, or what a reference
stands for. -/
theorem ValueMode.isChar_step {m m' : ValueMode} {value value' : List Char} {c : Char}
    (hc : isChar c) (hvalue : ∀ d ∈ value, isChar d)
    (h : m.step .first value c = some (m', value')) : ∀ d ∈ value', isChar d := by
  have hcons : ∀ {r : Char}, isChar r → ∀ d ∈ r :: value, isChar d :=
    fun hr => List.forall_mem_cons.mpr ⟨hr, hvalue⟩
  cases m with
  | reference name =>
    rw [step] at h
    split at h
    · obtain ⟨r, hr, hsome⟩ := Option.map_eq_some_iff.mp h
      cases hsome
      exact hcons (isChar_of_reference? hr)
    · split at h <;> cases h
      exact hvalue
  | bang seen =>
    obtain ⟨s, -, hsome⟩ := Option.map_eq_some_iff.mp h
    cases hsome
    exact hcons hc
  | _ => grind [ValueMode.step]

/-- The values of all attributes are texts. -/
def RawTag.Legible (t : RawTag) : Prop := ∀ a ∈ t.attributes, isText a.2

/-- The characters of a token are such as a document may hold. -/
def Token.Legible : Token → Prop
  | .char c => isChar c
  | .quoted cs => ∀ c ∈ cs, isChar c
  | .openTag t => t.Legible
  | .emptyTag t => t.Legible
  | _ => True

/-- What the scanner has collected of a token is legible. -/
def Mode.Legible : Mode → Prop
  | .data body _ => ∀ c ∈ body, isChar c
  | .tag t _ => t.Legible
  | .attrName t _ => t.Legible
  | .attrEquals t _ => t.Legible
  | .attrQuote t _ => t.Legible
  | .attrValue t _ _ value _ => t.Legible ∧ ∀ c ∈ value, isChar c
  | .slash t => t.Legible
  | _ => True

theorem RawTag.legible_nil (name : QName) : RawTag.Legible ⟨name, []⟩ :=
  fun _ ha => absurd ha List.not_mem_nil

theorem RawTag.Legible.push {t : RawTag} (ht : t.Legible) (name : QName) {value : List Char}
    (hvalue : ∀ c ∈ value, isChar c) : (t.push name value).Legible := by
  refine List.forall_mem_append.mpr ⟨ht, List.forall_mem_singleton.mpr ?_⟩
  rw [isText, String.toList_ofList]
  exact List.all_eq_true.mpr hvalue

/-- **One step of the scanner keeps all characters legible.** -/
theorem Mode.Legible.step {m m' : Mode} {c : Char} {token : Option Token} (hm : m.Legible)
    (hc : isChar c) (h : m.step .first c = some (m', token)) :
    m'.Legible ∧ ∀ t ∈ token, t.Legible := by
  have hnone : ∀ t ∈ (none : Option Token), t.Legible := fun t ht => by cases ht
  have hsome : ∀ {t : Token}, t.Legible → ∀ u ∈ some t, u.Legible := by
    rintro t ht u ⟨⟩
    exact ht
  cases m with
  | reference name =>
    rw [Mode.step] at h
    split at h
    · obtain ⟨r, hr, heq⟩ := Option.map_eq_some_iff.mp h
      cases heq
      exact ⟨trivial, hsome (List.forall_mem_singleton.mpr (isChar_of_reference? hr))⟩
    · split at h <;> cases h
      exact ⟨trivial, hnone⟩
  | bang seen =>
    obtain ⟨s, -, heq⟩ := Option.map_eq_some_iff.mp h
    cases heq
    refine ⟨?_, hnone⟩
    cases s with
    | none => trivial
    | some s =>
      cases s with
      | comment => trivial
      | data => exact fun c hc => absurd hc List.not_mem_nil
  | data body brackets =>
    rw [Mode.step, Version.isChar_first, if_pos hc] at h
    split at h
    · cases h
      refine ⟨trivial, hsome fun d hd => hm d ?_⟩
      exact List.mem_of_mem_drop (List.mem_reverse.mp hd)
    · cases h
      exact ⟨List.forall_mem_cons.mpr ⟨hc, hm⟩, hnone⟩
  | openName name =>
    rw [Mode.step] at h
    have hempty := RawTag.legible_nil
    grind [Mode.Legible, Token.Legible, Option.map_eq_some_iff]
  | attrValue t name quote value mode =>
    obtain ⟨ht, hvalue⟩ := hm
    rw [Mode.step] at h
    split at h
    · cases h
      exact ⟨ht.push name fun d hd => hvalue d (List.mem_reverse.mp hd), hnone⟩
    · obtain ⟨p, hp, heq⟩ := Option.map_eq_some_iff.mp h
      cases heq
      exact ⟨⟨ht, ValueMode.isChar_step hc hvalue hp⟩, hnone⟩
  | attrQuote t name =>
    rw [Mode.step] at h
    split at h
    · cases h
      exact ⟨⟨hm, fun c hc => absurd hc List.not_mem_nil⟩, hnone⟩
    · split at h <;> cases h
      exact ⟨hm, hnone⟩
  | _ => grind [Mode.step, Mode.Legible, Token.Legible, Option.map_eq_some_iff]

/-- What the scanner has read so far is legible. -/
def Scanner.Legible (s : Scanner) : Prop := s.mode.Legible ∧ ∀ t ∈ s.tokens, t.Legible

theorem Scanner.Legible.step {s s' : Scanner} {c : Char} (hs : s.Legible) (hc : isChar c)
    (h : s.step .first c = some s') : s'.Legible := by
  obtain ⟨⟨m, token⟩, hstep, rfl⟩ := Option.map_eq_some_iff.mp h
  obtain ⟨hm, htoken⟩ := hs.1.step hc hstep
  refine ⟨hm, List.forall_mem_append.mpr ⟨fun t ht => ?_, hs.2⟩⟩
  exact htoken t (Option.mem_toList.mp ht)

/-- **The tokens of a text are legible.** -/
theorem legible_of_tokens? {cs : List Char} {ts : List Token} (h : tokens? .first cs = some ts) :
    ∀ t ∈ ts, t.Legible := by
  obtain ⟨s, hs, hfinish⟩ := Option.bind_eq_some_iff.mp h
  have hstart : (∀ q ∈ (Mode.text 0).quote?, isChar q) ∧ Scanner.Legible ⟨.text 0, []⟩ :=
    ⟨fun q hq => (by cases hq), trivial, fun t ht => absurd ht List.not_mem_nil⟩
  -- a character that is taken is one that a document may hold, and so the scanner stays legible
  have hlegible : s.Legible := by
    refine (Text.run_invariant (P := fun s => (∀ q ∈ s.mode.quote?, isChar q) ∧ s.Legible)
      (p := fun c => isChar c) (fun t c t' ht hstep => ?_) hstart hs).2.2
    obtain ⟨hc, hquote⟩ := Scanner.isChar_of_step ht.1 hstep
    exact ⟨hc, hquote, ht.2.step hc hstep⟩
  rw [Scanner.finish] at hfinish
  split at hfinish
  · cases hfinish
    exact fun t ht => hlegible.2 t (List.mem_reverse.mp ht)
  · cases hfinish

/-! ### Trees -/

/-- The values of all attributes are texts. -/
def Tag.Legible (t : Tag) : Prop := ∀ a ∈ t.attributes, isText a.2

theorem Tag.Legible.get? {t : Tag} (ht : t.Legible) {name value : String}
    (h : t.get? name = some value) : isText value := by
  rw [Tag.get?, List.lookup_eq_some_iff] at h
  obtain ⟨l, r, heq, -⟩ := h
  have hmem : (name, value) ∈ t.attributes.reverse := by
    rw [heq]
    simp
  exact ht _ (List.mem_reverse.mp hmem)

/-- Characters are such as a document may hold, and tags are legible. -/
def Content.Legible {τ : Type} (legible : τ → Prop) : Content τ → Prop
  | .nil => True
  | .text cs rest => (∀ c ∈ cs, isChar c) ∧ rest.Legible legible
  | .quoted cs rest => (∀ c ∈ cs, isChar c) ∧ rest.Legible legible
  | .comment _ rest => rest.Legible legible
  | .instruction _ _ rest => rest.Legible legible
  | .element t content rest => legible t ∧ content.Legible legible ∧ rest.Legible legible

namespace Content

variable {τ : Type} {legible : τ → Prop}

theorem Legible.consChar {x : Content τ} (hx : x.Legible legible) {c : Char} (hc : isChar c) :
    (x.consChar c).Legible legible := by
  cases x with
  | text cs rest => exact ⟨List.forall_mem_cons.mpr ⟨hc, hx.1⟩, hx.2⟩
  | _ => exact ⟨List.forall_mem_singleton.mpr hc, hx⟩

theorem Legible.chars {x : Content τ} (hx : x.Legible legible) : ∀ c ∈ x.chars, isChar c := by
  induction x with
  | nil => exact fun c hc => absurd hc List.not_mem_nil
  | text cs rest ih => exact List.forall_mem_append.mpr ⟨hx.1, ih hx.2⟩
  | quoted cs rest ih => exact List.forall_mem_append.mpr ⟨hx.1, ih hx.2⟩
  | comment body rest ih => exact ih hx
  | instruction target body rest ih => exact ih hx
  | element t content rest _ ih => exact ih hx.2.2

theorem Legible.isText_chars {x : Content τ} (hx : x.Legible legible) :
    isText (String.ofList x.chars) := by
  rw [isText, String.toList_ofList]
  exact List.all_eq_true.mpr hx.chars

theorem Legible.first? {x : Content τ} (hx : x.Legible legible) {t : τ} {content : Content τ}
    (h : x.first? = some (t, content)) : content.Legible legible := by
  induction x with
  | nil => cases h
  | text cs rest ih => exact ih hx.2 h
  | quoted cs rest ih => exact ih hx.2 h
  | comment body rest ih => exact ih hx h
  | instruction target body rest ih => exact ih hx h
  | element u inner rest _ _ =>
    cases h
    exact hx.2.1

end Content

/-- What follows a token is legible. -/
def Tail.Legible (t : Tail) : Prop :=
  t.content.Legible RawTag.Legible ∧ ∀ p ∈ t.pending, p.2.Legible RawTag.Legible

theorem Tail.Legible.cons? {t t' : Tail} (ht : t.Legible) {token : Token} (htoken : token.Legible)
    (h : Tail.cons? token t = some t') : t'.Legible := by
  obtain ⟨hcontent, hpending⟩ := ht
  cases token with
  | char c =>
    cases h
    exact ⟨hcontent.consChar htoken, hpending⟩
  | quoted cs =>
    cases h
    exact ⟨⟨htoken, hcontent⟩, hpending⟩
  | comment body =>
    cases h
    exact ⟨hcontent, hpending⟩
  | instruction target body =>
    cases h
    exact ⟨hcontent, hpending⟩
  | closeTag name =>
    cases h
    exact ⟨trivial, List.forall_mem_cons.mpr ⟨hcontent, hpending⟩⟩
  | emptyTag tag =>
    cases h
    exact ⟨⟨htoken, trivial, hcontent⟩, hpending⟩
  | openTag tag =>
    rw [Tail.cons?] at h
    split at h
    · rename_i name outer pending heq
      rw [heq] at hpending
      obtain ⟨houter, hpending⟩ := List.forall_mem_cons.mp hpending
      split at h
      · cases h
        exact ⟨⟨htoken, hcontent, houter⟩, hpending⟩
      · cases h
    · cases h

theorem Tail.legible_of_ofTokens? {ts : List Token} (hts : ∀ t ∈ ts, t.Legible) {t : Tail}
    (h : Tail.ofTokens? ts = some t) : t.Legible := by
  induction ts generalizing t with
  | nil =>
    cases h
    exact ⟨trivial, fun p hp => absurd hp List.not_mem_nil⟩
  | cons token ts ih =>
    obtain ⟨htoken, hts⟩ := List.forall_mem_cons.mp hts
    obtain ⟨after, hafter, hcons⟩ := Option.bind_eq_some_iff.mp h
    exact (ih hts hafter).cons? htoken hcons

theorem RawTag.Legible.toTag {t : RawTag} (ht : t.Legible) : t.toTag.Legible := by
  intro a ha
  obtain ⟨b, hb, rfl⟩ := List.mem_map.mp ha
  exact ht b (List.mem_of_mem_filter hb)

/-- Resolving names changes no text. -/
theorem Content.Legible.resolve? {known : List String} {x : Content RawTag}
    (hx : x.Legible RawTag.Legible) {y : Content Tag} (h : x.resolve? known = some y) :
    y.Legible Tag.Legible := by
  induction x generalizing known y with
  | nil =>
    cases h
    trivial
  | text cs rest ih =>
    obtain ⟨z, hz, rfl⟩ := Option.map_eq_some_iff.mp h
    exact ⟨hx.1, ih hx.2 hz⟩
  | quoted cs rest ih =>
    obtain ⟨z, hz, rfl⟩ := Option.map_eq_some_iff.mp h
    exact ⟨hx.1, ih hx.2 hz⟩
  | comment body rest ih =>
    obtain ⟨z, hz, rfl⟩ := Option.map_eq_some_iff.mp h
    exact (ih hx hz : z.Legible _)
  | instruction target body rest ih =>
    obtain ⟨z, hz, rfl⟩ := Option.map_eq_some_iff.mp h
    exact (ih hx hz : z.Legible _)
  | element t content rest ihc ihr =>
    obtain ⟨ht, hcontent, hrest⟩ := hx
    rw [Content.resolve?] at h
    split at h
    · split at h
      · rename_i hc hr
        cases h
        exact ⟨ht.toTag, ihc hcontent hc, ihr hrest hr⟩
      · cases h
    · cases h

/-- The version by which a text is read. -/
def version? (text : String) : Option Version := (source? text).map Prod.fst

/-- **What is read is legible**, unless the text declares the second version: the characters of all
elements and the values of all attributes. -/
theorem legible_of_root? {text : String} (hversion : version? text ≠ some .second) {t : Tag}
    {content : Content Tag} (h : root? text = some (t, content)) :
    content.Legible Tag.Legible := by
  obtain ⟨tree, htree, hfirst⟩ := Option.bind_eq_some_iff.mp h
  simp only [content?, Option.bind_eq_bind, Option.bind_eq_some_iff] at htree
  obtain ⟨⟨v, cs⟩, hsource, ts, hts, raw, hraw, hresolve⟩ := htree
  have hv : v = .first := by
    rw [version?, hsource] at hversion
    cases v with
    | first => rfl
    | second => exact absurd rfl hversion
  subst hv
  have hlegible : raw.Legible RawTag.Legible := by
    rw [Content.ofTokens?] at hraw
    split at hraw
    · rename_i htail
      cases hraw
      exact (Tail.legible_of_ofTokens? (legible_of_tokens? hts) htail).1
    · cases hraw
  split at hresolve
  · exact (hlegible.resolve? hresolve).first? hfirst
  · cases hresolve

end BlockProgram.Xml
