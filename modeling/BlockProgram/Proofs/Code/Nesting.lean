import BlockProgram.Code.Suite

/-!
# Nesting read off the indentation

A printed program has no brackets: what belongs to what is told by the spaces before the lines
alone. A line belongs to the nearest earlier line with fewer spaces before it. Reading a text so
gives back the suite that was printed, provided that every line of the suite is one line on paper
and does not itself begin with a space.
-/

namespace BlockProgram

/-! ### Lines -/

namespace Text

/-- The lines of a text as lists of characters: what stands between line feeds, without the
nothing that stands after the last one. -/
def charLines : List Char → List (List Char)
  | [] => []
  | c :: cs =>
    if c = '\n' then [] :: charLines cs
    else
      match charLines cs with
      | [] => [[c]]
      | line :: rest => (c :: line) :: rest

/-- The lines of a text. -/
def lines (s : String) : List String := (charLines s.toList).map String.ofList

/-- How many spaces stand before a line. -/
def depth (line : String) : Nat := (line.toList.takeWhile (· = ' ')).length

/-- A text that makes one line, the spaces before it aside: it has no line feed, and it begins
with a character that is no space. -/
structure OneLine (s : String) : Prop where
  /-- It begins, and not with a space. -/
  starts : ∃ c cs, s.toList = c :: cs ∧ c ≠ ' '
  /-- It goes on to its end. -/
  unbroken : '\n' ∉ s.toList

@[simp] theorem lines_empty : lines "" = [] := rfl

theorem charLines_append {line : List Char} (h : '\n' ∉ line) (rest : List Char) :
    charLines (line ++ '\n' :: rest) = line :: charLines rest := by
  induction line with
  | nil => simp [charLines]
  | cons c cs ih =>
    rw [List.mem_cons, not_or] at h
    simp [charLines, ih h.2, Ne.symm h.1]

/-- A text up to its first line feed is its first line. -/
theorem lines_append {line : String} (h : '\n' ∉ line.toList) (rest : String) :
    lines (line ++ "\n" ++ rest) = line :: lines rest := by
  simp [lines, charLines_append h]

theorem unbroken_indent {text : String} (h : OneLine text) (level : Nat) :
    '\n' ∉ (indent level ++ text).toList := by
  simp [h.unbroken]

theorem depth_indent {text : String} (h : OneLine text) (level : Nat) :
    depth (indent level ++ text) = 2 * level := by
  obtain ⟨c, cs, htext, hc⟩ := h.starts
  simp [depth, htext, hc]

end Text

/-! ### The lines of a suite -/

namespace Suite

open Text (OneLine depth)

/-- All lines from top to bottom. -/
def lines : Suite → List String
  | nil => []
  | cons text body rest => text :: (body.lines ++ rest.lines)

/-- The suite with every line indented as it is printed. -/
def indented (level : Nat) : Suite → Suite
  | nil => nil
  | cons text body rest =>
    cons (Text.indent level ++ text) (body.indented (level + 1)) (rest.indented level)

@[simp] theorem indented_append (level : Nat) (s t : Suite) :
    (s ++ t).indented level = s.indented level ++ t.indented level := by
  induction s with
  | nil => rfl
  | cons text body rest _ ih => simp [indented, ih]

@[simp] theorem lines_append (s t : Suite) : (s ++ t).lines = s.lines ++ t.lines := by
  induction s with
  | nil => rfl
  | cons text body rest _ ih => simp [lines, ih]

/-- The lines of the text of a suite are its lines, indented. -/
theorem lines_print {s : Suite} (h : ∀ l ∈ s.lines, OneLine l) (level : Nat) (rest : String) :
    Text.lines (s.print level ++ rest) = (s.indented level).lines ++ Text.lines rest := by
  induction s generalizing level rest with
  | nil => simp [indented, lines]
  | cons text body after ihb iha =>
    obtain ⟨htext, h⟩ := List.forall_mem_cons.mp h
    obtain ⟨hbody, hafter⟩ := List.forall_mem_append.mp h
    have hfirst := Text.lines_append (Text.unbroken_indent htext level)
      (body.print (level + 1) ++ (after.print level ++ rest))
    simp only [print, String.append_assoc] at hfirst ⊢
    rw [hfirst, ihb hbody, iha hafter]
    simp [indented, lines]

/-- Every line of an indented suite is a line of the suite after some spaces, two for each
level. -/
theorem mem_lines_indented {s : Suite} {level : Nat} {l : String}
    (h : l ∈ (s.indented level).lines) :
    ∃ deep text, level ≤ deep ∧ text ∈ s.lines ∧ l = Text.indent deep ++ text := by
  induction s generalizing level with
  | nil => exact absurd h List.not_mem_nil
  | cons text body rest ihb ihr =>
    simp only [indented, lines, List.mem_cons, List.mem_append] at h ⊢
    rcases h with rfl | h | h
    · exact ⟨level, text, Nat.le_refl level, .inl rfl, rfl⟩
    · obtain ⟨deep, inner, hdeep, hinner, hl⟩ := ihb h
      exact ⟨deep, inner, by omega, .inr (.inl hinner), hl⟩
    · obtain ⟨deep, inner, hdeep, hinner, hl⟩ := ihr h
      exact ⟨deep, inner, hdeep, .inr (.inr hinner), hl⟩

/-! ### Reading the nesting -/

/-- The first lines of a suite, with their bodies, as far as more than a number of spaces stand
before them. -/
def takeDeeper (d : Nat) : Suite → Suite
  | nil => nil
  | cons text body rest => if d < depth text then cons text body (rest.takeDeeper d) else nil

/-- What comes after those lines. -/
def dropDeeper (d : Nat) : Suite → Suite
  | nil => nil
  | cons text body rest => if d < depth text then rest.dropDeeper d else cons text body rest

/-- Lines nested by their indentation alone: under a line stand the lines after it, as far as they
are deeper. -/
def nest : List String → Suite
  | [] => nil
  | l :: ls => cons l ((nest ls).takeDeeper (depth l)) ((nest ls).dropDeeper (depth l))

/-- At most so many spaces stand before the first line, if there is one. -/
def StartsBy (d : Nat) (s : Suite) : Prop := ∀ l ∈ s.lines.head?, depth l ≤ d

theorem startsBy_nil (d : Nat) : nil.StartsBy d := fun _ h => nomatch h

theorem startsBy_cons {d : Nat} {text : String} {body rest : Suite} :
    (cons text body rest).StartsBy d ↔ depth text ≤ d := by
  simp [StartsBy, lines]

theorem StartsBy.mono {d e : Nat} {s : Suite} (h : s.StartsBy d) (hde : d ≤ e) : s.StartsBy e :=
  fun l hl => Nat.le_trans (h l hl) hde

/-! ### Each line belongs to the nearest earlier line that is less deep -/

/-- No line of a body is as far left as the line it stands under, and the next line on a line's
own level is no deeper than it. -/
def Nested : Suite → Prop
  | nil => True
  | cons text body rest =>
    (∀ l ∈ body.lines, depth text < depth l) ∧ rest.StartsBy (depth text) ∧ body.Nested ∧ rest.Nested

theorem lines_takeDeeper_append (d : Nat) (s : Suite) :
    (s.takeDeeper d).lines ++ (s.dropDeeper d).lines = s.lines := by
  induction s with
  | nil => rfl
  | cons text body rest _ ih =>
    simp only [takeDeeper, dropDeeper]
    split
    · simp [lines, ← ih]
    · rfl

/-- Nesting keeps all lines in their order. -/
theorem lines_nest (ls : List String) : (nest ls).lines = ls := by
  induction ls with
  | nil => rfl
  | cons l ls ih => rw [nest, lines, lines_takeDeeper_append, ih]

theorem StartsBy.takeDeeper {d e : Nat} {s : Suite} (h : s.StartsBy e) :
    (s.takeDeeper d).StartsBy e := by
  cases s with
  | nil => exact h
  | cons text body rest =>
    rw [Suite.takeDeeper]
    split
    · exact startsBy_cons.mpr (startsBy_cons.mp h)
    · exact startsBy_nil e

theorem startsBy_dropDeeper (d : Nat) (s : Suite) : (s.dropDeeper d).StartsBy d := by
  induction s with
  | nil => exact startsBy_nil d
  | cons text body rest _ ih =>
    rw [dropDeeper]
    split
    · exact ih
    · exact startsBy_cons.mpr (by omega)

theorem Nested.takeDeeper {s : Suite} (h : s.Nested) (d : Nat) : (s.takeDeeper d).Nested := by
  induction s with
  | nil => exact h
  | cons text body rest _ ih =>
    obtain ⟨hdeep, hstart, hbody, hrest⟩ := h
    rw [Suite.takeDeeper]
    split
    · exact ⟨hdeep, hstart.takeDeeper, hbody, ih hrest⟩
    · trivial

theorem Nested.dropDeeper {s : Suite} (h : s.Nested) (d : Nat) : (s.dropDeeper d).Nested := by
  induction s with
  | nil => exact h
  | cons text body rest _ ih =>
    rw [Suite.dropDeeper]
    split
    · exact ih h.2.2.2
    · exact h

theorem Nested.lt_of_mem_takeDeeper {s : Suite} (h : s.Nested) {d : Nat} :
    ∀ l ∈ (s.takeDeeper d).lines, d < depth l := by
  induction s with
  | nil => exact fun l hl => absurd hl List.not_mem_nil
  | cons text body rest _ ih =>
    obtain ⟨hdeep, -, -, hrest⟩ := h
    rw [Suite.takeDeeper]
    split
    · rename_i hd
      refine List.forall_mem_cons.mpr ⟨hd, List.forall_mem_append.mpr ⟨fun l hl => ?_, ih hrest⟩⟩
      exact Nat.lt_trans hd (hdeep l hl)
    · exact fun l hl => absurd hl List.not_mem_nil

theorem nested_nest (ls : List String) : (nest ls).Nested := by
  induction ls with
  | nil => trivial
  | cons l ls ih =>
    exact ⟨ih.lt_of_mem_takeDeeper, startsBy_dropDeeper _ _, ih.takeDeeper _, ih.dropDeeper _⟩

end Suite

namespace Text

/-- The number of the nearest earlier line with fewer spaces before it than `d`, the spaces before
the earlier lines given from the last line back to the first. -/
def nearest : List Nat → Nat → Option Nat
  | [], _ => none
  | e :: before, d => if e < d then some before.length else nearest before d

/-- For each of some lines the number of the nearest earlier line with fewer spaces before it,
after some lines that came before. -/
def owners : List Nat → List Nat → List (Option Nat)
  | _, [] => []
  | before, d :: ds => nearest before d :: owners (d :: before) ds

theorem owners_append (before ds es : List Nat) :
    owners before (ds ++ es) = owners before ds ++ owners (ds.reverse ++ before) es := by
  induction ds generalizing before with
  | nil => rfl
  | cons d ds ih => simp [owners, ih]

/-- Lines that are deeper own nothing that is less deep. -/
theorem nearest_append {deeper : List Nat} {d : Nat} (h : ∀ e ∈ deeper, d ≤ e)
    (before : List Nat) : nearest (deeper ++ before) d = nearest before d := by
  induction deeper with
  | nil => rfl
  | cons e deeper ih =>
    obtain ⟨he, h⟩ := List.forall_mem_cons.mp h
    rw [List.cons_append, nearest, if_neg (by omega), ih h]

end Text

namespace Suite

open Text (OneLine depth)

/-- For each line of a suite the number of the line it stands under, given that of the line the
suite stands under and the number of its first line. -/
def owners (owner : Option Nat) (start : Nat) : Suite → List (Option Nat)
  | nil => []
  | cons _ body rest =>
    owner :: (body.owners (some start) (start + 1) ++
      rest.owners owner (start + 1 + body.lines.length))

theorem Nested.owners_eq {s : Suite} (h : s.Nested) (before : List Nat) (owner : Option Nat)
    {least : Nat} (hleast : ∀ l ∈ s.lines, least ≤ depth l)
    (howner : ∀ l ∈ s.lines.head?, ∀ d, least ≤ d → d ≤ depth l → Text.nearest before d = owner) :
    s.owners owner before.length = Text.owners before (s.lines.map depth) := by
  induction s generalizing before owner least with
  | nil => rfl
  | cons text body rest ihb ihr =>
    obtain ⟨hdeep, hstart, hbody, hrest⟩ := h
    obtain ⟨htext, hleast⟩ := List.forall_mem_cons.mp hleast
    have hbefore := howner text rfl
    -- In the body every line has `text` as the nearest line that is less deep.
    have hb := ihb hbody (depth text :: before) (some before.length) hdeep
      (fun l _ d hd _ => by rw [Text.nearest, if_pos (by omega)])
    -- After the body neither its lines nor `text` own a line that is no deeper than `text`.
    have hr := ihr hrest ((body.lines.map depth).reverse ++ depth text :: before) owner
      (List.forall_mem_append.mp hleast).2
      (fun l hl d hd hdl => by
        have hdtext : d ≤ depth text := Nat.le_trans hdl (hstart l hl)
        rw [Text.nearest_append, Text.nearest, if_neg (by omega), hbefore d hd hdtext]
        intro e he
        obtain ⟨m, hm, rfl⟩ := List.mem_map.mp (List.mem_reverse.mp he)
        exact Nat.le_trans hdtext (Nat.le_of_lt (hdeep m hm)))
    have hlength : ((body.lines.map depth).reverse ++ depth text :: before).length =
        before.length + 1 + body.lines.length := by
      simp; omega
    rw [hlength] at hr
    rw [List.length_cons] at hb
    rw [owners, lines, List.map_cons, List.map_append, Text.owners, Text.owners_append,
      hbefore _ htext (Nat.le_refl _), hb, hr]

/-- A suite is the nesting of some lines by their indentation alone. -/
structure IsNesting (s : Suite) (ls : List String) : Prop where
  /-- From top to bottom its lines are those lines. -/
  lines_eq : s.lines = ls
  /-- Each stands under the nearest earlier one with fewer spaces before it. -/
  owners_eq : s.owners none 0 = Text.owners [] (ls.map depth)

/-- **Each line is put under the nearest earlier line with fewer spaces before it.** -/
theorem isNesting_nest (ls : List String) : (nest ls).IsNesting ls := by
  have h := (nested_nest ls).owners_eq [] none (fun l _ => Nat.zero_le (depth l))
    (fun _ _ _ _ _ => rfl)
  rw [lines_nest] at h
  exact ⟨lines_nest ls, h⟩

/-! ### Reading what was printed -/

/-- The lines of a printed body are told from what comes after it. -/
theorem deeper_indented {s : Suite} (h : ∀ l ∈ s.lines, OneLine l) {d level : Nat}
    (hd : d < 2 * level) {t : Suite} (ht : t.StartsBy d) :
    (s.indented level ++ t).takeDeeper d = s.indented level ∧
      (s.indented level ++ t).dropDeeper d = t := by
  induction s with
  | nil =>
    cases t with
    | nil => exact ⟨rfl, rfl⟩
    | cons text body rest =>
      have hdepth : ¬ d < depth text := Nat.not_lt.mpr (startsBy_cons.mp ht)
      simp [indented, takeDeeper, dropDeeper, hdepth]
  | cons text body rest _ ih =>
    obtain ⟨htext, h⟩ := List.forall_mem_cons.mp h
    obtain ⟨htake, hdrop⟩ := ih (List.forall_mem_append.mp h).2
    simp [indented, takeDeeper, dropDeeper, Text.depth_indent htext, hd, htake, hdrop]

theorem StartsBy.indented_append {s t : Suite} (h : ∀ l ∈ s.lines, OneLine l) {level : Nat}
    (ht : t.StartsBy (2 * level)) : (s.indented level ++ t).StartsBy (2 * level) := by
  cases s with
  | nil => exact ht
  | cons text body rest =>
    exact startsBy_cons.mpr (Nat.le_of_eq (Text.depth_indent (h text List.mem_cons_self) level))

theorem nest_lines_append {s : Suite} (h : ∀ l ∈ s.lines, OneLine l) (level : Nat)
    (ls : List String) (hls : (nest ls).StartsBy (2 * level)) :
    nest ((s.indented level).lines ++ ls) = s.indented level ++ nest ls := by
  induction s generalizing level ls with
  | nil => rfl
  | cons text body rest ihb ihr =>
    obtain ⟨htext, h⟩ := List.forall_mem_cons.mp h
    obtain ⟨hbody, hrest⟩ := List.forall_mem_append.mp h
    have hafter := ihr hrest level ls hls
    have hstart : (rest.indented level ++ nest ls).StartsBy (2 * level) := hls.indented_append hrest
    have hbelow := ihb hbody (level + 1) ((rest.indented level).lines ++ ls)
      (by rw [hafter]; exact hstart.mono (by omega))
    rw [hafter] at hbelow
    obtain ⟨htake, hdrop⟩ := deeper_indented hbody (by omega : 2 * level < 2 * (level + 1)) hstart
    simp only [indented, lines, List.cons_append, List.append_assoc, nest, hbelow,
      Text.depth_indent htext, htake, hdrop, cons_append]

/-- **A printed suite is read back from its indentation.** -/
theorem nest_print {s : Suite} (h : ∀ l ∈ s.lines, OneLine l) (level : Nat) :
    nest (Text.lines (s.print level)) = s.indented level := by
  have hlines := lines_print h level ""
  have hnest := nest_lines_append h level [] (startsBy_nil _)
  rw [String.append_empty, Text.lines_empty, List.append_nil] at hlines
  rw [hlines]
  simpa [nest] using hnest

end Suite

end BlockProgram
