import BlockProgram.Proofs.Document.Places
import BlockProgram.Proofs.Workspace.Migration

/-!
# Normal forms of documents

A document that is brought into the form in which documents are written is loaded and written. If
the canvas is legible, what was written is accepted again, and loading it changes nothing but
places, so that the second form is that of the canvas at its saved places. From then on nothing
changes any more. The second form is the first one unless a coordinate was written as a negative
zero, which is written as a plain zero once it has been read.

Every canvas is legible that comes from a document of the first version. The second version admits
references to control characters, and these are written as they are, into a form that declares no
version: it is refused.
-/

namespace BlockProgram

open Xml Document

/-- The texts of the coordinates of a place that has been saved. -/
theorem Position.attributes_saved {p : Position} (hp : p.isFinite)
    (h : Coordinate.text p.x ≠ "-0" ∧ Coordinate.text p.y ≠ "-0") :
    p.saved.attributes = p.attributes := by
  obtain ⟨hx, hy⟩ := Bool.and_eq_true_iff.mp hp
  rw [attributes, attributes, saved, Coordinate.text_saved hx, Coordinate.text_saved hy,
    if_neg h.1, if_neg h.2]

/-- A saved place is written without a negative zero. -/
theorem Position.text_saved_ne {p : Position} (hp : p.isFinite) :
    Coordinate.text p.saved.x ≠ "-0" ∧ Coordinate.text p.saved.y ≠ "-0" := by
  obtain ⟨hx, hy⟩ := Bool.and_eq_true_iff.mp hp
  exact ⟨Coordinate.text_saved_ne hx, Coordinate.text_saved_ne hy⟩

namespace Workspace

/-- No coordinate is written as a negative zero. -/
def Unsigned (w : Workspace) : Prop :=
  ∀ t ∈ w.top, ∀ p ∈ t.position, Coordinate.text p.x ≠ "-0" ∧ Coordinate.text p.y ≠ "-0"

variable {w : Workspace}

theorem Restorable.unsigned_saved (hw : w.Restorable) : w.saved.Unsigned := by
  refine List.forall_mem_map.mpr fun t ht p hp => ?_
  obtain ⟨q, hq, rfl⟩ := Option.map_eq_some_iff.mp hp
  exact Position.text_saved_ne (hw.finite t ht q hq)

/-- Saved places are written as the places were, if no coordinate is written as a negative zero. -/
theorem Restorable.write_saved (hw : w.Restorable) (h : w.Unsigned) :
    write w.saved = write w := by
  refine write_congr ?_ rfl
  rw [Workspace.saved, List.map_map]
  refine List.map_congr_left fun t ht => ?_
  have hplace : (t.position.map Position.saved).map Position.attributes =
      t.position.map Position.attributes := by
    rw [Option.map_map]
    exact Option.map_congr fun p hp => Position.attributes_saved (hw.finite t ht p hp) (h t ht p hp)
  exact congrArg (t.block, ·) hplace

/-- A negative zero is read as one, and the zero that is written of it is not. -/
theorem unsigned_of_saved_eq (hw : w.Restorable) (h : w.saved.saved.top = w.saved.top) :
    w.Unsigned := by
  have hcoordinate : ∀ {d : Double}, d.isFinite →
      Coordinate.saved (Coordinate.saved d) = Coordinate.saved d → Coordinate.text d ≠ "-0" := by
    intro d hd hsame htext
    have hread := Coordinate.readFinite?_text (Coordinate.isFinite_saved d)
    rw [Coordinate.text_saved hd, if_pos htext, hsame, ← Coordinate.readFinite?_text hd,
      htext] at hread
    exact absurd hread (by decide +kernel)
  intro t ht p hp
  obtain ⟨hx, hy⟩ := Bool.and_eq_true_iff.mp (hw.finite t ht p hp)
  have hmap : w.top.map (fun t => t.saved.saved) = w.top.map TopBlock.saved := by
    rw [saved, saved, List.map_map] at h
    exact h
  have hplace := congrArg TopBlock.position (List.map_inj_left.mp hmap t ht)
  have hp : t.position = some p := hp
  simp only [TopBlock.saved, hp, Option.map_some, Option.some.injEq] at hplace
  exact ⟨hcoordinate hx (congrArg Position.x hplace), hcoordinate hy (congrArg Position.y hplace)⟩

/-- A canvas whose variables go by distinct identifiers is loaded as it was saved. -/
theorem Restorable.load_write (hw : w.Restorable) (hclean : w.registry.Clean) :
    ∃ w', load (write w) = .ok w' ∧ w'.top = w.saved.top ∧ write w' = write w.saved := by
  obtain ⟨w', hread, htop, hvars⟩ := hw.read_saved
  refine ⟨w', ?_, htop, write_congr (by rw [htop]) hvars⟩
  rw [load, hread]
  exact congrArg Except.ok (migrate_of_clean (hclean.congr hvars))

/-- The second form of a document is that of its canvas at the saved places. -/
theorem Restorable.normalize_write (hw : w.Restorable) (hclean : w.registry.Clean) :
    Document.normalize (write w) = .ok (write w.saved) := by
  obtain ⟨w', hload, -, hwrite⟩ := hw.load_write hclean
  rw [Document.normalize, hload]
  exact congrArg Except.ok hwrite

theorem Restorable.write_saved_iff (hw : w.Restorable) (hclean : w.registry.Clean) :
    write w.saved = write w ↔ w.Unsigned := by
  refine ⟨fun h => unsigned_of_saved_eq hw ?_, hw.write_saved⟩
  obtain ⟨w₁, hload, htop, -⟩ := hw.load_write hclean
  obtain ⟨w₂, hload', htop', -⟩ := hw.saved.load_write hclean
  -- one text is loaded as one canvas
  rw [h, hload] at hload'
  cases hload'
  exact htop'.symm.trans htop

end Workspace

/-- What is written of a canvas that is not legible has no normal form. -/
theorem Document.normalize_write_of_not_legible {w : Workspace} (h : ¬ w.Legible) :
    normalize (write w) = .error .malformed := by
  rw [normalize, load, read_write_of_not_legible h]
  rfl

/-- **Normal forms of documents.** The normal form of a document is what is written of its canvas.
If the canvas is legible, as it is unless the document declares the second version of markup, the
normal form is accepted again, and its second form is the normal form of itself; the two forms are
one text if and only if no coordinate of the first was written as a negative zero. If the canvas is
not legible, its normal form is refused. -/
theorem Document.normalize_normalize {text once : String} (h : normalize text = .ok once) :
    ∃ w, load text = .ok w ∧ once = write w ∧
      (version? text ≠ some .second → w.Legible) ∧
      (w.Legible → normalize once = .ok (write w.saved) ∧
        normalize (write w.saved) = .ok (write w.saved) ∧ (write w.saved = once ↔ w.Unsigned)) ∧
      (¬ w.Legible → normalize once = .error .malformed) ∧
      (normalize once = .ok once ↔ w.Legible ∧ w.Unsigned) := by
  obtain ⟨w, hload, rfl⟩ := exists_of_map_eq_ok h
  have hclean := clean_of_load hload
  refine ⟨w, hload, rfl, fun hversion => legible_of_load hversion hload, fun hlegible => ?_,
    normalize_write_of_not_legible, ?_⟩
  · have hw := restorable_of_load hload hlegible
    refine ⟨hw.normalize_write hclean, ?_, hw.write_saved_iff hclean⟩
    rw [hw.saved.normalize_write hclean, hw.saved.write_saved hw.unsigned_saved]
  · by_cases hlegible : w.Legible
    · have hw := restorable_of_load hload hlegible
      rw [hw.normalize_write hclean, Except.ok.injEq, hw.write_saved_iff hclean]
      exact (and_iff_right hlegible).symm
    · rw [normalize_write_of_not_legible hlegible]
      exact iff_of_false (by simp) fun hw => hlegible hw.1

/-- A block without an identity, at coordinates that are not written as they are given. -/
theorem Document.normalize_normalize_rounded :
    let text := "<xml><block type=\"text\" x=\"1e-3\" y=\"-2.0000001\"/></xml>"
    let once := "<xml>\n  <block type=\"text\" id=\"doc_block_1\" x=\"0.001\" y=\"-2\" />\n</xml>"
    normalize text = .ok once ∧ version? text ≠ some .second ∧
    ∃ w, load text = .ok w ∧ once = write w ∧ w.Legible ∧
      normalize once = .ok (write w.saved) ∧
      normalize (write w.saved) = .ok (write w.saved) ∧ (write w.saved = once ↔ w.Unsigned) := by
  intro text once
  have honce : normalize text = .ok once := by decide +kernel
  have hversion : version? text ≠ some .second := by decide +kernel
  obtain ⟨w, hload, hwrite, hlegible, hstable, -⟩ := normalize_normalize honce
  exact ⟨honce, hversion, w, hload, hwrite, hlegible hversion, hstable (hlegible hversion)⟩

/-- A negative coordinate without a millionth is written as a negative zero, and that as a zero. -/
theorem Document.normalize_negative_zero :
    let text := "<xml><block type=\"text\" id=\"a\" x=\"-0.0000002\" y=\"0\"/></xml>"
    let once := "<xml>\n  <block type=\"text\" id=\"a\" x=\"-0\" y=\"0\" />\n</xml>"
    let twice := "<xml>\n  <block type=\"text\" id=\"a\" x=\"0\" y=\"0\" />\n</xml>"
    normalize text = .ok once ∧ normalize once = .ok twice ∧ normalize once ≠ .ok once := by
  intro text once twice
  have htwice : normalize once = .ok twice := by decide +kernel
  refine ⟨by decide +kernel, htwice, fun h => ?_⟩
  have hsame : twice = once := Except.ok.inj (htwice.symm.trans h)
  exact absurd hsame (by decide)

/-- A control character that a document of the second version gives by a reference is written as it
is. -/
example :
    let text := "<?xml version=\"1.1\"?><xml><block type=\"text\" id=\"a\"><field name=\"TEXT\">" ++
      "&#1;</field></block></xml>"
    let once := "<xml>\n  <block type=\"text\" id=\"a\">\n" ++
      "    <field name=\"TEXT\">\x01</field>\n  </block>\n</xml>"
    normalize text = .ok once ∧ normalize once = .error .malformed := by
  decide +kernel

end BlockProgram
