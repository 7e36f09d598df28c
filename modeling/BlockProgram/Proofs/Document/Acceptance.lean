import BlockProgram.Proofs.Document.Items
import BlockProgram.Proofs.Document.Read
import Mathlib.Data.List.Induction

/-!
# Which documents are accepted

A document is accepted if each block element that is used names its kind, each of its fields and
slots has the name it needs, and no identity is met twice. The identities that are met are those
that the elements carry and those that are made up for elements without one. A made-up identity
differs from all that have been met before it, but an element further on may carry it. Such a
document is refused, although each identity that is written in it is written once.
-/

namespace BlockProgram.Document

/-! ### Conditions on items -/

/-- An item has what it needs: a block element the tag of its kind, a field its name, and a slot for
values or statements its name. -/
def Item.Complete : Item → Prop
  | .listed _ _ => True
  | .block h => h.type?.isSome
  | .field _ name? _ _ => name?.isSome
  | .slot element name? => element = .next ∨ name?.isSome

instance : DecidablePred Item.Complete
  | .listed _ _ => inferInstanceAs (Decidable True)
  | .block h => inferInstanceAs (Decidable (h.type?.isSome = true))
  | .field _ name? _ _ => inferInstanceAs (Decidable (name?.isSome = true))
  | .slot element name? => inferInstanceAs (Decidable (element = .next ∨ name?.isSome = true))

/-- The identity that a block element carries. -/
def Item.carried? : Item → Option BlockId
  | .block h => h.id?.map BlockId.mk
  | _ => none

/-- The identities that block elements carry. -/
def carriedIds (its : List Item) : List BlockId := its.filterMap Item.carried?

/-- The identity that is made up for a block element without one. -/
def Reading.madeUpId? (s : Reading) : Item → Option BlockId
  | .block ⟨_, some _, none⟩ => some s.mint.1
  | _ => none

/-- The identities that are made up while items are read. -/
def Reading.madeUpIds : Reading → List Item → List BlockId
  | _, [] => []
  | s, i :: its => (s.madeUpId? i).toList ++ (s.advance i).madeUpIds its

/-- A block element carries an identity that was made up for an element before it. -/
def Forestalled (its : List Item) (id : BlockId) : Prop :=
  ∃ before i after, its = before ++ i :: after ∧ i.carried? = some id ∧
    id ∈ Reading.start.madeUpIds before

/-! ### One item -/

namespace Reading

variable {s s' : Reading} {i : Item} {its : List Item} {id : BlockId}

/-- What reading does with an item: it misses what the item needs, or it has met the identity that
the item carries, or it accepts the item and has met its identity from then on. -/
theorem accept_cases (s : Reading) (i : Item) :
    (¬ i.Complete ∧ ∃ element name, s.accept i = .error (.missingAttribute element name)) ∨
    (∃ id ∈ s.seen, i.carried? = some id ∧ s.accept i = .error (.duplicateBlock id)) ∨
    (i.Complete ∧ (∀ id, i.carried? = some id → id ∉ s.seen) ∧ ∃ s', s.accept i = .ok s' ∧
      ∀ id, id ∈ s'.seen ↔ id ∈ s.seen ∨ i.carried? = some id ∨ s.madeUpId? i = some id) := by
  have hnone : ∀ id, (none : Option BlockId) = some id → id ∉ s.seen := fun _ h => nomatch h
  cases i with
  | listed handle? name =>
    refine .inr (.inr ⟨trivial, hnone, _, rfl, fun id => ?_⟩)
    cases handle? <;> simp [listed, Item.carried?, madeUpId?]
  | block h =>
    obtain ⟨element, type?, id?⟩ := h
    cases type? with
    | none => exact .inl ⟨Bool.false_ne_true, _, _, rfl⟩
    | some type =>
      cases id? with
      | none =>
        refine .inr (.inr ⟨rfl, hnone, _, rfl, fun id => ?_⟩)
        simp [Item.carried?, madeUpId?, mint, or_comm, eq_comm]
      | some text =>
        by_cases hmet : (⟨text⟩ : BlockId) ∈ s.seen
        · exact .inr (.inl ⟨_, hmet, rfl, by simp [accept, head, Except.map, hmet]⟩)
        · refine .inr (.inr ⟨rfl, fun id hid => ?_, { s with seen := ⟨text⟩ :: s.seen },
            by simp [accept, head, Except.map, hmet], fun id => ?_⟩)
          · cases hid
            exact hmet
          · simp [Item.carried?, madeUpId?, or_comm, eq_comm]
  | field kind name? handle? text =>
    cases name? with
    | none => exact .inl ⟨Bool.false_ne_true, _, _, rfl⟩
    | some name =>
      refine .inr (.inr ⟨rfl, hnone, _, rfl, fun id => ?_⟩)
      simp [(s.field_spec kind name handle? text).1, Item.carried?, madeUpId?]
  | slot slot name? =>
    have hseen : ∀ id, id ∈ s.seen ↔ id ∈ s.seen ∨ (Item.slot slot name?).carried? = some id ∨
        s.madeUpId? (.slot slot name?) = some id := by simp [Item.carried?, madeUpId?]
    cases name? with
    | some name =>
      have hok : s.accept (.slot slot (some name)) = .ok s := by cases slot <;> rfl
      exact .inr (.inr ⟨.inr rfl, hnone, s, hok, hseen⟩)
    | none =>
      cases slot with
      | next => exact .inr (.inr ⟨.inl rfl, hnone, s, rfl, hseen⟩)
      | value | statement => exact .inl ⟨by decide, _, _, rfl⟩

/-- An item is accepted if it has what it needs and does not carry an identity that has been met. -/
theorem exists_accept_iff :
    (∃ s', s.accept i = .ok s') ↔ i.Complete ∧ ∀ id, i.carried? = some id → id ∉ s.seen := by
  rcases s.accept_cases i with ⟨hcomplete, _, _, h⟩ | ⟨id, hmet, hid, h⟩ | ⟨hcomplete, hnew, s', h, -⟩
  · simp [h, hcomplete]
  · simpa [h] using fun _ => ⟨id, hid, hmet⟩
  · exact iff_of_true ⟨s', h⟩ ⟨hcomplete, hnew⟩

/-- A block element is refused for its identity only if it carries one that has been met. -/
theorem carried_of_accept_duplicate (h : s.accept i = .error (.duplicateBlock id)) :
    i.carried? = some id ∧ id ∈ s.seen := by
  rcases s.accept_cases i with ⟨-, _, _, hi⟩ | ⟨id', hmet, hid, hi⟩ | ⟨-, -, _, hi, -⟩
  · rw [h] at hi
    cases hi
  · rw [h] at hi
    cases hi
    exact ⟨hid, hmet⟩
  · rw [h] at hi
    cases hi

/-- The identities met with an item are the one that it carries and the one made up for it. -/
theorem mem_seen_of_accept (h : s.accept i = .ok s') :
    id ∈ s'.seen ↔ id ∈ s.seen ∨ i.carried? = some id ∨ s.madeUpId? i = some id := by
  rcases s.accept_cases i with ⟨-, _, _, hi⟩ | ⟨_, _, _, hi⟩ | ⟨-, -, _, hi, hseen⟩
  · rw [h] at hi
    cases hi
  · rw [h] at hi
    cases hi
  · rw [h] at hi
    cases hi
    exact hseen id

/-! ### A run -/

/-- The identities met in a run are those carried by its items and those made up for them. -/
theorem mem_seen_of_foldlM (h : its.foldlM accept s = .ok s') :
    id ∈ s'.seen ↔ id ∈ s.seen ∨ id ∈ carriedIds its ∨ id ∈ s.madeUpIds its := by
  induction its generalizing s with
  | nil =>
    cases h
    simp [carriedIds, madeUpIds]
  | cons i its ih =>
    obtain ⟨s₁, hi, hits⟩ := foldlM_cons_eq_ok.mp h
    have hcarried : id ∈ carriedIds (i :: its) ↔ i.carried? = some id ∨ id ∈ carriedIds its := by
      cases hc : i.carried? <;> simp [carriedIds, hc, eq_comm]
    rw [ih hits, mem_seen_of_accept hi, hcarried, madeUpIds, List.mem_append, Option.mem_toList,
      advance_eq hi]
    tauto

/-- From the start, what an item after a run carries has been met if it was carried or made up
before. -/
theorem mem_seen_of_start {before : List Item}
    (h : before.foldlM accept .start = .ok (before.foldl advance .start)) :
    id ∈ (before.foldl advance .start).seen ↔
      id ∈ carriedIds before ∨ id ∈ start.madeUpIds before := by
  rw [mem_seen_of_foldlM h, start]
  simp

end Reading

/-! ### Identities that are carried -/

theorem carriedIds_append (xs ys : List Item) :
    carriedIds (xs ++ ys) = carriedIds xs ++ carriedIds ys := List.filterMap_append

theorem carriedIds_cons {i : Item} {id : BlockId} (hi : i.carried? = some id) (its : List Item) :
    carriedIds (i :: its) = id :: carriedIds its := List.filterMap_cons_some hi

/-- The identities are distinct exactly if none is carried by an item before. -/
theorem nodup_carriedIds_iff {its : List Item} :
    (carriedIds its).Nodup ↔ ∀ before i after id, its = before ++ i :: after →
      i.carried? = some id → id ∉ carriedIds before := by
  constructor
  · rintro hnodup before i after id rfl hi hmem
    rw [carriedIds_append, carriedIds_cons hi, List.nodup_append] at hnodup
    exact hnodup.2.2 id hmem id List.mem_cons_self rfl
  · intro h
    induction its using List.reverseRecOn with
    | nil => exact List.nodup_nil
    | append_singleton its i ih =>
      have hinit : (carriedIds its).Nodup := ih fun before j after id hits hj =>
        h before j (after ++ [i]) id (by rw [hits]; simp) hj
      rw [carriedIds_append]
      cases hi : i.carried? with
      | none => simpa [carriedIds, hi] using hinit
      | some id =>
        rw [carriedIds_cons hi]
        refine List.nodup_append.mpr ⟨hinit, List.nodup_singleton _, ?_⟩
        rintro a ha b hb rfl
        exact h its i [] id rfl hi (List.mem_singleton.mp hb ▸ ha)

theorem two_le_count {before after : List Item} {i : Item} {id : BlockId}
    (hi : i.carried? = some id) (hmem : id ∈ carriedIds before) :
    2 ≤ (carriedIds (before ++ i :: after)).count id := by
  have hbefore : 0 < (carriedIds before).count id := List.count_pos_iff.mpr hmem
  rw [carriedIds_append, carriedIds_cons hi, List.count_append, List.count_cons_self]
  omega

/-- Made-up identities are numbered. -/
theorem Reading.exists_of_mem_madeUpIds {s : Reading} {its : List Item} {id : BlockId}
    (h : id ∈ s.madeUpIds its) : ∃ n, id = ⟨Fresh.name "doc_block_" n⟩ := by
  induction its generalizing s with
  | nil => cases h
  | cons i its ih =>
    rcases List.mem_append.mp h with hfirst | hrest
    · have hmint : s.madeUpId? i = some id := Option.mem_toList.mp hfirst
      unfold madeUpId? at hmint
      split at hmint
      · cases hmint
        exact ⟨_, rfl⟩
      · cases hmint
    · exact ih hrest

/-! ### Acceptance -/

/-- Items are accepted from the start if all have what they need and no identity is carried twice or
after it has been made up. -/
theorem exists_foldlM_accept_iff {its : List Item} :
    (∃ s, its.foldlM Reading.accept .start = .ok s) ↔
      (∀ i ∈ its, i.Complete) ∧ (carriedIds its).Nodup ∧ ∀ id, ¬ Forestalled its id := by
  constructor
  · rintro ⟨s, hs⟩
    have hsplit : ∀ before i after, its = before ++ i :: after → i.Complete ∧ ∀ id,
        i.carried? = some id →
          ¬ (id ∈ carriedIds before ∨ id ∈ Reading.start.madeUpIds before) := by
      rintro before i after rfl
      obtain ⟨hbefore, hi⟩ := Reading.accept_of_foldlM hs
      obtain ⟨hcomplete, hnew⟩ := Reading.exists_accept_iff.mp hi
      exact ⟨hcomplete, fun id hid hmet =>
        hnew id hid ((Reading.mem_seen_of_start hbefore).mpr hmet)⟩
    refine ⟨fun i hi => ?_, nodup_carriedIds_iff.mpr fun before i after id hits hi hmem =>
      (hsplit before i after hits).2 id hi (.inl hmem), ?_⟩
    · obtain ⟨before, after, hits⟩ := List.append_of_mem hi
      exact (hsplit before i after hits).1
    · rintro id ⟨before, i, after, hits, hi, hmem⟩
      exact (hsplit before i after hits).2 id hi (.inr hmem)
  · rintro ⟨hcomplete, hnodup, hfree⟩
    cases hrun : its.foldlM Reading.accept .start with
    | ok s => exact ⟨s, rfl⟩
    | error e =>
      obtain ⟨before, i, after, hits, hbefore, hi⟩ := Reading.exists_of_foldlM_eq_error hrun
      -- the item at which the run fails has what it needs and carries nothing that was met
      obtain ⟨s, hs⟩ := Reading.exists_accept_iff.mpr
        ⟨hcomplete i (hits ▸ List.mem_append_right _ List.mem_cons_self), fun id hid hmet => by
          rcases (Reading.mem_seen_of_start hbefore).mp hmet with hmem | hmem
          · exact nodup_carriedIds_iff.mp hnodup before i after id hits hid hmem
          · exact hfree id ⟨before, i, after, hits, hid, hmem⟩⟩
      rw [hs] at hi
      cases hi

/-- An identity for which items are refused is carried twice, or after it has been made up. -/
theorem duplicate_of_foldlM {its : List Item} {id : BlockId}
    (h : its.foldlM Reading.accept .start = .error (.duplicateBlock id)) :
    2 ≤ (carriedIds its).count id ∨ Forestalled its id := by
  obtain ⟨before, i, after, rfl, hbefore, hi⟩ := Reading.exists_of_foldlM_eq_error h
  obtain ⟨hid, hmet⟩ := Reading.carried_of_accept_duplicate hi
  rcases (Reading.mem_seen_of_start hbefore).mp hmet with hmem | hmem
  · exact .inl (two_le_count hid hmem)
  · exact .inr ⟨before, i, after, rfl, hid, hmem⟩

/-- **Which documents are accepted**: those in which every block element that is used names its kind,
its fields and slots have the names they need, and no two elements carry one identity, unless an
element carries an identity that was made up for an element before it. A document is refused for an
identity only if it is carried twice or forestalled so, and only numbered identities can be. -/
theorem accepted_iff {text : String} {its : List Item} (h : items? text = some its) :
    ((∃ w, read text = .ok w) ↔
      (∀ i ∈ its, i.Complete) ∧ (carriedIds its).Nodup ∧ ∀ id, ¬ Forestalled its id) ∧
    ∀ id,
      (read text = .error (.duplicateBlock id) →
        2 ≤ (carriedIds its).count id ∨ Forestalled its id) ∧
      (Forestalled its id → ∃ n, id = ⟨Fresh.name "doc_block_" n⟩) := by
  refine ⟨(exists_read_iff h).trans exists_foldlM_accept_iff, fun id => ⟨fun hr => ?_, ?_⟩⟩
  · exact duplicate_of_foldlM ((read_eq_error_iff h).mp hr)
  · rintro ⟨before, i, after, -, -, hmem⟩
    exact Reading.exists_of_mem_madeUpIds hmem

/-- A block that carries a numbered identity, and after it two without one, of which the second
takes the place of a `shadow` element that carries another identity. -/
theorem accepted_iff_numbered :
    let text := "<xml><block type=\"t\" id=\"doc_block_1\"/><block type=\"u\">" ++
      "<value name=\"V\"><shadow id=\"a\"/><block type=\"t\"/></value></block></xml>"
    let its : List Item := [.block ⟨"block", some "t", some "doc_block_1"⟩,
      .block ⟨"block", some "u", none⟩, .slot .value (some "V"), .block ⟨"block", some "t", none⟩]
    items? text = some its ∧ (∃ w, read text = .ok w) ∧ (∀ i ∈ its, i.Complete) ∧
      carriedIds its = [⟨"doc_block_1"⟩] ∧ ∀ id, ¬ Forestalled its id := by
  intro text its
  have hits : items? text = some its := by decide +kernel
  have hread : ∃ w, read text = .ok w := (exists_read_iff hits).mpr ⟨_, rfl⟩
  obtain ⟨hcomplete, -, hfree⟩ := (accepted_iff hits).1.mp hread
  exact ⟨hits, hread, hcomplete, rfl, hfree⟩

/-- A document in which one identity is written, once, is refused for it: it was made up for the
element before. -/
theorem refused_for_made_up :
    let text := "<xml><block type=\"text\"/><block type=\"text\" id=\"doc_block_1\"/></xml>"
    let its : List Item := [.block ⟨"block", some "text", none⟩,
      .block ⟨"block", some "text", some "doc_block_1"⟩]
    items? text = some its ∧ (∀ i ∈ its, i.Complete) ∧ carriedIds its = [⟨"doc_block_1"⟩] ∧
      read text = .error (.duplicateBlock ⟨"doc_block_1"⟩) := by
  intro text its
  have hits : items? text = some its := by decide +kernel
  exact ⟨hits, by decide, rfl, (read_eq_error_iff hits).mpr rfl⟩

end BlockProgram.Document
