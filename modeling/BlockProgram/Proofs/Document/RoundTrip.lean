import BlockProgram.Document.Read
import BlockProgram.Proofs.Document.Writable

/-!
# What is written is read back

The parts of a written block are read into it in increasing order, so that every setting and
every slot goes to the end of what is already there, and the block comes out as it went in. The
variables have been declared before, so that a field declares none. Identities are met for the
first time, and none has to be made up.
-/

namespace BlockProgram

open Xml Document

/-! ### Putting to the end -/

theorem Fields.insertEntry_append {name : String} {value : Field} {es : List (String × Field)}
    (h : ∀ e ∈ es, e.1 < name) : insertEntry name value es = es ++ [(name, value)] := by
  induction es with
  | nil => rfl
  | cons e es ih =>
    obtain ⟨he, hes⟩ := List.forall_mem_cons.mp h
    rw [insertEntry, if_neg (lt_asymm he), if_neg (ne_of_gt he), ih hes, List.cons_append]

/-- In order, a setting that is there is the one that is found. -/
theorem Fields.Sorted.get?_of_mem {f : Fields} (hf : f.Sorted) {e : String × Field}
    (he : e ∈ f.entries) : f.get? e.1 = some e.2 := by
  obtain ⟨es⟩ := f
  simp only [Sorted, Fields.get?] at hf he ⊢
  induction es with
  | nil => cases he
  | cons d es ih =>
    obtain ⟨hd, hes⟩ := List.pairwise_cons.mp hf
    rcases List.mem_cons.mp he with rfl | he
    · rw [List.lookup_cons, beq_self_eq_true]
    · rw [List.lookup_cons, beq_eq_false_iff_ne.mpr (ne_of_gt (hd e he))]
      exact ih hes he

namespace Children

/-- A forest with another one put at its end. -/
def append : Children → Children → Children
  | nil, ds => ds
  | cons s n below rest, ds => cons s n below (rest.append ds)

theorem append_nil (cs : Children) : cs.append nil = cs := by
  induction cs with
  | nil => rfl
  | cons s n below rest _ ih => rw [append, ih]

theorem append_assoc (cs ds es : Children) :
    (cs.append ds).append es = cs.append (ds.append es) := by
  induction cs with
  | nil => rfl
  | cons s n below rest _ ih => rw [append, append, append, ih]

theorem slots_append (cs ds : Children) : (cs.append ds).slots = cs.slots ++ ds.slots := by
  induction cs with
  | nil => rfl
  | cons s n below rest _ ih => rw [append, slots_cons, slots_cons, ih, List.cons_append]

theorem insert_append {slot : Slot} (b : Block) {cs : Children}
    (h : ∀ t ∈ cs.slots, t.before slot) :
    cs.insert slot b = cs.append (cons slot b.node b.children nil) := by
  induction cs with
  | nil => rfl
  | cons s n below rest _ ih =>
    obtain ⟨hs, hrest⟩ := List.forall_mem_cons.mp h
    have hnot : ¬ slot.before s := by
      intro hlt
      exact Slot.ne_of_before (Slot.before_trans hs hlt) rfl
    rw [insert, if_neg hnot, if_neg (Ne.symm (Slot.ne_of_before hs)), ih hrest, append]

end Children

/-! ### Reading what was written of a block -/

namespace Document.Reading

/-- All variables of a registry are declared. -/
def Knows (s : Reading) (r : Registry) : Prop := ∀ h, r.declares h → s.registry.declares h

/-- The blocks have been met, the last one last. -/
def meet (s : Reading) (ns : List Node) : Reading :=
  { s with seen := (ns.map Node.id).reverse ++ s.seen }

theorem meet_meet (s : Reading) (ns ms : List Node) : (s.meet ns).meet ms = s.meet (ns ++ ms) := by
  simp [meet]

theorem Knows.meet {s : Reading} {r : Registry} (hs : s.Knows r) (ns : List Node) :
    (s.meet ns).Knows r := hs

theorem mem_seen_meet {s : Reading} {ns : List Node} {id : BlockId} :
    id ∈ (s.meet ns).seen ↔ id ∈ ns.map Node.id ∨ id ∈ s.seen := by
  simp [meet]

/-- Of blocks with distinct identities, those to come are not met with those before them. -/
theorem not_mem_seen_meet {s : Reading} {ns ms : List Node}
    (hids : ((ns ++ ms).map Node.id).Nodup) (hnew : ∀ n ∈ ms, n.id ∉ s.seen) :
    ∀ n ∈ ms, n.id ∉ (s.meet ns).seen := by
  rw [List.map_append, List.nodup_append] at hids
  intro n hn hmem
  rcases mem_seen_meet.mp hmem with hmem | hmem
  · exact hids.2.2 _ hmem _ (List.mem_map_of_mem hn) rfl
  · exact hnew n hn hmem

/-- A setting is read as it was, and declares nothing. -/
theorem field_content {s : Reading} {r : Registry} (hs : s.Knows r) {kind : Kind} {name : String}
    {f : Field} (hf : kind.hasVariable → name = variableField → f.text? = none) :
    s.field kind name (f.handle?.map Handle.text) (f.content r) = (f, s) := by
  cases f with
  | text text =>
    have hplain : ¬ (name = variableField && kind.hasVariable) := by
      intro h
      simp only [Bool.and_eq_true, decide_eq_true_eq] at h
      cases hf h.2 h.1
    simp [field, Field.handle?, Field.content, hplain]
  | var h =>
    by_cases hempty : (Field.content r (.var h)).isEmpty
    · simp only [field, Field.handle?, Option.map_some, hempty, if_true]
    · -- a name that is written is that of a declared variable
      have hknown : s.registry.declares h := by
        refine hs h ?_
        rw [Registry.declares]
        cases hv : r.get? h with
        | none => exact absurd (by rw [Field.content, hv]; rfl) hempty
        | some v => rfl
      simp only [field, Field.handle?, Option.map_some, hempty, Bool.false_eq_true, if_false,
        Registry.declare, hknown, if_true]

/-- The element of a block that has not been met. -/
theorem head_head {s : Reading} {n : Node} (hkind : ∃ tag, n.kind = .ofTag tag)
    (hn : n.id ∉ s.seen) :
    s.head n.head = .ok ({ n with fields := .empty }, s.meet [n]) := by
  obtain ⟨tag, htag⟩ := hkind
  simp only [head, Node.head, Kind.tag_ofTag, htag]
  rw [if_neg fun hseen => hn (List.contains_iff_mem.mp hseen)]
  rfl

end Document.Reading

/-- The settings of a block are read to the end of those that are there. -/
theorem Fields.read_parts {s : Reading} {r : Registry} (hs : s.Knows r) (n : Node) (cs : Children)
    {before es : List (String × Field)} (hsorted : (before ++ es).Pairwise fun a b => a.1 < b.1)
    (hbound : ∀ e ∈ es, n.kind.hasVariable → e.1 = variableField → e.2.text? = none)
    (rest : Parts) :
    (Fields.parts r ⟨es⟩ rest).read ⟨{ n with fields := ⟨before⟩ }, cs⟩ s =
      rest.read ⟨{ n with fields := ⟨before ++ es⟩ }, cs⟩ s := by
  induction es generalizing before with
  | nil => rw [List.append_nil]; rfl
  | cons e es ih =>
    obtain ⟨he, hes⟩ := List.forall_mem_cons.mp hbound
    have hlast : ∀ d ∈ before, d.1 < e.1 := fun d hd =>
      (List.pairwise_append.mp hsorted).2.2 d hd e List.mem_cons_self
    have hset : Block.setField ⟨{ n with fields := ⟨before⟩ }, cs⟩ e.1 e.2 =
        ⟨{ n with fields := ⟨before ++ [e]⟩ }, cs⟩ := by
      simp only [Block.setField, Fields.insert, insertEntry_append hlast]
    have hread : (Fields.parts r ⟨e :: es⟩ rest).read ⟨{ n with fields := ⟨before⟩ }, cs⟩ s =
        (Fields.parts r ⟨es⟩ rest).read ⟨{ n with fields := ⟨before ++ [e]⟩ }, cs⟩ s := by
      rw [← hset]
      simp only [Fields.parts, List.foldr_cons, Field.part, Parts.read, Block.kind,
        Reading.field_content hs he]
    have hassoc : before ++ e :: es = before ++ [e] ++ es := by simp
    rw [hread, ih (hassoc ▸ hsorted) hes, hassoc]

/-- A setting under which a variable is given does not give it by name. -/
theorem Node.text?_of_mem (n : Node) (hn : n.fields.Sorted)
    (hbound : n.kind.hasVariable → n.text? variableField = none) :
    ∀ e ∈ n.fields.entries, n.kind.hasVariable → e.1 = variableField → e.2.text? = none := by
  intro e he hk hname
  have hfound := hn.get?_of_mem he
  have htext := hbound hk
  rw [Node.text?, ← hname, hfound] at htext
  exact htext

/-- All settings of a block are read into a block without settings. -/
theorem Node.read_fields {s : Reading} {r : Registry} (hs : s.Knows r) {n : Node}
    (hn : n.fields.Sorted) (hbound : n.kind.hasVariable → n.text? variableField = none)
    (cs : Children) (rest : Parts) :
    (n.fields.parts r rest).read ⟨{ n with fields := .empty }, cs⟩ s = rest.read ⟨n, cs⟩ s := by
  have hsorted : ([] ++ n.fields.entries : List (String × Field)).Pairwise
      fun a b => a.1 < b.1 := hn
  exact Fields.read_parts hs n cs hsorted (n.text?_of_mem hn hbound) rest

theorem Slot.slotOf_kind (slot : Slot) : slotOf slot.kind slot.name? = .ok slot := by
  cases slot <;> rfl

/-- The blocks of a forest are read to the end of those that are there. -/
theorem Children.read_parts {r : Registry} {cs : Children} (hcs : cs.Ordered)
    (hw : ∀ b ∈ cs.walk, b.Writable) (hids : (cs.nodes.map Node.id).Nodup) {s : Reading}
    (hs : s.Knows r) (hnew : ∀ n ∈ cs.nodes, n.id ∉ s.seen) (n : Node) {before : Children}
    (hbefore : ∀ t ∈ before.slots, ∀ u ∈ cs.slots, t.before u) :
    (cs.parts r).read ⟨n, before⟩ s = .ok (⟨n, before.append cs⟩, s.meet cs.nodes) := by
  induction cs generalizing s n before with
  | nil => rw [append_nil]; rfl
  | cons slot m below rest ihb ihr =>
    obtain ⟨hslot, hfields, hbelow, hrest⟩ := hcs
    obtain ⟨hm, hw⟩ := List.forall_mem_cons.mp hw
    obtain ⟨hwbelow, hwrest⟩ := List.forall_mem_append.mp hw
    obtain ⟨hnewm, hnew⟩ := List.forall_mem_cons.mp hnew
    obtain ⟨hnewbelow, hnewrest⟩ := List.forall_mem_append.mp hnew
    have hids : ((m :: below.nodes ++ rest.nodes).map Node.id).Nodup := hids
    obtain ⟨hfirst, hidsrest, -⟩ := List.nodup_append.mp (List.map_append ▸ hids)
    -- the block itself, with its settings and what hangs on it
    have hseen : ∀ k ∈ below.nodes, k.id ∉ (s.meet [m]).seen :=
      Reading.not_mem_seen_meet hfirst hnewbelow
    have hbody : (m.fields.parts r (below.parts r)).read ⟨{ m with fields := .empty }, .nil⟩
        (s.meet [m]) = .ok (⟨m, below⟩, s.meet (m :: below.nodes)) := by
      have hnone : ∀ t ∈ nil.slots, ∀ u ∈ below.slots, t.before u := by simp
      rw [Node.read_fields (hs.meet [m]) hfields hm.bound,
        ihb hbelow hwbelow (List.nodup_cons.mp hfirst).2 (hs.meet [m]) hseen m hnone,
        Reading.meet_meet]
      rfl
    have hplug : Block.plug ⟨n, before⟩ slot ⟨m, below⟩ =
        ⟨n, before.append (cons slot m below .nil)⟩ := by
      rw [Block.plug, insert_append _ fun t ht => hbefore t ht slot List.mem_cons_self]
    -- the blocks after it
    have hseen' : ∀ k ∈ rest.nodes, k.id ∉ (s.meet (m :: below.nodes)).seen :=
      Reading.not_mem_seen_meet hids hnewrest
    have hbefore' : ∀ t ∈ (before.append (cons slot m below .nil)).slots, ∀ u ∈ rest.slots,
        t.before u := by
      intro t ht u hu
      rw [slots_append] at ht
      rcases List.mem_append.mp ht with ht | ht
      · exact hbefore t ht u (List.mem_cons_of_mem _ hu)
      · rw [List.mem_singleton.mp ht]
        exact hslot u hu
    simp only [parts, Parts.read, Slot.slotOf_kind, Reading.head_head hm.kind hnewm, hbody, hplug]
    rw [ihr hrest hwrest hidsrest (hs.meet _) hseen' n hbefore', append_assoc, Reading.meet_meet]
    rfl

/-! ### Reading what was written of a canvas -/

/-- A chain is read as it was. -/
theorem TopBlock.read_element {r : Registry} {t : TopBlock} (ht : t.block.Ordered)
    (hw : ∀ b ∈ t.block.walk, b.Writable) (hids : (t.block.nodes.map Node.id).Nodup) {s : Reading}
    (hs : s.Knows r) (hnew : ∀ n ∈ t.block.nodes, n.id ∉ s.seen) :
    (t.element r).block.read s = .ok (t.block, s.meet t.block.nodes) := by
  obtain ⟨⟨n, cs⟩, position⟩ := t
  obtain ⟨hn, hw⟩ := List.forall_mem_cons.mp hw
  obtain ⟨hnewn, hnew⟩ := List.forall_mem_cons.mp hnew
  have hseen : ∀ k ∈ cs.nodes, k.id ∉ (s.meet [n]).seen := Reading.not_mem_seen_meet hids hnew
  have hnone : ∀ t ∈ Children.nil.slots, ∀ u ∈ cs.slots, t.before u := by simp
  simp only [TopBlock.element, BlockElement.read, Reading.head_head hn.kind hnewn]
  rw [Node.read_fields (hs.meet [n]) ht.1 hn.bound,
    Children.read_parts ht.2 hw (List.nodup_cons.mp hids).2 (hs.meet [n]) hseen n hnone,
    Reading.meet_meet]
  rfl

/-- The place of a chain is read as it was. -/
theorem TopBlock.position_element (r : Registry) {t : TopBlock}
    (hp : ∀ p ∈ t.position, p.x.IsWhole ∧ p.y.IsWhole) : (t.element r).position = t.position := by
  obtain ⟨b, position⟩ := t
  cases position with
  | none => rfl
  | some p =>
    obtain ⟨hx, hy⟩ := hp p rfl
    simp [TopElement.position, TopBlock.element, hx.readFinite?_text, hy.readFinite?_text]

/-- Chains are read as they were, at the places that are read off their elements. -/
theorem readTop_blocks {r : Registry} {top : List TopBlock} (htop : ∀ t ∈ top, t.block.Ordered)
    (hw : ∀ t ∈ top, ∀ b ∈ t.block.walk, b.Writable) (hids : ((topNodes top).map Node.id).Nodup)
    {s : Reading} (hs : s.Knows r) (hnew : ∀ n ∈ topNodes top, n.id ∉ s.seen) :
    readTop (top.map (TopBlock.element r)) s =
      .ok (top.map fun t => ⟨t.block, (t.element r).position⟩, s.meet (topNodes top)) := by
  induction top generalizing s with
  | nil => rfl
  | cons t ts ih =>
    obtain ⟨ht, hts⟩ := List.forall_mem_cons.mp htop
    obtain ⟨hwt, hwts⟩ := List.forall_mem_cons.mp hw
    obtain ⟨hnewt, hnewts⟩ := List.forall_mem_append.mp hnew
    rw [topNodes_cons] at hids
    obtain ⟨hidst, hidsts, -⟩ := List.nodup_append.mp (List.map_append ▸ hids)
    have hseen : ∀ k ∈ topNodes ts, k.id ∉ (s.meet t.block.nodes).seen :=
      Reading.not_mem_seen_meet hids hnewts
    simp only [List.map_cons, readTop, TopBlock.read_element ht hwt hidst hs hnewt,
      ih hts hwts hidsts (hs.meet _) hseen, Reading.meet_meet, topNodes_cons]

/-- Chains at whole coordinates are read as they were. -/
theorem readTop_element {r : Registry} {top : List TopBlock} (htop : ∀ t ∈ top, t.block.Ordered)
    (hw : ∀ t ∈ top, ∀ b ∈ t.block.walk, b.Writable)
    (hp : ∀ t ∈ top, ∀ p ∈ t.position, p.x.IsWhole ∧ p.y.IsWhole)
    (hids : ((topNodes top).map Node.id).Nodup) {s : Reading} (hs : s.Knows r)
    (hnew : ∀ n ∈ topNodes top, n.id ∉ s.seen) :
    readTop (top.map (TopBlock.element r)) s = .ok (top, s.meet (topNodes top)) := by
  have hplaces : top.map (fun t => (⟨t.block, (t.element r).position⟩ : TopBlock)) = top :=
    (List.map_congr_left fun t ht => by rw [TopBlock.position_element r (hp t ht)]).trans
      (List.map_id' top)
  rw [readTop_blocks htop hw hids hs hnew, hplaces]

/-- Variables under new handles are declared one after the other. -/
theorem listed_elements {vars : List Variable} {s : Reading}
    (h : (s.registry.handles ++ vars.map Variable.handle).Nodup) :
    ((vars.map Variable.element).foldl Reading.listed s).registry.vars =
        s.registry.vars ++ vars.map (fun v => ⟨v.handle, v.resolved, v.resolved⟩) ∧
      ((vars.map Variable.element).foldl Reading.listed s).seen = s.seen := by
  induction vars generalizing s with
  | nil => exact ⟨(List.append_nil _).symm, rfl⟩
  | cons v vs ih =>
    have hnew : v.handle ∉ s.registry.handles := by
      rw [List.map_cons, List.nodup_append] at h
      exact fun hmem => h.2.2 _ hmem _ List.mem_cons_self rfl
    have hlisted : s.listed v.element =
        { s with registry := s.registry.push ⟨v.handle, v.resolved, v.resolved⟩ } := by
      have hdeclares : ¬ s.registry.declares v.handle :=
        fun hd => hnew (Registry.declares_iff.mp hd)
      simp only [Variable.element, Reading.listed, Registry.declare, hdeclares, Bool.false_eq_true,
        if_false]
    have hnodup : ((s.listed v.element).registry.handles ++ vs.map Variable.handle).Nodup := by
      rw [hlisted, Registry.handles_push, List.append_assoc]
      exact h
    obtain ⟨hvars, hseen⟩ := ih hnodup
    rw [List.map_cons, List.foldl_cons, hvars, hseen, hlisted]
    exact ⟨by simp, rfl⟩

/-- **What is written is read back**: the chains with all their blocks, and the variables with
their handles and the names they go by. -/
theorem Document.read_write {w : Workspace} (hw : w.Writable) :
    ∃ w', Document.read (Document.write w) = .ok w' ∧ w'.top = w.top ∧
      w'.registry.vars.map (fun v => (v.handle, v.resolved)) =
        w.registry.vars.map (fun v => (v.handle, v.resolved)) := by
  let s := (w.registry.vars.map Variable.element).foldl Reading.listed .start
  -- the variables have been listed before the first block is met
  obtain ⟨hvars, hseen⟩ : s.registry.vars =
      w.registry.vars.map (fun v => ⟨v.handle, v.resolved, v.resolved⟩) ∧ s.seen = [] :=
    listed_elements (s := .start) hw.registry.nodup_handles
  have hknows : s.Knows w.registry := by
    intro h hd
    rw [Registry.declares_iff, Registry.handles] at hd ⊢
    rw [hvars, List.map_map]
    exact hd
  have hids : (w.nodes.map Node.id).Nodup := by
    rw [← Workspace.map_node_walk, List.map_map]
    exact hw.ids
  have htop : readTop (w.top.map (TopBlock.element w.registry)) s =
      .ok (w.top, s.meet (topNodes w.top)) :=
    readTop_element hw.ordered (fun t ht b hb => hw.blocks b (List.mem_flatMap.mpr ⟨t, ht, hb⟩))
      hw.positions hids hknows (fun n _ => hseen ▸ List.not_mem_nil)
  refine ⟨.ofParts w.top s.registry, ?_, rfl, ?_⟩
  · have hroot : root? (Markup.document "xml" _) = _ := root?_document rfl hw.readable
    rw [read, write, hroot]
    simp only [readElement, rootName, if_true, outline_body, Outline.read]
    rw [show readTop _ (List.foldl _ _ _) = _ from htop]
    rfl
  · show s.registry.vars.map _ = _
    rw [hvars, List.map_map]
    rfl

/-- A block with a block in a value input, a variable without a name, a handle that is not
declared, and a text with characters that are escaped. -/
theorem Document.read_write_block :
    let value : Node := ⟨⟨"b"⟩, .text, ⟨[("TEXT", .text "1 < \"2\"\n")]⟩⟩
    let head : Node := ⟨⟨"a"⟩, .variableSet, ⟨[("NOTE", .var ⟨"gone"⟩), ("VAR", .var ⟨"h"⟩)]⟩⟩
    let place : Position := ⟨⟨false, 0x4008000000000000⟩, ⟨true, 0x3FF0000000000000⟩⟩
    let w : Workspace := .ofParts
      [⟨⟨head, .cons (.input "VALUE") value .nil .nil⟩, some place⟩]
      (Registry.empty.declare ⟨"h"⟩ "")
    ∃ w', Document.read (Document.write w) = .ok w' ∧ w'.top = w.top ∧
      w'.registry.vars.map (fun v => (v.handle, v.resolved)) =
        w.registry.vars.map (fun v => (v.handle, v.resolved)) := by
  refine Document.read_write ⟨?_, .declare .empty _ _, by decide, ?_, ?_, ?_⟩
  · intro t ht
    rw [List.mem_singleton.mp ht]
    simp only [Block.Ordered, Children.Ordered, Fields.Sorted]
    decide
  · refine List.forall_mem_cons.mpr ⟨?_, List.forall_mem_singleton.mpr ?_⟩
    · exact ⟨⟨"variables_set", rfl⟩, fun _ => rfl, rfl, rfl, by decide, by decide⟩
    · exact ⟨⟨"text", rfl⟩, fun _ => rfl, rfl, rfl, by decide, by decide⟩
  · decide
  · intro t ht p hp
    rw [List.mem_singleton.mp ht] at hp
    cases hp
    exact ⟨⟨rfl, 3, by decide, by decide +kernel, by decide⟩,
      ⟨rfl, 1, by decide, by decide +kernel, by decide⟩⟩

end BlockProgram
