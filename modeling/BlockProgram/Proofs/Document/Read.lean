import BlockProgram.Document.Read
import BlockProgram.Proofs.Workspace.Sound

/-!
# What is read is sound

Reading goes through a document with the identities met so far. A block that brings an identity
is refused if it has been met, and an identity that is made up has not been met, so that the
blocks read into one tree, and the trees read one after the other, never share an identity. The
registry is built by its own operations only.
-/

namespace BlockProgram

theorem BlockId.mk_mem_iff {s : String} {ids : List BlockId} :
    ⟨s⟩ ∈ ids ↔ s ∈ ids.map BlockId.text := by
  refine ⟨fun h => List.mem_map_of_mem h, fun h => ?_⟩
  obtain ⟨id, hid, rfl⟩ := List.mem_map.mp h
  exact hid

namespace Document

/-- The identity that is made up is found by a search through those that have been met. -/
theorem Reading.made_mint (s : Reading) :
    Fresh.Made "doc_block_" (fun t => s.seen.contains ⟨t⟩) (s.seen.map BlockId.text) s.minted
      s.mint.2.minted := by
  refine Fresh.made_next "doc_block_" (fun t => ?_) (by simp) s.minted
  rw [← BlockId.mk_mem_iff, List.contains_iff_mem]

/-- Making up an identity gives one that has not been met. -/
theorem Reading.mint_not_mem (s : Reading) : s.mint.1 ∉ s.seen :=
  fun hmem => s.made_mint.free (BlockId.mk_mem_iff.mp hmem)

/-- A block begins with no settings, under an identity that is met for the first time, and is of
the kind that its tag names. -/
theorem Reading.head_eq_ok {s s' : Reading} {h : Head} {n : Node}
    (hn : s.head h = .ok (n, s')) :
    n.fields = .empty ∧ n.id ∉ s.seen ∧ s'.seen = n.id :: s.seen ∧ s'.registry = s.registry ∧
      n.Tagged := by
  rw [head] at hn
  split at hn
  · cases hn
  · split at hn
    · cases hn
      exact ⟨rfl, s.mint_not_mem, rfl, rfl, _, rfl⟩
    · dsimp only at hn
      split at hn
      · cases hn
      · rename_i hnew
        cases hn
        exact ⟨rfl, fun hmem => hnew (List.contains_iff_mem.mpr hmem), rfl, rfl, _, rfl⟩

/-- A field meets no block, and does not give a variable by name. -/
theorem Reading.field_spec (s : Reading) (kind : Kind) (name : String) (handle? : Option String)
    (text : String) :
    (s.field kind name handle? text).2.seen = s.seen ∧
    (s.registry.Built → (s.field kind name handle? text).2.registry.Built) ∧
    (kind.hasVariable → name = variableField →
      (s.field kind name handle? text).1.text? = none) := by
  cases handle? with
  | some h =>
    rw [field]
    split
    · exact ⟨rfl, fun hr => hr, fun _ _ => rfl⟩
    · exact ⟨rfl, fun hr => hr.declare _ _, fun _ _ => rfl⟩
  | none =>
    rw [field]
    split
    · exact ⟨rfl, fun hr => hr.bind text, fun _ _ => rfl⟩
    · rename_i hplain
      exact ⟨rfl, fun hr => hr, fun hk hname => absurd (by simp [hk, hname]) hplain⟩

theorem Reading.listed_built {s : Reading} (hs : s.registry.Built) (v : VariableElement) :
    (s.listed v).registry.Built := by
  rw [listed]
  split
  · exact hs.declare _ _
  · exact hs.register _

/-- A block as it is while it is read: in order, with identities that are distinct and have been
met, with variables given by handle, and of kinds that are named by tags. -/
structure Met (s : Reading) (b : Block) : Prop where
  /-- Slots and settings are in order. -/
  ordered : b.Ordered
  /-- No two blocks share an identity. -/
  ids : (b.nodes.map Node.id).Nodup
  /-- All identities have been met. -/
  seen : ∀ n ∈ b.nodes, n.id ∈ s.seen
  /-- Blocks of variable kinds refer to their variables by handle. -/
  bound : ∀ n ∈ b.nodes, n.Bound
  /-- Kinds are named by tags. -/
  tagged : ∀ n ∈ b.nodes, n.Tagged

/-- What changes while more is read into a block: identities that were met stay met, and the
identities that come in had not been met. -/
structure Grown (b : Block) (s : Reading) (b' : Block) (s' : Reading) : Prop where
  /-- What has been met stays so. -/
  seen : s.seen ⊆ s'.seen
  /-- What comes in is new. -/
  new : ∀ n ∈ b'.nodes, n.id ∈ b.nodes.map Node.id ∨ n.id ∉ s.seen
  /-- The registry is built further. -/
  registry : s.registry.Built → s'.registry.Built

namespace Grown

variable {b b₁ b₂ : Block} {s s₁ s₂ : Reading}

theorem refl (b : Block) (s : Reading) : Grown b s b s :=
  ⟨List.Subset.refl _, fun _ hn => .inl (List.mem_map_of_mem hn), fun hr => hr⟩

theorem trans (h₁ : Grown b s b₁ s₁) (h₂ : Grown b₁ s₁ b₂ s₂) : Grown b s b₂ s₂ := by
  refine ⟨fun id hid => h₂.seen (h₁.seen hid), fun n hn => ?_,
    fun hr => h₂.registry (h₁.registry hr)⟩
  rcases h₂.new n hn with hold | hnew
  · obtain ⟨m, hm, hid⟩ := List.mem_map.mp hold
    rw [← hid]
    exact h₁.new m hm
  · exact .inr fun hid => hnew (h₁.seen hid)

end Grown

/-- A block that has just been begun. -/
theorem met_head {s s' : Reading} {h : Head} {n : Node} (hn : s.head h = .ok (n, s')) :
    Met s' ⟨n, .nil⟩ := by
  obtain ⟨hfields, -, hseen, -, htagged⟩ := Reading.head_eq_ok hn
  have hall : ∀ m ∈ Block.nodes ⟨n, .nil⟩, m = n := fun m hm => List.mem_singleton.mp hm
  refine ⟨⟨hfields ▸ Fields.sorted_empty, Children.ordered_nil⟩, List.nodup_singleton _, ?_, ?_,
    fun m hm => (hall m hm).symm ▸ htagged⟩
  · intro m hm
    rw [hall m hm, hseen]
    exact List.mem_cons_self
  · intro m hm _
    rw [hall m hm, Node.text?, hfields]
    rfl

/-- A field is read into a block. -/
theorem Met.setField {s : Reading} {b : Block} (hb : Met s b) (name : String)
    (handle? : Option String) (text : String) :
    Met (s.field b.kind name handle? text).2
      (b.setField name (s.field b.kind name handle? text).1) ∧
    Grown b s (b.setField name (s.field b.kind name handle? text).1)
      (s.field b.kind name handle? text).2 := by
  obtain ⟨hseen, hbuilt, htext⟩ := s.field_spec b.kind name handle? text
  have hcases : ∀ value : Field, ∀ n ∈ (b.setField name value).nodes,
      n = { b.node with fields := b.node.fields.insert name value } ∨ n ∈ b.children.nodes :=
    fun value n hn => List.mem_cons.mp hn
  refine ⟨⟨hb.ordered.setField name _, hb.ids, ?_, ?_, ?_⟩, ⟨?_, ?_, hbuilt⟩⟩
  · intro n hn
    rw [hseen]
    rcases hcases _ n hn with rfl | hn
    · exact hb.seen b.node List.mem_cons_self
    · exact hb.seen n (List.mem_cons_of_mem _ hn)
  · intro n hn
    rcases hcases _ n hn with rfl | hn
    · exact (hb.bound b.node List.mem_cons_self).insert htext
    · exact hb.bound n (List.mem_cons_of_mem _ hn)
  · intro n hn
    rcases hcases _ n hn with rfl | hn
    · exact hb.tagged b.node List.mem_cons_self
    · exact hb.tagged n (List.mem_cons_of_mem _ hn)
  · rw [hseen]
    exact List.Subset.refl _
  · intro n hn
    -- the block keeps its identity
    exact .inl (show n.id ∈ (b.setField name _).nodes.map Node.id from List.mem_map_of_mem hn)

/-- A block that has been read is put into a slot. -/
theorem Met.plug {s s' : Reading} {b child : Block} (hb : Met s b) (hsub : s.seen ⊆ s'.seen)
    (hchild : Met s' child) (hnew : ∀ n ∈ child.nodes, n.id ∉ s.seen) (slot : Slot) :
    Met s' (b.plug slot child) ∧
    ∀ n ∈ (b.plug slot child).nodes, n.id ∈ b.nodes.map Node.id ∨ n.id ∉ s.seen := by
  have hperm : (b.plug slot child).nodes.Perm _ := Block.perm_plug child hb.ordered
  have hleft : (b.node :: (b.children.erase slot).nodes).Subperm b.nodes := by
    refine (List.subperm_cons _).mpr ?_
    cases hd : b.children.get? slot with
    | none => rw [Children.erase_of_get?_eq_none hd]
    | some d =>
      exact (List.sublist_append_right _ _).subperm.trans (Children.perm_get? hd).symm.subperm
  have hcases : ∀ n ∈ (b.plug slot child).nodes, n ∈ child.nodes ∨ n ∈ b.nodes := by
    intro n hn
    rcases List.mem_append.mp (hperm.mem_iff.mp hn) with hn | hn
    · exact .inl hn
    · exact .inr (hleft.subset hn)
  refine ⟨⟨hb.ordered.plug slot hchild.ordered, ?_, ?_, ?_, ?_⟩, ?_⟩
  · rw [(hperm.map Node.id).nodup_iff, List.map_append]
    refine List.nodup_append.mpr ⟨hchild.ids, ?_, ?_⟩
    · obtain ⟨ns, hns, hsublist⟩ := hleft
      exact (hns.map Node.id).nodup_iff.mp ((hsublist.map Node.id).nodup hb.ids)
    · rintro id hid other hother rfl
      obtain ⟨n, hn, rfl⟩ := List.mem_map.mp hid
      obtain ⟨m, hm, heq⟩ := List.mem_map.mp hother
      exact hnew n hn (heq ▸ hb.seen m (hleft.subset hm))
  · intro n hn
    rcases hcases n hn with hn | hn
    · exact hchild.seen n hn
    · exact hsub (hb.seen n hn)
  · intro n hn
    rcases hcases n hn with hn | hn
    · exact hchild.bound n hn
    · exact hb.bound n hn
  · intro n hn
    rcases hcases n hn with hn | hn
    · exact hchild.tagged n hn
    · exact hb.tagged n hn
  · intro n hn
    rcases hcases n hn with hn | hn
    · exact .inr (hnew n hn)
    · exact .inl (List.mem_map_of_mem hn)

/-- What comes into a block that has just been begun had not been met before. -/
theorem Grown.of_head {s s₁ s₂ : Reading} {h : Head} {n : Node} {b : Block}
    (hn : s.head h = .ok (n, s₁)) (hb : Grown ⟨n, .nil⟩ s₁ b s₂) :
    s.seen ⊆ s₂.seen ∧ (∀ m ∈ b.nodes, m.id ∉ s.seen) ∧
      (s.registry.Built → s₂.registry.Built) := by
  obtain ⟨-, hfirst, hseen, hregistry, -⟩ := Reading.head_eq_ok hn
  refine ⟨fun id hid => hb.seen (hseen ▸ List.mem_cons_of_mem _ hid), fun m hm hid => ?_,
    fun hr => hb.registry (hregistry ▸ hr)⟩
  rcases hb.new m hm with hold | hnew
  · rw [List.mem_singleton.mp hold] at hid
    exact hfirst hid
  · exact hnew (hseen ▸ List.mem_cons_of_mem _ hid)

/-- Parts are read into a block, one after the other. -/
theorem Parts.read_met {p : Parts} {b b' : Block} {s s' : Reading}
    (h : p.read b s = .ok (b', s')) (hb : Met s b) : Met s' b' ∧ Grown b s b' s' := by
  induction p generalizing b b' s s' with
  | nil =>
    cases h
    exact ⟨hb, Grown.refl _ _⟩
  | field name? handle? text rest ih =>
    cases name? with
    | none => cases h
    | some name =>
      obtain ⟨hset, hgrown⟩ := hb.setField name handle? text
      obtain ⟨hmet, hmore⟩ := ih h hset
      exact ⟨hmet, hgrown.trans hmore⟩
  | vacant slot name? rest ih =>
    rw [read] at h
    split at h
    · cases h
    · exact ih h hb
  | filled slot name? head below rest ihb ihr =>
    rw [read] at h
    split at h
    · cases h
    · rename_i slot' _
      split at h
      · cases h
      · rename_i n s₁ hn
        split at h
        · cases h
        · rename_i child s₂ hchild
          obtain ⟨hcmet, hcgrown⟩ := ihb hchild (met_head hn)
          obtain ⟨hsub, hnew, hbuilt⟩ := Grown.of_head hn hcgrown
          obtain ⟨hplug, hins⟩ := hb.plug hsub hcmet hnew slot'
          obtain ⟨hmet, hmore⟩ := ihr h hplug
          exact ⟨hmet, Grown.trans ⟨hsub, hins, hbuilt⟩ hmore⟩

/-- A tree is read from an element. -/
theorem BlockElement.read_met {e : BlockElement} {b : Block} {s s' : Reading}
    (h : e.read s = .ok (b, s')) :
    Met s' b ∧ s.seen ⊆ s'.seen ∧ (∀ n ∈ b.nodes, n.id ∉ s.seen) ∧
      (s.registry.Built → s'.registry.Built) := by
  rw [read] at h
  split at h
  · cases h
  · rename_i n s₁ hn
    obtain ⟨hmet, hgrown⟩ := Parts.read_met h (met_head hn)
    exact ⟨hmet, Grown.of_head hn hgrown⟩

/-- Trees are read one after the other. -/
theorem readTop_spec {es : List TopElement} {top : List TopBlock} {s s' : Reading}
    (h : readTop es s = .ok (top, s')) :
    (∀ t ∈ top, t.block.Ordered) ∧ ((topNodes top).map Node.id).Nodup ∧
    (∀ n ∈ topNodes top, n.id ∉ s.seen ∧ n.Bound ∧ n.Tagged) ∧
    (s.registry.Built → s'.registry.Built) := by
  induction es generalizing top s with
  | nil =>
    cases h
    exact ⟨fun _ ht => absurd ht List.not_mem_nil, List.nodup_nil,
      fun _ hn => absurd hn List.not_mem_nil, fun hr => hr⟩
  | cons e es ih =>
    rw [readTop] at h
    split at h
    · cases h
    · rename_i b s₁ hb
      split at h
      · cases h
      · rename_i bs s₂ hbs
        cases h
        obtain ⟨hmet, hsub, hnew, hbuilt⟩ := BlockElement.read_met hb
        obtain ⟨hord, hids, hrest, hmore⟩ := ih hbs
        refine ⟨List.forall_mem_cons.mpr ⟨hmet.ordered, hord⟩, ?_, ?_,
          fun hr => hmore (hbuilt hr)⟩
        · rw [topNodes_cons, List.map_append]
          refine List.nodup_append.mpr ⟨hmet.ids, hids, ?_⟩
          rintro id hid other hother rfl
          obtain ⟨n, hn, rfl⟩ := List.mem_map.mp hid
          obtain ⟨m, hm, heq⟩ := List.mem_map.mp hother
          exact (hrest m hm).1 (heq ▸ hmet.seen n hn)
        · intro n hn
          rcases List.mem_append.mp hn with hn | hn
          · exact ⟨hnew n hn, hmet.bound n hn, hmet.tagged n hn⟩
          · exact ⟨fun hid => (hrest n hn).1 (hsub hid), (hrest n hn).2⟩

theorem built_listed (vs : List VariableElement) {s : Reading} (hs : s.registry.Built) :
    (vs.foldl Reading.listed s).registry.Built := by
  induction vs generalizing s with
  | nil => exact hs
  | cons v vs ih => exact ih (Reading.listed_built hs v)

/-- A canvas that is read has chains that are read one after the other, once the variables have
been listed. -/
theorem exists_readTop_of_read {text : String} {w : Workspace} (h : read text = .ok w) :
    ∃ (o : Outline) (s : Reading),
      readTop o.top (o.listed.foldl Reading.listed .start) = .ok (w.top, s) ∧
        w.registry = s.registry := by
  rw [read] at h
  split at h
  · cases h
  · rw [readElement] at h
    split at h
    · rw [Outline.read] at h
      split at h
      · cases h
      · rename_i top s htop
        cases h
        exact ⟨_, s, htop, rfl⟩
    · cases h

/-- **What is read from a document is sound**, and its registry is built by the operations of
registries. -/
theorem sound_of_read {text : String} {w : Workspace} (h : read text = .ok w) :
    w.Sound ∧ w.registry.Built := by
  obtain ⟨o, s, htop, hregistry⟩ := exists_readTop_of_read h
  obtain ⟨hord, hids, hnodes, hbuilt⟩ := readTop_spec htop
  have hr : w.registry.Built := hregistry ▸ hbuilt (built_listed _ .empty)
  exact ⟨⟨hord, hids, hr.nodup_handles, fun n hn => (hnodes n hn).2.1⟩, hr⟩

/-- The kinds that are read are named by tags. -/
theorem tagged_of_read {text : String} {w : Workspace} (h : read text = .ok w) :
    ∀ n ∈ w.nodes, n.Tagged := by
  obtain ⟨o, s, htop, -⟩ := exists_readTop_of_read h
  obtain ⟨-, -, hnodes, -⟩ := readTop_spec htop
  exact fun n hn => (hnodes n hn).2.2

end Document

end BlockProgram
