import BlockProgram.Proofs.Block.Seats
import Mathlib.Data.List.Nodup

/-!
# The blocks of a tree

The blocks of a tree apart from what hangs on them, in visiting order. Whatever is done with a
tree is first of all something that happens to this list: plugging, splicing and taking off only
change the order of the blocks, and a block is changed in one place. No block is lost and none
comes up twice. Each of these statements is the one about seats, with the seats left out.
-/

namespace BlockProgram

/-- The blocks of a forest in visiting order, apart from what hangs on them. -/
def Children.nodes : Children → List Node
  | .nil => []
  | .cons _ n below rest => n :: (below.nodes ++ rest.nodes)

/-- The blocks of a tree in visiting order, apart from what hangs on them. -/
def Block.nodes (b : Block) : List Node := b.node :: b.children.nodes

theorem Children.map_node_walk (cs : Children) : cs.walk.map Block.node = cs.nodes := by
  induction cs with
  | nil => rfl
  | cons s n below rest ihb ihr => simp [walk, nodes, ihb, ihr]

theorem Block.map_node_walk (b : Block) : b.walk.map Block.node = b.nodes := by
  simp [walk, nodes, Children.map_node_walk]

theorem Block.ids_eq (b : Block) : b.ids = b.nodes.map Node.id := by
  rw [ids, ← map_node_walk, List.map_map]
  rfl

@[simp] theorem Children.map_fst_seats (parent : BlockId) (cs : Children) :
    (cs.seats parent).map Prod.fst = cs.nodes := by
  induction cs generalizing parent with
  | nil => rfl
  | cons s n below rest ihb ihr => simp [seats, nodes, ihb, ihr]

@[simp] theorem Block.map_fst_seats (seat : Seat) (b : Block) :
    (b.seats seat).map Prod.fst = b.nodes := by
  simp [seats, nodes, Children.map_fst_seats]

namespace Children

/-! ### Filling and emptying slots -/

theorem perm_get? {slot : Slot} {b : Block} {cs : Children} (h : cs.get? slot = some b) :
    cs.nodes.Perm (b.nodes ++ (cs.erase slot).nodes) := by
  simpa using (perm_seats_get? h b.id).map Prod.fst

/-- Filling a slot takes the place of what was there and leaves the rest. -/
theorem perm_insert {slot : Slot} (b : Block) {cs : Children} (h : cs.Ordered) :
    (cs.insert slot b).nodes.Perm (b.nodes ++ (cs.erase slot).nodes) := by
  simpa using (perm_seats_insert b h b.id).map Prod.fst

/-- The end of a chain takes up another chain. -/
theorem perm_follow (after : Block) (cs : Children) :
    (cs.follow after).nodes.Perm (cs.nodes ++ after.nodes) := by
  simpa using (perm_seats_follow after cs after.id).map Prod.fst

/-! ### Exchanging a part -/

/-- A block that is exchanged for another, or for nothing, leaves the other blocks. -/
theorem Exchanged.perm_nodes {parent root : BlockId} {s : Slot} {n : Node}
    {below rest cs cs' : Children} {b : Option Block}
    (h : Exchanged parent (cons s n below rest) (occupy s b rest) root cs cs') :
    ∃ others, cs.nodes.Perm (Block.nodes ⟨n, below⟩ ++ others) ∧
      cs'.nodes.Perm (b.toList.flatMap Block.nodes ++ others) := by
  obtain ⟨seat, others, hold, hnew⟩ := h.perm_seats_occupy
  refine ⟨others.map Prod.fst, ?_, ?_⟩
  · simpa using hold.map Prod.fst
  · simpa [List.map_flatMap] using hnew.map Prod.fst

/-! ### Taking off -/

/-- What cannot be taken off is not there. -/
theorem not_mem_ids_of_take?_eq_none {extent : Extent} {id : BlockId} {cs : Children}
    (htop : cs.takeTop? extent id = none) (hbelow : cs.takeBelow? extent id = none) :
    id ∉ cs.nodes.map Node.id := by
  induction cs with
  | nil => exact List.not_mem_nil
  | cons s n below rest ihb ihr =>
    rw [takeTop?] at htop
    rw [takeBelow?] at hbelow
    split at htop
    · cases htop
    · rename_i hid
      split at hbelow
      · cases hbelow
      · rename_i hnone
        obtain ⟨hb₁, hb₂⟩ := Option.or_eq_none_iff.mp hnone
        simp only [nodes, List.map_cons, List.map_append, List.mem_cons, List.mem_append, not_or]
        exact ⟨Ne.symm hid, ihb hb₁ hb₂,
          ihr (Option.map_eq_none_iff.mp htop) (Option.map_eq_none_iff.mp hbelow)⟩

/-! ### Changing every block -/

theorem nodes_map (f : Node → Node) (cs : Children) : (cs.map f).nodes = cs.nodes.map f := by
  induction cs with
  | nil => rfl
  | cons s n below rest ihb ihr => simp [map, nodes, ihb, ihr]

section MapState

variable {σ : Type} {f : Node → σ → Node × σ}

/-- What the rule leaves alone in each block is left alone in the forest. -/
theorem map_nodes_mapState {α : Type} {g : Node → α} (hg : ∀ n state, g (f n state).1 = g n)
    (cs : Children) (state : σ) : (cs.mapState f state).1.nodes.map g = cs.nodes.map g := by
  induction cs generalizing state with
  | nil => rfl
  | cons s n below rest ihb ihr => simp [mapState, nodes, hg, ihb, ihr]

/-- What the rule brings about in each block holds throughout the forest. -/
theorem forall_nodes_mapState {P : Node → Prop} (hP : ∀ n state, P (f n state).1)
    (cs : Children) (state : σ) : ∀ n ∈ (cs.mapState f state).1.nodes, P n := by
  induction cs generalizing state with
  | nil => exact fun n hn => absurd hn List.not_mem_nil
  | cons s n below rest ihb ihr =>
    intro m hm
    rcases List.mem_cons.mp hm with rfl | hm
    · exact hP n state
    · rcases List.mem_append.mp hm with hm | hm
      · exact ihb _ m hm
      · exact ihr _ m hm

/-- What the rule keeps of the state is kept along the forest. -/
theorem mapState_keeps {I : σ → Prop} (hI : ∀ n state, I state → I (f n state).2)
    (cs : Children) {state : σ} (h : I state) : I (cs.mapState f state).2 := by
  induction cs generalizing state with
  | nil => exact h
  | cons s n below rest ihb ihr => exact ihr (ihb (hI n state h))

end MapState

end Children

namespace Block

theorem perm_plug {slot : Slot} (child : Block) {b : Block} (h : b.Ordered) :
    (b.plug slot child).nodes.Perm (child.nodes ++ b.node :: (b.children.erase slot).nodes) :=
  ((Children.perm_insert child h.2).cons b.node).trans List.perm_middle.symm

theorem perm_follow (b after : Block) : (b.follow after).nodes.Perm (b.nodes ++ after.nodes) :=
  (Children.perm_follow after b.children).cons b.node

theorem perm_alone {b rest : Block} (h : b.next? = some rest) :
    b.nodes.Perm (b.alone.nodes ++ rest.nodes) :=
  ((Children.perm_get? h).trans List.perm_append_comm).cons b.node

theorem alone_of_next?_eq_none {b : Block} (h : b.next? = none) : b.alone = b := by
  rw [alone, Children.erase_of_get?_eq_none h]

/-- What is taken off with a block and what moves up are together what was there. -/
theorem perm_taken (extent : Extent) (b : Block) :
    b.nodes.Perm ((Children.taken extent b.node b.children).nodes ++
      (b.remainder? extent).toList.flatMap nodes) := by
  cases extent with
  | withChain => simp [Children.taken, remainder?]
  | alone =>
    rw [show Children.taken .alone b.node b.children = b.alone from rfl, remainder?]
    cases hrest : b.next? with
    | none => simp [alone_of_next?_eq_none hrest]
    | some rest => simpa using perm_alone hrest

theorem perm_take? {extent : Extent} {id : BlockId} {b taken left : Block}
    (h : b.take? extent id = some (taken, left)) : b.nodes.Perm (taken.nodes ++ left.nodes) := by
  obtain ⟨parent, s, n, below, rest, -, rfl, hnode, hex⟩ := exchanged_of_take? h
  obtain ⟨others, hold, hnew⟩ := hex.perm_nodes
  have hchildren : b.children.nodes.Perm
      ((Children.taken extent n below).nodes ++ left.children.nodes) := by
    refine (hold.trans ((perm_taken extent ⟨n, below⟩).append_right others)).trans ?_
    rw [List.append_assoc]
    exact hnew.symm.append_left _
  show (b.node :: b.children.nodes).Perm (_ ++ left.node :: left.children.nodes)
  rw [hnode]
  exact (hchildren.cons b.node).trans List.perm_middle.symm

theorem mem_walk_of_take? {id : BlockId} {b taken left : Block}
    (h : b.take? .withChain id = some (taken, left)) : taken ∈ b.walk ∧ taken.id = id := by
  obtain ⟨parent, s, n, below, rest, hid, rfl, -, hex⟩ := exchanged_of_take? h
  exact ⟨List.mem_cons_of_mem _ (hex.walk_subset List.mem_cons_self), hid⟩

/-- What cannot be taken off is the root or is not there. -/
theorem not_mem_ids_of_take?_eq_none {extent : Extent} {id : BlockId} {b : Block}
    (hroot : b.id ≠ id) (h : b.take? extent id = none) : id ∉ b.nodes.map Node.id := by
  obtain ⟨htop, hbelow⟩ := Option.or_eq_none_iff.mp (Option.map_eq_none_iff.mp h)
  rw [nodes, List.map_cons, List.mem_cons, not_or]
  exact ⟨Ne.symm hroot, Children.not_mem_ids_of_take?_eq_none htop hbelow⟩

theorem perm_update? {id : BlockId} {f : Block → Block} {b b' : Block}
    (h : b.update? id f = some b') :
    ∃ c others, b.find? id = some c ∧ b.nodes.Perm (c.nodes ++ others) ∧
      b'.nodes.Perm ((f c).nodes ++ others) := by
  rcases update?_cases h with ⟨-, hfind, rfl⟩ | ⟨parent, s, n, below, rest, -, hfind, hnode, hex⟩
  · exact ⟨b, [], hfind, by simp, by simp⟩
  · obtain ⟨others, hold, hnew⟩ := hex.perm_nodes
    rw [Option.toList_some, List.flatMap_singleton] at hnew
    refine ⟨⟨n, below⟩, b.node :: others, hfind,
      (hold.cons b.node).trans List.perm_middle.symm, ?_⟩
    rw [nodes, hnode]
    exact (hnew.cons b.node).trans List.perm_middle.symm

theorem nodes_map (f : Node → Node) (b : Block) : (b.map f).nodes = b.nodes.map f := by
  simp [map, nodes, Children.nodes_map]

section MapState

variable {σ : Type} {f : Node → σ → Node × σ}

theorem map_nodes_mapState {α : Type} {g : Node → α} (hg : ∀ n state, g (f n state).1 = g n)
    (b : Block) (state : σ) : (b.mapState f state).1.nodes.map g = b.nodes.map g := by
  simp [mapState, nodes, hg, Children.map_nodes_mapState hg]

theorem forall_nodes_mapState {P : Node → Prop} (hP : ∀ n state, P (f n state).1)
    (b : Block) (state : σ) : ∀ n ∈ (b.mapState f state).1.nodes, P n :=
  List.forall_mem_cons.mpr ⟨hP _ _, Children.forall_nodes_mapState hP _ _⟩

theorem mapState_keeps {I : σ → Prop} (hI : ∀ n state, I state → I (f n state).2)
    (b : Block) {state : σ} (h : I state) : I (b.mapState f state).2 :=
  Children.mapState_keeps hI b.children (hI b.node state h)

end MapState

/-- A block is found exactly if its identity is there. -/
theorem find?_isSome_iff {id : BlockId} {b : Block} :
    (b.find? id).isSome ↔ id ∈ b.nodes.map Node.id := by
  rw [find?_eq_walk, ← ids_eq, ids]
  simp

end Block

/-! ### Other handles in the settings -/

/-- A field with another handle, if it holds one. -/
def Field.mapHandle (ρ : Handle → Handle) : Field → Field
  | .text s => .text s
  | .var h => .var (ρ h)

/-- A block with other handles in its settings. -/
def Node.mapHandle (ρ : Handle → Handle) (n : Node) : Node :=
  { n with fields := n.fields.mapValues (Field.mapHandle ρ) }

theorem Fields.get?_mapValues (g : Field → Field) (f : Fields) (name : String) :
    (f.mapValues g).get? name = (f.get? name).map g := by
  obtain ⟨es⟩ := f
  simp only [get?, mapValues]
  induction es with
  | nil => rfl
  | cons e es ih =>
    rw [List.map_cons, List.lookup_cons, List.lookup_cons]
    cases name == e.1
    · exact ih
    · rfl

namespace Node

theorem mapHandle_id (n : Node) : n.mapHandle (fun h => h) = n := by
  have hfield : ∀ f : Field, f.mapHandle (fun h => h) = f := by
    intro f
    cases f <;> rfl
  simp [mapHandle, Fields.mapValues, hfield]

theorem mapHandle_mapHandle (ρ τ : Handle → Handle) (n : Node) :
    (n.mapHandle ρ).mapHandle τ = n.mapHandle fun h => τ (ρ h) := by
  simp only [mapHandle, Fields.mapValues, List.map_map]
  congr 2
  refine List.map_congr_left fun e _ => ?_
  simp only [Function.comp]
  cases e.2 <;> rfl

/-- No text is touched. -/
@[simp] theorem text?_mapHandle (ρ : Handle → Handle) (n : Node) (name : String) :
    (n.mapHandle ρ).text? name = n.text? name := by
  rw [text?, mapHandle, Fields.get?_mapValues, text?]
  cases n.fields.get? name with
  | none => rfl
  | some field => cases field <;> rfl

end Node

theorem Children.map_map (f g : Node → Node) (cs : Children) :
    (cs.map f).map g = cs.map fun n => g (f n) := by
  induction cs with
  | nil => rfl
  | cons s n below rest ihb ihr => simp [map, ihb, ihr]

theorem Block.map_map (f g : Node → Node) (b : Block) :
    (b.map f).map g = b.map fun n => g (f n) := by
  simp [map, Children.map_map]

theorem Children.map_mapHandle_id (cs : Children) :
    cs.map (Node.mapHandle fun h => h) = cs := by
  induction cs with
  | nil => rfl
  | cons s n below rest ihb ihr => rw [map, Node.mapHandle_id, ihb, ihr]

theorem Block.map_mapHandle_id : map (Node.mapHandle fun h => h) = fun b => b := by
  funext b
  rw [map, Node.mapHandle_id, Children.map_mapHandle_id]

theorem Block.Ordered.mapHandle {b : Block} (h : b.Ordered) (ρ : Handle → Handle) :
    (b.map (Node.mapHandle ρ)).Ordered :=
  h.map fun _ hn => hn.mapValues _

end BlockProgram
