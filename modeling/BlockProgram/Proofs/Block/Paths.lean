import BlockProgram.Proofs.Block.Nodes

/-!
# Paths through a tree

A block of a tree is reached from the root by a path of slots. The sites of a tree are its blocks in
visiting order, each with its path, and each path once. All ways of going through a tree agree with
this list: visiting with and without changes, looking up, and changing one block, which is the first
one with its identity and the only one that is touched.
-/

namespace BlockProgram

/-- The block to which a path of slots leads. -/
def Block.at? : List Slot → Block → Option Block
  | [], b => some b
  | s :: path, b => (b.children.get? s).bind (at? path)

/-- The block to which a path of slots leads, apart from what hangs on it. -/
def Block.nodeAt? (path : List Slot) (b : Block) : Option Node := (b.at? path).map Block.node

/-- The blocks of a forest in visiting order, each with its path. -/
def Children.sites : Children → List (List Slot × Block)
  | .nil => []
  | .cons s n below rest =>
    ([s], ⟨n, below⟩) :: (below.sites.map (fun e => (s :: e.1, e.2)) ++ rest.sites)

/-- The blocks of a tree in visiting order, each with its path. -/
def Block.sites (b : Block) : List (List Slot × Block) := ([], b) :: b.children.sites

namespace Block

@[simp] theorem nodeAt?_nil (b : Block) : b.nodeAt? [] = some b.node := rfl

@[simp] theorem nodeAt?_cons (s : Slot) (path : List Slot) (b : Block) :
    b.nodeAt? (s :: path) = (b.children.get? s).bind (nodeAt? path) := by
  rw [nodeAt?, at?, Option.map_bind]
  rfl

end Block

/-! ### Visiting -/

namespace Children

variable {s : Slot} {path : List Slot} {b : Block} {cs : Children}

theorem sites_cons (s : Slot) (n : Node) (below rest : Children) :
    (cons s n below rest).sites =
      (Block.sites ⟨n, below⟩).map (fun e => (s :: e.1, e.2)) ++ rest.sites := rfl

theorem map_snd_sites (cs : Children) : cs.sites.map Prod.snd = cs.walk := by
  induction cs with
  | nil => rfl
  | cons s n below rest ihb ihr => simp [sites, walk, ← ihb, ← ihr]

/-- The sites of a forest are those of the trees in its slots. -/
theorem mem_sites_iff (h : cs.Ordered) :
    (path, b) ∈ cs.sites ↔
      ∃ s below c, path = s :: below ∧ cs.get? s = some c ∧ (below, b) ∈ c.sites := by
  induction cs with
  | nil => simp [sites]
  | cons s n below rest _ ih =>
    obtain ⟨hs, -, -, hrest⟩ := h
    rw [sites_cons, List.mem_append, ih hrest]
    constructor
    · rintro (hmem | ⟨t, p, c, rfl, hget, hmem⟩)
      · obtain ⟨e, he, heq⟩ := List.mem_map.mp hmem
        cases heq
        exact ⟨s, e.1, _, rfl, if_pos rfl, he⟩
      · have hne : s ≠ t := Slot.ne_of_before (hs t (mem_slots_of_get? hget))
        exact ⟨t, p, c, rfl, by rw [get?, if_neg hne, hget], hmem⟩
    · rintro ⟨t, p, c, rfl, hget, hmem⟩
      rw [get?] at hget
      split at hget
      · rename_i heq
        cases heq
        cases hget
        exact .inl (List.mem_map.mpr ⟨_, hmem, rfl⟩)
      · exact .inr ⟨t, p, c, rfl, hget, hmem⟩

/-- A path into a forest begins with one of its slots. -/
theorem exists_of_mem_sites (h : cs.Ordered) (hmem : path ∈ cs.sites.map Prod.fst) :
    ∃ s below, path = s :: below ∧ s ∈ cs.slots := by
  obtain ⟨⟨path', b⟩, hsite, rfl⟩ := List.mem_map.mp hmem
  obtain ⟨s, below, c, rfl, hget, -⟩ := (mem_sites_iff h).mp hsite
  exact ⟨s, below, rfl, mem_slots_of_get? hget⟩

theorem map_fst_sites_cons (s : Slot) (n : Node) (below rest : Children) :
    (cons s n below rest).sites.map Prod.fst =
      [s] :: ((below.sites.map Prod.fst).map (s :: ·) ++ rest.sites.map Prod.fst) := by
  simp [sites, Function.comp_def]

/-- No path is there twice. -/
theorem nodup_sites (h : cs.Ordered) : (cs.sites.map Prod.fst).Nodup := by
  induction cs with
  | nil => exact List.nodup_nil
  | cons s n below rest ihb ihr =>
    obtain ⟨hs, -, hbelow, hrest⟩ := h
    -- the paths that come after those below begin with other slots
    have hother : ∀ p, s :: p ∉ rest.sites.map Prod.fst := by
      intro p hp
      obtain ⟨t, q, hpath, ht⟩ := exists_of_mem_sites hrest hp
      cases hpath
      exact Slot.ne_of_before (hs s ht) rfl
    have hempty : [] ∉ below.sites.map Prod.fst := by
      intro hp
      obtain ⟨t, q, hpath, -⟩ := exists_of_mem_sites hbelow hp
      cases hpath
    rw [map_fst_sites_cons, List.nodup_cons, List.mem_append, List.nodup_append]
    refine ⟨?_, (ihb hbelow).map List.cons_injective, ihr hrest, ?_⟩
    · rintro (hmem | hmem)
      · exact hempty (by simpa using hmem)
      · exact hother [] hmem
    · rintro p hp q hq rfl
      obtain ⟨p, -, rfl⟩ := List.mem_map.mp hp
      exact hother p hq

section MapState

variable {σ : Type} (f : Node → σ → Node × σ)

/-- A visit with changes goes to the same sites. -/
theorem map_fst_sites_mapState (cs : Children) (state : σ) :
    (cs.mapState f state).1.sites.map Prod.fst = cs.sites.map Prod.fst := by
  induction cs generalizing state with
  | nil => rfl
  | cons s n below rest ihb ihr => simp only [mapState, map_fst_sites_cons, ihb, ihr]

/-- A visit with changes makes them in visiting order. -/
theorem mapM_nodes (cs : Children) (state : σ) :
    cs.nodes.mapM (m := StateM σ) f state =
      ((cs.mapState f state).1.nodes, (cs.mapState f state).2) := by
  induction cs generalizing state with
  | nil => rfl
  | cons s n below rest ihb ihr =>
    rw [nodes, List.mapM_cons, List.mapM_append]
    show (let below' := below.nodes.mapM (m := StateM σ) f (f n state).2
          let rest' := rest.nodes.mapM (m := StateM σ) f below'.2
          ((f n state).1 :: (below'.1 ++ rest'.1), rest'.2)) = _
    rw [ihb]
    dsimp only
    rw [ihr]
    rfl

end MapState

/-! ### Looking up and changing one block -/

/-- Looking up finds the first block with an identity. -/
theorem find?_eq_sites (id : BlockId) (cs : Children) :
    cs.find? id = (cs.sites.find? (·.2.id = id)).map Prod.snd := by
  rw [find?_eq_walk, ← map_snd_sites, List.find?_map]
  rfl

theorem find?_sites_cons {id : BlockId} {n : Node} (hid : n.id ≠ id) (s : Slot)
    (below rest : Children) :
    (cons s n below rest).sites.find? (·.2.id = id) =
      ((below.sites.find? (·.2.id = id)).map fun e => (s :: e.1, e.2)).or
        (rest.sites.find? (·.2.id = id)) := by
  rw [sites, List.find?_cons_of_neg (by simp [Block.id, hid]), List.find?_append, List.find?_map]
  rfl

/-- If the change leaves alone what hangs on a block, it is made at the site of the first block with
the identity, and at all other sites everything is as it was. -/
theorem exists_of_update? {id : BlockId} {f : Block → Block} {cs cs' : Children}
    (hf : ∀ c, (f c).children = c.children) (h : cs.Ordered) (hu : cs.update? id f = some cs')
    (root : Node) :
    ∃ path c, cs.sites.find? (·.2.id = id) = some (path, c) ∧
      ∀ q, Block.nodeAt? q ⟨root, cs'⟩ =
        if q = path then some (f c).node else Block.nodeAt? q ⟨root, cs⟩ := by
  induction cs generalizing cs' root with
  | nil => cases hu
  | cons s n below rest ihb ihr =>
    obtain ⟨hs, -, hbelow, hrest⟩ := h
    rw [update?] at hu
    split at hu
    · -- the block itself
      rename_i hid
      cases hu
      refine ⟨[s], ⟨n, below⟩, by simp [sites, Block.id, hid], fun q => ?_⟩
      rw [hf]
      rcases q with _ | ⟨t, _ | ⟨u, q⟩⟩
      · rfl
      · by_cases hst : s = t <;> simp [get?, hst, eq_comm]
      · by_cases hst : s = t <;> simp [get?, hst]
    · rename_i hid
      split at hu
      · -- a block below it
        rename_i below' hb
        cases hu
        obtain ⟨path, c, hfind, hnodes⟩ := ihb hbelow hb n
        refine ⟨s :: path, c, by simp [find?_sites_cons hid, hfind], fun q => ?_⟩
        cases q with
        | nil => rfl
        | cons t q => by_cases hst : s = t <;> simp [get?, hst, hnodes, eq_comm]
      · -- a block after it
        rename_i hb
        obtain ⟨rest', hr, rfl⟩ := Option.map_eq_some_iff.mp hu
        obtain ⟨path, c, hfind, hnodes⟩ := ihr hrest hr root
        have hnone : below.sites.find? (·.2.id = id) = none := by
          rw [← Option.map_eq_none_iff, ← find?_eq_sites]
          exact update?_eq_none_iff.mp hb
        obtain ⟨u, path', rfl, hslot⟩ : ∃ u path', path = u :: path' ∧ u ∈ rest.slots :=
          exists_of_mem_sites hrest (List.mem_map_of_mem (List.mem_of_find?_eq_some hfind))
        refine ⟨u :: path', c, by simp [find?_sites_cons hid, hnone, hfind], fun q => ?_⟩
        cases q with
        | nil => rfl
        | cons t q =>
          by_cases hst : s = t
          · have htu : t ≠ u := hst ▸ Slot.ne_of_before (hs u hslot)
            simp [get?, hst, htu]
          · simpa [get?, hst] using hnodes (t :: q)

end Children

namespace Block

variable {b : Block}

theorem map_snd_sites (b : Block) : b.sites.map Prod.snd = b.walk := by
  rw [sites, List.map_cons, Children.map_snd_sites, walk]

theorem nodup_sites (hb : b.Ordered) : (b.sites.map Prod.fst).Nodup := by
  rw [sites, List.map_cons, List.nodup_cons]
  refine ⟨fun hmem => ?_, Children.nodup_sites hb.2⟩
  obtain ⟨s, below, hpath, -⟩ := Children.exists_of_mem_sites hb.2 hmem
  cases hpath

/-- The sites are where paths lead. -/
theorem mem_sites_iff {path : List Slot} {c : Block} (hb : b.Ordered) :
    (path, c) ∈ b.sites ↔ b.at? path = some c := by
  rw [sites, List.mem_cons]
  induction path generalizing b with
  | nil =>
    have hroot : ([], c) ∉ b.children.sites := by
      intro hmem
      obtain ⟨s, below, hpath, -⟩ := Children.exists_of_mem_sites hb.2 (List.mem_map_of_mem hmem)
      cases hpath
    simp [at?, hroot, eq_comm]
  | cons s path ih =>
    rw [Children.mem_sites_iff hb.2, at?, Option.bind_eq_some_iff]
    constructor
    · rintro (h | ⟨s', below, d, heq, hget, hmem⟩)
      · cases h
      · cases heq
        exact ⟨d, hget, (ih (hb.2.get? hget)).mp (List.mem_cons.mp hmem)⟩
    · rintro ⟨d, hget, hat⟩
      exact .inr ⟨s, path, d, rfl, hget, List.mem_cons.mpr ((ih (hb.2.get? hget)).mpr hat)⟩

/-- Every block of a tree is visited once, and a visit with changes takes the same way. -/
structure Visited (b : Block) : Prop where
  /-- A visit goes through the sites. -/
  walk : b.sites.map Prod.snd = b.walk
  /-- No path is there twice. -/
  once : (b.sites.map Prod.fst).Nodup
  /-- The sites are where paths lead. -/
  every : ∀ path c, (path, c) ∈ b.sites ↔ b.at? path = some c
  /-- A visit with changes leaves each block where it is. -/
  sites : ∀ {σ : Type} (f : Node → σ → Node × σ) (state : σ),
    (b.mapState f state).1.sites.map Prod.fst = b.sites.map Prod.fst
  /-- A visit with changes makes them block by block in visiting order. -/
  order : ∀ {σ : Type} (f : Node → σ → Node × σ) (state : σ),
    (b.walk.map Block.node).mapM (m := StateM σ) f state =
      ((b.mapState f state).1.walk.map Block.node, (b.mapState f state).2)

theorem visited (hb : b.Ordered) : b.Visited where
  walk := b.map_snd_sites
  once := nodup_sites hb
  every _ _ := mem_sites_iff hb
  sites f state := by
    simp only [mapState, Block.sites, List.map_cons, Children.map_fst_sites_mapState]
  order f state := by
    rw [map_node_walk, map_node_walk, nodes, List.mapM_cons]
    show (let below := b.children.nodes.mapM (m := StateM _) f (f b.node state).2
          ((f b.node state).1 :: below.1, below.2)) = _
    rw [Children.mapM_nodes]
    rfl

/-- Looking a block up finds the first one in visiting order. -/
structure Found (b : Block) (id : BlockId) : Prop where
  /-- What is found is the first block with the identity. -/
  first : b.find? id = b.walk.find? (·.id = id)
  /-- Nothing is found if there is no such block. -/
  absent : b.find? id = none ↔ ∀ c ∈ b.walk, c.id ≠ id
  /-- A tree contains what is found in it. -/
  contains : b.contains id ↔ ∃ c ∈ b.walk, c.id = id

theorem found (b : Block) (id : BlockId) : b.Found id where
  first := b.find?_eq_walk id
  absent := by simp [find?_eq_walk]
  contains := by simp [Block.contains, find?_eq_walk]

theorem find?_eq_sites (id : BlockId) (b : Block) :
    b.find? id = (b.sites.find? (·.2.id = id)).map Prod.snd := by
  rw [find?_eq_walk, ← map_snd_sites, List.find?_map]
  rfl

theorem exists_of_update? {id : BlockId} {f : Block → Block} {b' : Block}
    (hf : ∀ c, (f c).children = c.children) (hb : b.Ordered) (hu : b.update? id f = some b') :
    ∃ path c, b.sites.find? (·.2.id = id) = some (path, c) ∧
      ∀ q, b'.nodeAt? q = if q = path then some (f c).node else b.nodeAt? q := by
  rw [update?] at hu
  split at hu
  · rename_i hid
    cases hu
    refine ⟨[], b, by simp [sites, hid], fun q => ?_⟩
    cases q with
    | nil => rfl
    | cons t q => simp [hf]
  · rename_i hid
    obtain ⟨cs, hcs, rfl⟩ := Option.map_eq_some_iff.mp hu
    obtain ⟨path, c, hfind, hnodes⟩ := Children.exists_of_update? hf hb.2 hcs b.node
    exact ⟨path, c, by simp [sites, hid, hfind], hnodes⟩

end Block

/-! ### Giving a setting a value -/

/-- Of blocks at sites, one has been given a value for a setting, and nothing else has changed. -/
structure Written {ι : Type} (before after : ι → Option Node) (site : ι) (name : String)
    (value : Field) : Prop where
  /-- The block at the site has the setting, and is as it was otherwise. -/
  here : ∃ n n', before site = some n ∧ after site = some n' ∧ n'.id = n.id ∧ n'.kind = n.kind ∧
    ∀ other, n'.fields.get? other = if other = name then some value else n.fields.get? other
  /-- At all other sites there is what there was. -/
  elsewhere : ∀ i ≠ site, after i = before i

/-- A setting that is inserted is the only thing that changes. -/
theorem written_of_insert {ι : Type} {before after : ι → Option Node} {site : ι} {n : Node}
    {name : String} {value : Field} (hn : before site = some n)
    (hsite : after site = some { n with fields := n.fields.insert name value })
    (helse : ∀ i ≠ site, after i = before i) : Written before after site name value := by
  refine ⟨⟨n, _, hn, hsite, rfl, rfl, fun other => ?_⟩, helse⟩
  by_cases h : other = name
  · simp [h]
  · rw [if_neg h, Fields.get?_insert_of_ne value h]

/-- A value is given to the first block with an identity, and to no other. -/
theorem Block.exists_written {b : Block} (hb : b.Ordered) {id : BlockId} {c : Block}
    (hc : b.find? id = some c) (name : String) (value : Field) :
    ∃ path b', b.sites.find? (·.2.id = id) = some (path, c) ∧
      b.update? id (Block.setField · name value) = some b' ∧ b'.Ordered ∧
      Written (b.nodeAt? ·) (b'.nodeAt? ·) path name value := by
  cases hu : b.update? id (Block.setField · name value) with
  | none =>
    rw [update?_eq_none_iff, hc] at hu
    cases hu
  | some b' =>
    have hchildren : ∀ c : Block, (c.setField name value).children = c.children := fun _ => rfl
    obtain ⟨path, c', hfind, hnodes⟩ := exists_of_update? hchildren hb hu
    obtain rfl : c' = c := by simpa [find?_eq_sites, hfind] using hc
    have hat : b.at? path = some c' := (mem_sites_iff hb).mp (List.mem_of_find?_eq_some hfind)
    have hb' : b'.Ordered := hb.update? (fun _ hc => hc.setField name value) hu
    refine ⟨path, b', hfind, rfl, hb', written_of_insert (n := c'.node) ?_ ?_ fun q hq => ?_⟩
    · rw [nodeAt?, hat, Option.map_some]
    · rw [hnodes, if_pos rfl]
      rfl
    · rw [hnodes, if_neg hq]

end BlockProgram
