/-
  What `alias_ipv4_networks` does to a tree.

  The halting descent for `::/96` (the IPv4 root network) reads its first 95 bits and stops at
  the node `R` whose two records cover `::/96` and `::1:0:0/96`.  The loop then materialises the
  first 94 bits of `::ffff:0:0` and the first 15 bits of `2002::` and points the record of the
  next bit (bit 94, set, and bit 15, clear) at `R`.  So the alias edges enter `R` one bit
  higher than the IPv4 root network's own path does:

  * `::ffff:0:0/95` is wired to `R`, so `::ffff:a` reaches what `::1:a` reached before, and
    `::fffe:a` what `::a` reached (`aliasIpv4Networks_select_mapped`);
  * `2002::/16` is wired to `R`, so the bit after `2002` selects between `::/96` and
    `::1:0:0/96`, and the IPv4 address is read one bit late
    (`aliasIpv4Networks_select_sixToFour`);
  * every other path of the address length reads what it read before
    (`aliasIpv4Networks_select_other`), and `R`'s subtree itself is untouched.

  The proofs work in a tree built without aliases (`Tree.Labelled`).  The second alias step
  runs in a tree that already has the first alias edge; `Tree.materialize_setRecord` moves that
  write after the second materialisation, which never reads it, so that both materialisations
  happen in a labelled tree and the two alias edges are written last.
-/
import MaxMindDBWriter.PrefixLaws

namespace MMDBW

/-! ## The records a descent reads -/

/-- The halting descent from `g` along `p` reads record `b` of node `h`. -/
def Tree.Reads (t : Tree) : Nat → List Bool → Nat → Bool → Prop
  | _, [], _, _ => False
  | g, c :: p, h, b => (g = h ∧ c = b) ∨ ∃ x, (t.nodes g).side c = .node x ∧ t.Reads x p h b

/-- In a labelled tree, a descent reads a record only where the record's label starts the
    descent's path. -/
theorem Tree.Labelled.pos_of_reads {t : Tree} {pos : Nat → List Bool} (hl : t.Labelled pos)
    (hw : t.WellFormed) {h : Nat} {b : Bool} :
    ∀ (q : List Bool) (g : Nat), g < t.nextNode → t.Reads g q h b → pos h ++ [b] <+: pos g ++ q := by
  intro q
  induction q with
  | nil => intro g _ hr; exact hr.elim
  | cons c q ih =>
    intro g hg hr
    rcases hr with ⟨rfl, rfl⟩ | ⟨x, hx, hr⟩
    · exact ⟨q, by simp⟩
    · have := ih x (hw.child_lt g hg c x hx) hr
      rwa [hl.child g hg c x hx, List.append_assoc] at this

/-! ## Writes that commute -/

theorem Node.setSide_comm (node : Node) {b c : Bool} (hbc : b ≠ c) (r r' : Record) :
    (node.setSide b r).setSide c r' = (node.setSide c r').setSide b r := by
  cases b <;> cases c <;> simp_all [Node.setSide]

/-- Writes to two different records commute. -/
theorem Tree.setRecord_comm (t : Tree) {h g : Nat} {b c : Bool} (r r' : Record)
    (hne : ¬ (g = h ∧ c = b)) :
    (t.setRecord h b r).setRecord g c r' = (t.setRecord g c r').setRecord h b r := by
  unfold Tree.setRecord
  congr 1
  funext x
  simp only [Function.update_apply]
  by_cases hg : x = g <;> by_cases hh : x = h
  · subst hg hh
    simp only [if_true]
    exact Node.setSide_comm _ (fun e => hne ⟨rfl, e.symm⟩) _ _
  all_goals simp_all

/-- A new node does not disturb a write to an allocated node. -/
theorem newNode_setRecord (t : Tree) {h : Nat} (hh : h < t.nextNode) (b : Bool) (r : Record) :
    newNode (t.setRecord h b r) = ((newNode t).1.setRecord h b r, (newNode t).2) := by
  unfold newNode Tree.setRecord
  split <;>
  · simp only [Prod.mk.injEq, and_true]
    congr 1
    funext x
    simp only [Function.update_apply]
    by_cases hx : x = t.nextNode <;> by_cases hx' : x = h <;> simp_all

theorem makeNextNode_setRecord (t : Tree) {h : Nat} (hh : h < t.nextNode) (b : Bool) (r : Record)
    (record : Record) :
    makeNextNode (t.setRecord h b r) record =
      ((makeNextNode t record).1.setRecord h b r, (makeNextNode t record).2) := by
  have hne : ∀ c, ¬ ((newNode t).2 = h ∧ c = b) := fun c e => by simp at e; omega
  unfold makeNextNode
  split
  · simp only [newNode_setRecord t hh, Tree.setRecord_comm _ _ _ (hne _)]
  · exact newNode_setRecord t hh b r

/-- A materialising descent that does not read record `b` of an allocated node `h` commutes
    with a write to that record. -/
theorem Tree.materialize_setRecord {h : Nat} {b : Bool} (r : Record) (P : List Bool) :
    ∀ (t : Tree) (g : Nat), t.WellFormed → g < t.nextNode → h < t.nextNode → ¬ t.Reads g P h b →
      (t.setRecord h b r).materialize g P =
        ((t.materialize g P).1.setRecord h b r, (t.materialize g P).2) := by
  induction P with
  | nil => intro t g _ _ _ _; rfl
  | cons c P ih =>
    intro t g hw hg hh hr
    have hgc : ¬ (g = h ∧ c = b) := fun e => hr (.inl e)
    have hside : ((t.setRecord h b r).nodes g).side c = (t.nodes g).side c := by
      rw [Tree.setRecord_side, if_neg (fun e => hgc ⟨e.1, e.2.symm⟩)]
    by_cases hn : ∃ x, (t.nodes g).side c = .node x
    · -- a `NODE` record: both descents follow it
      obtain ⟨x, hx⟩ := hn
      rw [Tree.materialize_cons_node _ P (hside.trans hx), Tree.materialize_cons_node _ P hx]
      exact ih t x hw (hw.child_lt g hg c x hx) hh (fun hr' => hr (.inr ⟨x, hx, hr'⟩))
    · -- a leaf: the same new node is made, and the write moves past it
      have hleaf : ∀ x, (t.nodes g).side c ≠ .node x := fun x e => hn ⟨x, e⟩
      rw [Tree.materialize_cons_leaf _ P (hside ▸ hleaf), Tree.materialize_cons_leaf _ P hleaf]
      dsimp only
      rw [hside, makeNextNode_setRecord t hh, Tree.setRecord_comm _ _ _ hgc]
      have hnew : (makeNextNode t ((t.nodes g).side c)).2 = t.nextNode := makeNextNode_snd _ _
      refine ih _ _ ((hw.makeNextNode _).setRecord g c (fun x e => by cases e; simp [hnew]))
        (by simp [hnew]) (by simp; omega) ?_
      intro hr'
      cases P with
      | nil => exact hr'
      | cons d P =>
        rcases hr' with ⟨e, -⟩ | ⟨x, hx, -⟩
        · omega
        · rw [Tree.setRecord_side, if_neg (fun e => by omega), makeNextNode_nodes, hnew,
            if_pos rfl] at hx
          exact Record.splitCopy_ne_node _ x hx

/-! ## The alias networks' paths -/

/-- The first 95 bits of `::/96`: the halting descent for the IPv4 root network reads them. -/
def ipv4RootPath : List Bool := List.replicate 95 false

/-- The first 94 bits of `::ffff:0:0/95`; the alias edge is the record of bit 94, which is set. -/
def mappedAliasPath : List Bool := List.replicate 80 false ++ List.replicate 14 true

/-- The first 15 bits of `2002::/16`; the alias edge is the record of bit 15, which is clear. -/
def sixToFourAliasPath : List Bool :=
  [false, false, true, false, false, false, false, false, false, false, false, false, false, false, true]

/-- An IPv6 literal resolves to the same network in every tree. -/
theorem resolveNetwork_v6 (t : Tree) (a : List UInt8) (h : a.length = 16) (m : UInt8) :
    resolveNetwork t (.v6 a h) m = ⟨a, m, 127, .inet6, .inr rfl, by simp [h]⟩ := rfl

theorem ipv4RootNetwork_bits (t : Tree) :
    (resolveNetwork t ipv4RootLiteral 96).depth = 95 ∧
      (resolveNetwork t ipv4RootLiteral 96).maxDepth0 = 127 ∧
      (resolveNetwork t ipv4RootLiteral 96).bits 95 = ipv4RootPath := by
  rw [ipv4RootLiteral, resolveNetwork_v6]; decide

theorem ipv4Aliases_foldl {β : Type} (f : β → IpLiteral × UInt8 → β) (b : β) :
    ipv4Aliases.foldl f b = f (f b ipv4Aliases[0]) ipv4Aliases[1] := rfl

/-- The descent for `::ffff:0:0/95` reads `mappedAliasPath`, and selects the right record. -/
theorem mappedAliasNetwork_bits (t : Tree) :
    (resolveNetwork t ipv4Aliases[0].1 ipv4Aliases[0].2).bits
        (resolveNetwork t ipv4Aliases[0].1 ipv4Aliases[0].2).depth = mappedAliasPath ∧
      (resolveNetwork t ipv4Aliases[0].1 ipv4Aliases[0].2).bit
        (resolveNetwork t ipv4Aliases[0].1 ipv4Aliases[0].2).depth = true := by
  simp only [ipv4Aliases, List.getElem_cons_zero, resolveNetwork_v6]; decide

/-- The descent for `2002::/16` reads `sixToFourAliasPath`, and selects the left record. -/
theorem sixToFourAliasNetwork_bits (t : Tree) :
    (resolveNetwork t ipv4Aliases[1].1 ipv4Aliases[1].2).bits
        (resolveNetwork t ipv4Aliases[1].1 ipv4Aliases[1].2).depth = sixToFourAliasPath ∧
      (resolveNetwork t ipv4Aliases[1].1 ipv4Aliases[1].2).bit
        (resolveNetwork t ipv4Aliases[1].1 ipv4Aliases[1].2).depth = false := by
  simp only [ipv4Aliases, List.getElem_cons_succ, List.getElem_cons_zero, v6Prefix,
    resolveNetwork_v6]; decide

/-! ## `alias_ipv4_networks` at path level -/

/-- `alias_ipv4_networks` in a tree that is not IPv4 and whose halting descent along
    `ipv4RootPath` reaches a node `R`: two materialising descents, each followed by a `NODE`
    record to `R`. -/
theorem aliasIpv4Networks_of_select {t : Tree} (h4 : t.ipVersion ≠ 4) {R : Nat}
    (hR : t.select t.rootNode ipv4RootPath = .node R) :
    aliasIpv4Networks t =
      let m₁ := t.materialize t.rootNode mappedAliasPath
      let t₁ := m₁.1.setRecord m₁.2 true (.node R)
      let m₂ := t₁.materialize t₁.rootNode sixToFourAliasPath
      m₂.1.setRecord m₂.2 false (.node R) := by
  obtain ⟨hd, -, hbits⟩ := ipv4RootNetwork_bits t
  obtain ⟨j, hj, hsel, hcb, hstop⟩ :=
    findNodeForNetwork_returnNull_node t (resolveNetwork t ipv4RootLiteral 96)
  rw [hd] at hj hstop
  -- the descent for `::/96` runs its 95 steps: every prefix of `ipv4RootPath` reaches a node
  have hj95 : j = 95 := by
    by_contra hne
    have hp : (resolveNetwork t ipv4RootLiteral 96).bits (j + 1) <+: ipv4RootPath :=
      hbits ▸ Network.bits_prefix _ (by omega)
    obtain ⟨x, hx⟩ := Tree.select_prefix_node hR hp
    exact hstop (by omega) x hx
  subst hj95
  rw [hbits, hR] at hsel
  rw [aliasIpv4Networks_eq t h4, if_neg (by rw [hcb, (ipv4RootNetwork_bits t).2.1]; omega),
    ipv4Aliases_foldl]
  simp only [(mappedAliasNetwork_bits _).1, (mappedAliasNetwork_bits _).2,
    (sixToFourAliasNetwork_bits _).1, (sixToFourAliasNetwork_bits _).2, ← Record.node.inj hsel]

/-- `alias_ipv4_networks` changes nothing when the halting descent along `ipv4RootPath` stops
    on a record that is not `NODE`. -/
theorem aliasIpv4Networks_of_not_select {t : Tree}
    (hR : ∀ R, t.select t.rootNode ipv4RootPath ≠ .node R) : aliasIpv4Networks t = t := by
  unfold aliasIpv4Networks
  split
  · rfl
  obtain ⟨hd, -, hbits⟩ := ipv4RootNetwork_bits t
  obtain ⟨j, hj, hsel, hcb, -⟩ :=
    findNodeForNetwork_returnNull_node t (resolveNetwork t ipv4RootLiteral 96)
  have hj95 : j ≠ 95 := fun e => hR _ (by rw [← hbits, ← e]; exact hsel)
  dsimp only at hcb ⊢
  rw [if_pos (by rw [hcb, (ipv4RootNetwork_bits t).2.1]; omega)]
  exact (findNodeForNetwork_returnNull t _).1

/-- `alias_ipv4_networks` writes node records only. -/
theorem aliasIpv4Networks_dataHash (t : Tree) : (aliasIpv4Networks t).dataHash = t.dataHash := by
  by_cases h4 : t.ipVersion = 4
  · simp [aliasIpv4Networks, h4]
  by_cases hR : ∃ R, t.select t.rootNode ipv4RootPath = .node R
  · obtain ⟨R, hR⟩ := hR
    rw [aliasIpv4Networks_of_select h4 hR]
    simp
  · rw [aliasIpv4Networks_of_not_select (fun R h => hR ⟨R, h⟩)]

/-- Nor does it take or release a reference. -/
theorem aliasIpv4Networks_refs (t : Tree) : (aliasIpv4Networks t).refs = t.refs := by
  by_cases h4 : t.ipVersion = 4
  · simp [aliasIpv4Networks, h4]
  by_cases hR : ∃ R, t.select t.rootNode ipv4RootPath = .node R
  · obtain ⟨R, hR⟩ := hR
    rw [aliasIpv4Networks_of_select h4 hR]
    simp
  · rw [aliasIpv4Networks_of_not_select (fun R h => hR ⟨R, h⟩)]

/-- The tree `alias_ipv4_networks` writes its two edges into when it aliases a labelled tree
    `t`: both alias paths materialised, every other halting descent from the root unchanged. -/
structure AliasBase (t v : Tree) (pos : Nat → List Bool) (a s R : Nat) : Prop where
  wellFormed : v.WellFormed
  labelled : v.Labelled pos
  rootNode_eq : v.rootNode = t.rootNode
  ipVersion_eq : v.ipVersion = t.ipVersion
  select_mapped : v.select v.rootNode mappedAliasPath = .node a
  select_sixToFour : v.select v.rootNode sixToFourAliasPath = .node s
  select_ipv4Root : v.select v.rootNode ipv4RootPath = .node R
  select_eq : ∀ q, ¬ q <+: mappedAliasPath → ¬ q <+: sixToFourAliasPath →
    v.select v.rootNode q = t.select t.rootNode q

/-- Aliasing a labelled tree: the second materialisation does not read the first alias edge,
    so both edges can be written after both materialisations. -/
theorem aliasIpv4Networks_base {t : Tree} {pos : Nat → List Bool} (hw : t.WellFormed)
    (hl : t.Labelled pos) (h4 : t.ipVersion ≠ 4) {R : Nat}
    (hR : t.select t.rootNode ipv4RootPath = .node R) :
    ∃ v pos' a s, AliasBase t v pos' a s R ∧
      aliasIpv4Networks t = (v.setRecord a true (.node R)).setRecord s false (.node R) := by
  rw [aliasIpv4Networks_of_select h4 hR]
  obtain ⟨w₁, a₁, -, root₁, ip₁, sel₁, -⟩ :=
    Tree.materialize_spec mappedAliasPath t t.rootNode hw hw.root_lt
  obtain ⟨pos₁, hl₁, -, far₁⟩ := Tree.materialize_labelled mappedAliasPath t pos [] t.rootNode hw hl rfl
  generalize t.materialize t.rootNode mappedAliasPath = m₁ at *
  rw [← root₁] at sel₁ far₁
  -- the descent along `sixToFourAliasPath` does not read the first alias edge
  have hnr : ¬ m₁.1.Reads m₁.1.rootNode sixToFourAliasPath m₁.2 true := fun hr => by
    have := hl₁.pos_of_reads w₁ _ _ w₁.root_lt hr
    rw [hl₁.root, hl₁.pos_of_select_root w₁ sel₁] at this
    exact not_prefix_of_length_lt (by decide) this
  dsimp only
  rw [Tree.setRecord_rootNode, Tree.materialize_setRecord _ _ _ _ w₁ w₁.root_lt a₁ hnr]
  obtain ⟨w₂, -, -, root₂, ip₂, sel₂, -⟩ :=
    Tree.materialize_spec sixToFourAliasPath m₁.1 m₁.1.rootNode w₁ w₁.root_lt
  obtain ⟨pos₂, hl₂, -, far₂⟩ :=
    Tree.materialize_labelled sixToFourAliasPath m₁.1 pos₁ [] m₁.1.rootNode w₁ hl₁ rfl
  generalize m₁.1.materialize m₁.1.rootNode sixToFourAliasPath = m₂ at *
  rw [← root₂] at sel₂ far₂
  have hfar : ∀ q, ¬ q <+: mappedAliasPath → ¬ q <+: sixToFourAliasPath →
      m₂.1.select m₂.1.rootNode q = t.select t.rootNode q := fun q h₁ h₂ => by
    rw [far₂ q h₂, root₂, far₁ q h₁, root₁]
  refine ⟨m₂.1, pos₂, m₁.2, m₂.2, ⟨w₂, hl₂, root₂.trans root₁, ip₂.trans ip₁, ?_, sel₂, ?_, hfar⟩, rfl⟩
  · rw [far₂ _ (not_prefix_of_length_lt (by decide)), root₂, sel₁]
  · rw [hfar _ (not_prefix_of_length_lt (by decide)) (not_prefix_of_length_lt (by decide)), hR]

/-- `::0.0.0.0/96 → k` in a new IPv6 tree builds a tree without aliases in which the descent
    for `::/96` reaches a node: `::/96` holds the data, and `::1:0:0/96` is still `EMPTY`. -/
theorem insertNetwork_ipv4Root_node :
    ∃ T, insertNetwork 1 (newTree 6 28 0) ipv4RootLiteral 96 ⟨1, [65]⟩ ⟨2, [66]⟩ = some (0, T) ∧
      Reachable aliasFree T ∧ T.ipVersion = 6 ∧ ∃ R, T.select T.rootNode ipv4RootPath = .node R := by
  obtain ⟨T, hT⟩ := insertNetwork_returns (show (insertNetwork 1 (newTree 6 28 0)
    ipv4RootLiteral 96 ⟨1, [65]⟩ ⟨2, [66]⟩).map Prod.fst = some 0 by decide)
  have hr₀ : Reachable aliasFree (newTree 6 28 0) := .newTree 6 28 0 (.inr rfl)
  obtain ⟨pos₀, hl₀⟩ := hr₀.labelled
  have h96 : (resolveNetwork (newTree 6 28 0) ipv4RootLiteral 96).bits (96 : UInt8).toNat =
      ipv4RootPath ++ [false] := by decide
  obtain ⟨-, hip, hin⟩ := insertNetwork_select_inside hr₀.valid (by decide) (by decide) hT
  rw [h96] at hin
  have hout := insertNetwork_select_outside hr₀.valid hl₀ (by decide) (by decide) hT
    (ipv4RootPath ++ true :: List.replicate 32 false) (by simp [ipv4RootPath, Tree.maxDepth0])
    (by rw [h96, List.prefix_append_right_inj]; decide)
  rw [newTree_select _ _ _ (by simp [ipv4RootPath])] at hout
  exact ⟨T, hT, .step hr₀ (fun h => Op.noConfusion h) (.insertNetwork hT), hip,
    T.select_node_of_ne hin hout.eq_empty (by simp)⟩

/-! ## The two alias edges -/

theorem not_prefix_append_of_not_prefix {l p : List Bool} (q : List Bool) (hl : l.length ≤ p.length)
    (h : ¬ l <+: p) : ¬ l <+: p ++ q :=
  fun hq => h (List.prefix_of_prefix_length_le hq (List.prefix_append _ _) hl)

section AliasEdges

variable {t v : Tree} {pos : Nat → List Bool} {a s R : Nat}

theorem AliasBase.pos_eq (hb : AliasBase t v pos a s R) :
    pos a = mappedAliasPath ∧ pos s = sixToFourAliasPath ∧ pos R = ipv4RootPath :=
  ⟨hb.labelled.pos_of_select_root hb.wellFormed hb.select_mapped,
    hb.labelled.pos_of_select_root hb.wellFormed hb.select_sixToFour,
    hb.labelled.pos_of_select_root hb.wellFormed hb.select_ipv4Root⟩

/-- The frame lemma for the two alias edges. -/
theorem AliasBase.select_edges_eq (hb : AliasBase t v pos a s R) {g : Nat} (hg : g < v.nextNode)
    {q : List Bool} (h₁ : ¬ mappedAliasPath ++ [true] <+: pos g ++ q)
    (h₂ : ¬ sixToFourAliasPath ++ [false] <+: pos g ++ q) :
    ((v.setRecord a true (.node R)).setRecord s false (.node R)).select g q = v.select g q := by
  obtain ⟨ha, hs, -⟩ := hb.pos_eq
  refine hb.labelled.select_eq hb.wellFormed (E := fun h c => (h = a ∧ true = c) ∨ (h = s ∧ false = c))
    (fun h _ c hne => ?_) q g hg ?_
  · rw [Tree.setRecord_side, Tree.setRecord_side, if_neg (fun e => hne (.inr e)),
      if_neg (fun e => hne (.inl e))]
  · rintro h b (⟨rfl, rfl⟩ | ⟨rfl, rfl⟩)
    · rwa [ha]
    · rwa [hs]

/-- Below `R` nothing changes: from `R` the aliased tree reads what `t` reads below
    `ipv4RootPath`. -/
theorem AliasBase.select_ipv4Root_append (hb : AliasBase t v pos a s R) (q : List Bool) :
    ((v.setRecord a true (.node R)).setRecord s false (.node R)).select R q =
      t.select t.rootNode (ipv4RootPath ++ q) := by
  have hR : R < v.nextNode := hb.wellFormed.select_lt _ _ _ hb.wellFormed.root_lt hb.select_ipv4Root
  have h₁ : ¬ mappedAliasPath ++ [true] <+: pos R ++ q := by
    rw [hb.pos_eq.2.2]; exact not_prefix_append_of_not_prefix q (by decide) (by decide)
  have h₂ : ¬ sixToFourAliasPath ++ [false] <+: pos R ++ q := by
    rw [hb.pos_eq.2.2]; exact not_prefix_append_of_not_prefix q (by decide) (by decide)
  rw [hb.select_edges_eq hR h₁ h₂,
    ← hb.select_eq _ (not_prefix_of_length_lt (by simp [ipv4RootPath, mappedAliasPath]))
      (not_prefix_of_length_lt (by simp [ipv4RootPath, sixToFourAliasPath])),
    Tree.select_append, hb.select_ipv4Root]

/-- Along `mappedAliasPath` and the set bit, the aliased tree reaches `R`. -/
theorem AliasBase.select_mapped_append (hb : AliasBase t v pos a s R) (q : List Bool) :
    ((v.setRecord a true (.node R)).setRecord s false (.node R)).select v.rootNode
        (mappedAliasPath ++ true :: q) = t.select t.rootNode (ipv4RootPath ++ q) := by
  have hs : (((v.setRecord a true (.node R)).setRecord s false (.node R)).nodes a).side true =
      .node R := by
    rw [Tree.setRecord_side, Tree.setRecord_side]; simp
  rw [Tree.select_append, hb.select_edges_eq hb.wellFormed.root_lt
      (by rw [hb.labelled.root]; exact not_prefix_of_length_lt (by decide))
      (by rw [hb.labelled.root]; decide), hb.select_mapped]
  exact (Tree.select_cons_of_node _ hs q).trans (hb.select_ipv4Root_append q)

/-- Along `sixToFourAliasPath` and the clear bit, the aliased tree reaches `R`. -/
theorem AliasBase.select_sixToFour_append (hb : AliasBase t v pos a s R) (q : List Bool) :
    ((v.setRecord a true (.node R)).setRecord s false (.node R)).select v.rootNode
        (sixToFourAliasPath ++ false :: q) = t.select t.rootNode (ipv4RootPath ++ q) := by
  have hs : (((v.setRecord a true (.node R)).setRecord s false (.node R)).nodes s).side false =
      .node R := by
    rw [Tree.setRecord_side]; simp
  rw [Tree.select_append, hb.select_edges_eq hb.wellFormed.root_lt
      (by rw [hb.labelled.root]; exact not_prefix_of_length_lt (by decide))
      (by rw [hb.labelled.root]; exact not_prefix_of_length_lt (by decide)), hb.select_sixToFour]
  exact (Tree.select_cons_of_node _ hs q).trans (hb.select_ipv4Root_append q)

/-- A path of at least 95 bits through neither alias edge reads what it read in `t`. -/
theorem AliasBase.select_other (hb : AliasBase t v pos a s R) {q : List Bool} (hq : 95 ≤ q.length)
    (h₁ : ¬ mappedAliasPath ++ [true] <+: q) (h₂ : ¬ sixToFourAliasPath ++ [false] <+: q) :
    ((v.setRecord a true (.node R)).setRecord s false (.node R)).select v.rootNode q =
      t.select t.rootNode q := by
  rw [hb.select_edges_eq hb.wellFormed.root_lt (by rwa [hb.labelled.root])
      (by rwa [hb.labelled.root]),
    hb.select_eq q (not_prefix_of_length_lt (by simp [mappedAliasPath]; omega))
      (not_prefix_of_length_lt (by simp [sixToFourAliasPath]; omega))]

end AliasEdges

/-! ## What aliasing does to the lookups of a tree built without aliases -/

section Aliasing

variable {t : Tree} {pos : Nat → List Bool} (hw : t.WellFormed) (hl : t.Labelled pos)
  (h4 : t.ipVersion ≠ 4) {R : Nat} (hR : t.select t.rootNode ipv4RootPath = .node R)
include hw hl h4 hR

/-- `::ffff:0:0/95` is wired to the IPv4 root node one bit too high: the address whose bits
    after `mappedAliasPath` are `true :: q` reads what `t` read along `ipv4RootPath ++ q`. -/
theorem aliasIpv4Networks_select_mapped (q : List Bool) :
    (aliasIpv4Networks t).select (aliasIpv4Networks t).rootNode (mappedAliasPath ++ true :: q) =
      t.select t.rootNode (ipv4RootPath ++ q) := by
  obtain ⟨v, pos', a, s, hb, he⟩ := aliasIpv4Networks_base hw hl h4 hR
  rw [he, Tree.setRecord_rootNode, Tree.setRecord_rootNode]
  exact hb.select_mapped_append q

/-- `2002::/16` is wired to the IPv4 root node: the address whose bits after
    `sixToFourAliasPath` are `false :: q` reads what `t` read along `ipv4RootPath ++ q`. -/
theorem aliasIpv4Networks_select_sixToFour (q : List Bool) :
    (aliasIpv4Networks t).select (aliasIpv4Networks t).rootNode
        (sixToFourAliasPath ++ false :: q) = t.select t.rootNode (ipv4RootPath ++ q) := by
  obtain ⟨v, pos', a, s, hb, he⟩ := aliasIpv4Networks_base hw hl h4 hR
  rw [he, Tree.setRecord_rootNode, Tree.setRecord_rootNode]
  exact hb.select_sixToFour_append q

/-- Every other path of at least 95 bits reads what it read before. -/
theorem aliasIpv4Networks_select_other {q : List Bool} (hq : 95 ≤ q.length)
    (h₁ : ¬ mappedAliasPath ++ [true] <+: q) (h₂ : ¬ sixToFourAliasPath ++ [false] <+: q) :
    (aliasIpv4Networks t).select (aliasIpv4Networks t).rootNode q = t.select t.rootNode q := by
  obtain ⟨v, pos', a, s, hb, he⟩ := aliasIpv4Networks_base hw hl h4 hR
  rw [he, Tree.setRecord_rootNode, Tree.setRecord_rootNode]
  exact hb.select_other hq h₁ h₂

end Aliasing

/-- After `::1.2.3.4/128 → k` in a new IPv6 tree and `alias_ipv4_networks`, `::1.2.3.4` still
    finds `k`'s data, but `::ffff:1.2.3.4` is `undef`: the alias edge enters the IPv4 root node
    at bit 95, so the mapped address reads the `::1:0:0/96` half below it. -/
theorem aliasIpv4Networks_mapped_lookup_differs :
    ∃ T, insertNetwork 1 (newTree 6 28 0) (.v6 (v4Compatible [1, 2, 3, 4]) rfl) 128 ⟨1, [65]⟩ ⟨2, [66]⟩ =
        some (0, T) ∧
      (lookupIpAddress (aliasIpv4Networks T) (.v6 (v4Compatible [1, 2, 3, 4]) rfl)).2 =
        .ok (some ⟨2, [66]⟩) ∧
      (lookupIpAddress (aliasIpv4Networks T) (.v6 (v4Mapped [1, 2, 3, 4]) rfl)).2 = .ok none := by
  obtain ⟨T, hT⟩ := insertNetwork_returns (show (insertNetwork 1 (newTree 6 28 0)
    (.v6 (v4Compatible [1, 2, 3, 4]) rfl) 128 ⟨1, [65]⟩ ⟨2, [66]⟩).map Prod.fst = some 0 by decide)
  refine ⟨T, hT, ?_⟩
  have hr₀ : Reachable aliasFree (newTree 6 28 0) := .newTree 6 28 0 (.inr rfl)
  have hr : Reachable aliasFree T := .step hr₀ (fun h => Op.noConfusion h) (.insertNetwork hT)
  obtain ⟨pos, hl⟩ := hr.labelled
  obtain ⟨pos₀, hl₀⟩ := hr₀.labelled
  obtain ⟨-, hip, hin⟩ := insertNetwork_select_inside hr₀.valid (by decide) (by decide) hT
  -- the two addresses' paths: `::1.2.3.4` inside `::/96`, `::ffff:1.2.3.4` through the alias
  have hA : (hostNetwork (newTree 6 28 0) (.v6 (v4Compatible [1, 2, 3, 4]) rfl)).bits 128 =
      ipv4RootPath ++ false ::
        ((hostNetwork (newTree 6 28 0) (.v6 (v4Compatible [1, 2, 3, 4]) rfl)).bits 128).drop 96 := by
    rfl
  have hM : (hostNetwork (newTree 6 28 0) (.v6 (v4Mapped [1, 2, 3, 4]) rfl)).bits 128 =
      mappedAliasPath ++ true ::
        ((hostNetwork (newTree 6 28 0) (.v6 (v4Mapped [1, 2, 3, 4]) rfl)).bits 128).drop 95 := by
    rfl
  have hA₀ : (resolveNetwork (newTree 6 28 0) (.v6 (v4Compatible [1, 2, 3, 4]) rfl) 128).bits
      (128 : UInt8).toNat = ipv4RootPath ++ false ::
        ((hostNetwork (newTree 6 28 0) (.v6 (v4Compatible [1, 2, 3, 4]) rfl)).bits 128).drop 96 := hA
  rw [hA₀] at hin
  have hout := insertNetwork_select_outside hr₀.valid hl₀ (by decide) (by decide) hT
    (ipv4RootPath ++ ((hostNetwork (newTree 6 28 0) (.v6 (v4Mapped [1, 2, 3, 4]) rfl)).bits 128).drop 95)
    (by simp [ipv4RootPath, Tree.maxDepth0])
    (by rw [hA₀, List.prefix_append_right_inj]; decide)
  rw [newTree_select _ _ _ (by simp [ipv4RootPath])] at hout
  replace hout := hout.eq_empty
  -- so the descent along `ipv4RootPath` reaches a node: the two paths through it differ
  obtain ⟨R, hR⟩ := T.select_node_of_ne hin hout (by simp)
  have hv := hr.valid
  have hva : (aliasIpv4Networks T).Valid := Op.Step.aliasIpv4Networks.valid hv
  have hipa : (aliasIpv4Networks T).ipVersion = (newTree 6 28 0).ipVersion :=
    hv.wellFormed.aliasIpv4Networks.2.2.trans hip
  have hmax : (aliasIpv4Networks T).maxDepth0 + 1 = 128 := by simp [Tree.maxDepth0, hipa]
  have h4 : T.ipVersion ≠ 4 := by rw [hip]; decide
  rw [(lookupIpAddress_eq _ _).2, (lookupIpAddress_eq _ _).2, hva.lookupRecord_eq,
    hva.lookupRecord_eq, hostNetwork_congr hipa, hostNetwork_congr hipa, hmax, hM,
    aliasIpv4Networks_select_mapped hv.wellFormed hl h4 hR, hout,
    aliasIpv4Networks_select_other hv.wellFormed hl h4 hR (by simp)
      (by rw [hA]; exact not_prefix_append_of_not_prefix _ (by decide) (by decide))
      (by rw [hA]; exact not_prefix_append_of_not_prefix _ (by decide) (by decide)), hA, hin]
  simp [dataForKey, aliasIpv4Networks_dataHash, insertNetwork_dataHash hT]

end MMDBW
