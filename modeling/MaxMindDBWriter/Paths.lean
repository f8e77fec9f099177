/-
  Facts about the node graph that hold for every tree the operations can build, aliases
  included: the graph only refers to allocated nodes (`Tree.WellFormed`), and the two path
  lemmas every prefix law rests on.

  * `Tree.materialize_spec`: the materialising descent allocates, leaves every `NODE` record it
    finds in place, and ends with a path of `NODE` records from its start to the node it
    returns.
  * `Tree.select_setRecord_path` and `Tree.select_setRecord_of_select`: writing a record that is
    not `NODE` at the end of such a path makes the halting descent along it (one bit longer)
    end on that record, and a halting descent that already ended on a record keeps ending on it
    whatever else is written with the same record.

  Neither needs the graph to be a tree: a node reachable along two paths (after
  `alias_ipv4_networks`) changes nothing in these arguments, which is why the "inside the
  prefix" halves of the insert and delete laws hold for aliased trees too.
-/
import MaxMindDBWriter.Operations

namespace MMDBW

/-! ## Well-formed node graphs -/

/-- The root and every `NODE` record of an allocated node name allocated nodes. -/
structure Tree.WellFormed (t : Tree) : Prop where
  root_lt : t.rootNode < t.nextNode
  child_lt : ∀ h, h < t.nextNode → ∀ b c, (t.nodes h).side b = .node c → c < t.nextNode

theorem Tree.SameGraph.wellFormed {t t' : Tree} (h : t.SameGraph t') (hw : t'.WellFormed) :
    t.WellFormed :=
  ⟨h.rootNode_eq ▸ h.nextNode_eq ▸ hw.root_lt, fun g hg b c hc => by
    rw [h.nextNode_eq] at hg ⊢; rw [h.nodes_eq] at hc; exact hw.child_lt g hg b c hc⟩

theorem Record.splitCopy_ne_node (r : Record) (c : Nat) : r.splitCopy ≠ .node c := by
  cases r <;> simp [Record.splitCopy]

/-- The halting descent from an allocated node only meets allocated nodes. -/
theorem Tree.WellFormed.select_lt {t : Tree} (hw : t.WellFormed) :
    ∀ (p : List Bool) (h g : Nat), h < t.nextNode → t.select h p = .node g → g < t.nextNode := by
  intro p
  induction p with
  | nil => intro h g hh hs; cases hs; exact hh
  | cons b bs ih =>
    intro h g hh hs
    cases hc : (t.nodes h).side b with
    | node c => simp only [Tree.select, hc] at hs; exact ih c g (hw.child_lt h hh b c hc) hs
    | empty | data => simp [Tree.select, hc] at hs

theorem Tree.WellFormed.setRecord {t : Tree} (hw : t.WellFormed) (g : Nat) (b : Bool)
    {r : Record} (hr : ∀ c, r = .node c → c < t.nextNode) : (t.setRecord g b r).WellFormed := by
  refine ⟨hw.root_lt, fun h hh b' c hc => ?_⟩
  by_cases hg : h = g
  · subst hg
    simp only [Tree.setRecord_nodes_self, Node.side_setSide] at hc
    split at hc
    · exact hr c hc
    · exact hw.child_lt h hh b' c hc
  · rw [Tree.setRecord_nodes_of_ne _ _ _ hg] at hc
    exact hw.child_lt h hh b' c hc

theorem Tree.WellFormed.makeNextNode {t : Tree} (hw : t.WellFormed) (r : Record) :
    (makeNextNode t r).1.WellFormed := by
  refine ⟨by simp; exact Nat.lt_succ_of_lt hw.root_lt, fun h hh b c hc => ?_⟩
  rw [makeNextNode_nodes] at hc
  simp only [makeNextNode_nextNode] at hh ⊢
  split at hc
  · exact absurd hc (Record.splitCopy_ne_node r c)
  · exact Nat.lt_succ_of_lt (hw.child_lt h (by omega) b c hc)

/-! ## The materialising descent -/

/-- The materialising descent from an allocated node keeps the graph well formed, allocates
    only, never rewrites a `NODE` record of a node allocated before it, and ends with a path of
    `NODE` records from its start to the node it returns. -/
theorem Tree.materialize_spec (p : List Bool) :
    ∀ (t : Tree) (h : Nat), t.WellFormed → h < t.nextNode →
      let m := t.materialize h p
      m.1.WellFormed ∧ m.2 < m.1.nextNode ∧ t.nextNode ≤ m.1.nextNode ∧
        m.1.rootNode = t.rootNode ∧ m.1.ipVersion = t.ipVersion ∧ m.1.select h p = .node m.2 ∧
        ∀ g, g < t.nextNode → ∀ b c, (t.nodes g).side b = .node c → (m.1.nodes g).side b = .node c := by
  induction p with
  | nil => intro t h hw hh; exact ⟨hw, hh, Nat.le_refl _, rfl, rfl, rfl, fun _ _ _ _ hc => hc⟩
  | cons b bs ih =>
    intro t h hw hh
    cases hs : (t.nodes h).side b with
    | node c =>
      -- an existing `NODE` record: follow it
      rw [Tree.materialize_cons_node t bs hs]
      obtain ⟨w, lt, le, root, ip, sel, keep⟩ := ih t c hw (hw.child_lt h hh b c hs)
      exact ⟨w, lt, le, root, ip, by simp [Tree.select, keep h hh b c hs, sel], keep⟩
    | empty | data =>
      -- a leaf: a new node takes its place, then the descent goes on from there
      simp only [Tree.materialize, hs]
      generalize hm : makeNextNode t _ = m₀
      have hn : m₀.2 = t.nextNode := by rw [← hm, makeNextNode_snd]
      have hnext : m₀.1.nextNode = t.nextNode + 1 := by rw [← hm, makeNextNode_nextNode]
      have hside : ∀ g b', g ≠ t.nextNode → (m₀.1.nodes g).side b' = (t.nodes g).side b' := by
        intro g b' hg; rw [← hm, makeNextNode_nodes, if_neg hg]
      have hw₁ : (m₀.1.setRecord h b (.node m₀.2)).WellFormed :=
        (hm ▸ hw.makeNextNode _).setRecord h b (fun c hc => by cases hc; omega)
      obtain ⟨w, lt, le, root, ip, sel, keep⟩ :=
        ih (m₀.1.setRecord h b (.node m₀.2)) m₀.2 hw₁ (by simp; omega)
      have hroot : m₀.1.rootNode = t.rootNode := by rw [← hm, makeNextNode_rootNode]
      have hip : m₀.1.ipVersion = t.ipVersion := by rw [← hm, makeNextNode_ipVersion]
      refine ⟨w, lt, by simp at le; omega, by rw [root, Tree.setRecord_rootNode, hroot],
        by rw [ip, Tree.setRecord_ipVersion, hip], ?_, ?_⟩
      · have := keep h (by simp; omega) b m₀.2 (by simp)
        simp [Tree.select, this, sel]
      · intro g hg b' c hc
        apply keep g (by simp; omega)
        have hne : ¬ (g = h ∧ b' = b) := fun ⟨e₁, e₂⟩ => by subst e₁ e₂; rw [hs] at hc; cases hc
        by_cases e : g = h
        · subst e
          simp only [Tree.setRecord_nodes_self, Node.side_setSide]
          rw [if_neg (fun e' => hne ⟨rfl, e'.symm⟩), hside g b' (by omega), hc]
        · rw [Tree.setRecord_nodes_of_ne _ _ _ e, hside g b' (by omega), hc]

/-- A tree that keeps every `NODE` record of the allocated nodes of `t` keeps every halting
    descent of `t` that ends on a node. -/
theorem Tree.select_node_of_keep {t t' : Tree} (hw : t.WellFormed)
    (hkeep : ∀ g, g < t.nextNode → ∀ b c, (t.nodes g).side b = .node c → (t'.nodes g).side b = .node c) :
    ∀ (p : List Bool) (g h : Nat), g < t.nextNode → t.select g p = .node h → t'.select g p = .node h := by
  intro p
  induction p with
  | nil => intro _ _ _ hs; exact hs
  | cons c p ih =>
    intro g h hg hs
    cases hc : (t.nodes g).side c with
    | node x =>
      simp only [Tree.select, hc] at hs
      simp only [Tree.select, hkeep g hg c x hc]
      exact ih x h (hw.child_lt g hg c x hc) hs
    | empty | data => simp [Tree.select, hc] at hs

/-! ## Writing a record at the end of a path -/

/-- Writing a record that is not `NODE` into the record bit `b` selects at the end of a `NODE`
    path makes the halting descent along that path and `b` end on it: either at the end, or
    earlier if the path passes through the written record itself. -/
theorem Tree.select_setRecord_path (t : Tree) {r : Record} (hr : ∀ c, r ≠ .node c) (b : Bool) :
    ∀ (p : List Bool) (g h : Nat), t.select g p = .node h →
      (t.setRecord h b r).select g (p ++ [b]) = r := by
  intro p
  induction p with
  | nil =>
    intro g h hs; cases hs
    cases r <;> simp_all
  | cons c ps ih =>
    intro g h hs
    cases hx : (t.nodes g).side c with
    | empty | data => simp [Tree.select, hx] at hs
    | node x =>
      simp only [Tree.select, hx] at hs
      by_cases e : g = h ∧ c = b
      · obtain ⟨rfl, rfl⟩ := e
        simp only [List.cons_append, Tree.select, Tree.setRecord_nodes_self, Node.side_setSide,
          if_pos rfl]
        cases r <;> simp_all
      · have hx' : ((t.setRecord h b r).nodes g).side c = .node x := by
          by_cases e' : g = h
          · subst e'
            simp only [Tree.setRecord_nodes_self, Node.side_setSide]
            rw [if_neg (fun e'' => e ⟨rfl, e''.symm⟩), hx]
          · rw [Tree.setRecord_nodes_of_ne _ _ _ e', hx]
        simp only [List.cons_append, Tree.select, hx']
        exact ih x h hs

/-- A halting descent that ends on a record that is not `NODE` still ends on it after the same
    record is written anywhere. -/
theorem Tree.select_setRecord_of_select (t : Tree) {r : Record} (hr : ∀ c, r ≠ .node c)
    (g : Nat) (b : Bool) : ∀ (p : List Bool) (h : Nat), t.select h p = r →
      (t.setRecord g b r).select h p = r := by
  intro p
  induction p with
  | nil => intro h hs; exact absurd hs.symm (hr h)
  | cons c ps ih =>
    intro h hs
    by_cases e : h = g ∧ c = b
    · -- the descent reaches the written record: it stops there
      obtain ⟨rfl, rfl⟩ := e
      simp only [Tree.select, Tree.setRecord_nodes_self, Node.side_setSide, if_pos rfl]
      cases r <;> simp_all
    · have hside : ((t.setRecord g b r).nodes h).side c = (t.nodes h).side c := by
        by_cases e' : h = g
        · subst e'; simp only [Tree.setRecord_nodes_self, Node.side_setSide]
          rw [if_neg (fun e'' => e ⟨rfl, e''.symm⟩)]
        · rw [Tree.setRecord_nodes_of_ne _ _ _ e']
      cases hx : (t.nodes h).side c with
      | node x => simp only [Tree.select, hside, hx] at hs ⊢; exact ih x hs
      | empty | data => simp only [Tree.select, hside, hx] at hs ⊢; exact hs

/-! ## `insert_record_for_network` puts its record at the end of its path -/

/-- A returning `insert_record_for_network` of a record that is not `NODE` keeps the graph well
    formed, and afterwards the halting descent along the first `depth + 1` bits of the network
    (the bits its own descent reads) ends on the inserted record, whether it merged or not.
    Nothing here needs the graph to be a tree. -/
theorem insertRecordForNetwork_spec {r : Record} (hr : ∀ c, r ≠ .node c) (fuel : Nat) :
    ∀ (t : Tree) (network : Network) (t' : Tree), t.WellFormed →
      insertRecordForNetwork fuel t network r = some t' →
      t'.WellFormed ∧ t'.rootNode = t.rootNode ∧ t'.ipVersion = t.ipVersion ∧
        t.nextNode ≤ t'.nextNode ∧ t'.select t'.rootNode (network.bits (network.depth + 1)) = r := by
  induction fuel with
  | zero => intro t network t' _ h; simp [insertRecordForNetwork] at h
  | succ fuel ih =>
    intro t network t' hw h
    obtain ⟨t₁, hcase, rfl⟩ := insertRecordForNetwork_some h
    obtain ⟨w, lt, le, root, ip, sel, -⟩ :=
      Tree.materialize_spec (network.bits network.depth) t t.rootNode hw hw.root_lt
    -- before the final write the path either still leads to the node found, or (after a merge
    -- one level up) already ends on the record
    have h₁ : t₁.WellFormed ∧ t₁.rootNode = t.rootNode ∧ t₁.ipVersion = t.ipVersion ∧
        t.nextNode ≤ t₁.nextNode ∧
        (t₁.select t.rootNode (network.bits network.depth) =
            .node (t.materialize t.rootNode (network.bits network.depth)).2 ∨
          t₁.select t.rootNode (network.bits network.depth) = r) := by
      rcases hcase with ⟨-, hrec⟩ | ⟨-, rfl⟩
      · obtain ⟨w₁, root₁, ip₁, le₁, sel₁⟩ := ih _ _ _ w hrec
        refine ⟨w₁, root₁.trans root, ip₁.trans ip, Nat.le_trans le le₁, ?_⟩
        rcases Nat.eq_zero_or_pos network.depth with hd | hd
        · -- a merge at the root: the record is written at the root itself
          left; simp [hd, Network.bits, Tree.materialize, root₁, root]
        · right; rw [← root, ← root₁, ← sel₁, Network.depth_parent _ hd, Nat.sub_add_cancel hd]; rfl
      · exact ⟨w, root, ip, le, .inl sel⟩
    obtain ⟨w₁, root₁, ip₁, le₁, hsel⟩ := h₁
    refine ⟨w₁.setRecord _ _ (fun c hc => absurd hc (hr c)), root₁, ip₁, le₁, ?_⟩
    rw [Tree.setRecord_rootNode, root₁, Network.bits_succ]
    rcases hsel with hsel | hsel
    · exact Tree.select_setRecord_path t₁ hr _ _ _ _ hsel
    · exact Tree.select_append_of_ne_node _ (Tree.select_setRecord_of_select t₁ hr _ _ _ _ hsel) hr _

/-! ## `alias_ipv4_networks` keeps the graph well formed -/

/-- `alias_ipv4_networks` keeps the graph well formed: the node its alias records point at is
    the one the halting descent for `::/96` reached, an allocated node. -/
theorem Tree.WellFormed.aliasIpv4Networks {t : Tree} (hw : t.WellFormed) :
    (aliasIpv4Networks t).WellFormed ∧ (aliasIpv4Networks t).rootNode = t.rootNode ∧
      (aliasIpv4Networks t).ipVersion = t.ipVersion := by
  by_cases h4 : t.ipVersion = 4
  · simp [MMDBW.aliasIpv4Networks, h4, hw]
  rw [aliasIpv4Networks_eq t h4]
  obtain ⟨j, -, hsel, -, -⟩ := findNodeForNetwork_returnNull_node t (resolveNetwork t ipv4RootLiteral 96)
  have hR := hw.select_lt _ _ _ hw.root_lt hsel
  dsimp only
  split
  · exact ⟨hw, rfl, rfl⟩
  · refine (List.foldlRecOn (motive := fun t' => t'.WellFormed ∧ _ < t'.nextNode ∧
      t'.rootNode = t.rootNode ∧ t'.ipVersion = t.ipVersion) ipv4Aliases _ t ⟨hw, hR, rfl, rfl⟩
      fun t' ⟨w', lt', root', ip'⟩ e _ => ?_).elim fun w h => ⟨w, h.2⟩
    obtain ⟨w, -, le, root, ip, -, -⟩ := Tree.materialize_spec
      ((resolveNetwork t' e.1 e.2).bits (resolveNetwork t' e.1 e.2).depth) t' t'.rootNode w' w'.root_lt
    exact ⟨w.setRecord _ _ (fun c hc => by cases hc; omega), by simp; omega,
      by rw [Tree.setRecord_rootNode, root, root'], by rw [Tree.setRecord_ipVersion, ip, ip']⟩

end MMDBW
