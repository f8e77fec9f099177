/-
  The node graph after `alias_ipv4_networks` is no longer a tree, but it is still acyclic: a rank
  that every `NODE` record increases (`Tree.Ranked`) exists for a labelled tree (the label's
  length), survives the two alias edges (they enter the IPv4 root node, at depth 95, from nodes
  at depths 94 and 15), and survives every materialising descent.  In an acyclic graph a halting
  descent never reads a record of the node it ends on, so writing that record does not change
  where the descent ends (`Tree.Ranked.not_reads`).

  That is what the descent of a later network through an alias edge relies on.  It materialises
  below the IPv4 root node as many levels as its own mask asks for, measured from the alias edge;
  the IPv4 root node's own path is 80 bits longer than `2002::/16`'s, so after
  `delete_network(2002::/50)` the path of `::0.0.0.0` runs through `NODE` records for all of its
  128 bits and `lookup_ip_address` croaks (`deleteNetwork_sixToFour_lookup_croaks`).

  A second `alias_ipv4_networks` finds the alias paths built and the edges in place: every
  materialising descent it makes follows `NODE` records, and every record it writes is already
  there (`aliasIpv4Networks_twice`).
-/
import MaxMindDBWriter.Aliases

namespace MMDBW

/-! ## Ranked node graphs -/

/-- `rank` grows along every `NODE` record of an allocated node. -/
def Tree.Ranked (t : Tree) (rank : Nat → Nat) : Prop :=
  ∀ h, h < t.nextNode → ∀ b c, (t.nodes h).side b = .node c → rank h < rank c

section Ranked

variable {t : Tree} {rank : Nat → Nat}

/-- A labelled tree is ranked by the length of the labels. -/
theorem Tree.Labelled.ranked {pos : Nat → List Bool} (hl : t.Labelled pos) :
    t.Ranked fun g => (pos g).length := fun h hh b c hc => by
  simp [hl.child h hh b c hc]

/-- A halting descent ends on a node of at least the rank it started from. -/
theorem Tree.Ranked.select_le (hr : t.Ranked rank) (hw : t.WellFormed) :
    ∀ (p : List Bool) (g h : Nat), g < t.nextNode → t.select g p = .node h → rank g ≤ rank h := by
  intro p
  induction p with
  | nil => intro g h _ hs; cases hs; exact Nat.le_refl _
  | cons c p ih =>
    intro g h hg hs
    cases hc : (t.nodes g).side c with
    | node x =>
      simp only [Tree.select, hc] at hs
      exact Nat.le_of_lt (Nat.lt_of_lt_of_le (hr g hg c x hc) (ih x h (hw.child_lt g hg c x hc) hs))
    | empty | data => simp [Tree.select, hc] at hs

/-- Every record a halting descent reads belongs to a node of smaller rank than the node the
    descent ends on. -/
theorem Tree.Ranked.reads_lt (hr : t.Ranked rank) (hw : t.WellFormed) {x : Nat} {b : Bool} :
    ∀ (p : List Bool) (g h : Nat), g < t.nextNode → t.Reads g p x b → t.select g p = .node h →
      rank x < rank h := by
  intro p
  induction p with
  | nil => intro _ _ _ hr'; exact hr'.elim
  | cons c p ih =>
    intro g h hg hr' hs
    cases hc : (t.nodes g).side c with
    | node y =>
      simp only [Tree.select, hc] at hs
      have hy := hw.child_lt g hg c y hc
      rcases hr' with ⟨e, -⟩ | ⟨y', hy', hr'⟩
      · rw [← e]
        exact Nat.lt_of_lt_of_le (hr g hg c y hc) (hr.select_le hw p y h hy hs)
      · rw [hc] at hy'
        cases hy'
        exact ih y h hy hr' hs
    | empty | data => simp [Tree.select, hc] at hs

/-- In a ranked graph a halting descent never reads a record of the node it ends on. -/
theorem Tree.Ranked.not_reads (hr : t.Ranked rank) (hw : t.WellFormed) {p : List Bool} {g h : Nat}
    (hg : g < t.nextNode) (hs : t.select g p = .node h) (b : Bool) : ¬ t.Reads g p h b :=
  fun hr' => Nat.lt_irrefl _ (hr.reads_lt hw p g h hg hr' hs)

/-- Writing a record the descent does not read leaves the descent as it was. -/
theorem Tree.select_setRecord_of_not_reads {h : Nat} {b : Bool} (r : Record) :
    ∀ (p : List Bool) (g : Nat), ¬ t.Reads g p h b → (t.setRecord h b r).select g p = t.select g p := by
  intro p
  induction p generalizing t with
  | nil => intro _ _; rfl
  | cons c p ih =>
    intro g hr'
    have hgc : ¬ (g = h ∧ b = c) := fun ⟨e₁, e₂⟩ => hr' (.inl ⟨e₁, e₂.symm⟩)
    simp only [Tree.select, Tree.setRecord_side, if_neg hgc]
    cases hc : (t.nodes g).side c with
    | node x => exact ih x (fun hx => hr' (.inr ⟨x, hc, hx⟩))
    | empty | data => rfl

/-- A write keeps a rank when the record it writes leads to a node of higher rank. -/
theorem Tree.Ranked.setRecord (hr : t.Ranked rank) (h : Nat) (b : Bool) {r : Record}
    (hr' : ∀ c, r = .node c → rank h < rank c) : (t.setRecord h b r).Ranked rank := by
  intro g hg c x hx
  rw [Tree.setRecord_side] at hx
  split at hx
  · rename_i e
    rw [e.1]
    exact hr' x hx
  · exact hr g hg c x hx

/-- The materialising descent keeps the graph ranked: a new node ranks one above its parent. -/
theorem Tree.Ranked.materialize (P : List Bool) :
    ∀ (t : Tree) (rank : Nat → Nat) (g : Nat), t.WellFormed → t.Ranked rank → g < t.nextNode →
      ∃ rank', (t.materialize g P).1.Ranked rank' := by
  induction P with
  | nil => intro t rank _ _ hr _; exact ⟨rank, hr⟩
  | cons b P ih =>
    intro t rank g hw hr hg
    by_cases hn : ∃ c, (t.nodes g).side b = .node c
    · obtain ⟨c, hc⟩ := hn
      rw [Tree.materialize_cons_node t P hc]
      exact ih t rank c hw hr (hw.child_lt g hg b c hc)
    · have hleaf : ∀ c, (t.nodes g).side b ≠ .node c := fun c e => hn ⟨c, e⟩
      rw [Tree.materialize_cons_leaf t P hleaf]
      have hm := makeNextNode_snd t ((t.nodes g).side b)
      -- the new node ranks one above `g`; every old record keeps its ends' ranks
      have hr₁ : (makeNextNode t ((t.nodes g).side b)).1.Ranked
          (Function.update rank t.nextNode (rank g + 1)) := by
        intro h hh c x hx
        rw [makeNextNode_nodes] at hx
        split at hx
        · exact absurd hx (Record.splitCopy_ne_node _ x)
        · have hx' := hw.child_lt h (by simp at hh; omega) c x hx
          rw [Function.update_noteq (by omega), Function.update_noteq (by omega)]
          exact hr h (by simp at hh; omega) c x hx
      refine ih _ _ _ ((hw.makeNextNode _).setRecord g b (fun c hc => by cases hc; simp [hm]))
        (hr₁.setRecord g b (fun c hc => ?_)) (by simp [hm])
      cases hc
      rw [hm, Function.update_same, Function.update_noteq (by omega)]
      exact Nat.lt_succ_self _

end Ranked

/-- A materialising descent along a path of `NODE` records continues from where they lead. -/
theorem Tree.materialize_append_of_select (t : Tree) {p : List Bool} {h g : Nat}
    (hs : t.select h p = .node g) (q : List Bool) : t.materialize h (p ++ q) = t.materialize g q := by
  induction p generalizing h with
  | nil => cases hs; rfl
  | cons b p ih =>
    cases hc : (t.nodes h).side b with
    | node c =>
      simp only [Tree.select, hc] at hs
      rw [List.cons_append, Tree.materialize_cons_node t _ hc]
      exact ih hs
    | empty | data => simp [Tree.select, hc] at hs

/-! ## Aliasing keeps the graph acyclic -/

/-- The two alias edges lead from depths 94 and 15 to the node at depth 95. -/
theorem AliasBase.ranked {t v : Tree} {pos : Nat → List Bool} {a s R : Nat}
    (hb : AliasBase t v pos a s R) :
    ((v.setRecord a true (.node R)).setRecord s false (.node R)).Ranked fun g => (pos g).length := by
  obtain ⟨ha, hs, hR⟩ := hb.pos_eq
  refine (hb.labelled.ranked.setRecord a true fun c hc => ?_).setRecord s false fun c hc => ?_ <;>
  · cases hc
    simp only [ha, hs, hR]
    decide

/-! ## Aliasing twice -/

/-- A materialising descent along a path of `NODE` records changes nothing. -/
theorem Tree.materialize_of_select (t : Tree) {p : List Bool} {h g : Nat}
    (hs : t.select h p = .node g) : t.materialize h p = (t, g) := by
  simpa using t.materialize_append_of_select hs []

theorem Tree.setRecord_of_side {t : Tree} {h : Nat} {b : Bool} {r : Record}
    (hr : (t.nodes h).side b = r) : t.setRecord h b r = t :=
  hr ▸ t.setRecord_self h b

/-- After `alias_ipv4_networks`, a second call finds both alias paths built and both alias edges
    in place, and writes each edge again. -/
theorem AliasBase.aliasIpv4Networks_idem {t v : Tree} {pos : Nat → List Bool} {a s R : Nat}
    (hb : AliasBase t v pos a s R) (h4 : t.ipVersion ≠ 4) :
    aliasIpv4Networks ((v.setRecord a true (.node R)).setRecord s false (.node R)) =
      (v.setRecord a true (.node R)).setRecord s false (.node R) := by
  obtain ⟨A, hA⟩ : ∃ A, A = (v.setRecord a true (.node R)).setRecord s false (.node R) := ⟨_, rfl⟩
  rw [← hA]
  have hsel {q : List Bool} {g : Nat} (h₁ : ¬ mappedAliasPath ++ [true] <+: q)
      (h₂ : ¬ sixToFourAliasPath ++ [false] <+: q) (hq : v.select v.rootNode q = .node g) :
      A.select A.rootNode q = .node g := by
    rw [show A.rootNode = v.rootNode by rw [hA]; rfl, hA, hb.select_edges_eq hb.wellFormed.root_lt
      (by rwa [hb.labelled.root]) (by rwa [hb.labelled.root]), hq]
  have ha : (A.nodes a).side true = .node R := by
    rw [hA, Tree.setRecord_side, Tree.setRecord_side]; simp
  have hs : (A.nodes s).side false = .node R := by rw [hA, Tree.setRecord_side]; simp
  have hA4 : A.ipVersion ≠ 4 := by
    rw [hA, Tree.setRecord_ipVersion, Tree.setRecord_ipVersion, hb.ipVersion_eq]; exact h4
  rw [aliasIpv4Networks_of_select hA4 (hsel (by decide) (by decide) hb.select_ipv4Root)]
  dsimp only
  rw [A.materialize_of_select (hsel (not_prefix_of_length_lt (by simp)) (by decide)
    hb.select_mapped)]
  dsimp only
  rw [Tree.setRecord_of_side ha, A.materialize_of_select (hsel (by decide)
    (not_prefix_of_length_lt (by simp)) hb.select_sixToFour)]
  exact Tree.setRecord_of_side hs

/-- On a tree built without it, `alias_ipv4_networks` is idempotent: a second call leaves the
    aliased tree exactly as the first left it, node pool included. -/
theorem aliasIpv4Networks_twice {t : Tree} (ht : Reachable aliasFree t) :
    aliasIpv4Networks (aliasIpv4Networks t) = aliasIpv4Networks t := by
  by_cases h4 : t.ipVersion = 4
  · have h : aliasIpv4Networks t = t := by simp [aliasIpv4Networks, h4]
    rw [h, h]
  by_cases hR : ∃ R, t.select t.rootNode ipv4RootPath = .node R
  · obtain ⟨R, hR⟩ := hR
    obtain ⟨pos, hl⟩ := ht.labelled
    obtain ⟨v, pos', a, s, hb, he⟩ := aliasIpv4Networks_base ht.valid.wellFormed hl h4 hR
    rw [he]
    exact hb.aliasIpv4Networks_idem h4
  · have h := aliasIpv4Networks_of_not_select (fun R h => hR ⟨R, h⟩)
    rw [h, h]

/-- After `::/96 → k` in a new IPv6 tree, where the IPv4 root node exists and the first call
    does build both edges, a second call changes nothing. -/
theorem aliasIpv4Networks_twice_ipv4Root :
    ∃ T, insertNetwork 1 (newTree 6 28 0) ipv4RootLiteral 96 ⟨1, [65]⟩ ⟨2, [66]⟩ = some (0, T) ∧
      Reachable aliasFree T ∧ aliasIpv4Networks (aliasIpv4Networks T) = aliasIpv4Networks T := by
  obtain ⟨T, hT⟩ := insertNetwork_returns (show (insertNetwork 1 (newTree 6 28 0)
    ipv4RootLiteral 96 ⟨1, [65]⟩ ⟨2, [66]⟩).map Prod.fst = some 0 by decide)
  have hr : Reachable aliasFree T :=
    .step (.newTree 6 28 0 (.inr rfl)) (fun h => Op.noConfusion h) (.insertNetwork hT)
  exact ⟨T, hT, hr, aliasIpv4Networks_twice hr⟩

/-! ## A lookup that croaks -/

/-- After `::/96 → k` in a new IPv6 tree, `alias_ipv4_networks` and `delete_network(2002::/50)`,
    `lookup_ip_address(::0.0.0.0)` finds a `NODE` record: the delete's descent entered the IPv4
    root node through the `2002::/16` edge and materialised 33 levels below it, one more than the
    IPv4 root network's own path has room for. -/
theorem deleteNetwork_sixToFour_lookup_croaks :
    ∃ T, insertNetwork 1 (newTree 6 28 0) ipv4RootLiteral 96 ⟨1, [65]⟩ ⟨2, [66]⟩ = some (0, T) ∧
      ∃ currentBit, (lookupIpAddress (deleteNetwork (aliasIpv4Networks T) (v6Prefix 0x20 0x02) 50)
        ipv4RootLiteral).2 = .error (.foundNodeRecord currentBit) := by
  obtain ⟨T, hT⟩ := insertNetwork_returns (show (insertNetwork 1 (newTree 6 28 0)
    ipv4RootLiteral 96 ⟨1, [65]⟩ ⟨2, [66]⟩).map Prod.fst = some 0 by decide)
  refine ⟨T, hT, ?_⟩
  have hr₀ : Reachable aliasFree (newTree 6 28 0) := .newTree 6 28 0 (.inr rfl)
  have hr : Reachable aliasFree T := .step hr₀ (fun h => Op.noConfusion h) (.insertNetwork hT)
  obtain ⟨pos, hl⟩ := hr.labelled
  obtain ⟨pos₀, hl₀⟩ := hr₀.labelled
  have hv := hr.valid
  -- `T`: `DATA k` below `::/96`, nothing below `::1:0:0/96`
  have h96 : (resolveNetwork (newTree 6 28 0) ipv4RootLiteral 96).bits (96 : UInt8).toNat =
      ipv4RootPath ++ [false] := by decide
  obtain ⟨-, hip, hin⟩ := insertNetwork_select_inside hr₀.valid (by decide) (by decide) hT
  rw [h96] at hin
  have hout := insertNetwork_select_outside hr₀.valid hl₀ (by decide) (by decide) hT
    (ipv4RootPath ++ true :: List.replicate 32 false) (by simp [ipv4RootPath, Tree.maxDepth0])
    (by rw [h96, List.prefix_append_right_inj]; decide)
  rw [newTree_select _ _ _ (by simp [ipv4RootPath])] at hout
  replace hout := hout.eq_empty
  obtain ⟨R, hR⟩ := T.select_node_of_ne hin hout (by simp)
  -- the aliased tree `w`: `2002::/16` and the set bit lead to `R`
  have h4 : T.ipVersion ≠ 4 := by rw [hip]; decide
  obtain ⟨v, pos', a, s, hb, he⟩ := aliasIpv4Networks_base hv.wellFormed hl h4 hR
  have hwv : (aliasIpv4Networks T).Valid := Op.Step.aliasIpv4Networks.valid hv
  have hwip : (aliasIpv4Networks T).ipVersion = (newTree 6 28 0).ipVersion :=
    hv.wellFormed.aliasIpv4Networks.2.2.trans hip
  have hwroot : (aliasIpv4Networks T).rootNode = v.rootNode := by rw [he]; rfl
  have hwR : (aliasIpv4Networks T).select (aliasIpv4Networks T).rootNode
      (sixToFourAliasPath ++ [false]) = .node R := by
    rw [hwroot, he, hb.select_sixToFour_append, List.append_nil, hR]
  have hw4 : (aliasIpv4Networks T).select (aliasIpv4Networks T).rootNode ipv4RootPath = .node R := by
    rw [hwroot, he, hb.select_other (by decide) (by decide) (by decide), hR]
  have hRlt : R < (aliasIpv4Networks T).nextNode :=
    hwv.wellFormed.select_lt _ _ _ hwv.wellFormed.root_lt hw4
  -- `2002::/50`: its path runs through the alias edge and 33 more bits below `R`
  have hN := resolveNetwork_congr hwip (v6Prefix 0x20 0x02) 50
  have hNd : (resolveNetwork (newTree 6 28 0) (v6Prefix 0x20 0x02) 50).depth = 49 := by decide
  have hNb : (resolveNetwork (newTree 6 28 0) (v6Prefix 0x20 0x02) 50).bits 49 =
      (sixToFourAliasPath ++ [false]) ++ List.replicate 33 false := by decide
  rcases deleteNetwork_cases (aliasIpv4Networks T) (v6Prefix 0x20 0x02) 50 with ⟨-, hnone⟩ | hdel
  · -- the delete finds `DATA k` there, so it does not stop early
    have := hnone (by rw [hwip, hN]; decide)
    rw [hN, hNd, show (resolveNetwork (newTree 6 28 0) (v6Prefix 0x20 0x02) 50).bits (49 + 1) =
      sixToFourAliasPath ++ false :: List.replicate 34 false by decide, hwroot, he,
      hb.select_sixToFour_append, show ipv4RootPath ++ List.replicate 34 false =
        (ipv4RootPath ++ [false]) ++ List.replicate 33 false by decide,
      T.select_append_of_ne_node hin (by simp)] at this
    cases this
  -- the delete materialises 33 levels below `R`: `::0.0.0.0`'s path now ends on a node
  rw [insertRecordForNetwork_empty, hN, hNd, hNb,
    Tree.materialize_append_of_select _ hwR] at hdel
  obtain ⟨wd, -, -, rootd, -, seld, keepd⟩ :=
    Tree.materialize_spec (List.replicate 33 false) _ R hwv.wellFormed hRlt
  obtain ⟨rank, hrd⟩ := Tree.Ranked.materialize (List.replicate 33 false) _ _ R hwv.wellFormed
    (by rw [he]; exact hb.ranked) hRlt
  have hv₃ : (deleteNetwork (aliasIpv4Networks T) (v6Prefix 0x20 0x02) 50).Valid :=
    Op.Step.deleteNetwork.valid hwv
  have hip₃ : (deleteNetwork (aliasIpv4Networks T) (v6Prefix 0x20 0x02) 50).ipVersion =
      (newTree 6 28 0).ipVersion := (deleteNetwork_wellFormed _ _ hwv.wellFormed).2.2.trans hwip
  have hmax : (deleteNetwork (aliasIpv4Networks T) (v6Prefix 0x20 0x02) 50).maxDepth0 + 1 = 128 := by
    simp [Tree.maxDepth0, hip₃]
  generalize (aliasIpv4Networks T).materialize R (List.replicate 33 false) = d at *
  have hd : d.1.select d.1.rootNode (ipv4RootPath ++ List.replicate 33 false) = .node d.2 := by
    rw [Tree.select_append, rootd,
      Tree.select_node_of_keep hwv.wellFormed keepd _ _ _ hwv.wellFormed.root_lt hw4]
    exact seld
  rw [(lookupIpAddress_eq _ _).2, hv₃.lookupRecord_eq, hostNetwork_congr hip₃, hmax,
    show (hostNetwork (newTree 6 28 0) ipv4RootLiteral).bits 128 =
      ipv4RootPath ++ List.replicate 33 false by decide, ← Option.some.inj hdel,
    Tree.setRecord_rootNode, Tree.select_setRecord_of_not_reads _ _ _
      (hrd.not_reads wd wd.root_lt hd _), hd]
  exact ⟨_, rfl⟩

end MMDBW
