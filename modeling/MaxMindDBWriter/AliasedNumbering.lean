/-
  What `finalize_tree` does to the graph `alias_ipv4_networks` makes.

  `iterate_tree`'s seen test (`hashFindPtr`) skips a node whose left record leads to a node met
  before.  In a tree built without aliases there is none (`Tree.Labelled.walkOrder_eq`); after
  `alias_ipv4_networks` there is one.  The node `s` that `2002::/15` leads to has the alias edge
  to the IPv4 root node `R` as its left record, and the walk meets `R` first, on its way down
  `::/95`.

  1. **The walk on a shared graph** — the seen list only grows, so a node whose left record leads
     to a seen node is never met (`Tree.not_mem_walkOrder_of_left`); down a path of left records
     whose targets it has not seen, the walk reaches the path's end
     (`Tree.mem_walkOrder_of_leftSpine`).
  2. **The aliased graph** — along paths of clear bits it is the labelled tree it was made from
     (`AliasBase.select_replicate`), and every path to `s` is `sixToFourAliasPath`
     (`AliasBase.path_eq_sixToFour`).
  3. **The skip** — the walk from the root goes down `0` and `00`, and walks the graph below
     `000`, which holds `R`, before the one below `001`, which holds `s`: `s` is never met
     (`AliasBase.not_mem_walkOrder`), and `finalize_tree` leaves its number as it was
     (`finalizeTree_skips_sixToFour`).  No call before `finalize_tree` numbers a node
     (`Reachable.unnumbered`), so after `::/96 → k` and `alias_ipv4_networks` in a new IPv6 tree
     `s` keeps the number 0, which the walk gives the root
     (`finalizeTree_skips_sixToFour_ipv4Root`).
-/
import MaxMindDBWriter.Aliases
import MaxMindDBWriter.Canonical

namespace MMDBW

/-! ## The walk on a shared graph -/

theorem hashFindPtr_eq_false {seen : List Nat} {node : Node}
    (h : ∀ c, node.leftRecord = .node c → c ∉ seen) : hashFindPtr seen node = false := by
  unfold hashFindPtr
  split
  · rename_i c hc
    exact decide_eq_false (h c hc)
  · rfl

/-- One level of the walk: a node it meets is the node it starts at, one met along the left
    record, or one met along the right record once the left walk is seen. -/
theorem Tree.mem_walkOrder_succ {t : Tree} {fuel n x : Nat} {seen : List Nat}
    (hx : x ∈ t.walkOrder (fuel + 1) (.node n) seen) :
    x = n ∨ x ∈ t.walkOrder fuel ((t.nodes n).side false) (n :: seen) ∨
      x ∈ t.walkOrder fuel ((t.nodes n).side true)
        ((t.walkOrder fuel ((t.nodes n).side false) (n :: seen)).reverse ++ n :: seen) := by
  rw [Tree.walkOrder] at hx
  split at hx
  · simp at hx
  · exact (List.mem_cons.mp hx).imp_right List.mem_append.mp

/-- What the walk meets along record `b` of `n` is reached from `n` through that record. -/
theorem Tree.walkOrder_side_reach {t : Tree} {fuel n x : Nat} {b : Bool} {seen : List Nat}
    (hx : x ∈ t.walkOrder fuel ((t.nodes n).side b) seen) : ∃ p, t.select n (b :: p) = .node x := by
  obtain ⟨c, p, hc, hp⟩ := t.walkOrder_reach fuel _ seen x hx
  exact ⟨p, by rw [Tree.select_cons_of_node t hc, hp]⟩

/-- The seen list only grows, so the walk never meets a node whose left record leads to a node
    in it: `HASH_FIND_PTR` finds the left record's value there. -/
theorem Tree.not_mem_walkOrder_of_left {t : Tree} {q c : Nat}
    (hq : (t.nodes q).leftRecord = .node c) (fuel : Nat) :
    ∀ (r : Record) (seen : List Nat), c ∈ seen → q ∉ t.walkOrder fuel r seen := by
  induction fuel with
  | zero => intro r seen _; simp [Tree.walkOrder]
  | succ fuel ih =>
    intro r seen hc hmem
    cases r with
    | empty | data => simp [Tree.walkOrder] at hmem
    | node n =>
      rcases Tree.mem_walkOrder_succ hmem with rfl | hl | hr
      · rw [Tree.walkOrder, if_pos (by simp [hashFindPtr, hq, hc])] at hmem
        simp at hmem
      · exact ih _ _ (List.mem_cons_of_mem _ hc) hl
      · exact ih _ _ (List.mem_append_right _ (List.mem_cons_of_mem _ hc)) hr

/-- Down `k` left records from `n` the walk reaches the end of the path, when the left record of
    each node on the way, and of the end, leads to no seen node and to no node on the path above:
    the seen test finds none of them. -/
theorem Tree.mem_walkOrder_of_leftSpine (t : Tree) (k : Nat) :
    ∀ (fuel n x : Nat) (seen : List Nat), k < fuel →
      t.select n (List.replicate k false) = .node x →
      (∀ i ≤ k, ∀ y c, t.select n (List.replicate i false) = .node y →
        (t.nodes y).leftRecord = .node c →
          c ∉ seen ∧ ∀ j ≤ i, t.select n (List.replicate j false) ≠ .node c) →
      x ∈ t.walkOrder fuel (.node n) seen := by
  -- the seen test does not skip a node whose left record leads to no seen node
  have first : ∀ fuel n (seen : List Nat), (∀ c, (t.nodes n).leftRecord = .node c → c ∉ seen) →
      ∃ rest, t.walkOrder (fuel + 1) (.node n) seen =
        n :: (t.walkOrder fuel (t.nodes n).leftRecord (n :: seen) ++ rest) :=
    fun fuel n seen h => ⟨_, by rw [Tree.walkOrder, if_neg (by simp [hashFindPtr_eq_false h])]⟩
  induction k with
  | zero =>
    intro fuel n x seen hk hx hfresh
    obtain ⟨fuel, rfl⟩ : ∃ f, fuel = f + 1 := ⟨fuel - 1, by omega⟩
    cases (Record.node.inj hx : n = x)
    obtain ⟨_, e⟩ := first fuel n seen fun c hc => (hfresh 0 le_rfl n c rfl hc).1
    exact e ▸ List.mem_cons_self _ _
  | succ k ih =>
    intro fuel n x seen hk hx hfresh
    obtain ⟨fuel, rfl⟩ : ∃ f, fuel = f + 1 := ⟨fuel - 1, by omega⟩
    -- the first step goes to the left child `m`
    obtain ⟨m, hm⟩ : ∃ m, (t.nodes n).leftRecord = .node m := by
      cases h : (t.nodes n).leftRecord with
      | node m => exact ⟨m, rfl⟩
      | empty | data => simp [List.replicate_succ, Tree.select, Node.side, h] at hx
    have hshift : ∀ i, t.select n (List.replicate (i + 1) false) =
        t.select m (List.replicate i false) := fun i =>
      Tree.select_cons_of_node (b := false) t hm _
    have hrest := ih fuel m x (n :: seen) (by omega) (by rwa [← hshift]) fun i hi y c hy hc => by
      obtain ⟨hcs, hcp⟩ := hfresh (i + 1) (by omega) y c (by rwa [hshift]) hc
      refine ⟨?_, fun j hj => by rw [← hshift]; exact hcp (j + 1) (by omega)⟩
      intro hmem
      rcases List.mem_cons.mp hmem with rfl | hcs'
      · exact hcp 0 (Nat.zero_le _) rfl
      · exact hcs hcs'
    obtain ⟨_, e⟩ := first fuel n seen fun c hc => (hfresh 0 (Nat.zero_le _) n c rfl hc).1
    rw [e, hm]
    exact List.mem_cons_of_mem _ (List.mem_append_left _ hrest)

/-! ## The aliased graph -/

section Aliased

variable {t v : Tree} {pos : Nat → List Bool} {a s R : Nat}

/-- Along a path of clear bits the aliased tree reads what `v` reads: neither alias edge lies on
    it. -/
theorem AliasBase.select_replicate (hb : AliasBase t v pos a s R) (m : Nat) :
    ((v.setRecord a true (.node R)).setRecord s false (.node R)).select v.rootNode
        (List.replicate m false) = v.select v.rootNode (List.replicate m false) := by
  have hnot : ∀ l : List Bool, true ∈ l → ¬ l <+: [] ++ List.replicate m false := fun l hl hp =>
    absurd (List.eq_of_mem_replicate (hp.subset hl)) (by decide)
  refine hb.select_edges_eq hb.wellFormed.root_lt ?_ ?_ <;> rw [hb.labelled.root]
  · exact hnot _ (List.mem_append_right _ (List.mem_singleton_self _))
  · exact hnot _ (by decide)

/-- Every path from the root to the node `2002::/15` leads to is `sixToFourAliasPath`: below the
    alias edges lies the IPv4 root node's subtree, which does not hold it. -/
theorem AliasBase.path_eq_sixToFour (hb : AliasBase t v pos a s R) {p : List Bool}
    (hp : ((v.setRecord a true (.node R)).setRecord s false (.node R)).select v.rootNode p = .node s) :
    p = sixToFourAliasPath := by
  obtain ⟨-, hs, -⟩ := hb.pos_eq
  -- below `ipv4RootPath` the paths are at least 95 bits long, `s`'s is 15
  have below : ∀ q, t.select t.rootNode (ipv4RootPath ++ q) ≠ .node s := fun q h => by
    rw [← hb.select_eq (ipv4RootPath ++ q)
      (not_prefix_of_length_lt (by simp [ipv4RootPath, mappedAliasPath]))
      (not_prefix_of_length_lt (by simp [ipv4RootPath, sixToFourAliasPath]))] at h
    have hlen := congrArg List.length ((hb.labelled.pos_of_select_root hb.wellFormed h).symm.trans hs)
    simp only [List.length_append, ipv4RootPath, List.length_replicate] at hlen
    exact absurd hlen (by rw [show sixToFourAliasPath.length = 15 from rfl]; omega)
  by_cases h₁ : mappedAliasPath ++ [true] <+: p
  · obtain ⟨q, rfl⟩ := h₁
    rw [List.append_assoc, List.singleton_append, hb.select_mapped_append] at hp
    exact absurd hp (below q)
  by_cases h₂ : sixToFourAliasPath ++ [false] <+: p
  · obtain ⟨q, rfl⟩ := h₂
    rw [List.append_assoc, List.singleton_append, hb.select_sixToFour_append] at hp
    exact absurd hp (below q)
  rw [hb.select_edges_eq hb.wellFormed.root_lt (by rwa [hb.labelled.root])
    (by rwa [hb.labelled.root])] at hp
  exact (hb.labelled.pos_of_select_root hb.wellFormed hp).symm.trans hs

/-- The walk from the root of the aliased tree never meets the node `2002::/15` leads to.  It
    goes down `0` and `00`; below `000` it meets `R` at the end of `::/95`, whose nodes' left
    records lead down the same path, to nodes it has not seen; only then does it turn to the
    right record of `00`, below which lies the node, whose left record leads to `R`. -/
theorem AliasBase.not_mem_walkOrder (hb : AliasBase t v pos a s R) :
    let A := (v.setRecord a true (.node R)).setRecord s false (.node R)
    s ∉ A.walkOrder (A.nextNode + 1) (.node A.rootNode) [] := by
  intro A
  have hw := hb.wellFormed
  -- along clear bits the aliased tree is labelled as `v`, so the nodes there are distinct
  have hzero : ∀ m m' z, A.select v.rootNode (List.replicate m false) = .node z →
      A.select v.rootNode (List.replicate m' false) = .node z → m = m' := fun m m' z h h' => by
    have e := (hb.labelled.pos_of_select_root hw (by rw [← hb.select_replicate m]; exact h)).symm.trans
      (hb.labelled.pos_of_select_root hw (by rw [← hb.select_replicate m']; exact h'))
    simpa using congrArg List.length e
  -- off the path to `s`, the walk along record `b` of the node at `0^k` never meets it
  have off : ∀ k z b fuel seen, A.select v.rootNode (List.replicate k false) = .node z →
      ¬ List.replicate k false ++ [b] <+: sixToFourAliasPath →
      s ∉ A.walkOrder fuel ((A.nodes z).side b) seen := fun k z b fuel seen hz hb' hs => by
    obtain ⟨p, hp⟩ := Tree.walkOrder_side_reach hs
    refine hb' ⟨p, (hb.path_eq_sixToFour (p := List.replicate k false ++ b :: p) ?_).symm ▸ by simp⟩
    rw [Tree.select_append, hz]; exact hp
  have hR95 : A.select v.rootNode (List.replicate 95 false) = .node R := by
    rw [hb.select_replicate]; exact hb.select_ipv4Root
  have h95 : 95 < A.nextNode := by
    simpa [ipv4RootPath, A] using hb.labelled.length_lt_nextNode hw hb.select_ipv4Root
  have hpre : ∀ k ≤ 95, ∃ z, A.select v.rootNode (List.replicate k false) = .node z := fun k hk =>
    Tree.select_prefix_node hR95 ⟨List.replicate (95 - k) false, by
      rw [← List.replicate_add, Nat.add_sub_cancel' hk]⟩
  obtain ⟨N1, h1⟩ := hpre 1 (by omega)
  obtain ⟨N2, h2⟩ := hpre 2 (by omega)
  obtain ⟨N3, h3⟩ := hpre 3 (by omega)
  have e01 : (A.nodes v.rootNode).side false = .node N1 := (Tree.select_singleton _ _ _).symm.trans h1
  have e12 : (A.nodes N1).side false = .node N2 := (Tree.select_append_singleton h1 false).symm.trans h2
  have e23 : (A.nodes N2).side false = .node N3 := (Tree.select_append_singleton h2 false).symm.trans h3
  -- below `N3` the walk runs down `::/95` to `R`, whose nodes' left records it has not seen
  have hstep : ∀ i z, A.select N3 (List.replicate i false) = .node z →
      A.select v.rootNode (List.replicate (3 + i) false) = .node z := fun i z h => by
    rw [List.replicate_add, Tree.select_append, h3]
    exact h
  have hL : R ∈ A.walkOrder (A.nextNode - 2) (.node N3) [N2, N1, v.rootNode] := by
    refine A.mem_walkOrder_of_leftSpine 92 _ N3 R _ (by omega)
      (by rw [List.replicate_add 3 92 false, Tree.select_append, h3] at hR95; exact hR95)
      fun i hi y c hy hc => ?_
    have hc' : A.select v.rootNode (List.replicate (3 + i + 1) false) = .node c := by
      rw [List.replicate_succ', Tree.select_append_singleton (hstep i y hy)]; exact hc
    refine ⟨?_, fun j _ hj => absurd (hzero _ _ c hc' (hstep j c hj)) (by omega)⟩
    simp only [List.mem_cons, List.not_mem_nil, or_false]
    rintro (rfl | rfl | rfl)
    · exact absurd (hzero _ _ _ hc' h2) (by omega)
    · exact absurd (hzero _ _ _ hc' h1) (by omega)
    · exact absurd (hzero (3 + i + 1) 0 _ hc' rfl) (by omega)
  -- the node's left record leads to `R`
  have hsR : (A.nodes s).leftRecord = .node R := by
    show (A.nodes s).side false = _
    rw [Tree.setRecord_side]; simp
  obtain ⟨f, hf⟩ : ∃ f, A.nextNode + 1 = f + 3 := ⟨A.nextNode - 2, by omega⟩
  intro hs
  rw [show A.rootNode = v.rootNode from rfl, hf] at hs
  rcases Tree.mem_walkOrder_succ hs with rfl | hs | hs
  · exact absurd (hb.path_eq_sixToFour (p := []) rfl) (by decide)
  · rw [e01] at hs
    rcases Tree.mem_walkOrder_succ hs with rfl | hs | hs
    · exact absurd (hb.path_eq_sixToFour h1) (by decide)
    · rw [e12] at hs
      rcases Tree.mem_walkOrder_succ hs with rfl | hs | hs
      · exact absurd (hb.path_eq_sixToFour h2) (by decide)
      · exact off 2 N2 false _ _ h2 (by decide) hs
      · rw [e23, show f = A.nextNode - 2 by omega] at hs
        exact Tree.not_mem_walkOrder_of_left hsR _ _ _
          (List.mem_append_left _ (List.mem_reverse.mpr hL)) hs
    · exact off 1 N1 true _ _ h1 (by decide) hs
  · exact off 0 v.rootNode true _ _ rfl (by decide) hs

end Aliased

/-! ## `finalize_tree` -/

/-- A node the walk never meets keeps its number through `finalize_tree`. -/
theorem finalizeTree_number_of_not_mem {t : Tree} {x : Nat}
    (hx : x ∉ t.walkOrder (t.nextNode + 1) (.node t.rootNode) []) :
    ((finalizeTree t).nodes x).number = (t.nodes x).number := by
  cases hf : t.isFinalized
  · rw [finalizeTree_walk hf]
    exact congrArg Node.number (foldl_assignNodeNumber_of_not_mem _ hx _)
  · simp [finalizeTree, hf]

/-- `finalize_tree` of the graph `alias_ipv4_networks` makes of an IPv6 tree built without
    aliases, in which the descent for `::/96` reaches a node `R`: the node `2002::/15` leads to,
    whose left record is the alias edge to `R`, is reached from the root, but the walk never
    meets it, and it keeps the number it had. -/
theorem finalizeTree_skips_sixToFour {t : Tree} (ht : Reachable aliasFree t) (h6 : t.ipVersion = 6)
    {R : Nat} (hR : t.select t.rootNode ipv4RootPath = .node R) :
    let A := aliasIpv4Networks t
    ∃ s, A.select A.rootNode sixToFourAliasPath = .node s ∧ (A.nodes s).leftRecord = .node R ∧
      s ∉ A.walkOrder (A.nextNode + 1) (.node A.rootNode) [] ∧
      ((finalizeTree A).nodes s).number = (A.nodes s).number := by
  obtain ⟨pos, hl⟩ := ht.labelled
  obtain ⟨v, pos', a, s, hb, hA⟩ := aliasIpv4Networks_base ht.valid.wellFormed hl (by omega) hR
  have hskip := hb.not_mem_walkOrder
  dsimp only at hskip ⊢
  rw [hA]
  refine ⟨s, ?_, ?_, hskip, finalizeTree_number_of_not_mem hskip⟩
  · rw [Tree.setRecord_rootNode, Tree.setRecord_rootNode, hb.select_edges_eq hb.wellFormed.root_lt
      (by rw [hb.labelled.root]; exact not_prefix_of_length_lt (by decide))
      (by rw [hb.labelled.root]; exact not_prefix_of_length_lt (by decide))]
    exact hb.select_sixToFour
  · show (Tree.nodes _ s).side false = _
    rw [Tree.setRecord_side]; simp

/-! ## Before `finalize_tree` no node is numbered -/

/-- A tree `finalize_tree` has not numbered: the flag is clear, and every node has the number
    `new_node` gave it. -/
structure Tree.Unnumbered (t : Tree) : Prop where
  not_finalized : t.isFinalized = false
  number_eq_zero : ∀ x, (t.nodes x).number = 0

theorem Tree.Unnumbered.setRecord {t : Tree} (hu : t.Unnumbered) (h : Nat) (b : Bool) (r : Record) :
    (t.setRecord h b r).Unnumbered := by
  refine ⟨hu.1, fun x => ?_⟩
  by_cases hx : x = h <;> simp [hx, hu.2]

theorem Tree.Unnumbered.newNode {t : Tree} (hu : t.Unnumbered) : (MMDBW.newNode t).1.Unnumbered := by
  unfold MMDBW.newNode
  split <;>
  · refine ⟨hu.1, fun x => ?_⟩
    simp only [Function.update_apply]
    split
    · rfl
    · exact hu.2 x

theorem Tree.Unnumbered.makeNextNode {t : Tree} (hu : t.Unnumbered) (r : Record) :
    (MMDBW.makeNextNode t r).1.Unnumbered := by
  unfold MMDBW.makeNextNode
  split
  · exact (hu.newNode.setRecord _ _ _).setRecord _ _ _
  · exact hu.newNode

theorem Tree.Unnumbered.materialize (p : List Bool) :
    ∀ {t : Tree} (node : Nat), t.Unnumbered → (t.materialize node p).1.Unnumbered := by
  induction p with
  | nil => intro t node hu; exact hu
  | cons b bs ih =>
    intro t node hu
    unfold Tree.materialize
    split
    · exact ih _ (hu.setRecord _ _ _)
    · exact ih _ ((hu.makeNextNode _).setRecord _ _ _)

theorem Tree.Unnumbered.insertRecordForNetwork {r : Record} (fuel : Nat) :
    ∀ {t t' : Tree} {network : Network}, t.Unnumbered →
      MMDBW.insertRecordForNetwork fuel t network r = some t' → t'.Unnumbered := by
  induction fuel with
  | zero => intro t t' network _ h; simp [MMDBW.insertRecordForNetwork] at h
  | succ fuel ih =>
    intro t t' network hu h
    obtain ⟨t₁, h₁, rfl⟩ := insertRecordForNetwork_some h
    have hd := hu.materialize (network.bits network.depth) t.rootNode
    rcases h₁ with ⟨-, h₁⟩ | ⟨-, rfl⟩
    · exact (ih hd h₁).setRecord _ _ _
    · exact hd.setRecord _ _ _

/-- No call but `finalize_tree` numbers a node or sets the flag. -/
theorem Op.Step.unnumbered {op : Op} {t t' : Tree} (hs : op.Step t t') (hu : t.Unnumbered) :
    t'.Unnumbered := by
  -- `delete_network` leaves the tree, or inserts `EMPTY` at one level
  have delete : ∀ (t : Tree) lit m, t.Unnumbered → (MMDBW.deleteNetwork t lit m).Unnumbered :=
    fun t lit m hu => by
      rcases deleteNetwork_cases t lit m with ⟨he, -⟩ | h
      · rw [he]; exact hu
      · exact hu.insertRecordForNetwork 1 h
  cases hs with
  | @insertNetwork _ _ _ _ _ key data _ hins =>
    unfold MMDBW.insertNetwork at hins
    dsimp only at hins
    split at hins
    · cases hins; exact hu
    · obtain ⟨t₁, h₁, h₂⟩ := Option.map_eq_some'.mp hins
      cases h₂
      have hs : (hvStoreEnt { t with refs := incRef (incRef t.refs key) data } key data).Unnumbered :=
        ⟨hu.1, hu.2⟩
      obtain ⟨-, hnum⟩ := hs.insertRecordForNetwork _ h₁
      exact ⟨rfl, hnum⟩
  | deleteNetwork => exact delete _ _ _ hu
  | deleteReservedNetworks => exact deleteReservedNetworks_induction _ delete hu
  | aliasIpv4Networks =>
    by_cases h4 : t.ipVersion = 4
    · simpa [MMDBW.aliasIpv4Networks, h4] using hu
    by_cases hR : ∃ R, t.select t.rootNode ipv4RootPath = .node R
    · obtain ⟨R, hR⟩ := hR
      rw [aliasIpv4Networks_of_select h4 hR]
      exact ((((hu.materialize _ _).setRecord _ _ _).materialize _ _).setRecord _ _ _)
    · rwa [aliasIpv4Networks_of_not_select fun R h => hR ⟨R, h⟩]

theorem Reachable.unnumbered {allowed : Tree → Op → Prop} {t : Tree} (ht : Reachable allowed t) :
    t.Unnumbered := by
  induction ht with
  | newTree v r n _ =>
    exact Tree.Unnumbered.newNode ⟨rfl, fun _ => rfl⟩
  | step _ _ hs ih => exact hs.unnumbered ih

/-- `finalize_tree` numbers the root 0: the walk meets it first, and no record leads back to
    it. -/
theorem finalizeTree_root_number {t : Tree} (ht : Reachable anyOp t) :
    ((finalizeTree t).nodes t.rootNode).number = 0 := by
  have hw := ht.valid.wellFormed
  obtain ⟨rest, hrest⟩ := t.walkOrder_root t.nextNode t.rootNode
  have hnot : t.rootNode ∉ rest := fun hr => by
    obtain ⟨b, p, hp⟩ := t.walkOrder_reach_tail _ _ hrest _ hr
    exact ht.noEdgeToRoot.select_ne_root hw _ _ _ hw.root_lt (List.cons_ne_nil _ _) hp rfl
  rw [finalizeTree_walk ht.unnumbered.1, hrest, List.foldl_cons,
    foldl_assignNodeNumber_of_not_mem rest hnot]
  simp [assignNodeNumber]

/-- `new_tree(6, 28, 0)`, `::0.0.0.0/96 → k`, `alias_ipv4_networks`, `finalize_tree`: the node
    `2002::/15` leads to is reached from the root but never numbered, so it keeps the number 0
    `new_node` gave it, the root's number. -/
theorem finalizeTree_skips_sixToFour_ipv4Root :
    ∃ T, insertNetwork 1 (newTree 6 28 0) ipv4RootLiteral 96 ⟨1, [65]⟩ ⟨2, [66]⟩ = some (0, T) ∧
      ∃ s, (aliasIpv4Networks T).select (aliasIpv4Networks T).rootNode sixToFourAliasPath = .node s ∧
        s ≠ (aliasIpv4Networks T).rootNode ∧
        ((finalizeTree (aliasIpv4Networks T)).nodes s).number = 0 ∧
        ((finalizeTree (aliasIpv4Networks T)).nodes (aliasIpv4Networks T).rootNode).number = 0 := by
  obtain ⟨T, hT, ht, hip, R, hR⟩ := insertNetwork_ipv4Root_node
  have hA : Reachable anyOp (aliasIpv4Networks T) :=
    .step (ht.mono fun _ _ _ => trivial) trivial .aliasIpv4Networks
  obtain ⟨s, hsel, -, -, hnum⟩ := finalizeTree_skips_sixToFour ht hip hR
  refine ⟨T, hT, s, hsel, fun e => ?_, hnum.trans (hA.unnumbered.2 s), finalizeTree_root_number hA⟩
  exact hA.noEdgeToRoot.select_ne_root hA.valid.wellFormed _ _ _ hA.valid.wellFormed.root_lt
    (by decide) hsel e

end MMDBW
