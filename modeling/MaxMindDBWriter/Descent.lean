/-
  `find_node_for_network`: the descent every prefix operation starts with, and its two
  `if_not_node` callbacks (`return_null`, `make_next_node`).

  The C loop counts `current_bit` down from `max_depth0` to `last_bit`, reading the address
  bit by bit with `NETWORK_BIT_VALUE`.  Its result is then read by the caller, which selects
  the left or right record of the returned node by the bit at the returned `current_bit`.
  Two path-level functions describe what the loop does, in terms of the address's bits read
  from the top (`Network.bits`):

  * `Tree.select t h bits` — the record a HALTING descent from `h` along `bits` ends on
    (`return_null`: stop at the first record that is not `NODE`);
  * `Tree.materialize t h bits` — the MATERIALISING descent (`make_next_node`: put a new node
    wherever the record is not `NODE`, copying a `DATA` record into both of its halves).

  The bridge lemmas `findNodeForNetwork_returnNull` and `findNodeForNetwork_makeNextNode` say
  that the loop computes exactly these, over the first `Network.depth` bits.  `depth` is the
  number of iterations the loop makes when nothing stops it; it comes from the `uint8_t`
  arithmetic of `last_bit` and is `mask_length - 1` for `1 ≤ mask_length ≤ max_depth`, and 0
  otherwise (`Network.depth_eq`) — a /0 network is treated like a /1.
-/
import MaxMindDBWriter.Tree

namespace MMDBW

/-! ## The callbacks -/

/-- The `if_not_node` callbacks `find_node_for_network` is called with. -/
inductive IfNotNode where
  | returnNull
  | makeNextNode

/-- `make_next_node`: a new node, whose two records both receive the key of a `DATA` record
    being replaced (an `EMPTY` one leaves the new node empty). -/
def makeNextNode (t : Tree) (record : Record) : Tree × Nat :=
  match record with
  | .data key =>
    let (t, next) := newNode t
    ((t.setRecord next true (.data key)).setRecord next false (.data key), next)
  | _ => newNode t

/-- What `make_next_node` puts into both records of the new node. -/
def Record.splitCopy : Record → Record
  | .data key => .data key
  | _ => .empty

/-- Splitting a record that is not `NODE` copies it. -/
theorem Record.splitCopy_of_ne_node {r : Record} (hr : ∀ c, r ≠ .node c) : r.splitCopy = r := by
  cases r <;> simp_all [Record.splitCopy]

theorem makeNextNode_snd (t : Tree) (r : Record) : (makeNextNode t r).2 = t.nextNode := by
  unfold makeNextNode; split <;> simp

@[simp] theorem makeNextNode_nextNode (t : Tree) (r : Record) :
    (makeNextNode t r).1.nextNode = t.nextNode + 1 := by
  unfold makeNextNode; split <;> simp

@[simp] theorem makeNextNode_rootNode (t : Tree) (r : Record) :
    (makeNextNode t r).1.rootNode = t.rootNode := by
  unfold makeNextNode; split <;> simp

@[simp] theorem makeNextNode_ipVersion (t : Tree) (r : Record) :
    (makeNextNode t r).1.ipVersion = t.ipVersion := by
  unfold makeNextNode; split <;> simp

@[simp] theorem makeNextNode_dataHash (t : Tree) (r : Record) :
    (makeNextNode t r).1.dataHash = t.dataHash := by
  unfold makeNextNode; split <;> simp

@[simp] theorem makeNextNode_refs (t : Tree) (r : Record) : (makeNextNode t r).1.refs = t.refs := by
  unfold makeNextNode; split <;> simp

/-- `make_next_node` touches no node but the new one, and fills both of its records with the
    split record's copy. -/
theorem makeNextNode_nodes (t : Tree) (r : Record) (g : Nat) (b : Bool) :
    ((makeNextNode t r).1.nodes g).side b =
      if g = t.nextNode then r.splitCopy else (t.nodes g).side b := by
  unfold makeNextNode
  split
  · by_cases hg : g = t.nextNode
    · subst hg; cases b <;> simp [Record.splitCopy, newNode_nodes]
    · simp [hg, newNode_nodes, Tree.setRecord_nodes_of_ne _ _ _ (Ne.symm _)]
  · simp only [newNode_nodes]
    split
    · rename_i r hr _
      cases r <;> simp_all [Record.splitCopy]
    · rfl

/-- Calling the callback: `return_null` answers `NULL`. -/
def IfNotNode.call : IfNotNode → Tree → Record → Option (Tree × Nat)
  | .returnNull, _, _ => none
  | .makeNextNode, t, record => some (MMDBW.makeNextNode t record)

/-! ## The loop -/

/-- `uint8_t last_bit = max_depth0 - (mask_length - 1)`: computed in `int`, then truncated to
    eight bits. -/
def lastBit (network : Network) : Nat :=
  ((network.maxDepth0 - ((network.maskLength.toNat : Int) - 1)) % 256).toNat

/-- The `for` loop of `find_node_for_network`, entered with `*current_bit = currentBit`. -/
def findNodeLoop (network : Network) (ifNotNode : IfNotNode) (last : Nat) :
    Nat → Tree → Nat → Tree × Nat × Nat
  | 0, t, node => (t, node, 0)
  | currentBit + 1, t, node =>
    if last < currentBit + 1 then
      let nextIsRight := networkBitValue network (currentBit + 1)
      let record := (t.nodes node).side nextIsRight
      let next : Option (Tree × Nat) :=
        match record with
        | .node child => some (t, child)
        | _ => ifNotNode.call t record
      match next with
      | none => (t, node, currentBit + 1)
      | some (t, nextNode) =>
        findNodeLoop network ifNotNode last currentBit
          (t.setRecord node nextIsRight (.node nextNode)) nextNode
    else (t, node, currentBit + 1)

/-- `find_node_for_network`: the tree after the descent, the node it stopped at, and the final
    `*current_bit`. -/
def findNodeForNetwork (t : Tree) (network : Network) (ifNotNode : IfNotNode) :
    Tree × Nat × Nat :=
  findNodeLoop network ifNotNode (lastBit network) network.maxDepth0 t t.rootNode

/-- The number of iterations the loop makes when no record stops it. -/
def Network.depth (network : Network) : Nat := network.maxDepth0 - lastBit network

theorem Network.depth_eq (network : Network) :
    network.depth = if 1 ≤ network.maskLength.toNat ∧ network.maskLength.toNat ≤ network.maxDepth0 + 1
      then network.maskLength.toNat - 1 else 0 := by
  have hm : network.maskLength.toNat < 256 := network.maskLength.toBitVec.isLt
  rcases network.maxDepth0_eq with h | h <;>
  · unfold Network.depth lastBit; rw [h]; split <;> omega

theorem Network.depth_le (network : Network) : network.depth ≤ network.maxDepth0 := by
  unfold Network.depth; omega

/-! ## Path-level descents -/

/-- The record a halting descent from `node` along `bits` ends on: follow `NODE` records, and
    return the first record that is not one, or the record the last bit selects.  Along no
    bits at all it is the record that leads to `node` itself. -/
def Tree.select (t : Tree) (node : Nat) : List Bool → Record
  | [] => .node node
  | b :: bs =>
    match (t.nodes node).side b with
    | .node child => t.select child bs
    | r => r

/-- The materialising descent from `node` along `bits`: every record on the way that is not
    `NODE` is replaced by a `NODE` record to a node `make_next_node` creates. -/
def Tree.materialize (t : Tree) (node : Nat) : List Bool → Tree × Nat
  | [] => (t, node)
  | b :: bs =>
    match (t.nodes node).side b with
    | .node child => (t.setRecord node b (.node child)).materialize child bs
    | r =>
      let (t', next) := makeNextNode t r
      (t'.setRecord node b (.node next)).materialize next bs

@[simp] theorem Tree.select_nil (t : Tree) (h : Nat) : t.select h [] = .node h := rfl

@[simp] theorem Tree.select_singleton (t : Tree) (h : Nat) (b : Bool) :
    t.select h [b] = (t.nodes h).side b := by
  simp only [Tree.select]; split <;> simp_all

/-- A descent that follows a `NODE` record goes on from the node it leads to. -/
theorem Tree.select_cons_of_node (t : Tree) {h c : Nat} {b : Bool}
    (hs : (t.nodes h).side b = .node c) (q : List Bool) : t.select h (b :: q) = t.select c q := by
  simp only [Tree.select, hs]

/-- The halting descent reads only the node graph. -/
theorem Tree.SameGraph.select_eq {t t' : Tree} (h : t.SameGraph t') (node : Nat) (p : List Bool) :
    t.select node p = t'.select node p := by
  induction p generalizing node with
  | nil => rfl
  | cons b bs ih => simp only [Tree.select, h.nodes_eq, ih]

/-- A halting descent along `p ++ q` is the descent along `p`, continued along `q` from the
    node it reached. -/
theorem Tree.select_append (t : Tree) (p q : List Bool) (h : Nat) :
    t.select h (p ++ q) = match t.select h p with
      | .node c => t.select c q
      | r => r := by
  induction p generalizing h with
  | nil => rfl
  | cons b p ih =>
    simp only [List.cons_append, Tree.select]
    split <;> simp_all

/-- A halting descent that stopped on a record that is not `NODE` stops there along every
    longer path. -/
theorem Tree.select_append_of_ne_node (t : Tree) {p : List Bool} {h : Nat} {r : Record}
    (hs : t.select h p = r) (hr : ∀ c, r ≠ .node c) (q : List Bool) : t.select h (p ++ q) = r := by
  rw [Tree.select_append, hs]
  cases r <;> simp_all

theorem not_prefix_of_length_lt {p q : List Bool} (h : p.length < q.length) : ¬ q <+: p :=
  fun hq => absurd hq.length_le (by omega)

/-- A halting descent that reaches a node passes through nodes along every prefix of its path. -/
theorem Tree.select_prefix_node {t : Tree} {h g : Nat} {p q : List Bool}
    (hs : t.select h p = .node g) (hq : q <+: p) : ∃ x, t.select h q = .node x := by
  obtain ⟨s, rfl⟩ := hq
  rw [Tree.select_append] at hs
  split at hs
  · exact ⟨_, ‹_›⟩
  · exact absurd hs (by simp_all)

/-- Two continuations of `p` that end on different records pass through a node at `p`. -/
theorem Tree.select_node_of_ne (t : Tree) {p q₁ q₂ : List Bool} {h : Nat} {r₁ r₂ : Record}
    (h₁ : t.select h (p ++ q₁) = r₁) (h₂ : t.select h (p ++ q₂) = r₂) (hne : r₁ ≠ r₂) :
    ∃ x, t.select h p = .node x := by
  cases hs : t.select h p with
  | node x => exact ⟨x, rfl⟩
  | empty | data =>
    rw [t.select_append_of_ne_node hs (by simp)] at h₁ h₂
    exact absurd (h₁.symm.trans h₂) hne

/-- In a new tree every nonempty path ends on `EMPTY`. -/
theorem newTree_select (v r n : Nat) {p : List Bool} (hp : p ≠ []) :
    (newTree v r n).select (newTree v r n).rootNode p = .empty := by
  cases p with
  | nil => exact absurd rfl hp
  | cons b p => simp [Tree.select]

theorem Tree.materialize_cons_node (t : Tree) {h c : Nat} {b : Bool} (bs : List Bool)
    (hc : (t.nodes h).side b = .node c) :
    t.materialize h (b :: bs) = t.materialize c bs := by
  simp only [Tree.materialize, hc]
  rw [← hc, Tree.setRecord_self]

theorem Tree.materialize_cons_leaf (t : Tree) {h : Nat} {b : Bool} (bs : List Bool)
    (hr : ∀ c, (t.nodes h).side b ≠ .node c) :
    t.materialize h (b :: bs) =
      let m := makeNextNode t ((t.nodes h).side b)
      (m.1.setRecord h b (.node m.2)).materialize m.2 bs := by
  simp only [Tree.materialize]

/-- The materialising descent changes nothing but the node graph's records and allocation. -/
@[simp] theorem Tree.materialize_dataHash (p : List Bool) :
    ∀ (t : Tree) (h : Nat), (t.materialize h p).1.dataHash = t.dataHash := by
  induction p with
  | nil => intro t h; rfl
  | cons b p ih =>
    intro t h
    simp only [Tree.materialize]
    split <;> simp [ih]

@[simp] theorem Tree.materialize_refs (p : List Bool) :
    ∀ (t : Tree) (h : Nat), (t.materialize h p).1.refs = t.refs := by
  induction p with
  | nil => intro t h; rfl
  | cons b p ih =>
    intro t h
    simp only [Tree.materialize]
    split <;> simp [ih]

/-! ## The loop computes the path-level descents -/

/-- Reading bit `i` from the top is `NETWORK_BIT_VALUE` at `max_depth0 - i`. -/
theorem networkBitValue_eq_bit (network : Network) {c : Nat} (hc : c ≤ network.maxDepth0) :
    networkBitValue network c = network.bit (network.maxDepth0 - c) := by
  simp only [Network.bit, Nat.sub_sub_self hc]

theorem findNodeLoop_makeNextNode (network : Network) (last : Nat) :
    ∀ k t node, last + k ≤ network.maxDepth0 →
      findNodeLoop network .makeNextNode last (last + k) t node =
        let r := t.materialize node
          ((List.range' (network.maxDepth0 - (last + k)) k).map network.bit)
        (r.1, r.2, last) := by
  intro k
  induction k with
  | zero =>
    intro t node _
    cases last <;> simp [findNodeLoop, Tree.materialize]
  | succ k ih =>
    intro t node hk
    rw [show last + (k + 1) = (last + k) + 1 by omega] at hk ⊢
    have hbit := networkBitValue_eq_bit network hk
    have hs : network.maxDepth0 - (last + k + 1) + 1 = network.maxDepth0 - (last + k) := by omega
    rw [findNodeLoop, if_pos (by omega), hbit, List.range'_succ, List.map_cons, hs]
    cases hr : (t.nodes node).side (network.bit (network.maxDepth0 - (last + k + 1))) <;>
      simp only [Tree.materialize, hr, IfNotNode.call] <;> exact ih _ _ (by omega)

theorem findNodeLoop_returnNull (network : Network) (last : Nat) :
    ∀ k t node, last + k ≤ network.maxDepth0 →
      let r := findNodeLoop network .returnNull last (last + k) t node
      r.1 = t ∧ (t.nodes r.2.1).side (networkBitValue network r.2.2) =
        t.select node ((List.range' (network.maxDepth0 - (last + k)) (k + 1)).map network.bit) := by
  intro k
  induction k with
  | zero =>
    intro t node hk
    have hbit := networkBitValue_eq_bit network hk
    cases last <;> simp_all [findNodeLoop]
  | succ k ih =>
    intro t node hk
    rw [show last + (k + 1) = (last + k) + 1 by omega] at hk ⊢
    have hbit := networkBitValue_eq_bit network hk
    have hs : network.maxDepth0 - (last + k + 1) + 1 = network.maxDepth0 - (last + k) := by omega
    rw [findNodeLoop, if_pos (by omega), List.range'_succ, List.map_cons, hs, Tree.select, ← hbit]
    cases hr : (t.nodes node).side (networkBitValue network (last + k + 1)) with
    | node c =>
      simp only [hr]
      rw [← hr, Tree.setRecord_self]
      exact ih t c (by omega)
    | empty => simp [hr, IfNotNode.call]
    | data key => simp [hr, IfNotNode.call]

theorem findNodeLoop_returnNull_node (network : Network) (last : Nat) :
    ∀ k t node, last + k ≤ network.maxDepth0 →
      let r := findNodeLoop network .returnNull last (last + k) t node
      ∃ j, j ≤ k ∧ t.select node
          ((List.range' (network.maxDepth0 - (last + k)) j).map network.bit) = .node r.2.1 ∧
        r.2.2 = last + k - j ∧
        (j < k → ∀ c, t.select node
          ((List.range' (network.maxDepth0 - (last + k)) (j + 1)).map network.bit) ≠ .node c) := by
  intro k
  induction k with
  | zero => intro t node _; cases last <;> exact ⟨0, Nat.le_refl 0, by simp [findNodeLoop]⟩
  | succ k ih =>
    intro t node hk
    rw [show last + (k + 1) = (last + k) + 1 by omega] at hk ⊢
    have hbit := networkBitValue_eq_bit network hk
    have hs : network.maxDepth0 - (last + k + 1) + 1 = network.maxDepth0 - (last + k) := by omega
    rw [findNodeLoop, if_pos (by omega)]
    cases hr : (t.nodes node).side (networkBitValue network (last + k + 1)) with
    | node c =>
      simp only [hr]
      rw [← hr, Tree.setRecord_self]
      obtain ⟨j, hj, hsel, hcb, hstop⟩ := ih t c (by omega)
      refine ⟨j + 1, by omega, ?_, by omega, fun hjk c' => ?_⟩
      · rw [List.range'_succ, List.map_cons, hs, Tree.select, ← hbit, hr]
        exact hsel
      · rw [List.range'_succ, List.map_cons, hs, Tree.select, ← hbit, hr]
        exact hstop (by omega) c'
    | empty | data =>
      refine ⟨0, by omega, ?_, ?_, fun _ c => ?_⟩ <;>
        simp [hr, IfNotNode.call, Tree.select, hs, ← hbit]

/-- With `make_next_node` the loop is the materialising descent along the first `depth` bits,
    and it ends with `*current_bit = max_depth0 - depth`. -/
theorem findNodeForNetwork_makeNextNode (t : Tree) (network : Network) :
    findNodeForNetwork t network .makeNextNode =
      let r := t.materialize t.rootNode (network.bits network.depth)
      (r.1, r.2, network.maxDepth0 - network.depth) := by
  unfold findNodeForNetwork
  by_cases hl : lastBit network ≤ network.maxDepth0
  · have hd : lastBit network + network.depth = network.maxDepth0 := by
      unfold Network.depth; omega
    have h := findNodeLoop_makeNextNode network (lastBit network) network.depth t t.rootNode (by omega)
    rw [hd] at h
    rw [h, Network.bits, List.range_eq_range', Nat.sub_self, ← hd, Nat.add_sub_cancel]
  · have hd : network.depth = 0 := by unfold Network.depth; omega
    obtain ⟨c, hc⟩ : ∃ c, network.maxDepth0 = c + 1 := ⟨network.maxDepth0 - 1, by
      rcases network.maxDepth0_eq with h | h <;> omega⟩
    rw [hd, hc, findNodeLoop, if_neg (by omega)]
    rfl

/-- With `return_null` the loop leaves the tree as it was, and the record its caller selects
    is the halting descent's record along the first `depth + 1` bits. -/
theorem findNodeForNetwork_returnNull (t : Tree) (network : Network) :
    let r := findNodeForNetwork t network .returnNull
    r.1 = t ∧ (t.nodes r.2.1).side (networkBitValue network r.2.2) =
      t.select t.rootNode (network.bits (network.depth + 1)) := by
  unfold findNodeForNetwork
  by_cases hl : lastBit network ≤ network.maxDepth0
  · have hd : lastBit network + network.depth = network.maxDepth0 := by
      unfold Network.depth; omega
    have h := findNodeLoop_returnNull network (lastBit network) network.depth t t.rootNode (by omega)
    rw [hd, Nat.sub_self, ← List.range_eq_range'] at h
    exact h
  · have hd : network.depth = 0 := by unfold Network.depth; omega
    obtain ⟨c, hc⟩ : ∃ c, network.maxDepth0 = c + 1 := ⟨network.maxDepth0 - 1, by
      rcases network.maxDepth0_eq with h | h <;> omega⟩
    rw [hd, hc, findNodeLoop, if_neg (by omega)]
    simp [Network.bits, Network.bit, hc, List.range_succ]

/-- The node a halting descent returns is reached along `NODE` records from the root, by the
    bits it consumed; the returned `current_bit` says how many; and if it stopped early, the
    record at the next bit is not `NODE`. -/
theorem findNodeForNetwork_returnNull_node (t : Tree) (network : Network) :
    let r := findNodeForNetwork t network .returnNull
    ∃ j, j ≤ network.depth ∧ t.select t.rootNode (network.bits j) = .node r.2.1 ∧
      r.2.2 = network.maxDepth0 - j ∧
      (j < network.depth → ∀ c, t.select t.rootNode (network.bits (j + 1)) ≠ .node c) := by
  unfold findNodeForNetwork
  by_cases hl : lastBit network ≤ network.maxDepth0
  · have hd : lastBit network + network.depth = network.maxDepth0 := by
      unfold Network.depth; omega
    have h := findNodeLoop_returnNull_node network (lastBit network) network.depth t t.rootNode
      (by omega)
    rw [hd, Nat.sub_self] at h
    obtain ⟨j, hj, hsel, hcb, hstop⟩ := h
    refine ⟨j, hj, by rw [Network.bits, List.range_eq_range']; exact hsel, by omega, fun hjd c => ?_⟩
    rw [Network.bits, List.range_eq_range']
    exact hstop hjd c
  · have hd : network.depth = 0 := by unfold Network.depth; omega
    obtain ⟨c, hc⟩ : ∃ c, network.maxDepth0 = c + 1 := ⟨network.maxDepth0 - 1, by
      rcases network.maxDepth0_eq with h | h <;> omega⟩
    refine ⟨0, by omega, ?_, ?_, fun h => absurd h (by omega)⟩ <;>
      rw [hc, findNodeLoop, if_neg (by omega)] <;> simp [Network.bits]

end MMDBW
