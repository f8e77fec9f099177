/-
  The insert and delete laws, as `lookup_ip_address` observes them.

  A network `n/m` of the tree's family with `1 ≤ m ≤ max_depth` has `depth = m - 1`, so its
  descent reads exactly its first `m` bits.  `lookup_ip_address` reads all the address bits of
  the tree, so an address whose first `m` bits are the network's reads the record written at the
  end of the network's path (`insertRecordForNetwork_spec`, valid in every reachable tree,
  aliased or not), and, in a tree built without aliases, an address outside the network reads
  what it read before, up to a sibling merge (`insertRecordForNetwork_labelled`).

  The bound `1 ≤ m` matters: a /0 network has `depth = 0`, like a /1, and its record is written
  into one half of the root only (`insertNetwork_mask_zero_half`).
-/
import MaxMindDBWriter.Reachable

namespace MMDBW

/-! ## Lookups as halting descents -/

/-- In a valid tree, `lookup_ip_address` reads the halting descent's record along all the
    address bits of the tree. -/
theorem Tree.Valid.lookupRecord_eq {t : Tree} (hv : t.Valid) (lit : IpLiteral) :
    lookupRecord t lit = t.select t.rootNode ((hostNetwork t lit).bits (t.maxDepth0 + 1)) := by
  rw [lookupRecord_eq_select, hostNetwork_depth t lit hv.ipVersion_eq]

/-- A lookup whose address bits start with a path on which the halting descent stops reads the
    record it stops on. -/
theorem Tree.Valid.lookupRecord_of_select {t : Tree} (hv : t.Valid) {p : List Bool} {r : Record}
    (hs : t.select t.rootNode p = r) (hr : ∀ c, r ≠ .node c) {lit : IpLiteral}
    (hp : p <+: (hostNetwork t lit).bits (t.maxDepth0 + 1)) : lookupRecord t lit = r := by
  obtain ⟨q, hq⟩ := hp
  rw [hv.lookupRecord_eq, ← hq]
  exact Tree.select_append_of_ne_node t hs hr q

/-! ## Networks of the tree's family -/

section Network

variable {t : Tree} {lit : IpLiteral} {maskLength : UInt8}

/-- `insert_network` and `delete_network` accept a network of the tree's family. -/
theorem accepted_of_family (hfam : (resolveNetwork t lit maskLength).family = t.family) :
    ¬ (t.ipVersion = 4 ∧ (resolveNetwork t lit maskLength).family = .inet6) := by
  rintro ⟨h4, h6⟩
  simp [hfam, Tree.family, h4] at h6

/-- A network of the tree's family with `1 ≤ m ≤ max_depth` reads its first `m` bits. -/
theorem depth_add_one_of_family (hfam : (resolveNetwork t lit maskLength).family = t.family)
    (hm : 1 ≤ maskLength.toNat ∧ maskLength.toNat ≤ t.maxDepth0 + 1) :
    (resolveNetwork t lit maskLength).depth + 1 = maskLength.toNat := by
  rw [Network.depth_eq, resolveNetwork_maskLength, resolveNetwork_maxDepth0 t lit maskLength hfam,
    if_pos hm]
  omega

/-- An address whose first `m` bits are those of the network reads a path that starts with
    them. -/
theorem bits_prefix_of_eq {network : Network} {m : Nat} (hm : m ≤ t.maxDepth0 + 1)
    (h : (hostNetwork t lit).bits m = network.bits m) :
    network.bits m <+: (hostNetwork t lit).bits (t.maxDepth0 + 1) :=
  h ▸ Network.bits_prefix _ hm

/-- An address whose first `m` bits are not those of the network reads a path that does not
    start with them. -/
theorem not_bits_prefix_of_ne {network : Network} {m : Nat} (hm : m ≤ t.maxDepth0 + 1)
    (h : (hostNetwork t lit).bits m ≠ network.bits m) :
    ¬ network.bits m <+: (hostNetwork t lit).bits (t.maxDepth0 + 1) := by
  intro hp
  apply h
  rw [List.prefix_iff_eq_take.mp hp, Network.length_bits, Network.take_bits _ hm]

end Network

/-! ## The materialising descent -/

/-- `find_node_for_network` with `make_next_node`, for a network `n/m` of the tree's family with
    `1 ≤ m ≤ max_depth` in a tree built without aliases: it is the materialising descent along
    the first `m - 1` bits (bit `i` read by `NETWORK_BIT_VALUE` at `current_bit = max_depth0 - i`),
    it returns the node at the end of that path (the node already there when the path existed)
    with `*current_bit = max_depth0 - (m - 1)`, every record along the path is then `NODE`, and
    `lookup_ip_address` answers every address as before. -/
theorem findNodeForNetwork_makeNextNode_path {t : Tree} (ht : Reachable aliasFree t)
    {lit : IpLiteral} {maskLength : UInt8} (hfam : (resolveNetwork t lit maskLength).family = t.family)
    (hm : 1 ≤ maskLength.toNat ∧ maskLength.toNat ≤ t.maxDepth0 + 1) :
    let network := resolveNetwork t lit maskLength
    let r := findNodeForNetwork t network .makeNextNode
    r.1 = (t.materialize t.rootNode (network.bits (maskLength.toNat - 1))).1 ∧
      r.2.1 = (t.materialize t.rootNode (network.bits (maskLength.toNat - 1))).2 ∧
      r.2.2 = t.maxDepth0 - (maskLength.toNat - 1) ∧
      r.1.select r.1.rootNode (network.bits (maskLength.toNat - 1)) = .node r.2.1 ∧
      (∀ x, t.select t.rootNode (network.bits (maskLength.toNat - 1)) = .node x → r.2.1 = x) ∧
      (∀ j, j < maskLength.toNat - 1 →
        ∃ c, r.1.select r.1.rootNode (network.bits (j + 1)) = .node c) ∧
      ∀ a, (lookupIpAddress r.1 a).2 = (lookupIpAddress t a).2 := by
  intro network r
  have hv := ht.valid
  obtain ⟨pos, hl⟩ := ht.labelled
  have hd : network.depth = maskLength.toNat - 1 := by
    have : network.depth + 1 = maskLength.toNat := depth_add_one_of_family hfam hm
    omega
  have hmd : network.maxDepth0 = t.maxDepth0 := resolveNetwork_maxDepth0 t lit maskLength hfam
  have hr : r = ((t.materialize t.rootNode (network.bits (maskLength.toNat - 1))).1,
      (t.materialize t.rootNode (network.bits (maskLength.toNat - 1))).2,
      t.maxDepth0 - (maskLength.toNat - 1)) := by
    simp only [r, findNodeForNetwork_makeNextNode, hd, hmd]
  obtain ⟨-, -, -, root, ip, sel, keep⟩ := Tree.materialize_spec (network.bits (maskLength.toNat - 1))
    t t.rootNode hv.wellFormed hv.wellFormed.root_lt
  obtain ⟨-, -, -, far⟩ := Tree.materialize_labelled (network.bits (maskLength.toNat - 1))
    t pos [] t.rootNode hv.wellFormed hl rfl
  rw [hr]
  refine ⟨rfl, rfl, rfl, by rw [root]; exact sel, fun x hx => ?_, fun j hj => ?_, fun a => ?_⟩
  · -- an existing path keeps its `NODE` records
    exact Record.node.inj (sel.symm.trans
      (Tree.select_node_of_keep hv.wellFormed keep _ _ _ hv.wellFormed.root_lt hx))
  · rw [root]
    exact Tree.select_prefix_node sel (network.bits_prefix (by omega))
  · -- an address path is longer than the descent's path, which it therefore does not prefix
    refine lookupIpAddress_congr ip (Tree.materialize_dataHash _ _ _) ?_
    rw [lookupRecord_eq_select, lookupRecord_eq_select, hostNetwork_congr ip,
      hostNetwork_depth t a hv.ipVersion_eq, root]
    exact far _ (not_prefix_of_length_lt (by simp; omega))

/-- The descent for `10.0.0.0/8` in a new IPv4 tree stops with `current_bit = 24`. -/
theorem findNodeForNetwork_makeNextNode_ten :
    (findNodeForNetwork (newTree 4 24 0) (resolveNetwork (newTree 4 24 0) (v4 10 0 0 0) 8)
        .makeNextNode).2.2 = (newTree 4 24 0).maxDepth0 - ((8 : UInt8).toNat - 1) :=
  (findNodeForNetwork_makeNextNode_path (.newTree 4 24 0 (.inl rfl)) (by decide) (by decide)).2.2.1

/-! ## The insert law -/

section Insert

variable {T T' : Tree} {n : IpLiteral} {m : UInt8} {key data : SV} {fuel : Nat} {result : Int}

/-- Inside the network: after a returning `insert_network` of a network `n/m` of the tree's
    family with `1 ≤ m ≤ max_depth`, the halting descent along its first `m` bits ends on
    `DATA key`, in every valid tree. -/
theorem insertNetwork_select_inside (hv : T.Valid) (hfam : (resolveNetwork T n m).family = T.family)
    (hm : 1 ≤ m.toNat ∧ m.toNat ≤ T.maxDepth0 + 1)
    (hins : insertNetwork fuel T n m key data = some (result, T')) :
    T'.Valid ∧ T'.ipVersion = T.ipVersion ∧
      T'.select T'.rootNode ((resolveNetwork T n m).bits m.toNat) = .data key := by
  rcases insertNetwork_some hins with ⟨h4, h6, -⟩ | ⟨-, -, t₀, t₁, h₀, h₁, h'⟩
  · exact absurd ⟨h4, h6⟩ (accepted_of_family hfam)
  obtain ⟨w₁, -, ip₁, -, sel₁⟩ :=
    insertRecordForNetwork_spec (by simp) fuel _ _ _ (h₀.wellFormed hv.wellFormed) h₁
  have hip : T'.ipVersion = T.ipVersion := by rw [h'.ipVersion_eq, ip₁, h₀.ipVersion_eq]
  rw [depth_add_one_of_family hfam hm] at sel₁
  exact ⟨⟨hip ▸ hv.1, h'.wellFormed w₁⟩, hip, by rw [h'.select_eq, h'.rootNode_eq]; exact sel₁⟩

/-- Outside the network: in a labelled tree every path of the address length that does not start
    with the network's first `m` bits ends where it ended before, up to a sibling merge. -/
theorem insertNetwork_select_outside {pos : Nat → List Bool} (hv : T.Valid) (hl : T.Labelled pos)
    (hfam : (resolveNetwork T n m).family = T.family) (hm : 1 ≤ m.toNat ∧ m.toNat ≤ T.maxDepth0 + 1)
    (hins : insertNetwork fuel T n m key data = some (result, T')) (q : List Bool)
    (hq : T.maxDepth0 < q.length) (hnq : ¬ (resolveNetwork T n m).bits m.toNat <+: q) :
    (Record.data key).KeptOrMerged (T.select T.rootNode q) (T'.select T'.rootNode q) := by
  rcases insertNetwork_some hins with ⟨h4, h6, -⟩ | ⟨-, -, t₀, t₁, h₀, h₁, h'⟩
  · exact absurd ⟨h4, h6⟩ (accepted_of_family hfam)
  obtain ⟨-, -, -, far⟩ := insertRecordForNetwork_labelled (by simp) fuel _ pos _ _
    (h₀.wellFormed hv.wellFormed) (h₀.labelled hl) h₁
  rw [depth_add_one_of_family hfam hm, resolveNetwork_maxDepth0 T n m hfam] at far
  rw [h'.select_eq, h'.rootNode_eq, ← h₀.select_eq, ← h₀.rootNode_eq]
  exact far q hq hnq

/-- The insert law on the lookups of a valid tree: an address whose first `m` bits are the
    network's reaches `DATA key`; in a labelled tree every other address reaches what it reached
    before, or `DATA key` where a sibling merge lifted it over a key with the same bytes. -/
theorem Tree.Valid.insertNetwork_lookupRecord (hv : T.Valid)
    (hfam : (resolveNetwork T n m).family = T.family) (hm : 1 ≤ m.toNat ∧ m.toNat ≤ T.maxDepth0 + 1)
    (hins : insertNetwork fuel T n m key data = some (result, T')) (a : IpLiteral) :
    ((hostNetwork T a).bits m.toNat = (resolveNetwork T n m).bits m.toNat →
        lookupRecord T' a = .data key) ∧
      (∀ pos, T.Labelled pos → (hostNetwork T a).bits m.toNat ≠ (resolveNetwork T n m).bits m.toNat →
        (Record.data key).KeptOrMerged (lookupRecord T a) (lookupRecord T' a)) := by
  obtain ⟨hv', hip, sel⟩ := insertNetwork_select_inside hv hfam hm hins
  have hmax : T'.maxDepth0 = T.maxDepth0 := by simp only [Tree.maxDepth0, hip]
  rw [hv'.lookupRecord_eq, hv.lookupRecord_eq, hostNetwork_congr hip, hmax]
  refine ⟨fun heq => ?_, fun pos hl hne => ?_⟩
  · -- inside: the record written at the end of the network's path
    obtain ⟨q, hq⟩ := bits_prefix_of_eq hm.2 heq
    rw [← hq]
    exact Tree.select_append_of_ne_node _ sel (by simp) q
  · -- outside: the labelling keeps every other path
    exact insertNetwork_select_outside hv hl hfam hm hins _ (by simp)
      (not_bits_prefix_of_ne hm.2 hne)

end Insert

/-- After a returning `insert_network` of a network `n/m` of the tree's family with
    `1 ≤ m ≤ max_depth`, every address whose first `m` bits are the network's reaches
    `DATA key`, in every reachable tree, aliased or not; in a tree built without aliases every
    other address reaches the record it reached before, or a `DATA` record whose key has the
    same bytes where a sibling merge lifted the new key over it. -/
theorem insertNetwork_lookup (T : Tree) (hT : Reachable anyOp T) (n : IpLiteral) (m : UInt8)
    (key data : SV) (hfam : (resolveNetwork T n m).family = T.family)
    (hm : 1 ≤ m.toNat ∧ m.toNat ≤ T.maxDepth0 + 1) (fuel : Nat) (result : Int) (T' : Tree)
    (hins : insertNetwork fuel T n m key data = some (result, T')) (a : IpLiteral) :
    ((hostNetwork T a).bits m.toNat = (resolveNetwork T n m).bits m.toNat →
        lookupRecord T' a = .data key) ∧
      (Reachable aliasFree T → (hostNetwork T a).bits m.toNat ≠ (resolveNetwork T n m).bits m.toNat →
        (Record.data key).KeptOrMerged (lookupRecord T a) (lookupRecord T' a)) := by
  have law := hT.valid.insertNetwork_lookupRecord hfam hm hins a
  exact ⟨law.1, fun hfree => hfree.labelled.elim law.2⟩

/-- The insert law at `10.0.0.0/8` in a new IPv4 tree: `10.1.2.3` reaches the new key, and
    `11.0.0.0` still reaches `EMPTY`. -/
theorem insertNetwork_lookup_ten_eight :
    ∃ T', insertNetwork 1 (newTree 4 24 0) (v4 10 0 0 0) 8 ⟨1, [65]⟩ ⟨2, [66]⟩ = some (0, T') ∧
      lookupRecord T' (v4 10 1 2 3) = .data ⟨1, [65]⟩ ∧
      (Record.data ⟨1, [65]⟩).KeptOrMerged (lookupRecord (newTree 4 24 0) (v4 11 0 0 0))
        (lookupRecord T' (v4 11 0 0 0)) := by
  obtain ⟨T', h⟩ : ∃ T',
      insertNetwork 1 (newTree 4 24 0) (v4 10 0 0 0) 8 ⟨1, [65]⟩ ⟨2, [66]⟩ = some (0, T') :=
    ⟨_, rfl⟩
  have law := insertNetwork_lookup (newTree 4 24 0) (.newTree 4 24 0 (.inl rfl)) (v4 10 0 0 0) 8
    _ _ rfl (by decide) 1 0 T' h
  exact ⟨T', h, (law (v4 10 1 2 3)).1 (by decide),
    (law (v4 11 0 0 0)).2 (.newTree 4 24 0 (.inl rfl)) (by decide)⟩

/-- A /0 network is inserted as a /1: in a new IPv4 tree, after `0.0.0.0/0 → k` the address
    `128.0.0.0`, whose first 0 bits trivially agree with the network's, still has no data. -/
theorem insertNetwork_mask_zero_half :
    ∃ T', insertNetwork 1 (newTree 4 24 0) (v4 0 0 0 0) 0 ⟨1, [65]⟩ ⟨2, [66]⟩ = some (0, T') ∧
      (hostNetwork (newTree 4 24 0) (v4 128 0 0 0)).bits 0 =
        (resolveNetwork (newTree 4 24 0) (v4 0 0 0 0) 0).bits 0 ∧
      lookupRecord T' (v4 128 0 0 0) = .empty ∧ (lookupIpAddress T' (v4 128 0 0 0)).2 = .ok none :=
  ⟨_, rfl, rfl, by decide, rfl⟩

/-! ## The delete law -/

/-- The delete law on the lookups of a valid tree: an address whose first `m` bits are the
    network's finds `EMPTY`; in a labelled tree every other address finds exactly what it found
    before. -/
theorem Tree.Valid.deleteNetwork_lookupRecord {T : Tree} (hv : T.Valid) {n : IpLiteral} {m : UInt8}
    (hfam : (resolveNetwork T n m).family = T.family) (hm : 1 ≤ m.toNat ∧ m.toNat ≤ T.maxDepth0 + 1)
    (a : IpLiteral) :
    ((hostNetwork T a).bits m.toNat = (resolveNetwork T n m).bits m.toNat →
        lookupRecord (deleteNetwork T n m) a = .empty) ∧
      (∀ pos, T.Labelled pos → (hostNetwork T a).bits m.toNat ≠ (resolveNetwork T n m).bits m.toNat →
        lookupRecord (deleteNetwork T n m) a = lookupRecord T a) := by
  have hd := depth_add_one_of_family hfam hm
  obtain ⟨w', -, ip'⟩ := deleteNetwork_wellFormed n m hv.wellFormed
  have hv' : (deleteNetwork T n m).Valid := ⟨ip' ▸ hv.1, w'⟩
  have hmax : (deleteNetwork T n m).maxDepth0 = T.maxDepth0 := by simp only [Tree.maxDepth0, ip']
  refine ⟨fun heq => ?_, fun pos hl hne => ?_⟩
  · -- the record at the end of the network's path is `EMPTY`, deleted or found so
    have sel : (deleteNetwork T n m).select (deleteNetwork T n m).rootNode
        ((resolveNetwork T n m).bits m.toNat) = .empty := by
      rw [← hd]
      rcases deleteNetwork_cases T n m with ⟨he, hsel⟩ | h
      · rw [he]; exact hsel (accepted_of_family hfam)
      · exact (insertRecordForNetwork_spec (by simp) 1 _ _ _ hv.wellFormed h).2.2.2.2
    exact hv'.lookupRecord_of_select sel (by simp)
      (by rw [hostNetwork_congr ip', hmax]; exact bits_prefix_of_eq hm.2 heq)
  · rw [hv'.lookupRecord_eq, hv.lookupRecord_eq, hostNetwork_congr ip', hmax]
    rcases deleteNetwork_cases T n m with ⟨he, -⟩ | h
    · rw [he]
    · obtain ⟨-, -, -, far⟩ := insertRecordForNetwork_labelled (by simp) 1 _ pos _ _ hv.wellFormed hl h
      rw [hd] at far
      exact (far _ (by simp [resolveNetwork_maxDepth0 T n m hfam]) (not_bits_prefix_of_ne hm.2 hne)).eq_of_empty

end MMDBW
