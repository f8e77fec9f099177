/-
  The in-memory search tree of the MaxMind-DB writer (`src/c/tree.c`): records, nodes, the
  network a prefix operation works on, and the tree with its node pool.

  The C tree keeps its nodes in one pool and refers to them by pointer.  Here a node is named
  by the index `new_node` hands out (`next_node` at the time of the call), and the pool's
  contents are a function from that index to the node stored there, so a handle stays valid
  across later allocations: the design every caller of `new_node` relies on.  What the C code
  really computes for the slot's address, and how large it makes the buffer, is kept beside it
  (`poolCapacity`, `slotOffset`), so that `new_node`'s bookkeeping is checked on its own terms:
  it does NOT keep the slots inside the buffer (`new_node_slot_outside_pool`).

  Perl scalars (`SV *`) are modelled by their identity and their string value: the sibling
  merge compares keys byte for byte (`SvPVbyte` + `memcmp`), the data hash is keyed by the
  key's string (`hv_store_ent`/`hv_fetch_ent`), and the references the tree holds
  (`SvREFCNT_inc`, and the hash's own on its values) are counted per identity.

  Address literals are taken as `getaddrinfo` returns them (`IpLiteral`): parsing the text is
  the resolver's business, and what `resolve_network` adds on top (the family hints, the
  v4-mapped form in an IPv6 tree, `max_depth0`) is modelled in `resolveNetwork`.
-/
import Mathlib.Logic.Function.Basic

namespace MMDBW

/-! ## Perl scalars, records and nodes -/

/-- A Perl scalar as the tree sees it: `addr` is its identity (the `SV *`), `pv` the bytes
    `SvPVbyte` returns for it. -/
structure SV where
  addr : Nat
  pv : List UInt8
deriving DecidableEq, Repr

/-- `MMDBW_record_s`: the `type` tag together with the member of `value` that the tag
    selects (`MMDBW_RECORD_TYPE_EMPTY`, `_DATA`, `_NODE`). -/
inductive Record where
  | empty
  | data (key : SV)
  | node (node : Nat)
deriving DecidableEq, Repr

/-- `MMDBW_node_s`. -/
structure Node where
  leftRecord : Record
  rightRecord : Record
  number : Nat
deriving DecidableEq, Repr

/-- The record a bit selects: `right_record` for a set bit, `left_record` otherwise. -/
def Node.side (node : Node) (isRight : Bool) : Record :=
  if isRight then node.rightRecord else node.leftRecord

/-- Overwrite the record a bit selects. -/
def Node.setSide (node : Node) (isRight : Bool) (r : Record) : Node :=
  if isRight then { node with rightRecord := r } else { node with leftRecord := r }

@[simp] theorem Node.side_setSide (node : Node) (b c : Bool) (r : Record) :
    (node.setSide b r).side c = if b = c then r else node.side c := by
  cases b <;> cases c <;> rfl

@[simp] theorem Node.setSide_side (node : Node) (b : Bool) : node.setSide b (node.side b) = node := by
  cases b <;> rfl

@[simp] theorem Node.number_setSide (node : Node) (b : Bool) (r : Record) :
    (node.setSide b r).number = node.number := by
  cases b <;> rfl

/-- A freshly allocated node: `number = 0`, both records `EMPTY`. -/
def Node.blank : Node := ⟨.empty, .empty, 0⟩

@[simp] theorem Node.blank_side (b : Bool) : Node.blank.side b = .empty := by
  cases b <;> rfl

/-! ## Networks and address literals -/

/-- The address family `getaddrinfo` reports: `AF_INET` or `AF_INET6`. -/
inductive Family where
  | inet
  | inet6
deriving DecidableEq, Repr

/-- `MMDBW_network_s`.  `gai_status` is written by the merge and never read, and is left out.
    The two proof fields are what `resolve_network` guarantees of every network it builds and
    what `parent_network` inherits: 4 or 16 address bytes, and `max_depth0` one less than
    their bit count. -/
structure Network where
  bytes : List UInt8
  maskLength : UInt8
  maxDepth0 : Nat
  family : Family
  maxDepth0_eq : maxDepth0 = 31 ∨ maxDepth0 = 127
  bytes_length : bytes.length * 8 = maxDepth0 + 1

/-- `NETWORK_BIT_VALUE(network, current_bit)`: bit `current_bit` of the address, counted from
    its least significant end, read out of the big-endian bytes.  The macro writes the mask as
    `1U << (~(max_depth0 - current_bit) & 7)`; for the non-negative index it is applied to,
    `~i & 7` is `7 - i % 8`. -/
def networkBitValue (network : Network) (currentBit : Nat) : Bool :=
  let i := network.maxDepth0 - currentBit
  (network.bytes.getD (i >>> 3) 0 &&& ((1 : UInt8) <<< (7 - i % 8).toUInt8)) != 0

/-- Bit `i` of the address counted from the top (`i = 0` is the most significant bit): the
    bit `NETWORK_BIT_VALUE` reads at `current_bit = max_depth0 - i`. -/
def Network.bit (network : Network) (i : Nat) : Bool :=
  networkBitValue network (network.maxDepth0 - i)

/-- The first `k` bits of the address, most significant first. -/
def Network.bits (network : Network) (k : Nat) : List Bool :=
  (List.range k).map network.bit

@[simp] theorem Network.length_bits (network : Network) (k : Nat) : (network.bits k).length = k := by
  simp [Network.bits]

theorem Network.bits_succ (network : Network) (k : Nat) :
    network.bits (k + 1) = network.bits k ++ [network.bit k] := by
  simp [Network.bits, List.range_succ]

/-- The first `j` bits are a prefix of the first `k`, for `j ≤ k`. -/
theorem Network.bits_prefix (network : Network) {j k : Nat} (h : j ≤ k) :
    network.bits j <+: network.bits k := by
  obtain ⟨i, rfl⟩ := Nat.exists_eq_add_of_le h
  exact ⟨(List.range' j i).map network.bit, by simp [Network.bits, List.range_add, List.range'_eq_map_range]⟩

theorem Network.take_bits (network : Network) {j k : Nat} (h : j ≤ k) :
    (network.bits k).take j = network.bits j := by
  have := List.prefix_iff_eq_take.mp (network.bits_prefix h)
  rw [Network.length_bits] at this
  exact this.symm

/-- An address literal as `getaddrinfo` parses it (`AI_NUMERICHOST`): its family and its
    address bytes in network order. -/
inductive IpLiteral where
  | v4 (bytes : List UInt8) (length_eq : bytes.length = 4)
  | v6 (bytes : List UInt8) (length_eq : bytes.length = 16)

/-- An IPv4 address. -/
def v4 (a b c d : UInt8) : IpLiteral := .v4 [a, b, c, d] rfl

/-- An IPv6 address given by its first two bytes, the rest zero. -/
def v6Prefix (a b : UInt8) : IpLiteral := .v6 ([a, b] ++ List.replicate 14 0) (by simp)

/-- The v4-mapped IPv6 form `::ffff:a.b.c.d` that `AI_V4MAPPED` gives a v4 literal when the
    hints ask for `AF_INET6`. -/
def v4Mapped (bytes : List UInt8) : List UInt8 :=
  List.replicate 10 0 ++ [0xff, 0xff] ++ bytes

/-- The IPv4-compatible IPv6 form `::a.b.c.d`, inside `::/96`. -/
def v4Compatible (bytes : List UInt8) : List UInt8 :=
  List.replicate 12 0 ++ bytes

/-! ## The tree and its node pool -/

/-- `data_hash`, the Perl hash in which `insert_network` stores each network's data under the
    bytes of its key: `fetch` is what `hv_fetch_ent` finds under a key's bytes, and `keys` lists
    the keys the hash holds, each once (the entries it releases when it is freed). -/
structure DataHash where
  fetch : List UInt8 → Option SV
  keys : List (List UInt8)

/-- `newHV()`. -/
def DataHash.empty : DataHash := ⟨fun _ => none, []⟩

/-- `MMDBW_tree_s`.  `nodes` is the content of `node_pool`, by handle; `poolCapacity` is how
    many `MMDBW_node_s` the buffer holds (the byte count of the last `realloc` over
    `sizeof(MMDBW_node_s)`); `refs` counts the references the tree holds on each scalar, through
    the keys of its records and through the data hash.
    `output_fd`, `root_data_type` and `serializer` only carry `write_search_tree`'s arguments
    to its callback: the file is part of the state the walk's callbacks act on (`IterState`),
    and the other two only reach `store_data`, whose answer is never used. -/
structure Tree where
  ipVersion : Nat
  recordSize : Nat
  dataHash : DataHash
  refs : SV → Nat
  nodes : Nat → Node
  nextNode : Nat
  allocatedNodes : Nat
  nodesPerAlloc : Nat
  poolCapacity : Nat
  rootNode : Nat
  isFinalized : Bool
  nodeCount : Nat

/-- The family of the tree's own networks: `AF_INET6` for an IPv6 tree, `AF_INET` otherwise. -/
def Tree.family (t : Tree) : Family := if t.ipVersion = 6 then .inet6 else .inet

/-- `max_depth0` of the networks `resolve_network` builds for this tree's own family. -/
def Tree.maxDepth0 (t : Tree) : Nat := if t.ipVersion = 6 then 127 else 31

/-- `resolve_network` after `getaddrinfo`: an IPv6 tree, or a literal with a `:`, asks for
    `AF_INET6` with `AI_V4MAPPED`, which maps a v4 literal to `::ffff:a.b.c.d`; otherwise the
    v4 literal is kept.  (A literal `getaddrinfo` rejects makes `resolve_network` croak before
    any of this; such literals are not `IpLiteral`s.) -/
def resolveNetwork (t : Tree) (lit : IpLiteral) (maskLength : UInt8) : Network :=
  match lit with
  | .v4 a h =>
    if t.ipVersion = 6 then
      ⟨v4Mapped a, maskLength, 127, .inet6, .inr rfl, by simp [v4Mapped, h]⟩
    else ⟨a, maskLength, 31, .inet, .inl rfl, by simp [h]⟩
  | .v6 a h => ⟨a, maskLength, 127, .inet6, .inr rfl, by simp [h]⟩

/-- `resolve_network` reads only the tree's IP version. -/
theorem resolveNetwork_congr {t t' : Tree} (h : t'.ipVersion = t.ipVersion) (lit : IpLiteral)
    (maskLength : UInt8) : resolveNetwork t' lit maskLength = resolveNetwork t lit maskLength := by
  unfold resolveNetwork
  rw [h]

@[simp] theorem resolveNetwork_maskLength (t : Tree) (lit : IpLiteral) (maskLength : UInt8) :
    (resolveNetwork t lit maskLength).maskLength = maskLength := by
  unfold resolveNetwork; split <;> (try split) <;> rfl

/-- A network of the tree's own family has the tree's `max_depth0`. -/
theorem resolveNetwork_maxDepth0 (t : Tree) (lit : IpLiteral) (maskLength : UInt8)
    (h : (resolveNetwork t lit maskLength).family = t.family) :
    (resolveNetwork t lit maskLength).maxDepth0 = t.maxDepth0 := by
  unfold resolveNetwork Tree.family Tree.maxDepth0 at *
  cases lit <;> by_cases h6 : t.ipVersion = 6 <;> simp_all

/-- Overwrite one record of one node. -/
def Tree.setRecord (t : Tree) (node : Nat) (isRight : Bool) (r : Record) : Tree :=
  { t with nodes := Function.update t.nodes node ((t.nodes node).setSide isRight r) }

@[simp] theorem Tree.setRecord_nodes_self (t : Tree) (h : Nat) (b : Bool) (r : Record) :
    (t.setRecord h b r).nodes h = (t.nodes h).setSide b r := by
  simp [Tree.setRecord]

@[simp] theorem Tree.setRecord_nodes_of_ne (t : Tree) {h g : Nat} (b : Bool) (r : Record)
    (hne : g ≠ h) : (t.setRecord h b r).nodes g = t.nodes g := by
  simp [Tree.setRecord, hne]

@[simp] theorem Tree.setRecord_nextNode (t : Tree) (h : Nat) (b : Bool) (r : Record) :
    (t.setRecord h b r).nextNode = t.nextNode := rfl

@[simp] theorem Tree.setRecord_rootNode (t : Tree) (h : Nat) (b : Bool) (r : Record) :
    (t.setRecord h b r).rootNode = t.rootNode := rfl

@[simp] theorem Tree.setRecord_ipVersion (t : Tree) (h : Nat) (b : Bool) (r : Record) :
    (t.setRecord h b r).ipVersion = t.ipVersion := rfl

@[simp] theorem Tree.setRecord_dataHash (t : Tree) (h : Nat) (b : Bool) (r : Record) :
    (t.setRecord h b r).dataHash = t.dataHash := rfl

@[simp] theorem Tree.setRecord_refs (t : Tree) (h : Nat) (b : Bool) (r : Record) :
    (t.setRecord h b r).refs = t.refs := rfl

/-- Two trees with the same node graph: the same nodes, allocation frontier, root and IP
    version.  What `insert_network` changes beside the graph (references, the data hash, the
    finalized flag) is not part of it. -/
structure Tree.SameGraph (t t' : Tree) : Prop where
  nodes_eq : t.nodes = t'.nodes
  nextNode_eq : t.nextNode = t'.nextNode
  rootNode_eq : t.rootNode = t'.rootNode
  ipVersion_eq : t.ipVersion = t'.ipVersion

/-- A record after a write: the written one at the written place, the old one elsewhere. -/
theorem Tree.setRecord_side (t : Tree) (h g : Nat) (b c : Bool) (r : Record) :
    ((t.setRecord h b r).nodes g).side c = if g = h ∧ b = c then r else (t.nodes g).side c := by
  by_cases hg : g = h
  · subst hg; simp
  · simp [hg]

/-- Writing back the record that is already there changes nothing. -/
theorem Tree.setRecord_self (t : Tree) (h : Nat) (b : Bool) :
    t.setRecord h b ((t.nodes h).side b) = t := by
  simp [Tree.setRecord]

/-- `default_nodes_per_alloc`, 2^18. -/
def defaultNodesPerAlloc : Nat := 262144

/-- `new_node`.  When `next_node` has caught up with `allocated_nodes` the pool is
    `realloc`ed to `nodes_per_alloc * node_size` bytes (the new size does not grow with the
    pool) and `allocated_nodes` grows by `nodes_per_alloc`.  The node is initialised to
    `number = 0` and two `EMPTY` records, and its handle is the old `next_node`.
    (`realloc` failing aborts the process; that is not modelled.) -/
def newNode (t : Tree) : Tree × Nat :=
  let t := if t.allocatedNodes ≤ t.nextNode then
      { t with poolCapacity := t.nodesPerAlloc,
               allocatedNodes := t.allocatedNodes + t.nodesPerAlloc }
    else t
  ({ t with nodes := Function.update t.nodes t.nextNode Node.blank,
            nextNode := t.nextNode + 1 }, t.nextNode)

@[simp] theorem newNode_snd (t : Tree) : (newNode t).2 = t.nextNode := by
  unfold newNode; split <;> rfl

@[simp] theorem newNode_nextNode (t : Tree) : (newNode t).1.nextNode = t.nextNode + 1 := by
  unfold newNode; split <;> rfl

@[simp] theorem newNode_rootNode (t : Tree) : (newNode t).1.rootNode = t.rootNode := by
  unfold newNode; split <;> rfl

@[simp] theorem newNode_ipVersion (t : Tree) : (newNode t).1.ipVersion = t.ipVersion := by
  unfold newNode; split <;> rfl

@[simp] theorem newNode_dataHash (t : Tree) : (newNode t).1.dataHash = t.dataHash := by
  unfold newNode; split <;> rfl

@[simp] theorem newNode_refs (t : Tree) : (newNode t).1.refs = t.refs := by
  unfold newNode; split <;> rfl

theorem newNode_nodes (t : Tree) (g : Nat) :
    (newNode t).1.nodes g = if g = t.nextNode then Node.blank else t.nodes g := by
  unfold newNode; split <;> simp [Function.update_apply]

/-- `new_tree`.  `node_count` is left uninitialised by the C code and first read after
    `assign_node_numbers` has set it; it starts at 0 here. -/
def newTree (ipVersion recordSize nodesPerAlloc : Nat) : Tree :=
  let t : Tree :=
    { ipVersion, recordSize,
      dataHash := .empty, refs := fun _ => 0, nodes := fun _ => Node.blank,
      nextNode := 0, allocatedNodes := 0,
      nodesPerAlloc := if nodesPerAlloc > 0 then nodesPerAlloc else defaultNodesPerAlloc,
      poolCapacity := 0, rootNode := 0, isFinalized := false, nodeCount := 0 }
  let (t, root) := newNode t
  { t with rootNode := root }

@[simp] theorem newTree_rootNode (ipVersion recordSize nodesPerAlloc : Nat) :
    (newTree ipVersion recordSize nodesPerAlloc).rootNode = 0 := rfl

@[simp] theorem newTree_nextNode (ipVersion recordSize nodesPerAlloc : Nat) :
    (newTree ipVersion recordSize nodesPerAlloc).nextNode = 1 := rfl

@[simp] theorem newTree_ipVersion (ipVersion recordSize nodesPerAlloc : Nat) :
    (newTree ipVersion recordSize nodesPerAlloc).ipVersion = ipVersion := rfl

/-- Every record of a new tree is `EMPTY`. -/
@[simp] theorem newTree_side (ipVersion recordSize nodesPerAlloc g : Nat) (b : Bool) :
    ((newTree ipVersion recordSize nodesPerAlloc).nodes g).side b = .empty := by
  simp only [newTree, newNode]
  split <;> simp [Function.update_apply]

/-! ## The pool's bookkeeping -/

/-- Where the node `new_node` hands out as handle `h` starts, counted in `MMDBW_node_s` from
    the start of `node_pool`: the code adds `next_node * node_size` to an `MMDBW_node_s *`, so
    the byte size `node_size = sizeof(MMDBW_node_s)` scales the offset a second time. -/
def slotOffset (nodeSize h : Nat) : Nat := h * nodeSize

/-- `k` further calls of `new_node`. -/
def newNodes (t : Tree) : Nat → Tree
  | 0 => t
  | k + 1 => (newNode (newNodes t k)).1

/-- Up to the `P`-th call, the first chunk of `P` nodes serves every call. -/
theorem newNodes_newTree (ipVersion recordSize P : Nat) (hP : 1 ≤ P) :
    ∀ k, k + 1 ≤ P →
      let t := newNodes (newTree ipVersion recordSize P) k
      t.nextNode = k + 1 ∧ t.allocatedNodes = P ∧ t.poolCapacity = P ∧ t.nodesPerAlloc = P := by
  intro k
  induction k with
  | zero => intro _; simp [newNodes, newTree, newNode, hP, Nat.pos_iff_ne_zero.mp hP]
  | succ k ih =>
    intro hk
    obtain ⟨h1, h2, h3, h4⟩ := ih (by omega)
    simp only [newNodes, newNode] at h1 h2 h3 h4 ⊢
    rw [if_neg (by omega)]
    exact ⟨by simp [h1], h2, h3, h4⟩

/-- The `(P + 1)`-th call of `new_node`, for `nodes_per_alloc = P`: the pool is `realloc`ed to
    the same `P` nodes while `allocated_nodes` becomes `2 * P`, and the slot handed out starts
    `P * node_size` nodes into a buffer of `P`. -/
theorem new_node_slot_outside_pool (ipVersion recordSize P nodeSize : Nat) (hP : 1 ≤ P)
    (hs : 1 ≤ nodeSize) :
    let call := newNode (newNodes (newTree ipVersion recordSize P) (P - 1))
    call.2 = P ∧ call.1.poolCapacity = P ∧ call.1.allocatedNodes = 2 * P ∧
      call.1.poolCapacity < slotOffset nodeSize call.2 + 1 := by
  obtain ⟨h1, h2, -, h4⟩ := newNodes_newTree ipVersion recordSize P hP (P - 1) (by omega)
  simp only [newNode]
  rw [if_pos (by omega)]
  simp only [h1, h2, h4, slotOffset]
  refine ⟨by omega, trivial, by omega, ?_⟩
  have : P ≤ (P - 1 + 1) * nodeSize := by
    rw [Nat.sub_add_cancel hP]; exact Nat.le_mul_of_pos_right P hs
  omega

/-- With one node per allocation, the second call of `new_node` already hands out a slot
    outside the buffer, whatever the size of a node. -/
theorem new_node_second_slot_outside_pool :
    1 ≤ 1 ∧ 1 ≤ 40 ∧
      let call := newNode (newNodes (newTree 4 24 1) (1 - 1))
      call.2 = 1 ∧ call.1.poolCapacity = 1 ∧ call.1.allocatedNodes = 2 * 1 ∧
        call.1.poolCapacity < slotOffset 40 call.2 + 1 :=
  ⟨by decide, by decide, new_node_slot_outside_pool 4 24 1 40 (by decide) (by decide)⟩

end MMDBW
