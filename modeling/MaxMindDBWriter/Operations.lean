/-
  The prefix operations of `tree.c`: `insert_record_for_network` with its sibling merge,
  `insert_network`, `delete_network` / `tree_has_network`, `delete_reserved_networks`,
  `alias_ipv4_networks` and `lookup_ip_address`.

  `insert_record_for_network` calls itself on the parent network (mask one shorter) whenever
  the sibling of the record it is about to write is `DATA` with a byte-equal key.  Nothing in
  the C code bounds that recursion: the mask is a `uint8_t`, and from the root (/1, then /0)
  it wraps to /255 and comes back down to the full address length, where the descent goes
  deep again.  The model therefore takes a `fuel` bound on the recursion depth and returns
  `none` when it runs out; a call of the C function that returns is one that some fuel
  completes (`insertRecordForNetwork_mono` says more fuel does not change the answer).

  The record written at the end of each level goes to the node the descent of THAT level
  found (`record_to_set` is a pointer into it); deeper levels of the recursion may have
  detached that node from the tree by then.
-/
import MaxMindDBWriter.Descent

namespace MMDBW

/-! ## `insert_record_for_network` -/

/-- `parent_network`: the same address with a mask one bit shorter (`uint8_t` arithmetic, so
    the parent of a /0 is a /255). -/
def Network.parent (network : Network) : Network :=
  { network with maskLength := network.maskLength - 1 }

@[simp] theorem Network.parent_bit (network : Network) : network.parent.bit = network.bit := rfl

@[simp] theorem Network.parent_bits (network : Network) : network.parent.bits = network.bits := rfl

@[simp] theorem Network.parent_maxDepth0 (network : Network) :
    network.parent.maxDepth0 = network.maxDepth0 := rfl

theorem UInt8.toNat_sub_one (m : UInt8) : (m - 1).toNat = (m.toNat + 255) % 256 := by
  show (m.toBitVec - (1 : UInt8).toBitVec).toNat = _
  rw [BitVec.toNat_sub]
  have : m.toBitVec.toNat < 256 := m.toBitVec.isLt
  show (2 ^ 8 - 1 + m.toBitVec.toNat) % 2 ^ 8 = (m.toBitVec.toNat + 255) % 256
  omega

/-- One level up the merge recursion, the descent is one bit shorter; at the root it stays at
    the root, except for the wrap from /(max_depth + 1) to /max_depth. -/
theorem Network.depth_parent (network : Network) (h : 1 ≤ network.depth) :
    network.parent.depth = network.depth - 1 := by
  have hm : network.maskLength.toNat < 256 := network.maskLength.toBitVec.isLt
  have hp : network.parent.maskLength.toNat = (network.maskLength.toNat + 255) % 256 :=
    UInt8.toNat_sub_one _
  have hd := Network.depth_eq network
  have hpd := Network.depth_eq network.parent
  rw [hp, Network.parent_maxDepth0] at hpd
  split at hd <;> split at hpd <;> omega

/-- The merge test of `insert_record_for_network`: the new record and the other record of the
    node are both `DATA`, and their keys have the same length and bytes. -/
def sameDataKey (newRecord otherRecord : Record) : Bool :=
  match newRecord, otherRecord with
  | .data newKey, .data otherKey => newKey.pv == otherKey.pv
  | _, _ => false

/-- `insert_record_for_network`, its recursion bounded by `fuel`.  The descent materialises the
    path; if the sibling of the record to set has the new record's key, the record is first
    inserted for the parent network; then the record is written into the node this level's
    descent found. -/
def insertRecordForNetwork : Nat → Tree → Network → Record → Option Tree
  | 0, _, _, _ => none
  | fuel + 1, t, network, newRecord =>
    let (t, nodeToSet, currentBit) := findNodeForNetwork t network .makeNextNode
    let isRight := networkBitValue network currentBit
    let merged : Option Tree :=
      if sameDataKey newRecord ((t.nodes nodeToSet).side !isRight) then
        insertRecordForNetwork fuel t network.parent newRecord
      else some t
    merged.map fun t => t.setRecord nodeToSet isRight newRecord

/-- One level of `insert_record_for_network` in terms of the materialising descent along the
    first `depth` bits: the record to set is selected by bit `depth`. -/
theorem insertRecordForNetwork_succ (fuel : Nat) (t : Tree) (network : Network)
    (newRecord : Record) :
    insertRecordForNetwork (fuel + 1) t network newRecord =
      let d := t.materialize t.rootNode (network.bits network.depth)
      (if sameDataKey newRecord ((d.1.nodes d.2).side !(network.bit network.depth)) then
          insertRecordForNetwork fuel d.1 network.parent newRecord
        else some d.1).map fun t' => t'.setRecord d.2 (network.bit network.depth) newRecord := by
  rw [insertRecordForNetwork, findNodeForNetwork_makeNextNode]
  dsimp only
  rw [networkBitValue_eq_bit network (Nat.sub_le _ _), Nat.sub_sub_self (Network.depth_le _)]

/-- What a level of `insert_record_for_network` that returned did: it materialised the path of
    its network; then either the sibling had the new key and the call for the parent network
    returned `t₁`, or it had not and `t₁` is the materialised tree; last, it wrote the record
    into the node its own descent found. -/
theorem insertRecordForNetwork_some {fuel : Nat} {t t' : Tree} {network : Network}
    {r : Record} (h : insertRecordForNetwork (fuel + 1) t network r = some t') :
    let d := t.materialize t.rootNode (network.bits network.depth)
    ∃ t₁, (sameDataKey r ((d.1.nodes d.2).side !(network.bit network.depth)) = true ∧
          insertRecordForNetwork fuel d.1 network.parent r = some t₁ ∨
        sameDataKey r ((d.1.nodes d.2).side !(network.bit network.depth)) = false ∧ t₁ = d.1) ∧
      t' = t₁.setRecord d.2 (network.bit network.depth) r := by
  rw [insertRecordForNetwork_succ] at h
  dsimp only at h ⊢
  split at h
  · obtain ⟨t₁, h₁, rfl⟩ := Option.map_eq_some'.mp h
    exact ⟨t₁, .inl ⟨‹_›, h₁⟩, rfl⟩
  · cases h
    exact ⟨_, .inr ⟨Bool.eq_false_iff.mpr ‹_›, rfl⟩, rfl⟩

/-- More fuel does not change the result of a call that returned. -/
theorem insertRecordForNetwork_mono {fuel : Nat} {t t' : Tree} {network : Network}
    {r : Record} (h : insertRecordForNetwork fuel t network r = some t') :
    insertRecordForNetwork (fuel + 1) t network r = some t' := by
  induction fuel generalizing t network t' with
  | zero => simp [insertRecordForNetwork] at h
  | succ fuel ih =>
    rw [insertRecordForNetwork_succ] at h ⊢
    dsimp only at h ⊢
    split at h
    · obtain ⟨a, ha, rfl⟩ := Option.map_eq_some'.mp h
      rw [if_pos ‹_›, ih ha]
      rfl
    · rwa [if_neg ‹_›]

/-- The merge recursion writes records only: the data hash is left as it was. -/
theorem insertRecordForNetwork_dataHash {fuel : Nat} {t t' : Tree} {network : Network}
    {r : Record} (h : insertRecordForNetwork fuel t network r = some t') : t'.dataHash = t.dataHash := by
  induction fuel generalizing t network t' with
  | zero => simp [insertRecordForNetwork] at h
  | succ fuel ih =>
    obtain ⟨t₁, h₁ | ⟨-, rfl⟩, rfl⟩ := insertRecordForNetwork_some h
    · rw [Tree.setRecord_dataHash, ih h₁.2, Tree.materialize_dataHash]
    · simp

theorem insertRecordForNetwork_refs {fuel : Nat} {t t' : Tree} {network : Network}
    {r : Record} (h : insertRecordForNetwork fuel t network r = some t') : t'.refs = t.refs := by
  induction fuel generalizing t network t' with
  | zero => simp [insertRecordForNetwork] at h
  | succ fuel ih =>
    obtain ⟨t₁, h₁ | ⟨-, rfl⟩, rfl⟩ := insertRecordForNetwork_some h
    · rw [Tree.setRecord_refs, ih h₁.2, Tree.materialize_refs]
    · simp

/-- An `EMPTY` record is never merged, so one level always completes. -/
theorem insertRecordForNetwork_empty (t : Tree) (network : Network) :
    insertRecordForNetwork 1 t network .empty =
      let d := t.materialize t.rootNode (network.bits network.depth)
      some (d.1.setRecord d.2 (network.bit network.depth) .empty) := by
  rw [insertRecordForNetwork_succ]
  rfl

/-! ## Inserting, deleting and looking up -/

/-- Take one more reference on a scalar (`SvREFCNT_inc`). -/
def incRef (refs : SV → Nat) (sv : SV) : SV → Nat := Function.update refs sv (refs sv + 1)

/-- Release one reference on a scalar (`SvREFCNT_dec`). -/
def decRef (refs : SV → Nat) (sv : SV) : SV → Nat := Function.update refs sv (refs sv - 1)

/-- The hash after `data` is stored under the key bytes `p`: a new entry if it held none. -/
def DataHash.store (h : DataHash) (p : List UInt8) (data : SV) : DataHash :=
  ⟨Function.update h.fetch p (some data), if p ∈ h.keys then h.keys else p :: h.keys⟩

/-- `hv_store_ent(tree->data_hash, key, data, 0)`: `data` is stored under the bytes of `key`.
    The hash owns the reference it is handed, and releases the one it held on the value it
    replaces. -/
def hvStoreEnt (t : Tree) (key data : SV) : Tree :=
  { t with refs := (match t.dataHash.fetch key.pv with
                    | some old => decRef t.refs old
                    | none => t.refs),
           dataHash := t.dataHash.store key.pv data }

/-- `insert_network`: `-1` for an IPv6 network in an IPv4 tree; otherwise the key and the data
    each get one more reference, the data is stored under the key's string, the `DATA` record
    is inserted, and the finalized flag is cleared. -/
def insertNetwork (fuel : Nat) (t : Tree) (lit : IpLiteral) (maskLength : UInt8)
    (key data : SV) : Option (Int × Tree) :=
  let network := resolveNetwork t lit maskLength
  if t.ipVersion = 4 ∧ network.family = .inet6 then some (-1, t)
  else
    let t := hvStoreEnt { t with refs := incRef (incRef t.refs key) data } key data
    (insertRecordForNetwork fuel t network (.data key)).map
      fun t => (0, { t with isFinalized := false })

/-- What a returning `insert_network` did: it refused an IPv6 network in an IPv4 tree with `-1`,
    or it took the references, stored the data and inserted the `DATA` record, answering `0`. -/
theorem insertNetwork_some {fuel : Nat} {t t' : Tree} {lit : IpLiteral} {maskLength : UInt8}
    {key data : SV} {result : Int} (h : insertNetwork fuel t lit maskLength key data = some (result, t')) :
    (t.ipVersion = 4 ∧ (resolveNetwork t lit maskLength).family = .inet6 ∧ result = -1 ∧ t' = t) ∨
    (¬ (t.ipVersion = 4 ∧ (resolveNetwork t lit maskLength).family = .inet6) ∧ result = 0 ∧
      ∃ t₀ t₁, t₀.SameGraph t ∧
        insertRecordForNetwork fuel t₀ (resolveNetwork t lit maskLength) (.data key) = some t₁ ∧
        t'.SameGraph t₁) := by
  unfold insertNetwork at h
  dsimp only at h
  split at h
  · rename_i hrej
    cases h
    exact .inl ⟨hrej.1, hrej.2, rfl, rfl⟩
  · obtain ⟨t₁, h₁, h₂⟩ := Option.map_eq_some'.mp h
    cases h₂
    exact .inr ⟨‹_›, rfl, _, t₁, by exact ⟨rfl, rfl, rfl, rfl⟩, h₁, ⟨rfl, rfl, rfl, rfl⟩⟩

/-- A call of `insert_network` whose answer is known returned a tree. -/
theorem insertNetwork_returns {fuel : Nat} {t : Tree} {lit : IpLiteral} {maskLength : UInt8}
    {key data : SV} {result : Int}
    (h : (insertNetwork fuel t lit maskLength key data).map Prod.fst = some result) :
    ∃ t', insertNetwork fuel t lit maskLength key data = some (result, t') := by
  obtain ⟨⟨r, t'⟩, h₁, rfl⟩ := Option.map_eq_some'.mp h
  exact ⟨t', h₁⟩

/-- An accepted `insert_network` stores the data under the key's bytes. -/
theorem insertNetwork_dataHash {fuel : Nat} {t t' : Tree} {lit : IpLiteral} {maskLength : UInt8}
    {key data : SV} (h : insertNetwork fuel t lit maskLength key data = some (0, t')) :
    t'.dataHash.fetch key.pv = some data := by
  unfold insertNetwork at h
  dsimp only at h
  split at h
  · simp at h
  · obtain ⟨t₁, h₁, h₂⟩ := Option.map_eq_some'.mp h
    cases h₂
    simp [insertRecordForNetwork_dataHash h₁, hvStoreEnt, DataHash.store]

/-- What an accepted `insert_network` does to the data hash: the data is stored under the key's
    bytes, and nothing else changes. -/
theorem insertNetwork_dataHash_eq {fuel : Nat} {t t' : Tree} {lit : IpLiteral} {maskLength : UInt8}
    {key data : SV} {result : Int} (h : insertNetwork fuel t lit maskLength key data = some (result, t'))
    (hacc : ¬ (t.ipVersion = 4 ∧ (resolveNetwork t lit maskLength).family = .inet6)) :
    t'.dataHash.fetch = Function.update t.dataHash.fetch key.pv (some data) := by
  unfold insertNetwork at h
  dsimp only at h
  rw [if_neg hacc] at h
  obtain ⟨t₁, h₁, h₂⟩ := Option.map_eq_some'.mp h
  cases h₂
  exact congrArg DataHash.fetch (insertRecordForNetwork_dataHash h₁)

/-- Splitting a `DATA` record copies its key into two records without taking a reference: after
    `0.0.0.0/1 → k` and `0.0.0.0/3 → k'`, two distinct reachable nodes hold `DATA k` while the
    tree took one reference on `k`. -/
theorem makeNextNode_copies_key :
    ∃ t₁ t₂, insertNetwork 1 (newTree 4 24 0) (v4 0 0 0 0) 1 ⟨1, [65]⟩ ⟨2, [97]⟩ = some (0, t₁) ∧
      insertNetwork 1 t₁ (v4 0 0 0 0) 3 ⟨3, [66]⟩ ⟨4, [98]⟩ = some (0, t₂) ∧
      t₂.refs ⟨1, [65]⟩ = 1 ∧
      t₂.select t₂.rootNode [false] = .node 1 ∧ t₂.select t₂.rootNode [false, false] = .node 2 ∧
      (t₂.nodes 1).rightRecord = .data ⟨1, [65]⟩ ∧ (t₂.nodes 2).rightRecord = .data ⟨1, [65]⟩ :=
  ⟨_, _, rfl, rfl, by decide⟩

/-- `tree_has_network`: whether the record a halting descent selects is not `EMPTY` (the tree
    is returned too: the C descent writes to it). -/
def treeHasNetwork (t : Tree) (network : Network) : Tree × Bool :=
  let (t, nodeToCheck, currentBit) := findNodeForNetwork t network .returnNull
  (t, (t.nodes nodeToCheck).side (networkBitValue network currentBit) != .empty)

/-- `tree_has_network` leaves the tree as it was, and tests the record the halting descent
    selects. -/
theorem treeHasNetwork_eq (t : Tree) (network : Network) :
    treeHasNetwork t network =
      (t, t.select t.rootNode (network.bits (network.depth + 1)) != .empty) := by
  obtain ⟨h₁, h₂⟩ := findNodeForNetwork_returnNull t network
  unfold treeHasNetwork
  dsimp only at h₁ h₂ ⊢
  rw [← h₂, h₁]

/-- `delete_network`: nothing for an IPv6 network in an IPv4 tree or when the tree has no
    record for the network; otherwise an `EMPTY` record is inserted for it.  The finalized flag
    is left as it is. -/
def deleteNetwork (t : Tree) (lit : IpLiteral) (maskLength : UInt8) : Tree :=
  let network := resolveNetwork t lit maskLength
  if t.ipVersion = 4 ∧ network.family = .inet6 then t
  else
    let (t, has) := treeHasNetwork t network
    if has then (insertRecordForNetwork 1 t network .empty).getD t else t

/-- What `delete_network` did: nothing (and then, for a network it accepts, the halting descent
    already ended on `EMPTY`), or a one-level `insert_record_for_network` of `EMPTY`. -/
theorem deleteNetwork_cases (t : Tree) (lit : IpLiteral) (maskLength : UInt8) :
    let network := resolveNetwork t lit maskLength
    (deleteNetwork t lit maskLength = t ∧ (¬ (t.ipVersion = 4 ∧ network.family = .inet6) →
        t.select t.rootNode (network.bits (network.depth + 1)) = .empty)) ∨
      insertRecordForNetwork 1 t network .empty = some (deleteNetwork t lit maskLength) := by
  unfold deleteNetwork
  dsimp only
  split
  · exact .inl ⟨rfl, fun h => absurd ‹_› h⟩
  · rw [treeHasNetwork_eq]
    dsimp only
    by_cases he : t.select t.rootNode ((resolveNetwork t lit maskLength).bits
        ((resolveNetwork t lit maskLength).depth + 1)) = .empty
    · exact .inl ⟨by simp [he], fun _ => he⟩
    · right
      rw [if_pos (by simpa using he), insertRecordForNetwork_empty]
      rfl

/-- `delete_network` writes records only: the data hash is left as it was. -/
theorem deleteNetwork_dataHash (t : Tree) (lit : IpLiteral) (maskLength : UInt8) :
    (deleteNetwork t lit maskLength).dataHash = t.dataHash := by
  rcases deleteNetwork_cases t lit maskLength with ⟨he, -⟩ | h
  · rw [he]
  · exact insertRecordForNetwork_dataHash h

/-- Nor does it release or take a reference. -/
theorem deleteNetwork_refs (t : Tree) (lit : IpLiteral) (maskLength : UInt8) :
    (deleteNetwork t lit maskLength).refs = t.refs := by
  rcases deleteNetwork_cases t lit maskLength with ⟨he, -⟩ | h
  · rw [he]
  · exact insertRecordForNetwork_refs h

/-- `ipv4_reserved`. -/
def ipv4Reserved : List (IpLiteral × UInt8) :=
  [(v4 0 0 0 0, 8), (v4 10 0 0 0, 8), (v4 100 64 0 0, 10), (v4 127 0 0 0, 8),
   (v4 169 254 0 0, 16), (v4 172 16 0 0, 12), (v4 192 0 0 0, 29), (v4 192 0 2 0, 24),
   (v4 192 88 99 0, 24), (v4 192 168 0 0, 16), (v4 198 18 0 0, 15), (v4 198 51 100 0, 24),
   (v4 224 0 0 0, 4), (v4 240 0 0 0, 4)]

/-- `ipv6_reserved`: `100::/64`, `2001::/23`, `2001:db8::/32`, `fc00::/7`, `fe80::/10`,
    `ff00::/8`. -/
def ipv6Reserved : List (IpLiteral × UInt8) :=
  [(v6Prefix 0x01 0x00, 64), (v6Prefix 0x20 0x01, 23),
   (.v6 ([0x20, 0x01, 0x0d, 0xb8] ++ List.replicate 12 0) (by simp), 32),
   (v6Prefix 0xfc 0x00, 7), (v6Prefix 0xfe 0x80, 10), (v6Prefix 0xff 0x00, 8)]

/-- `delete_reserved_networks`: in an IPv6 tree the IPv4 ranges are deleted in their
    v4-mapped form, with 96 added to the mask. -/
def deleteReservedNetworks (t : Tree) : Tree :=
  if t.ipVersion = 4 then
    ipv4Reserved.foldl (fun t e => deleteNetwork t e.1 e.2) t
  else
    let t := ipv4Reserved.foldl (fun t e => deleteNetwork t e.1 (e.2 + 96)) t
    ipv6Reserved.foldl (fun t e => deleteNetwork t e.1 e.2) t

/-- `"::0.0.0.0"`. -/
def ipv4RootLiteral : IpLiteral := .v6 (List.replicate 16 0) (by simp)

/-- `ipv4_aliases`: `::ffff:0:0/95` and `2002::/16`. -/
def ipv4Aliases : List (IpLiteral × UInt8) :=
  [(.v6 (List.replicate 10 0 ++ [0xff, 0xff, 0, 0, 0, 0]) (by simp), 95), (v6Prefix 0x20 0x02, 16)]

/-- `alias_ipv4_networks`: in an IPv6 tree whose halting descent for `::0.0.0.0/96` consumes
    all its 95 steps (`current_bit = 32`), the record selected at the end of a materialising
    descent for each alias network is pointed at the node that descent reached. -/
def aliasIpv4Networks (t : Tree) : Tree :=
  if t.ipVersion = 4 then t
  else
    let ipv4RootNetwork := resolveNetwork t ipv4RootLiteral 96
    let (t, ipv4RootNode, currentBit) := findNodeForNetwork t ipv4RootNetwork .returnNull
    if 32 ≠ currentBit then t
    else
      ipv4Aliases.foldl (fun t e =>
        let aliasNetwork := resolveNetwork t e.1 e.2
        let (t, lastNodeForAlias, currentBit) := findNodeForNetwork t aliasNetwork .makeNextNode
        t.setRecord lastNodeForAlias (networkBitValue aliasNetwork currentBit)
          (.node ipv4RootNode)) t

/-- `alias_ipv4_networks` of an IPv6 tree in terms of the path-level descents: the halting
    descent for `::/96`, and for each alias network a materialising descent along its first
    `depth` bits whose last node gets a `NODE` record to the IPv4 root. -/
theorem aliasIpv4Networks_eq (t : Tree) (h6 : t.ipVersion ≠ 4) :
    aliasIpv4Networks t =
      let r := findNodeForNetwork t (resolveNetwork t ipv4RootLiteral 96) .returnNull
      if 32 ≠ r.2.2 then t
      else ipv4Aliases.foldl (fun t e =>
        let m := t.materialize t.rootNode ((resolveNetwork t e.1 e.2).bits (resolveNetwork t e.1 e.2).depth)
        m.1.setRecord m.2 ((resolveNetwork t e.1 e.2).bit (resolveNetwork t e.1 e.2).depth)
          (.node r.2.1)) t := by
  obtain ⟨h₁, -⟩ := findNodeForNetwork_returnNull t (resolveNetwork t ipv4RootLiteral 96)
  rw [aliasIpv4Networks, if_neg h6]
  dsimp only at h₁ ⊢
  rcases hr : findNodeForNetwork t (resolveNetwork t ipv4RootLiteral 96) .returnNull with
    ⟨t', R, cb⟩
  rw [hr] at h₁
  subst h₁
  simp only [findNodeForNetwork_makeNextNode,
    networkBitValue_eq_bit _ (Nat.sub_le _ _), Nat.sub_sub_self (Network.depth_le _)]

/-- `data_for_key`: the value stored under the key's string; `undef` (`none`) if none is. -/
def dataForKey (t : Tree) (key : SV) : Option SV := t.dataHash.fetch key.pv

/-- How `lookup_ip_address` fails: it croaks
    `"WTF - found a node record for an address lookup - %s - current_bit = %i"` when the
    record its descent selects is a `NODE` record. -/
inductive LookupError where
  | foundNodeRecord (currentBit : Nat)
deriving DecidableEq, Repr

/-- The network `lookup_ip_address` builds for an address: a /32 in an IPv4 tree, a /128
    otherwise. -/
def hostNetwork (t : Tree) (lit : IpLiteral) : Network :=
  resolveNetwork t lit (if t.ipVersion = 6 then 128 else 32)

/-- `lookup_ip_address`: a halting descent for the address as a /32 (IPv4 tree) or /128
    (otherwise); `undef` for `EMPTY`, a copy of the key's data for `DATA`. -/
def lookupIpAddress (t : Tree) (lit : IpLiteral) : Tree × Except LookupError (Option SV) :=
  let network := hostNetwork t lit
  let (t, node, currentBit) := findNodeForNetwork t network .returnNull
  match (t.nodes node).side (networkBitValue network currentBit) with
  | .node _ => (t, .error (.foundNodeRecord currentBit))
  | .empty => (t, .ok none)
  | .data key => (t, .ok (dataForKey t key))

/-- The record `lookup_ip_address` reads for an address: the one its halting descent selects. -/
def lookupRecord (t : Tree) (lit : IpLiteral) : Record :=
  let r := findNodeForNetwork t (hostNetwork t lit) .returnNull
  (r.1.nodes r.2.1).side (networkBitValue (hostNetwork t lit) r.2.2)

theorem hostNetwork_congr {t t' : Tree} (h : t'.ipVersion = t.ipVersion) (lit : IpLiteral) :
    hostNetwork t' lit = hostNetwork t lit := by
  unfold hostNetwork
  rw [resolveNetwork_congr h, h]

/-- In an IPv4 or IPv6 tree the host network's descent runs over all the tree's address bits
    but the last, whatever the literal's family. -/
theorem hostNetwork_depth (t : Tree) (lit : IpLiteral) (h : t.ipVersion = 4 ∨ t.ipVersion = 6) :
    (hostNetwork t lit).depth = t.maxDepth0 := by
  rw [Network.depth_eq]
  rcases h with h | h <;> cases lit <;> simp [hostNetwork, resolveNetwork, Tree.maxDepth0, h, UInt8.size]

/-- The record `lookup_ip_address` reads is the halting descent's record along all the bits
    the host network's descent reads. -/
theorem lookupRecord_eq_select (t : Tree) (lit : IpLiteral) :
    lookupRecord t lit =
      t.select t.rootNode ((hostNetwork t lit).bits ((hostNetwork t lit).depth + 1)) := by
  obtain ⟨h₁, h₂⟩ := findNodeForNetwork_returnNull t (hostNetwork t lit)
  unfold lookupRecord
  dsimp only at h₁ h₂ ⊢
  rw [h₁]
  exact h₂

/-- `lookup_ip_address` leaves the tree as it was, and answers from the record it reads:
    the croak for `NODE`, `undef` for `EMPTY`, the key's data for `DATA`. -/
theorem lookupIpAddress_eq (t : Tree) (lit : IpLiteral) :
    (lookupIpAddress t lit).1 = t ∧
      (lookupIpAddress t lit).2 = match lookupRecord t lit with
        | .node _ => .error (.foundNodeRecord (findNodeForNetwork t (hostNetwork t lit) .returnNull).2.2)
        | .empty => .ok none
        | .data key => .ok (dataForKey t key) := by
  have h := (findNodeForNetwork_returnNull t (hostNetwork t lit)).1
  unfold lookupIpAddress lookupRecord
  rcases hr : findNodeForNetwork t (hostNetwork t lit) .returnNull with ⟨t', node, cb⟩
  rw [hr] at h
  subst h
  dsimp only
  split <;> simp_all

/-- A halting descent that ends on a `NODE` record made all its steps: the returned
    `current_bit` is `max_depth0 - depth`. -/
theorem findNodeForNetwork_returnNull_currentBit (t : Tree) (network : Network) {c : Nat}
    (h : t.select t.rootNode (network.bits (network.depth + 1)) = .node c) :
    (findNodeForNetwork t network .returnNull).2.2 = network.maxDepth0 - network.depth := by
  obtain ⟨j, hj, -, hcb, hstop⟩ := findNodeForNetwork_returnNull_node t network
  rw [hcb]
  rcases Nat.lt_or_ge j network.depth with hlt | hge
  · -- it stopped early, on a record that is not `NODE`, which the longer path ends on too
    obtain ⟨q, hq⟩ := network.bits_prefix (show j + 1 ≤ network.depth + 1 by omega)
    rw [← hq] at h
    cases hs : t.select t.rootNode (network.bits (j + 1)) with
    | node x => exact absurd hs (hstop hlt x)
    | empty | data => rw [t.select_append_of_ne_node hs (by simp)] at h; cases h
  · omega

/-- `lookup_ip_address` answers from the record it reads and the data hash alone. -/
theorem lookupIpAddress_congr {t t' : Tree} (hip : t'.ipVersion = t.ipVersion)
    (hd : t'.dataHash = t.dataHash) {lit : IpLiteral}
    (hr : lookupRecord t' lit = lookupRecord t lit) :
    (lookupIpAddress t' lit).2 = (lookupIpAddress t lit).2 := by
  rw [(lookupIpAddress_eq t' lit).2, (lookupIpAddress_eq t lit).2, hr]
  cases h : lookupRecord t lit with
  | node c =>
    have h' := hr.trans h
    rw [lookupRecord_eq_select] at h h'
    dsimp only
    rw [findNodeForNetwork_returnNull_currentBit t' _ h', findNodeForNetwork_returnNull_currentBit t _ h,
      hostNetwork_congr hip]
  | empty => rfl
  | data key => simp [dataForKey, hd]

/-- The reads leave the tree as they found it: `lookup_ip_address` of every address and
    `tree_has_network` of every network return it unchanged, and so does `delete_network` of a
    network whose halting descent ends on `EMPTY`. -/
theorem reads_keep_tree (t : Tree) (lit : IpLiteral) (network : Network) (maskLength : UInt8) :
    (lookupIpAddress t lit).1 = t ∧ (treeHasNetwork t network).1 = t ∧
      (t.select t.rootNode ((resolveNetwork t lit maskLength).bits
          ((resolveNetwork t lit maskLength).depth + 1)) = .empty →
        deleteNetwork t lit maskLength = t) := by
  refine ⟨(lookupIpAddress_eq t lit).1, by rw [treeHasNetwork_eq], fun he => ?_⟩
  unfold deleteNetwork
  dsimp only
  split
  · rfl
  · simp [treeHasNetwork_eq, he]

/-- `delete_network(10.0.0.0/8)` on an empty IPv4 tree changes nothing. -/
theorem reads_keep_tree_new :
    (newTree 4 24 0).select (newTree 4 24 0).rootNode
        ((resolveNetwork (newTree 4 24 0) (v4 10 0 0 0) 8).bits
          ((resolveNetwork (newTree 4 24 0) (v4 10 0 0 0) 8).depth + 1)) = .empty ∧
      deleteNetwork (newTree 4 24 0) (v4 10 0 0 0) 8 = newTree 4 24 0 :=
  ⟨by decide, (reads_keep_tree (newTree 4 24 0) (v4 10 0 0 0)
    (resolveNetwork (newTree 4 24 0) (v4 10 0 0 0) 8) 8).2.2 (by decide)⟩

/-- The record `lookup_ip_address` reads depends on the node graph only. -/
theorem Tree.SameGraph.lookupRecord_eq {t t' : Tree} (h : t.SameGraph t') (lit : IpLiteral) :
    lookupRecord t lit = lookupRecord t' lit := by
  rw [lookupRecord_eq_select, lookupRecord_eq_select, hostNetwork_congr h.ipVersion_eq,
    h.select_eq, h.rootNode_eq]

/-- Two records `lookup_ip_address` answers the same for: equal records, or `DATA` records
    whose keys have the same bytes (`data_for_key` looks the data up by those bytes). -/
def Record.sameValue : Record → Record → Bool
  | .data k, .data k' => k.pv == k'.pv
  | r, r' => r == r'

@[simp] theorem Record.sameValue_refl (r : Record) : r.sameValue r := by
  cases r <;> simp [Record.sameValue]

theorem Record.sameValue_trans {r₁ r₂ r₃ : Record} (h₁ : r₁.sameValue r₂) (h₂ : r₂.sameValue r₃) :
    r₁.sameValue r₃ := by
  cases r₁ <;> cases r₂ <;> cases r₃ <;> simp_all [Record.sameValue]

end MMDBW
