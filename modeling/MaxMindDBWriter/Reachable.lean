/-
  Runs of the tree.  A tree is reachable when a sequence of the public operations that change
  the node graph (`insert_network`, `delete_network`, `delete_reserved_networks`,
  `alias_ipv4_networks`), each allowed by a predicate on the tree it is applied to and the
  operation, builds it from `new_tree` with IP version 4 or 6.  An `insert_network` counts
  when it returns (some fuel completes its merge recursion, `insertRecordForNetwork`).

  Every reachable tree is an IPv4 or IPv6 tree with a well-formed node graph
  (`Reachable.valid`), and one built without `alias_ipv4_networks` also has a labelling of its
  nodes by their paths (`Reachable.labelled`).  Both are proved the same way: one lemma per
  operation saying what it keeps, then an induction over the run.  The lookups read only the
  node graph, so the bookkeeping the operations also change (references, the data hash, the
  finalized flag) plays no part here.
-/
import MaxMindDBWriter.Labelled

namespace MMDBW

/-! ## Operations and runs -/

/-- The operations of `tree.c` that change the node graph. -/
inductive Op where
  | insertNetwork (lit : IpLiteral) (maskLength : UInt8) (key data : SV)
  | deleteNetwork (lit : IpLiteral) (maskLength : UInt8)
  | deleteReservedNetworks
  | aliasIpv4Networks

/-- What an operation does to a tree. -/
inductive Op.Step : Op → Tree → Tree → Prop
  | insertNetwork {fuel : Nat} {t t' : Tree} {lit : IpLiteral} {maskLength : UInt8} {key data : SV}
      {result : Int} : MMDBW.insertNetwork fuel t lit maskLength key data = some (result, t') →
      Op.Step (.insertNetwork lit maskLength key data) t t'
  | deleteNetwork {t : Tree} {lit : IpLiteral} {maskLength : UInt8} :
      Op.Step (.deleteNetwork lit maskLength) t (MMDBW.deleteNetwork t lit maskLength)
  | deleteReservedNetworks {t : Tree} :
      Op.Step .deleteReservedNetworks t (MMDBW.deleteReservedNetworks t)
  | aliasIpv4Networks {t : Tree} : Op.Step .aliasIpv4Networks t (MMDBW.aliasIpv4Networks t)

/-- The trees built from a new IPv4 or IPv6 tree by operations that `allowed` admits in the tree
    they are applied to. -/
inductive Reachable (allowed : Tree → Op → Prop) : Tree → Prop
  | newTree (ipVersion recordSize nodesPerAlloc : Nat) : (ipVersion = 4 ∨ ipVersion = 6) →
      Reachable allowed (newTree ipVersion recordSize nodesPerAlloc)
  | step {t t' : Tree} {op : Op} : Reachable allowed t → allowed t op → op.Step t t' →
      Reachable allowed t'

theorem Reachable.mono {allowed allowed' : Tree → Op → Prop}
    (h : ∀ t op, allowed t op → allowed' t op) {t : Tree} (ht : Reachable allowed t) :
    Reachable allowed' t := by
  induction ht with
  | newTree v r n hv => exact .newTree v r n hv
  | step _ ha hs ih => exact .step ih (h _ _ ha) hs

/-- Every operation. -/
def anyOp (_ : Tree) (_ : Op) : Prop := True

/-- Every operation but `alias_ipv4_networks`. -/
def aliasFree (_ : Tree) (op : Op) : Prop := op ≠ .aliasIpv4Networks

/-- `insert_network` and `delete_network` only. -/
def insertOrDelete (_ : Tree) : Op → Prop
  | .insertNetwork .. | .deleteNetwork .. => True
  | _ => False

/-! ## What each operation keeps -/

theorem insertNetwork_wellFormed {fuel : Nat} {t t' : Tree} {lit : IpLiteral} {maskLength : UInt8}
    {key data : SV} {result : Int} (hw : t.WellFormed)
    (h : insertNetwork fuel t lit maskLength key data = some (result, t')) :
    t'.WellFormed ∧ t'.rootNode = t.rootNode ∧ t'.ipVersion = t.ipVersion := by
  rcases insertNetwork_some h with ⟨-, -, -, rfl⟩ | ⟨-, -, t₀, t₁, h₀, h₁, h'⟩
  · exact ⟨hw, rfl, rfl⟩
  · obtain ⟨w, root, ip, -, -⟩ := insertRecordForNetwork_spec (by simp) fuel _ _ _ (h₀.wellFormed hw) h₁
    exact ⟨h'.wellFormed w, by rw [h'.rootNode_eq, root, h₀.rootNode_eq],
      by rw [h'.ipVersion_eq, ip, h₀.ipVersion_eq]⟩

theorem deleteNetwork_wellFormed {t : Tree} (lit : IpLiteral) (maskLength : UInt8)
    (hw : t.WellFormed) : (deleteNetwork t lit maskLength).WellFormed ∧
      (deleteNetwork t lit maskLength).rootNode = t.rootNode ∧
      (deleteNetwork t lit maskLength).ipVersion = t.ipVersion := by
  rcases deleteNetwork_cases t lit maskLength with ⟨he, -⟩ | h
  · rw [he]; exact ⟨hw, rfl, rfl⟩
  · obtain ⟨w, root, ip, -, -⟩ := insertRecordForNetwork_spec (by simp) 1 _ _ _ hw h
    exact ⟨w, root, ip⟩

/-- `delete_reserved_networks` is a sequence of `delete_network` calls: it keeps whatever they
    keep. -/
theorem deleteReservedNetworks_induction (P : Tree → Prop)
    (hP : ∀ t lit maskLength, P t → P (deleteNetwork t lit maskLength)) {t : Tree} (ht : P t) :
    P (deleteReservedNetworks t) := by
  unfold deleteReservedNetworks
  split
  · exact List.foldlRecOn _ _ _ ht fun t' h _ _ => hP t' _ _ h
  · exact List.foldlRecOn _ _ _ (List.foldlRecOn _ _ _ ht fun t' h _ _ => hP t' _ _ h)
      fun t' h _ _ => hP t' _ _ h

theorem insertNetwork_labelled {fuel : Nat} {t t' : Tree} {lit : IpLiteral} {maskLength : UInt8}
    {key data : SV} {result : Int} {pos : Nat → List Bool} (hw : t.WellFormed) (hl : t.Labelled pos)
    (h : insertNetwork fuel t lit maskLength key data = some (result, t')) :
    ∃ pos', t'.Labelled pos' := by
  rcases insertNetwork_some h with ⟨-, -, -, rfl⟩ | ⟨-, -, t₀, t₁, h₀, h₁, h'⟩
  · exact ⟨pos, hl⟩
  · obtain ⟨pos', hl', -⟩ := insertRecordForNetwork_labelled (by simp) fuel _ pos _ _
      (h₀.wellFormed hw) (h₀.labelled hl) h₁
    exact ⟨pos', h'.labelled hl'⟩

theorem deleteNetwork_labelled {t : Tree} {pos : Nat → List Bool} (lit : IpLiteral)
    (maskLength : UInt8) (hw : t.WellFormed) (hl : t.Labelled pos) :
    ∃ pos', (deleteNetwork t lit maskLength).Labelled pos' := by
  rcases deleteNetwork_cases t lit maskLength with ⟨he, -⟩ | h
  · rw [he]; exact ⟨pos, hl⟩
  · obtain ⟨pos', hl', -⟩ := insertRecordForNetwork_labelled (by simp) 1 _ pos _ _ hw hl h
    exact ⟨pos', hl'⟩

/-! ## Invariants of every run -/

/-- What every reachable tree satisfies. -/
structure Tree.Valid (t : Tree) : Prop where
  ipVersion_eq : t.ipVersion = 4 ∨ t.ipVersion = 6
  wellFormed : t.WellFormed

theorem Tree.Valid.newTree {ipVersion : Nat} (recordSize nodesPerAlloc : Nat)
    (hv : ipVersion = 4 ∨ ipVersion = 6) : (newTree ipVersion recordSize nodesPerAlloc).Valid :=
  ⟨hv, ⟨by simp, fun _ _ _ _ hc => by simp at hc⟩⟩

/-- Every operation keeps the node graph well formed and the IP version as it was. -/
theorem Op.Step.wellFormed {op : Op} {t t' : Tree} (hs : op.Step t t') (hw : t.WellFormed) :
    t'.WellFormed ∧ t'.ipVersion = t.ipVersion := by
  cases hs with
  | insertNetwork h => exact (insertNetwork_wellFormed hw h).imp_right And.right
  | deleteNetwork => exact (deleteNetwork_wellFormed _ _ hw).imp_right And.right
  | deleteReservedNetworks =>
    exact (deleteReservedNetworks_induction
      (fun t' => t'.WellFormed ∧ t'.ipVersion = t.ipVersion)
      (fun _ _ _ ⟨w, ip⟩ => ⟨(deleteNetwork_wellFormed _ _ w).1,
        (deleteNetwork_wellFormed _ _ w).2.2.trans ip⟩) ⟨hw, rfl⟩)
  | aliasIpv4Networks => exact hw.aliasIpv4Networks.imp_right And.right

theorem Op.Step.valid {op : Op} {t t' : Tree} (hs : op.Step t t') (hv : t.Valid) : t'.Valid :=
  have key := hs.wellFormed hv.wellFormed
  ⟨key.2 ▸ hv.ipVersion_eq, key.1⟩

/-- Every reachable tree is an IPv4 or IPv6 tree with a well-formed node graph. -/
theorem Reachable.valid {allowed : Tree → Op → Prop} {t : Tree} (h : Reachable allowed t) :
    t.Valid := by
  induction h with
  | newTree _ r n hv => exact .newTree r n hv
  | step _ _ hs ih => exact hs.valid ih

theorem Op.Step.labelled {op : Op} {t t' : Tree} {pos : Nat → List Bool} (hs : op.Step t t')
    (hop : op ≠ .aliasIpv4Networks) (hw : t.WellFormed) (hl : t.Labelled pos) :
    ∃ pos', t'.Labelled pos' := by
  cases hs with
  | insertNetwork h => exact insertNetwork_labelled hw hl h
  | deleteNetwork => exact deleteNetwork_labelled _ _ hw hl
  | deleteReservedNetworks =>
    exact (deleteReservedNetworks_induction (fun t' => t'.WellFormed ∧ ∃ pos, t'.Labelled pos)
      (fun _ _ _ ⟨w, pos, hl⟩ => ⟨(deleteNetwork_wellFormed _ _ w).1, deleteNetwork_labelled _ _ w hl⟩)
      ⟨hw, pos, hl⟩).2
  | aliasIpv4Networks => exact absurd rfl hop

/-- A tree built without `alias_ipv4_networks` is a tree: its nodes have labels. -/
theorem Reachable.labelled {t : Tree} (h : Reachable aliasFree t) : ∃ pos, t.Labelled pos := by
  induction h with
  | newTree => exact ⟨fun _ => [], rfl, fun _ _ _ _ hc => by simp at hc⟩
  | step hr ha hs ih =>
    obtain ⟨pos, hl⟩ := ih
    exact hs.labelled ha hr.valid.wellFormed hl

end MMDBW
