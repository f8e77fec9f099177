/-
  The node pool over whole runs.

  `new_node` `realloc`s the pool to `nodes_per_alloc * node_size` bytes whenever `next_node` has
  caught up with `allocated_nodes`, and adds `nodes_per_alloc` to `allocated_nodes`: the count
  grows, the buffer does not.  Every call that adds nodes adds them through `new_node`
  (`make_next_node` in a materialising descent); every other write is a record write, which
  leaves the pool's bookkeeping (`Tree.pool`) alone.

  1. `Tree.PoolOk`: the buffer holds `nodes_per_alloc` nodes, and `allocated_nodes` is the least
     multiple of `nodes_per_alloc` not below `next_node`.
  2. `new_node` keeps it (`newNode_poolOk`); so do the materialising descent, the merge
     recursion, and each public call (`Op.Step.poolOk`).
  3. From `new_tree` on, over any run (`reachable_poolOk`).  Once a tree has more than
     `nodes_per_alloc` nodes, the handles from `nodes_per_alloc` on lie past the end of the
     buffer, even counted in nodes rather than in the bytes `new_node`'s pointer arithmetic
     scales them by (`new_node_slot_outside_pool`).
-/
import MaxMindDBWriter.Aliases

namespace MMDBW

/-- The pool's bookkeeping: `next_node`, `allocated_nodes`, `nodes_per_alloc` and the length of
    the buffer, in nodes. -/
def Tree.pool (t : Tree) : Nat × Nat × Nat × Nat :=
  (t.nextNode, t.allocatedNodes, t.nodesPerAlloc, t.poolCapacity)

/-- The pool's bookkeeping as `new_node` keeps it: `realloc` leaves a buffer of
    `nodes_per_alloc` nodes, and `allocated_nodes` is the least multiple of `nodes_per_alloc`
    that is not below `next_node`. -/
structure Tree.PoolOk (t : Tree) : Prop where
  nodesPerAlloc_pos : 0 < t.nodesPerAlloc
  poolCapacity_eq : t.poolCapacity = t.nodesPerAlloc
  nextNode_le : t.nextNode ≤ t.allocatedNodes
  allocatedNodes_lt : t.allocatedNodes < t.nextNode + t.nodesPerAlloc
  dvd_allocatedNodes : t.nodesPerAlloc ∣ t.allocatedNodes

/-- The invariant reads the pool's bookkeeping only. -/
theorem Tree.PoolOk.of_pool {t t' : Tree} (h : t.PoolOk) (e : t'.pool = t.pool) : t'.PoolOk := by
  simp only [Tree.pool, Prod.mk.injEq] at e
  obtain ⟨h₁, h₂, h₃, h₄⟩ := e
  obtain ⟨hpos, hcap, hle, hlt, hdvd⟩ := h
  exact ⟨by omega, by omega, by omega, by omega, h₂ ▸ h₃ ▸ hdvd⟩

/-- `new_node` keeps the bookkeeping: it `realloc`s exactly when `next_node` has caught up with
    `allocated_nodes`, and then counts one more `nodes_per_alloc`. -/
theorem newNode_poolOk {t : Tree} (h : t.PoolOk) : (newNode t).1.PoolOk := by
  obtain ⟨hpos, hcap, hle, hlt, hdvd⟩ := h
  unfold newNode
  split
  · exact ⟨hpos, rfl, by dsimp only; omega, by dsimp only; omega, Nat.dvd_add hdvd (Nat.dvd_refl _)⟩
  · exact ⟨hpos, hcap, by dsimp only; omega, by dsimp only; omega, hdvd⟩

/-- `make_next_node` moves the pool as `new_node` does. -/
theorem makeNextNode_pool (t : Tree) (r : Record) : (makeNextNode t r).1.pool = (newNode t).1.pool := by
  unfold makeNextNode; split <;> rfl

/-- A materialising descent adds its nodes through `make_next_node`. -/
theorem Tree.materialize_poolOk (p : List Bool) :
    ∀ {t : Tree} (h : Nat), t.PoolOk → (t.materialize h p).1.PoolOk := by
  induction p with
  | nil => intro t h ht; exact ht
  | cons b p ih =>
    intro t h ht
    simp only [Tree.materialize]
    split
    · exact ih _ (ht.of_pool rfl)
    · exact ih _ ((newNode_poolOk ht).of_pool (makeNextNode_pool _ _))

theorem insertRecordForNetwork_poolOk {fuel : Nat} {t t' : Tree} {network : Network} {r : Record}
    (ht : t.PoolOk) (h : insertRecordForNetwork fuel t network r = some t') : t'.PoolOk := by
  induction fuel generalizing t network t' with
  | zero => simp [insertRecordForNetwork] at h
  | succ fuel ih =>
    have hd := Tree.materialize_poolOk (network.bits network.depth) t.rootNode ht
    obtain ⟨t₁, h₁ | ⟨-, rfl⟩, rfl⟩ := insertRecordForNetwork_some h
    · exact (ih hd h₁.2).of_pool rfl
    · exact hd.of_pool rfl

theorem insertNetwork_poolOk {fuel : Nat} {t t' : Tree} {lit : IpLiteral} {maskLength : UInt8}
    {key data : SV} {result : Int} (ht : t.PoolOk)
    (h : insertNetwork fuel t lit maskLength key data = some (result, t')) : t'.PoolOk := by
  unfold insertNetwork at h
  dsimp only at h
  split at h
  · cases h; exact ht
  · obtain ⟨t₁, h₁, h₂⟩ := Option.map_eq_some'.mp h
    cases h₂
    refine (insertRecordForNetwork_poolOk ?_ h₁).of_pool rfl
    exact ht.of_pool rfl

theorem deleteNetwork_poolOk {t : Tree} (ht : t.PoolOk) (lit : IpLiteral) (maskLength : UInt8) :
    (deleteNetwork t lit maskLength).PoolOk := by
  rcases deleteNetwork_cases t lit maskLength with ⟨he, -⟩ | h
  · rwa [he]
  · exact insertRecordForNetwork_poolOk ht h

theorem aliasIpv4Networks_poolOk {t : Tree} (ht : t.PoolOk) : (aliasIpv4Networks t).PoolOk := by
  by_cases h4 : t.ipVersion = 4
  · simpa [aliasIpv4Networks, h4] using ht
  by_cases hR : ∃ R, t.select t.rootNode ipv4RootPath = .node R
  · obtain ⟨R, hR⟩ := hR
    rw [aliasIpv4Networks_of_select h4 hR]
    refine (Tree.materialize_poolOk _ _ ?_).of_pool rfl
    exact (Tree.materialize_poolOk _ _ ht).of_pool rfl
  · rwa [aliasIpv4Networks_of_not_select (fun R h => hR ⟨R, h⟩)]

/-- Each public call keeps the bookkeeping. -/
theorem Op.Step.poolOk {op : Op} {t t' : Tree} (hs : op.Step t t') (ht : t.PoolOk) : t'.PoolOk := by
  cases hs with
  | insertNetwork h => exact insertNetwork_poolOk ht h
  | deleteNetwork => exact deleteNetwork_poolOk ht _ _
  | deleteReservedNetworks =>
    exact deleteReservedNetworks_induction Tree.PoolOk (fun t _ _ h => deleteNetwork_poolOk h _ _) ht
  | aliasIpv4Networks => exact aliasIpv4Networks_poolOk ht

/-- `new_tree` allocates the root with the first `realloc`; `nodes_per_alloc` 0 stands for
    `default_nodes_per_alloc`. -/
theorem newTree_poolOk (ipVersion recordSize nodesPerAlloc : Nat) :
    (newTree ipVersion recordSize nodesPerAlloc).PoolOk := by
  obtain ⟨N, hN⟩ : ∃ N, (if nodesPerAlloc > 0 then nodesPerAlloc else defaultNodesPerAlloc) = N :=
    ⟨_, rfl⟩
  have hpos : 0 < N := by
    rw [← hN]; split
    · assumption
    · decide
  have hpool : (newTree ipVersion recordSize nodesPerAlloc).pool = (1, 0 + N, N, N) := by
    rw [← hN]; rfl
  simp only [Tree.pool, Prod.mk.injEq] at hpool
  obtain ⟨h₁, h₂, h₃, h₄⟩ := hpool
  exact ⟨by omega, by omega, by omega, by omega,
    by rw [h₂, h₃]; exact Nat.dvd_add (Nat.dvd_zero N) (Nat.dvd_refl N)⟩

/-- Over any run of calls from `new_tree`, `new_node`'s bookkeeping holds: the buffer `realloc`
    leaves is `nodes_per_alloc` nodes long, and `allocated_nodes`, the least multiple of
    `nodes_per_alloc` not below `next_node`, counts far past it.  Once a tree has more than
    `nodes_per_alloc` nodes, the handles from `nodes_per_alloc` on lie past the end of the
    buffer, even counted in nodes. -/
theorem reachable_poolOk {allowed : Tree → Op → Prop} {t : Tree} (ht : Reachable allowed t) :
    t.PoolOk := by
  induction ht with
  | newTree v r n _ => exact newTree_poolOk v r n
  | step _ _ hs ih => exact hs.poolOk ih

/-- `10.0.0.0/8 → k` in a new IPv4 tree allocating one node at a time: eight nodes, in a buffer
    of one. -/
theorem reachable_poolOk_one :
    ∃ t, insertNetwork 1 (newTree 4 24 1) (v4 10 0 0 0) 8 ⟨1, [65]⟩ ⟨2, [66]⟩ = some (0, t) ∧
      t.PoolOk ∧ t.poolCapacity = 1 ∧ t.allocatedNodes = 8 ∧ t.nextNode = 8 :=
  ⟨_, rfl, reachable_poolOk (show Reachable anyOp _ from .step (.newTree 4 24 1 (.inl rfl)) trivial
    (.insertNetwork (show insertNetwork 1 (newTree 4 24 1) (v4 10 0 0 0) 8 ⟨1, [65]⟩ ⟨2, [66]⟩ =
      some (0, _) from rfl))), rfl, rfl, rfl⟩

end MMDBW
