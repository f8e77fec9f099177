/-
  What `finalize_tree` numbers, and what `write_search_tree` does to the numbering.

  1. **The walk** — every callback of `iterate_tree` changes no record, so the walk calls its
     callback on the nodes of `Tree.walkOrder`, in that order, whatever the callback
     (`iterateTree_eq_foldl`).  `Tree.walkOrder` is a pre-order with `iterate_tree`'s own seen
     test: a node is skipped when its left record leads to a node met before (`hashFindPtr`).
  2. **Trees** — on a labelled tree, one built without `alias_ipv4_networks`, nothing the walk
     has met lies below the node it is at, so neither that test nor the test the comment
     describes (the node itself met before) ever skips: the walk is `Tree.preorder`, the
     pre-order of the node graph with each node met once (`Tree.Labelled.walkOrder_eq`).  With
     the fuel `start_iteration` gives it, that pre-order holds every node the root leads to
     exactly once (`Tree.preorder_nodup`, `Tree.mem_preorder_root`), and no `NODE` record leads
     back to the root (`Reachable.noEdgeToRoot`), so `finalize_tree` numbers the nodes
     `0 .. node_count - 1` in pre-order (`finalizeTree_numbering`).
  3. **Aliased graphs** — after `alias_ipv4_networks` the IPv4 subtree hangs under three records,
     and the seen test skips the node `2002::/15` leads to, whose number stays the root's 0
     (`finalizeTree_skips_sixToFour`, in `AliasedNumbering`).
  4. **`write_search_tree`** — `start_iteration` ignores its callback, so the walk
     `write_search_tree` makes after `finalize_tree` numbers every node a second time instead of
     writing it (`writeSearchTree_writes_nothing`), on every reachable tree.
-/
import Mathlib.Data.List.Nodup
import Mathlib.Data.List.Perm.Subperm
import MaxMindDBWriter.Reachable
import MaxMindDBWriter.Iteration

namespace MMDBW

/-! ## The pre-order of the node graph -/

/-- The nodes a depth-first walk along the record `r` meets for the first time, in the order it
    meets them: for a `NODE` record, its node, then the nodes the node's left record leads to,
    then those its right record leads to; a node in `seen`, or met before, is skipped.  `seen`
    lists the nodes met so far, the last one first.  `fuel` bounds the depth of the walk. -/
def Tree.preorder (t : Tree) : Nat → Record → List Nat → List Nat
  | 0, _, _ => []
  | fuel + 1, .node node, seen =>
    if node ∈ seen then []
    else
      let left := t.preorder fuel (t.nodes node).leftRecord (node :: seen)
      node :: (left ++ t.preorder fuel (t.nodes node).rightRecord (left.reverse ++ node :: seen))
  | _ + 1, _, _ => []

theorem Tree.preorder_of_ne_node (t : Tree) (fuel : Nat) {r : Record} (hr : ∀ c, r ≠ .node c)
    (seen : List Nat) : t.preorder fuel r seen = [] := by
  cases fuel <;> cases r <;> simp_all [Tree.preorder]

/-- The pre-order reads the records only. -/
theorem Tree.preorder_congr {t t' : Tree} (h : ∀ x b, (t'.nodes x).side b = (t.nodes x).side b) :
    t'.preorder = t.preorder := by
  have hl : ∀ x, (t'.nodes x).leftRecord = (t.nodes x).leftRecord := fun x => h x false
  have hr : ∀ x, (t'.nodes x).rightRecord = (t.nodes x).rightRecord := fun x => h x true
  funext fuel
  induction fuel with
  | zero => rfl
  | succ fuel ih => funext r seen; cases r <;> simp only [Tree.preorder, hl, hr, ih]

/-! ## The order `iterate_tree` meets the nodes in -/

/-- The nodes `iterate_tree` calls its callback on along the record `r`, in order: for a `NODE`
    record whose node its seen test does not find, the node, then the nodes the node's left
    record leads to, then those its right record leads to.  `seen` lists the nodes met so far,
    the last one first.  Unlike `Tree.preorder`, this can list a node twice. -/
def Tree.walkOrder (t : Tree) : Nat → Record → List Nat → List Nat
  | 0, _, _ => []
  | fuel + 1, .node node, seen =>
    if hashFindPtr seen (t.nodes node) then []
    else
      let left := t.walkOrder fuel (t.nodes node).leftRecord (node :: seen)
      node :: (left ++ t.walkOrder fuel (t.nodes node).rightRecord (left.reverse ++ node :: seen))
  | _ + 1, _, _ => []

theorem Tree.walkOrder_of_ne_node (t : Tree) (fuel : Nat) {r : Record} (hr : ∀ c, r ≠ .node c)
    (seen : List Nat) : t.walkOrder fuel r seen = [] := by
  cases fuel <;> cases r <;> simp_all [Tree.walkOrder]

/-- The walk order reads the records only. -/
theorem Tree.walkOrder_congr {t t' : Tree} (h : ∀ x b, (t'.nodes x).side b = (t.nodes x).side b) :
    t'.walkOrder = t.walkOrder := by
  have hl : ∀ x, (t'.nodes x).leftRecord = (t.nodes x).leftRecord := fun x => h x false
  have hr : ∀ x, (t'.nodes x).rightRecord = (t.nodes x).rightRecord := fun x => h x true
  funext fuel
  induction fuel with
  | zero => rfl
  | succ fuel ih => funext r seen; cases r <;> simp only [Tree.walkOrder, hashFindPtr, hl, hr, ih]

/-- From the root, with nothing seen, the walk starts at the root. -/
theorem Tree.walkOrder_root (t : Tree) (fuel n : Nat) :
    ∃ rest, t.walkOrder (fuel + 1) (.node n) [] = n :: rest := by
  rw [Tree.walkOrder, if_neg (by unfold hashFindPtr; split <;> simp)]
  exact ⟨_, rfl⟩

/-- Every node the walk along a `NODE` record meets is reached from the record's node. -/
theorem Tree.walkOrder_reach (t : Tree) (fuel : Nat) :
    ∀ (r : Record) (seen : List Nat) (x : Nat), x ∈ t.walkOrder fuel r seen →
      ∃ c p, r = .node c ∧ t.select c p = .node x := by
  induction fuel with
  | zero => intro r seen x hx; simp [Tree.walkOrder] at hx
  | succ fuel ih =>
    intro r seen x hx
    cases r with
    | empty | data => simp [Tree.walkOrder] at hx
    | node n =>
      by_cases hn : hashFindPtr seen (t.nodes n) = true
      · simp [Tree.walkOrder, hn] at hx
      simp only [Tree.walkOrder, if_neg hn, List.mem_cons, List.mem_append] at hx
      refine ⟨n, ?_⟩
      rcases hx with rfl | hx | hx
      · exact ⟨[], rfl, rfl⟩
      · obtain ⟨c, p, hc, hp⟩ := ih _ _ x hx
        exact ⟨false :: p, rfl, by simp [Tree.select, Node.side, hc, hp]⟩
      · obtain ⟨c, p, hc, hp⟩ := ih _ _ x hx
        exact ⟨true :: p, rfl, by simp [Tree.select, Node.side, hc, hp]⟩

/-- Every node the walk from `n` meets after `n` itself is reached from `n` by at least one step. -/
theorem Tree.walkOrder_reach_tail (t : Tree) (fuel n : Nat) {seen rest : List Nat}
    (h : t.walkOrder (fuel + 1) (.node n) seen = n :: rest) :
    ∀ x ∈ rest, ∃ b p, t.select n (b :: p) = .node x := by
  intro x hx
  rw [Tree.walkOrder] at h
  split at h
  · cases h
  obtain ⟨-, rfl⟩ := List.cons.inj h
  rcases List.mem_append.mp hx with hx | hx
  · obtain ⟨c, p, hc, hp⟩ := t.walkOrder_reach fuel _ _ x hx
    exact ⟨false, p, by simp [Tree.select, Node.side, hc, hp]⟩
  · obtain ⟨c, p, hc, hp⟩ := t.walkOrder_reach fuel _ _ x hx
    exact ⟨true, p, by simp [Tree.select, Node.side, hc, hp]⟩

/-! ## `iterate_tree` calls its callback on the walk order -/

@[simp] theorem assignNodeNumber_leftRecord (t : Tree) (node x : Nat) :
    ((assignNodeNumber t node).nodes x).leftRecord = (t.nodes x).leftRecord := by
  by_cases hx : x = node <;> simp [assignNodeNumber, Function.update_apply, hx]

@[simp] theorem assignNodeNumber_rightRecord (t : Tree) (node x : Nat) :
    ((assignNodeNumber t node).nodes x).rightRecord = (t.nodes x).rightRecord := by
  by_cases hx : x = node <;> simp [assignNodeNumber, Function.update_apply, hx]

theorem assignNodeNumber_side (t : Tree) (node x : Nat) (b : Bool) :
    ((assignNodeNumber t node).nodes x).side b = (t.nodes x).side b := by
  cases b <;> simp [Node.side]

/-- No callback changes a record. -/
theorem Callback.call_side (callback : Callback) (s : IterState) (node x : Nat) (b : Bool) :
    ((callback.call s node).tree.nodes x).side b = (s.tree.nodes x).side b := by
  cases callback with
  | assignNodeNumber => exact assignNodeNumber_side s.tree node x b
  | encodeNode => simp only [Callback.call]; split <;> rfl
  | keyRefcntDec => rfl

theorem foldl_call_side (callback : Callback) (order : List Nat) (x : Nat) (b : Bool) :
    ∀ s : IterState, ((order.foldl callback.call s).tree.nodes x).side b = (s.tree.nodes x).side b := by
  induction order with
  | nil => intro s; rfl
  | cons y ys ih => intro s; rw [List.foldl_cons, ih, callback.call_side]

/-- `if (MMDBW_RECORD_TYPE_NODE == record.type) iterate_tree(tree, record.value.node, ...)`: the
    walk along one record of a node. -/
def iterateChild (callback : Callback) (fuel : Nat) (s : IterState) (record : Record)
    (seen : List Nat) : IterState × List Nat :=
  match record with
  | .node c => iterateTree callback fuel s c seen
  | _ => (s, seen)

theorem iterateTree_succ (callback : Callback) (fuel : Nat) (s : IterState) (node : Nat)
    (seen : List Nat) :
    iterateTree callback (fuel + 1) s node seen =
      if hashFindPtr seen (s.tree.nodes node) then (s, seen)
      else
        let s' := callback.call s node
        let left := iterateChild callback fuel s' (s'.tree.nodes node).leftRecord (node :: seen)
        iterateChild callback fuel left.1 (left.1.tree.nodes node).rightRecord left.2 := by
  rw [iterateTree]; rfl

/-- The walk calls its callback on the nodes of the walk order, in turn, and adds them to its
    seen list. -/
theorem iterateTree_eq_foldl (callback : Callback) (fuel : Nat) :
    ∀ (s : IterState) (node : Nat) (seen : List Nat),
      iterateTree callback fuel s node seen =
        ((s.tree.walkOrder fuel (.node node) seen).foldl callback.call s,
          (s.tree.walkOrder fuel (.node node) seen).reverse ++ seen) := by
  induction fuel with
  | zero => intro s node seen; rfl
  | succ fuel ih =>
    -- the walk along a record of a node, by the induction hypothesis
    have child : ∀ (s : IterState) (r : Record) (seen : List Nat),
        iterateChild callback fuel s r seen =
          ((s.tree.walkOrder fuel r seen).foldl callback.call s,
            (s.tree.walkOrder fuel r seen).reverse ++ seen) := by
      intro s r seen
      cases r with
      | node c => exact ih s c seen
      | empty | data => simp [iterateChild, Tree.walkOrder_of_ne_node]
    intro s node seen
    rw [iterateTree_succ]
    by_cases hn : hashFindPtr seen (s.tree.nodes node) = true
    · simp [hn, Tree.walkOrder]
    -- the callback and the walks keep every record, so they keep the walk order
    have hs : ∀ order : List Nat, (order.foldl callback.call (callback.call s node)).tree.walkOrder =
        s.tree.walkOrder := fun order => Tree.walkOrder_congr fun x b => by
      rw [foldl_call_side, callback.call_side]
    have hs₀ : (callback.call s node).tree.walkOrder = s.tree.walkOrder := hs []
    have hl : ((callback.call s node).tree.nodes node).leftRecord = (s.tree.nodes node).leftRecord :=
      callback.call_side s node node false
    have hr : ∀ order : List Nat, ((order.foldl callback.call (callback.call s node)).tree.nodes
        node).rightRecord = (s.tree.nodes node).rightRecord := fun order =>
      (foldl_call_side callback order node true _).trans (callback.call_side s node node true)
    rw [if_neg hn]
    dsimp only
    rw [hl, child (callback.call s node), hs₀, hr, child, hs]
    simp only [Tree.walkOrder, if_neg hn, List.foldl_cons, List.foldl_append, List.reverse_cons,
      List.reverse_append, List.append_assoc, List.singleton_append]

/-- Numbering nodes one after another changes no record. -/
@[simp] theorem foldl_assignNodeNumber_leftRecord (order : List Nat) (x : Nat) :
    ∀ t : Tree, ((order.foldl assignNodeNumber t).nodes x).leftRecord = (t.nodes x).leftRecord := by
  induction order with
  | nil => intro t; rfl
  | cons y ys ih => intro t; rw [List.foldl_cons, ih, assignNodeNumber_leftRecord]

@[simp] theorem foldl_assignNodeNumber_rightRecord (order : List Nat) (x : Nat) :
    ∀ t : Tree, ((order.foldl assignNodeNumber t).nodes x).rightRecord = (t.nodes x).rightRecord := by
  induction order with
  | nil => intro t; rfl
  | cons y ys ih => intro t; rw [List.foldl_cons, ih, assignNodeNumber_rightRecord]

theorem foldl_assignNodeNumber_side (order : List Nat) (t : Tree) (x : Nat) (b : Bool) :
    ((order.foldl assignNodeNumber t).nodes x).side b = (t.nodes x).side b := by
  cases b <;> simp [Node.side]

/-- The walk with `assign_node_number` numbers the nodes it meets and touches nothing else of
    its state. -/
theorem foldl_call_assignNodeNumber (order : List Nat) :
    ∀ s : IterState, order.foldl Callback.assignNodeNumber.call s =
      { s with tree := order.foldl assignNodeNumber s.tree } := by
  induction order with
  | nil => intro s; rfl
  | cons y ys ih => intro s; rw [List.foldl_cons, ih]; rfl

/-! ## The pre-order holds every node the root leads to, once -/

/-- The pre-order lists no node twice, and none of `seen`. -/
theorem Tree.preorder_nodup (t : Tree) (fuel : Nat) :
    ∀ (r : Record) (seen : List Nat),
      (t.preorder fuel r seen).Nodup ∧ ∀ x ∈ t.preorder fuel r seen, x ∉ seen := by
  induction fuel with
  | zero => intro r seen; simp [Tree.preorder]
  | succ fuel ih =>
    intro r seen
    cases r with
    | empty | data => simp [Tree.preorder]
    | node n =>
      by_cases hn : n ∈ seen
      · simp [Tree.preorder, hn]
      simp only [Tree.preorder, if_neg hn]
      obtain ⟨ndL, disL⟩ := ih (t.nodes n).leftRecord (n :: seen)
      generalize t.preorder fuel (t.nodes n).leftRecord (n :: seen) = L at ndL disL ⊢
      obtain ⟨ndR, disR⟩ := ih (t.nodes n).rightRecord (L.reverse ++ n :: seen)
      generalize t.preorder fuel (t.nodes n).rightRecord (L.reverse ++ n :: seen) = R at ndR disR ⊢
      refine ⟨List.nodup_cons.mpr ⟨?_, ndL.append ndR fun x hxL hxR => disR x hxR (by simp [hxL])⟩,
        fun x hx => ?_⟩
      · simp only [List.mem_append, not_or]
        exact ⟨fun h => disL n h (List.mem_cons_self _ _), fun h => disR n h (by simp)⟩
      · simp only [List.mem_cons, List.mem_append] at hx
        rcases hx with rfl | hx | hx
        · exact hn
        · exact fun h => disL x hx (List.mem_cons_of_mem _ h)
        · exact fun h => disR x hx (by simp [h])

/-- Every node of the pre-order along a `NODE` record is reached from the record's node. -/
theorem Tree.preorder_reach (t : Tree) (fuel : Nat) :
    ∀ (r : Record) (seen : List Nat) (x : Nat), x ∈ t.preorder fuel r seen →
      ∃ c p, r = .node c ∧ t.select c p = .node x := by
  induction fuel with
  | zero => intro r seen x hx; simp [Tree.preorder] at hx
  | succ fuel ih =>
    intro r seen x hx
    cases r with
    | empty | data => simp [Tree.preorder] at hx
    | node n =>
      by_cases hn : n ∈ seen
      · simp [Tree.preorder, hn] at hx
      simp only [Tree.preorder, if_neg hn, List.mem_cons, List.mem_append] at hx
      refine ⟨n, ?_⟩
      rcases hx with rfl | hx | hx
      · exact ⟨[], rfl, rfl⟩
      · obtain ⟨c, p, hc, hp⟩ := ih _ _ x hx
        exact ⟨false :: p, rfl, by simp [Tree.select, Node.side, hc, hp]⟩
      · obtain ⟨c, p, hc, hp⟩ := ih _ _ x hx
        exact ⟨true :: p, rfl, by simp [Tree.select, Node.side, hc, hp]⟩

/-- A list of distinct nodes below `N` has at most `N` of them. -/
theorem length_le_of_nodup_lt {l : List Nat} {N : Nat} (hnd : l.Nodup) (hlt : ∀ y ∈ l, y < N) :
    l.length ≤ N := by
  simpa using (hnd.subperm fun y hy => List.mem_range.mpr (hlt y hy)).length_le

/-! ## On a tree the walk is the pre-order -/

/-- On a labelled tree the walk from an allocated node `n` is the pre-order, as long as no node
    seen before carries a label that `n`'s label starts: then neither `n` nor the node its left
    record leads to was seen, so neither seen test skips `n`, and what the walk below `n` adds to
    the seen list lies below the record it walked. -/
theorem Tree.Labelled.walkOrder_eq {t : Tree} {pos : Nat → List Bool} (hl : t.Labelled pos)
    (hw : t.WellFormed) (fuel : Nat) :
    ∀ (n : Nat) (seen : List Nat), n < t.nextNode → (∀ s ∈ seen, ¬ pos n <+: pos s) →
      t.walkOrder fuel (.node n) seen = t.preorder fuel (.node n) seen := by
  induction fuel with
  | zero => intro _ _ _ _; rfl
  | succ fuel ih =>
    intro n seen hn hseen
    have hchild : ∀ b c, (t.nodes n).side b = .node c → pos c = pos n ++ [b] := hl.child n hn
    -- the walk along record `b`, from a seen list with no label below the record
    have rec : ∀ b seen', (∀ s ∈ seen', ¬ pos n ++ [b] <+: pos s) →
        t.walkOrder fuel ((t.nodes n).side b) seen' = t.preorder fuel ((t.nodes n).side b) seen' := by
      intro b seen' h'
      cases hc : (t.nodes n).side b with
      | node c => exact ih c seen' (hw.child_lt n hn b c hc) (by rw [hchild b c hc]; exact h')
      | empty | data => simp [Tree.walkOrder_of_ne_node, Tree.preorder_of_ne_node]
    have hfind : hashFindPtr seen (t.nodes n) = false := by
      unfold hashFindPtr
      split
      · rename_i c hc
        exact decide_eq_false fun hm => hseen c hm ⟨[false], (hchild false c hc).symm⟩
      · rfl
    have hL : t.walkOrder fuel (t.nodes n).leftRecord (n :: seen) =
        t.preorder fuel (t.nodes n).leftRecord (n :: seen) := rec false _ fun s hs hp => by
      rcases List.mem_cons.mp hs with rfl | hs
      · have := hp.length_le
        simp only [List.length_append, List.length_singleton] at this
        omega
      · exact hseen s hs ((List.prefix_append _ _).trans hp)
    -- what the left walk met lies below the left record
    have hR : ∀ L : List Nat, (∀ y ∈ L, ∃ p, pos y = pos n ++ false :: p) →
        t.walkOrder fuel (t.nodes n).rightRecord (L.reverse ++ n :: seen) =
          t.preorder fuel (t.nodes n).rightRecord (L.reverse ++ n :: seen) := fun L hL' =>
      rec true _ fun s hs hp => by
        rcases List.mem_append.mp hs with hs | hs
        · obtain ⟨p, hp'⟩ := hL' s (List.mem_reverse.mp hs)
          rw [hp'] at hp
          simpa using (List.prefix_append_right_inj (pos n)).mp hp
        · rcases List.mem_cons.mp hs with rfl | hs
          · have := hp.length_le
            simp only [List.length_append, List.length_singleton] at this
            omega
          · exact hseen s hs ((List.prefix_append _ _).trans hp)
    rw [Tree.walkOrder, Tree.preorder, if_neg (by simp [hfind]),
      if_neg fun hm => hseen n hm (List.prefix_refl _)]
    dsimp only
    rw [hL, hR]
    intro y hy
    obtain ⟨c, p, hc, hp⟩ := t.preorder_reach fuel _ _ y hy
    exact ⟨p, by rw [hl.pos_of_select hw p c y (hw.child_lt n hn false c hc) hp,
      hchild false c hc, List.append_assoc, List.singleton_append]⟩

section Closed

variable {t : Tree} (hw : t.WellFormed)
include hw

/-- A walk with enough fuel meets the node of its record, unless it was seen before, and the
    children of every node it meets are met by it or were seen before: every level adds a node
    not seen before, and there are only `next_node` nodes. -/
theorem Tree.preorder_closed (fuel : Nat) :
    ∀ (r : Record) (seen : List Nat), (∀ c, r = .node c → c < t.nextNode) → seen.Nodup →
      (∀ y ∈ seen, y < t.nextNode) → t.nextNode < fuel + seen.length →
      (∀ c, r = .node c → c ∈ t.preorder fuel r seen ++ seen) ∧
        ∀ y ∈ t.preorder fuel r seen, ∀ b c, (t.nodes y).side b = .node c →
          c ∈ t.preorder fuel r seen ++ seen := by
  induction fuel with
  | zero =>
    intro r seen _ hnd hlt hf
    have := length_le_of_nodup_lt hnd hlt
    omega
  | succ fuel ih =>
    intro r seen hr hnd hlt hf
    cases r with
    | empty | data => simp [Tree.preorder]
    | node n =>
      have hn' := hr n rfl
      by_cases hn : n ∈ seen
      · simp [Tree.preorder, hn]
      simp only [Tree.preorder, if_neg hn]
      have hchild : ∀ b c, (t.nodes n).side b = .node c → c < t.nextNode :=
        fun b c hc => hw.child_lt n hn' b c hc
      -- the left walk starts with `n` seen
      obtain ⟨cL, clL⟩ := ih (t.nodes n).leftRecord (n :: seen) (hchild false)
        (List.nodup_cons.mpr ⟨hn, hnd⟩) (by simpa [hn'] using hlt) (by simp; omega)
      have ⟨ndL, disL⟩ := t.preorder_nodup fuel (t.nodes n).leftRecord (n :: seen)
      have ltL : ∀ y ∈ t.preorder fuel (t.nodes n).leftRecord (n :: seen), y < t.nextNode := by
        intro y hy
        obtain ⟨c, p, hc, hp⟩ := t.preorder_reach fuel _ _ y hy
        exact hw.select_lt p c y (hchild false c hc) hp
      generalize t.preorder fuel (t.nodes n).leftRecord (n :: seen) = L at cL clL ndL disL ltL ⊢
      -- the right walk starts with `n` and the left walk's nodes seen
      have hnd₂ : (L.reverse ++ n :: seen).Nodup :=
        List.nodup_append.mpr ⟨List.nodup_reverse.mpr ndL, List.nodup_cons.mpr ⟨hn, hnd⟩,
          fun x hx hx' => disL x (List.mem_reverse.mp hx) hx'⟩
      obtain ⟨cR, clR⟩ := ih (t.nodes n).rightRecord (L.reverse ++ n :: seen) (hchild true) hnd₂
        (by simp only [List.mem_append, List.mem_reverse, List.mem_cons]
            rintro y (hy | rfl | hy)
            exacts [ltL y hy, hn', hlt y hy])
        (by simp; omega)
      generalize t.preorder fuel (t.nodes n).rightRecord (L.reverse ++ n :: seen) = R at cR clR ⊢
      refine ⟨fun c hc => by cases hc; simp, fun y hy b c hc => ?_⟩
      -- every child lands in `n :: (L ++ R) ++ seen`
      have key : c ∈ L ++ n :: seen ∨ c ∈ R ++ (L.reverse ++ n :: seen) := by
        simp only [List.mem_cons, List.mem_append] at hy
        rcases hy with rfl | hy | hy
        · cases b
          · exact .inl (cL c (by simpa [Node.side] using hc))
          · exact .inr (cR c (by simpa [Node.side] using hc))
        · exact .inl (clL y hy b c hc)
        · exact .inr (clR y hy b c hc)
      simp only [List.mem_append, List.mem_cons, List.mem_reverse] at key ⊢
      rcases key with (h | h | h) | h | h | h | h <;> simp only [h, true_or, or_true]

/-- From the root, with the fuel `start_iteration` gives, the pre-order holds exactly the nodes
    the root leads to. -/
theorem Tree.mem_preorder_root (x : Nat) :
    x ∈ t.preorder (t.nextNode + 1) (.node t.rootNode) [] ↔
      ∃ p, t.select t.rootNode p = .node x := by
  obtain ⟨hroot, hcl⟩ := t.preorder_closed hw (t.nextNode + 1) (.node t.rootNode) []
    (fun c hc => by cases hc; exact hw.root_lt) List.nodup_nil (by simp) (by simp)
  simp only [List.append_nil] at hroot hcl
  constructor
  · intro hx
    obtain ⟨c, p, hc, hp⟩ := t.preorder_reach _ _ _ x hx
    cases hc
    exact ⟨p, hp⟩
  · rintro ⟨p, hp⟩
    -- follow the path: the pre-order holds the children of its nodes
    have walk : ∀ (p : List Bool) (g : Nat), g ∈ t.preorder (t.nextNode + 1) (.node t.rootNode) [] →
        t.select g p = .node x → x ∈ t.preorder (t.nextNode + 1) (.node t.rootNode) [] := by
      intro p
      induction p with
      | nil => intro g hg hs; cases hs; exact hg
      | cons b p ih =>
        intro g hg hs
        cases hc : (t.nodes g).side b with
        | node c => simp only [Tree.select, hc] at hs; exact ih c (hcl g hg b c hc) hs
        | empty | data => simp [Tree.select, hc] at hs
    exact walk p t.rootNode (hroot _ rfl) hp

end Closed

/-! ## No record leads back to the root -/

/-- No `NODE` record of an allocated node leads to the root. -/
def Tree.NoEdgeToRoot (t : Tree) : Prop :=
  ∀ h, h < t.nextNode → ∀ b, (t.nodes h).side b ≠ .node t.rootNode

section NoEdgeToRoot

variable {t : Tree}

theorem Tree.SameGraph.noEdgeToRoot {t' : Tree} (h : t.SameGraph t') (hn : t'.NoEdgeToRoot) :
    t.NoEdgeToRoot := fun g hg b => by
  rw [h.nodes_eq, h.rootNode_eq]; exact hn g (h.nextNode_eq ▸ hg) b

theorem Tree.NoEdgeToRoot.setRecord (hn : t.NoEdgeToRoot) (h : Nat) (b : Bool) {r : Record}
    (hr : r ≠ .node t.rootNode) : (t.setRecord h b r).NoEdgeToRoot := by
  intro g hg c
  simp only [Tree.setRecord_rootNode, Tree.setRecord_nextNode, Tree.setRecord_side] at hg ⊢
  split
  · exact hr
  · exact hn g hg c

theorem Tree.NoEdgeToRoot.makeNextNode (hn : t.NoEdgeToRoot) (r : Record) :
    (makeNextNode t r).1.NoEdgeToRoot := by
  intro g hg b
  simp only [makeNextNode_nodes, makeNextNode_rootNode, makeNextNode_nextNode] at hg ⊢
  split
  · exact Record.splitCopy_ne_node _ _
  · exact hn g (by omega) b

/-- A halting descent of at least one step does not end on the root. -/
theorem Tree.NoEdgeToRoot.select_ne_root (hn : t.NoEdgeToRoot) (hw : t.WellFormed) :
    ∀ (p : List Bool) (g x : Nat), g < t.nextNode → p ≠ [] → t.select g p = .node x →
      x ≠ t.rootNode := by
  intro p
  induction p with
  | nil => intro _ _ _ h; exact absurd rfl h
  | cons b p ih =>
    intro g x hg _ hs
    cases hc : (t.nodes g).side b with
    | node c =>
      simp only [Tree.select, hc] at hs
      cases p with
      | nil => cases hs; exact fun h => hn g hg b (h ▸ hc)
      | cons b' p' => exact ih c x (hw.child_lt g hg b c hc) (List.cons_ne_nil _ _) hs
    | empty | data => simp [Tree.select, hc] at hs

/-- The materialising descent points its new records at new nodes. -/
theorem Tree.NoEdgeToRoot.materialize (P : List Bool) :
    ∀ (t : Tree) (g : Nat), t.WellFormed → t.NoEdgeToRoot → g < t.nextNode →
      (t.materialize g P).1.NoEdgeToRoot := by
  induction P with
  | nil => intro t g _ hn _; exact hn
  | cons b P ih =>
    intro t g hw hn hg
    by_cases hc : ∃ c, (t.nodes g).side b = .node c
    · obtain ⟨c, hc⟩ := hc
      rw [Tree.materialize_cons_node t P hc]
      exact ih t c hw hn (hw.child_lt g hg b c hc)
    · have hleaf : ∀ c, (t.nodes g).side b ≠ .node c := fun c e => hc ⟨c, e⟩
      rw [Tree.materialize_cons_leaf t P hleaf]
      have hm := makeNextNode_snd t ((t.nodes g).side b)
      refine ih _ _ ((hw.makeNextNode _).setRecord g b (fun c hc => by cases hc; simp [hm]))
        ((hn.makeNextNode _).setRecord g b ?_) (by simp [hm])
      rw [hm, makeNextNode_rootNode]
      exact fun h => Nat.ne_of_gt hw.root_lt (Record.node.inj h)

theorem insertRecordForNetwork_noEdgeToRoot {r : Record} (hr : ∀ c, r ≠ .node c) (fuel : Nat) :
    ∀ (t : Tree) (network : Network) (t' : Tree), t.WellFormed → t.NoEdgeToRoot →
      insertRecordForNetwork fuel t network r = some t' → t'.NoEdgeToRoot := by
  induction fuel with
  | zero => intro t network t' _ _ h; simp [insertRecordForNetwork] at h
  | succ fuel ih =>
    intro t network t' hw hn h
    obtain ⟨t₁, hcase, rfl⟩ := insertRecordForNetwork_some h
    have w := (Tree.materialize_spec (network.bits network.depth) t t.rootNode hw hw.root_lt).1
    have hn₁ := Tree.NoEdgeToRoot.materialize (network.bits network.depth) t t.rootNode hw hn
      hw.root_lt
    have h₁ : t₁.NoEdgeToRoot := by
      rcases hcase with ⟨-, hrec⟩ | ⟨-, rfl⟩
      · exact ih _ _ _ w hn₁ hrec
      · exact hn₁
    exact h₁.setRecord _ _ (hr _)

theorem deleteNetwork_noEdgeToRoot (lit : IpLiteral) (maskLength : UInt8) (hw : t.WellFormed)
    (hn : t.NoEdgeToRoot) : (deleteNetwork t lit maskLength).NoEdgeToRoot := by
  rcases deleteNetwork_cases t lit maskLength with ⟨he, -⟩ | h
  · rw [he]; exact hn
  · exact insertRecordForNetwork_noEdgeToRoot (by simp) 1 _ _ _ hw hn h

/-- The alias records lead to the node the descent for `::/96` reached after 95 steps, which is
    not the root. -/
theorem Tree.NoEdgeToRoot.aliasIpv4Networks (hn : t.NoEdgeToRoot) (hw : t.WellFormed) :
    (aliasIpv4Networks t).NoEdgeToRoot := by
  by_cases h4 : t.ipVersion = 4
  · simpa [MMDBW.aliasIpv4Networks, h4] using hn
  rw [aliasIpv4Networks_eq t h4]
  obtain ⟨j, -, hsel, hcb, -⟩ := findNodeForNetwork_returnNull_node t (resolveNetwork t ipv4RootLiteral 96)
  have hR := hw.select_lt _ _ _ hw.root_lt hsel
  dsimp only at hsel hcb hR ⊢
  split
  · exact hn
  rename_i h32
  have hmd : (resolveNetwork t ipv4RootLiteral 96).maxDepth0 = 127 := rfl
  have hRroot := hn.select_ne_root hw _ _ _ hw.root_lt
    (by rw [← List.length_pos, Network.length_bits]; omega) hsel
  refine (List.foldlRecOn (motive := fun t' => t'.WellFormed ∧ t'.NoEdgeToRoot ∧
      _ < t'.nextNode ∧ t'.rootNode = t.rootNode) ipv4Aliases _ t ⟨hw, hn, hR, rfl⟩
    fun t' ⟨w', n', lt', root'⟩ e _ => ?_).2.1
  obtain ⟨w, -, le, root, -⟩ := Tree.materialize_spec
    ((resolveNetwork t' e.1 e.2).bits (resolveNetwork t' e.1 e.2).depth) t' t'.rootNode w' w'.root_lt
  have nm := Tree.NoEdgeToRoot.materialize
    ((resolveNetwork t' e.1 e.2).bits (resolveNetwork t' e.1 e.2).depth) t' t'.rootNode w' n' w'.root_lt
  exact ⟨w.setRecord _ _ (fun c hc => by cases hc; omega),
    nm.setRecord _ _ (by rw [root, root']; exact fun h => hRroot (Record.node.inj h)),
    by simp; omega, by rw [Tree.setRecord_rootNode, root, root']⟩

theorem Op.Step.noEdgeToRoot {op : Op} {t' : Tree} (hs : op.Step t t') (hw : t.WellFormed)
    (hn : t.NoEdgeToRoot) : t'.NoEdgeToRoot := by
  cases hs with
  | insertNetwork h =>
    rcases insertNetwork_some h with ⟨-, -, -, rfl⟩ | ⟨-, -, t₀, t₁, h₀, h₁, h'⟩
    · exact hn
    · exact h'.noEdgeToRoot (insertRecordForNetwork_noEdgeToRoot (by simp) _ _ _ _
        (h₀.wellFormed hw) (h₀.noEdgeToRoot hn) h₁)
  | deleteNetwork => exact deleteNetwork_noEdgeToRoot _ _ hw hn
  | deleteReservedNetworks =>
    exact (deleteReservedNetworks_induction (fun t' => t'.WellFormed ∧ t'.NoEdgeToRoot)
      (fun _ _ _ ⟨w, n⟩ => ⟨(deleteNetwork_wellFormed _ _ w).1, deleteNetwork_noEdgeToRoot _ _ w n⟩)
      ⟨hw, hn⟩).2
  | aliasIpv4Networks => exact hn.aliasIpv4Networks hw

/-- In every reachable tree, aliased or not, no record leads back to the root. -/
theorem Reachable.noEdgeToRoot {allowed : Tree → Op → Prop} (ht : Reachable allowed t) :
    t.NoEdgeToRoot := by
  induction ht with
  | newTree => intro _ _ _; simp
  | step hr _ hs ih => exact hs.noEdgeToRoot hr.valid.wellFormed ih

end NoEdgeToRoot

/-! ## `finalize_tree` -/

/-- Numbering nodes one after another changes only the nodes and `node_count`. -/
theorem foldl_assignNodeNumber_eq (order : List Nat) :
    ∀ t : Tree, ∃ nodes, order.foldl assignNodeNumber t =
      { t with nodes := nodes, nodeCount := t.nodeCount + order.length } := by
  induction order with
  | nil => intro t; exact ⟨t.nodes, rfl⟩
  | cons y ys ih =>
    intro t
    obtain ⟨nodes, h⟩ := ih (assignNodeNumber t y)
    refine ⟨nodes, ?_⟩
    rw [List.foldl_cons, h]
    simp only [assignNodeNumber, List.length_cons, Nat.add_assoc, Nat.add_comm 1]

theorem foldl_assignNodeNumber_of_not_mem (order : List Nat) {x : Nat} (hx : x ∉ order) :
    ∀ t : Tree, (order.foldl assignNodeNumber t).nodes x = t.nodes x := by
  induction order with
  | nil => intro t; rfl
  | cons y ys ih =>
    intro t
    simp only [List.mem_cons, not_or] at hx
    rw [List.foldl_cons, ih hx.2]
    simp [assignNodeNumber, Function.update_noteq hx.1]

/-- Numbering the nodes of a list without repetitions one after another gives each of them
    `node_count` plus its index in the list. -/
theorem foldl_assignNodeNumber_number (order : List Nat) (hnd : order.Nodup) :
    ∀ (t : Tree) (x : Nat), x ∈ order →
      ((order.foldl assignNodeNumber t).nodes x).number = t.nodeCount + order.indexOf x := by
  induction order with
  | nil => intro t x hx; simp at hx
  | cons y ys ih =>
    intro t x hx
    obtain ⟨hy, hnd'⟩ := List.nodup_cons.mp hnd
    rw [List.foldl_cons]
    by_cases hxy : x = y
    · subst hxy
      rw [foldl_assignNodeNumber_of_not_mem ys hy, List.indexOf_cons_self]
      simp [assignNodeNumber]
    · rw [ih hnd' _ x (by simpa [hxy] using hx), List.indexOf_cons_ne _ (Ne.symm hxy)]
      simp only [assignNodeNumber]
      omega

/-- `finalize_tree` of a tree that is not finalized numbers the nodes of the walk from the root
    in turn, counting from 0, and sets the flag. -/
theorem finalizeTree_walk {t : Tree} (hf : t.isFinalized = false) :
    finalizeTree t = { (t.walkOrder (t.nextNode + 1) (.node t.rootNode) []).foldl assignNodeNumber
      { t with nodeCount := 0 } with isFinalized := true } := by
  rw [finalizeTree, if_neg (by simp [hf])]
  show { (iterateTree .assignNodeNumber (t.nextNode + 1) (IterState.ofTree { t with nodeCount := 0 })
    t.rootNode []).1.tree with isFinalized := true } = _
  rw [iterateTree_eq_foldl, foldl_call_assignNodeNumber]
  simp only [IterState.ofTree]
  rw [@Tree.walkOrder_congr t { t with nodeCount := 0 } fun _ _ => rfl]

/-- What `finalize_tree` keeps of the node graph, and the count it sets: the length of the walk. -/
theorem finalizeTree_walkOrder {t : Tree} (hf : t.isFinalized = false) :
    let f := finalizeTree t
    f.nodeCount = (t.walkOrder (t.nextNode + 1) (.node t.rootNode) []).length ∧
      f.nextNode = t.nextNode ∧ f.rootNode = t.rootNode ∧
      ∀ x b, (f.nodes x).side b = (t.nodes x).side b := by
  obtain ⟨nodes, hfold⟩ := foldl_assignNodeNumber_eq
    (t.walkOrder (t.nextNode + 1) (.node t.rootNode) []) { t with nodeCount := 0 }
  refine ⟨by rw [finalizeTree_walk hf, hfold]; simp, by rw [finalizeTree_walk hf, hfold],
    by rw [finalizeTree_walk hf, hfold], fun x b => ?_⟩
  rw [finalizeTree_walk hf]
  exact foldl_assignNodeNumber_side _ _ _ _

/-- The pre-order from a node not seen yet starts with it. -/
theorem Tree.preorder_node (t : Tree) (fuel n : Nat) :
    ∃ rest, t.preorder (fuel + 1) (.node n) [] = n :: rest :=
  ⟨_, by rw [Tree.preorder, if_neg (List.not_mem_nil n)]⟩

/-- `finalize_tree` of a labelled tree that is not finalized numbers the nodes of the pre-order
    from the root in that order, counting from 0, and changes nothing else of the node graph. -/
theorem finalizeTree_number {t : Tree} {pos : Nat → List Bool} (hw : t.WellFormed)
    (hl : t.Labelled pos) (hf : t.isFinalized = false) :
    let f := finalizeTree t
    let order := t.preorder (t.nextNode + 1) (.node t.rootNode) []
    f.nodeCount = order.length ∧ (∀ x ∈ order, (f.nodes x).number = order.indexOf x) ∧
      f.nextNode = t.nextNode ∧ f.rootNode = t.rootNode ∧
      ∀ x b, (f.nodes x).side b = (t.nodes x).side b := by
  intro f order
  have hwalk : t.walkOrder (t.nextNode + 1) (.node t.rootNode) [] = order :=
    hl.walkOrder_eq hw _ _ _ hw.root_lt fun _ h => absurd h (List.not_mem_nil _)
  obtain ⟨hcount, hnext, hroot, hside⟩ := finalizeTree_walkOrder hf
  refine ⟨hcount.trans (by rw [hwalk]), fun x hx => ?_, hnext, hroot, hside⟩
  show ((finalizeTree t).nodes x).number = _
  rw [finalizeTree_walk hf, hwalk]
  exact (foldl_assignNodeNumber_number order (t.preorder_nodup _ _ _).1 _ x hx).trans
    (Nat.zero_add _)

/-- `finalize_tree` of a tree built without `alias_ipv4_networks` that is not finalized: the
    nodes the root leads to are the nodes of the pre-order from the root (left before right),
    each listed once; the `i`-th of them is numbered `i`, the root 0, and `node_count` is their
    number; every `NODE` record of one of them leads to a node numbered from 1 to
    `node_count - 1`; and the records are kept. -/
theorem finalizeTree_numbering {t : Tree} (ht : Reachable aliasFree t) (hf : t.isFinalized = false) :
    let f := finalizeTree t
    let order := t.preorder (t.nextNode + 1) (.node t.rootNode) []
    order.Nodup ∧ (∀ x, x ∈ order ↔ ∃ p, t.select t.rootNode p = .node x) ∧
      f.nodeCount = order.length ∧
      (∀ i (hi : i < order.length), (f.nodes (order.get ⟨i, hi⟩)).number = i) ∧
      (f.nodes t.rootNode).number = 0 ∧
      (∀ x, x ∈ order → ∀ b c, (t.nodes x).side b = .node c →
        1 ≤ (f.nodes c).number ∧ (f.nodes c).number < f.nodeCount) ∧
      ∀ x b, (f.nodes x).side b = (t.nodes x).side b := by
  intro f order
  have hw := ht.valid.wellFormed
  obtain ⟨pos, hl⟩ := ht.labelled
  have hnd : order.Nodup := (t.preorder_nodup _ _ _).1
  have hmem := t.mem_preorder_root hw
  obtain ⟨hcount, hnum, -, -, hside⟩ := finalizeTree_number hw hl hf
  obtain ⟨rest, hrest⟩ := t.preorder_node t.nextNode t.rootNode
  have hroot : t.rootNode ∈ order := by simp [order, hrest]
  refine ⟨hnd, hmem, hcount, fun i hi => ?_, ?_, fun x hx b c hc => ?_, hside⟩
  · rw [hnum _ (List.get_mem _ _ _), List.get_indexOf hnd]
  · rw [hnum _ hroot, hrest, List.indexOf_cons_self]
  · -- a child of a node the root leads to is one too, and is not the root
    obtain ⟨p, hp⟩ := (hmem x).mp hx
    have hc' : c ∈ order := (hmem c).mpr ⟨p ++ [b], by simp [Tree.select_append, hp, hc]⟩
    have hne : c ≠ t.rootNode := fun e =>
      (ht.mono fun _ _ _ => trivial).noEdgeToRoot x (hw.select_lt p _ x hw.root_lt hp) b (e ▸ hc)
    rw [hnum c hc', hcount]
    refine ⟨?_, List.indexOf_lt_length.mpr hc'⟩
    rw [hrest, List.indexOf_cons_ne _ (Ne.symm hne)]
    omega

/-! ## `write_search_tree` -/

/-- `write_search_tree` of a reachable tree that is not finalized writes nothing to its file,
    although `finalize_tree` numbered at least the root: `start_iteration` walks the tree with
    `assign_node_number` instead of `encode_node`.  That walk numbers every node a second time,
    counting on from `node_count`, so on return `node_count` is twice what `finalize_tree` set
    and the root is numbered `node_count` instead of 0. -/
theorem writeSearchTree_writes_nothing {t : Tree} (ht : Reachable anyOp t)
    (hf : t.isFinalized = false) (order : ByteOrder) (stack : List Nat) :
    let w := writeSearchTree t order stack
    w.2 = [] ∧ 1 ≤ (finalizeTree t).nodeCount ∧
      w.1.nodeCount = 2 * (finalizeTree t).nodeCount ∧
      (w.1.nodes w.1.rootNode).number = (finalizeTree t).nodeCount := by
  intro w
  have hw := ht.valid.wellFormed
  obtain ⟨hcount, hnext, hroot, hside⟩ := finalizeTree_walkOrder hf
  obtain ⟨rest, hrest⟩ := t.walkOrder_root t.nextNode t.rootNode
  -- the walk meets the root first and never again: no record leads back to it
  have hnot : t.rootNode ∉ rest := fun hr => by
    obtain ⟨b, p, hp⟩ := t.walkOrder_reach_tail _ _ hrest _ hr
    exact ht.noEdgeToRoot.select_ne_root hw _ _ _ hw.root_lt (List.cons_ne_nil _ _) hp rfl
  have hw₁ : w.1 = (t.rootNode :: rest).foldl assignNodeNumber (finalizeTree t) := by
    show (iterateTree .assignNodeNumber ((finalizeTree t).nextNode + 1)
      ⟨finalizeTree t, [], some stack⟩ (finalizeTree t).rootNode []).1.tree = _
    rw [iterateTree_eq_foldl, foldl_call_assignNodeNumber]
    dsimp only
    rw [Tree.walkOrder_congr hside, hnext, hroot, hrest]
  obtain ⟨nodes, hfold⟩ := foldl_assignNodeNumber_eq (t.rootNode :: rest) (finalizeTree t)
  refine ⟨writeSearchTree_output _ _ _, by rw [hcount, hrest]; simp, ?_, ?_⟩
  · rw [hw₁, hfold]
    simp only [hcount, hrest, List.length_cons]
    omega
  · have hr : w.1.rootNode = t.rootNode := by rw [hw₁, hfold]; exact hroot
    rw [hr, hw₁, List.foldl_cons, foldl_assignNodeNumber_of_not_mem rest hnot]
    simp [assignNodeNumber]

/-- On an empty IPv4 tree, `write_search_tree` writes nothing and leaves `node_count` at 2. -/
theorem writeSearchTree_writes_nothing_new :
    (writeSearchTree (newTree 4 24 0) .littleEndian []).2 = [] ∧
      1 ≤ (finalizeTree (newTree 4 24 0)).nodeCount ∧
      (writeSearchTree (newTree 4 24 0) .littleEndian []).1.nodeCount =
        2 * (finalizeTree (newTree 4 24 0)).nodeCount :=
  let h := writeSearchTree_writes_nothing (.newTree 4 24 0 (.inl rfl) : Reachable anyOp _) rfl
    .littleEndian []
  ⟨h.1, h.2.1, h.2.2.1⟩

end MMDBW
