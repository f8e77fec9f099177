/-
  The sibling merge as an invariant of the runs that only insert and delete.

  `insert_record_for_network` checks, before it writes a `DATA` record, whether the other record
  of the same node holds a key with the same bytes; if it does it first inserts the record for the
  parent network, which replaces the `NODE` record leading to that node, and the node drops out
  of the tree.  So in every tree built by `insert_network` and `delete_network` no node reachable
  from the root, the root apart, has two `DATA` records with byte-equal keys
  (`reachable_no_mergeable_pair`).  The root is the exception: the merge recursion at the root
  goes on with the same root (the mask wraps from /1 to /0, /255, ...), and its records can end
  up as such a pair.  Then an insert of that key never returns
  (`insertNetwork_root_pair_never_returns`); when the root's record on the other side from the
  network's first bit does not hold the key, it returns after at most one level per mask bit
  (`insertNetwork_returns_of_root`).

  The proof works on paths: `Tree.MergeableAt t p` says that the node the halting descent along
  `p` reaches is such a pair, read off the records the descent finds one bit further, and
  `Tree.PairAt R t p` says the same for any relation `R` between the two records that fails when
  one is `NODE`.  One level of the insert changes which paths are pairs only at the end of its
  own path (`Tree.materialize_pairAt`, `Tree.setRecord_pairAt`), and there the merge test or the
  merge itself rules a mergeable pair out (`insertRecordForNetwork_pairAt`).
-/
import MaxMindDBWriter.Reachable

namespace MMDBW

/-! ## Pairs of sibling records -/

theorem sameDataKey_comm (r r' : Record) : sameDataKey r r' = sameDataKey r' r := by
  cases r <;> cases r' <;> simp [sameDataKey, Bool.beq_comm]

@[simp] theorem sameDataKey_node_left (c : Nat) (r : Record) : sameDataKey (.node c) r = false := by
  cases r <;> rfl

@[simp] theorem sameDataKey_node_right (r : Record) (c : Nat) : sameDataKey r (.node c) = false := by
  cases r <;> rfl

theorem sameDataKey_node (c : Nat) (r : Record) :
    sameDataKey (.node c) r = false ∧ sameDataKey r (.node c) = false :=
  ⟨sameDataKey_node_left c r, sameDataKey_node_right r c⟩

/-- Both records of a node are `DATA` with keys of the same bytes: the pair the sibling merge of
    `insert_record_for_network` lifts into the parent record. -/
def Node.mergeable (node : Node) : Bool := sameDataKey node.leftRecord node.rightRecord

/-- The node the halting descent along `p` reaches holds two records that `R` relates, read off
    the records the descent finds one bit further. -/
def Tree.PairAt (R : Record → Record → Bool) (t : Tree) (p : List Bool) : Prop :=
  (∃ h, t.select t.rootNode p = .node h) ∧
    R (t.select t.rootNode (p ++ [false])) (t.select t.rootNode (p ++ [true])) = true

/-- The node the halting descent along `p` reaches is a mergeable pair. -/
def Tree.MergeableAt (t : Tree) (p : List Bool) : Prop :=
  (∃ h, t.select t.rootNode p = .node h) ∧
    sameDataKey (t.select t.rootNode (p ++ [false])) (t.select t.rootNode (p ++ [true])) = true

section PairAt

variable {R : Record → Record → Bool} {t t' : Tree} {p : List Bool}

theorem Tree.mergeableAt_iff {h : Nat} (hs : t.select t.rootNode p = .node h) :
    t.MergeableAt p ↔ (t.nodes h).mergeable = true := by
  simp only [Tree.MergeableAt, Tree.select_append, hs, Tree.select_singleton, Node.mergeable,
    Node.side, Bool.false_eq_true, if_false, if_true]
  exact ⟨fun hm => hm.2, fun hm => ⟨⟨h, rfl⟩, hm⟩⟩

/-- Whether `p` is a pair depends on the halting descents along `p` and one bit further. -/
theorem Tree.pairAt_congr (h₀ : t'.select t'.rootNode p = t.select t.rootNode p)
    (h₁ : ∀ c, t'.select t'.rootNode (p ++ [c]) = t.select t.rootNode (p ++ [c])) :
    t'.PairAt R p ↔ t.PairAt R p := by
  simp only [Tree.PairAt, h₀, h₁]

theorem Tree.SameGraph.pairAt (h : t.SameGraph t') : t.PairAt R p ↔ t'.PairAt R p :=
  (Tree.pairAt_congr (by rw [h.select_eq, h.rootNode_eq]) fun _ => by
    rw [h.select_eq, h.rootNode_eq]).symm

/-- A path whose descent stops early reaches no node. -/
theorem Tree.not_pairAt_of_select {r : Record} (hs : t.select t.rootNode p = r)
    (hr : ∀ c, r ≠ .node c) : ¬ t.PairAt R p :=
  fun ⟨⟨h, hh⟩, _⟩ => hr h (hs ▸ hh)

/-- For a relation that holds of no pair with a `NODE` record, a node with a `NODE` record is
    no pair. -/
theorem Tree.not_pairAt_of_node (hR : ∀ x r, R (.node x) r = false ∧ R r (.node x) = false)
    {c : Bool} {x : Nat} (hs : t.select t.rootNode (p ++ [c]) = .node x) : ¬ t.PairAt R p :=
  fun ⟨_, hm⟩ => by cases c <;> simp [hs, hR] at hm

end PairAt

theorem prefix_append_singleton_cases {P p : List Bool} {b c : Bool} (h : P ++ [b] <+: p ++ [c]) :
    P ++ [b] <+: p ∨ P = p := by
  by_cases hl : P.length < p.length
  · exact .inl (List.prefix_of_prefix_length_le h (List.prefix_append p [c]) (by simp; omega))
  · have hlen := h.length_le
    simp only [List.length_append, List.length_singleton] at hlen
    exact .inr (List.append_inj (h.eq_of_length (by simp; omega)) (by omega)).1

/-! ## One level of `insert_record_for_network` -/

section Level

variable {R : Record → Record → Bool} {t : Tree} {pos : Nat → List Bool} (hw : t.WellFormed)
  (hl : t.Labelled pos)
include hw hl

/-- The materialising descent along `P` makes no path a pair but `P` itself: the nodes it
    passes on the way have a `NODE` record, and the paths off it are unchanged. -/
theorem Tree.materialize_pairAt (hR : ∀ x r, R (.node x) r = false ∧ R r (.node x) = false)
    (P : List Bool) {p : List Bool} (hp : p ≠ P) (hm : (t.materialize t.rootNode P).1.PairAt R p) :
    t.PairAt R p := by
  obtain ⟨-, -, -, root, -, sel, -⟩ := Tree.materialize_spec P t t.rootNode hw hw.root_lt
  obtain ⟨-, -, -, far⟩ := Tree.materialize_labelled P t pos [] t.rootNode hw hl rfl
  replace sel : (t.materialize t.rootNode P).1.select (t.materialize t.rootNode P).1.rootNode P =
      .node (t.materialize t.rootNode P).2 := by rw [root]; exact sel
  replace far : ∀ q, ¬ q <+: P → (t.materialize t.rootNode P).1.select
      (t.materialize t.rootNode P).1.rootNode q = t.select t.rootNode q := fun q hq => by
    rw [root]; exact far q hq
  by_cases hpre : p <+: P
  · -- a node on the path: its record towards `P` is `NODE`
    obtain ⟨s, rfl⟩ := hpre
    obtain ⟨c, s, rfl⟩ : ∃ c s', s = c :: s' := by
      cases s with
      | nil => exact absurd (List.append_nil p).symm hp
      | cons c s' => exact ⟨c, s', rfl⟩
    obtain ⟨x, hx⟩ := Tree.select_prefix_node (q := p ++ [c]) sel ⟨s, List.append_assoc _ _ _⟩
    exact absurd hm (Tree.not_pairAt_of_node hR hx)
  · exact (Tree.pairAt_congr (far p hpre) fun c =>
      far _ fun h => hpre ((List.prefix_append p [c]).trans h)).mp hm

/-- The final write of a level, into the node `X` at the end of its path `P` (or, after a merge,
    into a node the merge has cut off): no path but `P` becomes a pair. -/
theorem Tree.setRecord_pairAt {X : Nat} {P : List Bool} (hpos : pos X = P) {b : Bool}
    {r : Record} (hr : ∀ c, r ≠ .node c)
    (hP : t.select t.rootNode P = .node X ∨ t.select t.rootNode P = r) {p : List Bool}
    (hp : p ≠ P) (hm : (t.setRecord X b r).PairAt R p) : t.PairAt R p := by
  have frame : ∀ q, ¬ P ++ [b] <+: q →
      (t.setRecord X b r).select (t.setRecord X b r).rootNode q = t.select t.rootNode q :=
    fun q hq => hl.select_setRecord hw X b r (by rwa [hpos])
  by_cases hpre : P ++ [b] <+: p
  · -- below the written record: the descent stops on it
    obtain ⟨s, rfl⟩ := hpre
    have hend : (t.setRecord X b r).select (t.setRecord X b r).rootNode (P ++ [b]) = r := by
      rw [Tree.setRecord_rootNode]
      rcases hP with hP | hP
      · exact Tree.select_setRecord_path t hr b P _ _ hP
      · exact Tree.select_setRecord_of_select t hr X b _ _ (Tree.select_append_of_ne_node _ hP hr _)
    exact absurd hm (Tree.not_pairAt_of_select (Tree.select_append_of_ne_node _ hend hr s) hr)
  · exact (Tree.pairAt_congr (frame p hpre) fun c =>
      frame _ fun h => (prefix_append_singleton_cases h).elim hpre fun e => hp e.symm).mp hm

/-- The node the write goes into, at the end of its path, still reached along it. -/
theorem Tree.select_setRecord_end {X : Nat} {P : List Bool} (hpos : pos X = P) (b : Bool)
    (r : Record) (hs : t.select t.rootNode P = .node X) :
    (t.setRecord X b r).select (t.setRecord X b r).rootNode P = .node X := by
  rw [Tree.setRecord_rootNode,
    hl.select_setRecord hw X b r (by rw [hpos]; exact not_prefix_of_length_lt (by simp))]
  exact hs

/-- A write whose merge test failed leaves the node it writes into no mergeable pair. -/
theorem Tree.setRecord_not_mergeableAt {X : Nat} {P : List Bool} (hpos : pos X = P) {b : Bool}
    {r : Record} (hs : t.select t.rootNode P = .node X)
    (hno : sameDataKey r ((t.nodes X).side !b) = false) : ¬ (t.setRecord X b r).MergeableAt P := by
  rw [Tree.mergeableAt_iff (Tree.select_setRecord_end hw hl hpos b r hs), Node.mergeable]
  cases b <;> simp_all [Node.side, Node.setSide, sameDataKey_comm]

end Level

/-- One returning `insert_record_for_network` of a record that is not `NODE` makes no nonempty
    path a pair that was not one before, for a relation that holds of no pair with a `NODE`
    record and that every write whose merge test failed leaves false at the end of its path. -/
theorem insertRecordForNetwork_pairAt {R : Record → Record → Bool}
    (hR : ∀ x r, R (.node x) r = false ∧ R r (.node x) = false) {r : Record}
    (hr : ∀ c, r ≠ .node c)
    (hfix : ∀ (t : Tree) (pos : Nat → List Bool), t.WellFormed → t.Labelled pos →
      ∀ (X : Nat) (P : List Bool), pos X = P → ∀ (b : Bool), t.select t.rootNode P = .node X →
        sameDataKey r ((t.nodes X).side !b) = false → ¬ (t.setRecord X b r).PairAt R P)
    (fuel : Nat) :
    ∀ (t : Tree) (pos : Nat → List Bool) (network : Network) (t' : Tree), t.WellFormed →
      t.Labelled pos → insertRecordForNetwork fuel t network r = some t' →
      ∀ p, p ≠ [] → t'.PairAt R p → t.PairAt R p := by
  induction fuel with
  | zero => intro t pos network t' _ _ h; simp [insertRecordForNetwork] at h
  | succ fuel ih =>
    intro t pos network t' hw hl h p hp hm
    obtain ⟨t₁, hcase, rfl⟩ := insertRecordForNetwork_some h
    generalize hd : t.materialize t.rootNode (network.bits network.depth) = d at hcase hm
    obtain ⟨wd, ltd, -, rootd, -, seld, -⟩ :=
      hd ▸ Tree.materialize_spec (network.bits network.depth) t t.rootNode hw hw.root_lt
    obtain ⟨posd, hld, -, -⟩ :=
      hd ▸ Tree.materialize_labelled (network.bits network.depth) t pos [] t.rootNode hw hl rfl
    replace seld : d.1.select d.1.rootNode (network.bits network.depth) = .node d.2 := by
      rw [rootd]; exact seld
    have hposd : posd d.2 = network.bits network.depth := hld.pos_of_select_root wd seld
    -- the tree before the final write, and where the path `P` of this level leads in it
    obtain ⟨pos₁, hl₁, w₁, hpos₁, hsel₁, hm₁⟩ : ∃ pos₁, t₁.Labelled pos₁ ∧ t₁.WellFormed ∧
        pos₁ d.2 = network.bits network.depth ∧
        ((t₁.select t₁.rootNode (network.bits network.depth) = .node d.2 ∧
            sameDataKey r ((t₁.nodes d.2).side !(network.bit network.depth)) = false) ∨
          t₁.select t₁.rootNode (network.bits network.depth) = r ∨
          (network.bits network.depth = [] ∧
            t₁.select t₁.rootNode (network.bits network.depth) = .node d.2)) ∧
        ∀ p, p ≠ [] → t₁.PairAt R p → d.1.PairAt R p := by
      rcases hcase with ⟨-, hrec⟩ | ⟨hno, rfl⟩
      · obtain ⟨pos₁, hl₁, ag₁, -⟩ := insertRecordForNetwork_labelled hr fuel d.1 posd _ t₁ wd hld hrec
        obtain ⟨w₁, root₁, -, -, sel₁⟩ := insertRecordForNetwork_spec hr fuel d.1 _ t₁ wd hrec
        refine ⟨pos₁, hl₁, w₁, by rw [ag₁ _ ltd, hposd], ?_, ih d.1 posd _ t₁ wd hld hrec⟩
        rcases Nat.eq_zero_or_pos network.depth with h0 | h0
        · -- a merge at the root: the path of this level is empty
          have hnil : network.bits network.depth = [] := by simp [h0, Network.bits]
          rw [hnil] at seld ⊢
          exact .inr (.inr ⟨rfl, by rw [Tree.select_nil, root₁]; exact seld⟩)
        · rw [Network.depth_parent _ h0, Nat.sub_add_cancel h0, Network.parent_bits] at sel₁
          exact .inr (.inl sel₁)
      · exact ⟨posd, hld, wd, hposd, .inl ⟨seld, hno⟩, fun _ _ hm => hm⟩
    have hX₁ : t₁.select t₁.rootNode (network.bits network.depth) = .node d.2 ∨
        t₁.select t₁.rootNode (network.bits network.depth) = r := by
      rcases hsel₁ with ⟨hs, -⟩ | hs | ⟨-, hs⟩
      · exact .inl hs
      · exact .inr hs
      · exact .inl hs
    by_cases hpP : p = network.bits network.depth
    · -- at the end of the path: the merge test failed, or the merge cut the path there
      subst hpP
      rcases hsel₁ with ⟨hs, hno⟩ | hs | ⟨hnil, -⟩
      · exact absurd hm (hfix t₁ pos₁ w₁ hl₁ _ _ hpos₁ _ hs hno)
      · refine absurd hm (Tree.not_pairAt_of_select ?_ hr)
        rw [Tree.setRecord_rootNode]
        exact Tree.select_setRecord_of_select t₁ hr _ _ _ _ hs
      · exact absurd hnil hp
    · have hd₁ := hm₁ p hp (Tree.setRecord_pairAt w₁ hl₁ hpos₁ hr hX₁ hpP hm)
      rw [← hd] at hd₁
      exact Tree.materialize_pairAt hw hl hR _ hpP hd₁

/-! ## Runs of inserts and deletes -/

/-- No node the root leads to, the root apart, is a mergeable pair. -/
def Tree.NoMergeablePair (t : Tree) : Prop := ∀ p, p ≠ [] → ¬ t.MergeableAt p

theorem insertNetwork_noMergeablePair {fuel : Nat} {t t' : Tree} {lit : IpLiteral}
    {maskLength : UInt8} {key data : SV} {result : Int} {pos : Nat → List Bool}
    (hw : t.WellFormed) (hl : t.Labelled pos) (hn : t.NoMergeablePair)
    (h : insertNetwork fuel t lit maskLength key data = some (result, t')) : t'.NoMergeablePair := by
  rcases insertNetwork_some h with ⟨-, -, -, rfl⟩ | ⟨-, -, t₀, t₁, h₀, h₁, h'⟩
  · exact hn
  · refine fun p hp hm => hn p hp (h₀.pairAt.mp ?_)
    exact insertRecordForNetwork_pairAt sameDataKey_node (by simp)
      (fun _ _ hw hl _ _ hpos _ hs hno => Tree.setRecord_not_mergeableAt hw hl hpos hs hno) fuel t₀ pos _ t₁ (h₀.wellFormed hw)
      (h₀.labelled hl) h₁ p hp (h'.pairAt.mp hm)

theorem deleteNetwork_noMergeablePair {t : Tree} {pos : Nat → List Bool} (lit : IpLiteral)
    (maskLength : UInt8) (hw : t.WellFormed) (hl : t.Labelled pos) (hn : t.NoMergeablePair) :
    (deleteNetwork t lit maskLength).NoMergeablePair := by
  rcases deleteNetwork_cases t lit maskLength with ⟨he, -⟩ | h
  · rw [he]; exact hn
  · exact fun p hp hm => hn p hp (insertRecordForNetwork_pairAt sameDataKey_node (by simp)
      (fun _ _ hw hl _ _ hpos _ hs hno => Tree.setRecord_not_mergeableAt hw hl hpos hs hno) 1 t pos _ _ hw hl h p hp hm)

theorem insertOrDelete_aliasFree (t : Tree) (op : Op) (h : insertOrDelete t op) : aliasFree t op := by
  cases op <;> simp_all [insertOrDelete, aliasFree]

theorem Reachable.noMergeablePair {t : Tree} (ht : Reachable insertOrDelete t) :
    t.NoMergeablePair := by
  induction ht with
  | newTree v r n _ => exact fun p hp => Tree.not_pairAt_of_select (newTree_select v r n hp) (by simp)
  | step hr ha hs ih =>
    obtain ⟨pos, hl⟩ := (hr.mono insertOrDelete_aliasFree).labelled
    cases hs with
    | insertNetwork h => exact insertNetwork_noMergeablePair hr.valid.wellFormed hl ih h
    | deleteNetwork => exact deleteNetwork_noMergeablePair _ _ hr.valid.wellFormed hl ih
    | deleteReservedNetworks => simp [insertOrDelete] at ha
    | aliasIpv4Networks => simp [insertOrDelete] at ha

/-- In a tree built by `insert_network` and `delete_network`, no node the root leads to, the root
    apart, has two `DATA` records with keys of the same bytes. -/
theorem reachable_no_mergeable_pair {t : Tree} (ht : Reachable insertOrDelete t) {p : List Bool}
    {h : Nat} (hs : t.select t.rootNode p = .node h) (hroot : h ≠ t.rootNode) :
    (t.nodes h).mergeable = false := by
  have hp : p ≠ [] := by
    rintro rfl
    exact hroot (Record.node.inj (Tree.select_nil t _ ▸ hs)).symm
  exact Bool.eq_false_iff.mpr fun hm => ht.noMergeablePair p hp ((Tree.mergeableAt_iff hs).mpr hm)

/-- After `0.0.0.0/2 → k` in an empty IPv4 tree, the node at `0.0.0.0/1` is no mergeable pair. -/
theorem reachable_no_mergeable_pair_quarter :
    ∃ t, insertNetwork 1 (newTree 4 24 0) (v4 0 0 0 0) 2 ⟨1, [65]⟩ ⟨2, [66]⟩ = some (0, t) ∧
      t.select t.rootNode [false] = .node 1 ∧ (t.nodes 1).mergeable = false :=
  ⟨_, rfl, rfl, reachable_no_mergeable_pair (.step (.newTree 4 24 0 (.inl rfl))
    (show insertOrDelete _ (.insertNetwork (v4 0 0 0 0) 2 ⟨1, [65]⟩ ⟨2, [66]⟩) from trivial)
    (.insertNetwork (show insertNetwork 1 _ _ _ _ _ = some (0, _) from rfl))) (p := [false]) rfl
    (by decide)⟩

/-! ## A merge recursion that does not end -/

/-- Beside the address of `network`, at every depth, the halting descent ends on a `DATA` record
    with the bytes of `key`: every level of an insert of `key` along it finds its sibling merge. -/
def Tree.SiblingKeys (t : Tree) (network : Network) (key : SV) : Prop :=
  ∀ d, d ≤ network.maxDepth0 →
    sameDataKey (.data key) (t.select t.rootNode (network.bits d ++ [!network.bit d])) = true

/-- A root with two `DATA` records of `key`'s bytes puts them beside every path. -/
theorem Tree.siblingKeys_of_root {t : Tree} {key : SV}
    (hroot : ∀ b, sameDataKey (.data key) ((t.nodes t.rootNode).side b) = true) (network : Network) :
    t.SiblingKeys network key := by
  intro d _
  cases d with
  | zero => simpa [Network.bits] using hroot _
  | succ d =>
    obtain ⟨s, hs⟩ := network.bits_prefix (show 1 ≤ d + 1 by omega)
    have h0 := hroot (network.bit 0)
    cases hk : (t.nodes t.rootNode).side (network.bit 0) with
    | data k =>
      have h1 : t.select t.rootNode (network.bits 1) = .data k := by
        show t.select t.rootNode [network.bit 0] = _
        simp [hk]
      rw [← hs, List.append_assoc, t.select_append_of_ne_node h1 (by simp)]
      rwa [hk] at h0
    | empty | node => simp [hk, sameDataKey] at h0

/-- The materialising descent along the network's own bits keeps the records beside them. -/
theorem Tree.SiblingKeys.materialize {t : Tree} {pos : Nat → List Bool} (hw : t.WellFormed)
    (hl : t.Labelled pos) {network : Network} {key : SV} (hk : t.SiblingKeys network key) (j : Nat) :
    (t.materialize t.rootNode (network.bits j)).1.SiblingKeys network key := by
  obtain ⟨-, -, -, far⟩ := Tree.materialize_labelled (network.bits j) t pos [] t.rootNode hw hl rfl
  obtain ⟨-, -, -, root, -⟩ := Tree.materialize_spec (network.bits j) t t.rootNode hw hw.root_lt
  intro d hd
  rw [root, far _ fun hpre => ?_]
  · exact hk d hd
  · -- the path beside bit `d` leaves the network's bits at `d`
    rw [List.nil_append] at hpre
    rcases Nat.lt_or_ge d j with hdj | hdj
    · have h := List.prefix_iff_eq_take.mp hpre
      rw [List.length_append, Network.length_bits, List.length_singleton,
        Network.take_bits _ (by omega), Network.bits_succ] at h
      simpa using List.append_cancel_left h
    · exact not_prefix_of_length_lt (by simp; omega) hpre

/-- An insert of `key` along a network with `key`'s bytes beside every level of its path does
    not return for any fuel: each level merges, and the tree it recurses on keeps the keys
    beside the path, so the recursion goes on with the parent network (at the root the mask
    wraps from /0 to /255 and the descents start again). -/
theorem insertRecordForNetwork_siblingKeys {key : SV} (fuel : Nat) :
    ∀ (t : Tree) (pos : Nat → List Bool) (network : Network), t.WellFormed → t.Labelled pos →
      t.SiblingKeys network key → insertRecordForNetwork fuel t network (.data key) = none := by
  induction fuel with
  | zero => intro _ _ _ _ _ _; rfl
  | succ fuel ih =>
    intro t pos network hw hl hk
    obtain ⟨w, -, -, root, -, sel, -⟩ :=
      Tree.materialize_spec (network.bits network.depth) t t.rootNode hw hw.root_lt
    obtain ⟨pos', hl', -, -⟩ :=
      Tree.materialize_labelled (network.bits network.depth) t pos [] t.rootNode hw hl rfl
    have hk' := hk.materialize hw hl network.depth
    have hmerge := hk' network.depth (Network.depth_le _)
    rw [root, Tree.select_append, sel] at hmerge
    dsimp only at hmerge
    rw [Tree.select_singleton] at hmerge
    rw [insertRecordForNetwork_succ]
    dsimp only
    rw [if_pos hmerge, ih _ pos' network.parent w hl' hk']
    rfl

/-- Once the root of a tree built by inserts and deletes holds two `DATA` records with the bytes
    of `key`, `insert_network` of `key` does not return, for every network it accepts and every
    fuel. -/
theorem insertNetwork_root_pair_never_returns {t : Tree} (ht : Reachable insertOrDelete t)
    {key : SV} (hroot : ∀ b, sameDataKey (.data key) ((t.nodes t.rootNode).side b) = true)
    (lit : IpLiteral) (maskLength : UInt8) (data : SV)
    (hacc : ¬ (t.ipVersion = 4 ∧ (resolveNetwork t lit maskLength).family = .inet6)) (fuel : Nat) :
    insertNetwork fuel t lit maskLength key data = none := by
  obtain ⟨pos, hl⟩ := (ht.mono insertOrDelete_aliasFree).labelled
  have hw := ht.valid.wellFormed
  cases h : insertNetwork fuel t lit maskLength key data with
  | none => rfl
  | some r =>
    rcases insertNetwork_some h with ⟨h4, h6, -⟩ | ⟨-, -, t₀, t₁, h₀, h₁, -⟩
    · exact absurd ⟨h4, h6⟩ hacc
    · have hroot₀ : ∀ b, sameDataKey (.data key) ((t₀.nodes t₀.rootNode).side b) = true := by
        rw [h₀.nodes_eq, h₀.rootNode_eq]; exact hroot
      rw [insertRecordForNetwork_siblingKeys fuel t₀ pos _ (h₀.wellFormed hw) (h₀.labelled hl)
        (Tree.siblingKeys_of_root hroot₀ _)] at h₁
      cases h₁

set_option maxRecDepth 20000 in
/-- In an empty IPv4 tree, `0.0.0.0/1 → k` and then `128.0.0.0/1 → k` (whose merge at the root
    runs through the masks /0, /255, ..., /33 and /32 before it returns) leave the root with two
    `DATA k` records, and `0.0.0.0/1 → k` once more does not return. -/
theorem insertNetwork_root_pair_halves :
    ∃ t₁ t, insertNetwork 1 (newTree 4 24 0) (v4 0 0 0 0) 1 ⟨1, [65]⟩ ⟨2, [66]⟩ = some (0, t₁) ∧
      insertNetwork 300 t₁ (v4 128 0 0 0) 1 ⟨1, [65]⟩ ⟨2, [66]⟩ = some (0, t) ∧
      (∀ b, sameDataKey (.data ⟨1, [65]⟩) ((t.nodes t.rootNode).side b) = true) ∧
      ∀ fuel, insertNetwork fuel t (v4 0 0 0 0) 1 ⟨1, [65]⟩ ⟨2, [66]⟩ = none := by
  have h : ((insertNetwork 1 (newTree 4 24 0) (v4 0 0 0 0) 1 ⟨1, [65]⟩ ⟨2, [66]⟩).bind fun r =>
      (insertNetwork 300 r.2 (v4 128 0 0 0) 1 ⟨1, [65]⟩ ⟨2, [66]⟩).map fun r' =>
        (r.1, r'.1, (r'.2.nodes r'.2.rootNode).leftRecord, (r'.2.nodes r'.2.rootNode).rightRecord)) =
      some (0, 0, .data ⟨1, [65]⟩, .data ⟨1, [65]⟩) := by decide
  obtain ⟨⟨r₁, t₁⟩, h₁, h₂⟩ := Option.bind_eq_some.mp h
  obtain ⟨⟨r₂, t⟩, h₃, h₄⟩ := Option.map_eq_some'.mp h₂
  simp only [Prod.mk.injEq] at h₄
  obtain ⟨rfl, rfl, hl, hr⟩ := h₄
  have hroot : ∀ b, sameDataKey (.data ⟨1, [65]⟩) ((t.nodes t.rootNode).side b) = true := by
    intro b; cases b <;> simp [Node.side, hl, hr, sameDataKey]
  have w₁ := insertNetwork_wellFormed (Tree.Valid.newTree 24 0 (.inl rfl)).wellFormed h₁
  have hip : t.ipVersion = 4 := (insertNetwork_wellFormed w₁.1 h₃).2.2.trans w₁.2.2
  refine ⟨t₁, t, h₁, h₃, hroot, insertNetwork_root_pair_never_returns
    (.step (.step (.newTree 4 24 0 (.inl rfl))
      (show insertOrDelete _ (.insertNetwork _ _ _ _) from trivial) (.insertNetwork h₁))
      (show insertOrDelete _ (.insertNetwork _ _ _ _) from trivial) (.insertNetwork h₃))
    hroot _ _ _ ?_⟩
  rintro ⟨-, h6⟩
  simp [resolveNetwork, v4, hip] at h6

/-! ## When the merge recursion returns -/

/-- No path of a network starts with the other side from its first bit. -/
theorem Network.not_prefix_bits_flip (network : Network) (k : Nat) :
    ¬ [!network.bit 0] <+: network.bits k := by
  rintro ⟨l, hl⟩
  cases k with
  | zero => simp [Network.bits] at hl
  | succ k =>
    have h := congrArg List.head? hl
    simp [Network.bits, List.range_succ_eq_map] at h

/-- The materialising descent along a network's path keeps the root's record on the other side
    from the network's first bit. -/
theorem Tree.materialize_root_flip {t : Tree} {pos : Nat → List Bool} (hw : t.WellFormed)
    (hl : t.Labelled pos) (network : Network) (k : Nat) :
    ((t.materialize t.rootNode (network.bits k)).1.nodes t.rootNode).side (!network.bit 0) =
      (t.nodes t.rootNode).side (!network.bit 0) := by
  obtain ⟨-, -, -, hkeep⟩ := Tree.materialize_labelled (network.bits k) t pos [] t.rootNode hw hl rfl
  simpa using hkeep [!network.bit 0] (network.not_prefix_bits_flip k)

/-- `insert_record_for_network` returns, with more fuel than the network is deep, whenever the
    root's record on the other side from the network's first bit does not hold the new record's
    key: each merge climbs one level, and at the root the merge test fails. -/
theorem insertRecordForNetwork_returns_of_root {r : Record} (fuel : Nat) :
    ∀ (t : Tree) (pos : Nat → List Bool) (network : Network), t.WellFormed → t.Labelled pos →
      network.depth < fuel → sameDataKey r ((t.nodes t.rootNode).side (!network.bit 0)) = false →
      insertRecordForNetwork fuel t network r ≠ none := by
  induction fuel with
  | zero => intro _ _ _ _ _ hd; omega
  | succ fuel ih =>
    intro t pos network hw hl hd hroot
    obtain ⟨w, -, -, root, -, -, -⟩ :=
      Tree.materialize_spec (network.bits network.depth) t t.rootNode hw hw.root_lt
    obtain ⟨pos', hl', -, -⟩ :=
      Tree.materialize_labelled (network.bits network.depth) t pos [] t.rootNode hw hl rfl
    rw [insertRecordForNetwork_succ]
    dsimp only
    split
    · rename_i hmerge
      rcases Nat.eq_zero_or_pos network.depth with h0 | hpos
      · -- at depth 0 the sibling is the root's other half
        simp only [h0, Network.bits, List.range_zero, List.map_nil, Tree.materialize] at hmerge
        rw [hroot] at hmerge
        exact absurd hmerge Bool.false_ne_true
      · rw [Ne, Option.map_eq_none']
        refine ih _ pos' network.parent w hl' (by rw [Network.depth_parent _ hpos]; omega) ?_
        rw [root, Network.parent_bit, Tree.materialize_root_flip hw hl]
        exact hroot
    · exact Option.some_ne_none _

/-- In a tree built without aliases, `insert_network` of `key` returns, with more fuel than the
    mask is long, whenever the root's record on the other side from the network's first bit does
    not hold `key`'s bytes.  Beside `insertNetwork_root_pair_never_returns`: only a root whose
    records hold the key can keep an insert from returning. -/
theorem insertNetwork_returns_of_root {t : Tree} (ht : Reachable aliasFree t) (lit : IpLiteral)
    (maskLength : UInt8) (key data : SV)
    (hroot : sameDataKey (.data key)
      ((t.nodes t.rootNode).side (!(resolveNetwork t lit maskLength).bit 0)) = false)
    (fuel : Nat) (hfuel : maskLength.toNat < fuel) :
    insertNetwork fuel t lit maskLength key data ≠ none := by
  obtain ⟨pos, hl⟩ := ht.labelled
  have hd : (resolveNetwork t lit maskLength).depth < fuel := by
    rw [Network.depth_eq, resolveNetwork_maskLength]; split <;> omega
  unfold insertNetwork
  dsimp only
  split
  · exact Option.some_ne_none _
  · rw [Ne, Option.map_eq_none']
    have hg : Tree.SameGraph (hvStoreEnt { t with refs := incRef (incRef t.refs key) data } key data) t :=
      ⟨rfl, rfl, rfl, rfl⟩
    exact insertRecordForNetwork_returns_of_root fuel _ pos _ (hg.wellFormed ht.valid.wellFormed)
      (hg.labelled hl) hd hroot

/-- `10.0.0.0/8 → k` in a new IPv4 tree, then `11.0.0.0/8 → k` with the same key: the root's
    other half holds no data, so the second insert returns; it merges the two /8s into
    `10.0.0.0/7`, which is why one level of fuel is not enough for it. -/
theorem insertNetwork_returns_of_root_merge :
    ∃ t, insertNetwork 1 (newTree 4 24 0) (v4 10 0 0 0) 8 ⟨1, [65]⟩ ⟨2, [66]⟩ = some (0, t) ∧
      sameDataKey (.data ⟨1, [65]⟩)
        ((t.nodes t.rootNode).side (!(resolveNetwork t (v4 11 0 0 0) 8).bit 0)) = false ∧
      (8 : UInt8).toNat < 9 ∧ insertNetwork 9 t (v4 11 0 0 0) 8 ⟨1, [65]⟩ ⟨3, [67]⟩ ≠ none ∧
      insertNetwork 1 t (v4 11 0 0 0) 8 ⟨1, [65]⟩ ⟨3, [67]⟩ = none := by
  obtain ⟨t, h, hroot, hmerge⟩ : ∃ t,
      insertNetwork 1 (newTree 4 24 0) (v4 10 0 0 0) 8 ⟨1, [65]⟩ ⟨2, [66]⟩ = some (0, t) ∧
      sameDataKey (.data ⟨1, [65]⟩)
        ((t.nodes t.rootNode).side (!(resolveNetwork t (v4 11 0 0 0) 8).bit 0)) = false ∧
      insertNetwork 1 t (v4 11 0 0 0) 8 ⟨1, [65]⟩ ⟨3, [67]⟩ = none :=
    ⟨_, rfl, rfl, rfl⟩
  have ht : Reachable aliasFree t :=
    .step (.newTree 4 24 0 (.inl rfl)) (by simp [aliasFree]) (.insertNetwork h)
  exact ⟨t, h, hroot, by decide,
    insertNetwork_returns_of_root ht (v4 11 0 0 0) 8 ⟨1, [65]⟩ ⟨3, [67]⟩ hroot 9 (by decide), hmerge⟩

end MMDBW
