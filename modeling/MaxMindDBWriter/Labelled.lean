/-
  Trees built without `alias_ipv4_networks` are trees: every node can be labelled with the
  path from the root that leads to it (`Tree.Labelled`).  The labelling is what makes the
  "outside the prefix nothing changes" halves of the insert and delete laws true, and it is
  exactly what the alias edges destroy (the IPv4 subtree then hangs under three paths).

  * `Tree.Labelled.select_eq` — the frame lemma: a halting descent from the root along `q`
    reads only the records at the labels of the prefixes of `q`, so a write elsewhere does not
    change it;
  * `Tree.materialize_labelled` — the materialising descent along `P` changes no halting
    descent whose path is not a prefix of `P`: a leaf record it replaces by a node is copied
    into both halves of that node;
  * `insertRecordForNetwork_labelled` — after a returning `insert_record_for_network`, every
    full-length path outside the network ends on the same record as before, except that a
    sibling merge replaces `DATA k'` by `DATA k` with `k` and `k'` byte-equal
    (`Record.KeptOrMerged`).
-/
import MaxMindDBWriter.Paths

namespace MMDBW

/-! ## Labelled trees -/

/-- `pos` labels every node with a path from the root: the root with `[]`, and the node a
    `NODE` record of an allocated node leads to with the parent's label and the record's bit. -/
structure Tree.Labelled (t : Tree) (pos : Nat → List Bool) : Prop where
  root : pos t.rootNode = []
  child : ∀ h, h < t.nextNode → ∀ b c, (t.nodes h).side b = .node c → pos c = pos h ++ [b]

section Labelled

variable {t : Tree} {pos : Nat → List Bool}

theorem Tree.SameGraph.labelled {t' : Tree} (h : t.SameGraph t') (hl : t'.Labelled pos) :
    t.Labelled pos :=
  ⟨h.rootNode_eq ▸ hl.root, fun g hg b c hc => by
    rw [h.nextNode_eq] at hg; rw [h.nodes_eq] at hc; exact hl.child g hg b c hc⟩

/-- A halting descent that reaches a node reaches it along the node's label. -/
theorem Tree.Labelled.pos_of_select (hl : t.Labelled pos) (hw : t.WellFormed) :
    ∀ (p : List Bool) (g h : Nat), g < t.nextNode → t.select g p = .node h → pos h = pos g ++ p := by
  intro p
  induction p with
  | nil => intro g h _ hs; cases hs; simp
  | cons b bs ih =>
    intro g h hg hs
    cases hc : (t.nodes g).side b with
    | node c =>
      simp only [Tree.select, hc] at hs
      rw [ih c h (hw.child_lt g hg b c hc) hs, hl.child g hg b c hc, List.append_assoc]
      rfl
    | empty | data => simp [Tree.select, hc] at hs

theorem Tree.Labelled.pos_of_select_root (hl : t.Labelled pos) (hw : t.WellFormed) {p : List Bool}
    {h : Nat} (hs : t.select t.rootNode p = .node h) : pos h = p := by
  simpa [hl.root] using hl.pos_of_select hw p t.rootNode h hw.root_lt hs

/-- The frame lemma.  A tree that has the same records as `t` on its allocated nodes, except
    perhaps the records in `E`, has the same halting descents from an allocated node `g` along
    every `q` that the label of no record of `E` (its node's label followed by its bit) starts. -/
theorem Tree.Labelled.select_eq (hl : t.Labelled pos) (hw : t.WellFormed) {t' : Tree}
    {E : Nat → Bool → Prop}
    (hag : ∀ g, g < t.nextNode → ∀ c, ¬ E g c → (t'.nodes g).side c = (t.nodes g).side c) :
    ∀ (q : List Bool) (g : Nat), g < t.nextNode → (∀ h b, E h b → ¬ pos h ++ [b] <+: pos g ++ q) →
      t'.select g q = t.select g q := by
  intro q
  induction q with
  | nil => intro g _ _; rfl
  | cons c q ih =>
    intro g hg hq
    have hne : ¬ E g c := fun he => hq g c he ⟨q, by simp⟩
    simp only [Tree.select, hag g hg c hne]
    cases hx : (t.nodes g).side c with
    | node x =>
      apply ih x (hw.child_lt g hg c x hx)
      rwa [hl.child g hg c x hx, List.append_assoc]
    | empty | data => rfl

/-- The frame lemma for one write, from the root. -/
theorem Tree.Labelled.select_setRecord (hl : t.Labelled pos) (hw : t.WellFormed) (h : Nat)
    (b : Bool) (r : Record) {q : List Bool} (hq : ¬ pos h ++ [b] <+: q) :
    (t.setRecord h b r).select t.rootNode q = t.select t.rootNode q :=
  hl.select_eq hw (E := fun g c => g = h ∧ b = c)
    (fun g _ c hne => by rw [Tree.setRecord_side, if_neg hne]) q t.rootNode hw.root_lt
    (by rintro _ _ ⟨rfl, rfl⟩; rwa [hl.root])

/-- Writing a record that is not `NODE` keeps a labelling. -/
theorem Tree.Labelled.setRecord (hl : t.Labelled pos) (h : Nat) (b : Bool) {r : Record}
    (hr : ∀ c, r ≠ .node c) : (t.setRecord h b r).Labelled pos := by
  refine ⟨hl.root, fun g hg c x hx => ?_⟩
  rw [Tree.setRecord_side] at hx
  split at hx
  · exact absurd hx (hr x)
  · exact hl.child g hg c x hx

end Labelled

/-! ## The materialising descent -/

/-- One level of the materialising descent at a record that is not `NODE`: the new node is
    labelled one bit below `h`, and no halting descent from the root changes unless its path is
    a prefix of that label (every longer path through the new node finds the copied record). -/
theorem Tree.Labelled.makeNextNode_step {t : Tree} {pos : Nat → List Bool} (hl : t.Labelled pos)
    (hw : t.WellFormed) {p : List Bool} {h : Nat} {b : Bool} (hp : t.select t.rootNode p = .node h)
    (hr : ∀ c, (t.nodes h).side b ≠ .node c) :
    let m := makeNextNode t ((t.nodes h).side b)
    let t₂ := m.1.setRecord h b (.node m.2)
    t₂.WellFormed ∧ t₂.Labelled (Function.update pos m.2 (p ++ [b])) ∧
      t₂.select t.rootNode (p ++ [b]) = .node m.2 ∧
      ∀ q, ¬ q <+: p ++ [b] → t₂.select t.rootNode q = t.select t.rootNode q := by
  intro m t₂
  have hh : h < t.nextNode := hw.select_lt p t.rootNode h hw.root_lt hp
  have hpos : pos h = p := hl.pos_of_select_root hw hp
  have hm : m.2 = t.nextNode := makeNextNode_snd t _
  -- the records of `t₂`: the new edge, the new node's copies, and the old records
  have hside : ∀ g c, (t₂.nodes g).side c =
      if g = h ∧ b = c then .node t.nextNode
      else if g = t.nextNode then ((t.nodes h).side b).splitCopy else (t.nodes g).side c := by
    intro g c
    simp only [t₂, Tree.setRecord_side, m, makeNextNode_nodes, makeNextNode_snd]
  have hag : ∀ g, g < t.nextNode → ∀ c, ¬ (g = h ∧ b = c) →
      (t₂.nodes g).side c = (t.nodes g).side c := by
    intro g hg c hne
    rw [hside, if_neg hne, if_neg (by omega)]
  have hfar : ∀ {q : List Bool}, ¬ p ++ [b] <+: q → t₂.select t.rootNode q = t.select t.rootNode q :=
    fun hq => hl.select_eq hw (E := fun g c => g = h ∧ b = c) hag _ _ hw.root_lt
      (by rintro _ _ ⟨rfl, rfl⟩; rwa [hl.root, hpos])
  have hnew : t₂.select t.rootNode (p ++ [b]) = .node m.2 := by
    rw [Tree.select_append, hfar (fun hq => absurd hq.length_le (by simp)), hp]
    dsimp only
    rw [Tree.select_singleton, hside, if_pos ⟨rfl, rfl⟩, hm]
  refine ⟨(hw.makeNextNode _).setRecord h b (fun c hc => by cases hc; simp [m, makeNextNode_snd]), ⟨?_, ?_⟩,
    hnew, fun q hq => ?_⟩
  · -- the root keeps its label
    have hroot : t₂.rootNode = t.rootNode := by simp [t₂, m]
    rw [hroot, Function.update_noteq (by rw [hm]; exact Nat.ne_of_lt hw.root_lt)]
    exact hl.root
  · -- every edge of `t₂` is an old edge or the new one
    intro g hg c x hx
    rw [hside] at hx
    simp only [t₂, m, Tree.setRecord_nextNode, makeNextNode_nextNode] at hg
    split_ifs at hx with e₁ e₂
    · obtain ⟨rfl, rfl⟩ := e₁
      cases hx
      rw [hm, Function.update_same, Function.update_noteq (by omega), hpos]
    · exact absurd hx (Record.splitCopy_ne_node _ x)
    · have hx' := hw.child_lt g (by omega) c x hx
      rw [Function.update_noteq (by omega), Function.update_noteq (by omega), hl.child g (by omega) c x hx]
  · by_cases hpre : p ++ [b] <+: q
    · -- a path through the new node: it ends on the copy of the old record
      obtain ⟨q', rfl⟩ := hpre
      obtain ⟨c, q'', rfl⟩ : ∃ c q'', q' = c :: q'' := by
        cases q' with
        | nil => exact absurd (by simp) hq
        | cons c q'' => exact ⟨c, q'', rfl⟩
      have hold : t.select t.rootNode (p ++ [b]) = (t.nodes h).side b := by
        simp only [Tree.select_append, hp, Tree.select_singleton]
      rw [Tree.select_append, hnew, Tree.select_append_of_ne_node t hold (hr ·) (c :: q'')]
      simp only [Tree.select, hside, hm, if_neg (fun e : t.nextNode = h ∧ b = c => by omega),
        if_true, Record.splitCopy_of_ne_node hr]
    · exact hfar hpre

/-- The materialising descent from a node reached along `p` changes no halting descent from the
    root whose path is not a prefix of `p ++ P`, and the tree it builds has a labelling that
    keeps the labels of the nodes allocated before it. -/
theorem Tree.materialize_labelled (P : List Bool) :
    ∀ (t : Tree) (pos : Nat → List Bool) (p : List Bool) (h : Nat), t.WellFormed →
      t.Labelled pos → t.select t.rootNode p = .node h →
      ∃ pos', (t.materialize h P).1.Labelled pos' ∧ (∀ g, g < t.nextNode → pos' g = pos g) ∧
        ∀ q, ¬ q <+: p ++ P → (t.materialize h P).1.select t.rootNode q = t.select t.rootNode q := by
  induction P with
  | nil => intro t pos p h _ hl _; exact ⟨pos, hl, fun _ _ => rfl, fun _ _ => rfl⟩
  | cons b bs ih =>
    intro t pos p h hw hl hp
    by_cases hn : ∃ c, (t.nodes h).side b = .node c
    · -- an existing `NODE` record: follow it
      obtain ⟨c, hs⟩ := hn
      rw [Tree.materialize_cons_node t bs hs]
      have hpc : t.select t.rootNode (p ++ [b]) = .node c := by
        simp only [Tree.select_append, hp, Tree.select_singleton, hs]
      obtain ⟨pos', hl', hag, hq⟩ := ih t pos (p ++ [b]) c hw hl hpc
      exact ⟨pos', hl', hag, fun q hnq => hq q (by simpa using hnq)⟩
    · -- a leaf: one level of materialisation, then the rest from the new node
      have hr : ∀ c, (t.nodes h).side b ≠ .node c := fun c hc => hn ⟨c, hc⟩
      rw [Tree.materialize_cons_leaf t bs hr]
      obtain ⟨hw₂, hl₂, hnew, hfar⟩ := hl.makeNextNode_step hw hp hr
      have hroot : (makeNextNode t ((t.nodes h).side b)).1.rootNode = t.rootNode := by simp
      obtain ⟨pos', hl', hag, hq⟩ :=
        ih _ _ (p ++ [b]) _ hw₂ hl₂ (by simpa only [Tree.setRecord_rootNode, hroot] using hnew)
      refine ⟨pos', hl', fun g hg => ?_, fun q hnq => ?_⟩
      · rw [hag g (by simp; omega), Function.update_noteq (by rw [makeNextNode_snd]; omega)]
      · simp only [Tree.setRecord_rootNode, hroot] at hq
        rw [hq q (by simpa using hnq),
          hfar q (fun hpre => hnq (hpre.trans ⟨bs, by simp⟩))]

/-! ## `insert_record_for_network` outside its network -/

/-- What a returning insert of `r` can have done to the record at the end of a path outside its
    network: nothing, or (by a sibling merge) replaced a `DATA` record whose key has the bytes
    of `r`'s key by `r` itself. -/
def Record.KeptOrMerged (r old new : Record) : Prop :=
  new = old ∨ (sameDataKey r old = true ∧ new = r)

theorem Record.KeptOrMerged.trans {r r₁ r₂ r₃ : Record} (h₁ : r.KeptOrMerged r₁ r₂)
    (h₂ : r.KeptOrMerged r₂ r₃) : r.KeptOrMerged r₁ r₃ := by
  rcases h₂ with rfl | ⟨hs, rfl⟩
  · exact h₁
  · rcases h₁ with rfl | ⟨hs₁, rfl⟩
    · exact .inr ⟨hs, rfl⟩
    · exact .inr ⟨hs₁, rfl⟩

/-- A merged record answers the lookup as the old one did. -/
theorem Record.KeptOrMerged.sameValue {r old new : Record} (h : r.KeptOrMerged old new) :
    new.sameValue old := by
  rcases h with rfl | ⟨hs, rfl⟩
  · simp
  · cases new <;> cases old <;> simp_all [sameDataKey, Record.sameValue]

/-- `EMPTY` is never merged: outside its network an insert of `EMPTY` changes nothing. -/
theorem Record.KeptOrMerged.eq_of_empty {old new : Record} (h : Record.empty.KeptOrMerged old new) :
    new = old := by
  rcases h with h | ⟨hs, -⟩
  · exact h
  · simp [sameDataKey] at hs

/-- An `EMPTY` record is never merged into: it stays `EMPTY`. -/
theorem Record.KeptOrMerged.eq_empty {r new : Record} (h : r.KeptOrMerged .empty new) :
    new = .empty := by
  rcases h with h | ⟨hs, -⟩
  · exact h
  · cases r <;> simp [sameDataKey] at hs

/-- After a returning `insert_record_for_network` of a record that is not `NODE`, every path
    longer than `max_depth0` that does not start with the network's first `depth + 1` bits ends
    on the same record as before, or (after a sibling merge) on the inserted record where it
    ended on a `DATA` record with a byte-equal key; the labelling of the old nodes is kept. -/
theorem insertRecordForNetwork_labelled {r : Record} (hr : ∀ c, r ≠ .node c) (fuel : Nat) :
    ∀ (t : Tree) (pos : Nat → List Bool) (network : Network) (t' : Tree), t.WellFormed →
      t.Labelled pos → insertRecordForNetwork fuel t network r = some t' →
      ∃ pos', t'.Labelled pos' ∧ (∀ g, g < t.nextNode → pos' g = pos g) ∧
        ∀ q, network.maxDepth0 < q.length → ¬ network.bits (network.depth + 1) <+: q →
          r.KeptOrMerged (t.select t.rootNode q) (t'.select t'.rootNode q) := by
  induction fuel with
  | zero => intro t pos network t' _ _ h; simp [insertRecordForNetwork] at h
  | succ fuel ih =>
    intro t pos network t' hw hl h
    obtain ⟨t₁, hcase, rfl⟩ := insertRecordForNetwork_some h
    have hP := Network.length_bits network network.depth
    have hdl := network.depth_le
    generalize hd : t.materialize t.rootNode (network.bits network.depth) = d at hcase
    obtain ⟨wd, ltd, led, rootd, -, seld, -⟩ :=
      hd ▸ Tree.materialize_spec (network.bits network.depth) t t.rootNode hw hw.root_lt
    obtain ⟨posd, hld, agd, fard⟩ :=
      hd ▸ Tree.materialize_labelled (network.bits network.depth) t pos [] t.rootNode hw hl rfl
    have hposd : posd d.2 = network.bits network.depth := hld.pos_of_select_root wd (rootd ▸ seld)
    -- before the final write: the merged tree, with its labelling
    obtain ⟨pos₁, hl₁, ag₁, w₁, root₁, le₁, far₁⟩ : ∃ pos₁, t₁.Labelled pos₁ ∧
        (∀ g, g < d.1.nextNode → pos₁ g = posd g) ∧ t₁.WellFormed ∧ t₁.rootNode = t.rootNode ∧
        d.1.nextNode ≤ t₁.nextNode ∧
        ∀ q, network.maxDepth0 < q.length →
          ¬ network.bits network.depth ++ [network.bit network.depth] <+: q →
          r.KeptOrMerged (d.1.select t.rootNode q) (t₁.select t.rootNode q) := by
      rcases hcase with ⟨hsame, hrec⟩ | ⟨-, rfl⟩
      · obtain ⟨pos₁, hl₁, ag₁, far₁⟩ := ih d.1 posd network.parent t₁ wd hld hrec
        obtain ⟨w₁, root₁, -, le₁, sel₁⟩ := insertRecordForNetwork_spec hr fuel d.1 _ t₁ wd hrec
        have hroot : t₁.rootNode = t.rootNode := root₁.trans rootd
        rw [hroot] at far₁ sel₁
        rw [rootd, Network.parent_maxDepth0] at far₁
        refine ⟨pos₁, hl₁, ag₁, w₁, hroot, le₁, fun q hq hnq => ?_⟩
        rcases Nat.eq_zero_or_pos network.depth with h0 | h0
        · -- a merge at the root: the parent's path starts with the same bit
          apply far₁ q hq
          intro hpre
          apply hnq
          refine List.IsPrefix.trans ?_ hpre
          rw [h0, Network.parent_bits, ← Network.bits_succ]
          exact network.bits_prefix (by omega)
        · rw [Network.depth_parent _ h0, Nat.sub_add_cancel h0, Network.parent_bits] at far₁ sel₁
          by_cases hpre : network.bits network.depth <+: q
          · -- a path through the sibling: it found the sibling's key, and now the parent's
            obtain ⟨q', rfl⟩ := hpre
            obtain ⟨c, q'', rfl⟩ : ∃ c q'', q' = c :: q'' := by
              cases q' with
              | nil => simp at hq; omega
              | cons c q'' => exact ⟨c, q'', rfl⟩
            have hc : c = !network.bit network.depth := by
              cases c <;> cases hbit : network.bit network.depth <;> simp_all
            subst hc
            obtain ⟨k', hk'⟩ : ∃ k', (d.1.nodes d.2).side (!network.bit network.depth) = .data k' := by
              revert hsame
              cases (d.1.nodes d.2).side (!network.bit network.depth) <;> cases r <;> simp [sameDataKey]
            rw [Tree.select_append_of_ne_node _ sel₁ hr, Tree.select_append, seld]
            simp only [Tree.select, hk']
            exact .inr ⟨hk' ▸ hsame, rfl⟩
          · exact far₁ q hq hpre
      · exact ⟨posd, hld, fun _ _ => rfl, wd, rootd, Nat.le_refl _, fun _ _ _ => .inl rfl⟩
    refine ⟨pos₁, hl₁.setRecord _ _ hr, fun g hg => ?_, fun q hq hnq => ?_⟩
    · rw [ag₁ g (by omega), agd g hg]
    · rw [Network.bits_succ] at hnq
      have hpos₁ : pos₁ d.2 = network.bits network.depth := by rw [ag₁ _ ltd, hposd]
      rw [Tree.setRecord_rootNode, root₁, ← root₁,
        hl₁.select_setRecord w₁ _ _ _ (by rwa [hpos₁]), root₁,
        ← fard q (fun hpre => by have := hpre.length_le; simp at this; omega)]
      exact far₁ q hq hnq

end MMDBW
