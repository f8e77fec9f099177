/-
  The references the tree holds on Perl scalars, and what `free_tree` gives back.

  1. **Taking** — an accepted `insert_network` takes one reference on its key and one on its
     data (`SvREFCNT_inc`) and hands the data's to the data hash, which releases the one it held
     on the value it replaces (`hvStoreEnt`).  `delete_network`, `delete_reserved_networks` and
     `alias_ipv4_networks` write records only, and the `DATA` records `make_next_node` copies take
     none.  So over a run the tree holds on each scalar one reference for each accepted insert
     that used it as a key, and one for each entry of the data hash that stores it
     (`Tree.RefsOk`, `Op.Run.refsOk`).
  2. **Releasing** — `free_tree` walks the tree with `start_iteration`, meaning to call
     `key_refcnt_dec` on every node; but `start_iteration` walks with `assign_node_number`, which
     touches no reference (`startIteration_refs`).  Then it drops the data hash, which gives
     back the reference on each of its values (`DataHash.release_apply`).  So after any run
     `free_tree` leaves each scalar with exactly the references accepted inserts took on it as a
     key, and none for data (`freeTree_run`).
-/
import MaxMindDBWriter.Aliases
import MaxMindDBWriter.AddressMap

namespace MMDBW

/-! ## The references the data hash holds -/

theorem incRef_apply (refs : SV → Nat) (sv sv' : SV) :
    incRef refs sv sv' = refs sv' + if sv = sv' then 1 else 0 := by
  rw [incRef, Function.update_apply]
  by_cases h : sv = sv'
  · subst h; simp
  · simp [h, Ne.symm h]

theorem decRef_apply (refs : SV → Nat) (sv sv' : SV) :
    decRef refs sv sv' = refs sv' - if sv = sv' then 1 else 0 := by
  rw [decRef, Function.update_apply]
  by_cases h : sv = sv'
  · subst h; simp
  · simp [h, Ne.symm h]

/-- The number of entries of the hash whose value is `sv`: the references the hash holds on it. -/
def DataHash.holding (h : DataHash) (sv : SV) : Nat := h.keys.countP fun k => h.fetch k = some sv

/-- The hash lists each key it holds a value for, once. -/
structure DataHash.Valid (h : DataHash) : Prop where
  nodup : h.keys.Nodup
  mem_keys : ∀ k, k ∈ h.keys ↔ h.fetch k ≠ none

theorem DataHash.Valid.store {h : DataHash} (hv : h.Valid) (p : List UInt8) (data : SV) :
    (h.store p data).Valid := by
  refine ⟨?_, fun k => ?_⟩
  · unfold DataHash.store
    split
    · exact hv.nodup
    · exact List.nodup_cons.mpr ⟨‹_›, hv.nodup⟩
  · by_cases hk : k = p
    · subst hk; unfold DataHash.store; split <;> simp_all
    · unfold DataHash.store
      have := hv.mem_keys k
      split <;> simp_all

/-- Storing `data` under `p` moves the count of the entry under `p` from the value it held to
    `data`. -/
theorem DataHash.holding_store {h : DataHash} (hv : h.Valid) (p : List UInt8) (data sv : SV) :
    (h.store p data).holding sv + (if h.fetch p = some sv then 1 else 0) =
      h.holding sv + if data = sv then 1 else 0 := by
  -- away from `p` the two hashes agree
  have hoff : ∀ l : List (List UInt8), p ∉ l →
      l.countP (fun k => (h.store p data).fetch k = some sv) =
        l.countP fun k => h.fetch k = some sv :=
    fun l hl => List.countP_congr fun k hk => by
      simp [DataHash.store, Function.update_noteq (fun e : k = p => hl (e ▸ hk))]
  unfold DataHash.holding
  by_cases hp : p ∈ h.keys
  · have hperm := List.perm_cons_erase hp
    have hnot := (List.nodup_cons.mp (hperm.nodup_iff.mp hv.nodup)).1
    rw [show (h.store p data).keys = h.keys from if_pos hp, hperm.countP_eq, hperm.countP_eq,
      List.countP_cons, List.countP_cons, hoff _ hnot]
    simp [DataHash.store, eq_comm]
    omega
  · have hnone : h.fetch p = none := by simpa using mt (hv.mem_keys p).mpr hp
    rw [show (h.store p data).keys = p :: h.keys from if_neg hp, List.countP_cons, hoff _ hp]
    simp [DataHash.store, hnone, eq_comm]

/-- A freed hash gives back one reference for each of its entries. -/
theorem DataHash.release_apply (h : DataHash) (refs : SV → Nat) (sv : SV) :
    h.release refs sv = refs sv - h.holding sv := by
  unfold DataHash.release DataHash.holding
  generalize h.keys = keys
  induction keys generalizing refs with
  | nil => rfl
  | cons k ks ih =>
    rw [List.foldl_cons, ih, List.countP_cons]
    cases hk : h.fetch k with
    | none => simp
    | some v =>
      by_cases hv : v = sv
      · simp [decRef_apply, hv]; omega
      · simp [decRef_apply, hv]

/-! ## Over a run -/

/-- The references a tree holds: `keyRefs sv` for keys, and one for each entry of its data hash
    that stores `sv`. -/
structure Tree.RefsOk (t : Tree) (keyRefs : SV → Nat) : Prop where
  valid : t.dataHash.Valid
  refs_eq : ∀ sv, t.refs sv = keyRefs sv + t.dataHash.holding sv

/-- `hv_store_ent` after the two `SvREFCNT_inc`: the data's new reference goes to the hash with
    the entry, the replaced value's goes away with the entry, and the key keeps its new one. -/
theorem Tree.RefsOk.hvStoreEnt {t : Tree} {keyRefs : SV → Nat} (h : t.RefsOk keyRefs)
    (key data : SV) :
    (hvStoreEnt { t with refs := incRef (incRef t.refs key) data } key data).RefsOk
      fun sv => keyRefs sv + if key = sv then 1 else 0 := by
  refine ⟨h.valid.store key.pv data, fun sv => ?_⟩
  have hst := DataHash.holding_store h.valid key.pv data sv
  have href := h.refs_eq sv
  show (match t.dataHash.fetch key.pv with
    | some old => decRef (incRef (incRef t.refs key) data) old
    | none => incRef (incRef t.refs key) data) sv = _ + (t.dataHash.store key.pv data).holding sv
  cases hk : t.dataHash.fetch key.pv with
  | none =>
    simp only [hk, reduceCtorEq, if_false, Nat.add_zero] at hst
    dsimp only
    rw [incRef_apply, incRef_apply, hst, href]
    omega
  | some old =>
    -- the replaced value's entry was counted, so its release takes nothing below zero
    simp only [hk, Option.some.injEq] at hst
    dsimp only
    rw [decRef_apply, incRef_apply, incRef_apply, href]
    split_ifs at hst ⊢ <;> omega

/-- The references a call takes on `sv` as a key: one for an accepted `insert_network` with
    key `sv`. -/
def Op.keyRefsTaken (t : Tree) (sv : SV) : Op → Nat
  | .insertNetwork lit maskLength key _ =>
    if t.Accepts lit maskLength then (if key = sv then 1 else 0) else 0
  | _ => 0

/-- The references a run of calls takes on `sv` as a key. -/
def Op.keyRefsTakenAll (t : Tree) (sv : SV) : List Op → Nat
  | [] => 0
  | op :: ops => op.keyRefsTaken t sv + Op.keyRefsTakenAll t sv ops

theorem Op.keyRefsTakenAll_congr {t t' : Tree} (h : t'.ipVersion = t.ipVersion) (sv : SV)
    (ops : List Op) : Op.keyRefsTakenAll t' sv ops = Op.keyRefsTakenAll t sv ops := by
  induction ops with
  | nil => rfl
  | cons op ops ih =>
    rw [Op.keyRefsTakenAll, Op.keyRefsTakenAll, ih]
    cases op <;> simp only [Op.keyRefsTaken, Tree.accepts_congr h]

/-- What a returning `insert_network` does to the references and the data hash: what
    `hv_store_ent` does after the two `SvREFCNT_inc` when it accepts the network, nothing when
    it refuses it. -/
theorem insertNetwork_refs {fuel : Nat} {t t' : Tree} {lit : IpLiteral} {maskLength : UInt8}
    {key data : SV} {result : Int} (h : insertNetwork fuel t lit maskLength key data = some (result, t')) :
    if t.Accepts lit maskLength then
      t'.refs = (hvStoreEnt { t with refs := incRef (incRef t.refs key) data } key data).refs ∧
        t'.dataHash = (hvStoreEnt { t with refs := incRef (incRef t.refs key) data } key data).dataHash
    else t'.refs = t.refs ∧ t'.dataHash = t.dataHash := by
  unfold insertNetwork at h
  dsimp only at h
  split at h
  · rename_i hrej
    cases h
    exact (if_neg (not_not_intro hrej : ¬ t.Accepts lit maskLength)).symm ▸ ⟨rfl, rfl⟩
  · rename_i hacc
    obtain ⟨t₁, h₁, h₂⟩ := Option.map_eq_some'.mp h
    cases h₂
    rw [if_pos (show t.Accepts lit maskLength from hacc)]
    exact ⟨(insertRecordForNetwork_refs h₁ :), (insertRecordForNetwork_dataHash h₁ :)⟩

/-- One call keeps the account, adding what it takes on keys. -/
theorem Op.Step.refsOk {op : Op} {t t' : Tree} (hs : op.Step t t') {keyRefs : SV → Nat}
    (h : t.RefsOk keyRefs) : t'.RefsOk fun sv => keyRefs sv + op.keyRefsTaken t sv := by
  -- the calls that write records only keep the references and the hash
  have keep : ∀ t' : Tree, t'.refs = t.refs → t'.dataHash = t.dataHash →
      t'.RefsOk fun sv => keyRefs sv + 0 := fun t' hr hd =>
    ⟨hd ▸ h.valid, fun sv => by rw [hr, hd, h.refs_eq]; rfl⟩
  cases hs with
  | @insertNetwork _ _ _ lit maskLength key data _ hins =>
    have := insertNetwork_refs hins
    by_cases hacc : t.Accepts lit maskLength
    · obtain ⟨hr, hd⟩ := if_pos hacc ▸ this
      have h' := h.hvStoreEnt key data
      refine ⟨hd ▸ h'.valid, fun sv => ?_⟩
      rw [hr, hd, h'.refs_eq sv, Op.keyRefsTaken, if_pos hacc]
    · obtain ⟨hr, hd⟩ := if_neg hacc ▸ this
      simpa only [Op.keyRefsTaken, if_neg hacc] using keep _ hr hd
  | deleteNetwork => exact keep _ (deleteNetwork_refs _ _ _) (deleteNetwork_dataHash _ _ _)
  | deleteReservedNetworks =>
    exact keep _ (deleteReservedNetworks_induction (fun t' => t'.refs = t.refs)
      (fun t' lit m h => (deleteNetwork_refs t' lit m).trans h) rfl)
      (deleteReservedNetworks_induction (fun t' => t'.dataHash = t.dataHash)
        (fun t' lit m h => (deleteNetwork_dataHash t' lit m).trans h) rfl)
  | aliasIpv4Networks => exact keep _ (aliasIpv4Networks_refs _) (aliasIpv4Networks_dataHash _)

/-- Over a run, the account grows by what the run's calls take on keys, each call's acceptance
    decided by the tree's IP version, which no call changes. -/
theorem Op.Run.refsOk {t t' : Tree} {ops : List Op} (h : Op.Run t ops t') (hw : t.WellFormed)
    {keyRefs : SV → Nat} (hr : t.RefsOk keyRefs) :
    t'.RefsOk fun sv => keyRefs sv + Op.keyRefsTakenAll t sv ops := by
  induction h generalizing keyRefs with
  | nil => simpa using hr
  | cons hs _ ih =>
    obtain ⟨hw', hip⟩ := hs.wellFormed hw
    simpa only [Op.keyRefsTakenAll, Op.keyRefsTakenAll_congr hip, Nat.add_assoc] using
      ih hw' (hs.refsOk hr)

/-! ## Releasing them -/

/-- The walk `free_tree` makes numbers nodes and touches neither the references nor the hash. -/
theorem startIteration_refs (t : Tree) (callback : Callback) :
    (startIteration (.ofTree t) callback).tree.refs = t.refs ∧
      (startIteration (.ofTree t) callback).tree.dataHash = t.dataHash := by
  unfold startIteration
  rw [iterateTree_eq_foldl, foldl_call_assignNodeNumber]
  obtain ⟨nodes, hfold⟩ := foldl_assignNodeNumber_eq
    (t.walkOrder (t.nextNode + 1) (.node t.rootNode) []) t
  simp only [IterState.ofTree, hfold, and_self]

theorem newTree_refsOk (ipVersion recordSize nodesPerAlloc : Nat) :
    (newTree ipVersion recordSize nodesPerAlloc).RefsOk fun _ => 0 :=
  ⟨⟨List.nodup_nil, fun _ => by simp [newTree, newNode, DataHash.empty]⟩, fun _ => rfl⟩

/-- After any run of calls on a new tree, `free_tree` leaves each scalar with exactly one
    reference for each accepted `insert_network` that used it as a key: `key_refcnt_dec` never
    runs, while every reference taken on data is given back, by `hv_store_ent` when it replaces
    a value and by the freed data hash for the values it still stores. -/
theorem freeTree_run {ipVersion recordSize nodesPerAlloc : Nat} {ops : List Op} {t : Tree}
    (h : Op.Run (newTree ipVersion recordSize nodesPerAlloc) ops t) (sv : SV) :
    freeTree t sv = Op.keyRefsTakenAll (newTree ipVersion recordSize nodesPerAlloc) sv ops := by
  have hr := h.refsOk ⟨by simp, fun _ _ _ _ hc => by simp at hc⟩ (newTree_refsOk _ _ _)
  obtain ⟨hrefs, hhash⟩ := startIteration_refs t .keyRefcntDec
  rw [freeTree, releaseDataHash]
  dsimp only
  rw [DataHash.release_apply, hrefs, hhash, hr.refs_eq]
  omega

/-- `10.0.0.0/8 → k` with data `d`, then `11.0.0.0/8 → k` with data `d'`, in a new IPv4 tree:
    `free_tree` leaves `k` with the two references the inserts took on it, and gives back all
    those taken on `d` (when `hv_store_ent` replaced it) and on `d'`. -/
theorem freeTree_run_ten :
    ∃ t, Op.Run (newTree 4 24 0)
        [.insertNetwork (v4 10 0 0 0) 8 ⟨1, [65]⟩ ⟨2, [66]⟩,
         .insertNetwork (v4 11 0 0 0) 8 ⟨1, [65]⟩ ⟨3, [67]⟩] t ∧
      freeTree t ⟨1, [65]⟩ = 2 ∧ freeTree t ⟨2, [66]⟩ = 0 ∧ freeTree t ⟨3, [67]⟩ = 0 := by
  obtain ⟨t, h⟩ : ∃ t, Op.Run (newTree 4 24 0)
      [.insertNetwork (v4 10 0 0 0) 8 ⟨1, [65]⟩ ⟨2, [66]⟩,
       .insertNetwork (v4 11 0 0 0) 8 ⟨1, [65]⟩ ⟨3, [67]⟩] t :=
    ⟨_, .cons (.insertNetwork (show insertNetwork 1 _ _ _ _ _ = some (0, _) from rfl))
      (.cons (.insertNetwork (show insertNetwork 2 _ _ _ _ _ = some (0, _) from rfl)) (.nil _))⟩
  exact ⟨t, h, (freeTree_run h _).trans (by decide), (freeTree_run h _).trans (by decide),
    (freeTree_run h _).trans (by decide)⟩

end MMDBW
