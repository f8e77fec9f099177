/-
  Inserts of disjoint networks commute.

  After `insert_network` calls applied in turn, a lookup finds the key of the last accepted call
  whose network holds the address (`InsertRun.lookupRecord_sameValue`).  When the networks are
  pairwise disjoint no address lies in two of them, so that key does not depend on the order of
  the calls (`insertedRecord_perm`), and by `Reachable.isomorphic_of_lookups` the trees the calls
  build in any two orders are isomorphic and numbered alike.
-/
import Mathlib.Data.List.Pairwise
import MaxMindDBWriter.Canonical

namespace MMDBW

/-- The arguments of one `insert_network` call. -/
structure Insertion where
  lit : IpLiteral
  maskLength : UInt8
  key : SV
  data : SV

namespace Insertion

variable (t : Tree) (i : Insertion)

/-- `insert_network` takes the call: the tree is not an IPv4 tree asked for an IPv6 network. -/
def Accepted : Prop := ¬ (t.ipVersion = 4 ∧ (resolveNetwork t i.lit i.maskLength).family = .inet6)

instance : Decidable (i.Accepted t) :=
  inferInstanceAs (Decidable (¬ (t.ipVersion = 4 ∧ (resolveNetwork t i.lit i.maskLength).family = .inet6)))

/-- The first `maskLength` bits of the call's network. -/
def bits : List Bool := (resolveNetwork t i.lit i.maskLength).bits i.maskLength.toNat

/-- The call's network holds the address `lit`. -/
def Covers (lit : IpLiteral) : Prop := (hostNetwork t lit).bits i.maskLength.toNat = i.bits t

instance (lit : IpLiteral) : Decidable (i.Covers t lit) :=
  inferInstanceAs (Decidable ((hostNetwork t lit).bits i.maskLength.toNat = i.bits t))

/-- An accepted call has a mask with `1 ≤ m ≤ max_depth`. -/
def InRange : Prop := i.Accepted t → 1 ≤ i.maskLength.toNat ∧ i.maskLength.toNat ≤ t.maxDepth0 + 1

instance : Decidable (i.InRange t) :=
  inferInstanceAs (Decidable (i.Accepted t → 1 ≤ i.maskLength.toNat ∧ i.maskLength.toNat ≤ t.maxDepth0 + 1))

/-- Two calls whose networks, where both are accepted, share no address: neither network's bits
    start the other's. -/
def Disjoint (j : Insertion) : Prop :=
  i.Accepted t → j.Accepted t → ¬ i.bits t <+: j.bits t ∧ ¬ j.bits t <+: i.bits t

instance (j : Insertion) : Decidable (i.Disjoint t j) :=
  inferInstanceAs (Decidable (i.Accepted t → j.Accepted t → ¬ i.bits t <+: j.bits t ∧ ¬ j.bits t <+: i.bits t))

theorem disjoint_symm : Symmetric (Disjoint t) :=
  fun _ _ h hj hi => (h hi hj).symm

/-- No address lies in two disjoint accepted networks: the shorter network's bits would start
    the longer one's. -/
theorem not_covers_both {i j : Insertion} (hd : i.Disjoint t j) (hi : i.Accepted t) (hj : j.Accepted t)
    (lit : IpLiteral) : ¬ (i.Covers t lit ∧ j.Covers t lit) := by
  rintro ⟨hci, hcj⟩
  unfold Covers at hci hcj
  rcases le_total i.maskLength.toNat j.maskLength.toNat with hle | hle
  · exact (hd hi hj).1 (by rw [← hci, ← hcj]; exact Network.bits_prefix _ hle)
  · exact (hd hi hj).2 (by rw [← hci, ← hcj]; exact Network.bits_prefix _ hle)

variable {t} {t' : Tree} (h : t'.ipVersion = t.ipVersion)
include h

/-! The calls read only the tree's IP version. -/

theorem accepted_congr : i.Accepted t' ↔ i.Accepted t := by
  simp only [Accepted, resolveNetwork_congr h, h]

theorem bits_congr : i.bits t' = i.bits t := by
  simp only [bits, resolveNetwork_congr h]

theorem covers_congr (lit : IpLiteral) : i.Covers t' lit ↔ i.Covers t lit := by
  simp only [Covers, hostNetwork_congr h, bits_congr i h]

theorem inRange_congr : i.InRange t' ↔ i.InRange t := by
  simp only [InRange, accepted_congr i h, Tree.maxDepth0, h]

end Insertion

/-- A network `insert_network` accepts has the tree's family. -/
theorem resolveNetwork_family_of_accepted {t : Tree} {lit : IpLiteral} {maskLength : UInt8}
    (hv : t.ipVersion = 4 ∨ t.ipVersion = 6)
    (hacc : ¬ (t.ipVersion = 4 ∧ (resolveNetwork t lit maskLength).family = .inet6)) :
    (resolveNetwork t lit maskLength).family = t.family := by
  unfold resolveNetwork Tree.family at *
  rcases hv with h | h <;> cases lit <;> simp_all

/-! ## What a lookup finds after a list of inserts -/

/-- The record a lookup of `lit` finds after the calls `ops`, applied in turn to a tree where it
    found `r`: the key of the last accepted call whose network holds the address. -/
def insertedRecord (t : Tree) (lit : IpLiteral) (r : Record) (ops : List Insertion) : Record :=
  ops.foldl (fun r i => if i.Accepted t ∧ i.Covers t lit then .data i.key else r) r

theorem insertedRecord_congr {t t' : Tree} (h : t'.ipVersion = t.ipVersion) :
    insertedRecord t' = insertedRecord t := by
  funext lit r ops
  simp only [insertedRecord, Insertion.accepted_congr _ h, Insertion.covers_congr _ h]

/-- Records that answer alike stay alike under the same calls. -/
theorem insertedRecord_sameValue {t : Tree} {lit : IpLiteral} {r r' : Record}
    (h : r.sameValue r' = true) (ops : List Insertion) :
    (insertedRecord t lit r ops).sameValue (insertedRecord t lit r' ops) = true := by
  induction ops generalizing r r' with
  | nil => exact h
  | cons i ops ih =>
    refine ih ?_
    dsimp only
    split_ifs
    · exact Record.sameValue_refl _
    · exact h

/-- Disjoint calls commute: whatever their order, the lookup finds the key of the one call whose
    network holds the address, if there is one. -/
theorem insertedRecord_perm {t : Tree} {ops ops' : List Insertion}
    (hd : ops.Pairwise (Insertion.Disjoint t)) (hp : ops.Perm ops') (lit : IpLiteral) (r : Record) :
    insertedRecord t lit r ops = insertedRecord t lit r ops' := by
  refine hp.foldl_eq' (fun i hi j hj r => ?_) r
  by_cases hij : i = j
  · rw [hij]
  have hdis := hd.forall (Insertion.disjoint_symm t) hi hj hij
  by_cases ci : i.Accepted t ∧ i.Covers t lit <;> by_cases cj : j.Accepted t ∧ j.Covers t lit
  · exact absurd ⟨ci.2, cj.2⟩ (Insertion.not_covers_both t hdis ci.1 cj.1 lit)
  all_goals simp only [ci, cj, if_true, if_false]

/-- One returning `insert_network` call on a tree built by inserts: a lookup finds the call's key
    if its network holds the address, and what it found before otherwise, up to byte-equal
    keys. -/
theorem insertNetwork_insertedRecord {t t' : Tree} {i : Insertion} {fuel : Nat} {result : Int}
    (ht : Reachable insertOnly t) (hi : i.InRange t)
    (hins : insertNetwork fuel t i.lit i.maskLength i.key i.data = some (result, t')) (lit : IpLiteral) :
    (lookupRecord t' lit).sameValue (insertedRecord t lit (lookupRecord t lit) [i]) = true := by
  rcases insertNetwork_some hins with ⟨h4, h6, -, ht'⟩ | ⟨hacc, -⟩
  · -- refused: the tree is left as it is
    have hrej : ¬ i.Accepted t := fun h => h ⟨h4, h6⟩
    simp only [ht', insertedRecord, List.foldl, hrej, false_and, if_false, Record.sameValue_refl]
  have hv := ht.valid
  have law := hv.insertNetwork_lookupRecord (resolveNetwork_family_of_accepted hv.ipVersion_eq hacc)
    (hi hacc) hins lit
  have hacc' : i.Accepted t := hacc
  by_cases hc : i.Covers t lit
  · simp only [insertedRecord, List.foldl, hacc', hc, and_self, if_true, law.1 hc,
      Record.sameValue_refl]
  · obtain ⟨pos, hl⟩ := (ht.mono insertOnly_aliasFree).labelled
    simp only [insertedRecord, List.foldl, hc, and_false, if_false, (law.2 pos hl hc).sameValue]

/-- A lookup in a new tree finds `EMPTY`. -/
theorem lookupRecord_newTree {v : Nat} (hv : v = 4 ∨ v = 6) (recordSize nodesPerAlloc : Nat)
    (lit : IpLiteral) : lookupRecord (newTree v recordSize nodesPerAlloc) lit = .empty := by
  rw [(Tree.Valid.newTree recordSize nodesPerAlloc hv).lookupRecord_eq]
  exact newTree_select _ _ _ (List.ne_nil_of_length_pos (by simp))

/-! ## Runs of inserts -/

/-- `insert_network` calls applied in turn, each of them returning. -/
inductive InsertRun : Tree → List Insertion → Tree → Prop
  | nil (t : Tree) : InsertRun t [] t
  | cons {t t' t'' : Tree} {i : Insertion} {ops : List Insertion} {fuel : Nat} {result : Int} :
      insertNetwork fuel t i.lit i.maskLength i.key i.data = some (result, t') →
      InsertRun t' ops t'' → InsertRun t (i :: ops) t''

section Run

variable {t t' : Tree} {ops : List Insertion} (h : InsertRun t ops t')
include h

theorem InsertRun.reachable (ht : Reachable insertOnly t) : Reachable insertOnly t' := by
  induction h with
  | nil => exact ht
  | cons hins _ ih => exact ih (ht.insertNetwork_step hins)

theorem InsertRun.ipVersion_eq (ht : Reachable insertOnly t) : t'.ipVersion = t.ipVersion := by
  induction h with
  | nil => rfl
  | cons hins _ ih =>
    rw [ih (ht.insertNetwork_step hins), (insertNetwork_wellFormed ht.valid.wellFormed hins).2.2]

/-- After the calls a lookup finds what `insertedRecord` says, up to byte-equal keys: one call at
    a time, each by `insertNetwork_insertedRecord`. -/
theorem InsertRun.lookupRecord_sameValue (ht : Reachable insertOnly t)
    (hm : ∀ i ∈ ops, i.InRange t) (lit : IpLiteral) :
    (lookupRecord t' lit).sameValue (insertedRecord t lit (lookupRecord t lit) ops) = true := by
  induction h with
  | nil => exact Record.sameValue_refl _
  | @cons t t₁ t'' i ops fuel result hins _ ih =>
    have hip := (insertNetwork_wellFormed ht.valid.wellFormed hins).2.2
    have step := insertNetwork_insertedRecord ht (hm i (List.mem_cons_self i ops)) hins lit
    have rest := ih (ht.insertNetwork_step hins)
      fun j hj => (Insertion.inRange_congr j hip).mpr (hm j (List.mem_cons_of_mem i hj))
    rw [insertedRecord_congr hip] at rest
    exact Record.sameValue_trans rest (insertedRecord_sameValue step ops)

end Run

/-- Pairwise disjoint networks inserted into new trees of one IP version, in two orders: the two
    trees are isomorphic and numbered alike. -/
theorem InsertRun.isomorphic_of_perm {v r₁ n₁ r₂ n₂ : Nat} {ops ops' : List Insertion} {t₁ t₂ : Tree}
    (hv : v = 4 ∨ v = 6) (hm : ∀ i ∈ ops, i.InRange (newTree v r₁ n₁))
    (hd : ops.Pairwise (Insertion.Disjoint (newTree v r₁ n₁))) (hp : ops.Perm ops')
    (h₁ : InsertRun (newTree v r₁ n₁) ops t₁) (h₂ : InsertRun (newTree v r₂ n₂) ops' t₂) :
    ∃ φ, t₁.Isomorphic t₂ φ := by
  have hip₀ : (newTree v r₂ n₂).ipVersion = (newTree v r₁ n₁).ipVersion := by simp
  have hip : t₁.ipVersion = t₂.ipVersion := by
    rw [h₁.ipVersion_eq (.newTree v r₁ n₁ hv), h₂.ipVersion_eq (.newTree v r₂ n₂ hv), hip₀]
  refine Reachable.isomorphic_of_lookups (h₁.reachable (.newTree v r₁ n₁ hv))
    (h₂.reachable (.newTree v r₂ n₂ hv)) hip fun lit => ?_
  have l₁ := h₁.lookupRecord_sameValue (.newTree v r₁ n₁ hv) hm lit
  have l₂ := h₂.lookupRecord_sameValue (.newTree v r₂ n₂ hv)
    (fun i hi => (Insertion.inRange_congr i hip₀).mpr (hm i (hp.mem_iff.mpr hi))) lit
  rw [lookupRecord_newTree hv] at l₁ l₂
  rw [insertedRecord_congr hip₀, ← insertedRecord_perm hd hp] at l₂
  exact Record.sameValue_trans l₁ ((Record.sameValue_comm _ _).trans l₂)

/-- Two runs of `insert_network` calls alone, from new trees of one IP version, whose lookups
    agree build isomorphic trees that `finalize_tree` numbers alike; in particular pairwise
    disjoint networks inserted in any two orders do. -/
theorem insertOnly_canonical :
    (∀ t₁ t₂ : Tree, Reachable insertOnly t₁ → Reachable insertOnly t₂ →
      t₁.ipVersion = t₂.ipVersion →
      (∀ lit, (lookupRecord t₁ lit).sameValue (lookupRecord t₂ lit) = true) →
      ∃ φ, t₁.Isomorphic t₂ φ) ∧
    (∀ (v r₁ n₁ r₂ n₂ : Nat) (ops ops' : List Insertion) (t₁ t₂ : Tree), (v = 4 ∨ v = 6) →
      (∀ i ∈ ops, i.InRange (newTree v r₁ n₁)) → ops.Pairwise (Insertion.Disjoint (newTree v r₁ n₁)) →
      ops.Perm ops' → InsertRun (newTree v r₁ n₁) ops t₁ → InsertRun (newTree v r₂ n₂) ops' t₂ →
      ∃ φ, t₁.Isomorphic t₂ φ) :=
  ⟨fun _ _ => Reachable.isomorphic_of_lookups,
    fun _ _ _ _ _ _ _ _ _ hv hm hd hp => InsertRun.isomorphic_of_perm hv hm hd hp⟩

/-- `10.0.0.0/8` and `11.0.0.0/8`, with keys of different bytes, inserted into a new IPv4 tree in
    both orders: both trees hold each key on its network, and they are isomorphic. -/
theorem insertOnly_canonical_ten_eleven :
    ∃ t₁ t₂, InsertRun (newTree 4 24 0)
        [⟨v4 10 0 0 0, 8, ⟨1, [65]⟩, ⟨2, [66]⟩⟩, ⟨v4 11 0 0 0, 8, ⟨3, [67]⟩, ⟨4, [68]⟩⟩] t₁ ∧
      InsertRun (newTree 4 24 0)
        [⟨v4 11 0 0 0, 8, ⟨3, [67]⟩, ⟨4, [68]⟩⟩, ⟨v4 10 0 0 0, 8, ⟨1, [65]⟩, ⟨2, [66]⟩⟩] t₂ ∧
      lookupRecord t₁ (v4 10 1 2 3) = .data ⟨1, [65]⟩ ∧ lookupRecord t₁ (v4 11 1 2 3) = .data ⟨3, [67]⟩ ∧
      lookupRecord t₂ (v4 10 1 2 3) = .data ⟨1, [65]⟩ ∧ lookupRecord t₂ (v4 11 1 2 3) = .data ⟨3, [67]⟩ ∧
      ∃ φ, t₁.Isomorphic t₂ φ := by
  obtain ⟨t₁, h₁, l₁, l₁'⟩ : ∃ t₁, InsertRun (newTree 4 24 0)
      [⟨v4 10 0 0 0, 8, ⟨1, [65]⟩, ⟨2, [66]⟩⟩, ⟨v4 11 0 0 0, 8, ⟨3, [67]⟩, ⟨4, [68]⟩⟩] t₁ ∧
      lookupRecord t₁ (v4 10 1 2 3) = .data ⟨1, [65]⟩ ∧ lookupRecord t₁ (v4 11 1 2 3) = .data ⟨3, [67]⟩ :=
    ⟨_, @InsertRun.cons _ _ _ _ _ 1 0 rfl (@InsertRun.cons _ _ _ _ _ 1 0 rfl (.nil _)), by decide,
      by decide⟩
  obtain ⟨t₂, h₂, l₂, l₂'⟩ : ∃ t₂, InsertRun (newTree 4 24 0)
      [⟨v4 11 0 0 0, 8, ⟨3, [67]⟩, ⟨4, [68]⟩⟩, ⟨v4 10 0 0 0, 8, ⟨1, [65]⟩, ⟨2, [66]⟩⟩] t₂ ∧
      lookupRecord t₂ (v4 10 1 2 3) = .data ⟨1, [65]⟩ ∧ lookupRecord t₂ (v4 11 1 2 3) = .data ⟨3, [67]⟩ :=
    ⟨_, @InsertRun.cons _ _ _ _ _ 1 0 rfl (@InsertRun.cons _ _ _ _ _ 1 0 rfl (.nil _)), by decide,
      by decide⟩
  exact ⟨t₁, t₂, h₁, h₂, l₁, l₁', l₂, l₂', insertOnly_canonical.2 4 24 0 24 0 _ _ t₁ t₂ (.inl rfl)
    (by decide) (by decide) (.swap _ _ _) h₁ h₂⟩

end MMDBW
