/-
  The tree as a map from addresses to data.

  Seen through `lookup_ip_address`, a tree built without `alias_ipv4_networks` is a map from
  addresses to data (`AddressMap`): `insert_network` points every address of its network at the
  key and stores the data under the key's bytes, `delete_network` clears the addresses of its
  network, and `delete_reserved_networks` clears the networks of its two tables, in an IPv6 tree
  the IPv4 ones in their v4-mapped form.

  1. Without aliasing no node lies as deep as an address has bits, whatever the masks
     (`Reachable.shallow_of_aliasFree`), so no lookup croaks.
  2. `Tree.Represents`: a tree answers as a map when the record each lookup selects answers like
     the map's and the data hash is the map's; then `lookup_ip_address` returns the map's answer
     exactly (`Tree.Represents.answer_eq`).
  3. One lemma per public call: the call takes a represented map to the map after the call
     (`Op.Step.represents`), from the insert and delete laws of `PrefixLaws`.
  4. Runs: `Op.Run.represents`, and from a new tree `lookupIpAddress_refines_addressMap`.
  5. `delete_reserved_networks` in closed form: `undef` on the addresses of `reservedNetworks`,
     the old answer elsewhere, and in an IPv6 tree nothing of `::/96` among them
     (`deleteReservedNetworks_lookup`).
  6. An IPv4 literal in an IPv6 tree keeps its mask, counted from the top of the 128 bits
     (`insertNetwork_ipv4Literal_ipv6`).
  7. An IPv6 literal in an IPv4 tree is refused by `insert_network` and `delete_network` but
     looked up as the IPv4 address of its first four bytes (`ipv6Literal_ipv4Tree`).
  8. `alias_ipv4_networks` re-wires the map: after it, every address answers as the address
     `aliasPath` gives answered before (`aliasIpv4Networks_lookup`).
-/
import MaxMindDBWriter.InsertOrder
import MaxMindDBWriter.Aliases

namespace MMDBW

/-! ## No node below the address bits, without aliasing -/

/-- `delete_network` of a network the tree refuses leaves it as it is. -/
theorem deleteNetwork_of_rejected {t : Tree} {lit : IpLiteral} {maskLength : UInt8}
    (h : t.ipVersion = 4 ∧ (resolveNetwork t lit maskLength).family = .inet6) :
    deleteNetwork t lit maskLength = t := by
  unfold deleteNetwork
  dsimp only
  rw [if_pos h]

theorem deleteNetwork_shallow {t : Tree} {pos : Nat → List Bool} (hv : t.Valid) (hl : t.Labelled pos)
    (hs : t.Shallow) (lit : IpLiteral) (maskLength : UInt8) : (deleteNetwork t lit maskLength).Shallow := by
  by_cases hacc : t.ipVersion = 4 ∧ (resolveNetwork t lit maskLength).family = .inet6
  · rwa [deleteNetwork_of_rejected hacc]
  rcases deleteNetwork_cases t lit maskLength with ⟨he, -⟩ | h
  · rwa [he]
  · exact insertRecordForNetwork_shallow (by simp) hv.wellFormed hl
      (resolveNetwork_maxDepth0_of_accepted hv.ipVersion_eq hacc) hs h

/-- In a tree built without `alias_ipv4_networks`, by calls with any masks, no node lies
    `max_depth0 + 1` bits deep or deeper. -/
theorem Reachable.shallow_of_aliasFree {t : Tree} (ht : Reachable aliasFree t) : t.Shallow := by
  induction ht with
  | newTree v r n _ =>
    intro q hq x
    rw [newTree_select v r n (List.ne_nil_of_length_pos (by omega))]
    simp
  | step hr ha hs ih =>
    obtain ⟨pos, hl⟩ := hr.labelled
    cases hs with
    | insertNetwork h => exact insertNetwork_shallow hr.valid hl ih h
    | deleteNetwork => exact deleteNetwork_shallow hr.valid hl ih _ _
    | deleteReservedNetworks =>
      refine (deleteReservedNetworks_induction
        (fun t' => t'.Valid ∧ (∃ pos, t'.Labelled pos) ∧ t'.Shallow)
        (fun t' lit m ⟨hv', ⟨pos', hl'⟩, hs'⟩ => ⟨Op.Step.deleteNetwork.valid hv',
          deleteNetwork_labelled _ _ hv'.wellFormed hl', deleteNetwork_shallow hv' hl' hs' lit m⟩)
        ⟨hr.valid, ⟨pos, hl⟩, ih⟩).2.2
    | aliasIpv4Networks => exact absurd rfl ha

theorem Reachable.lookupRecord_ne_node {t : Tree} (ht : Reachable aliasFree t) (a : IpLiteral)
    (c : Nat) : lookupRecord t a ≠ .node c := by
  rw [ht.valid.lookupRecord_eq]
  exact ht.shallow_of_aliasFree _ (by simp) c

/-- Without `alias_ipv4_networks`, whatever the masks of the calls, `lookup_ip_address` never
    croaks: the record its descent selects is `EMPTY` or `DATA`. -/
theorem lookupIpAddress_ok_of_aliasFree {t : Tree} (ht : Reachable aliasFree t) (a : IpLiteral) :
    ∃ answer, (lookupIpAddress t a).2 = .ok answer := by
  rw [(lookupIpAddress_eq t a).2]
  cases h : lookupRecord t a with
  | node c => exact absurd h (ht.lookupRecord_ne_node a c)
  | empty => exact ⟨none, rfl⟩
  | data k => exact ⟨_, rfl⟩

/-- The tree of `10.0.0.0/8 → k` in a new IPv4 tree answers every address. -/
theorem lookupIpAddress_ok_of_aliasFree_ten :
    ∃ t, Reachable aliasFree t ∧ ∀ a, ∃ answer, (lookupIpAddress t a).2 = .ok answer :=
  have ht : Reachable aliasFree _ := .step (.newTree 4 24 0 (.inl rfl)) (by simp [aliasFree])
    (.insertNetwork (show insertNetwork 1 (newTree 4 24 0) (v4 10 0 0 0) 8 ⟨1, [65]⟩ ⟨2, [66]⟩ =
      some (0, _) from rfl))
  ⟨_, ht, lookupIpAddress_ok_of_aliasFree ht⟩

/-! ## Networks of a call -/

/-- The tree takes the network: it is not an IPv4 tree asked for an IPv6 network. -/
def Tree.Accepts (t : Tree) (lit : IpLiteral) (maskLength : UInt8) : Prop :=
  ¬ (t.ipVersion = 4 ∧ (resolveNetwork t lit maskLength).family = .inet6)

instance (t : Tree) (lit : IpLiteral) (maskLength : UInt8) : Decidable (t.Accepts lit maskLength) :=
  inferInstanceAs (Decidable (¬ (t.ipVersion = 4 ∧ (resolveNetwork t lit maskLength).family = .inet6)))

/-- The network `lit/maskLength` holds the address `a`: their first `maskLength` bits agree. -/
def Tree.Covers (t : Tree) (lit : IpLiteral) (maskLength : UInt8) (a : IpLiteral) : Prop :=
  (hostNetwork t a).bits maskLength.toNat = (resolveNetwork t lit maskLength).bits maskLength.toNat

instance (t : Tree) (lit : IpLiteral) (maskLength : UInt8) (a : IpLiteral) :
    Decidable (t.Covers lit maskLength a) :=
  inferInstanceAs (Decidable ((hostNetwork t a).bits maskLength.toNat =
    (resolveNetwork t lit maskLength).bits maskLength.toNat))

/-- A network the tree takes has a mask with `1 ≤ m ≤ max_depth`. -/
def Tree.InRange (t : Tree) (lit : IpLiteral) (maskLength : UInt8) : Prop :=
  t.Accepts lit maskLength → 1 ≤ maskLength.toNat ∧ maskLength.toNat ≤ t.maxDepth0 + 1

instance (t : Tree) (lit : IpLiteral) (maskLength : UInt8) : Decidable (t.InRange lit maskLength) :=
  inferInstanceAs (Decidable (t.Accepts lit maskLength →
    1 ≤ maskLength.toNat ∧ maskLength.toNat ≤ t.maxDepth0 + 1))

section Congr

variable {t t' : Tree} (h : t'.ipVersion = t.ipVersion) (lit : IpLiteral) (maskLength : UInt8)
include h

/-! Networks are resolved from the tree's IP version alone. -/

theorem Tree.accepts_congr : t'.Accepts lit maskLength ↔ t.Accepts lit maskLength := by
  simp only [Tree.Accepts, resolveNetwork_congr h, h]

theorem Tree.covers_congr (a : IpLiteral) : t'.Covers lit maskLength a ↔ t.Covers lit maskLength a := by
  simp only [Tree.Covers, resolveNetwork_congr h, hostNetwork_congr h]

theorem Tree.inRange_congr : t'.InRange lit maskLength ↔ t.InRange lit maskLength := by
  simp only [Tree.InRange, Tree.accepts_congr h, Tree.maxDepth0, h]

end Congr

/-! ## The map -/

/-- What `lookup_ip_address` answers, as a map: the record an address finds (`EMPTY` or `DATA`),
    and the data stored under each key's bytes. -/
structure AddressMap where
  record : IpLiteral → Record
  data : List UInt8 → Option SV

namespace AddressMap

/-- The map of a new tree: every address finds `EMPTY`, and no data is stored. -/
def empty : AddressMap := ⟨fun _ => .empty, fun _ => none⟩

/-- The answer for `a`: `undef` for `EMPTY`, the data stored under the key's bytes for `DATA`. -/
def answer (s : AddressMap) (a : IpLiteral) : Option SV :=
  match s.record a with
  | .data key => s.data key.pv
  | _ => none

/-- Every address of the network `lit/maskLength`, if the tree takes it, finds `r`. -/
def write (t : Tree) (lit : IpLiteral) (maskLength : UInt8) (r : Record) (s : AddressMap) :
    AddressMap :=
  if t.Accepts lit maskLength then
    { s with record := fun a => if t.Covers lit maskLength a then r else s.record a }
  else s

/-- What each public call does to the map, the networks resolved in `t`'s IP version.
    `alias_ipv4_networks` is no operation on the map: its node graph shares nodes between
    networks, and the runs below leave it out. -/
def apply (t : Tree) (s : AddressMap) : Op → AddressMap
  | .insertNetwork lit maskLength key data =>
    if t.Accepts lit maskLength then
      { record := fun a => if t.Covers lit maskLength a then .data key else s.record a,
        data := Function.update s.data key.pv (some data) }
    else s
  | .deleteNetwork lit maskLength => s.write t lit maskLength .empty
  | .deleteReservedNetworks =>
    if t.ipVersion = 4 then ipv4Reserved.foldl (fun s e => s.write t e.1 e.2 .empty) s
    else
      ipv6Reserved.foldl (fun s e => s.write t e.1 e.2 .empty)
        (ipv4Reserved.foldl (fun s e => s.write t e.1 (e.2 + 96) .empty) s)
  | .aliasIpv4Networks => s

theorem write_congr {t t' : Tree} (h : t'.ipVersion = t.ipVersion) : write t' = write t := by
  funext lit maskLength r s
  simp only [write, Tree.accepts_congr h, Tree.covers_congr h]

theorem apply_congr {t t' : Tree} (h : t'.ipVersion = t.ipVersion) : apply t' = apply t := by
  funext s op
  cases op <;> simp only [apply, Tree.accepts_congr h, Tree.covers_congr h, write_congr h, h]

end AddressMap

/-- The calls the map describes: inserts and deletes of networks with `1 ≤ m ≤ max_depth`, and
    `delete_reserved_networks`. -/
def Op.InRange (t : Tree) : Op → Prop
  | .insertNetwork lit maskLength _ _ => t.InRange lit maskLength
  | .deleteNetwork lit maskLength => t.InRange lit maskLength
  | .deleteReservedNetworks => True
  | .aliasIpv4Networks => False

instance (t : Tree) (op : Op) : Decidable (op.InRange t) :=
  match op with
  | .insertNetwork lit maskLength _ _ => inferInstanceAs (Decidable (t.InRange lit maskLength))
  | .deleteNetwork lit maskLength => inferInstanceAs (Decidable (t.InRange lit maskLength))
  | .deleteReservedNetworks => inferInstanceAs (Decidable True)
  | .aliasIpv4Networks => inferInstanceAs (Decidable False)

theorem Op.inRange_congr {t t' : Tree} (h : t'.ipVersion = t.ipVersion) (op : Op) :
    op.InRange t' ↔ op.InRange t := by
  cases op <;> simp only [Op.InRange, Tree.inRange_congr h]

/-! ## Trees that answer as a map -/

/-- `t` answers as `s`: the record every lookup selects answers like the map's (`EMPTY`, or
    `DATA` with a key of the same bytes), and the data hash is the map's. -/
structure Tree.Represents (t : Tree) (s : AddressMap) : Prop where
  record : ∀ a, (lookupRecord t a).sameValue (s.record a) = true
  leaf : ∀ a c, s.record a ≠ .node c
  data : t.dataHash.fetch = s.data

/-- A tree that answers as a map returns the map's answers, exactly: byte-equal keys store
    their data under the same bytes. -/
theorem Tree.Represents.answer_eq {t : Tree} {s : AddressMap} (h : t.Represents s) (a : IpLiteral) :
    (lookupIpAddress t a).2 = .ok (s.answer a) := by
  have hr := h.record a
  rw [(lookupIpAddress_eq t a).2, AddressMap.answer]
  cases hs : s.record a with
  | node c => exact absurd hs (h.leaf a c)
  | empty =>
    rw [hs] at hr
    cases hl : lookupRecord t a <;> simp_all [Record.sameValue]
  | data k =>
    rw [hs] at hr
    cases hl : lookupRecord t a <;> simp_all [Record.sameValue, dataForKey, h.data]

theorem Tree.Represents.newTree {v : Nat} (hv : v = 4 ∨ v = 6) (recordSize nodesPerAlloc : Nat) :
    (newTree v recordSize nodesPerAlloc).Represents .empty :=
  ⟨fun a => by rw [lookupRecord_newTree hv]; rfl, fun _ _ => Record.noConfusion, rfl⟩

section Step

variable {t : Tree} {s : AddressMap} (ht : Reachable aliasFree t) (h : t.Represents s)
include ht h

omit ht in
/-- A call that writes `r` into the addresses of `P`: inside them the lookups find `r`,
    outside them what they found before. -/
theorem Tree.Represents.update {t' : Tree} {P : IpLiteral → Prop} [DecidablePred P] {r : Record}
    (hr : ∀ c, r ≠ .node c) (inside : ∀ a, P a → lookupRecord t' a = r)
    (outside : ∀ a, ¬ P a → (lookupRecord t' a).sameValue (lookupRecord t a) = true) (a : IpLiteral) :
    (lookupRecord t' a).sameValue (if P a then r else s.record a) = true ∧
      ∀ c, (if P a then r else s.record a) ≠ .node c := by
  by_cases hc : P a
  · simp only [if_pos hc, inside a hc, Record.sameValue_refl, true_and]
    exact hr
  · simp only [if_neg hc]
    exact ⟨Record.sameValue_trans (outside a hc) (h.record a), h.leaf a⟩

theorem Tree.Represents.insertNetwork_step {t' : Tree} {fuel : Nat} {lit : IpLiteral} {maskLength : UInt8}
    {key data : SV} {result : Int} (hm : t.InRange lit maskLength)
    (hins : insertNetwork fuel t lit maskLength key data = some (result, t')) :
    t'.Represents (s.apply t (.insertNetwork lit maskLength key data)) := by
  rcases insertNetwork_some hins with ⟨h4, h6, -, ht'⟩ | ⟨hacc, -⟩
  · have hrej : ¬ t.Accepts lit maskLength := fun e => e ⟨h4, h6⟩
    rw [ht']
    simpa only [AddressMap.apply, if_neg hrej] using h
  have hv := ht.valid
  obtain ⟨pos, hl⟩ := ht.labelled
  have law := hv.insertNetwork_lookupRecord
    (resolveNetwork_family_of_accepted hv.ipVersion_eq hacc) (hm hacc) hins
  have hw := h.update (fun _ => Record.noConfusion) (fun a => (law a).1)
    (fun a hc => ((law a).2 pos hl hc).sameValue)
  have hacc' : t.Accepts lit maskLength := hacc
  simp only [AddressMap.apply, if_pos hacc']
  exact ⟨fun a => (hw a).1, fun a => (hw a).2, by rw [insertNetwork_dataHash_eq hins hacc, h.data]⟩

theorem Tree.Represents.deleteNetwork_step (lit : IpLiteral) (maskLength : UInt8)
    (hm : t.InRange lit maskLength) :
    (deleteNetwork t lit maskLength).Represents (s.write t lit maskLength .empty) := by
  by_cases hacc : t.Accepts lit maskLength
  · have hv := ht.valid
    obtain ⟨pos, hl⟩ := ht.labelled
    have law := hv.deleteNetwork_lookupRecord
      (resolveNetwork_family_of_accepted hv.ipVersion_eq hacc) (hm hacc)
    have hw := h.update (fun _ => Record.noConfusion) (fun a => (law a).1)
      (fun a hc => by rw [(law a).2 pos hl hc]; exact Record.sameValue_refl _)
    simp only [AddressMap.write, if_pos hacc]
    exact ⟨fun a => (hw a).1, fun a => (hw a).2, by rw [deleteNetwork_dataHash, h.data]⟩
  · rw [deleteNetwork_of_rejected (not_not.mp hacc)]
    simpa only [AddressMap.write, if_neg hacc] using h

end Step

/-- Deletes of a list of networks, the masks changed by `f` as `delete_reserved_networks` adds
    96 to the IPv4 masks in an IPv6 tree: the tree after them answers as the map after them. -/
theorem Tree.Represents.foldl_delete (f : UInt8 → UInt8) (l : List (IpLiteral × UInt8)) :
    ∀ {t : Tree} {s : AddressMap}, Reachable aliasFree t → t.Represents s →
      (∀ e ∈ l, t.InRange e.1 (f e.2)) →
      Reachable aliasFree (l.foldl (fun t e => deleteNetwork t e.1 (f e.2)) t) ∧
        (l.foldl (fun t e => deleteNetwork t e.1 (f e.2)) t).ipVersion = t.ipVersion ∧
        (l.foldl (fun t e => deleteNetwork t e.1 (f e.2)) t).Represents
          (l.foldl (fun s e => s.write t e.1 (f e.2) .empty) s) := by
  induction l with
  | nil => exact fun ht h _ => ⟨ht, rfl, h⟩
  | cons e l ih =>
    intro t s ht h hm
    have ht₁ : Reachable aliasFree (deleteNetwork t e.1 (f e.2)) :=
      .step ht (fun e => Op.noConfusion e) .deleteNetwork
    have hip := (deleteNetwork_wellFormed e.1 (f e.2) ht.valid.wellFormed).2.2
    obtain ⟨hr, hip', hrep⟩ := ih ht₁ (h.deleteNetwork_step ht e.1 (f e.2) (hm e (List.mem_cons_self e l)))
      fun e' he' => (Tree.inRange_congr hip _ _).mpr (hm e' (List.mem_cons_of_mem e he'))
    rw [AddressMap.write_congr hip] at hrep
    exact ⟨hr, hip'.trans hip, hrep⟩

/-- The masks of the reserved tables are in range: every IPv4 one in an IPv4 tree, and in an
    IPv6 tree the IPv4 ones with 96 added and the IPv6 ones. -/
theorem reserved_inRange {t : Tree} (hv : t.Valid) :
    (∀ e ∈ ipv4Reserved, t.InRange e.1 e.2) ∧
      (t.ipVersion ≠ 4 → (∀ e ∈ ipv4Reserved, t.InRange e.1 (e.2 + 96)) ∧
        ∀ e ∈ ipv6Reserved, t.InRange e.1 e.2) := by
  have h32 : ∀ e ∈ ipv4Reserved, 1 ≤ e.2.toNat ∧ e.2.toNat ≤ 32 := by decide
  have h128 : ∀ e ∈ ipv4Reserved, 1 ≤ (e.2 + 96).toNat ∧ (e.2 + 96).toNat ≤ 128 := by decide
  have h6 : ∀ e ∈ ipv6Reserved, 1 ≤ e.2.toNat ∧ e.2.toNat ≤ 128 := by decide
  have hmax : 31 ≤ t.maxDepth0 := by unfold Tree.maxDepth0; split <;> omega
  refine ⟨fun e he _ => ?_, fun h4 => ?_⟩
  · have := h32 e he; omega
  · have h127 : t.maxDepth0 = 127 := by simp [Tree.maxDepth0, hv.ipVersion_eq.resolve_left h4]
    exact ⟨fun e he _ => by have := h128 e he; omega, fun e he _ => by have := h6 e he; omega⟩

theorem Tree.Represents.deleteReservedNetworks_step {t : Tree} {s : AddressMap}
    (ht : Reachable aliasFree t) (h : t.Represents s) :
    (deleteReservedNetworks t).ipVersion = t.ipVersion ∧
      (deleteReservedNetworks t).Represents (s.apply t .deleteReservedNetworks) := by
  obtain ⟨h4r, h6r⟩ := reserved_inRange ht.valid
  unfold deleteReservedNetworks
  simp only [AddressMap.apply]
  by_cases h4 : t.ipVersion = 4
  · rw [if_pos h4, if_pos h4]
    exact (Tree.Represents.foldl_delete (fun m => m) ipv4Reserved ht h h4r).2
  · rw [if_neg h4, if_neg h4]
    obtain ⟨hr, hip, hrep⟩ := Tree.Represents.foldl_delete (· + 96) ipv4Reserved ht h (h6r h4).1
    obtain ⟨-, hip', hrep'⟩ := Tree.Represents.foldl_delete (fun m => m) ipv6Reserved hr hrep
      fun e he => (Tree.inRange_congr hip _ _).mpr ((h6r h4).2 e he)
    rw [AddressMap.write_congr hip] at hrep'
    exact ⟨hip'.trans hip, hrep'⟩

/-- What a call the map describes does: the tree after it is built without aliases, has the
    same IP version, and answers as the map after the call. -/
theorem Op.Step.represents {op : Op} {t t' : Tree} {s : AddressMap} (hs : op.Step t t')
    (ht : Reachable aliasFree t) (h : t.Represents s) (hop : op.InRange t) :
    Reachable aliasFree t' ∧ t'.ipVersion = t.ipVersion ∧ t'.Represents (s.apply t op) := by
  have hr : Reachable aliasFree t' := .step ht (by rintro rfl; exact hop) hs
  cases hs with
  | insertNetwork hins =>
    exact ⟨hr, (insertNetwork_wellFormed ht.valid.wellFormed hins).2.2, h.insertNetwork_step ht hop hins⟩
  | deleteNetwork =>
    exact ⟨hr, (deleteNetwork_wellFormed _ _ ht.valid.wellFormed).2.2, h.deleteNetwork_step ht _ _ hop⟩
  | deleteReservedNetworks => exact ⟨hr, h.deleteReservedNetworks_step ht⟩
  | aliasIpv4Networks => exact absurd hop id

/-! ## Runs -/

/-- Public calls applied in turn, each of them returning. -/
inductive Op.Run : Tree → List Op → Tree → Prop
  | nil (t : Tree) : Op.Run t [] t
  | cons {t t' t'' : Tree} {op : Op} {ops : List Op} :
      op.Step t t' → Op.Run t' ops t'' → Op.Run t (op :: ops) t''

/-- After a run of calls the map describes, the tree answers as the map after them. -/
theorem Op.Run.represents {t t' : Tree} {ops : List Op} (h : Op.Run t ops t') :
    ∀ {s : AddressMap}, Reachable aliasFree t → t.Represents s → (∀ op ∈ ops, op.InRange t) →
      t'.Represents (ops.foldl (AddressMap.apply t) s) := by
  induction h with
  | nil => exact fun _ hs _ => hs
  | cons hs _ ih =>
    intro s ht h hops
    obtain ⟨hr, hip, h₁⟩ := hs.represents ht h (hops _ (List.mem_cons_self _ _))
    have hrest := ih hr h₁ fun op hop =>
      (Op.inRange_congr hip op).mpr (hops op (List.mem_cons_of_mem _ hop))
    rwa [AddressMap.apply_congr hip] at hrest

/-- From a new tree, every run of `insert_network` and `delete_network` calls with masks
    `1 ≤ m ≤ max_depth` and of `delete_reserved_networks` calls ends in a tree whose
    `lookup_ip_address` returns, for every address, exactly what the map after the calls
    answers: the data stored last under the bytes of the key of the last call whose network
    holds the address, `undef` if that call was a delete or there is none; it never croaks. -/
theorem lookupIpAddress_refines_addressMap {v recordSize nodesPerAlloc : Nat} {ops : List Op}
    {t : Tree} (hv : v = 4 ∨ v = 6) (hops : ∀ op ∈ ops, op.InRange (newTree v recordSize nodesPerAlloc))
    (h : Op.Run (newTree v recordSize nodesPerAlloc) ops t) (a : IpLiteral) :
    (lookupIpAddress t a).2 =
      .ok ((ops.foldl (AddressMap.apply (newTree v recordSize nodesPerAlloc)) .empty).answer a) :=
  (h.represents (.newTree v recordSize nodesPerAlloc hv) (.newTree hv recordSize nodesPerAlloc)
    hops).answer_eq a

/-- `10.0.0.0/8 → k`, then `delete_network(10.1.0.0/16)`, in a new IPv4 tree. -/
theorem lookupIpAddress_refines_addressMap_ten :
    ∃ t, Op.Run (newTree 4 24 0)
        [.insertNetwork (v4 10 0 0 0) 8 ⟨1, [65]⟩ ⟨2, [66]⟩, .deleteNetwork (v4 10 1 0 0) 16] t ∧
      (lookupIpAddress t (v4 10 1 2 3)).2 =
        .ok (([.insertNetwork (v4 10 0 0 0) 8 ⟨1, [65]⟩ ⟨2, [66]⟩, .deleteNetwork (v4 10 1 0 0) 16].foldl
          (AddressMap.apply (newTree 4 24 0)) .empty).answer (v4 10 1 2 3)) := by
  obtain ⟨t, h⟩ : ∃ t, Op.Run (newTree 4 24 0)
      [.insertNetwork (v4 10 0 0 0) 8 ⟨1, [65]⟩ ⟨2, [66]⟩, .deleteNetwork (v4 10 1 0 0) 16] t :=
    ⟨_, .cons (.insertNetwork (show insertNetwork 1 _ _ _ _ _ = some (0, _) from rfl))
      (.cons .deleteNetwork (.nil _))⟩
  exact ⟨t, h, lookupIpAddress_refines_addressMap (.inl rfl) (by decide) h _⟩

/-! ## What `delete_reserved_networks` does -/

/-- The networks `delete_reserved_networks` deletes, as the tree reads them: the IPv4 reserved
    networks, and in an IPv6 tree these with 96 added to their masks and the IPv6 reserved
    networks after them. -/
def reservedNetworks (t : Tree) : List (IpLiteral × UInt8) :=
  if t.ipVersion = 4 then ipv4Reserved
  else ipv4Reserved.map (fun e => (e.1, e.2 + 96)) ++ ipv6Reserved

/-- A tree takes every network of its reserved list. -/
theorem reservedNetworks_accepts (t : Tree) : ∀ e ∈ reservedNetworks t, t.Accepts e.1 e.2 := by
  by_cases h4 : t.ipVersion = 4
  · have h : ∀ e ∈ ipv4Reserved, (newTree 4 0 0).Accepts e.1 e.2 := by decide
    rw [reservedNetworks, if_pos h4]
    exact fun e he => (Tree.accepts_congr (t := newTree 4 0 0) h4 e.1 e.2).mpr (h e he)
  · exact fun _ _ h => h4 h.1

namespace AddressMap

variable (t : Tree) (f : UInt8 → UInt8) (a : IpLiteral)

theorem write_record (s : AddressMap) (lit : IpLiteral) (maskLength : UInt8) (r : Record) :
    (s.write t lit maskLength r).record a =
      if t.Accepts lit maskLength ∧ t.Covers lit maskLength a then r else s.record a := by
  unfold write
  by_cases h₁ : t.Accepts lit maskLength <;> by_cases h₂ : t.Covers lit maskLength a <;>
    simp [h₁, h₂]

theorem foldl_write_data (l : List (IpLiteral × UInt8)) :
    ∀ s : AddressMap, (l.foldl (fun s e => s.write t e.1 (f e.2) .empty) s).data = s.data := by
  induction l with
  | nil => exact fun _ => rfl
  | cons e l ih =>
    intro s
    rw [List.foldl_cons, ih]
    unfold write; split <;> rfl

/-- After deletes of a list of networks, an address finds `EMPTY` if a network of the list that
    the tree takes holds it, and its old record otherwise. -/
theorem foldl_write_record (l : List (IpLiteral × UInt8)) :
    ∀ s : AddressMap, (l.foldl (fun s e => s.write t e.1 (f e.2) .empty) s).record a =
      if ∃ e ∈ l, t.Accepts e.1 (f e.2) ∧ t.Covers e.1 (f e.2) a then .empty else s.record a := by
  induction l with
  | nil => intro s; simp
  | cons e l ih =>
    intro s
    rw [List.foldl_cons, ih, write_record]
    by_cases hl : ∃ e ∈ l, t.Accepts e.1 (f e.2) ∧ t.Covers e.1 (f e.2) a <;>
      by_cases he : t.Accepts e.1 (f e.2) ∧ t.Covers e.1 (f e.2) a <;> simp [hl, he]

/-- The map after `delete_reserved_networks`: `EMPTY` on every address a reserved network holds,
    the old record elsewhere. -/
theorem apply_deleteReservedNetworks_record (s : AddressMap) :
    (s.apply t .deleteReservedNetworks).record a =
      if ∃ e ∈ reservedNetworks t, t.Covers e.1 e.2 a then .empty else s.record a := by
  by_cases h4 : t.ipVersion = 4
  · have hacc := reservedNetworks_accepts t
    simp only [apply, reservedNetworks, if_pos h4] at hacc ⊢
    rw [foldl_write_record t (fun m => m)]
    congr 1
    exact propext ⟨fun ⟨e, he, _, hc⟩ => ⟨e, he, hc⟩, fun ⟨e, he, hc⟩ => ⟨e, he, hacc e he, hc⟩⟩
  · have hacc : ∀ lit m, t.Accepts lit m := fun _ _ h => h4 h.1
    simp only [apply, reservedNetworks, if_neg h4]
    rw [foldl_write_record t (fun m => m), foldl_write_record t (· + 96)]
    simp only [hacc, true_and]
    by_cases h₆ : ∃ e ∈ ipv6Reserved, t.Covers e.1 e.2 a
    · obtain ⟨e, he, hc⟩ := h₆
      rw [if_pos ⟨e, he, hc⟩, if_pos ⟨e, List.mem_append_right _ he, hc⟩]
    by_cases h₄ : ∃ e ∈ ipv4Reserved, t.Covers e.1 (e.2 + 96) a
    · obtain ⟨e, he, hc⟩ := h₄
      rw [if_neg h₆, if_pos ⟨e, he, hc⟩,
        if_pos ⟨(e.1, e.2 + 96), List.mem_append_left _ (List.mem_map_of_mem _ he), hc⟩]
    · rw [if_neg h₆, if_neg h₄, if_neg]
      rintro ⟨e, he, hc⟩
      rcases List.mem_append.mp he with he | he
      · obtain ⟨e', he', rfl⟩ := List.mem_map.mp he
        exact h₄ ⟨e', he', hc⟩
      · exact h₆ ⟨e, he, hc⟩

theorem apply_deleteReservedNetworks_data (s : AddressMap) :
    (s.apply t .deleteReservedNetworks).data = s.data := by
  simp only [apply]
  split
  · exact foldl_write_data t (fun m => m) _ _
  · rw [foldl_write_data t (fun m => m), foldl_write_data t (· + 96)]

end AddressMap

/-- A tree built without aliases answers as the map of its own lookups. -/
theorem Reachable.represents_self {t : Tree} (ht : Reachable aliasFree t) :
    t.Represents ⟨lookupRecord t, t.dataHash.fetch⟩ :=
  ⟨fun _ => Record.sameValue_refl _, ht.lookupRecord_ne_node, rfl⟩

/-- A bit that falls in a zero byte is clear. -/
theorem Network.bit_of_getD_eq_zero {network : Network} {i : Nat} (hi : i ≤ network.maxDepth0)
    (hz : network.bytes.getD (i / 8) 0 = 0) : network.bit i = false := by
  rw [Network.bit_eq_testBit _ hi, hz]
  exact Nat.zero_testBit _

/-- The first 96 bits of an IPv4-compatible address `::a.b.c.d` are zero. -/
theorem hostNetwork_ipv4Compatible_bit {t : Tree} (h6 : t.ipVersion = 6) {b : List UInt8}
    (hb : (v4Compatible b).length = 16) {i : Nat} (hi : i < 96) :
    (hostNetwork t (.v6 (v4Compatible b) hb)).bit i = false := by
  have hnet : hostNetwork t (.v6 (v4Compatible b) hb) =
      ⟨v4Compatible b, 128, 127, .inet6, .inr rfl, by simp [hb]⟩ := by
    simp only [hostNetwork, h6, if_true]; rfl
  rw [hnet]
  refine Network.bit_of_getD_eq_zero (show i ≤ 127 by omega) ?_
  show (v4Compatible b).getD (i / 8) 0 = 0
  rw [v4Compatible, List.getD_append _ _ _ _ (by simp; omega), List.getD_eq_getElem?_getD,
    List.getElem?_getD_replicate_default_eq]

/-- A network with a one bit among its first 96 bits holds no IPv4-compatible address. -/
theorem not_covers_ipv4Compatible {t : Tree} (h6 : t.ipVersion = 6) {lit : IpLiteral} {m : UInt8}
    {i : Nat} (hi : i < m.toNat) (hi96 : i < 96) (hbit : (resolveNetwork t lit m).bit i = true)
    (b : List UInt8) (hb : (v4Compatible b).length = 16) :
    ¬ t.Covers lit m (.v6 (v4Compatible b) hb) := by
  intro hc
  have hi' := congrArg (fun l => l[i]?) hc
  simp only [Network.bits, List.getElem?_map, List.getElem?_range hi, Option.map_some',
    Option.some.injEq] at hi'
  rw [hostNetwork_ipv4Compatible_bit h6 hb hi96, hbit] at hi'
  exact Bool.false_ne_true hi'

/-- In a tree built without aliases, `delete_reserved_networks` makes every address a reserved
    network holds (as the tree reads the network) look up `undef`, and leaves every other
    address's answer as it was.  In an IPv6 tree no reserved network holds an IPv4-compatible
    address `::a.b.c.d`: the IPv4 reserved networks are deleted in their v4-mapped form
    `::ffff:a.b.c.d`, and `::/96`, where `alias_ipv4_networks` looks for the IPv4 addresses, is
    left as it is. -/
theorem deleteReservedNetworks_lookup {t : Tree} (ht : Reachable aliasFree t) :
    (∀ a, (lookupIpAddress (deleteReservedNetworks t) a).2 =
      if ∃ e ∈ reservedNetworks t, t.Covers e.1 e.2 a then .ok none
      else (lookupIpAddress t a).2) ∧
    (t.ipVersion = 6 → ∀ b hb, ∀ e ∈ reservedNetworks t, ¬ t.Covers e.1 e.2 (.v6 (v4Compatible b) hb)) := by
  refine ⟨fun a => ?_, fun h6 b hb e he => ?_⟩
  · have hself := ht.represents_self
    rw [(hself.deleteReservedNetworks_step ht).2.answer_eq, hself.answer_eq, AddressMap.answer,
      AddressMap.apply_deleteReservedNetworks_record, AddressMap.apply_deleteReservedNetworks_data]
    split_ifs <;> rfl
  · -- every deleted network has a one bit among its first 96 bits
    have hcongr : ∀ lit m, resolveNetwork t lit m = resolveNetwork (newTree 6 0 0) lit m :=
      resolveNetwork_congr h6
    have h4tab : ∀ e ∈ ipv4Reserved, 80 < (e.2 + 96).toNat ∧
        (resolveNetwork (newTree 6 0 0) e.1 (e.2 + 96)).bit 80 = true := by decide
    have h6tab : ∀ e ∈ ipv6Reserved, ∃ i, i < 8 ∧ i < e.2.toNat ∧
        (resolveNetwork (newTree 6 0 0) e.1 e.2).bit i = true := by decide
    rw [reservedNetworks, if_neg (by omega), List.mem_append, List.mem_map] at he
    rcases he with ⟨e, he, rfl⟩ | he
    · obtain ⟨hi, hbit⟩ := h4tab e he
      exact not_covers_ipv4Compatible h6 hi (by omega) (by rw [hcongr]; exact hbit) b hb
    · obtain ⟨i, hi8, hi, hbit⟩ := h6tab e he
      exact not_covers_ipv4Compatible h6 hi (by omega) (by rw [hcongr]; exact hbit) b hb

/-- `0.0.0.0/1 → k` in a new IPv4 tree, then `delete_reserved_networks`: `10.1.2.3`, which lies
    in `10.0.0.0/8`, loses the data it held, and `11.1.2.3`, in no reserved network, keeps it. -/
theorem deleteReservedNetworks_lookup_ten :
    ∃ t, insertNetwork 1 (newTree 4 24 0) (v4 0 0 0 0) 1 ⟨1, [65]⟩ ⟨2, [66]⟩ = some (0, t) ∧
      (lookupIpAddress t (v4 10 1 2 3)).2 = .ok (some ⟨2, [66]⟩) ∧
      (lookupIpAddress (deleteReservedNetworks t) (v4 10 1 2 3)).2 = .ok none ∧
      (lookupIpAddress (deleteReservedNetworks t) (v4 11 1 2 3)).2 = .ok (some ⟨2, [66]⟩) := by
  obtain ⟨t, h, hin, hout, h10, h11⟩ : ∃ t,
      insertNetwork 1 (newTree 4 24 0) (v4 0 0 0 0) 1 ⟨1, [65]⟩ ⟨2, [66]⟩ = some (0, t) ∧
      (∃ e ∈ reservedNetworks t, t.Covers e.1 e.2 (v4 10 1 2 3)) ∧
      ¬ (∃ e ∈ reservedNetworks t, t.Covers e.1 e.2 (v4 11 1 2 3)) ∧
      (lookupIpAddress t (v4 10 1 2 3)).2 = .ok (some ⟨2, [66]⟩) ∧
      (lookupIpAddress t (v4 11 1 2 3)).2 = .ok (some ⟨2, [66]⟩) :=
    ⟨_, rfl, by decide, by decide, rfl, rfl⟩
  have law := (deleteReservedNetworks_lookup
    (.step (.newTree 4 24 0 (.inl rfl)) (by simp [aliasFree]) (.insertNetwork h))).1
  exact ⟨t, h, h10, by rw [law, if_pos hin], by rw [law, if_neg hout, h11]⟩

/-! ## An IPv4 literal in an IPv6 tree -/

/-- In an IPv6 tree an IPv4 literal resolves to `::ffff:a.b.c.d`, whose first 80 bits are zero,
    with its mask as given. -/
theorem resolveNetwork_v4_bit {t : Tree} (h6 : t.ipVersion = 6) (a : List UInt8)
    (ha : a.length = 4) (m : UInt8) {i : Nat} (hi : i < 80) :
    (resolveNetwork t (.v4 a ha) m).bit i = false := by
  have hnet : resolveNetwork t (.v4 a ha) m =
      ⟨v4Mapped a, m, 127, .inet6, .inr rfl, by simp [v4Mapped, ha]⟩ := by
    simp only [resolveNetwork, h6, if_true]
  rw [hnet]
  refine Network.bit_of_getD_eq_zero (show i ≤ 127 by omega) ?_
  show (v4Mapped a).getD (i / 8) 0 = 0
  rw [v4Mapped, List.append_assoc, List.getD_append _ _ _ _ (by simp; omega),
    List.getD_eq_getElem?_getD, List.getElem?_getD_replicate_default_eq]

/-- In an IPv6 tree, `resolve_network` reads an IPv4 literal as `::ffff:a.b.c.d` but keeps its
    mask, which counts from the top of the 128-bit address: `insert_network(a.b.c.d/m)` with
    `m ≤ 80` writes all of `::/m`, and afterwards every IPv4 address, given as a literal or as
    `::a.b.c.d`, finds the inserted data, whatever `a.b.c.d` was. -/
theorem insertNetwork_ipv4Literal_ipv6 {t t' : Tree} (ht : Reachable aliasFree t)
    (h6 : t.ipVersion = 6) {a : List UInt8} {ha : a.length = 4} {m : UInt8}
    (hm : 1 ≤ m.toNat ∧ m.toNat ≤ 80) {fuel : Nat} {key data : SV} {result : Int}
    (hins : insertNetwork fuel t (.v4 a ha) m key data = some (result, t')) :
    (∀ x hx, (lookupIpAddress t' (.v4 x hx)).2 = .ok (some data)) ∧
      ∀ b hb, (lookupIpAddress t' (.v6 (v4Compatible b) hb)).2 = .ok (some data) := by
  have hv := ht.valid
  have hfam : (resolveNetwork t (.v4 a ha) m).family = t.family := by
    simp [resolveNetwork, Tree.family, h6]
  have hacc : t.Accepts (.v4 a ha) m := fun h => absurd (h.1.symm.trans h6) (by decide)
  -- an address whose first 80 bits are zero lies in the network and finds the data
  have hlow : ∀ lit, (∀ i < 80, (hostNetwork t lit).bit i = false) →
      (lookupIpAddress t' lit).2 = .ok (some data) := by
    intro lit hbit
    have hcov : (hostNetwork t lit).bits m.toNat = (resolveNetwork t (.v4 a ha) m).bits m.toNat :=
      List.map_congr_left fun i hi => by
        have hi' := List.mem_range.mp hi
        rw [hbit i (by omega), resolveNetwork_v4_bit h6 a ha m (by omega)]
    have hrec := (hv.insertNetwork_lookupRecord hfam
      ⟨hm.1, by simp only [Tree.maxDepth0, h6, if_true]; omega⟩ hins lit).1 hcov
    rw [(lookupIpAddress_eq t' lit).2, hrec]
    simp only [dataForKey, insertNetwork_dataHash_eq hins hacc, Function.update_same]
  refine ⟨fun x hx => hlow _ fun i hi => ?_, fun b hb => hlow _ fun i hi =>
    hostNetwork_ipv4Compatible_bit h6 hb (by omega)⟩
  simp only [hostNetwork, h6, if_true]
  exact resolveNetwork_v4_bit h6 x hx _ hi

/-- `1.2.3.0/24 → k` in a new IPv6 tree: `8.8.8.8` finds `k`'s data. -/
theorem insertNetwork_ipv4Literal_ipv6_eight :
    ∃ t', insertNetwork 1 (newTree 6 24 0) (v4 1 2 3 0) 24 ⟨1, [65]⟩ ⟨2, [66]⟩ = some (0, t') ∧
      (lookupIpAddress t' (v4 8 8 8 8)).2 = .ok (some ⟨2, [66]⟩) := by
  obtain ⟨t', h⟩ : ∃ t', insertNetwork 1 (newTree 6 24 0) (v4 1 2 3 0) 24 ⟨1, [65]⟩ ⟨2, [66]⟩ =
      some (0, t') := ⟨_, rfl⟩
  exact ⟨t', h, (insertNetwork_ipv4Literal_ipv6 (.newTree 6 24 0 (.inr rfl)) rfl (by decide) h).1 _ _⟩

/-! ## An IPv6 literal in an IPv4 tree -/

/-- The first four bytes of a 16-byte address. -/
theorem length_take_four {a : List UInt8} (ha : a.length = 16) : (a.take 4).length = 4 := by
  rw [List.length_take, ha]; rfl

/-- In an IPv4 tree the host network of an IPv6 literal keeps its 128 bits, and its first 32 are
    those of the IPv4 address of the literal's first four bytes. -/
theorem hostNetwork_v6_bits_ipv4 {t : Tree} (h4 : t.ipVersion = 4) (a : List UInt8)
    (ha : a.length = 16) :
    (hostNetwork t (.v6 a ha)).bits 32 = (hostNetwork t (.v4 (a.take 4) (length_take_four ha))).bits 32 := by
  have hnet : hostNetwork t (.v4 (a.take 4) (length_take_four ha)) =
      ⟨a.take 4, 32, 31, .inet, .inl rfl, by rw [length_take_four ha]⟩ := by
    simp [hostNetwork, resolveNetwork, h4]
  rw [hnet]
  refine List.map_congr_left fun i hi => ?_
  have hi' := List.mem_range.mp hi
  rw [Network.bit_eq_testBit _ (show i ≤ 127 by omega), Network.bit_eq_testBit _ (show i ≤ 31 by omega)]
  show (a.getD (i / 8) 0).toNat.testBit _ = ((a.take 4).getD (i / 8) 0).toNat.testBit _
  rw [List.getD_eq_getElem?_getD, List.getD_eq_getElem?_getD, List.getElem?_take_of_lt (by omega)]

/-- `alias_ipv4_networks` does nothing to an IPv4 tree, so every reachable IPv4 tree is built
    without aliases. -/
theorem Reachable.aliasFree_of_ipv4 {t : Tree} (ht : Reachable anyOp t) (h4 : t.ipVersion = 4) :
    Reachable aliasFree t := by
  induction ht with
  | newTree v r n hv => exact .newTree v r n hv
  | step hr _ hs ih =>
    have h4' := (hs.wellFormed hr.valid.wellFormed).2.symm.trans h4
    cases hs with
    | insertNetwork h => exact .step (ih h4') (fun e => Op.noConfusion e) (.insertNetwork h)
    | deleteNetwork => exact .step (ih h4') (fun e => Op.noConfusion e) .deleteNetwork
    | deleteReservedNetworks => exact .step (ih h4') (fun e => Op.noConfusion e) .deleteReservedNetworks
    | aliasIpv4Networks => rw [aliasIpv4Networks, if_pos h4']; exact ih h4'

/-- An IPv6 literal in an IPv4 tree: `insert_network` refuses it with `-1`
    and `delete_network` ignores it, but `lookup_ip_address` does not refuse it.  It resolves the
    literal as a /32 of its 128 bits, whose descent reads the first 32, and answers what the IPv4
    address of the literal's first four bytes answers. -/
theorem ipv6Literal_ipv4Tree {t : Tree} (ht : Reachable anyOp t) (h4 : t.ipVersion = 4)
    (a : List UInt8) (ha : a.length = 16) :
    (∀ fuel m key data, insertNetwork fuel t (.v6 a ha) m key data = some (-1, t)) ∧
      (∀ m, deleteNetwork t (.v6 a ha) m = t) ∧
      (lookupIpAddress t (.v6 a ha)).2 = (lookupIpAddress t (.v4 (a.take 4) (length_take_four ha))).2 := by
  have hrej : ∀ m, t.ipVersion = 4 ∧ (resolveNetwork t (.v6 a ha) m).family = .inet6 :=
    fun m => ⟨h4, rfl⟩
  refine ⟨fun fuel m key data => by rw [insertNetwork, if_pos (hrej m)],
    fun m => deleteNetwork_of_rejected (hrej m), ?_⟩
  have ht := ht.aliasFree_of_ipv4 h4
  have hv := ht.valid
  have hmax : t.maxDepth0 + 1 = 32 := by simp [Tree.maxDepth0, h4]
  have hrec : lookupRecord t (.v6 a ha) = lookupRecord t (.v4 (a.take 4) (length_take_four ha)) := by
    rw [hv.lookupRecord_eq, hv.lookupRecord_eq, hmax, hostNetwork_v6_bits_ipv4 h4]
  rw [(lookupIpAddress_eq _ _).2, (lookupIpAddress_eq _ _).2, hrec]
  cases h : lookupRecord t (.v4 (a.take 4) (length_take_four ha)) with
  | node c => exact absurd h (ht.lookupRecord_ne_node _ c)
  | empty | data => rfl

/-- `32.0.0.0/8 → k` in a new IPv4 tree: `2001::` answers as `32.1.0.0`. -/
theorem ipv6Literal_ipv4Tree_twenty :
    ∃ T, insertNetwork 1 (newTree 4 24 0) (v4 32 0 0 0) 8 ⟨1, [65]⟩ ⟨2, [66]⟩ = some (0, T) ∧
      (lookupIpAddress T (v6Prefix 0x20 0x01)).2 = (lookupIpAddress T (v4 32 1 0 0)).2 :=
  ⟨_, rfl, (ipv6Literal_ipv4Tree (.step (.newTree 4 24 0 (.inl rfl)) trivial
    (.insertNetwork (show insertNetwork 1 (newTree 4 24 0) (v4 32 0 0 0) 8 ⟨1, [65]⟩ ⟨2, [66]⟩ =
      some (0, _) from rfl))) rfl _ _).2.2⟩

/-! ## The map after `alias_ipv4_networks` -/

/-- The address path along which the tree before `alias_ipv4_networks` answers for the address
    path `q` after it.  Below an alias edge the IPv4 root node's subtree is entered with the bits
    that follow the edge: bit 95 on for `::ffff:0:0/95`, bit 16 on for `2002::/16`, so a 6to4
    address's IPv4 part is read one bit late.  Every other path reads as before. -/
def aliasPath (q : List Bool) : List Bool :=
  if mappedAliasPath ++ [true] <+: q then ipv4RootPath ++ q.drop 95
  else if sixToFourAliasPath ++ [false] <+: q then ipv4RootPath ++ (q.drop 16).take 33
  else q

/-- In an IPv6 tree built without aliases whose halting descent along `ipv4RootPath` reaches a
    node, the aliased tree's descent along an address path is the old tree's along `aliasPath`. -/
theorem aliasIpv4Networks_select_aliasPath {t : Tree} (ht : Reachable aliasFree t)
    (h6 : t.ipVersion = 6) {R : Nat} (hR : t.select t.rootNode ipv4RootPath = .node R)
    {q : List Bool} (hq : q.length = 128) :
    (aliasIpv4Networks t).select (aliasIpv4Networks t).rootNode q =
      t.select t.rootNode (aliasPath q) := by
  obtain ⟨pos, hl⟩ := ht.labelled
  have hw := ht.valid.wellFormed
  have h4 : t.ipVersion ≠ 4 := by omega
  unfold aliasPath
  split_ifs with hm hs
  · obtain ⟨r, rfl⟩ := hm
    rw [List.append_assoc, List.singleton_append, aliasIpv4Networks_select_mapped hw hl h4 hR]
    rfl
  · obtain ⟨r, rfl⟩ := hs
    have hr : r.length = 112 := by simp [sixToFourAliasPath] at hq; omega
    rw [List.append_assoc, List.singleton_append, aliasIpv4Networks_select_sixToFour hw hl h4 hR,
      show List.drop 16 (sixToFourAliasPath ++ false :: r) = r from rfl]
    -- the old tree's descent stops within the first 128 bits
    have hstop : ∀ c, t.select t.rootNode (ipv4RootPath ++ r.take 33) ≠ .node c :=
      ht.shallow_of_aliasFree _ (by simp [ipv4RootPath, Tree.maxDepth0, h6]; omega)
    rw [← List.take_append_drop 33 r, ← List.append_assoc,
      Tree.select_append_of_ne_node t rfl hstop, List.take_append_drop]
  · exact aliasIpv4Networks_select_other hw hl h4 hR (by omega) hm hs

/-- `alias_ipv4_networks` as a change of the address map, in an IPv6 tree built without aliases
    in which `::/96` has been split down to its last bit (otherwise the call changes nothing).
    Afterwards, `lookup_ip_address` answers for every address `a` what it answered before for the
    address `a'` whose bits are `aliasPath` of `a`'s: `::ffff:w.x.y.z` answers as `::1:w.x.y.z`,
    `::fffe:w.x.y.z` as `::w.x.y.z`, a `2002::/16` address as the address whose bits from 95 on are
    its bits from 16 on, and every other address as itself.  No lookup croaks. -/
theorem aliasIpv4Networks_lookup {t : Tree} (ht : Reachable aliasFree t) (h6 : t.ipVersion = 6)
    (hR : ∃ R, t.select t.rootNode ipv4RootPath = .node R) :
    (∀ a a', (hostNetwork t a').bits 128 = aliasPath ((hostNetwork t a).bits 128) →
      (lookupIpAddress (aliasIpv4Networks t) a).2 = (lookupIpAddress t a').2) ∧
    ∀ a, ∃ answer, (lookupIpAddress (aliasIpv4Networks t) a).2 = .ok answer := by
  obtain ⟨R, hR⟩ := hR
  have hv := ht.valid
  have hip := hv.wellFormed.aliasIpv4Networks.2.2
  have hmax : t.maxDepth0 + 1 = 128 := by simp [Tree.maxDepth0, h6]
  -- the aliased tree's record for an address is the old tree's along `aliasPath`
  have hrec : ∀ a, lookupRecord (aliasIpv4Networks t) a =
      t.select t.rootNode (aliasPath ((hostNetwork t a).bits 128)) := fun a => by
    rw [(Op.Step.aliasIpv4Networks.valid hv).lookupRecord_eq, hostNetwork_congr hip,
      show (aliasIpv4Networks t).maxDepth0 = t.maxDepth0 by simp only [Tree.maxDepth0, hip], hmax,
      aliasIpv4Networks_select_aliasPath ht h6 hR (by simp)]
  refine ⟨fun a a' ha' => ?_, fun a => ?_⟩
  · rw [(lookupIpAddress_eq _ _).2, (lookupIpAddress_eq _ _).2, hrec, ← ha', ← hmax,
      ← hv.lookupRecord_eq]
    cases h : lookupRecord t a' with
    | node c => exact absurd h (ht.lookupRecord_ne_node a' c)
    | empty => rfl
    | data key => simp only [dataForKey, aliasIpv4Networks_dataHash]
  · -- `aliasPath` keeps the 128 bits, so the old tree's descent along it stops at a record
    have hlen : t.maxDepth0 < (aliasPath ((hostNetwork t a).bits 128)).length := by
      unfold aliasPath
      split_ifs <;> simp [ipv4RootPath, Tree.maxDepth0, h6]
    rw [(lookupIpAddress_eq _ _).2, hrec]
    cases h : t.select t.rootNode (aliasPath ((hostNetwork t a).bits 128)) with
    | node c => exact absurd h (ht.shallow_of_aliasFree _ hlen c)
    | empty => exact ⟨none, rfl⟩
    | data key => exact ⟨_, rfl⟩

/-- After `::/96 → k` in a new IPv6 tree and `alias_ipv4_networks`, `::ffff:1.2.3.4` answers as
    `::1:1.2.3.4` did. -/
theorem aliasIpv4Networks_lookup_mapped :
    ∃ T, insertNetwork 1 (newTree 6 28 0) ipv4RootLiteral 96 ⟨1, [65]⟩ ⟨2, [66]⟩ = some (0, T) ∧
      (lookupIpAddress (aliasIpv4Networks T) (.v6 (v4Mapped [1, 2, 3, 4]) rfl)).2 =
        (lookupIpAddress T (.v6 (List.replicate 11 0 ++ [1, 1, 2, 3, 4]) (by decide))).2 ∧
      ∀ a, ∃ answer, (lookupIpAddress (aliasIpv4Networks T) a).2 = .ok answer := by
  obtain ⟨T, hT, ht, hip, hR⟩ := insertNetwork_ipv4Root_node
  have law := aliasIpv4Networks_lookup ht hip hR
  refine ⟨T, hT, law.1 _ _ ?_, law.2⟩
  rw [hostNetwork_congr (t := newTree 6 28 0) hip, hostNetwork_congr (t := newTree 6 28 0) hip]
  decide

end MMDBW
