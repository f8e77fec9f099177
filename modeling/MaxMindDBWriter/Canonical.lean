/-
  The trees `insert_network` builds are canonical: the node graph is determined by the lookups.

  In a tree built by inserts alone three things hold of every node the root leads to, the root
  apart: it is no mergeable pair (`Reachable.noMergeablePair`), it has no two `EMPTY` records
  (`Reachable.noEmptyPair`: a node is created on the path of an insert, which writes a `DATA`
  record at its end), and it lies less than `max_depth0 + 1` bits deep (`Reachable.shallow`).
  So such a node never answers all the addresses below it alike (`Tree.not_constantBelow`), and
  two such trees whose lookups agree have nodes along the same paths and, at the leaves,
  records that answer alike (`Tree.sameShape_of_lookups`).

  The labelling of the nodes by their paths turns that into an isomorphism of the two node
  graphs; `iterate_tree` walks the two graphs in the same order, so `finalize_tree` numbers
  corresponding nodes alike (`Tree.preorder_map`).  `Reachable.isomorphic_of_lookups` puts the
  pieces together.
-/
import Mathlib.Data.Nat.Bitwise
import MaxMindDBWriter.PrefixLaws
import MaxMindDBWriter.SiblingMerge
import MaxMindDBWriter.Numbering

namespace MMDBW

/-! ## Runs that only insert -/

/-- `insert_network` only, of any network and mask. -/
def insertOnly (_ : Tree) : Op → Prop
  | .insertNetwork .. => True
  | _ => False

theorem insertOnly_insertOrDelete (t : Tree) (op : Op) (h : insertOnly t op) :
    insertOrDelete t op := by
  cases op <;> simp_all [insertOnly, insertOrDelete]

theorem insertOnly_aliasFree (t : Tree) (op : Op) (h : insertOnly t op) : aliasFree t op :=
  insertOrDelete_aliasFree t op (insertOnly_insertOrDelete t op h)

/-- A returning `insert_network` takes an insert-only run one step further. -/
theorem Reachable.insertNetwork_step {t t' : Tree} {lit : IpLiteral} {maskLength : UInt8}
    {key data : SV} {fuel : Nat} {result : Int} (ht : Reachable insertOnly t)
    (hins : insertNetwork fuel t lit maskLength key data = some (result, t')) :
    Reachable insertOnly t' :=
  .step ht (by simp only [insertOnly]) (.insertNetwork hins)

/-- What holds of the new trees and survives every returning `insert_network` holds of every
    tree built by inserts alone. -/
@[elab_as_elim]
theorem Reachable.insertOnly_induction {motive : Tree → Prop}
    (new : ∀ v r n, (v = 4 ∨ v = 6) → motive (MMDBW.newTree v r n))
    (step : ∀ {fuel : Nat} {t t' : Tree} {lit : IpLiteral} {maskLength : UInt8} {key data : SV}
      {result : Int}, Reachable insertOnly t → motive t →
      insertNetwork fuel t lit maskLength key data = some (result, t') → motive t')
    {t : Tree} (ht : Reachable insertOnly t) : motive t := by
  induction ht with
  | newTree v r n hv => exact new v r n hv
  | step hr ha hs ih =>
    cases hs with
    | insertNetwork h => exact step hr ih h
    | _ => simp [insertOnly] at ha

/-- A network `insert_network` accepts has the tree's `max_depth0`. -/
theorem resolveNetwork_maxDepth0_of_accepted {t : Tree} {lit : IpLiteral} {maskLength : UInt8}
    (hv : t.ipVersion = 4 ∨ t.ipVersion = 6)
    (hacc : ¬ (t.ipVersion = 4 ∧ (resolveNetwork t lit maskLength).family = .inet6)) :
    (resolveNetwork t lit maskLength).maxDepth0 = t.maxDepth0 := by
  unfold resolveNetwork Tree.maxDepth0 at *
  rcases hv with h | h <;> cases lit <;> simp_all

/-! ## No two `EMPTY` records -/

/-- Both records are `EMPTY`. -/
def bothEmpty (r r' : Record) : Bool := r == .empty && r' == .empty

theorem bothEmpty_node (c : Nat) (r : Record) :
    bothEmpty (.node c) r = false ∧ bothEmpty r (.node c) = false := by
  simp [bothEmpty]

/-- No node the root leads to, the root apart, has two `EMPTY` records. -/
def Tree.NoEmptyPair (t : Tree) : Prop := ∀ p, p ≠ [] → ¬ t.PairAt bothEmpty p

/-- A write of a record that is not `EMPTY` leaves the node it writes into no pair of `EMPTY`
    records. -/
theorem Tree.setRecord_not_emptyPair {t : Tree} {pos : Nat → List Bool} (hw : t.WellFormed)
    (hl : t.Labelled pos) {X : Nat} {P : List Bool} (hpos : pos X = P) (b : Bool) {r : Record}
    (hr : r ≠ .empty) (hs : t.select t.rootNode P = .node X) :
    ¬ (t.setRecord X b r).PairAt bothEmpty P := by
  rintro ⟨-, hm⟩
  simp only [Tree.select_append, Tree.select_setRecord_end hw hl hpos b r hs, Tree.select_singleton,
    Tree.setRecord_side, true_and] at hm
  cases b <;> simp_all [bothEmpty]

theorem insertNetwork_noEmptyPair {fuel : Nat} {t t' : Tree} {lit : IpLiteral}
    {maskLength : UInt8} {key data : SV} {result : Int} {pos : Nat → List Bool}
    (hw : t.WellFormed) (hl : t.Labelled pos) (hn : t.NoEmptyPair)
    (h : insertNetwork fuel t lit maskLength key data = some (result, t')) : t'.NoEmptyPair := by
  rcases insertNetwork_some h with ⟨-, -, -, rfl⟩ | ⟨-, -, t₀, t₁, h₀, h₁, h'⟩
  · exact hn
  · refine fun p hp hm => hn p hp (h₀.pairAt.mp ?_)
    exact insertRecordForNetwork_pairAt bothEmpty_node (by simp)
      (fun _ _ hw hl _ _ hpos b hs _ => Tree.setRecord_not_emptyPair hw hl hpos b (by simp) hs)
      fuel t₀ pos _ t₁ (h₀.wellFormed hw) (h₀.labelled hl) h₁ p hp (h'.pairAt.mp hm)

/-- In a tree built by inserts alone no node the root leads to, the root apart, has two `EMPTY`
    records. -/
theorem Reachable.noEmptyPair {t : Tree} (ht : Reachable insertOnly t) : t.NoEmptyPair :=
  ht.insertOnly_induction
    (fun v r n _ p hp => Tree.not_pairAt_of_select (newTree_select v r n hp) (by simp))
    fun hr ih h => (hr.mono insertOnly_aliasFree).labelled.elim fun _ hl =>
      insertNetwork_noEmptyPair hr.valid.wellFormed hl ih h

/-! ## No node below the address bits -/

/-- Every path longer than `max_depth0` ends on a leaf: no node lies as deep as the address has
    bits. -/
def Tree.Shallow (t : Tree) : Prop :=
  ∀ q, t.maxDepth0 < q.length → ∀ x, t.select t.rootNode q ≠ .node x

theorem Tree.SameGraph.shallow {t t' : Tree} (h : t.SameGraph t') (hs : t'.Shallow) : t.Shallow := by
  intro q hq x
  rw [h.select_eq, h.rootNode_eq]
  exact hs q (by simpa [Tree.maxDepth0, h.ipVersion_eq] using hq) x

/-- A returning insert of a leaf record along a network of the tree's `max_depth0` keeps every
    path longer than that on a leaf: inside the network the path ends on the record, outside it
    on the record it ended on before or the record itself. -/
theorem insertRecordForNetwork_shallow {fuel : Nat} {t t' : Tree} {pos : Nat → List Bool}
    {network : Network} {r : Record} (hr : ∀ c, r ≠ .node c) (hw : t.WellFormed)
    (hl : t.Labelled pos) (hmax : network.maxDepth0 = t.maxDepth0) (hs : t.Shallow)
    (h : insertRecordForNetwork fuel t network r = some t') : t'.Shallow := by
  obtain ⟨-, -, ip, -, sel⟩ := insertRecordForNetwork_spec hr fuel t network t' hw h
  obtain ⟨-, -, -, far⟩ := insertRecordForNetwork_labelled hr fuel t pos network t' hw hl h
  intro q hq x hx
  have hq' : network.maxDepth0 < q.length := by simpa [Tree.maxDepth0, ip, hmax] using hq
  by_cases hpre : network.bits (network.depth + 1) <+: q
  · obtain ⟨s, rfl⟩ := hpre
    exact hr x (hx ▸ (Tree.select_append_of_ne_node _ sel hr s).symm)
  · rcases far q hq' hpre with e | ⟨-, e⟩
    · exact hs q (by simpa [Tree.maxDepth0, ip] using hq) x (e ▸ hx)
    · exact hr x (e ▸ hx)

theorem insertNetwork_shallow {fuel : Nat} {t t' : Tree} {lit : IpLiteral} {maskLength : UInt8}
    {key data : SV} {result : Int} {pos : Nat → List Bool} (hv : t.Valid) (hl : t.Labelled pos)
    (hs : t.Shallow) (h : insertNetwork fuel t lit maskLength key data = some (result, t')) :
    t'.Shallow := by
  rcases insertNetwork_some h with ⟨-, -, -, rfl⟩ | ⟨hacc, -, t₀, t₁, h₀, h₁, h'⟩
  · exact hs
  · refine h'.shallow (insertRecordForNetwork_shallow (by simp) (h₀.wellFormed hv.wellFormed)
      (h₀.labelled hl) ?_ (h₀.shallow hs) h₁)
    rw [resolveNetwork_maxDepth0_of_accepted hv.ipVersion_eq hacc]
    simp [Tree.maxDepth0, h₀.ipVersion_eq]

/-- In a tree built by inserts alone no node lies `max_depth0 + 1` bits deep or deeper. -/
theorem Reachable.shallow {t : Tree} (ht : Reachable insertOnly t) : t.Shallow :=
  ht.insertOnly_induction
    (fun v r n _ q hq x => by
      rw [newTree_select v r n (List.ne_nil_of_length_pos (by omega))]
      simp)
    fun hr ih h => (hr.mono insertOnly_aliasFree).labelled.elim fun _ hl =>
      insertNetwork_shallow hr.valid hl ih h

/-- Inserts clear the finalized flag, and a new tree has it clear. -/
theorem Reachable.isFinalized {t : Tree} (ht : Reachable insertOnly t) : t.isFinalized = false := by
  refine ht.insertOnly_induction (fun _ _ _ _ => ?_) fun _ ih h => ?_
  · rfl
  unfold insertNetwork at h
  dsimp only at h
  split at h
  · cases h; exact ih
  · obtain ⟨_, -, h₂⟩ := Option.map_eq_some'.mp h
    cases h₂; rfl

/-! ## A node never answers all the addresses below it alike -/

theorem Record.sameValue_comm (r r' : Record) : r.sameValue r' = r'.sameValue r := by
  cases r <;> cases r' <;> simp [Record.sameValue, eq_comm]

/-- Every address below the path `p` (every extension of `p` to `max_depth0 + 1` bits) reaches a
    record that answers as `v`. -/
def Tree.ConstantBelow (t : Tree) (p : List Bool) (v : Record) : Prop :=
  ∀ s, (p ++ s).length = t.maxDepth0 + 1 → (t.select t.rootNode (p ++ s)).sameValue v = true

/-- Two leaves under one node that answer alike are a mergeable pair or two `EMPTY` records. -/
theorem Tree.pair_of_sameValue {t : Tree} {p : List Bool} {x : Nat}
    (hx : t.select t.rootNode p = .node x)
    (h₀ : ∀ c, t.select t.rootNode (p ++ [false]) ≠ .node c)
    (h : (t.select t.rootNode (p ++ [false])).sameValue (t.select t.rootNode (p ++ [true])) = true) :
    t.MergeableAt p ∨ t.PairAt bothEmpty p := by
  unfold Tree.MergeableAt Tree.PairAt
  generalize t.select t.rootNode (p ++ [false]) = r₀ at h h₀ ⊢
  generalize t.select t.rootNode (p ++ [true]) = r₁ at h ⊢
  cases r₀ <;> cases r₁ <;> simp_all [Record.sameValue, sameDataKey, bothEmpty]

section Constant

variable {t : Tree} (hm : t.NoMergeablePair) (he : t.NoEmptyPair) (hs : t.Shallow)
include hm he hs

/-- By induction on the number `k` of address bits below the node. -/
theorem Tree.not_constantBelow_of_length (k : Nat) :
    ∀ p x v, p.length + k = t.maxDepth0 + 1 → p ≠ [] → t.select t.rootNode p = .node x →
      ¬ t.ConstantBelow p v := by
  induction k with
  | zero => intro p x _ hk _ hx _; exact hs p (by omega) x hx
  | succ k ih =>
    intro p x v hk hp hx hc
    have child : ∀ b, t.ConstantBelow (p ++ [b]) v := fun b s hl => by
      simpa only [List.append_assoc, List.singleton_append] using
        hc (b :: s) (by simpa only [List.append_assoc, List.singleton_append] using hl)
    -- a child that is a node would answer alike below it too
    have leaf : ∀ b c, t.select t.rootNode (p ++ [b]) ≠ .node c := fun b c hb =>
      ih (p ++ [b]) c v (by simp only [List.length_append, List.length_singleton]; omega)
        (by simp) hb (child b)
    -- so both children are leaves answering as `v`, and hence alike
    have hv : ∀ b, (t.select t.rootNode (p ++ [b])).sameValue v = true := fun b => by
      have := child b (List.replicate k false) (by simp only [List.length_append,
        List.length_singleton, List.length_replicate]; omega)
      rwa [Tree.select_append_of_ne_node _ rfl (leaf b)] at this
    have hsame := Record.sameValue_trans (hv false) ((Record.sameValue_comm _ _).trans (hv true))
    rcases Tree.pair_of_sameValue hx (leaf false) hsame with h | h
    · exact hm p hp h
    · exact he p hp h

/-- A node the root leads to, the root apart, never answers all the addresses below it alike. -/
theorem Tree.not_constantBelow {p : List Bool} {x : Nat} (hp : p ≠ [])
    (hx : t.select t.rootNode p = .node x) (v : Record) : ¬ t.ConstantBelow p v :=
  have hlen : p.length ≤ t.maxDepth0 := Nat.le_of_not_lt fun h => hs p h x hx
  Tree.not_constantBelow_of_length hm he hs (t.maxDepth0 + 1 - p.length) p x v (by omega) hp hx

end Constant

/-! ## Two trees whose lookups agree have one shape -/

/-- Records of one kind: two `NODE` records, or two leaves that answer alike. -/
def Record.sameShape : Record → Record → Bool
  | .node _, .node _ => true
  | r, r' => r.sameValue r'

theorem Record.sameShape_of_leaf {r : Record} (hr : ∀ c, r ≠ .node c) (r' : Record) :
    r.sameShape r' = r.sameValue r' := by
  cases r with
  | node c => exact absurd rfl (hr c)
  | empty | data => cases r' <;> rfl

section TwoTrees

variable {t₁ t₂ : Tree} (hm₁ : t₁.NoMergeablePair) (he₁ : t₁.NoEmptyPair) (hs₁ : t₁.Shallow)
  (hm₂ : t₂.NoMergeablePair) (he₂ : t₂.NoEmptyPair) (hs₂ : t₂.Shallow)
  (hmax : t₁.maxDepth0 = t₂.maxDepth0)
  (hlook : ∀ q, q.length = t₁.maxDepth0 + 1 →
    (t₁.select t₁.rootNode q).sameValue (t₂.select t₂.rootNode q) = true)
include hm₁ he₁ hs₁ hm₂ he₂ hs₂ hmax hlook

/-- If the paths of all addresses reach records that answer alike, every path reaches records
    of one kind: nodes in both trees, or leaves that answer alike. -/
theorem Tree.sameShape_of_lookups (p : List Bool) :
    (t₁.select t₁.rootNode p).sameShape (t₂.select t₂.rootNode p) = true := by
  induction p using List.reverseRecOn with
  | nil => simp [Record.sameShape]
  | append_singleton p b ih =>
    cases h₁ : t₁.select t₁.rootNode p with
    | node x₁ =>
      cases h₂ : t₂.select t₂.rootNode p with
      | node x₂ =>
        have hlen : p.length + 1 ≤ t₁.maxDepth0 + 1 := by
          have := Nat.le_of_not_lt fun h => hs₁ p h x₁ h₁
          omega
        by_cases hn₁ : ∃ y, t₁.select t₁.rootNode (p ++ [b]) = .node y <;>
          by_cases hn₂ : ∃ y, t₂.select t₂.rootNode (p ++ [b]) = .node y
        · obtain ⟨y₁, c₁⟩ := hn₁
          obtain ⟨y₂, c₂⟩ := hn₂
          rw [c₁, c₂]
          rfl
        · -- below the leaf of `t₂` every address answers alike, so in `t₁` too
          obtain ⟨y₁, c₁⟩ := hn₁
          refine absurd (fun s hl => ?_)
            (Tree.not_constantBelow hm₁ he₁ hs₁ (by simp) c₁ (t₂.select t₂.rootNode (p ++ [b])))
          rw [← Tree.select_append_of_ne_node _ rfl (fun y e => hn₂ ⟨y, e⟩) s]
          exact hlook _ hl
        · obtain ⟨y₂, c₂⟩ := hn₂
          refine absurd (fun s hl => ?_)
            (Tree.not_constantBelow hm₂ he₂ hs₂ (by simp) c₂ (t₁.select t₁.rootNode (p ++ [b])))
          rw [← Tree.select_append_of_ne_node _ rfl (fun y e => hn₁ ⟨y, e⟩) s, Record.sameValue_comm]
          exact hlook _ (hmax ▸ hl)
        · -- two leaves: the addresses below them answer as they do
          have := hlook (p ++ [b] ++ List.replicate (t₁.maxDepth0 - p.length) false)
            (by simp only [List.length_append, List.length_singleton, List.length_replicate]; omega)
          rwa [Tree.select_append_of_ne_node _ rfl (fun y e => hn₁ ⟨y, e⟩),
            Tree.select_append_of_ne_node _ rfl (fun y e => hn₂ ⟨y, e⟩),
            ← Record.sameShape_of_leaf (fun y e => hn₁ ⟨y, e⟩)] at this
      | empty | data => rw [h₁, h₂] at ih; simp [Record.sameShape, Record.sameValue] at ih
    | empty | data =>
      cases h₂ : t₂.select t₂.rootNode p with
      | node x₂ => rw [h₁, h₂] at ih; simp [Record.sameShape, Record.sameValue] at ih
      | empty | data =>
        rw [h₁, h₂] at ih
        rw [Tree.select_append_of_ne_node _ h₁ (by simp), Tree.select_append_of_ne_node _ h₂ (by simp)]
        exact ih

end TwoTrees

/-! ## Every path of the address length is an address -/

/-- The number whose binary digits, most significant first, are `l`. -/
def bitsValue : List Bool → Nat
  | [] => 0
  | b :: l => 2 ^ l.length * b.toNat + bitsValue l

theorem bitsValue_lt (l : List Bool) : bitsValue l < 2 ^ l.length := by
  induction l with
  | nil => decide
  | cons b l ih =>
    cases b <;> simp only [bitsValue, Bool.toNat_false, Bool.toNat_true, List.length_cons,
      Nat.pow_succ, Nat.mul_one, Nat.mul_zero, Nat.zero_add] <;> omega

theorem testBit_bitsValue (l : List Bool) (k : Nat) (hk : k < l.length) :
    (bitsValue l).testBit (l.length - 1 - k) = l[k] := by
  induction l generalizing k with
  | nil => simp at hk
  | cons b l ih =>
    rw [bitsValue, Nat.testBit_mul_pow_two_add _ (bitsValue_lt l)]
    cases k with
    | zero => cases b <;> simp
    | succ k =>
      simp only [List.length_cons, List.getElem_cons_succ] at hk ⊢
      rw [if_pos (by omega), show l.length + 1 - 1 - (k + 1) = l.length - 1 - k by omega]
      exact ih k (by omega)

/-- `NETWORK_BIT_VALUE` reads bit `7 - i % 8` of byte `i / 8`: the bits of the address, most
    significant first. -/
theorem Network.bit_eq_testBit (network : Network) {i : Nat} (hi : i ≤ network.maxDepth0) :
    network.bit i = (network.bytes.getD (i / 8) 0).toNat.testBit (7 - i % 8) := by
  have hpow : ∀ s : Fin 8, ((1 : UInt8) <<< (s.val).toUInt8).toNat = 2 ^ s.val := by decide
  have hz : ∀ y : UInt8, y = 0 ↔ y.toNat = 0 := fun y =>
    ⟨fun h => h ▸ rfl, fun h => UInt8.toNat.inj (h.trans UInt8.toNat_zero.symm)⟩
  unfold Network.bit networkBitValue
  dsimp only
  rw [Nat.sub_sub_self hi, Nat.shiftRight_eq_div_pow]
  generalize network.bytes.getD (i / 2 ^ 3) 0 = x
  have := hpow ⟨7 - i % 8, by omega⟩
  simp only at this
  cases h : x.toNat.testBit (7 - i % 8) <;>
    simp [bne, hz, UInt8.and_toNat, this, Nat.and_two_pow, h]

/-- The bytes whose bits, most significant first, are `q`: `q` cut into bytes of eight bits. -/
def bytesOfBits (q : List Bool) : List UInt8 :=
  (List.range (q.length / 8)).map fun j => (bitsValue ((q.drop (8 * j)).take 8)).toUInt8

@[simp] theorem length_bytesOfBits (q : List Bool) : (bytesOfBits q).length = q.length / 8 := by
  simp [bytesOfBits]

/-- An address with the bytes of `q` has the bits `q`. -/
theorem Network.bits_of_bytes (network : Network) {q : List Bool}
    (hq : q.length = network.maxDepth0 + 1) (hb : network.bytes = bytesOfBits q) :
    network.bits (network.maxDepth0 + 1) = q := by
  have h8 : (network.maxDepth0 + 1) % 8 = 0 := by rcases network.maxDepth0_eq with h | h <;> rw [h]
  apply List.ext_getElem (by simp [hq])
  intro i hi _
  simp only [Network.length_bits] at hi
  simp only [Network.bits, List.getElem_map, List.getElem_range]
  rw [network.bit_eq_testBit (by omega), hb]
  have hj : i / 8 < q.length / 8 := by omega
  have hlen : ((q.drop (8 * (i / 8))).take 8).length = 8 := by simp; omega
  have hlt := bitsValue_lt ((q.drop (8 * (i / 8))).take 8)
  have hbit := testBit_bitsValue ((q.drop (8 * (i / 8))).take 8) (i % 8) (by omega)
  rw [hlen] at hlt
  simp only [hlen, List.getElem_take, List.getElem_drop] at hbit
  simp only [bytesOfBits, List.getD_eq_getElem?_getD, List.getElem?_map, List.getElem?_range hj,
    Option.map_some', Option.getD_some]
  rw [Nat.toUInt8, UInt8.toNat_ofNat_of_lt hlt]
  simpa only [Nat.div_add_mod i 8] using hbit

/-- Every string of `max_depth0 + 1` bits is the address path of a literal of the tree's family:
    the literal with the bytes of the string. -/
theorem exists_hostNetwork_bits {t : Tree} (hv : t.ipVersion = 4 ∨ t.ipVersion = 6)
    {q : List Bool} (hq : q.length = t.maxDepth0 + 1) :
    ∃ lit, (hostNetwork t lit).bits (t.maxDepth0 + 1) = q := by
  suffices h : ∃ lit, (hostNetwork t lit).maxDepth0 = t.maxDepth0 ∧
      (hostNetwork t lit).bytes = bytesOfBits q by
    obtain ⟨lit, hmax, hb⟩ := h
    exact ⟨lit, hmax ▸ Network.bits_of_bytes _ (hmax ▸ hq) hb⟩
  rcases hv with h | h
  · exact ⟨.v4 (bytesOfBits q) (by simp [hq, Tree.maxDepth0, h]), by
      simp [hostNetwork, resolveNetwork, Tree.maxDepth0, h]⟩
  · exact ⟨.v6 (bytesOfBits q) (by simp [hq, Tree.maxDepth0, h]), by
      simp [hostNetwork, resolveNetwork, Tree.maxDepth0, h]⟩


/-- Two valid trees of one IP version whose lookups agree on every address reach records that
    answer alike along every path of the address length. -/
theorem select_sameValue_of_lookups {t₁ t₂ : Tree} (hv₁ : t₁.Valid) (hv₂ : t₂.Valid)
    (hip : t₁.ipVersion = t₂.ipVersion)
    (hlook : ∀ lit, (lookupRecord t₁ lit).sameValue (lookupRecord t₂ lit) = true) (q : List Bool)
    (hq : q.length = t₁.maxDepth0 + 1) :
    (t₁.select t₁.rootNode q).sameValue (t₂.select t₂.rootNode q) = true := by
  obtain ⟨lit, hlit⟩ := exists_hostNetwork_bits hv₁.ipVersion_eq hq
  have hmax : t₂.maxDepth0 = t₁.maxDepth0 := by simp only [Tree.maxDepth0, hip]
  have h := hlook lit
  rwa [hv₁.lookupRecord_eq, hv₂.lookupRecord_eq, hostNetwork_congr hip.symm, hmax, hlit] at h

/-! ## Nodes along paths -/

/-- The node the halting descent along `p` reaches (the root where it reaches none). -/
def Tree.nodeAt (t : Tree) (p : List Bool) : Nat :=
  match t.select t.rootNode p with
  | .node x => x
  | _ => t.rootNode

theorem Tree.nodeAt_eq {t : Tree} {p : List Bool} {x : Nat} (hs : t.select t.rootNode p = .node x) :
    t.nodeAt p = x := by
  simp [Tree.nodeAt, hs]

theorem Tree.select_append_singleton {t : Tree} {h x : Nat} {p : List Bool}
    (hs : t.select h p = .node x) (b : Bool) : t.select h (p ++ [b]) = (t.nodes x).side b := by
  rw [Tree.select_append, hs]
  exact Tree.select_singleton t x b

/-- No node at `p` or below it is in `seen`. -/
def Tree.UnseenBelow (t : Tree) (p : List Bool) (seen : List Nat) : Prop :=
  ∀ y ∈ seen, ∀ s, t.select t.rootNode (p ++ s) ≠ .node y

/-- A walk from the left record of the node at `p` meets only nodes below `p ++ [false]`. -/
theorem Tree.mem_preorder_left {t : Tree} {p : List Bool} {x : Nat}
    (hx : t.select t.rootNode p = .node x) (f : Nat) (seen : List Nat) {y : Nat}
    (hy : y ∈ t.preorder f (t.nodes x).leftRecord seen) :
    ∃ s, t.select t.rootNode (p ++ [false] ++ s) = .node y := by
  obtain ⟨c, s, hc, hs⟩ := t.preorder_reach f _ seen y hy
  refine ⟨s, ?_⟩
  rw [Tree.select_append, Tree.select_append_singleton hx,
    show (t.nodes x).side false = (t.nodes x).leftRecord from rfl, hc]
  exact hs

section Paths

variable {t : Tree} {pos : Nat → List Bool} (hw : t.WellFormed) (hl : t.Labelled pos)
include hw hl

/-- The descent reaches a node along one path only. -/
theorem Tree.Labelled.path_unique {p p' : List Bool} {x : Nat}
    (hs : t.select t.rootNode p = .node x) (hs' : t.select t.rootNode p' = .node x) : p = p' :=
  (hl.pos_of_select_root hw hs).symm.trans (hl.pos_of_select_root hw hs')

/-- A path to a node is shorter than the number of nodes allocated: the nodes at its prefixes
    are distinct. -/
theorem Tree.Labelled.length_lt_nextNode {s : List Bool} {y : Nat}
    (hs : t.select t.rootNode s = .node y) : s.length < t.nextNode := by
  have hsel : ∀ k, t.select t.rootNode (s.take k) = .node (t.nodeAt (s.take k)) := fun k => by
    obtain ⟨z, hz⟩ := Tree.select_prefix_node hs (List.take_prefix k s)
    rw [Tree.nodeAt_eq hz, hz]
  have hnd : ((List.range (s.length + 1)).map fun k => t.nodeAt (s.take k)).Nodup := by
    refine List.Nodup.map_on (fun k hk k' hk' he => ?_) (List.nodup_range _)
    have := congrArg List.length (hl.path_unique hw (hsel k) (he ▸ hsel k'))
    simp only [List.length_take, List.mem_range] at this hk hk'
    omega
  have := length_le_of_nodup_lt hnd (by
    simp only [List.mem_map, List.mem_range]
    rintro z ⟨k, -, rfl⟩
    exact hw.select_lt _ _ _ hw.root_lt (hsel k))
  simpa using this

/-- A node `x` at `p` is not below either child of `p`. -/
theorem Tree.UnseenBelow.cons {p : List Bool} {seen : List Nat} (hu : t.UnseenBelow p seen) {x : Nat}
    (hx : t.select t.rootNode p = .node x) (b : Bool) : t.UnseenBelow (p ++ [b]) (x :: seen) := by
  intro y hy s hs
  rcases List.mem_cons.mp hy with rfl | hy
  · have := congrArg List.length (hl.path_unique hw hs hx)
    simp at this
  · exact hu y hy ([b] ++ s) (by simpa only [List.append_assoc] using hs)

/-- Nodes below the left child of `p` are not below its right child. -/
theorem Tree.UnseenBelow.append_left {p : List Bool} {seen : List Nat}
    (hu : t.UnseenBelow (p ++ [true]) seen) {L : List Nat}
    (hL : ∀ y ∈ L, ∃ s, t.select t.rootNode (p ++ [false] ++ s) = .node y) :
    t.UnseenBelow (p ++ [true]) (L.reverse ++ seen) := by
  intro y hy s hs
  rcases List.mem_append.mp hy with hy | hy
  · obtain ⟨s', hs'⟩ := hL y (List.mem_reverse.mp hy)
    have := hl.path_unique hw hs hs'
    simp only [List.append_assoc, List.singleton_append, List.append_cancel_left_eq,
      List.cons.injEq] at this
    exact Bool.noConfusion this.1
  · exact hu y hy s hs

end Paths

/-! ## The node graphs of two trees of one shape -/

/-- Records that correspond under a map `φ` of nodes: `NODE c` and `NODE (φ c)`, two `EMPTY`
    records, or two `DATA` records whose keys have the same bytes. -/
def Record.Corresponds (φ : Nat → Nat) : Record → Record → Prop
  | .node c, .node d => d = φ c
  | .empty, .empty => True
  | .data k, .data k' => k.pv = k'.pv
  | _, _ => False

/-- Records of one shape correspond under `φ` once a `NODE` record goes to the image of its
    node. -/
theorem Record.corresponds_of_sameShape {φ : Nat → Nat} {r₁ r₂ : Record}
    (hc : r₁.sameShape r₂ = true) (hn : ∀ y, r₁ = .node y → r₂ = .node (φ y)) :
    Record.Corresponds φ r₁ r₂ := by
  cases r₁ with
  | node c => simp [hn c rfl, Record.Corresponds]
  | empty | data => cases r₂ <;> simp_all [Record.sameShape, Record.sameValue, Record.Corresponds]

/-- Along the path of a node of `t₁` the descent in `t₂` reaches a node too: the label of the
    node of `t₁` says where to look. -/
theorem exists_nodeMap {t₁ t₂ : Tree} {pos₁ : Nat → List Bool} (hw₁ : t₁.WellFormed)
    (hl₁ : t₁.Labelled pos₁)
    (hcorr : ∀ p, (t₁.select t₁.rootNode p).sameShape (t₂.select t₂.rootNode p) = true) :
    ∃ φ : Nat → Nat, ∀ p x, t₁.select t₁.rootNode p = .node x →
      t₂.select t₂.rootNode p = .node (φ x) := by
  refine ⟨fun x => t₂.nodeAt (pos₁ x), fun p x hs => ?_⟩
  have hc := hcorr p
  rw [hs] at hc
  cases h : t₂.select t₂.rootNode p with
  | node y => show _ = .node (t₂.nodeAt (pos₁ x)); rw [hl₁.pos_of_select_root hw₁ hs, Tree.nodeAt_eq h]
  | empty | data => simp [h, Record.sameShape, Record.sameValue] at hc

/-- Looking up the image of a list under a map that is one to one on it. -/
theorem indexOf_map_of_inj {l : List Nat} {φ : Nat → Nat} {x : Nat}
    (h : ∀ y ∈ l, φ y = φ x → y = x) : (l.map φ).indexOf (φ x) = l.indexOf x := by
  induction l with
  | nil => rfl
  | cons a l ih =>
    have ih' := ih fun y hy => h y (List.mem_cons_of_mem a hy)
    by_cases hax : a = x
    · subst hax
      rw [List.map_cons, List.indexOf_cons_self, List.indexOf_cons_self]
    · rw [List.map_cons, List.indexOf_cons_ne _ fun e => hax (h a (List.mem_cons_self a l) e),
        List.indexOf_cons_ne _ hax, ih']

section Iso

variable {t₁ t₂ : Tree} {φ : Nat → Nat}
  (hφ : ∀ p x, t₁.select t₁.rootNode p = .node x → t₂.select t₂.rootNode p = .node (φ x))
include hφ

/-- Distinct nodes the root of `t₁` leads to have distinct images: their paths differ, and so
    do the nodes of `t₂` along them. -/
theorem nodeMap_injective {pos₂ : Nat → List Bool} (hw₂ : t₂.WellFormed) (hl₂ : t₂.Labelled pos₂)
    {p p' : List Bool} {x x' : Nat} (hs : t₁.select t₁.rootNode p = .node x)
    (hs' : t₁.select t₁.rootNode p' = .node x') (he : φ x = φ x') : x = x' := by
  have hp := hl₂.path_unique hw₂ (hφ p x hs) (he ▸ hφ p' x' hs')
  subst hp
  exact Record.node.inj (hs.symm.trans hs')

variable (hcorr : ∀ p, (t₁.select t₁.rootNode p).sameShape (t₂.select t₂.rootNode p) = true)
include hcorr

/-- Every node of `t₂` the root leads to is the image of the node of `t₁` along the same path. -/
theorem nodeMap_surjective {p : List Bool} {y : Nat} (hs : t₂.select t₂.rootNode p = .node y) :
    ∃ x, t₁.select t₁.rootNode p = .node x ∧ φ x = y := by
  have hc := hcorr p
  cases h : t₁.select t₁.rootNode p with
  | node x => exact ⟨x, rfl, Record.node.inj ((hφ p x h).symm.trans hs)⟩
  | empty | data => simp [h, hs, Record.sameShape, Record.sameValue] at hc

/-- Records one bit below corresponding nodes correspond. -/
theorem nodeMap_side {p : List Bool} {x : Nat} (hs : t₁.select t₁.rootNode p = .node x) (b : Bool) :
    Record.Corresponds φ ((t₁.nodes x).side b) ((t₂.nodes (φ x)).side b) := by
  have hc := hcorr (p ++ [b])
  have hn := hφ (p ++ [b])
  rw [Tree.select_append_singleton hs, Tree.select_append_singleton (hφ p x hs)] at hc hn
  exact Record.corresponds_of_sameShape hc hn

/-- The pre-order `iterate_tree` walks from corresponding nodes at `p`, with nothing below `p`
    seen yet, is the same up to `φ`, for fuels that both reach below the deepest node under `p`.
    The induction is on that depth `h`. -/
theorem Tree.preorder_map {pos₁ pos₂ : Nat → List Bool} (hw₁ : t₁.WellFormed)
    (hl₁ : t₁.Labelled pos₁) (hw₂ : t₂.WellFormed) (hl₂ : t₂.Labelled pos₂) (h : Nat) :
    ∀ p x₁ x₂ f₁ f₂ seen₁ seen₂, h ≤ f₁ → h ≤ f₂ →
      (∀ s, h ≤ s.length → ∀ y, t₁.select t₁.rootNode (p ++ s) ≠ .node y) →
      t₁.select t₁.rootNode p = .node x₁ → t₂.select t₂.rootNode p = .node x₂ →
      t₁.UnseenBelow p seen₁ → t₂.UnseenBelow p seen₂ →
      t₂.preorder f₂ (.node x₂) seen₂ = (t₁.preorder f₁ (.node x₁) seen₁).map φ := by
  induction h with
  | zero => intro p x₁ _ _ _ _ _ _ _ hh hx₁; exact absurd (by simpa using hx₁) (hh [] le_rfl x₁)
  | succ h ih =>
    intro p x₁ x₂ f₁ f₂ seen₁ seen₂ hf₁ hf₂ hh hx₁ hx₂ hu₁ hu₂
    obtain ⟨f₁, rfl⟩ : ∃ f, f₁ = f + 1 := ⟨f₁ - 1, by omega⟩
    obtain ⟨f₂, rfl⟩ : ∃ f, f₂ = f + 1 := ⟨f₂ - 1, by omega⟩
    have hx : φ x₁ = x₂ := Record.node.inj ((hφ p x₁ hx₁).symm.trans hx₂)
    -- the walks from the two children of `p`
    have child : ∀ b s₁ s₂, t₁.UnseenBelow (p ++ [b]) s₁ → t₂.UnseenBelow (p ++ [b]) s₂ →
        t₂.preorder f₂ ((t₂.nodes x₂).side b) s₂ = (t₁.preorder f₁ ((t₁.nodes x₁).side b) s₁).map φ := by
      intro b s₁ s₂ hv₁ hv₂
      rw [← Tree.select_append_singleton hx₁, ← Tree.select_append_singleton hx₂]
      have hc := hcorr (p ++ [b])
      cases hc₁ : t₁.select t₁.rootNode (p ++ [b]) with
      | node c₁ =>
        rw [hφ _ _ hc₁]
        refine ih (p ++ [b]) c₁ (φ c₁) f₁ f₂ s₁ s₂ (by omega) (by omega) (fun s hs y => ?_) hc₁
          (hφ _ _ hc₁) hv₁ hv₂
        simpa only [List.append_assoc, List.singleton_append] using
          hh (b :: s) (by simp only [List.length_cons]; omega) y
      | empty | data =>
        rw [hc₁] at hc
        have h₂ : ∀ c, t₂.select t₂.rootNode (p ++ [b]) ≠ .node c := fun c h => by
          simp [h, Record.sameShape, Record.sameValue] at hc
        rw [Tree.preorder_of_ne_node _ _ h₂, Tree.preorder_of_ne_node _ _ (by simp)]
        rfl
    have hL : t₂.preorder f₂ (t₂.nodes x₂).leftRecord (x₂ :: seen₂) =
        (t₁.preorder f₁ (t₁.nodes x₁).leftRecord (x₁ :: seen₁)).map φ :=
      child false _ _ (hu₁.cons hw₁ hl₁ hx₁ false) (hu₂.cons hw₂ hl₂ hx₂ false)
    have hR : t₂.preorder f₂ (t₂.nodes x₂).rightRecord
          (((t₁.preorder f₁ (t₁.nodes x₁).leftRecord (x₁ :: seen₁)).map φ).reverse ++ x₂ :: seen₂) =
        (t₁.preorder f₁ (t₁.nodes x₁).rightRecord
          ((t₁.preorder f₁ (t₁.nodes x₁).leftRecord (x₁ :: seen₁)).reverse ++ x₁ :: seen₁)).map φ := by
      refine child true _ _ ((hu₁.cons hw₁ hl₁ hx₁ true).append_left hw₁ hl₁
        fun _ => Tree.mem_preorder_left hx₁ f₁ _)
        ((hu₂.cons hw₂ hl₂ hx₂ true).append_left hw₂ hl₂ fun y hy => ?_)
      obtain ⟨z, hz, rfl⟩ := List.mem_map.mp hy
      obtain ⟨s, hs⟩ := Tree.mem_preorder_left hx₁ f₁ _ hz
      exact ⟨s, hφ _ _ hs⟩
    rw [Tree.preorder, Tree.preorder, if_neg fun hm => hu₁ x₁ hm [] (by simpa using hx₁),
      if_neg fun hm => hu₂ x₂ hm [] (by simpa using hx₂)]
    simp only [List.map_cons, List.map_append, hx, hL, hR]

/-- Two trees of one shape, numbered by `finalize_tree`: both count the same nodes, and the
    nodes along one path get one number.  `iterate_tree` walks both in the same order: the
    pre-orders correspond under `φ` (`Tree.preorder_map`, with the depth of the deeper tree's
    nodes bounded by the number of nodes either tree allocated). -/
theorem finalizeTree_nodeMap {pos₁ pos₂ : Nat → List Bool} (hw₁ : t₁.WellFormed)
    (hl₁ : t₁.Labelled pos₁) (hw₂ : t₂.WellFormed) (hl₂ : t₂.Labelled pos₂)
    (hf₁ : t₁.isFinalized = false) (hf₂ : t₂.isFinalized = false) :
    (finalizeTree t₂).nodeCount = (finalizeTree t₁).nodeCount ∧
      ∀ p x, t₁.select t₁.rootNode p = .node x →
        ((finalizeTree t₂).nodes (φ x)).number = ((finalizeTree t₁).nodes x).number := by
  have hunseen : ∀ (t : Tree), t.UnseenBelow [] [] := fun _ y hy => absurd hy (List.not_mem_nil y)
  have horder : t₂.preorder (t₂.nextNode + 1) (.node t₂.rootNode) [] =
      (t₁.preorder (t₁.nextNode + 1) (.node t₁.rootNode) []).map φ :=
    Tree.preorder_map hφ hcorr hw₁ hl₁ hw₂ hl₂ (min t₁.nextNode t₂.nextNode) [] _ _ _ _ [] []
      (by omega) (by omega) (fun s hs y hy => by
        rw [List.nil_append] at hy
        have := hl₁.length_lt_nextNode hw₁ hy
        have := hl₂.length_lt_nextNode hw₂ (hφ s y hy)
        omega) rfl rfl (hunseen t₁) (hunseen t₂)
  obtain ⟨hc₁, hn₁, -⟩ := finalizeTree_number hw₁ hl₁ hf₁
  obtain ⟨hc₂, hn₂, -⟩ := finalizeTree_number hw₂ hl₂ hf₂
  refine ⟨by rw [hc₁, hc₂, horder, List.length_map], fun p x hx => ?_⟩
  have hmem : x ∈ t₁.preorder (t₁.nextNode + 1) (.node t₁.rootNode) [] :=
    (t₁.mem_preorder_root hw₁ x).mpr ⟨p, hx⟩
  rw [hn₁ x hmem, hn₂ (φ x) (horder ▸ List.mem_map_of_mem φ hmem), horder]
  refine indexOf_map_of_inj fun y hy he => ?_
  obtain ⟨q, hq⟩ := (t₁.mem_preorder_root hw₁ y).mp hy
  exact nodeMap_injective hφ hw₂ hl₂ hq hx he

end Iso

/-! ## Trees built by inserts alone -/

/-- The node graphs the roots of `t₁` and `t₂` lead to are isomorphic under `φ`, with
    corresponding records, and `finalize_tree` numbers them alike. -/
structure Tree.Isomorphic (t₁ t₂ : Tree) (φ : Nat → Nat) : Prop where
  /-- the root goes to the root -/
  root : φ t₁.rootNode = t₂.rootNode
  /-- the node along a path goes to the node along the same path -/
  map : ∀ p x, t₁.select t₁.rootNode p = .node x → t₂.select t₂.rootNode p = .node (φ x)
  /-- every node of `t₂` is the image of a node of `t₁` -/
  onto : ∀ p y, t₂.select t₂.rootNode p = .node y → ∃ x, t₁.select t₁.rootNode p = .node x ∧ φ x = y
  /-- no two nodes of `t₁` have one image -/
  inj : ∀ p p' x x', t₁.select t₁.rootNode p = .node x → t₁.select t₁.rootNode p' = .node x' →
    φ x = φ x' → x = x'
  /-- a `NODE` record goes to the image of its node, `EMPTY` to `EMPTY`, and `DATA` to `DATA`
      with a byte-equal key -/
  records : ∀ p x, t₁.select t₁.rootNode p = .node x →
    ∀ b, Record.Corresponds φ ((t₁.nodes x).side b) ((t₂.nodes (φ x)).side b)
  /-- `finalize_tree` counts as many nodes in both trees -/
  nodeCount : (finalizeTree t₂).nodeCount = (finalizeTree t₁).nodeCount
  /-- and gives corresponding nodes the same number -/
  number : ∀ p x, t₁.select t₁.rootNode p = .node x →
    ((finalizeTree t₂).nodes (φ x)).number = ((finalizeTree t₁).nodes x).number

/-- Two trees built from new trees of one IP version by inserts alone, whose lookups agree on
    every address (both `EMPTY`, or `DATA` records whose keys have the same bytes), are
    isomorphic.  Lookups that agree make the two trees of one shape (`Tree.sameShape_of_lookups`);
    the labelling by paths maps the nodes; `iterate_tree` walks both alike. -/
theorem Reachable.isomorphic_of_lookups {t₁ t₂ : Tree} (h₁ : Reachable insertOnly t₁)
    (h₂ : Reachable insertOnly t₂) (hip : t₁.ipVersion = t₂.ipVersion)
    (hlook : ∀ lit, (lookupRecord t₁ lit).sameValue (lookupRecord t₂ lit) = true) :
    ∃ φ, t₁.Isomorphic t₂ φ := by
  have hv₁ := h₁.valid
  have hv₂ := h₂.valid
  obtain ⟨pos₁, hl₁⟩ := (h₁.mono insertOnly_aliasFree).labelled
  obtain ⟨pos₂, hl₂⟩ := (h₂.mono insertOnly_aliasFree).labelled
  have hcorr := Tree.sameShape_of_lookups (h₁.mono insertOnly_insertOrDelete).noMergeablePair
    h₁.noEmptyPair h₁.shallow (h₂.mono insertOnly_insertOrDelete).noMergeablePair h₂.noEmptyPair
    h₂.shallow (by simp only [Tree.maxDepth0, hip]) (select_sameValue_of_lookups hv₁ hv₂ hip hlook)
  obtain ⟨φ, hφ⟩ := exists_nodeMap hv₁.wellFormed hl₁ hcorr
  obtain ⟨hcount, hnum⟩ := finalizeTree_nodeMap hφ hcorr hv₁.wellFormed hl₁ hv₂.wellFormed hl₂
    h₁.isFinalized h₂.isFinalized
  exact ⟨φ, ⟨Record.node.inj (hφ [] t₁.rootNode rfl).symm, hφ,
    fun _ _ hy => nodeMap_surjective hφ hcorr hy,
    fun _ _ _ _ hx hx' he => nodeMap_injective hφ hv₂.wellFormed hl₂ hx hx' he,
    fun _ _ hx => nodeMap_side hφ hcorr hx, hcount, hnum⟩⟩

end MMDBW
