/-
  The traversal of `tree.c` and what is built on it: `iterate_tree` / `start_iteration`,
  the callbacks `assign_node_number`, `encode_node` (with `record_value_as_number`) and
  `key_refcnt_dec`, and `finalize_tree`, `write_search_tree`, `free_tree`.

  `iterate_tree` walks the node graph depth first, left before right, calling the callback on
  a node before its children, and keeps the nodes it has called it on in `seen_nodes`.  Its
  test of whether a node was seen is not the one its comment describes: `HASH_FIND_PTR` is
  handed the node pointer itself and compares the bytes it points at, the value of the node's
  left record, with the stored node pointers (`hashFindPtr`).  On a tree, where no node is
  reached twice, the two tests agree; on an aliased graph a node can be walked twice and
  another skipped.  The recursion is bounded here by `fuel`; `start_iteration` gives it one
  more than the number of allocated nodes, more than the depth of any acyclic graph.

  The callbacks act on the tree, the bytes written to `output_fd` and the Perl argument stack
  (`IterState`).  `record_value_as_number` reads a `DATA` record's position with
  `SvUV(POPs)`, which evaluates `POPs` twice: the value it takes is the scalar below
  `store_data`'s answer, and each such record leaves the stack one entry lower.

  `start_iteration` takes a callback and never uses it: it always hands `iterate_tree` the
  function `assign_node_number`.  So `write_search_tree` renumbers the nodes instead of
  encoding them and writes nothing to its file (`writeSearchTree_output`), and `free_tree`
  releases no key; what it does release are the data hash's references to its values, when it
  drops the hash.
-/
import Mathlib.Algebra.Group.Nat.Basic
import MaxMindDBWriter.Operations

namespace MMDBW

/-! ## The callbacks -/

/-- `DATA_SECTION_SEPARATOR_SIZE`. -/
def dataSectionSeparatorSize : Nat := 16

/-- How the host stores a `uint32_t`: `(uint8_t *)&v` reads its four bytes in memory order. -/
inductive ByteOrder where
  | littleEndian
  | bigEndian
deriving DecidableEq, Repr

/-- The bytes `left_bytes[0..3]` of `uint8_t *left_bytes = (uint8_t *)&left`. -/
def hostBytes (order : ByteOrder) (v : UInt32) : List UInt8 :=
  let le := [v.toUInt8, (v >>> 8).toUInt8, (v >>> 16).toUInt8, (v >>> 24).toUInt8]
  match order with
  | .littleEndian => le
  | .bigEndian => le.reverse

/-- `record_value_as_number`, with `stack` the Perl argument stack from its top down to its base,
    each entry the number `SvUV` takes from that scalar.  `EMPTY` is 0 and `NODE` the child's
    number, the stack untouched.  For `DATA` the call pushes `store_data`'s three arguments and
    gets its answer back in their place, but `SvUV(POPs)` evaluates `POPs` twice: it tests the
    answer and converts the scalar below it, the stack's old top, leaving the stack one entry
    lower.  The value is that number plus `node_count + 16`, in `uint32_t` arithmetic, and
    `none` when the stack has no entry left, where the C reads below the stack's base. -/
def recordValueAsNumber (t : Tree) (stack : List Nat) (record : Record) :
    Option (UInt32 × List Nat) :=
  match record with
  | .empty => some (0, stack)
  | .node node => some ((t.nodes node).number.toUInt32, stack)
  | .data _ =>
    match stack with
    | [] => none
    | position :: stack =>
      some (position.toUInt32 + t.nodeCount.toUInt32 + dataSectionSeparatorSize.toUInt32, stack)

/-- The bytes `encode_node` `fprintf`s for a node whose records have the values `left` and
    `right`, for record size 24, 28 and anything else (32). -/
def packNode (order : ByteOrder) (recordSize : Nat) (left right : UInt32) : List UInt8 :=
  let l := hostBytes order left
  let r := hostBytes order right
  if recordSize = 24 then
    [l.getD 1 0, l.getD 2 0, l.getD 3 0, r.getD 1 0, r.getD 2 0, r.getD 3 0]
  else if recordSize = 28 then
    [l.getD 1 0, l.getD 2 0, l.getD 3 0, (l.getD 0 0 <<< 4) ||| (r.getD 0 0 &&& 15),
     r.getD 1 0, r.getD 2 0, r.getD 3 0]
  else
    [l.getD 0 0, l.getD 1 0, l.getD 2 0, l.getD 3 0, r.getD 0 0, r.getD 1 0, r.getD 2 0,
     r.getD 3 0]

/-- `encode_node`: the value of the left record, then of the right one, and the bytes written
    for them, with the Perl stack they leave; `none` when one of them reads below the stack's
    base. -/
def encodeNode (order : ByteOrder) (t : Tree) (stack : List Nat) (node : Nat) :
    Option (List UInt8 × List Nat) := do
  let (left, stack) ← recordValueAsNumber t stack (t.nodes node).leftRecord
  let (right, stack) ← recordValueAsNumber t stack (t.nodes node).rightRecord
  pure (packNode order t.recordSize left right, stack)

/-- `encode_node` of a node whose records evaluate, in turn, to `left` and `right`. -/
theorem encodeNode_eq {order : ByteOrder} {t : Tree} {stack stack₁ stack₂ : List Nat} {node : Nat}
    {left right : UInt32}
    (hl : recordValueAsNumber t stack (t.nodes node).leftRecord = some (left, stack₁))
    (hr : recordValueAsNumber t stack₁ (t.nodes node).rightRecord = some (right, stack₂)) :
    encodeNode order t stack node = some (packNode order t.recordSize left right, stack₂) := by
  simp [encodeNode, hl, hr]

/-- `assign_node_number`: `node->number = tree->node_count++`. -/
def assignNodeNumber (t : Tree) (node : Nat) : Tree :=
  { t with nodes := Function.update t.nodes node { t.nodes node with number := t.nodeCount },
           nodeCount := t.nodeCount + 1 }

/-- `key_refcnt_dec`: one reference less on the key of each `DATA` record of the node. -/
def keyRefcntDec (t : Tree) (node : Nat) : Tree :=
  let release (refs : SV → Nat) : Record → SV → Nat
    | .data key => decRef refs key
    | _ => refs
  { t with refs := release (release t.refs (t.nodes node).leftRecord) (t.nodes node).rightRecord }

/-- What the callbacks of `iterate_tree` act on: the tree, the bytes written to `output_fd`, and
    the Perl argument stack as `record_value_as_number` leaves it (`none` once a call has read
    below its base, from where on the C behaviour is undefined). -/
structure IterState where
  tree : Tree
  output : List UInt8
  perlStack : Option (List Nat)

/-- A state with nothing written yet and nothing on the Perl stack. -/
def IterState.ofTree (t : Tree) : IterState := ⟨t, [], some []⟩

/-- The callbacks passed to `start_iteration`. -/
inductive Callback where
  | assignNodeNumber
  | encodeNode (order : ByteOrder)
  | keyRefcntDec

/-- Calling a callback on a node. -/
def Callback.call : Callback → IterState → Nat → IterState
  | .assignNodeNumber, s, node => { s with tree := MMDBW.assignNodeNumber s.tree node }
  | .encodeNode order, s, node =>
    match s.perlStack.bind fun stack => MMDBW.encodeNode order s.tree stack node with
    | some (bytes, stack) => { s with output := s.output ++ bytes, perlStack := some stack }
    | none => { s with perlStack := none }
  | .keyRefcntDec, s, node => { s with tree := MMDBW.keyRefcntDec s.tree node }

/-! ## The traversal -/

/-- `HASH_FIND_PTR((*seen_nodes), key, current)` with `key = (void *)node`: uthash compares the
    pointer-size bytes stored at `key`, the node's first member, which is its left record's
    value, with the node pointers `HASH_ADD_PTR` stored.  So a node counts as seen when its left
    record leads to a seen node.  A `DATA` record's value is an `SV *`, no node's address; an
    `EMPTY` record's is taken to be none either (`new_node` leaves it as the pool's fresh memory
    holds it, and a record a delete empties keeps its old value). -/
def hashFindPtr (seen : List Nat) (node : Node) : Bool :=
  match node.leftRecord with
  | .node c => decide (c ∈ seen)
  | _ => false

/-- `iterate_tree`, its recursion bounded by `fuel`: the state after the walk and `seen_nodes`.
    Unless the seen test finds the node, the callback runs on it, the node is added to
    `seen_nodes`, and the left child and the right child are walked (each only when its record
    is `NODE`). -/
def iterateTree (callback : Callback) : Nat → IterState → Nat → List Nat → IterState × List Nat
  | 0, s, _, seen => (s, seen)
  | fuel + 1, s, node, seen =>
    if hashFindPtr seen (s.tree.nodes node) then (s, seen)
    else
      let child (s : IterState) (record : Record) (seen : List Nat) : IterState × List Nat :=
        match record with
        | .node c => iterateTree callback fuel s c seen
        | _ => (s, seen)
      let s := callback.call s node
      let left := child s (s.tree.nodes node).leftRecord (node :: seen)
      child left.1 (left.1.tree.nodes node).rightRecord left.2

/-- `start_iteration`: its `callback` argument is ignored, and `iterate_tree` is started at the
    root with `assign_node_number`. -/
def startIteration (s : IterState) (_callback : Callback) : IterState :=
  (iterateTree .assignNodeNumber (s.tree.nextNode + 1) s s.tree.rootNode []).1

/-- `assign_node_numbers`. -/
def assignNodeNumbers (t : Tree) : Tree :=
  (startIteration (.ofTree { t with nodeCount := 0 }) .assignNodeNumber).tree

/-- `finalize_tree`: nothing if the tree is finalized already. -/
def finalizeTree (t : Tree) : Tree :=
  if t.isFinalized then t else { assignNodeNumbers t with isFinalized := true }

/-- `write_search_tree`, called with the Perl stack `stack`: finalize, then walk the tree with
    `encode_node`; the tree after the call and the bytes written to `fd`. -/
def writeSearchTree (t : Tree) (order : ByteOrder) (stack : List Nat) : Tree × List UInt8 :=
  let s := startIteration ⟨finalizeTree t, [], some stack⟩ (.encodeNode order)
  (s.tree, s.output)

/-- A freed hash releases the reference it holds on the value of each of its entries. -/
def DataHash.release (h : DataHash) (refs : SV → Nat) : SV → Nat :=
  h.keys.foldl (fun refs k => match h.fetch k with
    | some v => decRef refs v
    | none => refs) refs

/-- `SvREFCNT_dec((SV *)tree->data_hash)`: the tree holds the hash's only reference (`newHV()`
    in `new_tree`), so the hash is freed. -/
def releaseDataHash (t : Tree) : Tree := { t with refs := t.dataHash.release t.refs }

/-- `free_tree`: the references the tree still holds on each scalar when its memory is
    released, after the walk that was meant to release one per `DATA` record and the release of
    the data hash. -/
def freeTree (t : Tree) : SV → Nat :=
  (releaseDataHash (startIteration (.ofTree t) .keyRefcntDec).tree).refs

/-- `assign_node_number` writes no bytes and leaves the Perl stack alone, so neither does any walk
    with it. -/
theorem iterateTree_assignNodeNumber_output (fuel : Nat) (s : IterState) (node : Nat)
    (seen : List Nat) : (iterateTree .assignNodeNumber fuel s node seen).1.output = s.output ∧
      (iterateTree .assignNodeNumber fuel s node seen).1.perlStack = s.perlStack := by
  induction fuel generalizing s node seen with
  | zero => exact ⟨rfl, rfl⟩
  | succ fuel ih =>
    rw [iterateTree]
    split
    · exact ⟨rfl, rfl⟩
    · dsimp only
      split <;> split <;> simp only [ih] <;> exact ⟨rfl, rfl⟩

/-- `write_search_tree` writes nothing to its file, for every tree. -/
theorem writeSearchTree_output (t : Tree) (order : ByteOrder) (stack : List Nat) :
    (writeSearchTree t order stack).2 = [] :=
  (iterateTree_assignNodeNumber_output _ _ _ _).1

/-- The finalized flag can be set while the numbering is not the one `finalize_tree` gives.
    On an empty tree, `write_search_tree` leaves `node_count` at 2 and the root, the only node,
    numbered 1: `finalize_tree` numbered it 0, and the walk meant to encode it numbered it
    again.  And after `finalize_tree`, a `delete_network` that splits a `DATA` record adds a
    reachable node without clearing the flag: `node_count` stays 1 while the root and its new
    child both carry the number 0. -/
theorem finalized_numbering_stale :
    (∃ w, (writeSearchTree (newTree 4 24 0) .littleEndian []).1 = w ∧
      w.isFinalized = true ∧ w.nodeCount = 2 ∧ (w.nodes w.rootNode).number = 1 ∧
      (w.nodes w.rootNode).leftRecord = .empty ∧ (w.nodes w.rootNode).rightRecord = .empty) ∧
    ∃ t d, insertNetwork 1 (newTree 4 24 0) (v4 0 0 0 0) 1 ⟨1, [65]⟩ ⟨2, [66]⟩ = some (0, t) ∧
      deleteNetwork (finalizeTree t) (v4 0 0 0 0) 2 = d ∧
      d.isFinalized = true ∧ d.nodeCount = 1 ∧ (d.nodes d.rootNode).leftRecord = .node 1 ∧
      (d.nodes d.rootNode).number = 0 ∧ (d.nodes 1).number = 0 :=
  ⟨⟨_, rfl, by decide⟩, _, _, rfl, rfl, by decide⟩

/-! ## Reading the search tree back -/

/-- A MaxMind-DB reader's answer for an address: not found, or data at an offset into the
    data section. -/
inductive ReaderAnswer where
  | notFound
  | dataOffset (offset : Nat)
deriving DecidableEq, Repr

/-- The left or right record value of node `v`, decoded as the MaxMind-DB format lays records
    out: big-endian 24- or 32-bit values, and for 28-bit records the middle byte holding the
    left value's top nibble above the right value's.  `none` when the bytes run out. -/
def readRecord (stream : List UInt8) (recordSize v : Nat) (isRight : Bool) : Option Nat :=
  let size := if recordSize = 24 then 6 else if recordSize = 28 then 7 else 8
  if stream.length < (v + 1) * size then none
  else
    let b (i : Nat) : Nat := (stream.getD (v * size + i) 0).toNat
    let be3 (i : Nat) : Nat := b i * 65536 + b (i + 1) * 256 + b (i + 2)
    some <|
      if recordSize = 24 then (if isRight then be3 3 else be3 0)
      else if recordSize = 28 then
        (if isRight then (b 3 % 16) * 16777216 + be3 4 else (b 3 / 16) * 16777216 + be3 0)
      else (if isRight then b 4 * 16777216 + be3 5 else b 0 * 16777216 + be3 1)

/-- The MaxMind-DB reader's search over a search tree section of `nodeCount` nodes, from node
    `v` along the address bits: take the record value `x` the bit selects; go on at node `x`
    while `x < nodeCount`; `x = nodeCount` is "not found"; a larger `x` points at data offset
    `x - nodeCount - 16`.  `none` when there is no answer (the bytes or the bits run out). -/
def readerLookup (stream : List UInt8) (recordSize nodeCount : Nat) :
    Nat → List Bool → Option ReaderAnswer
  | _, [] => none
  | v, b :: bs => do
    let x ← readRecord stream recordSize v b
    if x < nodeCount then readerLookup stream recordSize nodeCount x bs
    else if x = nodeCount then some .notFound
    else some (.dataOffset (x - nodeCount - dataSectionSeparatorSize))

/-! ## Reading a node back -/

/-- A right shift of a `uint32_t` by less than 32 bits divides by a power of two. -/
theorem UInt32.toNat_shiftRight (v s : UInt32) (hs : s.toNat < 32) :
    (v >>> s).toNat = v.toNat / 2 ^ s.toNat := by
  show (v.toBitVec >>> (s.toBitVec % 32)).toNat = v.toBitVec.toNat / 2 ^ s.toBitVec.toNat
  have : (s.toBitVec % 32).toNat = s.toBitVec.toNat := by
    rw [BitVec.toNat_umod]; exact Nat.mod_eq_of_lt hs
  simp [BitVec.toNat_ushiftRight, Nat.shiftRight_eq_div_pow, this,
    Nat.mod_eq_of_lt (show s.toBitVec.toNat < 32 from hs)]

@[simp] theorem UInt32.toNat_shiftRight_8 (v : UInt32) : (v >>> 8).toNat = v.toNat / 256 :=
  UInt32.toNat_shiftRight v 8 (by decide)

@[simp] theorem UInt32.toNat_shiftRight_16 (v : UInt32) : (v >>> 16).toNat = v.toNat / 65536 :=
  UInt32.toNat_shiftRight v 16 (by decide)

@[simp] theorem UInt32.toNat_shiftRight_24 (v : UInt32) : (v >>> 24).toNat = v.toNat / 16777216 :=
  UInt32.toNat_shiftRight v 24 (by decide)

@[simp] theorem UInt32.toUInt8_toNat (v : UInt32) : v.toUInt8.toNat = v.toNat % 256 := rfl

/-- The middle byte of a 28-bit node: the low nibble of `a` above the low nibble of `b`. -/
@[simp] theorem UInt8.toNat_nibbles (a b : UInt8) :
    ((a <<< 4) ||| (b &&& 15)).toNat = a.toNat % 16 * 16 + b.toNat % 16 := by
  have ha : (a <<< 4).toNat = 2 ^ 4 * (a.toNat % 16) := by
    show (a.toBitVec <<< ((4 : UInt8).toBitVec % 8)).toNat = _
    simp [BitVec.toNat_shiftLeft, Nat.shiftLeft_eq]
    show a.toNat * 16 % 256 = 16 * (a.toNat % 16)
    omega
  have hb : (b &&& 15).toNat = b.toNat % 2 ^ 4 := by
    rw [UInt8.and_toNat]
    exact Nat.and_pow_two_sub_one_eq_mod _ 4
  show (a <<< 4).toNat ||| (b &&& 15).toNat = _
  rw [ha, hb, ← Nat.mul_add_lt_is_or (Nat.mod_lt _ (by decide))]
  show 16 * (a.toNat % 16) + b.toNat % 16 = _
  omega

/-- Three bytes read big end first give back the low 24 bits of the number they came from. -/
theorem three_bytes_eq_mod (v : Nat) :
    v / 65536 % 256 * 65536 + v / 256 % 256 * 256 + v % 256 = v % 16777216 := by
  omega

/-- On a big-endian host the bytes `encode_node` packs are what the MaxMind-DB layout asks for:
    for 24-, 28- and 32-bit records and values below `2 ^ record_size`, the reader gets the two
    values back. -/
theorem packNode_bigEndian_roundTrip {recordSize : Nat}
    (hs : recordSize = 24 ∨ recordSize = 28 ∨ recordSize = 32) {L R : UInt32}
    (hl : L.toNat < 2 ^ recordSize) (hr : R.toNat < 2 ^ recordSize) :
    readRecord (packNode .bigEndian recordSize L R) recordSize 0 false = some L.toNat ∧
      readRecord (packNode .bigEndian recordSize L R) recordSize 0 true = some R.toNat := by
  have hL : L.toNat < 2 ^ 32 := L.toBitVec.isLt
  have hR : R.toNat < 2 ^ 32 := R.toBitVec.isLt
  rcases hs with h | h | h <;> subst h <;>
    simp [packNode, hostBytes, readRecord, three_bytes_eq_mod] at hl hr ⊢ <;> omega

/-- On a big-endian host `encode_node` writes what the MaxMind-DB layout asks for: for 24-, 28-
    and 32-bit records, a node whose records evaluate to `L` and `R`, both below
    `2 ^ record_size`, is written as a block from which the reader gets `L` and `R` back. -/
theorem encodeNode_bigEndian_roundTrip {t : Tree} {stack stack₁ stack₂ : List Nat} {node : Nat}
    (hs : t.recordSize = 24 ∨ t.recordSize = 28 ∨ t.recordSize = 32) {L R : UInt32}
    (hl : recordValueAsNumber t stack (t.nodes node).leftRecord = some (L, stack₁))
    (hr : recordValueAsNumber t stack₁ (t.nodes node).rightRecord = some (R, stack₂))
    (hL : L.toNat < 2 ^ t.recordSize) (hR : R.toNat < 2 ^ t.recordSize) :
    ∃ bytes, encodeNode .bigEndian t stack node = some (bytes, stack₂) ∧
      readRecord bytes t.recordSize 0 false = some L.toNat ∧
      readRecord bytes t.recordSize 0 true = some R.toNat :=
  ⟨_, encodeNode_eq hl hr, packNode_bigEndian_roundTrip hs hL hR⟩

/-- On a little-endian host `(uint8_t *)&left` starts at the least significant byte, so
    `encode_node` writes a record value's bytes in the wrong places: for every record size, a
    left record worth 1 reads back as 0 (24 bits, whose three bytes are the value's upper three)
    or as `2 ^ 24` (28 and 32 bits). -/
theorem encodeNode_littleEndian_misreads {t : Tree} {stack stack₁ stack₂ : List Nat} {node : Nat}
    (hs : t.recordSize = 24 ∨ t.recordSize = 28 ∨ t.recordSize = 32) {R : UInt32}
    (h1 : recordValueAsNumber t stack (t.nodes node).leftRecord = some (1, stack₁))
    (hr : recordValueAsNumber t stack₁ (t.nodes node).rightRecord = some (R, stack₂)) :
    ∃ bytes, encodeNode .littleEndian t stack node = some (bytes, stack₂) ∧
      readRecord bytes t.recordSize 0 false = some (if t.recordSize = 24 then 0 else 16777216) := by
  refine ⟨_, encodeNode_eq h1 hr, ?_⟩
  rcases hs with h | h | h <;> simp [h, packNode, hostBytes, readRecord]

/-- After `0.0.0.0/2 → k` in an empty IPv4 tree with 24-bit records, the finalized root's left
    record points at node number 1, which a little-endian host writes as 0. -/
theorem encodeNode_littleEndian_quarter :
    ∃ t, insertNetwork 1 (newTree 4 24 0) (v4 0 0 0 0) 2 ⟨1, [65]⟩ ⟨2, [66]⟩ = some (0, t) ∧
      (finalizeTree t).recordSize = 24 ∧
      recordValueAsNumber (finalizeTree t) []
        ((finalizeTree t).nodes (finalizeTree t).rootNode).leftRecord = some (1, []) ∧
      recordValueAsNumber (finalizeTree t) []
        ((finalizeTree t).nodes (finalizeTree t).rootNode).rightRecord = some (0, []) ∧
      ∃ bytes, encodeNode .littleEndian (finalizeTree t) [] (finalizeTree t).rootNode =
        some (bytes, []) ∧ readRecord bytes (finalizeTree t).recordSize 0 false =
          some (if (finalizeTree t).recordSize = 24 then 0 else 16777216) := by
  obtain ⟨t, h, h24, hl, hr⟩ : ∃ t,
      insertNetwork 1 (newTree 4 24 0) (v4 0 0 0 0) 2 ⟨1, [65]⟩ ⟨2, [66]⟩ = some (0, t) ∧
      (finalizeTree t).recordSize = 24 ∧
      recordValueAsNumber (finalizeTree t) []
        ((finalizeTree t).nodes (finalizeTree t).rootNode).leftRecord = some (1, []) ∧
      recordValueAsNumber (finalizeTree t) []
        ((finalizeTree t).nodes (finalizeTree t).rootNode).rightRecord = some (0, []) :=
    ⟨_, rfl, rfl, by decide, by decide⟩
  exact ⟨t, h, h24, hl, hr, encodeNode_littleEndian_misreads (.inl h24) hl hr⟩

/-- On an empty IPv4 tree with 24-bit records, `lookup_ip_address 0.0.0.0` answers `undef`, but
    the bytes `write_search_tree` emits give a reader no answer at all: there are none. -/
theorem writeSearchTree_unreadable :
    ∃ w, writeSearchTree (newTree 4 24 0) .littleEndian [] = w ∧ w.2 = [] ∧
      readerLookup w.2 24 w.1.nodeCount 0 ((resolveNetwork w.1 (v4 0 0 0 0) 32).bits 32) = none ∧
      (lookupIpAddress w.1 (v4 0 0 0 0)).2 = .ok none :=
  ⟨_, rfl, writeSearchTree_output _ _ _, by decide, rfl⟩

end MMDBW
