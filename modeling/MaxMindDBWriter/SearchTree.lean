/-
  The search tree section `write_search_tree` is meant to write, read back by a MaxMind-DB
  reader.

  `start_iteration` never walks the tree with `encode_node` (`writeSearchTree_output`); this
  module is about the bytes that walk writes, started as `write_search_tree` means it to be: at
  the root of the finalized tree, with `next_node + 1` as the fuel and the Perl stack its caller
  left.  The trees are those built without `alias_ipv4_networks`, on which the walk is the
  pre-order of the node graph (`Tree.Labelled.walkOrder_eq`).

  1. **The walk** — `encode_node` changes no node: it appends the node's block to the output and
     pops the Perl stack once for each `DATA` record, so the walk writes the blocks of the
     pre-order in turn, and the `j`-th `DATA` record it meets (`Tree.dataSlots`) takes the
     `j`-th entry of the caller's stack (`foldl_call_encodeNode`).  `store_data`'s answer is
     never used: `SvUV(POPs)` pops it and converts the entry below.
  2. **Blocks** — every block is `blockSize` bytes long, so the reader's `readRecord` of node
     `v` reads the `v`-th block, and on a big-endian host gets back the values
     `record_value_as_number` gave the records when they fit in `record_size` bits.
  3. **Values** — after `finalize_tree`, a record of a node the root leads to is written as its
     `searchValue` (`recordValue_finalizeTree`): the child's place in the pre-order for `NODE`,
     the popped entry past the `node_count` blocks and the separator for `DATA`, and 0 for
     `EMPTY`, which is the root's place.
  4. **What the reader computes** — from a node's block the reader computes `Tree.readerWalk`, a
     walk over the tree itself (`readerLookup_eq_readerWalk`, `readerLookup_encodeNodeWalk`): it
     follows `NODE` records, answers a `DATA` record with the entry popped for it, and takes
     `EMPTY`, written as 0, for a pointer back to the root.
  5. **Reading back** — so every path to a `DATA` record finds that entry and no lookup answers
     "not found" (`encodeNodeWalk_readBack`); but an address the tree does not hold is answered
     as the bits left after its `EMPTY` record, read again from the root
     (`encodeNodeWalk_empty_restarts`), which can be data.
-/
import Mathlib.Data.List.GetD
import MaxMindDBWriter.Numbering
import MaxMindDBWriter.PrefixLaws

namespace MMDBW

/-! ## The walk with `encode_node` -/

/-- Whether `record_value_as_number` pops the Perl stack for a record: for `DATA` only. -/
def Record.isData : Record → Bool
  | .data _ => true
  | _ => false

/-- A record of a node: the node, and whether it is the right record. -/
structure RecordSlot where
  node : Nat
  isRight : Bool
deriving DecidableEq

/-- The `DATA` records of the nodes of `nodes`, in the order `encode_node` evaluates them: node
    by node, the left record before the right one. -/
def Tree.dataSlots (t : Tree) : List Nat → List RecordSlot
  | [] => []
  | x :: xs =>
    ([⟨x, false⟩, ⟨x, true⟩].filter fun s => ((t.nodes s.node).side s.isRight).isData) ++
      t.dataSlots xs

theorem Tree.dataSlots_cons (t : Tree) (x : Nat) (xs : List Nat) :
    t.dataSlots (x :: xs) = t.dataSlots [x] ++ t.dataSlots xs := by
  simp [Tree.dataSlots]

theorem Tree.dataSlots_append (t : Tree) (l l' : List Nat) :
    t.dataSlots (l ++ l') = t.dataSlots l ++ t.dataSlots l' := by
  induction l with
  | nil => rfl
  | cons x xs ih => rw [List.cons_append, Tree.dataSlots, Tree.dataSlots, ih, List.append_assoc]

/-- A node's `DATA` records, one slot each. -/
theorem Tree.dataSlots_singleton_length (t : Tree) (x : Nat) :
    (t.dataSlots [x]).length = (if (t.nodes x).leftRecord.isData then 1 else 0) +
      if (t.nodes x).rightRecord.isData then 1 else 0 := by
  simp only [Tree.dataSlots, List.filter, Node.side, List.append_nil]
  split <;> split <;> simp_all

theorem Tree.mem_dataSlots (t : Tree) {x : Nat} {b : Bool} (l : List Nat) :
    ⟨x, b⟩ ∈ t.dataSlots l ↔ x ∈ l ∧ ((t.nodes x).side b).isData := by
  induction l with
  | nil => simp [Tree.dataSlots]
  | cons y ys ih =>
    rw [Tree.dataSlots, List.mem_append, ih, List.mem_filter]
    cases b <;> by_cases hxy : x = y <;> simp [hxy]

/-- The slots read the records only. -/
theorem Tree.dataSlots_congr {t t' : Tree} (h : ∀ x b, (t'.nodes x).side b = (t.nodes x).side b) :
    t'.dataSlots = t.dataSlots := by
  funext l
  induction l with
  | nil => rfl
  | cons x xs ih => simp only [Tree.dataSlots, h, ih]

/-- In nodes listed once, a `DATA` record `b` of node `x` comes after those of the nodes before
    `x`, and after `x`'s left one if `b` is the right one. -/
theorem Tree.indexOf_dataSlots (t : Tree) {pre post : List Nat} {x : Nat} (hx : x ∉ pre) {b : Bool}
    (hb : ((t.nodes x).side b).isData) :
    (t.dataSlots (pre ++ x :: post)).indexOf ⟨x, b⟩ = (t.dataSlots pre).length +
      if b ∧ (t.nodes x).leftRecord.isData then 1 else 0 := by
  rw [Tree.dataSlots_append, List.indexOf_append_of_not_mem fun hm =>
    hx ((t.mem_dataSlots _).mp hm).1, Tree.dataSlots]
  cases b <;> simp_all [List.filter, Node.side]
  split <;> simp_all

/-- The value `record_value_as_number` gives `record` when `position` is the entry it pops for
    `DATA`. -/
def recordValue (t : Tree) (position : Nat) : Record → UInt32
  | .empty => 0
  | .node node => (t.nodes node).number.toUInt32
  | .data _ => position.toUInt32 + t.nodeCount.toUInt32 + dataSectionSeparatorSize.toUInt32

/-- `record_value_as_number` once `k` entries of `stack` were popped: `DATA` pops entry `k`. -/
theorem recordValueAsNumber_drop (t : Tree) (stack : List Nat) (k : Nat) (r : Record)
    (hk : k + (if r.isData then 1 else 0) ≤ stack.length) :
    recordValueAsNumber t (stack.drop k) r =
      some (recordValue t (stack.getD k 0) r, stack.drop (k + if r.isData then 1 else 0)) := by
  cases r with
  | empty | node => simp [recordValueAsNumber, recordValue, Record.isData]
  | data key =>
    simp only [Record.isData, if_true] at hk ⊢
    rw [List.drop_eq_getElem_cons (by omega), List.getD_eq_getElem _ _ (by omega)]
    rfl

/-- The block `encode_node` writes for node `x` once the walk has popped `k` entries of `stack`:
    a `DATA` left record takes entry `k`, a `DATA` right record the entry after the left one's. -/
def nodeBlock (order : ByteOrder) (t : Tree) (stack : List Nat) (k x : Nat) : List UInt8 :=
  packNode order t.recordSize (recordValue t (stack.getD k 0) (t.nodes x).leftRecord)
    (recordValue t (stack.getD (k + if (t.nodes x).leftRecord.isData then 1 else 0) 0)
      (t.nodes x).rightRecord)

theorem encodeNode_drop (order : ByteOrder) (t : Tree) (stack : List Nat) (k x : Nat)
    (hk : k + (t.dataSlots [x]).length ≤ stack.length) :
    encodeNode order t (stack.drop k) x =
      some (nodeBlock order t stack k x, stack.drop (k + (t.dataSlots [x]).length)) := by
  rw [Tree.dataSlots_singleton_length] at hk ⊢
  rw [encodeNode_eq (recordValueAsNumber_drop t stack k _ (by omega))
    (recordValueAsNumber_drop t stack _ _ (by omega)), Nat.add_assoc]
  rfl

/-- The length of a node's block in the search tree section: six, seven or eight bytes. -/
def blockSize (recordSize : Nat) : Nat :=
  if recordSize = 24 then 6 else if recordSize = 28 then 7 else 8

/-- The reader's block `v` depends only on the bytes of that block, and on whether the stream
    reaches its end. -/
theorem readRecord_congr {s s' : List UInt8} {rs v v' : Nat} (isRight : Bool)
    (hlen : s.length < (v + 1) * blockSize rs ↔ s'.length < (v' + 1) * blockSize rs)
    (hget : ∀ i < blockSize rs, s.getD (v * blockSize rs + i) 0 = s'.getD (v' * blockSize rs + i) 0) :
    readRecord s rs v isRight = readRecord s' rs v' isRight := by
  unfold readRecord
  -- one record size at a time: the same test of the stream's length, and the same reads
  by_cases h24 : rs = 24
  · simp only [blockSize, h24, if_true] at hlen hget ⊢
    exact if_congr hlen rfl (by simp (disch := omega) only [hget])
  by_cases h28 : rs = 28
  · simp only [blockSize, h28, Nat.reduceEqDiff, if_true, if_false] at hlen hget ⊢
    exact if_congr hlen rfl (by simp (disch := omega) only [hget])
  · simp only [blockSize, h24, h28, if_false] at hlen hget ⊢
    exact if_congr hlen rfl (by simp (disch := omega) only [hget])

theorem nodeBlock_length (order : ByteOrder) (t : Tree) (stack : List Nat) (k x : Nat) :
    (nodeBlock order t stack k x).length = blockSize t.recordSize := by
  unfold nodeBlock packNode blockSize
  split_ifs <;> rfl

/-- Past a first block, block `v + 1` of a stream is block `v` of what follows. -/
theorem readRecord_block_cons {rs : Nat} {block : List UInt8} (hb : block.length = blockSize rs)
    (rest : List UInt8) (v : Nat) (isRight : Bool) :
    readRecord (block ++ rest) rs (v + 1) isRight = readRecord rest rs v isRight := by
  refine readRecord_congr isRight ?_ fun i hi => ?_
  · simp only [List.length_append, hb, Nat.add_mul, Nat.one_mul]; omega
  · rw [List.getD_append_right _ _ _ _ (by rw [hb, Nat.add_mul]; omega), hb]
    congr 1
    rw [Nat.add_mul]; omega

/-- Block 0 of a stream is its first block. -/
theorem readRecord_block_zero {rs : Nat} {block : List UInt8} (hb : block.length = blockSize rs)
    (rest : List UInt8) (isRight : Bool) :
    readRecord (block ++ rest) rs 0 isRight = readRecord block rs 0 isRight := by
  refine readRecord_congr isRight ?_ fun i hi => ?_
  · simp only [List.length_append, hb]; omega
  · simp only [Nat.zero_mul, Nat.zero_add]
    exact List.getD_append _ _ _ _ (by omega)

/-- The walk with `encode_node` over `nodes`, from a stack of which `k` entries were popped and
    that has an entry for each of their `DATA` records, writes their blocks in turn and pops
    those entries. -/
theorem foldl_call_encodeNode (order : ByteOrder) (t : Tree) (stack : List Nat) :
    ∀ (nodes : List Nat) (k : Nat) (output : List UInt8),
      k + (t.dataSlots nodes).length ≤ stack.length →
      ∃ bytes, nodes.foldl (Callback.encodeNode order).call ⟨t, output, some (stack.drop k)⟩ =
          ⟨t, output ++ bytes, some (stack.drop (k + (t.dataSlots nodes).length))⟩ ∧
        bytes.length = nodes.length * blockSize t.recordSize ∧
        ∀ v (hv : v < nodes.length) b, readRecord bytes t.recordSize v b =
          readRecord (nodeBlock order t stack (k + (t.dataSlots (nodes.take v)).length) nodes[v])
            t.recordSize 0 b := by
  intro nodes
  induction nodes with
  | nil =>
    intro k output _
    exact ⟨[], by simp [Tree.dataSlots], by simp, fun v hv => absurd hv (Nat.not_lt_zero v)⟩
  | cons x xs ih =>
    intro k output hk
    rw [Tree.dataSlots_cons t x xs, List.length_append, ← Nat.add_assoc] at hk
    have hcall : (Callback.encodeNode order).call ⟨t, output, some (stack.drop k)⟩ x =
        ⟨t, output ++ nodeBlock order t stack k x,
          some (stack.drop (k + (t.dataSlots [x]).length))⟩ := by
      simp only [Callback.call, Option.some_bind, encodeNode_drop order t stack k x (by omega)]
    obtain ⟨rest, hfold, hlen, hread⟩ := ih _ (output ++ nodeBlock order t stack k x) hk
    have hb := nodeBlock_length order t stack k x
    refine ⟨nodeBlock order t stack k x ++ rest, ?_, ?_, fun v hv b => ?_⟩
    · rw [List.foldl_cons, hcall, hfold, Tree.dataSlots_cons t x xs, List.length_append,
        Nat.add_assoc, List.append_assoc]
    · simp only [List.length_append, hb, hlen, List.length_cons, Nat.add_mul, Nat.one_mul]
      omega
    · cases v with
      | zero => simpa using readRecord_block_zero hb rest b
      | succ v =>
        rw [readRecord_block_cons hb, hread v (by simpa using hv), List.take_succ_cons,
          Tree.dataSlots_cons t x (xs.take v), List.length_append, Nat.add_assoc]
        rfl

/-! ## What the reader computes, in terms of the tree -/

/-- What a MaxMind-DB reader computes over the section, read off the tree: it follows `NODE`
    records, answers a `DATA` record `b` of node `x` with the offset `dataValue x b` written for
    it, and takes an `EMPTY` record, written as 0, for a pointer back to the root. -/
def Tree.readerWalk (t : Tree) (dataValue : Nat → Bool → Nat) : Nat → List Bool → Option ReaderAnswer
  | _, [] => none
  | x, b :: bs =>
    match (t.nodes x).side b with
    | .node c => t.readerWalk dataValue c bs
    | .data _ => some (.dataOffset (dataValue x b))
    | .empty => t.readerWalk dataValue t.rootNode bs

/-- The walk never answers "not found". -/
theorem Tree.readerWalk_ne_notFound (t : Tree) (dataValue : Nat → Bool → Nat) (bits : List Bool) :
    ∀ x, t.readerWalk dataValue x bits ≠ some .notFound := by
  induction bits with
  | nil => intro x; simp [Tree.readerWalk]
  | cons b bs ih =>
    intro x
    simp only [Tree.readerWalk]
    split
    · exact ih _
    · simp
    · exact ih _

/-- Along a path of `NODE` records the walk goes where the path leads. -/
theorem Tree.readerWalk_append (t : Tree) (dataValue : Nat → Bool → Nat) (bs : List Bool)
    (p : List Bool) :
    ∀ x y, t.select x p = .node y → t.readerWalk dataValue x (p ++ bs) = t.readerWalk dataValue y bs := by
  induction p with
  | nil => intro x y hsel; cases hsel; rfl
  | cons c p ih =>
    intro x y hsel
    cases hr : (t.nodes x).side c with
    | node z =>
      rw [List.cons_append, Tree.readerWalk, hr]
      exact ih z y (by rwa [Tree.select_cons_of_node t hr] at hsel)
    | empty | data => simp [Tree.select, hr] at hsel

/-- The value record `b` of node `x` has in the search tree section written from the node list
    `order`: 0 for `EMPTY`, the child's place in `order` for `NODE`, and for `DATA` the offset
    `dataValue x b` counted past the `order.length` nodes and the separator. -/
def searchValue (t : Tree) (order : List Nat) (dataValue : Nat → Bool → Nat) (x : Nat) (b : Bool) :
    Nat :=
  match (t.nodes x).side b with
  | .empty => 0
  | .node c => order.indexOf c
  | .data _ => dataValue x b + order.length + dataSectionSeparatorSize

/-- A stream in which every node of `order` is written with its search values, the root first,
    is read by the reader as the walk over the tree. -/
theorem readerLookup_eq_readerWalk {t : Tree} {order : List Nat} {dataValue : Nat → Bool → Nat}
    {bytes : List UInt8} {rs : Nat} (hroot : t.rootNode ∈ order) (hroot0 : order.indexOf t.rootNode = 0)
    (hchild : ∀ x ∈ order, ∀ b c, (t.nodes x).side b = .node c → c ∈ order)
    (hread : ∀ x ∈ order, ∀ b,
      readRecord bytes rs (order.indexOf x) b = some (searchValue t order dataValue x b))
    (bits : List Bool) :
    ∀ x ∈ order, readerLookup bytes rs order.length (order.indexOf x) bits =
      t.readerWalk dataValue x bits := by
  induction bits with
  | nil => intro x _; rfl
  | cons b bs ih =>
    intro x hx
    simp only [readerLookup, hread x hx b, Option.bind_eq_bind, Option.some_bind, Tree.readerWalk,
      searchValue]
    cases hr : (t.nodes x).side b with
    | empty =>
      rw [if_pos (List.length_pos_of_mem hroot), ← hroot0]
      exact ih _ hroot
    | node c =>
      have hc := hchild x hx b c hr
      rw [if_pos (List.indexOf_lt_length.mpr hc)]
      exact ih c hc
    | data key =>
      dsimp only
      rw [dataSectionSeparatorSize]
      split_ifs <;> first | omega | (congr 2; omega)

/-! ## The walk `write_search_tree` means to make -/

/-- The nodes `finalize_tree` numbers, in order, on a tree built without `alias_ipv4_networks`:
    the pre-order from the root. -/
def Tree.nodeOrder (t : Tree) : List Nat := t.preorder (t.nextNode + 1) (.node t.rootNode) []

/-- The entry of `stack` the walk over `order` pops for record `b` of node `x`: the one at the
    record's place among the `DATA` records of `order`. -/
def slotEntry (t : Tree) (order stack : List Nat) (x : Nat) (b : Bool) : Nat :=
  stack.getD ((t.dataSlots order).indexOf ⟨x, b⟩) 0

/-- `finalize_tree` keeps the record size. -/
theorem finalizeTree_recordSize {t : Tree} (hf : t.isFinalized = false) :
    (finalizeTree t).recordSize = t.recordSize := by
  obtain ⟨nodes, hfold⟩ := foldl_assignNodeNumber_eq
    (t.walkOrder (t.nextNode + 1) (.node t.rootNode) []) { t with nodeCount := 0 }
  rw [finalizeTree_walk hf, hfold]

section Finalized

variable {t : Tree} (ht : Reachable aliasFree t) (hf : t.isFinalized = false)
include ht

theorem Tree.nodeOrder_child {x c : Nat} {b : Bool} (hx : x ∈ t.nodeOrder)
    (hc : (t.nodes x).side b = .node c) : c ∈ t.nodeOrder := by
  have hmem := t.mem_preorder_root ht.valid.wellFormed
  obtain ⟨p, hp⟩ := (hmem x).mp hx
  exact (hmem c).mpr ⟨p ++ [b], by simp [Tree.select_append, hp, hc]⟩

include hf

/-- After `finalize_tree`, a record of a node of the pre-order, with the entry popped for it if
    it is `DATA`, is worth its search value modulo `2 ^ 32`. -/
theorem recordValue_finalizeTree (stack : List Nat) {x : Nat} (hx : x ∈ t.nodeOrder) (b : Bool)
    {k : Nat} (hk : ((t.nodes x).side b).isData → k = (t.dataSlots t.nodeOrder).indexOf ⟨x, b⟩) :
    (recordValue (finalizeTree t) (stack.getD k 0) ((t.nodes x).side b)).toNat =
      searchValue t t.nodeOrder (slotEntry t t.nodeOrder stack) x b % 4294967296 := by
  obtain ⟨pos, hl⟩ := ht.labelled
  obtain ⟨hcount, hnum, -⟩ := finalizeTree_number ht.valid.wellFormed hl hf
  unfold searchValue
  cases hr : (t.nodes x).side b with
  | empty => rfl
  | node c =>
    show ((finalizeTree t).nodes c).number % 4294967296 = _
    rw [hnum c (Tree.nodeOrder_child ht hx hr)]
    rfl
  | data key =>
    rw [hk (by rw [hr]; rfl)]
    show ((stack.getD _ 0 % 4294967296 + (finalizeTree t).nodeCount % 4294967296) % 4294967296 +
      dataSectionSeparatorSize % 4294967296) % 4294967296 = _
    rw [hcount]
    simp only [slotEntry, Tree.nodeOrder, Nat.add_mod_mod, Nat.mod_add_mod]

variable (stack : List Nat)
  (hcount : (finalizeTree t).nodeCount < 2 ^ t.recordSize)
  (hbound : ∀ i < (t.dataSlots t.nodeOrder).length,
    stack.getD i 0 + (finalizeTree t).nodeCount + dataSectionSeparatorSize < 2 ^ t.recordSize)

include hcount hbound in
/-- Every search value of a node of the pre-order fits in `record_size` bits. -/
theorem searchValue_lt {x : Nat} (hx : x ∈ t.nodeOrder) (b : Bool) :
    searchValue t t.nodeOrder (slotEntry t t.nodeOrder stack) x b < 2 ^ t.recordSize := by
  obtain ⟨pos, hl⟩ := ht.labelled
  obtain ⟨hlen, -⟩ := finalizeTree_number ht.valid.wellFormed hl hf
  unfold searchValue
  cases hr : (t.nodes x).side b with
  | empty => exact Nat.two_pow_pos _
  | node c =>
    have := List.indexOf_lt_length.mpr (Tree.nodeOrder_child ht hx hr)
    rw [hlen] at hcount
    exact this.trans hcount
  | data key =>
    dsimp only
    have hmem : ⟨x, b⟩ ∈ t.dataSlots t.nodeOrder := (t.mem_dataSlots _).mpr ⟨hx, by rw [hr]; rfl⟩
    have := hbound _ (List.indexOf_lt_length.mpr hmem)
    rw [hlen] at this
    exact this

/-- The walk `write_search_tree` means to make, from the Perl stack `stack` with an entry for
    each `DATA` record, writes the blocks of the pre-order in turn and pops those entries. -/
theorem encodeNodeWalk_eq (order : ByteOrder) (hlen : (t.dataSlots t.nodeOrder).length ≤ stack.length) :
    let f := finalizeTree t
    ∃ bytes, (iterateTree (.encodeNode order) (f.nextNode + 1) ⟨f, [], some stack⟩ f.rootNode []).1 =
        ⟨f, bytes, some (stack.drop (t.dataSlots t.nodeOrder).length)⟩ ∧
      ∀ v (hv : v < t.nodeOrder.length) b, readRecord bytes t.recordSize v b =
        readRecord (nodeBlock order (finalizeTree t) stack (t.dataSlots (t.nodeOrder.take v)).length
          t.nodeOrder[v]) t.recordSize 0 b := by
  obtain ⟨-, hnext, hroot, hside⟩ := finalizeTree_walkOrder hf
  obtain ⟨pos, hl⟩ := ht.labelled
  have hw := ht.valid.wellFormed
  have hwalk : (finalizeTree t).walkOrder ((finalizeTree t).nextNode + 1)
      (.node (finalizeTree t).rootNode) [] = t.nodeOrder := by
    rw [Tree.walkOrder_congr hside, hnext, hroot]
    exact hl.walkOrder_eq hw _ _ _ hw.root_lt fun _ h => absurd h (List.not_mem_nil _)
  have hrs := finalizeTree_recordSize hf
  obtain ⟨bytes, hfold, -, hread⟩ := foldl_call_encodeNode order (finalizeTree t) stack t.nodeOrder 0 []
    (by rw [Tree.dataSlots_congr hside]; omega)
  simp only [List.drop_zero, Nat.zero_add, Tree.dataSlots_congr hside, hrs, List.nil_append] at hfold hread
  exact ⟨bytes, by rw [iterateTree_eq_foldl]; dsimp only; rw [hwalk, hfold], hread⟩

include hcount hbound in
/-- On a big-endian host, the reader over the section the walk writes computes the walk over the
    tree from the root, each `DATA` record answered with the entry popped for it; and the walk
    leaves the stack without those entries. -/
theorem readerLookup_encodeNodeWalk (hs : t.recordSize = 24 ∨ t.recordSize = 28 ∨ t.recordSize = 32)
    (hlen : (t.dataSlots t.nodeOrder).length ≤ stack.length) :
    let f := finalizeTree t
    let s := (iterateTree (.encodeNode .bigEndian) (f.nextNode + 1) ⟨f, [], some stack⟩ f.rootNode []).1
    s.perlStack = some (stack.drop (t.dataSlots t.nodeOrder).length) ∧
      ∀ bits, readerLookup s.output f.recordSize f.nodeCount 0 bits =
        t.readerWalk (slotEntry t t.nodeOrder stack) t.rootNode bits := by
  obtain ⟨pos, hl⟩ := ht.labelled
  have hw := ht.valid.wellFormed
  obtain ⟨hnc, -, -, -, hside⟩ := finalizeTree_number hw hl hf
  obtain ⟨bytes, hwalk, hread⟩ := encodeNodeWalk_eq ht hf stack .bigEndian hlen
  obtain ⟨rest, hrest⟩ := t.preorder_node t.nextNode t.rootNode
  have hroot : t.rootNode ∈ t.nodeOrder := by rw [Tree.nodeOrder, hrest]; exact List.mem_cons_self _ _
  have hroot0 : t.nodeOrder.indexOf t.rootNode = 0 := by rw [Tree.nodeOrder, hrest, List.indexOf_cons_self]
  have hpow : 2 ^ t.recordSize ≤ 4294967296 := by rcases hs with h | h | h <;> rw [h] <;> decide
  -- the block of each node of the pre-order holds its search values
  have hblock : ∀ x ∈ t.nodeOrder, ∀ b, readRecord bytes t.recordSize (t.nodeOrder.indexOf x) b =
      some (searchValue t t.nodeOrder (slotEntry t t.nodeOrder stack) x b) := by
    intro x hx b
    have hv := List.indexOf_lt_length.mpr hx
    have hval : ∀ b k, (((t.nodes x).side b).isData →
        k = (t.dataSlots t.nodeOrder).indexOf ⟨x, b⟩) →
        (recordValue (finalizeTree t) (stack.getD k 0) ((t.nodes x).side b)).toNat =
          searchValue t t.nodeOrder (slotEntry t t.nodeOrder stack) x b := fun b k hk =>
      (recordValue_finalizeTree ht hf stack hx b hk).trans
        (Nat.mod_eq_of_lt ((searchValue_lt ht hf stack hcount hbound hx b).trans_le hpow))
    have hsplit : t.nodeOrder = t.nodeOrder.take (t.nodeOrder.indexOf x) ++
        x :: t.nodeOrder.drop (t.nodeOrder.indexOf x + 1) := by
      conv_lhs => rw [← List.take_append_drop (t.nodeOrder.indexOf x) t.nodeOrder]
      rw [List.drop_eq_getElem_cons hv, List.getElem_indexOf]
    have hslot : ∀ b, ((t.nodes x).side b).isData →
        (t.dataSlots (t.nodeOrder.take (t.nodeOrder.indexOf x))).length +
            (if b ∧ (t.nodes x).leftRecord.isData then 1 else 0) =
          (t.dataSlots t.nodeOrder).indexOf ⟨x, b⟩ := fun b hb => by
      have hnd : t.nodeOrder.Nodup := (t.preorder_nodup _ _ _).1
      rw [hsplit] at hnd
      have hnot : x ∉ t.nodeOrder.take (t.nodeOrder.indexOf x) := fun hm =>
        List.disjoint_of_nodup_append hnd hm (List.mem_cons_self _ _)
      conv_rhs => rw [hsplit]
      exact (t.indexOf_dataSlots hnot hb).symm
    obtain ⟨hL, hR⟩ := packNode_bigEndian_roundTrip hs
      (L := recordValue (finalizeTree t) (stack.getD (t.dataSlots (t.nodeOrder.take
        (t.nodeOrder.indexOf x))).length 0) (t.nodes x).leftRecord)
      (R := recordValue (finalizeTree t) (stack.getD ((t.dataSlots (t.nodeOrder.take
        (t.nodeOrder.indexOf x))).length + if (t.nodes x).leftRecord.isData then 1 else 0) 0)
        (t.nodes x).rightRecord)
      ((hval false _ fun hb => by simpa using hslot false hb).trans_lt
        (searchValue_lt ht hf stack hcount hbound hx false))
      ((hval true _ fun hb => by simpa using hslot true hb).trans_lt
        (searchValue_lt ht hf stack hcount hbound hx true))
    rw [hread _ hv, List.getElem_indexOf, nodeBlock, finalizeTree_recordSize hf,
      show ((finalizeTree t).nodes x).leftRecord = (t.nodes x).leftRecord from hside x false,
      show ((finalizeTree t).nodes x).rightRecord = (t.nodes x).rightRecord from hside x true]
    cases b
    · exact hL.trans (congrArg some (hval false _ fun hb => by simpa using hslot false hb))
    · exact hR.trans (congrArg some (hval true _ fun hb => by simpa using hslot true hb))
  refine ⟨by rw [hwalk], fun bits => ?_⟩
  rw [hwalk, finalizeTree_recordSize hf, hnc, ← hroot0]
  exact readerLookup_eq_readerWalk hroot hroot0 (fun x hx b c hc => Tree.nodeOrder_child ht hx hc)
    hblock bits _ hroot

end Finalized

/-! ## Reading the section back -/

/-- On a big-endian host, the search tree section that the walk with `encode_node` writes from
    the root of a tree built without `alias_ipv4_networks` after `finalize_tree` (the walk
    `write_search_tree` means `start_iteration` to make), from a Perl stack with an entry for
    each `DATA` record, reads back.  The walk pops those entries; along the bits of every path
    that ends at a `DATA` record, and whatever bits follow, a MaxMind-DB reader starting at the
    first block finds the entry popped for that record, not `store_data`'s answer; and no bits
    lead it to "not found", since `EMPTY` is written as 0, a pointer back to the root.  Every
    value has to fit in `record_size` bits. -/
theorem encodeNodeWalk_readBack {t : Tree} (ht : Reachable aliasFree t) (hf : t.isFinalized = false)
    (hs : t.recordSize = 24 ∨ t.recordSize = 28 ∨ t.recordSize = 32) (stack : List Nat)
    (hlen : (t.dataSlots t.nodeOrder).length ≤ stack.length)
    (hcount : (finalizeTree t).nodeCount < 2 ^ t.recordSize)
    (hbound : ∀ i < (t.dataSlots t.nodeOrder).length,
      stack.getD i 0 + (finalizeTree t).nodeCount + dataSectionSeparatorSize < 2 ^ t.recordSize) :
    let f := finalizeTree t
    let s := (iterateTree (.encodeNode .bigEndian) (f.nextNode + 1) ⟨f, [], some stack⟩ f.rootNode []).1
    s.perlStack = some (stack.drop (t.dataSlots t.nodeOrder).length) ∧
    (∀ p y b key q, t.select t.rootNode p = .node y → (t.nodes y).side b = .data key →
      readerLookup s.output f.recordSize f.nodeCount 0 (p ++ b :: q) =
        some (.dataOffset (slotEntry t t.nodeOrder stack y b))) ∧
    ∀ bits, readerLookup s.output f.recordSize f.nodeCount 0 bits ≠ some .notFound := by
  obtain ⟨hstack, hread⟩ := readerLookup_encodeNodeWalk ht hf stack hcount hbound hs hlen
  refine ⟨hstack, fun p y b key q hp hy => ?_, fun bits => ?_⟩
  · rw [hread, t.readerWalk_append _ _ p _ y hp, Tree.readerWalk, hy]
  · rw [hread]
    exact t.readerWalk_ne_notFound _ _ _

/-- `10.0.0.0/8 → k` in a new IPv4 tree with 24-bit records, written from the Perl stack `[5]`:
    the walk pops the 5, and a reader looking up `10.1.2.3` is led to offset 5. -/
theorem encodeNodeWalk_readBack_ten :
    ∃ t, insertNetwork 1 (newTree 4 24 0) (v4 10 0 0 0) 8 ⟨1, [65]⟩ ⟨2, [66]⟩ = some (0, t) ∧
      let f := finalizeTree t
      let s := (iterateTree (.encodeNode .bigEndian) (f.nextNode + 1) ⟨f, [], some [5]⟩ f.rootNode []).1
      s.perlStack = some [] ∧
        readerLookup s.output f.recordSize f.nodeCount 0
          ((hostNetwork t (v4 10 1 2 3)).bits 32) = some (.dataOffset 5) := by
  obtain ⟨t, h, hf, hs, hlen, hcount, hbound, hp, hy, hbits, hslot⟩ : ∃ t,
      insertNetwork 1 (newTree 4 24 0) (v4 10 0 0 0) 8 ⟨1, [65]⟩ ⟨2, [66]⟩ = some (0, t) ∧
      t.isFinalized = false ∧ t.recordSize = 24 ∧ (t.dataSlots t.nodeOrder).length = [5].length ∧
      (finalizeTree t).nodeCount < 2 ^ t.recordSize ∧
      (∀ i < (t.dataSlots t.nodeOrder).length,
        [5].getD i 0 + (finalizeTree t).nodeCount + dataSectionSeparatorSize < 2 ^ t.recordSize) ∧
      t.select t.rootNode [false, false, false, false, true, false, true] = .node 7 ∧
      (t.nodes 7).side false = .data ⟨1, [65]⟩ ∧
      (hostNetwork t (v4 10 1 2 3)).bits 32 = [false, false, false, false, true, false, true] ++
        false :: [false, false, false, false, false, false, false, true, false, false, false, false,
          false, false, true, false, false, false, false, false, false, false, true, true] ∧
      slotEntry t t.nodeOrder [5] 7 false = 5 :=
    ⟨_, rfl, rfl, rfl, by decide, by decide, by decide, by decide, rfl, rfl, by decide⟩
  have ht : Reachable aliasFree t := .step (.newTree 4 24 0 (.inl rfl)) (by simp [aliasFree]) (.insertNetwork h)
  have := encodeNodeWalk_readBack ht hf (.inl hs) [5] hlen.le hcount hbound
  refine ⟨t, h, ?_, ?_⟩
  · exact this.1.trans (by rw [hlen]; rfl)
  · rw [hbits, this.2.1 _ _ _ _ _ hp hy, hslot]

/-- On a big-endian host, the section the walk with `encode_node` writes from the finalized root
    of a tree built without `alias_ipv4_networks` answers for addresses the tree does not hold
    as for other addresses.  `EMPTY` is written as 0, the root's block, so a reader whose bits
    lead it to an `EMPTY` record starts again at the root with the bits that are left: along
    `p ++ b :: q`, where `p` leads to a node whose record `b` is `EMPTY`, it answers what it
    answers along `q`. -/
theorem encodeNodeWalk_empty_restarts {t : Tree} (ht : Reachable aliasFree t)
    (hf : t.isFinalized = false) (hs : t.recordSize = 24 ∨ t.recordSize = 28 ∨ t.recordSize = 32)
    (stack : List Nat) (hlen : (t.dataSlots t.nodeOrder).length ≤ stack.length)
    (hcount : (finalizeTree t).nodeCount < 2 ^ t.recordSize)
    (hbound : ∀ i < (t.dataSlots t.nodeOrder).length,
      stack.getD i 0 + (finalizeTree t).nodeCount + dataSectionSeparatorSize < 2 ^ t.recordSize)
    {p : List Bool} {y : Nat} {b : Bool} (hp : t.select t.rootNode p = .node y)
    (hy : (t.nodes y).side b = .empty) (q : List Bool) :
    let f := finalizeTree t
    let s := (iterateTree (.encodeNode .bigEndian) (f.nextNode + 1) ⟨f, [], some stack⟩ f.rootNode []).1
    readerLookup s.output f.recordSize f.nodeCount 0 (p ++ b :: q) =
      readerLookup s.output f.recordSize f.nodeCount 0 q := by
  have hread := (readerLookup_encodeNodeWalk ht hf stack hcount hbound hs hlen).2
  dsimp only at hread ⊢
  rw [hread, hread, t.readerWalk_append _ _ p _ y hp, Tree.readerWalk, hy]

/-- `10.0.0.0/8 → k` in a new IPv4 tree with 24-bit records, written from the Perl stack `[5]`:
    `lookup_ip_address(0.80.0.0)` is `undef`, but the section leads a reader looking up `0.80.0.0`
    to offset 5.  Its first five bits end on the `EMPTY` record below `0.0.0.0/4`, and the bits
    left start with those of `10.0.0.0/8`. -/
theorem encodeNodeWalk_empty_restarts_ten :
    ∃ t, insertNetwork 1 (newTree 4 24 0) (v4 10 0 0 0) 8 ⟨1, [65]⟩ ⟨2, [66]⟩ = some (0, t) ∧
      (lookupIpAddress t (v4 0 80 0 0)).2 = .ok none ∧
      let f := finalizeTree t
      let s := (iterateTree (.encodeNode .bigEndian) (f.nextNode + 1) ⟨f, [], some [5]⟩ f.rootNode []).1
      readerLookup s.output f.recordSize f.nodeCount 0 ((hostNetwork t (v4 0 80 0 0)).bits 32) =
        some (.dataOffset 5) := by
  obtain ⟨t, h, hf, hs, hlen, hcount, hbound, hp, hy, hbits, hlook, hp', hy', hslot⟩ : ∃ t,
      insertNetwork 1 (newTree 4 24 0) (v4 10 0 0 0) 8 ⟨1, [65]⟩ ⟨2, [66]⟩ = some (0, t) ∧
      t.isFinalized = false ∧ t.recordSize = 24 ∧ (t.dataSlots t.nodeOrder).length ≤ [5].length ∧
      (finalizeTree t).nodeCount < 2 ^ t.recordSize ∧
      (∀ i < (t.dataSlots t.nodeOrder).length,
        [5].getD i 0 + (finalizeTree t).nodeCount + dataSectionSeparatorSize < 2 ^ t.recordSize) ∧
      t.select t.rootNode [false, false, false, false] = .node 4 ∧ (t.nodes 4).side false = .empty ∧
      (hostNetwork t (v4 0 80 0 0)).bits 32 = [false, false, false, false] ++ false ::
        ([false, false, false, false, true, false, true] ++ false :: List.replicate 19 false) ∧
      lookupRecord t (v4 0 80 0 0) = .empty ∧
      t.select t.rootNode [false, false, false, false, true, false, true] = .node 7 ∧
      (t.nodes 7).side false = .data ⟨1, [65]⟩ ∧
      slotEntry t t.nodeOrder [5] 7 false = 5 :=
    ⟨_, rfl, rfl, rfl, by decide, by decide, by decide, by decide, rfl, by decide, by decide,
      by decide, rfl, by decide⟩
  have ht : Reachable aliasFree t := .step (.newTree 4 24 0 (.inl rfl)) (by simp [aliasFree]) (.insertNetwork h)
  refine ⟨t, h, by rw [(lookupIpAddress_eq t _).2, hlook], ?_⟩
  dsimp only
  rw [hbits, encodeNodeWalk_empty_restarts ht hf (.inl hs) [5] hlen hcount hbound hp hy]
  exact (readerLookup_encodeNodeWalk ht hf [5] hcount hbound (.inl hs) hlen).2 _ |>.trans
    (by rw [t.readerWalk_append _ _ _ _ 7 hp', Tree.readerWalk, hy', hslot])

end MMDBW
