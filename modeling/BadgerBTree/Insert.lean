import BadgerBTree.ScanNext

/-!
# Insertion: the overflow test and the new roots

Two steps of the insertion path, each against its sibling:

- `insertEntryInternal` tests `numOccupied > nodeOccupancy` where `insertEntryLeaf` tests
  `numOccupied >= leafOccupancy`, so a full internal node is not split: the in-place insertion runs on it and
  leaves it holding one key more than its capacity, written at slot `nodeOccupancy`, past the key array
  (`insertEntryInternal_full_not_split`); a leaf split that propagates into a full parent therefore overfills the
  parent (`insertEntry_overfills_parent`);
- `splitLeaf` and `splitInternal` set `numOccupied = 0` on the page they allocate, while the new root of both
  counts its key by `numOccupied++` on whatever the allocated page held (`newRoot_counts_fresh`).
-/

namespace BadgerBTree

namespace NonLeafNodeInt

variable (n : NonLeafNodeInt) (j : Int)

@[simp] theorem setKey_keyArray (k : Int) : (n.setKey j k).keyArray = Function.update n.keyArray j k := rfl

@[simp] theorem setChild_keyArray (c : PageId) : (n.setChild j c).keyArray = n.keyArray := rfl

@[simp] theorem bump_keyArray : (n.bump j).keyArray = n.keyArray := rfl

end NonLeafNodeInt

namespace BufMgr

variable (b : BufMgr) (p : PageId)

@[simp] theorem pin_file : (b.pin p).file = b.file := rfl

@[simp] theorem pin_numPages : (b.pin p).numPages = b.numPages := rfl

@[simp] theorem release_file (d : Bool) : (b.release p d).file = b.file := rfl

@[simp] theorem release_numPages (d : Bool) : (b.release p d).numPages = b.numPages := rfl

@[simp] theorem write_file (pg : Page) : (b.write p pg).file = Function.update b.file p pg := rfl

@[simp] theorem write_numPages (pg : Page) : (b.write p pg).numPages = b.numPages := rfl

@[simp] theorem write_pinCount (pg : Page) : (b.write p pg).pinCount = b.pinCount := rfl

@[simp] theorem alloc_numPages : b.alloc.numPages = b.numPages + 1 := rfl

@[simp] theorem alloc_file : b.alloc.file = Function.update b.file (b.numPages + 1) (b.fresh (b.numPages + 1)) := rfl

theorem alloc_pinCount_new : b.alloc.pinCount (b.numPages + 1) ≠ 0 := by simp [alloc, pin]

theorem release_pinCount_of_ne {q : PageId} (d : Bool) (h : q ≠ p) : (b.release p d).pinCount q = b.pinCount q := by
  simp [release, Function.update_noteq h]

theorem alloc_pinCount_of_ne_zero {q : PageId} (h : b.pinCount q ≠ 0) : b.alloc.pinCount q ≠ 0 := by
  by_cases hq : q = b.numPages + 1 <;> simp [alloc, pin, Function.update_apply, hq, h]

end BufMgr

section Steps

variable {α : Type} {i : BTreeIndex} {b : BufMgr} {n : Int}

theorem allocPage_bind_mk (f : PageId × Page → M α) :
    (allocPage >>= f) ⟨i, b, n⟩ = f (b.numPages + 1, b.fresh (b.numPages + 1)) ⟨i, b.alloc, n⟩ := rfl

theorem writeLeaf_bind_mk {p : PageId} {l : LeafNodeInt} (f : Unit → M α) :
    (writeLeaf p l >>= f) ⟨i, b, n⟩ = f () ⟨i, b.write p { b.file p with leaf := l }, n⟩ := rfl

theorem writeNode_bind_mk {p : PageId} {l : NonLeafNodeInt} (f : Unit → M α) :
    (writeNode p l >>= f) ⟨i, b, n⟩ = f () ⟨i, b.write p { b.file p with node := l }, n⟩ := rfl

theorem writeMeta_bind_mk {p : PageId} {m : IndexMetaInfo} (f : Unit → M α) :
    (writeMeta p m >>= f) ⟨i, b, n⟩ = f () ⟨i, b.write p { b.file p with meta := m }, n⟩ := rfl

theorem setMembers_bind_mk (g : BTreeIndex → BTreeIndex) (f : Unit → M α) :
    (setMembers g >>= f) ⟨i, b, n⟩ = f () ⟨g i, b, n⟩ := rfl

theorem members_bind_mk (f : BTreeIndex → M α) : (members >>= f) ⟨i, b, n⟩ = f i ⟨i, b, n⟩ := rfl

end Steps

/-! ## The in-place insertion into an internal node -/

section InternalInsert

variable {key N : Int}

@[simp]
theorem shiftNodeUp_numOccupied :
    ∀ (rem : Nat) (n : NonLeafNodeInt) (i : Int), (shiftNodeUp key N rem n i).1.numOccupied = n.numOccupied
  | 0, _, _ => rfl
  | rem + 1, n, i => by
    unfold shiftNodeUp
    split
    · rfl
    · simp [shiftNodeUp_numOccupied rem]

/-- Once the loop has moved down from slot `N`, it leaves that slot alone. -/
theorem shiftNodeUp_frame : ∀ (rem : Nat) (n : NonLeafNodeInt) (i : Int), 1 ≤ i →
    (shiftNodeUp key N rem n i).1.keyArray N = n.keyArray N ∧ i ≤ (shiftNodeUp key N rem n i).2
  | 0, _, _, _ => ⟨rfl, le_rfl⟩
  | rem + 1, n, i, hi => by
    unfold shiftNodeUp
    split
    · exact ⟨rfl, le_rfl⟩
    · obtain ⟨h1, h2⟩ := shiftNodeUp_frame rem
        ((n.setChild (N - 1 - i + 1) (n.pageNoArray (N - 1 - i))).setKey (N - 1 - i + 1) (n.keyArray (N - 1 - i)))
        (i + 1) (by omega)
      refine ⟨h1.trans ?_, by omega⟩
      simp [Function.update_noteq (show N ≠ N - 1 - i + 1 by omega)]

/-- The first step of the loop decides slot `N`: it moves the last key up there, or stops with nothing moved. -/
theorem shiftNodeUp_top (m : Nat) (n : NonLeafNodeInt) :
    (key > n.keyArray (N - 1) → shiftNodeUp key N (m + 1) n 0 = (n, 0)) ∧
    (¬key > n.keyArray (N - 1) → (shiftNodeUp key N (m + 1) n 0).1.keyArray N = n.keyArray (N - 1) ∧
      1 ≤ (shiftNodeUp key N (m + 1) n 0).2) := by
  constructor
  · intro hk
    simp only [shiftNodeUp, Int.sub_zero, if_pos hk]
  · intro hk
    simp only [shiftNodeUp, Int.sub_zero, if_neg hk]
    obtain ⟨h1, h2⟩ := shiftNodeUp_frame m
      ((n.setChild (N - 1 + 1) (n.pageNoArray (N - 1))).setKey (N - 1 + 1) (n.keyArray (N - 1))) (0 + 1) (by omega)
    refine ⟨h1.trans ?_, by omega⟩
    simp

theorem internalInsert_numOccupied (c : PageId) (splitFromLeaf : Bool) (n : NonLeafNodeInt) :
    (internalInsert key c splitFromLeaf n).numOccupied = n.numOccupied + 1 := by
  unfold internalInsert
  cases splitFromLeaf <;> simp

/-- The in-place insertion writes slot `numOccupied` of the key array: the larger of `key` and the last key. -/
theorem internalInsert_keyArray_top (c : PageId) (splitFromLeaf : Bool) (n : NonLeafNodeInt)
    (hN : 1 ≤ n.numOccupied) :
    (internalInsert key c splitFromLeaf n).keyArray n.numOccupied = max key (n.keyArray (n.numOccupied - 1)) := by
  obtain ⟨m, hm⟩ : ∃ m : Nat, n.numOccupied.toNat = m + 1 := ⟨n.numOccupied.toNat - 1, by omega⟩
  have htop := @shiftNodeUp_top key n.numOccupied m (n.setChild (n.numOccupied + 1) (n.pageNoArray n.numOccupied))
  simp only [NonLeafNodeInt.setChild_keyArray] at htop
  unfold internalInsert
  simp only [hm]
  by_cases hk : key > n.keyArray (n.numOccupied - 1)
  · -- `key` goes to slot `numOccupied`
    rw [htop.1 hk]
    cases splitFromLeaf <;> simp [max_eq_left hk.le]
  · -- the last key moves up to slot `numOccupied`; the loop and `key` stay below it
    obtain ⟨h1, h2⟩ := htop.2 hk
    generalize shiftNodeUp key n.numOccupied (m + 1) _ 0 = r at h1 h2 ⊢
    obtain ⟨n', i'⟩ := r
    simp only at h1 h2 ⊢
    cases splitFromLeaf <;>
      simp [Function.update_noteq (show n.numOccupied ≠ n.numOccupied - i' by omega), h1, max_eq_right (not_lt.1 hk)]

end InternalInsert

/-! ## The overflow test of `insertEntryInternal` -/

section Overflow

variable {s : Sys} {key : Int} {pageNo newPageNo : PageId} {splitFromLeaf : Bool}

/-- The state the in-place branch of `insertEntryInternal` leaves: page `pageNo` rewritten, then unpinned dirty. -/
def insertedInPlace (s : Sys) (key : Int) (pageNo newPageNo : PageId) (splitFromLeaf : Bool) : Sys :=
  { s with
    buf := ((s.buf.pin pageNo).write pageNo
      { s.buf.file pageNo with
        node := internalInsert key newPageNo splitFromLeaf (s.buf.file pageNo).node }).release pageNo true }

@[simp]
theorem insertedInPlace_idx : (insertedInPlace s key pageNo newPageNo splitFromLeaf).idx = s.idx := rfl

@[simp]
theorem insertedInPlace_numPages :
    (insertedInPlace s key pageNo newPageNo splitFromLeaf).buf.numPages = s.buf.numPages := rfl

theorem insertedInPlace_file_of_ne {q : PageId} (h : q ≠ pageNo) :
    (insertedInPlace s key pageNo newPageNo splitFromLeaf).buf.file q = s.buf.file q := by
  simp [insertedInPlace, Function.update_noteq h]

theorem insertedInPlace_node :
    ((insertedInPlace s key pageNo newPageNo splitFromLeaf).buf.file pageNo).node =
      internalInsert key newPageNo splitFromLeaf (s.buf.file pageNo).node := by
  simp [insertedInPlace]

/-- A node holding at most `nodeOccupancy` keys is inserted into in place, whatever `up` would do. -/
theorem insertEntryInternalWith_inPlace {up : Int → PageId → M Unit} (hv : s.buf.Valid pageNo)
    (hle : (s.buf.file pageNo).node.numOccupied ≤ s.idx.nodeOccupancy) :
    insertEntryInternalWith up key pageNo newPageNo splitFromLeaf s =
      .ok () (insertedInPlace s key pageNo newPageNo splitFromLeaf) := by
  obtain ⟨i, b, n⟩ := s
  dsimp only at *
  unfold insertEntryInternalWith
  simp only [readPage_bind_mk _ hv, members_bind_mk, gt_iff_lt, not_lt.2 hle, if_false, writeNode_bind_mk]
  exact unPinPage_mk (by simpa using BufMgr.pin_pinCount b pageNo)

theorem insertEntryInternal_inPlace {visitedNodes : List PageId} (hv : s.buf.Valid pageNo)
    (hle : (s.buf.file pageNo).node.numOccupied ≤ s.idx.nodeOccupancy) :
    insertEntryInternal key pageNo newPageNo visitedNodes splitFromLeaf s =
      .ok () (insertedInPlace s key pageNo newPageNo splitFromLeaf) := by
  cases visitedNodes <;> exact insertEntryInternalWith_inPlace hv hle

/-- **A full internal node is not split.** `insertEntryInternal` takes its in-place branch, allocating no page: the
node ends with `nodeOccupancy + 1` keys, the larger of `key` and its last key at slot `nodeOccupancy`. -/
theorem insertEntryInternal_full_not_split (s : Sys) (key : Int) (pageNo newPageNo : PageId)
    (visitedNodes : List PageId) (splitFromLeaf : Bool) (hv : s.buf.Valid pageNo)
    (hfull : (s.buf.file pageNo).node.numOccupied = s.idx.nodeOccupancy) (hI : 1 ≤ s.idx.nodeOccupancy) :
    ∃ s', insertEntryInternal key pageNo newPageNo visitedNodes splitFromLeaf s = .ok () s' ∧
      s'.idx = s.idx ∧ s'.buf.numPages = s.buf.numPages ∧ (∀ p, p ≠ pageNo → s'.buf.file p = s.buf.file p) ∧
      (s'.buf.file pageNo).node.numOccupied = s.idx.nodeOccupancy + 1 ∧
      (s'.buf.file pageNo).node.keyArray s.idx.nodeOccupancy =
        max key ((s.buf.file pageNo).node.keyArray (s.idx.nodeOccupancy - 1)) := by
  refine ⟨_, insertEntryInternal_inPlace hv hfull.le, rfl, rfl, fun p hp => insertedInPlace_file_of_ne hp, ?_, ?_⟩
  · rw [insertedInPlace_node, internalInsert_numOccupied, hfull]
  · rw [insertedInPlace_node, ← hfull]
    exact internalInsert_keyArray_top _ _ _ (by omega)

end Overflow

/-- `sample` with room for one key per internal node: its root, page 2, is full. -/
def sampleFullRoot : Sys := { sample with idx := { sample.idx with nodeOccupancy := 1 } }

/-- The theorem at `sampleFullRoot`: the separator `7` of a leaf split below the root, with the new leaf 5. -/
theorem insertEntryInternal_sample_full_root :
    (sampleFullRoot.buf.Valid 2 ∧ (sampleFullRoot.buf.file 2).node.numOccupied = sampleFullRoot.idx.nodeOccupancy ∧
      1 ≤ sampleFullRoot.idx.nodeOccupancy) ∧
    ∃ s', insertEntryInternal 7 2 5 [] true sampleFullRoot = .ok () s' ∧
      s'.idx = sampleFullRoot.idx ∧ s'.buf.numPages = sampleFullRoot.buf.numPages ∧
      (∀ p, p ≠ 2 → s'.buf.file p = sampleFullRoot.buf.file p) ∧
      (s'.buf.file 2).node.numOccupied = sampleFullRoot.idx.nodeOccupancy + 1 ∧
      (s'.buf.file 2).node.keyArray sampleFullRoot.idx.nodeOccupancy =
        max 7 ((sampleFullRoot.buf.file 2).node.keyArray (sampleFullRoot.idx.nodeOccupancy - 1)) :=
  ⟨⟨by decide, rfl, by decide⟩,
    insertEntryInternal_full_not_split sampleFullRoot 7 2 5 [] true (by decide) rfl (by decide)⟩

/-! ## A leaf split below a full parent -/

section LeafSplit

variable {s : Sys} {key : Int} {rid : RecordId} {pageNo : PageId} {visitedNodes : List PageId}

/-- A full leaf is split. -/
theorem insertEntryLeaf_full (hv : s.buf.Valid pageNo)
    (hfull : s.idx.leafOccupancy ≤ (s.buf.file pageNo).leaf.numOccupied) :
    insertEntryLeaf key rid pageNo visitedNodes s = splitLeaf key rid pageNo visitedNodes s := by
  obtain ⟨i, b, n⟩ := s
  dsimp only at *
  unfold insertEntryLeaf
  simp only [readPage_bind_mk _ hv, members_bind_mk, ge_iff_le, hfull, if_true,
    unPinPage_bind_mk _ (BufMgr.pin_pinCount _ _), BufMgr.release_pin]

/-- `splitLeaf`: the loop's two leaves go to the old page and the appended one, linked, and the separator and the
new page are handed up the path; every other page keeps its contents, every page its node and header views. -/
theorem splitLeaf_spec (hv : s.buf.Valid pageNo) :
    let r := splitLeafLoop key rid s.idx.leafOccupancy ((s.idx.leafOccupancy + 1).tdiv 2) s.idx.leafOccupancy.toNat
      { (s.buf.file pageNo).leaf with rightSibPageNo := s.buf.numPages + 1 }
      { (s.buf.fresh (s.buf.numPages + 1)).leaf with
        rightSibPageNo := (s.buf.file pageNo).leaf.rightSibPageNo, numOccupied := 0 } false 0
    ∃ s₁ : Sys, splitLeaf key rid pageNo visitedNodes s =
        (match visitedNodes with
          | parent :: rest => insertEntryInternal (r.2.keyArray 0) parent (s.buf.numPages + 1) rest true
          | [] => newRootOfLeaf pageNo (r.2.keyArray 0) (s.buf.numPages + 1)) s₁ ∧
      s₁.idx = s.idx ∧ s₁.buf.numPages = s.buf.numPages + 1 ∧
      (∀ q, q ≠ pageNo → q ≠ s.buf.numPages + 1 → s₁.buf.file q = s.buf.file q) ∧
      (s₁.buf.file pageNo).leaf = r.1 ∧ (s₁.buf.file (s.buf.numPages + 1)).leaf = r.2 ∧
      s₁.buf.fresh = s.buf.fresh ∧
      ∀ q, q ≠ s.buf.numPages + 1 → (s₁.buf.file q).node = (s.buf.file q).node ∧
        (s₁.buf.file q).meta = (s.buf.file q).meta := by
  intro r
  obtain ⟨i, b, n⟩ := s
  dsimp only at *
  have hne : pageNo ≠ b.numPages + 1 := Nat.ne_of_lt (Nat.lt_succ_of_le hv.2)
  unfold splitLeaf
  rw [readPage_bind_mk _ hv, allocPage_bind_mk]
  simp only [members_bind_mk, writeLeaf_bind_mk, BufMgr.pin_numPages]
  rw [unPinPage_bind_mk _ (by simpa using BufMgr.alloc_pinCount_of_ne_zero _ (BufMgr.pin_pinCount b pageNo))]
  simp only [writeLeaf_bind_mk]
  have hnew := BufMgr.alloc_pinCount_new (b.pin pageNo)
  rw [unPinPage_bind_mk _ (by simpa [BufMgr.release_pinCount_of_ne _ _ _ (Ne.symm hne)] using hnew)]
  refine ⟨_, rfl, rfl, rfl, fun q h1 h2 => ?_, ?_, ?_, rfl, fun q hq => ?_⟩
  · simp [Function.update_noteq h1, Function.update_noteq h2]
  · simp [Function.update_noteq hne]
    rfl
  · simp
    rfl
  · by_cases hqp : q = pageNo
    · subst hqp; simp [Function.update_noteq hq]
    · simp [Function.update_noteq hq, Function.update_noteq hqp]

/-- `splitLeaf`, without the views it keeps. -/
theorem splitLeaf_eq (hv : s.buf.Valid pageNo) :
    let r := splitLeafLoop key rid s.idx.leafOccupancy ((s.idx.leafOccupancy + 1).tdiv 2) s.idx.leafOccupancy.toNat
      { (s.buf.file pageNo).leaf with rightSibPageNo := s.buf.numPages + 1 }
      { (s.buf.fresh (s.buf.numPages + 1)).leaf with
        rightSibPageNo := (s.buf.file pageNo).leaf.rightSibPageNo, numOccupied := 0 } false 0
    ∃ s₁ : Sys, splitLeaf key rid pageNo visitedNodes s =
        (match visitedNodes with
          | parent :: rest => insertEntryInternal (r.2.keyArray 0) parent (s.buf.numPages + 1) rest true
          | [] => newRootOfLeaf pageNo (r.2.keyArray 0) (s.buf.numPages + 1)) s₁ ∧
      s₁.idx = s.idx ∧ s₁.buf.numPages = s.buf.numPages + 1 ∧
      (∀ q, q ≠ pageNo → q ≠ s.buf.numPages + 1 → s₁.buf.file q = s.buf.file q) ∧
      (s₁.buf.file pageNo).leaf = r.1 ∧ (s₁.buf.file (s.buf.numPages + 1)).leaf = r.2 :=
  let ⟨s₁, h, hidx, hnum, hfile, hl, hr, _⟩ := @splitLeaf_spec s key rid pageNo visitedNodes hv
  ⟨s₁, h, hidx, hnum, hfile, hl, hr⟩

/-- `splitLeaf` below a parent `p`: it rewrites the leaf and fills one new page, changing no member and no other
page, and hands a separator and the new page to `insertEntryInternal` on `p`. -/
theorem splitLeaf_to_parent {p : PageId} {rest : List PageId} (hv : s.buf.Valid pageNo) :
    ∃ (k : Int) (s₁ : Sys),
      splitLeaf key rid pageNo (p :: rest) s = insertEntryInternal k p (s.buf.numPages + 1) rest true s₁ ∧
      s₁.idx = s.idx ∧ s₁.buf.numPages = s.buf.numPages + 1 ∧
      ∀ q, q ≠ pageNo → q ≠ s.buf.numPages + 1 → s₁.buf.file q = s.buf.file q :=
  let ⟨s₁, h, hidx, hnum, hfile, _⟩ := @splitLeaf_eq s key rid pageNo (p :: rest) hv
  ⟨_, s₁, h, hidx, hnum, hfile⟩

/-- `insertEntry` inserts into the leaf `searchEntry` returns, with the path it returns. -/
theorem insertEntry_of_search {l : PageId} {ps : List PageId}
    (h : searchEntry key s.buf.numPages s.idx.rootPageNum [] s = .ok (l, ps) s) :
    insertEntry key rid s = insertEntryLeaf key rid l ps s := by
  unfold insertEntry
  simp only [searchFuel_bind, members_bind]
  exact bind_ok h

/-- **An insertion that overfills an internal node.** A full leaf under a parent holding `nodeOccupancy` keys is
split, and the separator inserted in place: the parent ends with `nodeOccupancy + 1` keys. -/
theorem insertEntry_overfills_parent {l p : PageId} {rest : List PageId}
    (hsearch : searchEntry key s.buf.numPages s.idx.rootPageNum [] s = .ok (l, p :: rest) s)
    (hl : s.buf.Valid l) (hleaf : s.idx.leafOccupancy ≤ (s.buf.file l).leaf.numOccupied)
    (hp : s.buf.Valid p) (hpl : p ≠ l) (hfull : (s.buf.file p).node.numOccupied = s.idx.nodeOccupancy) :
    ∃ s', insertEntry key rid s = .ok () s' ∧ s'.idx = s.idx ∧
      (s'.buf.file p).node.numOccupied = s.idx.nodeOccupancy + 1 := by
  -- the full leaf is split below `p`, which the split leaves as it was
  obtain ⟨k, s₁, hsplit, hidx, hnum, hfile⟩ := @splitLeaf_to_parent s key rid l p rest hl
  have hnode : s₁.buf.file p = s.buf.file p := hfile p hpl (Nat.ne_of_lt (Nat.lt_succ_of_le hp.2))
  have hp₁ : s₁.buf.Valid p := ⟨hp.1, hnum ▸ Nat.le_succ_of_le hp.2⟩
  refine ⟨insertedInPlace s₁ k p (s.buf.numPages + 1) true, ?_, hidx, ?_⟩
  · rw [insertEntry_of_search hsearch, insertEntryLeaf_full hl hleaf, hsplit,
      insertEntryInternal_inPlace hp₁ (by rw [hnode, hidx, hfull])]
  · rw [insertedInPlace_node, internalInsert_numOccupied, hnode, hfull]

end LeafSplit

/-- A new index over an empty relation with room for two entries per leaf and one key per internal node. -/
def smallIndex : Sys := after (constructIndex ⟨2, 1⟩ "rel" 0 .INTEGER false [] sampleFresh)

/-- The theorem at `sampleFullRoot`: the key `3` descends to page 3, a full leaf under the full root. Such a state is
reached from `smallIndex` by inserting `1, 2, 3`, and inserting `4` then leaves two keys in the root. -/
theorem insertEntry_sample_overfills_root :
    (searchEntry 3 sampleFullRoot.buf.numPages sampleFullRoot.idx.rootPageNum [] sampleFullRoot =
        .ok (3, [2]) sampleFullRoot ∧
      sampleFullRoot.buf.Valid 3 ∧ sampleFullRoot.idx.leafOccupancy ≤ (sampleFullRoot.buf.file 3).leaf.numOccupied ∧
      sampleFullRoot.buf.Valid 2 ∧ (2 : PageId) ≠ 3 ∧
      (sampleFullRoot.buf.file 2).node.numOccupied = sampleFullRoot.idx.nodeOccupancy) ∧
    (∃ s', insertEntry 3 ⟨1, 3⟩ sampleFullRoot = .ok () s' ∧ s'.idx = sampleFullRoot.idx ∧
      (s'.buf.file 2).node.numOccupied = sampleFullRoot.idx.nodeOccupancy + 1) ∧
    let r := runCalls [.insertEntry 1 ⟨1, 1⟩, .insertEntry 2 ⟨1, 2⟩, .insertEntry 3 ⟨1, 3⟩, .insertEntry 4 ⟨1, 4⟩]
      smallIndex
    r.1 = [.ok none, .ok none, .ok none, .ok none] ∧ r.2.idx.rootPageNum = 4 ∧ r.2.idx.nodeOccupancy = 1 ∧
      (r.2.buf.file 4).node.numOccupied = 2 :=
  have hsearch : searchEntry 3 sampleFullRoot.buf.numPages sampleFullRoot.idx.rootPageNum [] sampleFullRoot =
      .ok (3, [2]) sampleFullRoot := by
    change searchEntry 3 (3 + 1) 2 [] sampleFullRoot = _
    rw [searchEntry_node rfl (by decide)]
    rfl
  ⟨⟨hsearch, by decide, by decide, by decide, by decide, rfl⟩,
    insertEntry_overfills_parent hsearch (by decide) (by decide) (by decide) (by decide) rfl,
    rfl, rfl, rfl, rfl⟩

/-! ## New roots -/

section NewRoot

/-- A new root: page `numPages + 1`, made the root, whose `numOccupied` is what the allocated page held, plus one. -/
theorem newRoot_counts_fresh (s : Sys) (pageNo newPageNo : PageId) (key : Int)
    (hh : s.buf.Valid s.idx.headerPageNum) :
    (∃ s', newRootOfLeaf pageNo key newPageNo s = .ok () s' ∧ s'.idx.rootPageNum = s.buf.numPages + 1 ∧
      (s'.buf.file (s.buf.numPages + 1)).node.numOccupied =
        (s.buf.fresh (s.buf.numPages + 1)).node.numOccupied + 1) ∧
    (∃ s', newRootOfInternal pageNo key newPageNo s = .ok () s' ∧ s'.idx.rootPageNum = s.buf.numPages + 1 ∧
      (s'.buf.file (s.buf.numPages + 1)).node.numOccupied =
        (s.buf.fresh (s.buf.numPages + 1)).node.numOccupied + 1) := by
  obtain ⟨i, b, n⟩ := s
  dsimp only at *
  have hh' : b.alloc.Valid i.headerPageNum := ⟨hh.1, Nat.le_succ_of_le hh.2⟩
  have hne : i.headerPageNum ≠ b.numPages + 1 := Nat.ne_of_lt (Nat.lt_succ_of_le hh.2)
  -- the two paths make the same calls, on nodes that differ in their children and level
  refine ⟨?_, ?_⟩ <;> [unfold newRootOfLeaf; unfold newRootOfInternal] <;>
  · rw [allocPage_bind_mk]
    dsimp only
    rw [writeNode_bind_mk, unPinPage_bind_mk, setMembers_bind_mk, members_bind_mk, readPage_bind_mk,
      writeMeta_bind_mk]
    · refine ⟨_, unPinPage_mk ?_, rfl, ?_⟩
      · simpa using BufMgr.pin_pinCount _ _
      · simp [Function.update_noteq (Ne.symm hne)]
    · exact hh'
    · simpa using BufMgr.alloc_pinCount_new b

/-- A page whose node view counts three keys, as a page the buffer manager hands out may. -/
def garbagePage : Page := { Page.zero with node := { Page.zero.node with numOccupied := 3 } }

/-- A tree of one leaf, page 2, holding `1, 2` with room for two entries; page 1 is the header, and `allocPage`
gives a page with the contents `fresh`. -/
def rootLeaf (fresh : PageId → Page) : Sys where
  idx :=
    { headerPageNum := 1, rootPageNum := 2, attrByteOffset := 0, attributeType := .INTEGER, leafOccupancy := 2,
      nodeOccupancy := 2, onlyOneRoot := true, scanExecuting := false, nextEntry := 0, currentPageNum := 0,
      lowValInt := 0, highValInt := 0, lowOp := .GTE, highOp := .LTE }
  buf :=
    { file := fun
        | 1 => { Page.zero with meta := { Page.zero.meta with rootPageNo := 2 } }
        | _ => { Page.zero with leaf := sampleLeaf [1, 2] INVALID_NUMBER }
      numPages := 2, fresh := fresh, pinCount := fun _ => 0, pending := fun _ => false }
  indeterminate := 0

/-- The two leaves of `sample` under a new root on a `garbagePage` count four keys; inserting `3` into `rootLeaf`
makes such a root, and a scan of `[3, 6]` finds the rid with zeroed pages and fails with garbage ones. -/
theorem newRoot_garbage_sample :
    ({ sample with buf := { sample.buf with fresh := fun _ => garbagePage } } : Sys).buf.Valid 1 ∧
    (∃ s', newRootOfLeaf 3 5 4 { sample with buf := { sample.buf with fresh := fun _ => garbagePage } } = .ok () s' ∧
      s'.idx.rootPageNum = 5 ∧ (s'.buf.file 5).node.numOccupied = 4) ∧
    (runCalls [.insertEntry 3 ⟨1, 3⟩, .startScan 3 .GTE 6 .LTE, .scanNext] (rootLeaf fun _ => Page.zero)).1 =
      [.ok none, .ok none, .ok (some ⟨1, 3⟩)] ∧
    (runCalls [.insertEntry 3 ⟨1, 3⟩, .startScan 3 .GTE 6 .LTE] (rootLeaf fun _ => garbagePage)).1 =
      [.ok none, .error .InvalidPage] :=
  ⟨by decide, (newRoot_counts_fresh _ 3 4 5 (by decide)).1, rfl, rfl⟩

end NewRoot

end BadgerBTree
