import BadgerBTree.StartScan
import BadgerBTree.Lifecycle

/-!
# `scanNext` and whole scans

`scanNext` hands out the rid of the slot the scan is on and moves on: to the next slot of the leaf when its key
meets the high bound, and past the leaf's last slot to the right sibling's slot `0` when that key is below `high`,
under `LTE` too (`scanNext_moves_to_next_entry`). A scan therefore stops before an `LTE` bound that is the first key
of a leaf it steps into.

Over a tree without empty leaves, a scan is a walk along the tree's entries, one entry a call (`scanNext_step_at`,
`scanNext_run`). When the leaf `searchEntry` returns for the low bound holds an entry meeting it, `startScan`
followed by `scanNext` until `IndexScanCompleted` returns the rids of the entries in range in key order, less that
bound's entry; when the leaf holds none, `startScan`'s loop leaves `nextEntry = -1`, which its test against
`numOccupied` misses, and no rid is returned (`scan_returns_entries_in_range`).
-/

namespace BadgerBTree

/-! ## One call -/

section Steps

variable {s : Sys} {l l' : PageId} {j : Int}

theorem scanNext_inactive (h : s.idx.scanExecuting = false) : scanNext s = .error .ScanNotInitialized s := by
  unfold scanNext
  simp only [members_bind, h, Bool.not_false, if_true]
  rfl

theorem scanNext_done (ha : s.idx.scanExecuting = true) (hv : s.buf.Valid s.idx.currentPageNum)
    (hj : s.idx.nextEntry = -1) : scanNext s = .error .IndexScanCompleted s := by
  obtain ⟨i, b, n⟩ := s
  dsimp only at *
  unfold scanNext
  simp only [members_bind, ha, Bool.not_true, Bool.false_eq_true, if_false, readPage_bind_mk _ hv, hj, if_true,
    unPinPage_bind_mk _ (BufMgr.pin_pinCount _ _), BufMgr.release_pin]
  rfl

/-- A next slot in the same leaf. -/
theorem scanNext_inLeaf (ha : s.idx.scanExecuting = true) (hcur : s.idx.currentPageNum = l) (hv : s.buf.Valid l)
    (hj : s.idx.nextEntry = j) (hj1 : j ≠ -1) (hin : j + 1 < (s.buf.file l).leaf.numOccupied) :
    scanNext s = .ok ((s.buf.file l).leaf.ridArray j)
      { s with
        idx := { s.idx with
          nextEntry :=
            if (s.buf.file l).leaf.keyArray (j + 1) = s.idx.highValInt ∧ s.idx.highOp ≠ .LTE then -1
            else if (s.buf.file l).leaf.keyArray (j + 1) ≤ s.idx.highValInt then j + 1 else -1 } } := by
  obtain ⟨i, b, n⟩ := s
  dsimp only at *
  subst hcur hj
  unfold scanNext
  simp only [members_bind, ha, Bool.not_true, Bool.false_eq_true, if_false, readPage_bind_mk _ hv, if_neg hj1, hin,
    if_true]
  split_ifs <;>
    simp only [unPinPage_bind_mk _ (BufMgr.pin_pinCount _ _), BufMgr.release_pin, setMembers_bind,
      unPinPage_mk (BufMgr.pin_pinCount _ _), ha] <;>
    rfl

/-- Past the last slot of the last leaf. -/
theorem scanNext_lastLeaf (ha : s.idx.scanExecuting = true) (hcur : s.idx.currentPageNum = l) (hv : s.buf.Valid l)
    (hj : s.idx.nextEntry = j) (hj1 : j ≠ -1) (hin : ¬j + 1 < (s.buf.file l).leaf.numOccupied)
    (hsib : (s.buf.file l).leaf.rightSibPageNo = INVALID_NUMBER) :
    scanNext s = .ok ((s.buf.file l).leaf.ridArray j) { s with idx := { s.idx with nextEntry := -1 } } := by
  obtain ⟨i, b, n⟩ := s
  dsimp only at *
  subst hcur hj
  unfold scanNext
  simp only [members_bind, ha, Bool.not_true, Bool.false_eq_true, if_false, readPage_bind_mk _ hv, if_neg hj1, hin,
    hsib, if_true, unPinPage_bind_mk _ (BufMgr.pin_pinCount _ _), BufMgr.release_pin, setMembers_bind]
  rfl

/-- Past the last slot of a leaf with a right sibling `l'`. -/
theorem scanNext_toSibling (ha : s.idx.scanExecuting = true) (hcur : s.idx.currentPageNum = l) (hv : s.buf.Valid l)
    (hj : s.idx.nextEntry = j) (hj1 : j ≠ -1) (hin : ¬j + 1 < (s.buf.file l).leaf.numOccupied)
    (hsib : (s.buf.file l).leaf.rightSibPageNo = l') (hv' : s.buf.Valid l') :
    scanNext s = .ok ((s.buf.file l).leaf.ridArray j)
      { s with
        idx := { s.idx with
          currentPageNum := l'
          nextEntry :=
            if (s.buf.file l').leaf.numOccupied = 0 then -1
            else if (s.buf.file l').leaf.keyArray 0 = s.idx.highValInt ∧ s.idx.highOp ≠ .LTE then -1
            else if (s.buf.file l').leaf.keyArray 0 < s.idx.highValInt then 0 else -1 } } := by
  have hne : (s.buf.file l).leaf.rightSibPageNo ≠ INVALID_NUMBER := hsib ▸ Nat.pos_iff_ne_zero.1 hv'.1
  obtain ⟨i, b, n⟩ := s
  dsimp only at *
  subst hcur hj hsib
  unfold scanNext
  simp only [members_bind, ha, Bool.not_true, Bool.false_eq_true, if_false, readPage_bind_mk _ hv, if_neg hj1, hin,
    hne, unPinPage_bind_mk _ (BufMgr.pin_pinCount _ _), BufMgr.release_pin, setMembers_bind, readPage_bind_mk _ hv']
  split_ifs <;>
    simp only [unPinPage_bind_mk _ (BufMgr.pin_pinCount _ _), BufMgr.release_pin, setMembers_bind,
      unPinPage_mk (BufMgr.pin_pinCount _ _), ha] <;>
    rfl

end Steps

/-! ## The two tests against the high bound -/

section Tests

variable {highOp : Operator} {high k : Int}

/-- The in-leaf test keeps a key exactly when it meets the high bound. -/
theorem inLeaf_test_eq (hop : highOp = .LT ∨ highOp = .LTE) (x : Int) :
    (if k = high ∧ highOp ≠ .LTE then -1 else if k ≤ high then x else -1) = if highOk highOp high k then x else -1 := by
  rcases hop with rfl | rfl <;> by_cases hk : k = high <;> by_cases hk' : k < high <;>
    simp [highOk, hk, hk', le_iff_lt_or_eq]

/-- The sibling test keeps a key exactly when it is below the high bound, under `LTE` too. -/
theorem sibling_test_eq (x : Int) :
    (if k = high ∧ highOp ≠ .LTE then -1 else if k < high then x else -1) = if k < high then x else -1 := by
  by_cases hk : k < high
  · rw [if_neg fun h => hk.ne h.1]
  · simp [hk]

end Tests

/-! ## One call on a tree -/

section OnTree

variable {s : Sys} {d : Nat} {es : List Entry} {ls lsL lsR : List PageId} {l : PageId} {j : Nat}

/-- **One `scanNext` on a tree.** It returns the slot's rid and moves to the next slot when its key meets the high
bound, past the leaf's end to the next leaf's slot `0` when that key is below `high`, and otherwise to the sentinel. -/
theorem scanNext_moves_to_next_entry (hs : Shape s d es ls) (hls : ls = lsL ++ l :: lsR)
    (ha : s.idx.scanExecuting = true) (hhi : s.idx.highOp = .LT ∨ s.idx.highOp = .LTE)
    (hcur : s.idx.currentPageNum = l) (hj : s.idx.nextEntry = j) (hjN : j < (s.buf.file l).leaf.numOccupied.toNat) :
    ∃ s', scanNext s = .ok ((s.buf.file l).leaf.ridArray j) s' ∧
      s' = { s with idx := { s.idx with currentPageNum := s'.idx.currentPageNum, nextEntry := s'.idx.nextEntry } } ∧
      (j + 1 < (s.buf.file l).leaf.numOccupied.toNat → s'.idx.currentPageNum = l ∧
        s'.idx.nextEntry =
          if highOk s.idx.highOp s.idx.highValInt ((s.buf.file l).leaf.keyArray ((j : Int) + 1)) then (j : Int) + 1
          else -1) ∧
      ((s.buf.file l).leaf.numOccupied.toNat = j + 1 → lsR = [] →
        s'.idx.currentPageNum = l ∧ s'.idx.nextEntry = -1) ∧
      (∀ l' lsR', (s.buf.file l).leaf.numOccupied.toNat = j + 1 → lsR = l' :: lsR' →
        s'.idx.currentPageNum = l' ∧ ((s.buf.file l').leaf.numOccupied = 0 → s'.idx.nextEntry = -1) ∧
        (0 < (s.buf.file l').leaf.numOccupied →
          s'.idx.nextEntry = if (s.buf.file l').leaf.keyArray 0 < s.idx.highValInt then 0 else -1)) ∧
      (s'.idx.nextEntry = -1 → scanNext s' = .error .IndexScanCompleted s') := by
  subst hls
  have hv : s.buf.Valid l := hs.valid_leaf (by simp)
  by_cases hin : j + 1 < (s.buf.file l).leaf.numOccupied.toNat
  · -- the next slot of the same leaf
    refine ⟨_, scanNext_inLeaf ha hcur hv hj (by omega) (by omega), rfl, fun _ => ⟨hcur, inLeaf_test_eq hhi _⟩,
      fun h => absurd h (by omega), fun _ _ h => absurd h (by omega), fun he => scanNext_done ha (hcur ▸ hv) he⟩
  cases lsR with
  | nil =>
    -- the last leaf
    refine ⟨_, scanNext_lastLeaf ha hcur hv hj (by omega) (by omega) hs.rightSib_last, rfl, fun h => absurd h hin,
      fun _ _ => ⟨hcur, rfl⟩, fun _ _ _ h => List.noConfusion h, fun _ => scanNext_done ha (hcur ▸ hv) rfl⟩
  | cons l' lsR =>
    -- the next leaf
    have hv' : s.buf.Valid l' := hs.valid_leaf (by simp)
    refine ⟨_, scanNext_toSibling ha hcur hv hj (by omega) (by omega) hs.rightSib_next hv', rfl,
      fun h => absurd h hin, fun _ h => List.noConfusion h, ?_, fun he => scanNext_done ha hv' he⟩
    rintro _ _ _ ⟨⟩
    refine ⟨rfl, fun h0 => if_pos h0, fun hpos => ?_⟩
    show (if _ then _ else _) = _
    rw [if_neg (by omega)]
    exact sibling_test_eq _

end OnTree

/-- Two leaves under a new root, as a split leaves them: page 4, with the separator `3`, over page 2 (`1, 2`) and
page 3 (`3, 4`), with room for three entries a leaf and three keys a node. -/
def splitSample : Sys where
  idx := { sample.idx with rootPageNum := 4, leafOccupancy := 3, nodeOccupancy := 3 }
  buf :=
    { file := fun
        | 1 => { Page.zero with meta := { Page.zero.meta with rootPageNo := 4 } }
        | 2 => { Page.zero with leaf := sampleLeaf [1, 2] 3 }
        | 3 => { Page.zero with leaf := sampleLeaf [3, 4] INVALID_NUMBER }
        | _ => { Page.zero with node := ⟨1, 1, fun _ => 3, fun j => if j = 0 then 2 else 3⟩ }
      numPages := 4, fresh := fun _ => Page.zero, pinCount := fun _ => 0, pending := fun _ => false }
  indeterminate := 0

/-- The entries of `splitSample`, in order. -/
def splitSampleEntries : List Entry := (splitSample.buf.file 2).leaf.entries ++ (splitSample.buf.file 3).leaf.entries

theorem splitSample_shape : Shape splitSample 1 splitSampleEntries [2, 3] where
  tree := by
    refine ⟨by decide, by decide, by decide, rfl, ?_⟩
    show Children (Subtree splitSample.buf 3 3 0) none [3] [2, 3] _ [2, 3]
    exact @Children.cons _ none 3 [] 2 [3] _ _ [2] [3] ⟨by decide, by decide, by decide, by decide, rfl, rfl⟩ trivial
      (by decide) (.last ⟨by decide, by decide, by decide, by decide, rfl, rfl⟩ rfl)
  linked := ⟨rfl, rfl⟩
  distinct := by decide
  onlyOneRoot := by decide
  header := rfl

/-- `splitSample` with a scan of `[1, 3]` under `LTE` on slot 1 of page 2, the key `2`. -/
def splitScanAtTwo : Sys :=
  { splitSample with
    idx := { splitSample.idx with
      scanExecuting := true, currentPageNum := 2, nextEntry := 1, lowValInt := 1, highValInt := 3 } }

/-- A scan of `[1, 3]` under `LTE` on the key `2` of `splitSample`: page 3 starts with `3`, which meets the
bound, yet `scanNext` moves to page 3 with the sentinel, and the next call raises `IndexScanCompleted`. -/
theorem scanNext_split_sample_at_two :
    Shape splitScanAtTwo 1 splitSampleEntries [2, 3] ∧ highOk .LTE 3 ((splitScanAtTwo.buf.file 3).leaf.keyArray 0) ∧
      ∃ s', scanNext splitScanAtTwo = .ok ⟨1, 2⟩ s' ∧ s'.idx.currentPageNum = 3 ∧ s'.idx.nextEntry = -1 ∧
        scanNext s' = .error .IndexScanCompleted s' := by
  have hs : Shape splitScanAtTwo 1 splitSampleEntries [2, 3] := Shape.of_idx splitSample_shape rfl rfl rfl rfl rfl rfl
  obtain ⟨s', hstep, -, -, -, hsib, hdone⟩ := scanNext_moves_to_next_entry hs (show [2, 3] = [] ++ 2 :: [3] from rfl)
    rfl (.inr rfl) rfl (show splitScanAtTwo.idx.nextEntry = ((1 : Nat) : Int) from rfl) (by decide)
  obtain ⟨hcur, -, hnext⟩ := hsib 3 [] (by decide) rfl
  have hend : s'.idx.nextEntry = -1 := (hnext (by decide)).trans (if_neg (by decide))
  exact ⟨hs, rfl, s', hstep, hcur, hend, hdone hend⟩

/-! ## Scans as walks along the entries -/

/-- The scan of `s` is on entry `g` of the entries of the leaves `ls`, in order: on slot `j` of leaf `l`, after
leaves holding `g - j` entries. -/
def ScanAt (s : Sys) (ls : List PageId) (g : Nat) : Prop :=
  ∃ (lsL : List PageId) (l : PageId) (lsR : List PageId) (j : Nat), ls = lsL ++ l :: lsR ∧ s.idx.currentPageNum = l ∧ s.idx.nextEntry = j ∧
    j < (s.buf.file l).leaf.numOccupied.toNat ∧ (leafEntries s.buf lsL).length + j = g

/-- The test a walk over the leaves `ls` applies to the key it moves to: the high bound, read as `LT` when it is an
`LTE` bound that is the first key of a leaf, which `scanNext` reaches by its sibling test. -/
def nextOk (s : Sys) (ls : List PageId) (k : Int) : Bool :=
  if s.idx.highOp = .LTE ∧ ∃ l ∈ ls, (s.buf.file l).leaf.keyArray 0 = s.idx.highValInt then
    highOk .LT s.idx.highValInt k
  else highOk s.idx.highOp s.idx.highValInt k

theorem getElem?_of_drop_eq_cons {es rest : List Entry} {g : Nat} {e : Entry} (h : es.drop g = e :: rest) :
    es[g]? = some e := by
  have := congrArg (·[0]?) h
  simp only [List.getElem?_drop, Nat.add_zero, List.getElem?_cons_zero] at this
  exact this

/-- On ascending keys, the entries below `k` from the start are those up to `k` but the one whose key is `k`. -/
theorem takeWhile_highOk_lt {k : Int} : ∀ {xs : List Entry}, Ascending xs →
    xs.takeWhile (fun e => highOk .LT k e.1) = (xs.takeWhile fun e => highOk .LTE k e.1).filter fun e => e.1 ≠ k
  | [], _ => rfl
  | x :: xs, h => by
    obtain ⟨hx, h⟩ := ascending_cons.1 h
    rcases lt_trichotomy x.1 k with hlt | heq | hgt
    · -- `x` is below `k`
      rw [List.takeWhile_cons_of_pos (by simpa [highOk] using hlt),
        List.takeWhile_cons_of_pos (by simpa [highOk] using hlt.le), List.filter_cons_of_pos (by simpa using hlt.ne),
        takeWhile_highOk_lt h]
    · -- `x` is `k`, and the keys after it are above `k`
      have hnil : xs.takeWhile (fun e => highOk .LTE k e.1) = [] := by
        cases xs with
        | nil => rfl
        | cons y ys => exact List.takeWhile_cons_of_neg (by simpa [highOk, heq] using hx y (List.mem_cons_self _ _))
      rw [List.takeWhile_cons_of_neg (by simp [highOk, heq]), List.takeWhile_cons_of_pos (by simp [highOk, heq]),
        hnil, List.filter_singleton]
      simp [heq]
    · -- `x` is above `k`
      rw [List.takeWhile_cons_of_neg (by simp [highOk]; omega), List.takeWhile_cons_of_neg (by simp [highOk]; omega)]
      rfl

section Walk

variable {s : Sys} {d : Nat} {es : List Entry} {ls lsL lsR : List PageId} {l l' : PageId} {g j : Nat}

/-- A key first in a leaf is kept when it is below the high bound. -/
theorem nextOk_first (hhi : s.idx.highOp = .LT ∨ s.idx.highOp = .LTE) (hl : l ∈ ls) :
    nextOk s ls ((s.buf.file l).leaf.keyArray 0) = decide ((s.buf.file l).leaf.keyArray 0 < s.idx.highValInt) := by
  unfold nextOk
  split_ifs with h
  · rfl
  · rcases hhi with hop | hop
    · simp [highOk, hop]
    · have hk : (s.buf.file l).leaf.keyArray 0 ≠ s.idx.highValInt := fun hk => h ⟨hop, l, hl, hk⟩
      simp [highOk, hop, lt_iff_le_and_ne, hk]

/-- A key first in no leaf is kept when it meets the high bound. -/
theorem nextOk_not_first {k : Int} (hk : ∀ l ∈ ls, (s.buf.file l).leaf.keyArray 0 ≠ k) :
    nextOk s ls k = highOk s.idx.highOp s.idx.highValInt k := by
  unfold nextOk
  split_ifs with h
  · obtain ⟨hop, l, hl, hl0⟩ := h
    have : k ≠ s.idx.highValInt := fun h' => hk l hl (hl0.trans h'.symm)
    simp [highOk, hop, lt_iff_le_and_ne, this]
  · rfl

/-- Over leaves that all hold an entry, a key past the first slot of its leaf is the first key of no leaf. -/
theorem Shape.slot_ne_first (hs : Shape s d es (lsL ++ l :: lsR))
    (hne : ∀ q ∈ lsL ++ l :: lsR, 0 < (s.buf.file q).leaf.numOccupied) {i : Nat} (hi0 : 0 < i)
    (hi : i < (s.buf.file l).leaf.numOccupied.toNat) :
    ∀ l' ∈ lsL ++ l :: lsR, (s.buf.file l').leaf.keyArray 0 ≠ (s.buf.file l).leaf.keyArray i := by
  have hasc : Ascending (leafEntries s.buf lsL ++ (s.buf.file l).leaf.entries ++ leafEntries s.buf lsR) :=
    hs.entries_around rfl ▸ hs.ascending
  have hx : ((s.buf.file l).leaf.keyArray i, (s.buf.file l).leaf.ridArray i) ∈ (s.buf.file l).leaf.entries :=
    LeafNodeInt.mem_entries.2 ⟨i, hi, rfl⟩
  intro l' hl'
  have hy : ((s.buf.file l').leaf.keyArray 0, (s.buf.file l').leaf.ridArray 0) ∈ (s.buf.file l').leaf.entries :=
    LeafNodeInt.mem_entries.2 ⟨0, by have := hne l' hl'; omega, rfl⟩
  rw [List.mem_append, List.mem_cons] at hl'
  rcases hl' with hl' | rfl | hl'
  · -- a leaf before `l`
    exact ne_of_lt
      ((ascending_append_iff.1 (ascending_append_iff.1 hasc).1).2.2 _ (List.mem_flatMap.2 ⟨l', hl', hy⟩) _ hx)
  · -- `l` itself
    obtain ⟨-, -, -, hleaf, -⟩ := subtree_leaf d hs.tree l' (by simp)
    exact ne_of_lt (LeafNodeInt.keyArray_lt hleaf hi0 hi)
  · -- a leaf after `l`
    exact ne_of_gt
      ((ascending_append_iff.1 hasc).2.2 _ (List.mem_append_right _ hx) _ (List.mem_flatMap.2 ⟨l', hl', hy⟩))

/-- One `scanNext` on entry `g` of the entries of `ls`: it returns the entry's rid and changes only the page and
slot, moving to entry `g + 1` if that passes the walk's test; else the next call raises `IndexScanCompleted`. -/
def StepsFrom (s : Sys) (es : List Entry) (ls : List PageId) (g : Nat) : Prop :=
  ∃ (e : Entry) (c : PageId) (x : Int), es[g]? = some e ∧
    scanNext s = .ok e.2 { s with idx := { s.idx with currentPageNum := c, nextEntry := x } } ∧
    (∀ e', es[g + 1]? = some e' → nextOk s ls e'.1 = true →
      ScanAt { s with idx := { s.idx with currentPageNum := c, nextEntry := x } } ls (g + 1)) ∧
    ((∀ e', es[g + 1]? = some e' → nextOk s ls e'.1 = false) →
      scanNext { s with idx := { s.idx with currentPageNum := c, nextEntry := x } } =
        .error .IndexScanCompleted { s with idx := { s.idx with currentPageNum := c, nextEntry := x } })

/-- The entries from slot `0` of the leaf `l` on. -/
theorem Shape.getElem?_from (hs : Shape s d es (lsL ++ l :: lsR)) (i : Nat) :
    es[(leafEntries s.buf lsL).length + i]? = ((s.buf.file l).leaf.entries ++ leafEntries s.buf lsR)[i]? := by
  rw [hs.entries_around rfl]
  simp [List.append_assoc, List.getElem?_append_right]

/-- Slot `i` of the leaf `l`. -/
theorem Shape.getElem?_slot (hs : Shape s d es (lsL ++ l :: lsR)) {i : Nat}
    (hi : i < (s.buf.file l).leaf.numOccupied.toNat) :
    es[(leafEntries s.buf lsL).length + i]? = some ((s.buf.file l).leaf.keyArray i, (s.buf.file l).leaf.ridArray i) := by
  rw [hs.getElem?_from, List.getElem?_append_left (by simpa using hi)]
  simp [hi]

/-- A next slot in the same leaf, whose key is first in no leaf: the walk's test is the high bound. -/
theorem stepsFrom_inLeaf (hs : Shape s d es (lsL ++ l :: lsR))
    (hne : ∀ q ∈ lsL ++ l :: lsR, 0 < (s.buf.file q).leaf.numOccupied) (ha : s.idx.scanExecuting = true)
    (hhi : s.idx.highOp = .LT ∨ s.idx.highOp = .LTE) (hcur : s.idx.currentPageNum = l) (hj : s.idx.nextEntry = j)
    (hin : j + 1 < (s.buf.file l).leaf.numOccupied.toNat) :
    StepsFrom s es (lsL ++ l :: lsR) ((leafEntries s.buf lsL).length + j) := by
  have hv : s.buf.Valid l := hs.valid_leaf (by simp)
  have hnext : es[(leafEntries s.buf lsL).length + j + 1]? =
      some ((s.buf.file l).leaf.keyArray ((j : Int) + 1), (s.buf.file l).leaf.ridArray ((j : Int) + 1)) := by
    rw [Nat.add_assoc, hs.getElem?_slot hin]
    push_cast
    rfl
  have htest : nextOk s (lsL ++ l :: lsR) ((s.buf.file l).leaf.keyArray ((j : Int) + 1)) =
      highOk s.idx.highOp s.idx.highValInt ((s.buf.file l).leaf.keyArray ((j : Int) + 1)) := by
    have := hs.slot_ne_first hne (Nat.succ_pos j) hin
    push_cast at this
    exact nextOk_not_first this
  refine ⟨_, _, _, hs.getElem?_slot (by omega), scanNext_inLeaf ha hcur hv hj (by omega) (by omega),
    fun e' he' hhigh => ?_, fun hout => ?_⟩
  · rw [hnext, Option.some.injEq] at he'
    subst he'
    refine ⟨lsL, l, lsR, j + 1, rfl, hcur, ?_, hin, rfl⟩
    show (if _ then _ else _) = _
    rw [inLeaf_test_eq hhi, ← htest, if_pos hhigh]
    push_cast
    rfl
  · refine scanNext_done ha (hcur ▸ hv) ?_
    show (if _ then _ else _) = _
    rw [inLeaf_test_eq hhi, ← htest, if_neg (by simpa using hout _ hnext)]

/-- The last slot of the last leaf: there is no next entry. -/
theorem stepsFrom_last (hs : Shape s d es (lsL ++ [l])) (ha : s.idx.scanExecuting = true)
    (hcur : s.idx.currentPageNum = l) (hj : s.idx.nextEntry = j)
    (hlast : j + 1 = (s.buf.file l).leaf.numOccupied.toNat) :
    StepsFrom s es (lsL ++ [l]) ((leafEntries s.buf lsL).length + j) := by
  have hv : s.buf.Valid l := hs.valid_leaf (by simp)
  have hnone : es[(leafEntries s.buf lsL).length + j + 1]? = none := by
    rw [Nat.add_assoc, hs.getElem?_from]
    simp [LeafNodeInt.length_entries, leafEntries]
    omega
  refine ⟨_, _, _, hs.getElem?_slot (by omega), scanNext_lastLeaf ha hcur hv hj (by omega) (by omega) hs.rightSib_last,
    fun e' he' => absurd he' (by simp [hnone]), fun _ => scanNext_done ha (hcur ▸ hv) rfl⟩

/-- The last slot of a leaf with a right sibling `l'` that holds an entry: the next entry is the first of `l'`, and
the sibling test is the walk's test on it. -/
theorem stepsFrom_sibling (hs : Shape s d es (lsL ++ l :: l' :: lsR)) (hpos : 0 < (s.buf.file l').leaf.numOccupied)
    (ha : s.idx.scanExecuting = true) (hhi : s.idx.highOp = .LT ∨ s.idx.highOp = .LTE)
    (hcur : s.idx.currentPageNum = l) (hj : s.idx.nextEntry = j)
    (hlast : j + 1 = (s.buf.file l).leaf.numOccupied.toNat) :
    StepsFrom s es (lsL ++ l :: l' :: lsR) ((leafEntries s.buf lsL).length + j) := by
  have hv : s.buf.Valid l := hs.valid_leaf (by simp)
  have hv' : s.buf.Valid l' := hs.valid_leaf (by simp)
  have hE : (s.buf.file l).leaf.entries.length = j + 1 := by rw [LeafNodeInt.length_entries]; omega
  have hE' : 0 < (s.buf.file l').leaf.entries.length := by rw [LeafNodeInt.length_entries]; omega
  have hnext : es[(leafEntries s.buf lsL).length + j + 1]? =
      some ((s.buf.file l').leaf.keyArray 0, (s.buf.file l').leaf.ridArray 0) := by
    rw [Nat.add_assoc, hs.getElem?_from, List.getElem?_append_right hE.le, hE, Nat.sub_self, leafEntries,
      List.flatMap_cons, List.getElem?_append_left hE', List.getElem?_eq_getElem hE', LeafNodeInt.getElem_entries]
    rfl
  have hentry : (if (s.buf.file l').leaf.numOccupied = 0 then -1
      else if (s.buf.file l').leaf.keyArray 0 = s.idx.highValInt ∧ s.idx.highOp ≠ .LTE then -1
      else if (s.buf.file l').leaf.keyArray 0 < s.idx.highValInt then 0 else -1 : Int) =
      if nextOk s (lsL ++ l :: l' :: lsR) ((s.buf.file l').leaf.keyArray 0) then 0 else -1 := by
    rw [if_neg (by omega), sibling_test_eq, nextOk_first hhi (by simp)]
    simp only [decide_eq_true_eq]
  refine ⟨_, _, _, hs.getElem?_slot (by omega),
    scanNext_toSibling ha hcur hv hj (by omega) (by omega) hs.rightSib_next hv',
    fun e' he' hhigh => ?_, fun hout => scanNext_done ha hv' ?_⟩
  · rw [hnext, Option.some.injEq] at he'
    subst he'
    refine ⟨lsL ++ [l], l', lsR, 0, by simp, rfl, ?_, show 0 < (s.buf.file l').leaf.numOccupied.toNat by omega, ?_⟩
    · show (if _ then _ else _) = _
      rw [hentry, if_pos hhigh]
      rfl
    · simp [leafEntries_append, leafEntries, LeafNodeInt.length_entries]
      omega
  · show (if _ then _ else _) = _
    rw [hentry, if_neg (by simpa using hout _ hnext)]

/-- **One step of the walk.** Over a tree without empty leaves, `scanNext` on entry `g` returns its rid, moving to
entry `g + 1` when that passes the walk's test, and otherwise the next call raises `IndexScanCompleted`. -/
theorem scanNext_step_at (hs : Shape s d es ls) (hne : ∀ l ∈ ls, 0 < (s.buf.file l).leaf.numOccupied)
    (ha : s.idx.scanExecuting = true) (hhi : s.idx.highOp = .LT ∨ s.idx.highOp = .LTE) (hat : ScanAt s ls g) :
    StepsFrom s es ls g := by
  obtain ⟨lsL, l, lsR, j, rfl, hcur, hj, hjN, rfl⟩ := hat
  by_cases hin : j + 1 < (s.buf.file l).leaf.numOccupied.toNat
  · exact stepsFrom_inLeaf hs hne ha hhi hcur hj hin
  cases lsR with
  | nil => exact stepsFrom_last hs ha hcur hj (by omega)
  | cons l' lsR => exact stepsFrom_sibling hs (hne l' (by simp)) ha hhi hcur hj (by omega)

end Walk

/-! ## Sessions of calls -/

section Calls

variable {s s' : Sys}

theorem runCalls_cons_ok {c : Call} {r : Option RecordId} (h : c.run s = .ok r s') (cs : List Call) :
    (runCalls (c :: cs) s).1 = .ok r :: (runCalls cs s').1 := by
  simp only [runCalls, h]
  rfl

theorem runCalls_cons_error {c : Call} {e : BTreeException} (h : c.run s = .error e s') (cs : List Call) :
    (runCalls (c :: cs) s).1 = .error e :: (runCalls cs s').1 := by
  simp only [runCalls, h]
  rfl

theorem run_scanNext_ok {r : RecordId} (h : scanNext s = .ok r s') : Call.run .scanNext s = .ok (some r) s' := by
  simp only [Call.run]
  exact bind_ok h

theorem run_scanNext_error {e : BTreeException} (h : scanNext s = .error e s') :
    Call.run .scanNext s = .error e s' := by
  simp only [Call.run]
  exact bind_error h

theorem run_startScan_ok {low high : Int} {lowOp highOp : Operator}
    (h : startScan low lowOp high highOp s = .ok () s') : Call.run (.startScan low lowOp high highOp) s = .ok none s' := by
  simp only [Call.run]
  exact bind_ok h

theorem run_startScan_error {low high : Int} {lowOp highOp : Operator} {e : BTreeException}
    (h : startScan low lowOp high highOp s = .error e s') : Call.run (.startScan low lowOp high highOp) s = .error e s' := by
  simp only [Call.run]
  exact bind_error h

end Calls

section Run

variable {d : Nat} {es : List Entry} {ls : List PageId}

/-- **A whole walk.** From entry `g`, `scanNext` calls return the rids of `g` and of the entries after it up to the
first that fails the walk's test, then `IndexScanCompleted`. -/
theorem scanNext_run : ∀ (k : Nat) (s : Sys) (g : Nat), Shape s d es ls →
    (∀ l ∈ ls, 0 < (s.buf.file l).leaf.numOccupied) →
    s.idx.scanExecuting = true → (s.idx.highOp = .LT ∨ s.idx.highOp = .LTE) → ScanAt s ls g →
    ((es.drop (g + 1)).takeWhile (fun e => nextOk s ls e.1)).length = k →
    ∃ e, es[g]? = some e ∧ (runCalls (List.replicate (k + 2) .scanNext) s).1 =
      (e :: (es.drop (g + 1)).takeWhile (fun e => nextOk s ls e.1)).map (fun e => .ok (some e.2)) ++
        [.error .IndexScanCompleted] := by
  intro k
  induction k using Nat.strong_induction_on with
  | _ k ih =>
    intro s g hs hne ha hhi hat hk
    obtain ⟨e, c, x, he, hstep, hnext, hdone⟩ := scanNext_step_at hs hne ha hhi hat
    refine ⟨e, he, ?_⟩
    rw [List.replicate_succ, runCalls_cons_ok (run_scanNext_ok hstep)]
    cases hget : es[g + 1]? with
    | none =>
      -- no entry after `g`
      have hdrop : es.drop (g + 1) = [] := List.drop_eq_nil_of_le (by simpa using hget)
      rw [hdrop] at hk ⊢
      subst hk
      rw [List.replicate_succ, runCalls_cons_error (run_scanNext_error (hdone fun _ h => by simp [hget] at h))]
      rfl
    | some e' =>
      have hdrop : es.drop (g + 1) = e' :: es.drop (g + 1 + 1) := by
        rw [List.drop_eq_getElem_cons (List.getElem?_eq_some_iff.1 hget).1]
        simp [(List.getElem?_eq_some_iff.1 hget).2]
      rw [hdrop] at hk ⊢
      cases hhigh : nextOk s ls e'.1
      · -- entry `g + 1` fails the test
        rw [List.takeWhile_cons_of_neg (by simp [hhigh])] at hk ⊢
        subst hk
        rw [List.replicate_succ, runCalls_cons_error (run_scanNext_error (hdone fun _ h => by
          rw [hget, Option.some.injEq] at h
          exact h ▸ hhigh))]
        rfl
      · -- entry `g + 1` is next
        rw [List.takeWhile_cons_of_pos (by simpa using hhigh)] at hk ⊢
        obtain ⟨k, rfl⟩ : ∃ k', k = k' + 1 := ⟨k - 1, by simp at hk; omega⟩
        obtain ⟨e'', he'', hrun⟩ := ih k (Nat.lt_succ_self k)
          { s with idx := { s.idx with currentPageNum := c, nextEntry := x } } (g + 1)
          (hs.of_idx rfl rfl rfl rfl rfl rfl) hne ha hhi (hnext e' hget hhigh) (by simpa using hk)
        rw [hget, Option.some.injEq] at he''
        subst he''
        rw [hrun]
        rfl

end Run

/-! ## Whole scans -/

section Scan

variable {s : Sys} {d : Nat} {es : List Entry} {ls : List PageId} {low high : Int} {lowOp highOp : Operator}

/-- With no key of the leaf meeting `low`, the loop leaves `nextEntry = -1` and the test reads slot `-1`: the scan is
rejected and off, or started on the sentinel, where `scanNext` raises `IndexScanCompleted`. -/
theorem startScan_no_match {l : PageId} {ps : List PageId} (hlh : low ≤ high) (hlo : lowOp = .GT ∨ lowOp = .GTE)
    (hhi : highOp = .LT ∨ highOp = .LTE) (hrun : searchEntry low s.buf.numPages s.idx.rootPageNum [] s = .ok (l, ps) s)
    (hv : s.buf.Valid l) (h0 : 0 ≤ (s.buf.file l).leaf.numOccupied)
    (hnone : ∀ e ∈ (s.buf.file l).leaf.entries, lowOk lowOp low e.1 = false) :
    (∃ s', startScan low lowOp high highOp s = .error .NoSuchKeyFound s' ∧ s'.idx.scanExecuting = false) ∨
      ∃ s', startScan low lowOp high highOp s = .ok () s' ∧ scanNext s' = .error .IndexScanCompleted s' := by
  have hstart := startScan_searched hlh hlo hhi (searchEntry_scanOn hrun) hv
  have hfirst : firstEntry (s.buf.file l).leaf.keyArray low lowOp (s.buf.file l).leaf.numOccupied.toNat 0 = -1 :=
    firstEntry_none hlo _ 0 fun t ht => by simpa using hnone _ (LeafNodeInt.mem_entries.2 ⟨t, ht, rfl⟩)
  dsimp only at hstart
  rw [hfirst] at hstart
  by_cases hrej : (s.buf.file l).leaf.keyArray (-1) > high ∨
      ((s.buf.file l).leaf.keyArray (-1) = high ∧ highOp = .LT)
  · exact .inl ⟨_, hstart.trans (if_pos (.inr hrej)), rfl⟩
  · refine .inr ⟨_, hstart.trans (if_neg ?_), scanNext_done rfl hv rfl⟩
    rintro (h | h)
    exacts [absurd h (by omega), hrej h]

/-- **What a scan returns.** From the leaf `searchEntry` returns for `low`: the entries in range in key order, less an
`LTE` bound's entry first in a leaf and not first returned; no rid when no key there meets `low`. -/
theorem scan_returns_entries_in_range (hs : Shape s d es ls) (hlh : low ≤ high) (hlo : lowOp = .GT ∨ lowOp = .GTE)
    (hhi : highOp = .LT ∨ highOp = .LTE) :
    let F := es.filter fun e => lowOk lowOp low e.1 && highOk highOp high e.1
    let F' := if highOp = .LTE ∧ ∃ l ∈ ls, (s.buf.file l).leaf.keyArray 0 = high then
      F.take 1 ++ (F.drop 1).filter (fun e => e.1 ≠ high) else F
    Ascending F ∧ ∃ l ps, searchEntry low s.buf.numPages s.idx.rootPageNum [] s = .ok (l, ps) s ∧
      ((∀ l' ∈ ls, 0 < (s.buf.file l').leaf.numOccupied) →
        (∃ e ∈ (s.buf.file l).leaf.entries, lowOk lowOp low e.1 = true) →
        (F = [] → outcome (startScan low lowOp high highOp s) = .error .NoSuchKeyFound) ∧
        (F ≠ [] → (runCalls (.startScan low lowOp high highOp :: List.replicate (F'.length + 1) .scanNext) s).1 =
          .ok none :: F'.map (fun e => .ok (some e.2)) ++ [.error .IndexScanCompleted])) ∧
      ((∀ e ∈ (s.buf.file l).leaf.entries, lowOk lowOp low e.1 = false) →
        (runCalls [.startScan low lowOp high highOp, .scanNext] s).1 =
            [.error .NoSuchKeyFound, .error .ScanNotInitialized] ∨
          (runCalls [.startScan low lowOp high highOp, .scanNext] s).1 = [.ok none, .error .IndexScanCompleted]) := by
  intro F F'
  obtain ⟨lsL, l, lsR, ps, hls, hL, hrun, hleaf⟩ := startScan_first_in_leaf hs hlh hlo hhi
  obtain ⟨hv, h0, -⟩ := subtree_leaf d hs.tree l (by simp [hls])
  refine ⟨hs.ascending.sublist ((List.filter_sublist _).map _), l, ps, hrun, fun hne hex => ?_, fun hnone => ?_⟩
  · -- the scan starts on the first entry meeting the low bound, slot `j` of `l`
    obtain ⟨j, hjN, hjok, hmin, -, hstart⟩ := hleaf hex
    have hF : F = (((s.buf.file l).leaf.keyArray j, (s.buf.file l).leaf.ridArray j) ::
        es.drop ((leafEntries s.buf lsL).length + j + 1)).takeWhile (fun e => highOk highOp high e.1) :=
      (@find_filter_of_first_match low high lowOp highOp _ _ _ _ _ _ (hs.entries_around hls) hs.ascending hL hjN
        hjok hmin).2
    have hcons := (split_at_first_match (hs.entries_around hls) hs.ascending hL hjN hjok hmin).2.2
    cases hhigh : highOk highOp high ((s.buf.file l).leaf.keyArray j)
    · -- that entry misses the high bound, so none is in range
      rw [List.takeWhile_cons_of_neg (by simp [hhigh])] at hF
      exact ⟨fun _ => by rw [hstart, if_neg (by simp [hhigh])]; rfl, absurd hF⟩
    rw [List.takeWhile_cons_of_pos (by simpa using hhigh)] at hF
    refine ⟨fun hnil => absurd (hF.symm.trans hnil) (List.cons_ne_nil _ _), fun _ => ?_⟩
    -- the scan starts on that entry and walks the entries after it
    have hR : Ascending (es.drop ((leafEntries s.buf lsL).length + j + 1)) :=
      hs.ascending.sublist ((List.drop_sublist _ _).map _)
    -- the walk's test is the high bound, read as `LT` when it is an `LTE` bound first in a leaf
    have hF' : F' = ((s.buf.file l).leaf.keyArray j, (s.buf.file l).leaf.ridArray j) ::
        (es.drop ((leafEntries s.buf lsL).length + j + 1)).takeWhile
          (fun e => nextOk (scanOn s low lowOp high highOp) ls e.1) := by
      simp only [F', nextOk, scanOn]
      split_ifs with hslip
      · obtain ⟨rfl, -⟩ := hslip
        rw [hF, takeWhile_highOk_lt hR]
        rfl
      · exact hF
    rw [hF', runCalls_cons_ok (run_startScan_ok (by rw [hstart, if_pos hhigh]))]
    obtain ⟨e, he, hwalk⟩ := scanNext_run _
      { s with
        idx := { s.idx with
          scanExecuting := true, lowValInt := low, highValInt := high, lowOp := lowOp, highOp := highOp,
          currentPageNum := l, nextEntry := j } }
      _ (hs.of_idx rfl rfl rfl rfl rfl rfl) hne rfl hhi ⟨lsL, l, lsR, j, hls, rfl, rfl, hjN, rfl⟩ rfl
    rw [getElem?_of_drop_eq_cons hcons, Option.some.injEq] at he
    subst he
    exact congrArg (List.cons _) hwalk
  · -- no entry of `l` meets the low bound
    rcases startScan_no_match hlh hlo hhi hrun hv h0 hnone with ⟨s₁, h₁, hoff⟩ | ⟨s₁, h₁, h₂⟩
    · rw [runCalls_cons_error (run_startScan_error h₁), runCalls_cons_error (run_scanNext_error (scanNext_inactive hoff))]
      exact .inl rfl
    · rw [runCalls_cons_ok (run_startScan_ok h₁), runCalls_cons_error (run_scanNext_error h₂)]
      exact .inr rfl

end Scan

/-- The state the constructor runs in for a new index file named `rel.0`, over pages of zeros. -/
def sampleFresh : Sys := startState (fun _ => none) (indexName "rel" 0) sample.idx (fun _ => Page.zero) 0

/-- On `splitSample`, which a new index reaches by inserting `1, 2, 3, 4`, a scan of `[1, 3]` under `LTE` misses
`3`; on a new empty index, `startScan(1, GTE, 5, LTE)` returns normally, then `IndexScanCompleted`. -/
theorem scan_split_sample_misses_high :
    Shape splitSample 1 splitSampleEntries [2, 3] ∧
      (splitSampleEntries.filter fun e => lowOk .GTE 1 e.1 && highOk .LTE 3 e.1).map Prod.fst = [1, 2, 3] ∧
      (runCalls [.startScan 1 .GTE 3 .LTE, .scanNext, .scanNext, .scanNext] splitSample).1 =
        [.ok none, .ok (some ⟨1, 1⟩), .ok (some ⟨1, 2⟩), .error .IndexScanCompleted] ∧
      (runCalls [.insertEntry 1 ⟨1, 1⟩, .insertEntry 2 ⟨1, 2⟩, .insertEntry 3 ⟨1, 3⟩, .insertEntry 4 ⟨1, 4⟩,
          .startScan 1 .GTE 3 .LTE, .scanNext, .scanNext, .scanNext]
          (after (constructIndex ⟨3, 3⟩ "rel" 0 .INTEGER false [] sampleFresh))).1 =
        [.ok none, .ok none, .ok none, .ok none, .ok none, .ok (some ⟨1, 1⟩), .ok (some ⟨1, 2⟩),
          .error .IndexScanCompleted] ∧
      (runCalls [.startScan 1 .GTE 5 .LTE, .scanNext]
          (after (constructIndex ⟨3, 3⟩ "rel" 0 .INTEGER false [] sampleFresh))).1 =
        [.ok none, .error .IndexScanCompleted] := by
  obtain ⟨-, l, ps, hsearch, hmatch, -⟩ := scan_returns_entries_in_range splitSample_shape
    (show (1 : Int) ≤ 3 by decide) (show Operator.GTE = .GT ∨ Operator.GTE = .GTE from .inr rfl)
    (show Operator.LTE = .LT ∨ Operator.LTE = .LTE from .inr rfl)
  have h2 : searchEntry 1 splitSample.buf.numPages splitSample.idx.rootPageNum [] splitSample =
      .ok (2, [4]) splitSample := by
    change searchEntry 1 (3 + 1) 4 [] splitSample = _
    rw [searchEntry_node rfl (by decide)]
    rfl
  obtain ⟨⟨⟩, -⟩ := EStateM.Result.ok.inj (hsearch.symm.trans h2)
  exact ⟨splitSample_shape, by decide, (hmatch (by decide) ⟨(1, ⟨1, 1⟩), by decide, rfl⟩).2 (by decide), rfl, rfl⟩

end BadgerBTree
