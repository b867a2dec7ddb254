import BadgerBTree.Page

/-!
# The loops of `btree.cpp`

Each `while (i < bound)` loop of the source, over the node it rewrites in place. The first argument, `rem`,
counts the iterations the loop has left: it starts at `bound - i`, so the recursion is structural and the
`i < bound` test is `rem ≠ 0`. A `break` returns; the other branches recurse with `i + 1`.

- `searchIndex`: the child `searchEntry` descends to;
- `shiftLeafUp`, `shiftNodeUp`: the in-place insertion of `insertEntryLeaf` and `insertEntryInternal`;
- `splitLeafLoop`, `splitInternalLoop`: the redistribution of `splitLeaf` and `splitInternal`;
- `firstEntry`: the entry `startScan` positions on.
-/

namespace BadgerBTree

/-- `searchEntry`: `while (i < numOccupied) { if (keyArray[i] < key) i++; else break; }`. -/
def searchIndex (K : Int → Int) (key : Int) : Nat → Int → Int
  | 0, i => i
  | rem + 1, i => if K i < key then searchIndex K key rem (i + 1) else i

/-- `insertEntryLeaf`: walk down from the last entry, moving each entry above `key` up one slot. Returns the
leaf and the number `i` of entries moved. -/
def shiftLeafUp (key N : Int) : Nat → LeafNodeInt → Int → LeafNodeInt × Int
  | 0, n, i => (n, i)
  | rem + 1, n, i =>
    if key > n.keyArray (N - 1 - i) then (n, i)
    else shiftLeafUp key N rem (n.copyEntry (N - 1 - i + 1) n (N - 1 - i)) (i + 1)

/-- The non-full branch of `insertEntryLeaf`: shift, place `(key, rid)` in the vacated slot, count it. -/
def leafInsert (key : Int) (rid : RecordId) (n : LeafNodeInt) : LeafNodeInt :=
  let (n', i) := shiftLeafUp key n.numOccupied n.numOccupied.toNat n 0
  (n'.setEntry (n.numOccupied - i) key rid).bump 1

/-- `insertEntryInternal`: the same walk over the keys, moving each key above `key` and the child pointer at
its index up one slot. -/
def shiftNodeUp (key N : Int) : Nat → NonLeafNodeInt → Int → NonLeafNodeInt × Int
  | 0, n, i => (n, i)
  | rem + 1, n, i =>
    if key > n.keyArray (N - 1 - i) then (n, i)
    else
      shiftNodeUp key N rem
        ((n.setChild (N - 1 - i + 1) (n.pageNoArray (N - 1 - i))).setKey (N - 1 - i + 1) (n.keyArray (N - 1 - i)))
        (i + 1)

/-- The non-full branch of `insertEntryInternal`. -/
def internalInsert (key : Int) (newPageNo : PageId) (splitFromLeaf : Bool) (n : NonLeafNodeInt) : NonLeafNodeInt :=
  let N := n.numOccupied
  let n := n.setChild (N + 1) (n.pageNoArray N)
  let (n, i) := shiftNodeUp key N N.toNat n 0
  if splitFromLeaf then
    (((n.setChild (N - i) (n.pageNoArray (N - i + 1))).setKey (N - i) key).setChild (N - i + 1) newPageNo).bump 1
  else
    ((n.setChild (N - i) newPageNo).setKey (N - i) key).bump 1

/-- The loop of `splitLeaf`, from the last entry of the full leaf `curr` down: entries move to `new` until it holds
`L + 1 - capacity` of them, with `L = leafOccupancy`, and `(key, rid)` is placed on the way. -/
def splitLeafLoop (key : Int) (rid : RecordId) (L capacity : Int) :
    Nat → LeafNodeInt → LeafNodeInt → Bool → Int → LeafNodeInt × LeafNodeInt
  | 0, curr, new, _, _ => (curr, new)
  | rem + 1, curr, new, insertedFlag, i =>
    if key ≥ curr.keyArray (L - 1 - i) then
      let (curr, new) :=
        if insertedFlag then (curr, new)
        else if new.numOccupied + capacity ≥ L + 1 then ((curr.bump 1).setEntry (L - i) key rid, new)
        else (curr, (new.bump 1).setEntry (L + 1 - capacity - 1 - i) key rid)
      if new.numOccupied + capacity ≥ L + 1 then (curr, new)
      else
        splitLeafLoop key rid L capacity rem (curr.bump (-1))
          ((new.copyEntry (L + 1 - capacity - 2 - i) curr (L - i - 1)).bump 1) true (i + 1)
    else if new.numOccupied + capacity < L + 1 then
      splitLeafLoop key rid L capacity rem (curr.bump (-1))
        ((new.copyEntry (L + 1 - capacity - 1 - i) curr (L - 1 - i)).bump 1) insertedFlag (i + 1)
    else
      let curr := curr.copyEntry (L - i) curr (L - 1 - i)
      if L = i + 1 then
        splitLeafLoop key rid L capacity rem ((curr.bump 1).setEntry (L - 1 - i) key rid) new true (i + 1)
      else splitLeafLoop key rid L capacity rem curr new insertedFlag (i + 1)

/-- The state of `splitInternal`'s loop: the two nodes, `insertedFlag` and `propagateUpKey`. -/
structure SplitInternalState where
  curr : NonLeafNodeInt
  new : NonLeafNodeInt
  insertedFlag : Bool
  propagateUpKey : Int

/-- The placing of `(key, newPageNo)` in `splitInternal`'s loop, on the branch `key < keyArray[i]`. -/
def splitInternalPlace (key : Int) (newPageNo : PageId) (splitFromLeaf : Bool) (capacity i : Int)
    (st : SplitInternalState) : SplitInternalState :=
  let curr := st.curr
  let new := st.new
  if new.numOccupied > capacity then
    let j := i - (new.numOccupied - 1) - 1
    let curr := curr.setKey j key
    let curr := if splitFromLeaf then (curr.setChild j (curr.pageNoArray i)).setChild i newPageNo
      else curr.setChild j newPageNo
    { st with curr := curr.bump 1, insertedFlag := true }
  else if new.numOccupied < capacity then
    let new := new.setKey i key
    let (curr, new) := if splitFromLeaf then (curr.setChild i newPageNo, new.setChild i (curr.pageNoArray i))
      else (curr, new.setChild i newPageNo)
    { st with curr := curr, new := new.bump 1, insertedFlag := true }
  else
    let (curr, new) :=
      if splitFromLeaf then (curr.setChild i newPageNo, new.setChild new.numOccupied (curr.pageNoArray i))
      else (curr, new.setChild new.numOccupied newPageNo)
    { curr := curr, new := new.bump 1, insertedFlag := true, propagateUpKey := key }

/-- The moving of `keyArray[i]` and `pageNoArray[i]` in `splitInternal`'s loop; `off` is `0` on the branch
`key < keyArray[i]` and `1` on the other. -/
def splitInternalMove (capacity i off : Int) (st : SplitInternalState) : SplitInternalState :=
  let curr := st.curr
  let new := st.new
  if new.numOccupied > capacity then
    let j := i - (new.numOccupied - 1) - off
    { st with curr := (curr.setKey j (curr.keyArray i)).setChild j (curr.pageNoArray i) }
  else if new.numOccupied < capacity then
    let j := i + 1 - off
    { st with curr := curr.bump (-1), new := ((new.setKey j (curr.keyArray i)).setChild j (curr.pageNoArray i)).bump 1 }
  else
    { st with
      curr := curr.bump (-1)
      new := (new.setChild new.numOccupied (curr.pageNoArray i)).bump 1
      propagateUpKey := curr.keyArray i }

/-- The loop of `splitInternal` with `I = nodeOccupancy`: keys move to `new` from the bottom up until it
holds `capacity` of them, the next key is pushed up, and the rest slide down in `curr`. -/
def splitInternalLoop (key : Int) (newPageNo : PageId) (splitFromLeaf : Bool) (capacity : Int) :
    Nat → SplitInternalState → Int → SplitInternalState
  | 0, st, _ => st
  | rem + 1, st, i =>
    if key < st.curr.keyArray i then
      let st := if st.insertedFlag then st else splitInternalPlace key newPageNo splitFromLeaf capacity i st
      splitInternalLoop key newPageNo splitFromLeaf capacity rem (splitInternalMove capacity i 0 st) (i + 1)
    else splitInternalLoop key newPageNo splitFromLeaf capacity rem (splitInternalMove capacity i 1 st) (i + 1)

/-- After `splitInternal`'s loop: the last child pointer, then `key` when the loop never placed it. The
source stores `key` into `pageNoArray` there. -/
def splitInternalFinish (key : Int) (newPageNo : PageId) (splitFromLeaf : Bool) (I : Int)
    (st : SplitInternalState) : NonLeafNodeInt :=
  let curr := st.curr.setChild st.curr.numOccupied (st.curr.pageNoArray I)
  if st.insertedFlag then curr
  else
    let N := curr.numOccupied
    let curr := curr.setChild N (PageId.ofInt key)
    let curr := if splitFromLeaf then curr.setChild (N + 1) newPageNo
      else (curr.setChild (N + 1) (curr.pageNoArray N)).setChild N newPageNo
    curr.bump 1

/-- `startScan`: the first `i < numOccupied` whose key passes the low bound, or `-1`. -/
def firstEntry (K : Int → Int) (lowValInt : Int) (lowOp : Operator) : Nat → Int → Int
  | 0, _ => -1
  | rem + 1, i =>
    if K i < lowValInt then firstEntry K lowValInt lowOp rem (i + 1)
    else if lowOp ≠ .GTE ∧ K i = lowValInt then firstEntry K lowValInt lowOp rem (i + 1)
    else i

end BadgerBTree
