import BadgerBTree.BufMgr
import BadgerBTree.Loops

/-!
# The methods of `BTreeIndex`

`btree.cpp` method by method, as calls in `M`. Two places differ in form from the source:

- `visitedNodes` is a `std::vector` the descent pushes to the back of and the splits pop from the back; here
  it is a list whose head is that back, so the splits recurse structurally on it;
- `splitInternal` ends by inserting the pushed-up key into the parent it pops from `visitedNodes`, or by
  growing a new root; that last step is its argument `up`, which `insertEntryInternal` supplies.

`searchEntry` recurses once per internal page it passes; it is given as many steps as the file has pages,
enough for any descent that does not meet a page twice, and one that does never ends in the source.
-/

namespace BadgerBTree

/-- `endScan`. -/
def endScan : M Unit := do
  if !(← members).scanExecuting then throw .ScanNotInitialized
  setMembers fun m => { m with scanExecuting := false }

/-- `searchEntry(key, pageNo, rootPageNum, visitedNodes)`: returns `pageNo` and `visitedNodes`. -/
def searchEntry (key : Int) : Nat → PageId → List PageId → M (PageId × List PageId)
  | fuel, rootPageNum, visitedNodes => do
    if (← members).onlyOneRoot then return (rootPageNum, visitedNodes)
    match fuel with
    | 0 => throw .SearchDiverges
    | fuel + 1 =>
      let currNode := (← readPage rootPageNum).node
      let i := searchIndex currNode.keyArray key currNode.numOccupied.toNat 0
      if currNode.level = 0 then
        unPinPage rootPageNum false
        searchEntry key fuel (currNode.pageNoArray i) (rootPageNum :: visitedNodes)
      else
        unPinPage rootPageNum false
        return (currNode.pageNoArray i, rootPageNum :: visitedNodes)

/-- The `visitedNodes.size() == 0` branch of `splitInternal`: a new root over the two halves. -/
def newRootOfInternal (pageNo : PageId) (propagateUpKey : Int) (newPageNoTemp : PageId) : M Unit := do
  let (rootId, rootPage) ← allocPage
  let rootNode := (((rootPage.node.setKey 0 propagateUpKey).setChild 0 newPageNoTemp).setChild 1 pageNo).bump 1
  writeNode rootId { rootNode with level := 0 }
  unPinPage rootId true
  setMembers fun m => { m with rootPageNum := rootId }
  let headerPageNum := (← members).headerPageNum
  let metadata := (← readPage headerPageNum).meta
  writeMeta headerPageNum { metadata with rootPageNo := rootId }
  unPinPage headerPageNum true

/-- `splitInternal(key, pageNo, newPageNo, visitedNodes, splitFromLeaf)`; `up` takes the pushed-up key and the
new node to the parent. -/
def splitInternal (up : Int → PageId → M Unit) (key : Int) (pageNo newPageNo : PageId) (splitFromLeaf : Bool) :
    M Unit := do
  let currInternalNode := (← readPage pageNo).node
  let (newPageNoTemp, newPageTemp) ← allocPage
  let newInternalNode := { newPageTemp.node with numOccupied := 0, level := currInternalNode.level }
  let nodeOccupancy := (← members).nodeOccupancy
  let capacity := (nodeOccupancy + 1).tdiv 2
  let propagateUpKey ← indeterminateInt
  let st := splitInternalLoop key newPageNo splitFromLeaf capacity nodeOccupancy.toNat
    ⟨currInternalNode, newInternalNode, false, propagateUpKey⟩ 0
  writeNode pageNo (splitInternalFinish key newPageNo splitFromLeaf nodeOccupancy st)
  unPinPage pageNo true
  writeNode newPageNoTemp st.new
  unPinPage newPageNoTemp true
  up st.propagateUpKey newPageNoTemp

/-- The body of `insertEntryInternal`, with `up` as in `splitInternal`. -/
def insertEntryInternalWith (up : Int → PageId → M Unit) (key : Int) (pageNo newPageNo : PageId)
    (splitFromLeaf : Bool) : M Unit := do
  let currInternalNode := (← readPage pageNo).node
  if currInternalNode.numOccupied > (← members).nodeOccupancy then
    unPinPage pageNo false
    splitInternal up key pageNo newPageNo splitFromLeaf
  else
    writeNode pageNo (internalInsert key newPageNo splitFromLeaf currInternalNode)
    unPinPage pageNo true

/-- `insertEntryInternal(key, pageNo, newPageNo, visitedNodes, splitFromLeaf)`. -/
def insertEntryInternal : Int → PageId → PageId → List PageId → Bool → M Unit
  | key, pageNo, newPageNo, [], splitFromLeaf =>
    insertEntryInternalWith (newRootOfInternal pageNo) key pageNo newPageNo splitFromLeaf
  | key, pageNo, newPageNo, parentPageNo :: visitedNodes, splitFromLeaf =>
    insertEntryInternalWith (fun k c => insertEntryInternal k parentPageNo c visitedNodes false) key pageNo newPageNo
      splitFromLeaf

/-- The `visitedNodes.size() == 0` branch of `splitLeaf`: a new root over the two leaves. -/
def newRootOfLeaf (pageNo : PageId) (propagateUpKey : Int) (newPageNo : PageId) : M Unit := do
  let (rootId, rootPage) ← allocPage
  let rootNode := (((rootPage.node.setKey 0 propagateUpKey).setChild 0 pageNo).setChild 1 newPageNo).bump 1
  writeNode rootId { rootNode with level := 1 }
  unPinPage rootId true
  setMembers fun m => { m with onlyOneRoot := false, rootPageNum := rootId }
  let headerPageNum := (← members).headerPageNum
  let metadata := (← readPage headerPageNum).meta
  writeMeta headerPageNum { metadata with rootPageNo := rootId }
  unPinPage headerPageNum true

/-- `splitLeaf(key, rid, pageNo, visitedNodes)`. -/
def splitLeaf (key : Int) (rid : RecordId) (pageNo : PageId) (visitedNodes : List PageId) : M Unit := do
  let currLeafNode := (← readPage pageNo).leaf
  let (newPageNo, newPage) ← allocPage
  let newLeafPage := { newPage.leaf with rightSibPageNo := currLeafNode.rightSibPageNo, numOccupied := 0 }
  let currLeafNode := { currLeafNode with rightSibPageNo := newPageNo }
  let leafOccupancy := (← members).leafOccupancy
  let capacity := (leafOccupancy + 1).tdiv 2
  let (curr, new) :=
    splitLeafLoop key rid leafOccupancy capacity leafOccupancy.toNat currLeafNode newLeafPage false 0
  let propagateUpKey := new.keyArray 0
  writeLeaf pageNo curr
  unPinPage pageNo true
  writeLeaf newPageNo new
  unPinPage newPageNo true
  match visitedNodes with
  | parentPageNo :: visitedNodes => insertEntryInternal propagateUpKey parentPageNo newPageNo visitedNodes true
  | [] => newRootOfLeaf pageNo propagateUpKey newPageNo

/-- `insertEntryLeaf(key, rid, pageNo, visitedNodes)`. -/
def insertEntryLeaf (key : Int) (rid : RecordId) (pageNo : PageId) (visitedNodes : List PageId) : M Unit := do
  let currLeafNode := (← readPage pageNo).leaf
  if currLeafNode.numOccupied ≥ (← members).leafOccupancy then
    unPinPage pageNo false
    splitLeaf key rid pageNo visitedNodes
  else
    writeLeaf pageNo (leafInsert key rid currLeafNode)
    unPinPage pageNo true

/-- The depth `searchEntry` is given: as many levels as the file has pages. -/
def searchFuel : M Nat := fun s => .ok s.buf.numPages s

/-- `insertEntry(key, rid)`. -/
def insertEntry (key : Int) (rid : RecordId) : M Unit := do
  let (pageNo, visitedNodes) ← searchEntry key (← searchFuel) (← members).rootPageNum []
  insertEntryLeaf key rid pageNo visitedNodes

/-- `startScan(lowVal, lowOp, highVal, highOp)`. -/
def startScan (lowValParm : Int) (lowOpParm : Operator) (highValParm : Int) (highOpParm : Operator) : M Unit := do
  if (← members).scanExecuting then endScan
  setMembers fun m => { m with scanExecuting := true }
  if lowValParm > highValParm then throw .BadScanrange
  else do
    setMembers fun m => { m with lowValInt := lowValParm, highValInt := highValParm }
    if lowOpParm ≠ .GT ∧ lowOpParm ≠ .GTE then throw .BadOpcodes
    else if highOpParm ≠ .LT ∧ highOpParm ≠ .LTE then throw .BadOpcodes
    else do
      setMembers fun m => { m with lowOp := lowOpParm, highOp := highOpParm }
      let (pageNo, _) ← searchEntry lowValParm (← searchFuel) (← members).rootPageNum []
      setMembers fun m => { m with currentPageNum := pageNo }
      let leafNode := (← readPage pageNo).leaf
      let m ← members
      let nextEntry := firstEntry leafNode.keyArray m.lowValInt m.lowOp leafNode.numOccupied.toNat 0
      setMembers fun m => { m with nextEntry := nextEntry }
      if nextEntry = leafNode.numOccupied then
        unPinPage pageNo false
        endScan
        throw .NoSuchKeyFound
      else if leafNode.keyArray nextEntry > m.highValInt ∨
          (leafNode.keyArray nextEntry = m.highValInt ∧ m.highOp = .LT) then
        unPinPage pageNo false
        endScan
        throw .NoSuchKeyFound
      else unPinPage pageNo false

/-- `scanNext(outRid)`. -/
def scanNext : M RecordId := do
  let m ← members
  if !m.scanExecuting then throw .ScanNotInitialized
  else do
    let currentNode := (← readPage m.currentPageNum).leaf
    if m.nextEntry = -1 then
      unPinPage m.currentPageNum false
      throw .IndexScanCompleted
    else do
      let outRid := currentNode.ridArray m.nextEntry
      if m.nextEntry + 1 < currentNode.numOccupied then
        let k := currentNode.keyArray (m.nextEntry + 1)
        if k = m.highValInt ∧ m.highOp ≠ .LTE then
          unPinPage m.currentPageNum false
          setMembers fun m => { m with nextEntry := -1 }
        else if k ≤ m.highValInt then
          setMembers fun m => { m with nextEntry := m.nextEntry + 1 }
          unPinPage m.currentPageNum false
        else
          unPinPage m.currentPageNum false
          setMembers fun m => { m with nextEntry := -1 }
      else if currentNode.rightSibPageNo = INVALID_NUMBER then
        unPinPage m.currentPageNum false
        setMembers fun m => { m with nextEntry := -1 }
      else
        unPinPage m.currentPageNum false
        let sib := currentNode.rightSibPageNo
        setMembers fun m => { m with currentPageNum := sib }
        let nextNode := (← readPage sib).leaf
        if nextNode.numOccupied = 0 then
          setMembers fun m => { m with nextEntry := -1 }
          unPinPage sib false
        else if nextNode.keyArray 0 = m.highValInt ∧ m.highOp ≠ .LTE then
          unPinPage sib false
          setMembers fun m => { m with nextEntry := -1 }
        else if nextNode.keyArray 0 < m.highValInt then
          setMembers fun m => { m with nextEntry := 0 }
          unPinPage sib false
        else
          unPinPage sib false
          setMembers fun m => { m with nextEntry := -1 }
      return outRid

end BadgerBTree
