import BadgerBTree.Index

/-!
# Building, reopening and using an index

The constructor and the destructor of `BTreeIndex`, and runs of the public calls. The constructor's own
arguments are the relation's name, the key's byte offset and the key type; around them:

- the files on disk, by name (`Disk`): `File::exists` decides between opening and creating;
- the base relation, as the records `FileScan` yields in order;
- `btree.h`'s capacities `INTARRAYLEAFSIZE` and `INTARRAYNONLEAFSIZE`, not in the sources (`Capacities`);
- the object's members before the constructor runs, which the open path leaves as they were.
-/

namespace BadgerBTree

/-- `btree.h`'s node capacities. -/
structure Capacities where
  INTARRAYLEAFSIZE : Int
  INTARRAYNONLEAFSIZE : Int

/-- An index file at rest. -/
structure IndexFile where
  file : PageId → Page
  numPages : Nat

/-- The files on disk, by name. -/
def Disk := String → Option IndexFile

/-- `*((int *)(record + attrByteOffset))`: the little-endian `int` at the offset, its four bytes read as two's
complement (`2^31 = 2147483648`, `2^32 = 4294967296`). -/
def recordKey (record : List UInt8) (attrByteOffset : Int) : Int :=
  let b (j : Nat) : Nat := (record.getD (attrByteOffset.toNat + j) 0).toNat
  let u : Int := b 0 + 256 * b 1 + 65536 * b 2 + 16777216 * b 3
  if u < 2147483648 then u else u - 4294967296

/-- The name of the index file: `relationName + "." + attrByteOffset`. -/
def indexName (relationName : String) (attrByteOffset : Int) : String :=
  relationName ++ "." ++ toString attrByteOffset

/-- The build loop of the constructor: `insertEntry` for each record `FileScan` yields, until `EndOfFile`. -/
def insertRecords (attrByteOffset : Int) : List (RecordId × List UInt8) → M Unit
  | [] => pure ()
  | (rid, record) :: rest => do
    insertEntry (recordKey record attrByteOffset) rid
    insertRecords attrByteOffset rest

/-- `BTreeIndex::BTreeIndex(relationName, outIndexName, bufMgr, attrByteOffset, attrType)` once
`File::exists(outIndexName)` has answered `fileExists`. -/
def constructIndex (caps : Capacities) (relationName : String) (attrByteOffset : Int) (attrType : Datatype)
    (fileExists : Bool) (relation : List (RecordId × List UInt8)) : M Unit := do
  setMembers fun m => { m with attributeType := attrType, attrByteOffset := attrByteOffset }
  if fileExists then
    let metaPageId : PageId := 1
    let metadata := (← readPage metaPageId).meta
    if metadata.relationName ≠ relationName ∨ metadata.attrByteOffset ≠ attrByteOffset ∨
        metadata.attrType ≠ attrType then
      unPinPage metaPageId false
      throw .BadIndexInfo
    else do
      setMembers fun m => { m with headerPageNum := metaPageId, rootPageNum := metadata.rootPageNo }
      unPinPage metaPageId false
  else
    let (metaPageId, metaPage) ← allocPage
    let (rootPageId, rootPage) ← allocPage
    writeMeta metaPageId { metaPage.meta with
      relationName := relationName, attrByteOffset := attrByteOffset, attrType := attrType, rootPageNo := rootPageId }
    writeLeaf rootPageId { rootPage.leaf with numOccupied := 0, rightSibPageNo := INVALID_NUMBER }
    unPinPage metaPageId true
    unPinPage rootPageId true
    setMembers fun m => { m with
      headerPageNum := metaPageId, rootPageNum := rootPageId
      leafOccupancy := caps.INTARRAYLEAFSIZE, nodeOccupancy := caps.INTARRAYNONLEAFSIZE
      onlyOneRoot := true, scanExecuting := false }
    insertRecords attrByteOffset relation

/-- `BTreeIndex::~BTreeIndex`. -/
def destructIndex : M Unit := do
  if (← members).scanExecuting then endScan
  flushFile

/-- The state a constructor runs in: the object's prior members `garbage`, the file named `name` on `disk` (or a
new empty one), and the buffer manager's behaviour `fresh`. -/
def startState (disk : Disk) (name : String) (garbage : BTreeIndex) (fresh : PageId → Page) (indeterminate : Int) :
    Sys :=
  let f := (disk name).getD ⟨fun _ => Page.zero, 0⟩
  ⟨garbage, ⟨f.file, f.numPages, fresh, fun _ => 0, fun _ => false⟩, indeterminate⟩

/-- A public call of the index. -/
inductive Call
  | insertEntry (key : Int) (rid : RecordId)
  | startScan (lowVal : Int) (lowOp : Operator) (highVal : Int) (highOp : Operator)
  | scanNext
  | endScan

/-- A call, returning the rid `scanNext` hands out. -/
def Call.run : Call → M (Option RecordId)
  | .insertEntry key rid => do BadgerBTree.insertEntry key rid; pure none
  | .startScan lowVal lowOp highVal highOp => do BadgerBTree.startScan lowVal lowOp highVal highOp; pure none
  | .scanNext => do pure (some (← BadgerBTree.scanNext))
  | .endScan => do BadgerBTree.endScan; pure none

/-- A caller's session: each call from the state the previous one left, exceptions caught. -/
def runCalls : List Call → Sys → List (Except BTreeException (Option RecordId)) × Sys
  | [], s => ([], s)
  | c :: cs, s =>
    let r := c.run s
    let rest := runCalls cs (after r)
    (outcome r :: rest.1, rest.2)

end BadgerBTree
