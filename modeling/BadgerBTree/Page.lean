import Mathlib.Logic.Function.Basic

/-!
# Pages of the index file

The structures `btree.cpp` lays over a page: the header (`IndexMetaInfo`), a leaf (`LeafNodeInt`) and an
internal node (`NonLeafNodeInt`). The source reinterprets the bytes of a pinned page as one of them by a cast;
`btree.h`, which fixes their layout, is not part of the sources, so a `Page` carries the three views side by
side and a cast picks one. A field the code never wrote reads what the page held when `allocPage` handed it
out.

The arrays are indexed by the source's `int` expressions, which can leave the declared bounds (`keyArray[-1]`
in `startScan`, `keyArray[nodeOccupancy]` in `insertEntryInternal`), so an array is a function on `Int`: a
slot outside the bounds is memory the model keeps apart from the other fields.
-/

namespace BadgerBTree

/-- `PageId`: a page number of the index file; pages are numbered from `1`. -/
abbrev PageId := Nat

/-- `Page::INVALID_NUMBER`, the "no page" marker of `rightSibPageNo`. -/
def INVALID_NUMBER : PageId := 0

/-- `RecordId`: where a tuple lives in the base relation. -/
structure RecordId where
  page_number : PageId
  slot_number : Nat
deriving DecidableEq, Repr

/-- `Datatype`: the key type tag stored in the header. -/
inductive Datatype
  | INTEGER
  | DOUBLE
  | STRING
deriving DecidableEq, Repr

/-- `Operator`: the comparison operators of a scan. -/
inductive Operator
  | LT
  | LTE
  | GTE
  | GT
deriving DecidableEq, Repr

/-- `struct LeafNodeInt`. -/
structure LeafNodeInt where
  numOccupied : Int
  keyArray : Int → Int
  ridArray : Int → RecordId
  rightSibPageNo : PageId

/-- `struct NonLeafNodeInt`: `level = 1` when the children are leaves. -/
structure NonLeafNodeInt where
  level : Int
  numOccupied : Int
  keyArray : Int → Int
  pageNoArray : Int → PageId

/-- `struct IndexMetaInfo`, the header page. -/
structure IndexMetaInfo where
  relationName : String
  attrByteOffset : Int
  attrType : Datatype
  rootPageNo : PageId

/-- A page of the index file, through each of the casts the source applies to it. -/
structure Page where
  leaf : LeafNodeInt
  node : NonLeafNodeInt
  meta : IndexMetaInfo

/-- The C++ conversion of an `int` to a `PageId` (`uint32`): modulo `2^32`. -/
def PageId.ofInt (x : Int) : PageId := (x % 4294967296).toNat

namespace LeafNodeInt

/-- `keyArray[j] = k; ridArray[j] = r;` -/
def setEntry (n : LeafNodeInt) (j k : Int) (r : RecordId) : LeafNodeInt :=
  { n with keyArray := Function.update n.keyArray j k, ridArray := Function.update n.ridArray j r }

/-- Copy entry `j'` of `m` into slot `j` of `n`. -/
def copyEntry (n : LeafNodeInt) (j : Int) (m : LeafNodeInt) (j' : Int) : LeafNodeInt :=
  n.setEntry j (m.keyArray j') (m.ridArray j')

/-- `numOccupied += d`. -/
def bump (n : LeafNodeInt) (d : Int) : LeafNodeInt := { n with numOccupied := n.numOccupied + d }

@[simp] theorem setEntry_numOccupied (n : LeafNodeInt) (j k : Int) (r : RecordId) :
    (n.setEntry j k r).numOccupied = n.numOccupied := rfl

@[simp] theorem setEntry_rightSibPageNo (n : LeafNodeInt) (j k : Int) (r : RecordId) :
    (n.setEntry j k r).rightSibPageNo = n.rightSibPageNo := rfl

@[simp] theorem bump_numOccupied (n : LeafNodeInt) (d : Int) : (n.bump d).numOccupied = n.numOccupied + d := rfl

@[simp] theorem bump_rightSibPageNo (n : LeafNodeInt) (d : Int) : (n.bump d).rightSibPageNo = n.rightSibPageNo :=
  rfl

end LeafNodeInt

namespace NonLeafNodeInt

/-- `keyArray[j] = k;` -/
def setKey (n : NonLeafNodeInt) (j k : Int) : NonLeafNodeInt := { n with keyArray := Function.update n.keyArray j k }

/-- `pageNoArray[j] = c;` -/
def setChild (n : NonLeafNodeInt) (j : Int) (c : PageId) : NonLeafNodeInt :=
  { n with pageNoArray := Function.update n.pageNoArray j c }

/-- `numOccupied += d`. -/
def bump (n : NonLeafNodeInt) (d : Int) : NonLeafNodeInt := { n with numOccupied := n.numOccupied + d }

@[simp] theorem setKey_numOccupied (n : NonLeafNodeInt) (j k : Int) : (n.setKey j k).numOccupied = n.numOccupied :=
  rfl

@[simp] theorem setChild_numOccupied (n : NonLeafNodeInt) (j : Int) (c : PageId) :
    (n.setChild j c).numOccupied = n.numOccupied := rfl

@[simp] theorem bump_numOccupied (n : NonLeafNodeInt) (d : Int) : (n.bump d).numOccupied = n.numOccupied + d := rfl

@[simp] theorem setKey_level (n : NonLeafNodeInt) (j k : Int) : (n.setKey j k).level = n.level := rfl

@[simp] theorem setChild_level (n : NonLeafNodeInt) (j : Int) (c : PageId) : (n.setChild j c).level = n.level := rfl

@[simp] theorem bump_level (n : NonLeafNodeInt) (d : Int) : (n.bump d).level = n.level := rfl

end NonLeafNodeInt

/-- A page of zero bytes, as a fresh page of a newly created file holds. -/
def Page.zero : Page where
  leaf := ⟨0, fun _ => 0, fun _ => ⟨0, 0⟩, 0⟩
  node := ⟨0, 0, fun _ => 0, fun _ => 0⟩
  meta := ⟨"", 0, .INTEGER, 0⟩

end BadgerBTree
