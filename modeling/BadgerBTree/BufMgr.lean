import BadgerBTree.Page

/-!
# The buffer manager and the index object

The state `btree.cpp` runs in: the members of a `BTreeIndex` object, and the index file as the buffer manager
serves it. The buffer manager is out of the sources; it is modelled by the contract the index relies on:

- `readPage` pins a page and hands back its contents, and raises `InvalidPage` for a page never allocated;
- `allocPage` appends a page to the file, pins it, and hands back contents the index must not rely on
  (`BufMgr.fresh`, the page the buffer manager happens to give);
- `unPinPage` releases one pin and raises `PageNotPinned` when there is none;
- `flushFile` raises `PagePinned` while a page of the file is pinned.

Pages are written through, so the file is the pool. Two ledgers record the discipline of the pins: `pinCount`,
and `pending`, the pages written since they were last unpinned dirty. A state with neither (`Quiet`) is what
every call of the index must leave behind.

A C++ exception leaves the object as it was when raised; `M` is therefore `EStateM`, whose error result
carries the state.
-/

namespace BadgerBTree

/-- The exceptions a call of the index can end with. -/
inductive BTreeException
  | BadIndexInfo
  | BadOpcodes
  | BadScanrange
  | NoSuchKeyFound
  | ScanNotInitialized
  | IndexScanCompleted
  /-- `unPinPage` of a page that is not pinned. -/
  | PageNotPinned
  /-- `readPage` of a page number the file does not have. -/
  | InvalidPage
  /-- `flushFile` while a page of the file is pinned. -/
  | PagePinned
  /-- The descent of `searchEntry` met a page again; the source recurses forever there. -/
  | SearchDiverges
deriving DecidableEq, Repr

/-- The index file as the buffer manager serves it, with the ledgers of its pins. -/
structure BufMgr where
  file : PageId → Page
  /-- The pages `1 .. numPages` are allocated. -/
  numPages : Nat
  /-- What `allocPage` hands out as the new page `p`. -/
  fresh : PageId → Page
  pinCount : PageId → Nat
  /-- Written since last unpinned dirty. -/
  pending : PageId → Bool

/-- The members of `class BTreeIndex` that `btree.cpp` reads or writes. -/
structure BTreeIndex where
  headerPageNum : PageId
  rootPageNum : PageId
  attrByteOffset : Int
  attributeType : Datatype
  leafOccupancy : Int
  nodeOccupancy : Int
  onlyOneRoot : Bool
  scanExecuting : Bool
  nextEntry : Int
  currentPageNum : PageId
  lowValInt : Int
  highValInt : Int
  lowOp : Operator
  highOp : Operator
deriving DecidableEq, Repr

/-- The whole state: the object, the file, and what an uninitialised local `int` reads as. -/
structure Sys where
  idx : BTreeIndex
  buf : BufMgr
  indeterminate : Int

/-- A call of the index: a C++ exception keeps the state it was raised in. -/
abbrev M := EStateM BTreeException Sys

namespace BufMgr

/-- `p` is a page of the file. -/
def Valid (b : BufMgr) (p : PageId) : Prop := 0 < p ∧ p ≤ b.numPages

instance (b : BufMgr) (p : PageId) : Decidable (b.Valid p) := inferInstanceAs (Decidable (0 < p ∧ _))

/-- One more pin on `p`. -/
def pin (b : BufMgr) (p : PageId) : BufMgr := { b with pinCount := Function.update b.pinCount p (b.pinCount p + 1) }

/-- One pin less on `p`; a dirty release settles the writes to `p`. -/
def release (b : BufMgr) (p : PageId) (dirty : Bool) : BufMgr :=
  { b with
    pinCount := Function.update b.pinCount p (b.pinCount p - 1)
    pending := if dirty then Function.update b.pending p false else b.pending }

/-- A new page at the end of the file, with the contents it happens to hold, pinned. -/
def alloc (b : BufMgr) : BufMgr :=
  ({ b with
    numPages := b.numPages + 1
    file := Function.update b.file (b.numPages + 1) (b.fresh (b.numPages + 1)) } : BufMgr).pin (b.numPages + 1)

/-- Page `p` now holds `pg`. -/
def write (b : BufMgr) (p : PageId) (pg : Page) : BufMgr :=
  { b with file := Function.update b.file p pg, pending := Function.update b.pending p true }

/-- No pin held and no write left unsettled. -/
def Quiet (b : BufMgr) : Prop := (∀ p, b.pinCount p = 0) ∧ ∀ p, b.pending p = false

end BufMgr

/-! ## The calls of the buffer manager -/

/-- `bufMgr->readPage(file, p, page)`. -/
def readPage (p : PageId) : M Page := fun s =>
  if s.buf.Valid p then .ok (s.buf.file p) { s with buf := s.buf.pin p } else .error .InvalidPage s

/-- `bufMgr->allocPage(file, p, page)`. -/
def allocPage : M (PageId × Page) := fun s =>
  .ok (s.buf.numPages + 1, s.buf.fresh (s.buf.numPages + 1)) { s with buf := s.buf.alloc }

/-- `bufMgr->unPinPage(file, p, dirty)`. -/
def unPinPage (p : PageId) (dirty : Bool) : M Unit := fun s =>
  if s.buf.pinCount p = 0 then .error .PageNotPinned s else .ok () { s with buf := s.buf.release p dirty }

/-- `bufMgr->flushFile(file)`. -/
def flushFile : M Unit := fun s =>
  if (List.range s.buf.numPages).all (fun i => s.buf.pinCount (i + 1) = 0) then .ok () s
  else .error .PagePinned s

/-- The writes through `(LeafNodeInt*) page`. -/
def writeLeaf (p : PageId) (n : LeafNodeInt) : M Unit := fun s =>
  .ok () { s with buf := s.buf.write p { s.buf.file p with leaf := n } }

/-- The writes through `(NonLeafNodeInt*) page`. -/
def writeNode (p : PageId) (n : NonLeafNodeInt) : M Unit := fun s =>
  .ok () { s with buf := s.buf.write p { s.buf.file p with node := n } }

/-- The writes through `(IndexMetaInfo*) page`. -/
def writeMeta (p : PageId) (m : IndexMetaInfo) : M Unit := fun s =>
  .ok () { s with buf := s.buf.write p { s.buf.file p with meta := m } }

/-- Reading the object's members. -/
def members : M BTreeIndex := fun s => .ok s.idx s

/-- Assigning the object's members. -/
def setMembers (f : BTreeIndex → BTreeIndex) : M Unit := fun s => .ok () { s with idx := f s.idx }

/-- The state a call leaves, returned or raised. -/
def after {α : Type} : EStateM.Result BTreeException Sys α → Sys
  | .ok _ s => s
  | .error _ s => s

/-- The exception a call ended with, if any. -/
def raised {α : Type} : EStateM.Result BTreeException Sys α → Option BTreeException
  | .ok _ _ => none
  | .error e _ => some e

/-- What a caller sees of a call: its exception, or what it returned. -/
def outcome {α : Type} : EStateM.Result BTreeException Sys α → Except BTreeException α
  | .ok a _ => .ok a
  | .error e _ => .error e

/-- Reading an uninitialised local `int`. -/
def indeterminateInt : M Int := fun s => .ok s.indeterminate s

section Steps

variable {α β : Type} {s s' : Sys}

theorem bind_ok {x : M α} {f : α → M β} {a : α} (h : x s = .ok a s') : (x >>= f) s = f a s' := by
  show EStateM.bind x f s = _
  simp only [EStateM.bind, h]

theorem bind_error {x : M α} {f : α → M β} {e : BTreeException} (h : x s = .error e s') :
    (x >>= f) s = .error e s' := by
  show EStateM.bind x f s = _
  simp only [EStateM.bind, h]

theorem readPage_ok {p : PageId} (h : s.buf.Valid p) :
    readPage p s = .ok (s.buf.file p) { s with buf := s.buf.pin p } := by
  simp [readPage, h]

theorem readPage_error {p : PageId} (h : ¬s.buf.Valid p) : readPage p s = .error .InvalidPage s := by
  simp [readPage, h]

theorem unPinPage_ok {p : PageId} {d : Bool} (h : s.buf.pinCount p ≠ 0) :
    unPinPage p d s = .ok () { s with buf := s.buf.release p d } := by
  simp [unPinPage, h]

theorem members_bind (f : BTreeIndex → M α) : (members >>= f) s = f s.idx s := rfl

theorem readPage_bind {p : PageId} (f : Page → M α) (h : s.buf.Valid p) :
    (readPage p >>= f) s = f (s.buf.file p) { s with buf := s.buf.pin p } := bind_ok (readPage_ok h)

theorem unPinPage_bind {p : PageId} {d : Bool} (f : Unit → M α) (h : s.buf.pinCount p ≠ 0) :
    (unPinPage p d >>= f) s = f () { s with buf := s.buf.release p d } := bind_ok (unPinPage_ok h)

theorem setMembers_bind (f : BTreeIndex → BTreeIndex) (k : Unit → M α) :
    (setMembers f >>= k) s = k () { s with idx := f s.idx } := rfl

theorem throw_apply (e : BTreeException) : (throw e : M α) s = .error e s := rfl

/-! The same steps on a state written out, as they appear once a call is unfolded. -/

theorem readPage_bind_mk {i : BTreeIndex} {b : BufMgr} {n : Int} {p : PageId} (f : Page → M α) (h : b.Valid p) :
    (readPage p >>= f) ⟨i, b, n⟩ = f (b.file p) ⟨i, b.pin p, n⟩ := bind_ok (readPage_ok h)

theorem unPinPage_mk {i : BTreeIndex} {b : BufMgr} {n : Int} {p : PageId} {d : Bool} (h : b.pinCount p ≠ 0) :
    unPinPage p d ⟨i, b, n⟩ = .ok () ⟨i, b.release p d, n⟩ := unPinPage_ok h

theorem unPinPage_bind_mk {i : BTreeIndex} {b : BufMgr} {n : Int} {p : PageId} {d : Bool} (f : Unit → M α)
    (h : b.pinCount p ≠ 0) : (unPinPage p d >>= f) ⟨i, b, n⟩ = f () ⟨i, b.release p d, n⟩ := bind_ok (unPinPage_ok h)

theorem BufMgr.pin_pinCount (b : BufMgr) (p : PageId) : (b.pin p).pinCount p ≠ 0 := by simp [BufMgr.pin]

/-- A clean unpin undoes a pin. -/
theorem BufMgr.release_pin (b : BufMgr) (p : PageId) : (b.pin p).release p false = b := by
  cases b
  simp [BufMgr.pin, BufMgr.release]

end Steps

end BadgerBTree
