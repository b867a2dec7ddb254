import BadgerBTree.Insert
import BadgerBTree.Pins

/-!
# Creating, reopening and destroying an index

The constructor's two paths and the destructor (`btree.cpp`, `BTreeIndex::BTreeIndex` and `~BTreeIndex`).

The create path allocates the header page and the root page, writes the header and an empty root leaf, and sets
every member the other methods read before it runs the build loop. The open path (the `File::exists` branch)
reads the header page, checks the relation name, the byte offset and the key type, and assigns `headerPageNum`
and `rootPageNum`; with the two members the constructor sets first, that is all it assigns. `onlyOneRoot`,
`leafOccupancy`, `nodeOccupancy`, `scanExecuting` and `nextEntry` keep whatever the object held.

* `constructIndex_create_spec` — the create path builds a well-formed empty tree, and the build loop starts from it.
* `constructIndex_open` — the open path as one equation, on every state whose header page matches.
* `reopen_shape_iff` — a well-formed tree, destroyed and reopened into an object whose occupancies happen to be
  right, is well formed again exactly when the object's `onlyOneRoot` happens to be the one the tree had: the flag
  is not recomputed from the root page.
* `reopen_garbage_flag` — an empty index reopened into an object that says `onlyOneRoot = false`: its search
  reads the root leaf as an internal node and every call raises `InvalidPage`.
* `destructIndex_after_session` — after the constructor and any session of calls, the destructor returns
  normally: `flushFile` never finds a page pinned.
-/

namespace BadgerBTree

/-- The index file the destructor's `flushFile` leaves: the pages as the buffer manager holds them. -/
def persisted (s : Sys) : IndexFile := ⟨s.buf.file, s.buf.numPages⟩

/-! ## Trees read through another buffer -/

section Frames

variable {b b' : BufMgr} {L I : Int}

/-- A tree is a fact about the pages and the page count only, not about the pins. -/
theorem subtree_congr (hf : b'.file = b.file) (hn : b'.numPages = b.numPages) :
    ∀ d, Subtree b' L I d = Subtree b L I d
  | 0 => by funext p es ls; simp only [Subtree, BufMgr.Valid, hf, hn]
  | d + 1 => by funext p es ls; simp only [Subtree, BufMgr.Valid, hf, hn, subtree_congr hf hn d]

theorem linked_congr (hf : b'.file = b.file) : ∀ ls, Linked b' ls ↔ Linked b ls
  | [] => Iff.rfl
  | [_] => by simp only [Linked, hf]
  | _ :: l' :: ls => by simp only [Linked, hf, linked_congr hf (l' :: ls)]

/-- A well-formed tree seen from a state with the same pages, root, occupancies and header: well formed exactly
when `onlyOneRoot` agrees. -/
theorem shape_iff_of_file {s s' : Sys} {d : Nat} {es : List Entry} {ls : List PageId} (hs : Shape s d es ls)
    (hf : s'.buf.file = s.buf.file) (hn : s'.buf.numPages = s.buf.numPages)
    (hr : s'.idx.rootPageNum = s.idx.rootPageNum) (hL : s'.idx.leafOccupancy = s.idx.leafOccupancy)
    (hI : s'.idx.nodeOccupancy = s.idx.nodeOccupancy)
    (hh : (s'.buf.file s'.idx.headerPageNum).meta.rootPageNo = s'.idx.rootPageNum) :
    Shape s' d es ls ↔ s'.idx.onlyOneRoot = s.idx.onlyOneRoot := by
  constructor
  · intro h
    exact Bool.eq_iff_iff.2 (h.onlyOneRoot.trans hs.onlyOneRoot.symm)
  · intro h1
    exact ⟨by rw [subtree_congr hf hn, hr, hL, hI]; exact hs.tree, (linked_congr hf ls).2 hs.linked, hs.distinct,
      h1 ▸ hs.onlyOneRoot, hh⟩

end Frames

/-! ## The two paths of the constructor -/

section Constructor

variable (caps : Capacities) (relationName : String) (attrByteOffset : Int) (attrType : Datatype)
  (relation : List (RecordId × List UInt8))

/-- The create path appends the header page and an empty root leaf, sets the members, and then runs the build loop. -/
theorem constructIndex_create_spec (t : Sys) (hL : 0 ≤ caps.INTARRAYLEAFSIZE) :
    ∃ t₀, constructIndex caps relationName attrByteOffset attrType false relation t =
        insertRecords attrByteOffset relation t₀ ∧
      Shape t₀ 0 [] [t.buf.numPages + 2] ∧ t₀.idx.headerPageNum = t.buf.numPages + 1 ∧
      (t₀.buf.file (t.buf.numPages + 1)).meta = ⟨relationName, attrByteOffset, attrType, t.buf.numPages + 2⟩ ∧
      t₀.idx.scanExecuting = false ∧ t₀.idx.leafOccupancy = caps.INTARRAYLEAFSIZE ∧
      t₀.idx.nodeOccupancy = caps.INTARRAYNONLEAFSIZE ∧ t₀.buf.numPages = t.buf.numPages + 2 ∧
      t₀.buf.fresh = t.buf.fresh := by
  obtain ⟨i, b, n⟩ := t
  dsimp only
  have hne : b.numPages + 1 + 1 ≠ b.numPages + 1 := Nat.succ_ne_self _
  unfold constructIndex
  rw [setMembers_bind_mk, if_neg Bool.false_ne_true, allocPage_bind_mk]
  dsimp only
  rw [allocPage_bind_mk]
  dsimp only
  rw [writeMeta_bind_mk, writeLeaf_bind_mk,
    unPinPage_bind_mk _ (by simpa using BufMgr.alloc_pinCount_of_ne_zero _ (BufMgr.alloc_pinCount_new b)),
    unPinPage_bind_mk _ (by simpa [BufMgr.release_pinCount_of_ne _ _ _ hne] using BufMgr.alloc_pinCount_new b.alloc),
    setMembers_bind_mk]
  refine ⟨_, rfl, ⟨?_, ?_, List.nodup_singleton _, by simp, ?_⟩, rfl, ?_, rfl, rfl, rfl, rfl, rfl⟩
  · -- the root: an empty leaf of the file
    refine ⟨⟨Nat.succ_pos _, by simp [BufMgr.alloc]⟩, ?_⟩
    simp [LeafNodeInt.entries, hL, Ascending]
  · simp [Linked]
  · simp [Function.update_noteq hne]
  · simp [Function.update_noteq hne]

/-- **The open path.** On a file whose header page, page 1, names the relation, the offset and the key type, the
constructor returns having assigned four members and released its pin on the header. -/
theorem constructIndex_open (t : Sys) (hv : t.buf.Valid 1)
    (hmeta : (t.buf.file 1).meta.relationName = relationName ∧ (t.buf.file 1).meta.attrByteOffset = attrByteOffset ∧
      (t.buf.file 1).meta.attrType = attrType) :
    constructIndex caps relationName attrByteOffset attrType true relation t =
      .ok () ⟨{ t.idx with
          attributeType := attrType, attrByteOffset := attrByteOffset, headerPageNum := 1,
          rootPageNum := (t.buf.file 1).meta.rootPageNo },
        (t.buf.pin 1).release 1 false, t.indeterminate⟩ := by
  obtain ⟨i, b, n⟩ := t
  dsimp only at *
  unfold constructIndex
  rw [setMembers_bind_mk, if_pos rfl, readPage_bind_mk _ hv,
    if_neg (by simp only [hmeta, ne_eq, not_true_eq_false, or_self, not_false_eq_true]), setMembers_bind_mk]
  exact unPinPage_mk (BufMgr.pin_pinCount b 1)

/-- A header page that names another relation, offset or key type: `BadIndexInfo`, the header released. -/
theorem constructIndex_open_mismatch (t : Sys) (hv : t.buf.Valid 1)
    (hbad : ¬((t.buf.file 1).meta.relationName = relationName ∧ (t.buf.file 1).meta.attrByteOffset = attrByteOffset ∧
      (t.buf.file 1).meta.attrType = attrType)) :
    constructIndex caps relationName attrByteOffset attrType true relation t =
      .error .BadIndexInfo ⟨{ t.idx with attributeType := attrType, attrByteOffset := attrByteOffset },
        (t.buf.pin 1).release 1 false, t.indeterminate⟩ := by
  obtain ⟨i, b, n⟩ := t
  dsimp only at *
  unfold constructIndex
  rw [setMembers_bind_mk, if_pos rfl, readPage_bind_mk _ hv, if_pos (by simpa only [not_and_or, ne_eq] using hbad),
    unPinPage_bind_mk _ (BufMgr.pin_pinCount b 1)]
  rfl

/-- **Reopening does not recompute `onlyOneRoot`.** A persisted well-formed tree, reopened by an object that held
`garbage` with the tree's occupancies, is well formed exactly when `garbage.onlyOneRoot` is the tree's flag. -/
theorem reopen_shape_iff (fresh : PageId → Page) (ind : Int) {s : Sys} {d : Nat} {es : List Entry}
    {ls : List PageId} (hs : Shape s d es ls) (hh1 : s.idx.headerPageNum = 1) (hv : s.buf.Valid 1)
    (hmeta : (s.buf.file 1).meta.relationName = relationName ∧ (s.buf.file 1).meta.attrByteOffset = attrByteOffset ∧
      (s.buf.file 1).meta.attrType = attrType)
    (disk : Disk) (hdisk : disk (indexName relationName attrByteOffset) = some (persisted s)) (garbage : BTreeIndex)
    (hL : garbage.leafOccupancy = s.idx.leafOccupancy) (hI : garbage.nodeOccupancy = s.idx.nodeOccupancy) :
    ∃ s', constructIndex caps relationName attrByteOffset attrType true relation
        (startState disk (indexName relationName attrByteOffset) garbage fresh ind) = .ok () s' ∧
      s'.idx = { garbage with
        attributeType := attrType, attrByteOffset := attrByteOffset, headerPageNum := 1,
        rootPageNum := s.idx.rootPageNum } ∧
      (Shape s' d es ls ↔ garbage.onlyOneRoot = s.idx.onlyOneRoot) := by
  have hroot : (s.buf.file 1).meta.rootPageNo = s.idx.rootPageNum := hh1 ▸ hs.header
  have hstart : (startState disk (indexName relationName attrByteOffset) garbage fresh ind).buf =
      ⟨s.buf.file, s.buf.numPages, fresh, fun _ => 0, fun _ => false⟩ := by
    simp only [startState, hdisk, Option.getD_some, persisted]
  refine ⟨_, constructIndex_open caps relationName attrByteOffset attrType relation _ (by rw [hstart]; exact hv)
    (by rw [hstart]; exact hmeta), by rw [hstart]; simp only [hroot, startState], ?_⟩
  exact shape_iff_of_file hs (by rw [hstart]; rfl) (by rw [hstart]; rfl) (by rw [hstart]; exact hroot) hL hI
    (by rw [hstart]; rfl)

end Constructor

/-- `sample`'s leaves reopened by an object that says the root is a leaf make no well-formed index; an empty index
reopened into `sample.idx` raises `InvalidPage` on an insertion and on the scans after it. -/
theorem reopen_garbage_flag :
    (∃ s', constructIndex ⟨2, 2⟩ "" 0 .INTEGER true []
        (startState (fun _ => some (persisted sample)) (indexName "" 0) { sample.idx with onlyOneRoot := true }
          (fun _ => Page.zero) 0) = .ok () s' ∧
      s'.idx = { sample.idx with headerPageNum := 1, rootPageNum := 2, onlyOneRoot := true } ∧
      ¬Shape s' 1 sampleEntries [3, 4]) ∧
    outcome (destructIndex smallIndex) = .ok () ∧
    (let r := constructIndex ⟨2, 1⟩ "rel" 0 .INTEGER true []
      (startState (fun _ => some (persisted (after (destructIndex smallIndex)))) (indexName "rel" 0) sample.idx
        (fun _ => Page.zero) 0)
    outcome r = .ok () ∧
      (runCalls [.insertEntry 5 ⟨1, 5⟩, .startScan 5 .GTE 5 .LTE, .scanNext] (after r)).1 =
        [.error .InvalidPage, .error .InvalidPage, .error .InvalidPage]) ∧
    (runCalls [.insertEntry 5 ⟨1, 5⟩, .startScan 5 .GTE 5 .LTE, .scanNext] smallIndex).1 =
      [.ok none, .ok none, .ok (some ⟨1, 5⟩)] :=
  let ⟨s', hrun, hidx, hshape⟩ := reopen_shape_iff ⟨2, 2⟩ "" 0 .INTEGER [] (fun _ => Page.zero) 0 sample_shape rfl
    (by decide) ⟨rfl, rfl, rfl⟩ (fun _ => some (persisted sample)) rfl { sample.idx with onlyOneRoot := true } rfl rfl
  ⟨⟨s', hrun, hidx, fun h => absurd (hshape.1 h) (by decide)⟩, rfl, ⟨rfl, rfl⟩, rfl⟩

/-! ## The destructor -/

section Destructor

variable {s : Sys}

/-- `flushFile` with no page pinned. -/
theorem flushFile_quiet (h : s.buf.Quiet) : flushFile s = .ok () s := by
  unfold flushFile
  rw [if_pos (List.all_eq_true.2 fun q _ => by simp [h.1])]

/-- From a state with no pin held, the destructor ends a scan still active and returns normally. -/
theorem destructIndex_quiet (h : s.buf.Quiet) :
    destructIndex s = .ok () { s with idx := { s.idx with scanExecuting := false } } := by
  obtain ⟨i, b, n⟩ := s
  unfold destructIndex
  rw [members_bind_mk]
  cases hs : i.scanExecuting
  · simp only [Bool.false_eq_true, if_false, pure_bind]
    rw [flushFile_quiet h]
    cases i
    simp_all
  · simp only [if_true]
    rw [endScan_bind_mk _ hs]
    exact flushFile_quiet h

/-- **The destructor after any session.** After the constructor, opening or creating the file, and any session,
the destructor returns normally: it ends a scan still active, and `flushFile` finds no page pinned. -/
theorem destructIndex_after_session (caps : Capacities) (relationName : String) (attrByteOffset : Int)
    (attrType : Datatype) (relation : List (RecordId × List UInt8)) (disk : Disk) (garbage : BTreeIndex)
    (fresh : PageId → Page) (indeterminate : Int) (calls : List Call) :
    let name := indexName relationName attrByteOffset
    let s := (runCalls calls (after (constructIndex caps relationName attrByteOffset attrType (disk name).isSome
      relation (startState disk name garbage fresh indeterminate)))).2
    destructIndex s = .ok () { s with idx := { s.idx with scanExecuting := false } } := by
  have h := keepsPins_constructIndex caps relationName attrByteOffset attrType
    (disk (indexName relationName attrByteOffset)).isSome relation _
    ((holding_nil_iff _).2 (startState_quiet disk (indexName relationName attrByteOffset) garbage fresh indeterminate))
  exact destructIndex_quiet (runCalls_quiet calls _ h.1).1

end Destructor

end BadgerBTree
