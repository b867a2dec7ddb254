import BadgerBTree.Context
import BadgerBTree.LeafSplit

/-!
# Insertion keeps the tree well formed

`insertEntry` on a tree with the structural invariant, for a key none of its entries has, along each path the
source takes from such a tree:

* the leaf `searchEntry` reaches has room: it is rewritten in place (`insertEntry_inPlace_shape`);
* the leaf is full and has a parent with room: the leaf is split, and the separator and the new leaf are inserted
  into the parent in place (`insertEntry_splitLeaf_shape`);
* the leaf is full and is the root: it is split and a new root is grown over the two halves
  (`insertEntry_newRoot_shape`).

Each time the tree keeps the invariant and its entries become the sorted insertion of the new entry. The first two
rebuild one node of the search path (`subtree_split_child` for the parent of a split leaf) and get the rest of the
tree from `subtree_insert_path`; the third builds the new tree outright. A tree with the invariant never reaches
`splitInternal`, whose test `numOccupied > nodeOccupancy` fails on each of its nodes: a full parent is instead
filled past its room, which is why the second path asks for room in the parent.
-/

namespace BadgerBTree

/-! ## The leaf reached -/

section Reach

variable {s : Sys} {d : Nat} {es : List Entry} {ls : List PageId} {key : Int} {rid : RecordId}

/-- The in-place loop keeps the count and the right sibling. -/
theorem shiftLeafUp_fields (key N : Int) : ∀ (rem : Nat) (n : LeafNodeInt) (i : Int),
    (shiftLeafUp key N rem n i).1.numOccupied = n.numOccupied ∧
      (shiftLeafUp key N rem n i).1.rightSibPageNo = n.rightSibPageNo
  | 0, _, _ => ⟨rfl, rfl⟩
  | rem + 1, n, i => by
    unfold shiftLeafUp
    split
    · exact ⟨rfl, rfl⟩
    · exact shiftLeafUp_fields key N rem _ _

/-- The in-place insertion counts one entry more and keeps the right sibling. -/
theorem leafInsert_fields (key : Int) (rid : RecordId) (n : LeafNodeInt) :
    (leafInsert key rid n).numOccupied = n.numOccupied + 1 ∧ (leafInsert key rid n).rightSibPageNo = n.rightSibPageNo := by
  obtain ⟨h1, h2⟩ := shiftLeafUp_fields key n.numOccupied n.numOccupied.toNat n 0
  unfold leafInsert
  generalize shiftLeafUp key n.numOccupied n.numOccupied.toNat n 0 = r at h1 h2
  obtain ⟨n', i⟩ := r
  dsimp only at h1 h2
  exact ⟨by simp [h1], by simp [h2]⟩

/-- The leaf `searchEntry` reaches in a tree with the invariant: `d` steps of `childFor` from the root, a leaf of
the tree, returned with the pages of the descent, the parent first. -/
theorem Shape.reach (hs : Shape s d es ls) (key : Int) :
    ∃ lsL lsR, ls = lsL ++ (childFor s.buf key)^[d] s.idx.rootPageNum :: lsR ∧
      Subtree s.buf s.idx.leafOccupancy s.idx.nodeOccupancy 0 ((childFor s.buf key)^[d] s.idx.rootPageNum)
        (s.buf.file ((childFor s.buf key)^[d] s.idx.rootPageNum)).leaf.entries
        [(childFor s.buf key)^[d] s.idx.rootPageNum] ∧
      searchEntry key s.buf.numPages s.idx.rootPageNum [] s =
        .ok ((childFor s.buf key)^[d] s.idx.rootPageNum, (descend s.buf key d s.idx.rootPageNum).reverse) s := by
  cases d with
  | zero =>
    obtain ⟨hv, h0, hL, ha, -, rfl⟩ := hs.tree
    exact ⟨[], [], rfl, ⟨hv, h0, hL, ha, rfl, rfl⟩, searchEntry_leaf (hs.onlyOneRoot.2 rfl)⟩
  | succ d =>
    have h1 : s.idx.onlyOneRoot = false := by simpa using hs.onlyOneRoot
    have hit := searchEntry_iterate h1 key d s.buf.numPages [] hs.tree (subtree_height_lt hs.tree)
    obtain ⟨lsL, l, lsR, rfl, -, hleaf, -, -, hrun⟩ :=
      searchEntry_subtree h1 key d s.buf.numPages [] hs.tree (subtree_height_lt hs.tree)
    rw [hrun, EStateM.Result.ok.injEq, Prod.mk.injEq] at hit
    obtain ⟨⟨rfl, -⟩, -⟩ := hit
    exact ⟨lsL, lsR, rfl, hleaf, by simpa using hrun⟩

end Reach

/-! ## Two leaves out of one -/

theorem Starts.of_append_left {lo : Option Int} {A B : List Entry} (hA : A ≠ []) (h : Starts lo (A ++ B)) :
    Starts lo A := by
  cases lo with
  | none => trivial
  | some k =>
    obtain ⟨a, A, rfl⟩ := List.exists_cons_of_ne_nil hA
    exact h

/-- A leaf with entries starts with the entry of its first slot. -/
theorem LeafNodeInt.starts_entries {n : LeafNodeInt} (h : 0 < n.numOccupied) : Starts (some (n.keyArray 0)) n.entries := by
  obtain ⟨k, hk⟩ : ∃ k, n.numOccupied.toNat = k + 1 := ⟨n.numOccupied.toNat - 1, by omega⟩
  simp [Starts, LeafNodeInt.entries, hk, List.range_succ_eq_map]

namespace SplitInto

variable {o left right : LeafNodeInt} {e : Entry} {L : Int} {np : PageId}

/-- Each half of a split of a leaf with room for `L ≥ 3` entries holds at least `(L + 1) / 2`, and at most `L`. -/
theorem halves (h : SplitInto o e L np left right) (hL : 3 ≤ L) :
    (L + 1) / 2 ≤ left.numOccupied ∧ left.numOccupied ≤ L ∧ (L + 1) / 2 ≤ right.numOccupied ∧ right.numOccupied ≤ L := by
  have := h.numOccupied
  have := h.right_numOccupied
  omega

/-- The first key of the new leaf, the separator, is one of the entries after the split. -/
theorem separator_mem (h : SplitInto o e L np left right) (hL : 3 ≤ L) :
    (right.keyArray 0, right.ridArray 0) ∈ sortedInsert e o.entries := by
  rw [← h.entries]
  exact List.mem_append_right _ (LeafNodeInt.mem_entries.2 ⟨0, by have := h.halves hL; omega, rfl⟩)

/-- The two leaves of a split as children: the old page, starting where the old leaf started, then the new page,
starting at the separator. -/
theorem children {b : BufMgr} {I : Int} {l : PageId} {lo : Option Int}
    (h : SplitInto o e L np (b.file l).leaf (b.file np).leaf) (hL : 3 ≤ L) (hl : b.Valid l) (hn : b.Valid np)
    (hasc : Ascending (sortedInsert e o.entries)) (hlo : Starts lo (sortedInsert e o.entries)) :
    Children (Subtree b L I 0) lo [(b.file np).leaf.keyArray 0] [l, np] (sortedInsert e o.entries) [l, np] := by
  have hsz := h.halves hL
  rw [← h.entries] at hasc hlo ⊢
  obtain ⟨ha, ha', hlt⟩ := ascending_append_iff.1 hasc
  have hleft : Subtree b L I 0 l (b.file l).leaf.entries [l] := ⟨hl, by omega, hsz.2.1, ha, rfl, rfl⟩
  have hright : Subtree b L I 0 np (b.file np).leaf.entries [np] := ⟨hn, by omega, hsz.2.2.2, ha', rfl, rfl⟩
  have hne : (b.file l).leaf.entries ≠ [] :=
    List.ne_nil_of_length_pos (by rw [LeafNodeInt.length_entries]; omega)
  exact .cons hleft (hlo.of_append_left hne)
    (fun x hx => hlt x hx _ (LeafNodeInt.mem_entries.2 ⟨0, by omega, rfl⟩))
    (.last hright (LeafNodeInt.starts_entries (by omega)))

end SplitInto

/-- The leaves stay linked when `np` comes in right after `l`, taking over its right sibling. -/
theorem Linked.split {b b' : BufMgr} {l np : PageId} (hl : (b'.file l).leaf.rightSibPageNo = np)
    (hnp : (b'.file np).leaf.rightSibPageNo = (b.file l).leaf.rightSibPageNo) :
    ∀ (A : List PageId) {B : List PageId},
      (∀ q ∈ A ++ B, (b'.file q).leaf.rightSibPageNo = (b.file q).leaf.rightSibPageNo) →
      Linked b (A ++ l :: B) → Linked b' (A ++ l :: np :: B)
  | [], [], _, h => ⟨hl, hnp.trans h⟩
  | [], _ :: _, hsib, h => ⟨hl, hnp.trans h.1, Linked.frame hsib h.2⟩
  | [_], _, hsib, h =>
    ⟨(hsib _ (List.mem_cons_self _ _)).trans h.1, Linked.split hl hnp [] (fun r hr => hsib r (List.mem_cons_of_mem _ hr)) h.2⟩
  | _ :: _ :: _, _, hsib, h =>
    ⟨(hsib _ (List.mem_cons_self _ _)).trans h.1, Linked.split hl hnp _ (fun r hr => hsib r (List.mem_cons_of_mem _ hr)) h.2⟩

theorem NonLeafNodeInt.keys_getElem? {n : NonLeafNodeInt} {t : Nat} (h : t < n.numOccupied.toNat) :
    n.keys[t]? = some (n.keyArray t) := by
  simp [NonLeafNodeInt.keys, List.getElem?_range h]

/-! ## A split leaf under its parent -/

section SplitChild

variable {b b' : BufMgr} {L I : Int} {l np p : PageId} {e : Entry} {es : List Entry} {ls : List PageId}

/-- **A split leaf under its parent.** When `p`, just above the leaves with room for a key, takes the separator and
the new leaf `np` of the split of `l`, it roots a tree of the same height holding the sorted insertion of `e`. -/
theorem subtree_split_child (hF : Frame b b' 1 l) (hL : 3 ≤ L) (hsub : Subtree b L I 1 p es ls) (hnd : ls.Nodup)
    (hk : ∀ x ∈ es, x.1 ≠ e.1) (hcl : childFor b e.1 p = l) (hroom : (b.file p).node.numOccupied < I)
    (hsplit : SplitInto (b.file l).leaf e L np (b'.file l).leaf (b'.file np).leaf) (hnv : b'.Valid np)
    (hnode : (b'.file p).node = internalInsert ((b'.file np).leaf.keyArray 0) np true (b.file p).node) :
    l ∈ ls ∧ ∃ ls', Subtree b' L I 1 p (sortedInsert e es) ls' ∧ ∃ A B, ls = A ++ l :: B ∧ ls' = A ++ l :: np :: B := by
  obtain ⟨hpv, h0, -, hlev, hch⟩ := hsub
  obtain ⟨j, hjl, hbelow, hat, hcj⟩ := childFor_route e.1 p
  rw [hcl] at hcj
  have habove := children_above hch hk hat
  obtain ⟨c', esC, A, lsC, B, lo', hc', hC, rfl, rfl, hA, hB, hs', hlo', hhi, hlo'j, hctx⟩ :=
    @children_hole b (Subtree b L I 0) (Subtree b' L I 0)
      (fun _ _ _ hs => ⟨subtree_entries _ hs, subtree_ascending _ hs⟩) e.1 _ _ _ _ _ j hch hjl
      (fun _ h => nomatch h) hbelow habove
  obtain rfl : l = c' := Option.some.inj (hcj.symm.trans hc')
  obtain ⟨hlv, -, -, hasc, rfl, rfl⟩ := hC
  rw [List.nodup_append, List.nodup_append] at hnd
  have hlAB : l ∉ A ++ B := by
    simp only [List.mem_append, not_or]
    exact ⟨fun h' => hnd.1.2.2 h' (List.mem_singleton_self l),
      fun h' => hnd.2.2 (List.mem_append_right _ (List.mem_singleton_self l)) h'⟩
  have hkl : ∀ x ∈ (b.file l).leaf.entries, x.1 ≠ e.1 := fun x hx => hk x (by simp [hx])
  -- the two leaves, between the separators around the old one
  have hpair : Children (Subtree b' L I 0) lo' _ _ _ _ :=
    hsplit.children hL (hF.valid hlv) hnv (hasc.sortedInsert hkl) (hs'.sortedInsert hlo')
  have hbound : ∀ k, (b.file p).node.keys[j]? = some k → ∀ x ∈ sortedInsert e (b.file l).leaf.entries, x.1 < k :=
    fun k hk x hx => (mem_sortedInsert.1 hx).elim (fun hxe => hxe ▸ habove k hk) (hhi k hk x)
  have hchain := hctx (fun _ _ _ hs hsub => Subtree.frame hF 0 hs fun hl' => hlAB (hsub hl')) hpair hbound
  -- the separator's place among the keys of `p`
  have hlen : (b.file p).node.keys.length = (b.file p).node.numOccupied.toNat := by simp [NonLeafNodeInt.keys]
  have hq : InsertPoint (b.file p).node.keyArray (b.file p).node.numOccupied ((b'.file np).leaf.keyArray 0) j := by
    refine InsertPoint.of_neighbours (NonLeafNodeInt.keyArray_lt (children_keys_pairwise hch)) (by omega)
      (fun hj => ?_) (fun hj => hbound _ (NonLeafNodeInt.keys_getElem? (by omega)) _ (hsplit.separator_mem hL))
    rcases hlo'j with ⟨rfl, -⟩ | ⟨t, rfl, hlo't⟩
    · exact absurd hj (lt_irrefl 0)
    · rw [NonLeafNodeInt.keys_getElem? (by omega)] at hlo't
      rw [show ((t + 1 : Nat) : Int) - 1 = t by omega]
      exact children_lo_lt hpair _ hlo't _ (List.mem_singleton_self _)
  have hins := internalInsert_insertedAt np true h0 hq
  rw [← hnode] at hins
  refine ⟨List.mem_append_left _ (List.mem_append_right _ (List.mem_singleton_self l)), A ++ [l, np] ++ B,
    ⟨hF.valid hpv, by rw [hins.numOccupied]; omega, by rw [hins.numOccupied]; omega, by rw [hins.level]; exact hlev,
      ?_⟩, A, B, by simp, by simp⟩
  rw [hins.keys, hins.children, if_pos rfl, List.take_succ, hcj, sortedInsert_between hA hB]
  simpa using hchain

end SplitChild

/-! ## The views a write keeps -/

section Views

variable {s : Sys} {key : Int} {pageNo newPageNo : PageId} {splitFromLeaf : Bool}

theorem update_leaf_views (f : PageId → Page) (l : PageId) (n : LeafNodeInt) (q : PageId) :
    (Function.update f l { f l with leaf := n } q).node = (f q).node ∧
      (Function.update f l { f l with leaf := n } q).meta = (f q).meta := by
  by_cases hq : q = l
  · subst hq; simp
  · simp [Function.update_noteq hq]

theorem insertedInPlace_views (q : PageId) :
    ((insertedInPlace s key pageNo newPageNo splitFromLeaf).buf.file q).leaf = (s.buf.file q).leaf ∧
      ((insertedInPlace s key pageNo newPageNo splitFromLeaf).buf.file q).meta = (s.buf.file q).meta := by
  by_cases hq : q = pageNo
  · subst hq; simp [insertedInPlace]
  · simp [insertedInPlace_file_of_ne hq]

/-- `newRootOfLeaf`: a new node at the end of the file over `pageNo` and `newPageNo` with the separator between
them, made the root in the members and in the header; the other pages keep their leaf and node views. -/
theorem newRootOfLeaf_spec (s : Sys) (hh : s.buf.Valid s.idx.headerPageNum) (pageNo : PageId) (k : Int)
    (c : PageId) :
    ∃ s', newRootOfLeaf pageNo k c s = .ok () s' ∧
      s'.idx = { s.idx with onlyOneRoot := false, rootPageNum := s.buf.numPages + 1 } ∧
      s'.buf.numPages = s.buf.numPages + 1 ∧ s'.buf.fresh = s.buf.fresh ∧
      (s'.buf.file (s.buf.numPages + 1)).node =
        { ((((s.buf.fresh (s.buf.numPages + 1)).node.setKey 0 k).setChild 0 pageNo).setChild 1 c).bump 1 with
          level := 1 } ∧
      (s'.buf.file s.idx.headerPageNum).meta.rootPageNo = s.buf.numPages + 1 ∧
      ∀ q, q ≠ s.buf.numPages + 1 → (s'.buf.file q).leaf = (s.buf.file q).leaf ∧ (s'.buf.file q).node = (s.buf.file q).node := by
  obtain ⟨i, b, n⟩ := s
  dsimp only at *
  have hh' : b.alloc.Valid i.headerPageNum := ⟨hh.1, Nat.le_succ_of_le hh.2⟩
  have hne : i.headerPageNum ≠ b.numPages + 1 := Nat.ne_of_lt (Nat.lt_succ_of_le hh.2)
  unfold newRootOfLeaf
  rw [allocPage_bind_mk]
  dsimp only
  rw [writeNode_bind_mk, unPinPage_bind_mk, setMembers_bind_mk, members_bind_mk, readPage_bind_mk,
    writeMeta_bind_mk]
  · refine ⟨_, unPinPage_mk ?_, rfl, rfl, rfl, ?_, ?_, fun q hq => ?_⟩
    · simpa using BufMgr.pin_pinCount _ _
    · simp [Function.update_noteq (Ne.symm hne)]
    · simp
    · by_cases hqh : q = i.headerPageNum
      · subst hqh; simp [Function.update_noteq hq]
      · simp [Function.update_noteq hq, Function.update_noteq hqh]
  · exact hh'
  · simpa using BufMgr.alloc_pinCount_new b

end Views

/-! ## The three paths -/

section Paths

variable {s : Sys} {d : Nat} {es : List Entry} {ls : List PageId} {key : Int} {rid : RecordId} {l p : PageId}

/-- **The leaf reached has room.** `insertEntry` rewrites it in place: the tree keeps the invariant over the same
leaves and holds the sorted insertion of the entry; the leaf counts one entry more, and no other leaf changes. -/
theorem insertEntry_inPlace_shape (hs : Shape s d es ls) (hkey : ∀ x ∈ es, x.1 ≠ key)
    (hl : (childFor s.buf key)^[d] s.idx.rootPageNum = l)
    (hroom : (s.buf.file l).leaf.numOccupied < s.idx.leafOccupancy) :
    ∃ s', insertEntry key rid s = .ok () s' ∧ s'.idx = s.idx ∧ s'.buf.numPages = s.buf.numPages ∧
      s'.buf.fresh = s.buf.fresh ∧ Shape s' d (sortedInsert (key, rid) es) ls ∧
      (s'.buf.file l).leaf.numOccupied = (s.buf.file l).leaf.numOccupied + 1 ∧
      ∀ q, q ≠ l → (s'.buf.file q).leaf = (s.buf.file q).leaf := by
  obtain ⟨lsL, lsR, hls, hleaf, hrun⟩ := hs.reach key
  rw [hl] at hls hleaf hrun
  obtain ⟨hv, -, -, -, -, -⟩ := hleaf
  obtain ⟨s', hrun', hidx, hnum, hfresh, hfile⟩ : ∃ s',
      insertEntryLeaf key rid l (descend s.buf key d s.idx.rootPageNum).reverse s = .ok () s' ∧ s'.idx = s.idx ∧
      s'.buf.numPages = s.buf.numPages ∧ s'.buf.fresh = s.buf.fresh ∧
      s'.buf.file = Function.update s.buf.file l { s.buf.file l with leaf := leafInsert key rid (s.buf.file l).leaf } :=
    ⟨_, insertEntryLeaf_inPlace hv hroom, rfl, rfl, rfl, by simp⟩
  have hnew : (s'.buf.file l).leaf = leafInsert key rid (s.buf.file l).leaf := by simp [hfile]
  have hother : ∀ q, q ≠ l → (s'.buf.file q).leaf = (s.buf.file q).leaf := fun q hq => by
    rw [hfile, Function.update_noteq hq]
  have hF : Frame s.buf s'.buf 0 l :=
    ⟨hnum.ge, fun q _ hq => hother q hq, fun q _ hne => absurd (hfile ▸ (update_leaf_views _ _ _ q).1) hne⟩
  -- the leaf, rewritten in place
  have hloc : ∀ {es' ls'}, Subtree s.buf s.idx.leafOccupancy s.idx.nodeOccupancy 0 l es' ls' → ls'.Nodup →
      (∀ x ∈ es', x.1 ≠ key) → l ∈ ls' ∧
        ∃ ls'', Subtree s'.buf s.idx.leafOccupancy s.idx.nodeOccupancy 0 l (sortedInsert (key, rid) es') ls'' ∧
          ls' = ls'' := by
    rintro es' ls' ⟨hv, h0, -, hasc, rfl, rfl⟩ - hk
    refine ⟨List.mem_singleton_self l, [l], ⟨hF.valid hv, ?_⟩, rfl⟩
    rw [hnew, (leafInsert_fields key rid _).1, leafInsert_entries rid h0 hasc hk]
    exact ⟨by omega, by omega, hasc.sortedInsert hk, rfl, rfl⟩
  obtain ⟨-, lsL', lsC, _, lsR', rfl, rfl, htree⟩ :=
    subtree_insert_path hF (key, rid) hloc d hl (by rw [Nat.zero_add]; exact hs.tree) hs.distinct hkey
  rw [Nat.zero_add] at htree
  have hsib : ∀ q, (s'.buf.file q).leaf.rightSibPageNo = (s.buf.file q).leaf.rightSibPageNo := fun q => by
    by_cases hq : q = l
    · rw [hq, hnew, (leafInsert_fields key rid _).2]
    · rw [hother q hq]
  refine ⟨s', (insertEntry_of_search hrun).trans hrun', hidx, hnum, hfresh, ⟨hidx ▸ htree, hs.linked.frame fun q _ => hsib q,
    hs.distinct, hidx ▸ hs.onlyOneRoot, ?_⟩, by rw [hnew, (leafInsert_fields key rid _).1], hother⟩
  rw [hidx, hfile, (update_leaf_views _ _ _ _).2]
  exact hs.header

/-- **The leaf reached is full, its parent has room.** `insertEntry` splits the leaf and inserts the separator into
the parent in place: the tree keeps the invariant and its height and holds the sorted insertion. -/
theorem insertEntry_splitLeaf_shape (hs : Shape s (d + 1) es ls) (hkey : ∀ x ∈ es, x.1 ≠ key)
    (hL : 3 ≤ s.idx.leafOccupancy) (hh : s.buf.Valid s.idx.headerPageNum)
    (hp : (childFor s.buf key)^[d] s.idx.rootPageNum = p) (hl : childFor s.buf key p = l)
    (hfull : s.idx.leafOccupancy ≤ (s.buf.file l).leaf.numOccupied)
    (hroom : (s.buf.file p).node.numOccupied < s.idx.nodeOccupancy) :
    ∃ s', insertEntry key rid s = .ok () s' ∧ s'.idx = s.idx ∧ s'.buf.numPages = s.buf.numPages + 1 ∧
      s'.buf.fresh = s.buf.fresh ∧ ∃ A B, ls = A ++ l :: B ∧
        Shape s' (d + 1) (sortedInsert (key, rid) es) (A ++ l :: (s.buf.numPages + 1) :: B) ∧
        (∀ q ∈ A ++ B, (s'.buf.file q).leaf = (s.buf.file q).leaf) ∧
        SplitInto (s.buf.file l).leaf (key, rid) s.idx.leafOccupancy (s.buf.numPages + 1) (s'.buf.file l).leaf
          (s'.buf.file (s.buf.numPages + 1)).leaf := by
  obtain ⟨lsL, lsR, hls, hleaf, hrun⟩ := hs.reach key
  rw [Function.iterate_succ_apply', hp, hl] at hls hleaf hrun
  rw [descend_succ, hp, List.reverse_append, List.reverse_singleton, List.singleton_append] at hrun
  obtain ⟨hv, -, hLl, hasc, -, -⟩ := hleaf
  have hkl : ∀ x ∈ (s.buf.file l).leaf.entries, x.1 ≠ key := fun x hx => hkey x (by rw [hs.entries_around hls]; simp [hx])
  -- the parent: just above the leaves, the first page of the path
  have ⟨hpv, hplev⟩ := subtree_iterate key hs.tree d le_rfl
  rw [hp] at hpv hplev
  rw [if_pos rfl] at hplev
  have hlp : l ∈ (s.buf.file p).node.children := by
    obtain ⟨j, -, -, -, hcj⟩ := childFor_route key p
    rw [hl] at hcj
    exact List.getElem?_mem hcj
  -- the split, then the insertion into the parent
  obtain ⟨s₁, hsplit, hidx, hnum, hfile, hleft, hright, hfresh, hkeep⟩ := @splitLeaf_spec s key rid l (p :: (descend s.buf key d s.idx.rootPageNum).reverse) hv
  rw [← hright] at hsplit
  have hsp : SplitInto (s.buf.file l).leaf (key, rid) s.idx.leafOccupancy (s.buf.numPages + 1) (s₁.buf.file l).leaf
      (s₁.buf.file (s.buf.numPages + 1)).leaf := by
    rw [hleft, hright]
    exact splitLeafLoop_splitInto (le_antisymm hLl hfull) hL hasc hkl
  have hpn : p ≠ s.buf.numPages + 1 := Nat.ne_of_lt (Nat.lt_succ_of_le hpv.2)
  have hpnode : (s₁.buf.file p).node = (s.buf.file p).node := (hkeep p hpn).1
  have hp₁ : s₁.buf.Valid p := ⟨hpv.1, hnum ▸ Nat.le_succ_of_le hpv.2⟩
  set s' := insertedInPlace s₁ ((s₁.buf.file (s.buf.numPages + 1)).leaf.keyArray 0) p (s.buf.numPages + 1) true
  have hrun' : insertEntry key rid s = .ok () s' := by
    rw [insertEntry_of_search hrun, insertEntryLeaf_full hv hfull, hsplit]
    exact insertEntryInternal_inPlace hp₁ (by rw [hpnode, hidx]; exact hroom.le)
  have hleaf' : ∀ q, (s'.buf.file q).leaf = (s₁.buf.file q).leaf := fun q => (insertedInPlace_views q).1
  have hsp' : SplitInto (s.buf.file l).leaf (key, rid) s.idx.leafOccupancy (s.buf.numPages + 1)
      (s'.buf.file l).leaf (s'.buf.file (s.buf.numPages + 1)).leaf := by
    rw [hleaf', hleaf']; exact hsp
  have hF : Frame s.buf s'.buf 1 l := by
    refine ⟨by simp [s', hnum], fun q hq hql => ?_, fun q hq hne => ?_⟩
    · rw [hleaf', hfile q hql (Nat.ne_of_lt (Nat.lt_succ_of_le hq.2))]
    · by_cases hqp : q = p
      · exact hqp ▸ ⟨rfl, hplev, hlp⟩
      · exact absurd (by rw [insertedInPlace_file_of_ne hqp, (hkeep q (Nat.ne_of_lt (Nat.lt_succ_of_le hq.2))).1]) hne
  have hnv : s'.buf.Valid (s.buf.numPages + 1) := ⟨Nat.succ_pos _, by simp [s', hnum]⟩
  have hnode : (s'.buf.file p).node =
      internalInsert ((s'.buf.file (s.buf.numPages + 1)).leaf.keyArray 0) (s.buf.numPages + 1) true (s.buf.file p).node := by
    rw [insertedInPlace_node, hpnode, hleaf']
  -- the parent rebuilt, the rest of the path kept
  obtain ⟨-, lsL', _, _, lsR', rfl, ⟨A, B, rfl, rfl⟩, htree⟩ :=
    subtree_insert_path hF (key, rid) (fun hsub hnd hk => subtree_split_child hF hL hsub hnd hk hl hroom hsp' hnv hnode)
      d hp (by rw [Nat.add_comm]; exact hs.tree) hs.distinct hkey
  have hnd := hs.distinct
  rw [show lsL' ++ (A ++ l :: B) ++ lsR' = (lsL' ++ A) ++ l :: (B ++ lsR') by simp] at hnd hs ⊢
  rw [show lsL' ++ (A ++ l :: (s.buf.numPages + 1) :: B) ++ lsR' = (lsL' ++ A) ++ l :: (s.buf.numPages + 1) :: (B ++ lsR')
    by simp, Nat.add_comm] at htree
  -- the leaves other than `l` are kept
  have hAB : ∀ q ∈ (lsL' ++ A) ++ (B ++ lsR'), (s'.buf.file q).leaf = (s.buf.file q).leaf := by
    intro q hq
    have hql : q ≠ l := fun h => (List.nodup_middle.1 hnd |> List.nodup_cons.1).1 (h ▸ hq)
    exact hF.leaf q (hs.valid_leaf (List.mem_append.2 ((List.mem_append.1 hq).imp id (List.mem_cons_of_mem _)))) hql
  refine ⟨s', hrun', hidx, by simp [s', hnum], hfresh, _, _, rfl, ⟨hidx ▸ htree, ?_, ?_, hidx ▸ hs.onlyOneRoot, ?_⟩, hAB, hsp'⟩
  · exact Linked.split hsp'.link hsp'.sibling _ (fun q hq => by rw [hAB q hq]) hs.linked
  · have hn : s.buf.numPages + 1 ∉ lsL' ++ A ++ l :: (B ++ lsR') := fun h =>
      absurd (hs.valid_leaf h).2 (Nat.not_succ_le_self _)
    rw [show lsL' ++ A ++ l :: (s.buf.numPages + 1) :: (B ++ lsR') =
      (lsL' ++ A ++ [l]) ++ (s.buf.numPages + 1) :: (B ++ lsR') by simp, List.nodup_middle, List.nodup_cons]
    exact ⟨by simpa using hn, by simpa using hnd⟩
  · rw [show s'.idx = s.idx from hidx, (insertedInPlace_views _).2, (hkeep _ (Nat.ne_of_lt (Nat.lt_succ_of_le hh.2))).2]
    exact hs.header

/-- **The root is a full leaf.** `insertEntry` splits it and grows a new root over the two leaves: the tree keeps the
invariant, one level higher, with the sorted insertion, when the page given for the root counted no keys. -/
theorem insertEntry_newRoot_shape (hs : Shape s 0 es ls) (hkey : ∀ x ∈ es, x.1 ≠ key)
    (hL : 3 ≤ s.idx.leafOccupancy) (hI : 1 ≤ s.idx.nodeOccupancy) (hh : s.buf.Valid s.idx.headerPageNum)
    (hfresh : (s.buf.fresh (s.buf.numPages + 2)).node.numOccupied = 0)
    (hfull : s.idx.leafOccupancy ≤ (s.buf.file s.idx.rootPageNum).leaf.numOccupied) :
    ∃ s', insertEntry key rid s = .ok () s' ∧
      s'.idx = { s.idx with onlyOneRoot := false, rootPageNum := s.buf.numPages + 2 } ∧
      s'.buf.numPages = s.buf.numPages + 2 ∧ s'.buf.fresh = s.buf.fresh ∧
      Shape s' 1 (sortedInsert (key, rid) es) [s.idx.rootPageNum, s.buf.numPages + 1] ∧
      SplitInto (s.buf.file s.idx.rootPageNum).leaf (key, rid) s.idx.leafOccupancy (s.buf.numPages + 1)
        (s'.buf.file s.idx.rootPageNum).leaf (s'.buf.file (s.buf.numPages + 1)).leaf := by
  obtain ⟨hv, -, hLr, hasc, rfl, rfl⟩ := hs.tree
  rw [show s.buf.numPages + 2 = s.buf.numPages + 1 + 1 from rfl] at hfresh ⊢
  have hrun := @searchEntry_leaf s key s.buf.numPages s.idx.rootPageNum [] (hs.onlyOneRoot.2 rfl)
  -- the split, then the new root
  obtain ⟨s₁, hsplit, hidx, hnum, -, hleft, hright, hfresh₁, hkeep⟩ := @splitLeaf_spec s key rid s.idx.rootPageNum [] hv
  rw [← hright] at hsplit
  have hsp : SplitInto (s.buf.file s.idx.rootPageNum).leaf (key, rid) s.idx.leafOccupancy (s.buf.numPages + 1)
      (s₁.buf.file s.idx.rootPageNum).leaf (s₁.buf.file (s.buf.numPages + 1)).leaf := by
    rw [hleft, hright]
    exact splitLeafLoop_splitInto (le_antisymm hLr hfull) hL hasc hkey
  have hhn : s.idx.headerPageNum ≠ s.buf.numPages + 1 := Nat.ne_of_lt (Nat.lt_succ_of_le hh.2)
  obtain ⟨s', hroot, hidx', hnum', hfresh', hnode, hhead, hkeep'⟩ :=
    newRootOfLeaf_spec s₁ (by rw [hidx]; exact ⟨hh.1, hnum ▸ Nat.le_succ_of_le hh.2⟩) s.idx.rootPageNum
      ((s₁.buf.file (s.buf.numPages + 1)).leaf.keyArray 0) (s.buf.numPages + 1)
  rw [hidx, hnum] at hidx' hhead
  rw [hnum, hfresh₁] at hnode
  rw [hnum] at hnum' hkeep'
  have hrn : s.idx.rootPageNum ≠ s.buf.numPages + 1 := Nat.ne_of_lt (Nat.lt_succ_of_le hv.2)
  have hrn' : s.idx.rootPageNum ≠ s.buf.numPages + 1 + 1 := Nat.ne_of_lt (Nat.lt_succ_of_le (Nat.le_succ_of_le hv.2))
  have hnn : s.buf.numPages + 1 ≠ s.buf.numPages + 1 + 1 := (Nat.succ_ne_self _).symm
  have hsp' : SplitInto (s.buf.file s.idx.rootPageNum).leaf (key, rid) s.idx.leafOccupancy (s.buf.numPages + 1)
      (s'.buf.file s.idx.rootPageNum).leaf (s'.buf.file (s.buf.numPages + 1)).leaf := by
    rw [(hkeep' _ hrn').1, (hkeep' _ hnn).1]; exact hsp
  -- the new root: one separator over the two leaves
  have hkeys : (s'.buf.file (s.buf.numPages + 1 + 1)).node.keys =
      [(s'.buf.file (s.buf.numPages + 1)).leaf.keyArray 0] := by
    rw [(hkeep' _ hnn).1, hnode]
    simp [NonLeafNodeInt.keys, hfresh, List.range_succ]
  have hchildren : (s'.buf.file (s.buf.numPages + 1 + 1)).node.children = [s.idx.rootPageNum, s.buf.numPages + 1] := by
    rw [hnode]
    simp [NonLeafNodeInt.children, hfresh, List.range_succ]
  have hvalid : ∀ q, 0 < q → q ≤ s.buf.numPages + 1 + 1 → s'.buf.Valid q := fun q h0 hq => ⟨h0, hnum' ▸ hq⟩
  refine ⟨s', by rw [insertEntry_of_search hrun, insertEntryLeaf_full hv hfull, hsplit]; exact hroot, hidx', hnum',
    hfresh'.trans hfresh₁, ⟨?_, ?_, ?_, by simp [hidx'], ?_⟩, hsp'⟩
  · rw [hidx']
    refine ⟨hvalid _ (Nat.succ_pos _) le_rfl, by simp [hnode, hfresh], by simp [hnode, hfresh, hI], by simp [hnode], ?_⟩
    rw [hkeys, hchildren]
    exact hsp'.children hL (hvalid _ hv.1 (Nat.le_succ_of_le (Nat.le_succ_of_le hv.2)))
      (hvalid _ (Nat.succ_pos _) (Nat.le_succ _))
      (hasc.sortedInsert hkey) trivial
  · exact Linked.split hsp'.link hsp'.sibling [] (fun _ h => nomatch h) hs.linked
  · simp [hrn]
  · rw [hidx']; exact hhead

/-- **`insertEntry` keeps the tree well formed.** A new key is inserted so that the tree keeps the invariant and
holds the sorted insertion of the entry, when a full leaf reached has a parent with room. -/
theorem insertEntry_keeps_shape (hs : Shape s d es ls) (hkey : ∀ x ∈ es, x.1 ≠ key)
    (hL : 3 ≤ s.idx.leafOccupancy) (hI : 1 ≤ s.idx.nodeOccupancy) (hh : s.buf.Valid s.idx.headerPageNum)
    (hfresh : (s.buf.fresh (s.buf.numPages + 2)).node.numOccupied = 0)
    (hroom : ∀ l p ps, searchEntry key s.buf.numPages s.idx.rootPageNum [] s = .ok (l, p :: ps) s →
      s.idx.leafOccupancy ≤ (s.buf.file l).leaf.numOccupied → (s.buf.file p).node.numOccupied < s.idx.nodeOccupancy) :
    ∃ s' d' ls', insertEntry key rid s = .ok () s' ∧ Shape s' d' (sortedInsert (key, rid) es) ls' ∧
      s'.idx.leafOccupancy = s.idx.leafOccupancy ∧ s'.idx.nodeOccupancy = s.idx.nodeOccupancy := by
  by_cases hfull : s.idx.leafOccupancy ≤ (s.buf.file ((childFor s.buf key)^[d] s.idx.rootPageNum)).leaf.numOccupied
  · cases d with
    | zero =>
      obtain ⟨s', hrun, hidx, -, -, hs', -⟩ := insertEntry_newRoot_shape hs hkey hL hI hh hfresh hfull
      exact ⟨s', 1, _, hrun, hs', by rw [hidx], by rw [hidx]⟩
    | succ d =>
      obtain ⟨-, -, -, -, hrun⟩ := hs.reach key
      rw [descend_succ, List.reverse_append, List.reverse_singleton, List.singleton_append] at hrun
      obtain ⟨s', hrun', hidx, -, -, _, _, -, hs', -⟩ := insertEntry_splitLeaf_shape hs hkey hL hh rfl
        (Function.iterate_succ_apply' _ _ _).symm hfull (hroom _ _ _ hrun hfull)
      exact ⟨s', d + 1, _, hrun', hs', by rw [hidx], by rw [hidx]⟩
  · obtain ⟨s', hrun, hidx, -, -, hs', -⟩ := insertEntry_inPlace_shape hs hkey rfl (not_le.1 hfull)
    exact ⟨s', d, ls, hrun, hs', by rw [hidx], by rw [hidx]⟩

end Paths

/-- The theorem at `fullRootLeaf`: `3` goes into the full root leaf `1, 2, 4`, which is split under a new root. -/
theorem insertEntry_sample_keeps_shape :
    (Shape fullRootLeaf 0 (fullRootLeaf.buf.file 2).leaf.entries [2] ∧
      (∀ x ∈ (fullRootLeaf.buf.file 2).leaf.entries, x.1 ≠ 3) ∧ 3 ≤ fullRootLeaf.idx.leafOccupancy ∧
      1 ≤ fullRootLeaf.idx.nodeOccupancy ∧ fullRootLeaf.buf.Valid fullRootLeaf.idx.headerPageNum ∧
      (fullRootLeaf.buf.fresh (fullRootLeaf.buf.numPages + 2)).node.numOccupied = 0 ∧
      ∀ l p ps, searchEntry 3 fullRootLeaf.buf.numPages fullRootLeaf.idx.rootPageNum [] fullRootLeaf =
        .ok (l, p :: ps) fullRootLeaf → fullRootLeaf.idx.leafOccupancy ≤ (fullRootLeaf.buf.file l).leaf.numOccupied →
        (fullRootLeaf.buf.file p).node.numOccupied < fullRootLeaf.idx.nodeOccupancy) ∧
    ∃ s' d' ls', insertEntry 3 ⟨1, 3⟩ fullRootLeaf = .ok () s' ∧
      Shape s' d' (sortedInsert (3, ⟨1, 3⟩) (fullRootLeaf.buf.file 2).leaf.entries) ls' ∧
      s'.idx.leafOccupancy = fullRootLeaf.idx.leafOccupancy ∧ s'.idx.nodeOccupancy = fullRootLeaf.idx.nodeOccupancy :=
  have hs : Shape fullRootLeaf 0 (fullRootLeaf.buf.file 2).leaf.entries [2] :=
    ⟨⟨by decide, by decide, by decide, by decide, rfl, rfl⟩, rfl, by decide, by decide, rfl⟩
  have hroom : ∀ l p ps, searchEntry 3 fullRootLeaf.buf.numPages fullRootLeaf.idx.rootPageNum [] fullRootLeaf =
      .ok (l, p :: ps) fullRootLeaf → fullRootLeaf.idx.leafOccupancy ≤ (fullRootLeaf.buf.file l).leaf.numOccupied →
      (fullRootLeaf.buf.file p).node.numOccupied < fullRootLeaf.idx.nodeOccupancy := fun _ _ _ h _ => by
    rw [searchEntry_leaf rfl] at h; cases h
  ⟨⟨hs, by decide, by decide, by decide, by decide, rfl, hroom⟩,
    insertEntry_keeps_shape hs (by decide) (by decide) (by decide) (by decide) rfl hroom⟩

end BadgerBTree
