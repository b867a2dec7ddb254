import BadgerBTree.Tree
import BadgerBTree.Index
import Mathlib.Order.Interval.Finset.Nat

/-!
# The descent of `searchEntry`

At each internal node `searchEntry` takes the child after the keys below the probe (`searchIndex_spec`). Over a
tree with the structural invariant it ends at a leaf `l` that splits the leaves into those before it, all of
whose keys are below the probe, and those after it, all of whose keys are at least the probe
(`searchEntry_subtree`); it reads and unpins one page per level and changes nothing.

The pages it passes are distinct (`descend_nodup`), since a page met twice would make the descent periodic and
bring a node of `level = 0` to the level above the leaves; so the tree is lower than the file has pages
(`subtree_height_lt`), and the `numPages` steps `searchEntry` is given are enough.

A probe equal to a separator goes to the child left of it, whose keys are all below the probe: the leaf
`searchEntry` returns is then not the one that stores the probe (`searchEntry_reaches_leaf`).
-/

namespace BadgerBTree

/-! ## The loop over the keys of a node -/

/-- `searchIndex` stops at the first slot from `i` whose key is not below `key`, or after `rem` slots. -/
theorem searchIndex_spec (K : Int → Int) (key : Int) : ∀ (rem : Nat) (i : Int),
    i ≤ searchIndex K key rem i ∧ searchIndex K key rem i ≤ i + rem ∧
      (∀ t, i ≤ t → t < searchIndex K key rem i → K t < key) ∧
      (searchIndex K key rem i < i + rem → key ≤ K (searchIndex K key rem i))
  | 0, i => ⟨le_rfl, by simp [searchIndex], fun t h1 h2 => absurd h2 (not_lt.2 h1), fun h => by simp [searchIndex] at h⟩
  | rem + 1, i => by
    by_cases h : K i < key
    · obtain ⟨h1, h2, h3, h4⟩ := searchIndex_spec K key rem (i + 1)
      simp only [searchIndex, if_pos h]
      refine ⟨by omega, by push_cast; omega, fun t ht ht' => ?_, fun h' => h4 (by push_cast at h'; omega)⟩
      rcases eq_or_lt_of_le ht with rfl | ht
      · exact h
      · exact h3 t (by omega) ht'
    · simp only [searchIndex, if_neg h]
      exact ⟨le_rfl, by omega, fun t h1 h2 => absurd h2 (not_lt.2 h1), fun _ => not_lt.1 h⟩

/-- The child `searchEntry` descends to from page `p`. -/
def childFor (b : BufMgr) (key : Int) (p : PageId) : PageId :=
  let n := (b.file p).node
  n.pageNoArray (searchIndex n.keyArray key n.numOccupied.toNat 0)

/-- The internal pages `searchEntry` passes from `p` down `d` levels, `p` first. -/
def descend (b : BufMgr) (key : Int) : Nat → PageId → List PageId
  | 0, _ => []
  | d + 1, p => p :: descend b key d (childFor b key p)

/-- `Path b p ps l`: from page `p` down through the internal pages `ps`, `p` first, to the leaf `l`, each page a
child of the one before. -/
inductive Path (b : BufMgr) : PageId → List PageId → PageId → Prop
  | leaf (p : PageId) : Path b p [] p
  | node {p c l : PageId} {ps : List PageId} :
      c ∈ (b.file p).node.children → Path b c ps l → Path b p (p :: ps) l

/-! ## Routing through the children of a node -/

section Route

variable {b : BufMgr} {L I : Int} (key : Int)

/-- Past the `j` separators below `key`, and not past one at least `key`: the `j`-th child, with every key of the
children before it below `key` and every key of those after it at least `key`. -/
theorem children_route {T : PageId → List Entry → List PageId → Prop}
    (hT : ∀ c es ls, T c es ls → es = leafEntries b ls ∧ Ascending es) :
    ∀ {lo ks cs es ls} (j : Nat), Children T lo ks cs es ls → j ≤ ks.length →
      (∀ t k, t < j → ks[t]? = some k → k < key) → (∀ k, ks[j]? = some k → key ≤ k) →
      ∃ c esC lsL lsC lsR, cs[j]? = some c ∧ T c esC lsC ∧ ls = lsL ++ lsC ++ lsR ∧
        (∀ e ∈ leafEntries b lsL, e.1 < key) ∧ ∀ e ∈ leafEntries b lsR, key ≤ e.1 := by
  intro lo ks cs es ls j h
  induction h generalizing j with
  | @last lo c es ls hc _ =>
    intro hj _ _
    obtain rfl : j = 0 := by simpa using hj
    exact ⟨c, es, [], ls, [], by simp, hc, by simp, by simp [leafEntries], by simp [leafEntries]⟩
  | @cons lo k ks c cs es es' ls ls' hc _ hlt hr ih =>
    intro hj hbelow hat
    cases j with
    | zero =>
      refine ⟨c, es, [], ls, ls', by simp, hc, by simp, by simp [leafEntries], fun e he => ?_⟩
      rw [← children_entries (fun c es ls h => (hT c es ls h).1) hr] at he
      exact (hat k (by simp)).trans (children_ge (fun c es ls h => (hT c es ls h).2) hr e he)
    | succ j =>
      have hk : k < key := hbelow 0 k (Nat.succ_pos _) (by simp)
      obtain ⟨c', esC, lsL, lsC, lsR, hc', hT', rfl, hL, hR⟩ :=
        ih j (by simpa using hj) (fun t k' ht h' => hbelow (t + 1) k' (by omega) (by simpa using h'))
          (fun k' h' => hat k' (by simpa using h'))
      refine ⟨c', esC, ls ++ lsL, lsC, lsR, by simpa using hc', hT', by simp, fun e he => ?_, hR⟩
      rcases List.mem_append.1 ((leafEntries_append ls lsL).symm ▸ he) with he | he
      · exact ((hlt e ((hT c es ls hc).1 ▸ he)).trans hk)
      · exact hL e he

/-- The child `searchEntry` takes at page `p`, as a position `j` among the separators: past those below `key`, not
past one at least `key`. -/
theorem childFor_route (p : PageId) :
    ∃ j : Nat, j ≤ (b.file p).node.keys.length ∧ (∀ t k, t < j → (b.file p).node.keys[t]? = some k → k < key) ∧
      (∀ k, (b.file p).node.keys[j]? = some k → key ≤ k) ∧ (b.file p).node.children[j]? = some (childFor b key p) := by
  set n := (b.file p).node
  obtain ⟨hj0, hjN, hbelow, hat⟩ := searchIndex_spec n.keyArray key n.numOccupied.toNat 0
  set j := searchIndex n.keyArray key n.numOccupied.toNat 0 with hj
  have hlen : n.keys.length = n.numOccupied.toNat := by simp [NonLeafNodeInt.keys]
  refine ⟨j.toNat, by omega, fun t k ht htk => ?_, fun k hk => ?_, ?_⟩
  · have htN : t < n.numOccupied.toNat := by omega
    simp only [NonLeafNodeInt.keys, List.getElem?_map, List.getElem?_range htN, Option.map_some',
      Option.some.injEq] at htk
    exact htk ▸ hbelow t (by omega) (by omega)
  · have hjN' : j.toNat < n.numOccupied.toNat := hlen ▸ (List.getElem?_eq_some_iff.1 hk).1
    simp only [NonLeafNodeInt.keys, List.getElem?_map, List.getElem?_range hjN', Option.map_some',
      Option.some.injEq, Int.toNat_of_nonneg hj0] at hk
    exact hk ▸ hat (by omega)
  · simp only [NonLeafNodeInt.children, List.getElem?_map,
      List.getElem?_range (show j.toNat < n.numOccupied.toNat + 1 by omega), Option.map_some',
      Int.toNat_of_nonneg hj0]
    rfl

/-- `searchEntry`'s step at an internal node of a tree: to a child one level down, past leaves whose keys are all
below `key` and before leaves whose keys are all at least `key`. -/
theorem subtree_route {d : Nat} {p : PageId} {es : List Entry} {ls : List PageId}
    (h : Subtree b L I (d + 1) p es ls) :
    ∃ esC lsL lsC lsR, ls = lsL ++ lsC ++ lsR ∧ childFor b key p ∈ (b.file p).node.children ∧
      Subtree b L I d (childFor b key p) esC lsC ∧
      (∀ e ∈ leafEntries b lsL, e.1 < key) ∧ ∀ e ∈ leafEntries b lsR, key ≤ e.1 := by
  obtain ⟨-, -, -, -, hc⟩ := h
  obtain ⟨j, hjl, hbelow, hat, hcj⟩ := childFor_route key p
  obtain ⟨c, esC, lsL, lsC, lsR, hcj', hC, rfl, hL, hR⟩ :=
    children_route key (fun _ _ _ h => ⟨subtree_entries d h, subtree_ascending d h⟩) j hc hjl hbelow hat
  obtain rfl : c = childFor b key p := Option.some.inj (hcj'.symm.trans hcj)
  exact ⟨esC, lsL, lsC, lsR, rfl, List.getElem?_mem hcj, hC, hL, hR⟩

end Route

/-! ## The descent -/

section Descent

variable {b : BufMgr} {L I : Int}

@[simp]
theorem length_descend (key : Int) : ∀ (d : Nat) (p : PageId), (descend b key d p).length = d
  | 0, _ => rfl
  | d + 1, _ => by simp [descend, length_descend key d]

theorem descend_eq_map (key : Int) : ∀ (d : Nat) (p : PageId),
    descend b key d p = (List.range d).map fun t => (childFor b key)^[t] p
  | 0, _ => rfl
  | d + 1, p => by
    rw [descend, descend_eq_map key d, List.range_succ_eq_map, List.map_cons, List.map_map]
    rfl

/-- The descent one level deeper ends at the page `d` steps down. -/
theorem descend_succ (key : Int) : ∀ (d : Nat) (p : PageId),
    descend b key (d + 1) p = descend b key d p ++ [(childFor b key)^[d] p]
  | 0, _ => rfl
  | d + 1, p => by rw [descend, descend_succ key d, descend, Function.iterate_succ_apply]; rfl

/-- The `t`-th page of the descent is a page of the file, at `level = 1` exactly when it is the last. -/
theorem subtree_iterate (key : Int) : ∀ {d : Nat} {p : PageId} {es : List Entry} {ls : List PageId},
    Subtree b L I (d + 1) p es ls → ∀ t ≤ d,
      b.Valid ((childFor b key)^[t] p) ∧ (b.file ((childFor b key)^[t] p)).node.level = if t = d then 1 else 0
  | d, _, _, _, h, 0, _ => by
    simp only [Function.iterate_zero, id_eq]
    exact ⟨h.1, by rw [h.2.2.2.1]; simp [eq_comm]⟩
  | d + 1, p, _, _, h, t + 1, ht => by
    obtain ⟨_, _, _, _, -, -, hC, -, -⟩ := subtree_route key h
    rw [Function.iterate_succ_apply]
    simpa using subtree_iterate key hC t (by omega)

/-- Two pages of the descent at different depths differ: after `d - y` more steps both would reach the level
above the leaves. -/
theorem iterate_ne (key : Int) {d : Nat} {p : PageId} {es : List Entry} {ls : List PageId}
    (h : Subtree b L I (d + 1) p es ls) {x y : Nat} (hlt : x < y) (hy : y ≤ d) :
    (childFor b key)^[x] p ≠ (childFor b key)^[y] p := by
  intro hxy
  have hlast : (childFor b key)^[d - y + x] p = (childFor b key)^[d] p := by
    rw [Function.iterate_add_apply, hxy, ← Function.iterate_add_apply, Nat.sub_add_cancel hy]
  have h1 := (subtree_iterate key h (d - y + x) (by omega)).2
  rw [hlast, (subtree_iterate key h d le_rfl).2, if_pos rfl, if_neg (by omega)] at h1
  exact absurd h1 (by decide)

/-- The descent meets no page twice. -/
theorem descend_nodup (key : Int) {d : Nat} {p : PageId} {es : List Entry} {ls : List PageId}
    (h : Subtree b L I (d + 1) p es ls) : (descend b key (d + 1) p).Nodup := by
  rw [descend_eq_map]
  refine List.Nodup.map_on (fun x hx y hy hxy => ?_) (List.nodup_range _)
  rw [List.mem_range] at hx hy
  rcases lt_trichotomy x y with hlt | rfl | hlt
  exacts [absurd hxy (iterate_ne key h hlt (by omega)), rfl, absurd hxy.symm (iterate_ne key h hlt (by omega))]

/-- A tree is lower than its file has pages. -/
theorem subtree_height_lt {d : Nat} {p : PageId} {es : List Entry} {ls : List PageId}
    (h : Subtree b L I (d + 1) p es ls) : d < b.numPages := by
  have hsub : (descend b 0 (d + 1) p).toFinset ⊆ Finset.Icc 1 b.numPages := by
    intro q hq
    rw [List.mem_toFinset, descend_eq_map, List.mem_map] at hq
    obtain ⟨t, ht, rfl⟩ := hq
    have := (subtree_iterate 0 h t (Nat.lt_succ_iff.1 (List.mem_range.1 ht))).1
    exact Finset.mem_Icc.2 ⟨this.1, this.2⟩
  have := Finset.card_le_card hsub
  rw [List.toFinset_card_of_nodup (descend_nodup 0 h), length_descend, Nat.card_Icc] at this
  omega

end Descent

/-! ## `searchEntry` -/

section SearchEntry

variable {s : Sys} {L I : Int}

theorem searchEntry_leaf {key : Int} {fuel : Nat} {p : PageId} {visited : List PageId}
    (h : s.idx.onlyOneRoot = true) : searchEntry key fuel p visited s = .ok (p, visited) s := by
  unfold searchEntry
  simp only [members_bind, h, if_true]
  rfl

theorem searchEntry_node {key : Int} {fuel : Nat} {p : PageId} {visited : List PageId}
    (h : s.idx.onlyOneRoot = false) (hv : s.buf.Valid p) :
    searchEntry key (fuel + 1) p visited s =
      if (s.buf.file p).node.level = 0 then searchEntry key fuel (childFor s.buf key p) (p :: visited) s
      else .ok (childFor s.buf key p, p :: visited) s := by
  have hpin : ({ s with buf := s.buf.pin p } : Sys).buf.pinCount p ≠ 0 := by simp [BufMgr.pin]
  conv_lhs => unfold searchEntry
  simp only [members_bind, h, Bool.false_eq_true, if_false, pure_bind, readPage_bind _ hv]
  split <;> simp only [unPinPage_bind _ hpin, BufMgr.release_pin, pure_bind] <;> rfl

theorem searchEntry_zero {key : Int} {p : PageId} {visited : List PageId} (h : s.idx.onlyOneRoot = false) :
    searchEntry key 0 p visited s = .error .SearchDiverges s := by
  unfold searchEntry
  simp only [members_bind, h, Bool.false_eq_true, if_false, pure_bind]
  rfl

theorem searchEntry_invalid {key : Int} {fuel : Nat} {p : PageId} {visited : List PageId}
    (h : s.idx.onlyOneRoot = false) (hv : ¬s.buf.Valid p) :
    searchEntry key (fuel + 1) p visited s = .error .InvalidPage s := by
  unfold searchEntry
  simp only [members_bind, h, Bool.false_eq_true, if_false, pure_bind, bind_error (readPage_error hv)]

/-- `searchEntry` reads the file only through the internal-node view of its pages. -/
theorem searchEntry_congr {s' : Sys} (hn : s'.buf.numPages = s.buf.numPages)
    (hnode : ∀ q, (s'.buf.file q).node = (s.buf.file q).node) (h1 : s'.idx.onlyOneRoot = s.idx.onlyOneRoot)
    (key : Int) : ∀ (fuel : Nat) (p : PageId) (visited : List PageId) (r : PageId × List PageId),
      searchEntry key fuel p visited s = .ok r s → searchEntry key fuel p visited s' = .ok r s'
  | fuel, p, visited, r, h => by
    cases hr : s.idx.onlyOneRoot
    · have hr' : s'.idx.onlyOneRoot = false := h1.trans hr
      cases fuel with
      | zero => rw [searchEntry_zero hr] at h; cases h
      | succ fuel =>
        by_cases hv : s.buf.Valid p
        · have hv' : s'.buf.Valid p := by rw [BufMgr.Valid, hn]; exact hv
          have hc : childFor s'.buf key = childFor s.buf key := by funext q; simp [childFor, hnode]
          rw [searchEntry_node hr hv] at h
          rw [searchEntry_node hr' hv', hnode, hc]
          split at h
          · rw [if_pos ‹_›]
            exact searchEntry_congr hn hnode h1 key fuel _ _ r h
          · rw [if_neg ‹_›]
            cases h
            rfl
        · rw [searchEntry_invalid hr hv] at h
          cases h
    · rw [searchEntry_leaf hr] at h
      cases h
      exact searchEntry_leaf (h1.trans hr)

/-- **Routing.** From a node `d + 1` levels above the leaves, with enough steps, `searchEntry` returns the leaf the
descent reaches and the pages passed; the leaves before it are below `key`, those after it at least `key`. -/
theorem searchEntry_subtree (h1 : s.idx.onlyOneRoot = false) (key : Int) :
    ∀ (d fuel : Nat) {p : PageId} {es : List Entry} {ls : List PageId} (visited : List PageId),
      Subtree s.buf L I (d + 1) p es ls → d < fuel →
      ∃ lsL l lsR, ls = lsL ++ l :: lsR ∧ Path s.buf p (descend s.buf key (d + 1) p) l ∧
        Subtree s.buf L I 0 l (s.buf.file l).leaf.entries [l] ∧
        (∀ e ∈ leafEntries s.buf lsL, e.1 < key) ∧ (∀ e ∈ leafEntries s.buf lsR, key ≤ e.1) ∧
        searchEntry key fuel p visited s = .ok (l, (descend s.buf key (d + 1) p).reverse ++ visited) s
  | _, 0, _, _, _, _, _, hf => absurd hf (Nat.not_lt_zero _)
  | 0, fuel + 1, p, _, _, visited, h, _ => by
    obtain ⟨esC, lsL, lsC, lsR, rfl, hmem, hC, hL, hR⟩ := subtree_route key h
    have ⟨_, _, _, _, he, hl⟩ := hC
    subst he hl
    rw [searchEntry_node h1 h.1, h.2.2.2.1]
    exact ⟨lsL, _, lsR, by simp, .node hmem (.leaf _), hC, hL, hR, rfl⟩
  | d + 1, fuel + 1, p, _, _, visited, h, hf => by
    obtain ⟨esC, lsL, lsC, lsR, rfl, hmem, hC, hL, hR⟩ := subtree_route key h
    obtain ⟨lsL', l, lsR', rfl, hpath, hleaf, hL', hR', hrun⟩ :=
      searchEntry_subtree h1 key d fuel (p :: visited) hC (by omega)
    rw [searchEntry_node h1 h.1, h.2.2.2.1, if_pos (if_neg (Nat.succ_ne_zero d)), hrun]
    refine ⟨lsL ++ lsL', l, lsR' ++ lsR, by simp, .node hmem hpath, hleaf, fun e he => ?_, fun e he => ?_,
      by simp [descend]⟩
    · rcases List.mem_append.1 ((leafEntries_append lsL lsL').symm ▸ he) with he | he
      exacts [hL e he, hL' e he]
    · rcases List.mem_append.1 ((leafEntries_append lsR' lsR).symm ▸ he) with he | he
      exacts [hR' e he, hR e he]

/-- From an internal node `d + 1` levels above the leaves, with more than `d` steps, `searchEntry` returns the page
`d + 1` steps of `childFor` reach, and the pages it passed. -/
theorem searchEntry_iterate (h1 : s.idx.onlyOneRoot = false) (key : Int) :
    ∀ (d fuel : Nat) {p : PageId} {es : List Entry} {ls : List PageId} (visited : List PageId),
      Subtree s.buf L I (d + 1) p es ls → d < fuel →
      searchEntry key fuel p visited s =
        .ok ((childFor s.buf key)^[d + 1] p, (descend s.buf key (d + 1) p).reverse ++ visited) s
  | _, 0, _, _, _, _, _, hf => absurd hf (Nat.not_lt_zero _)
  | 0, fuel + 1, p, _, _, visited, h, _ => by
    rw [searchEntry_node h1 h.1, h.2.2.2.1]
    rfl
  | d + 1, fuel + 1, p, _, _, visited, h, hf => by
    obtain ⟨_, _, _, _, -, -, hC, -, -⟩ := subtree_route key h
    rw [searchEntry_node h1 h.1, h.2.2.2.1, if_pos (if_neg (Nat.succ_ne_zero d)),
      searchEntry_iterate h1 key d fuel (p :: visited) hC (by omega), Function.iterate_succ_apply]
    simp [descend]

/-- The leaf `searchEntry` returns from the root splits the leaves into those before it, whose keys are below `key`,
and the rest. -/
theorem Shape.searchEntry_split {d : Nat} {es : List Entry} {ls : List PageId} (hs : Shape s d es ls) (key : Int) :
    ∃ lsL l lsR ps, ls = lsL ++ l :: lsR ∧ (∀ e ∈ leafEntries s.buf lsL, e.1 < key) ∧
      searchEntry key s.buf.numPages s.idx.rootPageNum [] s = .ok (l, ps) s := by
  cases d with
  | zero =>
    obtain ⟨-, -, -, -, -, rfl⟩ := hs.tree
    exact ⟨[], _, [], [], rfl, by simp [leafEntries], searchEntry_leaf (hs.onlyOneRoot.2 rfl)⟩
  | succ d =>
    obtain ⟨lsL, l, lsR, rfl, -, -, hL, -, hrun⟩ :=
      searchEntry_subtree (by simpa using hs.onlyOneRoot) key d s.buf.numPages [] hs.tree (subtree_height_lt hs.tree)
    exact ⟨lsL, l, lsR, _, rfl, hL, hrun⟩

/-- **`searchEntry` from the root.** Within its steps it returns a leaf after leaves below `key` and before leaves
at least `key`, with the internal nodes from the root down, and changes nothing. -/
theorem searchEntry_reaches_leaf {s : Sys} {d : Nat} {es : List Entry} {ls : List PageId}
    (hs : Shape s d es ls) (key : Int) :
    ∃ lsL l lsR ps, ls = lsL ++ l :: lsR ∧ Path s.buf s.idx.rootPageNum ps l ∧ ps.length = d ∧
      (∀ e ∈ leafEntries s.buf lsL, e.1 < key) ∧ (∀ e ∈ leafEntries s.buf lsR, key ≤ e.1) ∧
      searchEntry key s.buf.numPages s.idx.rootPageNum [] s = .ok (l, ps.reverse) s := by
  cases d with
  | zero =>
    obtain ⟨-, -, -, -, -, rfl⟩ := hs.tree
    exact ⟨[], _, [], [], rfl, .leaf _, rfl, by simp [leafEntries], by simp [leafEntries],
      searchEntry_leaf (hs.onlyOneRoot.2 rfl)⟩
  | succ d =>
    have h1 : s.idx.onlyOneRoot = false := by simpa using hs.onlyOneRoot
    obtain ⟨lsL, l, lsR, rfl, hpath, -, hL, hR, hrun⟩ :=
      searchEntry_subtree h1 key d s.buf.numPages [] hs.tree (subtree_height_lt hs.tree)
    exact ⟨lsL, l, lsR, _, rfl, hpath, length_descend .., hL, hR, by simpa using hrun⟩

end SearchEntry

/-- A leaf holding the keys `ks`, the key `k` with the rid `⟨1, k⟩`, and the right sibling `sib`. -/
def sampleLeaf (ks : List Int) (sib : PageId) : LeafNodeInt :=
  ⟨ks.length, fun j => ks.getD j.toNat 0, fun j => ⟨1, (ks.getD j.toNat 0).toNat⟩, sib⟩

/-- Two leaves under a root with the separator `5`: page 3 holds `1, 2` and page 4 holds `5, 6`; page 1 is the
header. -/
def sample : Sys where
  idx :=
    { headerPageNum := 1, rootPageNum := 2, attrByteOffset := 0, attributeType := .INTEGER, leafOccupancy := 2,
      nodeOccupancy := 2, onlyOneRoot := false, scanExecuting := false, nextEntry := 0, currentPageNum := 0,
      lowValInt := 0, highValInt := 0, lowOp := .GTE, highOp := .LTE }
  buf :=
    { file := fun
        | 1 => { Page.zero with meta := { Page.zero.meta with rootPageNo := 2 } }
        | 2 => { Page.zero with node := ⟨1, 1, fun _ => 5, fun j => if j = 0 then 3 else 4⟩ }
        | 3 => { Page.zero with leaf := sampleLeaf [1, 2] 4 }
        | _ => { Page.zero with leaf := sampleLeaf [5, 6] INVALID_NUMBER }
      numPages := 4, fresh := fun _ => Page.zero, pinCount := fun _ => 0, pending := fun _ => false }
  indeterminate := 0

/-- The entries of `sample`, in order. -/
def sampleEntries : List Entry := (sample.buf.file 3).leaf.entries ++ (sample.buf.file 4).leaf.entries

theorem sample_shape : Shape sample 1 sampleEntries [3, 4] where
  tree := by
    refine ⟨by decide, by decide, by decide, rfl, ?_⟩
    show Children (Subtree sample.buf 2 2 0) none [5] [3, 4] _ [3, 4]
    exact @Children.cons _ none 5 [] 3 [4] _ _ [3] [4] ⟨by decide, by decide, by decide, by decide, rfl, rfl⟩ trivial (by decide)
      (.last ⟨by decide, by decide, by decide, by decide, rfl, rfl⟩ rfl)
  linked := ⟨rfl, rfl⟩
  distinct := by decide
  onlyOneRoot := by decide
  header := rfl

/-- On `sample`, `searchEntry` for the separator `5` returns page 3, whose keys are below
`5`, while `5` is stored in page 4 after it. -/
theorem searchEntry_sample_separator :
    (∃ lsL l lsR ps, [3, 4] = lsL ++ l :: lsR ∧ Path sample.buf 2 ps l ∧ ps.length = 1 ∧
      (∀ e ∈ leafEntries sample.buf lsL, e.1 < 5) ∧ (∀ e ∈ leafEntries sample.buf lsR, 5 ≤ e.1) ∧
      searchEntry 5 4 2 [] sample = .ok (l, ps.reverse) sample) ∧
    searchEntry 5 4 2 [] sample = .ok (3, [2]) sample ∧ ((5 : Int), (⟨1, 5⟩ : RecordId)) ∈ leafEntries sample.buf [4] :=
  ⟨searchEntry_reaches_leaf sample_shape 5, by rw [searchEntry_node rfl (by decide)]; rfl, by decide⟩

end BadgerBTree
