import BadgerBTree.BufMgr
import Mathlib.Data.List.Sort

/-!
# The structural invariant

What a stored tree looks like when it is well formed (`Shape`): under the root, a tree of some height whose
leaves hold between `0` and `leafOccupancy` entries with strictly increasing keys, and whose internal nodes hold
at most `nodeOccupancy` keys and one child more; all leaves at the same depth, `level = 1` exactly above the
leaves; the keys under a child below the key to its right, and a child after a key starting with that key
(`Children`); the leaves, left to right, linked by `rightSibPageNo` and ended by `INVALID_NUMBER` (`Linked`);
`onlyOneRoot` exactly when the root is a leaf, and the header naming the root.

`Subtree` is defined by recursion on the height, each internal node's children being `Children` over the
subtrees one level down; the entries of a tree, in order, are those of its leaves left to right
(`subtree_entries`), and their keys increase (`subtree_ascending`).
-/

namespace BadgerBTree

/-- A stored entry: a key and its rid. -/
abbrev Entry := Int × RecordId

namespace LeafNodeInt

/-- The entries `(keyArray[j], ridArray[j])` with `j < numOccupied`, in slot order. -/
def entries (n : LeafNodeInt) : List Entry := (List.range n.numOccupied.toNat).map fun (j : Nat) => (n.keyArray j, n.ridArray j)

end LeafNodeInt

namespace NonLeafNodeInt

/-- `keyArray[0 .. numOccupied)`. -/
def keys (n : NonLeafNodeInt) : List Int := (List.range n.numOccupied.toNat).map fun (j : Nat) => n.keyArray j

/-- `pageNoArray[0 .. numOccupied]`. -/
def children (n : NonLeafNodeInt) : List PageId := (List.range (n.numOccupied.toNat + 1)).map fun (j : Nat) => n.pageNoArray j

end NonLeafNodeInt

/-- The keys of `es` increase strictly. -/
def Ascending (es : List Entry) : Prop := (es.map Prod.fst).Pairwise (· < ·)

instance (es : List Entry) : Decidable (Ascending es) := inferInstanceAs (Decidable (List.Pairwise _ _))

namespace LeafNodeInt

theorem mem_entries {n : LeafNodeInt} {e : Entry} :
    e ∈ n.entries ↔ ∃ t : Nat, t < n.numOccupied.toNat ∧ (n.keyArray t, n.ridArray t) = e := by
  simp [entries]

@[simp]
theorem length_entries (n : LeafNodeInt) : n.entries.length = n.numOccupied.toNat := by simp [entries]

@[simp]
theorem getElem_entries (n : LeafNodeInt) {t : Nat} (h : t < n.entries.length) :
    n.entries[t] = (n.keyArray t, n.ridArray t) := by simp [entries]

/-- In a leaf with ascending entries, the keys of the slots increase. -/
theorem keyArray_lt {n : LeafNodeInt} (h : Ascending n.entries) {t u : Nat} (htu : t < u)
    (hu : u < n.numOccupied.toNat) : n.keyArray t < n.keyArray u := by
  have := List.pairwise_iff_getElem.1 (List.pairwise_map.1 (List.pairwise_map.1 h)) t u (by simp; omega)
    (by simp; omega) htu
  simpa using this

end LeafNodeInt

/-- The least key of `es` is `k`; nothing when there is no `k`. -/
def Starts : Option Int → List Entry → Prop
  | none, _ => True
  | some k, es => es.head?.map Prod.fst = some k

/-- The children `cs` of a node with keys `ks`, each a subtree `T`: keys under a child are below the key right of
it, a child after a key starts with it (the first with `lo`); `es` and `ls` are their entries and leaves. -/
inductive Children (T : PageId → List Entry → List PageId → Prop) :
    Option Int → List Int → List PageId → List Entry → List PageId → Prop
  | last {lo : Option Int} {c : PageId} {es : List Entry} {ls : List PageId} :
      T c es ls → Starts lo es → Children T lo [] [c] es ls
  | cons {lo : Option Int} {k : Int} {ks : List Int} {c : PageId} {cs : List PageId} {es es' : List Entry}
      {ls ls' : List PageId} :
      T c es ls → Starts lo es → (∀ e ∈ es, e.1 < k) → Children T (some k) ks cs es' ls' →
      Children T lo (k :: ks) (c :: cs) (es ++ es') (ls ++ ls')

/-- `Subtree b L I d p es ls`: page `p` roots a tree of height `d` (a leaf at `0`) with at most `L` entries per
leaf and `I` keys per internal node, whose leaves, left to right, are `ls` and hold the entries `es`. -/
def Subtree (b : BufMgr) (L I : Int) : Nat → PageId → List Entry → List PageId → Prop
  | 0, p, es, ls =>
    b.Valid p ∧ 0 ≤ (b.file p).leaf.numOccupied ∧ (b.file p).leaf.numOccupied ≤ L ∧
      Ascending (b.file p).leaf.entries ∧ es = (b.file p).leaf.entries ∧ ls = [p]
  | d + 1, p, es, ls =>
    b.Valid p ∧ 0 ≤ (b.file p).node.numOccupied ∧ (b.file p).node.numOccupied ≤ I ∧
      (b.file p).node.level = (if d = 0 then 1 else 0) ∧
      Children (Subtree b L I d) none (b.file p).node.keys (b.file p).node.children es ls

/-- The leaves `ls`, linked left to right by `rightSibPageNo`, the last one to `INVALID_NUMBER`. -/
def Linked (b : BufMgr) : List PageId → Prop
  | [] => True
  | [l] => (b.file l).leaf.rightSibPageNo = INVALID_NUMBER
  | l :: l' :: ls => (b.file l).leaf.rightSibPageNo = l' ∧ Linked b (l' :: ls)

/-- **The structural invariant** of the index in state `s`: a tree of height `height` under `rootPageNum`, with
leaves `leaves` holding `entries`. -/
structure Shape (s : Sys) (height : Nat) (entries : List Entry) (leaves : List PageId) : Prop where
  tree : Subtree s.buf s.idx.leafOccupancy s.idx.nodeOccupancy height s.idx.rootPageNum entries leaves
  linked : Linked s.buf leaves
  distinct : leaves.Nodup
  onlyOneRoot : s.idx.onlyOneRoot = true ↔ height = 0
  header : (s.buf.file s.idx.headerPageNum).meta.rootPageNo = s.idx.rootPageNum

/-- The entries of the leaves `ls`, left to right. -/
def leafEntries (b : BufMgr) (ls : List PageId) : List Entry := ls.flatMap fun l => (b.file l).leaf.entries

section Lemmas

variable {b : BufMgr} {L I : Int}

theorem leafEntries_append (ls ls' : List PageId) : leafEntries b (ls ++ ls') = leafEntries b ls ++ leafEntries b ls' :=
  List.flatMap_append _ _ _

theorem children_entries {T : PageId → List Entry → List PageId → Prop}
    (hT : ∀ c es ls, T c es ls → es = leafEntries b ls) :
    ∀ {lo ks cs es ls}, Children T lo ks cs es ls → es = leafEntries b ls
  | _, _, _, _, _, .last h _ => hT _ _ _ h
  | _, _, _, _, _, .cons h _ _ hr => by rw [leafEntries_append, hT _ _ _ h, children_entries hT hr]

/-- A tree holds the entries of its leaves, left to right. -/
theorem subtree_entries : ∀ (d : Nat) {p : PageId} {es : List Entry} {ls : List PageId},
    Subtree b L I d p es ls → es = leafEntries b ls
  | 0, _, _, _, ⟨_, _, _, _, hes, hls⟩ => by simp [hes, hls, leafEntries]
  | d + 1, _, _, _, ⟨_, _, _, _, hc⟩ => children_entries (fun _ _ _ => subtree_entries d) hc

theorem ascending_append_iff {A B : List Entry} :
    Ascending (A ++ B) ↔ Ascending A ∧ Ascending B ∧ ∀ a ∈ A, ∀ b ∈ B, a.1 < b.1 := by
  simp only [Ascending, List.map_append, List.pairwise_append, List.forall_mem_map]

theorem ascending_append {es es' : List Entry} (h : Ascending es) (h' : Ascending es')
    (hlt : ∀ e ∈ es, ∀ e' ∈ es', e.1 < e'.1) : Ascending (es ++ es') :=
  ascending_append_iff.2 ⟨h, h', hlt⟩

theorem ascending_cons {a : Entry} {es : List Entry} :
    Ascending (a :: es) ↔ (∀ x ∈ es, a.1 < x.1) ∧ Ascending es := by
  simp [Ascending, List.pairwise_cons]

/-- The keys after a separator `k` are at least `k`. -/
theorem children_ge {T : PageId → List Entry → List PageId → Prop} (hT : ∀ c es ls, T c es ls → Ascending es) :
    ∀ {k ks cs es ls}, Children T (some k) ks cs es ls → ∀ e ∈ es, k ≤ e.1 := by
  suffices ∀ {lo ks cs es ls}, Children T lo ks cs es ls → ∀ k, lo = some k → ∀ e ∈ es, k ≤ e.1 from
    fun h => this h _ rfl
  intro lo ks cs es ls h
  induction h with
  | @last lo c es ls hc hs =>
    rintro k rfl e he
    exact head_le (hT _ _ _ hc) hs e he
  | @cons lo k' ks c cs es es' ls ls' hc hs hlt _ ih =>
    rintro k rfl e he
    have hk := head_le (hT _ _ _ hc) hs
    rcases List.mem_append.1 he with he | he
    · exact hk e he
    · obtain ⟨e₀, he₀⟩ : ∃ e₀, e₀ ∈ es := by
        cases es with
        | nil => simp [Starts] at hs
        | cons e₀ _ => exact ⟨e₀, List.mem_cons_self _ _⟩
      have := ih k' rfl e he
      have := hk e₀ he₀
      have := hlt e₀ he₀
      omega
where
  /-- In ascending entries starting with `k`, every key is at least `k`. -/
  head_le {es : List Entry} {k : Int} (h : Ascending es) (hs : Starts (some k) es) : ∀ e ∈ es, k ≤ e.1 := by
    cases es with
    | nil => simp
    | cons e₀ es =>
      simp only [Starts, List.head?_cons, Option.map_some', Option.some.injEq] at hs
      subst hs
      intro e he
      rcases List.mem_cons.1 he with rfl | he
      · exact le_refl _
      · have := List.rel_of_pairwise_cons (by simpa [Ascending] using h) (List.mem_map_of_mem Prod.fst he)
        exact le_of_lt this

theorem children_ascending {T : PageId → List Entry → List PageId → Prop} (hT : ∀ c es ls, T c es ls → Ascending es) :
    ∀ {lo ks cs es ls}, Children T lo ks cs es ls → Ascending es
  | _, _, _, _, _, .last h _ => hT _ _ _ h
  | _, _, _, _, _, .cons h _ hlt hr =>
    ascending_append (hT _ _ _ h) (children_ascending hT hr) fun e he e' he' =>
      lt_of_lt_of_le (hlt e he) (children_ge hT hr e' he')

/-- The keys of a tree increase left to right. -/
theorem subtree_ascending : ∀ (d : Nat) {p : PageId} {es : List Entry} {ls : List PageId},
    Subtree b L I d p es ls → Ascending es
  | 0, _, _, _, ⟨_, _, _, ha, hes, _⟩ => hes ▸ ha
  | d + 1, _, _, _, ⟨_, _, _, _, hc⟩ => children_ascending (fun _ _ _ => subtree_ascending d) hc

theorem children_leaves {T : PageId → List Entry → List PageId → Prop} {P : PageId → Prop}
    (hT : ∀ c es ls, T c es ls → ∀ l ∈ ls, P l) :
    ∀ {lo ks cs es ls}, Children T lo ks cs es ls → ∀ l ∈ ls, P l
  | _, _, _, _, _, .last h _ => hT _ _ _ h
  | _, _, _, _, _, .cons h _ _ hr => fun l hl =>
    (List.mem_append.1 hl).elim (hT _ _ _ h l) (children_leaves hT hr l)

/-- Every leaf of a tree is a well-formed leaf. -/
theorem subtree_leaf : ∀ (d : Nat) {p : PageId} {es : List Entry} {ls : List PageId},
    Subtree b L I d p es ls → ∀ l ∈ ls, Subtree b L I 0 l (b.file l).leaf.entries [l]
  | 0, _, _, _, ⟨hv, h0, hL, ha, _, hls⟩, l, hl => by
    rw [hls, List.mem_singleton] at hl
    subst hl
    exact ⟨hv, h0, hL, ha, rfl, rfl⟩
  | d + 1, _, _, _, ⟨_, _, _, _, hc⟩, l, hl => children_leaves (fun _ _ _ h => subtree_leaf d h) hc l hl

end Lemmas

/-- The invariant reads of the members only the root, the header, the capacities and `onlyOneRoot`. -/
theorem Shape.of_idx {s s' : Sys} {d : Nat} {es : List Entry} {ls : List PageId} (hs : Shape s d es ls)
    (hb : s'.buf = s.buf) (hr : s'.idx.rootPageNum = s.idx.rootPageNum)
    (hL : s'.idx.leafOccupancy = s.idx.leafOccupancy) (hI : s'.idx.nodeOccupancy = s.idx.nodeOccupancy)
    (h1 : s'.idx.onlyOneRoot = s.idx.onlyOneRoot) (hh : s'.idx.headerPageNum = s.idx.headerPageNum) :
    Shape s' d es ls where
  tree := by rw [hb, hr, hL, hI]; exact hs.tree
  linked := hb ▸ hs.linked
  distinct := hs.distinct
  onlyOneRoot := h1 ▸ hs.onlyOneRoot
  header := by rw [hb, hh, hr]; exact hs.header

namespace Shape

variable {s : Sys} {d : Nat} {es : List Entry} {ls lsL lsR : List PageId} {l : PageId}

theorem ascending (hs : Shape s d es ls) : Ascending es := subtree_ascending d hs.tree

/-- The entries of the tree around its leaf `l`. -/
theorem entries_around (hs : Shape s d es ls) (hls : ls = lsL ++ l :: lsR) :
    es = leafEntries s.buf lsL ++ (s.buf.file l).leaf.entries ++ leafEntries s.buf lsR := by
  rw [subtree_entries d hs.tree, hls, leafEntries_append]
  simp [leafEntries]

theorem valid_leaf (hs : Shape s d es ls) (hl : l ∈ ls) : s.buf.Valid l := (subtree_leaf d hs.tree l hl).1

end Shape

theorem Linked.tail {b : BufMgr} : ∀ {ls : List PageId}, Linked b ls → Linked b ls.tail
  | [], _ | [_], _ => trivial
  | _ :: _ :: _, h => h.2

theorem Linked.append_right {b : BufMgr} {ls : List PageId} : ∀ lsL : List PageId, Linked b (lsL ++ ls) → Linked b ls
  | [], h => h
  | _ :: lsL, h => Linked.append_right lsL h.tail

namespace Shape

variable {s : Sys} {d : Nat} {es : List Entry} {lsL lsR : List PageId} {l l' : PageId}

/-- The right sibling of a leaf is the next leaf of the tree. -/
theorem rightSib_next (hs : Shape s d es (lsL ++ l :: l' :: lsR)) : (s.buf.file l).leaf.rightSibPageNo = l' :=
  (hs.linked.append_right lsL).1

/-- The last leaf has no right sibling. -/
theorem rightSib_last (hs : Shape s d es (lsL ++ [l])) : (s.buf.file l).leaf.rightSibPageNo = INVALID_NUMBER :=
  hs.linked.append_right lsL

end Shape

end BadgerBTree
