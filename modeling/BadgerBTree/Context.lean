import BadgerBTree.InPlace

/-!
# The tree around the search path

An insertion rewrites one node of the path `searchEntry` descends: the leaf it reaches, or the parent of that leaf
when the leaf is split. Everything else of the tree is read through pages the insertion leaves alone. This module
says once what that means for the structural invariant, so that each kind of insertion only has to rebuild the node
it rewrites.

* `Frame b b' h l` — the file `b'` differs from `b` only where an insertion at height `h` over the leaf `l` writes:
  the leaf view of `l`, and for `h = 1` the node view of a node just above the leaves with `l` among its children.
  A subtree without `l` among its leaves is the same subtree in `b'` (`Subtree.frame`).
* `children_hole` — routing through the children of a node, as `searchEntry` does: the child the key goes to, the
  bounds its neighbours set, and the one-hole context that takes any chain of children within those bounds in its
  place.
* `subtree_insert_path` — from the rewritten node up to the root: when the rewritten node holds the sorted insertion
  of the entry, so does every node above it on the path, and the whole tree keeps the invariant.
-/

namespace BadgerBTree

/-! ## Sorted insertion into the entries of a tree -/

section SortedInsert

variable {e : Entry} {es A B : List Entry}

theorem sortedInsert_cons (e a : Entry) (es : List Entry) :
    sortedInsert e (a :: es) = if e.1 ≤ a.1 then e :: a :: es else a :: sortedInsert e es := rfl

theorem mem_sortedInsert {x : Entry} : x ∈ sortedInsert e es ↔ x = e ∨ x ∈ es := List.mem_orderedInsert _

/-- Entries below `e` pass in front of it. -/
theorem sortedInsert_append_left (hA : ∀ x ∈ A, x.1 < e.1) : sortedInsert e (A ++ B) = A ++ sortedInsert e B := by
  induction A with
  | nil => rfl
  | cons a A ih =>
    rw [List.cons_append, sortedInsert_cons, if_neg (not_le.2 (hA a (List.mem_cons_self _ _))),
      ih fun x hx => hA x (List.mem_cons_of_mem _ hx), List.cons_append]

/-- Entries above `e` stay behind it. -/
theorem sortedInsert_append_right (hB : ∀ x ∈ B, e.1 < x.1) : sortedInsert e (A ++ B) = sortedInsert e A ++ B := by
  induction A with
  | nil =>
    cases B with
    | nil => rfl
    | cons b B => rw [List.nil_append, sortedInsert_cons, if_pos (hB b (List.mem_cons_self _ _)).le]; rfl
  | cons a A ih =>
    rw [List.cons_append, sortedInsert_cons, sortedInsert_cons]
    split_ifs
    · rfl
    · rw [ih, List.cons_append]

/-- The sorted insertion into entries around a gap where `e` belongs is the insertion into the gap. -/
theorem sortedInsert_between {C : List Entry} (hA : ∀ x ∈ A, x.1 < e.1) (hB : ∀ x ∈ B, e.1 < x.1) :
    sortedInsert e (A ++ C ++ B) = A ++ sortedInsert e C ++ B := by
  rw [List.append_assoc, sortedInsert_append_left hA, sortedInsert_append_right hB, List.append_assoc]

/-- An entry whose key is new keeps the keys ascending. -/
theorem Ascending.sortedInsert (h : Ascending es) (he : ∀ x ∈ es, x.1 ≠ e.1) : Ascending (sortedInsert e es) := by
  induction es with
  | nil => simp [BadgerBTree.sortedInsert, Ascending]
  | cons a es ih =>
    obtain ⟨ha, hes⟩ := ascending_cons.1 h
    rw [sortedInsert_cons]
    split_ifs with hea
    · have hlt : e.1 < a.1 := lt_of_le_of_ne hea (he a (List.mem_cons_self _ _)).symm
      exact ascending_cons.2 ⟨fun x hx => (List.mem_cons.1 hx).elim (· ▸ hlt) fun hx => hlt.trans (ha x hx), h⟩
    · refine ascending_cons.2 ⟨fun x hx => ?_, ih hes fun x hx => he x (List.mem_cons_of_mem _ hx)⟩
      rcases mem_sortedInsert.1 hx with rfl | hx
      exacts [lt_of_not_le hea, ha x hx]

/-- The least key stays when `e` comes after it. -/
theorem Starts.sortedInsert {lo : Option Int} (h : Starts lo es) (hlo : ∀ k, lo = some k → k < e.1) :
    Starts lo (sortedInsert e es) := by
  cases lo with
  | none => trivial
  | some k =>
    cases es with
    | nil => simp [Starts] at h
    | cons a es =>
      simp only [Starts, List.head?_cons, Option.map_some', Option.some.injEq] at h
      rw [sortedInsert_cons, if_neg (not_le.2 (h ▸ hlo k rfl))]
      simp [Starts, h]

end SortedInsert

/-! ## What an insertion leaves alone -/

/-- `b'` differs from `b` only where an insertion at height `h` over the leaf `l` writes: the file grows, only `l`'s
leaf view changes, and node views only just above the leaves over `l` when `h = 1`; pages past the end are free. -/
structure Frame (b b' : BufMgr) (h : Nat) (l : PageId) : Prop where
  numPages : b.numPages ≤ b'.numPages
  leaf : ∀ q, b.Valid q → q ≠ l → (b'.file q).leaf = (b.file q).leaf
  node : ∀ q, b.Valid q → (b'.file q).node ≠ (b.file q).node →
    h = 1 ∧ (b.file q).node.level = 1 ∧ l ∈ (b.file q).node.children

section Frames

variable {b b' : BufMgr} {L I : Int} {h : Nat} {l : PageId} {T T' : PageId → List Entry → List PageId → Prop}

theorem Frame.valid (hF : Frame b b' h l) {q : PageId} (hq : b.Valid q) : b'.Valid q := ⟨hq.1, hq.2.trans hF.numPages⟩

/-- The children of a node just above the leaves are its leaves. -/
theorem children_leaves_eq : ∀ {lo ks cs es ls}, Children (Subtree b L I 0) lo ks cs es ls → ls = cs
  | _, _, _, _, _, .last ⟨_, _, _, _, _, hls⟩ _ => hls
  | _, _, _, _, _, .cons ⟨_, _, _, _, _, hls⟩ _ _ hr => by rw [hls, children_leaves_eq hr]; rfl

/-- Children that are subtrees for `T` are subtrees for `T'` when each child whose leaves are among theirs is. -/
theorem Children.imp : ∀ {lo ks cs es ls}, Children T lo ks cs es ls →
    (∀ c es' ls', T c es' ls' → ls' ⊆ ls → T' c es' ls') → Children T' lo ks cs es ls
  | _, _, _, _, _, .last hc hs, hT => .last (hT _ _ _ hc (List.Subset.refl _)) hs
  | _, _, _, _, _, .cons hc hs hlt hr, hT =>
    .cons (hT _ _ _ hc (List.subset_append_left _ _)) hs hlt
      (hr.imp fun c es' ls' h' hsub => hT c es' ls' h' (hsub.trans (List.subset_append_right _ _)))

/-- **A subtree away from the insertion is kept.** A subtree of `b` none of whose leaves is `l` is the same subtree
of `b'`: a node of it whose view changed would have `l` among its children. -/
theorem Subtree.frame (hF : Frame b b' h l) : ∀ (d : Nat) {p es ls}, Subtree b L I d p es ls → l ∉ ls →
    Subtree b' L I d p es ls
  | 0, p, _, _, ⟨hv, h0, hL, ha, hes, hls⟩, hl => by
    have hleaf := hF.leaf p hv fun hpl => hl (by simp [hls, hpl])
    refine ⟨hF.valid hv, ?_⟩
    rw [hleaf]
    exact ⟨h0, hL, ha, hes, hls⟩
  | d + 1, p, _, _, ⟨hv, h0, hI, hlev, hc⟩, hl => by
    have hnode : (b'.file p).node = (b.file p).node := by
      by_contra hne
      obtain ⟨-, h1, hmem⟩ := hF.node p hv hne
      cases d with
      | zero => exact hl (children_leaves_eq hc ▸ hmem)
      | succ d => simp [hlev] at h1
    refine ⟨hF.valid hv, ?_⟩
    rw [hnode]
    exact ⟨h0, hI, hlev, hc.imp fun c es' ls' h' hsub => Subtree.frame hF d h' fun hl' => hl (hsub hl')⟩

/-- The leaves stay linked when their right siblings are kept. -/
theorem Linked.frame : ∀ {ls : List PageId},
    (∀ q ∈ ls, (b'.file q).leaf.rightSibPageNo = (b.file q).leaf.rightSibPageNo) → Linked b ls → Linked b' ls
  | [], _, _ => trivial
  | [q], hsib, hq => by rw [Linked, hsib q (List.mem_singleton_self q)]; exact hq
  | q :: q' :: ls, hsib, ⟨hq, hr⟩ =>
    ⟨(hsib q (List.mem_cons_self _ _)).trans hq, Linked.frame (fun r hr => hsib r (List.mem_cons_of_mem _ hr)) hr⟩

end Frames

/-! ## Routing with a hole -/

section Hole

variable {b : BufMgr} {T T' : PageId → List Entry → List PageId → Prop}

/-- A chain of children, then a separator `k` above all its entries, then a chain starting at `k`. -/
theorem children_append {k : Int} : ∀ {lo ks cs es ls}, Children T lo ks cs es ls → (∀ e ∈ es, e.1 < k) →
    ∀ {ks' cs' es' ls'}, Children T (some k) ks' cs' es' ls' →
      Children T lo (ks ++ k :: ks') (cs ++ cs') (es ++ es') (ls ++ ls')
  | _, _, _, _, _, .last hc hs, hlt, _, _, _, _, hr => .cons hc hs hlt hr
  | _, _, _, _, _, .cons hc hs hlt hr₁, hlt', _, _, _, _, hr => by
    rw [List.append_assoc, List.append_assoc]
    exact .cons hc hs hlt (children_append hr₁ (fun e he => hlt' e (List.mem_append_right _ he)) hr)

/-- The entries of a chain of children start with the bound of its first child. -/
theorem children_starts : ∀ {lo ks cs es ls}, Children T lo ks cs es ls → Starts lo es
  | _, _, _, _, _, .last _ hs => hs
  | none, _, _, _, _, .cons _ _ _ _ => trivial
  | some _, _, _, _, _, @Children.cons _ _ _ _ _ _ es _ _ _ _ hs _ _ => by
    cases es with
    | nil => simp [Starts] at hs
    | cons e es => simpa [Starts] using hs

/-- Every separator is the key of an entry: the first of the child after it. -/
theorem children_key_mem : ∀ {lo ks cs es ls}, Children T lo ks cs es ls → ∀ k ∈ ks, ∃ e ∈ es, e.1 = k
  | _, _, _, _, _, .last _ _, _, hk => absurd hk (List.not_mem_nil _)
  | _, _, _, _, _, @Children.cons _ _ _ _ _ _ _ es' _ _ _ _ _ hr, k, hk => by
    rcases List.mem_cons.1 hk with rfl | hk
    · have hs := children_starts hr
      cases es' with
      | nil => simp [Starts] at hs
      | cons e es' =>
        simp only [Starts, List.head?_cons, Option.map_some', Option.some.injEq] at hs
        exact ⟨e, by simp, hs⟩
    · obtain ⟨e, he, rfl⟩ := children_key_mem hr k hk
      exact ⟨e, List.mem_append_right _ he, rfl⟩

/-- The separators after a bound are above it. -/
theorem children_lo_lt : ∀ {lo ks cs es ls}, Children T lo ks cs es ls → ∀ k₀, lo = some k₀ → ∀ k ∈ ks, k₀ < k
  | _, _, _, _, _, .last _ _, _, _, _, hk => absurd hk (List.not_mem_nil _)
  | _, _, _, _, _, @Children.cons _ _ k _ _ _ es _ _ _ _ hs hlt hr, k₀, hlo, k', hk' => by
    subst hlo
    have hk₀ : k₀ < k := by
      cases es with
      | nil => simp [Starts] at hs
      | cons e es =>
        simp only [Starts, List.head?_cons, Option.map_some', Option.some.injEq] at hs
        exact hs ▸ hlt e (List.mem_cons_self _ _)
    rcases List.mem_cons.1 hk' with rfl | hk'
    exacts [hk₀, hk₀.trans (children_lo_lt hr k rfl k' hk')]

/-- The separators of a node increase. -/
theorem children_keys_pairwise : ∀ {lo ks cs es ls}, Children T lo ks cs es ls → ks.Pairwise (· < ·)
  | _, _, _, _, _, .last _ _ => List.Pairwise.nil
  | _, _, _, _, _, .cons _ _ _ hr => List.Pairwise.cons (children_lo_lt hr _ rfl) (children_keys_pairwise hr)

/-- A key no entry has is below the separator it does not pass. -/
theorem children_above {lo ks cs es ls} (hch : Children T lo ks cs es ls) {key : Int} (hkey : ∀ x ∈ es, x.1 ≠ key)
    {j : Nat} (hat : ∀ k, ks[j]? = some k → key ≤ k) : ∀ k, ks[j]? = some k → key < k := fun k hk =>
  lt_of_le_of_ne (hat k hk) fun heq => by
    obtain ⟨x, hx, hxk⟩ := children_key_mem hch k (List.getElem?_mem hk)
    exact hkey x hx (hxk.trans heq.symm)

/-- **Routing with a hole.** Past the `j` separators below `key`: the `j`-th child, the entries before and after it,
below and above `key`, and the context that puts any chain of children within its bounds in its place. -/
theorem children_hole (hT : ∀ c es ls, T c es ls → es = leafEntries b ls ∧ Ascending es) (key : Int) :
    ∀ {lo ks cs es ls} (j : Nat), Children T lo ks cs es ls → j ≤ ks.length → (∀ k, lo = some k → k < key) →
      (∀ t k, t < j → ks[t]? = some k → k < key) → (∀ k, ks[j]? = some k → key < k) →
      ∃ c esC lsL lsC lsR lo', cs[j]? = some c ∧ T c esC lsC ∧ ls = lsL ++ lsC ++ lsR ∧
        es = leafEntries b lsL ++ esC ++ leafEntries b lsR ∧
        (∀ e ∈ leafEntries b lsL, e.1 < key) ∧ (∀ e ∈ leafEntries b lsR, key < e.1) ∧
        Starts lo' esC ∧ (∀ k, lo' = some k → k < key) ∧ (∀ k, ks[j]? = some k → ∀ e ∈ esC, e.1 < k) ∧
        (j = 0 ∧ lo' = lo ∨ ∃ t, j = t + 1 ∧ lo' = ks[t]?) ∧
        ∀ {ks₁ cs₁ es₁ ls₁}, (∀ c' es' ls', T c' es' ls' → ls' ⊆ lsL ++ lsR → T' c' es' ls') →
          Children T' lo' ks₁ cs₁ es₁ ls₁ → (∀ k, ks[j]? = some k → ∀ e ∈ es₁, e.1 < k) →
          Children T' lo (ks.take j ++ ks₁ ++ ks.drop j) (cs.take j ++ cs₁ ++ cs.drop (j + 1))
            (leafEntries b lsL ++ es₁ ++ leafEntries b lsR) (lsL ++ ls₁ ++ lsR)
  | lo, _, _, es, ls, j, .last (c := c) hc hs, hj, hlo, _, _ => by
    obtain rfl : j = 0 := by simpa using hj
    refine ⟨c, es, [], ls, [], lo, rfl, hc, by simp, by simp [leafEntries], by simp [leafEntries],
      by simp [leafEntries], hs, hlo, by simp, .inl ⟨rfl, rfl⟩, fun _ hch _ => by simpa [leafEntries] using hch⟩
  | lo, _, _, _, _, 0, @Children.cons _ _ k _ c _ es es' ls ls' hc hs hlt hr,
      _, hlo, _, habove => by
    have hk : key < k := habove k (by simp)
    have hes' : es' = leafEntries b ls' := children_entries (fun c es ls h => (hT c es ls h).1) hr
    refine ⟨c, es, [], ls, ls', lo, by simp, hc, by simp, by simp [leafEntries, hes'], by simp [leafEntries],
      fun e he => hk.trans_le (children_ge (fun c es ls h => (hT c es ls h).2) hr e (hes' ▸ he)), hs, hlo,
      fun k' hk' => by simp at hk'; exact hk' ▸ hlt, .inl ⟨rfl, rfl⟩, fun hT' hch hbound => ?_⟩
    rw [← hes']
    simpa [leafEntries] using children_append hch (hbound k (by simp)) (hr.imp fun c es ls h hsub => hT' c es ls h (by simpa using hsub))
  | lo, _, _, _, _, j + 1, @Children.cons _ _ k _ c _ es _ ls _ hc hs hlt hr, hj, hlo, hbelow, habove => by
    have hk : k < key := hbelow 0 k (Nat.succ_pos _) (by simp)
    obtain ⟨c', esC, lsL, lsC, lsR, lo', hc', hC, rfl, rfl, hL, hR, hs', hlo', hhi, hlo'j, hctx⟩ :=
      children_hole hT key j hr (by simpa using hj) (fun k' hk' => by cases hk'; exact hk)
        (fun t k' ht h' => hbelow (t + 1) k' (by omega) (by simpa using h')) (fun k' h' => habove k' (by simpa using h'))
    have hes : es = leafEntries b ls := (hT c es ls hc).1
    refine ⟨c', esC, ls ++ lsL, lsC, lsR, lo', by simpa using hc', hC, by simp, by simp [leafEntries_append, hes],
      fun e he => ?_, hR, hs', hlo', fun k' h' => hhi k' (by simpa using h'), .inr ?_, fun hT' hch hbound => ?_⟩
    · rcases List.mem_append.1 ((leafEntries_append ls lsL) ▸ he) with he | he
      exacts [(hlt e (hes ▸ he)).trans hk, hL e he]
    · rcases hlo'j with ⟨rfl, rfl⟩ | ⟨t, rfl, rfl⟩
      exacts [⟨0, rfl, by simp⟩, ⟨t + 1, rfl, by simp⟩]
    · have := Children.cons (hT' c es ls hc (by simp)) hs hlt
        (hctx (fun c' es' ls' h' hsub => hT' c' es' ls' h' fun q hq => by
          rcases List.mem_append.1 (hsub hq) with hq | hq <;> simp [hq]) hch
          fun k' h' => hbound k' (by simpa using h'))
      simpa [leafEntries_append, hes] using this

end Hole

/-! ## From the rewritten node up to the root -/

/-- A list is its prefix, its `j`-th element and the rest. -/
theorem take_cons_drop_eq {α : Type} {xs : List α} {j : Nat} {x : α} (hj : xs[j]? = some x) :
    xs.take j ++ [x] ++ xs.drop (j + 1) = xs := by
  obtain ⟨hlt, rfl⟩ := List.getElem?_eq_some_iff.1 hj
  rw [List.append_assoc, List.singleton_append, ← List.drop_eq_getElem_cons hlt, List.take_append_drop]

section Path

variable {b b' : BufMgr} {L I : Int} {h : Nat} {l : PageId}

/-- **Insertion along the search path.** When the node `c` that `searchEntry` reaches below `p` comes to hold the
sorted insertion of `e`, so does `p`, over its leaves with `c`'s replaced; the nodes above keep their separators. -/
theorem subtree_insert_path (hF : Frame b b' h l) (e : Entry) {c : PageId} {R : List PageId → List PageId → Prop}
    (hloc : ∀ {es ls}, Subtree b L I h c es ls → ls.Nodup → (∀ x ∈ es, x.1 ≠ e.1) →
      l ∈ ls ∧ ∃ ls', Subtree b' L I h c (sortedInsert e es) ls' ∧ R ls ls') :
    ∀ (m : Nat) {p es ls}, (childFor b e.1)^[m] p = c → Subtree b L I (h + m) p es ls → ls.Nodup →
      (∀ x ∈ es, x.1 ≠ e.1) →
      l ∈ ls ∧ ∃ lsL lsC lsC' lsR, ls = lsL ++ lsC ++ lsR ∧ R lsC lsC' ∧
        Subtree b' L I (h + m) p (sortedInsert e es) (lsL ++ lsC' ++ lsR)
  | 0, _, _, _, hc, hsub, hnd, hkey => by
    subst hc
    obtain ⟨hl, ls', h', hR⟩ := hloc hsub hnd hkey
    exact ⟨hl, [], _, ls', [], by simp, hR, by simpa using h'⟩
  | m + 1, p, _, _, hc, ⟨hv, h0, hI, hlev, hch⟩, hnd, hkey => by
    -- the node is not rewritten: only a node just above the leaves is, and this one is higher
    have hnode : (b'.file p).node = (b.file p).node := by
      by_contra hne
      obtain ⟨rfl, h1, -⟩ := hF.node p hv hne
      simp [hlev] at h1
    -- the child the key goes to, between a separator below the key and one above it
    obtain ⟨j, hjl, hbelow, hat, hcj⟩ := childFor_route e.1 p
    have habove := children_above hch hkey hat
    obtain ⟨c', esC, lsL, lsC, lsR, lo', hc', hC, rfl, rfl, hL, hR, hs', hlo', hhi, -, hctx⟩ :=
      @children_hole b (Subtree b L I (h + m)) (Subtree b' L I (h + m))
        (fun _ _ _ hs => ⟨subtree_entries _ hs, subtree_ascending _ hs⟩) e.1 _ _ _ _ _ j hch hjl
        (fun _ h => nomatch h) hbelow habove
    obtain rfl : c' = childFor b e.1 p := Option.some.inj (hc'.symm.trans hcj)
    rw [List.nodup_append, List.nodup_append] at hnd
    -- the subtree of that child, by induction
    obtain ⟨hl, lsL', lsC₀, lsC₀', lsR', rfl, hRC, hC'⟩ :=
      subtree_insert_path hF e hloc m (by rwa [Function.iterate_succ_apply] at hc) hC hnd.1.2.1
        fun x hx => hkey x (by simp [hx])
    have hlLR : l ∉ lsL ++ lsR := by
      simp only [List.mem_append, not_or]
      exact ⟨fun h' => hnd.1.2.2 h' hl, fun h' => hnd.2.2 (List.mem_append_right _ hl) h'⟩
    -- the other children are kept, the child on the path replaced
    have hchain := hctx (fun _ _ _ hs hsub => Subtree.frame hF _ hs fun hl' => hlLR (hsub hl'))
      (.last hC' (hs'.sortedInsert hlo')) fun k hk x hx =>
        (mem_sortedInsert.1 hx).elim (fun hxe => hxe ▸ habove k hk) (hhi k hk x)
    rw [take_cons_drop_eq hcj] at hchain
    refine ⟨List.mem_append_left _ (List.mem_append_right _ hl), lsL ++ lsL', lsC₀, lsC₀', lsR' ++ lsR, by simp, hRC,
      hF.valid hv, ?_⟩
    rw [hnode, sortedInsert_between hL hR]
    exact ⟨h0, hI, hlev, by simpa using hchain⟩

end Path

end BadgerBTree
