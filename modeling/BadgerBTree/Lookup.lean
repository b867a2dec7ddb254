import BadgerBTree.Grow

/-!
# Point lookups

A point scan for a key `k`: `startScan(k, GTE, k, LTE)`, then `scanNext`. At each internal node `searchEntry` takes
the child after the separators below `k`; a separator equal to `k` is not passed, and the child left of it holds
keys below `k` only. So the descent for `k` ends at a leaf with the leaves before it below `k`, and either the
leaves after it above `k`, when no node of the descent has `k` among its keys, or the leaf itself below `k`, when
one has (`subtree_lookup`).

For a stored entry `(k, r)` the scan therefore hands out `r` and then ends in the first case, and hands out no rid
in the second (`point_scan_stored`): `startScan` finds no slot of the leaf for `k`, reads the slot before the
first one and either rejects the scan or starts it on the end marker.
-/

namespace BadgerBTree

/-! ## Routing, with the separator right of the child -/

section Route

variable {b : BufMgr} {L I : Int} {key : Int}

/-- Past the `j` separators below `key`: the `j`-th child, after children below `key`; the separator right of it
is above its keys and at most those after it. -/
theorem children_route_bounds {T : PageId → List Entry → List PageId → Prop}
    (hT : ∀ c es ls, T c es ls → es = leafEntries b ls ∧ Ascending es) :
    ∀ {lo ks cs es ls} (j : Nat), Children T lo ks cs es ls → j ≤ ks.length →
      (∀ t k, t < j → ks[t]? = some k → k < key) →
      ∃ c esC lsL lsC lsR, cs[j]? = some c ∧ T c esC lsC ∧ ls = lsL ++ lsC ++ lsR ∧
        (∀ e ∈ leafEntries b lsL, e.1 < key) ∧ (∀ k, ks[j]? = some k → ∀ e ∈ esC, e.1 < k) ∧
        ∀ e ∈ leafEntries b lsR, ∃ k, ks[j]? = some k ∧ k ≤ e.1 := by
  intro lo ks cs es ls j h
  induction h generalizing j with
  | @last lo c es ls hc _ =>
    intro hj _
    obtain rfl : j = 0 := by simpa using hj
    exact ⟨c, es, [], ls, [], by simp, hc, by simp, by simp [leafEntries], by simp, by simp [leafEntries]⟩
  | @cons lo k ks c cs es es' ls ls' hc _ hlt hr ih =>
    intro hj hbelow
    cases j with
    | zero =>
      refine ⟨c, es, [], ls, ls', by simp, hc, by simp, by simp [leafEntries], fun k' hk' => ?_, fun e he => ?_⟩
      · obtain rfl : k = k' := by simpa using hk'
        exact hlt
      · rw [← children_entries (fun c es ls h => (hT c es ls h).1) hr] at he
        exact ⟨k, by simp, children_ge (fun c es ls h => (hT c es ls h).2) hr e he⟩
    | succ j =>
      have hk : k < key := hbelow 0 k (Nat.succ_pos _) (by simp)
      obtain ⟨c', esC, lsL, lsC, lsR, hc', hT', rfl, hL, hC, hR⟩ :=
        ih j (by simpa using hj) (fun t k' ht h' => hbelow (t + 1) k' (by omega) (by simpa using h'))
      refine ⟨c', esC, ls ++ lsL, lsC, lsR, by simpa using hc', hT', by simp, fun e he => ?_,
        fun k' h' => hC k' (by simpa using h'), fun e he => by simpa using hR e he⟩
      rcases List.mem_append.1 ((leafEntries_append ls lsL).symm ▸ he) with he | he
      · exact (hlt e ((hT c es ls hc).1 ▸ he)).trans hk
      · exact hL e he

/-- `searchEntry`'s step at a node: the child it takes comes after leaves below `key`; the leaves after it are above
`key`, or, when `key` is one of the node's keys, the child is below `key`. -/
theorem subtree_route_bounds {d : Nat} {p : PageId} {es : List Entry} {ls : List PageId}
    (h : Subtree b L I (d + 1) p es ls) :
    ∃ esC lsL lsC lsR, ls = lsL ++ lsC ++ lsR ∧ Subtree b L I d (childFor b key p) esC lsC ∧
      (∀ e ∈ leafEntries b lsL, e.1 < key) ∧
      (key ∉ (b.file p).node.keys → ∀ e ∈ leafEntries b lsR, key < e.1) ∧
      (key ∈ (b.file p).node.keys → ∀ e ∈ esC, e.1 < key) := by
  obtain ⟨-, -, -, -, hch⟩ := h
  obtain ⟨j, hjl, hbelow, hat, hcj⟩ := childFor_route key p
  obtain ⟨c, esC, lsL, lsC, lsR, hcj', hC, rfl, hL, hCk, hR⟩ :=
    children_route_bounds (fun _ _ _ h => ⟨subtree_entries d h, subtree_ascending d h⟩) j hch hjl hbelow
  obtain rfl : c = childFor b key p := Option.some.inj (hcj'.symm.trans hcj)
  refine ⟨esC, lsL, lsC, lsR, rfl, hC, hL, fun hk e he => ?_, fun hk => ?_⟩
  · obtain ⟨k, hjk, hke⟩ := hR e he
    exact (lt_of_le_of_ne (hat k hjk) fun h => hk (h ▸ List.getElem?_mem hjk)).trans_le hke
  · -- the separator right of the child is the first one not below `key`, hence `key` itself
    obtain ⟨i, hi⟩ := List.mem_iff_getElem?.1 hk
    have hji : j ≤ i := Nat.le_of_not_lt fun h => lt_irrefl key (hbelow i key h hi)
    rcases Nat.eq_or_lt_of_le hji with rfl | hlt
    · exact hCk key hi
    · obtain ⟨hilen, rfl⟩ := List.getElem?_eq_some_iff.1 hi
      have hjk := hat _ (List.getElem?_eq_getElem (by omega))
      have := List.pairwise_iff_getElem.1 (children_keys_pairwise hch) j i (by omega) hilen hlt
      exact absurd hjk (not_le.2 this)

/-- **The leaf a key is routed to.** The descent ends at a leaf after leaves below `key`; the leaves after it are
above `key` unless a node of the descent has `key` among its keys, and then the leaf is below `key`. -/
theorem subtree_lookup (key : Int) : ∀ (d : Nat) {p : PageId} {es : List Entry} {ls : List PageId},
    Subtree b L I d p es ls →
    ∃ lsL lsR, ls = lsL ++ (childFor b key)^[d] p :: lsR ∧ (∀ e ∈ leafEntries b lsL, e.1 < key) ∧
      ((∀ q ∈ descend b key d p, key ∉ (b.file q).node.keys) → ∀ e ∈ leafEntries b lsR, key < e.1) ∧
      ((∃ q ∈ descend b key d p, key ∈ (b.file q).node.keys) →
        ∀ e ∈ (b.file ((childFor b key)^[d] p)).leaf.entries, e.1 < key)
  | 0, p, _, _, ⟨_, _, _, _, _, hls⟩ =>
    ⟨[], [], hls, by simp [leafEntries], fun _ => by simp [leafEntries], fun ⟨_, hq, _⟩ => nomatch hq⟩
  | d + 1, p, _, _, h => by
    obtain ⟨esC, lsL, lsC, lsR, rfl, hC, hL, hR, hsep⟩ := @subtree_route_bounds _ _ _ key _ _ _ _ h
    obtain ⟨lsL', lsR', rfl, hL', hR', hsep'⟩ := subtree_lookup key d hC
    refine ⟨lsL ++ lsL', lsR' ++ lsR, by simp [Function.iterate_succ_apply], fun e he => ?_, fun hno e he => ?_,
      fun ⟨q, hq, hkq⟩ => ?_⟩
    · rw [leafEntries_append, List.mem_append] at he
      exact he.elim (hL e) (hL' e)
    · rw [leafEntries_append, List.mem_append] at he
      exact he.elim (hR' (fun q hq => hno q (List.mem_cons_of_mem _ hq)) e)
        (hR (hno p (List.mem_cons_self _ _)) e)
    · rw [Function.iterate_succ_apply]
      rcases List.mem_cons.1 hq with rfl | hq
      · intro e he
        exact hsep hkq e (by rw [subtree_entries d hC, leafEntries_append]; simp [leafEntries, he])
      · exact hsep' ⟨q, hq, hkq⟩

end Route

/-! ## The point scan -/

section Scan

variable {s s' : Sys} {d : Nat} {es : List Entry} {ls : List PageId} {k : Int}

/-- The state `startScan(k, GTE, k, LTE)` starts a scan in, on slot `j` of leaf `l`. -/
def pointScanAt (s : Sys) (k : Int) (l : PageId) (j : Int) : Sys :=
  { s with
    idx := { s.idx with
      scanExecuting := true, lowValInt := k, highValInt := k, lowOp := .GTE, highOp := .LTE, currentPageNum := l,
      nextEntry := j } }

/-- When the leaf the descent for `k` reaches has `k` on slot `j`, `startScan(k, GTE, k, LTE)` starts the scan
there: the loop stops at the first slot not below `k`, which is `j`. -/
theorem startScan_point_found (hs : Shape s d es ls) {j : Nat}
    (hj : j < (s.buf.file ((childFor s.buf k)^[d] s.idx.rootPageNum)).leaf.numOccupied.toNat)
    (hk : (s.buf.file ((childFor s.buf k)^[d] s.idx.rootPageNum)).leaf.keyArray j = k) :
    startScan k .GTE k .LTE s = .ok () (pointScanAt s k ((childFor s.buf k)^[d] s.idx.rootPageNum) j) := by
  obtain ⟨-, -, -, ⟨-, -, -, hasc, -, -⟩, hrun⟩ := hs.reach k
  obtain ⟨-, l, -, ps, -, -, hrun', hleaf⟩ := startScan_first_in_leaf hs le_rfl (.inr rfl) (.inr rfl)
  obtain ⟨⟨rfl, -⟩, -⟩ := EStateM.Result.ok.inj (hrun'.symm.trans hrun)
  obtain ⟨j', -, hj'ok, hmin, -, hstart⟩ :=
    hleaf ⟨_, LeafNodeInt.mem_entries.2 ⟨j, hj, rfl⟩, by simp [lowOk, hk]⟩
  obtain rfl : j' = j := by
    rcases lt_trichotomy j' j with hlt | heq | hlt
    · exact absurd (le_of_lowOk hj'ok) (not_le.2 ((LeafNodeInt.keyArray_lt hasc hlt hj).trans_eq hk))
    · exact heq
    · exact absurd (hmin j hlt) (by simp [lowOk, hk])
  rw [hstart, if_pos (by simp [highOk, hk])]
  rfl

/-- A scan started on `k` at slot `j` of `l`, with the leaves after `l` above `k`: `scanNext` hands out the slot's
rid and moves to the end marker, so the next call raises `IndexScanCompleted`. -/
theorem scanNext_point_found (hs : Shape s d es ls) {lsL lsR : List PageId} {l : PageId} (hls : ls = lsL ++ l :: lsR)
    (hR : ∀ e ∈ leafEntries s.buf lsR, k < e.1) {j : Nat} (hj : j < (s.buf.file l).leaf.numOccupied.toNat)
    (hk : (s.buf.file l).leaf.keyArray j = k) :
    ∃ s', scanNext (pointScanAt s k l j) = .ok ((s.buf.file l).leaf.ridArray j) s' ∧
      scanNext s' = .error .IndexScanCompleted s' := by
  subst hls
  obtain ⟨hv, -, -, hasc, -, -⟩ := subtree_leaf d hs.tree l (by simp)
  by_cases hin : (j : Int) + 1 < (s.buf.file l).leaf.numOccupied
  · -- the next slot of `l` holds a key above `k`
    have hgt : k < (s.buf.file l).leaf.keyArray ((j : Int) + 1) := by
      have := LeafNodeInt.keyArray_lt hasc (Nat.lt_succ_self j) (by omega)
      rwa [hk] at this
    refine ⟨_, scanNext_inLeaf rfl rfl hv rfl (by omega) hin, scanNext_done rfl hv ?_⟩
    simp [pointScanAt, not_le.2 hgt]
  · cases lsR with
    | nil => exact ⟨_, scanNext_lastLeaf rfl rfl hv rfl (by omega) hin hs.rightSib_last, scanNext_done rfl hv rfl⟩
    | cons l' lsR =>
      -- the first key of the next leaf, if it has one, is above `k`
      have hv' : s.buf.Valid l' := hs.valid_leaf (by simp)
      refine ⟨_, scanNext_toSibling rfl rfl hv rfl (by omega) hin hs.rightSib_next hv', scanNext_done rfl hv' ?_⟩
      obtain ⟨-, h0, -, -, -, -⟩ := subtree_leaf d hs.tree l' (by simp)
      by_cases hN : (s.buf.file l').leaf.numOccupied = 0
      · simp [pointScanAt, hN]
      · have h0k : k < (s.buf.file l').leaf.keyArray 0 :=
          hR _ (List.mem_append_left _ (LeafNodeInt.mem_entries.2 ⟨0, by omega, rfl⟩))
        simp [pointScanAt, hN, not_lt.2 h0k.le]

/-- When every key of the leaf the descent for `k` reaches is below `k`, `startScan(k, GTE, k, LTE)` finds no slot
for `k`, and either rejects the scan or starts it on the end marker. -/
theorem startScan_point_missed (hs : Shape s d es ls)
    (hbelow : ∀ e ∈ (s.buf.file ((childFor s.buf k)^[d] s.idx.rootPageNum)).leaf.entries, e.1 < k) :
    (∃ s', startScan k .GTE k .LTE s = .error .NoSuchKeyFound s' ∧ s'.idx.scanExecuting = false) ∨
      ∃ s', startScan k .GTE k .LTE s = .ok () s' ∧ scanNext s' = .error .IndexScanCompleted s' := by
  obtain ⟨-, -, -, ⟨hv, h0, -⟩, hrun⟩ := hs.reach k
  exact startScan_no_match le_rfl (.inr rfl) (.inr rfl) hrun hv h0 fun e he => by simpa [lowOk] using hbelow e he

/-- **A point scan for a stored entry `(k, r)`.** It hands out `r` when no node on the search path for `k` has `k`
among its keys, and no rid when one has. -/
theorem point_scan_stored (hs : Shape s d es ls) {r : RecordId} (he : (k, r) ∈ es) :
    ((∀ q ∈ descend s.buf k d s.idx.rootPageNum, k ∉ (s.buf.file q).node.keys) →
      (runCalls [.startScan k .GTE k .LTE, .scanNext, .scanNext] s).1 =
        [.ok none, .ok (some r), .error .IndexScanCompleted]) ∧
    ((∃ q ∈ descend s.buf k d s.idx.rootPageNum, k ∈ (s.buf.file q).node.keys) →
      (runCalls [.startScan k .GTE k .LTE, .scanNext, .scanNext] s).1 =
          [.error .NoSuchKeyFound, .error .ScanNotInitialized, .error .ScanNotInitialized] ∨
        (runCalls [.startScan k .GTE k .LTE, .scanNext, .scanNext] s).1 =
          [.ok none, .error .IndexScanCompleted, .error .IndexScanCompleted]) := by
  obtain ⟨lsL, lsR, hls, hL, hR, hsep⟩ := subtree_lookup k d hs.tree
  refine ⟨fun hno => ?_, fun hyes => ?_⟩
  · -- the entry is on some slot `j` of the leaf reached
    have hmem : (k, r) ∈ (s.buf.file ((childFor s.buf k)^[d] s.idx.rootPageNum)).leaf.entries := by
      rw [hs.entries_around hls, List.mem_append, List.mem_append] at he
      rcases he with (he | he) | he
      exacts [absurd (hL _ he) (lt_irrefl k), he, absurd (hR hno _ he) (lt_irrefl k)]
    obtain ⟨j, hj, hjk⟩ := LeafNodeInt.mem_entries.1 hmem
    obtain ⟨hk, rfl⟩ := Prod.mk.inj hjk
    obtain ⟨s₂, h₂, h₃⟩ := scanNext_point_found hs hls (hR hno) hj hk
    rw [runCalls_cons_ok (run_startScan_ok (startScan_point_found hs hj hk)), runCalls_cons_ok (run_scanNext_ok h₂),
      runCalls_cons_error (run_scanNext_error h₃)]
    rfl
  · rcases startScan_point_missed hs (hsep hyes) with ⟨s₁, h₁, hoff⟩ | ⟨s₁, h₁, h₂⟩
    · rw [runCalls_cons_error (run_startScan_error h₁), runCalls_cons_error (run_scanNext_error (scanNext_inactive hoff)),
        runCalls_cons_error (run_scanNext_error (scanNext_inactive hoff))]
      exact .inl rfl
    · rw [runCalls_cons_ok (run_startScan_ok h₁), runCalls_cons_error (run_scanNext_error h₂),
        runCalls_cons_error (run_scanNext_error h₂)]
      exact .inr rfl

/-- The theorem at `sample`, whose separator is `5`: a scan for `2` hands out its rid, and a scan for `5`, the first
key of the right leaf, hands out none. -/
theorem point_scan_sample :
    ((2 : Int), (⟨1, 2⟩ : RecordId)) ∈ sampleEntries ∧
      (runCalls [.startScan 2 .GTE 2 .LTE, .scanNext, .scanNext] sample).1 =
        [.ok none, .ok (some ⟨1, 2⟩), .error .IndexScanCompleted] ∧
      ((5 : Int), (⟨1, 5⟩ : RecordId)) ∈ sampleEntries ∧
      ((runCalls [.startScan 5 .GTE 5 .LTE, .scanNext, .scanNext] sample).1 =
          [.error .NoSuchKeyFound, .error .ScanNotInitialized, .error .ScanNotInitialized] ∨
        (runCalls [.startScan 5 .GTE 5 .LTE, .scanNext, .scanNext] sample).1 =
          [.ok none, .error .IndexScanCompleted, .error .IndexScanCompleted]) := by
  have h2 : ((2 : Int), (⟨1, 2⟩ : RecordId)) ∈ sampleEntries := by decide
  have h5 : ((5 : Int), (⟨1, 5⟩ : RecordId)) ∈ sampleEntries := by decide
  exact ⟨h2, (point_scan_stored sample_shape h2).1 (by decide), h5, (point_scan_stored sample_shape h5).2 (by decide)⟩

end Scan

end BadgerBTree
