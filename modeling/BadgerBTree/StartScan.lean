import BadgerBTree.Search

/-!
# `startScan`

`startScan` validates its range and operators, descends to the leaf `searchEntry` returns for the low bound, and
positions the scan on the first entry of that leaf that meets the low bound (`startScan_searched`).

Two things the source does in an order that matters:

- it sets `scanExecuting` before it validates, and assigns the bounds before it checks the operators, so a
  rejected `startScan` leaves the previous scan active at its page and entry
  (`startScan_rejected_scan_stays_active`);
- it looks for the first entry only in the leaf `searchEntry` returns. When that leaf holds an entry meeting the
  low bound, that entry is the first one of the whole tree, and `startScan` positions on it, or raises
  `NoSuchKeyFound` when it misses the high bound, reading no slot of the leaf beyond its entries
  (`startScan_positions_on_first_match`). When the leaf holds none, the loop leaves `nextEntry = -1`, which the
  test `nextEntry == numOccupied` never catches, and the next test reads `keyArray[-1]`.
-/

namespace BadgerBTree

/-! ## The bounds of a scan -/

/-- The low bound as the spec reads it: a key above `low` under `GT`, at least `low` under `GTE`. -/
def lowOk (lowOp : Operator) (low k : Int) : Bool :=
  match lowOp with
  | .GTE => decide (low ≤ k)
  | _ => decide (low < k)

/-- The high bound: a key below `high` under `LT`, at most `high` under `LTE`. -/
def highOk (highOp : Operator) (high k : Int) : Bool :=
  match highOp with
  | .LTE => decide (k ≤ high)
  | _ => decide (k < high)

section Bounds

variable {lowOp highOp : Operator} {low high k k' : Int}

theorem le_of_lowOk (h : lowOk lowOp low k = true) : low ≤ k := by
  cases lowOp <;> simp only [lowOk, decide_eq_true_eq] at h <;> omega

theorem lowOk_mono (h : lowOk lowOp low k = true) (hk : k ≤ k') : lowOk lowOp low k' = true := by
  cases lowOp <;> simp only [lowOk, decide_eq_true_eq] at * <;> omega

theorem highOk_anti (h : highOk highOp high k' = true) (hk : k ≤ k') : highOk highOp high k = true := by
  cases highOp <;> simp only [highOk, decide_eq_true_eq] at * <;> omega

/-- The loop of `startScan` stops at a key exactly when it meets the low bound. -/
theorem lowOk_iff (hop : lowOp = .GT ∨ lowOp = .GTE) :
    lowOk lowOp low k = true ↔ ¬k < low ∧ ¬(lowOp ≠ .GTE ∧ k = low) := by
  rcases hop with rfl | rfl
  · simp [lowOk]; omega
  · simp [lowOk]

/-- The test after the loop rejects a key exactly when it misses the high bound. -/
theorem highOk_eq_false_iff (hop : highOp = .LT ∨ highOp = .LTE) :
    highOk highOp high k = false ↔ k > high ∨ (k = high ∧ highOp = .LT) := by
  rcases hop with rfl | rfl
  · simp [highOk]; omega
  · simp [highOk]

end Bounds

/-! ## The loop of `startScan` -/

section FirstEntry

variable {K : Int → Int} {low : Int} {lowOp : Operator}

theorem firstEntry_stop {rem : Nat} {i : Int} (hop : lowOp = .GT ∨ lowOp = .GTE)
    (h : lowOk lowOp low (K i) = true) : firstEntry K low lowOp (rem + 1) i = i := by
  have := (lowOk_iff hop).1 h
  simp only [firstEntry, if_neg this.1, if_neg this.2]

theorem firstEntry_skip {rem : Nat} {i : Int} (hop : lowOp = .GT ∨ lowOp = .GTE)
    (h : lowOk lowOp low (K i) = false) : firstEntry K low lowOp (rem + 1) i = firstEntry K low lowOp rem (i + 1) := by
  have : K i < low ∨ (lowOp ≠ .GTE ∧ K i = low) := by
    by_contra hne
    rw [not_or] at hne
    simp [(lowOk_iff hop).2 hne] at h
  rcases this with h' | h'
  · simp only [firstEntry, if_pos h']
  · simp only [firstEntry, if_neg (show ¬K i < low by omega), if_pos h']

theorem shift_succ (i : Int) (t : Nat) : i + 1 + (t : Int) = i + ((t + 1 : Nat) : Int) := by push_cast; omega

/-- The loop stops at the first slot from `i` that meets the low bound. -/
theorem firstEntry_first (hop : lowOp = .GT ∨ lowOp = .GTE) :
    ∀ (rem : Nat) (i : Int) (j : Nat), j < rem → lowOk lowOp low (K (i + j)) = true →
      (∀ t < j, lowOk lowOp low (K (i + t)) = false) → firstEntry K low lowOp rem i = i + j
  | rem + 1, i, 0, _, hj, _ => by simpa using firstEntry_stop hop (by simpa using hj)
  | rem + 1, i, j + 1, hlt, hj, hbefore => by
    rw [firstEntry_skip hop (by simpa using hbefore 0 (Nat.succ_pos _)),
      firstEntry_first hop rem (i + 1) j (by omega) (by rw [shift_succ]; exact hj)
        (fun t ht => by rw [shift_succ]; exact hbefore (t + 1) (by omega)), shift_succ]

/-- The loop ends with `-1` when no slot meets the low bound. -/
theorem firstEntry_none (hop : lowOp = .GT ∨ lowOp = .GTE) :
    ∀ (rem : Nat) (i : Int), (∀ t < rem, lowOk lowOp low (K (i + t)) = false) → firstEntry K low lowOp rem i = -1
  | 0, _, _ => rfl
  | rem + 1, i, h => by
    rw [firstEntry_skip hop (by simpa using h 0 (Nat.succ_pos _))]
    exact firstEntry_none hop rem (i + 1) fun t ht => by rw [shift_succ]; exact h (t + 1) (by omega)

/-- The loop reads the keys of the slots it passes and no other. -/
theorem firstEntry_congr {K' : Int → Int} :
    ∀ (rem : Nat) (i : Int), (∀ t < rem, K' (i + t) = K (i + t)) →
      firstEntry K' low lowOp rem i = firstEntry K low lowOp rem i
  | 0, _, _ => rfl
  | rem + 1, i, h => by
    have h0 : K' i = K i := by simpa using h 0 (Nat.succ_pos _)
    have ih : firstEntry K' low lowOp rem (i + 1) = firstEntry K low lowOp rem (i + 1) :=
      firstEntry_congr rem (i + 1) fun t ht => by rw [shift_succ]; exact h (t + 1) (by omega)
    simp only [firstEntry, h0, ih]

end FirstEntry

/-! ## The entries in range -/

section FirstMatch

variable {low high : Int} {lowOp highOp : Operator}

/-- On entries with increasing keys, those meeting the high bound are a prefix. -/
theorem filter_highOk_eq_takeWhile : ∀ {es : List Entry}, Ascending es →
    es.filter (fun e => highOk highOp high e.1) = es.takeWhile (fun e => highOk highOp high e.1)
  | [], _ => rfl
  | e :: es, h => by
    rw [Ascending, List.map_cons, List.pairwise_cons] at h
    cases he : highOk highOp high e.1
    · rw [List.filter_cons_of_neg (by simp [he]), List.takeWhile_cons_of_neg (by simp [he]), List.filter_eq_nil_iff]
      intro e' he' h'
      have := highOk_anti h' (le_of_lt (h.1 _ (List.mem_map_of_mem _ he')))
      simp [he] at this
    · simp only [List.filter_cons, List.takeWhile_cons, he, if_true, filter_highOk_eq_takeWhile h.2]

variable {b : BufMgr} {lsL lsR : List PageId} {l : PageId} {es : List Entry} {j : Nat}

/-- Ascending entries around leaf `l`, after leaves below `low`, split at the first slot `j` of `l` meeting `low`:
the entries before miss it, those from it on meet it, and slot `j` is first. -/
theorem split_at_first_match
    (hes : es = leafEntries b lsL ++ (b.file l).leaf.entries ++ leafEntries b lsR) (hasc : Ascending es)
    (hL : ∀ e ∈ leafEntries b lsL, e.1 < low) (hjN : j < (b.file l).leaf.numOccupied.toNat)
    (hjok : lowOk lowOp low ((b.file l).leaf.keyArray j) = true)
    (hmin : ∀ t < j, lowOk lowOp low ((b.file l).leaf.keyArray t) = false) :
    let g := (leafEntries b lsL).length + j
    (∀ e ∈ es.take g, lowOk lowOp low e.1 = false) ∧ (∀ e ∈ es.drop g, lowOk lowOp low e.1 = true) ∧
      es.drop g = ((b.file l).leaf.keyArray j, (b.file l).leaf.ridArray j) :: es.drop (g + 1) := by
  set n := (b.file l).leaf
  have hjE : j < n.entries.length := by rw [LeafNodeInt.length_entries]; exact hjN
  have htake : es.take ((leafEntries b lsL).length + j) = leafEntries b lsL ++ n.entries.take j := by
    simp [hes, List.take_append_eq_append_take, List.take_of_length_le, Nat.sub_eq_zero_of_le hjN.le]
  have hdrop : ∀ i ≤ n.entries.length,
      es.drop ((leafEntries b lsL).length + i) = n.entries.drop i ++ leafEntries b lsR := fun i hi => by
    rw [LeafNodeInt.length_entries] at hi
    simp [hes, List.drop_append_eq_append_drop, List.drop_of_length_le, Nat.sub_eq_zero_of_le hi]
  have hcons : es.drop ((leafEntries b lsL).length + j) =
      (n.keyArray j, n.ridArray j) :: es.drop ((leafEntries b lsL).length + j + 1) := by
    rw [Nat.add_assoc, hdrop j hjE.le, hdrop (j + 1) hjE, List.drop_eq_getElem_cons hjE, LeafNodeInt.getElem_entries]
    rfl
  -- from slot `j` on, keys are at least `K[j]`
  have hge : ∀ e ∈ es.drop ((leafEntries b lsL).length + j), n.keyArray j ≤ e.1 := by
    have h := hasc.sublist ((List.drop_sublist ((leafEntries b lsL).length + j) es).map _)
    rw [hcons, List.map_cons, List.pairwise_cons] at h
    rw [hcons]
    rintro e (_ | ⟨_, he⟩)
    exacts [le_rfl, le_of_lt (h.1 _ (List.mem_map_of_mem _ he))]
  refine ⟨fun e he => ?_, fun e he => lowOk_mono hjok (hge e he), hcons⟩
  rw [htake, List.mem_append, List.mem_take_iff_getElem] at he
  rcases he with he | ⟨i, hi, rfl⟩
  · cases h : lowOk lowOp low e.1
    · rfl
    · exact absurd (hL e he) (not_lt.2 (le_of_lowOk h))
  · simp only [LeafNodeInt.getElem_entries]
    exact hmin i (lt_min_iff.1 hi).1

/-- Hence the first entry meeting the low bound is slot `j` of `l`, and the entries meeting both bounds are those
from it on, up to the first that misses the high bound. -/
theorem find_filter_of_first_match
    (hes : es = leafEntries b lsL ++ (b.file l).leaf.entries ++ leafEntries b lsR) (hasc : Ascending es)
    (hL : ∀ e ∈ leafEntries b lsL, e.1 < low) (hjN : j < (b.file l).leaf.numOccupied.toNat)
    (hjok : lowOk lowOp low ((b.file l).leaf.keyArray j) = true)
    (hmin : ∀ t < j, lowOk lowOp low ((b.file l).leaf.keyArray t) = false) :
    let e₀ := ((b.file l).leaf.keyArray j, (b.file l).leaf.ridArray j)
    es.find? (fun e => lowOk lowOp low e.1) = some e₀ ∧
      es.filter (fun e => lowOk lowOp low e.1 && highOk highOp high e.1) =
        (e₀ :: es.drop ((leafEntries b lsL).length + j + 1)).takeWhile (fun e => highOk highOp high e.1) := by
  obtain ⟨hbefore, hfrom, hcons⟩ := split_at_first_match hes hasc hL hjN hjok hmin
  have hsplit := List.take_append_drop ((leafEntries b lsL).length + j) es
  constructor
  · rw [← hsplit, List.find?_append, List.find?_eq_none.2 fun e he => by simp [hbefore e he], hcons]
    simp [hjok]
  · have hboth : (es.drop ((leafEntries b lsL).length + j)).filter
          (fun e => lowOk lowOp low e.1 && highOk highOp high e.1) =
        (es.drop ((leafEntries b lsL).length + j)).filter (fun e => highOk highOp high e.1) :=
      List.filter_congr fun e he => by simp [hfrom e he]
    rw [← hcons, ← filter_highOk_eq_takeWhile (hasc.sublist ((List.drop_sublist _ _).map _)), ← hboth]
    conv_lhs => rw [← hsplit]
    rw [List.filter_append, List.filter_eq_nil_iff.2 fun e he => by simp [hbefore e he], List.nil_append]

end FirstMatch

/-! ## Steps of the scan calls -/

section Steps

variable {s : Sys} {α : Type}

theorem searchFuel_bind (k : Nat → M α) : (searchFuel >>= k) s = k s.buf.numPages s := rfl

theorem endScan_active (h : s.idx.scanExecuting = true) :
    endScan s = .ok () { s with idx := { s.idx with scanExecuting := false } } := by
  unfold endScan
  simp only [members_bind, h, Bool.not_true, Bool.false_eq_true, if_false, pure_bind]
  rfl

theorem endScan_inactive (h : s.idx.scanExecuting = false) : endScan s = .error .ScanNotInitialized s := by
  unfold endScan
  simp only [members_bind, h, Bool.not_false, if_true]
  rfl

theorem endScan_bind (k : Unit → M α) (h : s.idx.scanExecuting = true) :
    (endScan >>= k) s = k () { s with idx := { s.idx with scanExecuting := false } } := bind_ok (endScan_active h)

theorem endScan_bind_mk {i : BTreeIndex} {b : BufMgr} {n : Int} (k : Unit → M α) (h : i.scanExecuting = true) :
    (endScan >>= k) ⟨i, b, n⟩ = k () ⟨{ i with scanExecuting := false }, b, n⟩ :=
  bind_ok (endScan_active h)

end Steps

/-! ## Rejected scans -/

section Rejected

variable {s : Sys} {low high : Int} {lowOp highOp : Operator}

theorem startScan_badScanrange (h : high < low) :
    startScan low lowOp high highOp s = .error .BadScanrange { s with idx := { s.idx with scanExecuting := true } } := by
  unfold startScan
  simp only [members_bind]
  cases hs : s.idx.scanExecuting <;>
    simp only [Bool.false_eq_true, if_false, if_true, pure_bind, endScan_bind, endScan_bind_mk, hs, setMembers_bind,
      if_pos (show low > high from h), throw_apply]

/-- The two operator checks of `startScan` raise `BadOpcodes` as soon as one of them fails. -/
theorem ite_badOpcodes {α : Type} {A B : Prop} [Decidable A] [Decidable B] (k : M α) (h : A ∨ B) :
    (if A then throw .BadOpcodes else if B then throw .BadOpcodes else k) = (throw .BadOpcodes : M α) := by
  by_cases hA : A
  · rw [if_pos hA]
  · rw [if_neg hA, if_pos (h.resolve_left hA)]

theorem startScan_badOpcodes (hlh : low ≤ high) (hop : ¬((lowOp = .GT ∨ lowOp = .GTE) ∧ (highOp = .LT ∨ highOp = .LTE))) :
    startScan low lowOp high highOp s =
      .error .BadOpcodes { s with idx := { s.idx with scanExecuting := true, lowValInt := low, highValInt := high } } := by
  have hbad : (lowOp ≠ .GT ∧ lowOp ≠ .GTE) ∨ (highOp ≠ .LT ∧ highOp ≠ .LTE) :=
    (not_and_or.1 hop).imp not_or.1 not_or.1
  unfold startScan
  simp only [members_bind]
  cases hs : s.idx.scanExecuting <;>
    simp only [Bool.false_eq_true, if_false, if_true, pure_bind, endScan_bind, endScan_bind_mk, hs, setMembers_bind,
      if_neg (not_lt.2 hlh), ite_badOpcodes _ hbad, throw_apply]

/-- **A rejected `startScan` keeps the previous scan active.** It sets `scanExecuting` and the bounds before its
checks, so after `BadScanrange` or `BadOpcodes` the scan is active and `endScan` ends it without raising. -/
theorem startScan_rejected_scan_stays_active (s : Sys) (low high : Int) (lowOp highOp : Operator) :
    (high < low →
      startScan low lowOp high highOp s = .error .BadScanrange { s with idx := { s.idx with scanExecuting := true } }) ∧
    (low ≤ high → ¬((lowOp = .GT ∨ lowOp = .GTE) ∧ (highOp = .LT ∨ highOp = .LTE)) →
      startScan low lowOp high highOp s =
        .error .BadOpcodes { s with idx := { s.idx with scanExecuting := true, lowValInt := low, highValInt := high } }) ∧
    ∀ s' : Sys, s'.idx.scanExecuting = true →
      endScan s' = .ok () { s' with idx := { s'.idx with scanExecuting := false } } :=
  ⟨startScan_badScanrange, startScan_badOpcodes, fun _ => endScan_active⟩

end Rejected

/-- `sample` with a scan of `[1, 6]` positioned on its first entry. -/
def sampleScanning : Sys :=
  { sample with
    idx := { sample.idx with scanExecuting := true, currentPageNum := 3, nextEntry := 0, lowValInt := 1, highValInt := 6 } }

/-- On `sampleScanning`, `startScan` with an empty range raises `BadScanrange`, and the next `scanNext` still
returns the rid of the previous scan's first entry. -/
theorem startScan_bad_range_sample :
    startScan 7 .GTE 2 .LTE sampleScanning =
        .error .BadScanrange { sampleScanning with idx := { sampleScanning.idx with scanExecuting := true } } ∧
      outcome (scanNext { sampleScanning with idx := { sampleScanning.idx with scanExecuting := true } }) = .ok ⟨1, 1⟩ :=
  ⟨(startScan_rejected_scan_stays_active sampleScanning 7 2 .GTE .LTE).1 (by decide), rfl⟩

/-! ## Scans that descend -/

section Searched

variable {s : Sys} {low high : Int} {lowOp highOp : Operator}

/-- The state in which `startScan` descends: the scan active, with its bounds and operators. -/
def scanOn (s : Sys) (low : Int) (lowOp : Operator) (high : Int) (highOp : Operator) : Sys :=
  { s with
    idx := { s.idx with scanExecuting := true, lowValInt := low, highValInt := high, lowOp := lowOp, highOp := highOp } }

/-- `startScan` once `searchEntry` has returned `l`: `nextEntry` is the first slot of `l` meeting `low`, or `-1`,
and `NoSuchKeyFound` is raised when it is `numOccupied` or its key misses the high bound. -/
theorem startScan_searched {l : PageId} {ps : List PageId} (hlh : low ≤ high) (hlo : lowOp = .GT ∨ lowOp = .GTE)
    (hhi : highOp = .LT ∨ highOp = .LTE)
    (hsearch : searchEntry low s.buf.numPages s.idx.rootPageNum [] (scanOn s low lowOp high highOp) =
      .ok (l, ps) (scanOn s low lowOp high highOp))
    (hv : s.buf.Valid l) :
    startScan low lowOp high highOp s =
      let n := (s.buf.file l).leaf
      let e := firstEntry n.keyArray low lowOp n.numOccupied.toNat 0
      let idx := { (scanOn s low lowOp high highOp).idx with currentPageNum := l, nextEntry := e }
      if e = n.numOccupied ∨ n.keyArray e > high ∨ (n.keyArray e = high ∧ highOp = .LT) then
        .error .NoSuchKeyFound { s with idx := { idx with scanExecuting := false } }
      else .ok () { s with idx := idx } := by
  have hlo' : ¬(lowOp ≠ .GT ∧ lowOp ≠ .GTE) := by rcases hlo with rfl | rfl <;> simp
  have hhi' : ¬(highOp ≠ .LT ∧ highOp ≠ .LTE) := by rcases hhi with rfl | rfl <;> simp
  have hlh' : ¬(low > high) := not_lt.2 hlh
  unfold startScan
  simp only [members_bind]
  cases hs : s.idx.scanExecuting
  all_goals
    simp only [Bool.false_eq_true, if_false, if_true, pure_bind, endScan_bind, endScan_bind_mk, hs,
      setMembers_bind, if_neg hlh', if_neg hlo', if_neg hhi', searchFuel_bind, members_bind]
    simp only [scanOn] at hsearch
    rw [bind_ok hsearch]
    simp only [setMembers_bind, readPage_bind_mk _ hv, members_bind]
    split
    · simp only [unPinPage_bind_mk _ (BufMgr.pin_pinCount _ _), BufMgr.release_pin, endScan_bind_mk, throw_apply]
      rw [if_pos (Or.inl ‹_›)]
      rfl
    · split
      · simp only [unPinPage_bind_mk _ (BufMgr.pin_pinCount _ _), BufMgr.release_pin, endScan_bind_mk, throw_apply]
        rw [if_pos (Or.inr ‹_›)]
        rfl
      · simp only [unPinPage_mk (BufMgr.pin_pinCount _ _), BufMgr.release_pin]
        rw [if_neg (not_or.2 ⟨‹_›, ‹_›⟩)]
        rfl

/-- The state `s` with the keys of leaf `l` replaced by `K'`. -/
def withKeys (s : Sys) (l : PageId) (K' : Int → Int) : Sys :=
  { s with
    buf := { s.buf with
      file := Function.update s.buf.file l { s.buf.file l with leaf := { (s.buf.file l).leaf with keyArray := K' } } } }

/-- `searchEntry` reads the internal-node view of pages only, so it runs the same in the states where `startScan`
calls it and after the keys of a leaf change. -/
theorem searchEntry_scanOn {key : Int} {fuel : Nat} {p : PageId} {r : PageId × List PageId}
    (h : searchEntry key fuel p [] s = .ok r s) :
    searchEntry key fuel p [] (scanOn s low lowOp high highOp) = .ok r (scanOn s low lowOp high highOp) :=
  @searchEntry_congr s (scanOn s low lowOp high highOp) rfl (fun _ => rfl) rfl key fuel p [] r h

theorem searchEntry_withKeys {key : Int} {fuel : Nat} {p l : PageId} {K' : Int → Int} {r : PageId × List PageId}
    (h : searchEntry key fuel p [] s = .ok r s) : searchEntry key fuel p [] (withKeys s l K') = .ok r (withKeys s l K') :=
  @searchEntry_congr s (withKeys s l K') rfl (fun q => by by_cases hq : q = l <;> simp [withKeys, hq]) rfl key fuel p []
    r h

theorem scanOn_withKeys {l : PageId} {K' : Int → Int} :
    scanOn (withKeys s l K') low lowOp high highOp = withKeys (scanOn s low lowOp high highOp) l K' := rfl

@[simp]
theorem withKeys_leaf {l : PageId} {K' : Int → Int} :
    ((withKeys s l K').buf.file l).leaf = { (s.buf.file l).leaf with keyArray := K' } := by simp [withKeys]

/-- `startScan` descends to a leaf `l` after leaves below `low`; when `l` holds a key meeting `low`, it starts the
scan on the first such slot if that key meets the high bound, and raises `NoSuchKeyFound` otherwise. -/
theorem startScan_first_in_leaf {d : Nat} {es : List Entry} {ls : List PageId} (hs : Shape s d es ls)
    (hlh : low ≤ high) (hlo : lowOp = .GT ∨ lowOp = .GTE) (hhi : highOp = .LT ∨ highOp = .LTE) :
    ∃ lsL l lsR ps, ls = lsL ++ l :: lsR ∧ (∀ e ∈ leafEntries s.buf lsL, e.1 < low) ∧
      searchEntry low s.buf.numPages s.idx.rootPageNum [] s = .ok (l, ps) s ∧
      ((∃ e ∈ (s.buf.file l).leaf.entries, lowOk lowOp low e.1 = true) →
        let n := (s.buf.file l).leaf
        ∃ j : Nat, j < n.numOccupied.toNat ∧ lowOk lowOp low (n.keyArray j) = true ∧
          (∀ t < j, lowOk lowOp low (n.keyArray t) = false) ∧
          firstEntry n.keyArray low lowOp n.numOccupied.toNat 0 = j ∧
          startScan low lowOp high highOp s =
            if highOk highOp high (n.keyArray j) then
              .ok ()
                { s with
                  idx := { s.idx with
                    scanExecuting := true, lowValInt := low, highValInt := high, lowOp := lowOp, highOp := highOp,
                    currentPageNum := l, nextEntry := j } }
            else
              .error .NoSuchKeyFound
                { s with
                  idx := { s.idx with
                    scanExecuting := false, lowValInt := low, highValInt := high, lowOp := lowOp, highOp := highOp,
                    currentPageNum := l, nextEntry := j } }) := by
  obtain ⟨lsL, l, lsR, ps, rfl, hL, hrun⟩ := hs.searchEntry_split low
  refine ⟨lsL, l, lsR, ps, rfl, hL, hrun, fun hex => ?_⟩
  obtain ⟨hv, -⟩ := subtree_leaf d hs.tree l (by simp)
  set n := (s.buf.file l).leaf with hn
  -- the first slot of `l` meeting the low bound
  have hex' : ∃ j : Nat, j < n.numOccupied.toNat ∧ lowOk lowOp low (n.keyArray j) = true := by
    obtain ⟨e, he, hel⟩ := hex
    obtain ⟨t, ht, rfl⟩ := LeafNodeInt.mem_entries.1 he
    exact ⟨t, ht, hel⟩
  obtain ⟨hjN, hjok⟩ := Nat.find_spec hex'
  have hmin : ∀ t < Nat.find hex', lowOk lowOp low (n.keyArray t) = false := fun t ht => by
    simpa using fun h => Nat.find_min hex' ht ⟨by omega, h⟩
  set j := Nat.find hex'
  have hfirst : firstEntry n.keyArray low lowOp n.numOccupied.toNat 0 = j := by
    simpa using firstEntry_first hlo _ 0 _ hjN (by simpa using hjok) (fun t ht => by simpa using hmin t ht)
  refine ⟨j, hjN, hjok, hmin, hfirst, ?_⟩
  have hstart := startScan_searched hlh hlo hhi (searchEntry_scanOn hrun) hv
  dsimp only at hstart
  rw [← hn, hfirst] at hstart
  rw [hstart]
  have hne : ¬((j : Int) = n.numOccupied) := by omega
  cases hhigh : highOk highOp high (n.keyArray j)
  · rw [if_pos (Or.inr ((highOk_eq_false_iff hhi).1 hhigh))]
    rfl
  · rw [if_neg fun h => h.elim hne fun h => by simp [(highOk_eq_false_iff hhi).2 h] at hhigh]
    rfl

/-- **Where `startScan` positions a scan.** On the tree's first entry meeting `low`, when the leaf `searchEntry`
returns holds it and it meets `high`, else `NoSuchKeyFound`; the keys of `l` past `numOccupied` are never read. -/
theorem startScan_positions_on_first_match {d : Nat} {es : List Entry} {ls : List PageId} (hs : Shape s d es ls)
    (hlh : low ≤ high) (hlo : lowOp = .GT ∨ lowOp = .GTE) (hhi : highOp = .LT ∨ highOp = .LTE) :
    ∃ l ps, searchEntry low s.buf.numPages s.idx.rootPageNum [] s = .ok (l, ps) s ∧
      ((∃ e ∈ (s.buf.file l).leaf.entries, lowOk lowOp low e.1 = true) →
        let n := (s.buf.file l).leaf
        ∃ j : Nat, j < n.numOccupied ∧ es.find? (fun e => lowOk lowOp low e.1) = some (n.keyArray j, n.ridArray j) ∧
          (highOk highOp high (n.keyArray j) = true →
            startScan low lowOp high highOp s = .ok ()
              { s with
                idx := { s.idx with
                  scanExecuting := true, lowValInt := low, highValInt := high, lowOp := lowOp, highOp := highOp,
                  currentPageNum := l, nextEntry := j } }) ∧
          (highOk highOp high (n.keyArray j) = false →
            es.filter (fun e => lowOk lowOp low e.1 && highOk highOp high e.1) = [] ∧
            startScan low lowOp high highOp s = .error .NoSuchKeyFound
              { s with
                idx := { s.idx with
                  scanExecuting := false, lowValInt := low, highValInt := high, lowOp := lowOp, highOp := highOp,
                  currentPageNum := l, nextEntry := j } }) ∧
          ∀ K' : Int → Int, (∀ t : Nat, t < n.numOccupied → K' t = n.keyArray t) →
            outcome (startScan low lowOp high highOp (withKeys s l K')) =
                outcome (startScan low lowOp high highOp s) ∧
              (after (startScan low lowOp high highOp (withKeys s l K'))).idx =
                (after (startScan low lowOp high highOp s)).idx) := by
  obtain ⟨lsL, l, lsR, ps, hls, hL, hrun, hfirst⟩ := startScan_first_in_leaf hs hlh hlo hhi
  refine ⟨l, ps, hrun, fun hex => ?_⟩
  obtain ⟨j, hjN, hjok, hmin, hfe, hstart⟩ := hfirst hex
  have hfirstMatch := @find_filter_of_first_match low high lowOp highOp _ _ _ _ _ _ (hs.entries_around hls)
    hs.ascending hL hjN hjok hmin
  refine ⟨j, by omega, hfirstMatch.1, fun hhigh => by rw [hstart, if_pos hhigh], fun hhigh => ⟨?_, ?_⟩, fun K' hK' => ?_⟩
  · rw [hfirstMatch.2, List.takeWhile_cons_of_neg (by simp [hhigh])]
  · rw [hstart, if_neg (by simp [hhigh])]
  · -- the keys of `l` past its entries are never read
    obtain ⟨hv, -⟩ := subtree_leaf d hs.tree l (by simp [hls])
    have hv' : (withKeys s l K').buf.Valid l := hv
    have hstart' := startScan_searched hlh hlo hhi
      (scanOn_withKeys ▸ searchEntry_withKeys (searchEntry_scanOn hrun)) hv'
    have hfirst' : firstEntry K' low lowOp (s.buf.file l).leaf.numOccupied.toNat 0 = j :=
      (firstEntry_congr _ 0 fun t ht => by simpa using hK' t (by omega)).trans hfe
    dsimp only at hstart'
    simp only [withKeys_leaf] at hstart'
    rw [hfirst', hK' j (by omega)] at hstart'
    have hstart'' := startScan_searched hlh hlo hhi (searchEntry_scanOn hrun) hv
    dsimp only at hstart''
    rw [hfe] at hstart''
    rw [hstart', hstart'']
    split_ifs <;> exact ⟨rfl, rfl⟩


/-- The theorem at `sample`, scanning `[1, 6]`: the leaf for `1` is page 3, which holds `1`. -/
theorem startScan_sample_first_match :
    Shape sample 1 sampleEntries [3, 4] ∧
    ∃ l ps, searchEntry 1 sample.buf.numPages sample.idx.rootPageNum [] sample = .ok (l, ps) sample ∧
      ((∃ e ∈ (sample.buf.file l).leaf.entries, lowOk .GTE 1 e.1 = true) →
        let n := (sample.buf.file l).leaf
        ∃ j : Nat, j < n.numOccupied ∧
          sampleEntries.find? (fun e => lowOk .GTE 1 e.1) = some (n.keyArray j, n.ridArray j) ∧
          (highOk .LTE 6 (n.keyArray j) = true →
            startScan 1 .GTE 6 .LTE sample = .ok ()
              { sample with
                idx := { sample.idx with
                  scanExecuting := true, lowValInt := 1, highValInt := 6, lowOp := .GTE, highOp := .LTE,
                  currentPageNum := l, nextEntry := j } }) ∧
          (highOk .LTE 6 (n.keyArray j) = false →
            sampleEntries.filter (fun e => lowOk .GTE 1 e.1 && highOk .LTE 6 e.1) = [] ∧
            startScan 1 .GTE 6 .LTE sample = .error .NoSuchKeyFound
              { sample with
                idx := { sample.idx with
                  scanExecuting := false, lowValInt := 1, highValInt := 6, lowOp := .GTE, highOp := .LTE,
                  currentPageNum := l, nextEntry := j } }) ∧
          ∀ K' : Int → Int, (∀ t : Nat, t < n.numOccupied → K' t = n.keyArray t) →
            outcome (startScan 1 .GTE 6 .LTE (withKeys sample l K')) =
                outcome (startScan 1 .GTE 6 .LTE sample) ∧
              (after (startScan 1 .GTE 6 .LTE (withKeys sample l K'))).idx =
                (after (startScan 1 .GTE 6 .LTE sample)).idx) :=
  ⟨sample_shape, startScan_positions_on_first_match sample_shape (by decide) (by decide) (by decide)⟩

/-- On `sample` the first key above `2` is `5`, first in page 4 and at most `6`, yet `startScan(2, GT, 6, LTE)` only
looks in page 3: it starts the scan at `-1`, and with `7` in `keyArray[-1]` it raises `NoSuchKeyFound`. -/
theorem startScan_sample_misses_right_sibling :
    Shape sample 1 sampleEntries [3, 4] ∧ sampleEntries.find? (fun e => lowOk .GT 2 e.1) = some (5, ⟨1, 5⟩) ∧
      highOk .LTE 6 5 = true ∧
      (∃ s', startScan 2 .GT 6 .LTE sample = .ok () s' ∧ s'.idx.currentPageNum = 3 ∧ s'.idx.nextEntry = -1 ∧
        raised (scanNext s') = some .IndexScanCompleted) ∧
      outcome (startScan 2 .GT 6 .LTE
        (withKeys sample 3 fun j => if j = -1 then 7 else (sample.buf.file 3).leaf.keyArray j)) = .error .NoSuchKeyFound :=
  ⟨sample_shape, by decide, rfl, ⟨_, rfl, rfl, rfl, rfl⟩, rfl⟩

end Searched

end BadgerBTree
