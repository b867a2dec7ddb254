import BadgerBTree.InPlace
import BadgerBTree.Footprint

/-!
# Insertion into a leaf

`insertEntryLeaf` inserts into a leaf with room in place (`leafInsert`, in `InPlace`) and splits a full one
(`splitLeaf`). The loop of `splitLeaf` walks the full leaf from its top slot down with `(key, rid)` still to be
placed, one step lemma per branch: a key above `key` moves into the new leaf while it has room
(`splitLeafLoop_move`), then up one slot in the old leaf (`splitLeafLoop_shift`, `splitLeafLoop_shift_last`);
`key` goes into the old leaf once the new one is full (`splitLeafLoop_place_old`) and into the new one otherwise
(`splitLeafLoop_place_new`), after which the keys below it follow it there until the new leaf is full
(`splitLeafLoop_fill`).

Against the sorted insertion `S` of `(key, rid)` (`insertSlot` at the insertion point) the run has two regimes, as
`key` belongs to the old leaf or to the new one, each a sequence of phases proved by induction on the steps left
(`splitLeafLoop_moving`, `splitLeafLoop_shifting`, `splitLeafLoop_filling`). The loop leaves the first `c` slots
of `S` in the old leaf and the other `T = L + 1 - c` in the new one whenever `c ≥ 2` (`splitLeafLoop_spec`); the
capacity `(L + 1) / 2` of the source is at least `2` when `leafOccupancy ≥ 3`.

`insertEntryLeaf_sorted_insertion` puts the two paths together: the sorted insertion in place, or the split into
two linked leaves whose entries, left to right, are the sorted insertion, the new one holding `⌈(L + 1) / 2⌉`,
with the new leaf's first key handed up as the separator.
-/

namespace BadgerBTree

section Steps

variable {key : Int} {rid : RecordId} {L c : Int} {rem : Nat} {curr new : LeafNodeInt} {f : Bool} {i : Int}

/-- A key above `key` while the new leaf has room: it moves down into the new leaf. -/
theorem splitLeafLoop_move (hk : key < curr.keyArray (L - 1 - i)) (hroom : new.numOccupied + c < L + 1) :
    splitLeafLoop key rid L c (rem + 1) curr new f i = splitLeafLoop key rid L c rem (curr.bump (-1))
      ((new.copyEntry (L + 1 - c - 1 - i) curr (L - 1 - i)).bump 1) f (i + 1) := by
  rw [splitLeafLoop, if_neg (not_le.2 hk), if_pos hroom]

/-- A key above `key` once the new leaf is full: it moves up one slot in the old leaf. -/
theorem splitLeafLoop_shift (hk : key < curr.keyArray (L - 1 - i)) (hfull : L + 1 ≤ new.numOccupied + c)
    (hi : L ≠ i + 1) :
    splitLeafLoop key rid L c (rem + 1) curr new f i =
      splitLeafLoop key rid L c rem (curr.copyEntry (L - i) curr (L - 1 - i)) new f (i + 1) := by
  rw [splitLeafLoop, if_neg (not_le.2 hk), if_neg (not_lt.2 hfull), if_neg hi]

/-- The last key of the old leaf above `key`: it moves up, and `key` goes into slot `0`. -/
theorem splitLeafLoop_shift_last (hk : key < curr.keyArray (L - 1 - i)) (hfull : L + 1 ≤ new.numOccupied + c)
    (hi : L = i + 1) :
    splitLeafLoop key rid L c (rem + 1) curr new f i = splitLeafLoop key rid L c rem
      (((curr.copyEntry (L - i) curr (L - 1 - i)).bump 1).setEntry (L - 1 - i) key rid) new true (i + 1) := by
  rw [splitLeafLoop, if_neg (not_le.2 hk), if_neg (not_lt.2 hfull), if_pos hi]

/-- A key below `key`, `key` not placed yet, the new leaf full: `key` goes into the old leaf and the loop ends. -/
theorem splitLeafLoop_place_old (hk : curr.keyArray (L - 1 - i) ≤ key) (hfull : L + 1 ≤ new.numOccupied + c) :
    splitLeafLoop key rid L c (rem + 1) curr new false i = ((curr.bump 1).setEntry (L - i) key rid, new) := by
  rw [splitLeafLoop, if_pos hk]
  simp only [Bool.false_eq_true, if_false, ge_iff_le, if_pos hfull]

/-- A key below `key`, `key` not placed yet, room in the new leaf: `key` goes into the new leaf, then the key
follows it unless that filled the new leaf. -/
theorem splitLeafLoop_place_new (hk : curr.keyArray (L - 1 - i) ≤ key) (hroom : new.numOccupied + c < L + 1) :
    splitLeafLoop key rid L c (rem + 1) curr new false i =
      if L + 1 ≤ new.numOccupied + 1 + c then (curr, (new.bump 1).setEntry (L + 1 - c - 1 - i) key rid)
      else splitLeafLoop key rid L c rem (curr.bump (-1))
        ((((new.bump 1).setEntry (L + 1 - c - 1 - i) key rid).copyEntry (L + 1 - c - 2 - i) curr (L - i - 1)).bump 1)
        true (i + 1) := by
  rw [splitLeafLoop, if_pos hk]
  simp only [Bool.false_eq_true, if_false, ge_iff_le, if_neg (not_le.2 hroom), LeafNodeInt.setEntry_numOccupied,
    LeafNodeInt.bump_numOccupied]

/-- A key below `key` once `key` is placed: it moves to the new leaf, unless the new leaf is full. -/
theorem splitLeafLoop_fill (hk : curr.keyArray (L - 1 - i) ≤ key) :
    splitLeafLoop key rid L c (rem + 1) curr new true i =
      if L + 1 ≤ new.numOccupied + c then (curr, new)
      else splitLeafLoop key rid L c rem (curr.bump (-1))
        ((new.copyEntry (L + 1 - c - 2 - i) curr (L - i - 1)).bump 1) true (i + 1) := by
  rw [splitLeafLoop, if_pos hk]
  simp only [if_true, ge_iff_le]

end Steps

/-- The loop keeps the right siblings of both leaves. -/
theorem splitLeafLoop_rightSibPageNo (key : Int) (rid : RecordId) (L c : Int) :
    ∀ (rem : Nat) (curr new : LeafNodeInt) (f : Bool) (i : Int),
      (splitLeafLoop key rid L c rem curr new f i).1.rightSibPageNo = curr.rightSibPageNo ∧
        (splitLeafLoop key rid L c rem curr new f i).2.rightSibPageNo = new.rightSibPageNo
  | 0, _, _, _, _ => ⟨rfl, rfl⟩
  | rem + 1, curr, new, f, i => by
    unfold splitLeafLoop
    split_ifs <;> (try dsimp only) <;> (try split_ifs) <;>
      simp only [splitLeafLoop_rightSibPageNo key rid L c rem, LeafNodeInt.bump_rightSibPageNo,
        LeafNodeInt.setEntry_rightSibPageNo, LeafNodeInt.copyEntry_rightSibPageNo, and_self]

/-- The new leaf holds `m` entries, in its top slots `T - m .. T - 1`: those of `S` from `c + T - m` on. -/
def Filled (S : Int → Entry) (c T : Int) (new : LeafNodeInt) (m : Int) : Prop :=
  new.numOccupied = m ∧ ∀ s, T - m ≤ s → s < T → new.entryAt s = S (c + s)

/-- What `splitLeafLoop` leaves: the slots `0 .. c - 1` of `S` in the old leaf, `c .. c + T - 1` in the new one. -/
structure SplitSlots (S : Int → Entry) (c T : Int) (curr new : LeafNodeInt) : Prop where
  curr_numOccupied : curr.numOccupied = c
  new_numOccupied : new.numOccupied = T
  curr_entryAt : ∀ t, 0 ≤ t → t < c → curr.entryAt t = S t
  new_entryAt : ∀ s, 0 ≤ s → s < T → new.entryAt s = S (c + s)

section Loop

variable {key : Int} {rid : RecordId} {o : LeafNodeInt} {L c T : Int} {p : Nat}

/-- One more entry below the filled slots. -/
theorem Filled.push {S : Int → Entry} {new new' : LeafNodeInt} {m x : Int} {v : Entry} (h : Filled S c T new m)
    (hnum : new'.numOccupied = new.numOccupied + 1) (he : new'.entryAt = Function.update new.entryAt x v)
    (hx : x = T - 1 - m) (hv : v = S (c + x)) : Filled S c T new' (m + 1) := by
  refine ⟨by rw [hnum, h.1], fun s hs hsT => ?_⟩
  rw [he]
  by_cases hs' : s = x
  · rw [hs', Function.update_same, hv]
  · rw [Function.update_noteq hs', h.2 s (by omega) hsT]

/-- A key of `curr` moved below the filled slots, as `splitLeafLoop` moves one. -/
theorem Filled.move {S : Int → Entry} {new curr : LeafNodeInt} {m x y : Int} (h : Filled S c T new m)
    (hx : x = T - 1 - m) (hv : curr.entryAt y = S (c + x)) : Filled S c T ((new.copyEntry x curr y).bump 1) (m + 1) :=
  h.push (by simp) (by simp) hx hv

/-- `key` placed below the filled slots. -/
theorem Filled.place {S : Int → Entry} {new : LeafNodeInt} {m x key : Int} {rid : RecordId} (h : Filled S c T new m)
    (hx : x = T - 1 - m) (hv : (key, rid) = S (c + x)) : Filled S c T ((new.bump 1).setEntry x key rid) (m + 1) :=
  h.push (by simp) (by simp) hx hv

/-- **Regime I, second phase**: the new leaf is full and `key` belongs to the old leaf; the keys above it move up
one slot there, then `key` goes into the hole. -/
theorem splitLeafLoop_shifting (hq : InsertPoint o.keyArray L key p) (hT : c + T = L + 1) (hT0 : 0 ≤ T)
    {new : LeafNodeInt} (hnew : Filled (insertSlot o.entryAt p (key, rid)) c T new T) :
    ∀ (rem : Nat) (curr : LeafNodeInt) (i : Int), T ≤ i → i ≤ L - p → i < L → rem + i = L →
      curr.numOccupied = L - T → HoleAt o.entryAt curr.entryAt (L - i) (L - T) →
      SplitSlots (insertSlot o.entryAt p (key, rid)) c T (splitLeafLoop key rid L c rem curr new false i).1
        (splitLeafLoop key rid L c rem curr new false i).2
  | 0, _, _, _, _, hiL, hrem, _, _ => absurd hrem (by omega)
  | rem + 1, curr, i, hTi, hip, hiL, hrem, hnum, hh => by
    have hkey : curr.keyArray (L - 1 - i) = o.keyArray (L - 1 - i) := congrArg Prod.fst (hh.1 _ (by omega))
    have hfull : L + 1 ≤ new.numOccupied + c := by rw [hnew.1]; omega
    have hnew' : ∀ s, 0 ≤ s → s < T → new.entryAt s = insertSlot o.entryAt p (key, rid) (c + s) :=
      fun s hs hsT => hnew.2 s (by omega) hsT
    by_cases hend : i = L - p
    · -- `key` goes into the hole, at its insertion point
      rw [splitLeafLoop_place_old (by rw [hkey]; exact (hq.below _ (by omega) (by omega)).le) hfull]
      refine ⟨by simp [hnum]; omega, hnew.1, fun t _ htc => ?_, hnew'⟩
      rw [LeafNodeInt.setEntry_entryAt, LeafNodeInt.bump_entryAt, show L - i = p by omega]
      rw [show L - i = p by omega] at hh
      exact hh.update_eq _ (by omega)
    · have hk : key < curr.keyArray (L - 1 - i) := by rw [hkey]; exact hq.above _ (by omega) (by omega)
      -- the key below the hole moves up into it
      have hh' : HoleAt o.entryAt (curr.copyEntry (L - i) curr (L - 1 - i)).entryAt (L - 1 - i) (L - T) := by
        rw [LeafNodeInt.copyEntry_entryAt, show L - i = L - 1 - i + 1 by omega]
        exact HoleAt.step (by rwa [show L - 1 - i + 1 = L - i by omega])
      by_cases hlast : L = i + 1
      · -- that was slot `0`: `key` goes into it, and the loop ends
        obtain rfl : rem = 0 := by omega
        rw [splitLeafLoop_shift_last hk hfull hlast]
        refine ⟨by simp [splitLeafLoop, hnum]; omega, hnew.1, fun t _ htc => ?_, hnew'⟩
        rw [show L - 1 - i = p by omega] at hh' ⊢
        simpa [splitLeafLoop] using hh'.update_eq (key, rid) (by omega)
      · rw [splitLeafLoop_shift hk hfull hlast]
        exact splitLeafLoop_shifting hq hT hT0 hnew rem _ (i + 1) (by omega) (by omega) (by omega) (by omega) hnum
          (by rwa [show L - (i + 1) = L - 1 - i by omega])

/-- **Regime II, last phase**: `key` is in the new leaf; the keys below it follow it there until the new leaf
holds `T` entries. -/
theorem splitLeafLoop_filling (hq : InsertPoint o.keyArray L key p) (hT : c + T = L + 1) (hc : 2 ≤ c) :
    ∀ (rem : Nat) (curr new : LeafNodeInt) (i : Int), L - p < i → i < T → rem + i = L →
      curr.entryAt = o.entryAt → curr.numOccupied = L - i →
      Filled (insertSlot o.entryAt p (key, rid)) c T new (i + 1) →
      SplitSlots (insertSlot o.entryAt p (key, rid)) c T (splitLeafLoop key rid L c rem curr new true i).1
        (splitLeafLoop key rid L c rem curr new true i).2
  | 0, _, _, _, _, hiT, hrem, _, _, _ => absurd hrem (by omega)
  | rem + 1, curr, new, i, hpi, hiT, hrem, hcurr, hnum, hnew => by
    have hkey : curr.keyArray (L - 1 - i) = o.keyArray (L - 1 - i) := congrArg Prod.fst (congrFun hcurr _)
    have hp := hq.le
    rw [splitLeafLoop_fill (by rw [hkey]; exact (hq.below _ (by omega) (by omega)).le), hnew.1]
    split_ifs with hfull
    · -- the new leaf is full
      dsimp only
      refine ⟨by omega, by rw [hnew.1]; omega, fun t ht0 htc => ?_, fun s hs hsT => hnew.2 s (by omega) hsT⟩
      rw [hcurr, insertSlot_of_lt (by omega)]
    · -- the key below moves to the new leaf
      refine splitLeafLoop_filling hq hT hc rem _ _ (i + 1) (by omega) (by omega) (by omega) hcurr
        (by simp [hnum]; omega) (hnew.move (by omega) ?_)
      rw [hcurr, insertSlot_of_lt (by omega)]
      congr 1
      omega

/-- **The first phase**: keys above `key` move to the new leaf until it is full (`key` then belongs to the old leaf)
or `key` is reached (`key` goes to the new leaf). -/
theorem splitLeafLoop_moving (hq : InsertPoint o.keyArray L key p) (hT : c + T = L + 1) (hc : 2 ≤ c) (hT0 : 0 ≤ T) :
    ∀ (rem : Nat) (curr new : LeafNodeInt) (i : Int), 0 ≤ i → i ≤ T → i ≤ L - p → rem + i = L →
      curr.entryAt = o.entryAt → curr.numOccupied = L - i →
      Filled (insertSlot o.entryAt p (key, rid)) c T new i →
      SplitSlots (insertSlot o.entryAt p (key, rid)) c T (splitLeafLoop key rid L c rem curr new false i).1
        (splitLeafLoop key rid L c rem curr new false i).2
  | 0, _, _, _, _, hiT, _, hrem, _, _, _ => absurd hrem (by omega)
  | rem + 1, curr, new, i, hi0, hiT, hip, hrem, hcurr, hnum, hnew => by
    have hkey : curr.keyArray (L - 1 - i) = o.keyArray (L - 1 - i) := congrArg Prod.fst (congrFun hcurr _)
    have hp := hq.le
    by_cases hfull : i = T
    · -- regime I: the new leaf is full
      subst hfull
      exact splitLeafLoop_shifting hq hT hT0 hnew (rem + 1) curr i le_rfl hip (by omega) hrem (by rw [hnum])
        (by rw [hcurr]; exact HoleAt.init _ _)
    by_cases hend : i = L - p
    · -- regime II: `key` goes to the new leaf
      have hnew' : Filled (insertSlot o.entryAt p (key, rid)) c T ((new.bump 1).setEntry (L + 1 - c - 1 - i) key rid)
          (i + 1) := hnew.place (by omega) (by rw [show c + (L + 1 - c - 1 - i) = p by omega, insertSlot_self])
      rw [splitLeafLoop_place_new (by rw [hkey]; exact (hq.below _ (by omega) (by omega)).le) (by rw [hnew.1]; omega),
        hnew.1]
      split_ifs with hdone
      · dsimp only
        refine ⟨by omega, by rw [hnew'.1]; omega, fun t ht0 htc => ?_, fun s hs hsT => hnew'.2 s (by omega) hsT⟩
        rw [hcurr, insertSlot_of_lt (by omega)]
      · refine splitLeafLoop_filling hq hT hc rem _ _ (i + 1) (by omega) (by omega) (by omega) hcurr
          (by simp [hnum]; omega) (hnew'.move (by omega) ?_)
        rw [hcurr, insertSlot_of_lt (by omega)]
        congr 1
        omega
    · -- a key above `key` moves to the new leaf
      rw [splitLeafLoop_move (by rw [hkey]; exact hq.above _ (by omega) (by omega)) (by rw [hnew.1]; omega)]
      refine splitLeafLoop_moving hq hT hc hT0 rem _ _ (i + 1) (by omega) (by omega) (by omega) (by omega) hcurr
        (by simp [hnum]; omega) (hnew.move (by omega) ?_)
      rw [hcurr, insertSlot_of_gt (by omega)]
      congr 1
      omega

/-- **`splitLeafLoop` splits the sorted insertion.** The old leaf ends with the first `c` slots of the insertion of
`(key, rid)` and the new leaf with the other `T = L + 1 - c`, for every `c ≥ 2`. -/
theorem splitLeafLoop_spec (hq : InsertPoint o.keyArray L key p) (hT : c + T = L + 1) (hc : 2 ≤ c) (hT0 : 0 ≤ T)
    {curr new : LeafNodeInt} (hcurr : curr.entryAt = o.entryAt) (hnum : curr.numOccupied = L)
    (hnew : new.numOccupied = 0) :
    SplitSlots (insertSlot o.entryAt p (key, rid)) c T (splitLeafLoop key rid L c L.toNat curr new false 0).1
      (splitLeafLoop key rid L c L.toNat curr new false 0).2 :=
  have hp := hq.le
  splitLeafLoop_moving hq hT hc hT0 L.toNat curr new 0 le_rfl hT0 (by omega) (by omega) hcurr (by rw [hnum]; omega)
    ⟨hnew, fun _ _ _ => by omega⟩

end Loop

/-- The entries of the two leaves, left to right: the slots `0 .. c + T - 1` of `S`. -/
theorem SplitSlots.entries {S : Int → Entry} {c T : Int} {curr new : LeafNodeInt} (h : SplitSlots S c T curr new)
    (hc : 0 ≤ c) (hT : 0 ≤ T) : curr.entries ++ new.entries = (List.range (c + T).toNat).map fun t : Nat => S t := by
  rw [LeafNodeInt.entries_eq_map, LeafNodeInt.entries_eq_map, h.curr_numOccupied, h.new_numOccupied,
    show (c + T).toNat = c.toNat + T.toNat by omega, List.range_add, List.map_append, List.map_map]
  congr 1
  · exact List.map_congr_left fun t ht => h.curr_entryAt t (by omega) (by simp at ht; omega)
  · refine List.map_congr_left fun t ht => ?_
    rw [Function.comp_apply, show ((c.toNat + t : Nat) : Int) = c + t by omega]
    exact h.new_entryAt t (by omega) (by simp at ht; omega)

/-- The leaves `left` and `right` (on `newPageNo`) a split of the full leaf `o` inserting `e` leaves: linked in order,
`right` holding `⌈(L + 1) / 2⌉` entries, and together the sorted insertion of `e`. -/
structure SplitInto (o : LeafNodeInt) (e : Entry) (L : Int) (newPageNo : PageId) (left right : LeafNodeInt) : Prop where
  link : left.rightSibPageNo = newPageNo
  sibling : right.rightSibPageNo = o.rightSibPageNo
  right_numOccupied : right.numOccupied = (L + 2) / 2
  numOccupied : left.numOccupied + right.numOccupied = L + 1
  entries : left.entries ++ right.entries = sortedInsert e o.entries

/-- The loop of `splitLeaf`, on a full leaf with ascending keys none of which is `key`, with the capacity
`(L + 1) / 2` of the source, splits the sorted insertion as the spec says. -/
theorem splitLeafLoop_splitInto {key L : Int} {rid : RecordId} {o fresh : LeafNodeInt} {newPageNo : PageId}
    (hN : o.numOccupied = L) (hL : 3 ≤ L) (hasc : Ascending o.entries) (hkey : ∀ e ∈ o.entries, e.1 ≠ key) :
    SplitInto o (key, rid) L newPageNo
      (splitLeafLoop key rid L ((L + 1).tdiv 2) L.toNat { o with rightSibPageNo := newPageNo }
        { fresh with rightSibPageNo := o.rightSibPageNo, numOccupied := 0 } false 0).1
      (splitLeafLoop key rid L ((L + 1).tdiv 2) L.toNat { o with rightSibPageNo := newPageNo }
        { fresh with rightSibPageNo := o.rightSibPageNo, numOccupied := 0 } false 0).2 := by
  obtain ⟨q, hq⟩ := InsertPoint.exists_of_ascending (show (0 : Int) ≤ o.numOccupied by omega)
    (fun t u htu hu => LeafNodeInt.keyArray_lt hasc htu (by omega))
    (fun t ht => hkey _ (LeafNodeInt.mem_entries.2 ⟨t, by omega, rfl⟩))
  have hcap : (L + 1).tdiv 2 = (L + 1) / 2 := Int.tdiv_eq_ediv (by omega) (by decide)
  have hT : (L + 1).tdiv 2 + (L + 1 - (L + 1).tdiv 2) = L + 1 := by omega
  have hq' : InsertPoint o.keyArray L key q := hN ▸ hq
  have hS := @splitLeafLoop_spec key rid o L ((L + 1).tdiv 2) (L + 1 - (L + 1).tdiv 2) q hq' hT (by omega) (by omega)
    { o with rightSibPageNo := newPageNo } { fresh with rightSibPageNo := o.rightSibPageNo, numOccupied := 0 } rfl hN rfl
  obtain ⟨h1, h2⟩ := splitLeafLoop_rightSibPageNo key rid L ((L + 1).tdiv 2) L.toNat
    { o with rightSibPageNo := newPageNo } { fresh with rightSibPageNo := o.rightSibPageNo, numOccupied := 0 } false 0
  refine ⟨h1, h2, by rw [hS.new_numOccupied]; omega, by rw [hS.curr_numOccupied, hS.new_numOccupied]; omega, ?_⟩
  rw [hS.entries (by omega) (by omega), sortedInsert_entries (by omega) hq, hN]
  congr 2
  omega

section Method

variable {s : Sys} {key : Int} {rid : RecordId} {pageNo : PageId} {visitedNodes : List PageId}

/-- A leaf with room is inserted into in place. -/
theorem insertEntryLeaf_inPlace (hv : s.buf.Valid pageNo)
    (hroom : (s.buf.file pageNo).leaf.numOccupied < s.idx.leafOccupancy) :
    insertEntryLeaf key rid pageNo visitedNodes s = .ok ()
      { s with buf := ((s.buf.pin pageNo).write pageNo
          { s.buf.file pageNo with leaf := leafInsert key rid (s.buf.file pageNo).leaf }).release pageNo true } := by
  obtain ⟨i, b, n⟩ := s
  dsimp only at *
  unfold insertEntryLeaf
  simp only [readPage_bind_mk _ hv, members_bind_mk, ge_iff_le, not_le.2 hroom, if_false, writeLeaf_bind_mk]
  exact unPinPage_mk (by simpa using BufMgr.pin_pinCount b pageNo)

/-- The propagation after a leaf split writes the path and the header, and the pages it appends. -/
theorem footprint_splitLeafUp (h : PageId) (k : Int) (pageNo newPageNo : PageId) (visitedNodes : List PageId) :
    Footprint h (h :: visitedNodes)
      (match visitedNodes with
        | parent :: rest => insertEntryInternal k parent newPageNo rest true
        | [] => newRootOfLeaf pageNo k newPageNo) := by
  cases visitedNodes with
  | nil => exact footprint_newRootOfLeaf (List.mem_cons_self _ _) _ _ _
  | cons parent rest =>
    exact footprint_insertEntryInternal (List.mem_cons_self _ _) _ _ _ _ _
      (List.mem_cons_of_mem _ (List.mem_cons_self _ _)) fun v hv => List.mem_cons_of_mem _ (List.mem_cons_of_mem _ hv)

end Method

/-- **`insertEntryLeaf` inserts in order.** With room, the leaf is rewritten in place to the sorted insertion; full,
it is split with an appended leaf, the two holding the sorted insertion in order and linked. -/
theorem insertEntryLeaf_sorted_insertion (s : Sys) (key : Int) (rid : RecordId) (pageNo : PageId)
    (visitedNodes : List PageId) (hv : s.buf.Valid pageNo) (hN : 0 ≤ (s.buf.file pageNo).leaf.numOccupied)
    (hasc : Ascending (s.buf.file pageNo).leaf.entries) (hkey : ∀ e ∈ (s.buf.file pageNo).leaf.entries, e.1 ≠ key) :
    ((s.buf.file pageNo).leaf.numOccupied < s.idx.leafOccupancy →
      ∃ s', insertEntryLeaf key rid pageNo visitedNodes s = .ok () s' ∧ s'.idx = s.idx ∧
        s'.buf.numPages = s.buf.numPages ∧ (∀ q, q ≠ pageNo → s'.buf.file q = s.buf.file q) ∧
        (s'.buf.file pageNo).leaf.numOccupied = (s.buf.file pageNo).leaf.numOccupied + 1 ∧
        (s'.buf.file pageNo).leaf.rightSibPageNo = (s.buf.file pageNo).leaf.rightSibPageNo ∧
        (s'.buf.file pageNo).leaf.entries = sortedInsert (key, rid) (s.buf.file pageNo).leaf.entries) ∧
    ((s.buf.file pageNo).leaf.numOccupied = s.idx.leafOccupancy → 3 ≤ s.idx.leafOccupancy →
      ∃ s₁ : Sys, insertEntryLeaf key rid pageNo visitedNodes s =
          (match visitedNodes with
            | parent :: rest =>
              insertEntryInternal ((s₁.buf.file (s.buf.numPages + 1)).leaf.keyArray 0) parent (s.buf.numPages + 1)
                rest true
            | [] => newRootOfLeaf pageNo ((s₁.buf.file (s.buf.numPages + 1)).leaf.keyArray 0) (s.buf.numPages + 1))
            s₁ ∧
        s₁.idx = s.idx ∧ s₁.buf.numPages = s.buf.numPages + 1 ∧
        (∀ q, q ≠ pageNo → q ≠ s.buf.numPages + 1 → s₁.buf.file q = s.buf.file q) ∧
        SplitInto (s.buf.file pageNo).leaf (key, rid) s.idx.leafOccupancy (s.buf.numPages + 1)
          (s₁.buf.file pageNo).leaf (s₁.buf.file (s.buf.numPages + 1)).leaf ∧
        (pageNo ∉ visitedNodes → pageNo ≠ s.idx.headerPageNum → s.idx.headerPageNum ≤ s.buf.numPages →
          (∀ v ∈ visitedNodes, v ≤ s.buf.numPages) →
          (after (insertEntryLeaf key rid pageNo visitedNodes s)).buf.file pageNo = s₁.buf.file pageNo ∧
          (after (insertEntryLeaf key rid pageNo visitedNodes s)).buf.file (s.buf.numPages + 1) =
            s₁.buf.file (s.buf.numPages + 1))) := by
  constructor
  · -- in place
    intro hroom
    obtain ⟨q, hq⟩ := InsertPoint.exists_of_ascending hN
      (fun t u htu hu => LeafNodeInt.keyArray_lt hasc htu (by omega))
      (fun t ht => hkey _ (LeafNodeInt.mem_entries.2 ⟨t, by omega, rfl⟩))
    obtain ⟨h1, h2, -⟩ := leafInsert_spec rid hN hq
    refine ⟨_, insertEntryLeaf_inPlace hv hroom, rfl, rfl, fun q hq => by simp [Function.update_noteq hq], ?_⟩
    simp only [BufMgr.release_file, BufMgr.write_file, BufMgr.pin_file, Function.update_same]
    exact ⟨h1, h2, leafInsert_entries rid hN hasc hkey⟩
  · -- split
    intro hfull hL
    obtain ⟨s₁, heq, hidx, hnum, hfile, hl, hr⟩ := @splitLeaf_eq s key rid pageNo visitedNodes hv
    have hsplit : insertEntryLeaf key rid pageNo visitedNodes s = _ := (insertEntryLeaf_full hv hfull.ge).trans heq
    refine ⟨s₁, hsplit.trans (hr ▸ rfl), hidx, hnum, hfile,
      by rw [hl, hr]; exact splitLeafLoop_splitInto hfull hL hasc hkey, fun hpv hph hh hvis => ?_⟩
    -- the propagation writes only the path, the header and the pages it appends
    have hnp : s.buf.numPages + 1 ∉ s.idx.headerPageNum :: visitedNodes := by
      simp only [List.mem_cons, not_or]
      exact ⟨fun h => by rw [← h] at hh; exact Nat.not_succ_le_self _ hh, fun h => Nat.not_succ_le_self _ (hvis _ h)⟩
    rw [hsplit]
    exact ⟨(footprint_splitLeafUp _ _ pageNo _ visitedNodes s₁ (congrArg BTreeIndex.headerPageNum hidx)).2.2 pageNo
        (by rw [hnum]; exact Nat.le_succ_of_le hv.2) (by simp [hph, hpv]),
      (footprint_splitLeafUp _ _ pageNo _ visitedNodes s₁ (congrArg BTreeIndex.headerPageNum hidx)).2.2 _
        (by rw [hnum]) hnp⟩

/-- A tree of one full leaf, page 2, holding `1, 2, 4` with room for three entries; page 1 is the header. -/
def fullRootLeaf : Sys :=
  { rootLeaf fun _ => Page.zero with
    idx := { (rootLeaf fun _ => Page.zero).idx with leafOccupancy := 3 }
    buf :=
      { (rootLeaf fun _ => Page.zero).buf with
        file := fun
          | 1 => { Page.zero with meta := { Page.zero.meta with rootPageNo := 2 } }
          | _ => { Page.zero with leaf := sampleLeaf [1, 2, 4] INVALID_NUMBER } } }

/-- The theorem at `fullRootLeaf`: inserting `3` splits the leaf. -/
theorem insertEntryLeaf_sample_sorted_insertion :
    (fullRootLeaf.buf.Valid 2 ∧ 0 ≤ (fullRootLeaf.buf.file 2).leaf.numOccupied ∧
      Ascending (fullRootLeaf.buf.file 2).leaf.entries ∧ ∀ e ∈ (fullRootLeaf.buf.file 2).leaf.entries, e.1 ≠ 3) ∧
    ∃ s₁ : Sys, SplitInto (fullRootLeaf.buf.file 2).leaf (3, ⟨1, 3⟩) 3 3 (s₁.buf.file 2).leaf (s₁.buf.file 3).leaf :=
  ⟨⟨by decide, by decide, by decide, by decide⟩,
    ((insertEntryLeaf_sorted_insertion fullRootLeaf 3 ⟨1, 3⟩ 2 [] (by decide) (by decide) (by decide) (by decide)).2
      rfl (by decide)).imp fun _ h => h.2.2.2.2.1⟩

example : ((after (insertEntryLeaf 3 ⟨1, 3⟩ 2 [] fullRootLeaf)).buf.file 2).leaf.entries.map Prod.fst = [1, 2] ∧
    ((after (insertEntryLeaf 3 ⟨1, 3⟩ 2 [] fullRootLeaf)).buf.file 3).leaf.entries.map Prod.fst = [3, 4] := by
  decide

end BadgerBTree
