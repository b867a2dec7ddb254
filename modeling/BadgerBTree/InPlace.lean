import BadgerBTree.Insert

/-!
# Insertion into a page with room

Both in-place insertions of `btree.cpp` open a hole above the keys smaller than the new one, moving each larger
slot up by one from the top down, and write the new key into the hole: `leafInsert` (its loop `shiftLeafUp`) for a
leaf, `internalInsert` (its loop `shiftNodeUp`) for an internal node, where the child right of each moved key
moves with it.

The arrays are followed slot by slot. `HoleAt f g q top` says that `g` is `f` with a hole opened at slot `q`; one
move of either loop takes the hole one slot down (`HoleAt.step`); writing the hole gives the slots of the
insertion of one value (`insertSlot`), whose list is `take q ++ a :: drop q` (`map_insertSlot`). Where the new key
goes is `InsertPoint`: the keys before it below the key, the keys from it on above. Each loop stops with the hole
there (`shiftLeafUp_spec`, `shiftNodeUp_spec`), so

- `leafInsert` leaves the sorted insertion of the entry (`leafInsert_entries`);
- on a node with room, `insertEntryInternal` leaves the keys with the separator inserted at its place and the new
  child beside it, right of the separator after a leaf split and left of it after an internal split
  (`insertEntryInternal_inserts_at`).
-/

namespace BadgerBTree

namespace LeafNodeInt

/-- Entry `j`: `(keyArray[j], ridArray[j])`. -/
def entryAt (n : LeafNodeInt) (j : Int) : Entry := (n.keyArray j, n.ridArray j)

variable (n m : LeafNodeInt) (j : Int)

@[simp] theorem setEntry_entryAt (k : Int) (r : RecordId) :
    (n.setEntry j k r).entryAt = Function.update n.entryAt j (k, r) := by
  funext t
  by_cases h : t = j <;> simp [entryAt, setEntry, Function.update_apply, h]

@[simp] theorem copyEntry_entryAt (j' : Int) : (n.copyEntry j m j').entryAt = Function.update n.entryAt j (m.entryAt j') :=
  setEntry_entryAt _ _ _ _

@[simp] theorem bump_entryAt (d : Int) : (n.bump d).entryAt = n.entryAt := rfl

@[simp] theorem copyEntry_numOccupied (j' : Int) : (n.copyEntry j m j').numOccupied = n.numOccupied := rfl

@[simp] theorem copyEntry_rightSibPageNo (j' : Int) : (n.copyEntry j m j').rightSibPageNo = n.rightSibPageNo := rfl

theorem entries_eq_map : n.entries = (List.range n.numOccupied.toNat).map fun t : Nat => n.entryAt t := rfl

end LeafNodeInt

section Hole

variable {α : Type} {f g : Int → α} {q top : Int}

/-- `g` is `f` with a hole opened at slot `q`: the slots below `q` are those of `f`, and each slot of
`q + 1 .. top` holds the slot of `f` one below it. -/
def HoleAt (f g : Int → α) (q top : Int) : Prop :=
  (∀ t, t < q → g t = f t) ∧ ∀ t, q < t → t ≤ top → g t = f (t - 1)

/-- Before any move the hole is at the top. -/
theorem HoleAt.init (f : Int → α) (q : Int) : HoleAt f f q q :=
  ⟨fun _ _ => rfl, fun _ h h' => absurd h' (by omega)⟩

/-- One move of a shifting loop: slot `q` copied up into the hole at `q + 1`, which moves down to `q`. -/
theorem HoleAt.step (h : HoleAt f g (q + 1) top) : HoleAt f (Function.update g (q + 1) (g q)) q top := by
  refine ⟨fun t ht => ?_, fun t ht ht' => ?_⟩
  · rw [Function.update_noteq (by omega), h.1 t (by omega)]
  · by_cases htq : t = q + 1
    · rw [htq, Function.update_same, h.1 q (by omega), Int.add_sub_cancel]
    · rw [Function.update_noteq htq, h.2 t (by omega) ht']

/-- Slot `q` given back the value moved up from it: the hole is one slot higher. -/
theorem HoleAt.raise (h : HoleAt f g q top) (hq : q < top) : HoleAt f (Function.update g q (g (q + 1))) (q + 1) top := by
  refine ⟨fun t ht => ?_, fun t ht ht' => ?_⟩
  · by_cases htq : t = q
    · rw [htq, Function.update_same, h.2 (q + 1) (by omega) (by omega), Int.add_sub_cancel]
    · rw [Function.update_noteq htq, h.1 t (by omega)]
  · rw [Function.update_noteq (by omega), h.2 t (by omega) ht']

/-- Slot `t` of the insertion of `a` at slot `q` into the slots of `f`. -/
def insertSlot (f : Int → α) (q : Int) (a : α) (t : Int) : α :=
  if t < q then f t else if t = q then a else f (t - 1)

theorem insertSlot_of_lt {a : α} {t : Int} (h : t < q) : insertSlot f q a t = f t := if_pos h

theorem insertSlot_self {a : α} : insertSlot f q a q = a := by simp [insertSlot]

theorem insertSlot_of_gt {a : α} {t : Int} (h : q < t) : insertSlot f q a t = f (t - 1) := by
  rw [insertSlot, if_neg (by omega), if_neg (by omega)]

/-- Writing the hole gives the insertion. -/
theorem HoleAt.update_eq (h : HoleAt f g q top) (a : α) {t : Int} (ht : t ≤ top) :
    Function.update g q a t = insertSlot f q a t := by
  by_cases h1 : t < q
  · rw [insertSlot_of_lt h1, Function.update_noteq (by omega), h.1 t h1]
  · by_cases h2 : t = q
    · rw [h2, Function.update_same, insertSlot_self]
    · rw [insertSlot_of_gt (by omega), Function.update_noteq h2, h.2 t (by omega) ht]

/-- The slots `0 .. D` of an insertion at `q ≤ D` into the slots `0 .. D - 1`, as a list. -/
theorem map_insertSlot (f : Int → α) {q D : Nat} (hq : q ≤ D) (a : α) :
    (List.range (D + 1)).map (fun t : Nat => insertSlot f q a t) =
      ((List.range D).map fun t : Nat => f t).take q ++ a :: ((List.range D).map fun t : Nat => f t).drop q := by
  apply List.ext_getElem
  · simp; omega
  · intro t h₁ _
    have hmin : min q D = q := Nat.min_eq_left hq
    simp only [List.getElem_map, List.getElem_range, insertSlot, List.getElem_append, List.length_take,
      List.length_map, List.length_range, List.getElem_take, List.getElem_cons, List.getElem_drop, hmin]
    by_cases h1 : t < q
    · simp [h1]
    · by_cases h2 : t = q
      · simp [h2]
      · rw [if_neg (by omega), if_neg (by omega), dif_neg h1, dif_neg (show t - q ≠ 0 by omega)]
        congr 1
        omega

/-- An ordered insertion that passes the first `q` elements of `l` and stops at the next: `take q ++ a :: drop q`. -/
theorem orderedInsert_eq_take_drop_of {r : α → α → Prop} [DecidableRel r] {a : α} :
    ∀ (l : List α) (q : Nat), (∀ (t : Nat) (h : t < l.length), t < q → ¬ r a l[t]) →
      (∀ (t : Nat) (h : t < l.length), q ≤ t → r a l[t]) → l.orderedInsert r a = l.take q ++ a :: l.drop q
  | [], _, _, _ => by simp
  | b :: l, 0, _, hr => by
    have hb : r a b := hr 0 (by simp) le_rfl
    simp [hb]
  | b :: l, q + 1, hl, hr => by
    have hb : ¬ r a b := hl 0 (by simp) (by omega)
    rw [List.orderedInsert, if_neg hb, List.take_succ_cons, List.drop_succ_cons,
      orderedInsert_eq_take_drop_of l q (fun t h ht => hl (t + 1) (by simp; omega) (by omega))
        (fun t h ht => hr (t + 1) (by simp; omega) (by omega)), List.cons_append]

end Hole

/-- `q` is where `key` goes among the keys `K` of slots `0 .. N - 1`: those before it are below `key`, those from it
on above. -/
structure InsertPoint (K : Int → Int) (N key : Int) (q : Nat) : Prop where
  le : (q : Int) ≤ N
  below : ∀ t : Int, 0 ≤ t → t < q → K t < key
  above : ∀ t : Int, q ≤ t → t < N → key < K t

namespace InsertPoint

variable {K : Int → Int} {N key : Int}

/-- Between ascending keys a key that is none of them has its insertion point. -/
theorem exists_of_ascending (hN : 0 ≤ N) (hasc : ∀ t u : Nat, t < u → (u : Int) < N → K t < K u)
    (hkey : ∀ t : Nat, (t : Int) < N → K t ≠ key) : ∃ q, InsertPoint K N key q := by
  classical
  have hex : ∃ m : Nat, (m : Int) = N ∨ ((m : Int) < N ∧ key < K m) := ⟨N.toNat, .inl (Int.toNat_of_nonneg hN)⟩
  have hq := Nat.find_spec hex
  refine ⟨Nat.find hex, by omega, fun t ht0 htq => ?_, fun t hqt htN => ?_⟩
  · have hmin := Nat.find_min hex (m := t.toNat) (by omega)
    rw [Int.toNat_of_nonneg ht0] at hmin
    have := hkey t.toNat (by omega)
    rw [Int.toNat_of_nonneg ht0] at this
    push_neg at hmin
    exact lt_of_le_of_ne (hmin.2 (by omega)) this
  · rcases hq with hq | ⟨_, hq⟩
    · omega
    · rcases (show (Nat.find hex : Int) = t ∨ Nat.find hex < t.toNat by omega) with h | h
      · rwa [← h]
      · have := hasc _ _ h (by omega)
        rw [Int.toNat_of_nonneg (by omega)] at this
        omega

/-- The insertion point `j` given by its neighbours, as in `K[j-1] < key < K[j]`. -/
theorem of_neighbours (hasc : ∀ t u : Nat, t < u → (u : Int) < N → K t < K u) {j : Nat} (hj : (j : Int) ≤ N)
    (hlo : 0 < j → K (j - 1) < key) (hhi : (j : Int) < N → key < K j) : InsertPoint K N key j := by
  refine ⟨hj, fun t ht0 htj => ?_, fun t hjt htN => ?_⟩
  · rcases (show t = j - 1 ∨ t.toNat < j - 1 by omega) with h | h
    · rw [h]; exact hlo (by omega)
    · have := hasc _ (j - 1) h (by omega)
      rw [Int.toNat_of_nonneg ht0, show ((j - 1 : Nat) : Int) = j - 1 by omega] at this
      exact this.trans (hlo (by omega))
  · rcases (show t = j ∨ j < t.toNat by omega) with h | h
    · rw [h]; exact hhi (by omega)
    · have := hasc _ _ h (by omega)
      rw [Int.toNat_of_nonneg (by omega)] at this
      exact (hhi (by omega)).trans this

end InsertPoint

section ShiftLeafUp

variable {key N : Int} {o : LeafNodeInt} {q : Nat}

/-- **The shifting loop of `insertEntryLeaf`**, from a hole at `N - i`: it stops with the hole at the insertion
point, after `N - q` moves. -/
theorem shiftLeafUp_spec (hq : InsertPoint o.keyArray N key q) :
    ∀ (rem : Nat) (n : LeafNodeInt) (i : Int), 0 ≤ i → i ≤ N - q → rem + i = N →
      HoleAt o.entryAt n.entryAt (N - i) N →
      ∃ n', shiftLeafUp key N rem n i = (n', N - q) ∧ HoleAt o.entryAt n'.entryAt q N ∧
        n'.numOccupied = n.numOccupied ∧ n'.rightSibPageNo = n.rightSibPageNo
  | 0, n, i, _, hi, hrem, h =>
    ⟨n, by rw [shiftLeafUp]; congr; omega, by rwa [show (q : Int) = N - i by omega], rfl, rfl⟩
  | rem + 1, n, i, h0, hi, hrem, h => by
    have hkey : n.keyArray (N - 1 - i) = o.keyArray (N - 1 - i) := congrArg Prod.fst (h.1 _ (by omega))
    rw [shiftLeafUp]
    by_cases hstop : i = N - q
    · -- the key below the hole is below `key`: the hole stays at `q`
      rw [if_pos (by rw [hkey]; exact hq.below _ (by omega) (by omega))]
      exact ⟨n, by rw [hstop], by rwa [show (q : Int) = N - i by omega], rfl, rfl⟩
    · -- the key below the hole is above `key`: it moves up into the hole
      rw [if_neg (by rw [hkey]; exact not_lt.2 (hq.above _ (by omega) (by omega)).le)]
      obtain ⟨n', he, h', h1, h2⟩ := shiftLeafUp_spec hq rem (n.copyEntry (N - 1 - i + 1) n (N - 1 - i)) (i + 1)
        (by omega) (by omega) (by omega) (by
          rw [LeafNodeInt.copyEntry_entryAt, show N - (i + 1) = N - 1 - i by omega]
          exact HoleAt.step (by rwa [show N - 1 - i + 1 = N - i by omega]))
      exact ⟨n', he, h', h1, h2⟩

/-- The sorted insertion of the entry `e` into entries ordered by key. -/
def sortedInsert (e : Entry) (es : List Entry) : List Entry := es.orderedInsert (fun a b => a.1 ≤ b.1) e

/-- The sorted insertion into the entries of a leaf, slot by slot: the insertion at the insertion point. -/
theorem sortedInsert_entries (hN : 0 ≤ o.numOccupied) (hq : InsertPoint o.keyArray o.numOccupied key q)
    (rid : RecordId) : sortedInsert (key, rid) o.entries =
      (List.range (o.numOccupied.toNat + 1)).map fun t : Nat => insertSlot o.entryAt q (key, rid) t := by
  rw [map_insertSlot _ (by have := hq.le; omega), ← LeafNodeInt.entries_eq_map]
  refine orderedInsert_eq_take_drop_of _ _ (fun t h ht => ?_) (fun t h ht => ?_)
  · simp only [LeafNodeInt.getElem_entries, not_le]
    exact hq.below t (by omega) (by omega)
  · simp only [LeafNodeInt.getElem_entries]
    exact (hq.above t (by omega) (by simp at h; omega)).le

/-- `leafInsert`, slot by slot: the insertion of the entry at the insertion point, one entry more. -/
theorem leafInsert_spec (rid : RecordId) (hN : 0 ≤ o.numOccupied) (hq : InsertPoint o.keyArray o.numOccupied key q) :
    (leafInsert key rid o).numOccupied = o.numOccupied + 1 ∧ (leafInsert key rid o).rightSibPageNo = o.rightSibPageNo ∧
      ∀ t, t ≤ o.numOccupied → (leafInsert key rid o).entryAt t = insertSlot o.entryAt q (key, rid) t := by
  obtain ⟨n', he, h', h1, h2⟩ := shiftLeafUp_spec hq o.numOccupied.toNat o 0 le_rfl (by have := hq.le; omega) (by omega)
    (by rw [Int.sub_zero]; exact HoleAt.init _ _)
  unfold leafInsert
  rw [he]
  refine ⟨by simp [h1], by simp [h2], fun t ht => ?_⟩
  simp only [LeafNodeInt.bump_entryAt, LeafNodeInt.setEntry_entryAt, show o.numOccupied - (o.numOccupied - q) = q by omega]
  exact h'.update_eq _ ht

/-- **`leafInsert` inserts in order.** Into a leaf with ascending keys, none of them `key`, the in-place insertion
leaves the sorted insertion of `(key, rid)`. -/
theorem leafInsert_entries (rid : RecordId) (hN : 0 ≤ o.numOccupied) (hasc : Ascending o.entries)
    (hkey : ∀ e ∈ o.entries, e.1 ≠ key) :
    (leafInsert key rid o).entries = sortedInsert (key, rid) o.entries := by
  obtain ⟨q, hq⟩ := InsertPoint.exists_of_ascending hN
    (fun t u htu hu => LeafNodeInt.keyArray_lt hasc htu (by omega))
    (fun t ht => hkey _ (LeafNodeInt.mem_entries.2 ⟨t, by omega, rfl⟩))
  obtain ⟨h1, -, h3⟩ := leafInsert_spec rid hN hq
  rw [sortedInsert_entries hN hq, LeafNodeInt.entries_eq_map, h1,
    show (o.numOccupied + 1).toNat = o.numOccupied.toNat + 1 by omega]
  exact List.map_congr_left fun t ht => h3 t (by simp at ht; omega)

end ShiftLeafUp

namespace NonLeafNodeInt

variable (n : NonLeafNodeInt) (j : Int)

@[simp] theorem setChild_pageNoArray (c : PageId) : (n.setChild j c).pageNoArray = Function.update n.pageNoArray j c :=
  rfl

@[simp] theorem setKey_pageNoArray (k : Int) : (n.setKey j k).pageNoArray = n.pageNoArray := rfl

@[simp] theorem bump_pageNoArray : (n.bump j).pageNoArray = n.pageNoArray := rfl

end NonLeafNodeInt

section InternalInsert

variable {key N : Int} {o : NonLeafNodeInt} {q : Nat}

/-- **The shifting loop of `insertEntryInternal`**: `shiftLeafUp_spec` for the keys, the child right of each
moved key moving with it. -/
theorem shiftNodeUp_spec {C : Int → PageId} (hq : InsertPoint o.keyArray N key q) :
    ∀ (rem : Nat) (n : NonLeafNodeInt) (i : Int), 0 ≤ i → i ≤ N - q → rem + i = N →
      HoleAt o.keyArray n.keyArray (N - i) N → HoleAt C n.pageNoArray (N - i) (N + 1) →
      ∃ n', shiftNodeUp key N rem n i = (n', N - q) ∧ HoleAt o.keyArray n'.keyArray q N ∧
        HoleAt C n'.pageNoArray q (N + 1) ∧ n'.numOccupied = n.numOccupied ∧ n'.level = n.level
  | 0, n, i, _, hi, hrem, hk, hc => by
    rw [show (q : Int) = N - i by omega]
    exact ⟨n, by rw [shiftNodeUp]; congr; omega, hk, hc, rfl, rfl⟩
  | rem + 1, n, i, h0, hi, hrem, hk, hc => by
    have hkey : n.keyArray (N - 1 - i) = o.keyArray (N - 1 - i) := hk.1 _ (by omega)
    rw [shiftNodeUp]
    by_cases hstop : i = N - q
    · rw [if_pos (by rw [hkey]; exact hq.below _ (by omega) (by omega)), show (q : Int) = N - i by omega]
      exact ⟨n, by rw [hstop]; congr; omega, hk, hc, rfl, rfl⟩
    · rw [if_neg (by rw [hkey]; exact not_lt.2 (hq.above _ (by omega) (by omega)).le)]
      have e₁ : N - 1 - i + 1 = N - i := by omega
      have e₂ : N - (i + 1) = N - 1 - i := by omega
      obtain ⟨n', he, h'⟩ := shiftNodeUp_spec hq rem
        ((n.setChild (N - 1 - i + 1) (n.pageNoArray (N - 1 - i))).setKey (N - 1 - i + 1) (n.keyArray (N - 1 - i)))
        (i + 1) (by omega) (by omega) (by omega)
        (by
          simp only [NonLeafNodeInt.setKey_keyArray, NonLeafNodeInt.setChild_keyArray, e₂]
          exact HoleAt.step (by rwa [e₁]))
        (by
          simp only [NonLeafNodeInt.setKey_pageNoArray, NonLeafNodeInt.setChild_pageNoArray, e₂]
          exact HoleAt.step (by rwa [e₁]))
      exact ⟨n', he, h'⟩

/-- `internalInsert`, slot by slot: `key` inserted at the insertion point, and the new child beside it, right of it
when the split came from a leaf (`splitFromLeaf`), left of it otherwise. -/
theorem internalInsert_spec (c : PageId) (splitFromLeaf : Bool) (hN : 0 ≤ o.numOccupied)
    (hq : InsertPoint o.keyArray o.numOccupied key q) :
    (internalInsert key c splitFromLeaf o).numOccupied = o.numOccupied + 1 ∧
      (internalInsert key c splitFromLeaf o).level = o.level ∧
      (∀ t, t ≤ o.numOccupied → (internalInsert key c splitFromLeaf o).keyArray t = insertSlot o.keyArray q key t) ∧
      ∀ t, t ≤ o.numOccupied + 1 → (internalInsert key c splitFromLeaf o).pageNoArray t =
        insertSlot o.pageNoArray (if splitFromLeaf then q + 1 else q : Nat) c t := by
  obtain ⟨n', he, hk, hc, h1, h2⟩ := shiftNodeUp_spec hq o.numOccupied.toNat
    (o.setChild (o.numOccupied + 1) (o.pageNoArray o.numOccupied)) 0 le_rfl (by have := hq.le; omega) (by omega)
    (by rw [Int.sub_zero]; exact HoleAt.init _ _)
    (by rw [Int.sub_zero, NonLeafNodeInt.setChild_pageNoArray]; exact HoleAt.step (HoleAt.init _ _))
  have hp : o.numOccupied - (o.numOccupied - q) = q := by omega
  unfold internalInsert
  simp only [he, hp]
  cases splitFromLeaf
  · refine ⟨by simp [h1], by simp [h2], fun t ht => ?_, fun t ht => ?_⟩
    · simpa using hk.update_eq key ht
    · simpa using hc.update_eq c ht
  · refine ⟨by simp [h1], by simp [h2], fun t ht => ?_, fun t ht => ?_⟩
    · simpa using hk.update_eq key ht
    · simpa using (hc.raise (by have := hq.le; omega)).update_eq c ht

/-- `n'` is `n` with `key` inserted at position `j` of its keys and the child `c` beside it, right of `key` after a
leaf split and left of it otherwise. -/
structure InsertedAt (n n' : NonLeafNodeInt) (key : Int) (c : PageId) (splitFromLeaf : Bool) (j : Nat) : Prop where
  numOccupied : n'.numOccupied = n.numOccupied + 1
  level : n'.level = n.level
  keys : n'.keys = n.keys.take j ++ key :: n.keys.drop j
  children : n'.children =
    if splitFromLeaf then n.children.take (j + 1) ++ c :: n.children.drop (j + 1)
    else n.children.take j ++ c :: n.children.drop j

theorem internalInsert_insertedAt (c : PageId) (splitFromLeaf : Bool) (hN : 0 ≤ o.numOccupied)
    (hq : InsertPoint o.keyArray o.numOccupied key q) :
    InsertedAt o (internalInsert key c splitFromLeaf o) key c splitFromLeaf q := by
  obtain ⟨h1, h2, hk, hc⟩ := internalInsert_spec c splitFromLeaf hN hq
  have hD : (o.numOccupied + 1).toNat = o.numOccupied.toNat + 1 := by omega
  have hq' : q ≤ o.numOccupied.toNat := by have := hq.le; omega
  refine ⟨h1, h2, ?_, ?_⟩
  · rw [NonLeafNodeInt.keys, NonLeafNodeInt.keys, h1, hD, ← map_insertSlot _ hq']
    exact List.map_congr_left fun t ht => hk t (by simp at ht; omega)
  · have hcs : (internalInsert key c splitFromLeaf o).children =
        (List.range (o.numOccupied.toNat + 1 + 1)).map
          fun t : Nat => insertSlot o.pageNoArray (if splitFromLeaf then q + 1 else q : Nat) c t := by
      rw [NonLeafNodeInt.children, h1, hD]
      exact List.map_congr_left fun t ht => hc t (by simp at ht; omega)
    rw [hcs, map_insertSlot _ (by split <;> omega)]
    cases splitFromLeaf <;> rfl

end InternalInsert

namespace NonLeafNodeInt

/-- In a node with ascending keys, the keys of the slots increase. -/
theorem keyArray_lt {n : NonLeafNodeInt} (h : n.keys.Pairwise (· < ·)) (t u : Nat) (htu : t < u)
    (hu : (u : Int) < n.numOccupied) : n.keyArray t < n.keyArray u := by
  have := List.pairwise_iff_getElem.1 (List.pairwise_map.1 h) t u (by simp; omega) (by simp; omega) htu
  simpa using this

end NonLeafNodeInt

/-- **Insertion into an internal node with room.** The separator goes in place at its position `j`, the new child
right of it after a leaf split and left of it otherwise; no member and no other page changes. -/
theorem insertEntryInternal_inserts_at (s : Sys) (key : Int) (pageNo newPageNo : PageId) (visitedNodes : List PageId)
    (splitFromLeaf : Bool) (j : Nat) (hv : s.buf.Valid pageNo) (hN : 0 ≤ (s.buf.file pageNo).node.numOccupied)
    (hroom : (s.buf.file pageNo).node.numOccupied < s.idx.nodeOccupancy)
    (hasc : (s.buf.file pageNo).node.keys.Pairwise (· < ·)) (hj : (j : Int) ≤ (s.buf.file pageNo).node.numOccupied)
    (hlo : 0 < j → (s.buf.file pageNo).node.keyArray (j - 1) < key)
    (hhi : (j : Int) < (s.buf.file pageNo).node.numOccupied → key < (s.buf.file pageNo).node.keyArray j) :
    ∃ s', insertEntryInternal key pageNo newPageNo visitedNodes splitFromLeaf s = .ok () s' ∧ s'.idx = s.idx ∧
      s'.buf.numPages = s.buf.numPages ∧ (∀ p, p ≠ pageNo → s'.buf.file p = s.buf.file p) ∧
      InsertedAt (s.buf.file pageNo).node (s'.buf.file pageNo).node key newPageNo splitFromLeaf j := by
  refine ⟨_, insertEntryInternal_inPlace hv hroom.le, rfl, rfl, fun p hp => insertedInPlace_file_of_ne hp, ?_⟩
  rw [insertedInPlace_node]
  exact internalInsert_insertedAt newPageNo splitFromLeaf hN
    (InsertPoint.of_neighbours (NonLeafNodeInt.keyArray_lt hasc) hj hlo hhi)

/-- The theorem on `sample`, whose root (page 2) holds the key `5` with room for two: the separator `7` of a split of
leaf 4, with the new leaf 5, goes after `5`, and the new leaf right of it. -/
theorem insertEntryInternal_sample_inserts_at :
    (sample.buf.Valid 2 ∧ 0 ≤ (sample.buf.file 2).node.numOccupied ∧
      (sample.buf.file 2).node.numOccupied < sample.idx.nodeOccupancy ∧
      (sample.buf.file 2).node.keys.Pairwise (· < ·) ∧ ((1 : Nat) : Int) ≤ (sample.buf.file 2).node.numOccupied ∧
      (0 < 1 → (sample.buf.file 2).node.keyArray ((1 : Nat) - 1) < 7) ∧
      (((1 : Nat) : Int) < (sample.buf.file 2).node.numOccupied → 7 < (sample.buf.file 2).node.keyArray (1 : Nat))) ∧
    ∃ s', insertEntryInternal 7 2 5 [] true sample = .ok () s' ∧ s'.idx = sample.idx ∧
      s'.buf.numPages = sample.buf.numPages ∧ (∀ p, p ≠ 2 → s'.buf.file p = sample.buf.file p) ∧
      InsertedAt (sample.buf.file 2).node (s'.buf.file 2).node 7 5 true 1 :=
  have hlo : 0 < 1 → (sample.buf.file 2).node.keyArray ((1 : Nat) - 1) < 7 := fun _ => by decide
  have hhi : ((1 : Nat) : Int) < (sample.buf.file 2).node.numOccupied → 7 < (sample.buf.file 2).node.keyArray (1 : Nat) :=
    fun h => absurd h (by decide)
  ⟨⟨by decide, by decide, by decide, by decide, by decide, hlo, hhi⟩,
    insertEntryInternal_inserts_at sample 7 2 5 [] true 1 (by decide) (by decide) (by decide) (by decide) (by decide)
      hlo hhi⟩

end BadgerBTree
