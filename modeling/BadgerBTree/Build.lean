import BadgerBTree.Grow
import BadgerBTree.Construct

/-!
# Building an index over a relation

The constructor's build loop `insertRecords` calls `insertEntry` once per record, from the empty leaf the create
path makes. With room for `L ≥ 3` entries per leaf and `I ≥ 1` keys per internal node, pages from `allocPage` that
count no keys, and keys that differ from record to record, each insertion keeps the run invariant `Built`: the tree
has the structural invariant and height at most one, and once it has two levels each leaf holds at least
`(L + 1) / 2` entries, the least a split leaves in either half (`Built.insertEntry`). A root over `k + 1` such
leaves sits over at least `(k + 1) * ((L + 1) / 2)` entries, so while there are fewer than
`(I + 1) * ((L + 1) / 2)` it has room for one more key (`Built.root_room`) and no insertion takes the path that
fills a parent past its room. Over a relation of at most that many records the constructor therefore builds an index
with the structural invariant whose entries are the records' `(key, rid)` pairs, in key order
(`constructIndex_builds`).
-/

namespace BadgerBTree

/-- The run invariant of the build loop, over a tree of height `d` whose leaves `ls` hold `es`. -/
structure Built (s : Sys) (L I : Int) (d : Nat) (es : List Entry) (ls : List PageId) : Prop where
  shape : Shape s d es ls
  height : d ≤ 1
  /-- Once there are two levels, every leaf holds at least what a split leaves in either half. -/
  fill : d = 1 → ∀ q ∈ ls, (L + 1) / 2 ≤ (s.buf.file q).leaf.numOccupied
  leafOccupancy : s.idx.leafOccupancy = L
  nodeOccupancy : s.idx.nodeOccupancy = I
  header : s.buf.Valid s.idx.headerPageNum
  /-- `allocPage` hands out pages whose node view counts no keys. -/
  fresh : ∀ q, (s.buf.fresh q).node.numOccupied = 0

/-- Leaves holding at least `m ≥ 0` entries each hold at least `m` entries per leaf between them. -/
theorem length_leafEntries_ge {b : BufMgr} {m : Int} (hm : 0 ≤ m) : ∀ {ls : List PageId},
    (∀ q ∈ ls, m ≤ (b.file q).leaf.numOccupied) → (ls.length : Int) * m ≤ (leafEntries b ls).length
  | [], _ => by simp [leafEntries]
  | q :: ls, h => by
    have hq := h q (List.mem_cons_self _ _)
    have ih := length_leafEntries_ge hm fun r hr => h r (List.mem_cons_of_mem _ hr)
    have hlen : (leafEntries b (q :: ls)).length = (b.file q).leaf.numOccupied.toNat + (leafEntries b ls).length := by
      simp [leafEntries, LeafNodeInt.length_entries]
    rw [hlen, List.length_cons]
    push_cast
    rw [Int.add_mul, Int.one_mul]
    omega

section Step

variable {s : Sys} {L I : Int} {d : Nat} {es : List Entry} {ls : List PageId} {key : Int} {rid : RecordId}

/-- **The root has room.** Over two levels of leaves each holding at least `(L + 1) / 2 > 0` entries, fewer than
`(I + 1) * ((L + 1) / 2)` entries leave the root fewer than `I` keys: it has one leaf more than keys. -/
theorem Built.root_room (hF : Built s L I 1 es ls) (hL : 1 ≤ L) (hn : (es.length : Int) < (I + 1) * ((L + 1) / 2)) :
    (s.buf.file s.idx.rootPageNum).node.numOccupied < I := by
  obtain ⟨-, h0, -, -, hch⟩ := hF.shape.tree
  have hls : ls = (s.buf.file s.idx.rootPageNum).node.children := children_leaves_eq hch
  have hlen : (ls.length : Int) = (s.buf.file s.idx.rootPageNum).node.numOccupied + 1 := by
    rw [hls]; simp [NonLeafNodeInt.children]; omega
  have hge := length_leafEntries_ge (by omega) (hF.fill rfl)
  rw [← subtree_entries 1 hF.shape.tree, hlen] at hge
  have := Int.lt_of_mul_lt_mul_right (hge.trans_lt hn) (by omega)
  omega

/-- **One insertion of the build.** With fewer than `(I + 1) * ((L + 1) / 2)` entries, `insertEntry` of a new key
returns normally and keeps the run invariant, the tree holding the sorted insertion of the entry. -/
theorem Built.insertEntry (hF : Built s L I d es ls) (hL : 3 ≤ L) (hI : 1 ≤ I) (hkey : ∀ x ∈ es, x.1 ≠ key)
    (hn : (es.length : Int) < (I + 1) * ((L + 1) / 2)) :
    ∃ s' d' ls', insertEntry key rid s = .ok () s' ∧ Built s' L I d' (sortedInsert (key, rid) es) ls' := by
  obtain ⟨hs, hd, hfill, rfl, rfl, hh, hfr⟩ := hF
  have hvalid : ∀ {b : BufMgr}, s.buf.numPages ≤ b.numPages → b.Valid s.idx.headerPageNum := fun hb =>
    ⟨hh.1, hh.2.trans hb⟩
  by_cases hfull : s.idx.leafOccupancy ≤ (s.buf.file ((childFor s.buf key)^[d] s.idx.rootPageNum)).leaf.numOccupied
  · cases d with
    | zero =>
      -- the root leaf is split under a new root
      obtain ⟨s', hrun, hidx, hnum, hfresh, hs', hsp⟩ := insertEntry_newRoot_shape hs hkey hL hI hh (hfr _) hfull
      have hsz := hsp.halves hL
      refine ⟨s', 1, _, hrun, hs', le_rfl, fun _ q hq => ?_, by rw [hidx], by rw [hidx], ?_, fun q => by rw [hfresh]; exact hfr q⟩
      · rcases List.mem_pair.1 hq with rfl | rfl
        exacts [hsz.1, hsz.2.2.1]
      · rw [hidx]; exact hvalid (by rw [hnum]; exact Nat.le_add_right _ _)
    | succ d =>
      -- the leaf is split under the root, which has room
      obtain rfl : d = 0 := by omega
      have hroom := Built.root_room ⟨hs, hd, hfill, rfl, rfl, hh, hfr⟩ (by omega) hn
      obtain ⟨s', hrun, hidx, hnum, hfresh, A, B, rfl, hs', hAB, hsp⟩ :=
        insertEntry_splitLeaf_shape hs hkey hL hh rfl rfl hfull hroom
      have hsz := hsp.halves hL
      refine ⟨s', 1, _, hrun, hs', le_rfl, fun _ q hq => ?_, by rw [hidx], by rw [hidx], ?_,
        fun q => by rw [hfresh]; exact hfr q⟩
      · rcases List.mem_append.1 hq with hq | hq
        · rw [hAB q (List.mem_append_left _ hq)]
          exact hfill rfl q (List.mem_append_left _ hq)
        · rcases List.mem_cons.1 hq with rfl | hq
          · exact hsz.1
          rcases List.mem_cons.1 hq with rfl | hq
          · exact hsz.2.2.1
          rw [hAB q (List.mem_append_right _ hq)]
          exact hfill rfl q (List.mem_append_right _ (List.mem_cons_of_mem _ hq))
      · rw [hidx]; exact hvalid (by rw [hnum]; exact Nat.le_succ _)
  · -- the leaf has room
    obtain ⟨s', hrun, hidx, hnum, hfresh, hs', hcount, hother⟩ :=
      insertEntry_inPlace_shape hs hkey rfl (not_le.1 hfull)
    refine ⟨s', d, ls, hrun, hs', hd, fun h1 q hq => ?_, by rw [hidx], by rw [hidx], by rw [hidx]; exact hvalid hnum.ge,
      fun q => by rw [hfresh]; exact hfr q⟩
    by_cases hql : q = (childFor s.buf key)^[d] s.idx.rootPageNum
    · have := hfill h1 q hq
      rw [hql] at this ⊢
      rw [hcount]
      omega
    · rw [hother q hql]
      exact hfill h1 q hq

end Step

/-- **The build loop.** Over records with new, pairwise different keys, at most `(I + 1) * ((L + 1) / 2)` entries
in all, `insertRecords` returns normally and keeps the run invariant, adding the records' `(key, rid)` pairs. -/
theorem insertRecords_filled {L I : Int} (attrByteOffset : Int) (hL : 3 ≤ L) (hI : 1 ≤ I) :
    ∀ (recs : List (RecordId × List UInt8)) {s : Sys} {d : Nat} {es : List Entry} {ls : List PageId},
      Built s L I d es ls → (es.map Prod.fst ++ recs.map fun r => recordKey r.2 attrByteOffset).Nodup →
      ((es.length + recs.length : Nat) : Int) ≤ (I + 1) * ((L + 1) / 2) →
      ∃ s' d' ls' es', insertRecords attrByteOffset recs s = .ok () s' ∧ Built s' L I d' es' ls' ∧
        es'.Perm (es ++ recs.map fun r => (recordKey r.2 attrByteOffset, r.1))
  | [], s, d, es, ls, hF, _, _ => ⟨s, d, ls, es, rfl, hF, by simp⟩
  | (rid, record) :: rest, s, d, es, ls, hF, hnd, hn => by
    rw [insertRecords]
    simp only [List.map_cons, List.length_cons] at hnd hn ⊢
    generalize recordKey record attrByteOffset = k at hnd ⊢
    have hk := (List.nodup_cons.1 (List.perm_middle.nodup_iff.1 hnd)).1
    have hkey : ∀ x ∈ es, x.1 ≠ k := fun x hx heq =>
      hk (List.mem_append_left _ (heq ▸ List.mem_map_of_mem Prod.fst hx))
    obtain ⟨s₁, d₁, ls₁, hrun, hF₁⟩ : ∃ s' d' ls', insertEntry k rid s = .ok () s' ∧
        Built s' L I d' (sortedInsert (k, rid) es) ls' :=
      hF.insertEntry hL hI hkey (by push_cast at hn; omega)
    have hperm : (sortedInsert (k, rid) es).Perm ((k, rid) :: es) := List.perm_orderedInsert _ _ _
    obtain ⟨s', d', ls', es', hrun', hF', hperm'⟩ := insertRecords_filled attrByteOffset hL hI rest hF₁
      ((((hperm.map Prod.fst).append_right _).trans List.perm_middle.symm).nodup_iff.2 hnd)
      (by rw [hperm.length_eq, List.length_cons]; push_cast at hn ⊢; omega)
    refine ⟨s', d', ls', es', ?_, hF', hperm'.trans ((hperm.append_right _).trans List.perm_middle.symm)⟩
    rw [bind_ok hrun]
    exact hrun'

/-- The create path followed by the build loop, from a file of any length, ends in a state with the run
invariant holding the records' `(key, rid)` pairs. -/
theorem constructIndex_built (caps : Capacities) (relationName : String) (attrByteOffset : Int) (attrType : Datatype)
    (relation : List (RecordId × List UInt8)) (t : Sys) (hL : 3 ≤ caps.INTARRAYLEAFSIZE)
    (hI : 1 ≤ caps.INTARRAYNONLEAFSIZE) (hfresh : ∀ q, (t.buf.fresh q).node.numOccupied = 0)
    (hkeys : (relation.map fun r => recordKey r.2 attrByteOffset).Nodup)
    (hlen : (relation.length : Int) ≤ (caps.INTARRAYNONLEAFSIZE + 1) * ((caps.INTARRAYLEAFSIZE + 1) / 2)) :
    ∃ s d es ls, constructIndex caps relationName attrByteOffset attrType false relation t = .ok () s ∧
      Built s caps.INTARRAYLEAFSIZE caps.INTARRAYNONLEAFSIZE d es ls ∧
      es.Perm (relation.map fun r => (recordKey r.2 attrByteOffset, r.1)) := by
  obtain ⟨t₀, hrun, hs, hh, -, -, hLo, hIo, hnum, hfr⟩ :=
    constructIndex_create_spec caps relationName attrByteOffset attrType relation t (by omega)
  have hF : Built t₀ caps.INTARRAYLEAFSIZE caps.INTARRAYNONLEAFSIZE 0 [] [t.buf.numPages + 2] :=
    ⟨hs, Nat.zero_le _, fun h => absurd h Nat.zero_ne_one, hLo, hIo,
      ⟨by rw [hh]; exact Nat.succ_pos _, by rw [hh, hnum]; exact Nat.le_succ _⟩, fun q => by rw [hfr]; exact hfresh q⟩
  obtain ⟨s, d, ls, es, hrun', hF', hperm⟩ :=
    insertRecords_filled attrByteOffset hL hI relation hF (by simpa using hkeys) (by simpa using hlen)
  exact ⟨s, d, es, ls, hrun.trans hrun', hF', by simpa using hperm⟩

/-- **The constructor builds the index.** Over records with pairwise different keys, within the bound, it returns
normally with a tree of height at most one holding the records' entries in key order, leaves half full. -/
theorem constructIndex_builds (caps : Capacities) (relationName : String) (attrByteOffset : Int) (attrType : Datatype)
    (relation : List (RecordId × List UInt8)) (t : Sys) (hL : 3 ≤ caps.INTARRAYLEAFSIZE)
    (hI : 1 ≤ caps.INTARRAYNONLEAFSIZE) (hfresh : ∀ q, (t.buf.fresh q).node.numOccupied = 0)
    (hkeys : (relation.map fun r => recordKey r.2 attrByteOffset).Nodup)
    (hlen : (relation.length : Int) ≤ (caps.INTARRAYNONLEAFSIZE + 1) * ((caps.INTARRAYLEAFSIZE + 1) / 2)) :
    ∃ s d es ls, constructIndex caps relationName attrByteOffset attrType false relation t = .ok () s ∧
      Shape s d es ls ∧ d ≤ 1 ∧ s.idx.leafOccupancy = caps.INTARRAYLEAFSIZE ∧
      s.idx.nodeOccupancy = caps.INTARRAYNONLEAFSIZE ∧
      es.Perm (relation.map fun r => (recordKey r.2 attrByteOffset, r.1)) ∧
      (d = 1 → ∀ q ∈ ls, (caps.INTARRAYLEAFSIZE + 1) / 2 ≤ (s.buf.file q).leaf.numOccupied) :=
  let ⟨s, d, es, ls, hrun, hF, hperm⟩ :=
    constructIndex_built caps relationName attrByteOffset attrType relation t hL hI hfresh hkeys hlen
  ⟨s, d, es, ls, hrun, hF.shape, hF.height, hF.leafOccupancy, hF.nodeOccupancy, hperm, hF.fill⟩

/-- Four records, `5, 3, 9, 1`, with room for three entries per leaf and one key per internal node. -/
def fourRecords : List (RecordId × List UInt8) :=
  [(⟨1, 1⟩, [5, 0, 0, 0]), (⟨1, 2⟩, [3, 0, 0, 0]), (⟨1, 3⟩, [9, 0, 0, 0]), (⟨1, 4⟩, [1, 0, 0, 0])]

/-- The theorem at `fourRecords` over `sampleFresh`, whose new pages are zeroed: four records fill two leaves. -/
theorem constructIndex_sample_builds :
    ((3 : Int) ≤ (⟨3, 1⟩ : Capacities).INTARRAYLEAFSIZE ∧ (1 : Int) ≤ (⟨3, 1⟩ : Capacities).INTARRAYNONLEAFSIZE ∧
      (∀ q, (sampleFresh.buf.fresh q).node.numOccupied = 0) ∧
      (fourRecords.map fun r => recordKey r.2 0).Nodup ∧
      (fourRecords.length : Int) ≤ ((⟨3, 1⟩ : Capacities).INTARRAYNONLEAFSIZE + 1) *
        (((⟨3, 1⟩ : Capacities).INTARRAYLEAFSIZE + 1) / 2)) ∧
    ∃ s d es ls, constructIndex ⟨3, 1⟩ "rel" 0 .INTEGER false fourRecords sampleFresh = .ok () s ∧
      Shape s d es ls ∧ d ≤ 1 ∧ s.idx.leafOccupancy = 3 ∧ s.idx.nodeOccupancy = 1 ∧
      es.Perm (fourRecords.map fun r => (recordKey r.2 0, r.1)) ∧
      (d = 1 → ∀ q ∈ ls, ((3 : Int) + 1) / 2 ≤ (s.buf.file q).leaf.numOccupied) :=
  ⟨⟨by decide, by decide, fun _ => rfl, by decide, by decide⟩,
    constructIndex_builds ⟨3, 1⟩ "rel" 0 .INTEGER fourRecords sampleFresh (by decide) (by decide) (fun _ => rfl)
      (by decide) (by decide)⟩

end BadgerBTree
