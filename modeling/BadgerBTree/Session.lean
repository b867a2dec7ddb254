import BadgerBTree.Build
import BadgerBTree.StartScan

/-!
# Sessions on a built index

A session of calls after the constructor: insertions, with scans between them. A scan reads the file and assigns
only the scan's members, so it leaves the pages, the file's length, the buffer manager's behaviour and the members
the tree is read through as they were, whether it returns or raises (`ReadOnly`; one rule per call of the buffer
manager, then one pass over each method, as in `Pins`). The run invariant of the build is read only through those
(`Built.sameTree`), so a scan keeps it; an insertion of a new key keeps it as in the build (`Built.insertEntry`).

Over a whole session whose insertions bring new keys and leave at most `(I + 1) * ((L + 1) / 2)` entries, every
insertion therefore returns normally and the index keeps the structural invariant, holding the entries it held and
those inserted, in key order (`runCalls_built`); from the constructor on, the index holds the relation's entries and
the session's, and the calls other than insertions keep the tree (`session_keeps_index`).
-/

namespace BadgerBTree

/-- `s'` has the pages of `s`, its file's length and its buffer manager's behaviour, and the members the tree is
read through: the header, the root, the capacities and `onlyOneRoot`. -/
structure SameTree (s s' : Sys) : Prop where
  file : s'.buf.file = s.buf.file
  numPages : s'.buf.numPages = s.buf.numPages
  fresh : s'.buf.fresh = s.buf.fresh
  headerPageNum : s'.idx.headerPageNum = s.idx.headerPageNum
  rootPageNum : s'.idx.rootPageNum = s.idx.rootPageNum
  leafOccupancy : s'.idx.leafOccupancy = s.idx.leafOccupancy
  nodeOccupancy : s'.idx.nodeOccupancy = s.idx.nodeOccupancy
  onlyOneRoot : s'.idx.onlyOneRoot = s.idx.onlyOneRoot

namespace SameTree

variable {s s' s'' : Sys}

theorem refl (s : Sys) : SameTree s s := ⟨rfl, rfl, rfl, rfl, rfl, rfl, rfl, rfl⟩

theorem trans (h₁ : SameTree s s') (h₂ : SameTree s' s'') : SameTree s s'' :=
  ⟨h₂.file.trans h₁.file, h₂.numPages.trans h₁.numPages, h₂.fresh.trans h₁.fresh,
    h₂.headerPageNum.trans h₁.headerPageNum, h₂.rootPageNum.trans h₁.rootPageNum,
    h₂.leafOccupancy.trans h₁.leafOccupancy, h₂.nodeOccupancy.trans h₁.nodeOccupancy,
    h₂.onlyOneRoot.trans h₁.onlyOneRoot⟩

/-- A new buffer manager state with the same pages, length and behaviour. -/
theorem of_buf {b : BufMgr} (hf : b.file = s.buf.file) (hn : b.numPages = s.buf.numPages)
    (hr : b.fresh = s.buf.fresh) : SameTree s { s with buf := b } :=
  ⟨hf, hn, hr, rfl, rfl, rfl, rfl, rfl⟩

end SameTree

/-- `g` assigns none of the members the tree is read through. -/
def KeepsTree (g : BTreeIndex → BTreeIndex) : Prop :=
  ∀ m, (g m).headerPageNum = m.headerPageNum ∧ (g m).rootPageNum = m.rootPageNum ∧
    (g m).leafOccupancy = m.leafOccupancy ∧ (g m).nodeOccupancy = m.nodeOccupancy ∧ (g m).onlyOneRoot = m.onlyOneRoot

/-- `x` keeps the tree, whether it returns or raises. -/
def ReadOnly {α : Type} (x : M α) : Prop := ∀ s, SameTree s (after (x s))

/-! ## One rule per call of the buffer manager -/

section Rules

variable {α β : Type} {x y : M α} {f : α → M β}

theorem readOnly_pure (a : α) : ReadOnly (pure a : M α) := SameTree.refl

theorem readOnly_throw (e : BTreeException) : ReadOnly (throw e : M α) := SameTree.refl

theorem ReadOnly.bind (hx : ReadOnly x) (hf : ∀ a, ReadOnly (f a)) : ReadOnly (x >>= f) := by
  intro s
  have := hx s
  cases h : x s with
  | ok a s' => rw [bind_ok h]; rw [h] at this; exact this.trans (hf a s')
  | error e s' => rw [bind_error h]; rw [h] at this; exact this

theorem readOnly_ite {c : Prop} [Decidable c] (hx : ReadOnly x) (hy : ReadOnly y) :
    ReadOnly (if c then x else y) := by
  split <;> assumption

theorem readOnly_members : ReadOnly members := SameTree.refl

theorem readOnly_searchFuel : ReadOnly searchFuel := SameTree.refl

/-- Assigning members other than those the tree is read through. -/
theorem readOnly_setMembers {g : BTreeIndex → BTreeIndex} (hg : KeepsTree g) : ReadOnly (setMembers g) := fun s =>
  let ⟨h1, h2, h3, h4, h5⟩ := hg s.idx
  ⟨rfl, rfl, rfl, h1, h2, h3, h4, h5⟩

theorem readOnly_setMembers_bind {g : BTreeIndex → BTreeIndex} {k : Unit → M β} (hg : KeepsTree g)
    (hk : ReadOnly (k ())) : ReadOnly (setMembers g >>= k) :=
  (readOnly_setMembers hg).bind fun _ => hk

theorem readOnly_readPage (p : PageId) : ReadOnly (readPage p) := fun s => by
  unfold readPage
  split
  exacts [SameTree.of_buf rfl rfl rfl, SameTree.refl s]

theorem readOnly_unPinPage (p : PageId) (d : Bool) : ReadOnly (unPinPage p d) := fun s => by
  unfold unPinPage
  split
  exacts [SameTree.refl s, SameTree.of_buf rfl rfl rfl]

theorem readOnly_unPinPage_bind {p : PageId} {d : Bool} {k : Unit → M β} (hk : ReadOnly (k ())) :
    ReadOnly (unPinPage p d >>= k) :=
  (readOnly_unPinPage p d).bind fun _ => hk

end Rules

/-! ## The scans -/

theorem readOnly_endScan : ReadOnly endScan :=
  readOnly_members.bind fun _ => readOnly_ite (readOnly_throw _)
    ((readOnly_pure ()).bind fun _ => readOnly_setMembers fun _ => ⟨rfl, rfl, rfl, rfl, rfl⟩)

theorem readOnly_searchEntry (key : Int) : ∀ fuel root visitedNodes, ReadOnly (searchEntry key fuel root visitedNodes)
  | fuel, root, visitedNodes => by
    unfold searchEntry
    refine readOnly_members.bind fun m => ?_
    refine readOnly_ite (readOnly_pure _) ((readOnly_pure ()).bind fun _ => ?_)
    cases fuel with
    | zero => exact readOnly_throw _
    | succ fuel =>
      refine (readOnly_readPage _).bind fun pg => readOnly_ite ?_ ?_
      · exact (readOnly_unPinPage _ _).bind fun _ => readOnly_searchEntry key fuel _ _
      · exact (readOnly_unPinPage _ _).bind fun _ => readOnly_pure _

theorem readOnly_startScan (lowVal : Int) (lowOp : Operator) (highVal : Int) (highOp : Operator) :
    ReadOnly (startScan lowVal lowOp highVal highOp) := by
  have hstop : ∀ p, ReadOnly (unPinPage p false >>= fun _ => endScan >>= fun _ => (throw .NoSuchKeyFound : M Unit)) :=
    fun _ => readOnly_unPinPage_bind (readOnly_endScan.bind fun _ => readOnly_throw _)
  refine readOnly_members.bind fun m => ?_
  refine readOnly_ite (readOnly_endScan.bind fun _ => ?_) ((readOnly_pure ()).bind fun _ => ?_) <;>
  · refine readOnly_setMembers_bind (fun _ => ⟨rfl, rfl, rfl, rfl, rfl⟩) (readOnly_ite (readOnly_throw _) ?_)
    refine readOnly_setMembers_bind (fun _ => ⟨rfl, rfl, rfl, rfl, rfl⟩)
      (readOnly_ite (readOnly_throw _) (readOnly_ite (readOnly_throw _) ?_))
    refine readOnly_setMembers_bind (fun _ => ⟨rfl, rfl, rfl, rfl, rfl⟩) (readOnly_searchFuel.bind fun _ =>
      readOnly_members.bind fun _ => (readOnly_searchEntry _ _ _ _).bind fun _ => ?_)
    refine readOnly_setMembers_bind (fun _ => ⟨rfl, rfl, rfl, rfl, rfl⟩) ((readOnly_readPage _).bind fun _ =>
      readOnly_members.bind fun _ => readOnly_setMembers_bind (fun _ => ⟨rfl, rfl, rfl, rfl, rfl⟩) ?_)
    exact readOnly_ite (hstop _) (readOnly_ite (hstop _) (readOnly_unPinPage _ _))

theorem readOnly_scanNext : ReadOnly scanNext := by
  -- each branch ends with a release and an assignment of `nextEntry` or `currentPageNum`, in one order or the other
  have hUS : ∀ {p : PageId} {g : BTreeIndex → BTreeIndex} (r : RecordId), KeepsTree g →
      ReadOnly (unPinPage p false >>= fun _ => setMembers g >>= fun _ => (pure r : M RecordId)) :=
    fun _ hg => readOnly_unPinPage_bind (readOnly_setMembers_bind hg (readOnly_pure _))
  have hSU : ∀ {p : PageId} {g : BTreeIndex → BTreeIndex} (r : RecordId), KeepsTree g →
      ReadOnly (setMembers g >>= fun _ => unPinPage p false >>= fun _ => (pure r : M RecordId)) :=
    fun _ hg => readOnly_setMembers_bind hg (readOnly_unPinPage_bind (readOnly_pure _))
  refine readOnly_members.bind fun m => readOnly_ite (readOnly_throw _) ?_
  refine (readOnly_readPage _).bind fun pg => readOnly_ite (readOnly_unPinPage_bind (readOnly_throw _)) ?_
  dsimp only
  refine readOnly_ite (readOnly_ite (hUS _ fun _ => ⟨rfl, rfl, rfl, rfl, rfl⟩) (readOnly_ite
    (hSU _ fun _ => ⟨rfl, rfl, rfl, rfl, rfl⟩) (hUS _ fun _ => ⟨rfl, rfl, rfl, rfl, rfl⟩)))
    (readOnly_ite (hUS _ fun _ => ⟨rfl, rfl, rfl, rfl, rfl⟩) (readOnly_unPinPage_bind
      (readOnly_setMembers_bind (fun _ => ⟨rfl, rfl, rfl, rfl, rfl⟩) ((readOnly_readPage _).bind fun _ => ?_))))
  exact readOnly_ite (hSU _ fun _ => ⟨rfl, rfl, rfl, rfl, rfl⟩) (readOnly_ite (hUS _ fun _ => ⟨rfl, rfl, rfl, rfl, rfl⟩)
    (readOnly_ite (hSU _ fun _ => ⟨rfl, rfl, rfl, rfl, rfl⟩) (hUS _ fun _ => ⟨rfl, rfl, rfl, rfl, rfl⟩)))

/-! ## Whole sessions -/

/-- The entries a call inserts. -/
def Call.inserted : Call → List Entry
  | .insertEntry key rid => [(key, rid)]
  | _ => []

/-- The calls that insert nothing keep the tree. -/
theorem readOnly_run : ∀ c : Call, c.inserted = [] → ReadOnly c.run
  | .insertEntry _ _, h => absurd h (List.cons_ne_nil _ _)
  | .startScan _ _ _ _, _ => (readOnly_startScan _ _ _ _).bind fun _ => readOnly_pure _
  | .scanNext, _ => readOnly_scanNext.bind fun _ => readOnly_pure _
  | .endScan, _ => readOnly_endScan.bind fun _ => readOnly_pure _

section Session

variable {L I : Int} {s : Sys} {d : Nat} {es : List Entry} {ls : List PageId}

/-- The run invariant is read only through the pages and the tree's members. -/
theorem Built.sameTree {s' : Sys} (hF : Built s L I d es ls) (h : SameTree s s') : Built s' L I d es ls := by
  refine ⟨?_, hF.height, fun h1 q hq => by rw [h.file]; exact hF.fill h1 q hq, h.leafOccupancy.trans hF.leafOccupancy,
    h.nodeOccupancy.trans hF.nodeOccupancy, ?_, fun q => by rw [h.fresh]; exact hF.fresh q⟩
  · refine (shape_iff_of_file hF.shape h.file h.numPages h.rootPageNum h.leafOccupancy h.nodeOccupancy ?_).2
      h.onlyOneRoot
    rw [h.file, h.headerPageNum, h.rootPageNum]
    exact hF.shape.header
  · rw [h.headerPageNum]
    exact ⟨hF.header.1, h.numPages ▸ hF.header.2⟩

/-- **One call of a session.** A call inserting a new key within the bound returns normally, and after any call the
run invariant holds of the entries and the one inserted. -/
theorem Built.run (hF : Built s L I d es ls) (hL : 3 ≤ L) (hI : 1 ≤ I) (c : Call)
    (hkey : ∀ e ∈ c.inserted, ∀ x ∈ es, x.1 ≠ e.1)
    (hn : ((es.length + c.inserted.length : Nat) : Int) ≤ (I + 1) * ((L + 1) / 2)) :
    (c.inserted ≠ [] → outcome (c.run s) = .ok none) ∧
      ∃ d' es' ls', Built (after (c.run s)) L I d' es' ls' ∧ es'.Perm (es ++ c.inserted) := by
  cases hc : c.inserted with
  | nil =>
    exact ⟨fun h => absurd rfl h, d, es, ls, hF.sameTree (readOnly_run c hc s), by rw [List.append_nil]⟩
  | cons e rest =>
    obtain ⟨key, rid⟩ := c
    all_goals simp only [Call.inserted, reduceCtorEq] at hc
    obtain ⟨rfl, rfl⟩ := hc
    obtain ⟨s', d', ls', hrun, hF'⟩ := hF.insertEntry hL hI (hkey _ (List.mem_singleton_self _))
      (by simp only [Call.inserted, List.length_singleton] at hn; push_cast at hn; omega)
    have hcall : (Call.insertEntry key rid).run s = .ok none s' := by
      show (BadgerBTree.insertEntry key rid >>= fun _ => pure none) s = _
      rw [bind_ok hrun]
      rfl
    rw [hcall]
    exact ⟨fun _ => rfl, d', _, ls', hF', (List.perm_orderedInsert _ _ _).trans (List.perm_append_singleton _ _).symm⟩

/-- **A session keeps the index.** Over a session inserting new, pairwise different keys within the bound, every
insertion returns normally and the run invariant holds after it, of the entries and those inserted. -/
theorem runCalls_built (hL : 3 ≤ L) (hI : 1 ≤ I) : ∀ (calls : List Call) {s : Sys} {d : Nat} {es : List Entry}
    {ls : List PageId}, Built s L I d es ls →
    (es.map Prod.fst ++ (calls.flatMap Call.inserted).map Prod.fst).Nodup →
    ((es.length + (calls.flatMap Call.inserted).length : Nat) : Int) ≤ (I + 1) * ((L + 1) / 2) →
    List.Forall₂ (fun c r => c.inserted ≠ [] → r = .ok none) calls (runCalls calls s).1 ∧
      ∃ d' es' ls', Built (runCalls calls s).2 L I d' es' ls' ∧ es'.Perm (es ++ calls.flatMap Call.inserted)
  | [], s, d, es, ls, hF, _, _ => ⟨.nil, d, es, ls, hF, by simp [runCalls]⟩
  | c :: cs, s, d, es, ls, hF, hnd, hn => by
    rw [List.flatMap_cons, List.map_append, ← List.append_assoc] at hnd
    rw [List.flatMap_cons, List.length_append] at hn
    have hkey : ∀ e ∈ c.inserted, ∀ x ∈ es, x.1 ≠ e.1 := fun e he x hx heq => by
      refine (List.nodup_append.1 (List.nodup_append.1 hnd).1).2.2 (List.mem_map_of_mem Prod.fst hx) ?_
      rw [heq]
      exact List.mem_map_of_mem Prod.fst he
    obtain ⟨hok, d₁, es₁, ls₁, hF₁, hperm₁⟩ := hF.run hL hI c hkey (by push_cast at hn ⊢; omega)
    rw [← List.map_append] at hnd
    obtain ⟨hall, d', es', ls', hF', hperm'⟩ := runCalls_built hL hI cs hF₁
      (((hperm₁.map Prod.fst).append_right _).nodup_iff.2 hnd)
      (by rw [hperm₁.length_eq, List.length_append]; push_cast at hn ⊢; omega)
    exact ⟨.cons hok hall, d', es', ls', hF', hperm'.trans ((hperm₁.append_right _).trans
      (List.Perm.of_eq (List.append_assoc _ _ _)))⟩

end Session

/-- **From the constructor on.** With new keys within the bound, the constructor and each insertion of a session
return normally, the index holds the records' and inserted entries in order, and the other calls keep the tree. -/
theorem session_keeps_index (caps : Capacities) (relationName : String) (attrByteOffset : Int) (attrType : Datatype)
    (relation : List (RecordId × List UInt8)) (t : Sys) (calls : List Call) (hL : 3 ≤ caps.INTARRAYLEAFSIZE)
    (hI : 1 ≤ caps.INTARRAYNONLEAFSIZE) (hfresh : ∀ q, (t.buf.fresh q).node.numOccupied = 0)
    (hkeys : (relation.map (fun r => recordKey r.2 attrByteOffset) ++ (calls.flatMap Call.inserted).map Prod.fst).Nodup)
    (hlen : ((relation.length + (calls.flatMap Call.inserted).length : Nat) : Int) ≤
      (caps.INTARRAYNONLEAFSIZE + 1) * ((caps.INTARRAYLEAFSIZE + 1) / 2)) :
    ∃ s, constructIndex caps relationName attrByteOffset attrType false relation t = .ok () s ∧
      List.Forall₂ (fun c r => c.inserted ≠ [] → r = .ok none) calls (runCalls calls s).1 ∧
      (∀ c : Call, c.inserted = [] → ReadOnly c.run) ∧ ∃ d es ls, Shape (runCalls calls s).2 d es ls ∧
        es.Perm (relation.map (fun r => (recordKey r.2 attrByteOffset, r.1)) ++ calls.flatMap Call.inserted) := by
  obtain ⟨s, d, es, ls, hrun, hF, hperm⟩ := constructIndex_built caps relationName attrByteOffset attrType relation t
    hL hI hfresh (List.nodup_append.1 hkeys).1 (by push_cast at hlen; omega)
  have hmap : (es.map Prod.fst).Perm (relation.map fun r => recordKey r.2 attrByteOffset) := by
    simpa [List.map_map, Function.comp_def] using hperm.map Prod.fst
  obtain ⟨hall, d', es', ls', hF', hperm'⟩ := runCalls_built hL hI calls hF (hmap.append_right _ |>.nodup_iff.2 hkeys)
    (by rw [hperm.length_eq, List.length_map]; exact hlen)
  exact ⟨s, hrun, hall, readOnly_run, d', es', ls', hF'.shape, hperm'.trans (hperm.append_right _)⟩

/-- A session on the index of the records `5, 3`: insert `7`, scan `[1, 9]` for one entry, insert `2`. -/
def sampleSession : List Call :=
  [.insertEntry 7 ⟨1, 7⟩, .startScan 1 .GTE 9 .LTE, .scanNext, .insertEntry 2 ⟨1, 8⟩]

/-- The theorem at `sampleSession`, after creating the index of the first two of `fourRecords` over `sampleFresh`
with room for three entries per leaf and one key per internal node. -/
theorem session_sample_keeps_index :
    ((3 : Int) ≤ (⟨3, 1⟩ : Capacities).INTARRAYLEAFSIZE ∧ (1 : Int) ≤ (⟨3, 1⟩ : Capacities).INTARRAYNONLEAFSIZE ∧
      (∀ q, (sampleFresh.buf.fresh q).node.numOccupied = 0) ∧
      ((fourRecords.take 2).map (fun r => recordKey r.2 0) ++ (sampleSession.flatMap Call.inserted).map Prod.fst).Nodup ∧
      (((fourRecords.take 2).length + (sampleSession.flatMap Call.inserted).length : Nat) : Int) ≤
        ((⟨3, 1⟩ : Capacities).INTARRAYNONLEAFSIZE + 1) * (((⟨3, 1⟩ : Capacities).INTARRAYLEAFSIZE + 1) / 2)) ∧
    ∃ s, constructIndex ⟨3, 1⟩ "rel" 0 .INTEGER false (fourRecords.take 2) sampleFresh = .ok () s ∧
      List.Forall₂ (fun c r => c.inserted ≠ [] → r = .ok none) sampleSession (runCalls sampleSession s).1 ∧
      (∀ c : Call, c.inserted = [] → ReadOnly c.run) ∧ ∃ d es ls, Shape (runCalls sampleSession s).2 d es ls ∧
        es.Perm ((fourRecords.take 2).map (fun r => (recordKey r.2 0, r.1)) ++ sampleSession.flatMap Call.inserted) :=
  ⟨⟨by decide, by decide, fun _ => rfl, by decide, by decide⟩,
    session_keeps_index ⟨3, 1⟩ "rel" 0 .INTEGER (fourRecords.take 2) sampleFresh sampleSession (by decide) (by decide)
      (fun _ => rfl) (by decide) (by decide)⟩

end BadgerBTree
