import BadgerBTree.Lifecycle
import Mathlib.Data.List.Count

/-!
# The pin discipline

Every call of the index releases each pin it takes exactly once, never unpins a page that is not pinned, and
unpins every page it writes dirty after its last write: started in a state with no pin held and no write
unsettled (`BufMgr.Quiet`), it returns or raises in such a state again, and never with `PageNotPinned`
(`KeepsPins`). This holds along every path, the split cascades of any depth and every path that raises
included (`pins_released_by_every_call`).

The proof follows the code. `Releases ps ws x` says that `x`, run while exactly the pins `ps` are held and the
pages written since pinned are among `ws`, ends quiet; each call of the buffer manager has a rule that moves a
page into or out of `ps` and `ws` (`releases_readPage`, `releases_allocPage`, `releases_unPinPage`,
`releases_writeLeaf`), and each method of the index is then one pass over its code.
-/

namespace BadgerBTree

/-- The buffer manager holds exactly the pins `ps` (one per entry), and the pages written since they were last
unpinned dirty are among `ws`. -/
def Holding (ps ws : List PageId) (b : BufMgr) : Prop :=
  (∀ q, b.pinCount q = ps.count q) ∧ ∀ q, b.pending q = true → q ∈ ws

/-- `x`, started holding `ps` and `ws`, ends with no pin held and no write unsettled, and does not raise
`PageNotPinned`. -/
def Releases {α : Type} (ps ws : List PageId) (x : M α) : Prop :=
  ∀ s, Holding ps ws s.buf → (after (x s)).buf.Quiet ∧ raised (x s) ≠ some .PageNotPinned

/-- **The pin discipline of one call**: from a quiet state, quiet again and no `PageNotPinned`. -/
def KeepsPins {α : Type} (x : M α) : Prop := Releases [] [] x

theorem holding_nil_iff (b : BufMgr) : Holding [] [] b ↔ b.Quiet := by
  simp [Holding, BufMgr.Quiet]

/-! ## One rule per call of the buffer manager -/

section Rules

variable {α β : Type} {ps ws : List PageId}

theorem releases_pure (a : α) : Releases [] [] (pure a : M α) :=
  fun _ h => ⟨(holding_nil_iff _).1 h, by simp [raised, pure, EStateM.pure]⟩

theorem releases_throw {e : BTreeException} (he : e ≠ .PageNotPinned) : Releases [] [] (throw e : M α) :=
  fun _ h => ⟨(holding_nil_iff _).1 h, by simpa [raised, throw, throwThe, MonadExceptOf.throw, EStateM.throw]⟩

/-- A stretch that keeps the pins, followed by one that does. -/
theorem KeepsPins.bind {x : M α} {f : α → M β} (hx : KeepsPins x) (hf : ∀ a, KeepsPins (f a)) :
    KeepsPins (x >>= f) := by
  intro s hs
  have := hx s hs
  cases h : x s with
  | ok a s' => rw [bind_ok h]; rw [h] at this; exact hf a s' ((holding_nil_iff _).2 this.1)
  | error e s' => rw [bind_error h]; rw [h] at this; exact this

/-- Reading the members touches no page. -/
theorem releases_members {f : BTreeIndex → M β} (hf : ∀ m, Releases ps ws (f m)) : Releases ps ws (members >>= f) :=
  fun s h => hf s.idx s h

theorem releases_setMembers {g : BTreeIndex → BTreeIndex} {f : Unit → M β} (hf : Releases ps ws (f ())) :
    Releases ps ws (setMembers g >>= f) := fun _ h => hf _ h

theorem releases_indeterminateInt {f : Int → M β} (hf : ∀ v, Releases ps ws (f v)) :
    Releases ps ws (indeterminateInt >>= f) := fun s h => hf s.indeterminate s h

theorem releases_searchFuel {f : Nat → M β} (hf : ∀ n, Releases ps ws (f n)) : Releases ps ws (searchFuel >>= f) :=
  fun s h => hf s.buf.numPages s h

/-- `readPage` pins the page it reads; it raises `InvalidPage` only before pinning. The index reads a page
only when it holds no other. -/
theorem releases_readPage {p : PageId} {f : Page → M β} (hf : ∀ pg, Releases [p] [] (f pg)) :
    Releases [] [] (readPage p >>= f) := by
  intro s h
  by_cases hv : s.buf.Valid p
  · rw [bind_ok (readPage_ok hv)]
    refine hf _ _ ⟨fun q => ?_, h.2⟩
    by_cases hq : q = p <;> simp [BufMgr.pin, Function.update_apply, hq, h.1, List.count_singleton', eq_comm]
  · rw [bind_error (readPage_error hv)]
    exact ⟨(holding_nil_iff _).1 h, by simp [raised]⟩

/-- `allocPage` pins the page it appends; the index releases pins in the order it took them. -/
theorem releases_allocPage {f : PageId × Page → M β} (hf : ∀ q pg, Releases (ps ++ [q]) ws (f (q, pg))) :
    Releases ps ws (allocPage >>= f) := by
  intro s h
  refine hf _ _ _ ⟨fun q => ?_, h.2⟩
  by_cases hq : q = s.buf.numPages + 1 <;> simp [allocPage, BufMgr.alloc, BufMgr.pin, Function.update_apply, hq, h.1,
    List.count_singleton', eq_comm]

/-- `unPinPage` of a held page releases it. -/
theorem releases_unPinPage {p : PageId} {d : Bool} {f : Unit → M β} (hp : p ∈ ps)
    (hf : Releases (ps.erase p) (if d then ws.erase p else ws) (f ())) : Releases ps ws (unPinPage p d >>= f) := by
  intro s h
  have hc : s.buf.pinCount p ≠ 0 := by rw [h.1 p]; exact Nat.pos_iff_ne_zero.1 (List.count_pos_iff.2 hp)
  rw [bind_ok (unPinPage_ok hc)]
  refine hf _ ⟨fun q => ?_, fun q hq => ?_⟩
  · simp only [BufMgr.release, Function.update_apply, h.1]
    split
    · subst q; rw [List.count_erase_self]
    · rw [List.count_erase_of_ne ‹_›]
  · cases d with
    | false => exact h.2 q hq
    | true =>
      simp only [BufMgr.release, if_true, Function.update_apply] at hq ⊢
      split at hq
      · simp at hq
      · exact List.mem_erase_of_ne ‹_› |>.2 (h.2 q hq)

/-- A clean release of the oldest pin. -/
theorem releases_unPinPage_clean {p : PageId} {f : Unit → M β} (hf : Releases ps ws (f ())) :
    Releases (p :: ps) ws (unPinPage p false >>= f) :=
  releases_unPinPage (List.mem_cons_self p ps) (by rw [List.erase_cons_head]; exact hf)

/-- A dirty release of the oldest pin, right after writing it, settles the write. -/
theorem releases_unPinPage_dirty {p : PageId} {f : Unit → M β} (hf : Releases ps ws (f ())) :
    Releases (p :: ps) (p :: ws) (unPinPage p true >>= f) :=
  releases_unPinPage (List.mem_cons_self p ps) (by simp only [List.erase_cons_head, if_true]; exact hf)

theorem releases_unPinPage_last {p : PageId} {d : Bool} (hw : (if d then ws.erase p else ws) = []) :
    Releases [p] ws (unPinPage p d) := by
  rw [← bind_pure (unPinPage p d)]
  refine releases_unPinPage (List.mem_singleton_self p) ?_
  rw [List.erase_cons_head, hw]
  exact releases_pure ()

theorem releases_unPinPage_clean_last {p : PageId} : Releases [p] [] (unPinPage p false) :=
  releases_unPinPage_last rfl

theorem releases_unPinPage_dirty_last {p : PageId} : Releases [p] [p] (unPinPage p true) :=
  releases_unPinPage_last (by simp)

theorem releases_throw_bind {e : BTreeException} {f : α → M β} (he : e ≠ .PageNotPinned) :
    Releases [] [] ((throw e : M α) >>= f) :=
  fun _ h => ⟨(holding_nil_iff _).1 h, by simpa [raised, throw, throwThe, MonadExceptOf.throw, EStateM.throw, bind,
    EStateM.bind]⟩

theorem keepsPins_setMembers {g : BTreeIndex → BTreeIndex} : KeepsPins (setMembers g) :=
  fun _ h => ⟨(holding_nil_iff _).1 h, by simp [raised, setMembers]⟩

theorem holding_write {p : PageId} {pg : Page} {b : BufMgr} (h : Holding ps ws b) :
    Holding ps (p :: ws) (b.write p pg) := by
  refine ⟨h.1, fun q hq => ?_⟩
  simp only [BufMgr.write, Function.update_apply] at hq
  split at hq
  · subst q; exact List.mem_cons_self _ _
  · exact List.mem_cons_of_mem _ (h.2 q hq)

theorem releases_writeLeaf {p : PageId} {n : LeafNodeInt} {f : Unit → M β} (hf : Releases ps (p :: ws) (f ())) :
    Releases ps ws (writeLeaf p n >>= f) := fun _ h => hf _ (holding_write h)

theorem releases_writeNode {p : PageId} {n : NonLeafNodeInt} {f : Unit → M β} (hf : Releases ps (p :: ws) (f ())) :
    Releases ps ws (writeNode p n >>= f) := fun _ h => hf _ (holding_write h)

theorem releases_writeMeta {p : PageId} {m : IndexMetaInfo} {f : Unit → M β} (hf : Releases ps (p :: ws) (f ())) :
    Releases ps ws (writeMeta p m >>= f) := fun _ h => hf _ (holding_write h)

theorem KeepsPins.ite_bind {α β : Type} {c : Prop} [Decidable c] {x : M α} {u : α} {k : α → M β}
    (hx : KeepsPins x) (hk : ∀ a, KeepsPins (k a)) : KeepsPins (if c then x >>= k else pure u >>= k) := by
  split
  · exact hx.bind hk
  · rw [pure_bind]; exact hk u

/-- Both branches of a test keep the pins; the test itself touches no page. -/
theorem releases_ite {c : Prop} [Decidable c] {x y : M α} (hx : Releases ps ws x) (hy : Releases ps ws y) :
    Releases ps ws (if c then x else y) := by
  split <;> assumption

theorem Releases.of_subset {α : Type} {ps ws ws' : List PageId} {x : M α} (h : Releases ps ws x) (hs : ws' ⊆ ws) :
    Releases ps ws' x := fun s hh => h s ⟨hh.1, fun q hq => hs (hh.2 q hq)⟩

end Rules

/-! ## The methods -/

theorem keepsPins_endScan : KeepsPins endScan := by
  refine releases_members fun m => ?_
  dsimp only
  refine releases_ite ?_ ?_
  · exact releases_throw_bind (by decide)
  · rw [pure_bind]; exact keepsPins_setMembers

theorem keepsPins_searchEntry (key : Int) : ∀ fuel root visitedNodes, KeepsPins (searchEntry key fuel root visitedNodes)
  | fuel, root, visitedNodes => by
    unfold searchEntry
    refine releases_members fun m => ?_
    dsimp only
    refine releases_ite ?_ ?_
    · exact releases_pure _
    · rw [pure_bind]
      cases fuel with
      | zero => exact releases_throw (by decide)
      | succ fuel =>
        refine releases_readPage fun pg => ?_
        dsimp only
        refine releases_ite ?_ ?_
        · exact releases_unPinPage_clean (keepsPins_searchEntry key fuel _ _)
        · exact releases_unPinPage_clean (releases_pure _)

theorem keepsPins_newRootOfInternal (pageNo : PageId) (k : Int) (c : PageId) : KeepsPins (newRootOfInternal pageNo k c) := by
  refine releases_allocPage fun q pg => ?_
  refine releases_writeNode (releases_unPinPage_dirty (releases_setMembers (releases_members fun m => ?_)))
  exact releases_readPage fun pg => releases_writeMeta releases_unPinPage_dirty_last

theorem keepsPins_newRootOfLeaf (pageNo : PageId) (k : Int) (c : PageId) : KeepsPins (newRootOfLeaf pageNo k c) := by
  refine releases_allocPage fun q pg => ?_
  refine releases_writeNode (releases_unPinPage_dirty (releases_setMembers (releases_members fun m => ?_)))
  exact releases_readPage fun pg => releases_writeMeta releases_unPinPage_dirty_last

theorem keepsPins_splitInternal {up : Int → PageId → M Unit} (hup : ∀ k c, KeepsPins (up k c)) (key : Int)
    (pageNo newPageNo : PageId) (splitFromLeaf : Bool) : KeepsPins (splitInternal up key pageNo newPageNo splitFromLeaf) := by
  refine releases_readPage fun pg => releases_allocPage fun q pg' => ?_
  refine releases_members fun m => releases_indeterminateInt fun v => ?_
  exact releases_writeNode (releases_unPinPage_dirty (releases_writeNode (releases_unPinPage_dirty (hup _ _))))

theorem keepsPins_insertEntryInternalWith {up : Int → PageId → M Unit} (hup : ∀ k c, KeepsPins (up k c)) (key : Int)
    (pageNo newPageNo : PageId) (splitFromLeaf : Bool) :
    KeepsPins (insertEntryInternalWith up key pageNo newPageNo splitFromLeaf) := by
  refine releases_readPage fun pg => releases_members fun m => ?_
  refine releases_ite ?_ ?_
  · exact releases_unPinPage_clean (keepsPins_splitInternal hup _ _ _ _)
  · exact releases_writeNode releases_unPinPage_dirty_last

theorem keepsPins_insertEntryInternal : ∀ key pageNo newPageNo visitedNodes splitFromLeaf,
    KeepsPins (insertEntryInternal key pageNo newPageNo visitedNodes splitFromLeaf)
  | key, pageNo, newPageNo, [], splitFromLeaf =>
    keepsPins_insertEntryInternalWith (keepsPins_newRootOfInternal pageNo) key pageNo newPageNo splitFromLeaf
  | key, pageNo, newPageNo, _ :: visitedNodes, splitFromLeaf =>
    keepsPins_insertEntryInternalWith (fun _ _ => keepsPins_insertEntryInternal _ _ _ visitedNodes _) key pageNo
      newPageNo splitFromLeaf

theorem keepsPins_splitLeaf (key : Int) (rid : RecordId) (pageNo : PageId) (visitedNodes : List PageId) :
    KeepsPins (splitLeaf key rid pageNo visitedNodes) := by
  refine releases_readPage fun pg => releases_allocPage fun q pg' => releases_members fun m => ?_
  refine releases_writeLeaf (releases_unPinPage_dirty (releases_writeLeaf (releases_unPinPage_dirty ?_)))
  cases visitedNodes with
  | nil => exact keepsPins_newRootOfLeaf _ _ _
  | cons parent visitedNodes => exact keepsPins_insertEntryInternal _ _ _ _ _

theorem keepsPins_insertEntryLeaf (key : Int) (rid : RecordId) (pageNo : PageId) (visitedNodes : List PageId) :
    KeepsPins (insertEntryLeaf key rid pageNo visitedNodes) := by
  refine releases_readPage fun pg => releases_members fun m => ?_
  refine releases_ite ?_ ?_
  · exact releases_unPinPage_clean (keepsPins_splitLeaf _ _ _ _)
  · exact releases_writeLeaf releases_unPinPage_dirty_last

theorem keepsPins_insertEntry (key : Int) (rid : RecordId) : KeepsPins (insertEntry key rid) :=
  releases_searchFuel fun _ => releases_members fun _ =>
    KeepsPins.bind (keepsPins_searchEntry _ _ _ _) fun _ => keepsPins_insertEntryLeaf _ _ _ _

theorem keepsPins_startScan (lowVal : Int) (lowOp : Operator) (highVal : Int) (highOp : Operator) :
    KeepsPins (startScan lowVal lowOp highVal highOp) := by
  refine releases_members fun m => KeepsPins.ite_bind keepsPins_endScan fun _ => releases_setMembers ?_
  refine releases_ite ?_ ?_
  · exact releases_throw (by decide)
  · refine releases_setMembers ?_
    refine releases_ite ?_ ?_
    · exact releases_throw (by decide)
    · refine releases_ite ?_ ?_
      · exact releases_throw (by decide)
      · refine releases_setMembers (releases_searchFuel fun _ => releases_members fun _ =>
          KeepsPins.bind (keepsPins_searchEntry _ _ _ _) fun _ => ?_)
        refine releases_setMembers (releases_readPage fun _ => releases_members fun _ => releases_setMembers ?_)
        refine releases_ite ?_ ?_
        · exact releases_unPinPage_clean (KeepsPins.bind keepsPins_endScan fun _ => releases_throw (by decide))
        · refine releases_ite ?_ ?_
          · exact releases_unPinPage_clean (KeepsPins.bind keepsPins_endScan fun _ => releases_throw (by decide))
          · exact releases_unPinPage_clean_last

theorem keepsPins_scanNext : KeepsPins scanNext := by
  refine releases_members fun m => ?_
  refine releases_ite ?_ ?_
  · exact releases_throw (by decide)
  · refine releases_readPage fun pg => ?_
    refine releases_ite ?_ ?_
    · exact releases_unPinPage_clean (releases_throw (by decide))
    · dsimp only
      refine releases_ite ?_ ?_
      · refine releases_ite ?_ ?_
        · exact releases_unPinPage_clean (releases_setMembers (releases_pure _))
        · refine releases_ite ?_ ?_
          · exact releases_setMembers (releases_unPinPage_clean (releases_pure _))
          · exact releases_unPinPage_clean (releases_setMembers (releases_pure _))
      · refine releases_ite ?_ ?_
        · exact releases_unPinPage_clean (releases_setMembers (releases_pure _))
        · refine releases_unPinPage_clean (releases_setMembers (releases_readPage fun _ => ?_))
          refine releases_ite ?_ ?_
          · exact releases_setMembers (releases_unPinPage_clean (releases_pure _))
          · refine releases_ite ?_ ?_
            · exact releases_unPinPage_clean (releases_setMembers (releases_pure _))
            · refine releases_ite ?_ ?_
              · exact releases_setMembers (releases_unPinPage_clean (releases_pure _))
              · exact releases_unPinPage_clean (releases_setMembers (releases_pure _))

theorem keepsPins_insertRecords (attrByteOffset : Int) :
    ∀ relation, KeepsPins (insertRecords attrByteOffset relation)
  | [] => releases_pure ()
  | _ :: relation => (keepsPins_insertEntry _ _).bind fun _ => keepsPins_insertRecords attrByteOffset relation

theorem keepsPins_constructIndex (caps : Capacities) (relationName : String) (attrByteOffset : Int)
    (attrType : Datatype) (fileExists : Bool) (relation : List (RecordId × List UInt8)) :
    KeepsPins (constructIndex caps relationName attrByteOffset attrType fileExists relation) := by
  refine releases_setMembers ?_
  refine releases_ite ?_ ?_
  · refine releases_readPage fun _ => ?_
    dsimp only
    refine releases_ite ?_ ?_
    · exact releases_unPinPage_clean (releases_throw (by decide))
    · exact releases_setMembers releases_unPinPage_clean_last
  · refine releases_allocPage fun _ _ => releases_allocPage fun _ _ => releases_writeMeta (releases_writeLeaf ?_)
    refine Releases.of_subset ?_ (List.Perm.swap _ _ []).subset
    exact releases_unPinPage_dirty (releases_unPinPage_dirty (releases_setMembers (keepsPins_insertRecords _ _)))

theorem keepsPins_flushFile : KeepsPins flushFile := by
  intro s h
  unfold flushFile
  split <;> exact ⟨(holding_nil_iff _).1 h, by simp [raised]⟩

theorem keepsPins_destructIndex : KeepsPins destructIndex :=
  releases_members fun _ => KeepsPins.ite_bind keepsPins_endScan fun _ => keepsPins_flushFile

theorem keepsPins_call : ∀ c : Call, KeepsPins c.run
  | .insertEntry _ _ => (keepsPins_insertEntry _ _).bind fun _ => releases_pure _
  | .startScan _ _ _ _ => (keepsPins_startScan _ _ _ _).bind fun _ => releases_pure _
  | .scanNext => keepsPins_scanNext.bind fun _ => releases_pure _
  | .endScan => keepsPins_endScan.bind fun _ => releases_pure _

/-! ## Whole sessions -/

theorem startState_quiet (disk : Disk) (name : String) (garbage : BTreeIndex) (fresh : PageId → Page)
    (indeterminate : Int) : (startState disk name garbage fresh indeterminate).buf.Quiet :=
  ⟨fun _ => rfl, fun _ => rfl⟩

/-- A session of calls from a quiet state stays quiet and never sees `PageNotPinned`. -/
theorem runCalls_quiet : ∀ (calls : List Call) (s : Sys), s.buf.Quiet →
    (runCalls calls s).2.buf.Quiet ∧ .error .PageNotPinned ∉ (runCalls calls s).1
  | [], _, h => ⟨h, by simp [runCalls]⟩
  | c :: cs, s, h => by
    have hc := keepsPins_call c s ((holding_nil_iff _).2 h)
    obtain ⟨h1, h2⟩ := runCalls_quiet cs _ hc.1
    refine ⟨h1, ?_⟩
    simp only [runCalls, List.mem_cons, not_or]
    refine ⟨?_, h2⟩
    cases hr : c.run s <;> simp_all [outcome, raised, eq_comm]

/-- **The pin discipline.** Every call and the constructor, from a state with no pin held and no write unsettled,
end in such a state and never with `PageNotPinned`, so between two calls of a session no page is pinned. -/
theorem pins_released_by_every_call :
    (∀ c : Call, KeepsPins c.run) ∧
    ∀ (caps : Capacities) (relationName : String) (attrByteOffset : Int) (attrType : Datatype)
      (relation : List (RecordId × List UInt8)) (disk : Disk) (garbage : BTreeIndex) (fresh : PageId → Page)
      (indeterminate : Int) (calls : List Call),
      let name := indexName relationName attrByteOffset
      let r := constructIndex caps relationName attrByteOffset attrType (disk name).isSome relation
        (startState disk name garbage fresh indeterminate)
      (after r).buf.Quiet ∧ raised r ≠ some .PageNotPinned ∧
        (runCalls calls (after r)).2.buf.Quiet ∧ .error .PageNotPinned ∉ (runCalls calls (after r)).1 := by
  refine ⟨keepsPins_call, fun caps relationName attrByteOffset attrType relation disk garbage fresh ind calls => ?_⟩
  have h := keepsPins_constructIndex caps relationName attrByteOffset attrType
    (disk (indexName relationName attrByteOffset)).isSome relation _
    ((holding_nil_iff _).2 (startState_quiet disk (indexName relationName attrByteOffset) garbage fresh ind))
  exact ⟨h.1, h.2, runCalls_quiet calls _ h.1⟩

end BadgerBTree
