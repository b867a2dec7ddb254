import BadgerBTree.Insert

/-!
# What an insertion writes

`insertEntry` writes the leaf `searchEntry` reaches, the internal pages of the path to it, the pages it appends
and the header page, and no other page of the file; of the members it assigns only `rootPageNum` and
`onlyOneRoot`, the flag only ever cleared (`insertEntry_footprint`). So an insertion in the middle of a scan
leaves the scan's members as they were, and the pages off its path as they were.

`Footprint h ws x` says this of a stretch of code `x`, on an object whose header page is `h`: each call of the
buffer manager has a rule (`footprint_readPage`, `footprint_allocPage`, `footprint_writeLeaf`, …), in which an
appended page joins the pages `x` may write, and each method is then one pass over its code, as in `Pins`.
-/

namespace BadgerBTree

/-- `m'` is `m` with at most the root's members assigned, `onlyOneRoot` only ever cleared. -/
def RootOnly (m m' : BTreeIndex) : Prop :=
  ∃ (r : PageId) (b : Bool), m' = { m with rootPageNum := r, onlyOneRoot := b } ∧ (b = m.onlyOneRoot ∨ b = false)

namespace RootOnly

variable {m m' m'' : BTreeIndex}

theorem refl (m : BTreeIndex) : RootOnly m m := ⟨m.rootPageNum, m.onlyOneRoot, rfl, .inl rfl⟩

theorem trans (h₁ : RootOnly m m') (h₂ : RootOnly m' m'') : RootOnly m m'' := by
  obtain ⟨r, b, rfl, hb⟩ := h₁
  obtain ⟨r', b', rfl, hb'⟩ := h₂
  exact ⟨r', b', rfl, by rcases hb' with rfl | rfl <;> simp_all⟩

theorem headerPageNum (h : RootOnly m m') : m'.headerPageNum = m.headerPageNum := by
  obtain ⟨r, b, rfl, -⟩ := h
  rfl

end RootOnly

/-- `x`, run on an object whose header page is `h`, writes no page of the file outside `ws` (the pages it appends
apart) and assigns no member but the root's. -/
def Footprint {α : Type} (h : PageId) (ws : List PageId) (x : M α) : Prop :=
  ∀ s, s.idx.headerPageNum = h →
    RootOnly s.idx (after (x s)).idx ∧ s.buf.numPages ≤ (after (x s)).buf.numPages ∧
      ∀ q, q ≤ s.buf.numPages → q ∉ ws → (after (x s)).buf.file q = s.buf.file q

/-! ## One rule per call of the buffer manager -/

section Rules

variable {α β : Type} {h : PageId} {ws : List PageId}

/-- A step that keeps the members and the pages. -/
theorem footprint_of_frame {x : M α} (hx : ∀ s, (after (x s)).idx = s.idx ∧ (after (x s)).buf.file = s.buf.file ∧
    (after (x s)).buf.numPages = s.buf.numPages) : Footprint h ws x := fun s _ => by
  obtain ⟨h1, h2, h3⟩ := hx s
  exact ⟨h1 ▸ RootOnly.refl _, h3.ge, fun q _ _ => by rw [h2]⟩

theorem footprint_pure (a : α) : Footprint h ws (pure a : M α) :=
  footprint_of_frame fun _ => ⟨rfl, rfl, rfl⟩

theorem footprint_throw (e : BTreeException) : Footprint h ws (throw e : M α) :=
  footprint_of_frame fun _ => ⟨rfl, rfl, rfl⟩

theorem Footprint.mono {x : M α} {ws' : List PageId} (hx : Footprint h ws x) (hws : ws ⊆ ws') :
    Footprint h ws' x := fun s hs => by
  obtain ⟨h1, h2, h3⟩ := hx s hs
  exact ⟨h1, h2, fun q hq hq' => h3 q hq fun hm => hq' (hws hm)⟩

/-- Two stretches one after the other: what the first leaves the second starts from. -/
theorem Footprint.bind {x : M α} {f : α → M β} (hx : Footprint h ws x) (hf : ∀ a, Footprint h ws (f a)) :
    Footprint h ws (x >>= f) := by
  intro s hs
  have hx' := hx s hs
  cases hr : x s with
  | ok a s₁ =>
    rw [hr] at hx'
    obtain ⟨h1, h2, h3⟩ := hx'
    obtain ⟨g1, g2, g3⟩ := hf a s₁ (h1.headerPageNum.trans hs)
    rw [bind_ok hr]
    exact ⟨h1.trans g1, h2.trans g2, fun q hq hq' => (g3 q (hq.trans h2) hq').trans (h3 q hq hq')⟩
  | error e s₁ =>
    rw [hr] at hx'
    rw [bind_error hr]
    exact hx'

theorem footprint_ite {c : Prop} [Decidable c] {x y : M α} (hx : Footprint h ws x) (hy : Footprint h ws y) :
    Footprint h ws (if c then x else y) := by
  split <;> assumption

/-- Reading the members: the header page is still `h`. -/
theorem footprint_members {f : BTreeIndex → M β} (hf : ∀ m, m.headerPageNum = h → Footprint h ws (f m)) :
    Footprint h ws (members >>= f) :=
  fun s hs => hf s.idx hs s hs

/-- Assigning the members, the root's only. -/
theorem footprint_setMembers {g : BTreeIndex → BTreeIndex} {f : Unit → M β} (hg : ∀ m, RootOnly m (g m))
    (hf : Footprint h ws (f ())) : Footprint h ws (setMembers g >>= f) :=
  (show Footprint h ws (setMembers g) from fun s _ => ⟨hg s.idx, le_rfl, fun _ _ _ => rfl⟩).bind fun _ => hf

theorem footprint_indeterminateInt {f : Int → M β} (hf : ∀ v, Footprint h ws (f v)) :
    Footprint h ws (indeterminateInt >>= f) := fun s hs => hf s.indeterminate s hs

theorem footprint_readPage {p : PageId} : Footprint h ws (readPage p) := by
  refine footprint_of_frame fun s => ?_
  unfold readPage
  split <;> exact ⟨rfl, rfl, rfl⟩

theorem footprint_unPinPage {p : PageId} {d : Bool} : Footprint h ws (unPinPage p d) := by
  refine footprint_of_frame fun s => ?_
  unfold unPinPage
  split <;> exact ⟨rfl, rfl, rfl⟩

/-- `allocPage` appends a page, which the rest may write. -/
theorem footprint_allocPage {f : PageId × Page → M β} (hf : ∀ q pg, Footprint h (q :: ws) (f (q, pg))) :
    Footprint h ws (allocPage >>= f) := by
  intro s hs
  obtain ⟨h1, h2, h3⟩ := hf _ _ { s with buf := s.buf.alloc } hs
  refine ⟨h1, Nat.le_of_succ_le h2, fun q hq hq' => ?_⟩
  have hne : q ≠ s.buf.numPages + 1 := Nat.ne_of_lt (Nat.lt_succ_of_le hq)
  refine (h3 q (Nat.le_succ_of_le hq) (List.mem_cons.not.2 (not_or.2 ⟨hne, hq'⟩))).trans ?_
  simp [allocPage, Function.update_noteq hne]

/-- A write to a page of `ws`. -/
theorem footprint_write {p : PageId} {pg : Page → Page} (hp : p ∈ ws) :
    Footprint h ws (fun s => .ok () { s with buf := s.buf.write p (pg (s.buf.file p)) } : M Unit) := fun _ _ =>
  ⟨RootOnly.refl _, le_rfl, fun q _ hq => Function.update_noteq (fun he : q = p => hq (he ▸ hp)) _ _⟩

theorem footprint_writeLeaf {p : PageId} {n : LeafNodeInt} (hp : p ∈ ws) : Footprint h ws (writeLeaf p n) :=
  @footprint_write h ws p (fun pg => { pg with leaf := n }) hp

theorem footprint_writeNode {p : PageId} {n : NonLeafNodeInt} (hp : p ∈ ws) : Footprint h ws (writeNode p n) :=
  @footprint_write h ws p (fun pg => { pg with node := n }) hp

theorem footprint_writeMeta {p : PageId} {m : IndexMetaInfo} (hp : p ∈ ws) : Footprint h ws (writeMeta p m) :=
  @footprint_write h ws p (fun pg => { pg with meta := m }) hp

end Rules

/-! ## The methods of the insertion path -/

section Methods

variable {h : PageId} {ws : List PageId}

/-- The descent reads pages and writes none. -/
theorem footprint_searchEntry (key : Int) :
    ∀ fuel root visitedNodes, Footprint h ws (searchEntry key fuel root visitedNodes)
  | fuel, root, visitedNodes => by
    unfold searchEntry
    refine footprint_members fun m _ => footprint_ite (footprint_pure _) ?_
    rw [pure_bind]
    cases fuel with
    | zero => exact footprint_throw _
    | succ fuel =>
      refine footprint_readPage.bind fun pg => ?_
      exact footprint_ite (footprint_unPinPage.bind fun _ => footprint_searchEntry key fuel _ _)
        (footprint_unPinPage.bind fun _ => footprint_pure _)

/-- The new roots write the page they append and the header. -/
theorem footprint_newRootOfLeaf (hh : h ∈ ws) (pageNo : PageId) (k : Int) (c : PageId) :
    Footprint h ws (newRootOfLeaf pageNo k c) := by
  refine footprint_allocPage fun q pg => ?_
  refine (footprint_writeNode (List.mem_cons_self q ws)).bind fun _ => footprint_unPinPage.bind fun _ => ?_
  refine footprint_setMembers (fun m => ⟨_, false, rfl, .inr rfl⟩) (footprint_members fun m hm => ?_)
  refine footprint_readPage.bind fun _ => (footprint_writeMeta ?_).bind fun _ => footprint_unPinPage
  exact List.mem_cons_of_mem q (hm ▸ hh)

theorem footprint_newRootOfInternal (hh : h ∈ ws) (pageNo : PageId) (k : Int) (c : PageId) :
    Footprint h ws (newRootOfInternal pageNo k c) := by
  refine footprint_allocPage fun q pg => ?_
  refine (footprint_writeNode (List.mem_cons_self q ws)).bind fun _ => footprint_unPinPage.bind fun _ => ?_
  refine footprint_setMembers (fun m => ⟨_, m.onlyOneRoot, rfl, .inl rfl⟩) (footprint_members fun m hm => ?_)
  refine footprint_readPage.bind fun _ => (footprint_writeMeta ?_).bind fun _ => footprint_unPinPage
  exact List.mem_cons_of_mem q (hm ▸ hh)

/-- `splitInternal` writes the node it splits and the page it appends, then hands over to `up`. -/
theorem footprint_splitInternal {up : Int → PageId → M Unit} (hup : ∀ k c, Footprint h ws (up k c)) (key : Int)
    {pageNo : PageId} (hp : pageNo ∈ ws) (newPageNo : PageId) (splitFromLeaf : Bool) :
    Footprint h ws (splitInternal up key pageNo newPageNo splitFromLeaf) := by
  refine footprint_readPage.bind fun _ => footprint_allocPage fun q _ => ?_
  refine footprint_members fun _ _ => footprint_indeterminateInt fun _ => ?_
  exact (footprint_writeNode (List.mem_cons_of_mem q hp)).bind fun _ => footprint_unPinPage.bind fun _ =>
    (footprint_writeNode (List.mem_cons_self q ws)).bind fun _ => footprint_unPinPage.bind fun _ =>
      (hup _ _).mono (List.subset_cons_self q ws)

theorem footprint_insertEntryInternalWith {up : Int → PageId → M Unit} (hup : ∀ k c, Footprint h ws (up k c))
    (key : Int) {pageNo : PageId} (hp : pageNo ∈ ws) (newPageNo : PageId) (splitFromLeaf : Bool) :
    Footprint h ws (insertEntryInternalWith up key pageNo newPageNo splitFromLeaf) := by
  refine footprint_readPage.bind fun _ => footprint_members fun _ _ => footprint_ite ?_ ?_
  · exact footprint_unPinPage.bind fun _ => footprint_splitInternal hup key hp newPageNo splitFromLeaf
  · exact (footprint_writeNode hp).bind fun _ => footprint_unPinPage

/-- The propagation up the path writes the nodes of the path, the pages it appends and the header. -/
theorem footprint_insertEntryInternal (hh : h ∈ ws) :
    ∀ key pageNo newPageNo visitedNodes splitFromLeaf, pageNo ∈ ws → (∀ v ∈ visitedNodes, v ∈ ws) →
      Footprint h ws (insertEntryInternal key pageNo newPageNo visitedNodes splitFromLeaf)
  | key, pageNo, newPageNo, [], splitFromLeaf, hp, _ =>
    footprint_insertEntryInternalWith (footprint_newRootOfInternal hh pageNo) key hp newPageNo splitFromLeaf
  | key, _, newPageNo, parent :: visitedNodes, splitFromLeaf, hp, hv =>
    footprint_insertEntryInternalWith
      (fun _ _ => footprint_insertEntryInternal hh _ _ _ visitedNodes _ (hv parent (List.mem_cons_self _ _))
        fun v hv' => hv v (List.mem_cons_of_mem _ hv'))
      key hp newPageNo splitFromLeaf

theorem footprint_splitLeaf (hh : h ∈ ws) (key : Int) (rid : RecordId) {pageNo : PageId}
    {visitedNodes : List PageId} (hp : pageNo ∈ ws) (hv : ∀ v ∈ visitedNodes, v ∈ ws) :
    Footprint h ws (splitLeaf key rid pageNo visitedNodes) := by
  refine footprint_readPage.bind fun _ => footprint_allocPage fun q _ => footprint_members fun _ _ => ?_
  refine (footprint_writeLeaf (List.mem_cons_of_mem q hp)).bind fun _ => footprint_unPinPage.bind fun _ =>
    (footprint_writeLeaf (List.mem_cons_self q ws)).bind fun _ => footprint_unPinPage.bind fun _ => ?_
  cases visitedNodes with
  | nil => exact footprint_newRootOfLeaf (List.mem_cons_of_mem q hh) _ _ _
  | cons parent visitedNodes =>
    exact footprint_insertEntryInternal (List.mem_cons_of_mem q hh) _ _ _ _ _
      (List.mem_cons_of_mem q (hv parent (List.mem_cons_self _ _)))
      fun v hv' => List.mem_cons_of_mem q (hv v (List.mem_cons_of_mem _ hv'))

theorem footprint_insertEntryLeaf (hh : h ∈ ws) (key : Int) (rid : RecordId) {pageNo : PageId}
    {visitedNodes : List PageId} (hp : pageNo ∈ ws) (hv : ∀ v ∈ visitedNodes, v ∈ ws) :
    Footprint h ws (insertEntryLeaf key rid pageNo visitedNodes) := by
  refine footprint_readPage.bind fun _ => footprint_members fun _ _ => footprint_ite ?_ ?_
  · exact footprint_unPinPage.bind fun _ => footprint_splitLeaf hh key rid hp hv
  · exact (footprint_writeLeaf hp).bind fun _ => footprint_unPinPage

end Methods

/-- **What an insertion writes.** Only the leaf `l`, the pages of the path `ps`, the header and appended pages; of
the members only `rootPageNum` and `onlyOneRoot`, which it only clears, so a scan's members are kept. -/
theorem insertEntry_footprint (key : Int) (rid : RecordId) (s : Sys) {l : PageId} {ps : List PageId} {s₁ : Sys}
    (hsearch : searchEntry key s.buf.numPages s.idx.rootPageNum [] s = .ok (l, ps) s₁) :
    RootOnly s.idx (after (insertEntry key rid s)).idx ∧ s.buf.numPages ≤ (after (insertEntry key rid s)).buf.numPages ∧
      ∀ q, q ≤ s.buf.numPages → q ≠ l → q ∉ ps → q ≠ s.idx.headerPageNum →
        (after (insertEntry key rid s)).buf.file q = s.buf.file q := by
  have hins : insertEntry key rid s = insertEntryLeaf key rid l ps s₁ := by
    unfold insertEntry
    simp only [searchFuel_bind, members_bind]
    exact bind_ok hsearch
  have hs₁ := @footprint_searchEntry s.idx.headerPageNum [] key s.buf.numPages s.idx.rootPageNum [] s rfl
  rw [hsearch] at hs₁
  obtain ⟨h1, h2, h3⟩ := hs₁
  obtain ⟨g1, g2, g3⟩ := @footprint_insertEntryLeaf s.idx.headerPageNum (s.idx.headerPageNum :: l :: ps)
    (List.mem_cons_self _ _) key rid l ps (List.mem_cons_of_mem _ (List.mem_cons_self _ _))
    (fun v hv => List.mem_cons_of_mem _ (List.mem_cons_of_mem _ hv)) s₁ h1.headerPageNum
  rw [hins]
  refine ⟨h1.trans g1, h2.trans g2, fun q hq hl hps hh => ?_⟩
  refine (g3 q (hq.trans h2) ?_).trans (h3 q hq (List.not_mem_nil q))
  simp only [List.mem_cons, not_or]
  exact ⟨hh, hl, hps⟩

/-- The theorem at `sample`, inserting `7`: the descent reaches the full leaf 4 under the root 2, so the insertion
splits it; the leaf 3 and the header page 1 are off the path. -/
theorem insertEntry_footprint_sample :
    searchEntry 7 sample.buf.numPages sample.idx.rootPageNum [] sample = .ok (4, [2]) sample ∧
    RootOnly sample.idx (after (insertEntry 7 ⟨1, 7⟩ sample)).idx ∧
      sample.buf.numPages ≤ (after (insertEntry 7 ⟨1, 7⟩ sample)).buf.numPages ∧
      ∀ q, q ≤ sample.buf.numPages → q ≠ 4 → q ∉ [2] → q ≠ sample.idx.headerPageNum →
        (after (insertEntry 7 ⟨1, 7⟩ sample)).buf.file q = sample.buf.file q :=
  have hsearch : searchEntry 7 sample.buf.numPages sample.idx.rootPageNum [] sample = .ok (4, [2]) sample := by
    change searchEntry 7 (3 + 1) 2 [] sample = _
    rw [searchEntry_node rfl (by decide)]
    rfl
  ⟨hsearch, insertEntry_footprint 7 ⟨1, 7⟩ sample hsearch⟩

end BadgerBTree
