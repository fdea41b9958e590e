import Comus.Lib.Run
import Comus.Memory.VirtList

/-!
# Runs of the virtual address allocator

`virtaddr_init` establishes the invariant when the kernel's reservation is
positive. As long as the node pool does not grow, every sequence of requests
keeps it, whatever the kernel heap does: such a run is also a run with a kernel
heap that delivers nothing.
-/

namespace Comus.VirtAlloc

open Word Chain Tiling Run Option List

variable {k : Kalloc} {v w : Virt} {xs : List Ptr} {p node : Ptr} {virt upper : Nat}
variable {n : Int} {r kernelEnd fuel : Nat}

def noKalloc : Kalloc where
  kalloc _ _ := none
  kfree _ _ := none

theorem noKalloc_lawful : noKalloc.Lawful where
  ctx_kalloc _ _ _ _ h := by simp [noKalloc] at h
  fresh _ _ _ _ h := by simp [noKalloc] at h
  zeroed _ _ _ _ h := by simp [noKalloc] at h
  heap_kalloc _ _ _ _ h := by simp [noKalloc] at h
  ctx_kfree _ _ _ h := by simp [noKalloc] at h
  heap_kfree _ _ _ h := by simp [noKalloc] at h

theorem takeNode_count (h : takeNode v = some (p, w)) : w.ctx.allocNodeCount = v.ctx.allocNodeCount := by
  rw [takeNode_ctx h]

theorem growNodes_count (h : growNodes k v = some w) : 8 ≤ w.ctx.allocNodeCount := by
  unfold growNodes at h
  cases hk : k.kalloc { v with ctx := { v.ctx with isAllocating := true } } (grownCount v.ctx) with
  | none => simp [hk] at h
  | some r =>
    simp only [hk] at h
    obtain ⟨u, -, rfl⟩ := map_eq_some_iff.mp h
    exact grownCount_ge v.ctx

theorem getNode_noKalloc (h : getNode k v = some (p, w)) (hw : w.ctx.allocNodeCount = 0) :
    getNode noKalloc v = some (p, w) ∧ v.ctx.allocNodeCount = 0 := by
  unfold getNode at h ⊢
  split_ifs at h ⊢ with hmust
  · obtain ⟨u, hu, ht⟩ := bind_eq_some_iff.mp h
    have h1 := growNodes_count hu
    have h2 := takeNode_count ht
    omega
  · exact ⟨h, (takeNode_count h).symm.trans hw⟩

theorem splitLeft_noKalloc (h : splitLeft k v node virt = some w) (hw : w.ctx.allocNodeCount = 0) :
    splitLeft noKalloc v node virt = some w ∧ v.ctx.allocNodeCount = 0 := by
  unfold splitLeft at h ⊢
  split_ifs at h ⊢ with hlt
  · obtain ⟨⟨l, u⟩, hg, rfl⟩ := map_eq_some_iff.mp h
    obtain ⟨h1, h2⟩ := getNode_noKalloc hg hw
    exact ⟨map_eq_some_iff.mpr ⟨_, h1, rfl⟩, h2⟩
  · cases h
    exact ⟨rfl, hw⟩

theorem splitRight_noKalloc (h : splitRight k v node upper = some w) (hw : w.ctx.allocNodeCount = 0) :
    splitRight noKalloc v node upper = some w ∧ v.ctx.allocNodeCount = 0 := by
  unfold splitRight at h ⊢
  split_ifs at h ⊢ with hlt
  · obtain ⟨⟨r, u⟩, hg, rfl⟩ := map_eq_some_iff.mp h
    obtain ⟨h1, h2⟩ := getNode_noKalloc hg hw
    exact ⟨map_eq_some_iff.mpr ⟨_, h1, rfl⟩, h2⟩
  · cases h
    exact ⟨rfl, hw⟩

theorem virtaddrTake_noKalloc (h : virtaddrTake k v virt n = some (r, w)) (hw : w.ctx.allocNodeCount = 0) :
    virtaddrTake noKalloc v virt n = some (r, w) ∧ v.ctx.allocNodeCount = 0 := by
  unfold virtaddrTake at h ⊢
  split_ifs at h ⊢ with hn
  · cases h
    exact ⟨rfl, hw⟩
  · obtain ⟨found, hfind, h⟩ := bind_eq_some_iff.mp h
    rw [hfind, bind_some]
    cases found with
    | none =>
      cases h
      exact ⟨rfl, hw⟩
    | some node =>
      obtain ⟨v1, hleft, h⟩ := bind_eq_some_iff.mp h
      obtain ⟨v2, hright, h⟩ := map_eq_some_iff.mp h
      cases h
      obtain ⟨h1, h2⟩ := splitRight_noKalloc hright hw
      obtain ⟨h3, h4⟩ := splitLeft_noKalloc hleft h2
      simp only [h3, bind_some, h1, map_some]
      exact ⟨trivial, h4⟩

theorem InPool.boot {c : Ctx} (h : InPool c p) (hc : c.allocNodeCount = 0) : p.arr = c.boot := by
  rcases h with h | h
  · exact h.1
  · have := h.2
    omega

theorem getNode_noKalloc_count (h : getNode noKalloc v = some (p, w)) :
    w.ctx.allocNodeCount = v.ctx.allocNodeCount := by
  unfold getNode at h
  split_ifs at h with hmust
  · simp [growNodes, noKalloc] at h
  · exact takeNode_count h

theorem Links.growthOk_noKalloc (h : Links v xs) (hv : v.ctx.allocNodeCount = 0) :
    GrowthOk noKalloc v.ctx xs := fun _ =>
  ⟨noKalloc_lawful, fun p hp => ((h.used p).mp hp).1.boot hv⟩

theorem Valid.take_noGrowth (h : Valid v xs) (hr : Request virt n)
    (ht : virtaddrTake k v virt n = some (r, w)) (hw : w.ctx.allocNodeCount = 0) :
    ∃ ys, Valid w ys := by
  obtain ⟨ht', hv⟩ := virtaddrTake_noKalloc ht hw
  have hok := h.links.growthOk_noKalloc hv
  have hnext : GrowthOkNext noKalloc v xs := by
    intro l u hg ys hys _
    have hf := h.links.getNode_fresh hok hg
    have hu := (getNode_noKalloc_count hg).trans hv
    exact ⟨noKalloc_lawful, fun y hy => ((hf.used y).mp (hys y hy)).1.boot hu⟩
  rcases h.take hr hok hnext ht' with ⟨-, rfl, -⟩ | ⟨-, -, ys, hys, -⟩
  · exact ⟨xs, h⟩
  · exact ⟨ys, hys⟩

/-- The request does not fail; it returns at once if the pool need not grow. -/
structure Accepts (k : Kalloc) (v : Virt) (virt : Nat) (n : Int) : Prop where
  result : ∀ r w, virtaddrTake k v virt n = some (r, w) → r = 0
  returns : v.ctx.usedNodeCount + 17 < 256 + v.ctx.allocNodeCount →
    ∃ w, virtaddrTake k v virt n = some (0, w)

theorem Valid.accepts (h : Valid v xs) (hr : Request virt n)
    (hfree : FreeRange (blocks v xs) virt (requestEnd virt n)) : Accepts k v virt n := by
  refine ⟨fun r w ht => ?_, h.take_isSome hr hfree⟩
  have hpos := hr.pos
  rcases h.find hr with ⟨hno, -⟩ | ⟨-, as, x, node, bs, -, hfind, -⟩
  · exact absurd hfree hno
  · rw [virtaddrTake, if_neg (by omega), hfind, bind_some] at ht
    obtain ⟨v1, -, ht⟩ := bind_eq_some_iff.mp ht
    obtain ⟨v2, -, ht⟩ := map_eq_some_iff.mp ht
    exact (Prod.mk.inj ht).1.symm

theorem Valid.bounds (h : Valid v xs) (hp : p ∈ xs) :
    (v.heap p).start < (v.heap p).stop ∧ (v.heap p).stop ≤ addressEnd :=
  (h.tiles.bounds (b := block v.heap p) (List.mem_map_of_mem hp)).2

theorem Valid.alloc {a : Nat} (h : Valid v xs) (h1 : 1 ≤ n) (h2 : n < 2^19)
    (ha : virtaddrAlloc v n = some a) (hne : a ≠ 0) :
    Request a n ∧ FreeRange (blocks v xs) a (requestEnd a n) := by
  rw [virtaddrAlloc, if_neg (by omega), nLength_eq h1 h2] at ha
  obtain ⟨found, hfind, ha⟩ := map_eq_some_iff.mp ha
  rcases h.links.findNode_cases (fun n' => n'.isAlloc ||
      decide (toI64 ((n'.stop : Int) - (n'.start : Int)) < 4096 * n)) with
    ⟨hnone, -⟩ | ⟨as, node, bs, rfl, hsome, hskip⟩
  · rw [hnone] at hfind
    cases hfind
    exact absurd ha.symm hne
  · rw [hsome] at hfind
    cases hfind
    obtain ⟨hb1, hb2⟩ := h.bounds (p := node) (by simp)
    have hend : addressEnd = 2^48 := by norm_num [addressEnd]
    rw [hend] at hb2
    rw [toI64_of_lt (by omega) (by omega)] at hskip
    simp only [Bool.or_eq_false_iff, decide_eq_false_iff_not, not_lt] at hskip
    obtain rfl : (v.heap node).start = a := ha
    have hreq : Request (v.heap node).start n := ⟨h1, h2, by rw [hend]; omega⟩
    refine ⟨hreq, (freeRange_iff h.tiles h.coalesced (Nat.zero_le _) hreq.lt_end.1
      hreq.lt_end.2).mpr ⟨block v.heap node, by simp [blocks], hskip.1, le_rfl, ?_⟩⟩
    simp only [requestEnd, block]
    omega

structure PositiveReservation (kernelEnd : Nat) : Prop where
  pages : 1 ≤ reservedPages kernelEnd
  length : 0 < nLength (reservedPages kernelEnd)

theorem emptyVirt_links (h : Heap) (boot : Nat) : Links (emptyVirt h boot) [⟨boot, 0⟩] := by
  have hnode : ∀ p : Ptr, p.arr = boot → p.idx < 256 → (emptyVirt h boot).heap p =
      if p.idx = 0 then ⟨0, addressEnd, none, none, false, true⟩ else zeroNode := fun p h1 h2 => by
    exact if_pos ⟨h1, h2⟩
  have h0 := hnode ⟨boot, 0⟩ rfl (by simp)
  rw [if_pos rfl] at h0
  refine ⟨⟨⟨rfl, ?_⟩, ?_, trivial⟩, fun p => ?_, rfl, ⟨?_, fun _ => rfl, ?_, rfl, rfl⟩, rfl⟩
  · rw [nextOf, h0]
    rfl
  · rw [prevOf, h0]
  · constructor
    · intro hp
      obtain rfl : p = ⟨boot, 0⟩ := by simpa using hp
      exact ⟨.inl ⟨rfl, by simp⟩, by rw [h0]⟩
    · rintro ⟨h1 | h1, hused⟩
      · rw [hnode p h1.1 h1.2] at hused
        split_ifs at hused with hidx
        · obtain ⟨arr, i⟩ := p
          obtain rfl : arr = boot := h1.1
          obtain rfl : i = 0 := hidx
          simp
        · simp [zeroNode] at hused
      · exact absurd h1.1 (by simp [emptyVirt])
  · simp [emptyVirt]
  · simp [emptyVirt]

theorem nLength_lt (n : Int) : nLength n < 2^31 := by
  unfold nLength toI32
  split_ifs <;> omega

theorem emptyVirt_node (h : Heap) (boot : Nat) :
    (emptyVirt h boot).heap ⟨boot, 0⟩ = ⟨0, addressEnd, none, none, false, true⟩ := by
  simp [emptyVirt, BOOTSTRAP_VIRT_ALLOC_NODES]

theorem emptyVirt_findNode (h : Heap) (boot : Nat) :
    findNode (emptyVirt h boot) (takeSkips 0 n) =
      some (if toU64 ((0 : Nat) + nLength n) ≤ addressEnd then some ⟨boot, 0⟩ else none) := by
  have hl := emptyVirt_links h boot
  rw [hl.findNode_eq]
  split_ifs with hend
  · rw [dropWhile_cons_of_neg]
    · rfl
    · rw [emptyVirt_node]
      simpa [takeSkips] using hend
  · rw [dropWhile_cons_of_pos]
    · rfl
    · rw [emptyVirt_node]
      simpa [takeSkips] using hend

theorem toU64_nLength (h : 0 ≤ nLength n) :
    toU64 ((0 : Nat) + nLength n) = (nLength n).toNat ∧ (nLength n).toNat < addressEnd := by
  have hlt := nLength_lt n
  constructor
  · rw [toU64_of_nonneg (by omega) (by omega)]
    simp
  · unfold addressEnd
    omega

theorem virtaddrInit_blocks {h : Heap} {boot : Nat} (hpages : 1 ≤ reservedPages kernelEnd)
    (hlength : 0 ≤ nLength (reservedPages kernelEnd)) (hinit : virtaddrInit k h boot kernelEnd = some v) :
    ∃ xs, Links v xs ∧ blocks v xs =
      [⟨0, (nLength (reservedPages kernelEnd)).toNat, true⟩,
        ⟨(nLength (reservedPages kernelEnd)).toNat, addressEnd, false⟩] := by
  unfold virtaddrInit at hinit
  generalize reservedPages kernelEnd = n at hpages hlength hinit ⊢
  have hl : Links (emptyVirt h boot) ([] ++ [⟨boot, 0⟩]) := emptyVirt_links h boot
  obtain ⟨hend, hbig⟩ := toU64_nLength hlength
  have h0 := emptyVirt_node h boot
  obtain ⟨⟨r, w⟩, ht, rfl⟩ := map_eq_some_iff.mp hinit
  rw [virtaddrTake, if_neg (by omega), emptyVirt_findNode, hend, if_pos hbig.le, bind_some] at ht
  obtain ⟨v1, hleft, ht⟩ := bind_eq_some_iff.mp ht
  obtain ⟨v2, hright, ht⟩ := map_eq_some_iff.mp ht
  cases ht
  rw [splitLeft, if_neg (by simp)] at hleft
  cases hleft
  have hok : GrowthOk k (emptyVirt h boot).ctx ([] ++ [⟨boot, 0⟩]) := fun hm => by
    rw [hl.mustGrow_eq] at hm
    exact absurd hm (by simp [emptyVirt])
  obtain ⟨rs, hl2, hbr, hsame⟩ := Links.splitRight_all hl hok hright
  rw [h0, if_pos hbig] at hbr
  refine ⟨[] ++ ⟨boot, 0⟩ :: (rs ++ []), hl2.modify_data ?_ _, ?_⟩
  · exact fun d => ⟨rfl, rfl, rfl⟩
  · rw [blocks_modify hl2.list.nodup, append_nil, hbr, block, modify_apply, if_pos rfl]
    rfl

theorem virtaddrInit_isSome (h : Heap) (boot kernelEnd : Nat) : ∃ v, virtaddrInit k h boot kernelEnd = some v := by
  suffices ∃ r w, virtaddrTake k (emptyVirt h boot) 0 (reservedPages kernelEnd) = some (r, w) by
    obtain ⟨r, w, ht⟩ := this
    exact ⟨w, by rw [virtaddrInit, ht, map_some]⟩
  generalize reservedPages kernelEnd = n
  have hfind := emptyVirt_findNode h boot (n := n)
  by_cases hn : n < 1
  · exact ⟨0, _, by rw [virtaddrTake, if_pos hn]⟩
  by_cases hend : toU64 ((0 : Nat) + nLength n) ≤ addressEnd
  · rw [if_pos hend] at hfind
    have hleft : splitLeft k (emptyVirt h boot) ⟨boot, 0⟩ 0 = some (emptyVirt h boot) := by
      rw [splitLeft, if_neg (by simp)]
    obtain ⟨p, w, hg, -⟩ := (emptyVirt_links h boot).getNode_isSome (k := k) (by simp [emptyVirt])
    obtain ⟨u, hright⟩ := splitRight_isSome _ _ ⟨p, w, hg⟩
    exact ⟨0, virtaddrTake_found (by omega) hfind hleft hright⟩
  · rw [if_neg hend] at hfind
    exact ⟨1, _, by rw [virtaddrTake, if_neg hn, hfind, bind_some]⟩

theorem virtaddrInit_valid {h : Heap} {boot : Nat} (hpos : PositiveReservation kernelEnd)
    (hinit : virtaddrInit k h boot kernelEnd = some v) : ∃ xs, Valid v xs := by
  have hlength := hpos.length
  obtain ⟨xs, hl, hb⟩ := virtaddrInit_blocks hpos.pages hlength.le hinit
  have hlt := nLength_lt (reservedPages kernelEnd)
  refine ⟨xs, hl, ?_, ?_, ?_⟩
  · rw [hb]
    refine ⟨rfl, ?_, rfl, ?_, rfl⟩
    · simp only
      omega
    · simp only [addressEnd]
      omega
  · rw [hb]
    simp [Coalesced]
  · rw [hb]
    simp

/-- `allocTake` is `virtaddr_alloc` and, if it returns an address, `virtaddr_take` of it. -/
inductive Op where
  | take (virt : Nat) (n : Int)
  | allocTake (n : Int)
  | free (virt : Nat)
  deriving Repr, DecidableEq

def step (k : Kalloc) (v : Virt) : Op → Option Virt
  | .take virt n => (virtaddrTake k v virt n).map Prod.snd
  | .allocTake n => (virtaddrAlloc v n).bind fun a =>
      if a = 0 then some v else (virtaddrTake k v a n).map Prod.snd
  | .free virt => (virtaddrFree v virt).map Prod.snd

/-- The requests of a run lie in the address space and have fewer than `2 ^ 19` pages. -/
def Requested (_ : Virt) : Op → Prop
  | .take virt n => Request virt n
  | .allocTake n => 1 ≤ n ∧ n < 2^19
  | .free _ => True

theorem mergeBackLoop_count {prev : Option Ptr} (h : mergeBackLoop fuel v node prev = some w) :
    w.ctx.allocNodeCount = v.ctx.allocNodeCount := by
  induction fuel generalizing v prev with
  | zero => simp [mergeBackLoop] at h
  | succ fuel ih =>
    cases prev with
    | none => rw [some.inj h]
    | some q =>
      rw [mergeBackLoop] at h
      split_ifs at h
      · rw [some.inj h]
      · rw [ih h, absorbPrev_ctx]

theorem mergeForwardLoop_count {next : Option Ptr} (h : mergeForwardLoop fuel v node next = some w) :
    w.ctx.allocNodeCount = v.ctx.allocNodeCount := by
  induction fuel generalizing v next with
  | zero => simp [mergeForwardLoop] at h
  | succ fuel ih =>
    cases next with
    | none => rw [some.inj h]
    | some q =>
      rw [mergeForwardLoop] at h
      split_ifs at h
      · rw [some.inj h]
      · rw [ih h, absorbNext_ctx]

theorem virtaddrFree_count {r : Int} (h : virtaddrFree v virt = some (r, w)) :
    w.ctx.allocNodeCount = v.ctx.allocNodeCount := by
  unfold virtaddrFree at h
  split_ifs at h
  · rw [(Prod.mk.inj (some.inj h)).2]
  · rw [(Prod.mk.inj (some.inj h)).2]
  obtain ⟨found, -, h⟩ := bind_eq_some_iff.mp h
  cases found with
  | none => rw [(Prod.mk.inj (some.inj h)).2]
  | some node =>
    obtain ⟨v1, hback, hrest⟩ := bind_eq_some_iff.mp h
    obtain ⟨v2, hfwd, heq⟩ := map_eq_some_iff.mp hrest
    obtain ⟨v0, hloop, rfl⟩ := map_eq_some_iff.mp hback
    rw [← (Prod.mk.inj heq).2, mergeForwardLoop_count hfwd]
    have h0 := mergeBackLoop_count hloop
    split_ifs
    · exact h0
    · exact h0

theorem step_noGrowth {op : Op} (h : v.ctx.allocNodeCount = 0 → ∃ xs, Valid v xs)
    (hreq : Requested v op) (hs : step k v op = some w) (hw : w.ctx.allocNodeCount = 0) :
    ∃ xs, Valid w xs := by
  have htake : ∀ {virt : Nat} {n : Int}, (∀ xs, Valid v xs → Request virt n) →
      (virtaddrTake k v virt n).map Prod.snd = some w → ∃ xs, Valid w xs := by
    intro virt n hreq ht
    obtain ⟨⟨r, w'⟩, ht', rfl⟩ := map_eq_some_iff.mp ht
    obtain ⟨xs, hv⟩ := h (virtaddrTake_noKalloc ht' hw).2
    exact hv.take_noGrowth (hreq xs hv) ht' hw
  cases op with
  | take virt n => exact htake (fun _ _ => hreq) hs
  | allocTake n =>
    obtain ⟨a, ha, hs⟩ := bind_eq_some_iff.mp hs
    split_ifs at hs with hzero
    · cases hs
      exact h hw
    · exact htake (fun xs hv => (hv.alloc hreq.1 hreq.2 ha hzero).1) hs
  | free virt =>
    obtain ⟨⟨r, w'⟩, hf, rfl⟩ := map_eq_some_iff.mp hs
    obtain ⟨xs, hvalid⟩ := h ((virtaddrFree_count hf).symm.trans hw)
    obtain ⟨r', w'', ys, hf', hvalid', -⟩ := hvalid.free virt
    rw [hf] at hf'
    cases hf'
    exact ⟨ys, hvalid'⟩

structure Ordered (v : Virt) (xs : List Ptr) : Prop where
  forward : Seg (nextOf v.heap) v.ctx.startNode xs none
  used : ∀ p, p ∈ xs ↔ InPool v.ctx p ∧ (v.heap p).isUsed = true
  increasing : xs.Pairwise fun p q => (v.heap p).start < (v.heap q).start
  tiles : Tiles 0 (blocks v xs) addressEnd
  first : ∀ p, xs.head? = some p → (v.heap p).prev = none
  inverse : ∀ p ∈ xs, ∀ q ∈ xs, (v.heap p).next = some q ↔ (v.heap q).prev = some p
  coalesced : Coalesced (blocks v xs)

theorem Valid.ordered (h : Valid v xs) : Ordered v xs where
  forward := h.links.list.fwd
  used := h.links.used
  increasing := by
    have hsorted := pairwise_map.mp h.tiles.sorted
    refine hsorted.imp_of_mem fun {p q} hp _ hpq => ?_
    have := h.bounds hp
    simp only [block] at hpq
    omega
  tiles := h.tiles
  first p hp := by
    obtain ⟨cs, rfl⟩ := head?_eq_some_iff.mp hp
    exact h.links.list.back.1
  inverse p hp q hq := h.links.list.prev_iff_next hp hq
  coalesced := h.coalesced

theorem run_valid {h : Heap} {boot : Nat} {v0 : Virt} (hpos : PositiveReservation kernelEnd)
    (hinit : virtaddrInit k h boot kernelEnd = some v0) (hrun : Reach (step k) Requested v0 v) :
    v.ctx.allocNodeCount = 0 → ∃ xs, Valid v xs :=
  hrun.invariant (fun _ => virtaddrInit_valid hpos hinit)
    fun _ _ _ hs hreq hstep hw => step_noGrowth hs hreq hstep hw

/-- In every state of a run that does not grow the node pool the block list is in order, a
request succeeds exactly when no allocated block meets its range, and what `virtaddr_alloc`
returns can be taken. -/
theorem run_ordered {h : Heap} {boot kernelEnd : Nat} {v0 : Virt}
    (hpos : PositiveReservation kernelEnd) (hinit : virtaddrInit k h boot kernelEnd = some v0)
    (hrun : Reach (step k) Requested v0 v) (hgrow : v.ctx.allocNodeCount = 0) :
    ∃ xs, Ordered v xs ∧
      (∀ virt n, Request virt n →
        (FreeRange (blocks v xs) virt (requestEnd virt n) → Accepts k v virt n) ∧
        (¬ FreeRange (blocks v xs) virt (requestEnd virt n) →
          virtaddrTake k v virt n = some (1, v))) ∧
      ∀ n a, 1 ≤ n → n < 2^19 → virtaddrAlloc v n = some a → a ≠ 0 → Accepts k v a n := by
  obtain ⟨xs, hv⟩ := run_valid hpos hinit hrun hgrow
  refine ⟨xs, hv.ordered, fun virt n hr => ⟨hv.accepts hr, hv.take_refused hr⟩, ?_⟩
  intro n a h1 h2 ha hne
  obtain ⟨hr, hfree⟩ := hv.alloc h1 h2 ha hne
  exact hv.accepts hr hfree

/-- A kernel that ends at `0x101000`, and three pages taken at `0x40000000`. -/
theorem run_ordered_three_pages :
    ∃ v xs, Ordered v xs ∧ v.ctx.usedNodeCount = 3 ∧
      (∀ virt n, Request virt n →
        (FreeRange (blocks v xs) virt (requestEnd virt n) → Accepts noKalloc v virt n) ∧
        (¬ FreeRange (blocks v xs) virt (requestEnd virt n) →
          virtaddrTake noKalloc v virt n = some (1, v))) := by
  have hrun : ((virtaddrInit noKalloc (fun _ => zeroNode) 0 0x101000).bind fun v0 =>
      (step noKalloc v0 (.take 0x40000000 3)).map fun v =>
        (v.ctx.allocNodeCount, v.ctx.usedNodeCount)) = some (0, 3) := by
    decide +kernel
  obtain ⟨v0, hinit, hrest⟩ := bind_eq_some_iff.mp hrun
  obtain ⟨v, hstep, hcounts⟩ := map_eq_some_iff.mp hrest
  have hreach : Reach (step noKalloc) Requested v0 v :=
    .step (.take 0x40000000 3) .start ⟨by decide, by decide, by decide⟩ hstep
  obtain ⟨xs, hord, hans, -⟩ := run_ordered ⟨by decide +kernel, by decide +kernel⟩ hinit hreach
    (Prod.mk.inj hcounts).1
  exact ⟨v, xs, hord, (Prod.mk.inj hcounts).2, hans⟩

theorem Valid.start_ne_zero (h : Valid v xs) (hp : p ∈ xs) (hfree : (v.heap p).isAlloc = false) :
    (v.heap p).start ≠ 0 := by
  obtain ⟨as, bs, rfl⟩ := append_of_mem hp
  cases as with
  | nil => exact absurd ((h.first (block v.heap p) rfl).symm.trans hfree) (by simp)
  | cons y as => exact ((Nat.zero_le _).trans_lt (h.start_lt mem_cons_self)).ne'

theorem Valid.findNode_le (h : Valid v xs) (skip : Node → Bool) (hp : p ∈ xs) (hskip : skip (v.heap p) = false) :
    ∃ node ∈ xs, findNode v skip = some (some node) ∧ skip (v.heap node) = false ∧
      (v.heap node).start ≤ (v.heap p).start := by
  obtain ⟨as, bs, rfl⟩ := append_of_mem hp
  rw [h.links.findNode_eq, dropWhile_append]
  have hnot := head?_dropWhile_not (fun p => skip (v.heap p)) as
  cases hd : as.dropWhile fun p => skip (v.heap p) with
  | nil =>
    rw [isEmpty_nil, if_pos rfl, dropWhile_cons_of_neg (by simp [hskip])]
    exact ⟨p, hp, rfl, hskip, le_rfl⟩
  | cons node cs =>
    rw [hd] at hnot
    have hnode : node ∈ as := (dropWhile_suffix _).subset (hd ▸ mem_cons_self)
    exact ⟨node, mem_append_left _ hnode, rfl, hnot, (h.start_lt hnode).le⟩

theorem Valid.alloc_le {a b : Nat} (h : Valid v xs) (hr : Request b n)
    (hfree : FreeRange (blocks v xs) b (requestEnd b n)) (ha : virtaddrAlloc v n = some a) : a ≠ 0 ∧ a ≤ b := by
  obtain ⟨c, hc, hopen, hlo, hhi⟩ :=
    (freeRange_iff h.tiles h.coalesced (Nat.zero_le _) hr.lt_end.1 hr.lt_end.2).mp hfree
  obtain ⟨q, hq, rfl⟩ := mem_map.mp hc
  have hpos := hr.pos
  have hend := (h.bounds hq).2
  obtain ⟨node, hnode, hfind, hfit, hle⟩ := h.findNode_le (fun x => x.isAlloc ||
      decide (toI64 (x.stop - x.start) < 4096 * n)) hq (by
    simp only [block, requestEnd] at hopen hlo hhi
    unfold addressEnd at hend
    rw [toI64_of_lt (by omega) (by omega), hopen, Bool.false_or, decide_eq_false_iff_not]
    omega)
  rw [virtaddrAlloc, if_neg (by omega), nLength_eq hr.pos hr.lt, hfind] at ha
  cases ha
  exact ⟨h.start_ne_zero hnode (Bool.or_eq_false_iff.mp hfit).1, hle.trans hlo⟩

/-- In every state of a run that does not grow the node pool, `virtaddr_alloc` returns the lowest address with so many
free pages, and null exactly if there is none. -/
theorem run_alloc_lowest {h : Heap} {boot : Nat} {v0 : Virt} (hpos : PositiveReservation kernelEnd)
    (hinit : virtaddrInit k h boot kernelEnd = some v0) (hrun : Reach (step k) Requested v0 v)
    (hgrow : v.ctx.allocNodeCount = 0) (h1 : 1 ≤ n) (h2 : n < 2^19) :
    ∃ xs a, Ordered v xs ∧ virtaddrAlloc v n = some a ∧
      (a ≠ 0 → Request a n ∧ FreeRange (blocks v xs) a (requestEnd a n)) ∧
      ∀ b, Request b n → FreeRange (blocks v xs) b (requestEnd b n) → a ≠ 0 ∧ a ≤ b := by
  obtain ⟨xs, hv⟩ := run_valid hpos hinit hrun hgrow
  obtain ⟨a, ha⟩ : ∃ a, virtaddrAlloc v n = some a := by
    rw [virtaddrAlloc, if_neg (by omega), hv.links.findNode_eq]
    exact ⟨_, rfl⟩
  exact ⟨xs, a, hv.ordered, ha, hv.alloc h1 h2 ha, fun b hr hfree => hv.alloc_le hr hfree ha⟩

theorem run_alloc_lowest_init : ∃ v xs a, Ordered v xs ∧ virtaddrAlloc v 3 = some a ∧
    ∀ b, Request b 3 → FreeRange (blocks v xs) b (requestEnd b 3) → a ≠ 0 ∧ a ≤ b := by
  have hrun : (virtaddrInit noKalloc (fun _ => zeroNode) 0 0x101000).map (fun v => v.ctx.allocNodeCount) = some 0 := by
    decide +kernel
  obtain ⟨v, hinit, hgrow⟩ := map_eq_some_iff.mp hrun
  obtain ⟨xs, a, hord, halloc, -, hle⟩ := run_alloc_lowest (n := 3) ⟨by decide +kernel, by decide +kernel⟩ hinit .start
    hgrow (by decide) (by decide)
  exact ⟨v, xs, a, hord, halloc, hle⟩

end Comus.VirtAlloc
