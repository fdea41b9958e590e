import Comus.Lib.Chain
import Comus.Memory.VirtAlloc

/-!
# The node pool and the links of the block list

`Links v xs` is the shape of a block list, without the addresses in it: the list
is doubly linked, its nodes are exactly the used nodes of the pool and the
counter is one less than their number. `get_node` delivers a node outside the
list, and the splits of `virtaddr_take` and the merges of `virtaddr_free` put
nodes in or take them out.
-/

namespace Comus.VirtAlloc

open Word Chain Option List Function

variable {k : Kalloc} {v v' w : Virt} {xs as bs : List Ptr} {p q x : Ptr}
variable {c : Ctx} {i j n : Nat} {h : Heap}

def InPool (c : Ctx) (p : Ptr) : Prop :=
  (p.arr = c.boot ∧ p.idx < 256) ∨ (c.allocNodes = some p.arr ∧ p.idx < c.allocNodeCount)

structure PoolOk (c : Ctx) : Prop where
  apart : c.allocNodes ≠ some c.boot
  empty : c.allocNodes = none → c.allocNodeCount = 0
  small : c.allocNodeCount < 2^31
  freeStart : c.freeNodeStart = 0
  idle : c.isAllocating = false

theorem getNodeIdx_inPool (hc : PoolOk c) (hi : i < 256 + c.allocNodeCount) :
    ∃ p, getNodeIdx c i = some p ∧ InPool c p := by
  unfold getNodeIdx BOOTSTRAP_VIRT_ALLOC_NODES
  by_cases h : i < 256
  · rw [if_pos h]
    exact ⟨_, rfl, .inl ⟨rfl, h⟩⟩
  · rw [if_neg h]
    cases ha : c.allocNodes with
    | none =>
      have := hc.empty ha
      omega
    | some a => exact ⟨⟨a, i - 256⟩, rfl, .inr ⟨ha, by simp only; omega⟩⟩

theorem inPool_getNodeIdx (hp : InPool c p) :
    ∃ i, i < 256 + c.allocNodeCount ∧ getNodeIdx c i = some p := by
  rcases hp with ⟨harr, hidx⟩ | ⟨harr, hidx⟩
  · refine ⟨p.idx, by omega, ?_⟩
    rw [getNodeIdx, BOOTSTRAP_VIRT_ALLOC_NODES, if_pos hidx, ← harr]
  · refine ⟨p.idx + 256, by omega, ?_⟩
    rw [getNodeIdx, if_neg (by unfold BOOTSTRAP_VIRT_ALLOC_NODES; omega), harr, map_some]
    simp [BOOTSTRAP_VIRT_ALLOC_NODES]

theorem getNodeIdx_injective (hc : PoolOk c) (hi : getNodeIdx c i = some p) (hj : getNodeIdx c j = some p) : i = j := by
  have hapart := hc.apart
  unfold getNodeIdx BOOTSTRAP_VIRT_ALLOC_NODES at hi hj
  split_ifs at hi hj with h1 h2 h2
  · have := congrArg Ptr.idx (some.inj (hi.trans hj.symm))
    exact this
  · obtain ⟨a, ha, hp⟩ := map_eq_some_iff.mp hj
    have := congrArg Ptr.arr ((some.inj hi).trans hp.symm)
    exact absurd (ha.trans (congrArg some this.symm)) hapart
  · obtain ⟨a, ha, hp⟩ := map_eq_some_iff.mp hi
    have := congrArg Ptr.arr ((some.inj hj).trans hp.symm)
    exact absurd (ha.trans (congrArg some this.symm)) hapart
  · obtain ⟨a, ha, hp⟩ := map_eq_some_iff.mp hi
    obtain ⟨b, hb, hp'⟩ := map_eq_some_iff.mp hj
    have := congrArg Ptr.idx (hp.trans hp'.symm)
    simp only at this
    omega

theorem findUnused_some (h : findUnused v n i = some p) :
    (v.heap p).isUsed = false ∧ ∃ j, i ≤ j ∧ j < i + n ∧ getNodeIdx v.ctx j = some p := by
  induction n generalizing i with
  | zero => exact absurd h (by simp [findUnused])
  | succ n ih =>
    rw [findUnused] at h
    cases hg : getNodeIdx v.ctx i with
    | none => simp [hg] at h
    | some q =>
      simp only [hg] at h
      split_ifs at h with hu
      · obtain ⟨h1, j, h2, h3, h4⟩ := ih h
        exact ⟨h1, j, by omega, by omega, h4⟩
      · cases h
        exact ⟨by simpa using hu, i, by omega, by omega, hg⟩

theorem findUnused_none (hc : PoolOk v.ctx) (hn : i + n ≤ 256 + v.ctx.allocNodeCount)
    (h : findUnused v n i = none) (h1 : i ≤ j) (h2 : j < i + n)
    (hj : getNodeIdx v.ctx j = some p) : (v.heap p).isUsed = true := by
  induction n generalizing i with
  | zero => omega
  | succ n ih =>
    rw [findUnused] at h
    obtain ⟨q, hq, -⟩ := getNodeIdx_inPool hc (by omega : i < 256 + v.ctx.allocNodeCount)
    simp only [hq] at h
    split_ifs at h with hu
    by_cases hij : i = j
    · rw [← hij, hq] at hj
      exact some.inj hj ▸ hu
    · exact ih (by omega) h (by omega) (by omega)

structure Links (v : Virt) (xs : List Ptr) : Prop where
  list : IsDList (nextOf v.heap) (prevOf v.heap) v.ctx.startNode xs
  used : ∀ p, p ∈ xs ↔ InPool v.ctx p ∧ (v.heap p).isUsed = true
  count : v.ctx.usedNodeCount + 1 = xs.length
  pool : PoolOk v.ctx
  start : v.ctx.startNode = some ⟨v.ctx.boot, 0⟩

theorem length_le_pool (hnodup : xs.Nodup) (hin : ∀ p ∈ xs, InPool c p) :
    xs.length ≤ 256 + c.allocNodeCount := by
  let indices := (range (256 + c.allocNodeCount)).filterMap (getNodeIdx c)
  have hsub : xs ⊆ indices := fun p hp => by
    obtain ⟨i, hi, hget⟩ := inPool_getNodeIdx (hin p hp)
    exact mem_filterMap.mpr ⟨i, mem_range.mpr hi, hget⟩
  have hle := (hnodup.subperm hsub).length_le
  have hlen : indices.length ≤ 256 + c.allocNodeCount := by
    have := length_filterMap_le (getNodeIdx c) (range (256 + c.allocNodeCount))
    rwa [length_range] at this
  omega

theorem exists_unused (hc : PoolOk c) (ys : List Ptr)
    (hlen : ys.length < 256 + c.allocNodeCount) : ∃ p, InPool c p ∧ p ∉ ys := by
  by_contra hno
  push Not at hno
  have hnodup : ((range (256 + c.allocNodeCount)).filterMap (getNodeIdx c)).Nodup := by
    refine Nodup.filterMap (fun i j p hi hj => ?_) nodup_range
    exact getNodeIdx_injective hc hi hj
  have hsub : (range (256 + c.allocNodeCount)).filterMap (getNodeIdx c) ⊆ ys := by
    intro p hp
    obtain ⟨i, hi, hget⟩ := mem_filterMap.mp hp
    obtain ⟨q, hq, hin⟩ := getNodeIdx_inPool hc (mem_range.mp hi)
    obtain rfl := some.inj (hq.symm.trans hget)
    exact hno q hin
  have hle := (hnodup.subperm hsub).length_le
  have hfull : ((range (256 + c.allocNodeCount)).filterMap (getNodeIdx c)).length =
      256 + c.allocNodeCount := by
    rw [length_filterMap_eq_countP, countP_eq_length.mpr, length_range]
    intro i hi
    obtain ⟨q, hq, -⟩ := getNodeIdx_inPool hc (mem_range.mp hi)
    simp [hq]
  omega

theorem Links.length_le (h : Links v xs) : xs.length ≤ 256 + v.ctx.allocNodeCount :=
  length_le_pool h.list.nodup fun p hp => ((h.used p).mp hp).1

structure Fresh (v v' : Virt) (xs : List Ptr) (p : Ptr) : Prop where
  notMem : p ∉ xs
  same : ∀ q ∈ xs, v'.heap q = v.heap q
  used : ∀ q, q = p ∨ q ∈ xs ↔ InPool v'.ctx q ∧ (v'.heap q).isUsed = true
  count : v'.ctx.usedNodeCount = xs.length
  pool : PoolOk v'.ctx
  boot : v'.ctx.boot = v.ctx.boot
  start : v'.ctx.startNode = v.ctx.startNode

theorem Links.takeNode_fresh (h : Links v xs) (ht : takeNode v = some (p, v')) : Fresh v v' xs p := by
  unfold takeNode at ht
  obtain ⟨q, hfind, heq⟩ := map_eq_some_iff.mp ht
  cases heq
  obtain ⟨hunused, j, -, hj, hget⟩ := findUnused_some hfind
  have hjlt : j < 256 + v.ctx.allocNodeCount := by
    rw [h.pool.freeStart] at hj
    unfold BOOTSTRAP_VIRT_ALLOC_NODES at hj
    omega
  obtain ⟨q', hq', hin⟩ := getNodeIdx_inPool h.pool hjlt
  obtain rfl := some.inj (hq'.symm.trans hget)
  have hnot : q' ∉ xs := fun hmem => by
    rw [((h.used q').mp hmem).2] at hunused
    cases hunused
  have hlen := h.length_le
  have hsmall := h.pool.small
  have hcount := h.count
  refine ⟨hnot, fun r hr => ?_, fun r => ?_, ?_, ⟨h.pool.apart, h.pool.empty, h.pool.small,
    h.pool.freeStart, h.pool.idle⟩, rfl, rfl⟩
  · have hne : r ≠ q' := fun he => hnot (he ▸ hr)
    simp [modify, update_of_ne hne]
  · by_cases hr : r = q'
    · subst hr
      have hin' : InPool { v.ctx with usedNodeCount := u64 (v.ctx.usedNodeCount + 1) } r := hin
      simp [modify, hin']
    · simp only [hr, false_or, modify, update_of_ne hr]
      exact h.used r
  · simp only
    rw [u64_of_lt (by omega)]
    omega

theorem Links.takeNode_isSome (h : Links v xs) (hroom : xs.length < 256 + v.ctx.allocNodeCount) :
    ∃ p v', takeNode v = some (p, v') := by
  obtain ⟨p, hp, hnot⟩ := exists_unused h.pool xs hroom
  obtain ⟨i, hi, hget⟩ := inPool_getNodeIdx hp
  suffices hfind : ∃ q, findUnused v (BOOTSTRAP_VIRT_ALLOC_NODES + v.ctx.allocNodeCount -
      v.ctx.freeNodeStart) v.ctx.freeNodeStart = some q by
    obtain ⟨q, hq⟩ := hfind
    exact ⟨q, _, map_eq_some_iff.mpr ⟨q, hq, rfl⟩⟩
  rw [h.pool.freeStart]
  cases hfind : findUnused v (BOOTSTRAP_VIRT_ALLOC_NODES + v.ctx.allocNodeCount - 0) 0 with
  | none =>
    have hused := findUnused_none h.pool (by simp [BOOTSTRAP_VIRT_ALLOC_NODES]) hfind
      (Nat.zero_le i) (by simpa [BOOTSTRAP_VIRT_ALLOC_NODES] using hi) hget
    exact absurd ((h.used p).mpr ⟨hp, hused⟩) hnot
  | some q => exact ⟨q, rfl⟩

/-- The kernel heap as the contexts of processes see it: a new array is none of the
context's own and zeroed, and nothing else changes. -/
structure Kalloc.Lawful (k : Kalloc) : Prop where
  ctx_kalloc : ∀ v n a v', k.kalloc v n = some (a, v') → v'.ctx = v.ctx
  fresh : ∀ v n a v', k.kalloc v n = some (a, v') → a ≠ v.ctx.boot ∧ v.ctx.allocNodes ≠ some a
  zeroed : ∀ v n a v', k.kalloc v n = some (a, v') → ∀ i, (v'.heap ⟨a, i⟩).isUsed = false
  heap_kalloc : ∀ v n a v', k.kalloc v n = some (a, v') → ∀ p, p.arr ≠ a → v'.heap p = v.heap p
  ctx_kfree : ∀ v a v', k.kfree v a = some v' → v'.ctx = v.ctx
  heap_kfree : ∀ v a v', k.kfree v a = some v' → ∀ p, some p.arr ≠ a → v'.heap p = v.heap p

/-- If the pool grows, then no node of the released array is in use. -/
def GrowthOk (k : Kalloc) (c : Ctx) (xs : List Ptr) : Prop :=
  mustGrow c = true → k.Lawful ∧ ∀ p ∈ xs, p.arr = c.boot

theorem copyNodes_unused {old new : Nat} (n i idx : Nat) (hu : ∀ j, i ≤ j → j < i + n → (h ⟨old, j⟩).isUsed = false) :
    copyNodes old new n i idx h = (h, idx) := by
  induction n generalizing i with
  | zero => rfl
  | succ n ih =>
    rw [copyNodes, hu i le_rfl (by omega), if_neg (by simp)]
    exact ih (i + 1) fun j h1 h2 => hu j (by omega) (by omega)

theorem clearNodes_apply (new n idx : Nat) (h : Heap) (p : Ptr) :
    clearNodes new n idx h p =
      if p.arr = new ∧ idx ≤ p.idx ∧ p.idx < idx + n then { h p with isUsed := false } else h p := by
  induction n generalizing idx h with
  | zero => rw [clearNodes, if_neg (by omega)]
  | succ n ih =>
    rw [clearNodes, ih]
    obtain ⟨arr, i⟩ := p
    by_cases hp : arr = new ∧ i = idx
    · obtain ⟨rfl, rfl⟩ := hp
      rw [if_neg (by simp only; omega), if_pos ⟨rfl, le_rfl, by simp⟩, modify,
        update_self]
    · have hne : (⟨arr, i⟩ : Ptr) ≠ ⟨new, idx⟩ := fun he => hp (by simpa using he)
      rw [modify, update_of_ne hne]
      simp only
      congr 1
      grind

theorem updateNodePtrs_unused (new newLen : Nat)
    (hu : ∀ p, c.allocNodes = some p.arr → p.idx < c.allocNodeCount → (h p).isUsed = false) :
    (∀ p, p.arr ≠ new → updateNodePtrs c.allocNodes new c.allocNodeCount newLen h p = h p) ∧
    ((∀ i, (h ⟨new, i⟩).isUsed = false) → ∀ i,
      (updateNodePtrs c.allocNodes new c.allocNodeCount newLen h ⟨new, i⟩).isUsed = false) := by
  unfold updateNodePtrs
  cases ha : c.allocNodes with
  | none => exact ⟨fun p _ => rfl, fun hzero => hzero⟩
  | some old =>
    simp only
    rw [copyNodes_unused _ 0 0 fun j _ hj => hu ⟨old, j⟩ ha (by simpa using hj)]
    simp only
    constructor
    · intro p hp
      rw [clearNodes_apply, if_neg fun hc => hp hc.1]
    · intro hzero i
      rw [clearNodes_apply]
      split_ifs
      · rfl
      · exact hzero i

theorem growNodes_spec (hk : k.Lawful) (h : growNodes k v = some w)
    (hu : ∀ p, v.ctx.allocNodes = some p.arr → p.idx < v.ctx.allocNodeCount →
      (v.heap p).isUsed = false) :
    ∃ new, new ≠ v.ctx.boot ∧ w.ctx = { v.ctx with
        allocNodes := some new, allocNodeCount := grownCount v.ctx, isAllocating := false } ∧
      (∀ p, p.arr ≠ new → v.ctx.allocNodes ≠ some p.arr → w.heap p = v.heap p) ∧
      ∀ i, (w.heap ⟨new, i⟩).isUsed = false := by
  unfold growNodes at h
  cases hka : k.kalloc { v with ctx := { v.ctx with isAllocating := true } } (grownCount v.ctx) with
  | none => simp [hka] at h
  | some r =>
    obtain ⟨new, v1⟩ := r
    simp only [hka] at h
    obtain ⟨v2, hkf, rfl⟩ := map_eq_some_iff.mp h
    have hctx := hk.ctx_kalloc _ _ _ _ hka
    have hfresh := hk.fresh _ _ _ _ hka
    have hctx2 := hk.ctx_kfree _ _ _ hkf
    simp only [hctx] at hkf hctx2 hfresh
    have hun := updateNodePtrs_unused (c := v.ctx) (h := v1.heap) new (grownCount v.ctx)
      fun p h1 h2 => by
        rw [hk.heap_kalloc _ _ _ _ hka p fun he => hfresh.2 (he ▸ h1)]
        exact hu p h1 h2
    refine ⟨new, hfresh.1, by rw [hctx2], fun p h1 h2 => ?_, fun i => ?_⟩
    · exact (hk.heap_kfree _ _ _ hkf p fun he => h2 he.symm).trans
        ((hun.1 p h1).trans (hk.heap_kalloc _ _ _ _ hka p h1))
    · rw [hk.heap_kfree _ _ _ hkf ⟨new, i⟩ fun he => hfresh.2 he.symm]
      exact hun.2 (hk.zeroed _ _ _ _ hka) i

theorem grownCount_ge (c : Ctx) : 8 ≤ grownCount c := by
  unfold grownCount
  dsimp only
  split_ifs <;> omega

theorem grownCount_lt (c : Ctx) : grownCount c < 2^31 := by
  have hrange := toI32_range (c.allocNodeCount * 2)
  unfold grownCount
  dsimp only
  split_ifs <;> omega

theorem Links.grow (hk : k.Lawful) (h : Links v xs) (hboot : ∀ p ∈ xs, p.arr = v.ctx.boot)
    (hg : growNodes k v = some w) :
    Links w xs ∧ (∀ p ∈ xs, w.heap p = v.heap p) ∧ w.ctx.boot = v.ctx.boot ∧
      w.ctx.startNode = v.ctx.startNode := by
  have hidx : ∀ p ∈ xs, p.idx < 256 := fun p hp => by
    rcases ((h.used p).mp hp).1 with h1 | h1
    · exact h1.2
    · exact absurd (hboot p hp ▸ h1.1) h.pool.apart
  obtain ⟨new, hne, hctx, hheap, hzero⟩ := growNodes_spec hk hg fun p h1 h2 => by
    by_contra hused
    have hp := (h.used p).mpr ⟨.inr ⟨h1, h2⟩, by simpa using hused⟩
    exact h.pool.apart (hboot p hp ▸ h1)
  have hsame : ∀ p ∈ xs, w.heap p = v.heap p := fun p hp =>
    hheap p (hboot p hp ▸ hne.symm) (hboot p hp ▸ h.pool.apart)
  refine ⟨⟨?_, fun p => ?_, ?_, ⟨?_, ?_, ?_, ?_, ?_⟩, ?_⟩, hsame, by rw [hctx], by rw [hctx]⟩
  · rw [hctx]
    refine h.list.congr (fun p hp => ?_) fun p hp => ?_
    · rw [nextOf, hsame p hp, nextOf]
    · rw [prevOf, hsame p hp, prevOf]
  · constructor
    · intro hp
      rw [hsame p hp, hctx]
      exact ⟨.inl ⟨hboot p hp, hidx p hp⟩, ((h.used p).mp hp).2⟩
    · rintro ⟨hin, hused⟩
      rw [hctx] at hin
      rcases hin with ⟨h1, h2⟩ | ⟨h1, h2⟩
      · have h1' : p.arr = v.ctx.boot := h1
        rw [hheap p (h1' ▸ hne.symm) (h1' ▸ h.pool.apart)] at hused
        exact (h.used p).mpr ⟨.inl ⟨h1', h2⟩, hused⟩
      · obtain ⟨arr, i⟩ := p
        cases h1
        rw [hzero i] at hused
        cases hused
  · rw [hctx]
    exact h.count
  · rw [hctx]
    exact fun he => hne (some.inj he)
  · rw [hctx]
    exact fun he => absurd he (by simp)
  · rw [hctx]
    exact grownCount_lt v.ctx
  · rw [hctx]
    exact h.pool.freeStart
  · rw [hctx]
  · rw [hctx]
    exact h.start

theorem Links.getNode_fresh (h : Links v xs) (hok : GrowthOk k v.ctx xs) (hg : getNode k v = some (p, v')) :
    Fresh v v' xs p := by
  unfold getNode at hg
  split_ifs at hg with hmust
  · obtain ⟨hk, hboot⟩ := hok hmust
    obtain ⟨w, hw, ht⟩ := bind_eq_some_iff.mp hg
    obtain ⟨hlinks, hsame, hb, hs⟩ := h.grow hk hboot hw
    have hf := hlinks.takeNode_fresh ht
    exact { hf with
      same := fun q hq => (hf.same q hq).trans (hsame q hq)
      boot := hf.boot.trans hb
      start := hf.start.trans hs }
  · exact h.takeNode_fresh hg

theorem takeNode_ctx (ht : takeNode v = some (p, v')) :
    v'.ctx = { v.ctx with usedNodeCount := u64 (v.ctx.usedNodeCount + 1) } := by
  obtain ⟨q, -, heq⟩ := map_eq_some_iff.mp ht
  rw [← (Prod.mk.inj heq).2]

theorem Links.mustGrow_eq (h : Links v xs) :
    mustGrow v.ctx = decide (256 + v.ctx.allocNodeCount ≤ v.ctx.usedNodeCount + 16) := by
  have hlen := h.length_le
  have hsmall := h.pool.small
  have hcount := h.count
  rw [mustGrow, h.pool.idle, u64_of_lt (by omega), BOOTSTRAP_VIRT_ALLOC_NODES]
  rfl

theorem Links.getNode_isSome (h : Links v xs)
    (hroom : v.ctx.usedNodeCount + 16 < 256 + v.ctx.allocNodeCount) :
    ∃ p w, getNode k v = some (p, w) ∧ w.ctx.usedNodeCount = v.ctx.usedNodeCount + 1 ∧
      w.ctx.allocNodeCount = v.ctx.allocNodeCount := by
  have hcount := h.count
  have hsmall := h.pool.small
  obtain ⟨p, w, hw⟩ := h.takeNode_isSome (by omega)
  have hctx := takeNode_ctx hw
  refine ⟨p, w, ?_, ?_, ?_⟩
  · rw [getNode, h.mustGrow_eq, if_neg (by simpa using hroom), hw]
  · rw [hctx]
    exact u64_of_lt (by omega)
  · rw [hctx]

theorem Fresh.insert (hl : Links v (as ++ x :: bs)) (hf : Fresh v w (as ++ x :: bs) p)
    (hused : ∀ q, (h q).isUsed = (w.heap q).isUsed)
    (hnx : ∀ y, y ≠ p → (h y).next = if y = x then some p else (w.heap y).next)
    (hpv : ∀ y, y ≠ p → (h y).prev = if bs.head? = some y then some p else (w.heap y).prev)
    (hnext : (h p).next = bs.head?) (hprev : (h p).prev = some x) :
    Links ⟨h, w.ctx⟩ (as ++ x :: p :: bs) := by
  have hlist : IsDList (nextOf h) (prevOf h) v.ctx.startNode (as ++ x :: ([p] ++ bs)) := by
    have hnot : ∀ y ∈ as ++ x :: bs, y ≠ p := fun y hy he => hf.notMem (he ▸ hy)
    refine IsDList.splice [] hl.list (fun y hy => ?_) (fun y hy => ?_) ⟨rfl, hnext⟩ ⟨hprev, trivial⟩
    · rw [nextOf, hnx y (hnot y hy), hf.same y hy]
      rfl
    · rw [prevOf, hpv y (hnot y hy), hf.same y hy]
      rfl
  refine ⟨?_, fun q => ?_, ?_, hf.pool, ?_⟩
  · rw [hf.start]
    exact hlist
  · rw [hused, ← hf.used q]
    simp only [mem_append, mem_cons]
    tauto
  · have := hf.count
    simp only [length_append, length_cons] at this ⊢
    omega
  · rw [hf.start, hf.boot]
    exact hl.start

theorem Links.remove (hl : Links v (as ++ x :: p :: bs))
    (hused : ∀ q, (h q).isUsed = if q = p then false else (v.heap q).isUsed)
    (hnx : ∀ y, y ≠ p → (h y).next = if y = x then bs.head? else (v.heap y).next)
    (hpv : ∀ y, y ≠ p → (h y).prev = if bs.head? = some y then some x else (v.heap y).prev) :
    Links ⟨h, { v.ctx with usedNodeCount := sub64 v.ctx.usedNodeCount 1 }⟩ (as ++ x :: bs) := by
  have hnot : p ∉ as ++ x :: bs := by
    obtain ⟨-, h3, h4⟩ := nodup_append.mp hl.list.nodup
    simp only [nodup_cons, mem_cons, not_or] at h3
    simp only [mem_append, mem_cons, not_or]
    exact ⟨fun hq => h4 p hq p (by simp) rfl, fun hq => h3.1.1 hq.symm, h3.2.1⟩
  have hlist : IsDList (nextOf h) (prevOf h) v.ctx.startNode (as ++ x :: ([] ++ bs)) :=
    IsDList.splice [p] hl.list (fun y hy => hnx y fun he => hnot (he ▸ hy))
      (fun y hy => hpv y fun he => hnot (he ▸ hy)) rfl trivial
  have hlen := hl.length_le
  have hsmall := hl.pool.small
  have hcount := hl.count
  simp only [length_append, length_cons] at hcount hlen
  rw [nil_append] at hlist
  -- the kernel must not compare the two counters by computation
  have h1 : 1 ≤ v.ctx.usedNodeCount := by omega
  have h2 : v.ctx.usedNodeCount < 2^64 := by omega
  rw [sub64_of_le h1 h2]
  generalize hused' : v.ctx.usedNodeCount - 1 = used
  refine ⟨hlist, fun q => ?_, ?_, ⟨hl.pool.apart, hl.pool.empty, hl.pool.small, hl.pool.freeStart,
    hl.pool.idle⟩, hl.start⟩
  · have hq := hl.used q
    rw [hused]
    by_cases hqp : q = p
    · subst hqp
      simp [hnot]
    · rw [if_neg hqp]
      simp only [mem_append, mem_cons, hqp, false_or] at hq ⊢
      exact hq
  · simp only [length_append, length_cons]
    omega

end Comus.VirtAlloc
