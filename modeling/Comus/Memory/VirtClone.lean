import Comus.Memory.VirtRuns

/-!
# Cloning a context

`virtaddr_clone` copies the bootstrap nodes and links the first `used_node_count`
of them in the order of the array. The order of the list is the history of
splits and merges, so the clone describes the same blocks exactly when the list
of the old context runs through its bootstrap nodes in this order.
-/

namespace Comus.VirtAlloc

open Word Chain Tiling Run Option List

variable {k : Kalloc} {v w c : Virt} {xs ys : List Ptr} {p q : Ptr} {virt : Nat}
variable {n i new a : Nat} {h : Heap}

/-- A call that grows the pool does so while only bootstrap nodes are used. -/
def KeepsNodes (k : Kalloc) (v : Virt) : Prop :=
  v.ctx.usedNodeCount + 17 < 256 + v.ctx.allocNodeCount ∨
  k.Lawful ∧ v.ctx.usedNodeCount + 2 < 256 ∧
    ∀ p : Ptr, v.ctx.allocNodes = some p.arr → p.idx < v.ctx.allocNodeCount →
      (v.heap p).isUsed = false

def Unmoved (k : Kalloc) (v : Virt) : Op → Prop
  | .take virt n => Request virt n ∧ KeepsNodes k v
  | .allocTake n => (1 ≤ n ∧ n < 2^19) ∧ KeepsNodes k v
  | .free _ => True

theorem findUnused_first (h : findUnused v n i = some p) :
    ∃ j, getNodeIdx v.ctx j = some p ∧
      ∀ m, i ≤ m → m < j → ∀ q, getNodeIdx v.ctx m = some q → (v.heap q).isUsed = true := by
  induction n generalizing i with
  | zero => simp [findUnused] at h
  | succ n ih =>
    rw [findUnused] at h
    cases hg : getNodeIdx v.ctx i with
    | none => simp [hg] at h
    | some r =>
      simp only [hg] at h
      split_ifs at h with hu
      · obtain ⟨j, hj, hall⟩ := ih h
        refine ⟨j, hj, ?_⟩
        intro m h1 h2 q hq
        cases Nat.eq_or_lt_of_le h1 with
        | inl heq =>
          subst heq
          rw [hg] at hq
          exact some.inj hq ▸ hu
        | inr hlt => exact hall m hlt h2 q hq
      · refine ⟨i, ?_, ?_⟩
        · rw [hg, some.inj h]
        · intro m h1 h2
          omega

theorem Links.takeNode_boot (h : Links v xs) (hlen : xs.length < 256)
    (ht : takeNode v = some (p, w)) : p.arr = v.ctx.boot := by
  obtain ⟨q, hq, hnot⟩ := exists_unused (c := { v.ctx with allocNodes := none, allocNodeCount := 0 })
    ⟨by simp, fun _ => rfl, by simp, h.pool.freeStart, h.pool.idle⟩ xs hlen
  have hboot : q.arr = v.ctx.boot ∧ q.idx < 256 := by
    rcases hq with hq | hq
    · exact hq
    · exact absurd hq.1 (by simp)
  obtain ⟨r, hfind, heq⟩ := map_eq_some_iff.mp ht
  obtain rfl : r = p := (Prod.mk.inj heq).1
  obtain ⟨j, hj, hall⟩ := findUnused_first hfind
  have hidx : getNodeIdx v.ctx q.idx = some q := by
    rw [getNodeIdx, BOOTSTRAP_VIRT_ALLOC_NODES, if_pos hboot.2, ← hboot.1]
  -- the search stops at the unused bootstrap node at the latest
  have hle : j ≤ q.idx := by
    by_contra hlt
    have hused := hall q.idx (by rw [h.pool.freeStart]; omega) (by omega) q hidx
    exact hnot ((h.used q).mpr ⟨.inl hboot, hused⟩)
  rw [getNodeIdx, BOOTSTRAP_VIRT_ALLOC_NODES, if_pos (by omega)] at hj
  rw [← some.inj hj]

theorem Links.growthOk (h : Links v xs) (hk : KeepsNodes k v) :
    GrowthOk k v.ctx xs ∧ GrowthOkNext k v xs := by
  rcases hk with hroom | ⟨hk, hlt, hheap⟩
  · have hno : mustGrow v.ctx = false := by
      rw [h.mustGrow_eq]
      simp
      omega
    refine ⟨fun hm => absurd hm (by simp [hno]), ?_⟩
    intro l u hg ys _ hm
    rw [getNode, hno, if_neg (by simp)] at hg
    have hcount := h.count
    have hsmall := h.pool.small
    rw [takeNode_ctx hg, mustGrow, Bool.and_eq_true, decide_eq_true_eq] at hm
    have hge := hm.2
    simp only [BOOTSTRAP_VIRT_ALLOC_NODES] at hge
    rw [u64_of_lt (by omega : v.ctx.usedNodeCount + 1 < 2^64), u64_of_lt (by omega)] at hge
    omega
  · have hboot : ∀ p ∈ xs, p.arr = v.ctx.boot := by
      intro p hp
      obtain ⟨hin, hused⟩ := (h.used p).mp hp
      rcases hin with hin | hin
      · exact hin.1
      · rw [hheap p hin.1 hin.2] at hused
        cases hused
    have hok : GrowthOk k v.ctx xs := fun _ => ⟨hk, hboot⟩
    have hcount := h.count
    refine ⟨hok, ?_⟩
    intro l u hg ys hys _
    have hf := h.getNode_fresh hok hg
    have hl : l.arr = v.ctx.boot := by
      unfold getNode at hg
      split_ifs at hg with hmust
      · obtain ⟨u', hu', ht⟩ := bind_eq_some_iff.mp hg
        obtain ⟨hlinks, -, hb, -⟩ := h.grow hk hboot hu'
        rw [← hb]
        exact hlinks.takeNode_boot (by omega) ht
      · exact h.takeNode_boot (by omega) hg
    refine ⟨hk, ?_⟩
    intro y hy
    rw [hf.boot]
    rcases hys y hy with rfl | hy
    · exact hl
    · exact hboot y hy

theorem step_unmoved {op : Op} (h : ∃ xs, Valid v xs) (hop : Unmoved k v op)
    (hs : step k v op = some w) : ∃ xs, Valid w xs := by
  obtain ⟨xs, hv⟩ := h
  have htake : ∀ {virt : Nat} {n : Int}, Request virt n → KeepsNodes k v →
      (virtaddrTake k v virt n).map Prod.snd = some w → ∃ xs, Valid w xs := by
    intro virt n hr hk ht
    obtain ⟨⟨r, w'⟩, ht', rfl⟩ := map_eq_some_iff.mp ht
    obtain ⟨hok, hnext⟩ := hv.links.growthOk hk
    rcases hv.take hr hok hnext ht' with ⟨-, rfl, -⟩ | ⟨-, -, ys, hys, -⟩
    · exact ⟨xs, hv⟩
    · exact ⟨ys, hys⟩
  cases op with
  | take virt n => exact htake hop.1 hop.2 hs
  | allocTake n =>
    obtain ⟨a, ha, hs⟩ := bind_eq_some_iff.mp hs
    split_ifs at hs with hzero
    · cases hs
      exact ⟨xs, hv⟩
    · exact htake (hv.alloc hop.1.1 hop.1.2 ha hzero).1 hop.2 hs
  | free virt =>
    obtain ⟨⟨r, w'⟩, hf, rfl⟩ := map_eq_some_iff.mp hs
    obtain ⟨r', w'', ys, hf', hvalid, -⟩ := hv.free virt
    rw [hf] at hf'
    cases hf'
    exact ⟨ys, hvalid⟩

theorem copyNode_data (old i idx : Nat) (h : Heap) (hp : p.arr ≠ new) :
    block (copyNode old new i idx h) p = block h p ∧
      (copyNode old new i idx h p).isUsed = (h p).isUsed := by
  have hne : p ≠ ⟨new, idx⟩ := fun he => hp (by rw [he])
  simp only [block, copyNode, setPrevIf_apply, setNextIf_apply, Function.update_of_ne hne]
  split_ifs <;> exact ⟨rfl, rfl⟩

theorem copyNodes_data (old n i idx : Nat) (h : Heap) (hp : p.arr ≠ new) :
    block (copyNodes old new n i idx h).1 p = block h p ∧
      ((copyNodes old new n i idx h).1 p).isUsed = (h p).isUsed := by
  induction n generalizing i idx h with
  | zero => exact ⟨rfl, rfl⟩
  | succ n ih =>
    rw [copyNodes]
    split_ifs with hu
    · obtain ⟨h1, h2⟩ := ih (i + 1) (idx + 1) (copyNode old new i idx h)
      obtain ⟨h3, h4⟩ := copyNode_data old i idx h hp
      exact ⟨h1.trans h3, h2.trans h4⟩
    · exact ih (i + 1) idx h

theorem updateNodePtrs_data (old : Option Nat) (oldLen newLen : Nat) (h : Heap) (hp : p.arr ≠ new) :
    block (updateNodePtrs old new oldLen newLen h) p = block h p ∧
      (updateNodePtrs old new oldLen newLen h p).isUsed = (h p).isUsed := by
  cases old with
  | none => exact ⟨rfl, rfl⟩
  | some a =>
    obtain ⟨h1, h2⟩ := copyNodes_data a oldLen 0 0 h hp
    simp only [updateNodePtrs, block, clearNodes_apply]
    rw [if_neg fun hc => hp hc.1]
    exact ⟨h1, h2⟩

theorem relinkBoot_apply (new n i : Nat) (h : Heap) (p : Ptr) :
    relinkBoot new n i h p =
      if p.arr = new ∧ i ≤ p.idx ∧ p.idx < i + n then
        { h p with
          prev := if p.idx > 0 then some ⟨new, p.idx - 1⟩ else none
          next := if p.idx < 255 then some ⟨new, p.idx + 1⟩ else none }
      else h p := by
  induction n generalizing i h with
  | zero => rw [relinkBoot, if_neg (by omega)]
  | succ n ih =>
    rw [relinkBoot, ih]
    obtain ⟨arr, j⟩ := p
    by_cases hp : arr = new ∧ j = i
    · obtain ⟨rfl, rfl⟩ := hp
      have hin : (⟨arr, j⟩ : Ptr).arr = arr ∧ j ≤ (⟨arr, j⟩ : Ptr).idx ∧
          (⟨arr, j⟩ : Ptr).idx < j + (n + 1) := ⟨rfl, le_rfl, by simp⟩
      rw [if_neg (by simp only; omega), modify_apply, if_pos rfl, if_pos hin]
      rfl
    · have hne : (⟨arr, j⟩ : Ptr) ≠ ⟨new, i⟩ := fun he => hp (by simpa using he)
      rw [modify_apply, if_neg hne]
      simp only
      congr 1
      grind

structure FreshArrays (c : Ctx) (new newNodes : Nat) : Prop where
  new_boot : new ≠ c.boot
  new_alloc : c.allocNodes ≠ some new
  nodes_boot : newNodes ≠ c.boot
  nodes_alloc : c.allocNodes ≠ some newNodes
  apart : newNodes ≠ new

variable {new newNodes : Nat}

theorem virtaddrClone_boot_data (hf : FreshArrays v.ctx new newNodes)
    (hc : virtaddrClone v new (some newNodes) = some c) (hi : i < 256) :
    block c.heap ⟨new, i⟩ = block v.heap ⟨v.ctx.boot, i⟩ ∧
      (c.heap ⟨new, i⟩).isUsed = (v.heap ⟨v.ctx.boot, i⟩).isUsed := by
  cases hc
  have hcopy : copyBoot v.heap v.ctx.boot new ⟨new, i⟩ = v.heap ⟨v.ctx.boot, i⟩ :=
    if_pos ⟨rfl, hi⟩
  obtain ⟨h1, h2⟩ := updateNodePtrs_data (p := ⟨new, i⟩) v.ctx.allocNodes v.ctx.allocNodeCount
    v.ctx.allocNodeCount (copyBoot v.heap v.ctx.boot new) hf.apart.symm
  simp only [block] at h1 ⊢
  simp only [relinkBoot_apply]
  rw [hcopy] at h1 h2
  split_ifs <;> exact ⟨h1, h2⟩

theorem virtaddrClone_boot_next (hc : virtaddrClone v new (some newNodes) = some c) (hi : i < v.ctx.usedNodeCount) (hi' : i < 256) :
    nextOf c.heap ⟨new, i⟩ = if i < 255 then some ⟨new, i + 1⟩ else none := by
  cases hc
  simp only [nextOf, relinkBoot_apply, BOOTSTRAP_VIRT_ALLOC_NODES]
  rw [if_pos ⟨trivial, Nat.zero_le _, by omega⟩]

def NodeList (v : Virt) (xs : List Ptr) : Prop := Seg (nextOf v.heap) v.ctx.startNode xs none

def arrayNodes (a i n : Nat) : List Ptr := (range' i n).map fun j => ⟨a, j⟩

def PoolOrder (v : Virt) : Prop :=
  NodeList v (arrayNodes v.ctx.boot 0 (v.ctx.usedNodeCount + 1))

/-- `c` is the new context, with the memory after the call. -/
structure CloneFaithful (k : Kalloc) (v c : Virt) : Prop where
  copied : ∀ xs, NodeList v xs → ∃ ys, NodeList c ys ∧ blocks c ys = blocks v xs ∧
    ∀ y ∈ ys, ¬ InPool v.ctx y ∧ (c.heap y).isUsed = true
  kept : ∀ xs, NodeList v xs → NodeList ⟨c.heap, v.ctx⟩ xs ∧ ∀ p ∈ xs, c.heap p = v.heap p
  answers : ∀ virt n, virtaddrTake k ⟨c.heap, v.ctx⟩ virt n = some (1, ⟨c.heap, v.ctx⟩) ↔
    virtaddrTake k c virt n = some (1, c)

theorem mem_arrayNodes : p ∈ arrayNodes a i n ↔ p.arr = a ∧ i ≤ p.idx ∧ p.idx < i + n := by
  obtain ⟨arr, j⟩ := p
  simp only [arrayNodes, List.mem_map, mem_range'_1, Ptr.mk.injEq]
  constructor
  · rintro ⟨j', h1, rfl, rfl⟩
    exact ⟨rfl, h1⟩
  · rintro ⟨rfl, h1⟩
    exact ⟨j, h1, rfl, rfl⟩

theorem seg_arrayNodes (n i : Nat) (hnext : ∀ j, i ≤ j → j < i + n → nextOf h ⟨a, j⟩ = some ⟨a, j + 1⟩)
    (hseg : Seg (nextOf h) (some ⟨a, i⟩) ys none) :
    ∃ rest, ys = arrayNodes a i (n + 1) ++ rest ∧ Seg (nextOf h) (nextOf h ⟨a, i + n⟩) rest none := by
  induction n generalizing i ys with
  | zero =>
    cases ys with
    | nil => cases hseg
    | cons y ys =>
      obtain rfl := some.inj hseg.1
      exact ⟨ys, rfl, hseg.2⟩
  | succ n ih =>
    cases ys with
    | nil => cases hseg
    | cons y ys =>
      obtain rfl := some.inj hseg.1
      have htail := hseg.2
      rw [hnext i le_rfl (by omega)] at htail
      obtain ⟨rest, rfl, hrest⟩ := ih (i + 1) (fun j h1 h2 => hnext j (by omega) (by omega)) htail
      refine ⟨rest, ?_, ?_⟩
      · rw [arrayNodes, range'_succ]
        rfl
      · rwa [show i + (n + 1) = i + 1 + n by omega]

theorem arrayNodes_length (a i n : Nat) : (arrayNodes a i n).length = n := by
  rw [arrayNodes, length_map, length_range']

theorem eq_of_map_eq {α β : Type} {f : α → β} {l l' : List α}
    (hinj : ∀ x ∈ l, ∀ y ∈ l', f x = f y → x = y) (h : l.map f = l'.map f) : l = l' := by
  induction l generalizing l' with
  | nil =>
    cases l' with
    | nil => rfl
    | cons y l' => simp at h
  | cons x l ih =>
    cases l' with
    | nil => simp at h
    | cons y l' =>
      simp only [map_cons, cons.injEq] at h
      have hxy := hinj x (by simp) y (by simp) h.1
      have hrest := ih (fun a ha b hb => hinj a (by simp [ha]) b (by simp [hb])) h.2
      rw [hxy, hrest]

theorem Valid.block_injective (h : Valid v xs) (hp : p ∈ xs) (hq : q ∈ xs)
    (heq : block v.heap p = block v.heap q) : p = q := by
  apply inj_on_of_nodup_map (f := block v.heap) _ hp hq heq
  have hsorted := h.tiles.sorted
  apply Pairwise.imp_of_mem _ hsorted
  intro a b ha _ hab heq
  have := h.tiles.bounds ha
  subst heq
  omega

/-- If the clone describes the same blocks with used nodes, then the list was in pool order. -/
theorem Valid.poolOrder_of_copied (h : Valid v xs) (hf : FreshArrays v.ctx new newNodes)
    (hc : virtaddrClone v new (some newNodes) = some c) (hys : NodeList c ys)
    (hblocks : blocks c ys = blocks v xs) (hused : ∀ y ∈ ys, (c.heap y).isUsed = true) :
    xs = arrayNodes v.ctx.boot 0 (v.ctx.usedNodeCount + 1) := by
  have hcount := h.links.count
  have hlen : ys.length = v.ctx.usedNodeCount + 1 := by
    have := congrArg length hblocks
    simp only [blocks, length_map] at this
    omega
  have hstart : c.ctx.startNode = some ⟨new, 0⟩ := by
    cases hc
    rfl
  rw [NodeList, hstart] at hys
  have hnext := fun i h1 h2 => virtaddrClone_boot_next (i := i) hc h1 h2
  -- the clone's list runs through the new array, at most to its end
  obtain ⟨rest, hrest, hseg⟩ := seg_arrayNodes (min v.ctx.usedNodeCount 255) 0
    (fun j _ hj => by rw [hnext j (by omega) (by omega), if_pos (by omega)]) hys
  have hle : v.ctx.usedNodeCount ≤ 255 := by
    by_contra hgt
    have hend := hnext 255 (by omega) (by omega)
    rw [if_neg (by omega)] at hend
    rw [show 0 + min v.ctx.usedNodeCount 255 = 255 by omega, hend] at hseg
    cases rest with
    | nil =>
      rw [hrest, append_nil, arrayNodes_length] at hlen
      omega
    | cons y rest => exact absurd hseg.1 (by simp)
  have hnil : rest = [] := by
    rw [hrest, length_append, arrayNodes_length] at hlen
    exact length_eq_zero_iff.mp (by omega)
  rw [hnil, append_nil, show min v.ctx.usedNodeCount 255 = v.ctx.usedNodeCount by omega] at hrest
  have hdata := fun i hi => virtaddrClone_boot_data (i := i) hf hc hi
  -- the same entries of the old array are used, hence in the old list
  have hmem : ∀ p ∈ arrayNodes v.ctx.boot 0 (v.ctx.usedNodeCount + 1), p ∈ xs := by
    intro p hp
    obtain ⟨h1, -, h3⟩ := mem_arrayNodes.mp hp
    apply (h.links.used p).mpr
    refine ⟨.inl ⟨h1, by omega⟩, ?_⟩
    have hin : (⟨new, p.idx⟩ : Ptr) ∈ ys := by
      rw [hrest]
      exact mem_arrayNodes.mpr ⟨rfl, Nat.zero_le _, h3⟩
    have := hused _ hin
    rw [(hdata p.idx (by omega)).2, ← h1] at this
    exact this
  symm
  apply eq_of_map_eq (f := block v.heap)
  · intro p hp q hq heq
    exact h.block_injective (hmem p hp) hq heq
  · rw [blocks, hrest, blocks] at hblocks
    rw [← hblocks, arrayNodes, arrayNodes, List.map_map, List.map_map]
    apply map_congr_left
    intro i hi
    have hi' := (mem_range'_1.mp hi).2
    exact (hdata i (by omega)).1.symm

theorem seg_of_linked (n i : Nat) (hnext : ∀ j, i ≤ j → j < i + n → nextOf h ⟨a, j⟩ = some ⟨a, j + 1⟩)
    (hlast : nextOf h ⟨a, i + n⟩ = none) :
    Seg (nextOf h) (some ⟨a, i⟩) (arrayNodes a i (n + 1)) none := by
  induction n generalizing i with
  | zero => exact ⟨rfl, hlast⟩
  | succ n ih =>
    rw [arrayNodes, range'_succ]
    refine ⟨rfl, ?_⟩
    rw [hnext i le_rfl (by omega)]
    apply ih (i + 1)
    · intro j h1 h2
      exact hnext j (by omega) (by omega)
    · rwa [show i + 1 + n = i + (n + 1) by omega]

theorem refused_iff {n : Int} :
    virtaddrTake k v virt n = some (1, v) ↔ 1 ≤ n ∧ findNode v (takeSkips virt n) = some none := by
  unfold virtaddrTake
  by_cases hn : n < 1
  · rw [if_pos hn]
    simp
    omega
  · rw [if_neg hn]
    cases hfind : findNode v (takeSkips virt n) with
    | none => simp
    | some found =>
      cases found with
      | none => simpa using by omega
      | some node =>
        simp only [bind_some, reduceCtorEq, some.injEq, and_false, iff_false]
        intro h
        obtain ⟨v1, -, h⟩ := bind_eq_some_iff.mp h
        obtain ⟨v2, -, h⟩ := map_eq_some_iff.mp h
        exact absurd (Prod.mk.inj h).1 (by simp)

def blockSkips (virt : Nat) (n : Int) (b : Block) : Bool :=
  b.alloc || decide (b.start > virt) || decide (b.stop < toU64 (virt + nLength n))

theorem findNode_none_iff {n : Int} (h : NodeList v xs) (hlen : xs.length < walkFuel) :
    findNode v (takeSkips virt n) = some none ↔ ∀ b ∈ blocks v xs, blockSkips virt n b = true := by
  rw [findNode, walk_eq _ none h hlen, map_some, some.injEq, head?_eq_none_iff,
    dropWhile_eq_nil_iff]
  constructor
  · intro hall b hb
    obtain ⟨p, hp, rfl⟩ := mem_map.mp hb
    exact hall p hp
  · intro hall p hp
    exact hall (block v.heap p) (List.mem_map_of_mem hp)

theorem copyBoot_of_ne {old : Nat} (hp : p.arr ≠ new) : copyBoot h old new p = h p :=
  if_neg fun hc => hp hc.1

theorem Valid.clone_heap (h : Valid v xs) (hf : FreshArrays v.ctx new newNodes)
    (hboot : ∀ p ∈ xs, p.arr = v.ctx.boot) (hc : virtaddrClone v new (some newNodes) = some c) :
    (∀ p : Ptr, p.arr ≠ new → p.arr ≠ newNodes → c.heap p = v.heap p) ∧
      ∀ i, v.ctx.usedNodeCount ≤ i → i < 256 → c.heap ⟨new, i⟩ = v.heap ⟨v.ctx.boot, i⟩ := by
  cases hc
  -- no node of the old heap array is used, so only the new arrays are written
  have hun := updateNodePtrs_unused (c := v.ctx) (h := copyBoot v.heap v.ctx.boot new)
    newNodes v.ctx.allocNodeCount (fun p h1 h2 => by
      have hne : p.arr ≠ new := fun he => hf.new_alloc (he ▸ h1)
      rw [copyBoot_of_ne hne]
      by_contra hused
      have hp := (h.links.used p).mpr ⟨.inr ⟨h1, h2⟩, by simpa using hused⟩
      exact h.links.pool.apart (hboot p hp ▸ h1))
  constructor
  · intro p h1 h2
    simp only [relinkBoot_apply]
    rw [if_neg fun he => h1 he.1, hun.1 p h2, copyBoot_of_ne h1]
  · intro i h1 h2
    simp only [relinkBoot_apply, BOOTSTRAP_VIRT_ALLOC_NODES]
    rw [if_neg (by omega), hun.1 ⟨new, i⟩ hf.apart.symm]
    exact if_pos ⟨rfl, h2⟩

theorem Valid.cloneFaithful (h : Valid v xs) (hf : FreshArrays v.ctx new newNodes)
    (hxs : xs = arrayNodes v.ctx.boot 0 (v.ctx.usedNodeCount + 1))
    (hc : virtaddrClone v new (some newNodes) = some c) : CloneFaithful k v c := by
  have hboot : ∀ p ∈ xs, p.arr = v.ctx.boot := by
    intro p hp
    rw [hxs] at hp
    exact (mem_arrayNodes.mp hp).1
  have hle : v.ctx.usedNodeCount < 256 := by
    have hmem : (⟨v.ctx.boot, v.ctx.usedNodeCount⟩ : Ptr) ∈ xs := by
      rw [hxs]
      exact mem_arrayNodes.mpr ⟨rfl, Nat.zero_le _, by simp⟩
    rcases ((h.links.used _).mp hmem).1 with hin | hin
    · exact hin.2
    · exact absurd hin.1 h.links.pool.apart
  obtain ⟨hold, hnew⟩ := h.clone_heap hf hboot hc
  have hkeep : ∀ p ∈ xs, c.heap p = v.heap p := by
    intro p hp
    apply hold p
    · rw [hboot p hp]
      exact hf.new_boot.symm
    · rw [hboot p hp]
      exact hf.nodes_boot.symm
  have hlist : NodeList v xs := h.links.list.fwd
  have hkept : NodeList ⟨c.heap, v.ctx⟩ xs := hlist.congr fun p hp => by
    rw [nextOf, hkeep p hp, nextOf]
  have hdata := fun i hi => virtaddrClone_boot_data (i := i) hf hc hi
  have hstart : c.ctx.startNode = some ⟨new, 0⟩ := by
    cases hc
    rfl
  -- the last node keeps its link, which is null
  have hlast : nextOf c.heap ⟨new, 0 + v.ctx.usedNodeCount⟩ = none := by
    have hend : nextOf v.heap ⟨v.ctx.boot, v.ctx.usedNodeCount⟩ = none := by
      have hsplit : xs = arrayNodes v.ctx.boot 0 v.ctx.usedNodeCount ++
          ⟨v.ctx.boot, v.ctx.usedNodeCount⟩ :: [] := by
        rw [hxs, arrayNodes, range'_1_concat, map_append]
        simp [arrayNodes]
      exact (hsplit ▸ h.links.list).next_eq
    rw [zero_add, nextOf, hnew _ le_rfl hle]
    exact hend
  have hys : NodeList c (arrayNodes new 0 (v.ctx.usedNodeCount + 1)) := by
    rw [NodeList, hstart]
    apply seg_of_linked _ _ _ hlast
    intro j _ hj
    rw [virtaddrClone_boot_next hc (by omega) (by omega), if_pos (by omega)]
  have hblocks : blocks c (arrayNodes new 0 (v.ctx.usedNodeCount + 1)) = blocks v xs := by
    rw [blocks, blocks, hxs, arrayNodes, arrayNodes, List.map_map, List.map_map]
    apply map_congr_left
    intro i hi
    have hi' := (mem_range'_1.mp hi).2
    exact (hdata i (by omega)).1
  have hblocks' : blocks ⟨c.heap, v.ctx⟩ xs = blocks v xs :=
    blocks_congr fun p hp => by rw [block, hkeep p hp, block]
  refine ⟨?_, ?_, ?_⟩
  · intro zs hzs
    obtain rfl := hlist.unique hzs
    refine ⟨_, hys, hblocks, ?_⟩
    intro y hy
    obtain ⟨h1, -, h3⟩ := mem_arrayNodes.mp hy
    constructor
    · intro hin
      rcases hin with hin | hin
      · exact hf.new_boot (h1.symm.trans hin.1)
      · exact hf.new_alloc (h1 ▸ hin.1)
    · obtain ⟨arr, i⟩ := y
      obtain rfl : arr = new := h1
      simp only at h3
      rw [(hdata i (by omega)).2]
      apply ((h.links.used ⟨v.ctx.boot, i⟩).mp _).2
      rw [hxs]
      exact mem_arrayNodes.mpr ⟨rfl, Nat.zero_le _, h3⟩
  · intro zs hzs
    obtain rfl := hlist.unique hzs
    exact ⟨hkept, hkeep⟩
  · intro virt n
    have hlen : xs.length < walkFuel := by
      rw [← h.links.count]
      unfold walkFuel
      omega
    rw [refused_iff, refused_iff, findNode_none_iff hkept hlen, findNode_none_iff hys, hblocks, hblocks']
    rw [arrayNodes_length]
    unfold walkFuel
    omega

theorem Valid.cloneFaithful_iff (h : Valid v xs) (hf : FreshArrays v.ctx new newNodes)
    (hc : virtaddrClone v new (some newNodes) = some c) : CloneFaithful k v c ↔ PoolOrder v := by
  have hlist : NodeList v xs := h.links.list.fwd
  constructor
  · intro hclone
    obtain ⟨ys, hys, hblocks, hmem⟩ := hclone.copied xs hlist
    have hxs := h.poolOrder_of_copied hf hc hys hblocks fun y hy => (hmem y hy).2
    rw [PoolOrder, ← hxs]
    exact hlist
  · intro horder
    exact h.cloneFaithful hf (hlist.unique horder) hc

/-- For every context that runs of requests lead to, a successful `virtaddr_clone` is faithful
exactly when the list runs through the bootstrap nodes in the order of the array. -/
theorem run_clone_faithful_iff {h : Heap} {boot kernelEnd : Nat} {v0 : Virt}
    (hpos : PositiveReservation kernelEnd) (hinit : virtaddrInit k h boot kernelEnd = some v0)
    (hrun : Reach (step k) (Unmoved k) v0 v) (hf : FreshArrays v.ctx new newNodes)
    (hc : virtaddrClone v new (some newNodes) = some c) : CloneFaithful k v c ↔ PoolOrder v := by
  obtain ⟨xs, hv⟩ : ∃ xs, Valid v xs :=
    hrun.invariant (virtaddrInit_valid hpos hinit) fun _ _ _ hs hop hstep => step_unmoved hs hop hstep
  exact hv.cloneFaithful_iff hf hc

/-- The reservation alone leaves the list in pool order. -/
theorem run_clone_faithful_iff_init :
    ∃ v c, PoolOrder v ∧ virtaddrClone v 1 (some 2) = some c ∧ CloneFaithful noKalloc v c := by
  have hrun : ((virtaddrInit noKalloc (fun _ => zeroNode) 0 0x101000).map fun v0 =>
      (v0.ctx, (v0.heap ⟨0, 0⟩).next, (v0.heap ⟨0, 1⟩).next)) =
      some (⟨0, none, some ⟨0, 0⟩, 0, 0, 1, false⟩, some ⟨0, 1⟩, none) := by
    decide +kernel
  obtain ⟨v, hinit, hv⟩ := map_eq_some_iff.mp hrun
  obtain ⟨hctx, hrest⟩ := Prod.mk.inj hv
  obtain ⟨hn0, hn1⟩ := Prod.mk.inj hrest
  have horder : PoolOrder v := by
    rw [PoolOrder, NodeList, hctx]
    exact ⟨rfl, hn0, hn1⟩
  have hf : FreshArrays v.ctx 1 2 := by
    rw [hctx]
    exact ⟨by simp, by simp, by simp, by simp, by simp⟩
  refine ⟨v, _, horder, rfl, ?_⟩
  exact (run_clone_faithful_iff ⟨by decide +kernel, by decide +kernel⟩ hinit .start hf rfl).mpr horder

/-- After one request in the middle of the free block the list visits the nodes 0, 2, 1, 3. The
clone links 0, 1, 2, 3. -/
theorem clone_reorders_blocks :
    ∃ v0 v c, virtaddrInit noKalloc (fun _ => zeroNode) 0 0x101000 = some v0 ∧
      step noKalloc v0 (.take 0x40000000 3) = some v ∧ virtaddrClone v 1 (some 2) = some c ∧
      ¬ CloneFaithful noKalloc v c := by
  have hrun : ((virtaddrInit noKalloc (fun _ => zeroNode) 0 0x101000).bind fun v0 =>
      (step noKalloc v0 (.take 0x40000000 3)).map fun v =>
        (v.ctx, (v.heap ⟨0, 0⟩).next)) =
      some (⟨0, none, some ⟨0, 0⟩, 0, 0, 3, false⟩, some ⟨0, 2⟩) := by
    decide +kernel
  obtain ⟨v0, hinit, hrest⟩ := bind_eq_some_iff.mp hrun
  obtain ⟨v, hstep, hv⟩ := map_eq_some_iff.mp hrest
  obtain ⟨hctx, hn0⟩ := Prod.mk.inj hv
  have hctx0 : v0.ctx.usedNodeCount = 1 ∧ v0.ctx.allocNodeCount = 0 := by
    have h0 : (virtaddrInit noKalloc (fun _ => zeroNode) 0 0x101000).map
        (fun v0 => (v0.ctx.usedNodeCount, v0.ctx.allocNodeCount)) = some (1, 0) := by
      decide +kernel
    rw [hinit] at h0
    exact Prod.mk.inj (some.inj h0)
  obtain ⟨xs, hvalid⟩ : ∃ xs, Valid v xs := by
    apply step_unmoved (virtaddrInit_valid ⟨by decide +kernel, by decide +kernel⟩ hinit) _ hstep
    exact ⟨⟨by decide, by decide, by decide⟩, .inl (by omega)⟩
  have hf : FreshArrays v.ctx 1 2 := by
    rw [hctx]
    exact ⟨by simp, by simp, by simp, by simp, by simp⟩
  refine ⟨v0, v, _, hinit, hstep, rfl, ?_⟩
  intro hclone
  have horder := (hvalid.cloneFaithful_iff hf rfl).mp hclone
  rw [PoolOrder, NodeList, hctx] at horder
  -- the second node of the list is not the second of the array
  have hsecond : nextOf v.heap ⟨0, 0⟩ = some ⟨0, 1⟩ := horder.2.1
  rw [nextOf, hn0] at hsecond
  cases hsecond

end Comus.VirtAlloc
