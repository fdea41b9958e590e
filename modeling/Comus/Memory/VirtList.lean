import Mathlib.Data.List.TakeWhile
import Comus.Lib.Tiling
import Comus.Memory.VirtNodes

/-!
# Taking and releasing address ranges

`Valid v xs` is the invariant of the allocator between calls: the linked nodes
`xs` tile the address space, no two neighbours are both free and the first
block is allocated. `virtaddr_take` replaces a free block by its pieces,
`virtaddr_free` merges a block with its free neighbours.
-/

namespace Comus.VirtAlloc

open Word Chain Tiling Option List Function

variable {k : Kalloc} {v w : Virt} {xs as bs : List Ptr} {x node : Ptr} {virt upper : Nat}
variable {n : Int} {v1 v2 : Virt} {r l : Ptr}

def block (h : Heap) (p : Ptr) : Block := ⟨(h p).start, (h p).stop, (h p).isAlloc⟩

def blocks (v : Virt) (xs : List Ptr) : List Block := xs.map (block v.heap)

structure Valid (v : Virt) (xs : List Ptr) : Prop where
  links : Links v xs
  tiles : Tiles 0 (blocks v xs) addressEnd
  coalesced : Coalesced (blocks v xs)
  first : ∀ b ∈ (blocks v xs).head?, b.alloc = true

theorem blocks_congr (h : ∀ p ∈ xs, block w.heap p = block v.heap p) : blocks w xs = blocks v xs :=
  map_congr_left h

theorem modify_apply (h : Heap) (p q : Ptr) (f : Node → Node) :
    modify h p f q = if q = p then f (h q) else h q := by
  unfold modify
  split_ifs with hq
  · rw [hq, update_self]
  · exact update_of_ne hq _ _

theorem Links.modify_data (hl : Links v xs) {f : Node → Node}
    (hf : ∀ n, (f n).next = n.next ∧ (f n).prev = n.prev ∧ (f n).isUsed = n.isUsed) (p : Ptr) :
    Links { v with heap := modify v.heap p f } xs := by
  have hsame : ∀ q, (modify v.heap p f q).next = (v.heap q).next ∧
      (modify v.heap p f q).prev = (v.heap q).prev ∧
      (modify v.heap p f q).isUsed = (v.heap q).isUsed := fun q => by
    rw [modify_apply]
    split_ifs
    · exact hf _
    · exact ⟨rfl, rfl, rfl⟩
  refine ⟨hl.list.congr (fun q _ => (hsame q).1) fun q _ => (hsame q).2.1, fun q => ?_, hl.count,
    hl.pool, hl.start⟩
  rw [hl.used q, (hsame q).2.2]

theorem Links.splitLeft_spec (hl : Links v (as ++ x :: node :: bs))
    (hok : GrowthOk k v.ctx (as ++ x :: node :: bs)) (hlt : (v.heap node).start < virt)
    (hs : splitLeft k v node virt = some w) :
    ∃ l v', getNode k v = some (l, v') ∧ w.ctx = v'.ctx ∧ Links w (as ++ x :: l :: node :: bs) ∧
      block w.heap l = ⟨(v.heap node).start, virt, false⟩ ∧
      ∀ q ∈ as ++ x :: node :: bs, block w.heap q = block v.heap q := by
  rw [splitLeft, if_pos hlt] at hs
  obtain ⟨⟨l, v'⟩, hg, rfl⟩ := map_eq_some_iff.mp hs
  have hf := hl.getNode_fresh hok hg
  have hnot : ∀ q ∈ as ++ x :: node :: bs, q ≠ l := fun q hq he => hf.notMem (he ▸ hq)
  have hprev : (v.heap node).prev = some x := by
    have := (show as ++ x :: node :: bs = (as ++ [x]) ++ node :: bs by simp) ▸ hl.list
    have := this.prev_eq
    simpa [prevOf] using this
  have hnode := hnot node (by simp)
  have hx := hnot x (by simp)
  simp only [modify_apply, if_neg hnode, hf.same node (by simp), hprev, setNextIf, setNext, setPrev]
  refine ⟨l, v', hg, rfl, hf.insert hl ?_ ?_ ?_ ?_ ?_, ?_, ?_⟩
  · intro q
    simp only [modify_apply]
    split_ifs <;> simp_all
  · intro q hq
    simp only [modify_apply, if_neg hq]
    split_ifs <;> rfl
  · intro q hq
    simp only [modify_apply, if_neg hq, head?_cons, some.injEq, eq_comm (a := node)]
    split_ifs <;> rfl
  · simp [modify_apply, hnode.symm, hx.symm]
  · simp [modify_apply, hnode.symm, hx.symm]
  · simp [block, modify_apply, hnode.symm, hx.symm]
  · intro q hq
    simp only [block, modify_apply, if_neg (hnot q hq), ← hf.same q hq]
    split_ifs <;> rfl

theorem setPrevIf_apply (h : Heap) (p v : Option Ptr) (q : Ptr) :
    setPrevIf h p v q = if p = some q then { h q with prev := v } else h q := by
  cases p with
  | none => rfl
  | some p =>
    rw [setPrevIf, setPrev, modify_apply]
    simp only [some.injEq, eq_comm]

theorem setNextIf_apply (h : Heap) (p v : Option Ptr) (q : Ptr) :
    setNextIf h p v q = if p = some q then { h q with next := v } else h q := by
  cases p with
  | none => rfl
  | some p =>
    rw [setNextIf, setNext, modify_apply]
    simp only [some.injEq, eq_comm]

theorem Links.splitRight_spec (hl : Links v (as ++ node :: bs)) (hok : GrowthOk k v.ctx (as ++ node :: bs))
    (hlt : upper < (v.heap node).stop) (hs : splitRight k v node upper = some w) :
    ∃ r, Links w (as ++ node :: r :: bs) ∧
      block w.heap r = ⟨upper, (v.heap node).stop, false⟩ ∧
      ∀ q ∈ as ++ node :: bs, block w.heap q = block v.heap q := by
  rw [splitRight, if_pos hlt] at hs
  obtain ⟨⟨r, v'⟩, hg, rfl⟩ := map_eq_some_iff.mp hs
  have hf := hl.getNode_fresh hok hg
  have hnot : ∀ q ∈ as ++ node :: bs, q ≠ r := fun q hq he => hf.notMem (he ▸ hq)
  have hnext : (v.heap node).next = bs.head? := hl.list.next_eq
  have hnode := hnot node (by simp)
  have hrhead : ¬ bs.head? = some r := fun he => hnot r (by simp [mem_of_mem_head? he]) rfl
  simp only [modify_apply, if_neg hnode, hf.same node (by simp), hnext]
  refine ⟨r, hf.insert hl ?_ ?_ ?_ ?_ ?_, ?_, ?_⟩
  · intro q
    simp only [setNext, setPrevIf_apply, modify_apply]
    split_ifs <;> rfl
  · intro q hq
    simp only [setNext, setPrevIf_apply, modify_apply, if_neg hq]
    split_ifs <;> rfl
  · intro q hq
    simp only [setNext, setPrevIf_apply, modify_apply, if_neg hq]
    split_ifs <;> rfl
  · simp [setNext, setPrevIf_apply, modify_apply, hnode.symm, hrhead]
  · simp [setNext, setPrevIf_apply, modify_apply, hnode.symm, hrhead]
  · simp [block, setNext, setPrevIf_apply, modify_apply, hnode.symm, hrhead]
  · intro q hq
    simp only [block, setNext, setPrevIf_apply, modify_apply, if_neg (hnot q hq), ← hf.same q hq]
    split_ifs <;> rfl

theorem Links.findNode_eq (hl : Links v xs) (skip : Node → Bool) :
    findNode v skip = some (xs.dropWhile fun p => skip (v.heap p)).head? := by
  have hlen := hl.length_le
  have hsmall := hl.pool.small
  rw [findNode, walk_eq _ none hl.list.fwd (by unfold walkFuel; omega), map_some]

theorem Links.findNode_cases (hl : Links v xs) (skip : Node → Bool) :
    (findNode v skip = some none ∧ ∀ p ∈ xs, skip (v.heap p) = true) ∨
    ∃ as node bs, xs = as ++ node :: bs ∧ findNode v skip = some (some node) ∧
      skip (v.heap node) = false := by
  rw [hl.findNode_eq]
  cases hd : xs.dropWhile fun p => skip (v.heap p) with
  | nil => exact .inl ⟨rfl, dropWhile_eq_nil_iff.mp hd⟩
  | cons node bs =>
    refine .inr ⟨xs.takeWhile fun p => skip (v.heap p), node, bs, ?_, rfl, ?_⟩
    · rw [← hd, takeWhile_append_dropWhile]
    · have := head_dropWhile_not (fun p => skip (v.heap p)) (l := xs) (by simp [hd])
      simpa [hd] using this

/-- The requests of callers: fewer than `2 ^ 19` pages inside the address space. -/
structure Request (virt : Nat) (n : Int) : Prop where
  pos : 1 ≤ n
  lt : n < 2^19
  inside : virt + 4096 * n ≤ addressEnd

def requestEnd (virt : Nat) (n : Int) : Nat := virt + 4096 * n.toNat

theorem nLength_eq (h1 : 1 ≤ n) (h2 : n < 2^19) : nLength n = 4096 * n := by
  unfold nLength
  rw [toI32_of_lt (by omega) (by omega)]
  omega

theorem Request.toU64_eq (h : Request virt n) :
    toU64 (virt + nLength n) = requestEnd virt n := by
  have h1 := h.pos
  have h2 := h.inside
  unfold addressEnd at h2
  rw [nLength_eq h.pos h.lt, requestEnd]
  rw [toU64_of_nonneg (by omega) (by omega)]
  omega

theorem Request.lt_end (h : Request virt n) :
    virt < requestEnd virt n ∧ requestEnd virt n ≤ addressEnd := by
  have h1 := h.pos
  have h2 := h.inside
  unfold requestEnd
  omega

theorem Valid.exists_prev (h : Valid v xs) (hx : xs = as ++ node :: bs)
    (hfree : (v.heap node).isAlloc = false) : ∃ cs x, as = cs ++ [x] := by
  subst hx
  rcases eq_nil_or_concat as with rfl | ⟨cs, x, rfl⟩
  · have := h.first (block v.heap node) (by simp [blocks])
    rw [block, hfree] at this
    cases this
  · exact ⟨cs, x, by simp⟩

theorem Valid.find (h : Valid v xs) (hr : Request virt n) :
    (¬ FreeRange (blocks v xs) virt (requestEnd virt n) ∧
      findNode v (takeSkips virt n) = some none) ∨
    (FreeRange (blocks v xs) virt (requestEnd virt n) ∧
      ∃ as x node bs, xs = as ++ x :: node :: bs ∧
        findNode v (takeSkips virt n) = some (some node) ∧ (v.heap node).isAlloc = false ∧
        (v.heap node).start ≤ virt ∧ requestEnd virt n ≤ (v.heap node).stop) := by
  have hiff := freeRange_iff h.tiles h.coalesced (Nat.zero_le virt) hr.lt_end.1 hr.lt_end.2
  rcases h.links.findNode_cases (takeSkips virt n) with ⟨hnone, hall⟩ | ⟨as, node, bs, rfl, hsome, hno⟩
  · refine .inl ⟨fun hfree => ?_, hnone⟩
    obtain ⟨b, hb, hb1, hb2, hb3⟩ := hiff.mp hfree
    obtain ⟨p, hp, rfl⟩ := mem_map.mp hb
    have := hall p hp
    simp only [takeSkips, hr.toU64_eq, Bool.or_eq_true, decide_eq_true_eq] at this
    simp only [block] at hb1 hb2 hb3
    rw [hb1] at this
    simp only [Bool.false_eq_true, false_or] at this
    omega
  · simp only [takeSkips, hr.toU64_eq, Bool.or_eq_false_iff, decide_eq_false_iff_not,
      not_lt, gt_iff_lt] at hno
    obtain ⟨⟨h1, h2⟩, h3⟩ := hno
    refine .inr ⟨hiff.mpr ⟨block v.heap node, by simp [blocks], h1, h2, h3⟩, ?_⟩
    obtain ⟨cs, x, rfl⟩ := h.exists_prev rfl h1
    exact ⟨cs, x, node, bs, by simp, hsome, h1, h2, h3⟩

theorem Valid.take_refused (h : Valid v xs) (hr : Request virt n)
    (hno : ¬ FreeRange (blocks v xs) virt (requestEnd virt n)) :
    virtaddrTake k v virt n = some (1, v) := by
  have hpos := hr.pos
  rcases h.find hr with ⟨-, hfind⟩ | ⟨hfree, -⟩
  · rw [virtaddrTake, if_neg (by omega), hfind, bind_some]
  · exact absurd hfree hno

/-- What may happen in the second `get_node` of a call. -/
def GrowthOkNext (k : Kalloc) (v : Virt) (xs : List Ptr) : Prop :=
  ∀ l w, getNode k v = some (l, w) → ∀ ys, (∀ y ∈ ys, y = l ∨ y ∈ xs) → GrowthOk k w.ctx ys

theorem Links.splitLeft_all (hl : Links v (as ++ x :: node :: bs))
    (hok : GrowthOk k v.ctx (as ++ x :: node :: bs))
    (hnext : GrowthOkNext k v (as ++ x :: node :: bs))
    (hs : splitLeft k v node virt = some w) :
    ∃ ls, Links w (as ++ x :: (ls ++ node :: bs)) ∧
      GrowthOk k w.ctx (as ++ x :: (ls ++ node :: bs)) ∧
      blocks w ls =
        (if (v.heap node).start < virt then [⟨(v.heap node).start, virt, false⟩] else []) ∧
      ∀ q ∈ as ++ x :: node :: bs, block w.heap q = block v.heap q := by
  by_cases hlt : (v.heap node).start < virt
  · obtain ⟨l, v', hg, hctx, hw, hbl, hsame⟩ := hl.splitLeft_spec hok hlt hs
    refine ⟨[l], hw, ?_, by rw [if_pos hlt, blocks, map_singleton, hbl], hsame⟩
    rw [hctx]
    refine hnext l v' hg _ fun y hy => ?_
    simp only [mem_append, mem_cons, not_mem_nil, or_false] at hy ⊢
    tauto
  · rw [splitLeft, if_neg hlt] at hs
    cases hs
    exact ⟨[], hl, hok, by rw [if_neg hlt]; rfl, fun q _ => rfl⟩

theorem Links.splitRight_all (hl : Links v (as ++ node :: bs))
    (hok : GrowthOk k v.ctx (as ++ node :: bs)) (hs : splitRight k v node upper = some w) :
    ∃ rs, Links w (as ++ node :: (rs ++ bs)) ∧
      blocks w rs =
        (if upper < (v.heap node).stop then [⟨upper, (v.heap node).stop, false⟩] else []) ∧
      ∀ q ∈ as ++ node :: bs, block w.heap q = block v.heap q := by
  by_cases hlt : upper < (v.heap node).stop
  · obtain ⟨r, hw, hbr, hsame⟩ := hl.splitRight_spec hok hlt hs
    exact ⟨[r], hw, by rw [if_pos hlt, blocks, map_singleton, hbr], hsame⟩
  · rw [splitRight, if_neg hlt] at hs
    cases hs
    exact ⟨[], hl, by rw [if_neg hlt]; rfl, fun q _ => rfl⟩

theorem blocks_append (v : Virt) (xs ys : List Ptr) : blocks v (xs ++ ys) = blocks v xs ++ blocks v ys :=
  map_append

theorem blocks_cons (v : Virt) (x : Ptr) (xs : List Ptr) :
    blocks v (x :: xs) = block v.heap x :: blocks v xs := rfl

theorem blocks_modify (hnodup : (as ++ node :: bs).Nodup) (f : Node → Node) :
    blocks { v with heap := modify v.heap node f } (as ++ node :: bs) =
      blocks v as ++ block (modify v.heap node f) node :: blocks v bs := by
  obtain ⟨h1, h2, -⟩ := ne_of_nodup_append hnodup
  have hother : ∀ ys : List Ptr, (∀ y ∈ ys, y ≠ node) →
      blocks { v with heap := modify v.heap node f } ys = blocks v ys := fun ys hys =>
    blocks_congr fun y hy => by simp only [block, modify_apply, if_neg (hys y hy)]
  rw [blocks_append, blocks_cons, hother as h1, hother bs h2]

theorem Links.take_pieces {f : Block} (h : Links v (as ++ x :: node :: bs))
    (hok : GrowthOk k v.ctx (as ++ x :: node :: bs))
    (hnext : GrowthOkNext k v (as ++ x :: node :: bs)) (hleft : splitLeft k v node virt = some v1)
    (hright : splitRight k v1 node upper = some v2) (hf : f = block v.heap node) :
    ∃ ys, node ∈ ys ∧ Links { v2 with heap := modify v2.heap node fun d =>
          { d with start := virt, stop := upper, isAlloc := true } } ys ∧
      blocks { v2 with heap := modify v2.heap node fun d =>
          { d with start := virt, stop := upper, isAlloc := true } } ys =
        blocks v (as ++ [x]) ++ (pieces f virt upper ++ blocks v bs) := by
  obtain ⟨ls, hl1, hok1, hbl, hsame1⟩ := h.splitLeft_all hok hnext hleft
  rw [show as ++ x :: (ls ++ node :: bs) = (as ++ x :: ls) ++ node :: bs by simp] at hl1 hok1
  obtain ⟨rs, hl2, hbr, hsame2⟩ := hl1.splitRight_all hok1 hright
  have hnode : block v1.heap node = f := by rw [hsame1 node (by simp), hf]
  have hstop : (v1.heap node).stop = f.stop := by rw [← hnode, block]
  have hstart : (v.heap node).start = f.start := by rw [hf, block]
  rw [hstart] at hbl
  rw [hstop] at hbr
  refine ⟨(as ++ x :: ls) ++ node :: (rs ++ bs), by simp, ?_, ?_⟩
  · refine hl2.modify_data ?_ node
    exact fun d => ⟨rfl, rfl, rfl⟩
  rw [blocks_modify hl2.list.nodup]
  -- what lies outside of the three pieces has kept its blocks
  have hx : blocks v2 (as ++ [x]) = blocks v (as ++ [x]) := blocks_congr fun q hq => by
    have hq' : q ∈ as ∨ q = x := by simpa using hq
    rw [hsame2 q (by simp; tauto), hsame1 q (by simp; tauto)]
  have hls : blocks v2 ls = blocks v1 ls := blocks_congr fun q hq => hsame2 q (by simp [hq])
  have hbs : blocks v2 bs = blocks v bs := blocks_congr fun q hq => by
    rw [hsame2 q (by simp [hq]), hsame1 q (by simp [hq])]
  have hmid : block (modify v2.heap node fun d =>
      { d with start := virt, stop := upper, isAlloc := true }) node =
      ⟨virt, upper, true⟩ := by
    rw [block, modify_apply, if_pos rfl]
  rw [show as ++ x :: ls = (as ++ [x]) ++ ls by simp, blocks_append, hx, hls, hbl, hmid,
    blocks_append v2 rs bs, hbr, hbs]
  simp [pieces]

/-- The block list of `bs'` arises from `bs` by taking `[a, c)`. -/
def TakenFrom (bs bs' : List Block) (a c : Nat) : Prop :=
  ∃ pre f post, bs = pre ++ f :: post ∧ f.alloc = false ∧ f.start ≤ a ∧ c ≤ f.stop ∧ pre ≠ [] ∧
    bs' = pre ++ (pieces f a c ++ post)

theorem Valid.take {r : Nat} (h : Valid v xs) (hr : Request virt n)
    (hok : GrowthOk k v.ctx xs) (hnext : GrowthOkNext k v xs)
    (ht : virtaddrTake k v virt n = some (r, w)) :
    (r = 1 ∧ w = v ∧ ¬ FreeRange (blocks v xs) virt (requestEnd virt n)) ∨
    (r = 0 ∧ FreeRange (blocks v xs) virt (requestEnd virt n) ∧
      ∃ ys, Valid w ys ∧ TakenFrom (blocks v xs) (blocks w ys) virt (requestEnd virt n)) := by
  have hpos := hr.pos
  rcases h.find hr with ⟨hno, -⟩ | ⟨hfree, as, x, node, bs, rfl, hfind, h1, h2, h3⟩
  · rw [h.take_refused hr hno] at ht
    cases ht
    exact .inl ⟨rfl, rfl, hno⟩
  · rw [virtaddrTake, if_neg (by omega), hfind, bind_some] at ht
    obtain ⟨v1, hleft, ht⟩ := bind_eq_some_iff.mp ht
    obtain ⟨v2, hright, ht⟩ := map_eq_some_iff.mp ht
    cases ht
    rw [hr.toU64_eq] at hright ⊢
    obtain ⟨ys, -, hlinks, hblocks⟩ := h.links.take_pieces hok hnext hleft hright rfl
    have hsplit : blocks v (as ++ x :: node :: bs) =
        blocks v (as ++ [x]) ++ block v.heap node :: blocks v bs := by
      simp [blocks]
    have hne : blocks v (as ++ [x]) ≠ [] := by simp [blocks]
    have htiles := h.tiles
    have hco := h.coalesced
    have hfirst := h.first
    rw [hsplit] at htiles hco hfirst
    refine .inr ⟨rfl, hfree, ys, ⟨hlinks, ?_, ?_, ?_⟩, ?_⟩
    · rw [hblocks]
      exact htiles.split h2 hr.lt_end.1 h3
    · rw [hblocks]
      exact hco.split h1 virt (requestEnd virt n)
    · rw [hblocks]
      rw [head?_append_of_ne_nil _ hne] at hfirst ⊢
      exact hfirst
    · exact ⟨_, _, _, hsplit, h1, h2, h3, hne, hblocks⟩

theorem splitRight_isSome (node : Ptr) (upper : Nat) (hg : ∃ p w, getNode k v = some (p, w)) :
    ∃ w, splitRight k v node upper = some w := by
  obtain ⟨p, w, hg⟩ := hg
  unfold splitRight
  split_ifs
  · rw [hg]
    exact ⟨_, rfl⟩
  · exact ⟨_, rfl⟩

theorem virtaddrTake_found (hn : 1 ≤ n)
    (hfind : findNode v (takeSkips virt n) = some (some node)) (hleft : splitLeft k v node virt = some v1)
    (hright : splitRight k v1 node (toU64 (virt + nLength n)) = some v2) :
    ∃ w, virtaddrTake k v virt n = some (0, w) := by
  rw [virtaddrTake, if_neg (by omega), hfind, bind_some]
  simp only [hleft, bind_some, hright, map_some]
  exact ⟨_, rfl⟩

theorem Valid.take_isSome (h : Valid v xs) (hr : Request virt n)
    (hfree : FreeRange (blocks v xs) virt (requestEnd virt n))
    (hroom : v.ctx.usedNodeCount + 17 < 256 + v.ctx.allocNodeCount) :
    ∃ w, virtaddrTake k v virt n = some (0, w) := by
  have hpos := hr.pos
  rcases h.find hr with ⟨hno, -⟩ | ⟨-, as, x, node, bs, rfl, hfind, -⟩
  · exact absurd hfree hno
  have hgrow : ∀ {u : Virt} {ys : List Ptr}, Links u ys →
      u.ctx.usedNodeCount + 16 < 256 + u.ctx.allocNodeCount → mustGrow u.ctx = false := by
    intro u ys hu hlt
    rw [hu.mustGrow_eq]
    simpa using hlt
  have hno := hgrow h.links (by omega)
  obtain ⟨l, v0, hg, hused0, hcount0⟩ := h.links.getNode_isSome (k := k) (by omega)
  -- the first split leaves room for the second
  obtain ⟨v1, hleft, hl1, hroom1⟩ : ∃ v1, splitLeft k v node virt = some v1 ∧
      (∃ ys, Links v1 ys) ∧ v1.ctx.usedNodeCount + 16 < 256 + v1.ctx.allocNodeCount := by
    by_cases hlt : (v.heap node).start < virt
    · have hs : ∃ v1, splitLeft k v node virt = some v1 := by
        rw [splitLeft, if_pos hlt, hg]
        exact ⟨_, rfl⟩
      obtain ⟨v1, hs⟩ := hs
      have hok : GrowthOk k v.ctx (as ++ x :: node :: bs) := fun hm => by simp [hno] at hm
      obtain ⟨l', v0', hg', hctx, hw, -⟩ := h.links.splitLeft_spec hok hlt hs
      rw [hg] at hg'
      cases hg'
      exact ⟨v1, hs, ⟨_, hw⟩, by rw [hctx]; omega⟩
    · exact ⟨v, by rw [splitLeft, if_neg hlt], ⟨_, h.links⟩, by omega⟩
  obtain ⟨ys, hl1⟩ := hl1
  obtain ⟨r, v2, hg2, -⟩ := hl1.getNode_isSome (k := k) hroom1
  obtain ⟨v3, hright⟩ := splitRight_isSome node (toU64 (virt + nLength n)) ⟨r, v2, hg2⟩
  exact virtaddrTake_found hr.pos hfind hleft hright

theorem walkFuel_eq : ∃ fuel, walkFuel = fuel + 2 := ⟨2^64 - 2, by norm_num [walkFuel]⟩

theorem Links.mergeBack_stop (hl : Links v (as ++ x :: node :: bs))
    (hx : (v.heap x).isAlloc = true) : mergeBack v node = some v := by
  have hprev : (v.heap node).prev = some x := by
    rw [show as ++ x :: node :: bs = (as ++ [x]) ++ node :: bs by simp] at hl
    simpa [prevOf] using hl.list.prev_eq
  obtain ⟨fuel, hfuel⟩ := walkFuel_eq
  rw [mergeBack, hfuel, hprev, mergeBackLoop, if_pos hx, map_some, hprev]
  rfl

theorem Links.mergeForward_stop (hl : Links v (as ++ node :: bs))
    (hstop : ∀ y, bs.head? = some y → (v.heap y).isAlloc = true) : mergeForward v node = some v := by
  have hnext : (v.heap node).next = bs.head? := hl.list.next_eq
  obtain ⟨fuel, hfuel⟩ := walkFuel_eq
  rw [mergeForward, hfuel, hnext]
  cases hb : bs.head? with
  | none => rfl
  | some y => rw [mergeForwardLoop, if_pos (hstop y hb)]

theorem absorbPrev_apply (hprev : (v.heap l).prev = some x) (hln : l ≠ node) (hxn : x ≠ node)
    (hxl : x ≠ l) (q : Ptr) :
    (absorbPrev v node l).heap q =
      if q = l then { v.heap q with isUsed := false }
      else if q = node then { v.heap q with start := (v.heap l).start, prev := some x }
      else if q = x then { v.heap q with next := some node }
      else v.heap q := by
  simp only [absorbPrev, freeNode, modify_apply, setNextIf_apply, hprev, if_true, some.injEq]
  by_cases h1 : q = l
  · subst h1
    simp [hln, hxl]
  · by_cases h2 : q = node
    · subst h2
      simp [h1, hxn]
    · simp [h1, h2, eq_comm]

theorem absorbNext_apply (hrn : r ≠ node) (hr : (v.heap r).next ≠ some r)
    (hn : (v.heap r).next ≠ some node) (q : Ptr) :
    (absorbNext v node r).heap q =
      if q = r then { v.heap q with isUsed := false }
      else if q = node then { v.heap q with stop := (v.heap r).stop, next := (v.heap r).next }
      else if (v.heap r).next = some q then { v.heap q with prev := some node }
      else v.heap q := by
  simp only [absorbNext, freeNode, modify_apply, setPrevIf_apply, if_true]
  by_cases h1 : q = r
  · subst h1
    simp [hrn, hr]
  · by_cases h2 : q = node
    · subst h2
      simp [h1, hn]
    · simp [h1, h2]

theorem absorbPrev_ctx (v : Virt) (node l : Ptr) :
    (absorbPrev v node l).ctx = { v.ctx with usedNodeCount := sub64 v.ctx.usedNodeCount 1 } := rfl

theorem absorbNext_ctx (v : Virt) (node r : Ptr) :
    (absorbNext v node r).ctx = { v.ctx with usedNodeCount := sub64 v.ctx.usedNodeCount 1 } := rfl

theorem Links.absorbPrev_spec (hl : Links v (as ++ x :: l :: node :: bs)) :
    Links (absorbPrev v node l) (as ++ x :: node :: bs) ∧
      block (absorbPrev v node l).heap node =
        ⟨(v.heap l).start, (v.heap node).stop, (v.heap node).isAlloc⟩ ∧
      (∀ q, q ≠ node → block (absorbPrev v node l).heap q = block v.heap q) ∧
      ((absorbPrev v node l).heap l).prev = some x ∧
      ((absorbPrev v node l).heap node).prev = some x := by
  have hlprev : (v.heap l).prev = some x := by
    have := (show as ++ x :: l :: node :: bs = (as ++ [x]) ++ l :: node :: bs by simp) ▸ hl.list
    simpa [prevOf] using this.prev_eq
  have hne2 := ne_of_nodup_append (by simpa using hl.list.nodup :
    ((as ++ [x]) ++ l :: node :: bs).Nodup)
  have hne3 := ne_of_nodup_append (by simpa using hl.list.nodup :
    ((as ++ [x, l]) ++ node :: bs).Nodup)
  have hln : l ≠ node := hne3.1 l (by simp)
  have hxn : x ≠ node := hne3.1 x (by simp)
  have happ := absorbPrev_apply hlprev hln hxn (hne2.1 x (by simp))
  refine ⟨Links.remove (h := (absorbPrev v node l).heap) (v := v) (p := l) hl ?_ ?_ ?_, ?_, fun q hq => ?_, ?_, ?_⟩
  · intro q
    rw [happ]
    split_ifs <;> rfl
  · intro q hq
    rw [happ, if_neg hq]
    split_ifs <;> simp_all
  · intro q hq
    rw [happ, if_neg hq]
    simp only [head?_cons, some.injEq, eq_comm (a := node)]
    split_ifs <;> rfl
  · simp [block, happ, hln.symm]
  · simp only [block, happ, if_neg hq]
    split_ifs <;> rfl
  · simp [happ, hlprev]
  · simp [happ, hln.symm]

theorem Links.absorbNext_spec (hl : Links v (as ++ node :: r :: bs)) :
    Links (absorbNext v node r) (as ++ node :: bs) ∧
      block (absorbNext v node r).heap node =
        ⟨(v.heap node).start, (v.heap r).stop, (v.heap node).isAlloc⟩ ∧
      (∀ q, q ≠ node → block (absorbNext v node r).heap q = block v.heap q) ∧
      ((absorbNext v node r).heap r).next = bs.head? := by
  have hrnext : (v.heap r).next = bs.head? := by
    have := (show as ++ node :: r :: bs = (as ++ [node]) ++ r :: bs by simp) ▸ hl.list
    exact this.next_eq
  have hne := ne_of_nodup_append hl.list.nodup
  have hne2 := ne_of_nodup_append (by simpa using hl.list.nodup :
    ((as ++ [node]) ++ r :: bs).Nodup)
  have hrn : r ≠ node := hne.2.1 r (by simp)
  have hhead : ∀ y, bs.head? = some y → y ∈ bs := fun y hy => mem_of_mem_head? hy
  have hnhead : ¬ bs.head? = some node := fun he => hne.2.1 node (by simp [hhead node he]) rfl
  have happ := absorbNext_apply (v := v) hrn
    (by rw [hrnext]; exact fun he => hne2.2.1 r (hhead r he) rfl) (by rwa [hrnext])
  rw [hrnext] at happ
  refine ⟨Links.remove (h := (absorbNext v node r).heap) (v := v) (p := r) hl ?_ ?_ ?_, ?_, fun q hq => ?_, ?_⟩
  · intro q
    rw [happ]
    split_ifs <;> rfl
  · intro q hq
    rw [happ, if_neg hq]
    split_ifs <;> rfl
  · intro q hq
    rw [happ, if_neg hq]
    by_cases hqn : q = node
    · rw [if_pos hqn, hqn, if_neg hnhead]
    · rw [if_neg hqn]
      split_ifs <;> rfl
  · simp [block, happ, hrn.symm]
  · simp only [block, happ, if_neg hq]
    split_ifs <;> rfl
  · simp [happ, hrnext]

/-- By coalescing, `merge_back` absorbs at most one block. -/
theorem Links.mergeBack_free (hl : Links v (as ++ x :: l :: node :: bs))
    (hfree : (v.heap l).isAlloc = false) (hx : (v.heap x).isAlloc = true) :
    mergeBack v node = some (absorbPrev v node l) := by
  have hprev : (v.heap node).prev = some l := by
    have := (show as ++ x :: l :: node :: bs = (as ++ [x, l]) ++ node :: bs by simp) ▸ hl.list
    simpa [prevOf] using this.prev_eq
  obtain ⟨-, -, hsame, hp1, hp2⟩ := hl.absorbPrev_spec
  have hxn : x ≠ node := by
    have := ne_of_nodup_append hl.list.nodup
    exact fun he => this.2.1 node (by simp) he.symm
  have halloc : ((absorbPrev v node l).heap x).isAlloc = true := by
    rw [← hx]
    exact congrArg Block.alloc (hsame x hxn)
  obtain ⟨fuel, hfuel⟩ := walkFuel_eq
  rw [mergeBack, hfuel, hprev, mergeBackLoop, if_neg (by simp [hfree])]
  simp only [hp1]
  rw [mergeBackLoop, if_pos halloc, map_some, hp2]
  rfl

theorem Links.mergeForward_free (hl : Links v (as ++ node :: r :: bs)) (hfree : (v.heap r).isAlloc = false)
    (hstop : ∀ y, bs.head? = some y → (v.heap y).isAlloc = true) :
    mergeForward v node = some (absorbNext v node r) := by
  have hnext : (v.heap node).next = some r := hl.list.next_eq
  obtain ⟨-, -, hsame, hn⟩ := hl.absorbNext_spec
  have hne := ne_of_nodup_append hl.list.nodup
  obtain ⟨fuel, hfuel⟩ := walkFuel_eq
  rw [mergeForward, hfuel, hnext, mergeForwardLoop, if_neg (by simp [hfree])]
  simp only [hn]
  cases hb : bs.head? with
  | none => rfl
  | some y =>
    have hyn : y ≠ node := hne.2.1 y (by simp [mem_of_mem_head? hb])
    have halloc : ((absorbNext v node r).heap y).isAlloc = true := by
      rw [← hstop y hb]
      exact congrArg Block.alloc (hsame y hyn)
    rw [mergeForwardLoop, if_pos halloc]

structure Released (v : Virt) (as : List Ptr) (node : Ptr) (bs : List Ptr) : Prop where
  links : Links v (as ++ node :: bs)
  free : (v.heap node).isAlloc = false
  tiles : Tiles 0 (blocks v (as ++ node :: bs)) addressEnd
  left : Coalesced (blocks v as)
  right : Coalesced (blocks v bs)
  first : ∃ b, (blocks v as).head? = some b ∧ b.alloc = true
  last : ∀ b ∈ (blocks v as).getLast?, b.alloc = true

theorem blocks_head? (v : Virt) (xs : List Ptr) :
    (blocks v xs).head? = xs.head?.map (block v.heap) := head?_map

theorem blocks_update {m : Block} (hnodup : (as ++ node :: bs).Nodup)
    (hsame : ∀ q, q ≠ node → block w.heap q = block v.heap q) (hm : block w.heap node = m) :
    blocks w (as ++ node :: bs) = blocks v as ++ m :: blocks v bs ∧ blocks w as = blocks v as ∧
      blocks w bs = blocks v bs := by
  obtain ⟨h1, h2, -⟩ := ne_of_nodup_append hnodup
  have has : blocks w as = blocks v as := blocks_congr fun q hq => hsame q (h1 q hq)
  have hbs : blocks w bs = blocks v bs := blocks_congr fun q hq => hsame q (h2 q hq)
  refine ⟨?_, has, hbs⟩
  rw [blocks_append, blocks_cons, has, hbs, hm]

theorem Released.mergeForward (h : Released v as node bs) :
    ∃ w cs, VirtAlloc.mergeForward v node = some w ∧ Valid w (as ++ node :: cs) ∧
      w.ctx.allocNodeCount = v.ctx.allocNodeCount ∧
      allocated (blocks w (as ++ node :: cs)) = allocated (blocks v as) ++ allocated (blocks v bs) := by
  have htiles := h.tiles
  obtain ⟨b0, hb0, hb0a⟩ := h.first
  have hne : blocks v as ≠ [] := fun he => by simp [he] at hb0
  -- the list starts in `as`, which keeps its blocks
  have hvalid : ∀ {u : Virt} {cs : List Ptr}, Links u (as ++ node :: cs) →
      Tiles 0 (blocks u (as ++ node :: cs)) addressEnd → Coalesced (blocks u cs) →
      blocks u as = blocks v as → (∀ b ∈ (blocks u cs).head?, b.alloc = true) →
      Valid u (as ++ node :: cs) := by
    intro u cs hl ht hco has hfirst
    refine ⟨hl, ht, ?_, ?_⟩
    · rw [blocks_append, blocks_cons, has]
      exact coalesced_between h.left hco h.last hfirst
    · rw [blocks_append, has, head?_append_of_ne_nil _ hne, hb0]
      rintro b ⟨rfl⟩
      exact hb0a
  by_cases hstop : ∀ y, bs.head? = some y → (v.heap y).isAlloc = true
  · refine ⟨v, bs, h.links.mergeForward_stop hstop, hvalid h.links htiles h.right rfl ?_, rfl, ?_⟩
    · intro b hb
      rw [blocks_head?] at hb
      obtain ⟨y, hy, rfl⟩ := map_eq_some_iff.mp hb
      exact hstop y hy
    · rw [blocks_append, blocks_cons, allocated_append, allocated_cons_of_free h.free]
  · push Not at hstop
    obtain ⟨r, hr, hfree⟩ := hstop
    obtain ⟨cs, rfl⟩ := head?_eq_some_iff.mp hr
    have hfree' : (v.heap r).isAlloc = false := by simpa using hfree
    have hnext : ∀ b ∈ (blocks v cs).head?, b.alloc = true := fun b hb => by
      have := (isChain_cons.mp h.right).1 b hb
      simpa [block, hfree'] using this
    have hl := h.links
    obtain ⟨hlinks, hblock, hsame, -⟩ := hl.absorbNext_spec
    obtain ⟨h1, h2, h3⟩ := blocks_update hlinks.list.nodup hsame hblock
    refine ⟨_, cs, hl.mergeForward_free hfree' ?_, hvalid hlinks ?_ ?_ h2 ?_, ?_, ?_⟩
    · intro y hy
      exact hnext (block v.heap y) (by rw [blocks_head?, hy]; rfl)
    · rw [h1]
      rw [blocks_append, blocks_cons, blocks_cons] at htiles
      exact htiles.merge_next
    · rw [h3]
      exact (isChain_cons.mp h.right).2
    · rw [h3]
      exact hnext
    · rw [absorbNext_ctx]
    · rw [h1, blocks_cons, allocated_append, allocated_cons_of_free h.free, allocated_cons_of_free hfree']

theorem Valid.mergeBack (h : Valid v (as ++ x :: node :: bs)) (hv1 : v1 = { v with heap := modify v.heap node fun d => { d with isAlloc := false } }) :
    ∃ w cs, VirtAlloc.mergeBack v1 node = some w ∧ Released w cs node bs ∧
      w.ctx.allocNodeCount = v.ctx.allocNodeCount ∧ blocks w bs = blocks v bs ∧
      allocated (blocks w cs) = allocated (blocks v (as ++ [x])) := by
  have hl1 : Links v1 (as ++ x :: node :: bs) := by
    rw [hv1]
    refine h.links.modify_data ?_ node
    exact fun d => ⟨rfl, rfl, rfl⟩
  have hlist : as ++ x :: node :: bs = (as ++ [x]) ++ node :: bs := by simp
  have hsame1 : ∀ q, q ≠ node → block v1.heap q = block v.heap q := fun q hq => by
    rw [hv1]
    simp only [block, modify_apply, if_neg hq]
  have hnode : block v1.heap node = ⟨(v.heap node).start, (v.heap node).stop, false⟩ := by
    rw [hv1]
    simp only [block, modify_apply, if_true]
  have hxn : x ≠ node := fun he => (ne_of_nodup_append hl1.list.nodup).2.1 node (by simp) he.symm
  have hxalloc : (v1.heap x).isAlloc = (v.heap x).isAlloc := congrArg Block.alloc (hsame1 x hxn)
  have htiles := h.tiles
  have hco := h.coalesced
  have hfirst := h.first
  rw [hlist, blocks_append, blocks_cons] at htiles hco hfirst
  have hne : blocks v (as ++ [x]) ≠ [] := by simp [blocks]
  rw [head?_append_of_ne_nil _ hne] at hfirst
  obtain ⟨hco1, hco2, -⟩ := isChain_append.mp hco
  have hright := (isChain_cons.mp hco2).2
  rw [hlist] at hl1
  obtain ⟨hb1, hb2, hb3⟩ := blocks_update hl1.list.nodup hsame1 hnode
  by_cases hx : (v.heap x).isAlloc = true
  · refine ⟨v1, as ++ [x], ?_, ⟨hl1, congrArg Block.alloc hnode, ?_, ?_, ?_, ?_, ?_⟩, by rw [hv1], hb3,
      by rw [hb2]⟩
    · rw [← hlist] at hl1
      exact hl1.mergeBack_stop (hxalloc.trans hx)
    · rw [hb1]
      exact htiles.release false
    · rwa [hb2]
    · rwa [hb3]
    · rw [hb2]
      obtain ⟨b, hb⟩ := exists_cons_of_ne_nil hne
      obtain ⟨rest, hb⟩ := hb
      exact ⟨b, by rw [hb]; rfl, hfirst b (by rw [hb]; rfl)⟩
    · rw [hb2, blocks_append]
      intro b hb
      obtain rfl : block v.heap x = b := by simpa [blocks] using hb
      exact hx
  · have hxfree : (v.heap x).isAlloc = false := by simpa using hx
    obtain ⟨ds, y, rfl⟩ := h.exists_prev rfl hxfree
    have hsplit : (ds ++ [y]) ++ [x] = ds ++ y :: [x] := by simp
    -- the block before a free block is allocated
    have hy : (v.heap y).isAlloc = true := by
      rw [hsplit, blocks_append] at hco1
      have := (isChain_append_cons_cons.mp hco1).2.1
      simpa [block, hxfree] using this
    rw [show (ds ++ [y]) ++ [x] ++ node :: bs = ds ++ y :: x :: node :: bs by simp] at hl1
    have hyn : y ≠ node := fun he => (ne_of_nodup_append hl1.list.nodup).2.1 node (by simp) he.symm
    have hyalloc : (v1.heap y).isAlloc = true := (congrArg Block.alloc (hsame1 y hyn)).trans hy
    obtain ⟨hlinks, hblock, hsame2, -⟩ := hl1.absorbPrev_spec
    rw [show ds ++ y :: node :: bs = (ds ++ [y]) ++ node :: bs by simp] at hlinks
    have hsame : ∀ q, q ≠ node → block (absorbPrev v1 node x).heap q = block v.heap q :=
      fun q hq => (hsame2 q hq).trans (hsame1 q hq)
    have hblock' : block (absorbPrev v1 node x).heap node =
        ⟨(v.heap x).start, (v.heap node).stop, false⟩ := by
      rw [hblock]
      have h1 := congrArg Block.start (hsame1 x hxn)
      have h2 := congrArg Block.stop hnode
      have h3 := congrArg Block.alloc hnode
      simp only [block] at h1 h2 h3
      rw [h1, h2, h3]
    obtain ⟨hc1, hc2, hc3⟩ := blocks_update hlinks.list.nodup hsame hblock'
    rw [blocks_append v (ds ++ [y]) [x]] at hco1 hfirst htiles
    have hne' : blocks v (ds ++ [y]) ≠ [] := by simp [blocks]
    rw [head?_append_of_ne_nil _ hne'] at hfirst
    refine ⟨_, ds ++ [y], hl1.mergeBack_free (hxalloc.trans hxfree) hyalloc,
      ⟨hlinks, congrArg Block.alloc hblock', ?_, ?_, ?_, ?_, ?_⟩, ?_, hc3, ?_⟩
    · rw [hc1]
      rw [append_assoc] at htiles
      exact (htiles.merge_prev).release false
    · rw [hc2]
      exact (isChain_append.mp hco1).1
    · rwa [hc3]
    · rw [hc2]
      obtain ⟨b, rest, hb⟩ := exists_cons_of_ne_nil hne'
      exact ⟨b, by rw [hb]; rfl, hfirst b (by rw [hb]; rfl)⟩
    · rw [hc2, blocks_append]
      intro b hb
      obtain rfl : block v.heap y = b := by simpa [blocks] using hb
      exact hy
    · rw [absorbPrev_ctx, hv1]
    · rw [hc2, blocks_append v (ds ++ [y]) [x], allocated_append, blocks_cons, allocated_cons_of_free hxfree]
      exact (append_nil _).symm

theorem Valid.start_lt (h : Valid v (as ++ node :: bs)) {y : Ptr} (hy : y ∈ as) :
    (v.heap y).start < (v.heap node).start := by
  have hmem : block v.heap y ∈ blocks v as := List.mem_map_of_mem hy
  have hsorted := h.tiles.sorted
  rw [blocks_append, blocks_cons] at hsorted
  have hle : (v.heap y).stop ≤ (v.heap node).start :=
    (pairwise_append.mp hsorted).2.2 _ hmem _ mem_cons_self
  have hlt : (v.heap y).start < (v.heap y).stop :=
    (h.tiles.bounds (by rw [blocks_append]; exact mem_append_left _ hmem)).2.1
  exact lt_of_lt_of_le hlt hle

theorem Valid.findNode_start (h : Valid v (as ++ node :: bs)) (hstart : (v.heap node).start = virt) :
    findNode v (fun n => decide (n.start ≠ virt)) = some (some node) := by
  have hskip : ∀ y ∈ as, decide ((v.heap y).start ≠ virt) = true := fun y hy =>
    decide_eq_true (hstart ▸ (h.start_lt hy).ne)
  rw [h.links.findNode_eq, dropWhile_append_of_pos hskip, dropWhile_cons_of_neg (by simp [hstart]),
    head?_cons]

theorem Valid.free_found (h : Valid v (as ++ node :: bs)) (hstart : (v.heap node).start = virt)
    (hzero : virt ≠ 0) (halign : virt % PAGE_SIZE = 0) :
    ∃ w ys, virtaddrFree v virt = some (Int.tdiv (toI32 ((v.heap node).stop - virt)) 4096, w) ∧
      Valid w ys ∧ w.ctx.allocNodeCount = v.ctx.allocNodeCount ∧
      allocated (blocks w ys) = allocated (blocks v as) ++ allocated (blocks v bs) := by
  -- the first node starts at zero
  obtain ⟨cs, x, rfl⟩ : ∃ cs x, as = cs ++ [x] := by
    rcases eq_nil_or_concat as with rfl | ⟨cs, x, rfl⟩
    · have hfirst := h.tiles.1
      exact absurd (hstart.symm.trans hfirst) hzero
    · exact ⟨cs, x, by simp⟩
  have hfind := h.findNode_start hstart
  rw [append_assoc, singleton_append] at h
  obtain ⟨v2, ds, hback, hrel, hc1, hb1, ha1⟩ := h.mergeBack rfl
  obtain ⟨v3, es, hfwd, hvalid, hc2, ha2⟩ := hrel.mergeForward
  refine ⟨v3, _, ?_, hvalid, hc2.trans hc1, ?_⟩
  · rw [virtaddrFree, if_neg hzero, if_neg (by rw [halign]; decide), hfind, bind_some]
    simp only [hback, bind_some, hfwd, map_some, hstart]
  · rw [ha2, ha1, hb1]

theorem Valid.free (h : Valid v xs) (virt : Nat) :
    ∃ r w ys, virtaddrFree v virt = some (r, w) ∧ Valid w ys ∧
      w.ctx.allocNodeCount = v.ctx.allocNodeCount := by
  by_cases hzero : virt = 0
  · exact ⟨_, v, xs, by rw [virtaddrFree, if_pos hzero], h, rfl⟩
  by_cases halign : virt % PAGE_SIZE = 0
  · rcases h.links.findNode_cases fun n => decide (n.start ≠ virt) with
      ⟨hnone, -⟩ | ⟨as, node, bs, rfl, -, hstart⟩
    · refine ⟨-1, v, xs, ?_, h, rfl⟩
      rw [virtaddrFree, if_neg hzero, if_neg (by rw [halign]; decide), hnone]
      rfl
    · obtain ⟨w, ys, hrun, hvalid, hcount, -⟩ := h.free_found (by simpa using hstart) hzero halign
      exact ⟨_, w, ys, hrun, hvalid, hcount⟩
  · exact ⟨_, v, xs, by rw [virtaddrFree, if_neg hzero, if_pos halign], h, rfl⟩

end Comus.VirtAlloc
