import Comus.Memory.VirtClone

/-!
# The virtual allocator at the limits of its types

The byte length of a request is an `int` product and its end a sum modulo `2 ^ 64`.
The length of a released block is an `int` too, and a release does not ask whether
the block is allocated. For every well-formed context this module says for which
arguments the calls still do what they are for.
-/

namespace Comus.VirtAlloc

open Word Chain Tiling Run Option List

variable {k : Kalloc} {v w : Virt} {xs ys as bs : List Ptr} {node : Ptr} {virt : Nat}
variable {n : Int} {a r c count kernelEnd : Nat} {bs' : List Block}

theorem Links.unique (h : Links v xs) (h' : Links v ys) : xs = ys := h.list.fwd.unique h'.list.fwd

theorem Valid.alloc_lt (h : Valid v xs) (ha : virtaddrAlloc v n = some a) : a < addressEnd := by
  have hpos : 0 < addressEnd := by decide
  unfold virtaddrAlloc at ha
  split_ifs at ha
  · rw [← some.inj ha]
    exact hpos
  · obtain ⟨found, hfind, rfl⟩ := map_eq_some_iff.mp ha
    rcases h.links.findNode_cases fun d => d.isAlloc ||
        decide (toI64 ((d.stop : Int) - (d.start : Int)) < nLength n) with
      ⟨hnone, -⟩ | ⟨as, node, bs, rfl, hsome, -⟩
    · rw [hnone] at hfind
      rw [← some.inj hfind]
      exact hpos
    · rw [hsome] at hfind
      rw [← some.inj hfind]
      obtain ⟨hlt, hle⟩ := h.bounds (p := node) (by simp)
      exact Nat.lt_of_lt_of_le hlt hle

def pagesOf (len : Int) : Int := Int.tdiv (toI32 len) 4096

theorem pagesOf_eq {n : Nat} (hn : n < 2^19) : pagesOf (4096 * n : Nat) = n := by
  unfold pagesOf
  rw [toI32_of_lt (by omega) (by omega)]
  push_cast
  exact Int.mul_tdiv_cancel_left _ (by decide)

theorem pagesOf_lt (len : Int) : pagesOf len < 2^19 := by
  have hrange := toI32_range len
  have hsign : Int.sign 4096 = 1 := rfl
  rw [pagesOf, Int.tdiv_eq_ediv, hsign]
  split_ifs <;> omega

theorem Valid.free_again (h : Valid v (as ++ node :: bs)) (hstart : (v.heap node).start = virt)
    (hzero : virt ≠ 0) (halign : virt % PAGE_SIZE = 0) (hfree : (v.heap node).isAlloc = false) :
    virtaddrFree v virt = some (pagesOf ((v.heap node).stop - virt), v) := by
  have hfind := h.findNode_start hstart
  obtain ⟨cs, x, rfl⟩ := h.exists_prev rfl hfree
  have hsame : modify v.heap node (fun n => { n with isAlloc := false }) = v.heap := by
    rw [modify, ← hfree]
    exact Function.update_eq_self node v.heap
  have hco := h.coalesced
  have hlinks := h.links
  rw [append_assoc, singleton_append] at hco hlinks
  have hx : (v.heap x).isAlloc = true := by
    rw [blocks_append] at hco
    have hpair := (isChain_append_cons_cons.mp hco).2.1
    simpa [block, hfree] using hpair
  have hnext : ∀ y, bs.head? = some y → (v.heap y).isAlloc = true := by
    intro y hy
    obtain ⟨ds, rfl⟩ := head?_eq_some_iff.mp hy
    rw [blocks_append] at hco
    have htail := (isChain_append_cons_cons.mp hco).2.2
    exact Coalesced.next_alloc htail hfree
  rw [virtaddrFree, if_neg hzero, if_neg (by rw [halign]; decide), hfind, bind_some]
  simp only [hsame, hlinks.mergeBack_stop hx, bind_some, hstart]
  have hstop : mergeForward v node = some v := h.links.mergeForward_stop hnext
  rw [hstop]
  rfl

/-- The allocated block of `n` pages at `a` is free afterwards, the other allocated
blocks are as before. -/
def ReleasesBlock (v w : Virt) (xs : List Ptr) (a : Nat) (n : Int) : Prop :=
  1 ≤ n ∧ ∃ as node bs ys, xs = as ++ node :: bs ∧
    block v.heap node = ⟨a, a + 4096 * n.toNat, true⟩ ∧ Valid w ys ∧
    allocated (blocks w ys) = allocated (blocks v as) ++ allocated (blocks v bs)

/-- A block that starts at `a` is allocated and of fewer than `2 ^ 19` whole pages, or it
is free and its length happens to give the count -1. -/
def ReleaseCounted (bs : List Block) (a : Nat) : Prop :=
  ∀ b ∈ bs, b.start = a → a ≠ 0 → a % PAGE_SIZE = 0 →
    if b.alloc then ∃ n, n < 2^19 ∧ b.stop = a + 4096 * n else pagesOf (b.stop - a) = -1

/-- `virtaddr_free` returns for every address. It releases the allocated block that starts
there and returns its page count, or returns -1 and changes nothing, under this condition only. -/
theorem virtaddrFree_releases_iff (h : Valid v xs) (a : Nat) : ∃ n w, virtaddrFree v a = some (n, w) ∧
    (ReleasesBlock v w xs a n ∨ n = -1 ∧ w = v ↔ ReleaseCounted (blocks v xs) a) := by
  by_cases hzero : a = 0
  · refine ⟨-1, v, by rw [virtaddrFree, if_pos hzero], ?_⟩
    exact ⟨fun _ _ _ _ hne => absurd hzero hne, fun _ => .inr ⟨rfl, rfl⟩⟩
  by_cases halign : a % PAGE_SIZE = 0
  · rcases h.links.findNode_cases fun n => decide (n.start ≠ a) with
      ⟨hnone, hall⟩ | ⟨as, node, bs, rfl, -, hstart⟩
    · -- no block starts at `a`
      refine ⟨-1, v, ?_, ?_⟩
      · rw [virtaddrFree, if_neg hzero, if_neg (by rw [halign]; decide), hnone]
        rfl
      · refine ⟨fun _ b hb hstart => ?_, fun _ => .inr ⟨rfl, rfl⟩⟩
        obtain ⟨p, hp, rfl⟩ := mem_map.mp hb
        exact absurd hstart (of_decide_eq_true (hall p hp))
    · have hstart : (v.heap node).start = a := by simpa using hstart
      have hmem : block v.heap node ∈ blocks v (as ++ node :: bs) := List.mem_map_of_mem (by simp)
      have honly : ∀ b ∈ blocks v (as ++ node :: bs), b.start = a → b = block v.heap node :=
        fun b hb hs => h.tiles.eq_of_start hb hmem (hs.trans hstart.symm)
      obtain ⟨-, hlen, -⟩ := h.tiles.bounds hmem
      have hlen : a < (v.heap node).stop := hstart ▸ hlen
      cases hfree : (v.heap node).isAlloc with
      | false =>
        refine ⟨_, v, h.free_again hstart hzero halign hfree, ?_⟩
        constructor
        · rintro (⟨-, as', node', bs', -, hsplit, hblock, -⟩ | ⟨hcount, -⟩)
          · -- no allocated block starts at `a`
            have hmem' : block v.heap node' ∈ blocks v (as ++ node :: bs) := by
              rw [hsplit]
              exact List.mem_map_of_mem (by simp)
            have hsame := honly _ hmem' (by rw [hblock])
            rw [hblock] at hsame
            have halloc := congrArg Block.alloc hsame
            exact absurd (halloc.symm.trans rfl) (by rw [block, hfree]; simp)
          · intro b hb hs _ _
            rw [honly b hb hs, block, hfree]
            exact hcount
        · intro hcounted
          have hcount := hcounted _ hmem hstart hzero halign
          rw [block, hfree] at hcount
          exact .inr ⟨hcount, rfl⟩
      | true =>
        obtain ⟨w, zs, hrun, hvalid, -, hall⟩ := h.free_found hstart hzero halign
        refine ⟨_, w, hrun, ?_⟩
        constructor
        · rintro (⟨hpos, as', node', bs', -, hsplit, hblock, -⟩ | ⟨-, rfl⟩)
          · have hmem' : block v.heap node' ∈ blocks v (as ++ node :: bs) := by
              rw [hsplit]
              exact List.mem_map_of_mem (by simp)
            have hsame := honly _ hmem' (by rw [hblock])
            rw [hblock] at hsame
            have hstop : a + 4096 * _ = (v.heap node).stop := congrArg Block.stop hsame
            intro b hb hs _ _
            rw [honly b hb hs, block, hfree, if_pos rfl]
            refine ⟨_, ?_, hstop.symm⟩
            have hlt := pagesOf_lt ((v.heap node).stop - a)
            unfold pagesOf at hlt
            omega
          · -- the block has become free
            obtain rfl := h.links.unique hvalid.links
            rw [blocks_append, blocks_cons, allocated_append, allocated_cons_of_alloc hfree] at hall
            have hlength := congrArg length hall
            rw [length_append, length_append, length_cons] at hlength
            omega
        · intro hcounted
          have hcount := hcounted _ hmem hstart hzero halign
          rw [block, hfree, if_pos rfl] at hcount
          obtain ⟨n, hn, hstop⟩ := hcount
          have hstop : (v.heap node).stop = a + 4096 * n := hstop
          have hpages : Int.tdiv (toI32 ((v.heap node).stop - a)) 4096 = n := by
            have hdiff : ((v.heap node).stop : Int) - a = (4096 * n : Nat) := by omega
            rw [hdiff]
            exact pagesOf_eq hn
          rw [hpages]
          refine .inl ⟨by omega, as, node, bs, zs, rfl, ?_, hvalid, hall⟩
          rw [block, hfree, hstart, hstop, Int.toNat_natCast]
  · refine ⟨-1, v, by rw [virtaddrFree, if_neg hzero, if_pos halign], ?_⟩
    exact ⟨fun _ _ _ _ _ hmod => absurd hmod halign, fun _ => .inr ⟨rfl, rfl⟩⟩

/-- The reservation of `virtaddr_init` and the free block behind it. -/
theorem virtaddrFree_releases_iff_init : ∃ v xs n w,
    virtaddrInit noKalloc (fun _ => zeroNode) 0 0x101000 = some v ∧ Valid v xs ∧
      virtaddrFree v 0x2000000 = some (n, w) ∧
      (ReleasesBlock v w xs 0x2000000 n ∨ n = -1 ∧ w = v ↔ ReleaseCounted (blocks v xs) 0x2000000) := by
  obtain ⟨v, hinit⟩ := virtaddrInit_isSome (k := noKalloc) (fun _ => zeroNode) 0 0x101000
  obtain ⟨xs, hvalid⟩ := virtaddrInit_valid ⟨by decide +kernel, by decide +kernel⟩ hinit
  obtain ⟨n, w, hrun⟩ := virtaddrFree_releases_iff hvalid 0x2000000
  exact ⟨v, xs, n, w, hinit, hvalid, hrun⟩

/-- Three pages between two allocated blocks are released twice. The second release returns
the count of the first, although nothing is allocated at the address. -/
theorem virtaddrFree_twice : ∃ v0 v xs,
    virtaddrInit noKalloc (fun _ => zeroNode) 0 0x101000 = some v0 ∧
      exec (step noKalloc) v0 [.take 0x1000000 3, .take 0x1003000 1, .free 0x1000000] = some v ∧
      Valid v xs ∧ virtaddrFree v 0x1000000 = some (3, v) ∧
      ¬ (ReleasesBlock v v xs 0x1000000 3 ∨ (3 : Int) = -1 ∧ v = v) := by
  have hrun : ((virtaddrInit noKalloc (fun _ => zeroNode) 0 0x101000).bind fun v0 =>
      (step noKalloc v0 (.take 0x1000000 3)).bind fun v1 => (step noKalloc v1 (.take 0x1003000 1)).bind fun v2 =>
        (step noKalloc v2 (.free 0x1000000)).map fun v =>
          (v.ctx, block v.heap ⟨0, 1⟩, (v.heap ⟨0, 1⟩).isUsed)) =
      some (⟨0, none, some ⟨0, 0⟩, 0, 0, 3, false⟩, ⟨0x1000000, 0x1003000, false⟩, true) := by
    decide +kernel
  obtain ⟨v0, hinit, hrun⟩ := bind_eq_some_iff.mp hrun
  obtain ⟨v1, h1, hrun⟩ := bind_eq_some_iff.mp hrun
  obtain ⟨v2, h2, hrun⟩ := bind_eq_some_iff.mp hrun
  obtain ⟨v, h3, hv⟩ := map_eq_some_iff.mp hrun
  obtain ⟨hctx, hv⟩ := Prod.mk.inj hv
  obtain ⟨hblock, hused⟩ := Prod.mk.inj hv
  have hreach : Reach (step noKalloc) Requested v0 v := by
    have hr1 : Request 0x1000000 3 := ⟨by decide, by decide, by decide⟩
    have hr2 : Request 0x1003000 1 := ⟨by decide, by decide, by decide⟩
    exact .step (.free 0x1000000) (.step (.take 0x1003000 1) (.step (.take 0x1000000 3) .start hr1 h1) hr2 h2)
      trivial h3
  obtain ⟨xs, hvalid⟩ := run_valid ⟨by decide +kernel, by decide +kernel⟩ hinit hreach (by rw [hctx])
  obtain ⟨as, bs, rfl⟩ : ∃ as bs, xs = as ++ ⟨0, 1⟩ :: bs := by
    apply append_of_mem
    exact (hvalid.links.used _).mpr ⟨.inl ⟨by rw [hctx], by decide⟩, hused⟩
  have hstart : (v.heap ⟨0, 1⟩).start = 0x1000000 := congrArg Block.start hblock
  have hstop : (v.heap ⟨0, 1⟩).stop = 0x1003000 := congrArg Block.stop hblock
  have hfree : (v.heap ⟨0, 1⟩).isAlloc = false := congrArg Block.alloc hblock
  have hagain := hvalid.free_again hstart (by decide) (by decide) hfree
  have hcount : pagesOf ((0x1003000 : Nat) - (0x1000000 : Nat)) = 3 := by decide +kernel
  rw [hstop, hcount] at hagain
  refine ⟨v0, v, _, hinit, ?_, hvalid, hagain, ?_⟩
  · simp only [exec, h1, h2, h3, bind_some]
  · rintro (⟨-, as', node, bs', -, hsplit, hnode, -⟩ | ⟨h, -⟩)
    · -- the only block at the address is free
      have hmem : block v.heap node ∈ blocks v (as ++ ⟨0, 1⟩ :: bs) := by
        rw [hsplit]
        exact List.mem_map_of_mem (by simp)
      have hmem' : block v.heap ⟨0, 1⟩ ∈ blocks v (as ++ ⟨0, 1⟩ :: bs) := List.mem_map_of_mem (by simp)
      have hsame := hvalid.tiles.eq_of_start hmem hmem' (by rw [hnode, hblock])
      rw [hnode, hblock] at hsame
      exact absurd (congrArg Block.alloc hsame) (by decide)
    · cases h

def TakeFound (bs : List Block) (virt : Nat) (n : Int) : Prop :=
  ∃ b ∈ bs, b.alloc = false ∧ b.start ≤ virt ∧ toU64 (virt + nLength n) ≤ b.stop

theorem takeSkips_eq_false (v : Virt) (p : Ptr) (virt : Nat) (n : Int) :
    takeSkips virt n (v.heap p) = false ↔
      (v.heap p).isAlloc = false ∧ (v.heap p).start ≤ virt ∧ toU64 (virt + nLength n) ≤ (v.heap p).stop := by
  simp only [takeSkips, Bool.or_eq_false_iff, decide_eq_false_iff_not, not_lt, gt_iff_lt, and_assoc]

theorem Valid.take_missed (h : Valid v xs) (hn : 1 ≤ n) (hno : ¬ TakeFound (blocks v xs) virt n) :
    virtaddrTake k v virt n = some (1, v) := by
  rcases h.links.findNode_cases (takeSkips virt n) with ⟨hnone, -⟩ | ⟨as, node, bs, rfl, -, hskip⟩
  · rw [virtaddrTake, if_neg (by omega), hnone, bind_some]
  · exact absurd ⟨block v.heap node, List.mem_map_of_mem (by simp), (takeSkips_eq_false v node virt n).mp hskip⟩
      hno

theorem Valid.take_found (h : Valid v xs) (hn : 1 ≤ n)
    (hfound : TakeFound (blocks v xs) virt n) (hok : GrowthOk k v.ctx xs) (hnext : GrowthOkNext k v xs)
    (ht : virtaddrTake k v virt n = some (r, w)) :
    r = 0 ∧ ∃ ys p, p ∈ ys ∧ Links w ys ∧ block w.heap p = ⟨virt, toU64 (virt + nLength n), true⟩ := by
  rcases h.links.findNode_cases (takeSkips virt n) with ⟨-, hall⟩ | ⟨as, node, bs, rfl, hfind, hskip⟩
  · obtain ⟨b, hb, hb1, hb2, hb3⟩ := hfound
    obtain ⟨p, hp, rfl⟩ := mem_map.mp hb
    have hno := (takeSkips_eq_false v p virt n).mpr ⟨hb1, hb2, hb3⟩
    rw [hall p hp] at hno
    cases hno
  · obtain ⟨cs, x, rfl⟩ := h.exists_prev rfl ((takeSkips_eq_false v node virt n).mp hskip).1
    have hlist : cs ++ [x] ++ node :: bs = cs ++ x :: node :: bs := by simp
    have hlinks := h.links
    rw [hlist] at hlinks hok hnext
    rw [virtaddrTake, if_neg (by omega), hfind, bind_some] at ht
    obtain ⟨v1, hleft, ht⟩ := bind_eq_some_iff.mp ht
    obtain ⟨v2, hright, ht⟩ := map_eq_some_iff.mp ht
    cases ht
    obtain ⟨ys, hmem, hl, -⟩ := hlinks.take_pieces hok hnext hleft hright rfl
    refine ⟨rfl, ys, node, hmem, hl, ?_⟩
    change block (modify v2.heap node _) node = _
    rw [block, modify_apply, if_pos rfl]

/-- The range of `count` pages at `virt`, computed exactly, lies in the address space and is free. -/
structure Grantable (bs : List Block) (virt count : Nat) : Prop where
  pos : 1 ≤ count
  inside : virt + 4096 * count ≤ addressEnd
  free : FreeRange bs virt (virt + 4096 * count)

def TakesExactly (v w : Virt) (xs : List Ptr) (virt count r : Nat) : Prop :=
  r = 0 ∧ Grantable (blocks v xs) virt count ∧
    (∃ ys, Valid w ys ∧ TakenFrom (blocks v xs) (blocks w ys) virt (virt + 4096 * count)) ∨
  r = 1 ∧ w = v ∧ ¬ Grantable (blocks v xs) virt count

/-- The count is positive as an `int`, and the length and the end of the range come out
exactly; or the search finds nothing for the numbers that come out and there is nothing to find. -/
def TakeCounted (bs : List Block) (virt count : Nat) : Prop :=
  1 ≤ toI32 count ∧ (count < 2^19 ∧ virt + 4096 * count < 2^64 ∨
    ¬ TakeFound bs virt (toI32 count) ∧ ¬ Grantable bs virt count)

theorem TakenFrom.mem {bs : List Block} (h : TakenFrom bs bs' a c) : ⟨a, c, true⟩ ∈ bs' := by
  obtain ⟨pre, f, post, -, -, -, -, -, rfl⟩ := h
  simp [pieces]

theorem TakenFrom.length {bs : List Block} (h : TakenFrom bs bs' a c) :
    (allocated bs').length = (allocated bs).length + 1 := by
  obtain ⟨pre, f, post, rfl, hf, -, -, -, rfl⟩ := h
  rw [allocated_append, allocated_append, allocated_pieces, allocated_append, allocated_cons_of_free hf]
  simp only [length_append, length_cons, length_nil]
  omega

theorem lt_of_nLength (hend : virt + 4096 * count ≤ addressEnd)
    (hstop : toU64 (virt + nLength n) = virt + 4096 * count) : count < 2^19 := by
  have hrange : -2^31 ≤ nLength n ∧ nLength n < 2^31 := toI32_range _
  unfold addressEnd at hend
  unfold toU64 at hstop
  omega

section Valid

variable (h : Valid v xs) (hok : GrowthOk k v.ctx xs) (hnext : GrowthOkNext k v xs)
include h hok hnext

theorem Valid.taken_lt (hpos : 1 ≤ toI32 count)
    (ht : virtaddrTake k v virt (toI32 count) = some (0, w)) (hw : Valid w ys)
    (hmem : ⟨virt, virt + 4096 * count, true⟩ ∈ blocks w ys) : count < 2^19 := by
  by_cases hfound : TakeFound (blocks v xs) virt (toI32 count)
  · obtain ⟨-, zs, p, hp, hl, hblock⟩ := h.take_found hpos hfound hok hnext ht
    obtain rfl := hl.unique hw.links
    have hmem' : block w.heap p ∈ blocks w zs := List.mem_map_of_mem hp
    have hsame := hw.tiles.eq_of_start hmem' hmem (by rw [hblock])
    rw [hblock] at hsame
    exact lt_of_nLength (hw.tiles.bounds hmem).2.2 (congrArg Block.stop hsame)
  · rw [h.take_missed hpos hfound] at ht
    cases ht

theorem TakesExactly.of_counted (ht : virtaddrTake k v virt (toI32 count) = some (r, w))
    (hc : TakeCounted (blocks v xs) virt count) : TakesExactly v w xs virt count r := by
  obtain ⟨hpos, ⟨hlt, hwrap⟩ | ⟨hmiss, hno⟩⟩ := hc
  · have hcount : toI32 count = count := toI32_of_lt (by omega) (by omega)
    rw [hcount] at hpos ht
    by_cases hin : virt + 4096 * count ≤ addressEnd
    · have hreq : Request virt count := ⟨hpos, by omega, by exact_mod_cast hin⟩
      have hend : requestEnd virt count = virt + 4096 * count := by rw [requestEnd, Int.toNat_natCast]
      have htake := h.take hreq hok hnext ht
      rw [hend] at htake
      rcases htake with ⟨rfl, rfl, hno⟩ | ⟨rfl, hfree, hys⟩
      · exact .inr ⟨rfl, rfl, fun hg => hno hg.free⟩
      · exact .inl ⟨rfl, ⟨by omega, hin, hfree⟩, hys⟩
    · -- the range ends behind the last block
      have hmiss : ¬ TakeFound (blocks v xs) virt count := by
        rintro ⟨b, hb, -, -, hstop⟩
        have hbound := (h.tiles.bounds hb).2.2
        rw [nLength_eq hpos (by omega), toU64_of_nonneg (by omega) (by omega)] at hstop
        omega
      rw [h.take_missed hpos hmiss] at ht
      cases ht
      exact .inr ⟨rfl, rfl, fun hg => hin hg.inside⟩
  · rw [h.take_missed hpos hmiss] at ht
    cases ht
    exact .inr ⟨rfl, rfl, hno⟩

theorem TakesExactly.counted (ht : virtaddrTake k v virt (toI32 count) = some (r, w))
    (hexact : TakesExactly v w xs virt count r) : TakeCounted (blocks v xs) virt count := by
  by_cases hpos : 1 ≤ toI32 count
  · refine ⟨hpos, ?_⟩
    by_cases hlt : count < 2^19 ∧ virt + 4096 * count < 2^64
    · exact .inl hlt
    · right
      by_cases hfound : TakeFound (blocks v xs) virt (toI32 count)
      · obtain ⟨rfl, -⟩ := h.take_found hpos hfound hok hnext ht
        rcases hexact with ⟨-, hgrant, ys, hvalid, htaken⟩ | ⟨hone, -⟩
        · have hcount := h.taken_lt hok hnext hpos ht hvalid htaken.mem
          have hin := hgrant.inside
          unfold addressEnd at hin
          omega
        · cases hone
      · refine ⟨hfound, fun hgrant => ?_⟩
        rw [h.take_missed hpos hfound] at ht
        cases ht
        rcases hexact with ⟨hzero, -⟩ | ⟨-, -, hno⟩
        · cases hzero
        · exact hno hgrant
  · -- nothing has been taken
    rw [virtaddrTake, if_pos (by omega)] at ht
    cases ht
    rcases hexact with ⟨-, -, ys, hvalid, htaken⟩ | ⟨hone, -⟩
    · obtain rfl := h.links.unique hvalid.links
      have hlength := htaken.length
      omega
    · cases hone

end Valid

/-- Every call of `virtaddr_take` for a page count of `mem_alloc_pages_at` that returns. -/
theorem virtaddrTake_exact_iff {count r : Nat} (h : Valid v xs) (hok : GrowthOk k v.ctx xs)
    (hnext : GrowthOkNext k v xs) (ht : virtaddrTake k v virt (toI32 count) = some (r, w)) :
    TakesExactly v w xs virt count r ↔ TakeCounted (blocks v xs) virt count :=
  ⟨TakesExactly.counted h hok hnext ht, TakesExactly.of_counted h hok hnext ht⟩

/-- Three pages behind the reservation of `virtaddr_init`. -/
theorem virtaddrTake_exact_iff_init : ∃ v xs r w,
    virtaddrInit noKalloc (fun _ => zeroNode) 0 0x101000 = some v ∧ Valid v xs ∧
      virtaddrTake noKalloc v 0x2000000 (toI32 (3 : Nat)) = some (r, w) ∧
      (TakesExactly v w xs 0x2000000 3 r ↔ TakeCounted (blocks v xs) 0x2000000 3) := by
  have hrun : ((virtaddrInit noKalloc (fun _ => zeroNode) 0 0x101000).bind fun v =>
      (virtaddrTake noKalloc v 0x2000000 (toI32 (3 : Nat))).map fun _ => v.ctx) =
      some ⟨0, none, some ⟨0, 0⟩, 0, 0, 1, false⟩ := by
    decide +kernel
  obtain ⟨v, hinit, hrun⟩ := bind_eq_some_iff.mp hrun
  obtain ⟨⟨r, w⟩, ht, hctx⟩ := map_eq_some_iff.mp hrun
  obtain ⟨xs, hvalid⟩ := virtaddrInit_valid ⟨by decide +kernel, by decide +kernel⟩ hinit
  obtain ⟨hok, hnext⟩ := hvalid.links.growthOk (k := noKalloc) (.inl (by rw [hctx]; decide))
  exact ⟨v, xs, r, w, hinit, hvalid, ht, virtaddrTake_exact_iff hvalid hok hnext ht⟩

/-- A segment of 4 GiB has the length 0 as an `int`. The request succeeds and marks an empty
range. -/
theorem virtaddrTake_empty_range : ∃ v xs w,
    virtaddrInit noKalloc (fun _ => zeroNode) 0 0x101000 = some v ∧ Valid v xs ∧
      virtaddrTake noKalloc v 0x2000000 (toI32 (2^20 : Nat)) = some (0, w) ∧
      ¬ TakesExactly v w xs 0x2000000 (2^20) 0 := by
  have hrun : ((virtaddrInit noKalloc (fun _ => zeroNode) 0 0x101000).bind fun v =>
      (virtaddrTake noKalloc v 0x2000000 (toI32 (2^20 : Nat))).map fun r =>
        (r.1, r.2.ctx, block r.2.heap ⟨0, 1⟩, (r.2.heap ⟨0, 1⟩).isUsed)) =
      some (0, ⟨0, none, some ⟨0, 0⟩, 0, 0, 3, false⟩, ⟨0x2000000, 0x2000000, true⟩, true) := by
    decide +kernel
  obtain ⟨v, hinit, hrun⟩ := bind_eq_some_iff.mp hrun
  obtain ⟨⟨r, w⟩, ht, hw⟩ := map_eq_some_iff.mp hrun
  obtain ⟨rfl, hw⟩ := Prod.mk.inj hw
  obtain ⟨hctx, hw⟩ := Prod.mk.inj hw
  obtain ⟨hblock, hused⟩ := Prod.mk.inj hw
  obtain ⟨xs, hvalid⟩ := virtaddrInit_valid ⟨by decide +kernel, by decide +kernel⟩ hinit
  refine ⟨v, xs, w, hinit, hvalid, ht, ?_⟩
  rintro (⟨-, -, ys, hys, -⟩ | ⟨h, -⟩)
  · -- no block of a list in order is empty
    have hmem : (⟨0, 1⟩ : Ptr) ∈ ys := (hys.links.used _).mpr ⟨.inl ⟨congrArg Ctx.boot hctx.symm, by decide⟩, hused⟩
    have hlt := (hys.bounds hmem).1
    have hstart := congrArg Block.start hblock
    have hstop := congrArg Block.stop hblock
    simp only [block] at hstart hstop
    omega
  · cases h

theorem Valid.free_taken {n : Nat} (h : Valid v xs) (hw : Valid w ys) (hzero : virt ≠ 0)
    (halign : virt % PAGE_SIZE = 0) (hn : n < 2^19)
    (ht : TakenFrom (blocks v xs) (blocks w ys) virt (virt + 4096 * n)) :
    ∃ u zs, virtaddrFree w virt = some ((n : Int), u) ∧ Valid u zs ∧ blocks u zs = blocks v xs := by
  obtain ⟨node, hnode, hblock⟩ := mem_map.mp ht.mem
  obtain ⟨as, bs, rfl⟩ := append_of_mem hnode
  have hstart : (w.heap node).start = virt := congrArg Block.start hblock
  have hstop : (w.heap node).stop = virt + 4096 * n := congrArg Block.stop hblock
  have halloc : (block w.heap node).alloc = true := congrArg Block.alloc hblock
  obtain ⟨u, zs, hfree, hvalid, -, hall⟩ := hw.free_found hstart hzero halign
  have hcount : Int.tdiv (toI32 ((w.heap node).stop - virt)) 4096 = n := by
    have hdiff : ((w.heap node).stop : Int) - virt = (4096 * n : Nat) := by omega
    rw [hdiff]
    exact pagesOf_eq hn
  rw [hcount] at hfree
  refine ⟨u, zs, hfree, hvalid, ?_⟩
  apply hvalid.tiles.eq_of_allocated h.tiles hvalid.coalesced h.coalesced
  -- the block is the only one between the allocated blocks before and behind it
  have htiles := hw.tiles
  rw [blocks_append, blocks_cons] at htiles ht
  obtain ⟨hleft, hright⟩ := htiles.notMem_split
  obtain ⟨pre, f, post, hv, hf, -, -, -, hsplit⟩ := ht
  have hsame := congrArg allocated hsplit
  rw [allocated_append, allocated_append, allocated_append, allocated_pieces, allocated_cons_of_alloc halloc,
    singleton_append, ← hblock] at hsame
  obtain ⟨hpre, -, hpost⟩ := (append_cons_inj_of_notMem (fun hm => hleft (mem_allocated.mp hm).1)
    fun hm => hright (mem_allocated.mp hm).1).mp hsame
  rw [hall, hpre, hpost, hv, allocated_append, allocated_cons_of_free hf]

/-- The blocks that `virtaddr_init` leaves. Of the number of the image's pages only the low
byte counts; it becomes the top byte of an `int` length. -/
def reservedBlocks (kernelEnd : Nat) : List Block :=
  let low := alignUp PAGE_SIZE kernelEnd / PAGE_SIZE % 256
  if low < 128 then [⟨0, low * 2^24, true⟩, ⟨low * 2^24, addressEnd, false⟩]
  else [⟨0, addressEnd, false⟩]

/-- Exactly the image is allocated and the rest is one free block. No later call hands out an
address of the image, and none hands out the address 0, which would be read as a failure. -/
structure ImageReserved (k : Kalloc) (v : Virt) (xs : List Ptr) (kernelEnd : Nat) : Prop where
  exactly : blocks v xs =
    [⟨0, alignUp PAGE_SIZE kernelEnd, true⟩, ⟨alignUp PAGE_SIZE kernelEnd, addressEnd, false⟩]
  alloc : ∀ w n a, Reach (step k) anyOp v w → virtaddrAlloc w n = some a → a ≠ 0 → kernelEnd ≤ a
  take : ∀ w w' n a, Reach (step k) anyOp v w → 1 ≤ n → virtaddrTake k w a n = some (0, w') → kernelEnd ≤ a
  nonzero : ∀ w n p, Reach (step k) anyOp v w → 1 ≤ n →
    findNode w (fun d => d.isAlloc || decide (toI64 ((d.stop : Int) - (d.start : Int)) < nLength n)) =
      some (some p) → (w.heap p).start ≠ 0

section Image

variable (h1 : 2^20 ≤ kernelEnd) (h2 : kernelEnd ≤ 129 * 2^20)
include h1 h2

theorem alignUp_image :
    ∃ n, alignUp PAGE_SIZE kernelEnd = 4096 * n ∧ 256 ≤ n ∧ n ≤ 33024 := by
  refine ⟨(kernelEnd + 4095) / 4096, ?_, by omega, by omega⟩
  rw [alignUp, PAGE_SIZE, u64_of_lt (by omega)]
  omega

theorem virtaddrInit_reserves {h : Heap} {boot : Nat} (hinit : virtaddrInit k h boot kernelEnd = some v) :
    ∃ xs, Links v xs ∧ blocks v xs = reservedBlocks kernelEnd := by
  obtain ⟨n, hn, hlo, hhi⟩ := alignUp_image h1 h2
  have hpages : reservedPages kernelEnd = 4096 * n := by
    rw [reservedPages, hn, toI32_of_lt (by omega) (by omega)]
    push_cast
    rfl
  have hdiv : 4096 * n / PAGE_SIZE = n := Nat.mul_div_cancel_left n (by decide)
  have hlength : nLength (4096 * n) =
      if n % 256 < 128 then ((n % 256 * 2^24 : Nat) : Int) else (n % 256 * 2^24 : Nat) - 2^32 := by
    unfold nLength toI32
    split_ifs <;> omega
  simp only [reservedBlocks, hn, hdiv]
  by_cases hlow : n % 256 < 128
  · rw [if_pos hlow] at hlength ⊢
    obtain ⟨xs, hl, hb⟩ := virtaddrInit_blocks (by omega) (by rw [hpages, hlength]; omega) hinit
    rw [hpages, hlength, Int.toNat_natCast] at hb
    exact ⟨xs, hl, hb⟩
  · -- the end of the request wraps around and no block reaches up to it
    rw [if_neg hlow] at hlength ⊢
    have hmiss : ¬ toU64 ((0 : Nat) + nLength (4096 * n)) ≤ addressEnd := by
      rw [hlength]
      unfold toU64 addressEnd
      omega
    have hfind := emptyVirt_findNode h boot (n := 4096 * n)
    rw [if_neg hmiss] at hfind
    rw [virtaddrInit, hpages, virtaddrTake, if_neg (by omega), hfind, bind_some, map_some] at hinit
    cases hinit
    refine ⟨[⟨boot, 0⟩], emptyVirt_links h boot, ?_⟩
    rw [blocks_cons, block, emptyVirt_node]
    rfl

theorem reservedBlocks_ne :
    reservedBlocks kernelEnd ≠
      [⟨0, alignUp PAGE_SIZE kernelEnd, true⟩, ⟨alignUp PAGE_SIZE kernelEnd, addressEnd, false⟩] := by
  obtain ⟨n, hn, hlo, hhi⟩ := alignUp_image h1 h2
  have hdiv : 4096 * n / PAGE_SIZE = n := Nat.mul_div_cancel_left n (by decide)
  simp only [reservedBlocks, hn, hdiv]
  split_ifs with hlow
  · intro heq
    have hstop : n % 256 * 2^24 = 4096 * n := congrArg Block.stop (cons.inj heq).1
    omega
  · intro heq
    exact absurd (congrArg length heq) (by simp)

end Image

/-- `virtaddr_init` returns and leaves these blocks; for no end of the image are they the right ones. -/
theorem virtaddrInit_never_exact {kernelEnd : Nat} (h : Heap) (boot : Nat) (h1 : 2^20 ≤ kernelEnd)
    (h2 : kernelEnd ≤ 129 * 2^20) :
    ∃ v xs, virtaddrInit k h boot kernelEnd = some v ∧ Links v xs ∧
      blocks v xs = reservedBlocks kernelEnd ∧ ¬ ImageReserved k v xs kernelEnd := by
  obtain ⟨v, hinit⟩ := virtaddrInit_isSome h boot kernelEnd
  obtain ⟨xs, hl, hb⟩ := virtaddrInit_reserves h1 h2 hinit
  exact ⟨v, xs, hinit, hl, hb, fun h => reservedBlocks_ne h1 h2 (hb ▸ h.exactly)⟩

/-- A kernel that ends at `0x101000`: 16 MiB are reserved. -/
theorem virtaddrInit_never_exact_small :
    ∃ v xs, virtaddrInit noKalloc (fun _ => zeroNode) 0 0x101000 = some v ∧ Links v xs ∧
      blocks v xs = reservedBlocks 0x101000 ∧ ¬ ImageReserved noKalloc v xs 0x101000 :=
  virtaddrInit_never_exact (fun _ => zeroNode) 0 (by decide) (by decide)

/-- An image of 128 MiB and one page: 16 MiB are reserved, and the first page that is handed
out lies in the image. -/
theorem virtaddrInit_inside_image :
    ∃ v xs, virtaddrInit noKalloc (fun _ => zeroNode) 0 0x8001000 = some v ∧ Links v xs ∧
      virtaddrAlloc v 1 = some 0x1000000 ∧ ¬ ImageReserved noKalloc v xs 0x8001000 := by
  have hrun : ((virtaddrInit noKalloc (fun _ => zeroNode) 0 0x8001000).bind fun v => virtaddrAlloc v 1) =
      some 0x1000000 := by
    decide +kernel
  obtain ⟨v, hinit, halloc⟩ := bind_eq_some_iff.mp hrun
  obtain ⟨xs, hl, -⟩ := virtaddrInit_reserves (by decide) (by decide) hinit
  exact ⟨v, xs, hinit, hl, halloc, fun h => absurd (h.alloc v 1 _ .start halloc (by decide)) (by decide)⟩

end Comus.VirtAlloc
