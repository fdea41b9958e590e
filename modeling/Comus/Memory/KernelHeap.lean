import Comus.Memory.PhysBitmap
import Comus.Memory.Spaces

/-!
# Allocating pages (kernel/memory/paging.c, kernel/lib/kalloc.c)

`mem_alloc_pages` takes a range of virtual addresses, physical pages for it and maps the
one to the other. The page count is a `size_t` for the physical pages, an `int` for the
virtual ones, and the length of the range an `int` product. `kalloc` puts a page with a
header in front of each block; the words of the header are not part of the model.
-/

namespace Comus.Paging

open Word BitField Trie Tiling Option
open VirtAlloc (Virt Kalloc Valid Links blocks block virtaddrAlloc virtaddrTake virtaddrFree addressEnd
  nLength TakeFound noKalloc zeroNode virtaddrInit)

variable {P : Type} (K : KernelImage) (A : PageAlloc P) (k : Kalloc)
variable {virt : Nat} {deallocate : Bool} {s s' : Machine P}

def allocPhysPagesExact (count : Nat) : KernelM P Nat := fun s =>
  (A.allocPhysPagesExact s.phys count).map fun (p, phys) => (p, { s with phys := phys })

def freePhysPages (p count : Nat) : KernelM P Unit := fun s =>
  some ((), { s with phys := A.freePhysPages s.phys p count })

def memAllocPagesAt (pml4 count virt flags : Nat) : SpaceM P Nat := do
  let failed ← onVirt fun v => virtaddrTake k v virt (toI32 count)
  if failed ≠ 0 then pure 0
  else
    let phys ← onMachine (allocPhysPagesExact A count)
    let failed ← (if phys = 0 then pure 1
      else onMachine (mapPages K A pml4 virt phys flags (toI64 count)) : SpaceM P Nat)
    if failed ≠ 0 then
      onMachine (freePhysPages A phys count)
      let _ ← onVirt fun v => virtaddrFree v virt
      pure 0
    else pure virt

/-- After a failure the range is released for a second time. -/
def memAllocPages (pml4 count flags : Nat) : SpaceM P Nat := do
  let virt ← onVirt fun v => (virtaddrAlloc v (toI32 count)).map fun a => (a, v)
  if virt = 0 then pure 0
  else
    let done ← memAllocPagesAt K A k pml4 count virt flags
    if done = 0 then
      let _ ← onVirt fun v => virtaddrFree v virt
      pure 0
    else pure virt

def memFreePages (pml4 virt : Nat) : SpaceM P Unit := do
  if virt = 0 then pure ()
  else
    let pages ← onVirt fun v => virtaddrFree v virt
    onMachine (unmapPages K A pml4 true pages.toNat virt)

def kallocPages (count : Nat) : SpaceM P Nat := memAllocPages K A k K.kernelPml4 count (F_PRESENT ||| F_WRITEABLE)

def kallocCount (size : Nat) : Nat := u64 (u64 (size + PAGE_SIZE - 1) / PAGE_SIZE + 1)

def kalloc (size : Nat) : SpaceM P Nat := do
  let header ← kallocPages K A k (kallocCount size)
  if header = 0 then pure 0 else pure (u64 (header + PAGE_SIZE))

variable {K A k} {c c₁ c₂ : Space P} {xs : List VirtAlloc.Ptr} {root count virt flags phys r size : Nat}

structure Allocated (K : KernelImage) (A : PageAlloc P) (k : Kalloc) (c c₁ : Space P)
    (root count virt flags phys : Nat) : Prop where
  nonzero : virt ≠ 0
  taken : virtaddrTake k c.virt virt (toI32 count) = some (0, c₁.virt)
  physical : ∃ p, A.allocPhysPagesExact c.machine.phys count = some (phys, p) ∧ phys ≠ 0 ∧
    mapPages K A root virt phys flags (toI64 count) { c.machine with phys := p } = some (0, c₁.machine)

theorem memAllocPagesAt_allocated (hrun : memAllocPagesAt K A k root count virt flags c = some (r, c₁)) (hr : r ≠ 0) :
    r = virt ∧ ∃ phys, Allocated K A k c c₁ root count virt flags phys := by
  obtain ⟨⟨b, c'⟩, htaking, hrest⟩ := bind_eq_some_iff.mp hrun
  obtain ⟨w, htake, rfl⟩ := onVirt_eq.mp htaking
  dsimp only at hrest
  by_cases hb : b = 0
  · subst hb
    rw [if_neg (by simp)] at hrest
    obtain ⟨⟨phys, c'⟩, halloc, hrest⟩ := bind_eq_some_iff.mp hrest
    obtain ⟨s, hpages, rfl⟩ := onMachine_eq.mp halloc
    obtain ⟨⟨phys', p⟩, hexact, heq⟩ := map_eq_some_iff.mp hpages
    obtain ⟨rfl, rfl⟩ := Prod.mk.inj heq
    dsimp only at hrest
    obtain ⟨⟨b, c'⟩, hmapping, hrest⟩ := bind_eq_some_iff.mp hrest
    dsimp only at hrest
    by_cases hb : b = 0
    · subst hb
      rw [if_neg (by simp)] at hrest
      obtain ⟨rfl, rfl⟩ := Prod.mk.inj (some.inj hrest)
      split_ifs at hmapping with hnull
      · cases hmapping
      · obtain ⟨s, hmap, rfl⟩ := onMachine_eq.mp hmapping
        exact ⟨rfl, phys', hr, htake, p, hexact, hnull, hmap⟩
    · rw [if_pos hb] at hrest
      obtain ⟨x, -, hx⟩ := bind_eq_some_iff.mp hrest
      exact absurd (Prod.mk.inj (some.inj hx)).1.symm hr
  · rw [if_pos hb] at hrest
    exact absurd (Prod.mk.inj (some.inj hrest)).1.symm hr

theorem memAllocPages_allocated (hrun : memAllocPages K A k root count flags c = some (r, c₁)) (hr : r ≠ 0) :
    virtaddrAlloc c.virt (toI32 count) = some r ∧ ∃ phys, Allocated K A k c c₁ root count r flags phys := by
  obtain ⟨⟨va, c'⟩, hchoice, hrest⟩ := bind_eq_some_iff.mp hrun
  obtain ⟨v, hv, rfl⟩ := onVirt_eq.mp hchoice
  obtain ⟨a, ha, heq⟩ := map_eq_some_iff.mp hv
  cases heq
  dsimp only at hrest
  split_ifs at hrest with hzero
  · exact absurd (Prod.mk.inj (some.inj hrest)).1.symm hr
  · obtain ⟨⟨b, c'⟩, hat, hrest⟩ := bind_eq_some_iff.mp hrest
    dsimp only at hrest
    split_ifs at hrest with hb
    · obtain ⟨x, -, hx⟩ := bind_eq_some_iff.mp hrest
      exact absurd (Prod.mk.inj (some.inj hx)).1.symm hr
    · cases hrest
      obtain ⟨-, phys, h⟩ := memAllocPagesAt_allocated hat hb
      exact ⟨ha, phys, h⟩

def reservedEnd (virt count : Nat) : Nat := toU64 (virt + nLength (toI32 count))

theorem Allocated.reserved (h : Allocated K A k c c₁ root count virt flags phys) (hpos : 1 ≤ toI32 count) :
    ∃ node, block c₁.virt.heap node = ⟨virt, reservedEnd virt count, true⟩ := by
  have htaken := h.taken
  rw [virtaddrTake, if_neg (by omega)] at htaken
  obtain ⟨found, -, htaken⟩ := bind_eq_some_iff.mp htaken
  cases found with
  | none => cases htaken
  | some node =>
    obtain ⟨v₁, -, hright⟩ := bind_eq_some_iff.mp htaken
    obtain ⟨v₂, -, heq⟩ := map_eq_some_iff.mp hright
    obtain ⟨-, hvirt⟩ := Prod.mk.inj heq
    refine ⟨node, ?_⟩
    rw [← hvirt]
    change block (VirtAlloc.modify v₂.heap node _) node = _
    rw [block, VirtAlloc.modify_apply, if_pos rfl]
    rfl

theorem Allocated.reservedEnd_le (h : Allocated K A k c c₁ root count virt flags phys) (hvalid : Valid c.virt xs)
    (hpos : 1 ≤ toI32 count) : reservedEnd virt count ≤ addressEnd := by
  by_cases hfound : TakeFound (blocks c.virt xs) virt (toI32 count)
  · obtain ⟨b, hb, -, -, hstop⟩ := hfound
    exact hstop.trans (hvalid.tiles.bounds hb).2.2
  · have htaken := h.taken
    rw [hvalid.take_missed hpos hfound] at htaken
    cases htaken

/-- The bytes behind the header page lie in the pages that are reserved and in those that are
mapped, and the virtual allocator gets the count that the physical one gets. -/
structure InsidePages (header count size : Nat) : Prop where
  reserved : header + PAGE_SIZE + size ≤ reservedEnd header count
  mapped : header + PAGE_SIZE + size ≤ header + PAGE_SIZE * count
  counted : toI32 count = count

theorem kallocCount_eq (h : size + 4095 < 2^64) : kallocCount size = (size + 4095) / 4096 + 1 := by
  unfold kallocCount PAGE_SIZE
  rw [show size + 4096 - 1 = size + 4095 from rfl, u64_of_lt h, u64_of_lt (by omega)]

theorem kallocCount_wraps (h : 2^64 ≤ size + 4095) (hsize : size < 2^64) : kallocCount size = 1 := by
  unfold kallocCount PAGE_SIZE u64
  omega

theorem nLength_le (n : Int) : nLength n ≤ 2^31 - 4096 := by
  unfold nLength toI32
  omega

theorem reservedEnd_eq (hvirt : virt < 2^48) (hcount : count < 2^19) (hpos : 1 ≤ count) :
    reservedEnd virt count = virt + 4096 * count := by
  rw [reservedEnd, toI32_of_lt (by omega) (by omega), VirtAlloc.nLength_eq (by omega) (by omega),
    toU64_of_nonneg (by omega) (by omega)]
  omega

theorem reservedEnd_lt (hvirt : virt < 2^48) (hend : reservedEnd virt count ≤ addressEnd) :
    reservedEnd virt count < virt + 4096 + (2^31 - 8191) := by
  have hle := nLength_le (toI32 count)
  have hrange : -2^31 ≤ nLength (toI32 count) := (toI32_range _).1
  unfold reservedEnd toU64 at *
  unfold addressEnd at hend
  omega

theorem insidePages_iff {header : Nat} (hheader : header < 2^48) (hsize : size < 2^64)
    (hend : reservedEnd header (kallocCount size) ≤ addressEnd) :
    InsidePages header (kallocCount size) size ↔ size + 4095 < 2^64 ∧ (size + 4095) / 4096 + 1 < 2^19 := by
  constructor
  · intro h
    have hreserved := h.reserved
    have hmapped := h.mapped
    rw [PAGE_SIZE] at hreserved hmapped
    have hfit : size + 4095 < 2^64 := by
      by_contra hwrap
      rw [kallocCount_wraps (by omega) hsize] at hmapped
      omega
    refine ⟨hfit, ?_⟩
    by_contra hmany
    have hlt := reservedEnd_lt hheader hend
    omega
  · rintro ⟨hfit, hfew⟩
    have hcount := kallocCount_eq hfit
    have hstop : reservedEnd header (kallocCount size) = header + 4096 * kallocCount size :=
      reservedEnd_eq hheader (by omega) (by omega)
    refine ⟨?_, ?_, toI32_of_lt (by omega) (by omega)⟩
    · rw [hstop, PAGE_SIZE]
      omega
    · rw [PAGE_SIZE]
      omega

/-- A call of `kalloc` that returns an address has reserved a block; the bytes lie in it, behind
the page of the header, if and only if neither the sum nor the product overflows. -/
theorem kalloc_inside_iff (hvalid : Valid c.virt xs) (hsize : size < 2^64)
    (hrun : kalloc K A k size c = some (r, c₁)) (hr : r ≠ 0) : ∃ header phys, r = header + PAGE_SIZE ∧
      Allocated K A k c c₁ K.kernelPml4 (kallocCount size) header (F_PRESENT ||| F_WRITEABLE) phys ∧
      (∃ node, block c₁.virt.heap node = ⟨header, reservedEnd header (kallocCount size), true⟩) ∧
      (InsidePages header (kallocCount size) size ↔ size + 4095 < 2^64 ∧ (size + 4095) / 4096 + 1 < 2^19) := by
  obtain ⟨⟨header, c'⟩, hpages, hrest⟩ := bind_eq_some_iff.mp hrun
  dsimp only at hrest
  split_ifs at hrest with hzero
  · exact absurd (Prod.mk.inj (some.inj hrest)).1.symm hr
  · cases hrest
    obtain ⟨hchosen, phys, h⟩ := memAllocPages_allocated hpages hzero
    have hpos : 1 ≤ toI32 (kallocCount size) := by
      by_contra hneg
      rw [virtaddrAlloc, if_pos (by omega)] at hchosen
      exact hzero (some.inj hchosen).symm
    have hheader : header < 2^48 := by
      have hlt := hvalid.alloc_lt hchosen
      unfold addressEnd at hlt
      omega
    refine ⟨header, phys, ?_, h, h.reserved hpos, insidePages_iff hheader hsize (h.reservedEnd_le hvalid hpos)⟩
    rw [PAGE_SIZE]
    exact u64_of_lt (by omega)

def blockPages : PageAlloc Nat :=
  { countingPages with
    allocPhysPagesExact := fun next n =>
      some (if 10 ≤ next ∧ next + n < 2^40 then (next * PAGE_SIZE, next + n) else (0, next)) }

theorem kalloc_inside_iff_small : ∃ c c₁, smallSpace = some c ∧
    kalloc smallImage blockPages noKalloc 5000 c = some (0x1001000, c₁) ∧
      InsidePages 0x1000000 (kallocCount 5000) 5000 := by
  have hrun : (smallSpace.bind fun c => (kalloc smallImage blockPages noKalloc 5000 c).map fun x => x.1) =
      some 0x1001000 := by
    decide +kernel
  obtain ⟨c, hspace, hrun⟩ := bind_eq_some_iff.mp hrun
  obtain ⟨⟨r, c₁⟩, hkalloc, hr⟩ := map_eq_some_iff.mp hrun
  obtain rfl : r = 0x1001000 := hr
  obtain ⟨-, xs, hvalid⟩ := smallSpace_valid hspace
  obtain ⟨header, phys, heq, -, -, hiff⟩ := kalloc_inside_iff hvalid (by decide) hkalloc (by decide)
  obtain rfl : header = 0x1000000 := by
    rw [PAGE_SIZE] at heq
    omega
  exact ⟨c, c₁, hspace, hkalloc, hiff.mpr (by decide)⟩

/-- The largest size gets the header page only. -/
theorem kalloc_largest_size : ∃ c c₁, smallSpace = some c ∧
    kalloc smallImage blockPages noKalloc (2^64 - 1) c = some (0x1001000, c₁) ∧ kallocCount (2^64 - 1) = 1 ∧
      ¬ InsidePages 0x1000000 (kallocCount (2^64 - 1)) (2^64 - 1) := by
  have hrun : (smallSpace.bind fun c => (kalloc smallImage blockPages noKalloc (2^64 - 1) c).map fun x => x.1) =
      some 0x1001000 := by
    decide +kernel
  obtain ⟨c, hspace, hrun⟩ := bind_eq_some_iff.mp hrun
  obtain ⟨⟨r, c₁⟩, hkalloc, hr⟩ := map_eq_some_iff.mp hrun
  obtain rfl : r = 0x1001000 := hr
  have hone : kallocCount (2^64 - 1) = 1 := kallocCount_wraps (by decide) (by decide)
  refine ⟨c, c₁, hspace, hkalloc, hone, fun h => ?_⟩
  have hmapped := h.mapped
  rw [hone, PAGE_SIZE] at hmapped
  omega

section Physical

variable {α β : Type}

def PhysRel (R : P → P → Prop) (op : KernelM P α) : Prop :=
  ∀ s a s', op s = some (a, s') → R s.phys s'.phys

variable {R : P → P → Prop} (hrefl : ∀ p, R p p) (htrans : ∀ p q r, R p q → R q r → R p r)
variable {x : KernelM P α} {g : α → KernelM P β}

include htrans in
theorem PhysRel.bind (hx : PhysRel R x) (hg : ∀ a, PhysRel R (g a)) : PhysRel R (x >>= g) := by
  intro s b s' hrun
  obtain ⟨⟨a, s₁⟩, hfirst, hsecond⟩ := bind_eq_some_iff.mp hrun
  exact htrans _ _ _ (hx _ _ _ hfirst) (hg a _ _ _ hsecond)

include hrefl

theorem physRel_pure (a : α) : PhysRel R (pure a : KernelM P α) := by
  intro s b s' hrun
  cases hrun
  exact hrefl _

theorem physRel_load (page i : Nat) : PhysRel R (load K page i : KernelM P Nat) := by
  intro s b s' hrun
  obtain ⟨f, -, heq⟩ := map_eq_some_iff.mp hrun
  cases heq
  exact hrefl _

theorem physRel_store (page i w : Nat) : PhysRel R (store K page i w : KernelM P Unit) := by
  intro s b s' hrun
  obtain ⟨f, -, heq⟩ := map_eq_some_iff.mp hrun
  cases heq
  dsimp only
  rw [Machine.write_phys]
  exact hrefl _

theorem physRel_zeroPage (page : Nat) : PhysRel R (zeroPage K page : KernelM P Unit) := by
  intro s b s' hrun
  obtain ⟨f, -, heq⟩ := map_eq_some_iff.mp hrun
  cases heq
  exact hrefl _

theorem physRel_mapAddr (p slot : Nat) : PhysRel R (mapAddr K p slot : KernelM P Nat) := by
  intro s b s' hrun
  unfold mapAddr at hrun
  dsimp only at hrun
  split_ifs at hrun
  · cases hrun
    exact hrefl _
  · cases hrun
    rw [Machine.write_phys]
    exact hrefl _

include htrans

theorem physRel_tableLocate (slot p offset : Nat) : PhysRel R (tableLocate K slot p offset : KernelM P Nat) :=
  .bind htrans (physRel_mapAddr hrefl p slot) fun _ =>
    .bind htrans (physRel_load hrefl _ _) fun _ => physRel_pure hrefl _

theorem physRel_pageLocate (v : Nat) : PhysRel R (pageLocate K root v : KernelM P (Option Nat)) := by
  unfold pageLocate
  refine .bind htrans (physRel_tableLocate hrefl htrans _ _ _) fun a => ?_
  split_ifs
  · exact physRel_pure hrefl _
  refine .bind htrans (physRel_tableLocate hrefl htrans _ _ _) fun b => ?_
  split_ifs
  · exact physRel_pure hrefl _
  refine .bind htrans (physRel_tableLocate hrefl htrans _ _ _) fun d => ?_
  split_ifs
  · exact physRel_pure hrefl _
  exact .bind htrans (physRel_mapAddr hrefl _ _) fun _ => .bind htrans (physRel_load hrefl _ _) fun _ => physRel_pure hrefl _

variable (halloc : PhysRel R (allocPhysPage A))
include halloc

theorem physRel_tableAlloc (slot below p offset flags : Nat) :
    PhysRel R (tableAlloc K A slot below p offset flags) := by
  unfold tableAlloc
  refine .bind htrans (physRel_mapAddr hrefl _ _) fun table => ?_
  refine .bind htrans (physRel_tableLocate hrefl htrans _ _ _) fun located => ?_
  split_ifs
  · exact .bind htrans (physRel_load hrefl _ _) fun _ =>
      .bind htrans (physRel_store hrefl _ _ _) fun _ => physRel_pure hrefl _
  refine .bind htrans halloc fun child => ?_
  split_ifs
  · exact physRel_pure hrefl _
  refine .bind htrans (physRel_mapAddr hrefl _ _) fun page => ?_
  refine .bind htrans (physRel_zeroPage hrefl _) fun _ => ?_
  refine .bind htrans (physRel_load hrefl _ _) fun _ => ?_
  refine .bind htrans (physRel_store hrefl _ _ _) fun _ => ?_
  refine .bind htrans (physRel_load hrefl _ _) fun _ => ?_
  exact .bind htrans (physRel_store hrefl _ _ _) fun _ => physRel_pure hrefl _

theorem physRel_pageAlloc (v flags : Nat) : PhysRel R (pageAlloc K A root v flags) := by
  unfold pageAlloc
  refine .bind htrans (physRel_tableAlloc hrefl htrans halloc _ _ _ _ _) fun a => ?_
  split_ifs
  · exact physRel_pure hrefl _
  refine .bind htrans (physRel_tableAlloc hrefl htrans halloc _ _ _ _ _) fun b => ?_
  split_ifs
  · exact physRel_pure hrefl _
  refine .bind htrans (physRel_tableAlloc hrefl htrans halloc _ _ _ _ _) fun d => ?_
  split_ifs
  · exact physRel_pure hrefl _
  refine .bind htrans (physRel_mapAddr hrefl _ _) fun _ => ?_
  refine .bind htrans (physRel_store hrefl _ _ _) fun _ => ?_
  refine .bind htrans (physRel_load hrefl _ _) fun _ => ?_
  exact .bind htrans (physRel_store hrefl _ _ _) fun _ => physRel_pure hrefl _

theorem physRel_mapPage (v p flags : Nat) : PhysRel R (mapPage K A root v p flags) := by
  unfold mapPage
  refine .bind htrans (physRel_pageAlloc hrefl htrans halloc _ _) fun o => ?_
  cases o with
  | none => exact physRel_pure hrefl _
  | some offset =>
    exact .bind htrans (physRel_load hrefl _ _) fun _ =>
      .bind htrans (physRel_store hrefl _ _ _) fun _ => physRel_pure hrefl _

end Physical

theorem load_stored {s₁ s₂ s₃ : Machine P} {o e w : Nat} (ho : o < 512) (hpresent : present w = false)
    (hstore : store K PT_MAP o w s₁ = some ((), s₂)) (hload : load K PT_MAP o s₂ = some (e, s₃)) : e = w := by
  obtain ⟨f, hf, heq⟩ := map_eq_some_iff.mp hstore
  cases heq
  obtain ⟨f', hf', heq'⟩ := map_eq_some_iff.mp hload
  cases heq'
  dsimp only at hf' ⊢
  rw [Nat.div_eq_of_lt ho, add_zero, windowFrame, if_pos (by decide)] at hf hf'
  rw [Nat.mod_eq_of_lt ho, Machine.write_mem] at hf' ⊢
  dsimp only at hf' ⊢
  by_cases hown : K.pagingPt = f ∧ PT_MAP = o
  · -- the entry of the window itself has been cleared
    simp only [if_pos hown, hpresent] at hf'
    cases hf'
  · simp only [if_neg hown] at hf'
    cases hf.symm.trans hf'
    rw [if_pos ⟨rfl, rfl⟩]

theorem pageFree_phys (hnull : IgnoresNull A) {v : Nat} (h : pageFree K A root v deallocate s = some ((), s')) : s'.phys = s.phys := by
  have hrefl : ∀ p : P, p = p := fun _ => rfl
  have htrans : ∀ p q r : P, p = q → q = r → p = r := fun _ _ _ => Eq.trans
  obtain ⟨⟨o, s₁⟩, hlocate, hrest⟩ := bind_eq_some_iff.mp h
  have hfirst := physRel_pageLocate hrefl htrans v _ _ _ hlocate
  cases o with
  | none => exact (physRel_pure hrefl () _ _ _ hrest).symm.trans hfirst.symm
  | some o =>
    obtain ⟨⟨e, s₂⟩, hload, hrest⟩ := bind_eq_some_iff.mp hrest
    obtain ⟨⟨u, s₃⟩, hstore, hrest⟩ := bind_eq_some_iff.mp hrest
    have hsecond := physRel_load hrefl _ _ _ _ _ hload
    have hthird := physRel_store hrefl _ _ _ _ _ _ hstore
    have hsame : s₃.phys = s.phys := (hfirst.trans (hsecond.trans hthird)).symm
    cases deallocate with
    | false => exact (physRel_pure hrefl () _ _ _ hrest).symm.trans hsame
    | true =>
      obtain ⟨⟨e', s₄⟩, hload', hfree⟩ := bind_eq_some_iff.mp hrest
      have hfourth := physRel_load hrefl _ _ _ _ _ hload'
      have hcleared : present (setAddress (setFlags pageFlags e 0) 0) = false := by
        rw [present_setAddress, present_setFlags_page]
        simp
      obtain rfl := load_stored (pageLocate_offset hlocate) hcleared hstore hload'
      have haddr : addressOf (setAddress (setFlags pageFlags e 0) 0) = 0 := by
        rw [addressOf, frameOf_setAddress]
        rfl
      cases hfree
      dsimp only
      rw [haddr, hnull]
      exact hfourth.symm.trans hsame

theorem unmapPages_phys (hnull : IgnoresNull A) (n v : Nat) (h : unmapPages K A root deallocate n v s = some ((), s')) : s'.phys = s.phys := by
  induction n generalizing v s with
  | zero =>
    cases h
    rfl
  | succ n ih =>
    obtain ⟨⟨u, s₁⟩, hfirst, hrest⟩ := bind_eq_some_iff.mp h
    exact (ih _ hrest).trans (pageFree_phys hnull hfirst)

theorem memFreePages_phys (hnull : IgnoresNull A) (h : memFreePages K A root virt c₁ = some ((), c₂)) :
    c₂.machine.phys = c₁.machine.phys := by
  unfold memFreePages at h
  split_ifs at h
  · cases h
    rfl
  · obtain ⟨⟨pages, c'⟩, hfree, hunmap⟩ := bind_eq_some_iff.mp h
    obtain ⟨v, -, rfl⟩ := onVirt_eq.mp hfree
    obtain ⟨s, hs, rfl⟩ := onMachine_eq.mp hunmap
    exact unmapPages_phys hnull _ _ hs

theorem mapPagesLoop_phys {R : P → P → Prop} (hrefl : ∀ p, R p p) (htrans : ∀ p q r, R p q → R q r → R p r)
    (halloc : PhysRel R (allocPhysPage A)) (total n v p : Nat) (h : mapPagesLoop K A root flags total n v p s = some (0, s')) : R s.phys s'.phys := by
  induction n generalizing v p s with
  | zero =>
    cases h
    exact hrefl _
  | succ n ih =>
    obtain ⟨⟨done, s₁⟩, hpage, hrest⟩ := bind_eq_some_iff.mp h
    cases done with
    | false =>
      obtain ⟨x, -, hx⟩ := bind_eq_some_iff.mp hrest
      exact absurd (Prod.mk.inj (some.inj hx)).1 (by decide)
    | true => exact htrans _ _ _ (physRel_mapPage hrefl htrans halloc _ _ _ _ _ _ hpage) (ih _ _ hrest)

section Marks

open PhysAlloc (Phys bitmapGet)

def MarksKept (p q : Phys) : Prop := ∀ i, bitmapGet p i = true → bitmapGet q i = true

theorem bitmapSetRun_marks (p : Phys) (start n : Nat) : MarksKept p (PhysAlloc.bitmapSetRun p start true n) := by
  induction n with
  | zero => exact fun _ h => h
  | succ n ih =>
    intro i hi
    rw [PhysAlloc.bitmapSetRun, PhysAlloc.bitmapGet_bitmapSet]
    split_ifs
    · rfl
    · exact ih i hi

theorem allocPhysPagesExact_marks {p q : Phys} {n a : Nat} (h : PhysAlloc.allocPhysPagesExact p n = some (a, q)) :
    MarksKept p q := by
  unfold PhysAlloc.allocPhysPagesExact at h
  split_ifs at h
  · cases h
    exact fun _ hi => hi
  · cases h
    exact fun _ hi => hi
  · split at h
    · cases h
      exact bitmapSetRun_marks p _ n
    · cases h
      exact fun _ hi => hi

theorem allocPhysPage_marks : PhysRel MarksKept (allocPhysPage physPages) := by
  intro s a s' hrun
  obtain ⟨⟨b, q⟩, halloc, heq⟩ := map_eq_some_iff.mp hrun
  obtain ⟨-, rfl⟩ := Prod.mk.inj heq
  have hexact : PhysAlloc.allocPhysPagesExact s.phys 1 = some (b, q) := halloc
  exact allocPhysPagesExact_marks hexact

/-- The marks are those from before the allocation, but for the pages that have been marked
while the tables were made. `exact` is the allocator once the data pages are taken, `mapped`
once they are mapped. -/
def MarksRestored (before exact mapped after : Phys) : Prop :=
  ∀ i, ¬ (bitmapGet exact i = false ∧ bitmapGet mapped i = true) → bitmapGet after i = bitmapGet before i

/-- What freeing has to achieve: the pages are not marked, and nothing is mapped. -/
structure PagesReturned (before exact mapped after : Phys) (m : Mem) (root virt count : Nat) : Prop where
  marks : MarksRestored before exact mapped after
  unmapped : ∀ i, i < count → translate m root (virt + PAGE_SIZE * i) = none

theorem marksRestored_iff {before exact mapped : Phys} (hexact : MarksKept before exact) (hmapped : MarksKept exact mapped) :
    MarksRestored before exact mapped mapped ↔ MarksKept exact before := by
  constructor
  · intro h i hi
    have heq := h i (by simp [hi])
    rw [← heq]
    exact hmapped i hi
  · intro h i hi
    by_cases hmark : bitmapGet exact i = true
    · rw [hmapped i hmark, h i hmark]
    · have hnew : bitmapGet mapped i ≠ true := fun hm => hi ⟨by simpa using hmark, hm⟩
      have hold : bitmapGet before i ≠ true := fun hb => hmark (hexact i hb)
      rw [Bool.eq_false_of_not_eq_true hnew, Bool.eq_false_of_not_eq_true hold]

variable {c c₁ c₂ : Space Phys}

def tinyPhys : Phys where
  mem a := if a = 0x2000 then 0x100000#64 else if a = 0x2008 then 0x10000#64 else 0#64
  bitmap := 0x1000
  pageStart := 0x2000
  memoryStart := 0x100000
  totalMemory := 0x10000
  freeMemory := 0x10000
  pageCount := 16
  segmentCount := 1

def tinySpace : Option (Space Phys) :=
  (virtaddrInit noKalloc (fun _ => zeroNode) 0 0x101000).map fun v => ⟨⟨fun _ _ => 0, tinyPhys, [], false⟩, v⟩

theorem tinySpace_run : ∃ c c₁ c₂ p, tinySpace = some c ∧
    memAllocPages smallImage physPages noKalloc 0x2000 1 3 c = some (0x1000000, c₁) ∧
    memFreePages smallImage physPages 0x2000 0x1000000 c₁ = some ((), c₂) ∧
    PhysAlloc.allocPhysPagesExact c.machine.phys 1 = some (0x100000, p) ∧ bitmapGet p 0 = true ∧
    bitmapGet c.machine.phys 0 = false ∧ bitmapGet c₂.machine.phys 0 = true := by
  have hrun : (tinySpace.bind fun c => (memAllocPages smallImage physPages noKalloc 0x2000 1 3 c).bind fun x =>
      (memFreePages smallImage physPages 0x2000 0x1000000 x.2).bind fun y =>
        (PhysAlloc.allocPhysPagesExact c.machine.phys 1).map fun z =>
          (x.1, z.1, bitmapGet z.2 0, bitmapGet c.machine.phys 0, bitmapGet y.2.machine.phys 0)) =
      some (0x1000000, 0x100000, true, false, true) := by
    decide +kernel
  obtain ⟨c, hspace, hrun⟩ := bind_eq_some_iff.mp hrun
  obtain ⟨⟨r, c₁⟩, halloc, hrun⟩ := bind_eq_some_iff.mp hrun
  obtain ⟨⟨u, c₂⟩, hfree, hrun⟩ := bind_eq_some_iff.mp hrun
  obtain ⟨⟨a, p⟩, hexact, hx⟩ := map_eq_some_iff.mp hrun
  simp only [Prod.mk.injEq] at hx
  obtain ⟨rfl, rfl, hmark, hbefore, hafter⟩ := hx
  exact ⟨c, c₁, c₂, p, hspace, halloc, hfree, hexact, hmark, hbefore, hafter⟩

end Marks

end Comus.Paging
