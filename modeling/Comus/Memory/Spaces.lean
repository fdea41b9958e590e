import Comus.Memory.Unmapping
import Comus.Memory.VirtEdges

/-!
# Mapping physical memory into a context (kernel/memory/paging.c)

A memory context has a page directory and a virtual allocator. `mem_mapaddr` takes a
range of addresses from the allocator and maps the physical pages there; `mem_unmapaddr`
gives the range back to the allocator of the context it is called for, and unmaps the
pages in the directory of the kernel.
-/

namespace Comus.Paging

open Word BitField Trie Tiling Option List
open VirtAlloc (Virt Kalloc Valid Links blocks block virtaddrAlloc virtaddrTake virtaddrFree addressEnd
  GrowthOk GrowthOkNext TakenFrom noKalloc zeroNode virtaddrInit)

structure Space (P : Type) where
  machine : Machine P
  virt : Virt

abbrev SpaceM (P : Type) : Type → Type := StateT (Space P) Option

variable {P : Type} {α : Type}

def onMachine (op : KernelM P α) : SpaceM P α := fun c =>
  (op c.machine).map fun (a, s) => (a, { c with machine := s })

def onVirt (op : Virt → Option (α × Virt)) : SpaceM P α := fun c =>
  (op c.virt).map fun (a, v) => (a, { c with virt := v })

def spanPages (phys len : Nat) : Nat := u64 (u64 (len + phys % PAGE_SIZE) + PAGE_SIZE - 1) / PAGE_SIZE

/-- The page count is narrowed to `int` for the virtual allocator. -/
def memMapaddr (K : KernelImage) (A : PageAlloc P) (k : Kalloc) (pml4 phys virt len flags : Nat) :
    SpaceM P Nat := do
  let error := phys % PAGE_SIZE
  let pages := spanPages phys len
  let alignedPhys := phys - error
  let virt ← (if virt = 0 then onVirt fun v => (virtaddrAlloc v (toI32 pages)).map fun a => (a, v)
    else pure virt : SpaceM P Nat)
  if virt = 0 then pure 0
  else
    let failed ← onVirt fun v => virtaddrTake k v virt (toI32 pages)
    if failed ≠ 0 then pure 0
    else if virt % PAGE_SIZE = 0 then
      let failed ← onMachine (mapPages K A pml4 virt alignedPhys (F_PRESENT ||| flags) pages)
      if failed ≠ 0 then
        let _ ← onVirt fun v => virtaddrFree v virt
        pure 0
      else pure (u64 (virt + error))
    else fun _ => none

/-- The pages are unmapped in the directory of the kernel, whatever the context is. -/
def memUnmapaddr (K : KernelImage) (A : PageAlloc P) (virt : Nat) : SpaceM P Unit := do
  if virt = 0 then pure ()
  else
    let virt := virt / PAGE_SIZE * PAGE_SIZE
    let pages ← onVirt fun v => virtaddrFree v virt
    if pages < 1 then pure ()
    else onMachine (unmapPages K A K.kernelPml4 false pages.toNat virt)

variable {K : KernelImage} {A : PageAlloc P} {k : Kalloc} {free : P → Nat → Prop}
variable {c c₁ c₂ : Space P} {xs : List VirtAlloc.Ptr}
variable {root phys virt len flags r va n : Nat}

theorem onMachine_eq {op : KernelM P α} {a : α} :
    onMachine op c = some (a, c₁) ↔ ∃ s, op c.machine = some (a, s) ∧ c₁ = { c with machine := s } := by
  constructor
  · intro h
    obtain ⟨⟨b, s⟩, hop, heq⟩ := map_eq_some_iff.mp h
    cases heq
    exact ⟨s, hop, rfl⟩
  · rintro ⟨s, hop, rfl⟩
    exact map_eq_some_iff.mpr ⟨(a, s), hop, rfl⟩

theorem onVirt_eq {op : Virt → Option (α × Virt)} {a : α} :
    onVirt op c = some (a, c₁) ↔ ∃ v, op c.virt = some (a, v) ∧ c₁ = { c with virt := v } := by
  constructor
  · intro h
    obtain ⟨⟨b, v⟩, hop, heq⟩ := map_eq_some_iff.mp h
    cases heq
    exact ⟨v, hop, rfl⟩
  · rintro ⟨v, hop, rfl⟩
    exact map_eq_some_iff.mpr ⟨(a, v), hop, rfl⟩

/-- What a call of `mem_mapaddr` that returns an address has done: `va` is the first page. -/
structure Mapped (K : KernelImage) (A : PageAlloc P) (k : Kalloc) (c c₁ : Space P)
    (root phys virt len flags va : Nat) : Prop where
  chosen : if virt = 0 then virtaddrAlloc c.virt (toI32 (spanPages phys len)) = some va else va = virt
  nonzero : va ≠ 0
  aligned : va % PAGE_SIZE = 0
  taken : virtaddrTake k c.virt va (toI32 (spanPages phys len)) = some (0, c₁.virt)
  mapped : mapPages K A root va (phys - phys % PAGE_SIZE) (F_PRESENT ||| flags) (spanPages phys len) c.machine =
    some (0, c₁.machine)

theorem memMapaddr_mapped (hrun : memMapaddr K A k root phys virt len flags c = some (r, c₁)) (hr : r ≠ 0) :
    ∃ va, Mapped K A k c c₁ root phys virt len flags va ∧ r = u64 (va + phys % PAGE_SIZE) := by
  obtain ⟨⟨va, c'⟩, hchoice, hrest⟩ := bind_eq_some_iff.mp hrun
  have hchosen : c' = c ∧
      if virt = 0 then virtaddrAlloc c.virt (toI32 (spanPages phys len)) = some va else va = virt := by
    split_ifs at hchoice ⊢
    · obtain ⟨v, hv, rfl⟩ := onVirt_eq.mp hchoice
      obtain ⟨a, ha, heq⟩ := map_eq_some_iff.mp hv
      cases heq
      exact ⟨rfl, ha⟩
    · cases hchoice
      exact ⟨rfl, rfl⟩
  obtain ⟨rfl, hchosen⟩ := hchosen
  dsimp only at hrest
  by_cases hzero : va = 0
  · rw [if_pos hzero] at hrest
    cases hrest
    exact absurd rfl hr
  rw [if_neg hzero] at hrest
  obtain ⟨⟨b, c''⟩, htaking, hrest⟩ := bind_eq_some_iff.mp hrest
  obtain ⟨w, htake, rfl⟩ := onVirt_eq.mp htaking
  dsimp only at hrest
  by_cases hb : b = 0
  · subst hb
    rw [if_neg (by simp)] at hrest
    by_cases halign : va % PAGE_SIZE = 0
    · rw [if_pos halign] at hrest
      obtain ⟨⟨b', c''⟩, hmapping, hrest⟩ := bind_eq_some_iff.mp hrest
      obtain ⟨s, hmap, rfl⟩ := onMachine_eq.mp hmapping
      dsimp only at hrest
      by_cases hb' : b' = 0
      · subst hb'
        rw [if_neg (by simp)] at hrest
        cases hrest
        exact ⟨va, ⟨hchosen, hzero, halign, htake, hmap⟩, rfl⟩
      · rw [if_pos hb'] at hrest
        obtain ⟨x, -, hx⟩ := bind_eq_some_iff.mp hrest
        cases hx
        exact absurd rfl hr
    · rw [if_neg halign] at hrest
      cases hrest
  · rw [if_pos hb] at hrest
    cases hrest
    exact absurd rfl hr

theorem spanPages_eq (h : (len + phys % PAGE_SIZE + PAGE_SIZE - 1) / PAGE_SIZE < 2^19) :
    spanPages phys len = (len + phys % PAGE_SIZE + PAGE_SIZE - 1) / PAGE_SIZE := by
  rw [PAGE_SIZE] at h
  rw [spanPages, PAGE_SIZE, u64_of_lt (n := len + phys % 4096) (by omega), u64_of_lt (by omega)]

section Mapped

variable (h : Mapped K A k c c₁ root phys virt len flags va) (hvalid : Valid c.virt xs)
include h hvalid

theorem Mapped.inside (h1 : 1 ≤ spanPages phys len) (h2 : spanPages phys len < 2^19)
    (hend : virt ≠ 0 → virt + PAGE_SIZE * spanPages phys len ≤ 2^48) :
    va + PAGE_SIZE * spanPages phys len ≤ 2^48 := by
  have hchosen := h.chosen
  split_ifs at hchosen with hzero
  · rw [toI32_of_lt (by omega) (by omega)] at hchosen
    obtain ⟨hreq, -⟩ := hvalid.alloc (by omega) (by omega) hchosen h.nonzero
    have hin := hreq.inside
    unfold addressEnd at hin
    rw [PAGE_SIZE]
    omega
  · rw [hchosen]
    exact hend hzero

theorem Mapped.takes (hok : GrowthOk k c.virt.ctx xs) (hnext : GrowthOkNext k c.virt xs)
    (h1 : 1 ≤ spanPages phys len) (h2 : spanPages phys len < 2^19)
    (hend : va + PAGE_SIZE * spanPages phys len ≤ 2^48) :
    FreeRange (blocks c.virt xs) va (va + PAGE_SIZE * spanPages phys len) ∧
      ∃ ys, Valid c₁.virt ys ∧ TakenFrom (blocks c.virt xs) (blocks c₁.virt ys) va
        (va + PAGE_SIZE * spanPages phys len) := by
  have htaken := h.taken
  rw [toI32_of_lt (by omega) (by omega)] at htaken
  have hreq : VirtAlloc.Request va (spanPages phys len : Nat) := by
    refine ⟨by omega, by omega, ?_⟩
    rw [PAGE_SIZE] at hend
    unfold addressEnd
    omega
  have hstop : VirtAlloc.requestEnd va (spanPages phys len : Nat) = va + PAGE_SIZE * spanPages phys len := by
    rw [VirtAlloc.requestEnd, Int.toNat_natCast, PAGE_SIZE]
  rcases hvalid.take hreq hok hnext htaken with ⟨hone, -⟩ | ⟨-, hfree, hys⟩
  · cases hone
  · rw [hstop] at hfree hys
    exact ⟨hfree, hys⟩

end Mapped

/-- A call of `mem_mapaddr` that returns `r` has taken free pages as one block and maps every
byte of the range, and no page outside the block. -/
theorem memMapaddr_maps (hA : Pool K A free) (hvalid : Valid c.virt xs)
    (hroom : c.virt.ctx.usedNodeCount + 17 < 256 + c.virt.ctx.allocNodeCount)
    (hd : Directory (free c.machine.phys) c.machine.mem (root / PAGE_SIZE))
    (hready : Ready (c.machine.mem K.pagingPt)) (hlen : 0 < len)
    (hn : n = (len + phys % PAGE_SIZE + PAGE_SIZE - 1) / PAGE_SIZE) (hfew : n < 2^19)
    (hphys : phys + len ≤ 2^52) (hend : virt ≠ 0 → virt + PAGE_SIZE * n ≤ 2^48)
    (hrun : memMapaddr K A k root phys virt len flags c = some (r, c₁)) (hr : r ≠ 0)
    (hw : ∀ i, i < n → OffWindow K c.machine.mem (root / PAGE_SIZE) (r / PAGE_SIZE * PAGE_SIZE + PAGE_SIZE * i)) :
    (∀ j, j < len → ∃ s, memGetPhys K root (r + j) c₁.machine = some (phys + j, s)) ∧
    FreeRange (blocks c.virt xs) (r / PAGE_SIZE * PAGE_SIZE) (r / PAGE_SIZE * PAGE_SIZE + PAGE_SIZE * n) ∧
    (∃ ys, Valid c₁.virt ys ∧
      ⟨r / PAGE_SIZE * PAGE_SIZE, r / PAGE_SIZE * PAGE_SIZE + PAGE_SIZE * n, true⟩ ∈ blocks c₁.virt ys) ∧
    ∀ u, u < 2^48 → ¬ InPages r n u → OffSlots K c.machine.mem (root / PAGE_SIZE) u →
      translate c₁.machine.mem root u = translate c.machine.mem root u := by
  have hspan : spanPages phys len = n := hn ▸ spanPages_eq (hn ▸ hfew)
  obtain ⟨va, h, rfl⟩ := memMapaddr_mapped hrun hr
  have halign := h.aligned
  have hpos : 1 ≤ n := by
    rw [PAGE_SIZE] at hn
    omega
  have hin : va + PAGE_SIZE * n ≤ 2^48 := by
    have hinside := h.inside hvalid (by omega) (by omega) (by rw [hspan]; exact hend)
    rw [hspan] at hinside
    exact hinside
  obtain ⟨hok, hnext⟩ := hvalid.links.growthOk (k := k) (.inl hroom)
  obtain ⟨hfree, ys, hys, htaken⟩ := h.takes hvalid hok hnext (by omega) (by omega) (by rw [hspan]; exact hin)
  rw [hspan] at hfree htaken
  have hmap := h.mapped
  rw [hspan] at hmap
  -- the first page is the page of the result
  have herr : u64 (va + phys % PAGE_SIZE) = va + phys % PAGE_SIZE := by
    rw [PAGE_SIZE] at *
    exact u64_of_lt (by omega)
  have hva : (va + phys % PAGE_SIZE) / PAGE_SIZE * PAGE_SIZE = va := by
    rw [PAGE_SIZE] at *
    omega
  have hpage : (va + phys % PAGE_SIZE) / PAGE_SIZE = va / PAGE_SIZE := by
    rw [PAGE_SIZE] at *
    omega
  rw [herr, hva] at hw
  rw [herr, hva]
  have hp : (phys - phys % PAGE_SIZE) % PAGE_SIZE = 0 := by
    rw [PAGE_SIZE]
    omega
  have hphys' : phys - phys % PAGE_SIZE + PAGE_SIZE * n ≤ 2^52 := by
    rw [PAGE_SIZE] at *
    omega
  obtain ⟨t, σ, hs, hσ, hkeep, hmapped⟩ := mapPages_range hA hd hready hin hw hmap
  refine ⟨?_, hfree, ⟨ys, hys, htaken.mem⟩, ?_⟩
  · intro j hj
    -- byte `j` is at an offset in one of the pages
    obtain ⟨i, off, hi, hoff, hsum⟩ : ∃ i off, i < n ∧ off < PAGE_SIZE ∧
        phys % PAGE_SIZE + j = PAGE_SIZE * i + off := by
      refine ⟨(phys % PAGE_SIZE + j) / PAGE_SIZE, (phys % PAGE_SIZE + j) % PAGE_SIZE, ?_, ?_, ?_⟩
      · rw [PAGE_SIZE] at *
        omega
      · exact Nat.mod_lt _ (by decide)
      · exact (Nat.div_add_mod _ _).symm
    obtain ⟨s, hget⟩ := hmapped.getPhys hA hσ halign hp hin hphys' hi (hw i hi) hoff
    have hmod := Nat.mod_le phys PAGE_SIZE
    have hbyte : va + phys % PAGE_SIZE + j = va + PAGE_SIZE * i + off := by omega
    have hat : phys - phys % PAGE_SIZE + PAGE_SIZE * i + off = phys + j := by omega
    rw [hs, hbyte, ← hat]
    exact ⟨s, hget⟩
  · intro u hu hout hslots
    rw [InPages, hpage] at hout
    rw [hs, translate, hmapped.follow_slots hA hkeep hslots (prefix_refl _), hmapped.page u hu,
      if_neg hout, translate]

def smallSpace : Option (Space Nat) :=
  (virtaddrInit noKalloc (fun _ => zeroNode) 0 0x101000).map fun v => ⟨smallMachine fun _ _ => 0, v⟩

theorem smallSpace_valid {c : Space Nat} (h : smallSpace = some c) : c.machine = smallMachine (fun _ _ => 0) ∧
    ∃ xs, Valid c.virt xs := by
  obtain ⟨v, hinit, rfl⟩ := map_eq_some_iff.mp h
  exact ⟨rfl, VirtAlloc.virtaddrInit_valid ⟨by decide +kernel, by decide +kernel⟩ hinit⟩

/-- Some bytes in the middle of a page. -/
theorem memMapaddr_maps_bytes : ∃ c c₁, smallSpace = some c ∧
    memMapaddr smallImage countingPages noKalloc 0x2000 0x5010 0 0x20 3 c = some (0x1000010, c₁) ∧
    ∀ j, j < 0x20 → ∃ s, memGetPhys smallImage 0x2000 (0x1000010 + j) c₁.machine = some (0x5010 + j, s) := by
  have hrun : (smallSpace.bind fun c =>
      (memMapaddr smallImage countingPages noKalloc 0x2000 0x5010 0 0x20 3 c).map fun x => (x.1, c.virt.ctx)) =
      some (0x1000010, ⟨0, none, some ⟨0, 0⟩, 0, 0, 1, false⟩) := by
    decide +kernel
  obtain ⟨c, hspace, hrun⟩ := bind_eq_some_iff.mp hrun
  obtain ⟨⟨r, c₁⟩, hmap, hx⟩ := map_eq_some_iff.mp hrun
  obtain ⟨rfl, hctx⟩ := Prod.mk.inj hx
  obtain ⟨hmachine, xs, hvalid⟩ := smallSpace_valid hspace
  have hroom : c.virt.ctx.usedNodeCount + 17 < 256 + c.virt.ctx.allocNodeCount := by
    rw [hctx]
    decide
  have hd : Directory (countingFree c.machine.phys) c.machine.mem (0x2000 / PAGE_SIZE) := by
    rw [hmachine]
    exact zero_directory (by decide) (by decide) fun h => absurd h.1 (by decide)
  have hready : Ready (c.machine.mem smallImage.pagingPt) := by
    rw [hmachine]
    exact zero_ready
  have hw : ∀ i, i < 1 → OffWindow smallImage c.machine.mem (0x2000 / PAGE_SIZE)
      (0x1000010 / PAGE_SIZE * PAGE_SIZE + PAGE_SIZE * i) := by
    rw [hmachine]
    exact fun _ _ => zero_offWindow (by decide) _
  obtain ⟨hget, -⟩ := memMapaddr_maps countingPages_pool hvalid hroom hd hready (by decide) (by decide)
    (by decide) (by decide) (by decide) hmap (by decide) hw
  exact ⟨c, c₁, hspace, hmap, hget⟩

/-- The second page begins at the physical address `2 ^ 52`, which an entry cannot hold. -/
theorem memMapaddr_drops_high_bits : ∃ c c₁ s, smallSpace = some c ∧
    memMapaddr smallImage countingPages noKalloc 0x2000 (2^52 - 0x1000) 0 0x2000 3 c = some (0x1000000, c₁) ∧
    memGetPhys smallImage 0x2000 (0x1000000 + 0x1000) c₁.machine = some (0, s) := by
  have hrun : (smallSpace.bind fun c =>
      (memMapaddr smallImage countingPages noKalloc 0x2000 (2^52 - 0x1000) 0 0x2000 3 c).bind fun x =>
        (memGetPhys smallImage 0x2000 (0x1000000 + 0x1000) x.2.machine).map fun y => (x.1, y.1)) =
      some (0x1000000, 0) := by
    decide +kernel
  obtain ⟨c, hspace, hrun⟩ := bind_eq_some_iff.mp hrun
  obtain ⟨⟨r, c₁⟩, hmap, hrun⟩ := bind_eq_some_iff.mp hrun
  obtain ⟨⟨a, s⟩, hget, hx⟩ := map_eq_some_iff.mp hrun
  cases hx
  exact ⟨c, c₁, s, hspace, hmap, hget⟩

/-- The contexts have directories, with their first tables in the frames `rs`, that share no table. -/
structure Forest (free : P → Nat → Prop) (s : Machine P) (rs : List Nat) : Prop where
  dir : ∀ r ∈ rs, Directory (free s.phys) s.mem r
  apart : ∀ r ∈ rs, ∀ r' ∈ rs, r ≠ r' → ∀ f, Node (child s.mem) 4 r f → ¬ Node (child s.mem) 4 r' f

section Forest

variable {s s' : Machine P} {rs : List Nat} {r r' : Nat}

section Forest

variable (h : Forest free s rs) (hr : r ∈ rs) (hr' : r' ∈ rs) (hne : r' ≠ r)
include h hr hr' hne

theorem Forest.keeps (he : Evolves K free s s' r) {f : Nat} (hf : Node (child s.mem) 4 r' f) : s'.mem f = s.mem f := by
  apply he.frame
  rintro ⟨q, hq, hg⟩
  rcases he.new q f hq hg with hold | hfree
  · exact h.apart r' hr' r hr hne f hf ⟨q, hq, hold⟩
  · exact ((h.dir r' hr').table f hf).2 hfree

theorem Forest.follow_other (he : Evolves K free s s' r) {q : List Nat} (hq : q.length ≤ 4) :
    follow (child s'.mem) r' q = follow (child s.mem) r' q := by
  apply follow_eq_of_nodes (n := 4) _ hq
  intro f i hf
  unfold child
  rw [h.keeps hr hr' hne he hf]

theorem Forest.node_other (he : Evolves K free s s' r) {f : Nat} (hf : Node (child s'.mem) 4 r' f) : Node (child s.mem) 4 r' f := by
  obtain ⟨q, hq, hf⟩ := hf
  rw [h.follow_other hr hr' hne he hq.le] at hf
  exact ⟨q, hq, hf⟩

end Forest

theorem Forest.evolves (h : Forest free s rs) (hr : r ∈ rs) (he : Evolves K free s s' r)
    (hd : Directory (free s'.phys) s'.mem r) : Forest free s' rs := by
  have hnode : ∀ r' ∈ rs, ∀ f, Node (child s'.mem) 4 r' f →
      Node (child s.mem) 4 r' f ∨ r' = r ∧ free s.phys f := by
    intro r' hr' f hf
    by_cases hne : r' = r
    · subst hne
      obtain ⟨q, hq, hf⟩ := hf
      rcases he.new q f hq hf with hold | hfree
      · exact .inl ⟨q, hq, hold⟩
      · exact .inr ⟨rfl, hfree⟩
    · exact .inl (h.node_other hr hr' hne he hf)
  constructor
  · intro r' hr'
    by_cases hne : r' = r
    · exact hne ▸ hd
    · refine ⟨?_, (h.dir r' hr').root, ?_⟩
      · intro q q' f hq hq' hf hf'
        rw [h.follow_other hr hr' hne he hq.le] at hf
        rw [h.follow_other hr hr' hne he hq'.le] at hf'
        exact (h.dir r' hr').tree q q' f hq hq' hf hf'
      · intro f hf
        have hold := (h.dir r' hr').table f (h.node_other hr hr' hne he hf)
        exact ⟨hold.1, fun hfree => hold.2 (he.left f hfree)⟩
  · intro r₁ hr₁ r₂ hr₂ hne f hf₁ hf₂
    rcases hnode r₁ hr₁ f hf₁ with hold₁ | ⟨rfl, hfree₁⟩
    · rcases hnode r₂ hr₂ f hf₂ with hold₂ | ⟨rfl, hfree₂⟩
      · exact h.apart r₁ hr₁ r₂ hr₂ hne f hold₁ hold₂
      · exact ((h.dir r₁ hr₁).table f hold₁).2 hfree₂
    · rcases hnode r₂ hr₂ f hf₂ with hold₂ | ⟨rfl, -⟩
      · exact ((h.dir r₂ hr₂).table f hold₂).2 hfree₁
      · exact hne rfl

end Forest

theorem memUnmapaddr_calls (hrun : memUnmapaddr K A r c₁ = some ((), c₂)) (hr : r ≠ 0) :
    ∃ pages, virtaddrFree c₁.virt (r / PAGE_SIZE * PAGE_SIZE) = some (pages, c₂.virt) ∧
      (1 ≤ pages → unmapPages K A K.kernelPml4 false pages.toNat (r / PAGE_SIZE * PAGE_SIZE) c₁.machine =
        some ((), c₂.machine)) := by
  unfold memUnmapaddr at hrun
  rw [if_neg hr] at hrun
  obtain ⟨⟨pages, c'⟩, hfreeing, hrest⟩ := bind_eq_some_iff.mp hrun
  obtain ⟨w, hfree, rfl⟩ := onVirt_eq.mp hfreeing
  dsimp only at hrest
  split_ifs at hrest with hfew
  · cases hrest
    exact ⟨pages, hfree, fun h => by omega⟩
  · obtain ⟨s, hunmap, rfl⟩ := onMachine_eq.mp hrest
    exact ⟨pages, hfree, fun _ => hunmap⟩

structure Restored (K : KernelImage) (rs : List Nat) (c c₁ c₂ : Space P) (xs : List VirtAlloc.Ptr)
    (va n : Nat) : Prop where
  block : ∃ ys, Valid c₁.virt ys ∧ ⟨va, va + PAGE_SIZE * n, true⟩ ∈ blocks c₁.virt ys
  free : ∃ zs, Valid c₂.virt zs ∧ blocks c₂.virt zs = blocks c.virt xs
  page : ∀ r ∈ rs, ∀ u, u < 2^48 → OffSlots K c.machine.mem r u →
    follow (child c₂.machine.mem) r (pathOf u) = follow (child c.machine.mem) r (pathOf u)

/-- Fewer than `2 ^ 19` pages in the address space, that the kernel did not map. In the directory
of another context they had the same mapping before. -/
structure Restorable (K : KernelImage) (m : Mem) (root phys va n : Nat) : Prop where
  pos : 1 ≤ n
  lt : n < 2^19
  inside : va + PAGE_SIZE * n ≤ 2^48
  kernel : ∀ i, i < n → translate m K.kernelPml4 (va + PAGE_SIZE * i) = none
  user : root / PAGE_SIZE ≠ K.kernelPml4 / PAGE_SIZE → ∀ i, i < n →
    translate m root (va + PAGE_SIZE * i) = some ((phys / PAGE_SIZE + i) % 2^40)

theorem Mapped.counted {pages : Int} (h : Mapped K A k c c₁ root phys virt len flags va)
    (hvalid : Valid c.virt xs) (hok : GrowthOk k c.virt.ctx xs) (hnext : GrowthOkNext k c.virt xs)
    (hfree : virtaddrFree c₁.virt va = some (pages, c₂.virt))
    (hblock : ∃ ys, Valid c₁.virt ys ∧
      ⟨va, va + PAGE_SIZE * spanPages phys len, true⟩ ∈ blocks c₁.virt ys)
    (hback : ∃ zs, Valid c₂.virt zs ∧ blocks c₂.virt zs = blocks c.virt xs) :
    1 ≤ spanPages phys len ∧ spanPages phys len < 2^19 ∧ va + PAGE_SIZE * spanPages phys len ≤ 2^48 := by
  obtain ⟨ys, hys, hmem⟩ := hblock
  obtain ⟨-, hlt, hend⟩ := hys.tiles.bounds hmem
  dsimp only at hlt hend
  refine ⟨?_, ?_, ?_⟩
  · rw [PAGE_SIZE] at hlt
    omega
  · by_cases hpos : 1 ≤ toI32 (spanPages phys len)
    · exact hvalid.taken_lt hok hnext hpos h.taken hys hmem
    · -- nothing was taken, and an older block was released
      have htaken := h.taken
      rw [virtaddrTake, if_pos (by omega)] at htaken
      have hsame : c.virt = c₁.virt := (Prod.mk.inj (some.inj htaken)).2
      obtain ⟨zs, hzs, hlist⟩ := hback
      rw [hsame] at hlist hvalid
      obtain rfl := hvalid.links.unique hys.links
      obtain ⟨node, hnode, hat⟩ := mem_map.mp hmem
      obtain ⟨as, bs, rfl⟩ := append_of_mem hnode
      have halloc : (block c₁.virt.heap node).alloc = true := congrArg Block.alloc hat
      obtain ⟨w, zs', hfree', hvalid', -, hall⟩ :=
        hys.free_found (congrArg Block.start hat) h.nonzero h.aligned
      rw [hfree] at hfree'
      cases hfree'
      obtain rfl := hzs.links.unique hvalid'.links
      rw [hlist, VirtAlloc.blocks_append, VirtAlloc.blocks_cons, allocated_append,
        allocated_cons_of_alloc halloc] at hall
      have hlength := congrArg length hall
      rw [length_append, length_append, length_cons] at hlength
      omega
  · unfold addressEnd at hend
    omega

section Unmapping

variable {rs : List Nat} (hA : Pool K A free) (hnull : IgnoresNull A)
  (hforest : Forest free c.machine rs) (hroot : root / PAGE_SIZE ∈ rs) (hkernel : K.kernelPml4 / PAGE_SIZE ∈ rs)
  (hready : Ready (c.machine.mem K.pagingPt)) (hend : va + PAGE_SIZE * n ≤ 2^48)
  (hw : ∀ i, i < n → OffWindow K c.machine.mem (root / PAGE_SIZE) (va + PAGE_SIZE * i) ∧
    OffWindow K c.machine.mem (K.kernelPml4 / PAGE_SIZE) (va + PAGE_SIZE * i))
  (hmap : mapPages K A root va (phys - phys % PAGE_SIZE) flags n c.machine = some (0, c₁.machine))
  (hunmap : unmapPages K A K.kernelPml4 false n va c₁.machine = some ((), c₂.machine))
include hA hnull hforest hroot hkernel hready hend hw hmap hunmap

theorem unmapped_page (hr : r ∈ rs) {u : Nat} (hu : u < 2^48) (hslots : OffSlots K c.machine.mem r u) :
    follow (child c₂.machine.mem) r (pathOf u) =
      if InPages va n u ∧ r = K.kernelPml4 / PAGE_SIZE then none
      else if InPages va n u ∧ r = root / PAGE_SIZE then
        some ((phys / PAGE_SIZE + (u / PAGE_SIZE - va / PAGE_SIZE)) % 2^40)
      else follow (child c.machine.mem) r (pathOf u) := by
  obtain ⟨t₁, σ₁, hs₁, hσ₁, hkeep₁, hmapped⟩ := mapPages_range hA (hforest.dir _ hroot) hready hend
    (fun i hi => (hw i hi).1) hmap
  have hforest₁ := hforest.evolves hroot hmapped.toEvolves hmapped.dir
  -- the directory of the kernel is the one that was mapped into, or untouched
  have htable : ∀ r ∈ rs, ∀ q f, q.length < 4 → follow (child t₁.mem) r q = some f →
      follow (child c.machine.mem) r q = some f ∨ free c.machine.phys f := by
    intro r hr q f hq hf
    by_cases hne : r = root / PAGE_SIZE
    · rw [hne] at hf ⊢
      exact hmapped.new q f hq hf
    · rw [hforest.follow_other hroot hr hne hmapped.toEvolves hq.le] at hf
      exact .inl hf
  have hoff : ∀ i, i < n → OffWindow K t₁.mem (K.kernelPml4 / PAGE_SIZE) (va + PAGE_SIZE * i) :=
    fun i hi => (hw i hi).2.of_new hA (htable _ hkernel)
  obtain ⟨t₂, hruns, hgone⟩ := unmapPages_runs (Γ := []) false hnull
    (hforest₁.dir _ hkernel) hend hoff
  obtain ⟨σ₂, heq, -, hkeep₂, -⟩ := hruns σ₁ hσ₁ (by simp)
  rw [← hs₁, hunmap] at heq
  obtain ⟨-, hs₂⟩ := Prod.mk.inj (some.inj heq)
  have hfollow : ∀ r ∈ rs, ∀ q, q.length < 4 → follow (child t₂.mem) r q = follow (child t₁.mem) r q := by
    intro r hr q hq
    by_cases hne : r = K.kernelPml4 / PAGE_SIZE
    · rw [hne]
      exact hgone.table q hq
    · exact hforest₁.follow_other hkernel hr hne hgone.evolves hq.le
  have hnew : ∀ q f, q.length < 4 → follow (child t₂.mem) r q = some f →
      follow (child c.machine.mem) r q = some f ∨ free c.machine.phys f := by
    intro q f hq hf
    rw [hfollow r hr q hq] at hf
    exact htable r hr q f hq hf
  have hkeep : ∀ j, PT_MAP < j → σ₂ j = c.machine.mem K.pagingPt j := by
    intro j hj
    have hout : j ∉ [0, 1, 2, 3] := by
      simp only [PT_MAP] at hj
      simp
      omega
    rw [hkeep₂ j hout, hkeep₁ j hj]
  have hframe : (phys - phys % PAGE_SIZE) / PAGE_SIZE = phys / PAGE_SIZE := by
    rw [PAGE_SIZE]
    omega
  have hfirst : follow (child t₁.mem) r (pathOf u) = if InPages va n u ∧ r = root / PAGE_SIZE then
      some ((phys / PAGE_SIZE + (u / PAGE_SIZE - va / PAGE_SIZE)) % 2^40)
      else follow (child c.machine.mem) r (pathOf u) := by
    by_cases hne : r = root / PAGE_SIZE
    · rw [hne, hmapped.page u hu, hframe]
      simp only [and_true]
    · rw [if_neg (fun h => hne h.2), hforest.follow_other hroot hr hne hmapped.toEvolves (pathOf_length u).le]
  rw [hs₂, follow_withSlots hnew (hgone.slots.trans hmapped.slots) hA hkeep hslots (prefix_refl _), ← hfirst]
  by_cases hne : r = K.kernelPml4 / PAGE_SIZE
  · subst hne
    rw [hgone.page u hu]
    simp only [and_true]
  · rw [if_neg (fun h => hne h.2)]
    exact hforest₁.follow_other hkernel hr hne hgone.evolves (pathOf_length u).le

end Unmapping

theorem Mapped.first_page (h : Mapped K A k c c₁ root phys virt len flags va) (hvalid : Valid c.virt xs)
    (hvirt : virt < 2^64) : u64 (va + phys % PAGE_SIZE) / PAGE_SIZE * PAGE_SIZE = va ∧
      u64 (va + phys % PAGE_SIZE) ≠ 0 := by
  have hva : va < 2^64 := by
    have hchosen := h.chosen
    split_ifs at hchosen
    · have hlt := hvalid.alloc_lt hchosen
      unfold addressEnd at hlt
      omega
    · omega
  have halign := h.aligned
  have hzero := h.nonzero
  rw [PAGE_SIZE] at *
  rw [u64_of_lt (by omega)]
  omega

/-- For every context and every address that `mem_mapaddr` returns, `mem_unmapaddr` restores what was
before the mapping exactly if the pages and the directories are as `Restorable` says. -/
theorem memUnmapaddr_restores_iff {rs : List Nat} (hA : Pool K A free) (hnull : IgnoresNull A)
    (hvalid : Valid c.virt xs) (hok : GrowthOk k c.virt.ctx xs) (hnext : GrowthOkNext k c.virt xs)
    (hforest : Forest free c.machine rs) (hroot : root / PAGE_SIZE ∈ rs)
    (hkernel : K.kernelPml4 / PAGE_SIZE ∈ rs) (hready : Ready (c.machine.mem K.pagingPt)) (hvirt : virt < 2^64)
    (hmap : memMapaddr K A k root phys virt len flags c = some (r, c₁)) (hr : r ≠ 0)
    (hva : va = r / PAGE_SIZE * PAGE_SIZE) (hn : n = spanPages phys len)
    (hw : ∀ i, i < n → va + PAGE_SIZE * i < 2^48 →
      OffWindow K c.machine.mem (root / PAGE_SIZE) (va + PAGE_SIZE * i) ∧
      OffWindow K c.machine.mem (K.kernelPml4 / PAGE_SIZE) (va + PAGE_SIZE * i))
    (hunmap : memUnmapaddr K A r c₁ = some ((), c₂)) :
    Restored K rs c c₁ c₂ xs va n ↔ Restorable K c.machine.mem root phys va n := by
  obtain ⟨va', h, rfl⟩ := memMapaddr_mapped hmap hr
  rw [(h.first_page hvalid hvirt).1] at hva
  subst hva hn
  obtain ⟨pages, hfree, hgone⟩ := memUnmapaddr_calls hunmap hr
  rw [(h.first_page hvalid hvirt).1] at hfree hgone
  have hpos : 0 < PAGE_SIZE := by decide
  -- the case in which the virtual allocator counts right
  have hgood : 1 ≤ spanPages phys len → spanPages phys len < 2^19 →
      va + PAGE_SIZE * spanPages phys len ≤ 2^48 →
      (∃ ys, Valid c₁.virt ys ∧ ⟨va, va + PAGE_SIZE * spanPages phys len, true⟩ ∈ blocks c₁.virt ys) ∧
      (∃ zs, Valid c₂.virt zs ∧ blocks c₂.virt zs = blocks c.virt xs) ∧
      ∀ r ∈ rs, ∀ u, u < 2^48 → OffSlots K c.machine.mem r u → follow (child c₂.machine.mem) r (pathOf u) =
        if InPages va (spanPages phys len) u ∧ r = K.kernelPml4 / PAGE_SIZE then none
        else if InPages va (spanPages phys len) u ∧ r = root / PAGE_SIZE then
          some ((phys / PAGE_SIZE + (u / PAGE_SIZE - va / PAGE_SIZE)) % 2^40)
        else follow (child c.machine.mem) r (pathOf u) := by
    intro h1 h2 hend
    obtain ⟨-, ys, hys, htaken⟩ := h.takes hvalid hok hnext h1 h2 hend
    obtain ⟨w, zs, hfree', hzs, hlist⟩ := hvalid.free_taken hys h.nonzero h.aligned h2 htaken
    rw [hfree] at hfree'
    cases hfree'
    refine ⟨⟨ys, hys, htaken.mem⟩, ⟨zs, hzs, hlist⟩, ?_⟩
    intro r hr u hu hslots
    have hunmap' := hgone (by omega)
    rw [Int.toNat_natCast] at hunmap'
    exact unmapped_page hA hnull hforest hroot hkernel hready hend
      (fun i hi => hw i hi (add_lt_end hi hpos hend)) h.mapped hunmap' hr hu hslots
  constructor
  · intro hres
    obtain ⟨h1, h2, hend⟩ := h.counted hvalid hok hnext hfree hres.block hres.free
    obtain ⟨-, -, hpage⟩ := hgood h1 h2 hend
    have hat : ∀ i, i < spanPages phys len → (va + PAGE_SIZE * i) / PAGE_SIZE = va / PAGE_SIZE + i ∧
        va + PAGE_SIZE * i < 2^48 :=
      fun i hi => ⟨page_add h.aligned hpos, add_lt_end hi hpos hend⟩
    refine ⟨h1, h2, hend, ?_, ?_⟩
    · intro i hi
      obtain ⟨hdiv, hlt⟩ := hat i hi
      have hslots := (hw i hi hlt).2.offSlots
      rw [translate, ← hres.page _ hkernel _ hlt hslots, hpage _ hkernel _ hlt hslots,
        if_pos ⟨inPages_add h.aligned hpos hi, rfl⟩]
    · intro hne i hi
      obtain ⟨hdiv, hlt⟩ := hat i hi
      have hslots := (hw i hi hlt).1.offSlots
      rw [translate, ← hres.page _ hroot _ hlt hslots, hpage _ hroot _ hlt hslots, if_neg (fun h => hne h.2),
        if_pos ⟨inPages_add h.aligned hpos hi, rfl⟩, hdiv, Nat.add_sub_cancel_left]
  · intro hres
    obtain ⟨hblock, hback, hpage⟩ := hgood hres.pos hres.lt hres.inside
    refine ⟨hblock, hback, ?_⟩
    intro r hr u hu hslots
    rw [hpage r hr u hu hslots]
    -- a byte of the block has the path of the first byte of its page
    have hsame : InPages va (spanPages phys len) u → ∃ i, i < spanPages phys len ∧
        u / PAGE_SIZE = va / PAGE_SIZE + i ∧ pathOf u = pathOf (va + PAGE_SIZE * i) := by
      intro hin
      obtain ⟨i, hi⟩ := Nat.exists_eq_add_of_le hin.1
      have hi' : i < spanPages phys len := by omega
      refine ⟨i, hi', hi, ?_⟩
      have hdiv : (va + PAGE_SIZE * i) / PAGE_SIZE = va / PAGE_SIZE + i := page_add h.aligned hpos
      exact (pathOf_eq_iff hu (add_lt_end hi' hpos hres.inside)).mpr (hi.trans hdiv.symm)
    split_ifs with hk hc
    · obtain ⟨hin, rfl⟩ := hk
      obtain ⟨i, hi, -, hpath⟩ := hsame hin
      rw [hpath]
      exact (hres.kernel i hi).symm
    · obtain ⟨hin, rfl⟩ := hc
      obtain ⟨i, hi, hdiv, hpath⟩ := hsame hin
      rw [hpath, hdiv, Nat.add_sub_cancel_left]
      exact (hres.user (fun heq => hk ⟨hin, heq⟩) i hi).symm
    · rfl

theorem zero_forest {free : Nat → Nat → Prop} {s : Machine Nat} {rs : List Nat} (hmem : s.mem = fun _ _ => 0)
    (h : ∀ r ∈ rs, r ≠ 0 ∧ r < 2^40 ∧ ¬ free s.phys r) : Forest free s rs := by
  constructor
  · intro r hr
    obtain ⟨hpos, hlt, hfree⟩ := h r hr
    rw [hmem]
    exact zero_directory hpos hlt hfree
  · rintro r - r' - hne f ⟨q, -, hf⟩ ⟨q', -, hf'⟩
    rw [hmem] at hf hf'
    exact hne ((follow_cleared (child_zero r) hf).2.symm.trans (follow_cleared (child_zero r') hf').2)

theorem smallSpace_forest {c : Space Nat} (h : smallSpace = some c) : Forest countingFree c.machine [2, 3] := by
  obtain ⟨hmachine, -⟩ := smallSpace_valid h
  rw [hmachine]
  apply zero_forest rfl
  intro r hr
  have hsmall : r = 2 ∨ r = 3 := by simpa using hr
  refine ⟨by omega, by omega, fun hfree => ?_⟩
  have hten := hfree.1
  omega

/-- A page of the kernel. -/
theorem memUnmapaddr_restores_iff_kernel : ∃ c c₁ c₂ xs, smallSpace = some c ∧
    memMapaddr smallImage countingPages noKalloc 0x2000 0x5010 0 0x20 3 c = some (0x1000010, c₁) ∧
    memUnmapaddr smallImage countingPages 0x1000010 c₁ = some ((), c₂) ∧
    (Restored smallImage [2, 3] c c₁ c₂ xs 0x1000000 1 ↔
      Restorable smallImage c.machine.mem 0x2000 0x5010 0x1000000 1) := by
  have hrun : (smallSpace.bind fun c =>
      (memMapaddr smallImage countingPages noKalloc 0x2000 0x5010 0 0x20 3 c).bind fun x =>
        (memUnmapaddr smallImage countingPages 0x1000010 x.2).map fun _ => (x.1, c.virt.ctx)) =
      some (0x1000010, ⟨0, none, some ⟨0, 0⟩, 0, 0, 1, false⟩) := by
    decide +kernel
  obtain ⟨c, hspace, hrun⟩ := bind_eq_some_iff.mp hrun
  obtain ⟨⟨r, c₁⟩, hmap, hrun⟩ := bind_eq_some_iff.mp hrun
  obtain ⟨⟨⟨⟩, c₂⟩, hunmap, hx⟩ := map_eq_some_iff.mp hrun
  obtain ⟨rfl, hctx⟩ := Prod.mk.inj hx
  obtain ⟨hmachine, xs, hvalid⟩ := smallSpace_valid hspace
  obtain ⟨hok, hnext⟩ := hvalid.links.growthOk (k := noKalloc) (.inl (by rw [hctx]; decide))
  have hready : Ready (c.machine.mem smallImage.pagingPt) := by
    rw [hmachine]
    exact zero_ready
  have hoff : ∀ u, OffWindow smallImage c.machine.mem 2 u := by
    rw [hmachine]
    exact zero_offWindow (by decide)
  refine ⟨c, c₁, c₂, xs, hspace, hmap, hunmap, ?_⟩
  exact memUnmapaddr_restores_iff countingPages_pool countingPages_ignoresNull hvalid hok hnext
    (smallSpace_forest hspace) (by decide) (by decide) hready (by decide) hmap (by decide) (by decide)
    (by decide +kernel) (fun _ _ _ => ⟨hoff _, hoff _⟩) hunmap

/-- A page of another context: it stays mapped there, though its address is free again. -/
theorem memUnmapaddr_leaves_user_page : ∃ c c₁ c₂ xs, smallSpace = some c ∧ Valid c.virt xs ∧
    memMapaddr smallImage countingPages noKalloc 0x3000 0x5000 0 0x1000 7 c = some (0x1000000, c₁) ∧
    memUnmapaddr smallImage countingPages 0x1000000 c₁ = some ((), c₂) ∧
    translate c₂.machine.mem 0x3000 0x1000000 = some 5 ∧ virtaddrAlloc c₂.virt 1 = some 0x1000000 ∧
    ¬ Restored smallImage [2, 3] c c₁ c₂ xs 0x1000000 1 := by
  have hrun : (smallSpace.bind fun c =>
      (memMapaddr smallImage countingPages noKalloc 0x3000 0x5000 0 0x1000 7 c).bind fun x =>
        (memUnmapaddr smallImage countingPages 0x1000000 x.2).map fun y =>
          (x.1, translate y.2.machine.mem 0x3000 0x1000000, virtaddrAlloc y.2.virt 1)) =
      some (0x1000000, some 5, some 0x1000000) := by
    decide +kernel
  obtain ⟨c, hspace, hrun⟩ := bind_eq_some_iff.mp hrun
  obtain ⟨⟨r, c₁⟩, hmap, hrun⟩ := bind_eq_some_iff.mp hrun
  obtain ⟨⟨⟨⟩, c₂⟩, hunmap, hx⟩ := map_eq_some_iff.mp hrun
  obtain ⟨rfl, hend⟩ := Prod.mk.inj hx
  obtain ⟨hpage, halloc⟩ := Prod.mk.inj hend
  obtain ⟨hmachine, xs, hvalid⟩ := smallSpace_valid hspace
  refine ⟨c, c₁, c₂, xs, hspace, hvalid, hmap, hunmap, hpage, halloc, fun h => ?_⟩
  have hoff : OffSlots smallImage c.machine.mem 3 0x1000000 := by
    rw [hmachine]
    exact (zero_offWindow (by decide) _).offSlots
  have hsame := h.page 3 (by decide) 0x1000000 (by decide) hoff
  rw [show follow (child c₂.machine.mem) 3 (pathOf 0x1000000) = some 5 from hpage, hmachine] at hsame
  cases (follow_cleared (child_zero 3) hsame.symm).1

end Comus.Paging
