import Comus.Procs.ElfFile

/-!
# The image of a loaded program (kernel/user.c)

What a process finds in its memory after `user_load`. The pages `mem_alloc_pages_at` hands
out are not cleared, and `user_load_segment` only writes the bytes the file has: the rest
of a segment is what was in the physical pages before. A segment without bytes in the
file gets no pages at all.
-/

namespace Comus.Procs

open Word Fs Option List

/-- What the memory functions work on: the bytes of the physical memory, the physical
address behind an address of a context that its process may access, the free physical
bytes, and the ranges of a context the kernel sees at another address. -/
structure View (μ : Type) where
  phys : μ → Nat → UInt8
  frame : μ → Nat → Nat → Option Nat
  free : μ → Set Nat
  window : μ → Nat → Nat → Nat → Nat → Prop

variable {μ : Type} {ops : LoadOps μ} (V : View μ)

def View.byte (mem : μ) (ctx x : Nat) : Option UInt8 := (V.frame mem ctx x).map (V.phys mem)

structure View.Kept (ctx : Nat) (mem mem' : μ) : Prop where
  frame : V.frame mem' ctx = V.frame mem ctx
  user : ∀ x p, V.frame mem ctx x = some p → V.phys mem' p = V.phys mem p
  free : V.free mem' ⊆ V.free mem
  idle : ∀ p ∈ V.free mem', V.phys mem' p = V.phys mem p

structure View.Taken (ctx virt len : Nat) (mem mem' : μ) : Prop where
  bound : virt + len ≤ 2^48
  unmapped : ∀ x, virt ≤ x → x < virt + len → V.frame mem ctx x = none
  block : ∃ base, (∀ j < len, base + j ∈ V.free mem ∧ base + j ∉ V.free mem' ∧
      V.phys mem' (base + j) = V.phys mem (base + j)) ∧
    ∀ x, V.frame mem' ctx x =
      if virt ≤ x ∧ x < virt + len then some (base + (x - virt)) else V.frame mem ctx x
  user : ∀ x p, V.frame mem ctx x = some p → V.phys mem' p = V.phys mem p
  free : V.free mem' ⊆ V.free mem
  idle : ∀ p ∈ V.free mem', V.phys mem' p = V.phys mem p

structure View.Written (ctx virt : Nat) (bytes : List UInt8) (mem mem' : μ) : Prop where
  frame : V.frame mem' ctx = V.frame mem ctx
  free : V.free mem' = V.free mem
  hit : ∀ j < bytes.length, ∀ p, V.frame mem ctx (virt + j) = some p →
    V.phys mem' p = bytes.getD j 0
  miss : ∀ p, (∀ j < bytes.length, V.frame mem ctx (virt + j) ≠ some p) →
    V.phys mem' p = V.phys mem p

def pageBytes (len : Nat) : Nat := u64 (len + PAGE_SIZE - 1) / PAGE_SIZE * PAGE_SIZE

/-- The contract of the memory functions: what they do where they succeed. A new context
is empty; pages are handed out as they are. -/
structure UserMemory (ops : LoadOps μ) (V : View μ) : Prop where
  memCtxAlloc : ∀ mem ctx mem', ops.memCtxAlloc mem = some (ctx, mem') → ctx ≠ 0 →
    (∀ x, V.frame mem' ctx x = none) ∧ ∀ p ∈ V.free mem', V.phys mem' p = V.phys mem p
  memAllocPagesAt : ∀ mem ctx count virt flags a mem',
    ops.memAllocPagesAt mem ctx count virt flags = some (a, mem') → a ≠ 0 →
      virt % PAGE_SIZE = 0 → V.Taken ctx virt (count * PAGE_SIZE) mem mem'
  kmapuseraddr : ∀ mem ctx virt len a mem', ops.kmapuseraddr mem ctx virt len = some (a, mem') →
    a ≠ 0 → virt % PAGE_SIZE = 0 →
      V.Kept ctx mem mem' ∧ V.window mem' a ctx virt (pageBytes len) ∧ a + pageBytes len ≤ 2^64
  kunmapaddr : ∀ mem a mem' ctx, ops.kunmapaddr mem a = some mem' → V.Kept ctx mem mem'
  kallocBuffer : ∀ mem b mem' ctx, ops.kallocBuffer mem = some (b, mem') → V.Kept ctx mem mem'
  memcpyv : ∀ mem a ctx virt len off bytes mem', V.window mem a ctx virt len →
    off + bytes.length ≤ len →
    (∀ x y p, V.frame mem ctx x = some p → V.frame mem ctx y = some p → x = y) →
    ops.memcpyv mem (a + off) bytes = some mem' →
      V.Written ctx (virt + off) bytes mem mem' ∧ V.window mem' a ctx virt len

variable {V} {ctx : Nat} {mem₀ mem mem' mem'' : μ}

/-- Along a load: no two addresses share memory, memory in use is not free, and free
memory is as it was at the start. -/
structure View.Good (V : View μ) (ctx : Nat) (mem₀ mem : μ) : Prop where
  inj : ∀ x y p, V.frame mem ctx x = some p → V.frame mem ctx y = some p → x = y
  used : ∀ x p, V.frame mem ctx x = some p → p ∉ V.free mem
  idle : ∀ p ∈ V.free mem, V.phys mem p = V.phys mem₀ p

def View.Extends (V : View μ) (ctx : Nat) (mem mem' : μ) : Prop :=
  ∀ x p, V.frame mem ctx x = some p → V.frame mem' ctx x = some p ∧ V.phys mem' p = V.phys mem p

theorem View.Extends.refl (V : View μ) (ctx : Nat) (mem : μ) : V.Extends ctx mem mem :=
  fun _ _ h => ⟨h, rfl⟩

theorem View.Extends.trans (h : V.Extends ctx mem mem') (h' : V.Extends ctx mem' mem'') :
    V.Extends ctx mem mem'' := by
  intro x p hx
  obtain ⟨hframe, hphys⟩ := h x p hx
  obtain ⟨hframe', hphys'⟩ := h' x p hframe
  exact ⟨hframe', hphys'.trans hphys⟩

theorem View.Kept.extends (h : V.Kept ctx mem mem') : V.Extends ctx mem mem' :=
  fun x p hx => ⟨by rw [h.frame]; exact hx, h.user x p hx⟩

theorem View.Good.kept (hg : V.Good ctx mem₀ mem) (h : V.Kept ctx mem mem') :
    V.Good ctx mem₀ mem' where
  inj := by
    rw [h.frame]
    exact hg.inj
  used x p hx := by
    rw [h.frame] at hx
    exact fun hfree => hg.used x p hx (h.free hfree)
  idle p hp := (h.idle p hp).trans (hg.idle p (h.free hp))

section Taken
variable {virt len : Nat} (h : V.Taken ctx virt len mem mem')
include h

theorem View.Taken.extends : V.Extends ctx mem mem' := by
  intro x p hx
  refine ⟨?_, h.user x p hx⟩
  obtain ⟨base, -, hframe⟩ := h.block
  rw [hframe, if_neg, hx]
  rintro ⟨hle, hlt⟩
  rw [h.unmapped x hle hlt] at hx
  cases hx

theorem View.Taken.frame_cases {x p : Nat} (hx : V.frame mem' ctx x = some p) :
    V.frame mem ctx x = some p ∨ virt ≤ x ∧ x < virt + len := by
  obtain ⟨base, -, hframe⟩ := h.block
  rw [hframe] at hx
  split_ifs at hx with hin
  · exact .inr hin
  · exact .inl hx

theorem View.Taken.fresh (hg : V.Good ctx mem₀ mem) {x : Nat} (hle : virt ≤ x) (hlt : x < virt + len) :
    ∃ p, V.frame mem' ctx x = some p ∧ V.phys mem' p = V.phys mem₀ p := by
  obtain ⟨base, hbase, hframe⟩ := h.block
  obtain ⟨hfree, -, hphys⟩ := hbase (x - virt) (by omega)
  refine ⟨base + (x - virt), ?_, hphys.trans (hg.idle _ hfree)⟩
  rw [hframe, if_pos ⟨hle, hlt⟩]

theorem View.Good.taken (hg : V.Good ctx mem₀ mem) : V.Good ctx mem₀ mem' := by
  obtain ⟨base, hbase, hframe⟩ := h.block
  -- where the memory behind an address comes from
  have hfrom : ∀ x p, V.frame mem' ctx x = some p →
      (V.frame mem ctx x = some p ∧ p ∉ V.free mem) ∨
        (p = base + (x - virt) ∧ virt ≤ x ∧ x < virt + len ∧ p ∈ V.free mem ∧ p ∉ V.free mem') := by
    intro x p hx
    rw [hframe] at hx
    split_ifs at hx with hin
    · cases hx
      obtain ⟨hfree, hnot, -⟩ := hbase (x - virt) (by omega)
      exact .inr ⟨rfl, hin.1, hin.2, hfree, hnot⟩
    · exact .inl ⟨hx, hg.used x p hx⟩
  refine ⟨fun x y p hx hy => ?_, fun x p hx => ?_, fun p hp => ?_⟩
  · rcases hfrom x p hx with ⟨hx', hused⟩ | ⟨hpx, hlex, -, hfree, -⟩
    · rcases hfrom y p hy with ⟨hy', -⟩ | ⟨-, -, -, hfree, -⟩
      · exact hg.inj x y p hx' hy'
      · exact absurd hfree hused
    · rcases hfrom y p hy with ⟨-, hused⟩ | ⟨hpy, hley, -⟩
      · exact absurd hfree hused
      · omega
  · rcases hfrom x p hx with ⟨-, hused⟩ | ⟨-, -, -, -, hnot⟩
    · exact fun hfree => hused (h.free hfree)
    · exact hnot
  · exact (h.idle p hp).trans (hg.idle p (h.free hp))

end Taken

variable {disk : Disk} {content : List UInt8} {hdr : Phdr} {hdrs : List Phdr} {st st' : LoadState μ}
  {a virt len off fileBytes fuel total : Nat} {ret : Int}

structure Copied (V : View μ) (ctx virt off total fileBytes : Nat) (content : List UInt8) (mem mem' : μ) :
    Prop where
  frame : V.frame mem' ctx = V.frame mem ctx
  free : V.free mem' = V.free mem
  hit : ∀ k, total ≤ k → k < fileBytes → ∀ p, V.frame mem ctx (virt + k) = some p →
    V.phys mem' p = content.getD (off + k) 0
  miss : ∀ p, (∀ k, total ≤ k → k < fileBytes → V.frame mem ctx (virt + k) ≠ some p) →
    V.phys mem' p = V.phys mem p

theorem Copied.nothing (V : View μ) (ctx virt off : Nat) (content : List UInt8) (mem : μ)
    (h : fileBytes ≤ total) : Copied V ctx virt off total fileBytes content mem mem :=
  ⟨rfl, rfl, fun k hle hlt => by omega, fun _ _ => rfl⟩

theorem Copied.cons {n : Nat} {bytes : List UInt8} (hn : total + n ≤ fileBytes)
    (hinj : ∀ x y p, V.frame mem ctx x = some p → V.frame mem ctx y = some p → x = y)
    (hlen : bytes.length = n) (hbytes : ∀ j < n, bytes.getD j 0 = content.getD (off + (total + j)) 0)
    (hw : V.Written ctx (virt + total) bytes mem mem')
    (hrest : Copied V ctx virt off (total + n) fileBytes content mem' mem'') :
    Copied V ctx virt off total fileBytes content mem mem'' := by
  refine ⟨hrest.frame.trans hw.frame, hrest.free.trans hw.free, fun k hle hlt p hp => ?_, fun p hp => ?_⟩
  · by_cases hk : k < total + n
    · -- in the block just copied
      have hother : V.phys mem'' p = V.phys mem' p := by
        refine hrest.miss p fun k' hle' _ hframe => ?_
        rw [hw.frame] at hframe
        have := hinj _ _ p hp hframe
        omega
      have hhit := hw.hit (k - total) (by omega) p (by
        rw [show virt + total + (k - total) = virt + k by omega]
        exact hp)
      rw [hother, hhit, hbytes (k - total) (by omega),
        show off + (total + (k - total)) = off + k by omega]
    · exact hrest.hit k (by omega) hlt p (by rw [hw.frame]; exact hp)
  · rw [hrest.miss p fun k hle hlt => by rw [hw.frame]; exact hp k (by omega) hlt]
    refine hw.miss p fun j hj => ?_
    rw [add_assoc]
    exact hp (total + j) (by omega) (by omega)

theorem loadData_copies (laws : UserMemory ops V) (hwin : V.window st.mem a ctx virt len)
    (hmap : a + len ≤ 2^64) (hfile : FileOn disk st.file content)
    (hoff : st.file.offset = off + total) (hdata : off + fileBytes ≤ content.length)
    (hle : total ≤ fileBytes) (hlen : fileBytes ≤ len) (hfuel : fileBytes ≤ total + fuel)
    (hinj : ∀ x y p, V.frame st.mem ctx x = some p → V.frame st.mem ctx y = some p → x = y)
    (h : loadData ops disk a fileBytes fuel total st = some (ret, st')) :
    ret = 0 ∧ st'.heapStart = st.heapStart ∧ FileOn disk st'.file content ∧
      Copied V ctx virt off total fileBytes content st.mem st'.mem := by
  induction fuel generalizing total st with
  | zero =>
    unfold loadData at h
    rw [if_neg (by omega)] at h
    cases h
    exact ⟨rfl, rfl, hfile, Copied.nothing V ctx virt off content _ (by omega)⟩
  | succ fuel ih =>
    unfold loadData at h
    by_cases hmore : total < fileBytes
    · rw [if_pos hmore] at h
      -- the block is read in full
      obtain ⟨n, hn, hn1, hblock, hnle⟩ : ∃ n, (if BLOCK_SIZE > fileBytes - total then fileBytes - total
          else BLOCK_SIZE) = n ∧ 1 ≤ n ∧ n ≤ BLOCK_SIZE ∧ total + n ≤ fileBytes := by
        refine ⟨_, rfl, ?_⟩
        have hpos : 1 ≤ BLOCK_SIZE := by decide
        split_ifs <;> omega
      have hfits := hfile.fits
      have hread := hfile.tarRead_eq hn1 hblock (by omega)
      have hn64 : toU64 (n : Int) = n := by
        rw [toU64_natCast, u64_of_lt (by omega)]
      dsimp only at h
      rw [hn, hread] at h
      dsimp only at h
      rw [hn64, if_neg (by omega), if_neg (by omega), u64_of_lt (show a + total < 2^64 by omega),
        u64_of_lt (show total + n < 2^64 by omega)] at h
      obtain ⟨mem', hcopy, hrest⟩ := bind_eq_some_iff.mp h
      have hlength : ((range n).map fun i =>
          ((content.drop st.file.offset).take n)[i]?.getD (st.buffer.getD (fun _ => 0) i)).length = n := by
        simp
      obtain ⟨hw, hwin'⟩ := laws.memcpyv _ _ _ _ _ _ _ _ hwin (by rw [hlength]; omega) hinj hcopy
      have hoff' : st.file.offset + n = off + (total + n) := by omega
      obtain ⟨hret, hheap, hfile', hcopied⟩ :=
        @ih ⟨st.heapStart, { st.file with offset := st.file.offset + n }, _, mem'⟩ (total + n) hwin'
          (hfile.moved _) hoff' hnle (by omega) (by rw [hw.frame]; exact hinj) hrest
      refine ⟨hret, hheap, hfile', Copied.cons hnle hinj hlength (fun j hj => ?_) hw hcopied⟩
      have hlt : off + (total + j) < content.length := by omega
      rw [getD_eq_getElem?_getD, getElem?_map, getElem?_range hj, map_some,
        getD_some, getElem?_take_of_lt hj, getElem?_drop, hoff, add_assoc,
        getElem?_eq_getElem hlt, getD_eq_getElem?_getD, getElem?_eq_getElem hlt]
      rfl
    · rw [if_neg hmore] at h
      cases h
      exact ⟨rfl, rfl, hfile, Copied.nothing V ctx virt off content _ (by omega)⟩

theorem pageBytes_bounds (h : len ≤ 2^47) : len ≤ pageBytes len ∧ pageBytes len < len + PAGE_SIZE := by
  have hlt : len + PAGE_SIZE - 1 < 2^64 := by
    unfold PAGE_SIZE
    omega
  unfold pageBytes
  rw [u64_of_lt hlt]
  unfold PAGE_SIZE
  omega

theorem mapped_of_loaded (hdata : HasData hdr) (h : userLoadSegment ops disk ctx hdr st = some (0, st')) :
    ∃ a mem, Mapped ops ctx hdr st a mem := by
  obtain ⟨htype, hsize, hpages⟩ := hdata
  have hpages' := hpages
  unfold filePages at hpages'
  unfold userLoadSegment at h
  rw [if_neg (not_not.mpr htype), if_neg (not_lt.mpr hsize)] at h
  dsimp only at h
  rw [if_neg (not_lt.mpr hpages')] at h
  obtain ⟨⟨v, mem1⟩, halloc, h⟩ := bind_eq_some_iff.mp h
  dsimp only at h
  by_cases hv : v = 0
  · rw [if_pos hv] at h
    cases h
  · rw [if_neg hv] at h
    obtain ⟨⟨a, mem2⟩, hmap, h⟩ := bind_eq_some_iff.mp h
    dsimp only at h
    by_cases ha : a = 0
    · rw [if_pos ha] at h
      cases h
    · exact ⟨a, mem2, ⟨htype, hsize, hpages⟩, ⟨v, mem1, halloc, hv, hmap⟩, ha⟩

structure Proper (content : List UInt8) (hdr : Phdr) : Prop where
  aligned : hdr.vaddr % PAGE_SIZE = 0
  size : hdr.filesz ≤ hdr.memsz
  inside : hdr.offset + hdr.filesz ≤ content.length
  user : hdr.vaddr + hdr.memsz ≤ 2^47

def segmentEnd (hdr : Phdr) : Nat := hdr.vaddr + pageBytes hdr.memsz

/-- The pages of the segment hold its bytes in the file, and behind them what was in the
physical memory before. -/
def SegmentHolds (V : View μ) (ctx : Nat) (content : List UInt8) (mem₀ mem : μ) (hdr : Phdr) : Prop :=
  ∀ k < pageBytes hdr.memsz, ∃ p, V.frame mem ctx (hdr.vaddr + k) = some p ∧
    V.phys mem p = if k < hdr.filesz then content.getD (hdr.offset + k) 0 else V.phys mem₀ p

theorem SegmentHolds.extends (h : SegmentHolds V ctx content mem₀ mem hdr)
    (hext : V.Extends ctx mem mem') : SegmentHolds V ctx content mem₀ mem' hdr := by
  intro k hk
  obtain ⟨p, hframe, hphys⟩ := h k hk
  obtain ⟨hframe', hphys'⟩ := hext _ p hframe
  exact ⟨p, hframe', hphys'.trans hphys⟩

structure Adds (V : View μ) (disk : Disk) (content : List UInt8) (ctx : Nat) (mem₀ : μ)
    (hdrs : List Phdr) (st st' : LoadState μ) : Prop where
  good : V.Good ctx mem₀ st'.mem
  file : FileOn disk st'.file content
  kept : V.Extends ctx st.mem st'.mem
  holds : ∀ hdr ∈ hdrs, HasData hdr → SegmentHolds V ctx content mem₀ st'.mem hdr
  frames : ∀ x p, V.frame st'.mem ctx x = some p → V.frame st.mem ctx x = some p ∨
    ∃ hdr ∈ hdrs, HasData hdr ∧ hdr.vaddr ≤ x ∧ x < segmentEnd hdr
  heap : ∀ n, st'.heapStart ≤ n ↔ st.heapStart ≤ n ∧ ∀ hdr ∈ hdrs, HasData hdr → segmentEnd hdr ≤ n

theorem segment_adds (laws : UserMemory ops V) (hgood : V.Good ctx mem₀ st.mem)
    (hfile : FileOn disk st.file content) (hdata : HasData hdr) (hp : Proper content hdr)
    (h : userLoadSegment ops disk ctx hdr st = some (0, st')) :
    Adds V disk content ctx mem₀ [hdr] st st' := by
  obtain ⟨a, mem2, hmapped⟩ := mapped_of_loaded hdata h
  rw [userLoadSegment_mapped hmapped] at h
  obtain ⟨-, ⟨v, mem1, halloc, hv, hmap⟩, ha⟩ := hmapped
  have huser := hp.user
  have hbytes := pageBytes_bounds (show hdr.memsz ≤ 2^47 by omega)
  -- pages, and where the kernel sees them
  have htaken : V.Taken ctx hdr.vaddr (pageBytes hdr.memsz) st.mem mem1 :=
    laws.memAllocPagesAt _ _ _ _ _ _ _ halloc hv hp.aligned
  obtain ⟨hkept, hwin, hfits⟩ := laws.kmapuseraddr _ _ _ _ _ _ hmap ha hp.aligned
  have hgood2 : V.Good ctx mem₀ mem2 := (View.Good.taken htaken hgood).kept hkept
  unfold copySegment at h
  dsimp only at h
  have hinside := hp.inside
  have hsize := hp.size
  have hlen := hfile.fits
  rw [tarSeek_set (show hdr.offset < 2^64 by omega)] at h
  by_cases hneg : (tarSeek st.file (toI64 hdr.offset) SEEK_SET).1 < 0
  · rw [if_pos hneg] at h
    cases h
  rw [if_neg hneg] at h
  obtain ⟨⟨ret, st1⟩, hload, h⟩ := bind_eq_some_iff.mp h
  obtain ⟨rfl, hheap, hfile1, hcopied⟩ := loadData_copies laws hwin hfits (hfile.moved hdr.offset) rfl
    hinside (Nat.zero_le _) (hp.size.trans hbytes.1) (by omega) hgood2.inj hload
  dsimp only at h
  rw [if_neg (by simp)] at h
  obtain ⟨mem3, hunmap, heq⟩ := map_eq_some_iff.mp h
  have hend : u64 (hdr.vaddr + memPages hdr * PAGE_SIZE) = segmentEnd hdr := by
    refine u64_of_lt ?_
    change hdr.vaddr + pageBytes hdr.memsz < 2^64
    unfold PAGE_SIZE at hbytes
    omega
  rw [hend] at heq hunmap
  have hkept3 : V.Kept ctx st1.mem mem3 := by
    refine laws.kunmapaddr _ a _ ctx ?_
    rw [← hunmap]
    split_ifs <;> rfl
  have hst' : st'.heapStart = (if segmentEnd hdr > st1.heapStart then segmentEnd hdr else st1.heapStart) ∧
      st'.file = st1.file ∧ st'.mem = mem3 := by
    have hst := (Prod.mk.inj heq).2
    rw [← hst]
    split_ifs <;> exact ⟨rfl, rfl, rfl⟩
  obtain ⟨hheap', hfile', hmem'⟩ := hst'
  have hframe3 : V.frame mem3 ctx = V.frame mem1 ctx :=
    hkept3.frame.trans (hcopied.frame.trans hkept.frame)
  -- the copy writes to this segment only
  have hmiss : ∀ x p, V.frame mem2 ctx x = some p →
      (∀ k < hdr.filesz, x ≠ hdr.vaddr + k) → V.phys mem3 p = V.phys mem2 p := by
    intro x p hx hout
    rw [hkept3.user x p (by rw [hcopied.frame]; exact hx)]
    refine hcopied.miss p fun k _ hk hframe => ?_
    exact hout k hk (hgood2.inj _ _ p hx hframe)
  refine ⟨?_, hfile' ▸ hfile1, ?_, ?_, ?_, ?_⟩
  · rw [hmem']
    have hgood1 : V.Good ctx mem₀ st1.mem := by
      refine ⟨by rw [hcopied.frame]; exact hgood2.inj, by rw [hcopied.frame, hcopied.free]; exact hgood2.used,
        fun p hfree => ?_⟩
      rw [hcopied.free] at hfree
      rw [hcopied.miss p fun k _ _ hframe => hgood2.used _ p hframe hfree]
      exact hgood2.idle p hfree
    exact hgood1.kept hkept3
  · rw [hmem']
    intro x p hx
    obtain ⟨hx1, hphys1⟩ := htaken.extends x p hx
    obtain ⟨hx2, hphys2⟩ := hkept.extends x p hx1
    refine ⟨by rw [hframe3]; exact hx1, ?_⟩
    rw [hmiss x p hx2 fun k hk heq => ?_, hphys2, hphys1]
    rw [htaken.unmapped x (by omega) (by omega)] at hx
    cases hx
  · intro hdr' hmem hdata'
    obtain rfl := mem_singleton.mp hmem
    intro k hk
    obtain ⟨p, hx1, hfresh⟩ := htaken.fresh hgood (Nat.le_add_right hdr'.vaddr k) (by omega)
    obtain ⟨hx2, hphys2⟩ := hkept.extends _ p hx1
    refine ⟨p, by rw [hmem', hframe3]; exact hx1, ?_⟩
    rw [hmem']
    split_ifs with hkf
    · rw [hkept3.user _ p (by rw [hcopied.frame]; exact hx2)]
      exact hcopied.hit k (Nat.zero_le _) hkf p hx2
    · rw [hmiss _ p hx2 (by omega), hphys2, hfresh]
  · intro x p hx
    rw [hmem', hframe3] at hx
    rcases htaken.frame_cases hx with hold | ⟨hle, hlt⟩
    · exact .inl hold
    · exact .inr ⟨hdr, mem_singleton_self hdr, hdata, hle, hlt⟩
  · intro n
    rw [hheap', hheap]
    simp only [mem_singleton, forall_eq]
    constructor
    · intro hle
      split_ifs at hle with hgt
      · exact ⟨by omega, fun _ => hle⟩
      · exact ⟨hle, fun _ => by omega⟩
    · rintro ⟨hle, hall⟩
      have := hall hdata
      split_ifs <;> omega

theorem Adds.none (hgood : V.Good ctx mem₀ st.mem) (hfile : FileOn disk st.file content)
    (hdata : ∀ hdr ∈ hdrs, ¬ HasData hdr) : Adds V disk content ctx mem₀ hdrs st st where
  good := hgood
  file := hfile
  kept := View.Extends.refl V ctx st.mem
  holds hdr hmem h := absurd h (hdata hdr hmem)
  frames _ _ hx := .inl hx
  heap _ := ⟨fun hle => ⟨hle, fun hdr hmem h => absurd h (hdata hdr hmem)⟩, fun h => h.1⟩

theorem Adds.cons {st1 : LoadState μ} (h : Adds V disk content ctx mem₀ [hdr] st st1)
    (h' : Adds V disk content ctx mem₀ hdrs st1 st') :
    Adds V disk content ctx mem₀ (hdr :: hdrs) st st' where
  good := h'.good
  file := h'.file
  kept := h.kept.trans h'.kept
  holds hdr' hmem hdata := by
    rcases mem_cons.mp hmem with rfl | hmem
    · exact (h.holds _ (mem_singleton_self _) hdata).extends h'.kept
    · exact h'.holds hdr' hmem hdata
  frames x p hx := by
    rcases h'.frames x p hx with hx | ⟨hdr', hmem, hin⟩
    · rcases h.frames x p hx with hx | ⟨hdr', hmem, hin⟩
      · exact .inl hx
      · obtain rfl := mem_singleton.mp hmem
        exact .inr ⟨hdr', mem_cons_self, hin⟩
    · exact .inr ⟨hdr', mem_cons_of_mem _ hmem, hin⟩
  heap n := by
    rw [h'.heap, h.heap]
    simp only [mem_singleton, forall_eq, forall_mem_cons]
    tauto

section UserMemory

variable (laws : UserMemory ops V) (hgood : V.Good ctx mem₀ st.mem) (hfile : FileOn disk st.file content)
  (hproper : ∀ hdr ∈ hdrs, hdr.type = PT_LOAD → Proper content hdr)
include laws hgood hfile hproper

theorem loadEach_adds (h : loadEach ops disk ctx hdrs st = some (0, st')) :
    Adds V disk content ctx mem₀ hdrs st st' := by
  induction hdrs generalizing st with
  | nil =>
    cases h
    exact Adds.none hgood hfile (by simp)
  | cons hdr hdrs ih =>
    obtain ⟨⟨ret, st1⟩, hseg, hrest⟩ := bind_eq_some_iff.mp h
    dsimp only at hrest
    have hret : ret = 0 := by
      by_contra hret
      rw [if_pos hret] at hrest
      exact hret (Prod.mk.inj (some.inj hrest)).1
    subst hret
    rw [if_neg (by simp)] at hrest
    have hone : Adds V disk content ctx mem₀ [hdr] st st1 := by
      by_cases hdata : HasData hdr
      · exact segment_adds laws hgood hfile hdata (hproper hdr mem_cons_self hdata.type) hseg
      · rw [userLoadSegment_no_data hdata] at hseg
        obtain ⟨-, rfl⟩ := Prod.mk.inj (some.inj hseg)
        exact Adds.none hgood hfile (by simpa using hdata)
    exact hone.cons (ih hone.good hone.file (fun hdr' hmem => hproper hdr' (mem_cons_of_mem _ hmem)) hrest)

theorem userLoadSegments_adds (h : userLoadSegments ops disk ctx hdrs st = some (0, st')) :
    st'.heapStart ≠ 0 ∧ ∃ st₀, st₀.heapStart = 0 ∧ V.frame st₀.mem ctx = V.frame st.mem ctx ∧
      Adds V disk content ctx mem₀ hdrs st₀ st' := by
  unfold userLoadSegments at h
  dsimp only at h
  obtain ⟨st₀, hbuffer, h⟩ := bind_eq_some_iff.mp h
  -- the buffer may have to be allocated
  have hst₀ : st₀.heapStart = 0 ∧ st₀.file = st.file ∧ V.Kept ctx st.mem st₀.mem := by
    cases hb : st.buffer with
    | some b =>
      simp only [hb] at hbuffer
      cases hbuffer
      exact ⟨rfl, rfl, rfl, fun _ _ _ => rfl, Set.Subset.refl _, fun _ _ => rfl⟩
    | none =>
      simp only [hb] at hbuffer
      obtain ⟨⟨b, mem⟩, hkalloc, heq⟩ := map_eq_some_iff.mp hbuffer
      cases heq
      exact ⟨rfl, rfl, laws.kallocBuffer _ _ _ ctx hkalloc⟩
  obtain ⟨hheap, hfile₀, hkept⟩ := hst₀
  by_cases hnone : st₀.buffer.isNone = true
  · rw [if_pos hnone] at h
    cases h
  · rw [if_neg hnone] at h
    obtain ⟨⟨ret, st1⟩, hload, heq⟩ := map_eq_some_iff.mp h
    dsimp only at heq
    by_cases hret : ret = 0
    · subst hret
      rw [if_neg (by simp)] at heq
      by_cases hzero : st1.heapStart = 0
      · rw [if_pos hzero] at heq
        cases heq
      · rw [if_neg hzero] at heq
        cases heq
        exact ⟨hzero, st₀, hheap, hkept.frame,
          loadEach_adds laws (hgood.kept hkept) (hfile₀ ▸ hfile) hproper hload⟩
    · rw [if_pos hret] at heq
      exact absurd (Prod.mk.inj heq).1 hret

end UserMemory

def Apart (hdr hdr' : Phdr) : Prop := hdr.type = PT_LOAD → hdr'.type = PT_LOAD →
  ∀ x, hdr.vaddr ≤ x → x < hdr.vaddr + hdr.memsz → hdr'.vaddr ≤ x → hdr'.vaddr + hdr'.memsz ≤ x

instance : Std.Symm Apart where
  symm hdr hdr' h htype' htype x hle' hlt' hle := by
    by_contra hin
    have := h htype htype' x hle (by omega) hle'
    omega

/-- A program file: headers and segments inside the file, segments in the user's half of
the address space, on pages of their own. -/
structure WellFormed (content : List UInt8) : Prop where
  headers : HeadersInside content
  proper : ∀ hdr ∈ phdrsOf content, hdr.type = PT_LOAD → Proper content hdr
  apart : (phdrsOf content).Pairwise Apart

/-- What a program expects of its memory: the bytes of the file, zeros behind them, and a
heap behind the segments. -/
def ImageLoaded (V : View μ) (content : List UInt8) (b : Block) (mem : μ) : Prop :=
  ∀ hdr ∈ phdrsOf content, hdr.type = PT_LOAD →
    (∀ k < hdr.memsz, V.byte mem b.memctx (hdr.vaddr + k) =
      some (if k < hdr.filesz then content.getD (hdr.offset + k) 0 else 0)) ∧
    hdr.vaddr + hdr.memsz ≤ b.heapStart

def stackBottom : Nat := USER_STACK_TOP - USER_STACK_LEN

structure Landed (V : View μ) (content : List UInt8) (mem₀ : μ) (b : Block) (mem : μ) : Prop where
  holds : ∀ hdr ∈ phdrsOf content, HasData hdr → SegmentHolds V b.memctx content mem₀ mem hdr
  frames : ∀ x p, V.frame mem b.memctx x = some p →
    (∃ hdr ∈ phdrsOf content, HasData hdr ∧ hdr.vaddr ≤ x ∧ x < segmentEnd hdr) ∨ stackBottom ≤ x
  stack : ∀ hdr ∈ phdrsOf content, HasData hdr → segmentEnd hdr ≤ stackBottom
  heap : ∀ n, b.heapStart ≤ n ↔ ∀ hdr ∈ phdrsOf content, HasData hdr → segmentEnd hdr ≤ n
  nonzero : b.heapStart ≠ 0

theorem HasData.filesz_pos (h : HasData hdr) : 1 ≤ hdr.filesz := by
  have hpages := h.pages
  by_contra hzero
  have hsize : hdr.filesz = 0 := by omega
  unfold filePages at hpages
  rw [hsize, u64_of_lt (by decide)] at hpages
  cases hpages

theorem Proper.hasData (hp : Proper content hdr) (htype : hdr.type = PT_LOAD) (h : 1 ≤ hdr.filesz) :
    HasData hdr := by
  have hsize := hp.size
  have huser := hp.user
  refine ⟨htype, hsize, ?_⟩
  unfold filePages
  rw [u64_of_lt (by unfold PAGE_SIZE; omega)]
  unfold PAGE_SIZE
  omega

theorem Proper.last_page (hp : Proper content hdr) (hdata : HasData hdr) :
    hdr.vaddr + PAGE_SIZE ≤ segmentEnd hdr ∧ segmentEnd hdr % PAGE_SIZE = 0 ∧
      segmentEnd hdr < hdr.vaddr + hdr.memsz + PAGE_SIZE ∧ hdr.vaddr + hdr.memsz ≤ segmentEnd hdr := by
  have hsize := hp.size
  have huser := hp.user
  have hpos := hdata.filesz_pos
  have haligned := hp.aligned
  have hbounds := pageBytes_bounds (show hdr.memsz ≤ 2^47 by omega)
  have hmul : pageBytes hdr.memsz % PAGE_SIZE = 0 := Nat.mul_mod_left _ _
  unfold segmentEnd
  unfold PAGE_SIZE at *
  omega

theorem loadFailed_ne {b b' : Block} : loadFailed ops b st ≠ some (0, b', st') := by
  intro h
  obtain ⟨mem, -, heq⟩ := map_eq_some_iff.mp h
  cases heq

theorem userLoad_landed (laws : UserMemory ops V) {args argsCtx : Nat} {b b' : Block} {file : TarFile}
    {buffer : Option (Nat → UInt8)} (hwf : WellFormed content) (hfile : FileOn disk file content)
    (h : userLoad ops disk args argsCtx b file buffer mem = some (0, b', st')) :
    Landed V content mem b' st'.mem := by
  unfold userLoad at h
  obtain ⟨⟨ctx, mem1⟩, hctx, h⟩ := bind_eq_some_iff.mp h
  dsimp only at h
  by_cases hzero : ctx = 0
  · rw [if_pos hzero] at h
    exact absurd h loadFailed_ne
  rw [if_neg hzero] at h
  obtain ⟨hempty, hidle⟩ := laws.memCtxAlloc _ _ _ hctx hzero
  have hgood : V.Good ctx mem mem1 :=
    ⟨fun x y p hx => absurd hx (by simp [hempty]), fun x p hx => absurd hx (by simp [hempty]), hidle⟩
  rcases helf : userLoadElf disk b.toExtra file with ⟨ret, e, f⟩
  simp only [helf] at h
  by_cases hret : ret = 0
  swap
  · rw [if_pos hret] at h
    exact absurd h loadFailed_ne
  subst hret
  rw [if_neg (by simp)] at h
  obtain ⟨hphdrs, hf⟩ := userLoadElf_file hfile hwf.headers helf
  rw [hphdrs] at h
  obtain ⟨⟨ret, st1⟩, hsegs, h⟩ := bind_eq_some_iff.mp h
  dsimp only at h
  by_cases hret : ret = 0
  swap
  · rw [if_pos hret] at h
    exact absurd h loadFailed_ne
  subst hret
  rw [if_neg (by simp)] at h
  have hstart : V.Good ctx mem (LoadState.mk b.heapStart f buffer mem1).mem := hgood
  obtain ⟨hheap, st₀, hheap₀, hframe₀, hadds⟩ := userLoadSegments_adds laws hstart hf hwf.proper hsegs
  -- the stack comes last
  obtain ⟨⟨argc, mem2⟩, hstack, h⟩ := bind_eq_some_iff.mp h
  unfold userSetupStack at hstack
  obtain ⟨lens, -, hstack⟩ := bind_eq_some_iff.mp hstack
  obtain ⟨⟨virt, mem3⟩, halloc, heq⟩ := map_eq_some_iff.mp hstack
  dsimp only at heq h
  by_cases hvirt : virt = 0
  · rw [if_pos hvirt] at heq
    cases heq
    exact absurd h loadFailed_ne
  rw [if_neg hvirt] at heq
  cases heq
  cases h
  have htaken := laws.memAllocPagesAt _ _ _ _ _ _ _ halloc hvirt (by decide)
  refine ⟨fun hdr hmem hdata => (hadds.holds hdr hmem hdata).extends htaken.extends, fun x p hx => ?_,
    fun hdr hmem hdata => ?_, fun n => ?_, hheap⟩
  · rcases htaken.frame_cases hx with hx | ⟨hle, -⟩
    · rcases hadds.frames x p hx with hx | hseg
      · rw [hframe₀] at hx
        exact absurd hx (by simp [hempty])
      · exact .inl hseg
    · exact .inr hle
  · -- otherwise the last page of the segment would be one of the stack
    by_contra hlt
    have huser := (hwf.proper hdr hmem hdata.type).user
    obtain ⟨hfirst, haligned, hpage, -⟩ := (hwf.proper hdr hmem hdata.type).last_page hdata
    have hlast : segmentEnd hdr - PAGE_SIZE = hdr.vaddr + (pageBytes hdr.memsz - PAGE_SIZE) := by
      unfold segmentEnd at hfirst ⊢
      omega
    have hlarge : 0 < PAGE_SIZE ∧ PAGE_SIZE ≤ pageBytes hdr.memsz := by
      unfold segmentEnd at hfirst
      exact ⟨by decide, by omega⟩
    obtain ⟨p, hframe, -⟩ := hadds.holds hdr hmem hdata (pageBytes hdr.memsz - PAGE_SIZE) (by omega)
    rw [← hlast, htaken.unmapped _ ?_ ?_] at hframe
    · cases hframe
    all_goals
      unfold stackBottom at hlt
      unfold USER_STACK_TOP USER_STACK_LEN PAGE_SIZE at *
      omega
  · rw [hadds.heap, hheap₀]
    simp

/-- When a loaded program finds its image: every segment has bytes in the file, and the
memory it is given for the rest was zero before, or is empty and not behind the others. -/
def ZeroBefore (V : View μ) (content : List UInt8) (b : Block) (mem₀ mem : μ) : Prop :=
  ∀ hdr ∈ phdrsOf content, hdr.type = PT_LOAD →
    (1 ≤ hdr.filesz ∧ ∀ k, hdr.filesz ≤ k → k < hdr.memsz →
      ∀ p, V.frame mem b.memctx (hdr.vaddr + k) = some p → V.phys mem₀ p = 0) ∨
    (hdr.memsz = 0 ∧ ∃ hdr' ∈ phdrsOf content, HasData hdr' ∧ hdr.vaddr ≤ segmentEnd hdr')

section Landed
variable {b : Block} (hland : Landed V content mem₀ b mem) (hwf : WellFormed content)
include hland

theorem Landed.le_heapStart {n : Nat} :
    n ≤ b.heapStart ↔ ∃ hdr ∈ phdrsOf content, HasData hdr ∧ n ≤ segmentEnd hdr := by
  have hnonzero := hland.nonzero
  constructor
  · intro hle
    by_contra hnone
    push Not at hnone
    rcases eq_zero_or_pos n with rfl | hpos
    · have hzero : b.heapStart ≤ 0 := (hland.heap 0).mpr fun hdr hmem hdata =>
        absurd (hnone hdr hmem hdata) (by omega)
      omega
    · have hlt : b.heapStart ≤ n - 1 := (hland.heap (n - 1)).mpr fun hdr hmem hdata => by
        have := hnone hdr hmem hdata
        omega
      omega
  · rintro ⟨hdr, hmem, hdata, hle⟩
    exact hle.trans ((hland.heap _).mp le_rfl hdr hmem hdata)

include hwf

theorem Landed.no_bytes (hmem : hdr ∈ phdrsOf content) (htype : hdr.type = PT_LOAD)
    (hfilesz : hdr.filesz = 0) (hmemsz : 0 < hdr.memsz) :
    V.frame mem b.memctx hdr.vaddr = none ∨ b.heapStart ≤ hdr.vaddr := by
  rcases hframe : V.frame mem b.memctx hdr.vaddr with - | p
  · exact .inl rfl
  right
  have haligned := (hwf.proper hdr hmem htype).aligned
  rcases hland.frames _ p hframe with ⟨hdr', hmem', hdata', hle, hlt⟩ | hstack
  · -- pages of another segment
    exfalso
    obtain ⟨-, haligned', hpage, -⟩ := (hwf.proper hdr' hmem' hdata'.type).last_page hdata'
    have hne : hdr' ≠ hdr := by
      rintro rfl
      exact absurd hdata'.filesz_pos (by omega)
    have hinside : hdr.vaddr < hdr'.vaddr + hdr'.memsz := by
      unfold PAGE_SIZE at *
      omega
    have hout := hwf.apart.forall hmem' hmem hne hdata'.type htype _ hle hinside le_rfl
    omega
  · exact ((hland.heap _).mpr hland.stack).trans hstack

theorem Landed.image_iff : ImageLoaded V content b mem ↔ ZeroBefore V content b mem₀ mem := by
  constructor
  · intro himage hdr hmem htype
    obtain ⟨hbytes, hheap⟩ := himage hdr hmem htype
    have hp := hwf.proper hdr hmem htype
    by_cases hfilesz : 1 ≤ hdr.filesz
    · left
      refine ⟨hfilesz, fun k hle hlt p hframe => ?_⟩
      have hdata := hp.hasData htype hfilesz
      obtain ⟨-, -, -, hend⟩ := hp.last_page hdata
      obtain ⟨p', hframe', hphys⟩ := hland.holds hdr hmem hdata k (by unfold segmentEnd at hend; omega)
      rw [hframe'] at hframe
      cases hframe
      have hbyte := hbytes k hlt
      unfold View.byte at hbyte
      rw [hframe', map_some, hphys, if_neg (by omega), if_neg (by omega)] at hbyte
      exact some.inj hbyte
    · right
      rcases eq_zero_or_pos hdr.memsz with hzero | hpos
      · exact ⟨hzero, hland.le_heapStart.mp (by omega)⟩
      · exfalso
        have hbyte := hbytes 0 hpos
        rcases hland.no_bytes hwf hmem htype (by omega) hpos with hnone | hlow
        · unfold View.byte at hbyte
          rw [add_zero, hnone] at hbyte
          cases hbyte
        · omega
  · intro hzero hdr hmem htype
    have hp := hwf.proper hdr hmem htype
    rcases hzero hdr hmem htype with ⟨hfilesz, hphys₀⟩ | ⟨hempty, hother⟩
    · have hdata := hp.hasData htype hfilesz
      obtain ⟨-, -, -, hend⟩ := hp.last_page hdata
      refine ⟨fun k hk => ?_, hland.le_heapStart.mpr ⟨hdr, hmem, hdata, hend⟩⟩
      obtain ⟨p, hframe, hphys⟩ := hland.holds hdr hmem hdata k (by unfold segmentEnd at hend; omega)
      unfold View.byte
      rw [hframe, map_some, hphys]
      by_cases hkf : k < hdr.filesz
      · rw [if_pos hkf, if_pos hkf]
      · rw [if_neg hkf, if_neg hkf, hphys₀ k (by omega) hk p hframe]
    · rw [hempty]
      exact ⟨fun k hk => absurd hk (Nat.not_lt_zero k), hland.le_heapStart.mpr hother⟩

end Landed

structure Region where
  virt : Nat
  len : Nat
  base : Nat

def Region.Has (r : Region) (x : Nat) : Prop := r.virt ≤ x ∧ x < r.virt + r.len

instance (r : Region) (x : Nat) : Decidable (r.Has x) := by
  unfold Region.Has
  infer_instance

structure Ram where
  phys : Nat → UInt8
  regions : List Region
  next : Nat

def Ram.frame (m : Ram) (x : Nat) : Option Nat :=
  (m.regions.find? fun r => r.Has x).map fun r => r.base + (x - r.virt)

def ramWindow : Nat := 2^50

def ramView : View Ram where
  phys := Ram.phys
  frame m _ x := m.frame x
  free m := { p | m.next ≤ p }
  window _ a _ virt _ := a = virt + ramWindow

def ramOps : LoadOps Ram where
  memCtxAlloc m := some (1, { m with regions := [] })
  memCtxFree m _ := some m
  memCtxPgdir _ _ := 0
  memAllocPagesAt m _ count virt _ :=
    let len := count * PAGE_SIZE
    if virt + len ≤ 2^48 ∧ ∀ r ∈ m.regions, r.virt + r.len ≤ virt ∨ virt + len ≤ r.virt then
      some (virt, { m with regions := ⟨virt, len, m.next⟩ :: m.regions, next := m.next + len })
    else some (0, m)
  kmapuseraddr m _ virt len :=
    if virt + ramWindow + pageBytes len ≤ 2^64 then some (virt + ramWindow, m) else some (0, m)
  kunmapaddr m _ := some m
  kallocBuffer m := some (some fun _ => 0, m)
  memcpyv m a bytes := some
    { m with
      phys := fun p =>
        match (range bytes.length).find? fun j => m.frame (a - ramWindow + j) = some p with
        | some j => bytes.getD j 0
        | none => m.phys p }
  argLengths _ _ _ := some []

theorem ramView_kept (m : Ram) (ctx : Nat) : ramView.Kept ctx m m :=
  ⟨rfl, fun _ _ _ => rfl, Set.Subset.refl _, fun _ _ => rfl⟩

theorem Ram.frame_none {m : Ram} {x : Nat} (h : ∀ r ∈ m.regions, ¬ r.Has x) : m.frame x = none := by
  unfold Ram.frame
  rw [find?_eq_none.mpr (by simpa using h), map_none]

theorem Ram.frame_cons (m : Ram) (r : Region) (next x : Nat) :
    Ram.frame ⟨m.phys, r :: m.regions, next⟩ x =
      if r.virt ≤ x ∧ x < r.virt + r.len then some (r.base + (x - r.virt)) else m.frame x := by
  unfold Ram.frame
  by_cases hin : r.Has x
  · rw [find?_cons_of_pos (by simpa using hin), map_some]
    exact (if_pos hin).symm
  · rw [find?_cons_of_neg (by simpa using hin)]
    exact (if_neg hin).symm

theorem ramOps_user : UserMemory ramOps ramView where
  memCtxAlloc mem ctx mem' h _ := by
    cases h
    exact ⟨fun _ => rfl, fun _ _ => rfl⟩
  memAllocPagesAt mem ctx count virt flags a mem' h ha _ := by
    unfold ramOps at h
    dsimp only at h
    split_ifs at h with hfits
    · cases h
      obtain ⟨hbound, hout⟩ := hfits
      have hunmapped : ∀ x, virt ≤ x → x < virt + count * PAGE_SIZE → mem.frame x = none := by
        intro x hle hlt
        refine Ram.frame_none fun r hr hin => ?_
        obtain ⟨hler, hltr⟩ := hin
        have := hout r hr
        omega
      refine ⟨hbound, hunmapped, ⟨mem.next, fun j hj => ⟨?_, ?_, rfl⟩, fun x => ?_⟩, fun _ _ _ => rfl,
        fun p hp => ?_, fun _ _ => rfl⟩
      · exact Nat.le_add_right _ _
      · change ¬ mem.next + count * PAGE_SIZE ≤ mem.next + j
        omega
      · exact Ram.frame_cons mem ⟨virt, _, mem.next⟩ _ x
      · exact (Nat.le_add_right _ _).trans hp
    · cases h
      exact absurd rfl ha
  kmapuseraddr mem ctx virt len a mem' h ha _ := by
    unfold ramOps at h
    dsimp only at h
    split_ifs at h with hfits
    · cases h
      exact ⟨ramView_kept mem ctx, rfl, hfits⟩
    · cases h
      exact absurd rfl ha
  kunmapaddr mem a mem' ctx h := by
    cases h
    exact ramView_kept mem ctx
  kallocBuffer mem b mem' ctx h := by
    cases h
    exact ramView_kept mem ctx
  memcpyv mem a ctx virt len off bytes mem' hwin hlen hinj h := by
    cases hwin
    cases h
    have haddr : ∀ j, virt + ramWindow + off - ramWindow + j = virt + off + j := by omega
    refine ⟨⟨rfl, rfl, fun j hj p hframe => ?_, fun p hout => ?_⟩, rfl⟩
    · change (match (range bytes.length).find? _ with | some j => _ | none => _) = _
      simp only [haddr]
      rcases hfind : (range bytes.length).find? fun j => mem.frame (virt + off + j) = some p with - | j'
      · have hnot : ¬ mem.frame (virt + off + j) = some p := by
          simpa using find?_eq_none.mp hfind j (mem_range.mpr hj)
        exact absurd hframe hnot
      · have hframe' : mem.frame (virt + off + j') = some p := by simpa using find?_some hfind
        have heq := hinj _ _ p hframe hframe'
        obtain rfl : j = j' := by omega
        rfl
    · change (match (range bytes.length).find? _ with | some j => _ | none => _) = _
      simp only [haddr]
      have hnone : ∀ j ∈ range bytes.length, ¬ mem.frame (virt + off + j) = some p :=
        fun j hj => hout j (mem_range.mp hj)
      rw [find?_eq_none.mpr (by simpa using hnone)]
      rfl

theorem fileOn_ramdisk (h : content.length < 2^62) :
    FileOn (ramdisk (replicate TAR_SIZE 0 ++ content)) ⟨.reg, content.length, 0, 0⟩ content where
  type := rfl
  len := rfl
  fits := by
    change (0 + 1) * 512 + content.length < 2^63
    omega
  read off n hn hblock hoff := by
    change diskReadRd _ _ _ = _
    have hlength : (replicate TAR_SIZE (0 : UInt8) ++ content).length = TAR_SIZE + content.length := by
      simp
    rw [zero_add, one_mul, diskReadRd, hlength, if_neg (by omega)]
    dsimp only
    rw [if_neg (by omega), drop_append, length_replicate, drop_of_length_le (by simp),
      nil_append, Nat.add_sub_cancel_left, toI32_of_lt (by omega)]
    unfold BLOCK_SIZE PAGE_SIZE at hblock
    omega

def leBytes : (width : Nat) → Nat → List UInt8
  | 0, _ => []
  | width + 1, n => UInt8.ofNat n :: leBytes width (n / 256)

def ehdrBytes (phnum : Nat) : List UInt8 :=
  [0x7f, 0x45, 0x4c, 0x46, 2, 1, 1] ++ replicate 9 0 ++ leBytes 2 2 ++ leBytes 2 62 ++ leBytes 4 1 ++
    leBytes 8 0x80000000 ++ leBytes 8 64 ++ leBytes 8 0 ++ leBytes 4 0 ++ leBytes 2 64 ++ leBytes 2 56 ++
    leBytes 2 phnum ++ replicate 6 0

def phdrBytes (hdr : Phdr) : List UInt8 :=
  leBytes 4 hdr.type ++ leBytes 4 6 ++ leBytes 8 hdr.offset ++ leBytes 8 hdr.vaddr ++ leBytes 8 hdr.vaddr ++
    leBytes 8 hdr.filesz ++ leBytes 8 hdr.memsz ++ leBytes 8 PAGE_SIZE

def textPhdr (offset : Nat) : Phdr := ⟨PT_LOAD, offset, 0x80000000, 1, 2⟩
def bssPhdr : Phdr := ⟨PT_LOAD, 0, 0x80001000, 0, 1⟩

def textProgram : List UInt8 := ehdrBytes 1 ++ phdrBytes (textPhdr 120) ++ [0x90]

def bssProgram : List UInt8 := ehdrBytes 2 ++ phdrBytes (textPhdr 176) ++ phdrBytes bssPhdr ++ [0x90]

def loadFilled (program : List UInt8) (v : UInt8) : Option (Int × Block × LoadState Ram) :=
  userLoad ramOps (ramdisk (replicate TAR_SIZE 0 ++ program)) 0 0 zeroBlock
    ⟨.reg, program.length, 0, 0⟩ none ⟨fun _ => v, [], 0x100000⟩

theorem textProgram_wellFormed : WellFormed textProgram := by
  have hphdrs : phdrsOf textProgram = [textPhdr 120] := by decide +kernel
  refine ⟨⟨by decide +kernel, by decide +kernel⟩, ?_, ?_⟩
  · rw [hphdrs]
    intro hdr hmem _
    obtain rfl := mem_singleton.mp hmem
    exact ⟨by decide, by decide, by decide +kernel, by decide⟩
  · rw [hphdrs]
    exact pairwise_singleton _ _

theorem bssProgram_wellFormed : WellFormed bssProgram := by
  have hphdrs : phdrsOf bssProgram = [textPhdr 176, bssPhdr] := by decide +kernel
  refine ⟨⟨by decide +kernel, by decide +kernel⟩, ?_, ?_⟩
  · rw [hphdrs]
    intro hdr hmem _
    rcases mem_pair.mp hmem with rfl | rfl
    · exact ⟨by decide, by decide, by decide +kernel, by decide⟩
    · exact ⟨by decide, by decide, by decide +kernel, by decide⟩
  · rw [hphdrs]
    refine pairwise_pair.mpr fun _ _ x _ hlt hle => ?_
    change x < 0x80000000 + 2 at hlt
    change 0x80001000 ≤ x at hle
    omega

end Comus.Procs
