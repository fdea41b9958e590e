import Comus.Lib.Bytes
import Comus.Memory.PhysAlloc

/-!
# The memory map of the boot loader (kernel/mboot/mboot.c, kernel/mboot/mmap.c)

The boot information is a sequence of tags in byte memory. A null pointer is
address zero. `none` is a panic, or a search for a tag that has not ended within
the given number of steps.
-/

namespace Comus.BootMap

open Word Bytes PhysAlloc Option Function

variable {m : Memory} {type mbootEnd fuel p t mboot fuel' tag n es last room i : Nat}

def N_MMAP_ENTRY : Nat := 256

def MULTIBOOT_TAG_TYPE_MMAP : Nat := 6

/-- `struct memory_map`; only the first `N_MMAP_ENTRY` entries exist. -/
structure MemoryMap where
  entryCount : Nat
  entries : Nat → Segment

/-- The size of a tag, rounded up to a multiple of eight as an `int`. -/
def tagStride (size : Int) : Int :=
  if size.tmod 8 ≠ 0 then toI32 (size + (8 - size.tmod 8)) else size

def locateLoop (m : Memory) (type mbootEnd : Nat) : Nat → Nat → Option Nat
  | 0, _ => none
  | fuel + 1, tagPtr =>
    if tagPtr < mbootEnd then
      if loadLe m tagPtr 4 = type then some tagPtr
      else locateLoop m type mbootEnd fuel
        (toU64 (tagPtr + tagStride (toI32 (loadLe m (tagPtr + 4) 4))))
    else some 0

def locateMbootTable (m : Memory) (mboot type fuel : Nat) : Option Nat :=
  if mboot = 0 then some 0
  else locateLoop m type (u64 (mboot + loadLe m mboot 4)) fuel (u64 (mboot + 8))

def segTypeOf : Nat → SegType
  | 0 => .reserved
  | 1 => .free
  | 3 => .acpi
  | 4 => .hibernation
  | 5 => .defective
  | _ => .reserved

def entryAt (m : Memory) (i : Nat) : Segment :=
  ⟨loadLe m i 8, loadLe m (i + 8) 8, segTypeOf (loadLe m (i + 16) 4)⟩

def mmapLoop (m : Memory) (entrySize last : Nat) : Nat → Nat → MemoryMap → Option MemoryMap
  | 0, i, res => if i < last then none else some { res with entryCount := N_MMAP_ENTRY }
  | room + 1, i, res =>
    let idx := N_MMAP_ENTRY - (room + 1)
    if i < last then
      mmapLoop m entrySize last room (u64 (i + entrySize))
        { res with entries := update res.entries idx (entryAt m i) }
    else some { res with entryCount := idx }

/-- The bound of the loop adds the size of the whole tag to the address of its entries. -/
def mbootGetMmap (m : Memory) (mboot fuel : Nat) (res : MemoryMap) : Option (Int × MemoryMap) :=
  match locateMbootTable m mboot MULTIBOOT_TAG_TYPE_MMAP fuel with
  | none => none
  | some tag =>
    if tag = 0 then some (1, res)
    else
      let entries := u64 (tag + 16)
      (mmapLoop m (loadLe m (tag + 8) 4) (u64 (entries + loadLe m (tag + 4) 4)) N_MMAP_ENTRY
        entries res).map fun out => (0, out)

structure HoldsTag (m : Memory) (mboot tag n entrySize : Nat) : Prop where
  located : ∃ fuel, locateMbootTable m mboot MULTIBOOT_TAG_TYPE_MMAP fuel = some tag
  present : tag ≠ 0
  size : loadLe m (tag + 4) 4 = 16 + n * entrySize
  stride : loadLe m (tag + 8) 4 = entrySize
  wide : 24 ≤ entrySize
  count : n ≤ N_MMAP_ENTRY

def MapRead (m : Memory) (mboot tag n entrySize : Nat) (res : MemoryMap) : Prop :=
  ∃ out : MemoryMap, out.entryCount = n ∧
    (∀ k, k < n → out.entries k = entryAt m (tag + 16 + k * entrySize)) ∧
    ∀ m', (∀ a, a < tag + 16 + n * entrySize → m' a = m a) →
      HoldsTag m' mboot tag n entrySize → ∃ fuel, mbootGetMmap m' mboot fuel res = some (0, out)

theorem locateLoop_mono (h : locateLoop m type mbootEnd fuel p = some t) (k : Nat) :
    locateLoop m type mbootEnd (fuel + k) p = some t := by
  induction fuel generalizing p with
  | zero => exact absurd h (by simp [locateLoop])
  | succ fuel ih =>
    rw [add_right_comm]
    unfold locateLoop at h ⊢
    split_ifs at h ⊢
    · exact h
    · exact ih h
    · exact h

theorem locateMbootTable_unique {t' : Nat} (h : locateMbootTable m mboot type fuel = some t)
    (h' : locateMbootTable m mboot type fuel' = some t') : t = t' := by
  unfold locateMbootTable at h h'
  split_ifs at h h'
  · exact some.inj (h.symm.trans h')
  · have hsum := locateLoop_mono h fuel'
    have hsum' := locateLoop_mono h' fuel
    rw [add_comm fuel' fuel] at hsum'
    exact some.inj (hsum.symm.trans hsum')

theorem locateLoop_lt (h : locateLoop m type mbootEnd fuel p = some t) (ht : t ≠ 0) : t < mbootEnd := by
  induction fuel generalizing p with
  | zero => exact absurd h (by simp [locateLoop])
  | succ fuel ih =>
    unfold locateLoop at h
    split_ifs at h with hlt
    · exact some.inj h ▸ hlt
    · exact ih h
    · exact absurd (some.inj h).symm ht

theorem HoldsTag.low (h : HoldsTag m mboot tag n es) (hmboot : mboot < 2^32) : tag < 2^33 := by
  obtain ⟨fuel, hfuel⟩ := h.located
  have hsize : loadLe m mboot 4 < 256 ^ 4 := loadLe_lt m mboot 4
  unfold locateMbootTable at hfuel
  split_ifs at hfuel with hnull
  · exact absurd (some.inj hfuel).symm h.present
  · have hlt := locateLoop_lt hfuel h.present
    rw [u64_of_lt (by omega)] at hlt
    omega

theorem mmapLoop_reads (m : Memory) (cnt : Nat) (res : MemoryMap)
    (hroom : cnt ≤ room) (hin : ∀ j, j < cnt → i + j * es < last) (hout : last ≤ i + cnt * es)
    (hlt : i + cnt * es < 2^64) (hN : room ≤ N_MMAP_ENTRY) :
    ∃ out, mmapLoop m es last room i res = some out ∧
      out.entryCount = N_MMAP_ENTRY - room + cnt ∧
      (∀ k, k < cnt → out.entries (N_MMAP_ENTRY - room + k) = entryAt m (i + k * es)) ∧
      ∀ k, k < N_MMAP_ENTRY - room → out.entries k = res.entries k := by
  induction cnt generalizing room i res with
  | zero =>
    rw [zero_mul, add_zero] at hout
    have hnot : ¬ i < last := not_lt.mpr hout
    cases room with
    | zero => exact ⟨_, if_neg hnot, rfl, fun k hk => absurd hk (Nat.not_lt_zero k), fun _ _ => rfl⟩
    | succ room =>
      exact ⟨_, if_neg hnot, rfl, fun k hk => absurd hk (Nat.not_lt_zero k), fun _ _ => rfl⟩
  | succ cnt ih =>
    cases room with
    | zero => exact absurd hroom (by omega)
    | succ room =>
      have hfirst := hin 0 (Nat.succ_pos cnt)
      rw [zero_mul, add_zero] at hfirst
      have hmul : (cnt + 1) * es = cnt * es + es := Nat.succ_mul cnt es
      have hnext : u64 (i + es) = i + es := u64_of_lt (by omega)
      have hidx : N_MMAP_ENTRY - room = N_MMAP_ENTRY - (room + 1) + 1 := by omega
      obtain ⟨out, hrun, hcount, hread, hkeep⟩ := ih (i := i + es)
        { res with entries :=
            Function.update res.entries (N_MMAP_ENTRY - (room + 1)) (entryAt m i) }
        (show cnt ≤ room by omega)
        (fun j hj => by
          have := hin (j + 1) (by omega)
          rw [Nat.succ_mul] at this
          omega)
        (by omega) (by omega) (by omega)
      refine ⟨out, ?_, by omega, fun k hk => ?_, fun k hk => ?_⟩
      · rw [mmapLoop, if_pos hfirst, hnext]
        exact hrun
      · cases k with
        | zero =>
          rw [hkeep _ (by omega), zero_mul, add_zero, add_zero]
          exact update_self _ _ _
        | succ k =>
          have hk' := hread k (by omega)
          rw [hidx] at hk'
          rw [Nat.succ_mul, Nat.add_comm (k * es), ← Nat.add_assoc i, ← hk']
          congr 1
          omega
      · rw [hkeep k (by omega)]
        exact update_of_ne (by omega) _ _

theorem mmapLoop_panics (m : Memory) (res : MemoryMap)
    (hin : ∀ j, j ≤ room → i + j * es < last) (hlt : i + room * es < 2^64) :
    mmapLoop m es last room i res = none := by
  induction room generalizing i res with
  | zero =>
    have hfirst := hin 0 (le_refl 0)
    rw [zero_mul, add_zero] at hfirst
    exact if_pos hfirst
  | succ room ih =>
    have hfirst := hin 0 (Nat.zero_le _)
    rw [zero_mul, add_zero] at hfirst
    have hmul : (room + 1) * es = room * es + es := Nat.succ_mul room es
    rw [mmapLoop, if_pos hfirst, u64_of_lt (by omega)]
    refine ih _ (fun j hj => ?_) (by omega)
    have := hin (j + 1) (by omega)
    rw [Nat.succ_mul] at this
    omega

/-- What `mboot_get_mmap` makes of a tag: one entry more than it has, the last one read
from the bytes behind it. -/
theorem HoldsTag.one_more (h : HoldsTag m mboot tag n es)
    (hmboot : mboot < 2^32) (hn : n < N_MMAP_ENTRY) (res : MemoryMap) :
    ∃ fuel out, mbootGetMmap m mboot fuel res = some (0, out) ∧ out.entryCount = n + 1 ∧
      ∀ k, k ≤ n → out.entries k = entryAt m (tag + 16 + k * es) := by
  obtain ⟨fuel, hfuel⟩ := h.located
  have hlow := h.low hmboot
  have hsize : loadLe m (tag + 4) 4 < 256 ^ 4 := loadLe_lt m _ 4
  have hes : loadLe m (tag + 8) 4 < 256 ^ 4 := loadLe_lt m _ 4
  rw [h.size] at hsize
  rw [h.stride] at hes
  have hwide := h.wide
  have hmul : (n + 1) * es = n * es + es := Nat.succ_mul n es
  have hin : ∀ j, j < n + 1 → tag + 16 + j * es < tag + 16 + (16 + n * es) := fun j hj => by
    have := Nat.mul_le_mul_right es (Nat.le_of_lt_succ hj)
    omega
  obtain ⟨out, hrun, hcount, hread, -⟩ := mmapLoop_reads m (n + 1) res hn hin (by omega) (by omega)
    (le_rfl)
  refine ⟨fuel, out, ?_, by omega, fun k hk => ?_⟩
  · unfold mbootGetMmap
    rw [hfuel]
    dsimp only
    have hentries : u64 (tag + 16) = tag + 16 := u64_of_lt (by omega)
    rw [if_neg h.present, h.size, h.stride, hentries, u64_of_lt (by omega), hrun]
    rfl
  · have hk' := hread k (by omega)
    rwa [tsub_self, zero_add] at hk'

theorem HoldsTag.full_panics (h : HoldsTag m mboot tag n es)
    (hmboot : mboot < 2^32) (hn : n = N_MMAP_ENTRY) (fuel : Nat) (res out : MemoryMap) :
    mbootGetMmap m mboot fuel res ≠ some (0, out) := by
  obtain ⟨fuel', hfuel'⟩ := h.located
  have hlow := h.low hmboot
  have hsize : loadLe m (tag + 4) 4 < 256 ^ 4 := loadLe_lt m _ 4
  rw [h.size] at hsize
  subst hn
  intro hrun
  unfold mbootGetMmap at hrun
  cases hfuel : locateMbootTable m mboot MULTIBOOT_TAG_TYPE_MMAP fuel with
  | none => exact absurd (hfuel ▸ hrun) (by simp)
  | some t =>
    obtain rfl := locateMbootTable_unique hfuel hfuel'
    have hentries : u64 (t + 16) = t + 16 := u64_of_lt (by omega)
    rw [hfuel] at hrun
    dsimp only at hrun
    rw [if_neg h.present, h.size, h.stride, hentries, u64_of_lt (by omega),
      mmapLoop_panics m res
        (fun j hj => by
          have := Nat.mul_le_mul_right es hj
          omega)
        (by omega)] at hrun
    cases hrun

theorem mbootGetMmap_unique {res : MemoryMap}
    {r r' : Int × MemoryMap} (h : mbootGetMmap m mboot fuel res = some r)
    (h' : mbootGetMmap m mboot fuel' res = some r') : r = r' := by
  unfold mbootGetMmap at h h'
  cases ht : locateMbootTable m mboot MULTIBOOT_TAG_TYPE_MMAP fuel with
  | none => exact absurd (ht ▸ h) (by simp)
  | some t =>
    cases ht' : locateMbootTable m mboot MULTIBOOT_TAG_TYPE_MMAP fuel' with
    | none => exact absurd (ht' ▸ h') (by simp)
    | some t' =>
      obtain rfl := locateMbootTable_unique ht ht'
      rw [ht] at h
      rw [ht'] at h'
      exact some.inj (h.symm.trans h')

/-- No memory-map tag is read as it is: the loop runs sixteen bytes past its end. The
boot loader passes the address of the boot information in a 32-bit register. -/
theorem map_never_read (m : Memory) (mboot tag n entrySize : Nat) (res : MemoryMap)
    (hmboot : mboot < 2^32) (h : HoldsTag m mboot tag n entrySize) :
    ¬ MapRead m mboot tag n entrySize res := by
  rintro ⟨out, hcount, -, hrun⟩
  obtain ⟨fuel, hfuel⟩ := hrun m (fun _ _ => rfl) h
  rcases Nat.lt_or_eq_of_le h.count with hn | hn
  · obtain ⟨fuel', out', hfuel', hcount', -⟩ := h.one_more hmboot hn res
    have heq := (Prod.mk.inj (mbootGetMmap_unique hfuel hfuel')).2
    rw [← heq] at hcount'
    omega
  · exact h.full_panics hmboot hn fuel res out hfuel

def oneEntry : Memory := fun a =>
  ([72, 0, 0, 0, 0, 0, 0, 0,
    6, 0, 0, 0, 40, 0, 0, 0, 24, 0, 0, 0, 0, 0, 0, 0,
    0, 0, 16, 0, 0, 0, 0, 0, 0, 16, 0, 0, 0, 0, 0, 0, 2, 0, 0, 0, 0, 0, 0, 0,
    0, 0, 32, 0, 0, 0, 0, 0, 0, 0, 16, 0, 0, 0, 0, 0, 1, 0, 0, 0, 0, 0, 0, 0] : List UInt8).getD
    (a - 8) 0

def emptyMap : MemoryMap := ⟨0, fun _ => ⟨0, 0, .reserved⟩⟩

theorem oneEntry_holdsTag : HoldsTag oneEntry 8 16 1 24 where
  located := ⟨1, by decide +kernel⟩
  present := by decide
  size := by decide +kernel
  stride := by decide +kernel
  wide := by decide
  count := by decide

theorem map_never_read_oneEntry : ¬ MapRead oneEntry 8 16 1 24 emptyMap :=
  map_never_read oneEntry 8 16 1 24 emptyMap (by decide) oneEntry_holdsTag

/-- The single reserved entry is followed in the map by a free one that is not in the tag. -/
theorem stray_free_entry : HoldsTag oneEntry 8 16 1 24 ∧
    (mbootGetMmap oneEntry 8 1 emptyMap).map (fun r => (r.1, r.2.entryCount, r.2.entries 0,
      r.2.entries 1)) = some (0, 2, ⟨0x100000, 0x1000, .reserved⟩, ⟨0x200000, 0x100000, .free⟩) ∧
    ¬ MapRead oneEntry 8 16 1 24 emptyMap := by
  have hrun : (mbootGetMmap oneEntry 8 1 emptyMap).map (fun r => (r.1, r.2.entryCount,
      r.2.entries 0, r.2.entries 1)) =
        some (0, 2, ⟨0x100000, 0x1000, .reserved⟩, ⟨0x200000, 0x100000, .free⟩) := by
    decide +kernel
  refine ⟨oneEntry_holdsTag, hrun, ?_⟩
  rintro ⟨out, hcount, -, hall⟩
  obtain ⟨fuel, hfuel⟩ := hall oneEntry (fun _ _ => rfl) oneEntry_holdsTag
  obtain ⟨r, hr, hfields⟩ := map_eq_some_iff.mp hrun
  obtain rfl := mbootGetMmap_unique hfuel hr
  have htwo := (Prod.mk.inj (Prod.mk.inj hfields).2).1
  dsimp only at htwo
  omega

end Comus.BootMap
