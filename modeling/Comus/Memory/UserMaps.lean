import Comus.Memory.Spaces

/-!
# User buffers in the kernel (kmapuseraddr)

The pages behind a user buffer are looked up one by one in the directory of the process
and mapped side by side in the directory of the kernel. The number of pages is computed
from the length alone.
-/

namespace Comus.Paging

open Word BitField Trie Tiling Option List
open VirtAlloc (Virt Kalloc Valid virtaddrAlloc virtaddrTake virtaddrFree addressEnd noKalloc)

variable {P : Type}
variable {root va f r : Nat} {s' : Machine P} {m : Mem}

def kmapUserPages (K : KernelImage) (A : PageAlloc P) (pml4 usrADDR vADDR : Nat) : Nat → Nat → KernelM P Nat
  | 0, i => pure i
  | n + 1, i => do
    let pADDR ← memGetPhys K pml4 (u64 (usrADDR + i * PAGE_SIZE))
    if pADDR = 0 then pure i
    else
      let failed ← mapPages K A K.kernelPml4 (u64 (vADDR + i * PAGE_SIZE)) (pADDR / PAGE_SIZE * PAGE_SIZE)
        (F_PRESENT ||| F_WRITEABLE) 1
      if failed ≠ 0 then pure i else kmapUserPages K A pml4 usrADDR vADDR n (i + 1)

/-- The pages for `len` bytes; the offset in the first page does not count. -/
def bufferPages (len : Nat) : Nat := u64 (len + PAGE_SIZE - 1) / PAGE_SIZE

/-- The virtual allocator is that of the kernel, `pml4` the directory of the process. -/
def kmapuseraddr (K : KernelImage) (A : PageAlloc P) (k : Kalloc) (pml4 usrADDR len : Nat) : SpaceM P Nat := do
  let npages := bufferPages len
  let error := usrADDR % PAGE_SIZE
  let vADDR ← onVirt fun v => (virtaddrAlloc v (toI32 npages)).map fun a => (a, v)
  if vADDR = 0 then pure 0
  else
    let failed ← onVirt fun v => virtaddrTake k v vADDR (toI32 npages)
    if failed ≠ 0 then pure 0
    else if vADDR % PAGE_SIZE = 0 then
      let i ← onMachine (kmapUserPages K A pml4 usrADDR vADDR npages 0)
      if i = npages then pure (u64 (vADDR + error))
      else
        onMachine (unmapPages K A K.kernelPml4 false i vADDR)
        let _ ← onVirt fun v => virtaddrFree v vADDR
        pure 0
    else fun _ => none

variable {K : KernelImage} {A : PageAlloc P} {k : Kalloc} {free : P → Nat → Prop}
variable {c c₁ : Space P} {xs : List VirtAlloc.Ptr} {rs : List Nat} {t t' : Machine P} {σ : Nat → Nat}
variable {usr a v len r n i f u : Nat}

theorem memGetPhys_none {Γ : List (Nat × Nat)} (hu : u < 2^48)
    (hd : Directory (free t.phys) t.mem (root / PAGE_SIZE)) (hw : OffWindow K t.mem (root / PAGE_SIZE) u)
    (ht : translate t.mem root u = none) : Runs K [0, 1, 2, 3] Γ (memGetPhys K root u) t 0 t [] := by
  rcases pageLocate_runs (Γ := Γ) hu hd hw with ⟨-, hrun⟩ | ⟨g, hg, hsome, -⟩
  · exact hrun.bind [] (Runs.ret _) (by simp) (by simp)
  · rw [translate, pathOf_eq, follow_snoc, hg, bind_some] at ht
    rw [ht] at hsome
    cases hsome

structure UserMapped (K : KernelImage) (free : P → Nat → Prop) (t t' : Machine P) (usr a v i n : Nat) : Prop
    extends Evolves K free t t' (K.kernelPml4 / PAGE_SIZE) where
  dir : Directory (free t'.phys) t'.mem (K.kernelPml4 / PAGE_SIZE)
  page : ∀ j, j < n → ∃ f, translate t.mem usr (a + PAGE_SIZE * (i + j)) = some f ∧
    translate t'.mem K.kernelPml4 (v + PAGE_SIZE * (i + j)) = some f
  rest : ∀ u, u < 2^48 → ¬ InPages (v + PAGE_SIZE * i) n u →
    translate t'.mem K.kernelPml4 u = translate t.mem K.kernelPml4 u

section Loop

variable (hA : Pool K A free) (hforest : Forest free t rs) (husr : usr / PAGE_SIZE ∈ rs)
  (hkernel : K.kernelPml4 / PAGE_SIZE ∈ rs) (hne : usr / PAGE_SIZE ≠ K.kernelPml4 / PAGE_SIZE) (hσ : Ready σ)
  (hv : v % PAGE_SIZE = 0)
include hA hforest husr hkernel hne hσ hv

omit hne in
theorem kmapUserPages_round {b : Nat} (ha : a + PAGE_SIZE * i < 2^48)
    (hend : v + PAGE_SIZE * i < 2^48) (hwu : OffWindow K t.mem (usr / PAGE_SIZE) (a + PAGE_SIZE * i))
    (hwk : OffWindow K t.mem (K.kernelPml4 / PAGE_SIZE) (v + PAGE_SIZE * i)) (hb : b ≠ i)
    (hrun : kmapUserPages K A usr a v (n + 1) i (t.withSlots K σ) = some (b, s')) :
    ∃ t₁ σ₁, kmapUserPages K A usr a v n (i + 1) (t₁.withSlots K σ₁) = some (b, s') ∧ Ready σ₁ ∧
      (∀ k, PT_MAP < k → σ₁ k = σ k) ∧ UserMapped K free t t₁ usr a v i 1 := by
  have hsize : 0 < PAGE_SIZE := by decide
  unfold kmapUserPages at hrun
  rw [mul_comm i PAGE_SIZE, u64_of_lt (by omega), u64_of_lt (by omega)] at hrun
  obtain ⟨⟨p, s₁⟩, hget, hrest⟩ := bind_eq_some_iff.mp hrun
  cases htrans : translate t.mem usr (a + PAGE_SIZE * i) with
  | none =>
    obtain ⟨σ₁, heq, -⟩ := memGetPhys_none (Γ := []) ha (hforest.dir _ husr) hwu htrans σ hσ (by simp)
    rw [hget] at heq
    cases heq
    dsimp only at hrest
    rw [if_pos rfl] at hrest
    exact absurd (Prod.mk.inj (some.inj hrest)).1.symm hb
  | some f =>
    obtain ⟨σ₁, heq, hσ₁, hkeep₁, -⟩ := memGetPhys_runs (Γ := []) ha (hforest.dir _ husr) hwu htrans σ hσ (by simp)
    rw [hget] at heq
    obtain ⟨hp, rfl⟩ := Prod.mk.inj (some.inj heq)
    have hf : f < 2^40 := follow_lt (hforest.dir _ husr).root htrans
    have hframe : p / PAGE_SIZE * PAGE_SIZE / PAGE_SIZE % 2^40 = f := by
      have hmod : (a + PAGE_SIZE * i) % PAGE_SIZE < PAGE_SIZE := Nat.mod_lt _ hsize
      rw [PAGE_SIZE] at hp hmod ⊢
      rw [hp, u64_of_lt (by omega)]
      omega
    dsimp only at hrest
    split_ifs at hrest with hzero
    · exact absurd (Prod.mk.inj (some.inj hrest)).1.symm hb
    · obtain ⟨⟨failed, s₂⟩, hmap, hrest⟩ := bind_eq_some_iff.mp hrest
      dsimp only at hrest
      split_ifs at hrest with hfail
      · exact absurd (Prod.mk.inj (some.inj hrest)).1.symm hb
      · obtain rfl : failed = 0 := by omega
        obtain ⟨t₁, σ₂, rfl, hσ₂, hkeep₂, hmapped⟩ := mapPagesLoop_maps (n := 1) hA
          (hforest.dir _ hkernel) hσ₁ (by rw [PAGE_SIZE] at *; omega)
          (fun j hj => by rw [Nat.lt_one_iff.mp hj, mul_zero, add_zero]; exact hwk) hmap
        refine ⟨t₁, σ₂, hrest, hσ₂, ?_, hmapped.toEvolves, hmapped.dir, ?_, ?_⟩
        · intro j hj
          rw [hkeep₂ j hj, hkeep₁ j]
          simp only [PT_MAP] at hj
          simp
          omega
        · intro j hj
          obtain rfl := Nat.lt_one_iff.mp hj
          refine ⟨f, htrans, ?_⟩
          rw [add_zero, translate, hmapped.page _ hend, if_pos (by omega), tsub_self, add_zero, hframe]
        · intro u hu hout
          rw [translate, hmapped.page u hu, if_neg hout, translate]

theorem kmapUserPages_maps (ha : 0 < n → a + PAGE_SIZE * (i + n - 1) < 2^48)
    (hend : v + PAGE_SIZE * (i + n) ≤ 2^48)
    (hwu : ∀ j, j < i + n → OffWindow K t.mem (usr / PAGE_SIZE) (a + PAGE_SIZE * j))
    (hwk : ∀ j, j < i + n → OffWindow K t.mem (K.kernelPml4 / PAGE_SIZE) (v + PAGE_SIZE * j))
    (hrun : kmapUserPages K A usr a v n i (t.withSlots K σ) = some (i + n, s')) :
    ∃ t' σ', s' = t'.withSlots K σ' ∧ Ready σ' ∧ (∀ k, PT_MAP < k → σ' k = σ k) ∧
      UserMapped K free t t' usr a v i n := by
  induction n generalizing t σ i with
  | zero =>
    cases hrun
    refine ⟨t, σ, rfl, hσ, fun _ _ => rfl, .refl _ _, hforest.dir _ hkernel, ?_, fun _ _ _ => rfl⟩
    intro j hj
    omega
  | succ n ih =>
    have ha := ha (by omega)
    rw [PAGE_SIZE] at ha hend
    obtain ⟨t₁, σ₁, hrun₁, hσ₁, hkeep₁, hfirst⟩ := kmapUserPages_round hA hforest husr hkernel hσ hv
      (by rw [PAGE_SIZE]; omega) (by rw [PAGE_SIZE]; omega) (hwu i (by omega)) (hwk i (by omega)) (by omega) hrun
    have hforest₁ := hforest.evolves hkernel hfirst.toEvolves hfirst.dir
    have husame : ∀ q, q.length ≤ 4 →
        follow (child t₁.mem) (usr / PAGE_SIZE) q = follow (child t.mem) (usr / PAGE_SIZE) q :=
      fun q hq => hforest.follow_other hkernel husr hne hfirst.toEvolves hq
    have hwu₁ : ∀ j, j < i + 1 + n → OffWindow K t₁.mem (usr / PAGE_SIZE) (a + PAGE_SIZE * j) := by
      intro j hj d g hd hg
      rw [husame _ (by rw [length_take]; omega)] at hg
      exact hwu j (by omega) d g hd hg
    obtain ⟨t', σ', rfl, hσ', hkeep', hrest⟩ := ih hforest₁ hσ₁ (fun _ => by rw [PAGE_SIZE]; omega)
      (by rw [PAGE_SIZE]; omega) hwu₁ (fun j hj => hfirst.offWindow hA (hwk j (by omega)))
      (by rw [add_right_comm, add_assoc]; exact hrun₁)
    refine ⟨t', σ', rfl, hσ', fun j hj => (hkeep' j hj).trans (hkeep₁ j hj),
      hfirst.toEvolves.trans hrest.toEvolves, hrest.dir, ?_, ?_⟩
    · intro j hj
      cases j with
      | zero =>
        obtain ⟨f, hf, hpage⟩ := hfirst.page 0 (by omega)
        refine ⟨f, hf, ?_⟩
        rw [hrest.rest _ (by rw [PAGE_SIZE]; omega) (by rw [InPages, PAGE_SIZE] at *; omega)]
        exact hpage
      | succ j =>
        obtain ⟨f, hf, hpage⟩ := hrest.page j (by omega)
        rw [add_right_comm, add_assoc] at hf hpage
        refine ⟨f, ?_, hpage⟩
        rw [← hf, translate, translate, husame _ (pathOf_length _).le]
    · intro u hu hout
      rw [hrest.rest u hu (by rw [InPages, PAGE_SIZE] at *; omega),
        hfirst.rest u hu (by rw [InPages, PAGE_SIZE] at *; omega)]

end Loop

/-- What a call of `kmapuseraddr` that returns an address has done: `va` is the first page. -/
structure UserSpan (K : KernelImage) (A : PageAlloc P) (k : Kalloc) (c c₁ : Space P) (usr a len va : Nat) :
    Prop where
  chosen : virtaddrAlloc c.virt (toI32 (bufferPages len)) = some va
  nonzero : va ≠ 0
  aligned : va % PAGE_SIZE = 0
  taken : virtaddrTake k c.virt va (toI32 (bufferPages len)) = some (0, c₁.virt)
  mapped : kmapUserPages K A usr a va (bufferPages len) 0 c.machine = some (bufferPages len, c₁.machine)

theorem kmapuseraddr_cases (hrun : kmapuseraddr K A k usr a len c = some (r, c₁)) :
    (r = 0 ∧ c₁.machine = c.machine ∧ (virtaddrAlloc c.virt (toI32 (bufferPages len)) = some 0 ∨
      ∃ va b w, virtaddrAlloc c.virt (toI32 (bufferPages len)) = some va ∧
        virtaddrTake k c.virt va (toI32 (bufferPages len)) = some (b, w) ∧ b ≠ 0)) ∨
    ∃ va w j s, virtaddrAlloc c.virt (toI32 (bufferPages len)) = some va ∧ va ≠ 0 ∧ va % PAGE_SIZE = 0 ∧
      virtaddrTake k c.virt va (toI32 (bufferPages len)) = some (0, w) ∧
      kmapUserPages K A usr a va (bufferPages len) 0 c.machine = some (j, s) ∧
      (j = bufferPages len ∧ r = u64 (va + a % PAGE_SIZE) ∧ c₁ = ⟨s, w⟩ ∨
        j ≠ bufferPages len ∧ r = 0 ∧ unmapPages K A K.kernelPml4 false j va s = some ((), c₁.machine)) := by
  obtain ⟨⟨va, c'⟩, halloc, hrest⟩ := bind_eq_some_iff.mp hrun
  obtain ⟨v', hv', rfl⟩ := onVirt_eq.mp halloc
  obtain ⟨va', hchosen, heq⟩ := map_eq_some_iff.mp hv'
  obtain ⟨rfl, rfl⟩ := Prod.mk.inj heq
  dsimp only at hrest
  by_cases hzero : va' = 0
  · rw [if_pos hzero] at hrest
    cases hrest
    exact .inl ⟨rfl, rfl, .inl (hzero ▸ hchosen)⟩
  rw [if_neg hzero] at hrest
  obtain ⟨⟨b, c'⟩, htaking, hrest⟩ := bind_eq_some_iff.mp hrest
  obtain ⟨w, htake, rfl⟩ := onVirt_eq.mp htaking
  dsimp only at hrest
  by_cases hb : b ≠ 0
  · rw [if_pos hb] at hrest
    cases hrest
    exact .inl ⟨rfl, rfl, .inr ⟨va', b, w, hchosen, htake, hb⟩⟩
  rw [if_neg hb] at hrest
  rw [not_not.mp hb] at htake
  by_cases halign : va' % PAGE_SIZE = 0
  · rw [if_pos halign] at hrest
    obtain ⟨⟨j, c'⟩, hmapping, hrest⟩ := bind_eq_some_iff.mp hrest
    obtain ⟨s, hmap, rfl⟩ := onMachine_eq.mp hmapping
    refine .inr ⟨va', w, j, s, hchosen, hzero, halign, htake, hmap, ?_⟩
    dsimp only at hrest
    by_cases hj : j = bufferPages len
    · rw [if_pos hj] at hrest
      cases hrest
      exact .inl ⟨hj, rfl, rfl⟩
    · rw [if_neg hj] at hrest
      obtain ⟨⟨_, c'⟩, hunmapping, hrest⟩ := bind_eq_some_iff.mp hrest
      obtain ⟨s₁, hunmap, rfl⟩ := onMachine_eq.mp hunmapping
      obtain ⟨⟨_, c'⟩, hfreeing, hrest⟩ := bind_eq_some_iff.mp hrest
      obtain ⟨w₁, -, rfl⟩ := onVirt_eq.mp hfreeing
      cases hrest
      exact .inr ⟨hj, rfl, hunmap⟩
  · rw [if_neg halign] at hrest
    cases hrest

theorem kmapuseraddr_span (hrun : kmapuseraddr K A k usr a len c = some (r, c₁)) (hr : r ≠ 0) :
    ∃ va, UserSpan K A k c c₁ usr a len va ∧ r = u64 (va + a % PAGE_SIZE) := by
  rcases kmapuseraddr_cases hrun with ⟨hzero, -⟩ | ⟨va, w, j, s, hchosen, hne, halign, htake, hmap, hend⟩
  · exact absurd hzero hr
  rcases hend with ⟨rfl, hresult, rfl⟩ | ⟨-, hzero, -⟩
  · exact ⟨va, ⟨hchosen, hne, halign, htake, hmap⟩, hresult⟩
  · exact absurd hzero hr

theorem UserSpan.first_page (h : UserSpan K A k c c₁ usr a len va) (hvalid : Valid c.virt xs) :
    u64 (va + a % PAGE_SIZE) = va + a % PAGE_SIZE ∧ (va + a % PAGE_SIZE) / PAGE_SIZE * PAGE_SIZE = va := by
  have hlt := hvalid.alloc_lt h.chosen
  have halign := h.aligned
  unfold addressEnd at hlt
  rw [PAGE_SIZE] at *
  exact ⟨u64_of_lt (by omega), by omega⟩

theorem physAddr_lt {x : Nat} (h : physAddr m root a = some x) : a < 2^48 := by
  unfold physAddr at h
  split_ifs at h with hlt
  exact hlt

theorem physAddr_eq (hu : u < 2^48) (ha : a < 2^48) (h : u / PAGE_SIZE = a / PAGE_SIZE) :
    physAddr m root u = (translate m root a).map fun f => f * PAGE_SIZE + u % PAGE_SIZE := by
  rw [physAddr, if_pos hu, translate, translate, (pathOf_eq_iff hu ha).mpr h]

def SeesBuffer (K : KernelImage) (s s' : Machine P) (usr a len r : Nat) : Prop :=
  ∀ i, i < len → ∃ x, physAddr s.mem usr (a + i) = some x ∧ physAddr s'.mem K.kernelPml4 (r + i) = some x

/-- The pages that were mapped hold the whole buffer, or the page behind them in the kernel's
directory happens to be the one that is missing. -/
def BufferFits (K : KernelImage) (m : Mem) (usr a len r : Nat) : Prop :=
  a + len ≤ 2^48 ∧ r + len ≤ 2^48 ∧ (a % PAGE_SIZE + len ≤ PAGE_SIZE * bufferPages len ∨
    ∃ f, translate m usr (a + PAGE_SIZE * bufferPages len) = some f ∧
      translate m K.kernelPml4 (r / PAGE_SIZE * PAGE_SIZE + PAGE_SIZE * bufferPages len) = some f)

theorem SeesBuffer.iff_of_lt {s : Machine P} (hlen : 0 < len) (halign : va % PAGE_SIZE = 0)
    (hn : bufferPages len = (len + PAGE_SIZE - 1) / PAGE_SIZE) (hend : a + len ≤ 2^48)
    (hvend : va + a % PAGE_SIZE + len ≤ 2^48)
    (hpage : ∀ j, j < bufferPages len → ∃ f, translate s.mem usr (a + PAGE_SIZE * j) = some f ∧
      translate s'.mem K.kernelPml4 (va + PAGE_SIZE * j) = some f)
    (hbehind : va + PAGE_SIZE * bufferPages len < 2^48 →
      translate s'.mem K.kernelPml4 (va + PAGE_SIZE * bufferPages len) =
        translate s.mem K.kernelPml4 (va + PAGE_SIZE * bufferPages len)) :
    SeesBuffer K s s' usr a len (va + a % PAGE_SIZE) ↔
      (a % PAGE_SIZE + len ≤ PAGE_SIZE * bufferPages len ∨
        ∃ f, translate s.mem usr (a + PAGE_SIZE * bufferPages len) = some f ∧
          translate s.mem K.kernelPml4 (va + PAGE_SIZE * bufferPages len) = some f) := by
  -- byte `i` lies in page `j` of both sides, at the same offset
  have hbyte : ∀ i j, i < len → (a % PAGE_SIZE + i) / PAGE_SIZE = j →
      (a + i < 2^48 ∧ a + PAGE_SIZE * j < 2^48 ∧ (a + i) / PAGE_SIZE = (a + PAGE_SIZE * j) / PAGE_SIZE) ∧
      (va + a % PAGE_SIZE + i < 2^48 ∧ va + PAGE_SIZE * j < 2^48 ∧
        (va + a % PAGE_SIZE + i) / PAGE_SIZE = (va + PAGE_SIZE * j) / PAGE_SIZE) ∧
      (a + i) % PAGE_SIZE = (va + a % PAGE_SIZE + i) % PAGE_SIZE := by
    intro i j hi hj
    rw [PAGE_SIZE] at *
    omega
  constructor
  · intro hsees
    by_cases hfit : a % PAGE_SIZE + len ≤ PAGE_SIZE * bufferPages len
    · exact .inl hfit
    · right
      obtain ⟨x, hx, hx'⟩ := hsees (len - 1) (by omega)
      obtain ⟨⟨hu, ha, hau⟩, ⟨hw, hv, hvw⟩, hmod⟩ := hbyte (len - 1) (bufferPages len) (by omega) (by
        rw [hn] at hfit ⊢
        rw [PAGE_SIZE] at *
        omega)
      rw [physAddr_eq hu ha hau] at hx
      rw [physAddr_eq hw hv hvw, hbehind hv, ← hmod] at hx'
      obtain ⟨f, hf, rfl⟩ := map_eq_some_iff.mp hx
      obtain ⟨f', hf', heq⟩ := map_eq_some_iff.mp hx'
      obtain rfl : f' = f := by
        rw [PAGE_SIZE] at heq
        omega
      exact ⟨f', hf, hf'⟩
  · intro hfit i hi
    obtain ⟨⟨hu, ha, hau⟩, ⟨hw, hv, hvw⟩, hmod⟩ := hbyte i _ hi rfl
    rw [physAddr_eq hu ha hau, physAddr_eq hw hv hvw, ← hmod]
    have hle : (a % PAGE_SIZE + i) / PAGE_SIZE ≤ bufferPages len := by
      rw [hn]
      rw [PAGE_SIZE] at *
      omega
    by_cases hlt : (a % PAGE_SIZE + i) / PAGE_SIZE < bufferPages len
    · obtain ⟨f, hf, hf'⟩ := hpage _ hlt
      exact ⟨_, by rw [hf, map_some], by rw [hf', map_some]⟩
    · have hlast : (a % PAGE_SIZE + i) / PAGE_SIZE = bufferPages len := by omega
      rw [hlast] at hv ⊢
      rcases hfit with hfit | ⟨f, hf, hf'⟩
      · rw [PAGE_SIZE] at *
        omega
      · exact ⟨_, by rw [hf, map_some], by rw [hbehind hv, hf', map_some]⟩

def userTables : Mem := fun f i =>
  if f = 3 ∧ i = 0 then 0x4007 else if f = 4 ∧ i = 0 then 0x5007 else if f = 5 ∧ i = 0 then 0x6007
  else if f = 6 ∧ i = 2 then 0x7007 else if f = 6 ∧ i = 3 then 0x8007 else 0

theorem userTables_child (f i : Nat) : child userTables f i =
    if f = 3 ∧ i = 0 then some 4 else if f = 4 ∧ i = 0 then some 5 else if f = 5 ∧ i = 0 then some 6
    else if f = 6 ∧ i = 2 then some 7 else if f = 6 ∧ i = 3 then some 8 else none := by
  split_ifs with h₁ h₂ h₃ h₄ h₅
  · obtain ⟨rfl, rfl⟩ := h₁
    decide
  · obtain ⟨rfl, rfl⟩ := h₂
    decide
  · obtain ⟨rfl, rfl⟩ := h₃
    decide
  · obtain ⟨rfl, rfl⟩ := h₄
    decide
  · obtain ⟨rfl, rfl⟩ := h₅
    decide
  · simp [child, userTables, h₁, h₂, h₃, h₄, h₅]

def userSpace : Option (Space Nat) := smallSpace.map fun c => { c with machine := smallMachine userTables }

theorem userTables_low {g : Nat} (h : child userTables g i = some f) : 3 < f ∧ f < 10 := by
  rw [userTables_child] at h
  split_ifs at h <;> simp_all <;> omega

theorem userTables_node {q : List Nat} (h : follow (child userTables) r q = some f) : f = r ∨ 3 < f := by
  rcases follow_last h with ⟨-, rfl⟩ | ⟨q', i, g, -, -, hg⟩
  · exact .inl rfl
  · exact .inr (userTables_low hg).1

theorem userTables_forest : Forest countingFree (smallMachine userTables) [2, 3] := by
  have hdir : ∀ r, r = 2 ∨ r = 3 → Directory (countingFree 10) userTables r := by
    intro r hr
    refine @smallMachine_directory r userTables ?_ (by omega) ?_ ?_
    · intro g i h
      have hlow := userTables_low h
      omega
    · intro g g' i i' f h h'
      rw [userTables_child] at h h'
      split_ifs at h h' <;> simp_all <;> omega
    · intro g i f h
      have hlow := userTables_low h
      omega
  have hbare : ∀ i, child userTables 2 i = none := by
    intro i
    rw [userTables_child]
    simp
  have hapart : ∀ f, Node (child userTables) 4 2 f → ¬ Node (child userTables) 4 3 f := by
    rintro f ⟨q, -, hf⟩ ⟨q', -, hf'⟩
    rw [(follow_cleared hbare hf).2] at hf'
    rcases userTables_node hf' with h | h <;> omega
  constructor
  · intro r hr
    exact hdir r (by simpa using hr)
  · intro r hr r' hr' hne f hf hf'
    simp only [mem_cons, not_mem_nil, or_false] at hr hr'
    rcases hr with rfl | rfl <;> rcases hr' with rfl | rfl
    · exact hne rfl
    · exact hapart f hf hf'
    · exact hapart f hf' hf
    · exact hne rfl

theorem userTables_offWindow (hr : r ≠ 1) (u : Nat) : OffWindow smallImage userTables r u := by
  intro d f _ hf hpt
  have hone : f = 1 := hpt
  rcases userTables_node hf with h | h <;> omega

end Comus.Paging
