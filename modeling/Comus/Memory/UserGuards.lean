import Comus.Memory.UserMaps

/-!
# What kmapuseraddr checks

The pages of a user buffer are looked up in the directory of the process, and a page is
taken if it is present: the flag of user pages is not looked at. The index into the first
table is not masked, so an address from `2 ^ 48` on reads past the end of that table, in
whatever the other slots of the window show.
-/

namespace Comus.Paging

open Word BitField Trie Tiling Option List
open VirtAlloc (Virt Kalloc Valid virtaddrAlloc virtaddrTake virtaddrFree addressEnd noKalloc)

variable {P α β : Type} {K : KernelImage} {A : PageAlloc P}
variable {s s' : Machine P} {i v j : Nat}

structure MayStray (b : Prop) (op : KernelM P α) : Prop where
  keeps : KeepsStray op
  only : ∀ s a s', op s = some (a, s') → s'.strayed = true → s.strayed = true ∨ b

structure StraysIff (b : Prop) (op : KernelM P α) : Prop extends MayStray b op where
  strays : b → Strays op

variable {b : Prop} {x : KernelM P α} {g : α → KernelM P β}

theorem StraysIff.iff {a : α} (h : StraysIff b x) (hrun : x s = some (a, s')) :
    s'.strayed = true ↔ s.strayed = true ∨ b := by
  constructor
  · exact h.only s a s' hrun
  · rintro (hs | hb)
    · exact h.keeps s a s' hrun hs
    · exact h.strays hb s a s' hrun

theorem MayStray.pure (a : α) : MayStray b (Pure.pure a : KernelM P α) := by
  refine ⟨.pure a, fun s r s' hrun hs => ?_⟩
  cases hrun
  exact .inl hs

theorem MayStray.bind (hx : MayStray b x) (hg : ∀ a, MayStray b (g a)) : MayStray b (x >>= g) := by
  refine ⟨hx.keeps.bind fun a => (hg a).keeps, fun s r s' hrun hs => ?_⟩
  obtain ⟨⟨a, s₁⟩, hx₁, hrest⟩ := bind_eq_some_iff.mp hrun
  rcases (hg a).only s₁ r s' hrest hs with hs₁ | hb
  · exact hx.only s a s₁ hx₁ hs₁
  · exact .inr hb

theorem MayStray.ite {p : Prop} [Decidable p] {y : KernelM P α} (hx : MayStray b x) (hy : MayStray b y) :
    MayStray b (if p then x else y) := by
  split_ifs
  · exact hx
  · exact hy

theorem StraysIff.bind_of (hx : StraysIff b x) (hg : ∀ s a s', x s = some (a, s') → MayStray b (g a)) :
    StraysIff b (x >>= g) := by
  refine ⟨⟨fun s r s' hrun hs => ?_, fun s r s' hrun hs => ?_⟩, fun hb s r s' hrun => ?_⟩
  all_goals obtain ⟨⟨a, s₁⟩, hx₁, hrest⟩ := bind_eq_some_iff.mp hrun
  · exact (hg s a s₁ hx₁).keeps s₁ r s' hrest (hx.keeps s a s₁ hx₁ hs)
  · rcases (hg s a s₁ hx₁).only s₁ r s' hrest hs with hs₁ | hb
    · exact hx.only s a s₁ hx₁ hs₁
    · exact .inr hb
  · exact (hg s a s₁ hx₁).keeps s₁ r s' hrest (hx.strays hb s a s₁ hx₁)

theorem StraysIff.bind (hx : StraysIff b x) (hg : ∀ a, MayStray b (g a)) : StraysIff b (x >>= g) :=
  hx.bind_of fun _ a _ _ => hg a

theorem StraysIff.after (hx : MayStray b x) (hg : ∀ a, StraysIff b (g a)) : StraysIff b (x >>= g) :=
  ⟨hx.bind fun a => (hg a).toMayStray, fun hb => strays_bind fun a => (hg a).strays hb⟩

theorem MayStray.of_eq (h : ∀ s a s', x s = some (a, s') → s'.strayed = s.strayed) : MayStray b x :=
  ⟨fun s a s' hrun hs => (h s a s' hrun).trans hs, fun s a s' hrun hs => .inl ((h s a s' hrun).symm.trans hs)⟩

theorem load_straysIff (page i : Nat) : StraysIff (512 ≤ i) (load K page i : KernelM P Nat) := by
  refine ⟨⟨load_keepsStray page i, fun s r s' hrun hs => ?_⟩, load_strays⟩
  obtain ⟨f, -, heq⟩ := map_eq_some_iff.mp hrun
  cases heq
  simpa using hs

theorem MayStray.load (page : Nat) (hi : 512 ≤ i → b) : MayStray b (load K page i : KernelM P Nat) :=
  ⟨load_keepsStray page i, fun s r s' hrun hs => ((load_straysIff page i).only s r s' hrun hs).imp_right hi⟩

theorem MayStray.store (page : Nat) (w : Nat) (hi : 512 ≤ i → b) :
    MayStray b (store K page i w : KernelM P Unit) := by
  refine ⟨store_keepsStray page i w, fun s r s' hrun hs => ?_⟩
  obtain ⟨f, -, heq⟩ := map_eq_some_iff.mp hrun
  cases heq
  rw [Bool.or_eq_true, decide_eq_true_iff] at hs
  exact hs.imp_right hi

theorem MayStray.mapAddr (p slot : Nat) : MayStray b (mapAddr K p slot : KernelM P Nat) := by
  refine .of_eq fun s r s' hrun => ?_
  unfold Paging.mapAddr at hrun
  dsimp only at hrun
  split_ifs at hrun
  · cases hrun
    rfl
  · cases hrun
    exact Machine.write_strayed _ _ _ _

theorem MayStray.zeroPage (page : Nat) : MayStray b (zeroPage K page : KernelM P Unit) := by
  refine .of_eq fun s r s' hrun => ?_
  obtain ⟨f, -, heq⟩ := map_eq_some_iff.mp hrun
  cases heq
  rfl

theorem MayStray.allocPhysPage : MayStray b (allocPhysPage A) := by
  refine .of_eq fun s r s' hrun => ?_
  obtain ⟨f, -, heq⟩ := map_eq_some_iff.mp hrun
  cases heq
  rfl

theorem MayStray.freePhysPage (p : Nat) : MayStray b (freePhysPage A p) := by
  refine .of_eq fun s r s' hrun => ?_
  cases hrun
  rfl

theorem tableLocate_straysIff (slot p offset : Nat) :
    StraysIff (512 ≤ offset) (tableLocate K slot p offset : KernelM P Nat) :=
  .after (.mapAddr p slot) fun table => (load_straysIff table offset).bind fun _ => .pure _

theorem MayStray.tableLocate (slot p n : Nat) : MayStray b (tableLocate K slot p (n % 512) : KernelM P Nat) := by
  refine .bind (.mapAddr p slot) fun table => .bind (.load table fun h => ?_) fun _ => .pure _
  have := Nat.mod_lt n (by decide : 0 < 512)
  omega

theorem past_iff (v : Nat) : 512 ≤ v / 2^39 ↔ 2^48 ≤ v := by omega

theorem masked_le {n : Nat} (h : 512 ≤ n % 512) : b := by
  have := Nat.mod_lt n (by decide : 0 < 512)
  omega

theorem pageLocate_straysIff (root v : Nat) :
    StraysIff (2^48 ≤ v) (pageLocate K root v : KernelM P (Option Nat)) := by
  have hfirst : StraysIff (2^48 ≤ v) (pdptLocate K root v : KernelM P Nat) := by
    rw [← past_iff]
    exact tableLocate_straysIff _ _ _
  refine hfirst.bind fun pPDPT => .ite (.pure _) ?_
  refine .bind (.tableLocate _ _ _) fun pPD => .ite (.pure _) ?_
  refine .bind (.tableLocate _ _ _) fun pPT => .ite (.pure _) ?_
  exact .bind (.mapAddr _ _) fun vPT => .bind (.load _ masked_le) fun _ => .pure _

theorem memGetPhys_straysIff (root v : Nat) : StraysIff (2^48 ≤ v) (memGetPhys K root v : KernelM P Nat) := by
  refine (pageLocate_straysIff root v).bind_of fun s found s' hfound => ?_
  cases found with
  | none => exact .pure _
  | some offset =>
    have hlt := pageLocate_offset hfound
    exact .bind (.load _ fun h => by omega) fun _ => .pure _

theorem pageFree_straysIff (root v : Nat) (deallocate : Bool) :
    StraysIff (2^48 ≤ v) (pageFree K A root v deallocate) := by
  refine (pageLocate_straysIff root v).bind_of fun s found s' hfound => ?_
  cases found with
  | none => exact .pure _
  | some offset =>
    have hlt := pageLocate_offset hfound
    have hinside : 512 ≤ offset → 2^48 ≤ v := fun h => by omega
    refine .bind (.load _ hinside) fun _ => .bind (.store _ _ hinside) fun _ => .ite ?_ (.pure _)
    exact .bind (.load _ hinside) fun _ => .freePhysPage _

theorem tableAlloc_straysIff (slot below p offset flags : Nat) :
    StraysIff (512 ≤ offset) (tableAlloc K A slot below p offset flags) := by
  have hzero : 512 ≤ 0 → 512 ≤ offset := fun h => by omega
  refine .after (.mapAddr _ _) fun table => (tableLocate_straysIff slot p offset).bind fun located => .ite ?_ ?_
  · exact .bind (.load _ id) fun _ => .bind (.store _ _ id) fun _ => .pure _
  · refine .bind .allocPhysPage fun child => .ite (.pure _) ?_
    refine .bind (.mapAddr _ _) fun page => .bind (.zeroPage _) fun _ => ?_
    refine .bind (.load _ id) fun _ => .bind (.store _ _ id) fun _ => ?_
    exact .bind (.load _ hzero) fun _ => .bind (.store _ _ hzero) fun _ => .pure _

theorem MayStray.tableAlloc (slot below p n flags : Nat) :
    MayStray b (tableAlloc K A slot below p (n % 512) flags) := by
  have h := tableAlloc_straysIff (K := K) (A := A) slot below p (n % 512) flags
  exact ⟨h.keeps, fun s r s' hrun hs => (h.only s r s' hrun hs).imp_right masked_le⟩

theorem pageAlloc_straysIff (root v flags : Nat) : StraysIff (2^48 ≤ v) (pageAlloc K A root v flags) := by
  have hfirst : StraysIff (2^48 ≤ v) (pdptAlloc K A root v flags) := by
    rw [← past_iff]
    exact tableAlloc_straysIff _ _ _ _ _
  refine hfirst.bind fun pPDPT => .ite (.pure _) ?_
  refine .bind (.tableAlloc _ _ _ _ _) fun pPD => .ite (.pure _) ?_
  refine .bind (.tableAlloc _ _ _ _ _) fun pPT => .ite (.pure _) ?_
  refine .bind (.mapAddr _ _) fun vPT => .bind (.store _ _ masked_le) fun _ => ?_
  refine .bind (.load _ fun h => ?_) fun _ => .bind (.store _ _ fun h => ?_) fun _ => .pure _
  all_goals omega

theorem pageAlloc_offset {root flags offset : Nat} (h : pageAlloc K A root v flags s = some (some offset, s')) : offset < 512 := by
  obtain ⟨⟨pPDPT, s₁⟩, -, h⟩ := bind_eq_some_iff.mp h
  dsimp only at h
  split_ifs at h
  · cases h
  obtain ⟨⟨pPD, s₂⟩, -, h⟩ := bind_eq_some_iff.mp h
  dsimp only at h
  split_ifs at h
  · cases h
  obtain ⟨⟨pPT, s₃⟩, -, h⟩ := bind_eq_some_iff.mp h
  dsimp only at h
  split_ifs at h
  · cases h
  obtain ⟨⟨vPT, s₄⟩, -, h⟩ := bind_eq_some_iff.mp h
  obtain ⟨⟨_, s₅⟩, -, h⟩ := bind_eq_some_iff.mp h
  obtain ⟨⟨e, s₆⟩, -, h⟩ := bind_eq_some_iff.mp h
  obtain ⟨⟨_, s₇⟩, -, h⟩ := bind_eq_some_iff.mp h
  rw [← some.inj (Prod.mk.inj (some.inj h)).1]
  exact Nat.mod_lt _ (by decide)

theorem mapPage_straysIff (root v p flags : Nat) : StraysIff (2^48 ≤ v) (mapPage K A root v p flags) := by
  refine (pageAlloc_straysIff root v flags).bind_of fun s found s' hfound => ?_
  cases found with
  | none => exact .pure _
  | some offset =>
    have hlt := pageAlloc_offset hfound
    have hinside : 512 ≤ offset → 2^48 ≤ v := fun h => by omega
    exact .bind (.load _ hinside) fun _ => .bind (.store _ _ hinside) fun _ => .pure _

theorem mapPages_one_straysIff (root v p flags : Nat) : StraysIff (2^48 ≤ v) (mapPages K A root v p flags 1) := by
  refine (mapPage_straysIff root v p flags).bind fun mapped => .ite (.pure _) ?_
  exact .bind (.bind (pageFree_straysIff root v true).toMayStray fun _ => .pure _) fun _ => .pure _

/-- The addresses whose tables the loop over the pages `i, ..., i + n - 1` walks, in the
directory of the process and in that of the kernel. -/
def walksFrom (K : KernelImage) (A : PageAlloc P) (pml4 usrADDR vADDR : Nat) : Nat → Nat → Machine P → List Nat
  | 0, _, _ => []
  | n + 1, i, s =>
    u64 (usrADDR + i * PAGE_SIZE) ::
      match memGetPhys K pml4 (u64 (usrADDR + i * PAGE_SIZE)) s with
      | none => []
      | some (pADDR, s) =>
        if pADDR = 0 then []
        else
          u64 (vADDR + i * PAGE_SIZE) ::
            match mapPages K A K.kernelPml4 (u64 (vADDR + i * PAGE_SIZE)) (pADDR / PAGE_SIZE * PAGE_SIZE)
              (F_PRESENT ||| F_WRITEABLE) 1 s with
            | none => []
            | some (failed, s) => if failed ≠ 0 then [] else walksFrom K A pml4 usrADDR vADDR n (i + 1) s

variable {usr a va n i : Nat} {s s' : Machine P}

theorem kmapUserPages_cases (hrun : kmapUserPages K A usr a va (n + 1) i s = some (j, s')) :
    ∃ p s₁, memGetPhys K usr (u64 (a + i * PAGE_SIZE)) s = some (p, s₁) ∧
      ((p = 0 ∧ j = i ∧ s' = s₁ ∧ walksFrom K A usr a va (n + 1) i s = [u64 (a + i * PAGE_SIZE)]) ∨
        ∃ failed s₂, mapPages K A K.kernelPml4 (u64 (va + i * PAGE_SIZE)) (p / PAGE_SIZE * PAGE_SIZE)
            (F_PRESENT ||| F_WRITEABLE) 1 s₁ = some (failed, s₂) ∧
          ((failed ≠ 0 ∧ j = i ∧ s' = s₂ ∧ walksFrom K A usr a va (n + 1) i s =
              [u64 (a + i * PAGE_SIZE), u64 (va + i * PAGE_SIZE)]) ∨
            kmapUserPages K A usr a va n (i + 1) s₂ = some (j, s') ∧ walksFrom K A usr a va (n + 1) i s =
              u64 (a + i * PAGE_SIZE) :: u64 (va + i * PAGE_SIZE) :: walksFrom K A usr a va n (i + 1) s₂)) := by
  obtain ⟨⟨p, s₁⟩, hget, hrest⟩ := bind_eq_some_iff.mp hrun
  refine ⟨p, s₁, hget, ?_⟩
  rw [walksFrom]
  simp only [hget]
  dsimp only at hrest
  by_cases hp : p = 0
  · rw [if_pos hp] at hrest
    cases hrest
    exact .inl ⟨hp, rfl, rfl, by rw [if_pos hp]⟩
  · rw [if_neg hp] at hrest
    obtain ⟨⟨failed, s₂⟩, hmap, hrest⟩ := bind_eq_some_iff.mp hrest
    refine .inr ⟨failed, s₂, hmap, ?_⟩
    simp only [if_neg hp, hmap]
    dsimp only at hrest
    by_cases hfail : failed ≠ 0
    · rw [if_pos hfail] at hrest
      cases hrest
      exact .inl ⟨hfail, rfl, rfl, by rw [if_pos hfail]⟩
    · rw [if_neg hfail] at hrest
      exact .inr ⟨hrest, by rw [if_neg hfail]⟩

theorem kmapUserPages_strays (hrun : kmapUserPages K A usr a va n i s = some (j, s')) :
    s'.strayed = true ↔ s.strayed = true ∨ ∃ u ∈ walksFrom K A usr a va n i s, 2^48 ≤ u := by
  induction n generalizing i s with
  | zero =>
    cases hrun
    simp [walksFrom]
  | succ n ih =>
    obtain ⟨p, s₁, hget, hcases⟩ := kmapUserPages_cases hrun
    have hwalk := (memGetPhys_straysIff (K := K) usr (u64 (a + i * PAGE_SIZE))).iff hget
    rcases hcases with ⟨-, -, rfl, hwalks⟩ | ⟨failed, s₂, hmap, hcases⟩
    · rw [hwalks, hwalk]
      simp
    · have hmapped := (mapPages_one_straysIff _ _ _ _).iff hmap
      rcases hcases with ⟨-, -, rfl, hwalks⟩ | ⟨hrest, hwalks⟩
      · rw [hwalks, hmapped, hwalk]
        simp
        tauto
      · rw [hwalks, ih hrest, hmapped, hwalk]
        simp
        tauto

theorem kmapUserPages_walked (hrun : kmapUserPages K A usr a va n i s = some (j, s')) {k : Nat}
    (hik : i ≤ k) (hkj : k < j) : u64 (a + k * PAGE_SIZE) ∈ walksFrom K A usr a va n i s ∧
      u64 (va + k * PAGE_SIZE) ∈ walksFrom K A usr a va n i s := by
  induction n generalizing i s with
  | zero =>
    cases hrun
    omega
  | succ n ih =>
    obtain ⟨p, s₁, -, hcases⟩ := kmapUserPages_cases hrun
    rcases hcases with ⟨-, rfl, -, -⟩ | ⟨failed, s₂, -, hcases⟩
    · omega
    rcases hcases with ⟨-, rfl, -, -⟩ | ⟨hrest, hwalks⟩
    · omega
    · rw [hwalks]
      by_cases hk : k = i
      · subst hk
        simp
      · obtain ⟨hu, hv⟩ := ih hrest (by omega)
        exact ⟨mem_cons_of_mem _ (mem_cons_of_mem _ hu), mem_cons_of_mem _ (mem_cons_of_mem _ hv)⟩

def kmapuseraddrWalks (K : KernelImage) (A : PageAlloc P) (k : Kalloc) (pml4 usrADDR npages : Nat) (c : Space P) :
    List Nat :=
  let walks := do
    let va ← virtaddrAlloc c.virt (toI32 npages)
    if va = 0 then none
    else
      let taken ← virtaddrTake k c.virt va (toI32 npages)
      if taken.1 ≠ 0 then none else some (walksFrom K A pml4 usrADDR va npages 0 c.machine)
  walks.getD []

variable {k : Kalloc} {c c₁ : Space P} {len r : Nat}

theorem unmapPages_mayStray (root : Nat) (deallocate : Bool) (hv : v < 2^64)
    (hb : ∀ j, j < n → 2^48 ≤ u64 (v + j * PAGE_SIZE) → b) : MayStray b (unmapPages K A root deallocate n v) := by
  induction n generalizing v with
  | zero => exact .pure _
  | succ n ih =>
    have hfirst : 2^48 ≤ v → b := fun h => hb 0 (by omega) (by rwa [zero_mul, add_zero, u64_of_lt hv])
    have hpage := pageFree_straysIff (K := K) (A := A) root v deallocate
    refine .bind ⟨hpage.keeps, fun s x s' hrun hs => (hpage.only s x s' hrun hs).imp_right hfirst⟩ fun _ => ?_
    refine ih (u64_lt _) fun j hj hpast => hb (j + 1) (by omega) ?_
    have hnext : u64 (u64 (v + PAGE_SIZE) + j * PAGE_SIZE) = u64 (v + (j + 1) * PAGE_SIZE) := by
      unfold u64
      rw [Nat.mod_add_mod, add_assoc, add_mul, one_mul, add_comm PAGE_SIZE]
    rwa [hnext] at hpast

theorem kmapuseraddrWalks_none (h : virtaddrAlloc c.virt (toI32 n) = some 0 ∨
    ∃ va f w, virtaddrAlloc c.virt (toI32 n) = some va ∧ virtaddrTake k c.virt va (toI32 n) = some (f, w) ∧ f ≠ 0) :
    kmapuseraddrWalks K A k usr a n c = [] := by
  unfold kmapuseraddrWalks
  rcases h with hzero | ⟨va, f, w, hchosen, htake, hf⟩
  · simp only [hzero, bind_eq_bind, bind_some, if_true, getD_none]
  · simp only [hchosen, htake, bind_eq_bind, bind_some, if_pos hf, ite_self, getD_none]

theorem kmapuseraddrWalks_eq {w : Virt} (hchosen : virtaddrAlloc c.virt (toI32 n) = some va)
    (hne : va ≠ 0) (htake : virtaddrTake k c.virt va (toI32 n) = some (0, w)) :
    kmapuseraddrWalks K A k usr a n c = walksFrom K A usr a va n 0 c.machine := by
  unfold kmapuseraddrWalks
  simp only [hchosen, htake, bind_eq_bind, bind_some, if_neg hne, ne_eq, not_true_eq_false, if_false,
    getD_some]

theorem kmapuseraddr_strays (hvalid : ∃ xs, Valid c.virt xs)
    (hrun : kmapuseraddr K A k usr a len c = some (r, c₁)) : c₁.machine.strayed = true ↔
      c.machine.strayed = true ∨ ∃ u ∈ kmapuseraddrWalks K A k usr a (bufferPages len) c, 2^48 ≤ u := by
  rcases kmapuseraddr_cases hrun with ⟨-, hsame, hnone⟩ | ⟨va, w, j, s, hchosen, hne, -, htake, hmap, hend⟩
  · rw [kmapuseraddrWalks_none hnone, hsame]
    simp
  · rw [kmapuseraddrWalks_eq hchosen hne htake]
    have hloop := kmapUserPages_strays hmap
    rcases hend with ⟨-, -, rfl⟩ | ⟨-, -, hunmap⟩
    · exact hloop
    · obtain ⟨xs, hvalid⟩ := hvalid
      have hlt := hvalid.alloc_lt hchosen
      unfold addressEnd at hlt
      have hundo : MayStray (∃ u ∈ walksFrom K A usr a va (bufferPages len) 0 c.machine, 2^48 ≤ u)
          (unmapPages K A K.kernelPml4 false j va) :=
        unmapPages_mayStray _ _ (by omega) fun i hi hpast =>
          ⟨_, (kmapUserPages_walked hmap (Nat.zero_le i) hi).2, hpast⟩
      constructor
      · intro hs
        rcases hundo.only s () c₁.machine hunmap hs with hs | hwalk
        · exact hloop.mp hs
        · exact .inr hwalk
      · intro hs
        exact hundo.keeps s () c₁.machine hunmap (hloop.mpr hs)

def UserPage (m : Mem) (root u : Nat) : Prop :=
  u < 2^48 ∧ entryFlags m (root / PAGE_SIZE) u &&& F_PRESENT ≠ 0 ∧
    entryFlags m (root / PAGE_SIZE) u &&& F_UNPRIVILEGED ≠ 0

variable {m : Mem} {root u v : Nat} {free : P → Nat → Prop} {rs : List Nat} {xs : List VirtAlloc.Ptr}

theorem entryFlags_present (m : Mem) (root u : Nat) :
    entryFlags m (root / PAGE_SIZE) u &&& F_PRESENT ≠ 0 ↔ (translate m root u).isSome := by
  have hbit : ∀ e, field e 0 pageFlags &&& F_PRESENT ≠ 0 ↔ present e = true := by
    intro e
    rw [F_PRESENT, Nat.and_one_is_mod, present, decide_eq_true_iff]
    unfold field pageFlags
    omega
  unfold entryFlags
  rw [translate, pathOf_eq, follow_snoc]
  cases hf : follow (child m) (root / PAGE_SIZE) (tablePath u) with
  | none => simp
  | some f =>
    rw [bind_some, hbit, child_eq (pageIndex_lt u)]
    by_cases he : present (m f (pageIndex u)) = true
    · simp [he]
    · simp [he]

theorem UserPage.same_page (h : UserPage m root u) (hv : v < 2^48) (huv : u / PAGE_SIZE = v / PAGE_SIZE) :
    UserPage m root v := by
  have hpath : pathOf u = pathOf v := (pathOf_eq_iff h.1 hv).mpr huv
  rw [pathOf_eq, pathOf_eq] at hpath
  obtain ⟨htable, hindex⟩ := append_inj hpath rfl
  obtain hindex : pageIndex u = pageIndex v := by simpa using hindex
  have hflags : entryFlags m (root / PAGE_SIZE) v = entryFlags m (root / PAGE_SIZE) u := by
    rw [entryFlags, entryFlags, htable, hindex]
  rw [UserPage, hflags]
  exact ⟨hv, h.2⟩

/-- A call that succeeds has taken user pages only, and no call leaves a table. -/
structure Guarded (c c₁ : Space P) (usr a len r : Nat) : Prop where
  pages : r ≠ 0 → ∀ i, i < len → UserPage c.machine.mem usr (a + i)
  inside : c₁.machine.strayed = false

/-- What a process has to keep to: addresses below `2 ^ 48` and pages that are user pages.
That a page is present matters only for the one behind the last page looked up. -/
structure Keeps (K : KernelImage) (A : PageAlloc P) (k : Kalloc) (c : Space P) (usr a len r : Nat) : Prop where
  walks : ∀ u ∈ kmapuseraddrWalks K A k usr a (bufferPages len) c, u < 2^48
  pages : r ≠ 0 → len = 0 ∨ a + len ≤ 2^48 ∧
    (∀ j, j < bufferPages len → entryFlags c.machine.mem (usr / PAGE_SIZE) (a + PAGE_SIZE * j) &&& F_UNPRIVILEGED ≠ 0) ∧
    (PAGE_SIZE * bufferPages len < a % PAGE_SIZE + len →
      UserPage c.machine.mem usr (a + PAGE_SIZE * bufferPages len))

theorem add_lt_of_walks {x : Nat} (hx : x < 2^64) (h : ∀ j, j < n → u64 (x + j * PAGE_SIZE) < 2^48) (hj : j < n) : x + PAGE_SIZE * j < 2^48 := by
  induction j with
  | zero =>
    have hfirst := h 0 hj
    rwa [zero_mul, add_zero, u64_of_lt hx] at hfirst
  | succ j ih =>
    have hprev := ih (by omega)
    have hnext := h (j + 1) hj
    rw [PAGE_SIZE] at hprev hnext ⊢
    rw [u64_of_lt (by omega)] at hnext
    omega

theorem kmapuseraddr_present (hA : Pool K A free) (hvalid : Valid c.virt xs) (hforest : Forest free c.machine rs)
    (husr : usr / PAGE_SIZE ∈ rs) (hkernel : K.kernelPml4 / PAGE_SIZE ∈ rs)
    (hne : usr / PAGE_SIZE ≠ K.kernelPml4 / PAGE_SIZE) (hready : Ready (c.machine.mem K.pagingPt)) (ha : a < 2^64)
    (hrun : kmapuseraddr K A k usr a len c = some (r, c₁)) (hr : r ≠ 0)
    (hwu : ∀ j, a + PAGE_SIZE * j < 2^48 → j < bufferPages len →
      OffWindow K c.machine.mem (usr / PAGE_SIZE) (a + PAGE_SIZE * j))
    (hwk : ∀ j, r / PAGE_SIZE * PAGE_SIZE + PAGE_SIZE * j < 2^48 → j < bufferPages len →
      OffWindow K c.machine.mem (K.kernelPml4 / PAGE_SIZE) (r / PAGE_SIZE * PAGE_SIZE + PAGE_SIZE * j))
    (hwalks : ∀ u ∈ kmapuseraddrWalks K A k usr a (bufferPages len) c, u < 2^48) (hj : j < bufferPages len) :
    a + PAGE_SIZE * j < 2^48 ∧ entryFlags c.machine.mem (usr / PAGE_SIZE) (a + PAGE_SIZE * j) &&& F_PRESENT ≠ 0 := by
  obtain ⟨va, h, rfl⟩ := kmapuseraddr_span hrun hr
  obtain ⟨hfirst, hva⟩ := h.first_page hvalid
  rw [hfirst, hva] at hwk
  rw [kmapuseraddrWalks_eq h.chosen h.nonzero h.taken] at hwalks
  have hvlt := hvalid.alloc_lt h.chosen
  unfold addressEnd at hvlt
  have hwalked := fun i (hi : i < bufferPages len) => kmapUserPages_walked h.mapped (Nat.zero_le i) hi
  have halow : ∀ i, i < bufferPages len → a + PAGE_SIZE * i < 2^48 := fun i hi =>
    add_lt_of_walks ha (fun i hi => hwalks _ (hwalked i hi).1) hi
  have hvlow : ∀ i, i < bufferPages len → va + PAGE_SIZE * i < 2^48 := fun i hi =>
    add_lt_of_walks (by omega) (fun i hi => hwalks _ (hwalked i hi).2) hi
  have hend : va + PAGE_SIZE * (0 + bufferPages len) ≤ 2^48 := by
    have hlast := hvlow (bufferPages len - 1) (by omega)
    have halign := h.aligned
    rw [PAGE_SIZE] at *
    omega
  have hmap := h.mapped
  rw [← Machine.withSlots_self (K := K) c.machine] at hmap
  obtain ⟨t, σ, -, -, -, hmapped⟩ := kmapUserPages_maps (n := bufferPages len) (i := 0) hA hforest husr hkernel hne
    hready h.aligned (fun _ => by rw [zero_add]; exact halow _ (by omega)) hend
    (fun i hi => hwu i (halow i (by omega)) (by omega)) (fun i hi => hwk i (hvlow i (by omega)) (by omega))
    (by rw [zero_add]; exact hmap)
  obtain ⟨f, hf, -⟩ := hmapped.page j hj
  rw [zero_add] at hf
  refine ⟨halow j hj, (entryFlags_present _ _ _).mpr ?_⟩
  rw [hf]
  rfl

theorem bufferPages_of_le (ha : a + len ≤ 2^48) : bufferPages len = (len + PAGE_SIZE - 1) / PAGE_SIZE := by
  rw [bufferPages, PAGE_SIZE, u64_of_lt (by omega)]

def newContext : Option (Nat × Space Nat) :=
  smallSpace.bind fun c => (pgdirAlloc smallImage countingPages c.machine).map fun x => (x.1, { c with machine := x.2 })

end Comus.Paging
