import Comus.Memory.Mapping

/-!
# Unmapping pages (page_free, unmap_pages)

An entry is cleared before the address to release is read from it, so whatever was
mapped, the null pointer is handed to the physical allocator. A call of `map_pages`
that runs out of pages unmaps as well; with it, every call keeps the directory a tree.
-/

namespace Comus.Paging

open Word BitField Trie Option List

variable {P : Type} {K : KernelImage} {A : PageAlloc P} {free : P → Nat → Prop}
variable {s t t' t₁ : Machine P} {Γ : List (Nat × Nat)}
variable {root v u p f i r flags n : Nat} {deallocate : Bool}
variable {total : Nat} {s' : Machine P}

def Machine.clearEntry (s : Machine P) (f i : Nat) : Machine P :=
  s.write f i (setAddress (setFlags pageFlags (s.mem f i) 0) 0)

theorem clearEntry_leafSet : LeafSet t.mem (t.clearEntry f i).mem f i := by
  constructor
  · intro j hj
    have hword : (t.clearEntry f i).mem f j = t.mem f j := by
      simp [Machine.clearEntry, hj]
    unfold child
    rw [hword]
    exact ⟨rfl, rfl⟩
  · intro g hg
    funext j
    simp [Machine.clearEntry, hg]

theorem clearEntry_child : child (t.clearEntry f i).mem f i = none := by
  have hword : (t.clearEntry f i).mem f i = setAddress (setFlags pageFlags (t.mem f i) 0) 0 := by
    simp [Machine.clearEntry]
  unfold child
  rw [hword, present_setAddress, present_setFlags_page, if_neg]
  simp

def IgnoresNull (A : PageAlloc P) : Prop := ∀ s, A.freePhysPage s 0 = s

theorem physPages_ignoresNull : IgnoresNull physPages := fun _ => rfl

structure PageUnmapped (K : KernelImage) (t t' : Machine P) (r v : Nat) : Prop where
  page : ∀ q, q.length = 4 →
    follow (child t'.mem) r q = if q = pathOf v then none else follow (child t.mem) r q
  table : ∀ q, q.length < 4 → follow (child t'.mem) r q = follow (child t.mem) r q
  tree : Tree (child t'.mem) 4 r
  frame : ∀ f, ¬ Node (child t.mem) 4 r f → t'.mem f = t.mem f
  phys : t'.phys = t.phys
  freed : ∃ k, t'.freed = t.freed ++ replicate k 0
  slots : t'.mem K.pagingPt = t.mem K.pagingPt
  strayed : t'.strayed = t.strayed

section Page

variable (hnull : IgnoresNull A) (hv : v < 2^48)
  (hd : Directory (free t.phys) t.mem (root / PAGE_SIZE))
  (hw : OffWindow K t.mem (root / PAGE_SIZE) v)
include hnull hv hd hw

theorem pageFree_runs (deallocate : Bool) : ∃ t', Runs K [0, 1, 2, 3] Γ (pageFree K A root v deallocate) t () t' [] ∧
    PageUnmapped K t t' (root / PAGE_SIZE) v := by
  rcases pageLocate_runs (Γ := Γ) hv hd hw with ⟨hnone, hrun⟩ | ⟨f, hf, -, hrun⟩
  · refine ⟨t, hrun.bind [] (Runs.ret _) (by simp) (by simp), ?_⟩
    refine ⟨?_, fun _ _ => rfl, hd.tree, fun _ _ => rfl, rfl, ⟨0, by simp⟩, rfl, rfl⟩
    intro q _
    split_ifs with hq
    · rw [hq]
      exact hnone
    · rfl
  · have hne : f ≠ K.pagingPt := hw 3 f (by decide) hf
    have hshows : Shows K [(3, f)] PT_MAP f := ⟨by decide, by simp [PT_MAP], hne⟩
    have hleaf : LeafSet t.mem (t.clearEntry f (pageIndex v)).mem f (pageIndex v) := clearEntry_leafSet
    have hphys : (t.clearEntry f (pageIndex v)).phys = t.phys := Machine.write_phys _ _ _ _
    have hfreed : (t.clearEntry f (pageIndex v)).freed = t.freed := Machine.write_freed _ _ _ _
    have hstray : (t.clearEntry f (pageIndex v)).strayed = t.strayed := Machine.write_strayed _ _ _ _
    have hunmapped : ∀ t' : Machine P, t'.mem = (t.clearEntry f (pageIndex v)).mem → t'.phys = t.phys →
        (∃ k, t'.freed = t.freed ++ replicate k 0) → t'.strayed = t.strayed →
        PageUnmapped K t t' (root / PAGE_SIZE) v := by
      intro t' hmem hphys hfreed hstray
      refine ⟨?_, ?_, ?_, ?_, hphys, hfreed, ?_, hstray⟩
      · intro q hq
        rw [hmem, hleaf.follow_page hd hf hq, clearEntry_child]
      · intro q hq
        rw [hmem, hleaf.follow_table hd hf hq]
      · rw [hmem]
        exact (hleaf.directory hd hf).tree
      · intro g hg
        rw [hmem]
        exact hleaf.other g fun h => hg (h ▸ ⟨tablePath v, by simp [tablePath], hf⟩)
      · rw [hmem, hleaf.other _ hne.symm]
    cases deallocate with
    | false =>
      refine ⟨t.clearEntry f (pageIndex v), ?_, hunmapped _ rfl hphys ⟨0, by simpa using hfreed⟩ hstray⟩
      refine hrun.bind [(3, f)] ?_ (by simp) (by simp)
      refine (Runs.load hshows (pageIndex_lt v)).seq ((Runs.store hshows (pageIndex_lt v)).seq ?_)
      exact Runs.ret _
    | true =>
      -- the address is read from the cleared entry
      have hzero : addressOf ((t.clearEntry f (pageIndex v)).mem f (pageIndex v)) = 0 := by
        simp [Machine.clearEntry, addressOf]
      have hfree : Runs K [0, 1, 2, 3] [(3, f)] (freePhysPage A
          (addressOf ((t.clearEntry f (pageIndex v)).mem f (pageIndex v))))
          (t.clearEntry f (pageIndex v)) () ((t.clearEntry f (pageIndex v)).free A 0) [] := by
        rw [hzero]
        exact (Runs.freePhysPage (Γ := []) 0).weaken (by simp) (by simp) (by simp)
      refine ⟨(t.clearEntry f (pageIndex v)).free A 0, ?_, hunmapped _ rfl ?_ ⟨1, ?_⟩ hstray⟩
      · refine hrun.bind [(3, f)] ?_ (by simp) (by simp)
        refine (Runs.load hshows (pageIndex_lt v)).seq ((Runs.store hshows (pageIndex_lt v)).seq ?_)
        exact (Runs.load hshows (pageIndex_lt v)).seq hfree
      · rw [← hphys]
        exact hnull _
      · rw [← hfreed]
        rfl

end Page

theorem PageUnmapped.directory (h : PageUnmapped K t t' r v) (hd : Directory (free t.phys) t.mem r) :
    Directory (free t'.phys) t'.mem r := by
  refine ⟨h.tree, hd.root, ?_⟩
  rintro f ⟨q, hq, hf⟩
  rw [h.table q hq] at hf
  rw [h.phys]
  exact hd.table f ⟨q, hq, hf⟩

theorem PageUnmapped.offWindow (h : PageUnmapped K t t' r v) (hu : OffWindow K t.mem r u) :
    OffWindow K t'.mem r u := by
  intro d f hd hf
  rw [h.table _ (by rw [length_take]; omega)] at hf
  exact hu d f hd hf

structure RangeUnmapped (K : KernelImage) (t t' : Machine P) (r v n : Nat) : Prop where
  page : ∀ u, u < 2^48 → follow (child t'.mem) r (pathOf u) =
    if InPages v n u then none else follow (child t.mem) r (pathOf u)
  table : ∀ q, q.length < 4 → follow (child t'.mem) r q = follow (child t.mem) r q
  tree : Tree (child t'.mem) 4 r
  frame : ∀ f, ¬ Node (child t.mem) 4 r f → t'.mem f = t.mem f
  phys : t'.phys = t.phys
  freed : ∃ k, t'.freed = t.freed ++ replicate k 0
  slots : t'.mem K.pagingPt = t.mem K.pagingPt
  strayed : t'.strayed = t.strayed

theorem RangeUnmapped.nil (hd : Directory (free t.phys) t.mem r) : RangeUnmapped K t t r v 0 := by
  refine ⟨?_, fun _ _ => rfl, hd.tree, fun _ _ => rfl, rfl, ⟨0, by simp⟩, rfl, rfl⟩
  intro u _
  rw [if_neg (by omega)]

theorem PageUnmapped.cons (h : PageUnmapped K t t₁ r v)
    (hrest : RangeUnmapped K t₁ t' r (v + PAGE_SIZE) n) (hv : v < 2^48) :
    RangeUnmapped K t t' r v (n + 1) := by
  have hv' : (v + PAGE_SIZE) / PAGE_SIZE = v / PAGE_SIZE + 1 := Nat.add_div_right v (by decide)
  obtain ⟨k, hk⟩ := h.freed
  obtain ⟨k', hk'⟩ := hrest.freed
  refine ⟨?_, ?_, hrest.tree, ?_, hrest.phys.trans h.phys, ⟨k + k', ?_⟩, hrest.slots.trans h.slots,
    hrest.strayed.trans h.strayed⟩
  · intro u hu
    rw [hrest.page u hu, h.page _ (pathOf_length u)]
    simp only [pathOf_eq_iff hu hv]
    by_cases hin : InPages (v + PAGE_SIZE) n u
    · rw [if_pos hin, if_pos (by omega)]
    · rw [if_neg hin]
      by_cases hat : u / PAGE_SIZE = v / PAGE_SIZE
      · rw [if_pos hat, if_pos (by omega)]
      · rw [if_neg hat, if_neg (by omega)]
  · intro q hq
    rw [hrest.table q hq, h.table q hq]
  · intro f hf
    have hmid : ¬ Node (child t₁.mem) 4 r f := by
      rintro ⟨q, hq, hg⟩
      exact hf ⟨q, hq, by rw [← h.table q hq, hg]⟩
    rw [hrest.frame f hmid, h.frame f hf]
  · rw [hk', hk, append_assoc, replicate_append_replicate]

theorem unmapPages_runs (deallocate : Bool) (hnull : IgnoresNull A)
    (hd : Directory (free t.phys) t.mem (root / PAGE_SIZE)) (hend : v + PAGE_SIZE * n ≤ 2^48)
    (hw : ∀ i, i < n → OffWindow K t.mem (root / PAGE_SIZE) (v + PAGE_SIZE * i)) :
    ∃ t', Runs K [0, 1, 2, 3] Γ (unmapPages K A root deallocate n v) t () t' [] ∧
      RangeUnmapped K t t' (root / PAGE_SIZE) v n := by
  induction n generalizing v t Γ with
  | zero => exact ⟨t, Runs.ret (), RangeUnmapped.nil hd⟩
  | succ n ih =>
    rw [Nat.mul_succ] at hend
    have hsize : 0 < PAGE_SIZE := by decide
    have hv : v < 2^48 := by omega
    obtain ⟨t₁, hrun₁, hfirst⟩ := pageFree_runs (Γ := Γ) hnull hv hd
      (hw 0 (by omega)) deallocate
    have hw₁ : ∀ i, i < n →
        OffWindow K t₁.mem (root / PAGE_SIZE) (v + PAGE_SIZE + PAGE_SIZE * i) := by
      intro i hi
      have hnext : v + PAGE_SIZE + PAGE_SIZE * i = v + PAGE_SIZE * (i + 1) := by
        rw [Nat.mul_succ]
        omega
      rw [hnext]
      exact hfirst.offWindow (hw (i + 1) (by omega))
    obtain ⟨t', hrun', hrest⟩ := ih (Γ := []) (hfirst.directory hd) (by omega) hw₁
    refine ⟨t', ?_, hfirst.cons hrest hv⟩
    unfold unmapPages
    refine hrun₁.bind [] ?_ (by simp) (by simp)
    rw [u64_of_lt (by omega)]
    exact hrun'

/-- A directory that none of the window is part of. -/
structure Sound (K : KernelImage) (free : P → Nat → Prop) (t : Machine P) (r : Nat) : Prop where
  dir : Directory (free t.phys) t.mem r
  off : ∀ f, Node (child t.mem) 4 r f → f ≠ K.pagingPt

theorem Sound.offWindow (h : Sound K free t r) (v : Nat) : OffWindow K t.mem r v := by
  intro d f hd hf
  exact h.off f ⟨_, by rw [length_take]; omega, hf⟩

theorem RangeUnmapped.evolves (h : RangeUnmapped K t t' r v n) : Evolves K free t t' r := by
  have hnode : ∀ f, Node (child t.mem) 4 r f → Node (child t'.mem) 4 r f := by
    rintro f ⟨q, hq, hf⟩
    exact ⟨q, hq, by rw [h.table q hq, hf]⟩
  refine ⟨hnode, ?_, fun f hf => h.frame f fun hold => hf (hnode f hold), ?_, h.slots, h.freed, h.strayed⟩
  · intro q f hq hf
    rw [h.table q hq] at hf
    exact .inl hf
  · rw [h.phys]
    exact fun _ hf => hf

theorem RangeUnmapped.directory (h : RangeUnmapped K t t' r v n) (hd : Directory (free t.phys) t.mem r) :
    Directory (free t'.phys) t'.mem r := by
  refine ⟨h.tree, hd.root, ?_⟩
  rintro f ⟨q, hq, hf⟩
  rw [h.table q hq] at hf
  rw [h.phys]
  exact hd.table f ⟨q, hq, hf⟩

section Sound

variable (h : Sound K free t r)
include h

theorem Sound.evolves (hA : Pool K A free) (h' : Evolves K free t t' r)
    (hd : Directory (free t'.phys) t'.mem r) : Sound K free t' r := by
  refine ⟨hd, ?_⟩
  rintro f ⟨q, hq, hf⟩
  rcases h'.new q f hq hf with hold | hfree
  · exact h.off f ⟨q, hq, hold⟩
  · exact (hA.usable _ f hfree).2.2

theorem Sound.unmapped (hA : Pool K A free) (h' : RangeUnmapped K t t' r v n) :
    Sound K free t' r := h.evolves hA h'.evolves (h'.directory h.dir)

theorem Sound.range (hA : Pool K A free)
    (h' : RangeMapped K free t t' r v p flags n) : Sound K free t' r := h.evolves hA h'.toEvolves h'.dir

theorem Sound.follow_slots {q : List Nat} (σ : Nat → Nat) (hq : q.length ≤ 4) :
    follow (child (t.withSlots K σ).mem) r q = follow (child t.mem) r q := by
  apply follow_eq_of_nodes (n := 4) _ hq
  intro f i hf
  unfold child
  rw [Machine.withSlots_mem_ne (h.off f hf)]

theorem Sound.withSlots (σ : Nat → Nat) : Sound K free (t.withSlots K σ) r := by
  have hnode : ∀ f, Node (child (t.withSlots K σ).mem) 4 r f → Node (child t.mem) 4 r f := by
    rintro f ⟨q, hq, hf⟩
    rw [h.follow_slots σ hq.le] at hf
    exact ⟨q, hq, hf⟩
  refine ⟨⟨?_, h.dir.root, fun f hf => h.dir.table f (hnode f hf)⟩, fun f hf => h.off f (hnode f hf)⟩
  intro q q' f hq hq' hf hf'
  rw [h.follow_slots σ hq.le] at hf
  rw [h.follow_slots σ hq'.le] at hf'
  exact h.dir.tree q q' f hq hq' hf hf'

end Sound

/-- `map_pages` runs to its end, and succeeds if there are enough pages. As many pages as
it was to map are unmapped from the one that failed on. -/
theorem mapPagesLoop_runs (hA : Pool K A free) (hnull : IgnoresNull A)
    (h : Sound K free t (root / PAGE_SIZE)) (hend : v + PAGE_SIZE * n + PAGE_SIZE * total ≤ 2^48) :
    ∃ b t', Runs K [0, 1, 2, 3] Γ (mapPagesLoop K A root flags total n v p) t b t' [] ∧
      Sound K free t' (root / PAGE_SIZE) ∧
      ∀ supply, Supply A supply → 3 * n ≤ supply t.phys →
        b = 0 ∧ supply t.phys ≤ supply t'.phys + 3 * n := by
  induction n generalizing v p t Γ with
  | zero => exact ⟨0, t, Runs.ret 0, h, fun _ _ _ => ⟨rfl, le_rfl⟩⟩
  | succ n ih =>
    rw [Nat.mul_succ] at hend
    have hsize : 0 < PAGE_SIZE := by decide
    have hv : v < 2^48 := by omega
    rcases mapPage_runs (Γ := Γ) hA hv h.dir (h.offWindow v) p flags with
      ⟨t₁, hrun₁, hgrown, hslots, hshort⟩ | ⟨t₁, hrun₁, hmapped⟩
    · have hsound := h.evolves hA (hgrown.evolves hslots) hgrown.grow.dir
      obtain ⟨t', hrun', hrest⟩ := unmapPages_runs (Γ := []) true hnull hsound.dir
        (show v + PAGE_SIZE * total ≤ 2^48 by omega) fun _ _ => hsound.offWindow _
      refine ⟨1, t', ?_, hsound.unmapped hA hrest, ?_⟩
      · unfold mapPagesLoop
        refine hrun₁.bind [] ?_ (by simp) (by simp)
        rw [if_neg (by simp)]
        exact hrun'.bind [] (Runs.ret _) (by simp) (by simp)
      · intro supply hsup hle
        have hlt := hshort supply hsup
        omega
    · obtain ⟨b, t', hrun', hsound, hok⟩ := ih (v := v + PAGE_SIZE) (p := u64 (p + PAGE_SIZE)) (Γ := [])
        (h.evolves hA hmapped.toEvolves hmapped.dir) (by omega)
      refine ⟨b, t', ?_, hsound, ?_⟩
      · unfold mapPagesLoop
        refine hrun₁.bind [] ?_ (by simp) (by simp)
        rw [if_pos rfl, u64_of_lt (by omega)]
        exact hrun'
      · intro supply hsup hle
        have hspent := hmapped.spent supply hsup
        obtain ⟨rfl, hleft⟩ := hok supply hsup (by omega)
        exact ⟨rfl, by omega⟩

theorem mapPages_runs (p flags : Nat) (hA : Pool K A free) (hnull : IgnoresNull A)
    (h : Sound K free t (root / PAGE_SIZE)) (hend : v + PAGE_SIZE * (2 * n) ≤ 2^48) :
    ∃ b t', Runs K [0, 1, 2, 3] Γ (mapPages K A root v p flags n) t b t' [] ∧
      Sound K free t' (root / PAGE_SIZE) ∧
      ∀ supply, Supply A supply → 3 * n ≤ supply t.phys →
        b = 0 ∧ supply t.phys ≤ supply t'.phys + 3 * n := by
  apply mapPagesLoop_runs hA hnull h
  rw [Int.toNat_natCast]
  rw [Nat.mul_left_comm] at hend
  omega

section Strays

variable {α β : Type} {x : KernelM P α} {g : α → KernelM P β}

def KeepsStray (op : KernelM P α) : Prop := ∀ s a s', op s = some (a, s') → s.strayed = true → s'.strayed = true

def Strays (op : KernelM P α) : Prop := ∀ s a s', op s = some (a, s') → s'.strayed = true

theorem KeepsStray.pure (a : α) : KeepsStray (Pure.pure a : KernelM P α) := by
  intro s b s' h hs
  cases h
  exact hs

theorem KeepsStray.bind (hx : KeepsStray x) (hg : ∀ a, KeepsStray (g a)) : KeepsStray (x >>= g) := by
  intro s b s' h hs
  obtain ⟨⟨a, s₁⟩, hrun, hrest⟩ := bind_eq_some_iff.mp h
  exact hg a s₁ b s' hrest (hx s a s₁ hrun hs)

theorem KeepsStray.ite {c : Prop} [Decidable c] {y : KernelM P α} (hx : KeepsStray x) (hy : KeepsStray y) :
    KeepsStray (if c then x else y) := by
  split_ifs
  · exact hx
  · exact hy

theorem Strays.bind (hx : Strays x) (hg : ∀ a, KeepsStray (g a)) : Strays (x >>= g) := by
  intro s b s' h
  obtain ⟨⟨a, s₁⟩, hrun, hrest⟩ := bind_eq_some_iff.mp h
  exact hg a s₁ b s' hrest (hx s a s₁ hrun)

theorem strays_bind (hg : ∀ a, Strays (g a)) : Strays (x >>= g) := by
  intro s b s' h
  obtain ⟨⟨a, s₁⟩, -, hrest⟩ := bind_eq_some_iff.mp h
  exact hg a s₁ b s' hrest

theorem load_keepsStray (page i : Nat) : KeepsStray (load (P := P) K page i) := by
  intro s a s' h hs
  obtain ⟨f, -, hf⟩ := map_eq_some_iff.mp h
  cases hf
  simp [hs]

theorem load_strays {page i : Nat} (hi : 512 ≤ i) : Strays (load (P := P) K page i) := by
  intro s a s' h
  obtain ⟨f, -, hf⟩ := map_eq_some_iff.mp h
  cases hf
  simp [hi]

theorem store_keepsStray (page i w : Nat) : KeepsStray (store (P := P) K page i w) := by
  intro s a s' h hs
  obtain ⟨f, -, hf⟩ := map_eq_some_iff.mp h
  cases hf
  simp [hs]

theorem mapAddr_keepsStray (p k : Nat) : KeepsStray (mapAddr (P := P) K p k) := by
  intro s a s' h hs
  unfold mapAddr at h
  dsimp only at h
  split_ifs at h
  · cases h
    exact hs
  · cases h
    simpa using hs

theorem freePhysPage_keepsStray (p : Nat) : KeepsStray (freePhysPage A p) := by
  intro s a s' h hs
  cases h
  exact hs

theorem tableLocate_keepsStray (slot p offset : Nat) : KeepsStray (tableLocate (P := P) K slot p offset) :=
  (mapAddr_keepsStray p slot).bind fun _ => (load_keepsStray _ _).bind fun _ => .pure _

theorem tableLocate_strays {slot p offset : Nat} (h : 512 ≤ offset) :
    Strays (tableLocate (P := P) K slot p offset) :=
  strays_bind fun _ => (load_strays h).bind fun _ => .pure _

theorem pageLocate_offset {o : Nat} {s : Machine P} (h : pageLocate K root v s = some (some o, s')) :
    o < 512 := by
  obtain ⟨a, -, h⟩ := bind_eq_some_iff.mp h
  dsimp only at h
  split_ifs at h
  · cases h
  obtain ⟨b, -, h⟩ := bind_eq_some_iff.mp h
  dsimp only at h
  split_ifs at h
  · cases h
  obtain ⟨d, -, h⟩ := bind_eq_some_iff.mp h
  dsimp only at h
  split_ifs at h
  · cases h
  obtain ⟨e, -, h⟩ := bind_eq_some_iff.mp h
  obtain ⟨w, -, h⟩ := bind_eq_some_iff.mp h
  obtain ⟨ho, -⟩ := Prod.mk.inj (some.inj h)
  split_ifs at ho
  cases ho
  exact Nat.mod_lt _ (by decide)

theorem pageLocate_rest_keepsStray (v a : Nat) : KeepsStray (P := P) (do
    if a = 0 then pure none
    else
      let pPD ← pdLocate K a v
      if pPD = 0 then pure none
      else
        let pPT ← ptLocate K pPD v
        if pPT = 0 then pure none
        else
          let offset := v / 2^12 % 512
          let vPT ← mapAddr K pPT PT_MAP
          let e ← load K vPT offset
          pure (if present e then some offset else none)) := by
  refine .ite (.pure _) ((tableLocate_keepsStray _ _ _).bind fun _ => .ite (.pure _) ?_)
  refine (tableLocate_keepsStray _ _ _).bind fun _ => .ite (.pure _) ?_
  exact (mapAddr_keepsStray _ _).bind fun _ => (load_keepsStray _ _).bind fun _ => .pure _

theorem pageLocate_keepsStray (root v : Nat) : KeepsStray (pageLocate (P := P) K root v) :=
  (tableLocate_keepsStray _ _ _).bind fun a => pageLocate_rest_keepsStray v a

theorem pageFree_rest_keepsStray (x : Option Nat) : KeepsStray (match x with
    | none => pure ()
    | some offset => do
      let e ← load K PT_MAP offset
      store K PT_MAP offset (setAddress (setFlags pageFlags e 0) 0)
      if deallocate then
        let e ← load K PT_MAP offset
        freePhysPage A (addressOf e)
      else pure () : KernelM P Unit) := by
  cases x with
  | none => exact .pure _
  | some offset =>
    refine (load_keepsStray _ _).bind fun _ => (store_keepsStray _ _ _).bind fun _ => .ite ?_ (.pure _)
    exact (load_keepsStray _ _).bind fun _ => freePhysPage_keepsStray _

theorem pageFree_keepsStray (root v : Nat) : KeepsStray (pageFree K A root v deallocate) :=
  (pageLocate_keepsStray root v).bind pageFree_rest_keepsStray

/-- The index into the first table is not masked. -/
theorem pageFree_strays (hv : 2^48 ≤ v) : Strays (pageFree K A root v deallocate) := by
  have hlocate : Strays (pageLocate (P := P) K root v) :=
    (tableLocate_strays (by omega)).bind fun a => pageLocate_rest_keepsStray v a
  exact hlocate.bind pageFree_rest_keepsStray

theorem unmapPages_keepsStray (n v : Nat) : KeepsStray (unmapPages K A root deallocate n v) := by
  induction n generalizing v with
  | zero => exact .pure _
  | succ n ih => exact (pageFree_keepsStray root v).bind fun _ => ih _

theorem unmapPages_strays (halign : v % PAGE_SIZE = 0) (hv : v ≤ 2^48) (hend : 2^48 < v + PAGE_SIZE * n) :
    Strays (unmapPages K A root deallocate n v) := by
  induction n generalizing v with
  | zero => omega
  | succ n ih =>
    rw [PAGE_SIZE] at halign hend
    by_cases hlast : v = 2^48
    · exact (pageFree_strays hlast.ge).bind fun _ => unmapPages_keepsStray _ _
    · refine strays_bind fun _ => ?_
      rw [u64_of_lt (by rw [PAGE_SIZE]; omega)]
      apply ih <;> simp only [PAGE_SIZE] <;> omega

end Strays

def FailsAt (K : KernelImage) (A : PageAlloc P) (root v p flags k : Nat) (s : Machine P) : Prop :=
  ∃ s₁ s₂, mapPages K A root v p flags k s = some (0, s₁) ∧
    pageAlloc K A root (v + PAGE_SIZE * k) flags s₁ = some (none, s₂)

theorem mapPagesLoop_total {total' : Nat} (h : mapPagesLoop K A root flags total n v p s = some (0, s')) :
    mapPagesLoop K A root flags total' n v p s = some (0, s') := by
  induction n generalizing v p s with
  | zero => exact h
  | succ n ih =>
    rw [mapPagesLoop_succ] at h ⊢
    obtain ⟨⟨b, s₁⟩, hpage, hrest⟩ := bind_eq_some_iff.mp h
    rw [hpage, bind_some]
    cases b with
    | true => exact ih hrest
    | false =>
      obtain ⟨x, -, hx⟩ := bind_eq_some_iff.mp hrest
      cases hx

theorem mapPage_false (h : mapPage K A root v p flags s = some (false, s')) :
    pageAlloc K A root v flags s = some (none, s') := by
  obtain ⟨⟨x, s₁⟩, hpage, hrest⟩ := bind_eq_some_iff.mp h
  cases x with
  | none =>
    cases hrest
    exact hpage
  | some offset =>
    obtain ⟨y, -, hy⟩ := bind_eq_some_iff.mp hrest
    obtain ⟨z, -, hz⟩ := bind_eq_some_iff.mp hy
    cases hz

theorem mapPagesLoop_fails (hend : v + PAGE_SIZE * n < 2^64)
    (h : mapPagesLoop K A root flags total n v p s = some (1, s')) :
    ∃ k s₁ s₂, k < n ∧ mapPagesLoop K A root flags total k v p s = some (0, s₁) ∧
      pageAlloc K A root (v + PAGE_SIZE * k) flags s₁ = some (none, s₂) ∧
      unmapPages K A root true total (v + PAGE_SIZE * k) s₂ = some ((), s') := by
  induction n generalizing v p s with
  | zero => cases h
  | succ n ih =>
    rw [Nat.mul_succ] at hend
    rw [mapPagesLoop_succ] at h
    obtain ⟨⟨b, s₁⟩, hpage, hrest⟩ := bind_eq_some_iff.mp h
    cases b with
    | false =>
      obtain ⟨⟨y, s₂⟩, hundo, hy⟩ := bind_eq_some_iff.mp hrest
      cases hy
      exact ⟨0, s, s₁, by omega, rfl, mapPage_false hpage, hundo⟩
    | true =>
      rw [if_pos rfl, u64_of_lt (n := v + PAGE_SIZE) (by omega)] at hrest
      obtain ⟨k, s₂, s₃, hk, hloop, halloc, hundo⟩ := ih (by omega) hrest
      have hnext : v + PAGE_SIZE + PAGE_SIZE * k = v + PAGE_SIZE * (k + 1) := by
        rw [Nat.mul_succ]
        omega
      rw [hnext] at halloc hundo
      refine ⟨k + 1, s₂, s₃, by omega, ?_, halloc, hundo⟩
      rw [mapPagesLoop_succ, hpage, bind_some, if_pos rfl, u64_of_lt (n := v + PAGE_SIZE) (by omega)]
      exact hloop

/-- The call has left no trace: no table was accessed past its end, every page outside the
window translates as before, and nothing but the null pointer was released. -/
structure Undone (K : KernelImage) (root : Nat) (s s' : Machine P) : Prop where
  inside : s'.strayed = false
  page : ∀ u, u < 2^48 → OffSlots K s.mem (root / PAGE_SIZE) u →
    translate s'.mem root u = translate s.mem root u
  released : ∃ k, s'.freed = s.freed ++ replicate k 0

/-- What is left of a call that fails at page `k`: the pages before it, and a gap of `n` pages. -/
structure Abandoned (K : KernelImage) (free : P → Nat → Prop) (s t : Machine P) (r v p k n : Nat) : Prop
    extends Evolves K free s t r where
  page : ∀ u, u < 2^48 → follow (child t.mem) r (pathOf u) =
    if InPages (v + PAGE_SIZE * k) n u then none
    else if InPages v k u then some ((p / PAGE_SIZE + (u / PAGE_SIZE - v / PAGE_SIZE)) % 2^40)
    else follow (child s.mem) r (pathOf u)

section Failing

variable {s₁ s₂ s' : Machine P} {total k : Nat} (hA : Pool K A free)
  (hd : Directory (free s.phys) s.mem (root / PAGE_SIZE)) (hready : Ready (s.mem K.pagingPt))
  (hw : ∀ i, i < 2 * n → v + PAGE_SIZE * i < 2^48 → OffWindow K s.mem (root / PAGE_SIZE) (v + PAGE_SIZE * i))
  (hk : k < n) (hend : v + PAGE_SIZE * (k + n) ≤ 2^48)
  (hloop : mapPagesLoop K A root flags total k v p s = some (0, s₁))
  (halloc : pageAlloc K A root (v + PAGE_SIZE * k) flags s₁ = some (none, s₂))
include hA hd hready hw hk hend hloop halloc

theorem unmapPages_abandons (hnull : IgnoresNull A)
    (hundo : unmapPages K A root true n (v + PAGE_SIZE * k) s₂ = some ((), s')) :
    ∃ t σ, s' = t.withSlots K σ ∧ (∀ j, PT_MAP < j → σ j = s.mem K.pagingPt j) ∧
      Abandoned K free s t (root / PAGE_SIZE) v p k n := by
  have hpos : 0 < PAGE_SIZE := by decide
  rw [mul_add] at hend
  have hwin : ∀ i, i < 2 * n → i < k + n → OffWindow K s.mem (root / PAGE_SIZE) (v + PAGE_SIZE * i) := by
    intro i hi hik
    apply hw i hi
    have hstep := add_lt_end (v := v) hik hpos (show v + PAGE_SIZE * (k + n) ≤ 2^48 by rw [mul_add]; omega)
    omega
  rw [← Machine.withSlots_self (K := K) s] at hloop
  obtain ⟨t₁, σ₁, rfl, hσ₁, hkeep₁, hmapped⟩ := mapPagesLoop_maps hA hd hready (by omega)
    (fun i hi => hwin i (by omega) (by omega)) hloop
  have hlt : v + PAGE_SIZE * k < 2^48 := by
    have hle := Nat.mul_le_mul_left PAGE_SIZE (show 1 ≤ n by omega)
    omega
  rcases pageAlloc_runs (Γ := []) hA hlt hmapped.dir
    (hmapped.offWindow hA (hwin k (by omega) (by omega))) flags with ⟨t₂, hrun, hgrown, hslots, -⟩ | ⟨f, t₂, -, -, -, -, hrun⟩
  · obtain ⟨σ₂, heq, hσ₂, hkeep₂, -⟩ := hrun σ₁ hσ₁ (by simp)
    rw [halloc] at heq
    cases heq
    have hgrow := hgrown.evolves hslots
    have hold := hmapped.toEvolves.trans hgrow
    have hpages : ∀ i, i < n → OffWindow K t₂.mem (root / PAGE_SIZE) (v + PAGE_SIZE * k + PAGE_SIZE * i) := by
      intro i hi
      rw [add_assoc, ← mul_add]
      exact hold.offWindow hA (hwin (k + i) (by omega) (by omega))
    obtain ⟨t₃, hrun₃, hgone⟩ := unmapPages_runs (Γ := []) true hnull hgrown.grow.dir
      (by omega) hpages
    obtain ⟨σ₃, heq₃, -, hkeep₃, -⟩ := hrun₃ σ₂ hσ₂ (by simp)
    rw [hundo] at heq₃
    cases heq₃
    refine ⟨t₃, σ₃, rfl, ?_, hold.trans hgone.evolves, ?_⟩
    · intro j hj
      have hout : j ∉ [0, 1, 2, 3] := by
        simp only [PT_MAP] at hj
        simp
        omega
      rw [hkeep₃ j hout, hkeep₂ j hout, hkeep₁ j hj]
    · intro u hu
      rw [hgone.page u hu, hgrown.grow.page _ (pathOf_length u), hmapped.page u hu]
  · obtain ⟨σ₂, heq, -⟩ := hrun σ₁ hσ₁ (by simp)
    rw [halloc] at heq
    cases heq

end Failing

/-- A call of `map_pages` that fails at page `k` leaves no trace exactly if the pages before it were
mapped to the same frames already and none of the `n` pages from it on was mapped. -/
theorem mapPages_undone_iff {s' : Machine P} (hA : Pool K A free) (hnull : IgnoresNull A)
    (hd : Directory (free s.phys) s.mem (root / PAGE_SIZE)) (hready : Ready (s.mem K.pagingPt))
    (hstray : s.strayed = false) (hv : v % PAGE_SIZE = 0) (hend : v + PAGE_SIZE * n ≤ 2^48)
    (hw : ∀ i, i < 2 * n → v + PAGE_SIZE * i < 2^48 →
      OffWindow K s.mem (root / PAGE_SIZE) (v + PAGE_SIZE * i))
    (hrun : mapPages K A root v p flags n s = some (1, s')) :
    ∃ k, k < n ∧ FailsAt K A root v p flags k s ∧
      (Undone K root s s' ↔ v + PAGE_SIZE * (k + n) ≤ 2^48 ∧
        (∀ i, i < k → translate s.mem root (v + PAGE_SIZE * i) = some ((p / PAGE_SIZE + i) % 2^40)) ∧
        ∀ i, i < n → translate s.mem root (v + PAGE_SIZE * (k + i)) = none) := by
  have hpos : 0 < PAGE_SIZE := by decide
  obtain ⟨k, s₁, s₂, hk, hloop, halloc, hundo⟩ := mapPagesLoop_fails (by rw [Int.toNat_natCast]; omega) hrun
  rw [Int.toNat_natCast] at hk hloop hundo
  refine ⟨k, hk, ⟨s₁, s₂, mapPagesLoop_total hloop, halloc⟩, ?_⟩
  by_cases hrange : v + PAGE_SIZE * (k + n) ≤ 2^48
  · obtain ⟨t, σ, rfl, hkeep, hleft⟩ := unmapPages_abandons hA hd hready hw hk hrange hloop halloc hnull hundo
    have hpage : ∀ u, u < 2^48 → OffSlots K s.mem (root / PAGE_SIZE) u → translate (t.withSlots K σ).mem root u =
        if InPages (v + PAGE_SIZE * k) n u then none
        else if InPages v k u then some ((p / PAGE_SIZE + (u / PAGE_SIZE - v / PAGE_SIZE)) % 2^40)
        else translate s.mem root u := by
      intro u hu hslots
      rw [translate, hleft.follow_slots hA hkeep hslots (prefix_refl _), hleft.page u hu]
      rfl
    have hat : ∀ i, i < k + n → (v + PAGE_SIZE * i) / PAGE_SIZE = v / PAGE_SIZE + i ∧ v + PAGE_SIZE * i < 2^48 :=
      fun i hi => ⟨page_add hv hpos, add_lt_end hi hpos hrange⟩
    have hslots : ∀ i, i < k + n → OffSlots K s.mem (root / PAGE_SIZE) (v + PAGE_SIZE * i) :=
      fun i hi => (hw i (by omega) (hat i hi).2).offSlots
    have hstart := (hat k (by omega)).1
    constructor
    · intro h
      refine ⟨hrange, ?_, ?_⟩
      · intro i hi
        have hdiv := (hat i (by omega)).1
        rw [← h.page _ (hat i (by omega)).2 (hslots i (by omega)), hpage _ (hat i (by omega)).2 (hslots i (by omega)),
          if_neg (by omega), if_pos (by omega), hdiv, Nat.add_sub_cancel_left]
      · intro i hi
        have hdiv := (hat (k + i) (by omega)).1
        rw [← h.page _ (hat _ (by omega)).2 (hslots _ (by omega)), hpage _ (hat _ (by omega)).2 (hslots _ (by omega)),
          if_pos (by omega)]
    · rintro ⟨-, hbefore, hbehind⟩
      refine ⟨hleft.strayed.trans hstray, ?_, hleft.freed⟩
      -- every page of the two ranges has the path of the first byte of a page
      have hfirst : ∀ u i, u < 2^48 → i < k + n → u / PAGE_SIZE = v / PAGE_SIZE + i →
          translate s.mem root u = translate s.mem root (v + PAGE_SIZE * i) := by
        intro u i hu hi hui
        have hsame : pathOf u = pathOf (v + PAGE_SIZE * i) :=
          (pathOf_eq_iff hu (hat i hi).2).mpr (hui.trans (hat i hi).1.symm)
        rw [translate, translate, hsame]
      intro u hu hoff
      rw [hpage u hu hoff]
      split_ifs with hgap hmapped
      · obtain ⟨i, hi⟩ := Nat.exists_eq_add_of_le hgap.1
        rw [hfirst u (k + i) hu (by omega) (by omega), hbehind i (by omega)]
      · obtain ⟨i, hi⟩ := Nat.exists_eq_add_of_le hmapped.1
        rw [hfirst u i hu (by omega) hi, hbefore i (by omega), hi, Nat.add_sub_cancel_left]
      · rfl
  · constructor
    · intro h
      have hlt := add_lt_end hk hpos hend
      have hstrayed : s'.strayed = true := by
        apply unmapPages_strays (n := n) _ (show v + PAGE_SIZE * k ≤ 2^48 by omega) _ s₂ () s' hundo
        · rw [Nat.add_mul_mod_self_left]
          exact hv
        · rw [mul_add] at hrange
          omega
      rw [h.inside] at hstrayed
      cases hstrayed
    · rintro ⟨hle, -⟩
      exact absurd hle hrange

def scarceMachine : Machine Nat := { smallMachine (fun _ _ => 0) with phys := 2^40 - 3 }

theorem scarceMachine_fails : (mapPages smallImage countingPages 0x2000 0x1ff000 0x5000 3 2 scarceMachine).map
    (fun x => (x.1, translate x.2.mem 0x2000 0x1ff000)) = some (1, some 5) := by
  decide +kernel

theorem countingPages_ignoresNull : IgnoresNull countingPages := fun _ => rfl

theorem scarceMachine_offWindow (u : Nat) : OffWindow smallImage scarceMachine.mem (0x2000 / PAGE_SIZE) u :=
  zero_offWindow (by decide) u

theorem mapPages_undone_iff_scarce : ∃ s' k,
    mapPages smallImage countingPages 0x2000 0x1ff000 0x5000 3 (2 : Nat) scarceMachine = some (1, s') ∧
    FailsAt smallImage countingPages 0x2000 0x1ff000 0x5000 3 k scarceMachine ∧
    (Undone smallImage 0x2000 scarceMachine s' ↔ 0x1ff000 + PAGE_SIZE * (k + 2) ≤ 2^48 ∧
      (∀ i, i < k → translate scarceMachine.mem 0x2000 (0x1ff000 + PAGE_SIZE * i) =
        some ((0x5000 / PAGE_SIZE + i) % 2^40)) ∧
      ∀ i, i < 2 → translate scarceMachine.mem 0x2000 (0x1ff000 + PAGE_SIZE * (k + i)) = none) := by
  obtain ⟨⟨b, s'⟩, hrun, hb⟩ := map_eq_some_iff.mp scarceMachine_fails
  obtain rfl : b = 1 := (Prod.mk.inj hb).1
  obtain ⟨k, -, hfails, hiff⟩ := mapPages_undone_iff (n := 2) countingPages_pool countingPages_ignoresNull
    (zero_directory (by decide) (by decide) fun h => absurd h.1 (by decide)) zero_ready rfl (by decide)
    (by decide) (fun _ _ _ => scarceMachine_offWindow _) hrun
  exact ⟨s', k, hrun, hfails, hiff⟩

/-- The page that was mapped before the failure stays mapped. -/
theorem mapPages_leaves_page : ∃ s',
    mapPages smallImage countingPages 0x2000 0x1ff000 0x5000 3 2 scarceMachine = some (1, s') ∧
    translate scarceMachine.mem 0x2000 0x1ff000 = none ∧ translate s'.mem 0x2000 0x1ff000 = some 5 ∧
    ¬ Undone smallImage 0x2000 scarceMachine s' := by
  obtain ⟨⟨b, s'⟩, hrun, hb⟩ := map_eq_some_iff.mp scarceMachine_fails
  obtain ⟨rfl, hpage⟩ := Prod.mk.inj hb
  have hold : translate scarceMachine.mem 0x2000 0x1ff000 = none := by
    rw [translate, pathOf, follow, show child scarceMachine.mem _ _ = none from child_zero _ _]
    rfl
  refine ⟨s', hrun, hold, hpage, fun h => ?_⟩
  have hsame := h.page 0x1ff000 (by decide) (scarceMachine_offWindow _).offSlots
  rw [hold, hpage] at hsame
  cases hsame

end Comus.Paging
