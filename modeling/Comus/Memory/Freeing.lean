import Comus.Lib.Trie
import Comus.Lib.Run
import Comus.Memory.Unmapping

/-!
# Releasing a page directory (pgdir_free)

The four levels are one depth-first walk that does not look below a table whose
counter is zero. What is handed to the physical allocator is the list of the nodes
that the walk visits.
-/

namespace Comus.Paging

open Word BitField Trie Option List

variable {P : Type} {K : KernelImage} {A : PageAlloc P} {free : P → Nat → Prop}
variable {s t t' : Machine P} {m : Mem} {S : List Nat} {Γ : List (Nat × Nat)}
variable {root v f i k r n slot page : Nat} {below : Nat → KernelM P Unit}

def levelCount : Nat → Counter
  | 0 => ptCount
  | _ + 1 => tableCount

def counted (m : Mem) (k f : Nat) : Bool := decide ((levelCount k).get (m f 0) ≠ 0)

def released (m : Mem) (k f : Nat) : List Nat :=
  (trail (child m) 512 (counted m) k f).map fun x => x.2 * PAGE_SIZE

def releasedAt (m : Mem) (k f i : Nat) : List Nat := (child m f i).elim [] (released m k)

theorem released_succ (m : Mem) (k f : Nat) : released m (k + 1) f =
    (if counted m k f then (range 512).flatMap (releasedAt m k f) else []) ++ [f * PAGE_SIZE] := by
  have hpart : ∀ i, ((child m f i).elim [] fun g => (trail (child m) 512 (counted m) k g).map
      fun x => (i :: x.1, x.2)).map (fun x => x.2 * PAGE_SIZE) = releasedAt m k f i := by
    intro i
    unfold releasedAt
    cases child m f i with
    | none => rfl
    | some g =>
      rw [elim_some, elim_some, List.map_map]
      rfl
  rw [released, trail, map_append, map_singleton]
  split_ifs with hopen
  · rw [map_flatMap]
    congr 2
    funext i
    exact hpart i
  · rfl

def Machine.freeAll (A : PageAlloc P) (s : Machine P) (ps : List Nat) : Machine P :=
  ps.foldl (fun s p => s.free A p) s

theorem Machine.freeAll_append (s : Machine P) (ps qs : List Nat) :
    s.freeAll A (ps ++ qs) = (s.freeAll A ps).freeAll A qs := foldl_append

theorem Machine.freeAll_mem (s : Machine P) (ps : List Nat) : (s.freeAll A ps).mem = s.mem := by
  induction ps generalizing s with
  | nil => rfl
  | cons p ps ih => exact ih (s.free A p)

theorem Machine.freeAll_freed (s : Machine P) (ps : List Nat) :
    (s.freeAll A ps).freed = s.freed ++ ps := by
  induction ps generalizing s with
  | nil => simp [freeAll]
  | cons p ps ih =>
    have hfirst : (s.free A p).freed = s.freed ++ [p] := rfl
    change ((s.free A p).freeAll A ps).freed = _
    rw [ih, hfirst, append_assoc, singleton_append]

def Tabled (K : KernelImage) (m : Mem) : Nat → Nat → Prop
  | 0, _ => True
  | k + 1, f => f ≠ 0 ∧ f < 2^40 ∧ f ≠ K.pagingPt ∧ ∀ i c, child m f i = some c → Tabled K m k c

def Frees (K : KernelImage) (A : PageAlloc P) (m : Mem) (S : List Nat) (k : Nat)
    (below : Nat → KernelM P Unit) : Prop :=
  ∀ t f Γ, t.mem = m → Tabled K m k f → (∀ c ∈ Γ, c.1 ∉ S) →
    Runs K S Γ (below (f * PAGE_SIZE)) t () (t.freeAll A (released m k f)) Γ

theorem freeEntries_runs (count : Nat) (hbelow : Frees K A m S k below) (hpage : Shows K Γ page f)
    (hslots : ∀ c ∈ Γ, c.1 ∉ S) (hf : Tabled K m (k + 1) f) (hmem : t.mem = m) (hn : i + n ≤ 512) :
    ∃ count', Runs K S Γ (freeEntries K below page n i count) t count'
      (t.freeAll A ((range' i n).flatMap (releasedAt m k f))) Γ := by
  induction n generalizing i t count with
  | zero => exact ⟨count, Runs.pure count⟩
  | succ n ih =>
    have hi : i < 512 := by omega
    have hload : t.mem f i = m f i := by rw [hmem]
    rw [range'_succ, flatMap_cons, Machine.freeAll_append]
    by_cases hpresent : present (m f i) = true
    · have hchild : child m f i = some (frameOf (m f i)) := by
        rw [child_eq hi, if_pos hpresent]
      have hpart : releasedAt m k f i = released m k (frameOf (m f i)) := by
        rw [releasedAt, hchild, elim_some]
      have hmem' : (t.freeAll A (releasedAt m k f i)).mem = m := by
        rw [Machine.freeAll_mem, hmem]
      obtain ⟨count', hrest⟩ := ih (i := i + 1) (sub64 count 1) hmem' (by omega)
      refine ⟨count', ?_⟩
      unfold freeEntries
      refine (Runs.load hpage hi).bind Γ ?_ (by simp) (by simp)
      rw [hload, if_pos hpresent]
      have hfirst := hbelow t _ Γ hmem (hf.2.2.2 i _ hchild) hslots
      rw [← hpart] at hfirst
      exact hfirst.bind Γ hrest (fun _ hk => hk) fun c hc => .inl hc
    · have hpart : releasedAt m k f i = [] := by
        rw [releasedAt, child_eq hi, if_neg hpresent, elim_none]
      rw [hpart]
      obtain ⟨count', hrest⟩ := ih (i := i + 1) count hmem (by omega)
      refine ⟨count', ?_⟩
      unfold freeEntries
      refine (Runs.load hpage hi).bind Γ ?_ (by simp) (by simp)
      rw [hload, if_neg hpresent]
      exact hrest

theorem tableFree_frees (hbelow : Frees K A m S k below) (hslot : slot < 10) (hS : slot ∉ S) :
    Frees K A m (slot :: S) (k + 1) (fun p => tableFree K A slot (levelCount k) below p true) := by
  intro t f Γ hmem hf hslots
  have hm : Mappable K (f * PAGE_SIZE) := .frame hf.1 hf.2.1 hf.2.2.1
  have hshows : Shows K ((slot, f) :: Γ) slot f := ⟨by omega, by simp, hf.2.2.1⟩
  have hkeep : ∀ c ∈ (slot, f) :: Γ, c.1 ∉ S := by
    intro c hc
    rcases mem_cons.mp hc with rfl | hc
    · exact hS
    · exact fun hmem => hslots c hc (mem_cons_of_mem _ hmem)
  have hlast : ∀ t' : Machine P, Runs K (slot :: S) ((slot, f) :: Γ) (freePhysPage A (f * PAGE_SIZE)) t' ()
      (t'.free A (f * PAGE_SIZE)) Γ := by
    intro t'
    refine (Runs.freePhysPage (Γ := (slot, f) :: Γ) (f * PAGE_SIZE)).weaken (by simp) (fun _ hc => hc) ?_
    intro c hc
    exact .inl (mem_cons_of_mem _ hc)
  unfold tableFree
  refine (Runs.mapAddr hslot hm).bind ((slot, f) :: Γ) ?_ (by simp) ?_
  · refine (Runs.load hshows (by decide)).bind ((slot, f) :: Γ) ?_ (by simp) (by simp)
    rw [released_succ, hmem]
    by_cases hcount : (levelCount k).get (m f 0) = 0
    · have hclosed : ¬ counted m k f = true := by simp [counted, hcount]
      rw [if_pos hcount, if_neg hclosed]
      exact hlast t
    · have hopen : counted m k f = true := by simp [counted, hcount]
      rw [if_neg hcount, if_pos hopen, Machine.freeAll_append]
      obtain ⟨count', hloop⟩ := freeEntries_runs (n := 512) (i := 0)
        ((levelCount k).get (m f 0)) hbelow hshows hkeep hf hmem (by omega)
      rw [range_eq_range']
      refine hloop.bind ((slot, f) :: Γ) ?_ (fun _ hk => mem_cons_of_mem _ hk) fun c hc => .inl hc
      exact hlast _
  · intro c hc
    rcases mem_cons.mp hc with rfl | hc
    · left
      simp [frame_div]
    · right
      refine ⟨hc, fun heq => hslots c hc ?_⟩
      rw [mem_singleton.mp heq]
      exact mem_cons_self

theorem freePhysPage_frees : Frees K A m [] 0 (freePhysPage A) :=
  fun _ _ _ _ _ _ => Runs.freePhysPage _

theorem ptFree_frees : Frees K A m [PT_MAP] 1 (fun p => ptFree K A p true) :=
  tableFree_frees freePhysPage_frees (by decide) (by decide)

theorem pdFree_frees : Frees K A m [PD_MAP, PT_MAP] 2 (fun p => pdFree K A p true) :=
  tableFree_frees ptFree_frees (by decide) (by decide)

theorem pdptFree_frees : Frees K A m [PDPT_MAP, PD_MAP, PT_MAP] 3 (fun p => pdptFree K A p true) :=
  tableFree_frees pdFree_frees (by decide) (by decide)

theorem pml4Free_frees : Frees K A m [PML4_MAP, PDPT_MAP, PD_MAP, PT_MAP] 4 (fun p => pml4Free K A p true) :=
  tableFree_frees pdptFree_frees (by decide) (by decide)

/-- Every table and every mapped page of the directory is in the list once, and nothing else. -/
def Complete (m : Mem) (r : Nat) (ps : List Nat) : Prop :=
  ps.Nodup ∧ ∀ a, a ∈ ps ↔ ∃ q f, q.length ≤ 4 ∧ follow (child m) r q = some f ∧ a = f * PAGE_SIZE

theorem mem_released {a : Nat} : a ∈ released m k r ↔ ∃ q f, follow (child m) r q = some f ∧
    Passes (child m) (counted m) k r q ∧ a = f * PAGE_SIZE := by
  have hwidth : ∀ f i g, child m f i = some g → i < 512 := fun _ _ _ h => child_index_lt h
  unfold released
  constructor
  · intro ha
    obtain ⟨⟨q, f⟩, hmem, rfl⟩ := mem_map.mp ha
    obtain ⟨hf, hpass⟩ := (mem_trail hwidth).mp hmem
    exact ⟨q, f, hf, hpass, rfl⟩
  · rintro ⟨q, f, hf, hpass, rfl⟩
    exact mem_map.mpr ⟨(q, f), (mem_trail hwidth).mpr ⟨hf, hpass⟩, rfl⟩

theorem nodup_released : (released m k r).Nodup ↔ ∀ q q' f, follow (child m) r q = some f →
    Passes (child m) (counted m) k r q → follow (child m) r q' = some f →
    Passes (child m) (counted m) k r q' → q = q' := by
  have hwidth : ∀ f i g, child m f i = some g → i < 512 := fun _ _ _ h => child_index_lt h
  have hinj : Function.Injective (· * PAGE_SIZE) := by
    intro f g heq
    exact Nat.eq_of_mul_eq_mul_right (by decide) heq
  have hmap : released m k r = ((trail (child m) 512 (counted m) k r).map Prod.snd).map (· * PAGE_SIZE) := by
    rw [List.map_map]
    rfl
  rw [hmap, nodup_map_iff hinj, nodup_visited hwidth]

theorem released_complete : Complete m r (released m 4 r) ↔ ∀ q f, q.length ≤ 4 →
    follow (child m) r q = some f →
    ∃! q', follow (child m) r q' = some f ∧ Passes (child m) (counted m) 4 r q' := by
  constructor
  · rintro ⟨hnodup, hall⟩ q f hq hf
    obtain ⟨q', f', hf', hpass, heq⟩ := mem_released.mp ((hall _).mpr ⟨q, f, hq, hf, rfl⟩)
    obtain rfl : f = f' := Nat.eq_of_mul_eq_mul_right (by decide) heq
    refine ⟨q', ⟨hf', hpass⟩, ?_⟩
    rintro q'' ⟨hf'', hpass'⟩
    exact nodup_released.mp hnodup q'' q' f hf'' hpass' hf' hpass
  · intro hone
    refine ⟨nodup_released.mpr ?_, ?_⟩
    · intro q q' f hq hpass hq' hpass'
      exact (hone q f hpass.length_le hq).unique ⟨hq, hpass⟩ ⟨hq', hpass'⟩
    · intro a
      rw [mem_released]
      constructor
      · rintro ⟨q, f, hf, hpass, rfl⟩
        exact ⟨q, f, hpass.length_le, hf, rfl⟩
      · rintro ⟨q, f, hq, hf, rfl⟩
        obtain ⟨q', ⟨hf', hpass⟩, -⟩ := hone q f hq hf
        exact ⟨q', f, hf', hpass, rfl⟩

theorem Sound.tabled {q : List Nat} (h : Sound K free t r) (hq : q.length + k = 4)
    (hf : follow (child t.mem) r q = some f) : Tabled K t.mem k f := by
  induction k generalizing q f with
  | zero => trivial
  | succ k ih =>
    have hnode : Node (child t.mem) 4 r f := ⟨q, by omega, hf⟩
    refine ⟨(h.dir.table f hnode).1, h.dir.node_lt hnode, h.off f hnode, ?_⟩
    intro i c hc
    refine ih (q := q ++ [i]) ?_ ?_
    · rw [length_append, length_singleton]
      omega
    · rw [follow_snoc, hf, bind_some, hc]

theorem pgdirFree_eq (h : Sound K free s r) (hready : Ready (s.mem K.pagingPt)) :
    ∃ s', pgdirFree K A (r * PAGE_SIZE) s = some ((), s') ∧ s'.freed = s.freed ++ released s.mem 4 r := by
  have hrun := pml4Free_frees (K := K) (A := A) s r [] rfl (h.tabled (q := []) rfl rfl) (by simp)
  obtain ⟨σ', heq, -⟩ := hrun (s.mem K.pagingPt) hready (by simp)
  rw [Machine.withSlots_self] at heq
  exact ⟨_, heq, Machine.freeAll_freed s _⟩

inductive Call where
  | map (v p flags n : Nat)
  | unmap (v n : Nat) (deallocate : Bool)
  deriving Repr, DecidableEq

def Call.run (K : KernelImage) (A : PageAlloc P) (root : Nat) (s : Machine P) : Call → Option (Machine P)
  | .map v p flags n => (mapPages K A root v p flags n s).map Prod.snd
  | .unmap v n deallocate => (unmapPages K A root deallocate n v s).map Prod.snd

/-- The pages are below 2^48. A call of `map_pages` that fails unmaps up to twice as far. -/
def Call.inRange (K : KernelImage) (A : PageAlloc P) (root : Nat) (s : Machine P) : Call → Prop
  | .map v p flags n => v + PAGE_SIZE * n ≤ 2^48 ∧ ∀ b s',
      mapPages K A root v p flags n s = some (b, s') → b ≠ 0 → v + PAGE_SIZE * (2 * n) ≤ 2^48
  | .unmap v n _ => v + PAGE_SIZE * n ≤ 2^48

structure Usable (K : KernelImage) (free : P → Nat → Prop) (r : Nat) (s : Machine P) : Prop where
  sound : Sound K free s r
  ready : Ready (s.mem K.pagingPt)

theorem Usable.run {s' : Machine P} {c : Call} (hA : Pool K A free) (hnull : IgnoresNull A)
    (h : Usable K free (root / PAGE_SIZE) s) (hc : c.inRange K A root s) (hrun : c.run K A root s = some s') :
    Usable K free (root / PAGE_SIZE) s' := by
  have hslots : ∀ t' σ', Sound K free t' (root / PAGE_SIZE) → Ready σ' →
      Usable K free (root / PAGE_SIZE) (t'.withSlots K σ') := by
    intro t' σ' hsound hready
    refine ⟨hsound.withSlots σ', ?_⟩
    rw [Machine.withSlots_slots]
    exact hready
  cases c with
  | map v p flags n =>
    obtain ⟨⟨b, s₁⟩, hmap, rfl⟩ := map_eq_some_iff.mp hrun
    obtain ⟨hend, hfail⟩ := hc
    by_cases hb : b = 0
    · subst hb
      have hloop : mapPagesLoop K A root flags n n v p (s.withSlots K (s.mem K.pagingPt)) = some (0, s₁) := by
        rw [Machine.withSlots_self]
        exact hmap
      obtain ⟨t', σ', rfl, hready, -, hmapped⟩ := mapPagesLoop_maps hA h.sound.dir h.ready hend
        (fun _ _ => h.sound.offWindow _) hloop
      exact hslots t' σ' (h.sound.range hA hmapped) hready
    · obtain ⟨b', t', hruns, hsound, -⟩ := mapPages_runs (Γ := []) p flags hA hnull h.sound
        (hfail b s₁ hmap hb)
      obtain ⟨σ', heq, hready, -⟩ := hruns _ h.ready (by simp)
      rw [Machine.withSlots_self, hmap] at heq
      cases heq
      exact hslots t' σ' hsound hready
  | unmap v n deallocate =>
    obtain ⟨⟨_, s₁⟩, hmap, rfl⟩ := map_eq_some_iff.mp hrun
    obtain ⟨t', hruns, hunmapped⟩ := unmapPages_runs (Γ := []) deallocate hnull h.sound.dir hc
      fun _ _ => h.sound.offWindow _
    obtain ⟨σ', heq, hready, -⟩ := hruns _ h.ready (by simp)
    rw [Machine.withSlots_self, hmap] at heq
    cases heq
    exact hslots t' σ' (h.sound.unmapped hA hunmapped) hready

def imagePages (K : KernelImage) : Nat := (((K.kernelEnd : Int) - K.kernelStart).tdiv PAGE_SIZE).toNat

section NewDirectory

variable {a : Nat} {phys : P} (hA : Pool K A free) (ha : A.allocPhysPage s.phys = some (a, phys)) (ha0 : a ≠ 0)

def Machine.newRoot (s : Machine P) (phys : P) (a : Nat) : Machine P :=
  ({ s with phys := phys } : Machine P).zero (a / PAGE_SIZE)

theorem newRoot_bare (s : Machine P) (phys : P) (a i : Nat) :
    child (s.newRoot phys a).mem (a / PAGE_SIZE) i = none := by
  simp [child, Machine.newRoot, Machine.zero]

include hA ha ha0

theorem newRoot_sound : Sound K free (s.newRoot phys a) (a / PAGE_SIZE) := by
  have hm := hA.mappable ha ha0
  have hbare := newRoot_bare s phys a
  refine ⟨⟨?_, hm.lt, ?_⟩, ?_⟩
  · intro q q' f _ _ hf hf'
    rw [(follow_cleared hbare hf).1, (follow_cleared hbare hf').1]
  · rintro f ⟨q, -, hf⟩
    rw [(follow_cleared hbare hf).2]
    exact ⟨hm.pos, fun h => (hA.left _ _ _ _ ha h).2 rfl⟩
  · rintro f ⟨q, -, hf⟩
    rw [(follow_cleared hbare hf).2]
    exact hm.ne

theorem pgdirAlloc_eq (hready : Ready (s.mem K.pagingPt)) : ∃ σ, Ready σ ∧ pgdirAlloc K A s =
    (mapPages K A a K.kernelStart K.kernelStart (F_PRESENT ||| F_WRITEABLE) (imagePages K)
      ((s.newRoot phys a).withSlots K σ)).bind fun x =>
      (if x.1 ≠ 0 then do
        pml4Free K A a false
        pure 0
      else pure a : KernelM P Nat) x.2 := by
  obtain ⟨σ, heq, hσ, -⟩ := pml4Alloc_runs ha ha0 (hA.mappable ha ha0) _ hready (by simp)
  rw [Machine.withSlots_self] at heq
  refine ⟨σ, hσ, ?_⟩
  change (pml4Alloc K A s).bind (fun x => _) = _
  rw [heq, bind_some]
  dsimp only
  rw [if_neg ha0]
  rfl

end NewDirectory

theorem pgdirAlloc_maps {s' : Machine P} (hA : Pool K A free) (hready : Ready (s.mem K.pagingPt))
    (himage : K.kernelStart + PAGE_SIZE * imagePages K ≤ 2^48)
    (hrun : pgdirAlloc K A s = some (root, s')) (hroot : root ≠ 0) :
    Usable K free (root / PAGE_SIZE) s' ∧
    (∀ f, Node (child s'.mem) 4 (root / PAGE_SIZE) f → free s.phys f) ∧
    ∀ u, u < 2^48 → translate s'.mem root u = if InPages K.kernelStart (imagePages K) u then
      some ((K.kernelStart / PAGE_SIZE + (u / PAGE_SIZE - K.kernelStart / PAGE_SIZE)) % 2^40) else none := by
  obtain ⟨a, phys, ha⟩ := hA.total s.phys
  by_cases ha0 : a = 0
  · subst ha0
    obtain ⟨σ₁, heq, -⟩ := pml4Alloc_full (Γ := []) ha _ hready (by simp)
    rw [Machine.withSlots_self] at heq
    change (pml4Alloc K A s).bind (fun x => _) = _ at hrun
    rw [heq] at hrun
    cases hrun
    exact absurd rfl hroot
  obtain ⟨σ, hσ, heq⟩ := pgdirAlloc_eq hA ha ha0 hready
  rw [heq] at hrun
  obtain ⟨⟨b, s₂⟩, hmap, hrest⟩ := bind_eq_some_iff.mp hrun
  dsimp only at hrest
  by_cases hb : b = 0
  · subst hb
    obtain ⟨rfl, rfl⟩ := Prod.mk.inj (some.inj hrest)
    have hsound := newRoot_sound hA ha ha0
    have hbare := newRoot_bare s phys a
    obtain ⟨t', σ', rfl, hready', -, hmapped⟩ := mapPagesLoop_maps hA hsound.dir hσ himage
      (fun _ _ => hsound.offWindow _) hmap
    have hsound' := hsound.range hA hmapped
    refine ⟨⟨hsound'.withSlots σ', ?_⟩, ?_, ?_⟩
    · rw [Machine.withSlots_slots]
      exact hready'
    · rintro f ⟨q, hq, hf⟩
      rw [hsound'.follow_slots σ' hq.le] at hf
      rcases hmapped.new q f hq hf with hold | hfree'
      · rw [(follow_cleared hbare hold).2]
        exact hA.taken _ _ _ ha ha0
      · exact (hA.left _ _ _ f ha hfree').1
    · intro u hu
      rw [translate, hsound'.follow_slots σ' (pathOf_length u).le, hmapped.page u hu]
      congr 1
      cases hnone : follow (child (s.newRoot phys a).mem) (a / PAGE_SIZE) (pathOf u) with
      | none => rfl
      | some f => cases (follow_cleared hbare hnone).1
  · rw [if_pos hb] at hrest
    obtain ⟨x, -, hx⟩ := bind_eq_some_iff.mp hrest
    cases hx
    exact absurd rfl hroot

theorem imagePages_eq (h : K.kernelStart ≤ K.kernelEnd) :
    imagePages K = (K.kernelEnd - K.kernelStart) / PAGE_SIZE := by
  have hdiff : (K.kernelEnd : Int) - K.kernelStart = (K.kernelEnd - K.kernelStart : Nat) := by omega
  rw [imagePages, hdiff, ← Int.ofNat_tdiv, Int.toNat_natCast]

/-- A new directory maps the image onto itself if it ends at the end of a page, and else it
does not map the rest behind the last whole page. -/
theorem pgdirAlloc_identity_iff {s' : Machine P} (hA : Pool K A free) (hready : Ready (s.mem K.pagingPt))
    (halign : K.kernelStart % PAGE_SIZE = 0) (hrun : pgdirAlloc K A s = some (root, s')) (hroot : root ≠ 0) :
    (∀ a, K.kernelStart ≤ a → a < K.kernelEnd → physAddr s'.mem root a = some a) ↔
      K.kernelEnd ≤ K.kernelStart ∨ K.kernelEnd % PAGE_SIZE = 0 ∧ K.kernelEnd ≤ 2^48 := by
  by_cases hempty : K.kernelEnd ≤ K.kernelStart
  · exact ⟨fun _ => .inl hempty, fun _ a h1 h2 => by omega⟩
  by_cases hhigh : K.kernelEnd ≤ 2^48
  · have hpages := imagePages_eq (K := K) (by omega)
    rw [PAGE_SIZE] at hpages halign
    obtain ⟨-, -, htrans⟩ := pgdirAlloc_maps hA hready (by rw [hpages, PAGE_SIZE]; omega) hrun hroot
    constructor
    · intro hall
      refine .inr ⟨?_, hhigh⟩
      have hlast := hall (K.kernelEnd - 1) (by omega) (by omega)
      by_contra hmod
      rw [PAGE_SIZE] at hmod
      have hout : ¬ InPages K.kernelStart (imagePages K) (K.kernelEnd - 1) := by
        simp only [InPages, PAGE_SIZE, hpages]
        omega
      rw [physAddr, if_pos (by omega), htrans _ (by omega), if_neg hout] at hlast
      cases hlast
    · rintro (hle | ⟨hmod, -⟩) a h1 h2
      · exact absurd hle hempty
      · rw [PAGE_SIZE] at hmod
        have hin : InPages K.kernelStart (imagePages K) a := by
          simp only [InPages, PAGE_SIZE, hpages]
          omega
        rw [physAddr, if_pos (by omega), htrans _ (by omega), if_pos hin, map_some]
        congr 1
        simp only [PAGE_SIZE]
        omega
  · constructor
    · intro hall
      have hlast := hall (K.kernelEnd - 1) (by omega) (by omega)
      rw [physAddr, if_neg (by omega)] at hlast
      cases hlast
    · rintro (hle | ⟨-, hle⟩)
      · exact absurd hle hempty
      · exact absurd hle hhigh

theorem pgdirAlloc_succeeds {supply : P → Nat} {a : Nat} {phys : P} (hA : Pool K A free)
    (hnull : IgnoresNull A) (hsup : Supply A supply) (hready : Ready (s.mem K.pagingPt))
    (himage : K.kernelStart + PAGE_SIZE * (2 * imagePages K) ≤ 2^48)
    (henough : 3 * imagePages K + 1 ≤ supply s.phys) (ha : A.allocPhysPage s.phys = some (a, phys)) :
    ∃ s', pgdirAlloc K A s = some (a, s') ∧ supply s.phys ≤ supply s'.phys + 3 * imagePages K + 1 := by
  obtain ⟨ha0, hleft⟩ := hsup _ _ _ ha (by omega)
  obtain ⟨σ, hσ, heq⟩ := pgdirAlloc_eq hA ha ha0 hready
  obtain ⟨b, t', hruns, -, hspent⟩ := mapPages_runs (Γ := []) K.kernelStart _ hA hnull
    (newRoot_sound hA ha ha0) himage
  obtain ⟨rfl, hleft'⟩ := hspent supply hsup (show 3 * imagePages K ≤ supply phys by omega)
  obtain ⟨σ', hmap, -⟩ := hruns σ hσ (by simp)
  refine ⟨t'.withSlots K σ', ?_, ?_⟩
  · rw [heq, hmap]
    rfl
  · change supply s.phys ≤ supply t'.phys + 3 * imagePages K + 1
    change supply phys ≤ supply t'.phys + 3 * imagePages K at hleft'
    omega

/-- For every directory that `pgdir_alloc` has made and the calls have filled: what
`pgdir_free` releases is the directory if each of its tables and pages has one path of
tables whose counters are not zero, and not otherwise. -/
theorem pgdirFree_complete_iff {s₀ s₁ : Machine P} (hA : Pool K A free) (hnull : IgnoresNull A)
    (himage : K.kernelStart + PAGE_SIZE * imagePages K ≤ 2^48) (hready : Ready (s₀.mem K.pagingPt))
    (halloc : pgdirAlloc K A s₀ = some (r * PAGE_SIZE, s)) (hr : r ≠ 0)
    (hreach : Run.Reach (Call.run K A (r * PAGE_SIZE)) (Call.inRange K A (r * PAGE_SIZE)) s s₁) :
    ∃ s' ps, pgdirFree K A (r * PAGE_SIZE) s₁ = some ((), s') ∧ s'.freed = s₁.freed ++ ps ∧
      (Complete s₁.mem r ps ↔ ∀ q f, q.length ≤ 4 → follow (child s₁.mem) r q = some f →
        ∃! q', follow (child s₁.mem) r q' = some f ∧ Passes (child s₁.mem) (counted s₁.mem) 4 r q') := by
  have hroot : r * PAGE_SIZE ≠ 0 := mul_ne_zero hr (by decide)
  have hstart := (pgdirAlloc_maps hA hready himage halloc hroot).1
  have husable : Usable K free (r * PAGE_SIZE / PAGE_SIZE) s₁ :=
    hreach.invariant hstart fun _ _ _ h hc hrun => h.run hA hnull hc hrun
  rw [frame_div] at husable
  obtain ⟨s', hrun, hfreed⟩ := pgdirFree_eq (A := A) husable.sound husable.ready
  exact ⟨s', _, hrun, hfreed, released_complete⟩

theorem imagePages_small : imagePages smallImage = 8 := by decide

theorem smallDirectory : ∃ s, pgdirAlloc smallImage countingPages (smallMachine fun _ _ => 0) =
    some (10 * PAGE_SIZE, s) ∧ 2^40 - 10 ≤ countingSupply s.phys + 25 := by
  have ha : countingPages.allocPhysPage (smallMachine fun _ _ => 0).phys = some (10 * PAGE_SIZE, 11) := by decide
  obtain ⟨s, hs, hleft⟩ := pgdirAlloc_succeeds countingPages_pool countingPages_ignoresNull
    countingPages_supply zero_ready (by decide) (by decide) ha
  rw [imagePages_small] at hleft
  exact ⟨s, hs, hleft⟩

/-- The image ends at the end of a page. -/
theorem pgdirAlloc_identity_iff_small : ∃ s,
    pgdirAlloc smallImage countingPages (smallMachine fun _ _ => 0) = some (10 * PAGE_SIZE, s) ∧
    ∀ a, smallImage.kernelStart ≤ a → a < smallImage.kernelEnd → physAddr s.mem (10 * PAGE_SIZE) a = some a := by
  obtain ⟨s, hs, -⟩ := smallDirectory
  refine ⟨s, hs, ?_⟩
  exact (pgdirAlloc_identity_iff countingPages_pool zero_ready (by decide) hs (by decide)).mpr
    (.inr (by decide))

def oddImage : KernelImage := { smallImage with kernelEnd := 0x9800 }

/-- The byte in front of `kernel_end` is not mapped. -/
theorem pgdirAlloc_drops_last_page : ∃ s,
    pgdirAlloc oddImage countingPages (smallMachine fun _ _ => 0) = some (10 * PAGE_SIZE, s) ∧
    oddImage.kernelStart % PAGE_SIZE = 0 ∧ oddImage.kernelStart ≤ 0x97ff ∧ 0x97ff < oddImage.kernelEnd ∧
    physAddr s.mem (10 * PAGE_SIZE) 0x97ff = none := by
  have ha : countingPages.allocPhysPage (smallMachine fun _ _ => 0).phys = some (10 * PAGE_SIZE, 11) := by decide
  have hpool : Pool oddImage countingPages countingFree := countingPages_pool.image rfl
  obtain ⟨s, hs, -⟩ := pgdirAlloc_succeeds hpool countingPages_ignoresNull countingPages_supply zero_ready
    (by decide) (by decide) ha
  obtain ⟨-, -, htrans⟩ := pgdirAlloc_maps hpool zero_ready (by decide) hs (by decide)
  refine ⟨s, hs, by decide, by decide, by decide, ?_⟩
  rw [physAddr, if_pos (by decide), htrans _ (by decide), if_neg (by decide)]
  rfl

/-- A new directory that nobody has filled. -/
theorem pgdirFree_complete_iff_new : ∃ s s' ps,
    pgdirAlloc smallImage countingPages (smallMachine fun _ _ => 0) = some (10 * PAGE_SIZE, s) ∧
    pgdirFree smallImage countingPages (10 * PAGE_SIZE) s = some ((), s') ∧ s'.freed = s.freed ++ ps ∧
    (Complete s.mem 10 ps ↔ ∀ q f, q.length ≤ 4 → follow (child s.mem) 10 q = some f →
      ∃! q', follow (child s.mem) 10 q' = some f ∧ Passes (child s.mem) (counted s.mem) 4 10 q') := by
  obtain ⟨s, hs, -⟩ := smallDirectory
  obtain ⟨s', ps, hfree, hfreed, hiff⟩ := pgdirFree_complete_iff countingPages_pool
    countingPages_ignoresNull (by decide) zero_ready hs (by decide) .start
  exact ⟨s, s', ps, hs, hfree, hfreed, hiff⟩

theorem not_mem_released {g : Nat}
    (honly : ∀ q, q.length ≤ 4 → follow (child m) r q = some f → q = pathOf v)
    (hg : follow (child m) r (tablePath v) = some g) (hcount : ptCount.get (m g 0) = 0) :
    f * PAGE_SIZE ∉ released m 4 r := by
  intro hmem
  obtain ⟨q, f', hf, hpass, ha⟩ := mem_released.mp hmem
  obtain rfl : f = f' := Nat.mul_right_cancel (by decide) ha
  rw [honly q hpass.length_le hf, pathOf_eq] at hpass
  have hopen := hpass.isOpen_last (n := 0) rfl hg
  rw [counted, levelCount, hcount] at hopen
  cases hopen

/-- The counter of a page table with 512 pages is zero, so none of them is released. -/
theorem pgdirFree_leaks_full_table : ∃ s s₁ s' ps,
    pgdirAlloc smallImage countingPages (smallMachine fun _ _ => 0) = some (10 * PAGE_SIZE, s) ∧
    mapPages smallImage countingPages (10 * PAGE_SIZE) (2^30) 0x9000 3 512 s = some (0, s₁) ∧
    pgdirFree smallImage countingPages (10 * PAGE_SIZE) s₁ = some ((), s') ∧ s'.freed = s₁.freed ++ ps ∧
    translate s₁.mem (10 * PAGE_SIZE) (2^30) = some 9 ∧ 9 * PAGE_SIZE ∉ ps ∧ ¬ Complete s₁.mem 10 ps := by
  obtain ⟨s, hs, hleft⟩ := smallDirectory
  have frame_div : 10 * PAGE_SIZE / PAGE_SIZE = 10 := by decide
  obtain ⟨husable, hnodes, himage⟩ := pgdirAlloc_maps countingPages_pool zero_ready (by decide) hs
    (by decide)
  rw [frame_div] at husable hnodes
  obtain ⟨b, t, hruns, -, hspent⟩ := mapPages_runs (n := 512) (v := 2^30)
    (Γ := []) 0x9000 3 countingPages_pool countingPages_ignoresNull (frame_div ▸ husable.sound)
    (by decide)
  obtain ⟨rfl, -⟩ := hspent _ countingPages_supply (by omega)
  obtain ⟨σ, hmap, hσ, -⟩ := hruns _ husable.ready (by simp)
  have hloop := hmap
  obtain ⟨t', σ', heq, hσ', -, hmapped⟩ := mapPagesLoop_maps countingPages_pool husable.sound.dir husable.ready
    (by decide) (fun _ _ => husable.sound.offWindow _) hloop
  rw [frame_div, Int.toNat_natCast] at hmapped
  rw [Machine.withSlots_self, heq] at hmap
  have hsound := husable.sound.range countingPages_pool hmapped
  have hfollow : ∀ q, q.length ≤ 4 →
      follow (child (t'.withSlots smallImage σ').mem) 10 q = follow (child t'.mem) 10 q :=
    fun q hq => hsound.follow_slots σ' hq
  have honly : ∀ q, q.length ≤ 4 →
      follow (child (t'.withSlots smallImage σ').mem) 10 q = some 9 → q = pathOf (2^30) := by
    intro q hq hf
    rw [hfollow q hq] at hf
    by_cases hlen : q.length = 4
    · obtain ⟨u, hu, rfl⟩ := exists_pathOf hlen hf
      rw [hmapped.page u hu] at hf
      apply (pathOf_eq_iff hu (by decide)).mpr
      have hold := himage u hu
      rw [translate, frame_div] at hold
      rw [hold, imagePages_small] at hf
      by_cases hin : InPages (2^30) 512 u
      · rw [if_pos hin] at hf
        have heq := some.inj hf
        simp only [InPages, PAGE_SIZE] at heq hin ⊢
        omega
      · rw [if_neg hin] at hf
        -- the image ends below frame 9
        by_cases himg : InPages smallImage.kernelStart 8 u
        · rw [if_pos himg] at hf
          have heq := some.inj hf
          simp only [InPages, PAGE_SIZE, smallImage] at heq himg ⊢
          omega
        · rw [if_neg himg] at hf
          cases hf
    · -- the tables are pages of the allocator
      have hlt : q.length < 4 := by omega
      rcases hmapped.new q 9 hlt hf with hold | hfree
      · exact absurd (hnodes 9 ⟨q, hlt, hold⟩).1 (by decide)
      · exact absurd hfree.1 (by decide)
  obtain ⟨g, hg, hcount, -⟩ := hmapped.table (by decide) (by decide)
  have hcount := hcount (by decide)
  have hgne : g ≠ smallImage.pagingPt := hsound.off g ⟨_, by decide, hg⟩
  have hnot : 9 * PAGE_SIZE ∉ released (t'.withSlots smallImage σ').mem 4 10 := by
    apply not_mem_released honly
    · rw [hfollow _ (by decide)]
      exact hg
    · rw [Machine.withSlots_mem_ne hgne]
      exact hcount
  have hpage : follow (child (t'.withSlots smallImage σ').mem) 10 (pathOf (2^30)) = some 9 := by
    rw [hfollow _ (by decide), hmapped.page _ (by decide), if_pos (by decide)]
    decide
  obtain ⟨s', hfree, hfreed⟩ := pgdirFree_eq (A := countingPages) (hsound.withSlots σ')
    (by rw [Machine.withSlots_slots]; exact hσ')
  refine ⟨s, _, s', _, hs, hmap, hfree, hfreed, ?_, hnot, ?_⟩
  · rw [translate, frame_div]
    exact hpage
  · intro hcomplete
    exact hnot ((hcomplete.2 _).mpr ⟨_, 9, (pathOf_length _).le, hpage, rfl⟩)

end Comus.Paging
