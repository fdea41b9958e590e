import Comus.Memory.Window

/-!
# Mapping and unmapping a page

A page directory is a trie of four levels in physical memory. The operations on
one table are read off their runs first; what they mean for the directory follows
from the general rules for tries.
-/

namespace Comus.Paging

open Word BitField Trie Option List

variable {P : Type} {K : KernelImage} {A : PageAlloc P}
variable {t t' : Machine P} {m m' : Mem} {Γ : List (Nat × Nat)}
variable {slot below p v i f g c r flags : Nat} {q : List Nat}
variable {a : Nat} {phys s : P} {t'' : Machine P}

theorem child_eq (hi : i < 512) :
    child m f i = if present (m f i) then some (frameOf (m f i)) else none := by
  simp [child, hi]

theorem child_of_ge (hi : 512 ≤ i) : child m f i = none := by
  simp [child, not_lt.mpr hi]

theorem child_congr (h : present (m' f i) = present (m f i)) (hf : frameOf (m' f i) = frameOf (m f i)) :
    child m' f i = child m f i := by
  simp [child, h, hf]

theorem child_lt (h : child m f i = some c) : c < 2^40 := by
  unfold child at h
  split at h
  · cases h
    exact frameOf_lt _
  · simp at h

theorem follow_lt (hr : r < 2^40) (h : follow (child m) r q = some f) : f < 2^40 := by
  rcases follow_last h with ⟨-, rfl⟩ | ⟨q', i, g, -, -, hg⟩
  · exact hr
  · exact child_lt hg

structure Kept (m m' : Mem) (f : Nat) : Prop where
  same : ∀ j, child m' f j = child m f j
  count : tableCount.get (m' f 0) = tableCount.get (m f 0)
  other : ∀ g, g ≠ f → m' g = m g

structure Added (m m' : Mem) (f i c : Nat) : Prop where
  empty : child m f i = none
  entry : child m' f i = some c
  same : ∀ j, j ≠ i → child m' f j = child m f j
  zero : ∀ j, m' c j = 0
  count : tableCount.get (m' f 0) = (tableCount.get (m f 0) + 1) % 2^9
  other : ∀ g, g ≠ f → g ≠ c → m' g = m g

theorem tableLocate_runs (hs : slot < 10) (hp : Mappable K p) (hi : i < 512) :
    Runs K [slot] Γ (tableLocate K slot p i) t
      (if present (t.mem (p / PAGE_SIZE) i) then addressOf (t.mem (p / PAGE_SIZE) i) else 0) t
      [(slot, p / PAGE_SIZE)] := by
  have hshows : Shows K [(slot, p / PAGE_SIZE)] slot (p / PAGE_SIZE) :=
    ⟨by omega, by simp, hp.ne⟩
  unfold tableLocate
  exact (Runs.mapAddr hs hp).bind _ ((Runs.load hshows hi).seq (Runs.pure _)) (by simp) (by simp)

def Machine.keepTable (s : Machine P) (f i flags : Nat) : Machine P :=
  s.write f i (setFlags tableFlags (s.mem f i) (field (s.mem f i) 0 tableFlags ||| flags))

def Machine.addTable (s : Machine P) (f i a flags : Nat) : Machine P :=
  let s := s.zero (a / PAGE_SIZE)
  let s := s.write f i (setFlags tableFlags (setAddress (s.mem f i) a) (F_PRESENT ||| flags))
  s.write f 0 (tableCount.set (s.mem f 0) (tableCount.get (s.mem f 0) + 1))

theorem odd_or (h : a % 2 = 1) (b : Nat) : (a ||| b) % 2 = 1 := by
  have hbit : (a ||| b).testBit 0 = true := by
    rw [Nat.testBit_or, Nat.testBit_zero, decide_eq_true h, Bool.true_or]
  rw [Nat.testBit_zero] at hbit
  exact of_decide_eq_true hbit

theorem tableCount_setFlags (e flags : Nat) :
    tableCount.get (setFlags tableFlags e flags) = tableCount.get e :=
  field_setField_above (by decide)

theorem tableCount_setAddress (e p : Nat) : tableCount.get (setAddress e p) = tableCount.get e :=
  field_setField_above (by decide)

theorem tableCount_set (e n : Nat) : tableCount.get (tableCount.set e n) = n % 2^9 :=
  field_setField e 54 9 n

theorem present_flags_odd {e : Nat} (he : present e = true) : field e 0 tableFlags % 2 = 1 := by
  have hlow : field (field e 0 tableFlags) 0 1 = field e 0 1 := field_field (by decide)
  have hbit : field e 0 1 = 1 := of_decide_eq_true he
  rw [← hlow, field, pow_zero, Nat.div_one, pow_one] at hbit
  exact hbit

theorem keepTable_kept (he : present (t.mem f i) = true) :
    Kept t.mem (t.keepTable f i flags).mem f := by
  have hodd := odd_or (present_flags_odd he) flags
  have hword : ∀ j, (t.keepTable f i flags).mem f j =
      if j = i then setFlags tableFlags (t.mem f i) (field (t.mem f i) 0 tableFlags ||| flags)
      else t.mem f j := by
    intro j
    simp [Machine.keepTable]
  constructor
  · intro j
    apply child_congr
    · rw [hword]
      split_ifs with hj
      · rw [present_setFlags_table, decide_eq_true hodd, hj, he]
      · rfl
    · rw [hword]
      split_ifs with hj
      · rw [frameOf_setFlags_table, hj]
      · rfl
  · rw [hword]
    split_ifs with hj
    · rw [tableCount_setFlags, hj]
    · rfl
  · intro g hg
    funext j
    simp [Machine.keepTable, hg]

theorem addTable_added (hi : i < 512) (he : present (t.mem f i) = false)
    (ha : a / PAGE_SIZE < 2^40) (hne : f ≠ a / PAGE_SIZE) :
    Added t.mem (t.addTable f i a flags).mem f i (a / PAGE_SIZE) := by
  have hodd : (F_PRESENT ||| flags) % 2 = 1 := odd_or rfl flags
  -- the counter shares its word with entry 0
  have hword : ∀ j, (t.addTable f i a flags).mem f j =
      let e := if j = i then setFlags tableFlags (setAddress (t.mem f i) a) (F_PRESENT ||| flags)
        else t.mem f j
      if j = 0 then tableCount.set e (tableCount.get e + 1) else e := by
    intro j
    by_cases hj : j = 0
    · subst hj
      simp [Machine.addTable, Machine.zero, hne]
    · simp [Machine.addTable, Machine.zero, hne, hj]
  constructor
  · rw [child_eq hi, he]
    rfl
  · rw [child_eq hi, hword]
    dsimp only
    by_cases hzero : i = 0
    · simp only [hzero, hodd, if_true, present_tableCount, present_setFlags_table, decide_true,
        frameOf_tableCount, frameOf_setFlags_table, frameOf_setAddress, Nat.mod_eq_of_lt ha]
    · simp only [hzero, hodd, if_true, if_false, present_setFlags_table, decide_true,
        frameOf_setFlags_table, frameOf_setAddress, Nat.mod_eq_of_lt ha]
  · intro j hj
    apply child_congr
    · rw [hword]
      dsimp only
      rw [if_neg hj]
      split_ifs <;> simp
    · rw [hword]
      dsimp only
      rw [if_neg hj]
      split_ifs <;> simp
  · intro j
    simp [Machine.addTable, Machine.zero, hne.symm]
  · rw [hword]
    dsimp only
    rw [if_pos rfl, tableCount_set]
    split_ifs with hzero
    · rw [tableCount_setFlags, tableCount_setAddress, hzero]
    · rfl
  · intro g hgf hgc
    funext j
    simp [Machine.addTable, Machine.zero, hgf, hgc]

section Alloc

variable (hs : slot < 10) (hp : Mappable K p) (hi : i < 512)
include hs hp hi

theorem tableAlloc_found (he : present (t.mem (p / PAGE_SIZE) i) = true)
    (hc : frameOf (t.mem (p / PAGE_SIZE) i) ≠ 0) :
    Runs K [slot, below] Γ (tableAlloc K A slot below p i flags) t
      (addressOf (t.mem (p / PAGE_SIZE) i)) (t.keepTable (p / PAGE_SIZE) i flags) [] := by
  have hshows : Shows K [(slot, p / PAGE_SIZE)] slot (p / PAGE_SIZE) :=
    ⟨by omega, by simp, hp.ne⟩
  have hne : addressOf (t.mem (p / PAGE_SIZE) i) ≠ 0 := mul_ne_zero hc (by decide)
  unfold tableAlloc
  refine (Runs.mapAddr hs hp).bind [] ?_ (by simp) (by simp)
  refine (tableLocate_runs hs hp hi).bind [(slot, p / PAGE_SIZE)] ?_ (by simp) (by simp)
  rw [if_pos he, if_pos hne]
  refine (Runs.load hshows hi).seq ((Runs.store hshows hi).seq ?_)
  exact Runs.ret _

theorem tableAlloc_full (he : present (t.mem (p / PAGE_SIZE) i) = false)
    (ha : A.allocPhysPage t.phys = some (0, phys)) :
    Runs K [slot, below] Γ (tableAlloc K A slot below p i flags) t 0 { t with phys := phys } [] := by
  unfold tableAlloc
  refine (Runs.mapAddr hs hp).bind [] ?_ (by simp) (by simp)
  refine (tableLocate_runs hs hp hi).bind [] ?_ (by simp) (by simp)
  rw [if_neg (by simp [he])]
  refine (Runs.allocPhysPage ha).seq ?_
  rw [if_pos rfl]
  exact Runs.ret _

theorem tableAlloc_added (hb : below < 10) (hne : slot ≠ below)
    (he : present (t.mem (p / PAGE_SIZE) i) = false)
    (ha : A.allocPhysPage t.phys = some (a, phys)) (ha0 : a ≠ 0) (hm : Mappable K a) :
    Runs K [slot, below] Γ (tableAlloc K A slot below p i flags) t a
      ({ t with phys := phys }.addTable (p / PAGE_SIZE) i a flags) [] := by
  have hshows : Shows K [(below, a / PAGE_SIZE), (slot, p / PAGE_SIZE)] slot (p / PAGE_SIZE) :=
    ⟨by omega, by simp, hp.ne⟩
  have hnew : Shows K [(below, a / PAGE_SIZE), (slot, p / PAGE_SIZE)] below (a / PAGE_SIZE) :=
    ⟨by omega, by simp, hm.ne⟩
  unfold tableAlloc
  refine (Runs.mapAddr hs hp).bind [] ?_ (by simp) (by simp)
  refine (tableLocate_runs hs hp hi).bind [(slot, p / PAGE_SIZE)] ?_ (by simp) (by simp)
  rw [if_neg (by simp [he])]
  refine (Runs.allocPhysPage ha).seq ?_
  rw [if_neg ha0]
  refine (Runs.mapAddr hb hm).bind [(below, a / PAGE_SIZE), (slot, p / PAGE_SIZE)] ?_ (by simp)
    (by simp [hne])
  refine (Runs.zeroPage hnew).seq ((Runs.load hshows hi).seq ((Runs.store hshows hi).seq ?_))
  refine (Runs.load hshows (by decide)).seq ((Runs.store hshows (by decide)).seq ?_)
  exact Runs.ret _

end Alloc

/-- What the paging code needs of the physical allocator. `free s f` says that the frame
`f` may still be handed out. -/
structure Pool (K : KernelImage) (A : PageAlloc P) (free : P → Nat → Prop) : Prop where
  total : ∀ s, ∃ p s', A.allocPhysPage s = some (p, s')
  taken : ∀ s p s', A.allocPhysPage s = some (p, s') → p ≠ 0 → free s (p / PAGE_SIZE)
  left : ∀ s p s' f, A.allocPhysPage s = some (p, s') → free s' f → free s f ∧ f ≠ p / PAGE_SIZE
  usable : ∀ s f, free s f → f ≠ 0 ∧ f < 2^40 ∧ f ≠ K.pagingPt

theorem Pool.image {K' : KernelImage} {free : P → Nat → Prop} (h : Pool K A free)
    (hpt : K'.pagingPt = K.pagingPt) : Pool K' A free :=
  ⟨h.total, h.taken, h.left, fun s f hf => hpt ▸ h.usable s f hf⟩

def Supply (A : PageAlloc P) (supply : P → Nat) : Prop :=
  ∀ s p s', A.allocPhysPage s = some (p, s') → 0 < supply s → p ≠ 0 ∧ supply s ≤ supply s' + 1

/-- The directory with its first table in frame `r` is a tree, and none of its tables is free. -/
structure Directory (free : Nat → Prop) (m : Mem) (r : Nat) : Prop where
  tree : Tree (child m) 4 r
  root : r < 2^40
  table : ∀ f, Node (child m) 4 r f → f ≠ 0 ∧ ¬ free f

/-- Tables at a depth below `d` may have changed and new ones may have been added; no
page is mapped or unmapped. New tables from depth `d` on are empty. -/
structure Grow (free free' : Nat → Prop) (m m' : Mem) (r d : Nat) : Prop where
  dir : Directory free' m' r
  page : ∀ q, q.length = 4 → follow (child m') r q = follow (child m) r q
  old : ∀ q f, q.length < 4 → follow (child m) r q = some f → follow (child m') r q = some f
  new : ∀ q f, q.length < 4 → follow (child m') r q = some f →
    follow (child m) r q = some f ∨ free f ∧ (d ≤ q.length → ∀ j, m' f j = 0)
  keep : ∀ q f, d ≤ q.length → q.length < 4 → follow (child m) r q = some f → m' f = m f
  frame : ∀ f, ¬ Node (child m') 4 r f → m' f = m f
  left : ∀ f, free' f → free f

variable {free free' free'' : Nat → Prop} {m'' : Mem} {d d' : Nat}

theorem Grow.node (h : Grow free free' m m' r d) (hf : Node (child m) 4 r f) :
    Node (child m') 4 r f := by
  obtain ⟨q, hq, hf⟩ := hf
  exact ⟨q, hq, h.old q f hq hf⟩

theorem Grow.trans (h : Grow free free' m m' r d) (h' : Grow free' free'' m' m'' r d')
    (hd : d ≤ d') : Grow free free'' m m'' r d' := by
  constructor
  · exact h'.dir
  · intro q hq
    rw [h'.page q hq, h.page q hq]
  · intro q f hq hf
    exact h'.old q f hq (h.old q f hq hf)
  · intro q f hq hf
    rcases h'.new q f hq hf with hmid | ⟨hfree, hzero⟩
    · rcases h.new q f hq hmid with hold | ⟨hfree, hzero⟩
      · exact .inl hold
      · refine .inr ⟨hfree, fun hlen j => ?_⟩
        rw [h'.keep q f hlen hq hmid]
        exact hzero (hd.trans hlen) j
    · exact .inr ⟨h.left f hfree, hzero⟩
  · intro q f hlen hq hf
    rw [h'.keep q f hlen hq (h.old q f hq hf), h.keep q f (hd.trans hlen) hq hf]
  · intro f hf
    rw [h'.frame f hf, h.frame f fun hmid => hf (h'.node hmid)]
  · intro f hf
    exact h.left f (h'.left f hf)

theorem Directory.node_lt (h : Directory free m r) (hf : Node (child m) 4 r f) : f < 2^40 := by
  obtain ⟨q, -, hf⟩ := hf
  exact follow_lt h.root hf

theorem Directory.mono (h : Directory free m r) (hfree : ∀ f, free' f → free f) :
    Directory free' m r :=
  ⟨h.tree, h.root, fun f hf => ⟨(h.table f hf).1, fun hf' => (h.table f hf).2 (hfree f hf')⟩⟩

theorem Directory.refl (h : Directory free m r) (hfree : ∀ f, free' f → free f) :
    Grow free free' m m r d where
  dir := h.mono hfree
  page _ _ := rfl
  old _ _ _ hf := hf
  new _ _ _ hf := .inl hf
  keep _ _ _ _ _ := rfl
  frame _ _ := rfl
  left := hfree

section Effects

variable (hd : Directory free m r) (hq : q.length < 3) (hf : follow (child m) r q = some f)
include hd hq hf

theorem Kept.grow (h : Kept m m' f) : Grow free free m m' r (q.length + 1) := by
  have hchild : child m' = child m := by
    funext g j
    by_cases hg : g = f
    · rw [hg, h.same]
    · unfold child
      rw [h.other g hg]
  constructor
  · exact ⟨hchild ▸ hd.tree, hd.root, hchild ▸ hd.table⟩
  · intro q' _
    rw [hchild]
  · intro q' f' _ hf'
    rw [hchild]
    exact hf'
  · intro q' f' _ hf'
    rw [hchild] at hf'
    exact .inl hf'
  · intro q' f' hlen hq' hf'
    apply h.other
    rintro rfl
    -- a table has one depth
    obtain rfl := hd.tree q' q f' hq' (by omega) hf' hf
    omega
  · intro f' hf'
    apply h.other
    rintro rfl
    rw [hchild] at hf'
    exact hf' ⟨q, by omega, hf⟩
  · exact fun _ hfree => hfree

theorem Added.grafted (h : Added m m' f i c) (hc : free c) :
    Grafted (child m) (child m') 4 r q f i c := by
  have hnot : ¬ Node (child m) 4 r c := fun hnode => (hd.table c hnode).2 hc
  refine ⟨⟨hd.tree, by omega, hf, ?_⟩, h.empty, h.entry, hnot, ?_⟩
  · intro g j hg hne
    by_cases hgf : g = f
    · subst hgf
      exact h.same j fun hj => hne ⟨rfl, hj⟩
    · have hgc : g ≠ c := fun hgc => hnot (hgc ▸ hg)
      unfold child
      rw [h.other g hgf hgc]
  · intro j
    unfold child
    rw [h.zero j, present_zero, if_neg (by simp)]

theorem Added.grow (h : Added m m' f i c) (hc : free c) (hc0 : c ≠ 0) (hc' : ¬ free' c)
    (hfree : ∀ f, free' f → free f) : Grow free free' m m' r (q.length + 1) := by
  have hg := h.grafted hd hq hf hc
  have hlen : (q ++ [i]).length = q.length + 1 := by simp
  have hnew : Node (child m') 4 r c := ⟨q ++ [i], by omega, by rw [hg.follow (by omega), if_pos rfl]⟩
  have hold : ∀ q' f', q'.length < 4 → follow (child m) r q' = some f' →
      follow (child m') r q' = some f' := by
    intro q' f' hq' hf'
    rw [hg.follow hq'.le, if_neg]
    · exact hf'
    · rintro rfl
      rw [follow_snoc, hf, bind_some, h.empty] at hf'
      cases hf'
  constructor
  · refine ⟨hg.tree', hd.root, ?_⟩
    rintro f' ⟨q', hq', hf'⟩
    rw [hg.follow hq'.le] at hf'
    split_ifs at hf' with hat
    · cases hf'
      exact ⟨hc0, hc'⟩
    · obtain ⟨hne, hnot⟩ := hd.table f' ⟨q', hq', hf'⟩
      exact ⟨hne, fun hfree' => hnot (hfree f' hfree')⟩
  · intro q' hq'
    rw [hg.follow hq'.le, if_neg]
    rintro rfl
    omega
  · exact hold
  · intro q' f' hq' hf'
    rw [hg.follow hq'.le] at hf'
    split_ifs at hf' with hat
    · cases hf'
      exact .inr ⟨hc, fun _ => h.zero⟩
    · exact .inl hf'
  · intro q' f' hlen' hq' hf'
    apply h.other
    · rintro rfl
      obtain rfl := hd.tree q' q f' hq' (by omega) hf' hf
      omega
    · rintro rfl
      exact hg.fresh ⟨q', hq', hf'⟩
  · intro f' hf'
    apply h.other
    · rintro rfl
      exact hf' ⟨q, by omega, hold q f' (by omega) hf⟩
    · rintro rfl
      exact hf' hnew
  · exact hfree

end Effects

def OffWindow (K : KernelImage) (m : Mem) (r v : Nat) : Prop :=
  ∀ d f, d < 4 → follow (child m) r ((pathOf v).take d) = some f → f ≠ K.pagingPt

variable {free : P → Nat → Prop}

theorem OffWindow.of_new (hA : Pool K A free) (hv : OffWindow K m r v)
    (hnew : ∀ q f, q.length < 4 → follow (child m') r q = some f →
      follow (child m) r q = some f ∨ free s f) : OffWindow K m' r v := by
  intro d f hd hf
  have hlen : ((pathOf v).take d).length < 4 := by
    rw [length_take]
    omega
  rcases hnew _ f hlen hf with hold | hfree
  · exact hv d f hd hold
  · exact (hA.usable _ f hfree).2.2

theorem Grow.offWindow (h : Grow (free t.phys) free' m m' r d) (hA : Pool K A free)
    (hv : OffWindow K m r v) : OffWindow K m' r v := by
  apply hv.of_new hA
  intro q f hq hf
  rcases h.new q f hq hf with hold | ⟨hfree, -⟩
  · exact .inl hold
  · exact .inr hfree

structure Grown (free : P → Nat → Prop) (t t' : Machine P) (r d : Nat) : Prop where
  grow : Grow (free t.phys) (free t'.phys) t.mem t'.mem r d
  freed : t'.freed = t.freed
  strayed : t'.strayed = t.strayed

theorem Grown.trans (h : Grown free t t' r d) (h' : Grown free t' t'' r d')
    (hd : d ≤ d') : Grown free t t'' r d' :=
  ⟨h.grow.trans h'.grow hd, h'.freed.trans h.freed, h'.strayed.trans h.strayed⟩

/-- What every call keeps: the tables of the directory stay tables, its new ones were free
pages, nothing else is written, the window is as it was, only the null pointer is released, and
no table is read past its end. -/
structure Evolves (K : KernelImage) (free : P → Nat → Prop) (t t' : Machine P) (r : Nat) : Prop where
  node : ∀ f, Node (child t.mem) 4 r f → Node (child t'.mem) 4 r f
  new : ∀ q f, q.length < 4 → follow (child t'.mem) r q = some f →
    follow (child t.mem) r q = some f ∨ free t.phys f
  frame : ∀ f, ¬ Node (child t'.mem) 4 r f → t'.mem f = t.mem f
  left : ∀ f, free t'.phys f → free t.phys f
  slots : t'.mem K.pagingPt = t.mem K.pagingPt
  freed : ∃ k, t'.freed = t.freed ++ replicate k 0
  strayed : t'.strayed = t.strayed

theorem Evolves.refl (t : Machine P) (r : Nat) : Evolves K free t t r :=
  ⟨fun _ hf => hf, fun _ _ _ hf => .inl hf, fun _ _ => rfl, fun _ hf => hf, rfl, ⟨0, by simp⟩, rfl⟩

theorem Evolves.trans (h : Evolves K free t t' r) (h' : Evolves K free t' t'' r) :
    Evolves K free t t'' r := by
  obtain ⟨k, hk⟩ := h.freed
  obtain ⟨k', hk'⟩ := h'.freed
  refine ⟨fun f hf => h'.node f (h.node f hf), ?_, ?_, fun f hf => h.left f (h'.left f hf),
    h'.slots.trans h.slots, ⟨k + k', ?_⟩, h'.strayed.trans h.strayed⟩
  · intro q f hq hf
    rcases h'.new q f hq hf with hmid | hfree
    · exact h.new q f hq hmid
    · exact .inr (h.left f hfree)
  · intro f hf
    rw [h'.frame f hf, h.frame f fun hmid => hf (h'.node f hmid)]
  · rw [hk', hk, append_assoc, replicate_append_replicate]

theorem Grown.evolves (h : Grown free t t' r d) (hslots : t'.mem K.pagingPt = t.mem K.pagingPt) :
    Evolves K free t t' r := by
  refine ⟨fun f hf => h.grow.node hf, ?_, h.grow.frame, h.grow.left, hslots, ⟨0, by simp [h.freed]⟩, h.strayed⟩
  intro q f hq hf
  rcases h.grow.new q f hq hf with hold | ⟨hfree, -⟩
  · exact .inl hold
  · exact .inr hfree

theorem Evolves.offWindow (h : Evolves K free t t' r) (hA : Pool K A free) (hv : OffWindow K t.mem r v) :
    OffWindow K t'.mem r v := hv.of_new hA h.new

def TableEffect (m m' : Mem) (f i : Nat) : Prop := Kept m m' f ∨ ∃ c, Added m m' f i c

@[simp] theorem Machine.keepTable_phys (s : Machine P) (f i flags : Nat) :
    (s.keepTable f i flags).phys = s.phys := by
  simp [Machine.keepTable]

theorem Kept.rfl (m : Mem) (f : Nat) : Kept m m f :=
  ⟨fun _ => Eq.refl _, Eq.refl _, fun _ _ => Eq.refl _⟩

theorem Directory.mappable (hd : Directory (free t.phys) m r)
    (hf : Node (child m) 4 r (p / PAGE_SIZE)) (hne : p / PAGE_SIZE ≠ K.pagingPt) : Mappable K p :=
  ⟨(hd.table _ hf).1, hd.node_lt hf, hne⟩

theorem Pool.mappable {s' : P} (hA : Pool K A free) (ha : A.allocPhysPage s = some (p, s'))
    (hp : p ≠ 0) : Mappable K p :=
  have h := hA.usable s _ (hA.taken s p s' ha hp)
  ⟨h.1, h.2.1, h.2.2⟩

theorem tableAlloc_grows (flags : Nat) (hA : Pool K A free) (hs : slot < 10) (hb : below < 10)
    (hsb : slot ≠ below) (hi : i < 512) (hd : Directory (free t.phys) t.mem r) (hq : q.length < 3)
    (hf : follow (child t.mem) r q = some (p / PAGE_SIZE)) (hpt : p / PAGE_SIZE ≠ K.pagingPt) :
    ∃ a t', Runs K [slot, below] Γ (tableAlloc K A slot below p i flags) t a t' [] ∧
      Grown free t t' r (q.length + 1) ∧ TableEffect t.mem t'.mem (p / PAGE_SIZE) i ∧
      t'.mem K.pagingPt = t.mem K.pagingPt ∧
      (a ≠ 0 → follow (child t'.mem) r (q ++ [i]) = some (a / PAGE_SIZE)) ∧
      ∀ supply, Supply A supply → supply t.phys ≤ supply t'.phys + 1 ∧ (a = 0 → supply t.phys = 0) := by
  have hp : Mappable K p := hd.mappable ⟨q, by omega, hf⟩ hpt
  by_cases he : present (t.mem (p / PAGE_SIZE) i) = true
  · have hchild : child t.mem (p / PAGE_SIZE) i = some (frameOf (t.mem (p / PAGE_SIZE) i)) := by
      rw [child_eq hi, if_pos he]
    have hpath : follow (child t.mem) r (q ++ [i]) = some (frameOf (t.mem (p / PAGE_SIZE) i)) := by
      rw [follow_snoc, hf, bind_some, hchild]
    have hnode : Node (child t.mem) 4 r (frameOf (t.mem (p / PAGE_SIZE) i)) :=
      ⟨q ++ [i], by simp; omega, hpath⟩
    have hkept : Kept t.mem (t.keepTable (p / PAGE_SIZE) i flags).mem (p / PAGE_SIZE) :=
      keepTable_kept he
    have hgrow := hkept.grow hd hq hf
    refine ⟨_, _, tableAlloc_found hs hp hi he (hd.table _ hnode).1, ⟨?_, ?_, ?_⟩, .inl hkept,
      hkept.other _ hpt.symm, ?_, ?_⟩
    · rw [Machine.keepTable_phys]
      exact hgrow
    · simp [Machine.keepTable]
    · simp [Machine.keepTable]
    · intro _
      rw [addressOf_div]
      exact hgrow.old _ _ (by simp; omega) hpath
    · intro supply _
      rw [Machine.keepTable_phys]
      exact ⟨Nat.le_succ _, fun hzero => absurd hzero (mul_ne_zero (hd.table _ hnode).1 (by decide))⟩
  · have he' : present (t.mem (p / PAGE_SIZE) i) = false := Bool.eq_false_of_not_eq_true he
    obtain ⟨a, phys, ha⟩ := hA.total t.phys
    by_cases ha0 : a = 0
    · subst ha0
      refine ⟨_, _, tableAlloc_full hs hp hi he' ha, ⟨?_, rfl, rfl⟩, .inl (Kept.rfl _ _), rfl, ?_, ?_⟩
      · exact hd.refl fun f hfree => (hA.left _ _ _ f ha hfree).1
      · exact fun hne => absurd rfl hne
      · intro supply hsup
        have hnone : supply t.phys = 0 := by
          by_contra hne
          exact (hsup _ _ _ ha (by omega)).1 rfl
        exact ⟨by omega, fun _ => hnone⟩
    · have hm := hA.mappable ha ha0
      have hfree : free t.phys (a / PAGE_SIZE) := hA.taken _ _ _ ha ha0
      have hne : p / PAGE_SIZE ≠ a / PAGE_SIZE := by
        intro heq
        exact (hd.table _ ⟨q, by omega, hf⟩).2 (heq ▸ hfree)
      have hadded : Added t.mem ({ t with phys := phys }.addTable (p / PAGE_SIZE) i a flags).mem
          (p / PAGE_SIZE) i (a / PAGE_SIZE) :=
        addTable_added (t := { t with phys := phys }) hi he' hm.lt hne
      have hgrow : Grow (free t.phys) (free phys) t.mem
          ({ t with phys := phys }.addTable (p / PAGE_SIZE) i a flags).mem r (q.length + 1) :=
        hadded.grow hd hq hf hfree hm.pos (fun h => (hA.left _ _ _ _ ha h).2 rfl)
          fun f h => (hA.left _ _ _ f ha h).1
      refine ⟨_, _, tableAlloc_added hs hp hi hb hsb he' ha ha0 hm, ⟨?_, ?_, ?_⟩,
        .inr ⟨_, hadded⟩, hadded.other _ hpt.symm hm.ne.symm, ?_, ?_⟩
      · simpa [Machine.addTable, Machine.zero] using hgrow
      · simp [Machine.addTable, Machine.zero]
      · simp [Machine.addTable, Machine.zero]
      · intro _
        rw [(hadded.grafted hd hq hf hfree).follow (by simp; omega), if_pos rfl]
      · intro supply hsup
        have hphys : ({ t with phys := phys }.addTable (p / PAGE_SIZE) i a flags).phys = phys := by
          simp [Machine.addTable, Machine.zero]
        rw [hphys]
        refine ⟨?_, fun hzero => absurd hzero ha0⟩
        by_cases hnone : supply t.phys = 0
        · omega
        · exact (hsup _ _ _ ha (by omega)).2

theorem pml4Alloc_full (ha : A.allocPhysPage t.phys = some (0, phys)) :
    Runs K [] Γ (pml4Alloc K A) t 0 { t with phys := phys } [] := by
  unfold pml4Alloc
  refine (Runs.allocPhysPage ha).seq ?_
  rw [if_pos rfl]
  exact Runs.ret 0

theorem pml4Alloc_runs {newADDR : Nat} (ha : A.allocPhysPage t.phys = some (newADDR, phys))
    (ha0 : newADDR ≠ 0) (hm : Mappable K newADDR) : Runs K [PML4_MAP] [] (pml4Alloc K A) t newADDR
      (({ t with phys := phys } : Machine P).zero (newADDR / PAGE_SIZE)) [] := by
  unfold pml4Alloc
  refine (Runs.allocPhysPage ha).seq ?_
  rw [if_neg ha0]
  refine (Runs.mapAddr (by decide) hm).bind [(PML4_MAP, newADDR / PAGE_SIZE)] ?_ (by simp) (by simp)
  exact (Runs.zeroPage ⟨by decide, by simp, hm.ne⟩).seq (Runs.ret _)

theorem pathOf_length (v : Nat) : (pathOf v).length = 4 := rfl

theorem pathOf_eq_iff {u : Nat} (hu : u < 2^48) (hv : v < 2^48) :
    pathOf u = pathOf v ↔ u / PAGE_SIZE = v / PAGE_SIZE := by
  constructor
  · intro h
    simp only [pathOf, cons.injEq, and_true] at h
    rw [PAGE_SIZE]
    omega
  · intro h
    have hpage : ∀ k, k ≤ 27 → u / 2^(12 + k) = v / 2^(12 + k) := by
      intro k _
      rw [pow_add, ← Nat.div_div_eq_div_mul, ← Nat.div_div_eq_div_mul]
      exact congrArg (· / 2^k) h
    unfold pathOf
    rw [hpage 27 (by omega), hpage 18 (by omega), hpage 9 (by omega), hpage 0 (by omega)]

theorem child_index_lt (h : child m f i = some c) : i < 512 := by
  by_contra hi
  rw [child_of_ge (by omega)] at h
  cases h

theorem exists_pathOf (hq : q.length = 4) (hf : follow (child m) r q = some f) :
    ∃ v, v < 2^48 ∧ pathOf v = q := by
  obtain ⟨i₀, i₁, i₂, i₃, rfl⟩ : ∃ i₀ i₁ i₂ i₃, q = [i₀, i₁, i₂, i₃] := by
    match q, hq with
    | [i₀, i₁, i₂, i₃], _ => exact ⟨i₀, i₁, i₂, i₃, rfl⟩
  obtain ⟨f₀, h₀, hf⟩ := bind_eq_some_iff.mp hf
  obtain ⟨f₁, h₁, hf⟩ := bind_eq_some_iff.mp hf
  obtain ⟨f₂, h₂, hf⟩ := bind_eq_some_iff.mp hf
  obtain ⟨f₃, h₃, -⟩ := bind_eq_some_iff.mp hf
  have hlt₀ := child_index_lt h₀
  have hlt₁ := child_index_lt h₁
  have hlt₂ := child_index_lt h₂
  have hlt₃ := child_index_lt h₃
  refine ⟨i₀ * 2^39 + i₁ * 2^30 + i₂ * 2^21 + i₃ * 2^12, by omega, ?_⟩
  simp only [pathOf, cons.injEq, and_true]
  refine ⟨?_, ?_, ?_, ?_⟩ <;> omega

def tablePath (v : Nat) : List Nat := [v / 2^39 % 512, v / 2^30 % 512, v / 2^21 % 512]

def pageIndex (v : Nat) : Nat := v / 2^12 % 512

theorem pathOf_eq (v : Nat) : pathOf v = tablePath v ++ [pageIndex v] := rfl

theorem pageIndex_lt (v : Nat) : pageIndex v < 512 := Nat.mod_lt _ (by decide)

theorem tableLocate_follows (hs : slot < 10) (hi : i < 512) (hd : Directory (free t.phys) t.mem r)
    (hq : q.length < 3) (hf : follow (child t.mem) r q = some (p / PAGE_SIZE))
    (hpt : p / PAGE_SIZE ≠ K.pagingPt) :
    ∃ a, Runs K [slot] Γ (tableLocate K slot p i) t a t [] ∧
      (a = 0 → follow (child t.mem) r (q ++ [i]) = none) ∧
      (a ≠ 0 → follow (child t.mem) r (q ++ [i]) = some (a / PAGE_SIZE)) := by
  have hp : Mappable K p := hd.mappable ⟨q, by omega, hf⟩ hpt
  have hpath : follow (child t.mem) r (q ++ [i]) = child t.mem (p / PAGE_SIZE) i := by
    rw [follow_snoc, hf, bind_some]
  refine ⟨_, (tableLocate_runs hs hp hi).weaken (by simp) (fun _ hc => hc) (by simp), ?_, ?_⟩
  · rw [hpath, child_eq hi]
    split_ifs with he
    · intro hzero
      have hnode : Node (child t.mem) 4 r (frameOf (t.mem (p / PAGE_SIZE) i)) :=
        ⟨q ++ [i], by simp; omega, by rw [hpath, child_eq hi, if_pos he]⟩
      exact absurd hzero (mul_ne_zero (hd.table _ hnode).1 (by decide))
    · exact fun _ => rfl
  · rw [hpath, child_eq hi]
    split_ifs with he
    · intro _
      rw [addressOf_div]
    · exact fun h => absurd rfl h

theorem follow_append_none {child : Nat → Nat → Option Nat} {p : List Nat} (q : List Nat)
    (h : follow child r p = none) : follow child r (p ++ q) = none := by
  rw [follow_append, h]
  rfl

section Page

variable (hv : v < 2^48) (hd : Directory (free t.phys) t.mem (p / PAGE_SIZE))
  (hw : OffWindow K t.mem (p / PAGE_SIZE) v)
include hv hd hw

theorem pageLocate_runs :
    (translate t.mem p v = none ∧ Runs K [0, 1, 2, 3] Γ (pageLocate K p v) t none t []) ∨
    ∃ f, follow (child t.mem) (p / PAGE_SIZE) (tablePath v) = some f ∧
      (child t.mem f (pageIndex v)).isSome ∧
      Runs K [0, 1, 2, 3] Γ (pageLocate K p v) t (some (pageIndex v)) t [(3, f)] := by
  have hidx : v / 2^39 % 512 = v / 2^39 := Nat.mod_eq_of_lt (by omega)
  have htrans : ∀ q, pathOf v = q ++ (pathOf v).drop q.length →
      follow (child t.mem) (p / PAGE_SIZE) q = none → translate t.mem p v = none := by
    intro q hpre hnone
    rw [translate, hpre]
    exact follow_append_none _ hnone
  obtain ⟨a₁, hrun₁, hnone₁, hsome₁⟩ := tableLocate_follows (Γ := Γ) (q := [])
    (show PML4_MAP < 10 by decide) (show v / 2^39 < 512 by omega) hd (by simp) rfl
    (hw 0 _ (by decide) rfl)
  by_cases ha₁ : a₁ = 0
  · refine .inl ⟨htrans [v / 2^39] (by rw [pathOf, hidx]; rfl) (hnone₁ ha₁), ?_⟩
    exact hrun₁.stop (by decide) ha₁
  have hf₁ := hsome₁ ha₁
  obtain ⟨a₂, hrun₂, hnone₂, hsome₂⟩ := tableLocate_follows (Γ := [])
    (show PDPT_MAP < 10 by decide) (show v / 2^30 % 512 < 512 by omega) hd (by simp) hf₁
    (hw 1 _ (by decide) (by rw [pathOf, hidx]; exact hf₁))
  by_cases ha₂ : a₂ = 0
  · refine .inl ⟨htrans [v / 2^39, v / 2^30 % 512] (by rw [pathOf, hidx]; rfl) (hnone₂ ha₂), ?_⟩
    exact hrun₁.onward (by decide) ha₁ (hrun₂.stop (by decide) ha₂)
  have hf₂ := hsome₂ ha₂
  obtain ⟨a₃, hrun₃, hnone₃, hsome₃⟩ := tableLocate_follows (Γ := [])
    (show PD_MAP < 10 by decide) (show v / 2^21 % 512 < 512 by omega) hd (by simp) hf₂
    (hw 2 _ (by decide) (by rw [pathOf, hidx]; exact hf₂))
  by_cases ha₃ : a₃ = 0
  · refine .inl ⟨htrans [v / 2^39, v / 2^30 % 512, v / 2^21 % 512] (by rw [pathOf, hidx]; rfl)
      (hnone₃ ha₃), ?_⟩
    exact hrun₁.onward (by decide) ha₁ (hrun₂.onward (by decide) ha₂ (hrun₃.stop (by decide) ha₃))
  have hf₃ : follow (child t.mem) (p / PAGE_SIZE) (tablePath v) = some (a₃ / PAGE_SIZE) := by
    rw [tablePath, hidx]
    exact hsome₃ ha₃
  have hne₃ := hw 3 _ (by decide) hf₃
  have hm₃ : Mappable K a₃ := hd.mappable ⟨tablePath v, by simp [tablePath], hf₃⟩ hne₃
  have hshows : Shows K [(3, a₃ / PAGE_SIZE)] 3 (a₃ / PAGE_SIZE) := ⟨by decide, by simp, hne₃⟩
  have hrun : Runs K [0, 1, 2, 3] Γ (pageLocate K p v) t
      (if present (t.mem (a₃ / PAGE_SIZE) (pageIndex v)) then some (pageIndex v) else none) t
      [(3, a₃ / PAGE_SIZE)] := by
    refine hrun₁.onward (by decide) ha₁ (hrun₂.onward (by decide) ha₂ (hrun₃.onward (by decide) ha₃ ?_))
    refine (Runs.mapAddr (by decide) hm₃).bind [(3, a₃ / PAGE_SIZE)] ?_ (by decide) (by simp [PT_MAP])
    exact (Runs.load hshows (pageIndex_lt v)).seq (Runs.pure _)
  have hleaf : translate t.mem p v = child t.mem (a₃ / PAGE_SIZE) (pageIndex v) := by
    rw [translate, pathOf_eq, follow_snoc, hf₃, bind_some]
  by_cases he : present (t.mem (a₃ / PAGE_SIZE) (pageIndex v)) = true
  · refine .inr ⟨_, hf₃, ?_, ?_⟩
    · rw [child_eq (pageIndex_lt v), if_pos he]
      rfl
    · rw [if_pos he] at hrun
      exact hrun
  · refine .inl ⟨?_, ?_⟩
    · rw [hleaf, child_eq (pageIndex_lt v), if_neg he]
    · rw [if_neg he] at hrun
      exact hrun.weaken (by simp) (by simp) (by simp)

end Page

end Comus.Paging
