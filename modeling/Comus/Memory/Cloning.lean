import Comus.Memory.Mapping

/-!
# Copying a page directory (pgdir_clone)

The four levels of the copy have one loop. What is proved of it needs nothing about
the level below but that its copies are made of pages that were free before: so no
step touches the old directory or what the earlier steps have copied.
-/

namespace Comus.Paging

open Word BitField Trie Option List

variable {P α β : Type} {K : KernelImage} {A : PageAlloc P} {free : P → Nat → Prop}
variable {s t t' t₀ t₁ : Machine P} {m m' m'' : Mem} {S T : List Nat} {Γ Γ' Δ : List (Nat × Nat)}
variable {ok₁ : α → Prop} {Q₁ : α → Machine P → (Nat → Nat) → Prop} {r : Nat → Nat → Prop} {y : Option Nat}
  {q : List Nat} {j e e' slot slotC : Nat} {counter : Counter} {fail : Nat → KernelM P Unit}

/-- If the operation returns a result that is `ok`, it is as `Q` says. A failed clone
walks a table that is half filled, and nothing is said about it. -/
def Ends (K : KernelImage) (S : List Nat) (Γ : List (Nat × Nat)) (op : KernelM P α) (t : Machine P)
    (ok : α → Prop) (Q : α → Machine P → (Nat → Nat) → Prop) : Prop :=
  ∀ σ, Ready σ → (∀ c ∈ Γ, Points σ c.1 c.2) → ∀ r s', op (t.withSlots K σ) = some (r, s') → ok r →
    ∃ t' σ', s' = t'.withSlots K σ' ∧ Ready σ' ∧ (∀ k, k ∉ S → σ' k = σ k) ∧ Q r t' σ'

variable {x : KernelM P α} {g : α → KernelM P β} {a : α} {ok : β → Prop}
  {Q : β → Machine P → (Nat → Nat) → Prop}

theorem Runs.ends {ok : α → Prop} {Q : α → Machine P → (Nat → Nat) → Prop}
    (h : Runs K S Γ x t a t' Δ) (hQ : ok a → ∀ σ', Q a t' σ') : Ends K S Γ x t ok Q := by
  intro σ hσ hpoints r s' hrun hok
  obtain ⟨σ', heq, hready, hkeep, -⟩ := h σ hσ hpoints
  rw [heq] at hrun
  cases hrun
  exact ⟨t', σ', rfl, hready, hkeep, hQ hok σ'⟩

theorem Runs.bind_ends (hx : Runs K S Γ x t a t₁ Δ) (Γ' : List (Nat × Nat))
    (hg : Ends K T Γ' (g a) t₁ ok Q) (hS : ∀ k ∈ S, k ∈ T)
    (hΓ : ∀ c ∈ Γ', c ∈ Δ ∨ c ∈ Γ ∧ c.1 ∉ S) : Ends K T Γ (x >>= g) t ok Q := by
  intro σ hσ hpoints r s' hrun hok
  obtain ⟨σ₁, heq, hready₁, hkeep₁, hpost₁⟩ := hx σ hσ hpoints
  have hpoints₁ := points_step hpoints hkeep₁ hpost₁ hΓ
  change (x (t.withSlots K σ)).bind (fun p => g p.1 p.2) = _ at hrun
  rw [heq] at hrun
  obtain ⟨t', σ', rfl, hready, hkeep, hQ⟩ := hg σ₁ hready₁ hpoints₁ r s' hrun hok
  refine ⟨t', σ', rfl, hready, fun k hk => ?_, hQ⟩
  rw [hkeep k hk, hkeep₁ k fun hkS => hk (hS k hkS)]

theorem Runs.seq_ends (hx : Runs K [] Γ x t a t₁ Δ) (hg : Ends K S Γ (g a) t₁ ok Q) :
    Ends K S Γ (x >>= g) t ok Q :=
  hx.bind_ends Γ hg (by simp) fun _ hc => .inr ⟨hc, not_mem_nil⟩

theorem points_kept {σ σ₁ : Nat → Nat} (hpoints : ∀ c ∈ Γ, Points σ c.1 c.2)
    (hkeep : ∀ k, k ∉ S → σ₁ k = σ k) (hΓ : ∀ c ∈ Γ, c.1 ∉ S) : ∀ c ∈ Γ, Points σ₁ c.1 c.2 :=
  points_step (Δ := []) hpoints hkeep (by simp) fun c hc => .inr ⟨hc, hΓ c hc⟩

theorem Ends.bind (hx : Ends K S Γ x t ok₁ Q₁)
    (hg : ∀ a t₁ σ₁, ok₁ a → Q₁ a t₁ σ₁ → Ends K T Γ (g a) t₁ ok Q)
    (hbad : ∀ a s r s', ¬ ok₁ a → g a s = some (r, s') → ¬ ok r)
    (hS : ∀ k ∈ S, k ∈ T) (hΓ : ∀ c ∈ Γ, c.1 ∉ S) : Ends K T Γ (x >>= g) t ok Q := by
  intro σ hσ hpoints r s' hrun hok
  change (x (t.withSlots K σ)).bind (fun p => g p.1 p.2) = _ at hrun
  obtain ⟨⟨a, s₁⟩, hfirst, hsecond⟩ := bind_eq_some_iff.mp hrun
  by_cases ha : ok₁ a
  · obtain ⟨t₁, σ₁, rfl, hready₁, hkeep₁, hQ₁⟩ := hx σ hσ hpoints a s₁ hfirst ha
    have hpoints₁ := points_kept hpoints hkeep₁ hΓ
    obtain ⟨t', σ', rfl, hready, hkeep, hQ⟩ :=
      hg a t₁ σ₁ ha hQ₁ σ₁ hready₁ hpoints₁ r s' hsecond hok
    refine ⟨t', σ', rfl, hready, fun k hk => ?_, hQ⟩
    rw [hkeep k hk, hkeep₁ k fun hkS => hk (hS k hkS)]
  · exact absurd hok (hbad a s₁ r s' ha hsecond)

theorem Ends.weaken {ok : α → Prop} {Q Q' : α → Machine P → (Nat → Nat) → Prop}
    (h : Ends K S Γ x t ok Q) (hS : ∀ k ∈ S, k ∈ T) (hΓ : ∀ c ∈ Γ, c ∈ Γ')
    (hQ : ∀ r t' σ', Q r t' σ' → (∀ c ∈ Γ', c.1 ∉ S → Points σ' c.1 c.2) → Q' r t' σ') :
    Ends K T Γ' x t ok Q' := by
  intro σ hσ hpoints r s' hrun hok
  obtain ⟨t', σ', rfl, hready, hkeep, hpost⟩ := h σ hσ (fun c hc => hpoints c (hΓ c hc)) r s' hrun hok
  refine ⟨t', σ', rfl, hready, fun k hk => hkeep k fun hkS => hk (hS k hkS), hQ r t' σ' hpost ?_⟩
  intro c hc hfree
  unfold Points
  rw [hkeep c.1 hfree]
  exact hpoints c hc

structure Extends (free : P → Nat → Prop) (t t' : Machine P) : Prop where
  frame : ∀ b, ¬ free t.phys b → t'.mem b = t.mem b
  left : ∀ b, free t'.phys b → free t.phys b

theorem Extends.rfl (free : P → Nat → Prop) (t : Machine P) : Extends free t t :=
  ⟨fun _ _ => Eq.refl _, fun _ h => h⟩

def Own (free : P → Nat → Prop) (t t' : Machine P) (b : Nat) : Prop :=
  free t.phys b ∧ ¬ free t'.phys b

structure Agree (bits e e' : Nat) : Prop where
  flags : field e' 0 bits = field e 0 bits
  executeDisable : executeDisable e' = executeDisable e

def entryBits : Nat → Nat
  | 0 => pageFlags
  | _ + 1 => tableFlags

/-- A page or table `b` of the copy for `a`, with `k` levels below it: pages of the
kernel image are shared. -/
def Good (K : KernelImage) (m m' : Mem) (own : Nat → Prop) : Nat → Nat → Nat → Prop
  | 0, a, b => if a * PAGE_SIZE ≤ K.kernelEnd then b = a else own b ∧ m' b = m a
  | k + 1, a, b => own b ∧ ∀ i, i < 512 → Agree (entryBits k) (m a i) (m' b i)

/-- The `k` levels below `f` in `m` are copied to `g` in `m'`. No page of the copy is
used twice. -/
structure CopyOf (K : KernelImage) (m m' : Mem) (own : Nat → Prop) (k f g : Nat) : Prop where
  same : ∀ q, q.length ≤ k →
    Option.Rel (Good K m m' own (k - q.length)) (follow (child m) f q) (follow (child m') g q)
  one : ∀ q q' b, q.length ≤ k → q'.length ≤ k → follow (child m') g q = some b →
    follow (child m') g q' = some b → K.kernelEnd < b * PAGE_SIZE → q = q'

variable {own own' : Nat → Prop} {k f g' i c d a' b : Nat}

theorem Good.owned (h : Good K m m' own k a' b) (hb : K.kernelEnd < b * PAGE_SIZE) : own b := by
  cases k with
  | zero =>
    rw [Good] at h
    split_ifs at h with hshared
    · rw [h] at hb
      omega
    · exact h.1
  | succ k => exact h.1

theorem Good.mono (h : Good K m m' own k a' b) (hown : ∀ b, own b → own' b)
    (hmem : ∀ b, own b → m'' b = m' b) : Good K m m'' own' k a' b := by
  cases k with
  | zero =>
    rw [Good] at h ⊢
    split_ifs at h ⊢ with hshared
    · exact h
    · rw [hmem b h.1]
      exact ⟨hown b h.1, h.2⟩
  | succ k =>
    refine ⟨hown b h.1, fun i hi => ?_⟩
    rw [hmem b h.1]
    exact h.2 i hi

theorem relSome_right {x : Option Nat} (h : Option.Rel r x (some b)) :
    ∃ a, x = some a ∧ r a b := by
  cases h with
  | some hr => exact ⟨_, rfl, hr⟩

theorem relSome_left (h : Option.Rel r (some b) y) :
    ∃ c, y = some c ∧ r b c := by
  cases h with
  | some hr => exact ⟨_, rfl, hr⟩

theorem rel_isSome {x : Option Nat} (h : Option.Rel r x y) :
    y.isSome = x.isSome := by
  cases h with
  | none => rfl
  | some _ => rfl

theorem relMono {r' : Nat → Nat → Prop} {x : Option Nat} (h : Option.Rel r x y)
    (himp : ∀ a b, r a b → r' a b) : Option.Rel r' x y := by
  cases h with
  | none => exact .none
  | some hr => exact .some (himp _ _ hr)

theorem CopyOf.follow_eq (h : CopyOf K m m' own k f g')
    (hmem : ∀ b, own b → m'' b = m' b) (hq : q.length ≤ k) :
    follow (child m'') g' q = follow (child m') g' q := by
  apply follow_congr
  intro p i b hp hb
  have hlen := length_lt_of_snoc_prefix hp
  have hrel := h.same p (by omega)
  rw [hb] at hrel
  obtain ⟨a, -, hgood⟩ := relSome_right hrel
  obtain ⟨j, hj⟩ : ∃ j, k - p.length = j + 1 := ⟨k - p.length - 1, by omega⟩
  rw [hj] at hgood
  unfold child
  rw [hmem b hgood.1]

theorem CopyOf.frame (h : CopyOf K m m' own k f g') (hown : ∀ b, own b → own' b)
    (hmem : ∀ b, own b → m'' b = m' b) : CopyOf K m m'' own' k f g' := by
  constructor
  · intro q hq
    rw [h.follow_eq hmem hq]
    exact relMono (h.same q hq) fun a b hgood => hgood.mono hown hmem
  · intro q q' b hq hq' hb hb'
    rw [h.follow_eq hmem hq] at hb
    rw [h.follow_eq hmem hq'] at hb'
    exact h.one q q' b hq hq' hb hb'

theorem CopyOf.owned (h : CopyOf K m m' own k f g') (hq : q.length ≤ k)
    (hf : follow (child m') g' q = some b) (hb : K.kernelEnd < b * PAGE_SIZE) : own b := by
  have hrel := h.same q hq
  rw [hf] at hrel
  obtain ⟨a, -, hgood⟩ := relSome_right hrel
  exact hgood.owned hb

structure Filled (K : KernelImage) (free : P → Nat → Prop) (m : Mem) (t₀ t : Machine P)
    (k f g i : Nat) : Prop where
  ext : Extends free t₀ t
  taken : Own free t₀ t g
  agree : ∀ j, j < i → Agree (entryBits k) (m f j) (t.mem g j)
  part : ∀ j, j < i →
    Option.Rel (CopyOf K m t.mem (fun b => Own free t₀ t b ∧ b ≠ g) k) (child m f j) (child t.mem g j)
  apart : ∀ j j' d d' q q' b, j < i → j' < i → j ≠ j' → child t.mem g j = some d →
    child t.mem g j' = some d' → q.length ≤ k → q'.length ≤ k → follow (child t.mem) d q = some b →
    follow (child t.mem) d' q' = some b → ¬ K.kernelEnd < b * PAGE_SIZE

theorem child_done (hdone : ∀ j, j < i → m' f j = m f j) (hj : j < i) :
    child m' f j = child m f j := by
  unfold child
  rw [hdone j hj]

theorem Filled.sub (h : Filled K free m t₀ t k f g' i) (hi : c < i) (hd : child t.mem g' c = some d) :
    ∃ a, child m f c = some a ∧ CopyOf K m t.mem (fun b => Own free t₀ t b ∧ b ≠ g') k a d := by
  have hrel := h.part c hi
  rw [hd] at hrel
  exact relSome_right hrel

section Step

variable (h : Filled K free m t₀ t k f g' i) (hleft : ∀ b, free t'.phys b → free t.phys b)
  (hmem : ∀ b, b ≠ g' → ¬ free t.phys b → t'.mem b = t.mem b)
  (hdone : ∀ j, j < i → t'.mem g' j = t.mem g' j)
include h hleft hmem hdone

theorem Filled.part_done (hj : j < i) : Option.Rel
    (CopyOf K m t'.mem (fun b => Own free t₀ t' b ∧ b ≠ g') k) (child m f j) (child t'.mem g' j) := by
  rw [child_done hdone hj]
  apply relMono (h.part j hj)
  intro c d hcopy
  apply hcopy.frame
  · rintro b ⟨hown, hne⟩
    exact ⟨⟨hown.1, fun hb => hown.2 (hleft b hb)⟩, hne⟩
  · rintro b ⟨hown, hne⟩
    exact hmem b hne hown.2

theorem Filled.next (hagree : Agree (entryBits k) (m f i) (t'.mem g' i))
    (hpart : Option.Rel (CopyOf K m t'.mem (Own free t t') k) (child m f i) (child t'.mem g' i)) :
    Filled K free m t₀ t' k f g' (i + 1) := by
  have hext : Extends free t₀ t' := by
    refine ⟨fun b hb => ?_, fun b hb => h.ext.left b (hleft b hb)⟩
    have hne : b ≠ g' := fun heq => hb (heq ▸ h.taken.1)
    rw [hmem b hne fun hfree => hb (h.ext.left b hfree), h.ext.frame b hb]
  have htaken : Own free t₀ t' g' := ⟨h.taken.1, fun hb => h.taken.2 (hleft g' hb)⟩
  have hsame : ∀ j d q, j < i → child t.mem g' j = some d → q.length ≤ k →
      follow (child t'.mem) d q = follow (child t.mem) d q := by
    intro j d q hj hd hq
    obtain ⟨c, -, hcopy⟩ := h.sub hj hd
    exact hcopy.follow_eq (fun b hb => hmem b hb.2 hb.1.2) hq
  -- the pages of the new part were free while the old parts had theirs
  have hold : ∀ j d q b, j < i → child t'.mem g' j = some d → q.length ≤ k →
      follow (child t'.mem) d q = some b → K.kernelEnd < b * PAGE_SIZE → ¬ free t.phys b := by
    intro j d q b hj hd hq hb habove
    rw [child_done hdone hj] at hd
    rw [hsame j d q hj hd hq] at hb
    obtain ⟨c, -, hcopy⟩ := h.sub hj hd
    exact (hcopy.owned hq hb habove).1.2
  have hnew : ∀ d q b, child t'.mem g' i = some d → q.length ≤ k →
      follow (child t'.mem) d q = some b → K.kernelEnd < b * PAGE_SIZE → free t.phys b := by
    intro d q b hd hq hb habove
    rw [hd] at hpart
    obtain ⟨c, -, hcopy⟩ := relSome_right hpart
    exact (hcopy.owned hq hb habove).1
  constructor
  · exact hext
  · exact htaken
  · intro j hj
    rcases Nat.lt_succ_iff_lt_or_eq.mp hj with hj | rfl
    · rw [hdone j hj]
      exact h.agree j hj
    · exact hagree
  · intro j hj
    rcases Nat.lt_succ_iff_lt_or_eq.mp hj with hj | rfl
    · exact h.part_done hleft hmem hdone hj
    · apply relMono hpart
      intro c d hcopy
      apply hcopy.frame
      · rintro b ⟨hfree, hnot⟩
        exact ⟨⟨h.ext.left b hfree, hnot⟩, fun heq => h.taken.2 (heq ▸ hfree)⟩
      · intro b _
        rfl
  · intro j j' d d' q q' b hj hj' hne hd hd' hq hq' hb hb' habove
    rcases Nat.lt_succ_iff_lt_or_eq.mp hj with hj | rfl
    · rcases Nat.lt_succ_iff_lt_or_eq.mp hj' with hj' | rfl
      · rw [child_done hdone hj] at hd
        rw [child_done hdone hj'] at hd'
        rw [hsame j d q hj hd hq] at hb
        rw [hsame j' d' q' hj' hd' hq'] at hb'
        exact h.apart j j' d d' q q' b hj hj' hne hd hd' hq hq' hb hb' habove
      · exact hold j d q b hj hd hq hb habove (hnew d' q' b hd' hq' hb' habove)
    · rcases Nat.lt_succ_iff_lt_or_eq.mp hj' with hj' | rfl
      · exact hold j' d' q' b hj' hd' hq' hb' habove (hnew d q b hd hq hb habove)
      · exact hne rfl

end Step

theorem entryBits_pos (k : Nat) : 1 ≤ entryBits k := by
  cases k with
  | zero => exact (by decide : 1 ≤ pageFlags)
  | succ k => exact (by decide : 1 ≤ tableFlags)

theorem entryBits_le (k : Nat) : entryBits k ≤ 9 := by
  cases k with
  | zero => exact (by decide : pageFlags ≤ 9)
  | succ k => exact (by decide : tableFlags ≤ 9)

theorem present_eq_flags {bits : Nat} (hbits : 1 ≤ bits) :
    present e = decide (field (field e 0 bits) 0 1 = 1) := by
  rw [present, field_field (by omega)]

theorem Agree.present (h : Agree (entryBits k) e e') : present e' = present e := by
  have hbits := entryBits_pos k
  rw [present_eq_flags hbits, h.flags, ← present_eq_flags hbits]

theorem Filled.copyOf (h : Filled K free m t₀ t k f g' 512) :
    CopyOf K m t.mem (Own free t₀ t) (k + 1) f g' := by
  constructor
  · intro q hq
    cases q with
    | nil => exact .some ⟨h.taken, h.agree⟩
    | cons j q =>
      have hlen : q.length ≤ k := by simpa using hq
      rw [follow, follow, length_cons, Nat.add_sub_add_right]
      cases hd : child t.mem g' j with
      | none =>
        have hnone : child m f j = none := by
          by_cases hj : j < 512
          · have hrel := h.part j hj
            rw [hd] at hrel
            cases hc : child m f j with
            | none => rfl
            | some c =>
              rw [hc] at hrel
              cases hrel
          · exact child_of_ge (by omega)
        rw [hnone]
        exact .none
      | some d =>
        obtain ⟨a, ha, hcopy⟩ := h.sub (child_index_lt hd) hd
        rw [ha]
        exact relMono (hcopy.same q hlen) fun a b hgood => hgood.mono (fun _ hb => hb.1) fun _ _ => rfl
  · -- the table itself is in none of the parts
    have hself : ∀ j q, q.length ≤ k → follow (child t.mem) g' (j :: q) = some g' →
        ¬ K.kernelEnd < g' * PAGE_SIZE := by
      intro j q hq hb habove
      obtain ⟨d, hd, hb⟩ := bind_eq_some_iff.mp hb
      obtain ⟨a, -, hcopy⟩ := h.sub (child_index_lt hd) hd
      exact (hcopy.owned hq hb habove).2 rfl
    intro q q' b hq hq' hb hb' habove
    cases q with
    | nil =>
      cases hb
      cases q' with
      | nil => rfl
      | cons j' q' => exact absurd habove (hself j' q' (by simpa using hq') hb')
    | cons j q =>
      cases q' with
      | nil =>
        cases hb'
        exact absurd habove (hself j q (by simpa using hq) hb)
      | cons j' q' =>
        have hlen : q.length ≤ k := by simpa using hq
        have hlen' : q'.length ≤ k := by simpa using hq'
        obtain ⟨d, hd, hb⟩ := bind_eq_some_iff.mp hb
        obtain ⟨d', hd', hb'⟩ := bind_eq_some_iff.mp hb'
        by_cases hj : j = j'
        · subst hj
          rw [hd] at hd'
          cases hd'
          obtain ⟨a, -, hcopy⟩ := h.sub (child_index_lt hd) hd
          rw [hcopy.one q q' b hlen hlen' hb hb' habove]
        · exact absurd habove (h.apart j j' d d' q q' b (child_index_lt hd) (child_index_lt hd') hj hd hd'
            hlen hlen' hb hb')

/-- What is to be copied, with `k` levels below it: neither its tables nor its pages are
free, and only the kernel's own pages hold the page table of the window. -/
def Source (K : KernelImage) (free₀ : Nat → Prop) (m : Mem) : Nat → Nat → Prop
  | 0, f => f < 2^40 ∧ (K.kernelEnd < f * PAGE_SIZE → ¬ free₀ f ∧ f ≠ K.pagingPt)
  | k + 1, f => f ≠ 0 ∧ f < 2^40 ∧ f ≠ K.pagingPt ∧ ¬ free₀ f ∧
    ∀ i c, child m f i = some c → Source K free₀ m k c

structure Safe (free : P → Nat → Prop) (free₀ : Nat → Prop) (m : Mem) (t : Machine P) : Prop where
  left : ∀ b, free t.phys b → free₀ b
  same : ∀ b, ¬ free₀ b → t.mem b = m b

variable {free₀ : Nat → Prop}

theorem Safe.extend (h : Safe free free₀ m t) (h' : Extends free t t') : Safe free free₀ m t' := by
  refine ⟨fun b hb => h.left b (h'.left b hb), fun b hb => ?_⟩
  rw [h'.frame b fun hfree => hb (h.left b hfree), h.same b hb]

def Clones (K : KernelImage) (free : P → Nat → Prop) (free₀ : Nat → Prop) (m : Mem) (S : List Nat)
    (k : Nat) (below : Nat → KernelM P Nat) : Prop :=
  ∀ t f, Safe free free₀ m t → Source K free₀ m k f → ∀ Γ, (∀ c ∈ Γ, c.1 ∉ S) →
    Ends K S Γ (below (f * PAGE_SIZE)) t (· ≠ 0) fun r t' _ => Extends free t t' ∧
      r / PAGE_SIZE < 2^40 ∧ CopyOf K m t'.mem (Own free t t') k f (r / PAGE_SIZE)

def copiedEntry (k e e' : Nat) : Nat :=
  setFlags (entryBits k) (setField e' 63 1 (executeDisable e)) (field e 0 (entryBits k))

theorem copiedEntry_agree (k e e' : Nat) : Agree (entryBits k) e (copiedEntry k e e') := by
  have hle := entryBits_le k
  constructor
  · rw [copiedEntry, setFlags, field_setField, Nat.mod_eq_of_lt (field_lt _ _ _)]
  · rw [executeDisable, copiedEntry, setFlags, field_setField_above (by omega), field_setField]
    exact Nat.mod_eq_of_lt (field_lt _ _ _)

theorem Agree.setAddress (h : Agree (entryBits k) e e') (p : Nat) :
    Agree (entryBits k) e (setAddress e' p) := by
  have hle := entryBits_le k
  constructor
  · rw [Paging.setAddress, field_setField_below (by omega), h.flags]
  · rw [Paging.executeDisable, Paging.setAddress, field_setField_above (by decide)]
    exact h.executeDisable

variable {old new : Nat} {below : Nat → KernelM P Nat}

theorem write_done (hj : c ≠ i) (w : Nat) : (t.write f i w).mem f c = t.mem f c := by
  simp [hj]

theorem write_other (hb : b ≠ f) (w : Nat) : (t.write f i w).mem b = t.mem b := by
  funext j
  simp [hb]

theorem write_at (w : Nat) : (t.write f i w).mem f i = w := by
  simp

structure Round (K : KernelImage) (free : P → Nat → Prop) (free₀ : Nat → Prop) (m : Mem)
    (t₀ t : Machine P) (k f g i : Nat) : Prop where
  filled : Filled K free m t₀ t k f g i
  source : Source K free₀ m (k + 1) f
  safe : Safe free free₀ m t₀
  lt : i < 512

section Round

variable (h : Round K free free₀ m t₀ t k f g' i)
include h

theorem Round.old_eq : t.mem f = m f := by
  have hnot := h.source.2.2.2.1
  exact (h.safe.extend h.filled.ext).same f hnot

def Round.entry (_ : Round K free free₀ m t₀ t k f g' i) : Nat := copiedEntry k (m f i) (t.mem g' i)

theorem Round.safe_write : Safe free free₀ m (t.write g' i h.entry) := by
  refine ⟨fun b hb => ?_, fun b hb => ?_⟩
  · rw [Machine.write_phys] at hb
    exact h.safe.left b (h.filled.ext.left b hb)
  · have hne : b ≠ g' := fun heq => hb (heq ▸ h.safe.left _ h.filled.taken.1)
    rw [write_other hne, (h.safe.extend h.filled.ext).same b hb]

theorem Round.skipped (hpresent : ¬ present (m f i) = true) :
    Filled K free m t₀ (t.write g' i h.entry) k f g' (i + 1) := by
  have hagree : Agree (entryBits k) (m f i) h.entry := copiedEntry_agree k (m f i) (t.mem g' i)
  refine h.filled.next ?_ ?_ ?_ ?_ ?_
  · intro b hb
    rwa [Machine.write_phys] at hb
  · intro b hb _
    exact write_other hb _
  · intro j hj
    exact write_done (by omega) _
  · rw [write_at]
    exact hagree
  · rw [child_eq h.lt, child_eq h.lt, write_at, hagree.present, if_neg hpresent, if_neg hpresent]
    exact .none

theorem Round.copied {t₂ : Machine P} {r : Nat} (hpresent : present (m f i) = true)
    (hext : Extends free (t.write g' i h.entry) t₂) (hlt : r / PAGE_SIZE < 2^40)
    (hcopy : CopyOf K m t₂.mem (Own free (t.write g' i h.entry) t₂) k (frameOf (m f i)) (r / PAGE_SIZE)) :
    Filled K free m t₀ (t₂.write g' i (setAddress (t₂.mem g' i) r)) k f g' (i + 1) := by
  have hagree : Agree (entryBits k) (m f i) h.entry := copiedEntry_agree k (m f i) (t.mem g' i)
  have hg : ¬ free (t.write g' i h.entry).phys g' := by
    rw [Machine.write_phys]
    exact h.filled.taken.2
  apply h.filled.next
  · intro b hb
    rw [Machine.write_phys] at hb
    have hb' := hext.left b hb
    rwa [Machine.write_phys] at hb'
  · intro b hb hfree
    rw [write_other hb, hext.frame b (by rwa [Machine.write_phys]), write_other hb]
  · intro j hj
    rw [write_done (by omega), hext.frame g' hg, write_done (by omega)]
  · rw [write_at, hext.frame g' hg, write_at]
    exact hagree.setAddress r
  · have hchild : child m f i = some (frameOf (m f i)) := by
      rw [child_eq h.lt, if_pos hpresent]
    have hentry : child (t₂.write g' i (setAddress (t₂.mem g' i) r)).mem g' i = some (r / PAGE_SIZE) := by
      rw [child_eq h.lt, write_at, hext.frame g' hg, write_at, present_setAddress, hagree.present,
        if_pos hpresent, frameOf_setAddress, Nat.mod_eq_of_lt hlt]
    rw [hchild, hentry]
    refine .some (hcopy.frame ?_ ?_)
    · rintro b ⟨hfree, hnot⟩
      rw [Machine.write_phys] at hfree
      exact ⟨hfree, by rwa [Machine.write_phys]⟩
    · rintro b ⟨hfree, -⟩
      have hb : b ≠ g' := by
        intro heq
        rw [heq] at hfree
        exact hg hfree
      exact write_other hb _

end Round

section Loop

variable {n : Nat} (hbelow : Clones K free free₀ m S k below)
  (hold : Shows K Γ old f) (hnew : Shows K Γ new g') (hslots : ∀ c ∈ Γ, c.1 ∉ S)
  (hsource : Source K free₀ m (k + 1) f) (hsafe : Safe free free₀ m t₀)
  (h : Filled K free m t₀ t k f g' i) (hn : i + n = 512)
include hbelow hold hnew hslots hsource hsafe h hn

theorem cloneEntries_ends :
    Ends K S Γ (cloneEntries K (entryBits k) below old new n i) t (· = true)
      fun _ t' _ => Filled K free m t₀ t' k f g' 512 := by
  induction n generalizing t i with
  | zero =>
    obtain rfl : i = 512 := hn
    exact (Runs.pure true).ends fun _ _ => h
  | succ n ih =>
    have hround : Round K free free₀ m t₀ t k f g' i := ⟨h, hsource, hsafe, by omega⟩
    unfold cloneEntries
    refine (Runs.load hold hround.lt).seq_ends ((Runs.load hnew hround.lt).seq_ends
      ((Runs.store hnew hround.lt).seq_ends ?_))
    rw [hround.old_eq]
    by_cases hpresent : present (m f i) = true
    · rw [if_pos hpresent]
      have hchild : child m f i = some (frameOf (m f i)) := by
        rw [child_eq hround.lt, if_pos hpresent]
      have hcopies := hbelow _ _ hround.safe_write (hsource.2.2.2.2 i _ hchild) Γ hslots
      refine hcopies.bind ?_ ?_ (fun _ hk => hk) hslots
      · rintro r t₂ - hr ⟨hext, hlt, hcopy⟩
        rw [if_neg hr]
        refine (Runs.load hnew hround.lt).seq_ends ((Runs.store hnew hround.lt).seq_ends ?_)
        exact ih (hround.copied hpresent hext hlt hcopy) (by omega)
      · rintro r s r' s' hr hrun hok
        have hzero : r = 0 := by_contra hr
        rw [if_pos hzero] at hrun
        cases hrun
        cases hok
    · rw [if_neg hpresent]
      exact ih (hround.skipped hpresent) (by omega)

end Loop

theorem Filled.start {g : Nat} (hext : Extends free t₀ t) (htaken : Own free t₀ t g) (w : Nat) :
    Filled K free m t₀ (t.write g 0 w) k f g 0 := by
  refine ⟨⟨fun b hb => ?_, fun b hb => ?_⟩, ⟨htaken.1, ?_⟩, ?_, ?_, ?_⟩
  · have hne : b ≠ g := fun heq => hb (heq ▸ htaken.1)
    rw [write_other hne, hext.frame b hb]
  · rw [Machine.write_phys] at hb
    exact hext.left b hb
  · rw [Machine.write_phys]
    exact htaken.2
  · intro j hj
    omega
  · intro j hj
    omega
  · intro j j' d d' q q' b hj
    omega

section Level

variable {counter : Counter} {fail : Nat → KernelM P Unit} {newADDR : Nat}
  (hbelow : Clones K free free₀ m S k below) (hsource : Source K free₀ m (k + 1) f)
  (hsafe : Safe free free₀ m t₀)
include hbelow hsource hsafe

theorem cloneTable_ends (hold : Shows K Γ old f) (hnew : Shows K Γ new (newADDR / PAGE_SIZE))
    (hslots : ∀ c ∈ Γ, c.1 ∉ S) (hext : Extends free t₀ t)
    (htaken : Own free t₀ t (newADDR / PAGE_SIZE)) (hlt : newADDR / PAGE_SIZE < 2^40) :
    Ends K S Γ (cloneTable K (entryBits k) counter below fail old new newADDR) t (· ≠ 0)
      fun r t' _ => r = newADDR ∧ Extends free t₀ t' ∧ r / PAGE_SIZE < 2^40 ∧
        CopyOf K m t'.mem (Own free t₀ t') (k + 1) f (r / PAGE_SIZE) := by
  unfold cloneTable
  refine (Runs.load hold (by decide)).seq_ends ((Runs.load hnew (by decide)).seq_ends
    ((Runs.store hnew (by decide)).seq_ends ?_))
  have hstart := Filled.start (K := K) (k := k) (f := f) (m := m) hext htaken
    (counter.set (t.mem (newADDR / PAGE_SIZE) 0) (counter.get (t.mem f 0)))
  refine (cloneEntries_ends hbelow hold hnew hslots hsource hsafe hstart (by omega)).bind ?_ ?_
    (fun _ hk => hk) hslots
  · rintro _ t' - rfl hfilled
    rw [if_pos rfl]
    exact (Runs.pure newADDR).ends fun _ _ => ⟨rfl, hfilled.ext, hlt, hfilled.copyOf⟩
  · rintro b s r s' hb hrun hok
    rw [if_neg hb] at hrun
    obtain ⟨x, -, hx⟩ := bind_eq_some_iff.mp hrun
    cases hx
    exact hok rfl

end Level

theorem Source.mappable (h : Source K free₀ m (k + 1) f) : Mappable K (f * PAGE_SIZE) :=
  .frame h.1 h.2.1 h.2.2.1

theorem Pool.cleared {newADDR : Nat} {phys : P} (hA : Pool K A free)
    (ha : A.allocPhysPage t.phys = some (newADDR, phys)) (ha0 : newADDR ≠ 0) :
    Extends free t (({ t with phys := phys } : Machine P).zero (newADDR / PAGE_SIZE)) ∧
      Own free t (({ t with phys := phys } : Machine P).zero (newADDR / PAGE_SIZE)) (newADDR / PAGE_SIZE) := by
  have hfree : free t.phys (newADDR / PAGE_SIZE) := hA.taken _ _ _ ha ha0
  refine ⟨⟨fun b hb => ?_, fun b hb => (hA.left _ _ _ b ha hb).1⟩, hfree,
    fun h => (hA.left _ _ _ _ ha h).2 rfl⟩
  have hne : b ≠ newADDR / PAGE_SIZE := fun heq => hb (by rw [heq]; exact hfree)
  funext j
  simp [Machine.zero, hne]

theorem tableClone_clones (hA : Pool K A free) (hbelow : Clones K free free₀ m S k below) (hslot : slot < 10)
    (hslotC : slotC < 10) (hne : slotC ≠ slot) (hS : slot ∉ S) (hSC : slotC ∉ S) :
    Clones K free free₀ m (slotC :: slot :: S) (k + 1)
      (tableClone K A slot slotC (entryBits k) counter below fail) := by
  intro t f hsafe hsource Γ hslots
  obtain ⟨a, phys, ha⟩ := hA.total t.phys
  unfold tableClone
  refine (Runs.allocPhysPage ha).seq_ends ?_
  by_cases ha0 : a = 0
  · rw [if_pos ha0]
    exact (Runs.ret 0).ends fun h => absurd rfl h
  · rw [if_neg ha0]
    have hm := hA.mappable ha ha0
    obtain ⟨hnew, hold⟩ := Shows.pair hslot hslotC hm.ne hsource.2.2.1
    refine (Runs.mapAddr hslotC hsource.mappable).bind_ends [(slotC, f)] ?_ (by simp) (by simp [frame_div])
    refine (Runs.mapAddr hslot hm).bind_ends [(slot, a / PAGE_SIZE), (slotC, f)] ?_ (by simp)
      (by simp [hne])
    refine (Runs.zeroPage hnew).seq_ends ?_
    obtain ⟨hext, htaken⟩ := hA.cleared ha ha0
    refine (cloneTable_ends hbelow hsource hsafe hold hnew ?_ hext htaken hm.lt).weaken ?_ (by simp)
      fun _ _ _ h _ => h.2
    · simp [hS, hSC]
    · intro k hk
      exact mem_cons_of_mem _ (mem_cons_of_mem _ hk)

theorem copyOf_page (h : Good K m m' own 0 f c) : CopyOf K m m' own 0 f c := by
  constructor
  · intro q hq
    obtain rfl : q = [] := length_eq_zero_iff.mp (Nat.le_zero.mp hq)
    exact .some h
  · intro q q' b hq hq' _ _ _
    rw [length_eq_zero_iff.mp (Nat.le_zero.mp hq), length_eq_zero_iff.mp (Nat.le_zero.mp hq')]

theorem pageClone_clones (hA : Pool K A free) :
    Clones K free free₀ m [PAGE_MAPC, PAGE_MAP] 0 (pageClone K A) := by
  intro t f hsafe hsource Γ hslots
  unfold pageClone
  by_cases hshared : f * PAGE_SIZE ≤ K.kernelEnd
  · rw [if_pos hshared]
    refine (Runs.pure _).ends fun _ _ => ⟨Extends.rfl free t, ?_, ?_⟩
    · rw [frame_div]
      exact hsource.1
    · rw [frame_div]
      apply copyOf_page
      rw [Good, if_pos hshared]
  · rw [if_neg hshared]
    obtain ⟨hnot, hpt⟩ := hsource.2 (by omega)
    have hold : Mappable K (f * PAGE_SIZE) := by
      refine .frame ?_ hsource.1 hpt
      rintro rfl
      simp at hshared
    obtain ⟨a, phys, ha⟩ := hA.total t.phys
    refine (Runs.allocPhysPage ha).seq_ends ?_
    by_cases ha0 : a = 0
    · rw [if_pos ha0]
      exact (Runs.ret 0).ends fun h => absurd rfl h
    · rw [if_neg ha0]
      have hm := hA.mappable ha ha0
      have hfree : free t.phys (a / PAGE_SIZE) := hA.taken _ _ _ ha ha0
      obtain ⟨hdst, hsrc⟩ := Shows.pair (show PAGE_MAP < 10 by decide) (show PAGE_MAPC < 10 by decide) hm.ne hpt
      refine (Runs.mapAddr (by decide) hold).bind_ends [(PAGE_MAPC, f)] ?_ (by simp) (by simp [frame_div])
      refine (Runs.mapAddr (by decide) hm).bind_ends [(PAGE_MAP, a / PAGE_SIZE), (PAGE_MAPC, f)] ?_
        (by simp) (by simp [PAGE_MAP, PAGE_MAPC])
      refine (Runs.copyPage hdst hsrc).seq_ends ((Runs.pure a).ends fun _ _ => ⟨⟨?_, ?_⟩, hm.lt, ?_⟩)
      · intro b hb
        have hba : b ≠ a / PAGE_SIZE := fun heq => hb (by rw [heq]; exact hfree)
        funext j
        simp [Machine.copy, hba]
      · intro b hb
        exact (hA.left _ _ _ b ha hb).1
      · apply copyOf_page
        rw [Good, if_neg hshared]
        refine ⟨⟨hfree, fun h => (hA.left _ _ _ _ ha h).2 rfl⟩, ?_⟩
        rw [← hsafe.same f hnot]
        funext j
        simp [Machine.copy]

theorem ptClone_clones (hA : Pool K A free) :
    Clones K free free₀ m [PT_MAPC, PT_MAP, PAGE_MAPC, PAGE_MAP] 1 (ptClone K A) :=
  tableClone_clones hA (pageClone_clones hA) (by decide) (by decide) (by decide) (by decide) (by decide)

theorem pdClone_clones (hA : Pool K A free) : Clones K free free₀ m
    [PD_MAPC, PD_MAP, PT_MAPC, PT_MAP, PAGE_MAPC, PAGE_MAP] 2 (pdClone K A) :=
  tableClone_clones hA (ptClone_clones hA) (by decide) (by decide) (by decide) (by decide) (by decide)

theorem pdptClone_clones (hA : Pool K A free) : Clones K free free₀ m
    [PDPT_MAPC, PDPT_MAP, PD_MAPC, PD_MAP, PT_MAPC, PT_MAP, PAGE_MAPC, PAGE_MAP] 3 (pdptClone K A) :=
  tableClone_clones hA (pdClone_clones hA) (by decide) (by decide) (by decide) (by decide) (by decide)

def allSlots : List Nat := [PML4_MAPC, PML4_MAP, PDPT_MAPC, PDPT_MAP, PD_MAPC, PD_MAP, PT_MAPC, PT_MAP,
  PAGE_MAPC, PAGE_MAP]

theorem root_slots (a f : Nat) : ∀ c ∈ [(PML4_MAP, a), (PML4_MAPC, f)], c.1 ∉
    [PDPT_MAPC, PDPT_MAP, PD_MAPC, PD_MAP, PT_MAPC, PT_MAP, PAGE_MAPC, PAGE_MAP] := by
  intro c hc
  simp only [mem_cons, not_mem_nil, or_false] at hc
  rcases hc with rfl | rfl
  all_goals
    dsimp only
    decide

theorem pml4Clone_ends (hA : Pool K A free) (hsafe : Safe free free₀ m t)
    (hsource : Source K free₀ m 4 (old / PAGE_SIZE)) :
    Ends K allSlots [] (pml4Clone K A old) t (· ≠ 0) fun r t' σ' => Extends free t t' ∧
      Points σ' PML4_MAP (r / PAGE_SIZE) ∧ CopyOf K m t'.mem (Own free t t') 4 (old / PAGE_SIZE) (r / PAGE_SIZE) := by
  obtain ⟨a, phys, ha⟩ := hA.total t.phys
  unfold pml4Clone
  by_cases ha0 : a = 0
  · subst ha0
    refine (pml4Alloc_full ha).seq_ends ?_
    rw [if_pos rfl]
    exact (Runs.ret 0).ends fun h => absurd rfl h
  · have hm := hA.mappable ha ha0
    have hold : Mappable K old := ⟨hsource.1, hsource.2.1, hsource.2.2.1⟩
    refine (pml4Alloc_runs ha ha0 hm).bind_ends [] ?_ (by decide) (by simp)
    rw [if_neg ha0]
    obtain ⟨hdst, hsrc⟩ := Shows.pair (show PML4_MAP < 10 by decide) (show PML4_MAPC < 10 by decide) hm.ne
      hsource.2.2.1
    refine (Runs.mapAddr (by decide) hold).bind_ends [(PML4_MAPC, old / PAGE_SIZE)] ?_ (by decide)
      (by simp)
    refine (Runs.mapAddr (by decide) hm).bind_ends
      [(PML4_MAP, a / PAGE_SIZE), (PML4_MAPC, old / PAGE_SIZE)] ?_ (by decide)
      (by simp [PML4_MAP, PML4_MAPC])
    obtain ⟨hext, htaken⟩ := hA.cleared ha ha0
    have hslots := root_slots (a / PAGE_SIZE) (old / PAGE_SIZE)
    refine (cloneTable_ends (pdptClone_clones hA) hsource hsafe hsrc hdst hslots hext htaken
      hm.lt).weaken (by decide) (fun _ hc => hc) ?_
    rintro r t' σ' ⟨rfl, hext', -, hcopy⟩ hpoints
    have hroot : (PML4_MAP, r / PAGE_SIZE) ∈ [(PML4_MAP, r / PAGE_SIZE), (PML4_MAPC, old / PAGE_SIZE)] :=
      mem_cons_self
    exact ⟨hext', hpoints _ hroot (hslots _ hroot), hcopy⟩

/-! ## Enough memory

A clone succeeds if there are enough pages and physical page 0 is not mapped, whose
address is the null pointer. -/

def needed (K : KernelImage) (m : Mem) : Nat → Nat → Nat
  | 0, f => if f * PAGE_SIZE ≤ K.kernelEnd then 0 else 1
  | k + 1, f => 1 + ∑ i ∈ Finset.range 512, (child m f i).elim 0 (needed K m k)

def NonNull (m : Mem) (k f : Nat) : Prop := ∀ q, q.length = k → follow (child m) f q ≠ some 0

variable {supply : P → Nat} {n n' : Nat}

def Succeeds (K : KernelImage) (supply : P → Nat) (n : Nat) (Γ : List (Nat × Nat)) (op : KernelM P α)
    (t : Machine P) (ok : α → Prop) : Prop :=
  ∀ σ, Ready σ → (∀ c ∈ Γ, Points σ c.1 c.2) → ∃ r s', op (t.withSlots K σ) = some (r, s') ∧ ok r ∧
    supply t.phys ≤ supply s'.phys + n

theorem Runs.succeeds {ok : α → Prop} (h : Runs K S Γ x t a t' Δ) (hok : ok a)
    (hn : supply t.phys ≤ supply t'.phys + n) : Succeeds K supply n Γ x t ok := by
  intro σ hσ hpoints
  obtain ⟨σ', heq, -⟩ := h σ hσ hpoints
  exact ⟨a, _, heq, hok, hn⟩

theorem Runs.bind_succeeds (hx : Runs K S Γ x t a t₁ Δ) (Γ' : List (Nat × Nat))
    (hg : Succeeds K supply n Γ' (g a) t₁ ok) (hΓ : ∀ c ∈ Γ', c ∈ Δ ∨ c ∈ Γ ∧ c.1 ∉ S)
    (hn : supply t.phys + n ≤ supply t₁.phys + n') : Succeeds K supply n' Γ (x >>= g) t ok := by
  intro σ hσ hpoints
  obtain ⟨σ₁, heq, hready₁, hkeep₁, hpost₁⟩ := hx σ hσ hpoints
  have hpoints₁ := points_step hpoints hkeep₁ hpost₁ hΓ
  obtain ⟨r, s', hrun, hok, hle⟩ := hg σ₁ hready₁ hpoints₁
  refine ⟨r, s', ?_, hok, by omega⟩
  change (x (t.withSlots K σ)).bind (fun p => g p.1 p.2) = _
  rw [heq]
  exact hrun

theorem Runs.seq_succeeds (hx : Runs K [] Γ x t a t₁ Δ) (hg : Succeeds K supply n Γ (g a) t₁ ok)
    (hn : t₁.phys = t.phys) : Succeeds K supply n Γ (x >>= g) t ok :=
  hx.bind_succeeds Γ hg (fun _ hc => .inr ⟨hc, not_mem_nil⟩) (by rw [hn])

theorem Succeeds.bind (hx : Succeeds K supply n Γ x t ok₁)
    (hpost : Ends K S Γ x t ok₁ Q₁) (hΓ : ∀ c ∈ Γ, c.1 ∉ S)
    (hg : ∀ a t₁ σ₁, ok₁ a → Q₁ a t₁ σ₁ → supply t.phys ≤ supply t₁.phys + n →
      Succeeds K supply n' Γ (g a) t₁ ok) : Succeeds K supply (n + n') Γ (x >>= g) t ok := by
  intro σ hσ hpoints
  obtain ⟨a, s₁, heq, ha, hle⟩ := hx σ hσ hpoints
  obtain ⟨t₁, σ₁, rfl, hready₁, hkeep₁, hQ⟩ := hpost σ hσ hpoints a s₁ heq ha
  have hpoints₁ := points_kept hpoints hkeep₁ hΓ
  obtain ⟨r, s', hrun, hok, hle'⟩ := hg a t₁ σ₁ ha hQ hle σ₁ hready₁ hpoints₁
  change supply t.phys ≤ supply t₁.phys + n at hle
  refine ⟨r, s', ?_, hok, by omega⟩
  change (x (t.withSlots K σ)).bind (fun p => g p.1 p.2) = _
  rw [heq]
  exact hrun

def Affords (K : KernelImage) (free : P → Nat → Prop) (free₀ : Nat → Prop) (m : Mem) (supply : P → Nat)
    (S : List Nat) (k : Nat) (below : Nat → KernelM P Nat) : Prop :=
  ∀ t f, Safe free free₀ m t → Source K free₀ m k f → NonNull m k f →
    needed K m k f ≤ supply t.phys → ∀ Γ, (∀ c ∈ Γ, c.1 ∉ S) →
    Succeeds K supply (needed K m k f) Γ (below (f * PAGE_SIZE)) t (· ≠ 0)

theorem NonNull.child (h : NonNull m (k + 1) f) (hc : child m f i = some c) : NonNull m k c := by
  intro q hq hzero
  apply h (i :: q)
  · rw [length_cons, hq]
  · rw [follow, hc, bind_some]
    exact hzero

def neededFrom (K : KernelImage) (m : Mem) (k f i : Nat) : Nat :=
  ∑ j ∈ Finset.Ico i 512, (child m f j).elim 0 (needed K m k)

theorem neededFrom_step (hi : i < 512) :
    neededFrom K m k f i = (child m f i).elim 0 (needed K m k) + neededFrom K m k f (i + 1) :=
  Finset.sum_eq_sum_Ico_succ_bot hi _

section Afford

variable {n : Nat} (hbelow : Clones K free free₀ m S k below)
  (hafford : Affords K free free₀ m supply S k below)
  (hold : Shows K Γ old f) (hnew : Shows K Γ new g') (hslots : ∀ c ∈ Γ, c.1 ∉ S)
  (hsource : Source K free₀ m (k + 1) f) (hnull : NonNull m (k + 1) f) (hsafe : Safe free free₀ m t₀)
  (h : Filled K free m t₀ t k f g' i) (hn : i + n = 512)
include hbelow hafford hold hnew hslots hsource hnull hsafe h hn

theorem cloneEntries_succeeds (hsupply : neededFrom K m k f i ≤ supply t.phys) :
    Succeeds K supply (neededFrom K m k f i) Γ (cloneEntries K (entryBits k) below old new n i) t
      (· = true) := by
  induction n generalizing t i with
  | zero => exact (Runs.pure (S := []) true).succeeds rfl (by omega)
  | succ n ih =>
    have hround : Round K free free₀ m t₀ t k f g' i := ⟨h, hsource, hsafe, by omega⟩
    have hphys : (t.write g' i hround.entry).phys = t.phys := Machine.write_phys _ _ _ _
    rw [neededFrom_step hround.lt] at hsupply ⊢
    unfold cloneEntries
    refine (Runs.load hold hround.lt).seq_succeeds ((Runs.load hnew hround.lt).seq_succeeds
      ((Runs.store hnew hround.lt).seq_succeeds ?_ (Machine.write_phys _ _ _ _)) rfl) rfl
    rw [hround.old_eq]
    by_cases hpresent : present (m f i) = true
    · rw [if_pos hpresent]
      have hchild : child m f i = some (frameOf (m f i)) := by
        rw [child_eq hround.lt, if_pos hpresent]
      rw [hchild, elim_some] at hsupply ⊢
      have hcopies := hbelow _ _ hround.safe_write (hsource.2.2.2.2 i _ hchild) Γ hslots
      have hwins := hafford _ _ hround.safe_write (hsource.2.2.2.2 i _ hchild) (hnull.child hchild)
        (by rw [hphys]; omega) Γ hslots
      refine hwins.bind hcopies hslots ?_
      rintro r t₂ - hr ⟨hext, hlt, hcopy⟩ hle
      rw [if_neg hr]
      refine (Runs.load hnew hround.lt).seq_succeeds ((Runs.store hnew hround.lt).seq_succeeds ?_
        (Machine.write_phys _ _ _ _)) rfl
      refine ih (hround.copied hpresent hext hlt hcopy) (by omega) ?_
      rw [Machine.write_phys]
      rw [hphys] at hle
      omega
    · have hchild : child m f i = none := by
        rw [child_eq hround.lt, if_neg hpresent]
      rw [if_neg hpresent]
      rw [hchild, elim_none, zero_add] at hsupply ⊢
      exact ih (hround.skipped hpresent) (by omega) (by rw [Machine.write_phys]; exact hsupply)

end Afford

section Afford

variable {counter : Counter} {fail : Nat → KernelM P Unit} {newADDR : Nat}
  (hbelow : Clones K free free₀ m S k below) (hafford : Affords K free free₀ m supply S k below)
  (hsource : Source K free₀ m (k + 1) f) (hnull : NonNull m (k + 1) f) (hsafe : Safe free free₀ m t₀)
include hbelow hafford hsource hnull hsafe

theorem cloneTable_succeeds (hold : Shows K Γ old f) (hnew : Shows K Γ new (newADDR / PAGE_SIZE))
    (hslots : ∀ c ∈ Γ, c.1 ∉ S) (hext : Extends free t₀ t)
    (htaken : Own free t₀ t (newADDR / PAGE_SIZE)) (hne : newADDR ≠ 0)
    (hsupply : neededFrom K m k f 0 ≤ supply t.phys) :
    Succeeds K supply (neededFrom K m k f 0) Γ
      (cloneTable K (entryBits k) counter below fail old new newADDR) t (· ≠ 0) := by
  have hstart := Filled.start (K := K) (k := k) (f := f) (m := m) hext htaken
    (counter.set (t.mem (newADDR / PAGE_SIZE) 0) (counter.get (t.mem f 0)))
  unfold cloneTable
  refine (Runs.load hold (by decide)).seq_succeeds ((Runs.load hnew (by decide)).seq_succeeds
    ((Runs.store hnew (by decide)).seq_succeeds ?_ (Machine.write_phys _ _ _ _)) rfl) rfl
  have hloop := cloneEntries_ends (n := 512) hbelow hold hnew hslots hsource hsafe hstart (by omega)
  have hwins := cloneEntries_succeeds (n := 512) hbelow hafford hold hnew hslots hsource hnull hsafe hstart
    (by omega) (by rw [Machine.write_phys]; exact hsupply)
  rw [← add_zero (neededFrom K m k f 0)]
  refine hwins.bind hloop hslots ?_
  rintro _ t' - rfl - -
  rw [if_pos rfl]
  exact (Runs.pure (S := []) newADDR).succeeds hne le_rfl

end Afford

theorem needed_succ : needed K m (k + 1) f = 1 + neededFrom K m k f 0 := by
  rw [needed, neededFrom, Finset.range_eq_Ico]

theorem tableClone_affords (hA : Pool K A free) (hsup : Supply A supply) (hbelow : Clones K free free₀ m S k below)
    (hafford : Affords K free free₀ m supply S k below) (hslot : slot < 10) (hslotC : slotC < 10)
    (hne : slotC ≠ slot) (hS : slot ∉ S) (hSC : slotC ∉ S) :
    Affords K free free₀ m supply (slotC :: slot :: S) (k + 1)
      (tableClone K A slot slotC (entryBits k) counter below fail) := by
  intro t f hsafe hsource hnull hneeded Γ hslots
  rw [needed_succ] at hneeded ⊢
  obtain ⟨a, phys, ha⟩ := hA.total t.phys
  obtain ⟨ha0, hle⟩ := hsup _ _ _ ha (by omega)
  have hm := hA.mappable ha ha0
  obtain ⟨hnew, hold⟩ := Shows.pair hslot hslotC hm.ne hsource.2.2.1
  obtain ⟨hext, htaken⟩ := hA.cleared ha ha0
  unfold tableClone
  refine (Runs.allocPhysPage ha).bind_succeeds [] ?_ (by simp)
    (show supply t.phys + neededFrom K m k f 0 ≤ supply phys + (1 + neededFrom K m k f 0) by omega)
  rw [if_neg ha0]
  refine (Runs.mapAddr hslotC hsource.mappable).bind_succeeds [(slotC, f)] ?_ (by simp [frame_div]) le_rfl
  refine (Runs.mapAddr hslot hm).bind_succeeds [(slot, a / PAGE_SIZE), (slotC, f)] ?_ (by simp [hne])
    le_rfl
  refine (Runs.zeroPage hnew).seq_succeeds ?_ rfl
  refine cloneTable_succeeds hbelow hafford hsource hnull hsafe hold hnew ?_ hext htaken ha0 ?_
  · simp [hS, hSC]
  · change neededFrom K m k f 0 ≤ supply phys
    omega

theorem pageClone_affords (hA : Pool K A free) (hsup : Supply A supply) :
    Affords K free free₀ m supply [PAGE_MAPC, PAGE_MAP] 0 (pageClone K A) := by
  intro t f hsafe hsource hnull hneeded Γ hslots
  have hpos : f ≠ 0 := by
    rintro rfl
    exact hnull [] rfl rfl
  unfold pageClone
  by_cases hshared : f * PAGE_SIZE ≤ K.kernelEnd
  · rw [if_pos hshared]
    exact (Runs.pure (S := []) _).succeeds (mul_ne_zero hpos (by decide)) (by omega)
  · rw [needed, if_neg hshared] at hneeded ⊢
    rw [if_neg hshared]
    obtain ⟨-, hpt⟩ := hsource.2 (by omega)
    obtain ⟨a, phys, ha⟩ := hA.total t.phys
    obtain ⟨ha0, hle⟩ := hsup _ _ _ ha (by omega)
    have hm := hA.mappable ha ha0
    obtain ⟨hdst, hsrc⟩ := Shows.pair (show PAGE_MAP < 10 by decide) (show PAGE_MAPC < 10 by decide) hm.ne hpt
    refine (Runs.allocPhysPage ha).bind_succeeds [] ?_ (by simp)
      (show supply t.phys + 0 ≤ supply phys + 1 by omega)
    rw [if_neg ha0]
    refine (Runs.mapAddr (by decide) (.frame hpos hsource.1 hpt)).bind_succeeds [(PAGE_MAPC, f)] ?_ (by simp [frame_div]) le_rfl
    refine (Runs.mapAddr (by decide) hm).bind_succeeds [(PAGE_MAP, a / PAGE_SIZE), (PAGE_MAPC, f)] ?_
      (by simp [PAGE_MAP, PAGE_MAPC]) le_rfl
    refine (Runs.copyPage hdst hsrc).seq_succeeds ?_ rfl
    exact (Runs.pure (S := []) a).succeeds ha0 le_rfl

section Levels

variable (hA : Pool K A free) (hsup : Supply A supply)
include hA hsup

theorem ptClone_affords :
    Affords K free free₀ m supply [PT_MAPC, PT_MAP, PAGE_MAPC, PAGE_MAP] 1 (ptClone K A) :=
  tableClone_affords hA hsup (pageClone_clones hA) (pageClone_affords hA hsup) (by decide) (by decide)
    (by decide) (by decide) (by decide)

theorem pdClone_affords : Affords K free free₀ m supply
    [PD_MAPC, PD_MAP, PT_MAPC, PT_MAP, PAGE_MAPC, PAGE_MAP] 2 (pdClone K A) :=
  tableClone_affords hA hsup (ptClone_clones hA) (ptClone_affords hA hsup) (by decide) (by decide)
    (by decide) (by decide) (by decide)

theorem pdptClone_affords : Affords K free free₀ m supply
    [PDPT_MAPC, PDPT_MAP, PD_MAPC, PD_MAP, PT_MAPC, PT_MAP, PAGE_MAPC, PAGE_MAP] 3 (pdptClone K A) :=
  tableClone_affords hA hsup (pdClone_clones hA) (pdClone_affords hA hsup) (by decide) (by decide)
    (by decide) (by decide) (by decide)

theorem pml4Clone_succeeds (hsafe : Safe free free₀ m t) (hsource : Source K free₀ m 4 (old / PAGE_SIZE))
    (hnull : NonNull m 4 (old / PAGE_SIZE)) (hneeded : needed K m 4 (old / PAGE_SIZE) ≤ supply t.phys) :
    Succeeds K supply (needed K m 4 (old / PAGE_SIZE)) [] (pml4Clone K A old) t (· ≠ 0) := by
  rw [needed_succ] at hneeded ⊢
  obtain ⟨a, phys, ha⟩ := hA.total t.phys
  obtain ⟨ha0, hle⟩ := hsup _ _ _ ha (by omega)
  have hold : Mappable K old := ⟨hsource.1, hsource.2.1, hsource.2.2.1⟩
  have hm := hA.mappable ha ha0
  obtain ⟨hext, htaken⟩ := hA.cleared ha ha0
  obtain ⟨hdst, hsrc⟩ := Shows.pair (show PML4_MAP < 10 by decide) (show PML4_MAPC < 10 by decide) hm.ne
    hsource.2.2.1
  unfold pml4Clone
  refine (pml4Alloc_runs ha ha0 hm).bind_succeeds [] ?_ (by simp)
    (show supply t.phys + neededFrom K m 3 (old / PAGE_SIZE) 0 ≤
      supply phys + (1 + neededFrom K m 3 (old / PAGE_SIZE) 0) by omega)
  rw [if_neg ha0]
  refine (Runs.mapAddr (by decide) hold).bind_succeeds [(PML4_MAPC, old / PAGE_SIZE)] ?_ (by simp) le_rfl
  refine (Runs.mapAddr (by decide) hm).bind_succeeds
    [(PML4_MAP, a / PAGE_SIZE), (PML4_MAPC, old / PAGE_SIZE)] ?_ (by simp [PML4_MAP, PML4_MAPC]) le_rfl
  refine cloneTable_succeeds (pdptClone_clones hA) (pdptClone_affords hA hsup) hsource hnull hsafe hsrc hdst
    (root_slots _ _) hext htaken ha0 ?_
  change neededFrom K m 3 (old / PAGE_SIZE) 0 ≤ supply phys
  omega

end Levels

theorem Directory.source (hd : Directory free₀ m c) (hpt : ∀ f, Node (child m) 4 c f → f ≠ K.pagingPt)
    (hpages : ∀ q f, q.length = 4 → follow (child m) c q = some f → ¬ free₀ f)
    (himage : K.pagingPt * PAGE_SIZE ≤ K.kernelEnd) (hq : q.length + k = 4)
    (hf : follow (child m) c q = some f) : Source K free₀ m k f := by
  induction k generalizing q f with
  | zero =>
    refine ⟨follow_lt hd.root hf, fun habove => ⟨hpages q f hq hf, ?_⟩⟩
    rintro rfl
    omega
  | succ k ih =>
    have hnode : Node (child m) 4 c f := ⟨q, by omega, hf⟩
    refine ⟨(hd.table f hnode).1, hd.node_lt hnode, hpt f hnode, (hd.table f hnode).2, ?_⟩
    intro i d hd'
    refine ih (q := q ++ [i]) ?_ ?_
    · rw [length_append, length_singleton]
      omega
    · rw [follow_snoc, hf, bind_some, hd']

/-- `pgdir_clone` copies the directory and its pages above the kernel image. -/
theorem pgdirClone_copies {s' : Machine P} (hA : Pool K A free)
    (habove : ∀ s f, free s f → K.kernelEnd < f * PAGE_SIZE)
    (himage : K.pagingPt * PAGE_SIZE ≤ K.kernelEnd)
    (hd : Directory (free s.phys) s.mem (old / PAGE_SIZE))
    (hpt : ∀ f, Node (child s.mem) 4 (old / PAGE_SIZE) f → f ≠ K.pagingPt)
    (hpages : ∀ v f, translate s.mem old v = some f → ¬ free s.phys f)
    (hready : Ready (s.mem K.pagingPt)) (hrun : pgdirClone K A old s = some (new, s')) (hnew : new ≠ 0) :
    (∀ v, (translate s'.mem new v).isSome = (translate s.mem old v).isSome) ∧
    (∀ v p, translate s.mem old v = some p → p * PAGE_SIZE ≤ K.kernelEnd →
      translate s'.mem new v = some p) ∧
    (∀ v p, translate s.mem old v = some p → K.kernelEnd < p * PAGE_SIZE →
      ∃ p', translate s'.mem new v = some p' ∧ free s.phys p' ∧ ¬ free s'.phys p' ∧
        s'.mem p' = s.mem p) ∧
    (∀ v v' p p', v < 2^48 → v' < 2^48 → translate s.mem old v = some p →
      translate s.mem old v' = some p' → K.kernelEnd < p * PAGE_SIZE → K.kernelEnd < p' * PAGE_SIZE →
      translate s'.mem new v = translate s'.mem new v' → v / PAGE_SIZE = v' / PAGE_SIZE) ∧
    (∀ q f f' i, q.length < 4 → follow (child s.mem) (old / PAGE_SIZE) q = some f →
      follow (child s'.mem) (new / PAGE_SIZE) q = some f' → i < 512 →
      Agree (entryBits (3 - q.length)) (s.mem f i) (s'.mem f' i)) ∧
    (∀ v, translate s'.mem old v = translate s.mem old v) ∧
    ∀ f, f ≠ K.pagingPt → ¬ free s.phys f → s'.mem f = s.mem f := by
  have hpaths : ∀ q f, q.length = 4 → follow (child s.mem) (old / PAGE_SIZE) q = some f →
      ¬ free s.phys f := by
    intro q f hq hf
    obtain ⟨v, -, rfl⟩ := exists_pathOf hq hf
    exact hpages v f hf
  have hsource : Source K (free s.phys) s.mem 4 (old / PAGE_SIZE) :=
    hd.source hpt hpaths himage (q := []) rfl rfl
  have hsafe : Safe free (free s.phys) s.mem s := ⟨fun _ h => h, fun _ _ => rfl⟩
  have hclone : pml4Clone K A old (s.withSlots K (s.mem K.pagingPt)) = some (new, s') := by
    rw [Machine.withSlots_self]
    exact hrun
  obtain ⟨t', σ', rfl, -, -, hext, -, hcopy⟩ :=
    pml4Clone_ends hA hsafe hsource _ hready (by simp) new s' hclone hnew
  have hown : ∀ b, Own free s t' b → (t'.withSlots K σ').mem b = t'.mem b := by
    intro b hb
    exact Machine.withSlots_mem_ne (hA.usable _ b hb.1).2.2
  replace hcopy := hcopy.frame (fun _ hb => hb) hown
  have hkept : ∀ f, f ≠ K.pagingPt → ¬ free s.phys f → (t'.withSlots K σ').mem f = s.mem f := by
    intro f hne hf
    rw [Machine.withSlots_mem_ne hne, hext.frame f hf]
  have hpage : ∀ v p, translate s.mem old v = some p → ∃ p', translate (t'.withSlots K σ').mem new v = some p' ∧
      Good K s.mem (t'.withSlots K σ').mem (Own free s t') 0 p p' := by
    intro v p hp
    have hrel := hcopy.same (pathOf v) le_rfl
    change follow (child s.mem) (old / PAGE_SIZE) (pathOf v) = some p at hp
    rw [hp] at hrel
    exact relSome_left hrel
  refine ⟨?_, ?_, ?_, ?_, ?_, ?_, hkept⟩
  · intro v
    exact rel_isSome (hcopy.same (pathOf v) le_rfl)
  · intro v p hp hshared
    obtain ⟨p', hp', hgood⟩ := hpage v p hp
    rw [Good, if_pos hshared] at hgood
    rw [hp', hgood]
  · intro v p hp hlt
    obtain ⟨p', hp', hgood⟩ := hpage v p hp
    rw [Good, if_neg (by omega)] at hgood
    exact ⟨p', hp', hgood.1.1, hgood.1.2, hgood.2⟩
  · intro v v' p p' hv hv' hp hp' hlt hlt' heq
    obtain ⟨b, hb, hgood⟩ := hpage v p hp
    rw [Good, if_neg (by omega)] at hgood
    rw [hb] at heq
    exact (pathOf_eq_iff hv hv').mp
      (hcopy.one _ _ b le_rfl le_rfl hb heq.symm (habove _ b hgood.1.1))
  · intro q f f' i hq hf hf' hi
    have hrel := hcopy.same q hq.le
    rw [hf, hf'] at hrel
    obtain ⟨b, hb, hgood⟩ := relSome_left hrel
    cases hb
    have hlevel : 4 - q.length = 3 - q.length + 1 := by omega
    rw [hlevel] at hgood
    exact hgood.2 i hi
  · intro v
    apply follow_eq_of_nodes (n := 4) _ le_rfl
    intro f i hf
    unfold child
    rw [hkept f (hpt f hf) (hd.table f hf).2]

theorem needed_le (K : KernelImage) (m : Mem) (k f : Nat) : needed K m k f ≤ 513^k := by
  induction k generalizing f with
  | zero =>
    rw [needed]
    split_ifs <;> simp
  | succ k ih =>
    have hterm : ∀ i ∈ Finset.range 512, (child m f i).elim 0 (needed K m k) ≤ 513^k := by
      intro i _
      cases child m f i with
      | none => exact Nat.zero_le _
      | some c => exact ih c
    have hsum := Finset.sum_le_card_nsmul _ _ _ hterm
    rw [Finset.card_range, smul_eq_mul] at hsum
    have hpos : 1 ≤ 513^k := Nat.one_le_pow _ _ (by decide)
    calc needed K m (k + 1) f = 1 + ∑ i ∈ Finset.range 512, (child m f i).elim 0 (needed K m k) := rfl
      _ ≤ 513^k + 512 * 513^k := Nat.add_le_add hpos hsum
      _ = 513^(k + 1) := by ring

def imageTables : Mem := fun f i =>
  if f = 2 ∧ i = 0 then 0x3003 else if f = 3 ∧ i = 0 then 0x4003 else if f = 4 ∧ i = 0 then 0x5003
  else if f = 5 ∧ i = 1 then 0x1003 else 0

theorem imageTables_child (f i : Nat) : child imageTables f i =
    if f = 2 ∧ i = 0 then some 3 else if f = 3 ∧ i = 0 then some 4 else if f = 4 ∧ i = 0 then some 5
    else if f = 5 ∧ i = 1 then some 1 else none := by
  split_ifs with h₁ h₂ h₃ h₄
  · obtain ⟨rfl, rfl⟩ := h₁
    decide
  · obtain ⟨rfl, rfl⟩ := h₂
    decide
  · obtain ⟨rfl, rfl⟩ := h₃
    decide
  · obtain ⟨rfl, rfl⟩ := h₄
    decide
  · simp [child, imageTables, h₁, h₂, h₃, h₄]

theorem imageTables_follow (h : follow (child imageTables) 2 q = some f) :
    q.length < 4 ∧ f = 2 + q.length ∨ q.length = 4 ∧ f = 1 := by
  induction q using reverseRecOn generalizing f with
  | nil => exact .inl ⟨by decide, (some.inj h).symm⟩
  | append_singleton q i ih =>
    rw [follow_snoc] at h
    obtain ⟨g, hg, hf⟩ := bind_eq_some_iff.mp h
    rw [imageTables_child] at hf
    rw [length_append, length_singleton]
    rcases ih hg with ⟨hlt, rfl⟩ | ⟨-, rfl⟩
    · split_ifs at hf <;> simp_all <;> omega
    · simp at hf

theorem imageTables_directory :
    Directory (countingFree (smallMachine imageTables).phys) (smallMachine imageTables).mem 2 := by
  refine smallMachine_directory ?_ (by decide) ?_ ?_
  · intro g i
    rw [imageTables_child]
    split_ifs <;> simp
  · intro g g' i i' f h h'
    rw [imageTables_child] at h h'
    split_ifs at h h' <;> simp_all <;> omega
  · intro g i f h
    rw [imageTables_child] at h
    split_ifs at h <;> simp_all <;> omega

theorem imageTables_pages (v f : Nat) (h : translate imageTables 0x2000 v = some f) :
    ¬ countingFree 10 f := by
  rcases imageTables_follow h with ⟨hlt, -⟩ | ⟨-, rfl⟩
  · rw [pathOf_length] at hlt
    omega
  · intro hfree
    have hten := hfree.1
    omega

theorem imageTables_ready : Ready ((smallMachine imageTables).mem smallImage.pagingPt) :=
  fun _ _ hk => absurd (show frameOf 0 = 0 by decide) hk

theorem imageTables_off (f : Nat) (h : Node (child imageTables) 4 2 f) : f ≠ 1 := by
  obtain ⟨q, hq, hf⟩ := h
  rcases imageTables_follow hf with ⟨-, rfl⟩ | ⟨hlen, -⟩ <;> omega

theorem countingFree_above (s f : Nat) (h : countingFree s f) : smallImage.kernelEnd < f * PAGE_SIZE := by
  have hten := h.1
  change 0x9000 < f * 4096
  omega

theorem imageTables_source :
    Source smallImage (countingFree (smallMachine imageTables).phys) imageTables 4 (0x2000 / PAGE_SIZE) := by
  refine imageTables_directory.source imageTables_off ?_ (by decide) (q := []) rfl rfl
  intro q f hq hf
  obtain ⟨v, -, rfl⟩ := exists_pathOf hq hf
  exact imageTables_pages v f hf

theorem imageTables_clone : ∃ new s',
    pgdirClone smallImage countingPages 0x2000 (smallMachine imageTables) = some (new, s') ∧ new ≠ 0 := by
  have hnull : NonNull imageTables 4 (0x2000 / PAGE_SIZE) := by
    intro q hq hzero
    rcases imageTables_follow hzero with ⟨hlt, -⟩ | ⟨-, hone⟩ <;> omega
  have hneeded : needed smallImage imageTables 4 (0x2000 / PAGE_SIZE) ≤
      countingSupply (smallMachine imageTables).phys :=
    (needed_le smallImage imageTables 4 _).trans (by decide)
  obtain ⟨new, s', hrun, hnew, -⟩ := pml4Clone_succeeds (t := smallMachine imageTables) countingPages_pool
    countingPages_supply ⟨fun _ h => h, fun _ _ => rfl⟩ imageTables_source hnull hneeded _ imageTables_ready
    (by simp)
  rw [Machine.withSlots_self] at hrun
  exact ⟨new, s', hrun, hnew⟩

theorem pgdirClone_copies_image : ∃ new s',
    pgdirClone smallImage countingPages 0x2000 (smallMachine imageTables) = some (new, s') ∧
    translate s'.mem new 0x1000 = some 1 := by
  obtain ⟨new, s', hrun, hnew⟩ := imageTables_clone
  obtain ⟨-, hshared, -⟩ := pgdirClone_copies countingPages_pool countingFree_above (by decide)
    imageTables_directory imageTables_off imageTables_pages imageTables_ready hrun hnew
  exact ⟨new, s', hrun, hshared 0x1000 1 (by decide) (by decide)⟩

/-- The page table of the window is a page of the directory, and changes. -/
theorem pgdirClone_moves_window :
    Pool smallImage countingPages countingFree ∧
    (∀ s f, countingFree s f → smallImage.kernelEnd < f * PAGE_SIZE) ∧
    Directory (countingFree (smallMachine imageTables).phys) (smallMachine imageTables).mem 2 ∧
    (∀ v f, translate (smallMachine imageTables).mem 0x2000 v = some f →
      ¬ countingFree (smallMachine imageTables).phys f) ∧
    translate (smallMachine imageTables).mem 0x2000 0x1000 = some smallImage.pagingPt ∧
    ∃ new s', pgdirClone smallImage countingPages 0x2000 (smallMachine imageTables) = some (new, s') ∧
      new ≠ 0 ∧ s'.mem smallImage.pagingPt ≠ (smallMachine imageTables).mem smallImage.pagingPt := by
  obtain ⟨new, s', hrun, hnew⟩ := imageTables_clone
  refine ⟨countingPages_pool, countingFree_above, imageTables_directory, imageTables_pages, by decide, new,
    s', hrun, hnew, ?_⟩
  have hclone : pml4Clone smallImage countingPages 0x2000 ((smallMachine imageTables).withSlots smallImage
      ((smallMachine imageTables).mem smallImage.pagingPt)) = some (new, s') := by
    rw [Machine.withSlots_self]
    exact hrun
  obtain ⟨t', σ', rfl, -, -, -, hslot, -⟩ := pml4Clone_ends countingPages_pool ⟨fun _ h => h, fun _ _ => rfl⟩
    imageTables_source _ imageTables_ready (by simp) new s' hclone hnew
  intro hsame
  have hzero : σ' PML4_MAP = 0 := by
    rw [Machine.withSlots_slots] at hsame
    rw [hsame]
    decide
  have hpresent := hslot.1
  rw [hzero] at hpresent
  cases hpresent

end Comus.Paging
