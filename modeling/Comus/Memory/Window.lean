import Comus.Memory.Paging

/-!
# The window of temporary mappings

The slots of the window are noise: a function maps a table, then reads and writes
it through its slot. `Runs` says what an operation does to the rest of the memory,
whatever the slots hold, which slots it may rewrite, and that it does not fault.
Its rules are those of a small program logic: `Γ` lists the slots whose frame is
known, `S` the slots that may change.
-/

namespace Comus.Paging

open Word BitField Option Function

section Entries

variable {bits e p flags count : Nat}

@[simp] theorem present_setAddress : present (setAddress e p) = present e := by
  rw [present, setAddress, field_setField_below (by decide), present]

@[simp] theorem frameOf_setAddress : frameOf (setAddress e p) = p / PAGE_SIZE % 2^40 := by
  rw [frameOf, setAddress, field_setField]

theorem present_setFlags (hbits : 1 ≤ bits) :
    present (setFlags bits e flags) = decide (flags % 2 = 1) := by
  have hlow : field (setField e 0 bits flags) (0 + 0) 1 = field flags 0 1 :=
    field_setField_within (by omega)
  rw [present, setFlags, hlow, field, pow_zero, Nat.div_one, pow_one]

@[simp] theorem frameOf_setFlags_table : frameOf (setFlags tableFlags e flags) = frameOf e :=
  field_setField_above (by decide)

@[simp] theorem frameOf_setFlags_page : frameOf (setFlags pageFlags e flags) = frameOf e :=
  field_setField_above (by decide)

@[simp] theorem present_setFlags_table :
    present (setFlags tableFlags e flags) = decide (flags % 2 = 1) := present_setFlags (by decide)

@[simp] theorem present_setFlags_page :
    present (setFlags pageFlags e flags) = decide (flags % 2 = 1) := present_setFlags (by decide)

@[simp] theorem present_tableCount : present (tableCount.set e count) = present e := by
  rw [present, tableCount, field_setField_below (by decide), present]

@[simp] theorem frameOf_tableCount : frameOf (tableCount.set e count) = frameOf e :=
  field_setField_below (by decide)

@[simp] theorem present_ptCount : present (ptCount.set e count) = present e := by
  rw [present, ptCount, field_setField_below (by decide), field_setField_below (by decide), present]

@[simp] theorem frameOf_ptCount : frameOf (ptCount.set e count) = frameOf e := by
  rw [frameOf, ptCount, field_setField_below (by decide), field_setField_above (by decide), frameOf]

theorem frameOf_lt (e : Nat) : frameOf e < 2^40 := field_lt e 12 40

@[simp] theorem addressOf_div : addressOf e / PAGE_SIZE = frameOf e :=
  Nat.mul_div_cancel _ (by decide)

theorem frame_div (f : Nat) : f * PAGE_SIZE / PAGE_SIZE = f :=
  Nat.mul_div_cancel f (by decide)

@[simp] theorem present_zero : present 0 = false := by decide

end Entries

variable {P α β : Type} {K : KernelImage} {A : PageAlloc P}

@[simp] theorem Machine.write_mem (s : Machine P) (f i w : Nat) :
    (s.write f i w).mem = fun f' i' => if f' = f ∧ i' = i then w else s.mem f' i' := by
  unfold Machine.write
  split
  case isTrue h =>
    funext f' i'
    by_cases hat : f' = f ∧ i' = i
    · rw [if_pos hat, hat.1, hat.2, h]
    · rw [if_neg hat]
  case isFalse h => rfl

@[simp] theorem Machine.write_phys (s : Machine P) (f i w : Nat) : (s.write f i w).phys = s.phys := by
  unfold Machine.write
  split <;> rfl

@[simp] theorem Machine.write_freed (s : Machine P) (f i w : Nat) :
    (s.write f i w).freed = s.freed := by
  unfold Machine.write
  split <;> rfl

@[simp] theorem Machine.write_strayed (s : Machine P) (f i w : Nat) :
    (s.write f i w).strayed = s.strayed := by
  unfold Machine.write
  split <;> rfl

def Machine.zero (s : Machine P) (f : Nat) : Machine P :=
  { s with mem := fun f' i => if f' = f then 0 else s.mem f' i }

def Machine.copy (s : Machine P) (d f : Nat) : Machine P :=
  { s with mem := fun f' i => if f' = d then s.mem f i else s.mem f' i }

def Machine.withSlots (K : KernelImage) (s : Machine P) (σ : Nat → Nat) : Machine P :=
  { s with mem := update s.mem K.pagingPt σ }

def Points (σ : Nat → Nat) (k f : Nat) : Prop := present (σ k) = true ∧ frameOf (σ k) = f

/-- A slot that is not present has never been used. -/
def Ready (σ : Nat → Nat) : Prop := ∀ k, k < 10 → frameOf (σ k) ≠ 0 → present (σ k) = true

/-- An address that a slot can show: `mapAddr` takes a slot that shows frame zero for unused. -/
structure Mappable (K : KernelImage) (p : Nat) : Prop where
  pos : p / PAGE_SIZE ≠ 0
  lt : p / PAGE_SIZE < 2^40
  ne : p / PAGE_SIZE ≠ K.pagingPt

variable {s t t₁ t₂ : Machine P} {σ : Nat → Nat} {k f i w p : Nat}

theorem Mappable.frame (hpos : f ≠ 0) (hlt : f < 2^40) (hne : f ≠ K.pagingPt) :
    Mappable K (f * PAGE_SIZE) := by
  constructor
  all_goals rwa [frame_div]

theorem Machine.withSlots_self (s : Machine P) : s.withSlots K (s.mem K.pagingPt) = s := by
  unfold withSlots
  rw [update_eq_self]

theorem Machine.withSlots_slots : (s.withSlots K σ).mem K.pagingPt = σ := update_self _ _ _

theorem Machine.withSlots_mem_ne (hf : f ≠ K.pagingPt) : (s.withSlots K σ).mem f = s.mem f :=
  update_of_ne hf _ _

theorem windowFrame_eq (hk : k < 512) (h : Points σ k f) :
    windowFrame K (s.withSlots K σ).mem k = some f := by
  unfold windowFrame
  rw [if_pos hk, Machine.withSlots_slots, if_pos h.1, h.2]

theorem Machine.withSlots_write (hf : f ≠ K.pagingPt) :
    (s.withSlots K σ).write f i w = (s.write f i w).withSlots K σ := by
  ext1
  · rw [Machine.write_mem]
    funext f' i'
    by_cases hf' : f' = K.pagingPt
    · subst hf'
      rw [if_neg fun h => hf h.1.symm]
      simp [withSlots]
    · simp [withSlots, hf']
  · simp [withSlots]
  · simp [withSlots]
  · simp [withSlots]

theorem mapAddr_slots (hk : k < 10) (hσ : Ready σ) :
    ∃ σ', mapAddr K p k (t.withSlots K σ) = some (k, t.withSlots K σ') ∧ Ready σ' ∧
      frameOf (σ' k) = p / PAGE_SIZE % 2^40 ∧ ∀ j, j ≠ k → σ' j = σ j := by
  unfold mapAddr
  rw [if_pos (by omega)]
  dsimp only
  rw [Machine.withSlots_slots]
  by_cases hsame : p / PAGE_SIZE = frameOf (σ k)
  · rw [if_pos hsame]
    have hlt := frameOf_lt (σ k)
    exact ⟨σ, rfl, hσ, by rw [hsame, Nat.mod_eq_of_lt hlt], fun _ _ => rfl⟩
  · rw [if_neg hsame]
    generalize he : setFlags pageFlags (setAddress (σ k) p) (F_PRESENT ||| F_WRITEABLE) = e
    have hpresent : present e = true := by
      rw [← he, present_setFlags_page]
      decide
    have hframe : frameOf e = p / PAGE_SIZE % 2^40 := by
      rw [← he, frameOf_setFlags_page, frameOf_setAddress]
    refine ⟨update σ k e, ?_, ?_, ?_, ?_⟩
    · congr 2
      ext1
      · rw [Machine.write_mem]
        funext f' i'
        by_cases hf' : f' = K.pagingPt
        · subst hf'
          by_cases hi : i' = k <;> simp [Machine.withSlots, hi]
        · simp [Machine.withSlots, hf']
      · simp [Machine.withSlots]
      · simp [Machine.withSlots]
      · simp [Machine.withSlots]
    · intro j hj hne
      by_cases hjk : j = k
      · rw [hjk, update_self]
        exact hpresent
      · rw [update_of_ne hjk] at hne ⊢
        exact hσ j hj hne
    · rw [update_self]
      exact hframe
    · intro j hj
      exact update_of_ne hj _ _

theorem mapAddr_eq (hk : k < 10) (hp : Mappable K p) (hσ : Ready σ) :
    ∃ σ', mapAddr K p k (t.withSlots K σ) = some (k, t.withSlots K σ') ∧ Ready σ' ∧
      Points σ' k (p / PAGE_SIZE) ∧ ∀ j, j ≠ k → σ' j = σ j := by
  obtain ⟨σ', hrun, hσ', hframe, hkeep⟩ := mapAddr_slots (K := K) (p := p) (t := t) hk hσ
  rw [Nat.mod_eq_of_lt hp.lt] at hframe
  exact ⟨σ', hrun, hσ', ⟨hσ' k hk (hframe ▸ hp.pos), hframe⟩, hkeep⟩

/-- From `t` and any slots that are as `Γ` says, the operation ends with `r` in `t'`.
It rewrites no slot outside `S`, and the slots are then as `Δ` says. -/
def Runs (K : KernelImage) (S : List Nat) (Γ : List (Nat × Nat)) (op : KernelM P α)
    (t : Machine P) (r : α) (t' : Machine P) (Δ : List (Nat × Nat)) : Prop :=
  ∀ σ, Ready σ → (∀ c ∈ Γ, Points σ c.1 c.2) →
    ∃ σ', op (t.withSlots K σ) = some (r, t'.withSlots K σ') ∧ Ready σ' ∧
      (∀ k, k ∉ S → σ' k = σ k) ∧ ∀ c ∈ Δ, Points σ' c.1 c.2

variable {S T : List Nat} {Γ Γ' Δ Δ' : List (Nat × Nat)} {x : KernelM P α} {g : α → KernelM P β}
  {a : α} {r : β}

theorem points_step {σ₁ : Nat → Nat} (hpoints : ∀ c ∈ Γ, Points σ c.1 c.2)
    (hkeep : ∀ k, k ∉ S → σ₁ k = σ k) (hpost : ∀ c ∈ Δ, Points σ₁ c.1 c.2)
    (hΓ : ∀ c ∈ Γ', c ∈ Δ ∨ c ∈ Γ ∧ c.1 ∉ S) : ∀ c ∈ Γ', Points σ₁ c.1 c.2 := by
  intro c hc
  rcases hΓ c hc with hc | ⟨hc, hfree⟩
  · exact hpost c hc
  · unfold Points
    rw [hkeep c.1 hfree]
    exact hpoints c hc

theorem Runs.pure (a : α) : Runs K S Γ (pure a) t a t Γ := fun σ hσ hpoints =>
  ⟨σ, rfl, hσ, fun _ _ => rfl, hpoints⟩

theorem Runs.ret (a : α) : Runs K S Γ (Pure.pure a) t a t [] := fun σ hσ _ =>
  ⟨σ, rfl, hσ, fun _ _ => rfl, by simp⟩

theorem Runs.weaken (h : Runs K S Γ x t a t₁ Δ) (hS : ∀ k ∈ S, k ∈ T) (hΓ : ∀ c ∈ Γ, c ∈ Γ')
    (hΔ : ∀ c ∈ Δ', c ∈ Δ ∨ c ∈ Γ' ∧ c.1 ∉ S) : Runs K T Γ' x t a t₁ Δ' := by
  intro σ hσ hpoints
  obtain ⟨σ', hrun, hready, hkeep, hpost⟩ := h σ hσ fun c hc => hpoints c (hΓ c hc)
  exact ⟨σ', hrun, hready, fun k hk => hkeep k fun hkS => hk (hS k hkS),
    points_step hpoints hkeep hpost hΔ⟩

/-- The second operation may rely on what the first one says about the slots and on
the slots that the first one does not rewrite. -/
theorem Runs.bind (hx : Runs K S Γ x t a t₁ Δ) (Γ' : List (Nat × Nat))
    (hg : Runs K T Γ' (g a) t₁ r t₂ Δ') (hS : ∀ k ∈ S, k ∈ T)
    (hΓ : ∀ c ∈ Γ', c ∈ Δ ∨ c ∈ Γ ∧ c.1 ∉ S) : Runs K T Γ (x >>= g) t r t₂ Δ' := by
  intro σ hσ hpoints
  obtain ⟨σ₁, hrun₁, hready₁, hkeep₁, hpost₁⟩ := hx σ hσ hpoints
  have hpoints₁ := points_step hpoints hkeep₁ hpost₁ hΓ
  obtain ⟨σ₂, hrun₂, hready₂, hkeep₂, hpost₂⟩ := hg σ₁ hready₁ hpoints₁
  refine ⟨σ₂, ?_, hready₂, ?_, hpost₂⟩
  · change (x (t.withSlots K σ)).bind (fun p => g p.1 p.2) = _
    rw [hrun₁]
    exact hrun₂
  · intro k hk
    rw [hkeep₂ k hk, hkeep₁ k fun hkS => hk (hS k hkS)]

section Descend

variable {x : KernelM P Nat} {g : Nat → KernelM P (Option Nat)} {r : Option Nat} {a : Nat}
  (hx : Runs K S Γ x t a t₁ Δ) (hS : ∀ k ∈ S, k ∈ T)
include hx hS

theorem Runs.stop (ha : a = 0) :
    Runs K T Γ (x >>= fun a => if a = 0 then Pure.pure none else g a) t none t₁ [] := by
  refine hx.bind [] ?_ hS (by simp)
  rw [if_pos ha]
  exact .ret _

theorem Runs.onward (ha : a ≠ 0) (hg : Runs K T [] (g a) t₁ r t₂ Δ') :
    Runs K T Γ (x >>= fun a => if a = 0 then Pure.pure none else g a) t r t₂ Δ' := by
  refine hx.bind [] ?_ hS (by simp)
  rwa [if_neg ha]

end Descend

theorem Runs.seq (hx : Runs K [] Γ x t a t₁ Δ) (hg : Runs K S Γ (g a) t₁ r t₂ Δ') :
    Runs K S Γ (x >>= g) t r t₂ Δ' :=
  hx.bind Γ hg (by simp) fun _ hc => .inr ⟨hc, List.not_mem_nil⟩

theorem Runs.mapAddr (hk : k < 10) (hp : Mappable K p) :
    Runs K [k] Γ (mapAddr K p k) t k t [(k, p / PAGE_SIZE)] := by
  intro σ hσ _
  obtain ⟨σ', hrun, hready, hat, hkeep⟩ := mapAddr_eq (t := t) hk hp hσ
  exact ⟨σ', hrun, hready, fun j hj => hkeep j (by simpa using hj), by simpa using hat⟩

structure Shows (K : KernelImage) (Γ : List (Nat × Nat)) (k f : Nat) : Prop where
  slot : k < 512
  known : (k, f) ∈ Γ
  ne : f ≠ K.pagingPt

theorem Shows.pair {k' d : Nat} (hk : k < 10) (hk' : k' < 10) (hd : d ≠ K.pagingPt) (hf : f ≠ K.pagingPt) :
    Shows K [(k, d), (k', f)] k d ∧ Shows K [(k, d), (k', f)] k' f :=
  ⟨⟨by omega, by simp, hd⟩, by omega, by simp, hf⟩

theorem Runs.load (h : Shows K Γ k f) (hi : i < 512) :
    Runs K [] Γ (load K k i) t (t.mem f i) t Γ := by
  intro σ hσ hpoints
  refine ⟨σ, ?_, hσ, fun _ _ => rfl, hpoints⟩
  unfold Paging.load
  rw [Nat.div_eq_of_lt hi, add_zero, windowFrame_eq h.slot (hpoints _ h.known),
    Nat.mod_eq_of_lt hi, decide_eq_false (by omega), Bool.or_false, map_some,
    Machine.withSlots_mem_ne h.ne]

theorem Runs.store (h : Shows K Γ k f) (hi : i < 512) :
    Runs K [] Γ (store K k i w) t () (t.write f i w) Γ := by
  intro σ hσ hpoints
  refine ⟨σ, ?_, hσ, fun _ _ => rfl, hpoints⟩
  unfold Paging.store
  rw [Nat.div_eq_of_lt hi, add_zero, windowFrame_eq h.slot (hpoints _ h.known),
    Nat.mod_eq_of_lt hi, decide_eq_false (by omega), Bool.or_false, map_some,
    Machine.withSlots_write h.ne]
  congr 2
  ext1
  · rfl
  · rfl
  · rfl
  · simp [Machine.withSlots]

theorem Runs.zeroPage (h : Shows K Γ k f) : Runs K [] Γ (zeroPage K k) t () (t.zero f) Γ := by
  intro σ hσ hpoints
  refine ⟨σ, ?_, hσ, fun _ _ => rfl, hpoints⟩
  unfold Paging.zeroPage
  rw [windowFrame_eq h.slot (hpoints _ h.known), map_some]
  congr 2
  ext1
  · funext f' i'
    by_cases hf' : f' = K.pagingPt
    · subst hf'
      simp [Machine.withSlots, h.ne.symm]
    · simp [Machine.withSlots, Machine.zero, hf']
  · rfl
  · rfl
  · rfl

theorem Runs.copyPage {k' d : Nat} (hd : Shows K Γ k d) (h : Shows K Γ k' f) :
    Runs K [] Γ (copyPage K k k') t () (t.copy d f) Γ := by
  intro σ hσ hpoints
  refine ⟨σ, ?_, hσ, fun _ _ => rfl, hpoints⟩
  unfold Paging.copyPage
  rw [windowFrame_eq hd.slot (hpoints _ hd.known), windowFrame_eq h.slot (hpoints _ h.known),
    bind_some, map_some]
  congr 2
  ext1
  · funext f' i'
    by_cases hf' : f' = K.pagingPt
    · subst hf'
      simp [Machine.withSlots, hd.ne.symm]
    · simp [Machine.withSlots, Machine.copy, hf', h.ne]
  · rfl
  · rfl
  · rfl

theorem Runs.allocPhysPage {phys : P} (h : A.allocPhysPage t.phys = some (p, phys)) :
    Runs K [] Γ (allocPhysPage A) t p { t with phys := phys } Γ := by
  intro σ hσ hpoints
  refine ⟨σ, ?_, hσ, fun _ _ => rfl, hpoints⟩
  unfold Paging.allocPhysPage
  change (A.allocPhysPage t.phys).map _ = _
  rw [h]
  rfl

def Machine.free (A : PageAlloc P) (s : Machine P) (p : Nat) : Machine P :=
  { s with phys := A.freePhysPage s.phys p, freed := s.freed ++ [p] }

theorem Runs.freePhysPage (p : Nat) : Runs K [] Γ (freePhysPage A p) t () (t.free A p) Γ :=
  fun σ hσ hpoints => ⟨σ, rfl, hσ, fun _ _ => rfl, hpoints⟩

end Comus.Paging
