import Mathlib.Data.List.Chain
import Mathlib.Tactic

/-!
# Intervals that tile a range

A list of non-empty blocks covers `[lo, hi)` without gap or overlap, and no two
neighbouring blocks are both free. Then a range is free exactly when it lies in
a single free block. Splitting a free block and merging a block with its free
neighbours keep both properties.
-/

namespace Comus.Tiling

open List

structure Block where
  start : Nat
  stop : Nat
  alloc : Bool
  deriving Repr, DecidableEq

variable {lo hi a c : Nat} {b f l m r : Block} {as bs cs : List Block}

def Tiles : Nat → List Block → Nat → Prop
  | lo, [], hi => lo = hi
  | lo, b :: bs, hi => b.start = lo ∧ b.start < b.stop ∧ Tiles b.stop bs hi

def Coalesced (bs : List Block) : Prop := bs.IsChain fun x y => x.alloc = true ∨ y.alloc = true

@[simp] theorem tiles_nil : Tiles lo [] hi ↔ lo = hi := .rfl

@[simp] theorem tiles_cons :
    Tiles lo (b :: bs) hi ↔ b.start = lo ∧ b.start < b.stop ∧ Tiles b.stop bs hi := .rfl

theorem tiles_append : Tiles lo (as ++ bs) hi ↔ ∃ m, Tiles lo as m ∧ Tiles m bs hi := by
  induction as generalizing lo with
  | nil => simp
  | cons b as ih =>
    simp only [cons_append, tiles_cons, ih]
    constructor
    · rintro ⟨h1, h2, m, h3, h4⟩
      exact ⟨m, ⟨h1, h2, h3⟩, h4⟩
    · rintro ⟨m, ⟨h1, h2, h3⟩, h4⟩
      exact ⟨h1, h2, m, h3, h4⟩

theorem Tiles.le (h : Tiles lo bs hi) : lo ≤ hi := by
  induction bs generalizing lo with
  | nil => exact Nat.le_of_eq h
  | cons b bs ih =>
    obtain ⟨h1, h2, h3⟩ := h
    have := ih h3
    omega

theorem Tiles.bounds (h : Tiles lo bs hi) (hb : b ∈ bs) :
    lo ≤ b.start ∧ b.start < b.stop ∧ b.stop ≤ hi := by
  obtain ⟨as, cs, rfl⟩ := append_of_mem hb
  obtain ⟨m, h1, h2, h3, h4⟩ := tiles_append.mp h
  have := h1.le
  have := h4.le
  omega

theorem Tiles.sorted (h : Tiles lo bs hi) : bs.Pairwise fun x y => x.stop ≤ y.start := by
  induction bs generalizing lo with
  | nil => exact Pairwise.nil
  | cons b bs ih =>
    exact pairwise_cons.mpr ⟨fun y hy => (h.2.2.bounds hy).1, ih h.2.2⟩

theorem Tiles.cover (h : Tiles lo bs hi) (hlo : lo ≤ a) (hhi : a < hi) :
    ∃ as b cs, bs = as ++ b :: cs ∧ b.start ≤ a ∧ a < b.stop := by
  induction bs generalizing lo with
  | nil =>
    rw [tiles_nil] at h
    omega
  | cons b bs ih =>
    obtain ⟨h1, h2, h3⟩ := h
    by_cases ha : a < b.stop
    · exact ⟨[], b, bs, rfl, by omega, ha⟩
    · obtain ⟨as, b', cs, rfl, hb'⟩ := ih h3 (by omega)
      exact ⟨b :: as, b', cs, rfl, hb'⟩

def FreeRange (bs : List Block) (a c : Nat) : Prop :=
  ∀ b ∈ bs, b.alloc = true → b.stop ≤ a ∨ c ≤ b.start

theorem freeRange_iff (h : Tiles lo bs hi) (hco : Coalesced bs) (hlo : lo ≤ a) (hac : a < c)
    (hhi : c ≤ hi) :
    FreeRange bs a c ↔ ∃ b ∈ bs, b.alloc = false ∧ b.start ≤ a ∧ c ≤ b.stop := by
  constructor
  · intro hfree
    obtain ⟨as, b, cs, rfl, hb1, hb2⟩ := h.cover hlo (by omega)
    have hbfree : b.alloc = false := by
      by_contra hb
      have := hfree b (by simp) (by simpa using hb)
      omega
    refine ⟨b, by simp, hbfree, hb1, ?_⟩
    -- otherwise the next block would be free as well
    by_contra hshort
    obtain ⟨m, -, -, -, htail⟩ := tiles_append.mp h
    cases cs with
    | nil =>
      rw [tiles_nil] at htail
      omega
    | cons d cs =>
      have hd := htail.1
      have hdfree : d.alloc = false := by
        by_contra hd'
        have := hfree d (by simp) (by simpa using hd')
        have := htail.2.1
        omega
      have hpair := (isChain_append_cons_cons.mp hco).2.1
      simp [hbfree, hdfree] at hpair
  · rintro ⟨b, hb, hbfree, h1, h2⟩ d hd halloc
    obtain ⟨as, cs, rfl⟩ := append_of_mem hb
    obtain ⟨-, hright, hleft⟩ := pairwise_append.mp h.sorted
    rcases mem_append.mp hd with hd | hd
    · have := hleft d hd b mem_cons_self
      omega
    · rcases mem_cons.mp hd with rfl | hd
      · rw [hbfree] at halloc
        cases halloc
      · have := (pairwise_cons.mp hright).1 d hd
        omega

theorem Tiles.notMem_split (h : Tiles lo (as ++ b :: bs) hi) : b ∉ as ∧ b ∉ bs := by
  obtain ⟨-, hlen, -⟩ := h.bounds (b := b) (by simp)
  obtain ⟨-, hright, hleft⟩ := pairwise_append.mp h.sorted
  constructor
  · intro hb
    have hle := hleft b hb b mem_cons_self
    omega
  · intro hb
    have hle := (pairwise_cons.mp hright).1 b hb
    omega

theorem Tiles.eq_of_start (h : Tiles lo bs hi) (hb : b ∈ bs) (hm : m ∈ bs)
    (hs : b.start = m.start) : b = m := by
  obtain ⟨as, cs, rfl⟩ := append_of_mem hb
  obtain ⟨-, hright, hleft⟩ := pairwise_append.mp h.sorted
  have hbb := h.bounds hb
  have hmb := h.bounds hm
  rcases mem_append.mp hm with hm | hm
  · have := hleft m hm b mem_cons_self
    omega
  · rcases mem_cons.mp hm with rfl | hm
    · rfl
    · have := (pairwise_cons.mp hright).1 m hm
      omega

/-- What taking `[a, c)` makes of the free block `f`. -/
def pieces (f : Block) (a c : Nat) : List Block :=
  (if f.start < a then [⟨f.start, a, false⟩] else []) ++
    ⟨a, c, true⟩ :: (if c < f.stop then [⟨c, f.stop, false⟩] else [])

theorem Tiles.split (h : Tiles lo (as ++ f :: bs) hi) (ha : f.start ≤ a) (hac : a < c)
    (hc : c ≤ f.stop) : Tiles lo (as ++ (pieces f a c ++ bs)) hi := by
  obtain ⟨m, h1, h2, h3, h4⟩ := tiles_append.mp h
  refine tiles_append.mpr ⟨m, h1, tiles_append.mpr ⟨f.stop, ?_, h4⟩⟩
  unfold pieces
  split_ifs with hl hr hr <;> simp <;> omega

theorem Coalesced.split (h : Coalesced (as ++ f :: bs)) (hf : f.alloc = false) (a c : Nat) :
    Coalesced (as ++ (pieces f a c ++ bs)) := by
  obtain ⟨h1, h2, h3⟩ := isChain_append.mp h
  obtain ⟨hfb, hb⟩ := isChain_cons.mp h2
  -- both neighbours of a free block are allocated
  have hlast : ∀ x ∈ as.getLast?, x.alloc = true := fun x hx => by
    have := h3 x hx f (by simp)
    simpa [hf] using this
  have hfirst : ∀ y ∈ bs.head?, y.alloc = true := fun y hy => by
    have := hfb y hy
    simpa [hf] using this
  have hmid : Coalesced (pieces f a c) := by
    unfold pieces Coalesced
    split_ifs <;> simp
  refine isChain_append.mpr ⟨h1, isChain_append.mpr ⟨hmid, hb, ?_⟩, ?_⟩
  · exact fun x _ y hy => .inr (hfirst y hy)
  · exact fun x hx y _ => .inl (hlast x hx)

theorem Tiles.merge_prev (h : Tiles lo (as ++ l :: m :: bs) hi) :
    Tiles lo (as ++ ⟨l.start, m.stop, m.alloc⟩ :: bs) hi := by
  obtain ⟨k, h1, h2, h3, h4, h5, h6⟩ := tiles_append.mp h
  exact tiles_append.mpr ⟨k, h1, h2, by simp only; omega, h6⟩

theorem Tiles.merge_next (h : Tiles lo (as ++ m :: r :: bs) hi) :
    Tiles lo (as ++ ⟨m.start, r.stop, m.alloc⟩ :: bs) hi := by
  obtain ⟨k, h1, h2, h3, h4, h5, h6⟩ := tiles_append.mp h
  exact tiles_append.mpr ⟨k, h1, h2, by simp only; omega, h6⟩

theorem Tiles.release (h : Tiles lo (as ++ m :: bs) hi) (v : Bool) :
    Tiles lo (as ++ ⟨m.start, m.stop, v⟩ :: bs) hi := by
  obtain ⟨k, h1, h2, h3, h4⟩ := tiles_append.mp h
  exact tiles_append.mpr ⟨k, h1, h2, h3, h4⟩

theorem coalesced_between (h1 : Coalesced as) (h2 : Coalesced bs)
    (hlast : ∀ x ∈ as.getLast?, x.alloc = true) (hfirst : ∀ y ∈ bs.head?, y.alloc = true) :
    Coalesced (as ++ m :: bs) := by
  refine isChain_append.mpr ⟨h1, isChain_cons.mpr ⟨?_, h2⟩, ?_⟩
  · exact fun y hy => .inr (hfirst y hy)
  · exact fun x hx y _ => .inl (hlast x hx)

def allocated (bs : List Block) : List Block := bs.filter Block.alloc

@[simp] theorem allocated_append : allocated (as ++ bs) = allocated as ++ allocated bs := filter_append ..

theorem allocated_cons_of_alloc (h : b.alloc = true) : allocated (b :: bs) = b :: allocated bs :=
  filter_cons_of_pos h

theorem allocated_cons_of_free (h : b.alloc = false) : allocated (b :: bs) = allocated bs :=
  filter_cons_of_neg (by simp [h])

theorem mem_allocated : b ∈ allocated bs ↔ b ∈ bs ∧ b.alloc = true := mem_filter

theorem allocated_pieces (f : Block) (a c : Nat) : allocated (pieces f a c) = [⟨a, c, true⟩] := by
  unfold pieces
  split_ifs <;> rfl

theorem Coalesced.next_alloc (h : Coalesced (f :: b :: bs)) (hf : f.alloc = false) : b.alloc = true := by
  have hstep := (isChain_cons_cons.mp h).1
  simpa [hf] using hstep

theorem Tiles.stop_eq (h : Tiles lo (f :: bs) hi) (hco : Coalesced (f :: bs)) (hf : f.alloc = false) :
    f.stop = ((allocated bs).head?.map Block.start).getD hi := by
  cases bs with
  | nil => exact h.2.2
  | cons b bs =>
    rw [allocated_cons_of_alloc (hco.next_alloc hf)]
    exact h.2.2.1.symm

theorem Tiles.eq_of_allocated (h : Tiles lo bs hi) (h' : Tiles lo cs hi) (hco : Coalesced bs)
    (hco' : Coalesced cs) (heq : allocated bs = allocated cs) : bs = cs := by
  induction bs generalizing lo cs with
  | nil =>
    cases cs with
    | nil => rfl
    | cons c cs =>
      have hle := h'.2.2.le
      have hlt := h'.2.1
      have hstart := h'.1
      have hend : lo = hi := h
      omega
  | cons b bs ih =>
    cases cs with
    | nil =>
      have hle := h.2.2.le
      have hlt := h.2.1
      have hstart := h.1
      have hend : lo = hi := h'
      omega
    | cons c cs =>
      have hcb := (isChain_cons.mp hco).2
      have hcc := (isChain_cons.mp hco').2
      -- an allocated first block and a free one do not go together
      have hmixed : ∀ {b c : Block} {bs cs : List Block}, Tiles lo (b :: bs) hi → Tiles lo (c :: cs) hi →
          b.alloc = true → c.alloc = false → allocated (b :: bs) ≠ allocated (c :: cs) := by
        intro b c bs cs h h' hb hc heq
        rw [allocated_cons_of_alloc hb, allocated_cons_of_free hc] at heq
        have hmem : b ∈ cs := (mem_allocated.mp (heq ▸ mem_cons_self)).1
        have hbound := (h'.2.2.bounds hmem).1
        have hlt := h'.2.1
        have hs := h'.1
        have hs' := h.1
        omega
      cases hb : b.alloc with
      | true =>
        cases hc : c.alloc with
        | true =>
          rw [allocated_cons_of_alloc hb, allocated_cons_of_alloc hc] at heq
          obtain ⟨rfl, hrest⟩ := cons.inj heq
          rw [ih h.2.2 h'.2.2 hcb hcc hrest]
        | false => exact absurd heq (hmixed h h' hb hc)
      | false =>
        cases hc : c.alloc with
        | true => exact absurd heq.symm (hmixed h' h hc hb)
        | false =>
          rw [allocated_cons_of_free hb, allocated_cons_of_free hc] at heq
          have hstop : b.stop = c.stop := by rw [h.stop_eq hco hb, h'.stop_eq hco' hc, heq]
          have hfirst : b = c := by
            have hstart : b.start = c.start := h.1.trans h'.1.symm
            cases b
            cases c
            simp_all
          subst hfirst
          rw [ih h.2.2 h'.2.2 hcb hcc heq]

end Comus.Tiling
