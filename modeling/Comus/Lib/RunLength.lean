import Mathlib.Data.List.Chain
import Mathlib.Tactic

/-!
# Run-length words

A word is given by runs, a run is a count and a letter. Runs whose neighbours have
different letters are the maximal runs of their word: any other list of runs for the
same word cuts each of them into pieces, and with short pieces it needs many.
-/

namespace Comus.RunLength

open List

universe u
variable {α : Type u}

def expand (rs : List (Nat × α)) : List α := rs.flatMap fun r => replicate r.1 r.2

@[simp] theorem expand_nil : expand ([] : List (Nat × α)) = [] := rfl

@[simp] theorem expand_cons (n : Nat) (a : α) (rs : List (Nat × α)) :
    expand ((n, a) :: rs) = replicate n a ++ expand rs := rfl

@[simp] theorem expand_append (rs ss : List (Nat × α)) : expand (rs ++ ss) = expand rs ++ expand ss :=
  flatMap_append

theorem expand_length (rs : List (Nat × α)) : (expand rs).length = (rs.map Prod.fst).sum := by
  induction rs with
  | nil => rfl
  | cons r rs ih =>
    obtain ⟨n, a⟩ := r
    rw [expand_cons, length_append, length_replicate, ih, map_cons, sum_cons]

structure Maximal (rs : List (Nat × α)) : Prop where
  pos : ∀ r ∈ rs, 1 ≤ r.1
  apart : rs.IsChain fun r s => r.2 ≠ s.2

variable {rs ps : List (Nat × α)} {n m : Nat} {a b : α}

theorem Maximal.tail {r : Nat × α} (h : Maximal (r :: rs)) : Maximal rs :=
  ⟨fun s hs => h.pos s (mem_cons_of_mem r hs), h.apart.tail⟩

theorem Maximal.right {ss : List (Nat × α)} (h : Maximal (rs ++ ss)) : Maximal ss :=
  ⟨fun s hs => h.pos s (mem_append_right rs hs), h.apart.right_of_append⟩

theorem Maximal.shorten (h : Maximal ((n, a) :: rs)) (hm : 1 ≤ m) : Maximal ((m, a) :: rs) := by
  constructor
  · intro r hr
    rcases mem_cons.mp hr with rfl | hr
    · exact hm
    · exact h.pos r (mem_cons_of_mem _ hr)
  · cases rs with
    | nil => exact isChain_singleton _
    | cons s rs =>
      obtain ⟨hne, hrest⟩ := isChain_cons_cons.mp h.apart
      exact isChain_cons_cons.mpr ⟨hne, hrest⟩

theorem Maximal.head_ne (h : Maximal ((n, a) :: rs)) (t : List α) : expand rs ≠ a :: t := by
  intro heq
  cases rs with
  | nil => cases heq
  | cons s rs =>
    obtain ⟨k, c⟩ := s
    obtain ⟨k, rfl⟩ := Nat.exists_eq_succ_of_ne_zero
      (Nat.one_le_iff_ne_zero.mp (h.pos (k, c) (by simp)))
    rw [expand_cons, replicate_succ, cons_append] at heq
    have hne := (isChain_cons_cons.mp h.apart).1
    exact hne (cons.inj heq).1.symm

theorem Maximal.first_piece (h : Maximal ((n, a) :: rs)) {w : List α} (hm : 1 ≤ m)
    (heq : expand ((n, a) :: rs) = replicate m b ++ w) :
    b = a ∧ m ≤ n ∧ w = replicate (n - m) a ++ expand rs := by
  have hn := h.pos (n, a) mem_cons_self
  obtain rfl : b = a := by
    obtain ⟨n, rfl⟩ := Nat.exists_eq_succ_of_ne_zero (Nat.one_le_iff_ne_zero.mp hn)
    obtain ⟨m, rfl⟩ := Nat.exists_eq_succ_of_ne_zero (Nat.one_le_iff_ne_zero.mp hm)
    rw [expand_cons, replicate_succ, replicate_succ, cons_append, cons_append] at heq
    exact (cons.inj heq).1.symm
  refine ⟨rfl, ?_⟩
  rw [expand_cons] at heq
  by_cases hle : m ≤ n
  · refine ⟨hle, ?_⟩
    have hsplit : replicate n b = replicate m b ++ replicate (n - m) b := by
      rw [← replicate_add, Nat.add_sub_cancel' hle]
    rw [hsplit, append_assoc] at heq
    exact (append_cancel_left heq).symm
  · -- a longer piece would need the letter once more
    exfalso
    obtain ⟨d, rfl⟩ := Nat.exists_eq_add_of_lt (not_le.mp hle)
    rw [add_assoc, replicate_add, append_assoc, replicate_succ, cons_append] at heq
    exact h.head_ne _ (append_cancel_left heq)

/-- The pieces of at most `k` letters that a run needs. -/
def cost (k n : Nat) : Nat := (n + k - 1) / k

def costs (k : Nat) (rs : List (Nat × α)) : Nat := (rs.map fun r => cost k r.1).sum

@[simp] theorem costs_cons (k n : Nat) (a : α) (rs : List (Nat × α)) :
    costs k ((n, a) :: rs) = cost k n + costs k rs := rfl

def pieces (ps : List (Nat × α)) : Nat := ps.countP fun p => p.1 ≠ 0

@[simp] theorem pieces_cons (m : Nat) (b : α) (ps : List (Nat × α)) :
    pieces ((m, b) :: ps) = (if m = 0 then 0 else 1) + pieces ps := by
  unfold pieces
  rw [countP_cons]
  by_cases hm : m = 0
  · simp [hm]
  · simp [hm, add_comm]

theorem cost_le_succ {k : Nat} (hm : m ≤ k) (hle : m ≤ n) (hk : 0 < k) :
    cost k n ≤ 1 + cost k (n - m) := by
  unfold cost
  rw [← Nat.add_div_right _ hk |>.trans (add_comm _ _)]
  exact Nat.div_le_div_right (by omega)

theorem cost_zero {k : Nat} (hk : 0 < k) : cost k 0 = 0 := by
  unfold cost
  exact Nat.div_eq_of_lt (by omega)

theorem Maximal.costs_le {k : Nat} (h : Maximal rs) (hk : 0 < k) (hps : ∀ p ∈ ps, p.1 ≤ k)
    (heq : expand ps = expand rs) : costs k rs ≤ pieces ps := by
  induction ps generalizing rs with
  | nil =>
    cases rs with
    | nil => rfl
    | cons r rs =>
      -- a maximal run is not empty
      obtain ⟨n, a⟩ := r
      have hn := h.pos (n, a) mem_cons_self
      have hlen := congrArg length heq
      rw [expand_cons, length_append, length_replicate, expand_nil, length_nil] at hlen
      dsimp only at hn
      omega
  | cons p ps ih =>
    obtain ⟨m, b⟩ := p
    have hrest : ∀ p ∈ ps, p.1 ≤ k := fun p hp => hps p (mem_cons_of_mem _ hp)
    have hmk : m ≤ k := hps (m, b) mem_cons_self
    by_cases hm : m = 0
    · subst hm
      rw [expand_cons, replicate_zero, nil_append] at heq
      rw [pieces_cons, if_pos rfl, zero_add]
      exact ih h hrest heq
    · rw [pieces_cons, if_neg hm]
      cases rs with
      | nil => exact Nat.zero_le _
      | cons r rs =>
        obtain ⟨n, a⟩ := r
        obtain ⟨rfl, hle, hw⟩ := h.first_piece (Nat.one_le_iff_ne_zero.mpr hm) heq.symm
        have hcost := cost_le_succ hmk hle hk
        by_cases hlast : m = n
        · subst hlast
          rw [tsub_self, replicate_zero, nil_append] at hw
          have hih := ih h.tail hrest hw
          rw [tsub_self, cost_zero hk] at hcost
          rw [costs_cons]
          omega
        · have hih := ih (h.shorten (show 1 ≤ n - m by omega)) hrest hw
          rw [costs_cons] at hih ⊢
          omega

end Comus.RunLength
