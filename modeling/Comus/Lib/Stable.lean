import Mathlib.Data.List.TakeWhile
import Mathlib.Order.Lattice

/-!
# Stable insertion

A new element goes behind all elements whose key is not greater than its own. In a
list sorted by key this is the place where a search from the front stops.
-/

namespace Comus.Stable

open List

universe u v
variable {α : Type u} {β : Type v} [LinearOrder β] {key key' : α → β} {x : α} {xs ys : List α}

def insertBy (key : α → β) (x : α) (xs : List α) : List α :=
  xs.filter (fun y => decide (key y ≤ key x)) ++ x :: xs.filter fun y => decide (key x < key y)

def SortedBy (key : α → β) (xs : List α) : Prop := xs.Pairwise fun y z => key y ≤ key z

theorem SortedBy.takeWhile_eq (h : SortedBy key xs) :
    xs.takeWhile (fun y => decide (key y ≤ key x)) = xs.filter fun y => decide (key y ≤ key x) := by
  induction xs with
  | nil => rfl
  | cons y ys ih =>
    obtain ⟨hy, hys⟩ := pairwise_cons.mp h
    by_cases hle : key y ≤ key x
    · rw [takeWhile_cons_of_pos (by simpa using hle), filter_cons_of_pos (by simpa using hle), ih hys]
    · -- all elements behind `y` have keys as great
      rw [takeWhile_cons_of_neg (by simpa using hle), filter_cons_of_neg (by simpa using hle)]
      symm
      apply filter_eq_nil_iff.mpr
      intro z hz
      have hlt : key x < key z := lt_of_lt_of_le (not_le.mp hle) (hy z hz)
      simpa using hlt

theorem SortedBy.dropWhile_eq (h : SortedBy key xs) :
    xs.dropWhile (fun y => decide (key y ≤ key x)) = xs.filter fun y => decide (key x < key y) := by
  induction xs with
  | nil => rfl
  | cons y ys ih =>
    obtain ⟨hy, hys⟩ := pairwise_cons.mp h
    by_cases hle : key y ≤ key x
    · rw [dropWhile_cons_of_pos (by simpa using hle), filter_cons_of_neg (by simpa using hle), ih hys]
    · rw [dropWhile_cons_of_neg (by simpa using hle)]
      symm
      apply filter_eq_self.mpr
      intro z hz
      have hlt : key x < key z := by
        rcases mem_cons.mp hz with rfl | hz
        · exact not_le.mp hle
        · exact lt_of_lt_of_le (not_le.mp hle) (hy z hz)
      simpa using hlt

theorem SortedBy.insertBy_eq (h : SortedBy key xs) : insertBy key x xs =
    xs.takeWhile (fun y => decide (key y ≤ key x)) ++ x :: xs.dropWhile fun y => decide (key y ≤ key x) := by
  rw [insertBy, h.takeWhile_eq, h.dropWhile_eq]

@[simp] theorem mem_insertBy {y : α} : y ∈ insertBy key x xs ↔ y = x ∨ y ∈ xs := by
  simp only [insertBy, mem_append, mem_cons, mem_filter, decide_eq_true_eq]
  constructor
  · rintro (⟨hy, -⟩ | rfl | ⟨hy, -⟩)
    · exact .inr hy
    · exact .inl rfl
    · exact .inr hy
  · rintro (rfl | hy)
    · exact .inr (.inl rfl)
    · rcases le_or_gt (key y) (key x) with hle | hlt
      · exact .inl ⟨hy, hle⟩
      · exact .inr (.inr ⟨hy, hlt⟩)

theorem SortedBy.insertBy (h : SortedBy key xs) : SortedBy key (insertBy key x xs) := by
  apply pairwise_append.mpr
  refine ⟨Pairwise.sublist filter_sublist h, pairwise_cons.mpr ⟨?_, ?_⟩, ?_⟩
  · intro y hy
    exact (of_decide_eq_true (mem_filter.mp hy).2).le
  · exact Pairwise.sublist filter_sublist h
  · intro y hy z hz
    have hyx : key y ≤ key x := of_decide_eq_true (mem_filter.mp hy).2
    rcases mem_cons.mp hz with rfl | hz
    · exact hyx
    · exact hyx.trans (of_decide_eq_true (mem_filter.mp hz).2).le

theorem SortedBy.sublist (h : SortedBy key xs) (hs : ys.Sublist xs) : SortedBy key ys :=
  Pairwise.sublist hs h

theorem SortedBy.congr (h : SortedBy key xs) (hkey : ∀ y ∈ xs, key' y = key y) : SortedBy key' xs := by
  apply Pairwise.imp_of_mem _ h
  intro y z hy hz hle
  rw [hkey y hy, hkey z hz]
  exact hle

end Comus.Stable
