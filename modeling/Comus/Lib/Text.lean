import Comus.Lib.Bytes
import Mathlib.Data.List.GetD
import Mathlib.Data.Nat.Digits.Lemmas

/-!
# Text in memory and positional numerals

A text is a list of bytes. It is written to a memory and read back as a slice. The
value of a numeral is computed from the left, as parsers do, in any arithmetic that
wraps.
-/

namespace Comus.Bytes

open List Function

variable {m m' : Memory} {a n i : Nat} {bs cs : List UInt8} {c : UInt8}

def slice (m : Memory) (a n : Nat) : List UInt8 := (range n).map fun i => m (a + i)

def write (m : Memory) (a : Nat) (bs : List UInt8) : Memory := fun i =>
  if a ≤ i ∧ i < a + bs.length then bs.getD (i - a) 0 else m i

@[simp] theorem slice_length : (slice m a n).length = n := by simp [slice]

theorem slice_add (m : Memory) (a n k : Nat) : slice m a (n + k) = slice m a n ++ slice m (a + n) k := by
  unfold slice
  rw [range_add, map_append, map_map]
  congr 1
  apply map_congr_left
  intro j _
  simp [add_assoc]

theorem slice_cons : slice m a (n + 1) = m a :: slice m (a + 1) n := by
  rw [add_comm, slice_add]
  rfl

theorem slice_congr (h : ∀ i, i < n → m (a + i) = m' (a + i)) : slice m a n = slice m' a n :=
  map_congr_left fun i hi => h i (mem_range.mp hi)

theorem getElem?_slice (hi : i < n) : (slice m a n)[i]? = some (m (a + i)) := by
  simp [slice, hi]

theorem drop_slice (hi : i ≤ n) : (slice m a n).drop i = slice m (a + i) (n - i) := by
  obtain ⟨k, rfl⟩ := Nat.exists_eq_add_of_le hi
  rw [slice_add, drop_left' slice_length, Nat.add_sub_cancel_left]

theorem write_at (hi : i < bs.length) : write m a bs (a + i) = bs.getD i 0 := by
  rw [write, if_pos ⟨by omega, by omega⟩, Nat.add_sub_cancel_left]

theorem write_outside (hi : i < a ∨ a + bs.length ≤ i) : write m a bs i = m i := by
  rw [write, if_neg (by omega)]

@[simp] theorem write_nil : write m a [] = m := by
  funext i
  exact write_outside (by simp; omega)

theorem write_singleton : write m a [c] = update m a c := by
  funext i
  by_cases hi : i = a
  · rw [hi, update_self]
    have hat : write m a [c] (a + 0) = [c].getD 0 0 := write_at Nat.one_pos
    exact hat
  · rw [update_of_ne hi]
    exact write_outside (by simp; omega)

theorem write_append : write m a (bs ++ cs) = write (write m a bs) (a + bs.length) cs := by
  funext i
  rcases lt_or_ge i a with hi | hi
  · rw [write_outside (.inl hi), write_outside (.inl (by omega)), write_outside (.inl hi)]
  obtain ⟨j, rfl⟩ := Nat.exists_eq_add_of_le hi
  rcases lt_or_ge j bs.length with hj | hj
  · rw [write_at (by simp; omega), write_outside (.inl (by omega)), write_at hj, getD_append _ _ _ _ hj]
  obtain ⟨k, rfl⟩ := Nat.exists_eq_add_of_le hj
  rcases lt_or_ge k cs.length with hk | hk
  · rw [write_at (by simp; omega), ← add_assoc, write_at hk, getD_append_right _ _ _ _ hj,
      Nat.add_sub_cancel_left]
  · rw [write_outside (.inr (by simp; omega)), write_outside (.inr (by omega)),
      write_outside (.inr (by omega))]

theorem write_cons : write m a (c :: bs) = write (update m a c) (a + 1) bs := by
  rw [← singleton_append, write_append, write_singleton, length_singleton]

theorem write_slice_self : write m a (slice m a n) = m := by
  induction n generalizing a with
  | zero => exact write_nil
  | succ n ih => rw [slice_cons, write_cons, update_eq_self, ih]

theorem write_concat : write m a (bs ++ [c]) = update (write m a bs) (a + bs.length) c := by
  rw [write_append, write_singleton]

theorem write_replace {d : UInt8} :
    update (write m a (bs ++ [c])) (a + bs.length) d = write m a (bs ++ [d]) := by
  rw [write_concat, write_concat, update_idem]

theorem write_comm {b : Nat} (h : a + bs.length ≤ b) :
    write (write m a bs) b cs = write (write m b cs) a bs := by
  funext i
  rcases lt_or_ge i b with hi | hi
  · rw [write_outside (.inl hi)]
    unfold write
    split_ifs with hin hlow
    · rfl
    · omega
    · rfl
  · rw [write_outside (m := write m b cs) (.inr (by omega))]
    unfold write
    split_ifs with hin hlow
    · rfl
    · omega
    · rfl

theorem slice_write : slice (write m a bs) a bs.length = bs := by
  apply ext_getElem?
  intro i
  rcases lt_or_ge i bs.length with hi | hi
  · rw [getElem?_slice hi, write_at hi, getD_eq_getElem _ _ hi, getElem?_eq_getElem hi]
  · rw [getElem?_eq_none (by simpa using hi), getElem?_eq_none hi]

theorem slice_write_le (hn : bs.length ≤ n) :
    slice (write m a bs) a n = bs ++ slice m (a + bs.length) (n - bs.length) := by
  obtain ⟨k, rfl⟩ := Nat.exists_eq_add_of_le hn
  rw [slice_add, slice_write, Nat.add_sub_cancel_left]
  congr 1
  apply slice_congr
  intro i _
  exact write_outside (.inr (by omega))

theorem slice_text (h : cs.length < n) : ∃ rest, slice (write m a (cs ++ [c])) a n = cs ++ c :: rest ∧
    slice (write m a (cs ++ [c])) (a + cs.length) (n - cs.length) = c :: rest := by
  have hlen : (cs ++ [c]).length ≤ n := by
    rw [length_append, length_singleton]
    exact h
  have hall := slice_write_le (m := m) (a := a) hlen
  rw [append_assoc, singleton_append] at hall
  refine ⟨_, hall, ?_⟩
  rw [← drop_slice h.le, hall, drop_left]

def reverseIn (m : Memory) : Nat → Nat → Nat → Memory
  | 0, _, _ => m
  | fuel + 1, start, last =>
    if start < last then
      reverseIn (update (update m start (m last)) last (m start)) fuel (start + 1) (last - 1)
    else m

theorem reverseIn_apply (fuel start last : Nat) (hfuel : last ≤ start + fuel) (i : Nat) :
    reverseIn m fuel start last i = if start ≤ i ∧ i ≤ last then m (start + last - i) else m i := by
  induction fuel generalizing m start last with
  | zero =>
    rw [reverseIn]
    split_ifs with h
    · congr 1
      omega
    · rfl
  | succ fuel ih =>
    rw [reverseIn]
    by_cases hlt : start < last
    · rw [if_pos hlt, ih _ _ (by omega)]
      by_cases hlow : i = start
      · subst hlow
        rw [if_neg (by omega), if_pos (by omega), update_of_ne (by omega), update_self]
        congr 1
        omega
      by_cases hhigh : i = last
      · subst hhigh
        rw [if_neg (by omega), if_pos (by omega), update_self]
        congr 1
        omega
      by_cases hin : start ≤ i ∧ i ≤ last
      · rw [if_pos (by omega), if_pos hin, update_of_ne (by omega), update_of_ne (by omega)]
        congr 1
        omega
      · rw [if_neg (by omega), if_neg hin, update_of_ne hhigh, update_of_ne hlow]
    · rw [if_neg hlt]
      split_ifs with h
      · congr 1
        omega
      · rfl

theorem reverseIn_write (h : bs ≠ []) {fuel : Nat} (hfuel : bs.length ≤ fuel + 1) :
    reverseIn (write m a bs) fuel a (a + bs.length - 1) = write m a bs.reverse := by
  have hpos : 0 < bs.length := length_pos_iff.mpr h
  funext i
  rw [reverseIn_apply _ _ _ (by omega)]
  by_cases hin : a ≤ i ∧ i ≤ a + bs.length - 1
  · obtain ⟨j, rfl⟩ := Nat.exists_eq_add_of_le hin.1
    have hj : j < bs.length := by omega
    have hsum : a + (a + bs.length - 1) - (a + j) = a + (bs.length - 1 - j) := by omega
    rw [if_pos hin, hsum, write_at (by omega), write_at (by simpa using hj),
      getD_eq_getElem _ _ (by omega), getD_eq_getElem _ _ (by simpa using hj), getElem_reverse]
  · rw [if_neg hin, write_outside (by omega), write_outside (by simp; omega)]

end Comus.Bytes

namespace Comus.Numeral

/-- The number that digits in base `b` continue `v` to. -/
def horner (b : Int) (v : Int) (ds : List Int) : Int := ds.foldl (fun v d => v * b + d) v

variable {b v d : Int} {ds es : List Int}

@[simp] theorem horner_nil : horner b v [] = v := rfl

@[simp] theorem horner_cons : horner b v (d :: ds) = horner b (v * b + d) ds := rfl

theorem horner_append : horner b v (ds ++ es) = horner b (horner b v ds) es := List.foldl_append

theorem horner_digits (b n : Nat) : horner b 0 ((Nat.digits b n).reverse.map (↑)) = n := by
  have hfold : ∀ l : List Nat, horner b 0 (l.reverse.map (↑)) = ((Nat.ofDigits b l : Nat) : Int) := by
    intro l
    induction l with
    | nil => rfl
    | cons d l ih =>
      rw [List.reverse_cons, List.map_append, horner_append, ih, List.map_singleton, horner_cons, horner_nil,
        Nat.ofDigits_cons]
      push_cast
      ring
  rw [hfold, Nat.ofDigits_digits]

/-- A conversion that loses only multiples of some number. -/
structure Wraps (cast : Int → Int) : Prop where
  zero : cast 0 = 0
  step : ∀ a b c, cast (cast a * b + c) = cast (a * b + c)

theorem Wraps.horner {cast : Int → Int} (h : Wraps cast) (ds : List Int) :
    ds.foldl (fun v d => cast (v * b + d)) (cast v) = cast (horner b v ds) := by
  induction ds generalizing v with
  | nil => rfl
  | cons d ds ih => rw [List.foldl_cons, h.step, ih, horner_cons]

end Comus.Numeral
