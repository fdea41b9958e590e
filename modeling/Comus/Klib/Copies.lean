import Comus.Lib.Text

/-!
# Copying bytes (memset, strncpy, stpncpy, memmove and memmovev of kernel/lib)

Pointers are natural numbers: no object goes round the end of the address space. Each
function gives the pointer that it returns and the memory.
-/

namespace Comus.Klib

open Bytes List Function

def fill (m : Memory) (d : Nat) (c : UInt8) : Nat → Memory
  | 0 => m
  | n + 1 => fill (update m d c) (d + 1) c n

def memset (m : Memory) (dest : Nat) (c : Int) (n : Nat) : Nat × Memory := (dest, fill m dest (.ofInt c) n)

/-- The loop of `strncpy` and `stpncpy`: the memory, `d` and what is left of `n`. A byte is
copied before `n` is tested. -/
def copyString (m : Memory) (d src : Nat) : Nat → Memory × Nat × Nat
  | 0 => (update m d (m src), d, 0)
  | n + 1 =>
    if m src = 0 then (update m d (m src), d, n + 1)
    else copyString (update m d (m src)) (d + 1) (src + 1) n

def strncpy (m : Memory) (dest src n : Nat) : Nat × Memory :=
  let (m, d, n) := copyString m dest src n
  (dest, (memset m d 0 n).2)

def stpncpy (m : Memory) (dest src n : Nat) : Nat × Memory :=
  let (m, d, n) := copyString m dest src n
  (d, (memset m d 0 n).2)

def copyUp (m : Memory) (d s : Nat) : Nat → Memory
  | 0 => m
  | n + 1 => copyUp (update m d (m s)) (d + 1) (s + 1) n

def copyDown (m : Memory) (d s : Nat) : Nat → Memory
  | 0 => m
  | n + 1 => copyDown (update m (d + n) (m (s + n))) d s n

def move (m : Memory) (dest src n : Nat) : Nat × Memory :=
  if dest = src then (dest, m)
  else if dest < src then (dest, copyUp m dest src n)
  else (dest, copyDown m dest src n)

def memmove (m : Memory) (dest src n : Nat) : Nat × Memory := move m dest src n

def memmovev (m : Memory) (dest src n : Nat) : Nat × Memory := move m dest src n

variable {m : Memory} {d s a n dest src : Nat} {c : UInt8} {cs : List UInt8}

structure IsString (m : Memory) (a : Nat) (cs : List UInt8) : Prop where
  text : slice m a cs.length = cs
  nonzero : ∀ c ∈ cs, c ≠ 0
  final : m (a + cs.length) = 0

theorem IsString.head (h : IsString m a (c :: cs)) : m a = c := by
  have htext := h.text
  rw [length_cons, slice_cons] at htext
  exact (cons.inj htext).1

theorem IsString.tail (h : IsString m a (c :: cs)) (hd : ∀ i, i ≤ cs.length → d ≠ a + 1 + i) :
    IsString (update m d (m a)) (a + 1) cs := by
  have htext := h.text
  rw [length_cons, slice_cons] at htext
  refine ⟨?_, fun c hc => h.nonzero c (mem_cons_of_mem _ hc), ?_⟩
  · rw [← (cons.inj htext).2, slice_length]
    exact slice_congr fun i hi => update_of_ne (hd i hi.le).symm _ _
  · rw [update_of_ne (hd _ le_rfl).symm, add_assoc, add_comm 1]
    exact h.final

theorem IsString.ne_zero {i : Nat} (h : IsString m a cs) (hi : i < cs.length) : m (a + i) ≠ 0 := by
  apply h.nonzero
  rw [← h.text]
  exact mem_map.mpr ⟨i, mem_range.mpr hi, rfl⟩

theorem fill_eq : fill m d c n = write m d (replicate n c) := by
  induction n generalizing m d with
  | zero => rw [fill, replicate_zero, write_nil]
  | succ n ih => rw [fill, ih, replicate_succ, write_cons]

theorem copyString_short (h : IsString m src cs) (hn : cs.length < n)
    (hsep : ∀ i j, i < n → j ≤ cs.length → d + i ≠ src + j) :
    copyString m d src n = (write m d (cs ++ [0]), d + cs.length, n - cs.length) := by
  induction cs generalizing m d src n with
  | nil =>
    obtain ⟨n, rfl⟩ := Nat.exists_eq_add_of_lt hn
    have hzero : m src = 0 := h.final
    rw [copyString, if_pos hzero, hzero, nil_append, write_singleton]
    rfl
  | cons c cs ih =>
    rw [length_cons] at hn hsep
    obtain ⟨n, rfl⟩ : ∃ k, n = k + 1 := ⟨n - 1, by omega⟩
    have hc : m src = c := h.head
    have hne : m src ≠ 0 := by
      rw [hc]
      exact h.nonzero c mem_cons_self
    have htail := h.tail (d := d) fun i hi => by
      have := hsep 0 (i + 1) (by omega) (by omega)
      omega
    rw [copyString, if_neg hne, ih htail (by omega), hc, cons_append, write_cons, length_cons]
    · congr 2
      all_goals omega
    · intro i j hi hj
      have := hsep (i + 1) (j + 1) (by omega) (by omega)
      omega

theorem copyString_long (h : ∀ i, i < n → m (src + i) ≠ 0) (hsep : ∀ i j, i < n → j < n → d + i ≠ src + j) :
    copyString m d src n = (update (write m d (slice m src n)) (d + n)
      (write m d (slice m src n) (src + n)), d + n, 0) := by
  induction n generalizing m d src with
  | zero => simp [copyString, slice]
  | succ n ih =>
    -- the byte written is none of those still to be read
    have hkept : ∀ i, i < n → update m d (m src) (src + 1 + i) = m (src + 1 + i) := by
      intro i hi
      have := hsep 0 (i + 1) (by omega) (by omega)
      exact update_of_ne (by omega) _ _
    have hslice : slice (update m d (m src)) (src + 1) n = slice m (src + 1) n := slice_congr hkept
    rw [copyString, if_neg (show m src ≠ 0 from h 0 (by omega)), ih, hslice, slice_cons, write_cons]
    · simp only [add_assoc, add_comm 1]
    · intro i hi
      rw [hkept i hi, add_assoc, add_comm 1]
      exact h (i + 1) (by omega)
    · intro i j hi hj
      have := hsep (i + 1) (j + 1) (by omega) (by omega)
      omega

theorem fill_copyString_short (h : IsString m src cs) (hn : cs.length < n)
    (hsep : ∀ i j, i < n → j ≤ cs.length → dest + i ≠ src + j) :
    fill (copyString m dest src n).1 (copyString m dest src n).2.1 0 (copyString m dest src n).2.2 =
      write m dest (cs ++ replicate (n - cs.length) 0) := by
  obtain ⟨k, hk⟩ : ∃ k, n - cs.length = k + 1 := ⟨n - cs.length - 1, by omega⟩
  rw [copyString_short h hn hsep, fill_eq, hk, replicate_succ, write_concat, write_append, write_cons,
    write_cons, update_idem]

/-- The byte behind the `n` bytes is read after they are written, and may be the first of them. -/
theorem write_slice_behind (hsep : ∀ i j, i < n → j < n → dest + i ≠ src + j) :
    write m dest (slice m src n) (src + n) = if dest = src + n then m src else m (src + n) := by
  split_ifs with hbehind
  · cases n with
    | zero => simp [slice]
    | succ n => rw [slice_cons, write_cons, write_outside (.inl (by omega)), ← hbehind, update_self]
  · apply write_outside
    rw [slice_length]
    have hup := hsep (src - dest) 0
    have hdown := hsep 0 (dest - src)
    omega

def padded (m : Memory) (dest n : Nat) (cs : List UInt8) : Memory :=
  write m dest (cs.take n ++ replicate (n - cs.length) 0)

theorem fill_copyString_iff (h : IsString m src cs)
    (hsep : ∀ i j, i < n → j < n → j ≤ cs.length → dest + i ≠ src + j) :
    fill (copyString m dest src n).1 (copyString m dest src n).2.1 0 (copyString m dest src n).2.2 =
      padded m dest n cs ↔
    cs.length < n ∨ m (dest + n) = if dest = src + n then m src else m (src + n) := by
  unfold padded
  rcases lt_or_ge cs.length n with hn | hn
  · rw [fill_copyString_short h hn fun i j hi hj => hsep i j hi (by omega) hj, take_of_length_le hn.le]
    exact iff_of_true rfl (.inl hn)
  · have happart : ∀ i j, i < n → j < n → dest + i ≠ src + j := by
      intro i j hi hj
      exact hsep i j hi hj (by omega)
    have htext : slice m src n = cs.take n := by
      obtain ⟨k, hk⟩ := Nat.exists_eq_add_of_le hn
      rw [← h.text, hk, slice_add, take_left' slice_length]
    rw [copyString_long (fun i hi => h.ne_zero (by omega)) happart, write_slice_behind happart, htext,
      Nat.sub_eq_zero_of_le hn, replicate_zero, append_nil, fill, update_eq_iff, write_outside]
    · constructor
      · rintro ⟨heq, -⟩
        exact .inr heq.symm
      · rintro (hlt | heq)
        · omega
        · exact ⟨heq.symm, fun _ _ => rfl⟩
    · right
      simp [hn]

/-- `strncpy` and `stpncpy` copy the byte behind `n` bytes if the string is not shorter. -/
theorem strncpy_exact_iff (h : IsString m src cs)
    (hsep : ∀ i j, i < n → j < n → j ≤ cs.length → dest + i ≠ src + j) :
    ((strncpy m dest src n).2 = padded m dest n cs ↔
      cs.length < n ∨ m (dest + n) = if dest = src + n then m src else m (src + n)) ∧
    ((stpncpy m dest src n).2 = padded m dest n cs ↔
      cs.length < n ∨ m (dest + n) = if dest = src + n then m src else m (src + n)) :=
  ⟨fill_copyString_iff h hsep, fill_copyString_iff h hsep⟩

def letters : Memory := fun a => if a < 2 then 97 else 0

theorem letters_string : IsString letters 0 [97, 97] := ⟨by decide, by simp, by decide⟩

theorem strncpy_exact_letters : IsString letters 0 [97, 97] ∧
    (strncpy letters 8 0 3).2 = padded letters 8 3 [97, 97] ∧
    (stpncpy letters 8 0 3).2 = padded letters 8 3 [97, 97] := by
  have hsep : ∀ i j, i < 3 → j < 3 → j ≤ 2 → 8 + i ≠ 0 + j := by omega
  obtain ⟨hstr, hstp⟩ := strncpy_exact_iff letters_string hsep
  exact ⟨letters_string, hstr.mpr (.inl (by decide)), hstp.mpr (.inl (by decide))⟩

/-- One byte of the two is asked for, and both are written. -/
theorem strncpy_overruns : IsString letters 0 [97, 97] ∧
    (strncpy letters 8 0 1).2 9 = 97 ∧ (stpncpy letters 8 0 1).2 9 = 97 ∧ letters 9 = 0 ∧
    padded letters 8 1 [97, 97] 9 = 0 :=
  ⟨letters_string, by decide, by decide, by decide, by decide⟩

theorem copyUp_eq (h : d ≤ s) : copyUp m d s n = write m d (slice m s n) := by
  induction n generalizing m d s with
  | zero => exact write_nil.symm
  | succ n ih =>
    have hslice : slice (update m d (m s)) (s + 1) n = slice m (s + 1) n :=
      slice_congr fun i _ => update_of_ne (by omega) _ _
    rw [copyUp, ih (by omega), hslice, slice_cons, write_cons]

theorem copyDown_eq (h : s ≤ d) : copyDown m d s n = write m d (slice m s n) := by
  induction n generalizing m with
  | zero => exact write_nil.symm
  | succ n ih =>
    have hslice : slice (update m (d + n) (m (s + n))) s n = slice m s n :=
      slice_congr fun i hi => update_of_ne (by omega) _ _
    rw [copyDown, ih, hslice, slice_add, write_append, slice_length, write_comm (by rw [slice_length]),
      ← write_singleton]
    rfl

theorem move_eq (m : Memory) (dest src n : Nat) :
    move m dest src n = (dest, write m dest (slice m src n)) := by
  unfold move
  split_ifs with heq hlt
  · rw [heq, write_slice_self]
  · rw [copyUp_eq hlt.le]
  · rw [copyDown_eq (by omega)]

/-- `memmove` and `memmovev` copy as through a temporary, however the ranges overlap. -/
theorem memmove_copies (m : Memory) (dest src n : Nat) :
    memmove m dest src n = (dest, write m dest (slice m src n)) ∧
    memmovev m dest src n = (dest, write m dest (slice m src n)) ∧
    ∀ a, a < dest ∨ dest + n ≤ a → (memmove m dest src n).2 a = m a ∧ (memmovev m dest src n).2 a = m a := by
  have hout : ∀ a, a < dest ∨ dest + n ≤ a → (move m dest src n).2 a = m a := by
    intro a ha
    rw [move_eq]
    exact write_outside (by rwa [slice_length])
  exact ⟨move_eq m dest src n, move_eq m dest src n, fun a ha => ⟨hout a ha, hout a ha⟩⟩

end Comus.Klib
