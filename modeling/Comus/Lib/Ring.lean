import Mathlib.Logic.Function.Basic
import Mathlib.Tactic

/-!
# Ring buffers

A ring keeps the place of its oldest element, the place behind the newest one and the number
of its elements. A push into a full ring takes the place of the oldest element. The ring
refines a queue of bounded length that drops its front when it is full.
-/

namespace Comus.Ring

open Option List Function

universe u v
variable {α : Type u} {σ : Type v}

structure Buf (α : Type u) where
  data : Nat → α
  start : Nat
  stop : Nat
  len : Nat

/-- The array has `size` entries, the places are reduced modulo `cap`. `none` is an access
outside of the array. -/
def push (size cap : Nat) (r : Buf α) (ev : α) : Option (Buf α) :=
  if r.stop < size then
    let r := { r with data := update r.data r.stop ev, stop := (r.stop + 1) % cap }
    some (if r.len < cap then { r with len := r.len + 1 } else { r with start := (r.start + 1) % cap })
  else none

def pop (size cap : Nat) (r : Buf α) : Option (Option α × Buf α) :=
  if r.len < 1 then some (none, r)
  else if r.start < size then
    some (some (r.data r.start), { r with len := r.len - 1, start := (r.start + 1) % cap })
  else none

inductive Op (α : Type u) where
  | push (ev : α)
  | pop

def run (push : σ → α → Option σ) (pop : σ → Option (Option α × σ)) : σ → List (Op α) → Option (List (Option α) × σ)
  | s, [] => some ([], s)
  | s, .push ev :: ops => (push s ev).bind fun s => run push pop s ops
  | s, .pop :: ops => (pop s).bind fun r => (run push pop r.2 ops).map fun rs => (r.1 :: rs.1, rs.2)

def offer (cap : Nat) (q : List α) (ev : α) : List α := if q.length < cap then q ++ [ev] else q.tail ++ [ev]

def queueRun (cap : Nat) : List α → List (Op α) → List (Option α) × List α
  | q, [] => ([], q)
  | q, .push ev :: ops => queueRun cap (offer cap q ev) ops
  | q, .pop :: ops => (q.head? :: (queueRun cap q.tail ops).1, (queueRun cap q.tail ops).2)

structure Holds (cap : Nat) (r : Buf α) (q : List α) : Prop where
  len : r.len = q.length
  bound : q.length ≤ cap
  start : r.start < cap
  stop : r.stop = (r.start + q.length) % cap
  data : ∀ i x, q[i]? = some x → r.data ((r.start + i) % cap) = x

variable {size cap : Nat} {r : Buf α} {q : List α} {ev : α}

theorem holds_nil {data : Nat → α} (hcap : 0 < cap) : Holds cap ⟨data, 0, 0, 0⟩ [] := by
  refine ⟨rfl, Nat.zero_le cap, hcap, ?_, ?_⟩
  · exact (Nat.zero_mod cap).symm
  · intro i x hx
    cases hx

theorem place_ne {a i j : Nat} (hij : i < j) (hj : j < i + cap) : (a + i) % cap ≠ (a + j) % cap := by
  intro heq
  have hmod : j ≡ i [MOD cap] := Nat.ModEq.add_left_cancel' a heq.symm
  have hdvd : cap ∣ j - i := (Nat.modEq_iff_dvd' hij.le).mp hmod.symm
  have hle := Nat.le_of_dvd (by omega) hdvd
  omega

section Holds

variable (h : Holds cap r q)
include h

theorem Holds.stop_lt : r.stop < cap := by
  rw [h.stop]
  exact Nat.mod_lt _ (Nat.zero_lt_of_lt h.start)

theorem Holds.push_room (hroom : q.length < cap) :
    Holds cap { r with data := update r.data r.stop ev, stop := (r.stop + 1) % cap, len := r.len + 1 }
      (q ++ [ev]) := by
  refine ⟨?_, ?_, h.start, ?_, ?_⟩
  · rw [length_append, length_singleton, h.len]
  · rw [length_append, length_singleton]
    exact hroom
  · dsimp only
    rw [h.stop, Nat.mod_add_mod, length_append, length_singleton, add_assoc]
  · intro i x hx
    dsimp only
    rw [h.stop]
    rcases Nat.lt_trichotomy i q.length with hlt | rfl | hgt
    · rw [getElem?_append_left hlt] at hx
      rw [update_of_ne (place_ne hlt (by omega))]
      exact h.data i x hx
    · rw [getElem?_concat_length] at hx
      rw [update_self, some.inj hx]
    · rw [getElem?_eq_none (by rw [length_append, length_singleton]; omega)] at hx
      cases hx

theorem Holds.push_full (hfull : ¬ q.length < cap) :
    Holds cap { r with
      data := update r.data r.stop ev, stop := (r.stop + 1) % cap, start := (r.start + 1) % cap }
      (q.tail ++ [ev]) := by
  have hlen : q.length = cap := le_antisymm h.bound (not_lt.mp hfull)
  have hcap : 0 < cap := Nat.zero_lt_of_lt h.start
  -- the newest element takes the place of the oldest one
  have hstop : r.stop = r.start := by
    rw [h.stop, hlen, Nat.add_mod_right, Nat.mod_eq_of_lt h.start]
  have hnew : (q.tail ++ [ev]).length = cap := by
    rw [length_append, length_singleton, length_tail]
    omega
  refine ⟨?_, ?_, Nat.mod_lt _ hcap, ?_, ?_⟩
  · dsimp only
    rw [hnew, h.len, hlen]
  · rw [hnew]
  · dsimp only
    rw [hnew, hstop, Nat.add_mod_right, Nat.mod_mod]
  · intro i x hx
    dsimp only
    have hplace : ((r.start + 1) % cap + i) % cap = (r.start + (i + 1)) % cap := by
      rw [Nat.mod_add_mod, add_assoc, add_comm 1 i]
    have hi : i < cap := by
      rw [← hnew]
      exact (List.getElem?_eq_some_iff.mp hx).1
    rw [hplace, hstop]
    by_cases hlast : i + 1 = cap
    · have hself : (r.start + (i + 1)) % cap = r.start := by
        rw [hlast, Nat.add_mod_right, Nat.mod_eq_of_lt h.start]
      have hend : i = q.tail.length := by
        rw [length_tail]
        omega
      rw [hend, getElem?_concat_length] at hx
      rw [hself, update_self, some.inj hx]
    · have hne : (r.start + (i + 1)) % cap ≠ r.start := by
        have hapart : (r.start + 0) % cap ≠ (r.start + (i + 1)) % cap := place_ne (by omega) (by omega)
        rw [add_zero, Nat.mod_eq_of_lt h.start] at hapart
        exact hapart.symm
      have hi' : i < q.tail.length := by
        rw [length_tail]
        omega
      rw [getElem?_append_left hi', getElem?_tail] at hx
      rw [update_of_ne hne]
      exact h.data (i + 1) x hx

theorem Holds.push (hsize : cap ≤ size) (ev : α) :
    ∃ r', push size cap r ev = some r' ∧ Holds cap r' (offer cap q ev) := by
  have hstop := h.stop_lt
  unfold Ring.push offer
  rw [if_pos (by omega)]
  dsimp only
  by_cases hroom : q.length < cap
  · have hlen : r.len < cap := by rwa [h.len]
    rw [if_pos hroom, if_pos hlen]
    exact ⟨_, rfl, h.push_room hroom⟩
  · have hlen : ¬ r.len < cap := by rwa [h.len]
    rw [if_neg hroom, if_neg hlen]
    exact ⟨_, rfl, h.push_full hroom⟩

theorem Holds.pop (hsize : cap ≤ size) :
    ∃ r', pop size cap r = some (q.head?, r') ∧ Holds cap r' q.tail := by
  have hstart := h.start
  have hlen := h.len
  unfold Ring.pop
  cases q with
  | nil =>
    rw [if_pos (by rw [hlen]; exact Nat.one_pos)]
    exact ⟨r, rfl, h⟩
  | cons x q =>
    rw [length_cons] at hlen
    have hfirst : r.data r.start = x := by
      have := h.data 0 x rfl
      rwa [add_zero, Nat.mod_eq_of_lt h.start] at this
    rw [if_neg (by omega), if_pos (by omega), hfirst]
    refine ⟨_, rfl, ?_, ?_, Nat.mod_lt _ (by omega), ?_, ?_⟩
    · dsimp only
      rw [hlen, Nat.add_sub_cancel, tail_cons]
    · exact Nat.le_of_succ_le h.bound
    · dsimp only
      rw [h.stop, Nat.mod_add_mod, length_cons, tail_cons, add_assoc, add_comm 1]
    · intro i y hy
      dsimp only
      rw [Nat.mod_add_mod, add_assoc, add_comm 1 i]
      exact h.data (i + 1) y hy

theorem Holds.run (hsize : cap ≤ size) (ops : List (Op α)) :
    ∃ r', run (Ring.push size cap) (Ring.pop size cap) r ops = some ((queueRun cap q ops).1, r') ∧
      Holds cap r' (queueRun cap q ops).2 := by
  induction ops generalizing r q with
  | nil => exact ⟨r, rfl, h⟩
  | cons op ops ih =>
    cases op with
    | push ev =>
      obtain ⟨r₁, hpush, h₁⟩ := h.push hsize ev
      obtain ⟨r', hrun, h'⟩ := ih h₁
      refine ⟨r', ?_, h'⟩
      rw [Ring.run, hpush, bind_some, hrun]
      rfl
    | pop =>
      obtain ⟨r₁, hpop, h₁⟩ := h.pop hsize
      obtain ⟨r', hrun, h'⟩ := ih h₁
      refine ⟨r', ?_, h'⟩
      rw [Ring.run, hpop, bind_some, hrun]
      rfl

end Holds

/-- The first of three elements is dropped by a queue for two. -/
example : queueRun 2 [] [.push 1, .push 2, .push 3, .pop] = ([some 2], [3]) := by decide

end Comus.Ring
