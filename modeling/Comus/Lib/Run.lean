import Mathlib.Logic.Basic

/-!
# Guarded runs of a deterministic system

`step s op` is the state after the operation `op`, or `none` if the system stops.
`Reach step ok s₀ s` says that `s` is reached from `s₀` by operations each of
which meets the guard `ok` in the state it starts from. The unrestricted runs
are those of the guard that is always true.
-/

namespace Comus.Run

open Option

universe u v
variable {σ : Type u} {ω : Type v}

inductive Reach (step : σ → ω → Option σ) (ok : σ → ω → Prop) (s₀ : σ) : σ → Prop where
  | start : Reach step ok s₀ s₀
  | step {s s' : σ} (op : ω) : Reach step ok s₀ s → ok s op → step s op = some s' →
      Reach step ok s₀ s'

def anyOp (_ : σ) (_ : ω) : Prop := True

variable {step : σ → ω → Option σ} {ok ok' : σ → ω → Prop} {s₀ s t : σ}

theorem Reach.invariant {I : σ → Prop} (h : Reach step ok s₀ s) (start : I s₀)
    (keep : ∀ s op s', I s → ok s op → step s op = some s' → I s') : I s := by
  induction h with
  | start => exact start
  | step op _ hok hstep ih => exact keep _ op _ ih hok hstep

theorem Reach.mono (h : Reach step ok s₀ s) (hok : ∀ s op, ok s op → ok' s op) :
    Reach step ok' s₀ s := by
  induction h with
  | start => exact .start
  | step op _ hop hstep ih => exact .step op ih (hok _ op hop) hstep

def exec (step : σ → ω → Option σ) : σ → List ω → Option σ
  | s, [] => some s
  | s, op :: ops => (step s op).bind fun s' => exec step s' ops

theorem Reach.exec {ops : List ω} (h : Reach step anyOp s₀ s) (he : exec step s ops = some t) :
    Reach step anyOp s₀ t := by
  induction ops generalizing s with
  | nil =>
    simp only [Run.exec, some.injEq] at he
    exact he ▸ h
  | cons op ops ih =>
    obtain ⟨s', hs, ht⟩ := bind_eq_some_iff.mp he
    exact ih (.step op h trivial hs) ht

def execOk (step : σ → ω → Option σ) (ok : σ → ω → Prop) [∀ s op, Decidable (ok s op)] :
    σ → List ω → Option σ
  | s, [] => some s
  | s, op :: ops => if ok s op then (step s op).bind fun s' => execOk step ok s' ops else none

theorem Reach.execOk [∀ s op, Decidable (ok s op)] {ops : List ω} (h : Reach step ok s₀ s)
    (he : execOk step ok s ops = some t) : Reach step ok s₀ t := by
  induction ops generalizing s with
  | nil =>
    cases he
    exact h
  | cons op ops ih =>
    unfold Run.execOk at he
    by_cases hok : ok s op
    · rw [if_pos hok] at he
      obtain ⟨s', hs, ht⟩ := bind_eq_some_iff.mp he
      exact ih (.step op h hok hs) ht
    · rw [if_neg hok] at he
      cases he

end Comus.Run
