import Mathlib.Logic.Function.Basic
import Mathlib.Tactic.SplitIfs

/-!
# The pool of memory contexts (kernel/memory/memory.c)

The contexts of user processes are the entries of a table. Those that are free are
linked through their `prev` pointers, from `user_mem_ctx_next` on. The page tables and
the virtual allocators behind them are parameters.
-/

namespace Comus.Contexts

open Option Function

/-- An entry of `user_mem_ctx`, which has `N_PROCS` entries. -/
abbrev Ctx : Type := Fin 256

/-- `user_mem_ctx_next` and the fields of the contexts. -/
structure Pool where
  userMemCtxNext : Option Ctx
  prev : Ctx → Option Ctx
  next : Ctx → Option Ctx
  pml4 : Ctx → Nat

/-- The functions of paging.c and virtalloc.c called here. A null result is zero, `none`
is a panic. -/
structure Lower (ρ : Type) where
  pgdirAlloc : ρ → Option (Nat × ρ)
  pgdirFree : ρ → Nat → Option ρ
  virtaddrInit : ρ → Ctx → Option ρ
  virtaddrCleanup : ρ → Ctx → Option ρ

structure World (ρ : Type) where
  pool : Pool
  low : ρ

def Pool.take (p : Pool) (ctx : Ctx) : Pool :=
  { p with
    userMemCtxNext := p.prev ctx
    next := match p.prev ctx with
      | some prev => update p.next prev none
      | none => p.next
    prev := update p.prev ctx none }

def Pool.put (p : Pool) (ctx : Ctx) : Pool :=
  match p.userMemCtxNext with
  | none => { p with userMemCtxNext := some ctx }
  | some top =>
    { p with
      userMemCtxNext := some ctx
      next := update p.next top (some ctx)
      prev := update p.prev ctx (some top) }

variable {ρ : Type} (L : Lower ρ)

/-- A context whose page tables cannot be allocated stays in the pool. -/
def memCtxAlloc (w : World ρ) : Option (Option Ctx × World ρ) :=
  match w.pool.userMemCtxNext with
  | none => some (none, w)
  | some ctx =>
    (L.pgdirAlloc w.low).bind fun (pml4, low) =>
      let pool := { w.pool with pml4 := update w.pool.pml4 ctx pml4 }
      if pml4 = 0 then some (none, ⟨pool, low⟩)
      else (L.virtaddrInit low ctx).map fun low => (some ctx, ⟨pool.take ctx, low⟩)

/-- Asserts that neither the context nor its page tables are null. -/
def memCtxFree (w : World ρ) : Option Ctx → Option (World ρ)
  | none => none
  | some ctx =>
    if w.pool.pml4 ctx = 0 then none
    else
      (L.pgdirFree w.low (w.pool.pml4 ctx)).bind fun low =>
        (L.virtaddrCleanup low ctx).map fun low => ⟨w.pool.put ctx, low⟩

def Pool.free (p : Pool) : Option Ctx × (Ctx → Option Ctx) := (p.userMemCtxNext, p.prev)

theorem Pool.put_take {p : Pool} {ctx : Ctx} (h : p.userMemCtxNext = some ctx) :
    ((p.take ctx).put ctx).free = p.free := by
  unfold Pool.put Pool.free
  cases hprev : p.prev ctx with
  | none =>
    have hlink : update p.prev ctx none = p.prev := by
      rw [← hprev, update_eq_self]
    simp [Pool.take, hprev, h, hlink]
  | some top =>
    have hlink : update p.prev ctx (some top) = p.prev := by
      rw [← hprev, update_eq_self]
    simp [Pool.take, hprev, h, hlink]

theorem memCtxAlloc_pool {w w' : World ρ} {r : Option Ctx} (h : memCtxAlloc L w = some (r, w')) :
    r = none ∧ w'.pool.free = w.pool.free ∨
      ∃ ctx, r = some ctx ∧ w.pool.userMemCtxNext = some ctx ∧ w'.pool.pml4 ctx ≠ 0 ∧
        (∀ c, w.pool.pml4 c ≠ 0 → w'.pool.pml4 c ≠ 0) ∧ (w'.pool.put ctx).free = w.pool.free := by
  unfold memCtxAlloc at h
  cases hnext : w.pool.userMemCtxNext with
  | none =>
    rw [hnext] at h
    cases h
    exact .inl ⟨rfl, rfl⟩
  | some ctx =>
    rw [hnext] at h
    obtain ⟨⟨pml4, low⟩, -, h⟩ := bind_eq_some_iff.mp h
    dsimp only at h
    split_ifs at h with hpml4
    · cases h
      exact .inl ⟨rfl, rfl⟩
    · obtain ⟨low', -, heq⟩ := map_eq_some_iff.mp h
      cases heq
      refine .inr ⟨ctx, rfl, rfl, ?_, fun c hc => ?_, ?_⟩
      · simpa [Pool.take] using hpml4
      · by_cases hcc : c = ctx
        · simpa [Pool.take, hcc] using hpml4
        · simpa [Pool.take, update_of_ne hcc] using hc
      · exact Pool.put_take hnext

end Comus.Contexts
