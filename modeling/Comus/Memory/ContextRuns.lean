import Comus.Lib.Chain
import Comus.Lib.Run
import Comus.Memory.Contexts

/-!
# Memory contexts over whole runs

`mem_ctx_clone` and the loop of `memory_init` join the functions of the pool. Over
every sequence of calls, with any failures of the layers below, a context is live or
in the pool and never both.
-/

namespace Comus.Contexts

open Chain Option List Function

/-- A `mem_ctx_t` that is not null: the kernel's context or an entry of the table. -/
inductive MemCtx where
  | kernel
  | user (ctx : Ctx)
  deriving Repr, DecidableEq

/-- The functions `mem_ctx_clone` calls besides, and the kernel's page tables. The flag
of `virtaddrClone` is set when it fails. -/
structure CloneLower (ρ : Type) extends Lower ρ where
  kernelPml4 : Nat
  pgdirClone : ρ → Nat → Bool → Option (Nat × ρ)
  virtaddrClone : ρ → MemCtx → Ctx → Option (Bool × ρ)

variable {ρ : Type} (L : CloneLower ρ)

def CloneLower.pml4 (p : Pool) : MemCtx → Nat
  | .kernel => L.kernelPml4
  | .user ctx => p.pml4 ctx

/-- Asserts that neither the old context nor its page tables are null. -/
def memCtxClone (w : World ρ) (cow : Bool) : Option MemCtx → Option (Option Ctx × World ρ)
  | none => none
  | some old =>
    if L.pml4 w.pool old = 0 then none
    else
      match w.pool.userMemCtxNext with
      | none => some (none, w)
      | some new =>
        (L.pgdirClone w.low (L.pml4 w.pool old) cow).bind fun (pml4, low) =>
          let pool := { w.pool with pml4 := update w.pool.pml4 new pml4 }
          if pml4 = 0 then some (none, ⟨pool, low⟩)
          else
            (L.virtaddrClone low old new).bind fun (failed, low) =>
              if failed then (L.pgdirFree low pml4).map fun low => (none, ⟨pool, low⟩)
              else some (some new, ⟨pool.take new, low⟩)

def Pool.link (p : Pool) (ctx : Ctx) : Pool :=
  Pool.put { p with
    next := update p.next ctx none
    prev := update p.prev ctx none } ctx

def memoryInit (p : Pool) : Pool := (finRange 256).foldl Pool.link p

def zeroPool : Pool := ⟨none, fun _ => none, fun _ => none, fun _ => 0⟩

inductive Op where
  | alloc
  | clone (old : Option MemCtx) (cow : Bool)
  | free (ctx : Ctx)
  deriving Repr, DecidableEq

structure State (ρ : Type) where
  world : World ρ
  live : List Ctx

def State.given (s : State ρ) : Option Ctx × World ρ → State ρ
  | (none, w) => ⟨w, s.live⟩
  | (some ctx, w) => ⟨w, ctx :: s.live⟩

def step (s : State ρ) : Op → Option (State ρ)
  | .alloc => (memCtxAlloc L.toLower s.world).map s.given
  | .clone old cow => (memCtxClone L s.world cow old).map s.given
  | .free ctx =>
    if ctx ∈ s.live then
      (memCtxFree L.toLower s.world (some ctx)).map fun w => ⟨w, s.live.erase ctx⟩
    else none

def Partitioned (p : Pool) (live : List Ctx) : Prop :=
  live.Nodup ∧ ∃ pooled, Seg p.prev p.userMemCtxNext pooled none ∧ pooled.Nodup ∧
    ∀ ctx, ctx ∈ live ∧ ctx ∉ pooled ∨ ctx ∉ live ∧ ctx ∈ pooled

def Pool.links (p : Pool) : Option Ctx × (Ctx → Option Ctx) × (Ctx → Option Ctx) :=
  (p.userMemCtxNext, p.prev, p.next)

structure Inv (p : Pool) (live pooled : List Ctx) : Prop where
  chain : Seg p.prev p.userMemCtxNext pooled none
  nodup : live.Nodup
  split : ∀ ctx, ctx ∈ live ↔ ctx ∉ pooled
  cleared : ∀ ctx ∈ live, p.prev ctx = none

variable {p p' : Pool} {live pooled : List Ctx} {ctx : Ctx}

theorem Inv.congr (h : Inv p live pooled) (hlinks : p'.links = p.links) : Inv p' live pooled := by
  obtain ⟨hnext, hprev, -⟩ : p'.userMemCtxNext = p.userMemCtxNext ∧ p'.prev = p.prev ∧
      p'.next = p.next := by simpa [Pool.links] using hlinks
  exact ⟨hnext ▸ hprev ▸ h.chain, h.nodup, h.split, hprev ▸ h.cleared⟩

theorem Inv.take (h : Inv p live pooled) (htop : p.userMemCtxNext = some ctx) :
    ∃ rest, pooled = ctx :: rest ∧ Inv (p.take ctx) (ctx :: live) rest := by
  cases pooled with
  | nil => cases htop.symm.trans h.chain
  | cons top rest =>
    obtain rfl : top = ctx := some.inj (h.chain.1.symm.trans htop)
    have hnot : top ∉ rest := (nodup_cons.mp h.chain.nodup).1
    refine ⟨rest, rfl, h.chain.2.update hnot none, ?_, fun c => ?_, fun c hc => ?_⟩
    · refine nodup_cons.mpr ⟨fun hlive => ?_, h.nodup⟩
      exact (h.split top).mp hlive mem_cons_self
    · rw [mem_cons, h.split c, mem_cons]
      by_cases hct : c = top
      · subst hct
        exact ⟨fun _ => hnot, fun _ => .inl rfl⟩
      · simp [hct]
    · change update p.prev top none c = none
      by_cases hct : c = top
      · rw [hct, update_self]
      · rw [update_of_ne hct]
        exact h.cleared c ((mem_cons.mp hc).resolve_left hct)

theorem Seg.put (h : Seg p.prev p.userMemCtxNext pooled none) (hnot : ctx ∉ pooled)
    (hclear : p.prev ctx = none) :
    Seg (p.put ctx).prev (p.put ctx).userMemCtxNext (ctx :: pooled) none := by
  unfold Pool.put
  cases htop : p.userMemCtxNext with
  | none =>
    rw [htop] at h
    refine ⟨rfl, ?_⟩
    change Seg p.prev (p.prev ctx) pooled none
    rw [hclear]
    exact h
  | some top =>
    rw [htop] at h
    refine ⟨rfl, ?_⟩
    change Seg (update p.prev ctx (some top))
      (update p.prev ctx (some top) ctx) pooled none
    rw [update_self]
    exact h.update hnot _

theorem Pool.put_prev_of_ne {c : Ctx} (h : c ≠ ctx) : (p.put ctx).prev c = p.prev c := by
  unfold Pool.put
  cases p.userMemCtxNext with
  | none => rfl
  | some top => exact update_of_ne h _ _

theorem Inv.put (h : Inv p live pooled) (hlive : ctx ∈ live) :
    Inv (p.put ctx) (live.erase ctx) (ctx :: pooled) := by
  have hnot := (h.split ctx).mp hlive
  refine ⟨Seg.put h.chain hnot (h.cleared ctx hlive), h.nodup.erase ctx, fun c => ?_,
    fun c hc => ?_⟩
  · rw [h.nodup.mem_erase_iff, h.split c, mem_cons, not_or]
  · obtain ⟨hne, hc⟩ := h.nodup.mem_erase_iff.mp hc
    rw [Pool.put_prev_of_ne hne]
    exact h.cleared c hc

theorem Inv.partitioned (h : Inv p live pooled) : Partitioned p live := by
  refine ⟨h.nodup, pooled, h.chain, h.chain.nodup, fun c => ?_⟩
  by_cases hc : c ∈ pooled
  · exact .inr ⟨fun hlive => (h.split c).mp hlive hc, hc⟩
  · exact .inl ⟨(h.split c).mpr hc, hc⟩

theorem foldl_link {xs pooled : List Ctx} (h : Seg p.prev p.userMemCtxNext pooled none)
    (hnodup : (xs.reverse ++ pooled).Nodup) :
    Seg (xs.foldl Pool.link p).prev (xs.foldl Pool.link p).userMemCtxNext
      (xs.reverse ++ pooled) none := by
  induction xs generalizing p pooled with
  | nil => exact h
  | cons x xs ih =>
    rw [reverse_cons, append_assoc, singleton_append] at hnodup ⊢
    have hx : x ∉ pooled := (nodup_cons.mp (nodup_append.mp hnodup).2.1).1
    exact ih (Seg.put (h.update hx none) hx (update_self _ _ _)) hnodup

theorem memoryInit_inv : Inv (memoryInit zeroPool) [] (finRange 256).reverse := by
  have hnodup : ((finRange 256).reverse ++ []).Nodup := by
    rw [append_nil]
    exact nodup_reverse.mpr (nodup_finRange 256)
  have hzero : Seg zeroPool.prev zeroPool.userMemCtxNext [] none := rfl
  have hchain := foldl_link hzero hnodup
  rw [append_nil] at hchain
  refine ⟨hchain, nodup_nil, fun c => ?_, fun c hc => absurd hc not_mem_nil⟩
  simp [mem_finRange]

variable {L} {w w' : World ρ} {r : Option Ctx}

def Gives (p p' : Pool) (r : Option Ctx) : Prop :=
  r = none ∧ p'.links = p.links ∨
    ∃ ctx, r = some ctx ∧ p.userMemCtxNext = some ctx ∧ p'.links = (p.take ctx).links

theorem memCtxAlloc_gives {l : Lower ρ} (h : memCtxAlloc l w = some (r, w')) :
    Gives w.pool w'.pool r := by
  unfold memCtxAlloc at h
  cases hnext : w.pool.userMemCtxNext with
  | none =>
    rw [hnext] at h
    cases h
    exact .inl ⟨rfl, rfl⟩
  | some ctx =>
    rw [hnext] at h
    obtain ⟨⟨pml4, low⟩, -, h⟩ := bind_eq_some_iff.mp h
    dsimp only at h
    split_ifs at h with hpml4
    · cases h
      exact .inl ⟨rfl, rfl⟩
    · obtain ⟨low', -, heq⟩ := map_eq_some_iff.mp h
      cases heq
      exact .inr ⟨ctx, rfl, hnext, rfl⟩

theorem memCtxClone_gives {cow : Bool} {old : Option MemCtx}
    (h : memCtxClone L w cow old = some (r, w')) : Gives w.pool w'.pool r := by
  cases old with
  | none => cases h
  | some old =>
    unfold memCtxClone at h
    dsimp only at h
    split_ifs at h with hold
    cases hnext : w.pool.userMemCtxNext with
    | none =>
      rw [hnext] at h
      cases h
      exact .inl ⟨rfl, rfl⟩
    | some new =>
      rw [hnext] at h
      obtain ⟨⟨pml4, low⟩, -, h⟩ := bind_eq_some_iff.mp h
      dsimp only at h
      split_ifs at h with hpml4
      · cases h
        exact .inl ⟨rfl, Prod.ext hnext.symm rfl⟩
      · obtain ⟨⟨failed, low'⟩, -, h⟩ := bind_eq_some_iff.mp h
        dsimp only at h
        split_ifs at h with hfailed
        · obtain ⟨low'', -, heq⟩ := map_eq_some_iff.mp h
          cases heq
          exact .inl ⟨rfl, Prod.ext hnext.symm rfl⟩
        · cases h
          exact .inr ⟨new, rfl, hnext, rfl⟩

theorem memCtxFree_pool {l : Lower ρ} (h : memCtxFree l w (some ctx) = some w') :
    w'.pool = w.pool.put ctx := by
  unfold memCtxFree at h
  dsimp only at h
  split_ifs at h
  obtain ⟨low, -, h⟩ := bind_eq_some_iff.mp h
  obtain ⟨low', -, heq⟩ := map_eq_some_iff.mp h
  cases heq
  rfl

theorem Inv.given {s : State ρ} (h : Inv s.world.pool s.live pooled) (hg : Gives s.world.pool w'.pool r) :
    ∃ pooled', Inv (s.given (r, w')).world.pool (s.given (r, w')).live pooled' := by
  rcases hg with ⟨rfl, hlinks⟩ | ⟨ctx, rfl, htop, hlinks⟩
  · exact ⟨pooled, h.congr hlinks⟩
  · obtain ⟨rest, -, hrest⟩ := h.take htop
    exact ⟨rest, hrest.congr hlinks⟩

theorem Inv.step (s : State ρ) (op : Op) (s' : State ρ)
    (h : ∃ pooled, Inv s.world.pool s.live pooled) (_ : Run.anyOp s op)
    (hstep : step L s op = some s') : ∃ pooled, Inv s'.world.pool s'.live pooled := by
  obtain ⟨pooled, h⟩ := h
  cases op with
  | alloc =>
    obtain ⟨⟨r, w'⟩, hcall, rfl⟩ := map_eq_some_iff.mp hstep
    exact h.given (memCtxAlloc_gives hcall)
  | clone old cow =>
    obtain ⟨⟨r, w'⟩, hcall, rfl⟩ := map_eq_some_iff.mp hstep
    exact h.given (memCtxClone_gives hcall)
  | free ctx =>
    unfold Contexts.step at hstep
    dsimp only at hstep
    split_ifs at hstep with hlive
    obtain ⟨w', hcall, rfl⟩ := map_eq_some_iff.mp hstep
    refine ⟨ctx :: pooled, ?_⟩
    change Inv w'.pool (s.live.erase ctx) (ctx :: pooled)
    rw [memCtxFree_pool hcall]
    exact h.put hlive

theorem Gives.links_of_none (h : Gives p p' none) : p'.links = p.links := by
  rcases h with ⟨-, hlinks⟩ | ⟨_, hsome, -, -⟩
  · exact hlinks
  · cases hsome

/-- In every state of a run the contexts are split between the live ones and the pool,
and a call that returns null leaves the pool as it is. -/
theorem contexts_partitioned (L : CloneLower ρ) (low : ρ) (s : State ρ)
    (hrun : Run.Reach (step L) Run.anyOp ⟨⟨memoryInit zeroPool, low⟩, []⟩ s) :
    Partitioned s.world.pool s.live ∧
      (∀ w', memCtxAlloc L.toLower s.world = some (none, w') →
        w'.pool.links = s.world.pool.links) ∧
      ∀ old cow w', memCtxClone L s.world cow old = some (none, w') →
        w'.pool.links = s.world.pool.links := by
  obtain ⟨pooled, h⟩ := hrun.invariant (I := fun s => ∃ pooled, Inv s.world.pool s.live pooled)
    (by dsimp only; exact ⟨_, memoryInit_inv⟩) Inv.step
  exact ⟨h.partitioned, fun w' hw => (memCtxAlloc_gives hw).links_of_none,
    fun old cow w' hw => (memCtxClone_gives hw).links_of_none⟩

def noClone : CloneLower Unit where
  pgdirAlloc _ := some (1, ())
  pgdirFree _ _ := some ()
  virtaddrInit _ _ := some ()
  virtaddrCleanup _ _ := some ()
  kernelPml4 := 1
  pgdirClone _ _ _ := some (1, ())
  virtaddrClone _ _ _ := some (true, ())

/-- Two contexts are handed out, a clone fails and the first one is given back. -/
theorem contexts_partitioned_noClone : ∃ s : State Unit, s.live = [254] ∧
    Partitioned s.world.pool s.live := by
  have hexec : (Run.exec (step noClone) ⟨⟨memoryInit zeroPool, ()⟩, []⟩
      [.alloc, .alloc, .clone (some (.user 254)) false, .free 255]).map State.live =
        some [254] := by decide +kernel
  obtain ⟨s, hs, hlive⟩ := map_eq_some_iff.mp hexec
  exact ⟨s, hlive, (contexts_partitioned noClone () s (Run.Reach.start.exec hs)).1⟩

end Comus.Contexts
