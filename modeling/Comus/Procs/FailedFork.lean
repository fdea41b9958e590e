import Comus.Procs.Clone
import Comus.Procs.Pids

/-!
# Forks that fail (kernel/user.c, kernel/syscall.c)

`user_clone` takes a control block and then clones the memory context. If that fails,
for whatever reason, it returns without the block: the block stays `NEW` and is in no
queue any more. So a failed fork leaves the process table alone only if it got no block
in the first place.
-/

namespace Comus.Procs

open Chain Word Option

variable {μ φ α β : Type} {ops : MemOps μ φ} {s s' t : State μ} {c i : Slot}

def freelistAt (s : State μ) (n : Nat) : Option Slot :=
  (fun p : Option Slot => p.bind s.next)^[n] (s.queues .freelist).head

/-- The unused blocks, the free list, the pool of memory contexts and the allocated
physical pages are as they were. The last two are any functions of the memory. -/
structure ForkKept (pool : μ → α) (pages : μ → β) (s s' : State μ) : Prop where
  unused : ∀ i, (s'.ptable i).state = .unused ↔ (s.ptable i).state = .unused
  freelist : ∀ n, freelistAt s' n = freelistAt s n
  pool : pool s'.mem = pool s.mem
  pages : pages s'.mem = pages s.mem

theorem pcbAlloc_eq_none_iff : pcbAlloc s = none ↔ (s.queues .freelist).head = none := by
  cases hhead : (s.queues .freelist).head with
  | none => simp [pcbAlloc, pcbQueuePop, hhead]
  | some child => simp [pcbAlloc_head hhead]

theorem allocated_freelist (s : State μ) (child : Slot) :
    ((allocated s child).queues .freelist).head = s.next child := by
  simp [allocated]

theorem allocated_next (s : State μ) (child : Slot) : (allocated s child).next child = none := by
  simp [allocated, State.next]

theorem allocated_freelistAt {child : Slot} (hhead : (s.queues .freelist).head = some child)
    (hnext : t.next child = (allocated s child).next child)
    (hqueues : t.queues = (allocated s child).queues) :
    ∃ n, freelistAt t n ≠ freelistAt s n := by
  have hhead' : (t.queues .freelist).head = s.next child := by
    rw [hqueues, allocated_freelist]
  by_cases hloop : s.next child = some child
  · -- the block is its own successor, until it is taken
    refine ⟨1, ?_⟩
    simp [freelistAt, hhead, hhead', hloop, hnext, allocated_next]
  · refine ⟨0, ?_⟩
    simpa [freelistAt, hhead, hhead'] using hloop

theorem sysFork_failed (h : sysFork ops s c = some (.ret (-1) t)) :
    (s.queues .freelist).head = none ∧ t = s ∨
      ∃ child, (s.queues .freelist).head = some child ∧
        t.next child = (allocated s child).next child ∧ t.queues = (allocated s child).queues := by
  rcases sysFork_cases h with ⟨hnone, heq⟩ | ⟨i, u, r, halloc, ⟨v, heq, hv⟩ | ⟨_, _, heq, -⟩⟩
  · cases heq
    exact .inl ⟨pcbAlloc_eq_none_iff.mp hnone, rfl⟩
  · cases heq
    obtain ⟨hhead, -⟩ := pcbAlloc_blocks halloc
    rw [pcbAlloc_head hhead] at halloc
    cases halloc
    refine .inr ⟨i, hhead, ?_, hv.queues⟩
    rw [hv.next, modify_next]
    exact fun _ => rfl
  · cases heq

theorem failed_fork_keeps_iff (ops : MemOps μ φ) (pool : μ → α) (pages : μ → β) (s t : State μ)
    (c : Slot) (hfail : sysFork ops s c = some (.ret (-1) t)) :
    ForkKept pool pages s t ↔ (s.queues .freelist).head = none := by
  rcases sysFork_failed hfail with ⟨hnone, rfl⟩ | ⟨child, hhead, hnext, hqueues⟩
  · exact ⟨fun _ => hnone, fun _ => ⟨fun _ => .rfl, fun _ => rfl, rfl, rfl⟩⟩
  · constructor
    · intro hkept
      obtain ⟨n, hn⟩ := allocated_freelistAt hhead hnext hqueues
      exact absurd (hkept.freelist n) hn
    · intro hnone
      cases hhead.symm.trans hnone

def fullOps : MemOps Unit Unit := { idleOps with memCtxClone := fun _ _ => some (0, ()) }

/-- With no block to take, nothing happens. -/
theorem failed_fork_keeps_empty :
    sysFork fullOps (freedTable () 0) 0 = some (.ret (-1) (freedTable () 0)) ∧
      ForkKept id id (freedTable () 0) (freedTable () 0) :=
  ⟨rfl, (failed_fork_keeps_iff fullOps id id _ _ 0 rfl).mpr rfl⟩

section Exhaust
variable {u : State Unit}

theorem sound_fork (u : State Unit) : Sound (φ := Unit) u (.syscall 2 0 0 none) := by
  have hnum : u64 2 = 2 := u64_of_lt (by norm_num)
  intro c _
  rw [hnum]
  refine ⟨fun h => ?_, fun h => ?_, fun h => ?_⟩
  · omega
  · cases h
  · cases h

theorem full_fork_step (h : Inv u) (hc : u.currentPcb = some c)
    (hfree : ∃ j, (u.ptable j).state = .unused) :
    ∃ i u', step fullOps u (.syscall 2 0 0 none) = some u' ∧ Inv u' ∧ u'.currentPcb = some c ∧
      (u'.ptable c).rax = toU64 (-1) ∧ (u.ptable i).state = .unused ∧
      ∀ j, (u'.ptable j).state = .unused ↔ (u.ptable j).state = .unused ∧ j ≠ i := by
  have hcore := h.enter hc 2 0 0
  have hstate : ∀ j, ((entered u c 2 0 0).ptable j).state = (u.ptable j).state := by
    intro j
    by_cases hj : j = c
    · simp [entered, hj]
    · rw [entered_ptable_of_ne hj]
  have hlinked := homeBut_nil (entered u c 2 0 0) ▸ hcore.linked
  obtain ⟨i, s2, halloc⟩ := Spare.alloc ⟨hlinked, hfree.imp fun j hj => (hstate j).trans hj⟩
  obtain ⟨hunused, -, -, hother, hself⟩ := pcbAlloc_spec hlinked halloc
  -- the block is taken and stays behind
  obtain ⟨t, hfork, ht⟩ : ∃ t, sysFork fullOps (entered u c 2 0 0) c = some (.ret (-1) t) ∧
      ∀ j, (t.ptable j).state = (s2.ptable j).state := by
    simp only [sysFork, userClone, halloc, fullOps, map_some, if_true, bind_some]
    refine ⟨_, rfl, fun j => ?_⟩
    simp only [modify_ptable]
    split_ifs with hj
    · rw [hj]
    · rfl
  have hstep : step fullOps u (.syscall 2 0 0 none) = some (finish c (.ret (-1) t)) := by
    have hnum : u64 2 = 2 := u64_of_lt (by norm_num)
    rw [step_syscall_eq hc, hnum, if_neg (by norm_num)]
    change (sysFork fullOps (entered u c 2 0 0) c).map (finish c) = _
    rw [hfork]
    rfl
  refine ⟨i, _, hstep, Inv.step u _ _ h (sound_fork u) hstep, rfl, ?_, (hstate i).symm.trans hunused,
    fun j => ?_⟩
  · rw [finish_ret_self]
    rfl
  · have hfinish : ((finish c (.ret (-1) t)).ptable j).state = (t.ptable j).state := by
      by_cases hj : j = c
      · rw [hj, finish_ret_self]
      · rw [finish_ret_ptable _ _ hj]
    rw [hfinish, ht j]
    by_cases hj : j = i
    · rw [hj, hself.state]
      simp
    · rw [(hother j hj).state, hstate j]
      simp [hj]

def unusedBlocks (s : State Unit) : Finset Slot :=
  Finset.univ.filter fun i => (s.ptable i).state = .unused

def FailedFork (s : State Unit) (op : Op Unit) : Prop :=
  op = .syscall 2 0 0 none ∧ ∃ c s', s.currentPcb = some c ∧ step fullOps s op = some s' ∧
    s'.currentPcb = some c ∧ (s'.ptable c).rax = toU64 (-1)

theorem failed_forks_run {s₀ : State Unit} (n : Nat) (h : Inv u) (hc : u.currentPcb = some c)
    (hn : (unusedBlocks u).card = n) (hreach : Run.Reach (step fullOps) FailedFork s₀ u) :
    ∃ u', Run.Reach (step fullOps) FailedFork s₀ u' ∧ unusedBlocks u' = ∅ := by
  induction n generalizing u with
  | zero => exact ⟨u, hreach, Finset.card_eq_zero.mp hn⟩
  | succ n ih =>
    obtain ⟨j, hj⟩ := Finset.card_pos.mp (by omega : 0 < (unusedBlocks u).card)
    obtain ⟨i, u', hstep, hinv, hcur, hrax, hi, hiff⟩ :=
      full_fork_step h hc ⟨j, (Finset.mem_filter.mp hj).2⟩
    have herase : unusedBlocks u' = (unusedBlocks u).erase i := by
      ext k
      simp only [unusedBlocks, Finset.mem_filter, Finset.mem_univ, true_and, Finset.mem_erase]
      rw [hiff k, and_comm]
    refine ih hinv hcur ?_ (.step _ hreach ⟨rfl, c, u', hc, hstep, hcur, hrax⟩ hstep)
    rw [herase, Finset.card_erase_of_mem (by simp [unusedBlocks, hi]), hn, Nat.add_sub_cancel]

end Exhaust

/-- Init alone, with no memory left: its forks fail until the process table is full. -/
theorem failed_forks_exhaust : ∃ s₀ s : State Unit, bootProcs fullOps () () = some s₀ ∧
    Run.Reach (step fullOps) FailedFork s₀ s ∧
      (∃ i, (s₀.ptable i).state = .unused) ∧ ∀ i, (s.ptable i).state ≠ .unused := by
  have hboot : ((bootProcs fullOps () ()).map fun s => (s.currentPcb, (s.ptable 1).state)) =
      some (some 0, .unused) := by
    rw [bootProcs, pcbInit_eq, bind_some]
    decide +kernel
  obtain ⟨s₀, hboot, hfacts⟩ := map_eq_some_iff.mp hboot
  simp only [Prod.mk.injEq] at hfacts
  obtain ⟨s, hreach, hnone⟩ := failed_forks_run _ (bootProcs_inv hboot) hfacts.1 rfl .start
  refine ⟨s₀, s, hboot, hreach, ⟨1, hfacts.2⟩, fun i hi => ?_⟩
  have hmem : i ∈ unusedBlocks s := Finset.mem_filter.mpr ⟨Finset.mem_univ i, hi⟩
  rw [hnone] at hmem
  exact absurd hmem (Finset.notMem_empty i)

end Comus.Procs
