import Comus.Procs.Exit

/-!
# What the operations do to the control blocks

A queue operation changes links, heads and tails only, whatever the queues look
like. So the effect of `pcb_zombify` on everything but the links can be read off
its branches: a waiting process is served with a dead child, or a block becomes a
zombie.
-/

namespace Comus.Procs

open Chain Option

variable {μ φ : Type} {ops : MemOps μ φ} {s s' : State μ}
  {i v r z p w d : Slot} {q : QueueId}

def Pcb.woken (p : Pcb) : Pcb := { p with state := .ready, syscall := 0 }

def Pcb.freed (p : Pcb) : Pcb := { p with state := .unused }

theorem SameBlocks.setMem (h : SameBlocks s s') (mem : μ) :
    SameBlocks { s with mem := mem } { s' with mem := mem } :=
  ⟨h.block, h.currentPcb, h.initPcb, h.nextPid, h.ticks, rfl⟩

theorem schedule_blocks (h : schedule s i = some s') : SameBlocks (s.modify i Pcb.woken) s' := by
  unfold schedule at h
  split_ifs at h with hdead
  split at h
  · rename_i t hins
    cases h
    exact pcbQueueInsert_blocks hins
  · cases h

theorem pcbFree_blocks (h : pcbFree s i = some s') : SameBlocks (s.modify i Pcb.freed) s' := by
  unfold pcbFree at h
  split at h
  · rename_i t hins
    cases h
    exact pcbQueueInsert_blocks hins
  · cases h

theorem becomeZombie_blocks (h : becomeZombie s i = some s') :
    SameBlocks (s.modify i fun p => { p with state := .zombie }) s' := by
  unfold becomeZombie at h
  split at h
  · rename_i t hins
    cases h
    exact pcbQueueInsert_blocks hins
  · cases h

theorem pcbQueuePop_head (h : pcbQueuePop s q = some (i, s')) : (s.queues q).head = some i := by
  unfold pcbQueuePop at h
  cases hhead : (s.queues q).head with
  | none => simp [hhead] at h
  | some k =>
    simp only [hhead, some.injEq, Prod.mk.injEq] at h
    rw [h.1]

theorem dispatch_blocks (h : dispatch s = some s') :
    s.currentPcb = none ∧ (s' = s ∨ ∃ i, (s.queues .ready).head = some i ∧
      SameBlocks { s.modify i Pcb.dispatched with currentPcb := some i } s') := by
  unfold dispatch at h
  split_ifs at h with hcur
  refine ⟨by simpa using hcur, ?_⟩
  split at h
  · exact .inl (some.inj h).symm
  · rename_i k t hpop
    cases h
    have hsame := pcbQueuePop_blocks hpop
    refine .inr ⟨k, pcbQueuePop_head hpop, fun j => ?_, rfl, hsame.initPcb, hsame.nextPid,
      hsame.ticks, hsame.mem⟩
    simp only [modify_ptable]
    split_ifs with hj
    · exact congrArg Pcb.dispatched (hsame.block k)
    · exact hsame.block j

def Pcb.allocated (pid : Nat) (p : Pcb) : Pcb := { p with pid := pid, state := .new }

theorem pcbAlloc_blocks (h : pcbAlloc s = some (i, s')) :
    (s.queues .freelist).head = some i ∧
      SameBlocks { s.modify i (Pcb.allocated s.nextPid) with nextPid := (s.nextPid + 1) % 2^16 }
        s' := by
  unfold pcbAlloc at h
  split at h
  · cases h
  · rename_i tmp t hpop
    cases h
    have hsame := pcbQueuePop_blocks hpop
    refine ⟨pcbQueuePop_head hpop, fun j => ?_, hsame.currentPcb, hsame.initPcb, ?_, hsame.ticks,
      hsame.mem⟩
    · have hblock := hsame.block j
      simp only [modify_ptable, hsame.nextPid]
      split_ifs with hj
      · subst hj
        exact congrArg (Pcb.allocated s.nextPid) hblock
      · exact hblock
    · rw [hsame.nextPid]

def releaseCtx (ops : MemOps μ φ) (mem : μ) (ctx : Nat) : Option μ :=
  if ctx ≠ 0 then ops.memCtxFree mem ctx else some mem

theorem pcbCleanup_blocks (h : pcbCleanup ops s d = some s') :
    releaseCtx ops s.mem (s.ptable d).memctx = some s'.mem ∧
      SameBlocks { s.modify d Pcb.freed with mem := s'.mem } s' := by
  unfold pcbCleanup at h
  unfold releaseCtx
  split_ifs at h ⊢ with hctx
  · obtain ⟨mem, hfree, h⟩ := bind_eq_some_iff.mp h
    have hblocks := pcbFree_blocks h
    have hmem : s'.mem = mem := hblocks.mem
    rw [hmem]
    exact ⟨hfree, hblocks⟩
  · have hblocks := pcbFree_blocks h
    have hmem : s'.mem = s.mem := hblocks.mem
    rw [hmem]
    exact ⟨rfl, hblocks⟩

/-- What the memory sees when the block `w` is told about the dead block `d`: the exit
status is stored, unless the status pointer is null, and the context of `d` goes. -/
def deliver (ops : MemOps μ φ) (mem : μ) (w d : Pcb) : Option μ :=
  (if w.rsi ≠ 0 then ops.store mem w.memctx w.rsi d.exitStatus else some mem).bind fun mem =>
    releaseCtx ops mem d.memctx

def served (s : State μ) (w d : Slot) : State μ :=
  (s.modify w fun b => { b with rax := (s.ptable d).pid, state := .ready, syscall := 0 }).modify d
    Pcb.freed

theorem served_ptable (hwd : w ≠ d) (i : Slot) :
    (served s w d).ptable i =
      if i = d then (s.ptable d).freed
      else if i = w then { s.ptable w with rax := (s.ptable d).pid, state := .ready, syscall := 0 }
      else s.ptable i := by
  unfold served
  rw [modify_ptable, modify_ptable, modify_ptable, if_neg hwd.symm]

theorem serve_blocks {e : Nat} (hwd : w ≠ d) (he : (s.ptable d).exitStatus = e)
    (h : ((storeStatus ops s w e).bind fun s =>
      (schedule s w).bind fun s => pcbCleanup ops s d) = some s') :
    deliver ops s.mem (s.ptable w) (s.ptable d) = some s'.mem ∧
      SameBlocks { (s.modify w Pcb.woken).modify d Pcb.freed with mem := s'.mem } s' := by
  obtain ⟨t, hstore, h⟩ := bind_eq_some_iff.mp h
  obtain ⟨u, hsched, hclean⟩ := bind_eq_some_iff.mp h
  obtain ⟨mem, rfl⟩ := storeStatus_eq hstore
  have hwoken := schedule_blocks hsched
  obtain ⟨hrelease, hfreed⟩ := pcbCleanup_blocks hclean
  have hctx : (u.ptable d).memctx = (s.ptable d).memctx := by
    rw [hwoken.field d Pcb.memctx fun _ => rfl, modify_ptable_of_ne _ _ hwd.symm]
  have hmem : u.mem = mem := hwoken.mem
  refine ⟨?_, ?_⟩
  · have hstored : (if (s.ptable w).rsi ≠ 0 then
        ops.store s.mem (s.ptable w).memctx (s.ptable w).rsi e else some s.mem) = some mem := by
      unfold storeStatus at hstore
      split_ifs at hstore ⊢
      · obtain ⟨m, hm, heq⟩ := map_eq_some_iff.mp hstore
        rw [hm]
        exact congrArg (fun x : State μ => some x.mem) heq
      · exact congrArg (Option.map State.mem) hstore
    rw [deliver, he, hstored, bind_some, ← hctx, ← hmem]
    exact hrelease
  · exact ((hwoken.modify (fun _ => rfl) d).setMem s'.mem).trans hfreed

theorem passToInit_cases (hzr : z ≠ r) (h : passToInit ops s r z = some s') :
    TakesZombie s r z ∧ deliver ops s.mem (s.ptable r) (s.ptable z) = some s'.mem ∧
        SameBlocks { served s r z with mem := s'.mem } s' ∨
      ¬ TakesZombie s r z ∧ SameBlocks { s.modify z Pcb.freed with mem := s'.mem } s' := by
  unfold passToInit at h
  split at h
  · rename_i s1 hrem1
    split at h
    · rename_i s2 hrem2
      have hsame := (pcbQueueRemove_blocks hrem1).trans (pcbQueueRemove_blocks hrem2)
      have htake : (argPid s2 r = 0 ∨ argPid s2 r = (s2.ptable z).pid) ↔ TakesZombie s r z := by
        unfold TakesZombie argPid
        rw [hsame.field r Pcb.rdi (fun _ => rfl), hsame.field z Pcb.pid (fun _ => rfl)]
      split_ifs at h with hmatch
      · refine .inl ⟨htake.mp hmatch, ?_⟩
        obtain ⟨hdeliver, hblocks⟩ := serve_blocks hzr.symm
          (by rw [modify_ptable_of_ne _ _ hzr]) h
        refine ⟨?_, ?_⟩
        · rw [← hdeliver, modify_ptable_self, modify_ptable_of_ne _ _ hzr]
          unfold deliver
          have hmem : s2.mem = s.mem := hsame.mem
          rw [show (s2.modify r _).mem = s2.mem from rfl, hmem,
            hsame.field r Pcb.rsi (fun _ => rfl), hsame.field r Pcb.memctx (fun _ => rfl),
            hsame.field z Pcb.exitStatus (fun _ => rfl), hsame.field z Pcb.memctx (fun _ => rfl)]
        · refine SameBlocks.trans (SameBlocks.setMem ?_ s'.mem) hblocks
          unfold served
          rw [modify_modify, hsame.field z Pcb.pid (fun _ => rfl)]
          exact (hsame.modify (fun _ => rfl) r).modify (fun _ => rfl) z
      · refine .inr ⟨fun hno => hmatch (htake.mpr hno), ?_⟩
        exact ((hsame.modify (fun _ => rfl) z).setMem s'.mem).trans (pcbCleanup_blocks h).2
    · cases h
  · cases h

theorem tellParent_cases (hpv : p ≠ v) (h : tellParent ops s p v = some s') :
    Awaited s p v ∧ deliver ops s.mem (s.ptable p) (s.ptable v) = some s'.mem ∧
        SameBlocks { served s p v with mem := s'.mem } s' ∨
      ¬ Awaited s p v ∧ SameBlocks (s.modify v fun b => { b with state := .zombie }) s' := by
  unfold tellParent at h
  split_ifs at h with hwait
  · refine .inl ⟨hwait, ?_⟩
    dsimp only at h
    split at h
    · rename_i s1 hrem
      have hsame := pcbQueueRemove_blocks hrem
      obtain ⟨hdeliver, hblocks⟩ := serve_blocks hpv rfl h
      refine ⟨?_, ?_⟩
      · rw [← hdeliver]
        unfold deliver
        have hmem : s1.mem = s.mem := hsame.mem
        rw [hmem, hsame.field p Pcb.rsi (fun _ => rfl), hsame.field p Pcb.memctx (fun _ => rfl),
          hsame.field v Pcb.exitStatus (fun _ => rfl), hsame.field v Pcb.memctx (fun _ => rfl),
          modify_ptable_self, modify_ptable_of_ne _ _ hpv.symm]
      · refine SameBlocks.trans (SameBlocks.setMem ?_ s'.mem) hblocks
        have hwoken := hsame.modify (f := Pcb.woken) (fun _ => rfl) p
        rw [modify_modify] at hwoken
        exact hwoken.modify (fun _ => rfl) v
    · cases h
  · exact .inr ⟨hwait, becomeZombie_blocks h⟩

end Comus.Procs
