import Comus.Procs.Delivery

/-!
# The two orders of exit and waitpid

If the parent waits first, the exit of the child serves it. If the child exits
first, `sys_waitpid` cleans the zombie up where it stands: the block goes to the
free list and stays in the zombie queue.
-/

namespace Comus.Procs

open Chain Word Option List

variable {μ φ : Type} {ops : MemOps μ φ} {s s' t t' : State μ} {c i v p z : Slot}
  {loc : Slot → Option QueueId} {run : Option Slot} {q : QueueId}

structure Reaped (s : State μ) (p d : Slot) (pid : Nat) : Prop where
  result : (s.ptable p).rax = pid
  unused : (s.ptable d).state = .unused
  free : OnQueue s .freelist d
  only : ∀ q, OnQueue s q d → q = .freelist

theorem OnQueue.congr (h : OnQueue s q i) (hnext : s'.next = s.next)
    (hhead : (s'.queues q).head = (s.queues q).head) : OnQueue s' q i := by
  obtain ⟨xs, hxs⟩ := h
  exact ⟨xs, by rw [hnext, hhead]; exact hxs⟩

theorem Linked.insert_keeps {q' : QueueId} (h : Linked s loc) (hi : loc i = some q) (hq : q ≠ q')
    (hins : pcbQueueInsert s q' i = some (.success, s')) : OnQueue s' q i := by
  obtain ⟨lists, hlists, hmem⟩ := h.lists
  obtain ⟨xs, ys, hsplit⟩ := append_of_mem ((hmem i q).mpr hi)
  have hseg := (hlists q).seg
  rw [hsplit] at hseg
  have hnodup := hseg.nodup
  obtain ⟨m, hxs, hm, -⟩ := seg_append.mp hseg
  subst hm
  obtain ⟨hqueues, hnext⟩ := h.insert_frame hins
  refine ⟨xs, ?_⟩
  rw [hqueues q hq]
  -- the links in front of the block are those of other members of its own queue
  refine hxs.congr fun x hx => hnext x ?_ ?_
  · exact fun hxi => disjoint_of_nodup_append hnodup hx (hxi ▸ mem_cons_self)
  · rw [(hmem x q).mp (hsplit ▸ mem_append_left _ hx)]
    exact fun hqq => hq (some.inj hqq)

theorem Core.cleanup_keeps {out : List Slot} (h : Core s out run) (hout : z ∉ out)
    (hz : (s.ptable z).state = .zombie) (hc : pcbCleanup ops s z = some s') :
    OnQueue s' .zombie z := by
  have hloc : s.homeBut out z = some .zombie := by
    rw [State.homeBut, if_neg hout]
    simp [State.home, home, hz]
  have hfree : ∀ u : State μ, Linked u (s.homeBut out) → pcbFree u z = some s' →
      OnQueue s' .zombie z := by
    intro u hu hf
    unfold pcbFree at hf
    split at hf
    · rename_i w hins
      cases hf
      have hne : QueueId.zombie ≠ .freelist := by simp
      have hmod : Linked (u.modify z fun b => { b with state := .unused }) (s.homeBut out) :=
        hu.modify fun _ => rfl
      exact hmod.insert_keeps hloc hne hins
    · cases hf
  unfold pcbCleanup at hc
  split_ifs at hc with hctx
  · obtain ⟨mem, -, hc⟩ := bind_eq_some_iff.mp hc
    exact hfree _ (h.setMem mem).linked hc
  · exact hfree s h.linked hc

/-- `waitpid` never reaps a zombie properly: it takes another one, or leaves this one in
the zombie queue. -/
theorem sysWaitpid_not_reaped {h : Handled μ} {pid : Nat} (hcore : Core s [] (some c))
    (hz : (s.ptable z).state = .zombie) (hreap : reapable s c z = true)
    (hh : sysWaitpid ops s c = some h) : ¬ Reaped (finish c h) c z pid := by
  intro hreaped
  have hzc : z ≠ c := by
    rintro rfl
    cases hz.symm.trans hcore.caller
  cases hfind : (finRange 256).find? (reapable s c) with
  | none => exact absurd hreap (find?_eq_none.mp hfind z (mem_finRange z))
  | some child =>
    simp only [sysWaitpid, hfind] at hh
    obtain ⟨mem, -, hh⟩ := bind_eq_some_iff.mp hh
    obtain ⟨u, hclean, rfl⟩ := map_eq_some_iff.mp hh
    by_cases hchild : child = z
    · subst hchild
      have hzombie : OnQueue u .zombie child := (hcore.setMem mem).cleanup_keeps (by simp) hz hclean
      have hon : OnQueue (finish c (.ret (u.ptable child).pid u)) .zombie child :=
        hzombie.congr (finish_ret_next _ u c) rfl
      exact absurd (hreaped.only _ hon) (by simp)
    · have hstate : ((finish c (.ret (u.ptable child).pid u)).ptable z).state = .zombie := by
        have hkept := (pcbCleanup_blocks hclean).2.field z Pcb.state fun _ => rfl
        have hother := modify_ptable_of_ne { s with mem := mem } Pcb.freed (Ne.symm hchild)
        rw [finish_ret_ptable _ u hzc, hkept]
        exact (congrArg Pcb.state hother).trans hz
      cases hstate.symm.trans hreaped.unused

/-- The exit of a child its parent waits for. Should the parent be init and inherit a
zombie at the same time, it gets that one instead. -/
theorem Core.reaped_by_exit (h : Core t [v] run) (hnot : NotWaiting t) (halive : Alive (t.ptable v))
    (hsound : SoundExit t v) (hparent : (t.ptable v).parent = some p) (hwait : Awaited t p v)
    (hheir : t.initPcb = some p → lastZombie t v = none) (hz : pcbZombify ops t v = some t') :
    Reaped t' p v (t.ptable v).pid ∧
      ∃ mem, deliver ops mem (t.ptable p) (t.ptable v) = some t'.mem := by
  have hafter := h.zombify hnot halive hsound hz
  obtain ⟨hpid, p', t1, hparent', hhand, htell⟩ := pcbZombify_cases hz
  cases hparent'.symm.trans hparent
  have hinit := h.not_init hpid
  obtain ⟨p, hp, hpalive, hpv⟩ := h.kin.parents v (.inl halive) hinit
  cases hp.symm.trans hparent
  obtain ⟨ds, hin⟩ := h.inherited hnot halive hinit hsound hhand
  have hpfst : ∀ d, (p, d) ∉ ds := fun d hd => by
    obtain ⟨hr, hlast⟩ := hin.heir p d hd
    rw [hheir hr] at hlast
    cases hlast
  obtain ⟨hpctx, hprsi, hprdi, -, -, hpsys, -⟩ := hin.block hpfst (hin.not_delivered hpalive)
  obtain ⟨hvctx, -, -, hvexit, hvpid, -, -⟩ :=
    hin.block (fun d hd => (hin.each v d hd).1 rfl) (hin.not_delivered halive)
  rcases tellParent_cases hpv htell with ⟨-, hdeliver, hblocks⟩ | ⟨hno, -⟩
  · have hserves : Serves ops t1 t' p v := ⟨hdeliver, hblocks, hpv⟩
    have hon : ∀ q, OnQueue t' q v ↔ q = .freelist := fun q => by
      rw [hafter.linked.onQueue_iff, homeBut_nil, State.home, home, hserves.dead]
      simp [eq_comm]
    refine ⟨⟨hserves.waiter.2.2.trans hvpid, hserves.dead, (hon _).mpr rfl, fun q => (hon q).mp⟩,
      t1.mem, ?_⟩
    rw [← deliver_congr t1.mem hprsi hpctx hvexit hvctx]
    exact hdeliver
  · refine absurd ⟨hpsys ▸ hwait.1, ?_⟩ hno
    have htake := hwait.2
    unfold TakesZombie argPid at htake ⊢
    rwa [hprdi, hvpid]

/-- In every state of a run of sound steps: a parent that calls `waitpid` for a child that
is already a zombie never gets it reaped; a parent that waits already when the child dies
always does, with the exit status stored through its status pointer. -/
theorem waitpid_orders_differ (ops : MemOps μ φ) (file : φ) (mem : μ) (s₀ s : State μ)
    (hboot : bootProcs ops file mem = some s₀) (hrun : Run.Reach (step ops) Sound s₀ s) :
    (∀ (p z : Slot) (rdi rsi : Nat) (exe : Option φ), s.currentPcb = some p →
      (s.ptable z).state = .zombie → (s.ptable z).parent = some p →
      u64 rdi % 2^16 = 0 ∨ u64 rdi % 2^16 = (s.ptable z).pid →
      ¬ ∃ s', step ops s (.syscall 1 rdi rsi exe) = some s' ∧ Reaped s' p z (s.ptable z).pid) ∧
    ∀ (op : Op φ) (p v : Slot) (t t' : State μ), zombifyCall s op = some (t, v) →
      SoundExit t v → (t.ptable v).parent = some p → Awaited t p v →
      (t.initPcb = some p → lastZombie t v = none) → pcbZombify ops t v = some t' →
      Reaped t' p v (t.ptable v).pid ∧
        ∃ mem, deliver ops mem (t.ptable p) (t.ptable v) = some t'.mem := by
  have hinv := hrun.invariant (bootProcs_inv hboot) Inv.step
  refine ⟨?_, ?_⟩
  · rintro p z rdi rsi exe hp hz hparent harg ⟨s', hstep, hreaped⟩
    have hcore := hinv.enter hp 1 rdi rsi
    have hzp : z ≠ p := by
      rintro rfl
      have hrunning := hcore.caller
      rw [show ((entered s z 1 rdi rsi).ptable z).state = (s.ptable z).state by
        simp [entered], hz] at hrunning
      cases hrunning
    have hsame := entered_ptable_of_ne (s := s) hzp 1 rdi rsi
    have hreap : reapable (entered s p 1 rdi rsi) p z = true := by
      unfold reapable argPid
      rw [hsame, hz, hparent]
      simpa [entered] using harg
    have hone : u64 1 = 1 := u64_of_lt (by decide)
    rw [step_syscall_eq hp, if_neg (by rw [hone]; decide), hone] at hstep
    obtain ⟨h, hh, rfl⟩ := map_eq_some_iff.mp hstep
    exact sysWaitpid_not_reaped hcore (by rw [hsame]; exact hz) hreap hh hreaped
  · intro op p v t t' hcall hsound hparent hwait hheir hz
    obtain ⟨run, hcore, hnot, halive⟩ := hinv.zombifyCall hcall
    exact hcore.reaped_by_exit hnot halive hsound hparent hwait hheir hz

/-- Init has forked and yielded, and its child (slot 1) has exited. -/
theorem waitpid_orders_differ_fork : ∃ s : State Unit,
    s.currentPcb = some 0 ∧ (s.ptable 1).state = .zombie ∧
      ¬ ∃ s', step idleOps s (.syscall 1 0 0 none) = some s' ∧ Reaped s' 0 1 (s.ptable 1).pid := by
  obtain ⟨s₀, s, hboot, hreach, hrun⟩ := booted_reach Sound
    [.syscall 2 0 0 none, .syscall 14 0 0 none, .syscall 0 7 0 none]
    (fun s => (s.currentPcb, (s.ptable 1).state, (s.ptable 1).parent))
    (some 0, .zombie, some 0) (by decide +kernel)
  simp only [Prod.mk.injEq] at hrun
  obtain ⟨hcur, hstate, hparent⟩ := hrun
  have hzero : u64 0 % 2^16 = 0 := by rw [u64_of_lt (by decide), Nat.zero_mod]
  exact ⟨s, hcur, hstate, (waitpid_orders_differ idleOps () () s₀ s hboot hreach).1 0 1 0 0 none
    hcur hstate hparent (.inl hzero)⟩

/-- The child exits first: after `waitpid` its block is free, with the right result in the
parent's register, and still at the head of the zombie queue. -/
theorem exit_then_waitpid_not_reaped : ∃ s₀ s s' : State Unit,
    bootProcs idleOps () () = some s₀ ∧ Run.Reach (step idleOps) Run.anyOp s₀ s ∧
      (s.ptable 1).state = .zombie ∧ (s.ptable 1).parent = some 0 ∧
      step idleOps s (.syscall 1 0 0 none) = some s' ∧ (s'.ptable 0).rax = (s.ptable 1).pid ∧
      ¬ Reaped s' 0 1 (s.ptable 1).pid := by
  obtain ⟨s₀, hboot, hrun⟩ := booted_run (fun s₀ =>
      (Run.exec (step idleOps) s₀ [.syscall 2 0 0 none, .syscall 14 0 0 none,
        .syscall 0 7 0 none]).bind fun s =>
          (step idleOps s (.syscall 1 0 0 none)).map fun s' =>
            ((s.ptable 1).state, (s.ptable 1).parent, (s.ptable 1).pid, (s'.ptable 0).rax,
              (s'.queues .zombie).head)) (.zombie, some 0, 2, 2, some 1) (by decide +kernel)
  obtain ⟨s, hexec, hrun⟩ := bind_eq_some_iff.mp hrun
  obtain ⟨s', hstep, hrun⟩ := map_eq_some_iff.mp hrun
  simp only [Prod.mk.injEq] at hrun
  obtain ⟨hstate, hparent, hpid, hrax, hhead⟩ := hrun
  refine ⟨s₀, s, s', hboot, Run.Reach.start.exec hexec, hstate, hparent, hstep,
    hrax.trans hpid.symm, fun hreaped => ?_⟩
  have hon : OnQueue s' .zombie 1 := ⟨[], hhead⟩
  exact absurd (hreaped.only _ hon) (by simp)

end Comus.Procs
