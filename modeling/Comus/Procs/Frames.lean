import Comus.Procs.Delivery

/-!
# What the steps leave alone

Most of the kernel's steps touch the registers and the memory of a process, or
schedule and dispatch one. A relation between the control blocks before and after
that allows for this is kept by all of them: `Tame` says which changes it has to
allow for, `Framed` that all blocks are so related.
-/

namespace Comus.Procs

open Chain Word Option

variable {μ φ : Type} {ops : MemOps μ φ} {s s' t u : State μ} {c i : Slot} {q : QueueId}
variable {v : Slot} {h : Handled μ} {file : Option φ}

/-- Writes to fields other than the state, the kinship and the arguments are allowed, and a
process may become ready or running if its kinship stays. -/
structure Tame (R : Pcb → Pcb → Prop) : Prop where
  refl : ∀ p, R p p
  trans : ∀ {p p' p''}, R p p' → R p' p'' → R p p''
  same : ∀ {p p' : Pcb}, p'.state = p.state → p'.pid = p.pid → p'.parent = p.parent →
    p'.syscall = p.syscall → p'.rdi = p.rdi → p'.wakeup = p.wakeup → R p p'
  active : ∀ {p p' : Pcb}, p'.state = .ready ∨ p'.state = .running → p'.pid = p.pid →
    p'.parent = p.parent → R p p'

structure Framed (R : Pcb → Pcb → Prop) (s s' : State μ) : Prop where
  block : ∀ i, R (s.ptable i) (s'.ptable i)
  initPcb : s'.initPcb = s.initPcb

def EndsFramed (R : Pcb → Pcb → Prop) (s : State μ) : Handled μ → Prop
  | .ret _ t => Framed R s t
  | .dispatched t => Framed R s t

/-- The victim of `kill` is off its queue; a running victim makes the caller the one to die. -/
theorem killCall_cases (hcall : killCall s c = some (t, v)) :
    SameBlocks (s.modify v fun p => { p with exitStatus := 1 }) t ∧
      (v = c ∨ killVictim s c = some v ∧ Alive (s.ptable v)) := by
  obtain ⟨u, hvictim, hcall⟩ := bind_eq_some_iff.mp hcall
  cases hstate : (s.ptable u).state with
  | ready =>
    simp only [hstate] at hcall
    obtain ⟨r, hrem, heq⟩ := map_eq_some_iff.mp hcall
    cases heq
    exact ⟨pcbQueueRemove_blocks hrem, .inr ⟨hvictim, .inl hstate⟩⟩
  | blocked =>
    simp only [hstate] at hcall
    split_ifs at hcall with hlt
    obtain ⟨r, hrem, heq⟩ := map_eq_some_iff.mp hcall
    cases heq
    exact ⟨pcbQueueRemove_blocks hrem, .inr ⟨hvictim, .inr (.inr hstate)⟩⟩
  | running =>
    simp only [hstate] at hcall
    cases hcall
    exact ⟨SameBlocks.refl _, .inl rfl⟩
  | unused => simp [hstate] at hcall
  | new => simp [hstate] at hcall
  | zombie => simp [hstate] at hcall

section Tame

variable {R : Pcb → Pcb → Prop} (hR : Tame R)
include hR

theorem Framed.refl (s : State μ) : Framed R s s := ⟨fun _ => hR.refl _, rfl⟩

theorem Framed.trans (h : Framed R s u) (h' : Framed R u t) : Framed R s t :=
  ⟨fun i => hR.trans (h.block i) (h'.block i), h'.initPcb.trans h.initPcb⟩

theorem SameBlocks.framed (h : SameBlocks s s') : Framed R s s' where
  block i := hR.same (h.kin i).state (h.kin i).pid (h.kin i).parent (h.kin i).syscall
    (h.field i Pcb.rdi fun _ => rfl) (h.field i Pcb.wakeup fun _ => rfl)
  initPcb := h.initPcb

theorem framed_modify {f : Pcb → Pcb} (h : R (s.ptable i) (f (s.ptable i))) :
    Framed R s (s.modify i f) := by
  refine ⟨fun j => ?_, rfl⟩
  rw [modify_ptable]
  split_ifs with hj
  · rw [hj]
    exact h
  · exact hR.refl _

theorem schedule_framed (h : schedule s i = some s') : Framed R s s' :=
  (framed_modify hR (hR.active (.inl rfl) rfl rfl)).trans hR ((schedule_blocks h).framed hR)

theorem dispatch_framed (h : dispatch s = some s') : Framed R s s' := by
  rcases dispatch_blocks h with ⟨-, rfl | ⟨k, -, hblocks⟩⟩
  · exact Framed.refl hR s'
  · have hrun : Framed R s (s.modify k Pcb.dispatched) :=
      framed_modify hR (hR.active (.inr rfl) rfl rfl)
    have hrest : Framed R { s.modify k Pcb.dispatched with currentPcb := some k } s' :=
      hblocks.framed hR
    exact hrun.trans hR ⟨hrest.block, hrest.initPcb⟩

theorem EndsFramed.of_framed (hf : Framed R s t) (he : EndsFramed R t h) :
    EndsFramed R s h := by
  cases h with
  | ret code u => exact hf.trans hR he
  | dispatched u => exact hf.trans hR he

theorem handOver_framed (hh : handOver s = some h) : EndsFramed R s h := by
  obtain ⟨t, ht, rfl⟩ := map_eq_some_iff.mp hh
  exact dispatch_framed hR ht

theorem yield_framed (hh : (schedule s c).bind handOver = some h) :
    EndsFramed R s h := by
  obtain ⟨t, hsched, hh⟩ := bind_eq_some_iff.mp hh
  exact EndsFramed.of_framed hR (schedule_framed hR hsched) (handOver_framed hR hh)

theorem rax_framed (f : Pcb → Nat) (s : State μ) (c : Slot) :
    Framed R s (s.modify c fun p => { p with rax := f p }) :=
  framed_modify hR (hR.same rfl rfl rfl rfl rfl rfl)

theorem Touched.framed (h : Touched s t) : Framed R s t :=
  ⟨fun i => hR.same (h.kin i).state (h.kin i).pid (h.kin i).parent (h.kin i).syscall (h.rdi i)
    (h.wakeup i), h.initPcb⟩

theorem sysExec_framed (hh : sysExec ops file s c = some h) :
    EndsFramed R s h := by
  unfold sysExec at hh
  cases file with
  | none => exact some.inj hh ▸ Framed.refl hR s
  | some file =>
    obtain ⟨⟨image, mem⟩, -, hh⟩ := bind_eq_some_iff.mp hh
    cases image with
    | none => exact some.inj hh ▸ ⟨fun _ => hR.refl _, rfl⟩
    | some image =>
      obtain ⟨mem', -, hh⟩ := bind_eq_some_iff.mp hh
      obtain ⟨t, hsched, hh⟩ := bind_eq_some_iff.mp hh
      refine EndsFramed.of_framed hR ?_ (handOver_framed hR hh)
      have hblocks := schedule_blocks hsched
      refine Framed.trans hR (u := s.modify c fun p => (Pcb.load image p).woken) ?_ ?_
      · exact framed_modify hR (hR.active (.inl rfl) rfl rfl)
      · refine ⟨fun i => ?_, hblocks.initPcb⟩
        have hsame := (hblocks.framed hR).block i
        simp only [modify_ptable, if_true] at hsame ⊢
        split_ifs at hsame ⊢ with hi
        · exact hsame
        · exact hsame

theorem sysKill_framed (hcall : killCall s c = none)
    (hh : sysKill ops s c = some h) : EndsFramed R s h := by
  unfold killCall killVictim at hcall
  unfold sysKill at hh
  cases hv : pcbFindPid s (argPid s c) with
  | none =>
    rw [hv] at hh
    exact some.inj hh ▸ Framed.refl hR s
  | some v =>
    simp only [hv] at hh hcall
    obtain ⟨owner, howner, hrest⟩ := bind_eq_some_iff.mp hh
    cases owner with
    | none => exact some.inj hrest ▸ Framed.refl hR s
    | some o =>
      simp only [howner, bind_some] at hcall hrest
      cases hstate : (s.ptable v).state with
      | zombie =>
        simp only [hstate] at hrest
        exact some.inj hrest ▸ Framed.refl hR s
      | unused =>
        simp only [hstate] at hrest
        exact some.inj hrest ▸ Framed.refl hR s
      | new =>
        simp only [hstate] at hrest
        exact some.inj hrest ▸ Framed.refl hR s
      | running =>
        simp only [hstate] at hcall
        cases hcall
      | ready =>
        simp only [hstate] at hcall hrest
        rw [map_eq_none_iff] at hcall
        rw [hcall] at hrest
        cases hrest
      | blocked =>
        simp only [hstate] at hcall hrest
        split_ifs at hcall hrest with hlt
        rw [map_eq_none_iff] at hcall
        rw [hcall] at hrest
        cases hrest

theorem handler_framed {num : Nat} (hexit : num ≠ 0)
    (hwait : num ≠ 1) (hfork : num ≠ 2) (hkill : num ≠ 13) (hsleep : num ≠ 14)
    (hh : handler ops num file s c = some h) : EndsFramed R s h := by
  by_cases hexec : num = 3
  · rw [hexec] at hh
    exact sysExec_framed hR hh
  · obtain ⟨code, t, rfl, ht⟩ := handler_touches
      (by simp [hexit, hwait, hfork, hexec, hkill, hsleep]) hh
    exact ht.framed hR

theorem exit_framed (e : Pcb → Nat) (s : State μ) (i : Slot) :
    Framed R s (s.modify i fun p => { p with exitStatus := e p }) :=
  framed_modify hR (hR.same rfl rfl rfl rfl rfl rfl)

theorem killCall_framed (hcall : killCall s c = some (t, v)) : Framed R s t :=
  (exit_framed hR (fun _ => 1) s v).trans hR ((killCall_cases hcall).1.framed hR)

theorem wakeSleepers_framed {fuel : Nat} (h : wakeSleepers fuel s = some s') : Framed R s s' := by
  induction fuel generalizing s with
  | zero => exact absurd h (by simp [wakeSleepers])
  | succ fuel ih =>
    unfold wakeSleepers at h
    split at h
    · exact some.inj h ▸ Framed.refl hR s
    · split_ifs at h
      · exact some.inj h ▸ Framed.refl hR s
      · split at h
        · rename_i t hrem
          obtain ⟨u, hsched, h⟩ := bind_eq_some_iff.mp h
          exact (((pcbQueueRemove_blocks hrem).framed hR).trans hR (schedule_framed hR hsched)).trans
            hR (ih h)
        · cases h

theorem pcbOnTick_framed (h : pcbOnTick s = some s') : Framed R s s' := by
  unfold pcbOnTick at h
  split_ifs at h with hinit
  · exact some.inj h ▸ Framed.refl hR s
  · obtain ⟨t, hwake, h⟩ := bind_eq_some_iff.mp h
    refine (wakeSleepers_framed hR hwake).trans hR ?_
    split at h
    · exact some.inj h ▸ Framed.refl hR t
    · rename_i pcb hcur
      simp only at h
      have hcount : Framed R t (t.modify pcb fun p => { p with ticks := sub64 p.ticks 1 }) :=
        framed_modify hR (hR.same rfl rfl rfl rfl rfl rfl)
      refine hcount.trans hR ?_
      split_ifs at h
      · obtain ⟨u, hsched, hd⟩ := bind_eq_some_iff.mp h
        have hrest : Framed R { u with currentPcb := none } s' := dispatch_framed hR hd
        exact (schedule_framed hR hsched).trans hR ⟨hrest.block, hrest.initPcb⟩
      · exact some.inj h ▸ Framed.refl hR _

theorem tick_framed (h : step ops s .tick = some s') : Framed R s s' := by
  obtain ⟨t, htick, h⟩ := bind_eq_some_iff.mp h
  have hwake : Framed R { s with ticks := u64 (s.ticks + 1) } t := pcbOnTick_framed hR htick
  refine Framed.trans hR (u := t) ⟨hwake.block, hwake.initPcb⟩ ?_
  split_ifs at h
  · exact dispatch_framed hR h
  · exact some.inj h ▸ Framed.refl hR t

end Tame

/-!
## Calls that leave blocked and living processes alone

Most of the kernel's steps neither block a process nor end one. `Quiet` says this of
two states: who lives goes on living as the same child of the same parent, and who is
blocked has been blocked before, in the same system call with the same arguments.
-/

variable {p p' : Pcb} {op : Op φ}

theorem Inv.onQueue_iff (h : Inv s) : OnQueue s q i ↔ s.home i = some q := by
  rw [h.core.linked.onQueue_iff, homeBut_nil]

def Living (p : Pcb) : Prop := p.state ≠ .unused ∧ p.state ≠ .zombie

structure Moved (p p' : Pcb) : Prop where
  living : Living p → Living p' ∧ p'.pid = p.pid ∧ p'.parent = p.parent
  blocked : p'.state = .blocked →
    p.state = .blocked ∧ p'.syscall = p.syscall ∧ p'.rdi = p.rdi ∧ p'.wakeup = p.wakeup

theorem Moved.refl (p : Pcb) : Moved p p :=
  ⟨fun h => ⟨h, rfl, rfl⟩, fun h => ⟨h, rfl, rfl, rfl⟩⟩

theorem Moved.trans {p'' : Pcb} (h : Moved p p') (h' : Moved p' p'') : Moved p p'' := by
  refine ⟨fun hl => ?_, fun hb => ?_⟩
  · obtain ⟨hl', hpid, hparent⟩ := h.living hl
    obtain ⟨hl'', hpid', hparent'⟩ := h'.living hl'
    exact ⟨hl'', hpid'.trans hpid, hparent'.trans hparent⟩
  · obtain ⟨hb', hsys', hrdi', hwake'⟩ := h'.blocked hb
    obtain ⟨hb, hsys, hrdi, hwake⟩ := h.blocked hb'
    exact ⟨hb, hsys'.trans hsys, hrdi'.trans hrdi, hwake'.trans hwake⟩

theorem Moved.of_eq (hstate : p'.state = p.state) (hpid : p'.pid = p.pid)
    (hparent : p'.parent = p.parent) (hsys : p'.syscall = p.syscall) (hrdi : p'.rdi = p.rdi)
    (hwake : p'.wakeup = p.wakeup) : Moved p p' := by
  refine ⟨fun h => ⟨?_, hpid, hparent⟩, fun h => ⟨hstate ▸ h, hsys, hrdi, hwake⟩⟩
  rwa [Living, hstate]

theorem Moved.of_active (hliving : Living p') (hblocked : p'.state ≠ .blocked)
    (hpid : p'.pid = p.pid) (hparent : p'.parent = p.parent) : Moved p p' :=
  ⟨fun _ => ⟨hliving, hpid, hparent⟩, fun h => absurd h hblocked⟩

theorem moved_tame : Tame Moved where
  refl := Moved.refl
  trans := Moved.trans
  same := Moved.of_eq
  active := by
    intro p p' hstate hpid hparent
    refine Moved.of_active ?_ ?_ hpid hparent
    · rcases hstate with h | h <;> simp [Living, h]
    · rcases hstate with h | h <;> simp [h]

def Quiet (s s' : State μ) : Prop := ∀ i, Moved (s.ptable i) (s'.ptable i)

theorem Quiet.refl (s : State μ) : Quiet s s := fun _ => Moved.refl _

theorem Quiet.trans (h : Quiet s u) (h' : Quiet u t) : Quiet s t :=
  fun i => (h i).trans (h' i)

theorem SameBlocks.quiet (h : SameBlocks s s') : Quiet s s' := (h.framed moved_tame).block

theorem quiet_modify {f : Pcb → Pcb} (h : Moved (s.ptable i) (f (s.ptable i))) :
    Quiet s (s.modify i f) := (framed_modify moved_tame h).block

theorem schedule_quiet (h : schedule s i = some s') : Quiet s s' :=
  (schedule_framed moved_tame h).block

theorem dispatch_quiet (h : dispatch s = some s') : Quiet s s' :=
  (dispatch_framed moved_tame h).block

def EndsQuiet (s : State μ) : Handled μ → Prop
  | .ret _ t => Quiet s t
  | .dispatched t => Quiet s t

theorem EndsFramed.quiet (hf : EndsFramed Moved s h) : EndsQuiet s h := by
  cases h with
  | ret code t => exact hf.block
  | dispatched t => exact hf.block

theorem Moved.of_unused (h : p.state = .unused) (h' : p'.state ≠ .blocked) :
    Moved p p' :=
  ⟨fun hl => absurd h hl.1, fun hb => absurd hb h'⟩

theorem sysFork_quiet (hcore : Core s [] (some c)) (hh : sysFork ops s c = some h) : EndsQuiet s h := by
  rcases sysFork_cases hh with ⟨-, rfl⟩ | ⟨i, u, r, halloc, hcases⟩
  · exact Quiet.refl s
  · obtain ⟨hunused, -, -, -, hself⟩ := pcbAlloc_spec (homeBut_nil s ▸ hcore.linked) halloc
    have hblocks := (pcbAlloc_blocks halloc).2
    -- whatever becomes of the new block, the others are only touched
    have hothers : ∀ {t : State μ} {f : Pcb → Pcb}, Touched (u.modify i f) t → ∀ j, j ≠ i →
        Moved (s.ptable j) (t.ptable j) := by
      intro t f ht j hj
      have hold := hblocks.quiet j
      have hnew := (ht.framed moved_tame).block j
      simp only [modify_ptable, if_neg hj] at hold hnew
      exact hold.trans hnew
    rcases hcases with ⟨t, rfl, ht⟩ | ⟨t, t', rfl, hsched, ht⟩
    · intro j
      by_cases hj : j = i
      · subst hj
        have hchild := (ht.kin j).state
        rw [modify_ptable_self] at hchild
        exact Moved.of_unused hunused (by simp [hchild, hself.state])
      · exact hothers ht j hj
    · intro j
      by_cases hj : j = i
      · subst hj
        refine Moved.of_unused hunused ?_
        rw [(kin_self_of_modify (schedule_blocks hsched)).state]
        simp [Pcb.woken]
      · exact (hothers ht j hj).trans (schedule_quiet hsched j)

theorem handler_quiet {num : Nat} (hcore : Core s [] (some c))
    (hexit : num ≠ 0) (hwait : num ≠ 1) (hkill : num ≠ 13) (hsleep : num ≠ 14)
    (hh : handler ops num file s c = some h) : EndsQuiet s h := by
  by_cases hfork : num = 2
  · rw [hfork] at hh
    exact sysFork_quiet hcore hh
  · exact (handler_framed moved_tame hexit hwait hfork hkill hsleep hh).quiet

theorem Inv.entered_quiet (h : Inv s) (hc : s.currentPcb = some c) (rax rdi rsi : Nat) :
    Quiet s (entered s c rax rdi rsi) := by
  have hrun : (s.ptable c).state = .running := (h.core.kin.running c).mpr hc
  intro i
  by_cases hi : i = c
  · rw [hi]
    rw [entered_ptable_self]
    exact Moved.of_active (by simp [Living, hrun]) (by simp [hrun]) rfl rfl
  · rw [entered_ptable_of_ne hi]
    exact Moved.refl _

theorem finish_ret_quiet (code : Int) (h : (s.ptable c).state = .running) :
    Quiet s (finish c (.ret code s)) := by
  intro i
  by_cases hi : i = c
  · rw [hi, finish_ret_self]
    exact Moved.of_active (by simp [Living, h]) (by simp [h]) rfl rfl
  · rw [finish_ret_ptable code s hi]
    exact Moved.refl _

theorem finish_quiet (hq : EndsQuiet s h) (he : Ends c h) :
    Quiet s (finish c h) := by
  cases h with
  | dispatched t => exact hq
  | ret code t => exact Quiet.trans (u := t) hq (finish_ret_quiet code (Core.caller he))

/-- What a step can do to blocked and living processes: nothing, block the caller in
`waitpid` or in `sleep`, or end a process. -/
inductive Effect (ops : MemOps μ φ) (s : State μ) : Op φ → State μ → Prop where
  | tick {s' : State μ} (quiet : Quiet s s') : Effect ops s .tick s'
  | call {rax rdi rsi : Nat} {file : Option φ} {s' : State μ} (notWait : u64 rax ≠ 1)
      (quiet : Quiet s s') : Effect ops s (.syscall rax rdi rsi file) s'
  | wait {c : Slot} {rax rdi rsi : Nat} {file : Option φ} {t s' : State μ} (num : u64 rax = 1)
      (caller : s.currentPcb = some c)
      (blocks : SameBlocks
        ((entered s c rax rdi rsi).modify c fun p => { p with state := .blocked }) t)
      (core : Core t [] none) (dispatched : dispatch t = some s') : Effect ops s (.syscall rax rdi rsi file) s'
  | sleep {c : Slot} {rax rdi rsi : Nat} {file : Option φ} {t s' : State μ} (num : u64 rax = 14)
      (caller : s.currentPcb = some c) (duration : u64 rdi ≠ 0)
      (blocks : SameBlocks ((entered s c rax rdi rsi).modify c fun p =>
        { p with wakeup := u64 (s.ticks + p.rdi), state := .blocked }) t)
      (quiet : Quiet t s') : Effect ops s (.syscall rax rdi rsi file) s'
  | exit {op : Op φ} {v : Slot} {t t' s' : State μ} (call : zombifyCall s op = some (t, v))
      (zombify : pcbZombify ops t v = some t') (before : Quiet s t) (after : Quiet t' s') :
      Effect ops s op s'

theorem zombifyCall_quiet (h : Inv s) (hcall : zombifyCall s op = some (t, v)) : Quiet s t := by
  cases op with
  | tick => exact absurd hcall (by simp [zombifyCall])
  | syscall rax rdi rsi file =>
    cases hc : s.currentPcb with
    | none =>
      unfold zombifyCall at hcall
      simp [hc] at hcall
    | some c =>
      refine (h.entered_quiet hc rax rdi rsi).trans ?_
      simp only [zombifyCall, hc] at hcall
      split_ifs at hcall
      · exact (Prod.mk.inj (some.inj hcall)).1 ▸ (exit_framed moved_tame _ _ c).block
      · exact (Prod.mk.inj (some.inj hcall)).1 ▸ (exit_framed moved_tame _ _ c).block
      · exact (killCall_framed moved_tame hcall).block

theorem exit_effect (h : Inv s) (hsound : Sound s op)
    (hcall : zombifyCall s op = some (t, v)) (hstep : step ops s op = some s') :
    Effect ops s op s' := by
  have hafter := Inv.step s op s' h hsound hstep
  obtain ⟨t', hz, hrest⟩ := step_of_zombifyCall hcall hstep
  refine .exit hcall hz (zombifyCall_quiet h hcall) ?_
  rcases hrest with hd | ⟨c, -, rfl⟩
  · exact dispatch_quiet hd
  · -- the caller of `kill` goes on
    have hrun := (hafter.core.kin.running c).mpr rfl
    rw [finish_ret_self] at hrun
    exact finish_ret_quiet 0 hrun

theorem step_effect (h : Inv s) (hsound : Sound s op)
    (hstep : step ops s op = some s') : Effect ops s op s' := by
  cases op with
  | tick => exact .tick (tick_framed moved_tame hstep).block
  | syscall rax rdi rsi file =>
    cases hcall : zombifyCall s (.syscall rax rdi rsi file) with
    | some call => exact exit_effect h hsound hcall hstep
    | none =>
      cases hc : s.currentPcb with
      | none =>
        simp only [step, hc] at hstep
        cases hstep
      | some c =>
        have hcore := h.enter hc rax rdi rsi
        have hentered := h.entered_quiet hc rax rdi rsi
        have hsys : ((entered s c rax rdi rsi).ptable c).syscall = u64 rax := by simp [entered]
        have hrdi : ((entered s c rax rdi rsi).ptable c).rdi = u64 rdi := by simp [entered]
        obtain ⟨-, hwait, -⟩ := hsound c hc
        simp only [zombifyCall, hc] at hcall
        rw [step_syscall_eq hc] at hstep
        split_ifs at hcall hstep with hbad hexit hkill
        · obtain ⟨hd, hh, rfl⟩ := map_eq_some_iff.mp hstep
          have hends := h.handled hsound hc hh
          rw [hkill] at hh
          exact .call (by rw [hkill]; decide)
            (hentered.trans (finish_quiet (sysKill_framed moved_tame hcall hh).quiet hends))
        · obtain ⟨hd, hh, rfl⟩ := map_eq_some_iff.mp hstep
          have hends := h.handled hsound hc hh
          by_cases hone : u64 rax = 1
          · rw [hone] at hh
            obtain ⟨t, htcore, hblocks, hover⟩ := sysWaitpid_blocks hcore (hsys.trans hone)
              (hwait hone) hh
            obtain ⟨u, hd, rfl⟩ := map_eq_some_iff.mp hover
            exact .wait hone hc hblocks htcore hd
          · by_cases hsleep : u64 rax = 14
            · rw [hsleep] at hh
              by_cases hdur : u64 rdi = 0
              · have hyield : sysSleep (entered s c rax rdi rsi) c = some hd := hh
                unfold sysSleep at hyield
                rw [if_pos (hrdi.trans hdur)] at hyield
                have hframed := EndsFramed.of_framed moved_tame
                  (rax_framed moved_tame (fun _ => 0) _ c) (yield_framed moved_tame hyield)
                exact .call hone (hentered.trans (finish_quiet hframed.quiet hends))
              · obtain ⟨t, -, hblocks, hover⟩ := sysSleep_blocks hcore (hsys.trans hsleep)
                  (by rw [hrdi]; exact hdur) hh
                obtain ⟨u, hd, rfl⟩ := map_eq_some_iff.mp hover
                exact .sleep hsleep hc hdur hblocks (dispatch_quiet hd)
            · exact .call hone (hentered.trans
                (finish_quiet (handler_quiet hcore hexit hone hkill hsleep hh) hends))

end Comus.Procs
