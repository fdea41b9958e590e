import Comus.Procs.Frames

/-!
# Whom a waiting process waits for

A process in the waitpid queue should have a living child that its argument names.
Nothing takes this away from it: the child's exit wakes it. But `sys_waitpid` never
returns an error, so the queue is entered without such a child as well.
-/

namespace Comus.Procs

open Chain Word Option

variable {μ φ : Type} {ops : MemOps μ φ} {s s' t t' : State μ} {c i v p w : Slot}
  {run : Option Slot} {op : Op φ}

def Waiting (s : State μ) (w : Slot) : Prop :=
  (s.ptable w).state = .blocked ∧ (s.ptable w).syscall = SYS_waitpid

def HasChild (s : State μ) (w : Slot) : Prop :=
  ∃ d, Living (s.ptable d) ∧ (s.ptable d).parent = some w ∧
    (argPid s w = 0 ∨ argPid s w = (s.ptable d).pid)

def AllHopeful (s : State μ) : Prop :=
  ∀ w, OnQueue s (.syscall SYS_waitpid) w → HasChild s w

theorem Inv.onQueue_waitpid (h : Inv s) : OnQueue s (.syscall SYS_waitpid) w ↔ Waiting s w :=
  h.onQueue_iff.trans home_syscall_iff

theorem Inv.allHopeful_iff (h : Inv s) : AllHopeful s ↔ ∀ w, Waiting s w → HasChild s w :=
  forall_congr' fun _ => by rw [h.onQueue_waitpid]

theorem Moved.waiting (h : Moved (s.ptable w) (s'.ptable w)) (hw : Waiting s' w) :
    Waiting s w ∧ argPid s' w = argPid s w := by
  obtain ⟨hblocked, hsys, hrdi, -⟩ := h.blocked hw.1
  refine ⟨⟨hblocked, hsys ▸ hw.2⟩, ?_⟩
  unfold argPid
  rw [hrdi]

theorem Quiet.hopeful (hq : Quiet s s') (h : ∀ w, Waiting s w → HasChild s w) :
    ∀ w, Waiting s' w → HasChild s' w := by
  intro w hw
  obtain ⟨hwait, harg⟩ := (hq w).waiting hw
  obtain ⟨d, hliving, hparent, hasked⟩ := h w hwait
  obtain ⟨hliving', hpid, hparent'⟩ := (hq d).living hliving
  refine ⟨d, hliving', hparent'.trans hparent, ?_⟩
  rw [harg, hpid]
  exact hasked

theorem HandedOver.quiet (h : HandedOver ops t v t') (hinit : ∀ r, t.initPcb = some r →
    (t.ptable r).state ≠ .zombie) : Quiet (adopted t v) t' := by
  rcases h with ⟨rfl, -⟩ | ⟨r, z, hr, hlast, -, hpass⟩
  · exact Quiet.refl _
  · have hz : ((adopted t v).ptable z).state = .zombie := by
      rw [(adopted_state t v z).1]
      exact (lastZombie_spec hlast).1
    have hzr : z ≠ r := by
      rintro rfl
      exact hinit z hr (lastZombie_spec hlast).1
    have hfreed : ∀ b : Pcb, b.state = .zombie → Moved b b.freed := fun b hb =>
      ⟨fun hl => absurd hb hl.2, fun hl => absurd hl (by simp [Pcb.freed])⟩
    rcases passToInit_cases hzr hpass with ⟨-, -, hblocks⟩ | ⟨-, hblocks⟩
    · refine Quiet.trans (u := served (adopted t v) r z) (fun i => ?_) hblocks.quiet
      rw [served_ptable hzr.symm]
      split_ifs with hiz hir
      · rw [hiz]
        exact hfreed _ hz
      · rw [hir]
        exact Moved.of_active (by simp [Living]) (by simp) rfl rfl
      · exact Moved.refl _
    · refine Quiet.trans (u := (adopted t v).modify z Pcb.freed) (quiet_modify ?_) hblocks.quiet
      exact hfreed _ hz

theorem tellParent_moved (hpv : p ≠ v) (h : tellParent ops t p v = some t') :
    (∀ i, i ≠ v → Moved (t.ptable i) (t'.ptable i)) ∧ (t'.ptable v).state ≠ .blocked ∧
      (Awaited t p v → (t'.ptable p).state ≠ .blocked) := by
  rcases tellParent_cases hpv h with ⟨-, hdeliver, hblocks⟩ | ⟨hno, hblocks⟩
  · have hserves : Serves ops t t' p v := ⟨hdeliver, hblocks, hpv⟩
    refine ⟨fun i hi => ?_, by simp [hserves.dead], fun _ => by simp [hserves.waiter.1]⟩
    have hmoved := hblocks.quiet i
    refine Moved.trans ?_ hmoved
    show Moved _ ((served t p v).ptable i)
    rw [served_ptable hpv, if_neg hi]
    split_ifs with hip
    · rw [hip]
      exact Moved.of_active (by simp [Living]) (by simp) rfl rfl
    · exact Moved.refl _
  · refine ⟨fun i hi => ?_, ?_, fun hwait => absurd hwait hno⟩
    · have hmoved := hblocks.quiet i
      rwa [modify_ptable_of_ne _ _ hi] at hmoved
    · rw [(kin_self_of_modify hblocks).state]
      simp

theorem Core.zombify_moved (hcore : Core t [v] run) (halive : Alive (t.ptable v))
    (hz : pcbZombify ops t v = some t') :
    ∃ p t1, (t.ptable v).parent = some p ∧ Quiet (Procs.adopted t v) t1 ∧
      (∀ i, i ≠ v → Moved (t1.ptable i) (t'.ptable i)) ∧ (t'.ptable v).state ≠ .blocked ∧
      (Awaited t1 p v → (t'.ptable p).state ≠ .blocked) := by
  obtain ⟨hpid, p, t1, hparent, hhand, htell⟩ := pcbZombify_cases hz
  obtain ⟨p', hp', -, hpv⟩ := hcore.kin.parents v (.inl halive) (hcore.not_init hpid)
  obtain rfl : p' = p := some.inj (hp'.symm.trans hparent)
  refine ⟨p', t1, hparent, hhand.quiet fun r hr => ?_, tellParent_moved hpv htell⟩
  obtain ⟨r', hr', hralive, -⟩ := hcore.kin.init
  cases hr'.symm.trans hr
  exact hralive.not_zombie

theorem Core.zombify_hopeful (hcore : Core t [v] run) (halive : Alive (t.ptable v))
    (hz : pcbZombify ops t v = some t') (h : ∀ w, Waiting t w → HasChild t w) :
    ∀ w, Waiting t' w → HasChild t' w := by
  obtain ⟨p, t1, hparent, hfirst, hsecond, hvdead, hwoken⟩ := hcore.zombify_moved halive hz
  intro w hw
  have hwv : w ≠ v := fun hwv => hvdead (hwv ▸ hw.1)
  obtain ⟨hw1, harg1⟩ := (hsecond w hwv).waiting hw
  obtain ⟨hw0, harg0⟩ := (hfirst w).waiting hw1
  have hwt : Waiting t w := by
    rwa [Waiting, (adopted_state t v w).1, (adopted_state t v w).2.1] at hw0
  have harg : argPid t' w = argPid t w := by
    rw [harg1, harg0]
    unfold argPid
    rw [(adopted_state t v w).2.2.2.2]
  obtain ⟨d, hliving, hdparent, hasked⟩ := h w hwt
  have hadopt : Living ((Procs.adopted t v).ptable d) := by
    rwa [Living, (adopted_state t v d).1]
  obtain ⟨hliving1, hpid1, hparent1⟩ := (hfirst d).living hadopt
  rw [(adopted_state t v d).2.2.1] at hpid1
  rw [adopted_parent_of_ne (by rw [hdparent]; simpa using hwv)] at hparent1
  by_cases hdv : d = v
  · -- the victim was the child, so its parent has been woken
    subst hdv
    cases hdparent.symm.trans hparent
    refine absurd hw.1 (hwoken ⟨hw1.2, ?_⟩)
    unfold TakesZombie
    rw [← harg1, harg, hpid1]
    exact hasked
  · obtain ⟨hliving', hpid', hparent'⟩ := (hsecond d hdv).living hliving1
    refine ⟨d, hliving', hparent'.trans (hparent1.trans hdparent), ?_⟩
    rw [harg, hpid', hpid1]
    exact hasked

def WaitOk (s : State μ) : Op φ → Prop
  | .tick => True
  | .syscall rax rdi rsi _ => u64 rax = SYS_waitpid →
      ∀ c, s.currentPcb = some c → HasChild (entered s c rax rdi rsi) c

theorem WaitOk.of_call {rax rdi rsi : Nat} {file : Option φ} (h : u64 rax ≠ 1) :
    WaitOk s (Op.syscall rax rdi rsi file) :=
  fun hnum => absurd hnum h

structure SameFamily (b b' : Pcb) : Prop where
  living : Living b' ↔ Living b
  parent : b'.parent = b.parent
  pid : b'.pid = b.pid
  rdi : b'.rdi = b.rdi

theorem SameFamily.trans {b b' b'' : Pcb} (h : SameFamily b b') (h' : SameFamily b' b'') :
    SameFamily b b'' :=
  ⟨h'.living.trans h.living, h'.parent.trans h.parent, h'.pid.trans h.pid, h'.rdi.trans h.rdi⟩

theorem SameFamily.of_unlinked {b b' : Pcb} (h : b'.unlinked = b.unlinked) : SameFamily b b' := by
  have hkin := SameKin.of_unlinked h
  have hrdi := congrArg Pcb.rdi h
  exact ⟨by rw [Living, Living, hkin.state], hkin.parent, hkin.pid, hrdi⟩

theorem hasChild_congr (h : ∀ i, SameFamily (s.ptable i) (s'.ptable i)) :
    HasChild s' w ↔ HasChild s w := by
  unfold HasChild argPid
  refine exists_congr fun d => ?_
  rw [(h d).living, (h d).parent, (h d).pid, (h w).rdi]

theorem wait_sameFamily (hrun : (s.ptable c).state = .running)
    (hblocks : SameBlocks (s.modify c fun b => { b with state := .blocked }) t)
    (hcore : Core t [] none) (hd : dispatch t = some s') (i : Slot) :
    SameFamily (s.ptable i) (s'.ptable i) := by
  have hmod : SameFamily (s.ptable i)
      ((s.modify c fun b => { b with state := .blocked }).ptable i) := by
    rw [modify_ptable]
    split_ifs with hi
    · rw [hi]
      exact ⟨by simp [Living, hrun], rfl, rfl, rfl⟩
    · exact ⟨.rfl, rfl, rfl, rfl⟩
  refine (hmod.trans (SameFamily.of_unlinked (hblocks.block i))).trans ?_
  rcases hcore.dispatch_block hd i with hsame | ⟨hready, hsame⟩
  · exact SameFamily.of_unlinked hsame
  · refine SameFamily.trans ?_ (SameFamily.of_unlinked hsame)
    exact ⟨by simp [Living, Pcb.dispatched, hready], rfl, rfl, rfl⟩

section Inv

variable (h : Inv s) (hs : ∀ w, Waiting s w → HasChild s w)
include h hs

theorem wait_hopeful_iff {rax rdi rsi : Nat} (hnum : u64 rax = 1) (hc : s.currentPcb = some c)
    (hblocks : SameBlocks
      ((entered s c rax rdi rsi).modify c fun b => { b with state := .blocked }) t)
    (hcore : Core t [] none) (hd : dispatch t = some s') :
    (∀ w, Waiting s' w → HasChild s' w) ↔ HasChild (entered s c rax rdi rsi) c := by
  have hrun := (h.enter hc rax rdi rsi).caller
  have hfamily : ∀ w, HasChild s' w ↔ HasChild (entered s c rax rdi rsi) w :=
    fun w => hasChild_congr (wait_sameFamily hrun hblocks hcore hd)
  have hself := kin_self_of_modify hblocks
  constructor
  · intro hall
    refine (hfamily c).mp (hall c ?_)
    rcases hcore.dispatch_block hd c with hsame | ⟨hready, -⟩
    · have hkin := SameKin.of_unlinked hsame
      refine ⟨hkin.state.trans hself.state, hkin.syscall.trans (hself.syscall.trans ?_)⟩
      simp [entered, hnum, SYS_waitpid]
    · cases hself.state.symm.trans hready
  · intro hchild w hw
    by_cases hwc : w = c
    · rw [hwc]
      exact (hfamily c).mpr hchild
    · obtain ⟨hwt, -⟩ := (dispatch_quiet hd w).waiting hw
      obtain ⟨hwe, -⟩ := (hblocks.quiet w).waiting hwt
      unfold Waiting at hwe
      rw [modify_ptable_of_ne _ _ hwc] at hwe
      exact (hfamily w).mpr ((h.entered_quiet hc rax rdi rsi).hopeful hs w hwe)

theorem sleep_hopeful {rax rdi rsi : Nat} (hnum : u64 rax = 14) (hc : s.currentPcb = some c)
    (hblocks : SameBlocks ((entered s c rax rdi rsi).modify c fun b =>
      { b with wakeup := u64 (s.ticks + b.rdi), state := .blocked }) t)
    (hq : Quiet t s') : ∀ w, Waiting s' w → HasChild s' w := by
  have hrun := (h.enter hc rax rdi rsi).caller
  refine hq.hopeful (hblocks.quiet.hopeful fun w hw => ?_)
  by_cases hwc : w = c
  · have hsys := hw.2
    rw [hwc, modify_ptable_self] at hsys
    simp [entered, hnum, SYS_waitpid] at hsys
  · have hwe : Waiting (entered s c rax rdi rsi) w := by
      unfold Waiting at hw
      rwa [modify_ptable_of_ne _ _ hwc] at hw
    have hchild := (h.entered_quiet hc rax rdi rsi).hopeful hs w hwe
    refine (hasChild_congr fun i => ?_).mpr hchild
    rw [modify_ptable]
    split_ifs with hi
    · rw [hi]
      exact ⟨by simp [Living, hrun], rfl, rfl, rfl⟩
    · exact ⟨.rfl, rfl, rfl, rfl⟩

theorem Effect.hopeful_iff (he : Effect ops s op s') : (∀ w, Waiting s' w → HasChild s' w) ↔ WaitOk s op := by
  cases he with
  | tick hq => exact ⟨fun _ => trivial, fun _ => hq.hopeful hs⟩
  | call hnot hq => exact ⟨fun _ => WaitOk.of_call hnot, fun _ => hq.hopeful hs⟩
  | sleep hnum hc hdur hblocks hq =>
    exact ⟨fun _ => WaitOk.of_call (by rw [hnum]; decide),
      fun _ => sleep_hopeful h hs hnum hc hblocks hq⟩
  | exit hcall hz hbefore hafter =>
    obtain ⟨run, hcore, -, halive⟩ := h.zombifyCall hcall
    have hall := hafter.hopeful (hcore.zombify_hopeful halive hz (hbefore.hopeful hs))
    refine ⟨fun _ => ?_, fun _ => hall⟩
    cases op with
    | tick => trivial
    | syscall rax rdi rsi file =>
      refine WaitOk.of_call fun hone => ?_
      cases hc : s.currentPcb <;> simp [zombifyCall, hc, hone] at hcall
  | wait hnum hc hblocks hcore hd =>
    rw [wait_hopeful_iff h hs hnum hc hblocks hcore hd]
    constructor
    · intro hchild _ c' hc'
      cases hc.symm.trans hc'
      exact hchild
    · exact fun hok => hok hnum _ hc

end Inv

theorem bootProcs_not_blocked {file : φ} {mem : μ} (hboot : bootProcs ops file mem = some s)
    (i : Slot) : (s.ptable i).state ≠ .blocked := by
  obtain ⟨r, u, hd, -, -, -, hfirst, hrest⟩ := bootProcs_loaded hboot
  intro hblocked
  -- a block that is blocked now has been blocked in the table `load_init` filled in
  have hstate := (dispatch_quiet hd i).blocked hblocked
  by_cases hi : i = r
  · rw [hi, hfirst.state] at hstate
    exact absurd hstate.1 (by simp)
  · rw [(hrest i hi).state] at hstate
    exact absurd hstate.1 (by simp [zeroPcb])

/-- Runs in which every `waitpid` finds no zombie and has a living child to wait for: every
process in the waitpid queue has a child to wait for, and the next sound step keeps it so
exactly if it is no `waitpid` without such a child. -/
theorem waiters_hopeful_iff (ops : MemOps μ φ) (file : φ) (mem : μ) (s₀ s : State μ)
    (hboot : bootProcs ops file mem = some s₀)
    (hrun : Run.Reach (step ops) (fun s op => Sound s op ∧ WaitOk s op) s₀ s) :
    AllHopeful s ∧ ∀ (op : Op φ) (s' : State μ), Sound s op → step ops s op = some s' →
      (AllHopeful s' ↔ WaitOk s op) := by
  have hinv : Inv s ∧ ∀ w, Waiting s w → HasChild s w := by
    refine hrun.invariant (I := fun s => Inv s ∧ ∀ w, Waiting s w → HasChild s w) ?_ ?_
    · exact ⟨bootProcs_inv hboot, fun w hw => absurd hw.1 (bootProcs_not_blocked hboot w)⟩
    · rintro s op s' ⟨h, hs⟩ ⟨hsound, hok⟩ hstep
      exact ⟨Inv.step s op s' h hsound hstep,
        ((step_effect h hsound hstep).hopeful_iff h hs).mpr hok⟩
  obtain ⟨h, hs⟩ := hinv
  refine ⟨h.allHopeful_iff.mpr hs, fun op s' hsound hstep => ?_⟩
  rw [(Inv.step s op s' h hsound hstep).allHopeful_iff]
  exact (step_effect h hsound hstep).hopeful_iff h hs

instance (p : Pcb) : Decidable (Living p) := inferInstanceAs (Decidable (_ ∧ _))

instance (s : State μ) (w : Slot) : Decidable (HasChild s w) :=
  inferInstanceAs (Decidable (∃ d, Living (s.ptable d) ∧ (s.ptable d).parent = some w ∧
    (argPid s w = 0 ∨ argPid s w = (s.ptable d).pid)))

instance (s : State μ) (op : Op φ) : Decidable (WaitOk s op) :=
  match op with
  | .tick => isTrue trivial
  | .syscall rax rdi rsi _ =>
    inferInstanceAs (Decidable (u64 rax = SYS_waitpid →
      ∀ c ∈ s.currentPcb, HasChild (entered s c rax rdi rsi) c))

/-- Init forks and waits for any child. -/
theorem waiters_hopeful_iff_fork : ∃ s : State Unit,
    OnQueue s (.syscall SYS_waitpid) 0 ∧ AllHopeful s := by
  obtain ⟨s₀, s, hboot, hreach, hhead⟩ := booted_reach (fun s op => Sound s op ∧ WaitOk s op)
    [.syscall 2 0 0 none, .syscall 1 0 0 none] (fun s => (s.queues (.syscall SYS_waitpid)).head)
    (some 0) (by decide +kernel)
  exact ⟨s, ⟨[], hhead⟩, (waiters_hopeful_iff idleOps () () s₀ s hboot hreach).1⟩

/-- Init calls `waitpid` without having any child: it is blocked for good. -/
theorem childless_waitpid_blocks : ∃ s₀ s : State Unit, bootProcs idleOps () () = some s₀ ∧
    step idleOps s₀ (.syscall 1 0 0 none) = some s ∧ OnQueue s (.syscall SYS_waitpid) 0 ∧
      ¬ AllHopeful s := by
  obtain ⟨s₀, hboot, hrun⟩ := booted_run (fun s₀ =>
      (step idleOps s₀ (.syscall 1 0 0 none)).map fun s =>
        ((s.queues (.syscall SYS_waitpid)).head, decide (HasChild s 0)))
    (some 0, false) (by decide +kernel)
  obtain ⟨s, hstep, hrun⟩ := map_eq_some_iff.mp hrun
  simp only [Prod.mk.injEq, decide_eq_false_iff_not] at hrun
  have hon : OnQueue s (.syscall SYS_waitpid) 0 := ⟨[], hrun.1⟩
  exact ⟨s₀, s, hboot, hstep, hon, fun hall => hrun.2 (hall 0 hon)⟩

end Comus.Procs
