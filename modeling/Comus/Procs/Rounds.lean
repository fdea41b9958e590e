import Comus.Procs.Family

/-!
# Processes that come and go

A process forks, waits, and its child exits: with memory to spare the three calls
succeed and lead back to where they started, except that the counter of process ids has
moved. So the counter can be brought to any number.
-/

namespace Comus.Procs

open Chain Word Option List

variable {s s' t : State Unit} {c i j v p r a : Slot} {run : Option Slot}
  {n : Nat}
variable {rax rdi rsi : Nat} {s₀ : State Unit}

theorem handler_step {file : Option Unit} {h : Handled Unit}
    (hc : s.currentPcb = some c) (hnum : u64 rax < 24)
    (hh : handler idleOps (u64 rax) file (entered s c rax rdi rsi) c = some h) :
    step idleOps s (.syscall rax rdi rsi file) = some (finish c h) := by
  rw [step_syscall_eq hc, if_neg (by omega), hh]
  rfl

theorem returned_kin {code : Int} (h : Inv s) (hc : s.currentPcb = some c)
    (ht : SameKin (t.ptable c) ((entered s c rax rdi rsi).ptable c)) :
    SameKin ((finish c (.ret code t)).ptable c) (s.ptable c) := by
  rw [finish_ret_self]
  rw [entered_ptable_self] at ht
  exact ⟨ht.state, (h.returned c hc).symm, ht.parent, ht.pid⟩

theorem userClone_runs {s2 : State Unit} (halloc : pcbAlloc s = some (i, s2)) :
    ∃ s1, userClone idleOps s c = some (some i, s1) ∧ s1.next = s2.next ∧ s1.queues = s2.queues ∧
      s1.initPcb = s2.initPcb ∧ s1.nextPid = s2.nextPid ∧
      SameKin (s1.ptable i) { s2.ptable i with state := .ready, parent := some c } ∧
      ∀ j, j ≠ i → s1.ptable j = s2.ptable j := by
  simp only [userClone, halloc, idleOps, map_some, Nat.one_ne_zero, if_false]
  refine ⟨_, rfl, ?_, rfl, rfl, rfl, ?_, fun j hj => ?_⟩
  · refine (modify_next ?_ _ i).trans (modify_next ?_ _ i)
    · exact fun _ => rfl
    · exact fun _ => rfl
  · rw [modify_ptable_self, modify_ptable_self]
    exact ⟨rfl, rfl, rfl, rfl⟩
  · rw [modify_ptable_of_ne _ _ hj, modify_ptable_of_ne _ _ hj]

theorem fork_runs (h : Inv s) (hc : s.currentPcb = some c) (hfree : ∃ j, (s.ptable j).state = .unused) :
    ∃ i s', step idleOps s (.syscall 2 0 0 none) = some s' ∧ s'.currentPcb = some c ∧
      s'.initPcb = s.initPcb ∧ s'.nextPid = (s.nextPid + 1) % 2^16 ∧
      (s.ptable i).state = .unused ∧ SameKin (s'.ptable i) { s.ptable i with
        pid := s.nextPid, state := .ready, syscall := 0, parent := some c } ∧
      ∀ j, j ≠ i → SameKin (s'.ptable j) (s.ptable j) := by
  have hcore := h.enter hc 2 0 0
  have hrun : (s.ptable c).state = .running := (h.core.kin.running c).mpr hc
  have hentered : ∀ j, j ≠ c → (entered s c 2 0 0).ptable j = s.ptable j :=
    fun j hj => entered_ptable_of_ne hj 2 0 0
  have hspare : Spare (entered s c 2 0 0) := by
    obtain ⟨j, hj⟩ := hfree
    have hjc : j ≠ c := by
      rintro rfl
      cases hrun.symm.trans hj
    exact ⟨homeBut_nil (entered s c 2 0 0) ▸ hcore.linked, j, by rw [hentered j hjc]; exact hj⟩
  obtain ⟨i, s2, halloc⟩ := hspare.alloc
  obtain ⟨hunused, hlinked, hinit, hother, hself⟩ := pcbAlloc_spec hspare.linked halloc
  have hic : i ≠ c := by
    rintro rfl
    cases hcore.caller.symm.trans hunused
  obtain ⟨s1, hclone, hnext, hqueues, hinit1, hnext1, hchild, hothers⟩ :=
    userClone_runs (c := c) halloc
  -- the results are set and the child is scheduled
  have htouch : Touched s1 ((s1.modify i fun p => { p with rax := 0 }).modify c fun p =>
      { p with rax := ((s1.modify i fun p => { p with rax := 0 }).ptable i).pid }) :=
    ((Touched.refl s1).rax (fun _ => 0) i).rax (fun _ => _) c
  have hkin := htouch.kin
  have hready := (hkin i).state.trans hchild.state
  obtain ⟨u, hsched, -, hblocks⟩ := schedule_eq
    (hlinked.congr (htouch.next.trans hnext) (htouch.queues.trans hqueues)) (i := i)
    (by simp [State.home, home, hself.state]) (by rw [hready]; simp) (by rw [hready]; simp)
  have hhandler : handler idleOps (u64 2) none (entered s c 2 0 0) c = some (.ret 0 u) := by
    rw [u64_of_lt (by norm_num)]
    change sysFork idleOps (entered s c 2 0 0) c = _
    unfold sysFork
    rw [hclone, bind_some]
    dsimp only
    rw [hsched]
    rfl
  have hchild' := kin_self_of_modify hblocks
  have hothers' : ∀ j, j ≠ i → SameKin (u.ptable j) ((entered s c 2 0 0).ptable j) := by
    intro j hj
    refine (kin_of_modify hblocks hj).trans ((hkin j).trans ?_)
    rw [hothers j hj]
    exact hother j hj
  have hold : (entered s c 2 0 0).ptable i = s.ptable i := hentered i hic
  refine ⟨i, _, handler_step hc (by rw [u64_of_lt (by norm_num)]; norm_num) hhandler, rfl, ?_, ?_,
    hold ▸ hunused, ?_, fun j hj => ?_⟩
  · exact hblocks.initPcb.trans (hinit1.trans hinit)
  · have hcount : u.nextPid = s1.nextPid := hblocks.nextPid
    exact hcount.trans (hnext1.trans (pcbAlloc_blocks halloc).2.nextPid)
  · rw [finish_ret_ptable _ _ hic]
    refine ⟨hchild'.state, hchild'.syscall, ?_, ?_⟩
    · exact hchild'.parent.trans ((hkin i).parent.trans hchild.parent)
    · exact hchild'.pid.trans ((hkin i).pid.trans (hchild.pid.trans hself.pid))
  · by_cases hjc : j = c
    · subst hjc
      exact returned_kin h hc (hothers' j hj)
    · rw [finish_ret_ptable _ _ hjc, ← hentered j hjc]
      exact hothers' j hj

theorem Core.dispatch_runs (h : Core s [] none) (hcur : s.currentPcb = none)
    (hi : (s.ptable i).state = .ready) (honly : ∀ j, (s.ptable j).state = .ready → j = i) :
    ∃ s', Procs.dispatch s = some s' ∧ s'.currentPcb = some i ∧ s'.initPcb = s.initPcb ∧
      s'.nextPid = s.nextPid ∧
      SameKin (s'.ptable i) { s.ptable i with state := .running, syscall := 0 } ∧
      ∀ j, j ≠ i → (s'.ptable j).unlinked = (s.ptable j).unlinked := by
  have hlinked : Linked s s.home := homeBut_nil s ▸ h.linked
  obtain ⟨k, t, hpop, hloc, -⟩ := hlinked.pop (q := .ready) ⟨i, by simp [State.home, home, hi]⟩
  obtain rfl : k = i := honly k (home_eq_ready hloc)
  have hrun : Procs.dispatch s = some { t.modify k Pcb.dispatched with currentPcb := some k } := by
    unfold Procs.dispatch
    rw [hcur, if_neg (by simp), hpop]
  refine ⟨_, hrun, rfl, ?_⟩
  rcases dispatch_blocks hrun with ⟨-, hsame | ⟨l, hhead, hblocks⟩⟩
  · exact absurd (congrArg State.currentPcb hsame) (by simp [hcur])
  · obtain rfl : l = k := some.inj (hhead.symm.trans (pcbQueuePop_head hpop))
    have hself := hblocks.kin l
    simp only [modify_ptable, if_true] at hself
    refine ⟨hblocks.initPcb, hblocks.nextPid, ?_, fun j hj => ?_⟩
    · simp only [modify_ptable, if_true]
      exact ⟨hself.state, hself.syscall, hself.parent, hself.pid⟩
    · have hblock := hblocks.block j
      simp only [modify_ptable, if_neg hj] at hblock ⊢
      exact hblock

theorem wait_runs (h : Inv s) (hc : s.currentPcb = some c)
    (hnone : ∀ j, (s.ptable j).state ≠ .zombie) (hi : (s.ptable i).state = .ready)
    (honly : ∀ j, (s.ptable j).state = .ready → j = i) :
    ∃ s', step idleOps s (.syscall 1 0 0 none) = some s' ∧ s'.currentPcb = some i ∧
      s'.initPcb = s.initPcb ∧ s'.nextPid = s.nextPid ∧
      SameKin (s'.ptable i) { s.ptable i with state := .running, syscall := 0 } ∧
      SameKin (s'.ptable c) { s.ptable c with state := .blocked, syscall := 1 } ∧
      (s'.ptable c).rdi = 0 ∧ (s'.ptable c).rsi = 0 ∧
      ∀ j, j ≠ i → j ≠ c → SameKin (s'.ptable j) (s.ptable j) := by
  have hnum : u64 1 = 1 := u64_of_lt (by norm_num)
  have hcore := h.enter hc 1 0 0
  have hrun : (s.ptable c).state = .running := (h.core.kin.running c).mpr hc
  have hic : i ≠ c := by
    rintro rfl
    cases hrun.symm.trans hi
  have hself := entered_ptable_self s c 1 0 0
  have hother : ∀ j, j ≠ c → (entered s c 1 0 0).ptable j = s.ptable j :=
    fun j hj => entered_ptable_of_ne hj 1 0 0
  have hreap : ∀ j, reapable (entered s c 1 0 0) c j = false := by
    intro j
    have hz : ((entered s c 1 0 0).ptable j).state ≠ .zombie := by
      by_cases hj : j = c
      · rw [hj, hcore.caller]
        simp
      · rw [hother j hj]
        exact hnone j
    simp [reapable, hz]
  obtain ⟨t, htcore, hblocks, heq⟩ := sysWaitpid_eq idleOps hcore
    (show ((entered s c 1 0 0).ptable c).syscall = SYS_waitpid by rw [hself]; exact hnum) hreap
  have htc := hblocks.kin c
  rw [modify_ptable_self, hself] at htc
  have htj : ∀ j, j ≠ c → SameKin (t.ptable j) (s.ptable j) := by
    intro j hj
    have hkin := kin_of_modify hblocks hj
    rwa [hother j hj] at hkin
  obtain ⟨s', hd, hcur, hinit, hnext, hi', hlast⟩ := htcore.dispatch_runs hblocks.currentPcb
    ((htj i hic).state.trans hi) fun k hk => by
      have hkc : k ≠ c := by
        rintro rfl
        cases htc.state.symm.trans hk
      exact honly k ((htj k hkc).state.symm.trans hk)
  have hhandler : handler idleOps (u64 1) none (entered s c 1 0 0) c = some (.dispatched s') := by
    rw [hnum]
    change sysWaitpid idleOps (entered s c 1 0 0) c = _
    rw [heq, handOver, hd]
    rfl
  have hcarg : (s'.ptable c).rdi = (t.ptable c).rdi ∧ (s'.ptable c).rsi = (t.ptable c).rsi :=
    ⟨show (s'.ptable c).unlinked.rdi = _ by rw [hlast c hic.symm]; rfl,
      show (s'.ptable c).unlinked.rsi = _ by rw [hlast c hic.symm]; rfl⟩
  have hargs : (t.ptable c).rdi = u64 0 ∧ (t.ptable c).rsi = u64 0 := by
    have hblock := hblocks.block c
    rw [modify_ptable_self, hself] at hblock
    exact ⟨show (t.ptable c).unlinked.rdi = _ by rw [hblock]; rfl,
      show (t.ptable c).unlinked.rsi = _ by rw [hblock]; rfl⟩
  have hzero : u64 0 = 0 := u64_of_lt (by norm_num)
  refine ⟨s', handler_step hc (by rw [hnum]; norm_num) hhandler, hcur,
    hinit.trans hblocks.initPcb, hnext.trans hblocks.nextPid, ?_, ?_,
    hcarg.1.trans (hargs.1.trans hzero), hcarg.2.trans (hargs.2.trans hzero), fun j hj hjc => ?_⟩
  · exact ⟨hi'.state, hi'.syscall, hi'.parent.trans (htj i hic).parent,
      hi'.pid.trans (htj i hic).pid⟩
  · have hkin := SameKin.of_unlinked (hlast c hic.symm)
    exact ⟨hkin.state.trans htc.state, hkin.syscall.trans (htc.syscall.trans hnum),
      hkin.parent.trans htc.parent, hkin.pid.trans htc.pid⟩
  · exact (SameKin.of_unlinked (hlast j hj)).trans (htj j hjc)

theorem cleanup_runs {loc : Slot → Option QueueId} (h : Linked s loc) (hv : loc v = none) :
    ∃ s', pcbCleanup idleOps s v = some s' := by
  obtain ⟨t, hfree, -⟩ := pcbFree_eq h hv
  have hmem : pcbCleanup idleOps s v = pcbFree s v := by
    unfold pcbCleanup
    split_ifs
    · rfl
    · rfl
  exact ⟨t, hmem.trans hfree⟩

theorem tellParent_runs (h : Core s [v] run) (hpv : p ≠ v) (hp : (s.ptable p).state = .blocked)
    (hwait : Awaited s p v) (hstatus : (s.ptable p).rsi = 0) :
    ∃ s', tellParent idleOps s p v = some s' := by
  have hf : Harmless fun b => { b with rax := (s.ptable v).pid } :=
    fun _ => ⟨⟨rfl, rfl, rfl, rfl⟩, rfl⟩
  have hmod := h.modify hf p
  have hkin := hf.kin s p
  have hhome : (s.modify p fun b => { b with rax := (s.ptable v).pid }).home p =
      some (.syscall SYS_waitpid) := by
    rw [State.home, (hkin p).home]
    simp [home, hp, hwait.1]
  obtain ⟨u, hrem, hcore, hsame⟩ := hmod.detach (by simp [hpv]) hhome
  have halive : Alive (u.ptable p) :=
    .inr (.inr ((hsame.kin p).state.trans ((hkin p).state.trans hp)))
  obtain ⟨w, hsched, hcore', -⟩ := hcore.schedule (by simp [hpv]) halive
  obtain ⟨s', hclean⟩ := cleanup_runs hcore'.linked (homeBut_self w v [])
  have hrsi : (u.ptable p).rsi = 0 := by
    rw [hsame.field p Pcb.rsi (fun _ => rfl), modify_ptable_self]
    exact hstatus
  refine ⟨s', ?_⟩
  unfold tellParent
  unfold Awaited TakesZombie at hwait
  rw [if_pos hwait]
  dsimp only
  rw [hrem]
  dsimp only
  rw [storeStatus, if_neg (by simp [hrsi]), bind_some, hsched, bind_some, hclean]

theorem adopted_of_childless (h : ∀ j, isChild s v j = false) : adopted s v = s := by
  have htable : (adopted s v).ptable = s.ptable := by
    funext j
    rw [adopted_ptable, h j]
    rfl
  calc adopted s v = { s with ptable := (adopted s v).ptable } := rfl
    _ = s := by rw [htable]

theorem lastZombie_of_childless (h : ∀ j, isChild s v j = false) : lastZombie s v = none := by
  have hempty : (finRange 256).filter (isZombieChild s v) = [] :=
    filter_eq_nil_iff.mpr fun j _ => by simp [isZombieChild, h j]
  rw [lastZombie, hempty]
  rfl

theorem zombify_runs (h : Core s [v] run) (hpid : (s.ptable v).pid ≠ 1)
    (hparent : (s.ptable v).parent = some p) (hpv : p ≠ v) (hp : (s.ptable p).state = .blocked)
    (hwait : (s.ptable p).syscall = SYS_waitpid) (hrdi : (s.ptable p).rdi = 0)
    (hrsi : (s.ptable p).rsi = 0) (hchild : ∀ j, isChild s v j = false) :
    ∃ s', pcbZombify idleOps s v = some s' ∧ SameBlocks { served s p v with mem := s'.mem } s' := by
  have hawaited : Awaited s p v := ⟨hwait, .inl (by simp [argPid, hrdi])⟩
  obtain ⟨s', htell⟩ := tellParent_runs h hpv hp hawaited hrsi
  refine ⟨s', ?_, ?_⟩
  · unfold pcbZombify
    rw [if_neg hpid, hparent, reparent_eq]
    simp only [lastZombie_of_childless hchild]
    rw [show adopt s v (finRange 256) = s from adopted_of_childless hchild, htell]
  · rcases tellParent_cases hpv htell with ⟨-, -, hblocks⟩ | ⟨hno, -⟩
    · exact hblocks
    · exact absurd hawaited hno

theorem exit_runs (h : Inv s) (hc : s.currentPcb = some c) (hpid : (s.ptable c).pid ≠ 1)
    (hparent : (s.ptable c).parent = some p) (hp : (s.ptable p).state = .blocked)
    (hwait : (s.ptable p).syscall = SYS_waitpid) (hrdi : (s.ptable p).rdi = 0)
    (hrsi : (s.ptable p).rsi = 0) (hchild : ∀ j, isChild s c j = false)
    (hready : ∀ j, (s.ptable j).state ≠ .ready) :
    ∃ s', step idleOps s (.syscall 0 0 0 none) = some s' ∧ s'.currentPcb = some p ∧
      s'.initPcb = s.initPcb ∧ s'.nextPid = s.nextPid ∧
      SameKin (s'.ptable p) { s.ptable p with state := .running, syscall := 0 } ∧
      (s'.ptable c).state = .unused ∧
      ∀ j, j ≠ p → j ≠ c → SameKin (s'.ptable j) (s.ptable j) := by
  have hnum : u64 0 = 0 := u64_of_lt (by norm_num)
  have hrun : (s.ptable c).state = .running := (h.core.kin.running c).mpr hc
  have hpc : p ≠ c := by
    rintro rfl
    cases hrun.symm.trans hp
  have hcore := h.enter hc 0 0 0
  have hother : ∀ j, j ≠ c → (entered s c 0 0 0).ptable j = s.ptable j :=
    fun j hj => entered_ptable_of_ne hj 0 0 0
  have hf := exit_harmless fun b => b.rdi % 2^8
  have hmod := hcore.modify hf c
  -- the state `pcb_zombify` is called in
  generalize hu : ((entered s c 0 0 0).modify c fun b => { b with exitStatus := b.rdi % 2^8 }) = u
    at hmod
  have hcur : u.currentPcb = none ∧ u.initPcb = s.initPcb ∧ u.nextPid = s.nextPid := by
    rw [← hu]
    exact ⟨rfl, rfl, rfl⟩
  have huj : ∀ j, j ≠ c → u.ptable j = s.ptable j := by
    intro j hj
    rw [← hu, modify_ptable_of_ne _ _ hj, hother j hj]
  have huc : SameKin (u.ptable c) { s.ptable c with syscall := 0 } := by
    rw [← hu, modify_ptable_self, entered_ptable_self]
    exact ⟨rfl, hnum, rfl, rfl⟩
  have hchild' : ∀ j, isChild u c j = false := by
    intro j
    by_cases hj : j = c
    · rw [hj, isChild, huc.parent, hparent]
      simp [hpc]
    · rw [isChild, huj j hj]
      exact hchild j
  obtain ⟨w, hz, hserved⟩ := zombify_runs hmod.aside (by rw [huc.pid]; exact hpid)
    (huc.parent.trans hparent) hpc (by rw [huj p hpc]; exact hp) (by rw [huj p hpc]; exact hwait)
    (by rw [huj p hpc]; exact hrdi) (by rw [huj p hpc]; exact hrsi) hchild'
  have hnot : NotWaiting u := hmod.not_waiting (by rw [huc.syscall]; simp [SYS_waitpid])
  have hwcore := hmod.aside.zombify hnot (.inr (.inl hmod.caller))
    (fun r z _ _ hlast => absurd (lastZombie_of_childless hchild') (by simp [hlast])) hz
  rw [without_self] at hwcore
  have hwkin : ∀ j, SameKin (w.ptable j) ((served u p c).ptable j) := hserved.kin
  have hwp := hwkin p
  have hwc := hwkin c
  rw [served_ptable hpc, if_neg hpc, if_pos rfl, huj p hpc] at hwp
  rw [served_ptable hpc, if_pos rfl] at hwc
  have hwj : ∀ j, j ≠ p → j ≠ c → SameKin (w.ptable j) (s.ptable j) := by
    intro j hjp hjc
    have hkin := hwkin j
    rwa [served_ptable hpc, if_neg hjc, if_neg hjp, huj j hjc] at hkin
  -- the parent is the only ready process
  obtain ⟨s', hd, hcur', hinit, hnext, hp', hlast⟩ := hwcore.dispatch_runs
    (hserved.currentPcb.trans hcur.1) hwp.state fun k hk => by
      by_contra hkp
      by_cases hkc : k = c
      · rw [hkc, hwc.state] at hk
        exact absurd hk (by simp [Pcb.freed])
      · exact hready k ((hwj k hkp hkc).state.symm.trans hk)
  have hhandler : handler idleOps (u64 0) none (entered s c 0 0 0) c = some (.dispatched s') := by
    rw [hnum]
    change sysExit idleOps (entered s c 0 0 0) c = _
    rw [sysExit, hu, hz, bind_some, handOver, hd]
    rfl
  have hlast' : ∀ j, j ≠ p → SameKin (s'.ptable j) (w.ptable j) :=
    fun j hj => SameKin.of_unlinked (hlast j hj)
  refine ⟨s', handler_step hc (by rw [hnum]; norm_num) hhandler, hcur',
    hinit.trans (hserved.initPcb.trans hcur.2.1), hnext.trans (hserved.nextPid.trans hcur.2.2),
    ?_, ?_, fun j hjp hjc => ?_⟩
  · exact ⟨hp'.state, hp'.syscall, hp'.parent.trans hwp.parent, hp'.pid.trans hwp.pid⟩
  · exact (hlast' c hpc.symm).state.trans hwc.state
  · exact (hlast' j hjp).trans (hwj j hjp hjc)

def FamilyNumber (op : Op Unit) : Prop := op.number ∈ [some 0, some 1, some 2, some 13]

/-- A call of `fork`, `exit`, `kill` or `waitpid`; a block that `fork` takes is unused. -/
def FamilyCall (s : State Unit) (op : Op Unit) : Prop :=
  FamilyNumber op ∧
    (op.number = some 2 → ∀ i ∈ (s.queues .freelist).head, (s.ptable i).state = .unused)

instance (s : State Unit) (op : Op Unit) : Decidable (Sound s op ∧ FamilyNumber op) :=
  inferInstanceAs (Decidable (Sound s op ∧ op.number ∈ [some 0, some 1, some 2, some 13]))

theorem Inv.freelist_unused (h : Inv s) (hi : (s.queues .freelist).head = some i) :
    (s.ptable i).state = .unused := by
  have hlinked : Linked s s.home := homeBut_nil s ▸ h.core.linked
  obtain ⟨lists, hlists, hmem⟩ := hlinked.lists
  have hhead : i ∈ lists .freelist := mem_of_head? ((hlists .freelist).seg.head?_eq.trans hi)
  exact home_eq_freelist ((hmem i .freelist).mp hhead)

theorem Inv.family_run (h : Inv s₀)
    (hrun : Run.Reach (Procs.step idleOps) (fun s op => Sound s op ∧ FamilyNumber op) s₀ s) :
    Inv s ∧ Run.Reach (Procs.step idleOps) FamilyCall s₀ s := by
  induction hrun with
  | start => exact ⟨h, .start⟩
  | step op _ hok hstep ih =>
    exact ⟨Inv.step _ op _ ih.1 hok.1 hstep,
      .step op ih.2 ⟨hok.2, fun _ i hi => ih.1.freelist_unused hi⟩ hstep⟩

theorem lastZombie_of_none (h : ∀ j, (s.ptable j).state ≠ .zombie) (v : Slot) :
    lastZombie s v = none := by
  cases hlast : lastZombie s v with
  | none => rfl
  | some z => exact absurd (lastZombie_spec hlast).1 (h z)

theorem sound_of_none (h : ∀ j, (s.ptable j).state ≠ .zombie) (op : Op Unit) : Sound s op := by
  cases op with
  | tick => trivial
  | syscall rax rdi rsi file =>
    intro c _
    have hnone : ∀ j, ((entered s c rax rdi rsi).ptable j).state ≠ .zombie := by
      intro j
      rw [((entered_alike s c rax rdi rsi).block j).state]
      exact h j
    have hexit : ∀ v, SoundExit (entered s c rax rdi rsi) v :=
      fun v r z _ _ hlast => absurd (lastZombie_of_none hnone v) (by simp [hlast])
    exact ⟨fun _ => hexit c, fun _ j => by simp [reapable, hnone j], fun _ v _ => hexit v⟩

structure Resting (s : State Unit) (r a : Slot) (n : Nat) : Prop where
  inv : Inv s
  current : s.currentPcb = some r
  initPcb : s.initPcb = some r
  nextPid : s.nextPid = n
  blocked : (s.ptable a).state = .blocked
  pid : (s.ptable a).pid = 2
  parent : (s.ptable a).parent = some r
  others : ∀ j, j ≠ r → j ≠ a → (s.ptable j).state = .unused

structure Paired (s : State Unit) (r a i : Slot) (n : Nat) : Prop where
  inv : Inv s
  current : s.currentPcb = some i
  initPcb : s.initPcb = some r
  nextPid : s.nextPid = (n + 1) % 2^16
  child : (s.ptable i).pid = n ∧ (s.ptable i).parent = some r
  waiter : (s.ptable r).state = .blocked ∧ (s.ptable r).syscall = SYS_waitpid ∧
    (s.ptable r).rdi = 0 ∧ (s.ptable r).rsi = 0
  blocked : (s.ptable a).state = .blocked
  pid : (s.ptable a).pid = 2
  parent : (s.ptable a).parent = some r
  others : ∀ j, j ≠ r → j ≠ a → j ≠ i → (s.ptable j).state = .unused
  distinct : a ≠ r ∧ i ≠ r ∧ i ≠ a

theorem family_call {op : Op Unit} (h : Inv s)
    (hnone : ∀ j, (s.ptable j).state ≠ .zombie) (hnum : FamilyNumber op)
    (hreach : Run.Reach (step idleOps) FamilyCall s₀ s) (hstep : step idleOps s op = some s') :
    Inv s' ∧ Run.Reach (step idleOps) FamilyCall s₀ s' :=
  ⟨Inv.step s op s' h (sound_of_none hnone op) hstep,
    .step op hreach ⟨hnum, fun _ _ hi => h.freelist_unused hi⟩ hstep⟩

theorem Resting.running (h : Resting s r a n) : (s.ptable r).state = .running :=
  (h.inv.core.kin.running r).mpr h.current

theorem Resting.states (h : Resting s r a n) (j : Slot) : (s.ptable j).state = .running ∨
    (s.ptable j).state = .blocked ∨ (s.ptable j).state = .unused := by
  by_cases hjr : j = r
  · exact .inl (hjr ▸ h.running)
  · by_cases hja : j = a
    · exact .inr (.inl (hja ▸ h.blocked))
    · exact .inr (.inr (h.others j hjr hja))

theorem Resting.spare (h : Resting s r a n) : ∃ j, (s.ptable j).state = .unused := by
  have hlt : ({r, a} : Finset Slot).card < (Finset.univ : Finset Slot).card := by
    have htwo : ({r, a} : Finset Slot).card ≤ 2 := Finset.card_le_two
    have hall : (Finset.univ : Finset Slot).card = 256 := Finset.card_fin 256
    omega
  obtain ⟨j, -, hj⟩ := Finset.exists_mem_notMem_of_card_lt_card hlt
  simp only [Finset.mem_insert, Finset.mem_singleton, not_or] at hj
  exact ⟨j, h.others j hj.1 hj.2⟩

theorem Resting.fork_wait (h : Resting s r a n) (hreach : Run.Reach (step idleOps) FamilyCall s₀ s) :
    ∃ i s', Run.Reach (step idleOps) FamilyCall s₀ s' ∧ Paired s' r a i n := by
  have har : a ≠ r := by
    rintro rfl
    cases h.running.symm.trans h.blocked
  have hnone : ∀ j, (s.ptable j).state ≠ .zombie := by
    intro j
    rcases h.states j with hj | hj | hj <;> simp [hj]
  obtain ⟨i, s1, hfork, hcur1, hinit1, hnext1, hunused, hchild, hother⟩ :=
    fork_runs h.inv h.current h.spare
  have hir : i ≠ r := by
    rintro rfl
    cases h.running.symm.trans hunused
  have hia : i ≠ a := by
    rintro rfl
    cases h.blocked.symm.trans hunused
  obtain ⟨hinv1, hreach1⟩ := family_call h.inv hnone (by simp [FamilyNumber, Op.number, u64]) hreach hfork
  have hstate : ∀ j, (s1.ptable j).state = .zombie ∨ (s1.ptable j).state = .ready → j = i := by
    intro j hj
    by_contra hji
    rw [(hother j hji).state] at hj
    rcases h.states j with hs | hs | hs <;> simp [hs] at hj
  have hnone1 : ∀ j, (s1.ptable j).state ≠ .zombie := by
    intro j hj
    obtain rfl := hstate j (.inl hj)
    cases hchild.state.symm.trans hj
  obtain ⟨s2, hwait, hcur2, hinit2, hnext2, hi2, hr2, hrdi, hrsi, hother2⟩ :=
    wait_runs hinv1 hcur1 hnone1 hchild.state fun j hj => hstate j (.inr hj)
  obtain ⟨hinv2, hreach2⟩ := family_call hinv1 hnone1 (by simp [FamilyNumber, Op.number, u64]) hreach1 hwait
  have hkept : ∀ j, j ≠ i → j ≠ r → SameKin (s2.ptable j) (s.ptable j) :=
    fun j hji hjr => (hother2 j hji hjr).trans (hother j hji)
  refine ⟨i, s2, hreach2, ⟨hinv2, hcur2, hinit2.trans (hinit1.trans h.initPcb), ?_, ⟨?_, ?_⟩,
    ⟨hr2.state, hr2.syscall, hrdi, hrsi⟩, ?_, ?_, ?_, fun j hjr hja hji => ?_, har, hir, hia⟩⟩
  · rw [hnext2, hnext1, h.nextPid]
  · exact hi2.pid.trans (hchild.pid.trans h.nextPid)
  · exact hi2.parent.trans hchild.parent
  · exact (hkept a hia.symm har).state.trans h.blocked
  · exact (hkept a hia.symm har).pid.trans h.pid
  · exact (hkept a hia.symm har).parent.trans h.parent
  · exact (hkept j hji hjr).state.trans (h.others j hjr hja)

section Paired
variable (h : Paired s r a i n)
include h

theorem Paired.running : (s.ptable i).state = .running :=
  (h.inv.core.kin.running i).mpr h.current

theorem Paired.init_parent : (s.ptable r).parent = none ∧ (s.ptable r).pid = 1 := by
  obtain ⟨r', hr', -, hpid, hnone⟩ := h.inv.core.kin.init
  cases hr'.symm.trans h.initPcb
  exact ⟨hnone, hpid⟩

theorem Paired.states (j : Slot) : (s.ptable j).state = .blocked ∨ (s.ptable j).state = .running ∨
    (s.ptable j).state = .unused := by
  by_cases hjr : j = r
  · exact .inl (hjr ▸ h.waiter.1)
  · by_cases hja : j = a
    · exact .inl (hja ▸ h.blocked)
    · by_cases hji : j = i
      · exact .inr (.inl (hji ▸ h.running))
      · exact .inr (.inr (h.others j hjr hja hji))

theorem Paired.childless (hv : v ≠ r) (j : Slot) : isChild s v j = false := by
  unfold isChild
  by_cases hjr : j = r
  · simp [hjr, h.init_parent.1]
  · by_cases hja : j = a
    · simp [hja, h.parent, hv.symm]
    · by_cases hji : j = i
      · simp [hji, h.child.2, hv.symm]
      · simp [h.others j hjr hja hji]

theorem Paired.exit (hn : n ≠ 1) (hreach : Run.Reach (step idleOps) FamilyCall s₀ s) :
    ∃ s', Run.Reach (step idleOps) FamilyCall s₀ s' ∧ Resting s' r a ((n + 1) % 2^16) := by
  obtain ⟨har, hir, hia⟩ := h.distinct
  obtain ⟨hblocked, hwait, hrdi, hrsi⟩ := h.waiter
  have hnone : ∀ j, (s.ptable j).state ≠ .zombie := by
    intro j
    rcases h.states j with hj | hj | hj <;> simp [hj]
  obtain ⟨s', hexit, hcur, hinit, hnext, hr, hi, hother⟩ := exit_runs h.inv h.current
    (by rw [h.child.1]; exact hn) h.child.2 hblocked hwait hrdi hrsi (h.childless hir)
    (fun j => by rcases h.states j with hj | hj | hj <;> simp [hj])
  obtain ⟨hinv, hreach'⟩ := family_call h.inv hnone (by simp [FamilyNumber, Op.number, u64]) hreach
    hexit
  have ha := hother a har hia.symm
  refine ⟨s', hreach', ⟨hinv, hcur, hinit.trans h.initPcb, hnext.trans h.nextPid,
    ha.state.trans h.blocked, ha.pid.trans h.pid, ha.parent.trans h.parent, fun j hjr hja => ?_⟩⟩
  by_cases hji : j = i
  · rw [hji]
    exact hi
  · exact (hother j hjr hji).state.trans (h.others j hjr hja hji)

theorem Paired.killVictim (hn : n = 1) : killVictim (entered s i 13 2 0) i = some a := by
  obtain ⟨har, hir, hia⟩ := h.distinct
  have halike := (entered_alike s i 13 2 0).block
  have harg : argPid (entered s i 13 2 0) i = 2 := by
    rw [argPid, entered_ptable_self, u64_of_lt (by norm_num)]
    norm_num
  have hfind : pcbFindPid (entered s i 13 2 0) 2 = some a := by
    cases hv : pcbFindPid (entered s i 13 2 0) 2 with
    | none =>
      rw [pcbFindPid, if_neg (by norm_num)] at hv
      have ha := find?_eq_none.mp hv a (mem_finRange a)
      simp [(halike a).pid, (halike a).state, h.pid, h.blocked] at ha
    | some v =>
      obtain ⟨hused, hpid⟩ := pcbFindPid_some hv
      rw [Used, (halike v).state] at hused
      rw [(halike v).pid] at hpid
      have hva : v = a := by
        by_contra hva
        by_cases hvr : v = r
        · rw [hvr, h.init_parent.2] at hpid
          exact absurd hpid (by norm_num)
        · by_cases hvi : v = i
          · rw [hvi, h.child.1, hn] at hpid
            exact absurd hpid (by norm_num)
          · exact hused (h.others v hvr hva hvi)
      rw [hva]
  have howner : findOwner (entered s i 13 2 0) ((entered s i 13 2 0).ptable i).pid walkFuel
      (some a) = some (some r) := by
    rw [(halike i).pid, h.child.1, hn]
    simp [walkFuel, findOwner, (halike a).pid, h.pid, (halike a).parent, h.parent,
      (halike r).pid, h.init_parent.2]
  unfold Procs.killVictim
  rw [harg, hfind]
  dsimp only
  rw [howner]

theorem Paired.kill (hn : n = 1) : ∃ s', step idleOps s (.syscall 13 2 0 none) = some s' ∧
    (s'.ptable a).state = .unused := by
  obtain ⟨har, hir, hia⟩ := h.distinct
  obtain ⟨hblocked, hwait, hrdi, hrsi⟩ := h.waiter
  have halike := (entered_alike s i 13 2 0).block
  have hcore := h.inv.enter h.current 13 2 0
  have hf := exit_harmless fun _ => 1
  have hmod := hcore.modify hf a
  have hstate : ((entered s i 13 2 0).ptable a).state = .blocked := (halike a).state.trans h.blocked
  have hlt := hcore.kin.blocked a hstate
  -- `a` leaves its queue
  have hhome : ((entered s i 13 2 0).modify a fun b => { b with exitStatus := 1 }).home a =
      some (.syscall ⟨_, hlt⟩) := by
    rw [State.home, (hf.kin _ a a).home]
    simp [home, hstate, hlt]
  obtain ⟨t, hrem, hdet, hsame⟩ := hmod.detach (by simp) hhome
  have htr : (t.ptable r).unlinked = (s.ptable r).unlinked := by
    rw [hsame.block, modify_ptable_of_ne _ _ har.symm, entered_ptable_of_ne hir.symm]
  have htkin : ∀ j, Alike (s.ptable j) (t.ptable j) := by
    intro j
    have hj := (hsame.kin j).trans (hf.kin (entered s i 13 2 0) a j)
    exact ⟨hj.state.trans (halike j).state, hj.pid.trans (halike j).pid,
      hj.parent.trans (halike j).parent⟩
  have hchild : ∀ j, isChild t a j = false := by
    intro j
    rw [isChild, (htkin j).state, (htkin j).parent]
    exact h.childless har j
  obtain ⟨w, hz, hserved⟩ := zombify_runs hdet (by rw [(htkin a).pid, h.pid]; norm_num)
    ((htkin a).parent.trans h.parent) har.symm ((htkin r).state.trans hblocked)
    ((SameKin.of_unlinked htr).syscall.trans hwait)
    (show (t.ptable r).unlinked.rdi = 0 by rw [htr]; exact hrdi)
    (show (t.ptable r).unlinked.rsi = 0 by rw [htr]; exact hrsi) hchild
  have hnum : u64 13 = 13 := u64_of_lt (by norm_num)
  have hhandler : handler idleOps (u64 13) none (entered s i 13 2 0) i = some (.ret 0 w) := by
    obtain ⟨hfind, o, howner⟩ := killVictim_eq_some (h.killVictim hn)
    rw [hnum]
    change sysKill idleOps (entered s i 13 2 0) i = _
    unfold sysKill
    rw [hfind]
    dsimp only
    rw [howner, bind_some]
    simp only [hstate, modify_ptable_self, dif_pos hlt, hrem, bind_some, hz, map_some]
  refine ⟨_, handler_step h.current (by rw [hnum]; norm_num) hhandler, ?_⟩
  rw [finish_ret_ptable _ _ hia.symm]
  have ha : SameKin (w.ptable a) ((served t r a).ptable a) := hserved.kin a
  rw [served_ptable har.symm, if_pos rfl] at ha
  exact ha.state

end Paired

/-- The rounds go on as long as no child gets the process id 1. -/
theorem Resting.rounds (m : Nat) (h : Resting s r a n) (hn : n < 2^16)
    (hreach : Run.Reach (step idleOps) FamilyCall s₀ s) (hm : ∀ k < m, (n + k) % 2^16 ≠ 1) :
    ∃ s', Run.Reach (step idleOps) FamilyCall s₀ s' ∧ Resting s' r a ((n + m) % 2^16) := by
  induction m with
  | zero =>
    refine ⟨s, hreach, ?_⟩
    rwa [add_zero, Nat.mod_eq_of_lt hn]
  | succ m ih =>
    obtain ⟨t, hreacht, ht⟩ := ih fun k hk => hm k (by omega)
    obtain ⟨i, t', hreach', hpaired⟩ := ht.fork_wait hreacht
    obtain ⟨s', hreach'', hs'⟩ := hpaired.exit (hm m (by omega)) hreach'
    refine ⟨s', hreach'', ?_⟩
    rwa [Nat.mod_add_mod] at hs'

theorem boot_resting : ∃ s₀ s : State Unit, bootProcs idleOps () () = some s₀ ∧
    Run.Reach (step idleOps) FamilyCall s₀ s ∧ Resting s 0 1 4 := by
  obtain ⟨s₀, s, hboot, hreach, hrun⟩ := booted_reach (fun s op => Sound s op ∧ FamilyNumber op)
    [.syscall 2 0 0 none, .syscall 2 0 0 none, .syscall 1 0 0 none, .syscall 1 0 0 none,
      .syscall 0 0 0 none]
    (fun s => ((s.currentPcb, s.initPcb, s.nextPid), ((s.ptable 1).state, (s.ptable 1).pid,
      (s.ptable 1).parent), decide (∀ j, j ≠ 0 → j ≠ 1 → (s.ptable j).state = .unused)))
    ((some 0, some 0, 4), (.blocked, 2, some 0), true) (by decide +kernel)
  simp only [Prod.mk.injEq, decide_eq_true_eq] at hrun
  obtain ⟨⟨hcur, hinit, hnext⟩, ⟨hstate, hpid, hparent⟩, hothers⟩ := hrun
  obtain ⟨hinv, hreach⟩ := (bootProcs_inv hboot).family_run hreach
  exact ⟨s₀, s, hboot, hreach, ⟨hinv, hcur, hinit, hnext, hstate, hpid, hparent, hothers⟩⟩

end Comus.Procs
