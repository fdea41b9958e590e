import Comus.Procs.Waiters

/-!
# Sleeping processes

`sys_sleep` puts the caller into the sleep queue, which `pcb_init` orders by process
id, and `pcb_on_tick` wakes from its head as long as the head's wakeup tick has
passed. The exact deadline of a process, as a number without bound, is kept beside
the state.
-/

namespace Comus.Procs

open Chain Word Option List Function

variable {μ φ : Type} {ops : MemOps μ φ} {s s' t : State μ} {c i : Slot} {xs : List Slot}
  {op : Op φ} {D : Slot → Nat}

def SleepList (s : State μ) (xs : List Slot) : Prop :=
  IsQueue s.next (s.queues (.syscall SYS_sleep)).head (s.queues (.syscall SYS_sleep)).tail xs

def Asleep (s : State μ) (i : Slot) : Prop :=
  (s.ptable i).state = .blocked ∧ (s.ptable i).syscall = SYS_sleep

theorem SleepList.mem_iff (hq : SleepList s xs) :
    i ∈ xs ↔ OnQueue s (.syscall SYS_sleep) i :=
  hq.seg.mem_iff

theorem Inv.onQueue_sleep (h : Inv s) : OnQueue s (.syscall SYS_sleep) i ↔ Asleep s i :=
  h.onQueue_iff.trans home_syscall_iff

theorem SleepList.wake {u : State μ} (h : Inv s) (hq : SleepList s (i :: xs))
    (hrem : pcbQueueRemove s (.syscall SYS_sleep) i = some (.success, t))
    (hsched : schedule t i = some u) :
    SleepList u xs ∧ u.ticks = s.ticks ∧ ∀ j ∈ xs, (u.ptable j).wakeup = (s.ptable j).wakeup := by
  have hnodup := nodup_cons.mp hq.seg.nodup
  have hne : ∀ j ∈ xs, j ≠ i := fun j hj hji => hnodup.1 (hji ▸ hj)
  obtain ⟨t', hrem', hlist⟩ := pcbQueueRemove_head hq
  obtain rfl : t' = t := (Prod.mk.inj (some.inj (hrem'.symm.trans hrem))).2
  have hhome : ∀ j ∈ i :: xs, s.home j = some (.syscall SYS_sleep) := fun j hj =>
    h.onQueue_iff.mp (hq.mem_iff.mp hj)
  obtain ⟨t2, hrem2, hlinked, -⟩ := h.core.linked.remove
    ((homeBut_nil s).symm ▸ hhome i mem_cons_self)
  obtain rfl : t2 = t' := (Prod.mk.inj (some.inj (hrem2.symm.trans hrem))).2
  have hblocks := schedule_blocks hsched
  have hremoved := pcbQueueRemove_blocks hrem
  refine ⟨?_, hblocks.ticks.trans hremoved.ticks, fun j hj => ?_⟩
  · unfold schedule at hsched
    split_ifs at hsched
    split at hsched
    · rename_i w hins
      obtain rfl := some.inj hsched
      have hmod : Linked (t2.modify i fun p => { p with state := .ready, syscall := 0 })
          (update (s.homeBut []) i none) := hlinked.modify fun _ => rfl
      obtain ⟨hqueues, hnext⟩ := hmod.insert_frame hins
      have hkeep : ∀ j ∈ xs, w.next j = t2.next j := by
        intro j hj
        refine (hnext j (hne j hj) ?_).trans
          (congrArg Pcb.next (modify_ptable_of_ne t2 _ (hne j hj)))
        rw [update_of_ne (hne j hj), homeBut_nil,
          hhome j (mem_cons_of_mem _ hj)]
        simp
      unfold SleepList
      rw [hqueues _ (by simp)]
      exact hlist.congr hkeep
    · cases hsched
  · rw [hblocks.field j Pcb.wakeup (fun _ => rfl), modify_ptable_of_ne _ _ (hne j hj),
      hremoved.field j Pcb.wakeup (fun _ => rfl)]

theorem wakeSleepers_list {fuel : Nat} {W : Slot → Nat} (h : Inv s) (hq : SleepList s xs)
    (hW : ∀ j ∈ xs, (s.ptable j).wakeup = W j) (hw : wakeSleepers fuel s = some s') :
    SleepList s' (xs.dropWhile fun i => decide (W i < s.ticks)) ∧ s'.ticks = s.ticks := by
  induction fuel generalizing s xs with
  | zero => exact absurd hw (by simp [wakeSleepers])
  | succ fuel ih =>
    have hhead := hq.seg.head?_eq
    unfold wakeSleepers pcbQueuePeek at hw
    cases xs with
    | nil =>
      rw [← hhead] at hw
      cases hw
      exact ⟨hq, rfl⟩
    | cons i xs =>
      rw [← hhead] at hw
      simp only [head?_cons, hW i mem_cons_self] at hw
      split_ifs at hw with hlate
      · cases hw
        rw [dropWhile_cons_of_neg (by simpa using hlate)]
        exact ⟨hq, rfl⟩
      · split at hw
        · rename_i t hrem
          obtain ⟨u, hsched, hw⟩ := bind_eq_some_iff.mp hw
          obtain ⟨hlist, hticks, hwakeup⟩ := hq.wake h hrem hsched
          have hhome := h.onQueue_iff.mp (hq.mem_iff.mp mem_cons_self)
          obtain ⟨hrest, hrest'⟩ := ih (h.wake hhome hrem hsched).1 hlist
            (fun j hj => (hwakeup j hj).trans (hW j (mem_cons_of_mem _ hj))) hw
          rw [dropWhile_cons_of_pos (by simpa using hlate), ← hticks]
          exact ⟨hrest, hrest'⟩
        · cases hw

theorem asleep_after_preempt (h : Inv t) (hc : t.currentPcb = some c) {u : State μ}
    (hsched : schedule t c = some u) (hd : dispatch { u with currentPcb := none } = some s')
    (hi : Asleep t i) : Asleep s' i := by
  have hcore := h.core
  rw [hc] at hcore
  obtain ⟨u', hu, hafter, hsame⟩ := hcore.aside.schedule (by simp) (.inr (.inl hcore.caller))
  obtain rfl : u' = u := some.inj (hu.symm.trans hsched)
  rw [without_self] at hafter
  have hic : i ≠ c := by
    rintro rfl
    exact absurd (hi.1.symm.trans hcore.caller) (by simp)
  have hkin : SameKin (u'.ptable i) (t.ptable i) := kin_of_modify hsame hic
  rcases (hafter.setCurrent none).dispatch_block hd i with hblock | ⟨hready, -⟩
  · have hkin' := (SameKin.of_unlinked hblock).trans hkin
    exact ⟨hkin'.state.trans hi.1, hkin'.syscall.trans hi.2⟩
  · rw [show ({ u' with currentPcb := none } : State μ).ptable i = u'.ptable i from rfl,
      hkin.state, hi.1] at hready
    cases hready

theorem Moved.asleep (h : Moved (s.ptable i) (s'.ptable i)) (hi : Asleep s' i) :
    Asleep s i ∧ (s'.ptable i).wakeup = (s.ptable i).wakeup := by
  obtain ⟨hblocked, hsys, -, hwake⟩ := h.blocked hi.1
  exact ⟨⟨hblocked, hsys ▸ hi.2⟩, hwake⟩

theorem dispatch_ticks (h : dispatch s = some s') : s'.ticks = s.ticks := by
  unfold dispatch at h
  split_ifs at h
  split at h
  · exact some.inj h ▸ rfl
  · rename_i pcb t hpop
    cases h
    exact (pcbQueuePop_blocks hpop).ticks

theorem pcbOnTick_asleep {W : Slot → Nat} (h : Inv s) (hq : SleepList s xs)
    (hW : ∀ j ∈ xs, (s.ptable j).wakeup = W j) (ht : pcbOnTick s = some s') :
    (∀ i, OnQueue s' (.syscall SYS_sleep) i ↔ i ∈ xs.dropWhile fun i => decide (W i < s.ticks)) ∧
      s'.ticks = s.ticks := by
  have hafter := h.onTick ht
  obtain ⟨r, hr, -⟩ := h.core.kin.init
  unfold pcbOnTick at ht
  rw [hr, if_neg (by simp)] at ht
  obtain ⟨t, hwake, ht⟩ := bind_eq_some_iff.mp ht
  obtain ⟨hlist, hticks⟩ := wakeSleepers_list h hq hW hwake
  have hinv := h.wakeSleepers hwake
  suffices hsame : (∀ i, Asleep s' i ↔ Asleep t i) ∧ s'.ticks = t.ticks by
    refine ⟨fun i => ?_, hsame.2.trans hticks⟩
    rw [hlist.mem_iff, hafter.onQueue_sleep, hinv.onQueue_sleep]
    exact hsame.1 i
  cases hc : t.currentPcb with
  | none =>
    rw [hc] at ht
    cases ht
    exact ⟨fun _ => .rfl, rfl⟩
  | some c =>
    have hf : Harmless fun p => { p with ticks := sub64 p.ticks 1 } :=
      fun _ => ⟨⟨rfl, rfl, rfl, rfl⟩, rfl⟩
    have hcount : ∀ i, Asleep (t.modify c fun p => { p with ticks := sub64 p.ticks 1 }) i ↔
        Asleep t i := fun i => by
      unfold Asleep
      rw [(hf.kin t c i).state, (hf.kin t c i).syscall]
    rw [hc] at ht
    simp only at ht
    split_ifs at ht
    · obtain ⟨u, hsched, hd⟩ := bind_eq_some_iff.mp ht
      have hmoved : Quiet (t.modify c fun p => { p with ticks := sub64 p.ticks 1 }) s' := by
        have hrest : Quiet { u with currentPcb := none } s' := dispatch_quiet hd
        exact (schedule_quiet hsched).trans hrest
      refine ⟨fun i => ⟨fun hi => ?_, fun hi => ?_⟩, ?_⟩
      · exact (hcount i).mp ((hmoved i).asleep hi).1
      · exact asleep_after_preempt (hinv.modify hf c) hc hsched hd ((hcount i).mpr hi)
      · exact (dispatch_ticks hd).trans (schedule_blocks hsched).ticks
    · cases ht
      exact ⟨hcount, rfl⟩

/-- The exact deadlines after a step: a call of `sleep` with a positive duration sets that
of the caller. -/
def deadlines (s : State μ) (D : Slot → Nat) : Op φ → Slot → Nat
  | .tick => D
  | .syscall rax rdi _ _ =>
    match s.currentPcb with
    | none => D
    | some c =>
      if u64 rax = SYS_sleep ∧ u64 rdi ≠ 0 then update D c (s.ticks + u64 rdi) else D

def timedStep (ops : MemOps μ φ) (x : State μ × (Slot → Nat)) (op : Op φ) :
    Option (State μ × (Slot → Nat)) :=
  (step ops x.1 op).map fun s' => (s', deadlines x.1 x.2 op)

def Recorded (s : State μ) (D : Slot → Nat) : Prop :=
  ∀ i, Asleep s i → (s.ptable i).wakeup = u64 (D i)

theorem Quiet.recorded (hq : Quiet s s') (h : Recorded s D) : Recorded s' D := by
  intro i hi
  obtain ⟨hi', hwake⟩ := (hq i).asleep hi
  exact hwake.trans (h i hi')

theorem zombify_recorded {t' : State μ} {v : Slot} {run : Option Slot} (hcore : Core t [v] run)
    (halive : Alive (t.ptable v)) (hz : pcbZombify ops t v = some t') (h : Recorded t D) :
    Recorded t' D := by
  obtain ⟨p, t1, -, hfirst, hsecond, hvdead, -⟩ := hcore.zombify_moved halive hz
  have hadopted : Recorded (adopted t v) D := by
    intro i hi
    unfold Asleep at hi
    rw [(adopted_state t v i).1, (adopted_state t v i).2.1] at hi
    rw [← h i hi, adopted_ptable]
    split_ifs <;> rfl
  intro i hi
  have hiv : i ≠ v := fun hiv => hvdead (hiv ▸ hi.1)
  obtain ⟨hi1, hwake⟩ := (hsecond i hiv).asleep hi
  exact hwake.trans (hfirst.recorded hadopted i hi1)

theorem Recorded.update (h : Recorded s D) (hc : ¬ Asleep s c) (n : Nat) :
    Recorded s (update D c n) := by
  intro i hi
  have hic : i ≠ c := by
    rintro rfl
    exact hc hi
  rw [update_of_ne hic]
  exact h i hi

theorem Recorded.deadlines {s₁ : State μ} (h : Recorded s₁ D)
    (hc : ∀ c, s.currentPcb = some c → ¬ Asleep s₁ c) (op : Op φ) :
    Recorded s₁ (deadlines s D op) := by
  cases op with
  | tick => exact h
  | syscall rax rdi rsi file =>
    unfold Procs.deadlines
    cases hcur : s.currentPcb with
    | none => exact h
    | some c =>
      simp only
      split_ifs
      · exact h.update (hc c hcur) _
      · exact h

theorem Inv.caller_awake (h : Inv s) (c : Slot) (hc : s.currentPcb = some c) : ¬ Asleep s c := by
  intro hi
  exact absurd (hi.1.symm.trans ((h.core.kin.running c).mpr hc)) (by simp)

theorem blocked_recorded {e : State μ} {f : Pcb → Pcb} (hq : Quiet s e) (h : Recorded s D)
    (hblocks : SameBlocks (e.modify c f) t)
    (hf : (f (e.ptable c)).syscall = SYS_sleep → (f (e.ptable c)).wakeup = u64 (D c)) :
    Recorded t D := by
  refine hblocks.quiet.recorded fun i hi => ?_
  by_cases hic : i = c
  · have hsys := hi.2
    rw [hic, modify_ptable_self] at hsys
    rw [hic, modify_ptable_self]
    exact hf hsys
  · unfold Asleep at hi
    rw [modify_ptable_of_ne _ _ hic] at hi ⊢
    exact hq.recorded h i hi

theorem Effect.recorded (h : Inv s) (hrec : Recorded s D) (he : Effect ops s op s') :
    Recorded s' (Procs.deadlines s D op) := by
  cases he with
  | tick hq => exact hq.recorded hrec
  | call hnot hq =>
    refine (hq.recorded hrec).deadlines (fun c hc hi => ?_) _
    exact h.caller_awake c hc ((hq c).asleep hi).1
  | @wait c rax rdi rsi file t _ hnum hc hblocks hcore hd =>
    have hsame : Procs.deadlines s D (.syscall rax rdi rsi file) = D := by
      simp [Procs.deadlines, hc, hnum, SYS_sleep]
    rw [hsame]
    refine (dispatch_quiet hd).recorded
      (blocked_recorded (h.entered_quiet hc rax rdi rsi) hrec hblocks fun hsys => ?_)
    simp [entered, hnum, SYS_sleep] at hsys
  | @sleep c rax rdi rsi file t _ hnum hc hdur hblocks hq =>
    have hset : Procs.deadlines s D (.syscall rax rdi rsi file) =
        update D c (s.ticks + u64 rdi) := by
      simp [Procs.deadlines, hc, hnum, SYS_sleep, hdur]
    rw [hset]
    refine hq.recorded (blocked_recorded (h.entered_quiet hc rax rdi rsi)
      (hrec.update (h.caller_awake c hc) _) hblocks fun _ => ?_)
    simp [entered]
  | exit hcall hz hbefore hafter =>
    obtain ⟨run, hcore, -, halive⟩ := h.zombifyCall hcall
    have hall := hafter.recorded (zombify_recorded hcore halive hz (hbefore.recorded hrec))
    have hsame : Procs.deadlines s D op = D := by
      cases op with
      | tick => rfl
      | syscall rax rdi rsi file =>
        cases hc : s.currentPcb with
        | none => simp [Procs.deadlines, hc]
        | some c =>
          have hne : u64 rax ≠ SYS_sleep := by
            intro heq
            simp [zombifyCall, hc, heq, SYS_sleep] at hcall
          simp [Procs.deadlines, hc, hne]
    rw [hsame]
    exact hall

/-- Between the call of `pcb_on_tick` in `s` and its end in `s'`: no process with a deadline
below the tick count is left in the sleep queue, and none has left it before its deadline. -/
def OnTime (s s' : State μ) (D : Slot → Nat) : Prop :=
  (∀ i, OnQueue s' (.syscall SYS_sleep) i → s'.ticks ≤ D i) ∧
  ∀ i, OnQueue s (.syscall SYS_sleep) i → ¬ OnQueue s' (.syscall SYS_sleep) i → D i < s'.ticks

theorem filter_eq_takeWhile_iff {α : Type} {xs : List α} (hnodup : xs.Nodup) (due go : α → Bool) :
    xs.filter due = xs.takeWhile go ↔
      ∀ i ∈ xs, (i ∈ xs.dropWhile go → due i = false) ∧ (i ∉ xs.dropWhile go → due i = true) := by
  have hsplit := takeWhile_append_dropWhile (p := go) (l := xs)
  have hdisj := disjoint_of_nodup_append (hsplit.symm ▸ hnodup)
  constructor
  · intro heq i hi
    have hmem : i ∈ xs.takeWhile go ↔ due i = true := by
      rw [← heq, mem_filter]
      exact and_iff_right hi
    refine ⟨fun hdrop => ?_, fun hdrop => ?_⟩
    · rw [← Bool.not_eq_true, ← hmem]
      exact fun htake => hdisj htake hdrop
    · rw [← hsplit, mem_append] at hi
      exact hmem.mp (hi.resolve_right hdrop)
  · intro h
    have htake : (xs.takeWhile go).filter due = xs.takeWhile go := by
      refine filter_eq_self.mpr fun i hi => ?_
      exact (h i ((takeWhile_sublist go).subset hi)).2 fun hdrop => hdisj hi hdrop
    have hdrop : (xs.dropWhile go).filter due = [] := by
      refine filter_eq_nil_iff.mpr fun i hi => ?_
      rw [(h i ((dropWhile_sublist go).subset hi)).1 hi]
      simp
    calc xs.filter due = (xs.takeWhile go ++ xs.dropWhile go).filter due := by rw [hsplit]
      _ = xs.takeWhile go := by rw [filter_append, htake, hdrop, append_nil]

theorem onTime_iff (h : Inv s) (hrec : Recorded s D) (hq : SleepList s xs)
    (htick : pcbOnTick { s with ticks := u64 (s.ticks + 1) } = some s') :
    OnTime s s' D ↔ xs.filter (fun i => decide (D i < u64 (s.ticks + 1))) =
      xs.takeWhile fun i => decide (u64 (D i) < u64 (s.ticks + 1)) := by
  have hinv : Inv { s with ticks := u64 (s.ticks + 1) } :=
    ⟨⟨h.core.linked.congr rfl rfl, h.core.kin.congr (fun _ => SameKin.refl _) rfl⟩, h.returned⟩
  have hW : ∀ j ∈ xs, (s.ptable j).wakeup = u64 (D j) := fun j hj =>
    hrec j (h.onQueue_sleep.mp (hq.mem_iff.mp hj))
  obtain ⟨hleft, hticks⟩ := pcbOnTick_asleep (W := fun i => u64 (D i)) hinv hq hW htick
  have hticks' : s'.ticks = u64 (s.ticks + 1) := hticks
  have hmem : ∀ i, i ∈ xs ↔ OnQueue s (.syscall SYS_sleep) i := fun i => hq.mem_iff
  rw [filter_eq_takeWhile_iff hq.seg.nodup]
  unfold OnTime
  rw [hticks']
  simp only [hleft, decide_eq_true_eq, decide_eq_false_iff_not, not_lt]
  constructor
  · rintro ⟨hstay, hgo⟩ i hi
    exact ⟨fun hdrop => hstay i hdrop, fun hdrop => hgo i ((hmem i).mp hi) hdrop⟩
  · intro hall
    refine ⟨fun i hdrop => ?_, fun i hon hdrop => ?_⟩
    · exact (hall i ((dropWhile_sublist _).subset hdrop)).1 hdrop
    · exact (hall i ((hmem i).mpr hon)).2 hdrop

/-- The call of `pcb_on_tick` in any state of a run of sound steps is on time exactly if, in
the order of the sleep queue, the processes whose exact deadline lies below the new tick
count are the longest prefix of those whose deadline modulo `2^64` does. -/
theorem sleepers_on_time_iff (ops : MemOps μ φ) (file : φ) (mem : μ) (s₀ s s' : State μ)
    (D₀ D : Slot → Nat) (xs : List Slot) (hboot : bootProcs ops file mem = some s₀)
    (hrun : Run.Reach (timedStep ops) (fun x op => Sound x.1 op) (s₀, D₀) (s, D))
    (hq : SleepList s xs) (htick : pcbOnTick { s with ticks := u64 (s.ticks + 1) } = some s') :
    OnTime s s' D ↔ xs.filter (fun i => decide (D i < u64 (s.ticks + 1))) =
      xs.takeWhile fun i => decide (u64 (D i) < u64 (s.ticks + 1)) := by
  have hinv : Inv s ∧ Recorded s D := by
    refine hrun.invariant (I := fun x => Inv x.1 ∧ Recorded x.1 x.2) ?_ ?_
    · exact ⟨bootProcs_inv hboot, fun i hi => absurd hi.1 (bootProcs_not_blocked hboot i)⟩
    · rintro ⟨s, D⟩ op x ⟨h, hrec⟩ hsound hstep
      obtain ⟨s', hs, rfl⟩ := map_eq_some_iff.mp hstep
      exact ⟨Inv.step s op s' h hsound hs, (step_effect h hsound hs).recorded h hrec⟩
  exact onTime_iff hinv.1 hinv.2 hq htick

/-- Init has forked and sleeps for one tick; the second tick wakes it. -/
theorem sleepers_on_time_iff_init : ∃ (s s' : State Unit) (D : Slot → Nat),
    OnQueue s (.syscall SYS_sleep) 0 ∧ s'.ticks = 2 ∧ D 0 = 1 ∧ OnTime s s' D := by
  obtain ⟨s₀, hboot, hrun⟩ := booted_run (fun s₀ =>
      (Run.execOk (timedStep idleOps) (fun x op => Sound x.1 op) (s₀, fun _ => 0)
        [.syscall 2 0 0 none, .syscall 14 1 0 none, .tick]).bind fun x =>
          (pcbOnTick { x.1 with ticks := u64 (x.1.ticks + 1) }).map fun s' =>
            ((x.1.queues (.syscall SYS_sleep)).head, (x.1.queues (.syscall SYS_sleep)).tail,
              x.1.next 0, x.1.ticks, s'.ticks, x.2 0))
    (some 0, some 0, none, 1, 2, 1) (by decide +kernel)
  obtain ⟨⟨s, D⟩, hexec, hrun⟩ := bind_eq_some_iff.mp hrun
  obtain ⟨s', htick, hrun⟩ := map_eq_some_iff.mp hrun
  simp only [Prod.mk.injEq] at hrun
  obtain ⟨hhead, htail, hnext, hticks, hticks', hD⟩ := hrun
  have hq : SleepList s [0] := by
    unfold SleepList
    rw [hhead, htail]
    exact IsQueue.singleton hnext
  have htwo : u64 (s.ticks + 1) = 2 := by rw [hticks, u64_of_lt (by decide)]
  have hone : u64 (D 0) = 1 := by rw [hD, u64_of_lt (by decide)]
  refine ⟨s, s', D, ⟨[], hhead⟩, hticks', hD, (sleepers_on_time_iff idleOps () () s₀ s s'
    (fun _ => 0) D [0] hboot (Run.Reach.start.execOk hexec) hq htick).mpr ?_⟩
  rw [htwo, filter_cons_of_pos (by simp [hD]), takeWhile_cons_of_pos (by simp [hone])]
  rfl

/-- Init (process id 1) sleeps for 100 ticks and its child (process id 2) for one tick: at
tick count 2 the child, whose deadline is 1, is still in the queue behind init. -/
theorem short_sleeper_behind_long_one : ∃ (s₀ s s' : State Unit) (D : Slot → Nat),
    bootProcs idleOps () () = some s₀ ∧
      Run.Reach (timedStep idleOps) Run.anyOp (s₀, fun _ => 0) (s, D) ∧
      pcbOnTick { s with ticks := u64 (s.ticks + 1) } = some s' ∧ ¬ OnTime s s' D := by
  obtain ⟨s₀, hboot, hrun⟩ := booted_run (fun s₀ =>
      (Run.exec (timedStep idleOps) (s₀, fun _ => 0)
        [.syscall 2 0 0 none, .syscall 14 100 0 none, .syscall 14 1 0 none, .tick]).bind fun x =>
          (pcbOnTick { x.1 with ticks := u64 (x.1.ticks + 1) }).map fun s' =>
            ((s'.queues (.syscall SYS_sleep)).head, s'.next 0, s'.ticks, x.2 1))
    (some 0, some 1, 2, 1) (by decide +kernel)
  obtain ⟨⟨s, D⟩, hexec, hrun⟩ := bind_eq_some_iff.mp hrun
  obtain ⟨s', htick, hrun⟩ := map_eq_some_iff.mp hrun
  simp only [Prod.mk.injEq] at hrun
  obtain ⟨hhead, hnext, hticks, hD⟩ := hrun
  refine ⟨s₀, s, s', D, hboot, Run.Reach.start.exec hexec, htick, fun htime => ?_⟩
  have hon : OnQueue s' (.syscall SYS_sleep) 1 := ⟨[0], hhead, hnext⟩
  have hlate := htime.1 1 hon
  rw [hticks, hD] at hlate
  exact absurd hlate (by decide)

end Comus.Procs
