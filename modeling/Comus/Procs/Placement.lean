import Comus.Lib.Run
import Comus.Procs.Boot

/-!
# Every block is in the queue its state names

The invariant holds once init has been dispatched and survives every timer tick
and every system call that meets `Sound`. Two situations are excluded: a
`waitpid` that finds a zombie child, since the child is then given back to the
free list while it still hangs in the zombie queue, and the exit of a process
that leaves a zombie behind while init waits for some other child.
-/

namespace Comus.Procs

open Chain Word Option List

variable {μ φ : Type} {ops : MemOps μ φ} {s s' t : State μ} {c i v : Slot}
variable {h : Handled μ} {num rax rdi rsi : Nat} {file : Option φ} {f : Pcb → Pcb} {β : Type}

def EndsTouched (s : State μ) (h : Handled μ) : Prop := ∃ code t, h = .ret code t ∧ Touched s t

theorem Touched.ends {code : Int} (ht : Touched s t) (hh : some (.ret code t) = some h) :
    EndsTouched s h := ⟨code, t, (some.inj hh).symm, ht⟩

theorem pcbUpdateHeap_touches {n : Int} {brk : Nat}
    (hu : pcbUpdateHeap ops s c n = some (brk, s')) : Touched s s' := by
  have hheap : ∀ (mem : μ) (len : Nat),
      Touched s ({ s with mem := mem }.modify c fun p => { p with heapLen := len }) := by
    intro mem len
    refine ((Touched.refl s).setMem mem).modify ?_ c
    exact fun _ => ⟨⟨rfl, rfl, rfl, rfl⟩, rfl, rfl, rfl⟩
  unfold pcbUpdateHeap at hu
  simp only at hu
  generalize (if (s.ptable c).heapLen = 0 then 0 else heapPages (s.ptable c).heapLen) = pages at hu
  split_ifs at hu
  · exact (Prod.mk.inj (some.inj hu)).2 ▸ Touched.refl s
  · obtain ⟨mem, -, heq⟩ := map_eq_some_iff.mp hu
    exact (Prod.mk.inj heq).2 ▸ hheap mem _
  · obtain ⟨⟨virt, mem⟩, -, heq⟩ := map_eq_some_iff.mp hu
    simp only at heq
    split_ifs at heq
    · exact (Prod.mk.inj heq).2 ▸ (Touched.refl s).setMem mem
    · exact (Prod.mk.inj heq).2 ▸ hheap mem _

theorem sysBrk_touches (hh : sysBrk ops s c = some h) : EndsTouched s h := by
  unfold sysBrk at hh
  simp only at hh
  split_ifs at hh
  · exact ((Touched.refl s).rax _ c).ends hh
  · obtain ⟨⟨brk, t⟩, hu, rfl⟩ := map_eq_some_iff.mp hh
    exact ⟨_, _, rfl, (pcbUpdateHeap_touches hu).rax _ c⟩

theorem sysPopsharedmem_touches (hh : sysPopsharedmem ops s c = some h) :
    EndsTouched s h := by
  have h0 := (Touched.refl s).rax (fun _ => 0) c
  unfold sysPopsharedmem at hh
  simp only at hh
  split_ifs at hh
  · exact h0.ends hh
  · split at hh
    · refine Touched.ends (h0.modify ?_ c) hh
      exact fun _ => ⟨⟨rfl, rfl, rfl, rfl⟩, rfl, rfl, rfl⟩
    · obtain ⟨⟨phys, mem⟩, -, hh⟩ := bind_eq_some_iff.mp hh
      obtain ⟨⟨result, mem'⟩, -, rfl⟩ := map_eq_some_iff.mp hh
      refine ⟨_, _, rfl, (h0.setMem mem').modify ?_ c⟩
      exact fun _ => ⟨⟨rfl, rfl, rfl, rfl⟩, rfl, rfl, rfl⟩

theorem sysAllocshared_touches (hh : sysAllocshared ops s c = some h) :
    EndsTouched s h := by
  have h0 := (Touched.refl s).rax (fun _ => 0) c
  unfold sysAllocshared at hh
  simp only at hh
  split_ifs at hh
  · exact h0.ends hh
  · split at hh
    · exact h0.ends hh
    · rename_i other _
      split_ifs at hh
      · exact h0.ends hh
      · obtain ⟨⟨alloced, mem⟩, -, heq⟩ := map_eq_some_iff.mp hh
        simp only at heq
        split_ifs at heq
        · exact ⟨_, _, heq.symm, h0.setMem mem⟩
        · refine ⟨_, _, heq.symm, Touched.rax ((h0.setMem mem).modify ?_ other) _ c⟩
          exact fun _ => ⟨⟨rfl, rfl, rfl, rfl⟩, rfl, rfl, rfl⟩

/-- The calls that neither make, end, block nor load a process. -/
theorem handler_touches (hnum : num ∉ [0, 1, 2, 3, 13, 14]) (hh : handler ops num file s c = some h) :
    EndsTouched s h := by
  have hrefl := Touched.refl s
  unfold handler at hh
  split at hh
  · simp at hnum
  · simp at hnum
  · simp at hnum
  · simp at hnum
  · exact hrefl.ends hh
  · unfold sysGetppid at hh
    split at hh
    · exact hrefl.ends hh
    · obtain ⟨r, -, rfl⟩ := map_eq_some_iff.mp hh
      exact ⟨_, _, rfl, hrefl⟩
  · exact (hrefl.rax _ c).ends hh
  · refine Touched.ends (hrefl.modify ?_ c) hh
    exact fun _ => ⟨⟨rfl, rfl, rfl, rfl⟩, rfl, rfl, rfl⟩
  · simp at hnum
  · simp at hnum
  · exact sysBrk_touches hh
  · obtain ⟨⟨brk, t⟩, hu, rfl⟩ := map_eq_some_iff.mp hh
    exact ⟨_, _, rfl, (pcbUpdateHeap_touches hu).rax _ c⟩
  · exact (hrefl.rax _ c).ends hh
  · exact sysAllocshared_touches hh
  · exact sysPopsharedmem_touches hh
  · obtain ⟨⟨code, mem⟩, -, rfl⟩ := map_eq_some_iff.mp hh
    exact ⟨_, _, rfl, hrefl.setMem mem⟩

theorem handler_ends (hcore : Core s [] (some c))
    (hsys : (s.ptable c).syscall = num) (hexit : num = 0 → SoundExit s c)
    (hwait : num = SYS_waitpid → ∀ i, reapable s c i = false)
    (hkill : num = 13 → ∀ v, killVictim s c = some v → SoundExit s v)
    (hh : handler ops num file s c = some h) : Ends c h := by
  by_cases hnum : num ∈ [0, 1, 2, 3, 13, 14]
  · simp only [mem_cons, not_mem_nil, or_false] at hnum
    rcases hnum with rfl | rfl | rfl | rfl | rfl | rfl
    · exact sysExit_ends hcore (by rw [hsys]; decide) (hexit rfl) hh
    · exact sysWaitpid_ends hcore hsys (hwait rfl) hh
    · exact sysFork_ends hcore hh
    · exact sysExec_ends hcore hh
    · exact sysKill_ends hcore (by rw [hsys]; decide) (hkill rfl) hh
    · exact sysSleep_ends hcore hsys hh
  · obtain ⟨code, t, rfl, ht⟩ := handler_touches hnum hh
    exact hcore.touched ht

theorem Core.resume (h : Core s [] (some c))
    (hf : ∀ p, (f p).state = p.state ∧ (f p).parent = p.parent ∧ (f p).pid = p.pid ∧
      (f p).next = p.next) : Core (s.modify c f) [] (some c) := by
  have hother : ∀ j, j ≠ c → SameKin ((s.modify c f).ptable j) (s.ptable j) := fun j hj => by
    rw [modify_ptable_of_ne _ _ hj]
    exact SameKin.refl _
  have hstate : ((s.modify c f).ptable c).state = .running := by
    rw [modify_ptable_self, (hf _).1]
    exact h.caller
  refine ⟨?_, ?_⟩
  · have hhome : (s.modify c f).homeBut [] = s.homeBut [] := by
      funext j
      rw [homeBut_nil, homeBut_nil]
      by_cases hj : j = c
      · rw [hj, home_running hstate, home_running h.caller]
      · exact (hother j hj).home
    rw [hhome]
    exact h.linked.modify fun p => (hf p).2.2.2
  · refine h.kin.alive_step rfl hother ?_ ?_ (.inr (.inl h.caller)) (.inr (.inl hstate))
      ?_ ?_ fun j => ?_
    · rw [modify_ptable_self, (hf _).2.1]
    · rw [modify_ptable_self, (hf _).2.2.1]
    · exact fun hb => absurd (hstate.symm.trans hb) (by simp)
    · exact fun hr => absurd (hstate.symm.trans hr) (by simp)
    · by_cases hj : j = c
      · rw [hj, hstate]
        simp
      · rw [(hother j hj).state]
        exact h.kin.running j

theorem finish_ret_next (code : Int) (s : State μ) (c : Slot) :
    (finish c (.ret code s)).next = s.next := by
  show (s.modify c fun b =>
    { b with rax := if code ≠ 0 then toU64 code else b.rax, syscall := 0 }).next = s.next
  refine modify_next ?_ s c
  exact fun _ => rfl

theorem finish_ret_ptable (code : Int) (s : State μ) (h : i ≠ c) :
    (finish c (.ret code s)).ptable i = s.ptable i :=
  modify_ptable_of_ne s
    (fun b => { b with rax := if code ≠ 0 then toU64 code else b.rax, syscall := 0 }) h

theorem finish_ret_self (code : Int) (s : State μ) (c : Slot) :
    (finish c (.ret code s)).ptable c =
      { s.ptable c with rax := if code ≠ 0 then toU64 code else (s.ptable c).rax, syscall := 0 } :=
  modify_ptable_self s c fun b =>
    { b with rax := if code ≠ 0 then toU64 code else b.rax, syscall := 0 }

theorem finish_inv (he : Ends c h) : Inv (finish c h) := by
  cases h with
  | dispatched s => exact he
  | ret code s =>
    refine ⟨Core.setCurrent (Core.resume he ?_) (some c), fun d hd => ?_⟩
    · exact fun _ => ⟨rfl, rfl, rfl, rfl⟩
    · cases hd
      simp [finish]

def entered (s : State μ) (c : Slot) (rax rdi rsi : Nat) : State μ :=
  { s.modify c fun p =>
      { p with rax := 0, rdi := u64 rdi, rsi := u64 rsi, syscall := u64 rax } with
    currentPcb := none }

/-- The steps that keep every block in its queue, decided on the state before the
handler runs. -/
def Sound (s : State μ) : Op φ → Prop
  | .tick => True
  | .syscall rax rdi rsi _ => ∀ c, s.currentPcb = some c →
      (u64 rax = 0 ∨ 24 ≤ u64 rax → SoundExit (entered s c rax rdi rsi) c) ∧
      (u64 rax = SYS_waitpid → ∀ i, reapable (entered s c rax rdi rsi) c i = false) ∧
      (u64 rax = 13 → ∀ v, killVictim (entered s c rax rdi rsi) c = some v →
        SoundExit (entered s c rax rdi rsi) v)

instance (s : State μ) (r z : Slot) : Decidable (TakesZombie s r z) :=
  inferInstanceAs (Decidable (_ ∨ _))

instance (s : State μ) (v : Slot) : Decidable (SoundExit s v) :=
  decidable_of_iff (∀ r ∈ s.initPcb, (s.ptable r).syscall = SYS_waitpid →
      ∀ z ∈ lastZombie s v, TakesZombie s r z)
    ⟨fun h r z hr hsys hz => h r hr hsys z hz, fun h r hr hsys z hz => h r z hr hsys hz⟩

instance (s : State μ) (op : Op φ) : Decidable (Sound s op) :=
  match op with
  | .tick => isTrue trivial
  | .syscall rax rdi rsi _ =>
    decidable_of_iff (∀ c ∈ s.currentPcb,
        (u64 rax = 0 ∨ 24 ≤ u64 rax → SoundExit (entered s c rax rdi rsi) c) ∧
        (u64 rax = SYS_waitpid → ∀ i, reapable (entered s c rax rdi rsi) c i = false) ∧
        (u64 rax = 13 → ∀ v ∈ killVictim (entered s c rax rdi rsi) c,
          SoundExit (entered s c rax rdi rsi) v)) .rfl

theorem entered_ptable_self (s : State μ) (c : Slot) (rax rdi rsi : Nat) : (entered s c rax rdi rsi).ptable c =
    { s.ptable c with rax := 0, rdi := u64 rdi, rsi := u64 rsi, syscall := u64 rax } := by
  simp [entered]

theorem entered_ptable_of_ne (h : i ≠ c) (rax rdi rsi : Nat) :
    (entered s c rax rdi rsi).ptable i = s.ptable i := by
  simp [entered, modify_ptable_of_ne _ _ h]

theorem step_syscall_eq (hc : s.currentPcb = some c) :
    step ops s (.syscall rax rdi rsi file) =
      if u64 rax ≥ 24 then
        (pcbZombify ops ((entered s c rax rdi rsi).modify c fun p => { p with exitStatus := 1 })
          c).bind dispatch
      else (handler ops (u64 rax) file (entered s c rax rdi rsi) c).map (finish c) := by
  have hcur : (s.modify c fun p =>
      { p with rax := u64 rax, rdi := u64 rdi, rsi := u64 rsi }).currentPcb = some c := hc
  simp only [step, hc, syscallHandler, hcur, modify_ptable_self, modify_modify]
  rfl

theorem Inv.enter (h : Inv s) (hc : s.currentPcb = some c) (rax rdi rsi : Nat) :
    Core (entered s c rax rdi rsi) [] (some c) := by
  have hcore := h.core
  rw [hc] at hcore
  refine Core.setCurrent (hcore.resume ?_) none
  exact fun _ => ⟨rfl, rfl, rfl, rfl⟩

theorem Inv.handled {hd : Handled μ} (h : Inv s)
    (hsound : Sound s (Op.syscall rax rdi rsi file)) (hc : s.currentPcb = some c)
    (hh : handler ops (u64 rax) file (entered s c rax rdi rsi) c = some hd) : Ends c hd := by
  obtain ⟨hexit, hwait, hkill⟩ := hsound c hc
  have hsys : ((entered s c rax rdi rsi).ptable c).syscall = u64 rax := by
    simp [Procs.entered]
  exact handler_ends (h.enter hc rax rdi rsi) hsys (fun h0 => hexit (.inl h0)) hwait hkill hh

theorem Inv.syscall (h : Inv s) (hsound : Sound s (Op.syscall rax rdi rsi file))
    (hstep : step ops s (.syscall rax rdi rsi file) = some s') : Inv s' := by
  cases hc : s.currentPcb with
  | none =>
    simp only [step, hc] at hstep
    cases hstep
  | some c =>
    obtain ⟨hexit, -, -⟩ := hsound c hc
    have hcore := h.enter hc rax rdi rsi
    have hsys : ((entered s c rax rdi rsi).ptable c).syscall = u64 rax := by
      simp [Procs.entered]
    rw [step_syscall_eq hc] at hstep
    split_ifs at hstep with hbad
    · -- an invalid number ends the process
      have hends : Ends c (.dispatched s') := by
        refine hcore.exit_self ops (fun _ => 1) ?_ (hexit (.inr hbad)) ?_
        · rw [hsys]
          intro heq
          rw [heq] at hbad
          exact absurd hbad (by decide)
        · obtain ⟨t, hz, hd⟩ := bind_eq_some_iff.mp hstep
          rw [hz, bind_some, handOver, hd, map_some]
      exact hends
    · obtain ⟨hd, hh, rfl⟩ := map_eq_some_iff.mp hstep
      exact finish_inv (h.handled hsound hc hh)

theorem Linked.peek {loc : Slot → Option QueueId} {q : QueueId} (h : Linked s loc)
    (hp : pcbQueuePeek s q = some i) : loc i = some q := by
  obtain ⟨lists, hlists, hmem⟩ := h.lists
  have hhead := (hlists q).seg.head?_eq
  rw [show (s.queues q).head = some i from hp] at hhead
  exact (hmem i q).mp (mem_of_head? hhead)

theorem Inv.wake {n : Fin 24} (h : Inv s) (hi : s.home i = some (.syscall n))
    (hrem : pcbQueueRemove s (.syscall n) i = some (.success, t))
    (hsched : schedule t i = some s') : Inv s' ∧ s'.currentPcb = s.currentPcb := by
  have hblocked := home_eq_syscall hi
  obtain ⟨t', hrem', hdet, hsame⟩ := h.core.detach (i := i) (by simp) hi
  obtain rfl : t' = t := (Prod.mk.inj (some.inj (hrem'.symm.trans hrem))).2
  have halive : Alive (t'.ptable i) := (hsame.kin i).alive.mpr (.inr (.inr hblocked))
  obtain ⟨u, hu, hcore, hsame'⟩ := hdet.schedule (by simp) halive
  obtain rfl : u = s' := some.inj (hu.symm.trans hsched)
  have hcur : u.currentPcb = s.currentPcb := hsame'.currentPcb.trans hsame.currentPcb
  rw [h.core.kin.without_eq (by rw [hblocked]; simp)] at hcore
  refine ⟨⟨hcur ▸ hcore, fun c hc => ?_⟩, hcur⟩
  have hc' : s.currentPcb = some c := hcur ▸ hc
  have hci : c ≠ i := by
    rintro rfl
    have := (h.core.kin.running c).mpr hc'
    cases hblocked.symm.trans this
  rw [(kin_of_modify hsame' hci).syscall, (hsame.kin c).syscall]
  exact h.returned c hc'

theorem Inv.wakeSleepers {fuel : Nat} (h : Inv s) (hw : wakeSleepers fuel s = some s') :
    Inv s' := by
  induction fuel generalizing s with
  | zero => exact absurd hw (by simp [Procs.wakeSleepers])
  | succ fuel ih =>
    rw [Procs.wakeSleepers] at hw
    cases hp : pcbQueuePeek s (.syscall SYS_sleep) with
    | none =>
      simp only [hp, some.injEq] at hw
      exact hw ▸ h
    | some i =>
      simp only [hp] at hw
      split_ifs at hw
      · exact some.inj hw ▸ h
      · have hi : s.home i = some (.syscall SYS_sleep) := by
          rw [← homeBut_nil]
          exact h.core.linked.peek hp
        split at hw
        · rename_i t hrem
          obtain ⟨u, hsched, hrest⟩ := bind_eq_some_iff.mp hw
          exact ih (h.wake hi hrem hsched).1 hrest
        · cases hw

theorem Inv.preempt (h : Inv s) (hc : s.currentPcb = some c)
    (hsched : schedule s c = some t) (hd : dispatch { t with currentPcb := none } = some s') :
    Inv s' := by
  have hcore := h.core
  rw [hc] at hcore
  obtain ⟨u, hu, hafter, -⟩ := hcore.aside.schedule (by simp) (.inr (.inl hcore.caller))
  cases hu.symm.trans hsched
  rw [without_self] at hafter
  exact (hafter.setCurrent none).dispatch hd

theorem Inv.modify (h : Inv s) (hf : Harmless f) (i : Slot) : Inv (s.modify i f) :=
  ⟨h.core.modify hf i, fun c hc => by
    rw [(hf.kin s i c).syscall]
    exact h.returned c hc⟩

theorem Inv.onTick (h : Inv s) (ht : pcbOnTick s = some s') : Inv s' := by
  unfold pcbOnTick at ht
  split_ifs at ht
  · exact some.inj ht ▸ h
  · obtain ⟨t, hwake, ht⟩ := bind_eq_some_iff.mp ht
    have hinv := h.wakeSleepers hwake
    cases hc : t.currentPcb with
    | none =>
      rw [hc] at ht
      exact some.inj ht ▸ hinv
    | some c =>
      have hf : Harmless fun p => { p with ticks := sub64 p.ticks 1 } :=
        fun _ => ⟨⟨rfl, rfl, rfl, rfl⟩, rfl⟩
      rw [hc] at ht
      simp only at ht
      split_ifs at ht
      · obtain ⟨u, hsched, hd⟩ := bind_eq_some_iff.mp ht
        exact (hinv.modify hf c).preempt hc hsched hd
      · exact some.inj ht ▸ hinv.modify hf c

theorem Inv.tick (h : Inv s) (hstep : step ops s .tick = some s') : Inv s' := by
  obtain ⟨t, ht, hstep⟩ := bind_eq_some_iff.mp hstep
  have hclock : Inv { s with ticks := u64 (s.ticks + 1) } :=
    ⟨⟨h.core.linked.congr rfl rfl, h.core.kin.congr (fun _ => SameKin.refl _) rfl⟩, h.returned⟩
  have hinv := hclock.onTick ht
  split_ifs at hstep with hcur
  · have hnone : t.currentPcb = none := by simpa using hcur
    exact Core.dispatch (hnone ▸ hinv.core) hstep
  · exact some.inj hstep ▸ hinv

theorem Inv.step (s : State μ) (op : Op φ) (s' : State μ) (h : Inv s) (hsound : Sound s op)
    (hstep : step ops s op = some s') : Inv s' := by
  cases op with
  | syscall rax rdi rsi file => exact h.syscall hsound hstep
  | tick => exact h.tick hstep

/-- Every queue is a list without cycle that ends at its tail; a block is exactly
once in the queue its state names, and in no other queue. -/
def WellPlaced (s : State μ) : Prop :=
  (∃ lists : QueueId → List Slot,
    (∀ q, IsQueue s.next (s.queues q).head (s.queues q).tail (lists q)) ∧
      ∀ i q, (lists q).count i = if home (s.ptable i) = some q then 1 else 0) ∧
  ∀ i, (s.ptable i).state = .blocked → (s.ptable i).syscall < 24

theorem Inv.wellPlaced (h : Inv s) : WellPlaced s := by
  obtain ⟨lists, hlists, hmem⟩ := h.core.linked.lists
  refine ⟨⟨lists, hlists, fun i q => ?_⟩, h.core.kin.blocked⟩
  have hiff := hmem i q
  rw [homeBut_nil] at hiff
  split_ifs with hq
  · exact count_eq_one_of_mem (hlists q).seg.nodup (hiff.mpr hq)
  · exact count_eq_zero_of_not_mem fun hi => hq (hiff.mp hi)

/-- From boot on, steps that meet `Sound` keep every block in the queue its state names. -/
theorem sound_run_wellPlaced (ops : MemOps μ φ) (file : φ) (mem : μ) (s₀ s : State μ)
    (hboot : bootProcs ops file mem = some s₀) (hrun : Run.Reach (step ops) Sound s₀ s) :
    WellPlaced s :=
  (hrun.invariant (bootProcs_inv hboot) Inv.step).wellPlaced

/-! ## Concrete runs

Memory operations that always succeed and do nothing. -/

def idleOps : MemOps Unit Unit where
  memCtxClone := fun _ _ => some (1, ())
  memCtxFree := fun _ _ => some ()
  store := fun _ _ _ _ => some ()
  userLoad := fun _ _ => some (some ⟨1, 0x1000, 0⟩, ())
  memAllocPages := fun _ _ _ _ => some (0, ())
  memAllocPagesAt := fun _ _ _ _ _ => some (0, ())
  memFreePages := fun _ _ _ => some ()
  memMapaddr := fun _ _ _ _ _ _ => some (0, ())
  memGetPhys := fun _ _ _ => some (0, ())
  device := fun _ _ _ => some (0, ())

/-- Runs from boot are evaluated on the table that `pcb_init` leaves. -/
theorem booted_run (f : State Unit → Option β) (b : β)
    (h : (loadInit idleOps () (freedTable () 256)).bind f = some b) :
    ∃ s₀, bootProcs idleOps () () = some s₀ ∧ f s₀ = some b := by
  rw [bootProcs, pcbInit_eq, bind_some]
  exact bind_eq_some_iff.mp h

theorem booted_reach (ok : State Unit → Op Unit → Prop) [∀ s op, Decidable (ok s op)]
    (xs : List (Op Unit)) (f : State Unit → β) (b : β)
    (h : ((loadInit idleOps () (freedTable () 256)).bind fun s₀ =>
      (Run.execOk (step idleOps) ok s₀ xs).map f) = some b) :
    ∃ s₀ s, bootProcs idleOps () () = some s₀ ∧ Run.Reach (step idleOps) ok s₀ s ∧ f s = b := by
  obtain ⟨s₀, hboot, hrun⟩ := booted_run _ b h
  obtain ⟨s, hexec, hs⟩ := map_eq_some_iff.mp hrun
  exact ⟨s₀, s, hboot, Run.Reach.start.execOk hexec, hs⟩

/-- Init forks, waits for any child and is woken by the child's exit. -/
theorem sound_run_wellPlaced_fork_wait : ∃ s : State Unit,
    (s.ptable 0).state = .running ∧ (s.ptable 1).state = .unused ∧ WellPlaced s := by
  obtain ⟨s₀, s, hboot, hreach, hrun⟩ := booted_reach Sound
    [.syscall 2 0 0 none, .syscall 1 0 0 none, .syscall 0 0 0 none]
    (fun s => ((s.ptable 0).state, (s.ptable 1).state)) (.running, .unused) (by decide +kernel)
  simp only [Prod.mk.injEq] at hrun
  exact ⟨s, hrun.1, hrun.2, sound_run_wellPlaced idleOps () () s₀ s hboot hreach⟩

/-- Init forks and yields, the child exits, init reaps it with `waitpid`: the child's
block is free and at the head of the zombie queue. -/
theorem reaped_child_in_two_queues : ∃ s₀ s : State Unit, bootProcs idleOps () () = some s₀ ∧
    Run.Reach (step idleOps) Run.anyOp s₀ s ∧ ¬ WellPlaced s := by
  obtain ⟨s₀, hboot, hrun⟩ := booted_run (fun s₀ =>
      (Run.exec (step idleOps) s₀ [.syscall 2 0 0 none, .syscall 14 0 0 none,
        .syscall 0 0 0 none, .syscall 1 0 0 none]).map fun s =>
          ((s.queues .zombie).head, (s.ptable 1).state)) (some 1, .unused) (by decide +kernel)
  obtain ⟨s, hexec, hrun⟩ := map_eq_some_iff.mp hrun
  simp only [Prod.mk.injEq] at hrun
  obtain ⟨hhead, hstate⟩ := hrun
  refine ⟨s₀, s, hboot, Run.Reach.start.exec hexec, fun hplaced => ?_⟩
  obtain ⟨⟨lists, hlists, hcount⟩, -⟩ := hplaced
  have hmem : (1 : Slot) ∈ lists .zombie :=
    mem_of_head? ((hlists .zombie).seg.head?_eq.trans hhead)
  have hzero := hcount 1 .zombie
  rw [if_neg (by simp [home, hstate])] at hzero
  exact count_eq_zero.mp hzero hmem

end Comus.Procs
