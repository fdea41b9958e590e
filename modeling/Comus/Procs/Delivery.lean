import Comus.Procs.Blocks
import Comus.Procs.Placement

/-!
# Delivery of exit statuses

`pcb_zombify` serves waiting processes with dead children: init with a zombie it
inherits, the parent with the victim. Which processes leave the waitpid queue, which
blocks are reclaimed and what the memory sees is compared here with the list of the
deliveries made.
-/

namespace Comus.Procs

open Chain Word Option List

variable {μ φ : Type} {ops : MemOps μ φ} {s s' t t' : State μ} {c i v p w d : Slot}
  {run : Option Slot} {op : Op φ}

def killCall (s : State μ) (c : Slot) : Option (State μ × Slot) :=
  (killVictim s c).bind fun victim =>
    match (s.ptable victim).state with
    | .ready =>
      let s := s.modify victim fun p => { p with exitStatus := 1 }
      (pcbQueueRemove s .ready victim).map fun (_, s) => (s, victim)
    | .blocked =>
      let s := s.modify victim fun p => { p with exitStatus := 1 }
      if h : (s.ptable victim).syscall < 24 then
        (pcbQueueRemove s (.syscall ⟨_, h⟩) victim).map fun (_, s) => (s, victim)
      else none
    | .running => some (s.modify c fun p => { p with exitStatus := 1 }, c)
    | _ => none

def zombifyCall (s : State μ) : Op φ → Option (State μ × Slot)
  | .tick => none
  | .syscall rax rdi rsi _ =>
    match s.currentPcb with
    | none => none
    | some c =>
      let s := entered s c rax rdi rsi
      if u64 rax ≥ 24 then some (s.modify c fun p => { p with exitStatus := 1 }, c)
      else if u64 rax = 0 then some (s.modify c fun p => { p with exitStatus := p.rdi % 2^8 }, c)
      else if u64 rax = 13 then killCall s c
      else none

theorem killVictim_eq_some (h : killVictim s c = some v) :
    pcbFindPid s (argPid s c) = some v ∧
      ∃ o, findOwner s (s.ptable c).pid walkFuel (some v) = some (some o) := by
  unfold killVictim at h
  cases hv : pcbFindPid s (argPid s c) with
  | none =>
    rw [hv] at h
    cases h
  | some u =>
    simp only [hv] at h
    split at h
    · rename_i o howner
      cases h
      exact ⟨rfl, o, howner⟩
    · cases h

theorem sysKill_of_call (h : killCall s c = some (t, v)) :
    sysKill ops s c = (pcbZombify ops t v).map (.ret 0) ∨
      sysKill ops s c = (pcbZombify ops t v).bind handOver := by
  obtain ⟨u, hvictim, h⟩ := bind_eq_some_iff.mp h
  obtain ⟨hfind, o, howner⟩ := killVictim_eq_some hvictim
  unfold sysKill
  simp only [hfind, howner, bind_some]
  cases hstate : (s.ptable u).state with
  | ready =>
    simp only [hstate] at h
    obtain ⟨⟨st, s1⟩, hrem, heq⟩ := map_eq_some_iff.mp h
    cases heq
    simp [hrem]
  | blocked =>
    simp only [hstate] at h
    split_ifs at h with hlt
    obtain ⟨⟨st, s1⟩, hrem, heq⟩ := map_eq_some_iff.mp h
    cases heq
    rw [dif_pos hlt, hrem]
    exact .inl rfl
  | running =>
    simp only [hstate] at h
    cases h
    exact .inr rfl
  | unused => simp [hstate] at h
  | new => simp [hstate] at h
  | zombie => simp [hstate] at h

theorem step_of_zombifyCall (hcall : zombifyCall s op = some (t, v)) (hstep : step ops s op = some s') :
    ∃ t', pcbZombify ops t v = some t' ∧
      (dispatch t' = some s' ∨ ∃ c, s.currentPcb = some c ∧ s' = finish c (.ret 0 t')) := by
  cases op with
  | tick => exact absurd hcall (by simp [zombifyCall])
  | syscall rax rdi rsi file =>
    cases hc : s.currentPcb with
    | none =>
      unfold zombifyCall at hcall
      simp [hc] at hcall
    | some c =>
      rw [step_syscall_eq hc] at hstep
      simp only [zombifyCall, hc] at hcall
      split_ifs at hcall hstep with hinvalid hexit hkill
      · cases hcall
        obtain ⟨t', hz, hd⟩ := bind_eq_some_iff.mp hstep
        exact ⟨t', hz, .inl hd⟩
      · cases hcall
        obtain ⟨h, hh, rfl⟩ := map_eq_some_iff.mp hstep
        rw [hexit] at hh
        obtain ⟨t', hz, hd⟩ := bind_eq_some_iff.mp hh
        obtain ⟨u, hu, rfl⟩ := map_eq_some_iff.mp hd
        exact ⟨t', hz, .inl hu⟩
      · obtain ⟨h, hh, rfl⟩ := map_eq_some_iff.mp hstep
        rw [hkill] at hh
        have hh' : sysKill ops (entered s c rax rdi rsi) c = some h := hh
        have hkills : sysKill ops _ c = _ ∨ sysKill ops _ c = _ := sysKill_of_call hcall
        rcases hkills with heq | heq
        · rw [heq] at hh'
          obtain ⟨t', hz, rfl⟩ := map_eq_some_iff.mp hh'
          exact ⟨t', hz, .inr ⟨c, rfl, rfl⟩⟩
        · rw [heq] at hh'
          obtain ⟨t', hz, hd⟩ := bind_eq_some_iff.mp hh'
          obtain ⟨u, hu, rfl⟩ := map_eq_some_iff.mp hd
          exact ⟨t', hz, .inl hu⟩

theorem Core.caller_dies (hcore : Core s [] (some c)) (hsys : (s.ptable c).syscall ≠ SYS_waitpid)
    (e : Pcb → Nat) :
    ∃ run, Core (s.modify c fun p => { p with exitStatus := e p }) [c] run ∧
      NotWaiting (s.modify c fun p => { p with exitStatus := e p }) ∧
      Alive ((s.modify c fun p => { p with exitStatus := e p }).ptable c) := by
  have hf := exit_harmless e
  have hmod := hcore.modify hf c
  refine ⟨some c, hmod.aside, hmod.not_waiting ?_, .inr (.inl hmod.caller)⟩
  rw [(hf.kin s c c).syscall]
  exact hsys

theorem Core.killCall (hcore : Core s [] (some c)) (hsys : (s.ptable c).syscall ≠ SYS_waitpid)
    (hcall : killCall s c = some (t, v)) : ∃ run, Core t [v] run ∧ NotWaiting t ∧
      Alive (t.ptable v) := by
  -- another process, in the queue `q`
  have hother : ∀ u q s1 st, s.home u = some q → Alive (s.ptable u) →
      pcbQueueRemove (s.modify u fun p => { p with exitStatus := 1 }) q u = some (st, s1) →
      ∃ run, Core s1 [u] run ∧ NotWaiting s1 ∧ Alive (s1.ptable u) := by
    intro u q s1 st hq halive hrem
    have hf := exit_harmless fun _ => 1
    obtain ⟨s2, hrem', hdet, hsame⟩ := (hcore.modify hf u).detach (i := u) (by simp)
      (by rw [State.home, (hf.kin s u u).home]; exact hq)
    obtain rfl : s1 = s2 := by
      rw [hrem] at hrem'
      exact (Prod.mk.inj (some.inj hrem')).2
    have hkin : ∀ j, SameKin (s1.ptable j) (s.ptable j) :=
      fun j => (hsame.kin j).trans (hf.kin s u j)
    exact ⟨_, hdet, hdet.not_waiting (by rw [(hkin c).syscall]; exact hsys),
      (hkin u).alive.mpr halive⟩
  obtain ⟨u, -, hcall⟩ := bind_eq_some_iff.mp hcall
  cases hstate : (s.ptable u).state with
  | ready =>
    simp only [hstate] at hcall
    obtain ⟨⟨st, s1⟩, hrem, heq⟩ := map_eq_some_iff.mp hcall
    obtain ⟨rfl, rfl⟩ := Prod.mk.inj heq
    exact hother u .ready s1 st (by simp [State.home, home, hstate]) (.inl hstate) hrem
  | blocked =>
    simp only [hstate] at hcall
    split_ifs at hcall with hlt
    obtain ⟨⟨st, s1⟩, hrem, heq⟩ := map_eq_some_iff.mp hcall
    obtain ⟨rfl, rfl⟩ := Prod.mk.inj heq
    refine hother u _ s1 st ?_ (.inr (.inr hstate)) hrem
    have hlt' := hcore.kin.blocked u hstate
    simp [State.home, home, hstate, hlt']
  | running =>
    simp only [hstate] at hcall
    cases hcall
    exact hcore.caller_dies hsys fun _ => 1
  | unused => simp [hstate] at hcall
  | new => simp [hstate] at hcall
  | zombie => simp [hstate] at hcall

theorem Inv.zombifyCall (h : Inv s) (hcall : zombifyCall s op = some (t, v)) :
    ∃ run, Core t [v] run ∧ NotWaiting t ∧ Alive (t.ptable v) := by
  cases op with
  | tick => exact absurd hcall (by simp [Procs.zombifyCall])
  | syscall rax rdi rsi file =>
    cases hc : s.currentPcb with
    | none =>
      unfold Procs.zombifyCall at hcall
      simp [hc] at hcall
    | some c =>
      have hcore := h.enter hc rax rdi rsi
      have hsys : ((entered s c rax rdi rsi).ptable c).syscall = u64 rax := by
        simp [entered]
      simp only [Procs.zombifyCall, hc] at hcall
      split_ifs at hcall with hinvalid hexit hkill
      · cases hcall
        exact hcore.caller_dies (by rw [hsys]; simp only [SYS_waitpid]; omega) fun _ => 1
      · cases hcall
        exact hcore.caller_dies (by rw [hsys, hexit]; decide) fun p => p.rdi % 2^8
      · exact hcore.killCall (by rw [hsys, hkill]; decide) hcall

/-- The process `w`, blocked in `waitpid`, is scheduled with the process id of its child
`d` as the result; children of the victim `v` count as children of init. -/
structure Delivery (t t' : State μ) (v w d : Slot) : Prop where
  waiting : OnQueue t (.syscall SYS_waitpid) w
  child : ((adopted t v).ptable d).parent = some w
  asked : argPid t w = 0 ∨ argPid t w = (t.ptable d).pid
  scheduled : OnQueue t' .ready w
  result : (t'.ptable w).rax = (t.ptable d).pid

/-- Between `t` and `t'` exactly the deliveries of a list are made: the memory sees the
stores and releases of these and nothing else, only a served process leaves the waitpid
queue, and only the block of a delivered process enters the free list. -/
def Served (ops : MemOps μ φ) (t t' : State μ) (v : Slot) : Prop :=
  ∃ ds : List (Slot × Slot),
    (∀ w d, (w, d) ∈ ds → Delivery t t' v w d) ∧ (ds.map Prod.fst).Nodup ∧
    ds.foldlM (fun mem e => deliver ops mem (t.ptable e.1) (t.ptable e.2)) t.mem = some t'.mem ∧
    (∀ w, OnQueue t (.syscall SYS_waitpid) w → ¬ OnQueue t' (.syscall SYS_waitpid) w →
      ∃ d, (w, d) ∈ ds) ∧
    ∀ d, OnQueue t' .freelist d → ¬ OnQueue t .freelist d → ∃ w, (w, d) ∈ ds

theorem deliver_congr {w w' d d' : Pcb} (mem : μ) (hrsi : w'.rsi = w.rsi)
    (hctx : w'.memctx = w.memctx) (hexit : d'.exitStatus = d.exitStatus)
    (hctx' : d'.memctx = d.memctx) : deliver ops mem w' d' = deliver ops mem w d := by
  unfold deliver
  rw [hrsi, hctx, hexit, hctx']

theorem adopted_deliver (s : State μ) (v w d : Slot) :
    deliver ops s.mem ((adopted s v).ptable w) ((adopted s v).ptable d) =
      deliver ops s.mem (s.ptable w) (s.ptable d) := by
  rw [adopted_ptable, adopted_ptable]
  refine deliver_congr _ ?_ ?_ ?_ ?_ <;> split_ifs <;> rfl

structure Serves (ops : MemOps μ φ) (s s' : State μ) (w d : Slot) : Prop where
  memory : deliver ops s.mem (s.ptable w) (s.ptable d) = some s'.mem
  blocks : SameBlocks { served s w d with mem := s'.mem } s'
  distinct : w ≠ d

theorem Serves.other (h : Serves ops s s' w d) (hw : i ≠ w) (hd : i ≠ d) :
    (s'.ptable i).unlinked = (s.ptable i).unlinked := by
  have := h.blocks.block i
  rwa [served_ptable h.distinct, if_neg hd, if_neg hw] at this

theorem SameKin.of_unlinked {b b' : Pcb} (h : b.unlinked = b'.unlinked) : SameKin b b' := by
  have hstate := congrArg Pcb.state h
  have hsys := congrArg Pcb.syscall h
  have hparent := congrArg Pcb.parent h
  have hpid := congrArg Pcb.pid h
  exact ⟨hstate, hsys, hparent, hpid⟩

theorem Serves.kin (h : Serves ops s s' w d) (hw : i ≠ w) (hd : i ≠ d) :
    SameKin (s'.ptable i) (s.ptable i) :=
  SameKin.of_unlinked (h.other hw hd)

theorem Serves.waiter (h : Serves ops s s' w d) :
    (s'.ptable w).state = .ready ∧ (s'.ptable w).syscall = 0 ∧
      (s'.ptable w).rax = (s.ptable d).pid := by
  have hblock := h.blocks.block w
  rw [served_ptable h.distinct, if_neg h.distinct, if_pos rfl] at hblock
  exact ⟨congrArg Pcb.state hblock, congrArg Pcb.syscall hblock, congrArg Pcb.rax hblock⟩

theorem Serves.dead (h : Serves ops s s' w d) : (s'.ptable d).state = .unused := by
  have hblock := h.blocks.block d
  rw [served_ptable h.distinct, if_pos rfl] at hblock
  exact congrArg Pcb.state hblock

theorem home_adopted (s : State μ) (v i : Slot) : (adopted s v).home i = s.home i := by
  unfold State.home home
  rw [(adopted_state s v i).1, (adopted_state s v i).2.1]

theorem Core.homeBut_eq (h : Core t [v] run) (hi : i ≠ v) {q : QueueId} :
    OnQueue t q i ↔ t.home i = some q := by
  rw [h.linked.onQueue_iff, State.homeBut, if_neg (by simpa using hi)]

theorem Core.served_of {run' : Option Slot} (h : Core t [v] run) (h' : Core t' [] run')
    (ds : List (Slot × Slot))
    (heach : ∀ w d, (w, d) ∈ ds → w ≠ v ∧ t.home w = some (.syscall SYS_waitpid) ∧
      ((Procs.adopted t v).ptable d).parent = some w ∧ TakesZombie t w d ∧
      (t'.ptable w).state = .ready ∧ (t'.ptable w).rax = (t.ptable d).pid)
    (hnodup : (ds.map Prod.fst).Nodup)
    (hmem : ds.foldlM (fun mem e => deliver ops mem (t.ptable e.1) (t.ptable e.2)) t.mem =
      some t'.mem)
    (hkeep : ∀ i, i ≠ v → (∀ d, (i, d) ∉ ds) → t.home i = some (.syscall SYS_waitpid) →
      t'.home i = some (.syscall SYS_waitpid))
    (hdead : ∀ i, (∀ w, (w, i) ∉ ds) → (t'.ptable i).state = .unused →
      i ≠ v ∧ (t.ptable i).state = .unused) : Served ops t t' v := by
  have hon' : ∀ q i, OnQueue t' q i ↔ t'.home i = some q := fun q i => by
    rw [h'.linked.onQueue_iff, homeBut_nil]
  refine ⟨ds, fun w d hwd => ?_, hnodup, hmem, fun w hw hleft => ?_, fun d hd hnew => ?_⟩
  · obtain ⟨hwv, hhome, hchild, htake, hready, hrax⟩ := heach w d hwd
    refine ⟨(h.homeBut_eq hwv).mpr hhome, hchild, htake, ?_, hrax⟩
    rw [hon']
    simp [State.home, home, hready]
  · by_contra hnone
    have hwv : w ≠ v := by
      rintro rfl
      rw [h.linked.onQueue_iff, homeBut_self] at hw
      cases hw
    rw [h.homeBut_eq hwv] at hw
    exact hleft ((hon' _ w).mpr (hkeep w hwv (fun d hd => hnone ⟨d, hd⟩) hw))
  · by_contra hnone
    rw [hon'] at hd
    obtain ⟨hdv, hunused⟩ := hdead d (fun w hw => hnone ⟨w, hw⟩) (home_eq_freelist hd)
    refine hnew ((h.homeBut_eq hdv).mpr ?_)
    simp [State.home, home, hunused]

/-- What the first half of `pcb_zombify` delivers: nothing, or one zombie to init. -/
structure Inherited (ops : MemOps μ φ) (t : State μ) (v : Slot) (t1 : State μ)
    (ds : List (Slot × Slot)) : Prop where
  heir : ∀ w d, (w, d) ∈ ds → t.initPcb = some w ∧ lastZombie t v = some d
  each : ∀ w d, (w, d) ∈ ds → w ≠ v ∧ t.home w = some (.syscall SYS_waitpid) ∧
    ((adopted t v).ptable d).parent = some w ∧ TakesZombie t w d ∧ (t.ptable d).state = .zombie
  waiter : ∀ w d, (w, d) ∈ ds → (t1.ptable w).state = .ready ∧ (t1.ptable w).syscall = 0 ∧
    (t1.ptable w).rax = (t.ptable d).pid
  dead : ∀ w d, (w, d) ∈ ds → (t1.ptable d).state = .unused
  nodup : (ds.map Prod.fst).Nodup
  memory : ds.foldlM (fun mem e => deliver ops mem (t.ptable e.1) (t.ptable e.2)) t.mem =
    some t1.mem
  other : ∀ i, (∀ d, (i, d) ∉ ds) → (∀ w, (w, i) ∉ ds) →
    (t1.ptable i).unlinked = ((adopted t v).ptable i).unlinked

theorem Core.inherited {t1 : State μ} (h : Core t [v] run) (hnot : NotWaiting t)
    (halive : Alive (t.ptable v)) (hinit : t.initPcb ≠ some v) (hsound : SoundExit t v)
    (hhand : HandedOver ops t v t1) : ∃ ds, Inherited ops t v t1 ds := by
  rcases hhand with ⟨rfl, -⟩ | ⟨r, z, hr, hlast, hsys, hpass⟩
  · exact ⟨[], by simp, by simp, by simp, by simp, by simp, rfl, fun _ _ _ => rfl⟩
  · have hrv : r ≠ v := fun hrv => hinit (hrv ▸ hr)
    obtain ⟨hblocked, hsys', hzstate, hzv⟩ := h.heirs hnot halive hr hrv hsys hlast
    obtain ⟨hzt, hzparent⟩ := lastZombie_spec hlast
    have hzr : z ≠ r := by
      rintro rfl
      cases hzstate.symm.trans hblocked
    have htake := hsound r z hr hsys hlast
    rcases passToInit_cases hzr hpass with ⟨-, hdeliver, hblocks⟩ | ⟨hno, -⟩
    · have hserves : Serves ops (Procs.adopted t v) t1 r z := ⟨hdeliver, hblocks, hzr.symm⟩
      refine ⟨[(r, z)], ?_, ?_, ?_, ?_, by simp, ?_, ?_⟩
      · intro w d hwd
        obtain ⟨rfl, rfl⟩ := Prod.mk.inj (mem_singleton.mp hwd)
        exact ⟨hr, hlast⟩
      · intro w d hwd
        obtain ⟨rfl, rfl⟩ := Prod.mk.inj (mem_singleton.mp hwd)
        refine ⟨hrv, ?_, ?_, htake, hzt⟩
        · rw [← home_adopted t v, State.home, home]
          simp [hblocked, hsys']
        · have hchild : isChild t v d = true := by simp [isChild, hzt, hzparent]
          rw [adopted_ptable, if_pos hchild]
          exact hr
      · intro w d hwd
        obtain ⟨rfl, rfl⟩ := Prod.mk.inj (mem_singleton.mp hwd)
        obtain ⟨hready, hsys0, hrax⟩ := hserves.waiter
        exact ⟨hready, hsys0, hrax.trans (adopted_state t v d).2.2.1⟩
      · intro w d hwd
        obtain ⟨rfl, rfl⟩ := Prod.mk.inj (mem_singleton.mp hwd)
        exact hserves.dead
      · rw [foldlM_cons, ← adopted_deliver t v r z]
        have hmem := hserves.memory
        rw [show (Procs.adopted t v).mem = t.mem from rfl] at hmem
        rw [hmem]
        rfl
      · intro i hfst hsnd
        exact hserves.other (fun hi => hfst z (by simp [hi])) fun hi => hsnd r (by simp [hi])
    · exact absurd (TakesZombie.adopted_iff.mpr htake) hno

section SecondHalf

variable {t1 : State μ} {ds : List (Slot × Slot)}

theorem Inherited.block (h : Inherited ops t v t1 ds) (hfst : ∀ d, (i, d) ∉ ds) (hsnd : ∀ w, (w, i) ∉ ds) :
    (t1.ptable i).memctx = (t.ptable i).memctx ∧ (t1.ptable i).rsi = (t.ptable i).rsi ∧
      (t1.ptable i).rdi = (t.ptable i).rdi ∧ (t1.ptable i).exitStatus = (t.ptable i).exitStatus ∧
      (t1.ptable i).pid = (t.ptable i).pid ∧ (t1.ptable i).syscall = (t.ptable i).syscall ∧
      (t1.ptable i).state = (t.ptable i).state := by
  have hblock := h.other i hfst hsnd
  have hfield : ∀ {α : Type} (f : Pcb → α), (∀ b : Pcb, f b.unlinked = f b) →
      (∀ b : Pcb, f { b with parent := t.initPcb } = f b) → f (t1.ptable i) = f (t.ptable i) := by
    intro α f hlink hpar
    rw [← hlink (t1.ptable i), hblock, hlink, adopted_ptable]
    split_ifs
    · exact hpar _
    · rfl
  exact ⟨hfield Pcb.memctx (fun _ => rfl) fun _ => rfl, hfield Pcb.rsi (fun _ => rfl) fun _ => rfl,
    hfield Pcb.rdi (fun _ => rfl) fun _ => rfl, hfield Pcb.exitStatus (fun _ => rfl) fun _ => rfl,
    hfield Pcb.pid (fun _ => rfl) fun _ => rfl, hfield Pcb.syscall (fun _ => rfl) fun _ => rfl,
    hfield Pcb.state (fun _ => rfl) fun _ => rfl⟩

theorem Inherited.kept (h : Inherited ops t v t1 ds) (hfst : ∀ d, (i, d) ∉ ds)
    (hhome : t.home i = some (.syscall SYS_waitpid)) :
    t1.home i = some (.syscall SYS_waitpid) := by
  have hsnd : ∀ w, (w, i) ∉ ds := fun w hw => by
    rw [State.home, home, (h.each w i hw).2.2.2.2] at hhome
    cases hhome
  obtain ⟨-, -, -, -, -, hsys, hstate⟩ := h.block hfst hsnd
  rw [← hhome, State.home, State.home, home, home, hsys, hstate]

theorem Inherited.fresh (h : Inherited ops t v t1 ds) (hsnd : ∀ w, (w, i) ∉ ds)
    (hunused : (t1.ptable i).state = .unused) : (t.ptable i).state = .unused := by
  have hfst : ∀ d, (i, d) ∉ ds := fun d hd => by
    rw [(h.waiter i d hd).1] at hunused
    cases hunused
  obtain ⟨-, -, -, -, -, -, hstate⟩ := h.block hfst hsnd
  exact hstate ▸ hunused

theorem Inherited.not_delivered (h : Inherited ops t v t1 ds) (halive : Alive (t.ptable i))
    (w : Slot) : (w, i) ∉ ds :=
  fun hw => halive.not_zombie (h.each w i hw).2.2.2.2

theorem Core.served_parent {run' : Option Slot} (h : Core t [v] run) (h' : Core t' [] run')
    (hnot : NotWaiting t) (halive : Alive (t.ptable v)) (hpalive : Alive (t.ptable p))
    (hparent : (t.ptable v).parent = some p) (hpv : p ≠ v) (hin : Inherited ops t v t1 ds)
    (hwait : Awaited t1 p v) (hserves : Serves ops t1 t' p v) : Served ops t t' v := by
  have hpfst : ∀ d, (p, d) ∉ ds := fun d hd => by
    have hsys := hwait.1
    rw [(hin.waiter p d hd).2.1] at hsys
    cases hsys
  obtain ⟨hpctx, hprsi, hprdi, -, -, hpsys, -⟩ := hin.block hpfst (hin.not_delivered hpalive)
  obtain ⟨hvctx, -, -, hvexit, hvpid, -, -⟩ :=
    hin.block (fun d hd => (hin.each v d hd).1 rfl) (hin.not_delivered halive)
  refine h.served_of h' (ds ++ [(p, v)]) ?_ ?_ ?_ ?_ ?_
  · intro w d hwd
    rcases mem_append.mp hwd with hwd | hwd
    · obtain ⟨hwv, hhome, hchild, htakes, -⟩ := hin.each w d hwd
      obtain ⟨hready, -, hrax⟩ := hin.waiter w d hwd
      have hsame := hserves.other (i := w) (fun hwp => hpfst d (hwp ▸ hwd)) hwv
      have hrax' := congrArg Pcb.rax hsame
      exact ⟨hwv, hhome, hchild, htakes, (SameKin.of_unlinked hsame).state.trans hready,
        Eq.trans hrax' hrax⟩
    · obtain ⟨rfl, rfl⟩ := Prod.mk.inj (mem_singleton.mp hwd)
      obtain ⟨hready, -, hrax⟩ := hserves.waiter
      refine ⟨hpv, (h.kin.waiting hnot hpalive (hpsys ▸ hwait.1)).2, ?_, ?_, hready,
        hrax.trans hvpid⟩
      · rw [adopted_parent_of_ne (by rw [hparent]; simpa using hpv)]
        exact hparent
      · have htake := hwait.2
        unfold TakesZombie argPid at htake ⊢
        rwa [hprdi, hvpid] at htake
  · rw [map_append, nodup_append]
    refine ⟨hin.nodup, by simp, fun a ha b hb hab => ?_⟩
    obtain ⟨⟨w, d⟩, hwd, rfl⟩ := mem_map.mp ha
    have hbp : b = p := by simpa using hb
    exact hpfst d (by rw [← hbp, ← hab]; exact hwd)
  · have hmem := hserves.memory
    rw [deliver_congr t1.mem hprsi hpctx hvexit hvctx] at hmem
    rw [foldlM_append, hin.memory]
    simp [hmem]
  · intro i hiv hi hhome
    have hip : i ≠ p := fun hip => hi v (by simp [hip])
    rw [State.home, (hserves.kin hip hiv).home]
    exact hin.kept (fun d hd => hi d (mem_append_left _ hd)) hhome
  · intro i hi hunused
    have hiv : i ≠ v := fun hiv => hi p (by simp [hiv])
    have hip : i ≠ p := by
      rintro rfl
      rw [hserves.waiter.1] at hunused
      cases hunused
    rw [(hserves.kin hip hiv).state] at hunused
    exact ⟨hiv, hin.fresh (fun w hw => hi w (mem_append_left _ hw)) hunused⟩

theorem Core.served_zombie {run' : Option Slot} (h : Core t [v] run) (h' : Core t' [] run')
    (hin : Inherited ops t v t1 ds)
    (hblocks : SameBlocks (t1.modify v fun b => { b with state := .zombie }) t') :
    Served ops t t' v := by
  have hkin : ∀ i, i ≠ v → SameKin (t'.ptable i) (t1.ptable i) :=
    fun i hi => kin_of_modify hblocks hi
  have hzombie : (t'.ptable v).state = .zombie := (kin_self_of_modify hblocks).state
  refine h.served_of h' ds ?_ hin.nodup ?_ ?_ ?_
  · intro w d hwd
    obtain ⟨hwv, hhome, hchild, htakes, -⟩ := hin.each w d hwd
    obtain ⟨hready, -, hrax⟩ := hin.waiter w d hwd
    refine ⟨hwv, hhome, hchild, htakes, (hkin w hwv).state.trans hready, ?_⟩
    rw [hblocks.field w Pcb.rax fun _ => rfl, modify_ptable_of_ne _ _ hwv]
    exact hrax
  · have hmem : t'.mem = t1.mem := hblocks.mem
    rw [hmem]
    exact hin.memory
  · intro i hiv hi hhome
    rw [State.home, (hkin i hiv).home]
    exact hin.kept hi hhome
  · intro i hi hunused
    have hiv : i ≠ v := by
      rintro rfl
      rw [hzombie] at hunused
      cases hunused
    rw [(hkin i hiv).state] at hunused
    exact ⟨hiv, hin.fresh hi hunused⟩

end SecondHalf

theorem Core.served (h : Core t [v] run) (hnot : NotWaiting t) (halive : Alive (t.ptable v))
    (hsound : SoundExit t v) (hz : pcbZombify ops t v = some t') : Served ops t t' v := by
  have h' := h.zombify hnot halive hsound hz
  obtain ⟨hpid, p, t1, hparent, hhand, htell⟩ := pcbZombify_cases hz
  have hinit := h.not_init hpid
  obtain ⟨p', hp', hpalive, hpv⟩ := h.kin.parents v (.inl halive) hinit
  cases hp'.symm.trans hparent
  obtain ⟨ds, hin⟩ := h.inherited hnot halive hinit hsound hhand
  rcases tellParent_cases hpv htell with ⟨hwait, hdeliver, hblocks⟩ | ⟨-, hblocks⟩
  · exact h.served_parent h' hnot halive hpalive hparent hpv hin hwait ⟨hdeliver, hblocks, hpv⟩
  · exact h.served_zombie h' hin hblocks

theorem Core.not_served (h : Core t [v] run) (hnot : NotWaiting t) (halive : Alive (t.ptable v))
    (hsound : ¬ SoundExit t v) (hz : pcbZombify ops t v = some t') : ¬ Served ops t t' v := by
  unfold SoundExit at hsound
  push Not at hsound
  obtain ⟨r, z, hr, hsys, hlast, htake⟩ := hsound
  rintro ⟨ds, heach, -, -, hleft, -⟩
  have hafter := h.zombify_lost hnot halive hr hsys hlast htake hz
  have hnowhere : ∀ q, ¬ OnQueue t' q r := fun q hq => by
    rw [hafter.linked.onQueue_iff, homeBut_self] at hq
    cases hq
  obtain ⟨r', hr', hralive, -, -⟩ := h.kin.init
  obtain rfl : r' = r := some.inj (hr'.symm.trans hr)
  have hrv : r' ≠ v := fun hrv => h.not_init (pcbZombify_cases hz).1 (hrv ▸ hr)
  have hwaits : OnQueue t (.syscall SYS_waitpid) r' :=
    (h.homeBut_eq hrv).mpr (h.kin.waiting hnot hralive hsys).2
  obtain ⟨d, hd⟩ := hleft r' hwaits (hnowhere _)
  exact hnowhere _ (heach r' d hd).scheduled

/-- Every call of `pcb_zombify` in a run of sound steps: only served processes leave the
waitpid queue and only delivered blocks are reclaimed, exactly if init, should it wait
while the victim leaves zombies, waits for any child or for the last of these. -/
theorem zombify_served_iff (ops : MemOps μ φ) (file : φ) (mem : μ) (s₀ s t t' : State μ) (v : Slot)
    (op : Op φ) (hboot : bootProcs ops file mem = some s₀)
    (hrun : Run.Reach (step ops) Sound s₀ s) (hcall : zombifyCall s op = some (t, v))
    (hz : pcbZombify ops t v = some t') : Served ops t t' v ↔ SoundExit t v := by
  have hinv := hrun.invariant (bootProcs_inv hboot) Inv.step
  obtain ⟨run, hcore, hnot, halive⟩ := hinv.zombifyCall hcall
  constructor
  · intro hserved
    by_contra hsound
    exact hcore.not_served hnot halive hsound hz hserved
  · intro hsound
    exact hcore.served hnot halive hsound hz

/-- Init waits for any child while its child (slot 1) dies and leaves the zombie in slot 2. -/
theorem zombify_served_iff_orphan : ∃ t t' : State Unit, lastZombie t 1 = some 2 ∧
    pcbZombify idleOps t 1 = some t' ∧ Served idleOps t t' 1 := by
  obtain ⟨s₀, hboot, hrun⟩ := booted_run (fun s₀ =>
      (Run.execOk (step idleOps) Sound s₀ [.syscall 2 0 0 none, .syscall 1 0 0 none,
        .syscall 2 0 0 none, .syscall 14 0 0 none, .syscall 0 0 0 none]).bind fun s =>
          (zombifyCall s (.syscall 0 0 0 (none : Option Unit))).bind fun call =>
            (pcbZombify idleOps call.1 call.2).map fun _ =>
              (decide (SoundExit call.1 call.2), lastZombie call.1 1, call.2))
    (true, some 2, 1) (by decide +kernel)
  obtain ⟨s, hexec, hrun⟩ := bind_eq_some_iff.mp hrun
  obtain ⟨⟨t, v⟩, hcall, hrun⟩ := bind_eq_some_iff.mp hrun
  obtain ⟨t', hz, hrun⟩ := map_eq_some_iff.mp hrun
  simp only [Prod.mk.injEq, decide_eq_true_eq] at hrun
  obtain ⟨hsound, hlast, rfl⟩ := hrun
  exact ⟨t, t', hlast, hz, (zombify_served_iff idleOps () () s₀ s t t' 1 _ hboot
    (Run.Reach.start.execOk hexec) hcall hz).mpr hsound⟩

/-- Init waits for the process with id 3 while the child in slot 1 dies and leaves a zombie
with id 4: init is in no queue afterwards, and nobody gets the zombie's status. -/
theorem inherited_zombie_strands_init : ∃ s₀ s t t' : State Unit,
    bootProcs idleOps () () = some s₀ ∧ Run.Reach (step idleOps) Run.anyOp s₀ s ∧
      zombifyCall s (.syscall 0 0 0 (none : Option Unit)) = some (t, 1) ∧
      pcbZombify idleOps t 1 = some t' ∧ ¬ Served idleOps t t' 1 := by
  obtain ⟨s₀, hboot, hrun⟩ := booted_run (fun s₀ =>
      (Run.execOk (step idleOps) Sound s₀ [.syscall 2 0 0 none, .syscall 2 0 0 none,
        .syscall 1 3 0 none, .syscall 2 0 0 none, .syscall 14 0 0 none, .syscall 14 0 0 none,
        .syscall 0 0 0 none]).bind fun s =>
          (zombifyCall s (.syscall 0 0 0 (none : Option Unit))).bind fun call =>
            (pcbZombify idleOps call.1 call.2).map fun _ =>
              (decide (SoundExit call.1 call.2), call.2)) (false, 1) (by decide +kernel)
  obtain ⟨s, hexec, hrun⟩ := bind_eq_some_iff.mp hrun
  obtain ⟨⟨t, v⟩, hcall, hrun⟩ := bind_eq_some_iff.mp hrun
  obtain ⟨t', hz, hrun⟩ := map_eq_some_iff.mp hrun
  simp only [Prod.mk.injEq, decide_eq_false_iff_not] at hrun
  obtain ⟨hsound, rfl⟩ := hrun
  have hreach : Run.Reach (step idleOps) Sound s₀ s := Run.Reach.start.execOk hexec
  have hinv := hreach.invariant (bootProcs_inv hboot) Inv.step
  obtain ⟨run, hcore, hnot, halive⟩ := hinv.zombifyCall hcall
  exact ⟨s₀, s, t, t', hboot, hreach.mono fun _ _ _ => trivial, hcall, hz,
    hcore.not_served hnot halive hsound hz⟩

end Comus.Procs
