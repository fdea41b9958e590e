import Comus.Procs.Exit

/-!
# The invariant through one system call

`Inv` holds between the kernel's steps. A handler starts with the caller out of
all queues and the current process cleared; it ends either with another process
dispatched or with the caller still in its place.
-/

namespace Comus.Procs

open Chain Option Function

variable {μ φ : Type} {ops : MemOps μ φ} {s s' t : State μ} {c i j v : Slot}
  {out : List Slot} {run : Option Slot}

structure Inv (s : State μ) : Prop where
  core : Core s [] s.currentPcb
  returned : ∀ c, s.currentPcb = some c → (s.ptable c).syscall = 0

theorem homeBut_nil (s : State μ) : s.homeBut [] = s.home := by
  funext i
  simp [State.homeBut]

theorem home_running (h : (s.ptable c).state = .running) : s.home c = none := by
  simp [State.home, home, h]

theorem Core.dispatch (h : Core s [] none) (hd : dispatch s = some s') : Inv s' := by
  unfold Procs.dispatch at hd
  split_ifs at hd with hcur
  have hnone : s.currentPcb = none := by simpa using hcur
  by_cases hready : ∃ j, s.homeBut [] j = some .ready
  · obtain ⟨i, s1, hpop, hloc, hlinked, hsame⟩ := h.linked.pop hready
    rw [hpop] at hd
    cases hd
    rw [homeBut_nil] at hloc
    have hstate := home_eq_ready hloc
    have hother : ∀ j, j ≠ i → SameKin ((s1.modify i Pcb.dispatched).ptable j) (s.ptable j) :=
      fun j hj => by
        rw [modify_ptable_of_ne _ _ hj]
        exact hsame.kin j
    have hhome : update (s.homeBut []) i none =
        (s1.modify i Pcb.dispatched).homeBut [] := by
      funext j
      rw [homeBut_nil, homeBut_nil, update_apply]
      split_ifs with hj
      · rw [hj]
        simp [State.home, home, Pcb.dispatched]
      · exact (hother j hj).home.symm
    have hkin : Kin (s1.modify i Pcb.dispatched) (some i) := by
      refine h.kin.alive_step (i := i) hsame.initPcb hother ?_ ?_ (.inl hstate) ?_ ?_ ?_ ?_
      · simpa [Pcb.dispatched] using (hsame.kin i).parent
      · simpa [Pcb.dispatched] using (hsame.kin i).pid
      · exact .inr (.inl (by simp [Pcb.dispatched]))
      · simp [Pcb.dispatched]
      · simp [Pcb.dispatched]
      · intro j
        by_cases hj : j = i
        · simp [hj, Pcb.dispatched]
        · rw [(hother j hj).state, h.kin.running j]
          simp [Ne.symm hj]
    have hlink := hlinked.modify (i := i) (f := Pcb.dispatched) fun _ => rfl
    rw [hhome] at hlink
    refine ⟨Core.setCurrent ⟨hlink, hkin⟩ (some i), fun c hc => ?_⟩
    cases hc
    simp [Pcb.dispatched]
  · have hempty := h.linked.pop_empty fun j hj => hready ⟨j, hj⟩
    rw [hempty] at hd
    cases hd
    refine ⟨hnone ▸ h, fun c hc => ?_⟩
    rw [hnone] at hc
    cases hc

theorem Core.dispatch_block (h : Core s [] none) (hd : Procs.dispatch s = some s') (i : Slot) :
    (s'.ptable i).unlinked = (s.ptable i).unlinked ∨ (s.ptable i).state = .ready ∧
      (s'.ptable i).unlinked = (s.ptable i).dispatched.unlinked := by
  unfold Procs.dispatch at hd
  split_ifs at hd with hcur
  by_cases hready : ∃ j, s.homeBut [] j = some .ready
  · obtain ⟨k, s1, hpop, hloc, -, hsame⟩ := h.linked.pop hready
    rw [hpop] at hd
    cases hd
    rw [homeBut_nil] at hloc
    by_cases hik : i = k
    · subst hik
      refine .inr ⟨home_eq_ready hloc, ?_⟩
      have hblock := (hsame.modify (f := Pcb.dispatched) (fun _ => rfl) i).block i
      rw [modify_ptable_self s] at hblock
      exact hblock
    · refine .inl ?_
      rw [← hsame.block i]
      exact congrArg Pcb.unlinked (modify_ptable_of_ne s1 Pcb.dispatched hik)
  · rw [h.linked.pop_empty fun j hj => hready ⟨j, hj⟩] at hd
    cases hd
    exact .inl rfl

def Ends (c : Slot) : Handled μ → Prop
  | .ret _ s => Core s [] (some c)
  | .dispatched s => Inv s

theorem Core.handOver {h : Handled μ} (hcore : Core s [] none) (hh : handOver s = some h) :
    Ends c h := by
  obtain ⟨t, ht, rfl⟩ := map_eq_some_iff.mp hh
  exact hcore.dispatch ht

theorem without_self (c : Slot) : without (some c) c = none := if_pos rfl

theorem Core.caller (h : Core s out (some c)) : (s.ptable c).state = .running :=
  (h.kin.running c).mpr rfl

theorem Core.aside (h : Core s [] (some c)) : Core s [c] (some c) :=
  h.put_aside (home_running h.caller)

theorem Core.not_waiting (h : Core s out (some c)) (hc : (s.ptable c).syscall ≠ SYS_waitpid) :
    NotWaiting s := by
  intro i hi
  obtain rfl : c = i := some.inj ((h.kin.running i).mp hi)
  exact hc

theorem SoundExit.congr (h : SoundExit s v) (hinit : s'.initPcb = s.initPcb)
    (hstate : ∀ i, (s'.ptable i).state = (s.ptable i).state)
    (hparent : ∀ i, (s'.ptable i).parent = (s.ptable i).parent)
    (hpid : ∀ i, (s'.ptable i).pid = (s.ptable i).pid)
    (hwait : ∀ i, (s'.ptable i).syscall = SYS_waitpid →
      (s.ptable i).syscall = SYS_waitpid ∧ (s'.ptable i).rdi = (s.ptable i).rdi) :
    SoundExit s' v := by
  intro r z hr hsys hlast
  obtain ⟨hsys', hrdi⟩ := hwait r hsys
  have hsame : lastZombie s' v = lastZombie s v := by
    have hz : isZombieChild s' v = isZombieChild s v := by
      funext i
      simp only [isZombieChild, isChild, hstate, hparent]
    rw [lastZombie, lastZombie, hz]
  have := h r z (hinit ▸ hr) hsys' (hsame ▸ hlast)
  unfold TakesZombie argPid at this ⊢
  rwa [hrdi, hpid]

theorem SoundExit.modify (h : SoundExit s v) {f : Pcb → Pcb} (hf : Harmless f)
    (hrdi : ∀ p, (f p).rdi = p.rdi) : SoundExit (s.modify i f) v := by
  refine h.congr rfl (fun j => (hf.kin s i j).state) (fun j => (hf.kin s i j).parent)
    (fun j => (hf.kin s i j).pid) fun j hj => ⟨(hf.kin s i j).syscall ▸ hj, ?_⟩
  rw [modify_ptable]
  split_ifs with hji
  · rw [hrdi, hji]
  · rfl

theorem SoundExit.same (h : SoundExit s v) (hs : SameBlocks s s') : SoundExit s' v :=
  h.congr hs.initPcb (fun j => (hs.kin j).state) (fun j => (hs.kin j).parent)
    (fun j => (hs.kin j).pid)
    fun j hj => ⟨(hs.kin j).syscall ▸ hj, hs.field j Pcb.rdi fun _ => rfl⟩

theorem exit_harmless (e : Pcb → Nat) : Harmless fun p => { p with exitStatus := e p } :=
  fun _ => ⟨⟨rfl, rfl, rfl, rfl⟩, rfl⟩

theorem Core.exit_self (ops : MemOps μ φ) {h : Handled μ} (e : Pcb → Nat) (hcore : Core s [] (some c))
    (hsys : (s.ptable c).syscall ≠ SYS_waitpid) (hsound : SoundExit s c)
    (hh : (pcbZombify ops (s.modify c fun p => { p with exitStatus := e p }) c).bind Procs.handOver =
      some h) : Ends c h := by
  obtain ⟨t, hz, hd⟩ := bind_eq_some_iff.mp hh
  have hf := exit_harmless e
  have hmod := hcore.modify hf c
  have hafter := hmod.aside.zombify
    (hmod.not_waiting (by rw [(hf.kin s c c).syscall]; exact hsys))
    (.inr (.inl hmod.caller)) (hsound.modify hf fun _ => rfl) hz
  rw [without_self] at hafter
  exact hafter.handOver hd

theorem sysExit_ends {h : Handled μ} (hcore : Core s [] (some c))
    (hsys : (s.ptable c).syscall ≠ SYS_waitpid) (hsound : SoundExit s c)
    (hh : sysExit ops s c = some h) : Ends c h :=
  hcore.exit_self ops (fun p => p.rdi % 2^8) hsys hsound hh

theorem Core.kill_other {h : Handled μ} {q : QueueId} (hcore : Core s [] (some c))
    (hsys : (s.ptable c).syscall ≠ SYS_waitpid) (hsound : SoundExit s v)
    (halive : Alive (s.ptable v)) (hne : (s.ptable v).state ≠ .running)
    (hq : s.home v = some q)
    (hh : ((pcbQueueRemove (s.modify v fun p => { p with exitStatus := 1 }) q v).bind fun (_, s) =>
      (pcbZombify ops s v).map (Handled.ret 0)) = some h) : Ends c h := by
  have hf := exit_harmless fun _ => 1
  have hmod := hcore.modify hf v
  obtain ⟨t, hrem, hdet, hsame⟩ := hmod.detach (i := v) (by simp)
    (by rw [State.home, (hf.kin s v v).home]; exact hq)
  rw [hrem, bind_some] at hh
  obtain ⟨u, hz, rfl⟩ := map_eq_some_iff.mp hh
  have hkin : ∀ j, SameKin (t.ptable j) (s.ptable j) :=
    fun j => (hsame.kin j).trans (hf.kin s v j)
  have hafter := hdet.zombify
    (hdet.not_waiting (by rw [(hkin c).syscall]; exact hsys)) ((hkin v).alive.mpr halive)
    ((hsound.modify hf fun _ => rfl).same hsame) hz
  rwa [hcore.kin.without_eq hne] at hafter

def killVictim (s : State μ) (c : Slot) : Option Slot :=
  match pcbFindPid s (argPid s c) with
  | none => none
  | some victim =>
    match findOwner s (s.ptable c).pid walkFuel (some victim) with
    | some (some _) => some victim
    | _ => none

theorem sysKill_ends {h : Handled μ} (hcore : Core s [] (some c))
    (hsys : (s.ptable c).syscall ≠ SYS_waitpid)
    (hsound : ∀ v, killVictim s c = some v → SoundExit s v)
    (hh : sysKill ops s c = some h) : Ends c h := by
  unfold sysKill at hh
  unfold killVictim at hsound
  cases hv : pcbFindPid s (argPid s c) with
  | none =>
    rw [hv] at hh
    exact some.inj hh ▸ hcore
  | some v =>
    simp only [hv] at hh hsound
    obtain ⟨owner, howner, hrest⟩ := bind_eq_some_iff.mp hh
    cases owner with
    | none => exact some.inj hrest ▸ hcore
    | some o =>
      simp only [howner, some.injEq, forall_eq'] at hsound
      simp only at hrest
      cases hstate : (s.ptable v).state with
      | zombie =>
        simp only [hstate] at hrest
        exact some.inj hrest ▸ hcore
      | ready =>
        simp only [hstate] at hrest
        exact hcore.kill_other hsys hsound (.inl hstate) (by simp [hstate])
          (by simp [State.home, home, hstate]) hrest
      | blocked =>
        simp only [hstate] at hrest
        split_ifs at hrest with hlt
        refine hcore.kill_other hsys hsound (.inr (.inr hstate)) (by simp [hstate]) ?_ hrest
        have hlt' : (s.ptable v).syscall < 24 := hcore.kin.blocked v hstate
        simp [State.home, home, hstate, hlt']
      | running =>
        simp only [hstate] at hrest
        obtain rfl : c = v := some.inj ((hcore.kin.running v).mp hstate)
        exact hcore.exit_self ops (fun _ => 1) hsys hsound hrest
      | unused =>
        simp only [hstate] at hrest
        exact some.inj hrest ▸ hcore
      | new =>
        simp only [hstate] at hrest
        exact some.inj hrest ▸ hcore

theorem Core.blocked_of {n : Fin 24} (h : Core s [c] (some c))
    (hlinked : Linked t (update (s.homeBut [c]) c (some (.syscall n))))
    (hinit : t.initPcb = s.initPcb) (hother : ∀ j, j ≠ c → SameKin (t.ptable j) (s.ptable j))
    (hself : SameKin (t.ptable c) { s.ptable c with state := .blocked })
    (hsys : (s.ptable c).syscall = n) : Core t [] none := by
  have hstate : (t.ptable c).state = .blocked := hself.state
  have hlt : (t.ptable c).syscall < 24 := by
    rw [hself.syscall]
    simp [hsys]
  have hhome : home (t.ptable c) = some (.syscall n) := by
    rw [hself.home]
    simp [home, hsys]
  refine ⟨?_, ?_⟩
  · rwa [homeBut_arrive hother hhome (by simp)] at hlinked
  · refine h.kin.alive_step hinit hother hself.parent hself.pid (.inr (.inl h.caller))
      (.inr (.inr hstate)) (fun _ => hlt) (fun hr => ?_) ?_
    · rw [hstate] at hr
      cases hr
    · have := running_without h.kin (fun j hj => (hother j hj).state) (by rw [hstate]; simp)
      rwa [without_self] at this

theorem sysWaitpid_eq (ops : MemOps μ φ) (hcore : Core s [] (some c))
    (hsys : (s.ptable c).syscall = SYS_waitpid) (hnone : ∀ i, reapable s c i = false) :
    ∃ t, Core t [] none ∧ SameBlocks (s.modify c fun p => { p with state := .blocked }) t ∧
      sysWaitpid ops s c = handOver t := by
  have hfind : (List.finRange 256).find? (reapable s c) = none :=
    List.find?_eq_none.mpr fun i _ => by simp [hnone i]
  have haside := hcore.aside
  have hmod : Linked (s.modify c fun p => { p with state := .blocked }) (s.homeBut [c]) :=
    haside.linked.modify fun _ => rfl
  obtain ⟨t, hins, hlinked, hsame⟩ := hmod.insert (homeBut_self s c []) (.syscall SYS_waitpid)
  refine ⟨t, haside.blocked_of hlinked hsame.initPcb (fun j hj => kin_of_modify hsame hj)
    (kin_self_of_modify hsame) hsys, hsame, ?_⟩
  unfold sysWaitpid
  simp only [hfind, hins]

section Core

variable (hcore : Core s [] (some c))
include hcore

theorem sysWaitpid_blocks {h : Handled μ} (hsys : (s.ptable c).syscall = SYS_waitpid) (hnone : ∀ i, reapable s c i = false)
    (hh : sysWaitpid ops s c = some h) :
    ∃ t, Core t [] none ∧ SameBlocks (s.modify c fun p => { p with state := .blocked }) t ∧
      handOver t = some h := by
  obtain ⟨t, htcore, hblocks, heq⟩ := sysWaitpid_eq ops hcore hsys hnone
  exact ⟨t, htcore, hblocks, heq ▸ hh⟩

theorem sysWaitpid_ends {h : Handled μ} (hsys : (s.ptable c).syscall = SYS_waitpid) (hsound : ∀ i, reapable s c i = false)
    (hh : sysWaitpid ops s c = some h) : Ends c h := by
  obtain ⟨t, hafter, -, hh⟩ := sysWaitpid_blocks hcore hsys hsound hh
  exact hafter.handOver hh

theorem Core.yield {h : Handled μ} (hh : (Procs.schedule s c).bind Procs.handOver = some h) : Ends c h := by
  obtain ⟨t, hsched, hafter, -⟩ := hcore.aside.schedule (by simp) (.inr (.inl hcore.caller))
  rw [hsched, bind_some] at hh
  rw [without_self] at hafter
  exact hafter.handOver hh

theorem sysSleep_blocks {h : Handled μ} (hsys : (s.ptable c).syscall = SYS_sleep) (hdur : (s.ptable c).rdi ≠ 0)
    (hh : sysSleep s c = some h) :
    ∃ t, Core t [] none ∧
      SameBlocks (s.modify c fun p =>
        { p with wakeup := Word.u64 (s.ticks + p.rdi), state := .blocked }) t ∧
      handOver t = some h := by
  unfold sysSleep at hh
  rw [if_neg hdur] at hh
  have hf : Harmless fun p => { p with wakeup := Word.u64 (s.ticks + p.rdi) } :=
    fun _ => ⟨⟨rfl, rfl, rfl, rfl⟩, rfl⟩
  have haside := (hcore.modify hf c).aside
  obtain ⟨t, hins, hlinked, hsame⟩ := haside.linked.insert (homeBut_self _ c [])
    (.syscall SYS_sleep)
  simp only [hins, bind_some] at hh
  refine ⟨_, ?_, ?_, hh⟩
  · refine haside.blocked_of (hlinked.modify fun _ => rfl) hsame.initPcb (fun j hj => ?_) ?_ ?_
    · rw [modify_ptable_of_ne _ _ hj]
      exact hsame.kin j
    · rw [modify_ptable_self]
      exact ⟨rfl, (hsame.kin c).syscall, (hsame.kin c).parent, (hsame.kin c).pid⟩
    · rw [(hf.kin s c c).syscall]
      exact hsys
  · have hblocked := hsame.modify (f := fun p => { p with state := .blocked }) (fun _ => rfl) c
    rwa [modify_modify] at hblocked

theorem sysSleep_ends {h : Handled μ} (hsys : (s.ptable c).syscall = SYS_sleep) (hh : sysSleep s c = some h) : Ends c h := by
  by_cases hdur : (s.ptable c).rdi = 0
  · unfold sysSleep at hh
    rw [if_pos hdur] at hh
    refine Core.yield ?_ hh
    refine hcore.modify ?_ c
    exact fun _ => ⟨⟨rfl, rfl, rfl, rfl⟩, rfl⟩
  · obtain ⟨t, hafter, -, hh⟩ := sysSleep_blocks hcore hsys hdur hh
    exact hafter.handOver hh

theorem sysExec_ends {h : Handled μ} {file : Option φ} (hh : sysExec ops file s c = some h) : Ends c h := by
  unfold sysExec at hh
  cases file with
  | none => exact some.inj hh ▸ hcore
  | some file =>
    obtain ⟨⟨image, mem⟩, -, hh⟩ := bind_eq_some_iff.mp hh
    cases image with
    | none => exact some.inj hh ▸ hcore.setMem mem
    | some image =>
      obtain ⟨mem', -, hh⟩ := bind_eq_some_iff.mp hh
      refine Core.yield ?_ hh
      refine Core.setMem ?_ mem'
      refine (hcore.setMem mem).modify ?_ c
      exact fun _ => ⟨⟨rfl, rfl, rfl, rfl⟩, rfl⟩

end Core

/-- `fork` finds no block, no memory for its block, or makes it a child and schedules it. -/
theorem sysFork_cases {h : Handled μ} (hh : sysFork ops s c = some h) :
    pcbAlloc s = none ∧ h = .ret (-1) s ∨ ∃ i u r, pcbAlloc s = some (i, u) ∧
      ((∃ t, h = .ret (-1) t ∧ Touched (u.modify i fun p => { p with rdi := r }) t) ∨
        ∃ t t', h = .ret 0 t' ∧ schedule t i = some t' ∧ Touched (u.modify i fun p =>
          { p with rdi := r, state := .ready, parent := some c }) t) := by
  obtain ⟨⟨child, v⟩, hclone, hh⟩ := bind_eq_some_iff.mp hh
  unfold userClone at hclone
  cases halloc : pcbAlloc s with
  | none =>
    rw [halloc] at hclone
    cases hclone
    exact .inl ⟨rfl, (some.inj hh).symm⟩
  | some found =>
    obtain ⟨i, u⟩ := found
    rw [halloc] at hclone
    obtain ⟨⟨ctx, mem⟩, -, hres⟩ := map_eq_some_iff.mp hclone
    refine .inr ⟨i, u, (u.ptable c).rdi, rfl, ?_⟩
    dsimp only at hres
    split_ifs at hres
    · cases hres
      refine .inl ⟨_, (some.inj hh).symm, ((Touched.refl u).setMem mem).modify_both ?_ i⟩
      exact fun p q hkin hnext _ hwake => ⟨⟨hkin.1, hkin.2, hkin.3, hkin.4⟩, hnext, rfl, hwake⟩
    · cases hres
      obtain ⟨t', hsched, rfl⟩ := map_eq_some_iff.mp hh
      refine .inr ⟨_, t', rfl, hsched, Touched.rax (Touched.rax ?_ (fun _ => 0) i) (fun _ => _) c⟩
      rw [modify_modify]
      refine ((Touched.refl u).setMem mem).modify_both ?_ i
      exact fun p q hkin hnext _ hwake => ⟨⟨rfl, hkin.2, rfl, hkin.4⟩, hnext, rfl, hwake⟩

theorem pcbAlloc_spec (h : Linked s s.home) (ha : pcbAlloc s = some (i, s')) :
    (s.ptable i).state = .unused ∧ Linked s' s'.home ∧ s'.initPcb = s.initPcb ∧
      (∀ j, j ≠ i → SameKin (s'.ptable j) (s.ptable j)) ∧
      SameKin (s'.ptable i) { s.ptable i with pid := s.nextPid, state := .new } := by
  unfold pcbAlloc at ha
  by_cases hfree : ∃ j, s.home j = some .freelist
  · obtain ⟨k, t, hpop, hloc, hlinked, hsame⟩ := h.pop hfree
    rw [hpop] at ha
    simp only [some.injEq, Prod.mk.injEq] at ha
    obtain ⟨rfl, rfl⟩ := ha
    have hself : SameKin ((t.modify k fun p => { p with pid := t.nextPid, state := .new }).ptable k)
        { s.ptable k with pid := s.nextPid, state := .new } := by
      rw [modify_ptable_self]
      exact ⟨rfl, (hsame.kin k).syscall, (hsame.kin k).parent, hsame.nextPid⟩
    have hother : ∀ j, j ≠ k →
        SameKin ((t.modify k fun p => { p with pid := t.nextPid, state := .new }).ptable j)
          (s.ptable j) := by
      intro j hj
      rw [modify_ptable_of_ne _ _ hj]
      exact hsame.kin j
    refine ⟨home_eq_freelist hloc, ?_, hsame.initPcb, hother, hself⟩
    have hhome : update s.home k none =
        (t.modify k fun p => { p with pid := t.nextPid, state := .new }).home := by
      funext j
      rw [update_apply]
      split_ifs with hj
      · rw [hj, State.home, hself.home]
        rfl
      · exact (hother j hj).home.symm
    have hlink : Linked (t.modify k fun p => { p with pid := t.nextPid, state := .new })
        (update s.home k none) := hlinked.modify fun _ => rfl
    rw [hhome] at hlink
    exact hlink.congr rfl rfl
  · rw [h.pop_empty fun j hj => hfree ⟨j, hj⟩] at ha
    cases ha

section Absent

variable (h : Kin s run) (hinit : s'.initPcb = s.initPcb)
  (hother : ∀ j, j ≠ i → SameKin (s'.ptable j) (s.ptable j)) (hi : ¬ Present (s.ptable i))
include h hinit hother hi

theorem Kin.absent_step (hi' : ¬ Present (s'.ptable i)) : Kin s' run := by
  refine h.one_step hinit hother (fun hroot => ?_) (fun halive => absurd (.inl halive) hi)
    (fun hj => absurd hj hi') (fun hb => absurd (.inl (.inr (.inr hb))) hi')
    (fun hr => absurd (.inl (.inl hr)) hi') fun j => ?_
  · obtain ⟨r, h1, h2, -⟩ := h.init
    cases h1.symm.trans hroot
    exact absurd (.inl h2) hi
  · by_cases hji : j = i
    · subst hji
      exact ⟨fun hr => absurd (.inl (.inr (.inl hr))) hi',
        fun hr => absurd (.inl (.inr (.inl ((h.running j).mpr hr)))) hi⟩
    · rw [(hother j hji).state]
      exact h.running j

theorem Kin.birth {p : Slot} (hstate : (s'.ptable i).state = .ready)
    (hsys : (s'.ptable i).syscall = 0) (hparent : (s'.ptable i).parent = some p)
    (hp : Alive (s.ptable p)) : Kin s' run := by
  have hpi : p ≠ i := fun hpi => hi (hpi ▸ .inl hp)
  refine h.one_step hinit hother (fun hroot => ?_) (fun halive => absurd (.inl halive) hi)
    (fun _ _ => ⟨p, hparent, hp, hpi⟩) (fun hb => ?_) (fun _ => hsys) fun j => ?_
  · obtain ⟨r, h1, h2, -⟩ := h.init
    cases h1.symm.trans hroot
    exact absurd (.inl h2) hi
  · cases hstate.symm.trans hb
  · by_cases hji : j = i
    · subst hji
      rw [hstate]
      exact ⟨fun hr => absurd hr (by simp),
        fun hr => absurd (.inl (.inr (.inl ((h.running j).mpr hr)))) hi⟩
    · rw [(hother j hji).state]
      exact h.running j

end Absent

theorem Core.schedule_child (h : Core s [] (some c)) (hs : Procs.schedule t i = some s')
    (hi : (s.ptable i).state = .new) (hstate : (t.ptable i).state = .ready) (hparent : (t.ptable i).parent = some c)
    (hother : ∀ j, j ≠ i → SameKin (t.ptable j) (s.ptable j))
    (hlink : t.next = s.next) (hqueues : t.queues = s.queues) (hinit : t.initPcb = s.initPcb) :
    Core s' [] (some c) := by
  have hpresent : ¬ Present (s.ptable i) := by simp [Present, Alive, hi]
  have hloc : s.homeBut [] i = none := by simp [State.homeBut, State.home, home, hi]
  obtain ⟨u, hsched, hlinked, hsame⟩ := schedule_eq (h.linked.congr hlink hqueues) hloc
    (by simp [hstate]) (by simp [hstate])
  obtain rfl : u = s' := some.inj (hsched.symm.trans hs)
  have hother' : ∀ j, j ≠ i → SameKin (u.ptable j) (s.ptable j) :=
    fun j hj => (kin_of_modify hsame hj).trans (hother j hj)
  have hself' := kin_self_of_modify hsame
  refine ⟨?_, h.kin.birth (hsame.initPcb.trans hinit) hother' hpresent hself'.state hself'.syscall
    (hself'.parent.trans hparent) (.inr (.inl h.caller))⟩
  have hhome : update (s.homeBut []) i (some .ready) = u.homeBut [] := by
    funext j
    rw [homeBut_nil, homeBut_nil, update_apply]
    split_ifs with hj
    · rw [hj, State.home, hself'.home]
      rfl
    · exact (hother' j hj).home.symm
  rwa [hhome] at hlinked

theorem sysFork_ends {h : Handled μ} (hcore : Core s [] (some c))
    (hh : sysFork ops s c = some h) : Ends c h := by
  rcases sysFork_cases hh with ⟨-, rfl⟩ | ⟨i, u, r, halloc, hcases⟩
  · exact hcore
  · obtain ⟨hunused, hlinked, hinit, hother, hself⟩ :=
      pcbAlloc_spec (homeBut_nil s ▸ hcore.linked) halloc
    have hcore2 : Core u [] (some c) :=
      ⟨(homeBut_nil u).symm ▸ hlinked, hcore.kin.absent_step hinit hother
        (by simp [Present, Alive, hunused]) (by simp [Present, Alive, hself.state])⟩
    rcases hcases with ⟨t, rfl, ht⟩ | ⟨t, t', rfl, hsched, ht⟩
    · refine Core.touched (hcore2.modify ?_ i) ht
      exact fun _ => ⟨⟨rfl, rfl, rfl, rfl⟩, rfl⟩
    · have hchild := ht.kin i
      rw [modify_ptable_self] at hchild
      refine hcore2.schedule_child hsched hself.state hchild.state hchild.parent (fun j hj => ?_)
        (ht.next.trans (modify_next ?_ u i)) ht.queues ht.initPcb
      · have hkin := ht.kin j
        rwa [modify_ptable_of_ne _ _ hj] at hkin
      · exact fun _ => rfl

end Comus.Procs
