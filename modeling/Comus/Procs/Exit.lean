import Comus.Procs.Lifecycle

/-!
# The end of a process

`pcb_zombify` keeps the invariant when init, if it waits in `waitpid`, waits for
any child or for the zombie that is passed on to it. Otherwise init leaves the
waitpid queue without being scheduled.
-/

namespace Comus.Procs

open Chain Option List

variable {μ φ : Type} {ops : MemOps μ φ} {s s' : State μ} {i v r z p : Slot}
  {out : List Slot} {run : Option Slot}

abbrev adopted (s : State μ) (v : Slot) : State μ := adopt s v (finRange 256)

theorem adopted_ptable (s : State μ) (v i : Slot) :
    (adopted s v).ptable i =
      if isChild s v i then { s.ptable i with parent := s.initPcb } else s.ptable i := by
  simp only [adopted, adopt, mem_finRange, true_and]

theorem adopted_state (s : State μ) (v i : Slot) :
    ((adopted s v).ptable i).state = (s.ptable i).state ∧
      ((adopted s v).ptable i).syscall = (s.ptable i).syscall ∧
      ((adopted s v).ptable i).pid = (s.ptable i).pid ∧
      ((adopted s v).ptable i).next = (s.ptable i).next ∧
      ((adopted s v).ptable i).rdi = (s.ptable i).rdi := by
  rw [adopted_ptable]
  split_ifs <;> exact ⟨rfl, rfl, rfl, rfl, rfl⟩

theorem adopted_alive : Alive ((adopted s v).ptable i) ↔ Alive (s.ptable i) := by
  rw [Alive, Alive, (adopted_state s v i).1]

theorem adopted_present : Present ((adopted s v).ptable i) ↔ Present (s.ptable i) := by
  rw [Present, Present, adopted_alive, (adopted_state s v i).1]

theorem Present.not_unused {b : Pcb} (h : Present b) : b.state ≠ .unused := by
  rcases h with h | h
  · exact h.not_unused
  · simp [h]

theorem adopted_parent_of_ne (h : (s.ptable i).parent ≠ some v) :
    ((adopted s v).ptable i).parent = (s.ptable i).parent := by
  rw [adopted_ptable, if_neg (by simp [isChild, h])]

theorem Kin.adopted (h : Kin s run) : Kin (adopted s v) run := by
  obtain ⟨r, hr, halive, hpid, hnone⟩ := h.init
  refine ⟨⟨r, hr, adopted_alive.mpr halive, ?_, ?_⟩, fun i hi hne => ?_, fun i hi => ?_,
    fun i hi => ?_, fun i => ?_⟩
  · rw [(adopted_state s v r).2.2.1]
    exact hpid
  · rw [adopted_parent_of_ne (by simp [hnone])]
    exact hnone
  · obtain ⟨p, hp, hpa, hpi⟩ := h.parents i (adopted_present.mp hi) hne
    by_cases hpv : p = v
    · -- a child of `v`: its parent is init now
      refine ⟨r, ?_, adopted_alive.mpr halive, fun hri => hne (hri ▸ hr)⟩
      have hchild : isChild s v i = true := by
        simp [isChild, hp, hpv, (adopted_present.mp hi).not_unused]
      rw [adopted_ptable, if_pos hchild]
      exact hr
    · refine ⟨p, ?_, adopted_alive.mpr hpa, hpi⟩
      rw [adopted_parent_of_ne (by simp [hp, hpv])]
      exact hp
  · rw [(adopted_state s v i).2.1]
    exact h.blocked i ((adopted_state s v i).1 ▸ hi)
  · rw [(adopted_state s v i).2.1]
    exact h.ready i ((adopted_state s v i).1 ▸ hi)
  · rw [(adopted_state s v i).1]
    exact h.running i

theorem adopted_childless (hv : s.initPcb ≠ some v) : Childless (adopted s v) v := by
  intro j hj hpar
  rw [adopted_ptable] at hpar
  split_ifs at hpar with hchild
  · exact hv hpar
  · exact hchild (by simp [isChild, hpar, (adopted_present.mp hj).not_unused])

theorem Core.adopted (h : Core s out run) : Core (adopted s v) out run := by
  refine ⟨?_, h.kin.adopted⟩
  have hhome : (Procs.adopted s v).homeBut out = s.homeBut out := by
    funext i
    unfold State.homeBut State.home home
    rw [(adopted_state s v i).1, (adopted_state s v i).2.1]
  rw [hhome]
  exact h.linked.congr (funext fun i => (adopted_state s v i).2.2.2.1) rfl

theorem lastZombie_spec (h : lastZombie s v = some z) :
    (s.ptable z).state = .zombie ∧ (s.ptable z).parent = some v := by
  have hmem := (mem_filter.mp (mem_of_getLast? h)).2
  simp only [isZombieChild, isChild, Bool.and_eq_true, decide_eq_true_eq] at hmem
  exact ⟨hmem.2, hmem.1.2⟩

def NotWaiting (s : State μ) : Prop :=
  ∀ i, (s.ptable i).state = .running → (s.ptable i).syscall ≠ SYS_waitpid

theorem Kin.waiting (h : Kin s run) (hnot : NotWaiting s) (halive : Alive (s.ptable p))
    (hsys : (s.ptable p).syscall = SYS_waitpid) :
    (s.ptable p).state = .blocked ∧ s.home p = some (.syscall SYS_waitpid) := by
  have hblocked : (s.ptable p).state = .blocked := by
    rcases halive with hs | hs | hs
    · rw [h.ready p hs] at hsys
      cases hsys
    · exact absurd hsys (hnot p hs)
    · exact hs
  refine ⟨hblocked, ?_⟩
  unfold State.home home
  simp [hblocked, hsys]

theorem Kin.without_eq (h : Kin s run) (hi : (s.ptable i).state ≠ .running) :
    without run i = run := by
  unfold without
  rw [if_neg fun hr => hi ((h.running i).mpr hr)]

theorem Kin.childless_of_dead (h : Kin s run) (hz : ¬ Alive (s.ptable z)) : Childless s z := by
  intro j hj hpar
  by_cases hinit : s.initPcb = some j
  · obtain ⟨r, hr, -, -, hnone⟩ := h.init
    cases hr.symm.trans hinit
    cases hnone.symm.trans hpar
  · obtain ⟨p, hp, halive, -⟩ := h.parents j hj hinit
    cases hp.symm.trans hpar
    exact hz halive

theorem storeStatus_eq {w : Slot} {e : Nat} (h : storeStatus ops s w e = some s') :
    ∃ mem, s' = { s with mem := mem } := by
  unfold storeStatus at h
  split_ifs at h
  · obtain ⟨mem, -, rfl⟩ := map_eq_some_iff.mp h
    exact ⟨mem, rfl⟩
  · exact ⟨s.mem, (some.inj h).symm⟩

/-- Waking a blocked process and cleaning up a dead or dying one, as both branches of
`pcb_zombify` do. `w` is already out of the waitpid queue. -/
theorem Core.wake_and_cleanup {w d : Slot} {e : Nat} (h : Core s (w :: d :: out) run)
    (hw : w ∉ d :: out) (hd : d ∉ out) (hblocked : (s.ptable w).state = .blocked)
    (hinit : s.initPcb ≠ some d) (hchild : Childless s d)
    (hrest : ((storeStatus ops s w e).bind fun s =>
      (Procs.schedule s w).bind fun s => pcbCleanup ops s d) = some s') :
    Core s' out (without run d) ∧ s'.initPcb = s.initPcb ∧ (s'.ptable d).state = .unused ∧
      ∀ j, j ≠ w → j ≠ d → SameKin (s'.ptable j) (s.ptable j) := by
  obtain ⟨t, hstore, hrest⟩ := bind_eq_some_iff.mp hrest
  obtain ⟨mem, rfl⟩ := storeStatus_eq hstore
  have halive : Alive (s.ptable w) := .inr (.inr hblocked)
  obtain ⟨t, hsched, hcore, hsame⟩ := (h.setMem mem).schedule hw halive
  rw [hsched, bind_some] at hrest
  have hself := kin_self_of_modify (s := { s with mem := mem }) hsame
  have hother := fun j (hj : j ≠ w) => kin_of_modify (s := { s with mem := mem }) hsame hj
  rw [h.kin.without_eq (by rw [hblocked]; simp)] at hcore
  have hchild' : Childless t d := by
    intro j hj
    by_cases hjw : j = w
    · rw [hjw, hself.parent]
      exact hchild w (.inl halive)
    · rw [(hother j hjw).parent]
      refine hchild j ?_
      rwa [Present, (hother j hjw).alive, (hother j hjw).state] at hj
  obtain ⟨hcore', hinit', hunused, hother'⟩ := hcore.cleanup hd
    (by rw [hsame.initPcb]; exact hinit) hchild' hrest
  exact ⟨hcore', hinit'.trans hsame.initPcb, hunused,
    fun j hjw hjd => (hother' j hjd).trans (hother j hjw)⟩

def TakesZombie (s : State μ) (r z : Slot) : Prop :=
  argPid s r = 0 ∨ argPid s r = (s.ptable z).pid

theorem TakesZombie.same (hsame : SameBlocks s s') : TakesZombie s' r z ↔ TakesZombie s r z := by
  unfold TakesZombie argPid
  rw [hsame.field r Pcb.rdi (fun _ => rfl), hsame.field z Pcb.pid (fun _ => rfl)]

section PassToInit

variable (h : Core s [v] run) (hr : s.initPcb = some r) (hrv : r ≠ v)
  (hblocked : (s.ptable r).state = .blocked) (hsys : (s.ptable r).syscall = SYS_waitpid)
  (hz : (s.ptable z).state = .zombie) (hzv : z ≠ v)
include h hrv hblocked hsys hz hzv

theorem Core.passToInit_start :
    z ≠ r ∧ ∃ s1 s2, pcbQueueRemove s .zombie z = some (.success, s1) ∧
      pcbQueueRemove s1 (.syscall SYS_waitpid) r = some (.success, s2) ∧
      Core s2 [r, z, v] run ∧ SameBlocks s s2 := by
  have hzr : z ≠ r := by
    rintro rfl
    cases hz.symm.trans hblocked
  have hzhome : s.home z = some .zombie := by simp [State.home, home, hz]
  obtain ⟨s1, hrem1, hcore1, hsame1⟩ := h.detach (by simp [hzv]) hzhome
  have hrhome : s1.home r = some (.syscall SYS_waitpid) := by
    rw [State.home, (hsame1.kin r).home]
    simp [home, hblocked, hsys]
  obtain ⟨s2, hrem2, hcore2, hsame2⟩ := hcore1.detach (by simp [hzr.symm, hrv]) hrhome
  exact ⟨hzr, s1, s2, hrem1, hrem2, hcore2, hsame1.trans hsame2⟩

include hr

theorem Core.passToInit (htake : TakesZombie s r z) (hp : passToInit ops s r z = some s') :
    Core s' [v] run ∧ s'.initPcb = s.initPcb ∧ (s'.ptable z).state = .unused ∧
      ∀ j, j ≠ r → j ≠ z → SameKin (s'.ptable j) (s.ptable j) := by
  obtain ⟨hzr, s1, s2, hrem1, hrem2, hcore2, hsame⟩ := h.passToInit_start hrv hblocked hsys hz hzv
  simp only [Procs.passToInit, hrem1, hrem2] at hp
  have htake' := (TakesZombie.same hsame).mpr htake
  unfold TakesZombie at htake'
  rw [if_pos htake'] at hp
  -- the block of init gets its return value, then both processes move on
  have hf : Harmless fun p => { p with rax := (s2.ptable z).pid } :=
    fun _ => ⟨⟨rfl, rfl, rfl, rfl⟩, rfl⟩
  have hmod := hcore2.modify hf r
  have hkin := fun j => (hf.kin s2 r j).trans (hsame.kin j)
  have hdead : ¬ Alive ((s2.modify r fun p => { p with rax := (s2.ptable z).pid }).ptable z) := by
    rw [(hkin z).alive]
    exact fun halive => halive.not_zombie hz
  obtain ⟨hcore, hinit, hunused, hother⟩ := hmod.wake_and_cleanup (by simp [hzr.symm, hrv]) (by simp [hzv])
    (by rw [(hkin r).state]; exact hblocked)
    (by
      intro hrz
      rw [show (s2.modify r _).initPcb = s2.initPcb from rfl, hsame.initPcb, hr] at hrz
      exact hzr (some.inj hrz).symm)
    (hmod.kin.childless_of_dead hdead) hp
  refine ⟨?_, hinit.trans hsame.initPcb, hunused, fun j hjr hjz => (hother j hjr hjz).trans (hkin j)⟩
  rwa [h.kin.without_eq (by rw [hz]; simp)] at hcore

/-- Init waits for another child: it has left the waitpid queue and gets into no other. -/
theorem Core.passToInit_lost (htake : ¬ TakesZombie s r z) (hp : Procs.passToInit ops s r z = some s') :
    Core s' [v, r] run ∧ s'.initPcb = s.initPcb ∧ (s'.ptable z).state = .unused ∧
      ∀ j, j ≠ z → SameKin (s'.ptable j) (s.ptable j) := by
  obtain ⟨hzr, s1, s2, hrem1, hrem2, hcore2, hsame⟩ := h.passToInit_start hrv hblocked hsys hz hzv
  simp only [Procs.passToInit, hrem1, hrem2] at hp
  have htake' : ¬ TakesZombie s2 r z := fun hno => htake ((TakesZombie.same hsame).mp hno)
  unfold TakesZombie at htake'
  rw [if_neg htake'] at hp
  have hcore : Core s2 (z :: [v, r]) run := hcore2.congr_out fun j => by simp only [mem_cons]; tauto
  have hdead : ¬ Alive (s2.ptable z) := by
    rw [(hsame.kin z).alive]
    exact fun halive => halive.not_zombie hz
  obtain ⟨hcore', hinit, hunused, hother⟩ := hcore.cleanup (by simp [hzv, hzr])
    (by rw [hsame.initPcb, hr]; exact fun hrz => hzr (some.inj hrz).symm)
    (hcore2.kin.childless_of_dead hdead) hp
  refine ⟨?_, hinit.trans hsame.initPcb, hunused, fun j hj => (hother j hj).trans (hsame.kin j)⟩
  rwa [h.kin.without_eq (by rw [hz]; simp)] at hcore'

end PassToInit

def Awaited (s : State μ) (p v : Slot) : Prop :=
  (s.ptable p).syscall = SYS_waitpid ∧ TakesZombie s p v

theorem Core.tellParent (h : Core s (v :: out) run) (hv : v ∉ out) (halive : Alive (s.ptable v))
    (hinit : s.initPcb ≠ some v) (hchild : Childless s v)
    (ht : tellParent ops s p v = some s') : Core s' out (without run v) := by
  unfold Procs.tellParent at ht
  split_ifs at ht with hwait
  · have hf : Harmless fun b => { b with rax := (s.ptable v).pid } :=
      fun _ => ⟨⟨rfl, rfl, rfl, rfl⟩, rfl⟩
    have hmod := h.modify hf p
    have hkin := hf.kin s p
    dsimp only at ht
    split at ht
    · rename_i s1 hrem
      -- the removal succeeds, so the parent is where its state says
      have hloc := hmod.linked.removed_mem hrem
      unfold State.homeBut at hloc
      split_ifs at hloc with hout
      obtain ⟨u, hrem', hcore, hsame⟩ := hmod.detach hout hloc
      obtain rfl : u = s1 := by
        rw [hrem] at hrem'
        exact (Prod.mk.inj (some.inj hrem')).2.symm
      have hblocked := home_eq_syscall hloc
      have hkin1 : ∀ j, SameKin (u.ptable j) (s.ptable j) :=
        fun j => (hsame.kin j).trans (hkin j)
      refine (hcore.wake_and_cleanup hout hv (by rw [(hsame.kin p).state]; exact hblocked)
        (by rw [hsame.initPcb]; exact hinit) ?_ ht).1
      intro j hj
      rw [(hkin1 j).parent]
      refine hchild j ?_
      rwa [Present, (hkin1 j).alive, (hkin1 j).state] at hj
    · cases ht
  · obtain ⟨t, htz, hcore⟩ := h.becomeZombie hv hinit hchild halive
    cases htz.symm.trans ht
    exact hcore

/-- The exits after which init is still where it belongs: if init is blocked in
`waitpid` and the dying process leaves zombie children behind, init must wait for
any child or for the last of them. -/
def SoundExit (s : State μ) (v : Slot) : Prop :=
  ∀ r z, s.initPcb = some r → (s.ptable r).syscall = SYS_waitpid → lastZombie s v = some z →
    TakesZombie s r z

/-- The first half of `pcb_zombify`: the children go to init, and so does the last
zombie among them if init is inside `waitpid`. -/
def HandedOver (ops : MemOps μ φ) (s : State μ) (v : Slot) (t : State μ) : Prop :=
  (t = adopted s v ∧
    ∀ r z, s.initPcb = some r → lastZombie s v = some z → (s.ptable r).syscall ≠ SYS_waitpid) ∨
  ∃ r z, s.initPcb = some r ∧ lastZombie s v = some z ∧ (s.ptable r).syscall = SYS_waitpid ∧
    passToInit ops (adopted s v) r z = some t

theorem pcbZombify_cases (h : pcbZombify ops s v = some s') :
    (s.ptable v).pid ≠ 1 ∧ ∃ p t, (s.ptable v).parent = some p ∧ HandedOver ops s v t ∧
      tellParent ops t p v = some s' := by
  unfold pcbZombify at h
  split_ifs at h with hpid
  refine ⟨hpid, ?_⟩
  cases hp : (s.ptable v).parent with
  | none =>
    rw [hp] at h
    cases h
  | some p =>
    rw [hp, reparent_eq] at h
    simp only at h
    cases hlast : lastZombie s v with
    | none =>
      rw [hlast] at h
      exact ⟨p, adopted s v, rfl, .inl ⟨rfl, by simp [hlast]⟩, h⟩
    | some z =>
      rw [hlast] at h
      simp only at h
      rw [show (adopt s v (finRange 256)).initPcb = s.initPcb from rfl] at h
      cases hr : s.initPcb with
      | none =>
        rw [hr] at h
        cases h
      | some r =>
        simp only [hr, (adopted_state s v r).2.1] at h
        split_ifs at h with hwait
        · obtain ⟨t, hpass, htell⟩ := bind_eq_some_iff.mp h
          exact ⟨p, t, rfl, .inr ⟨r, z, hr, hlast, hwait, hpass⟩, htell⟩
        · refine ⟨p, adopted s v, rfl, .inl ⟨rfl, fun r' z' hr' _ => ?_⟩, h⟩
          cases hr.symm.trans hr'
          exact hwait

theorem TakesZombie.adopted_iff : TakesZombie (adopted s v) r z ↔ TakesZombie s r z := by
  unfold TakesZombie argPid
  rw [(adopted_state s v r).2.2.2.2, (adopted_state s v z).2.2.1]

theorem Core.heirs (h : Core s [v] run) (hnot : NotWaiting s) (halive : Alive (s.ptable v))
    (hr : s.initPcb = some r) (hrv : r ≠ v) (hsys : (s.ptable r).syscall = SYS_waitpid)
    (hlast : lastZombie s v = some z) :
    ((Procs.adopted s v).ptable r).state = .blocked ∧
      ((Procs.adopted s v).ptable r).syscall = SYS_waitpid ∧
      ((Procs.adopted s v).ptable z).state = .zombie ∧ z ≠ v := by
  obtain ⟨r', hr', hralive, -, -⟩ := h.kin.init
  obtain rfl : r' = r := some.inj (hr'.symm.trans hr)
  obtain ⟨hzstate, -⟩ := lastZombie_spec hlast
  refine ⟨?_, ?_, ?_, ?_⟩
  · rw [(adopted_state s v r').1]
    exact (h.kin.waiting hnot hralive hsys).1
  · rw [(adopted_state s v r').2.1]
    exact hsys
  · rw [(adopted_state s v z).1]
    exact hzstate
  · rintro rfl
    exact halive.not_zombie hzstate

theorem Core.not_init (h : Core s out run) (hpid : (s.ptable v).pid ≠ 1) : s.initPcb ≠ some v := by
  obtain ⟨r, hr, -, hrpid, -⟩ := h.kin.init
  intro hv
  cases hr.symm.trans hv
  exact hpid hrpid

theorem Core.zombify (h : Core s [v] run) (hnot : NotWaiting s) (halive : Alive (s.ptable v))
    (hsound : SoundExit s v) (hz : pcbZombify ops s v = some s') : Core s' [] (without run v) := by
  obtain ⟨hpid, p, t, -, hhand, htell⟩ := pcbZombify_cases hz
  have hinit := h.not_init hpid
  have hcore : Core (Procs.adopted s v) [v] run := Core.adopted h
  have hchild := adopted_childless hinit
  have halive' : Alive ((Procs.adopted s v).ptable v) := adopted_alive.mpr halive
  rcases hhand with ⟨rfl, -⟩ | ⟨r, z, hr, hlast, hsys, hpass⟩
  · exact hcore.tellParent (by simp) halive' hinit hchild htell
  · have hrv : r ≠ v := fun hrv => hinit (hrv ▸ hr)
    obtain ⟨hblocked, hsys', hzstate, hzv⟩ := h.heirs hnot halive hr hrv hsys hlast
    obtain ⟨hcore2, hinit2, hunused, hother⟩ := hcore.passToInit hr hrv hblocked hsys' hzstate hzv
      (TakesZombie.adopted_iff.mpr (hsound r z hr hsys hlast)) hpass
    refine hcore2.tellParent (by simp) ((hother v hrv.symm hzv.symm).alive.mpr halive')
      (by rw [hinit2]; exact hinit) (fun j hj => ?_) htell
    by_cases hjz : j = z
    · exact absurd (hjz ▸ hunused) hj.not_unused
    · by_cases hjr : j = r
      · obtain ⟨r', hr', -, -, hnone⟩ := hcore2.kin.init
        obtain rfl : r' = r := some.inj (hr'.symm.trans (hinit2.trans hr))
        rw [hjr, hnone]
        simp
      · rw [(hother j hjr hjz).parent]
        refine hchild j ?_
        rwa [Present, (hother j hjr hjz).alive, (hother j hjr hjz).state] at hj

theorem Core.zombify_lost (h : Core s [v] run) (hnot : NotWaiting s) (halive : Alive (s.ptable v))
    (hr : s.initPcb = some r) (hsys : (s.ptable r).syscall = SYS_waitpid)
    (hlast : lastZombie s v = some z) (htake : ¬ TakesZombie s r z)
    (hz : pcbZombify ops s v = some s') : Core s' [r] (without run v) := by
  obtain ⟨hpid, p, t, -, hhand, htell⟩ := pcbZombify_cases hz
  have hinit := h.not_init hpid
  have hcore : Core (Procs.adopted s v) [v] run := Core.adopted h
  have hchild := adopted_childless hinit
  have hrv : r ≠ v := fun hrv => hinit (hrv ▸ hr)
  rcases hhand with ⟨-, hno⟩ | ⟨r', z', hr', hlast', -, hpass⟩
  · exact absurd hsys (hno r z hr hlast)
  · cases hr.symm.trans hr'
    cases hlast.symm.trans hlast'
    obtain ⟨hblocked, hsys', hzstate, hzv⟩ := h.heirs hnot halive hr hrv hsys hlast
    obtain ⟨hcore2, hinit2, hunused, hother⟩ := hcore.passToInit_lost hr hrv hblocked hsys' hzstate
      hzv (fun htake' => htake (TakesZombie.adopted_iff.mp htake')) hpass
    refine hcore2.tellParent (by simp [hrv.symm])
      ((hother v hzv.symm).alive.mpr (adopted_alive.mpr halive))
      (by rw [hinit2]; exact hinit) (fun j hj => ?_) htell
    by_cases hjz : j = z
    · exact absurd (hjz ▸ hunused) hj.not_unused
    · rw [(hother j hjz).parent]
      refine hchild j ?_
      rwa [Present, (hother j hjz).alive, (hother j hjz).state] at hj

end Comus.Procs
