import Comus.Procs.Kinship

/-!
# Scheduling, cleaning up and zombies

`Core s out run` is the part of the invariant that holds while the kernel works
for the process `run`: every block is in its home queue, except for the blocks
in `out`, which are in no queue, and the relatives are in order.
-/

namespace Comus.Procs

open Chain Option List Function

variable {μ φ : Type} {ops : MemOps μ φ} {s s' t : State μ} {loc : Slot → Option QueueId}
  {i j v : Slot} {q : QueueId} {out out' : List Slot} {run : Option Slot}
variable {f : Pcb → Pcb}

def State.homeBut (s : State μ) (out : List Slot) (i : Slot) : Option QueueId :=
  if i ∈ out then none else s.home i

structure Core (s : State μ) (out : List Slot) (run : Option Slot) : Prop where
  linked : Linked s (s.homeBut out)
  kin : Kin s run

theorem schedule_eq (h : Linked s loc) (hi : loc i = none)
    (hs : (s.ptable i).state ≠ .unused) (hz : (s.ptable i).state ≠ .zombie) :
    ∃ s', schedule s i = some s' ∧ Linked s' (update loc i (some .ready)) ∧
      SameBlocks (s.modify i fun p => { p with state := .ready, syscall := 0 }) s' := by
  have hmod : Linked (s.modify i fun p => { p with state := .ready, syscall := 0 }) loc :=
    h.modify fun _ => rfl
  obtain ⟨s', hins, hlinked, hsame⟩ := hmod.insert hi .ready
  refine ⟨s', ?_, hlinked, hsame⟩
  rw [schedule, if_neg (by simp [hs, hz]), hins]

theorem pcbFree_eq (h : Linked s loc) (hi : loc i = none) :
    ∃ s', pcbFree s i = some s' ∧ Linked s' (update loc i (some .freelist)) ∧
      SameBlocks (s.modify i fun p => { p with state := .unused }) s' := by
  have hmod : Linked (s.modify i fun p => { p with state := .unused }) loc :=
    h.modify fun _ => rfl
  obtain ⟨s', hins, hlinked, hsame⟩ := hmod.insert hi .freelist
  refine ⟨s', ?_, hlinked, hsame⟩
  rw [pcbFree, hins]

theorem becomeZombie_eq (h : Linked s loc) (hi : loc i = none) :
    ∃ s', becomeZombie s i = some s' ∧ Linked s' (update loc i (some .zombie)) ∧
      SameBlocks (s.modify i fun p => { p with state := .zombie }) s' := by
  have hmod : Linked (s.modify i fun p => { p with state := .zombie }) loc :=
    h.modify fun _ => rfl
  obtain ⟨s', hins, hlinked, hsame⟩ := hmod.insert hi .zombie
  refine ⟨s', ?_, hlinked, hsame⟩
  rw [becomeZombie, hins]

theorem kin_of_modify (h : SameBlocks (s.modify i f) s') (hj : j ≠ i) :
    SameKin (s'.ptable j) (s.ptable j) := by
  have := h.kin j
  rwa [modify_ptable_of_ne s f hj] at this

theorem kin_self_of_modify (h : SameBlocks (s.modify i f) s') :
    SameKin (s'.ptable i) (f (s.ptable i)) := by
  have := h.kin i
  rwa [modify_ptable_self] at this

theorem homeBut_congr (h : ∀ j, j ∉ out → SameKin (s'.ptable j) (s.ptable j)) :
    s'.homeBut out = s.homeBut out := by
  funext j
  unfold State.homeBut
  split_ifs with hj
  · rfl
  · exact (h j hj).home

theorem homeBut_cons (s : State μ) (i : Slot) (out : List Slot) :
    update (s.homeBut out) i none = s.homeBut (i :: out) := by
  funext j
  rw [update_apply]
  unfold State.homeBut
  by_cases hj : j = i <;> simp [hj]

theorem homeBut_arrive (hother : ∀ j, j ≠ i → SameKin (s'.ptable j) (s.ptable j))
    (hi : home (s'.ptable i) = some q) (hout : i ∉ out) :
    update (s.homeBut (i :: out)) i (some q) = s'.homeBut out := by
  funext j
  rw [update_apply]
  unfold State.homeBut
  by_cases hj : j = i
  · rw [if_pos hj, hj, if_neg hout, State.home, hi]
  · rw [if_neg hj]
    simp only [mem_cons, hj, false_or]
    split_ifs
    · rfl
    · exact (hother j hj).home.symm

theorem Core.congr_out (h : Core s out run) (hout : ∀ j, j ∈ out ↔ j ∈ out') : Core s out' run := by
  refine ⟨?_, h.kin⟩
  have heq : s.homeBut out' = s.homeBut out := by
    funext j
    simp only [State.homeBut, hout]
  rw [heq]
  exact h.linked

theorem Core.put_aside (h : Core s out run) (hi : s.home i = none) : Core s (i :: out) run := by
  refine ⟨?_, h.kin⟩
  have heq : s.homeBut (i :: out) = s.homeBut out := by
    funext j
    unfold State.homeBut
    by_cases hj : j = i
    · simp [hj, hi]
    · simp [hj]
  rw [heq]
  exact h.linked

theorem Core.same (h : Core s out run) (hsame : SameBlocks s s') (hl : Linked s' (s.homeBut out')) :
    Core s' out' run := by
  refine ⟨?_, h.kin.congr hsame.kin hsame.initPcb⟩
  rw [homeBut_congr fun j _ => hsame.kin j]
  exact hl

/-- A write to fields outside positions and kinship. -/
def Harmless (f : Pcb → Pcb) : Prop := ∀ p, SameKin (f p) p ∧ (f p).next = p.next

theorem Harmless.kin (hf : Harmless f) (s : State μ) (i j : Slot) :
    SameKin ((s.modify i f).ptable j) (s.ptable j) := by
  rw [modify_ptable]
  split_ifs with hj
  · rw [hj]
    exact (hf _).1
  · exact SameKin.refl _

theorem Core.modify (h : Core s out run) (hf : Harmless f) (i : Slot) :
    Core (s.modify i f) out run := by
  refine ⟨?_, h.kin.congr (hf.kin s i) rfl⟩
  rw [homeBut_congr fun j _ => hf.kin s i j]
  exact h.linked.modify fun p => (hf p).2

theorem Core.setMem (h : Core s out run) (mem : μ) : Core { s with mem := mem } out run :=
  ⟨h.linked.congr rfl rfl, h.kin.congr (fun _ => SameKin.refl _) rfl⟩

theorem Core.setCurrent (h : Core s out run) (c : Option Slot) :
    Core { s with currentPcb := c } out run :=
  ⟨h.linked.congr rfl rfl, h.kin.congr (fun _ => SameKin.refl _) rfl⟩

/-- Registers, heap and shared memory have been written; positions, kinship and arguments are
as before. -/
structure Touched (s s' : State μ) : Prop where
  kin : ∀ i, SameKin (s'.ptable i) (s.ptable i)
  rdi : ∀ i, (s'.ptable i).rdi = (s.ptable i).rdi
  wakeup : ∀ i, (s'.ptable i).wakeup = (s.ptable i).wakeup
  next : s'.next = s.next
  queues : s'.queues = s.queues
  initPcb : s'.initPcb = s.initPcb

theorem Touched.refl (s : State μ) : Touched s s :=
  ⟨fun _ => SameKin.refl _, fun _ => rfl, fun _ => rfl, rfl, rfl, rfl⟩

theorem Touched.setMem (h : Touched s t) (mem : μ) : Touched s { t with mem := mem } :=
  ⟨h.kin, h.rdi, h.wakeup, h.next, h.queues, h.initPcb⟩

/-- Two writes to a block that agree up to registers, heap and shared memory. -/
theorem Touched.modify_both (h : Touched s t) {g : Pcb → Pcb} (hf : ∀ p q, SameKin p q →
    p.next = q.next → p.rdi = q.rdi → p.wakeup = q.wakeup → SameKin (f p) (g q) ∧
      (f p).next = (g q).next ∧ (f p).rdi = (g q).rdi ∧ (f p).wakeup = (g q).wakeup) (i : Slot) :
    Touched (s.modify i g) (t.modify i f) := by
  have hself := hf _ _ (h.kin i) (congrFun h.next i) (h.rdi i) (h.wakeup i)
  have hall : ∀ j, SameKin ((t.modify i f).ptable j) ((s.modify i g).ptable j) ∧
      (t.modify i f).next j = (s.modify i g).next j ∧
      ((t.modify i f).ptable j).rdi = ((s.modify i g).ptable j).rdi ∧
      ((t.modify i f).ptable j).wakeup = ((s.modify i g).ptable j).wakeup := by
    intro j
    unfold State.next
    rw [modify_ptable, modify_ptable]
    split_ifs with hj
    · exact hself
    · exact ⟨h.kin j, congrFun h.next j, h.rdi j, h.wakeup j⟩
  exact ⟨fun j => (hall j).1, fun j => (hall j).2.2.1, fun j => (hall j).2.2.2,
    funext fun j => (hall j).2.1, h.queues, h.initPcb⟩

theorem modify_next (hf : ∀ b, (f b).next = b.next) (s : State μ) (i : Slot) :
    (s.modify i f).next = s.next := by
  funext j
  unfold State.next
  rw [modify_ptable]
  split_ifs with hj
  · rw [hf, hj]
  · rfl

theorem modify_id (s : State μ) (i : Slot) : s.modify i id = s := by
  simp [State.modify]

theorem Touched.modify (h : Touched s t) (hf : ∀ p, SameKin (f p) p ∧
    (f p).next = p.next ∧ (f p).rdi = p.rdi ∧ (f p).wakeup = p.wakeup) (i : Slot) :
    Touched s (t.modify i f) := by
  rw [← modify_id s i]
  refine h.modify_both (fun p q hkin hnext hrdi hwakeup => ?_) i
  exact ⟨(hf p).1.trans hkin, (hf p).2.1.trans hnext, (hf p).2.2.1.trans hrdi,
    (hf p).2.2.2.trans hwakeup⟩

theorem Touched.rax (h : Touched s t) (f : Pcb → Nat) (c : Slot) :
    Touched s (t.modify c fun p => { p with rax := f p }) :=
  h.modify (f := fun p => { p with rax := f p }) (fun _ => ⟨⟨rfl, rfl, rfl, rfl⟩, rfl, rfl, rfl⟩) c

theorem Core.touched (h : Core s out run) (ht : Touched s t) : Core t out run := by
  refine ⟨?_, h.kin.congr ht.kin ht.initPcb⟩
  rw [homeBut_congr fun j _ => ht.kin j]
  exact h.linked.congr ht.next ht.queues

theorem Core.detach (h : Core s out run) (hi : i ∉ out) (hq : s.home i = some q) :
    ∃ s', pcbQueueRemove s q i = some (.success, s') ∧ Core s' (i :: out) run ∧
      SameBlocks s s' := by
  have hloc : s.homeBut out i = some q := by rw [State.homeBut, if_neg hi, hq]
  obtain ⟨s', hrem, hlinked, hsame⟩ := h.linked.remove hloc
  rw [homeBut_cons] at hlinked
  exact ⟨s', hrem, h.same hsame hlinked, hsame⟩

theorem homeBut_self (s : State μ) (i : Slot) (out : List Slot) : s.homeBut (i :: out) i = none := by
  simp [State.homeBut]

theorem Core.schedule (h : Core s (i :: out) run) (hi : i ∉ out) (halive : Alive (s.ptable i)) :
    ∃ s', schedule s i = some s' ∧ Core s' out (without run i) ∧
      SameBlocks (s.modify i fun p => { p with state := .ready, syscall := 0 }) s' := by
  obtain ⟨s', hsched, hlinked, hsame⟩ :=
    schedule_eq h.linked (homeBut_self s i out) halive.not_unused halive.not_zombie
  have hself := kin_self_of_modify hsame
  have hother := fun j (hj : j ≠ i) => kin_of_modify hsame hj
  refine ⟨s', hsched, ⟨?_, ?_⟩, hsame⟩
  · rwa [homeBut_arrive hother (by rw [hself.home]; rfl) hi] at hlinked
  · refine h.kin.alive_step hsame.initPcb hother hself.parent hself.pid halive
      (.inl hself.state) (fun hb => ?_) (fun _ => hself.syscall) ?_
    · rw [hself.state] at hb
      cases hb
    · exact running_without h.kin (fun j hj => (hother j hj).state) (by rw [hself.state]; simp)

section Core

variable (h : Core s (v :: out) run) (hv : v ∉ out) (hinit : s.initPcb ≠ some v) (hchild : Childless s v)
include h hv hinit hchild

theorem Core.free :
    ∃ s', pcbFree s v = some s' ∧ Core s' out (without run v) ∧
      SameBlocks (s.modify v fun p => { p with state := .unused }) s' := by
  obtain ⟨s', hfree, hlinked, hsame⟩ := pcbFree_eq h.linked (homeBut_self s v out)
  have hself := kin_self_of_modify hsame
  have hother := fun j (hj : j ≠ v) => kin_of_modify hsame hj
  refine ⟨s', hfree, ⟨?_, ?_⟩, hsame⟩
  · rwa [homeBut_arrive hother (by rw [hself.home]; rfl) hv] at hlinked
  · exact h.kin.dead_step hsame.initPcb hother hself.parent (.inl hself.state) hinit hchild
      (running_without h.kin (fun j hj => (hother j hj).state) (by rw [hself.state]; simp))

theorem Core.becomeZombie (halive : Alive (s.ptable v)) :
    ∃ s', becomeZombie s v = some s' ∧ Core s' out (without run v) := by
  obtain ⟨s', hz, hlinked, hsame⟩ := becomeZombie_eq h.linked (homeBut_self s v out)
  have hself := kin_self_of_modify hsame
  have hother := fun j (hj : j ≠ v) => kin_of_modify hsame hj
  refine ⟨s', hz, ⟨?_, ?_⟩⟩
  · rwa [homeBut_arrive hother (by rw [hself.home]; rfl) hv] at hlinked
  · exact h.kin.dead_step hsame.initPcb hother hself.parent (.inr ⟨hself.state, halive⟩) hinit
      hchild (running_without h.kin (fun j hj => (hother j hj).state) (by rw [hself.state]; simp))

theorem Core.cleanup (hc : pcbCleanup ops s v = some s') :
    Core s' out (without run v) ∧ s'.initPcb = s.initPcb ∧ (s'.ptable v).state = .unused ∧
      ∀ j, j ≠ v → SameKin (s'.ptable j) (s.ptable j) := by
  unfold pcbCleanup at hc
  split_ifs at hc
  · obtain ⟨mem, -, hfree⟩ := bind_eq_some_iff.mp hc
    obtain ⟨t, ht, hcore, hsame⟩ := (h.setMem mem).free hv hinit hchild
    cases ht.symm.trans hfree
    exact ⟨hcore, hsame.initPcb, (kin_self_of_modify hsame).state,
      fun j hj => kin_of_modify (s := { s with mem := mem }) hsame hj⟩
  · obtain ⟨t, ht, hcore, hsame⟩ := h.free hv hinit hchild
    cases ht.symm.trans hc
    exact ⟨hcore, hsame.initPcb, (kin_self_of_modify hsame).state,
      fun j hj => kin_of_modify hsame hj⟩

end Core

def isChild (s : State μ) (v : Slot) (i : Slot) : Bool :=
  decide ((s.ptable i).state ≠ .unused) && decide ((s.ptable i).parent = some v)

def isZombieChild (s : State μ) (v : Slot) (i : Slot) : Bool :=
  isChild s v i && decide ((s.ptable i).state = .zombie)

def adopt (s : State μ) (v : Slot) (xs : List Slot) : State μ :=
  { s with ptable := fun i =>
      if i ∈ xs ∧ isChild s v i then { s.ptable i with parent := s.initPcb } else s.ptable i }

def lastZombie (s : State μ) (v : Slot) : Option Slot :=
  ((finRange 256).filter (isZombieChild s v)).getLast?

theorem adopt_ptable_of_not_mem {xs : List Slot} (h : i ∉ xs) :
    (adopt s v xs).ptable i = s.ptable i := by simp [adopt, h]

theorem reparentOne_adopt {x : Slot} {done : List Slot} (hx : x ∉ done) (z : Option Slot) :
    reparentOne v (adopt s v done, z) x =
      (adopt s v (done ++ [x]), if isZombieChild s v x then some x else z) := by
  have hsnoc : ∀ i, i ∈ done ++ [x] ↔ i ∈ done ∨ i = x := by simp
  have hsame : isChild s v x = false → adopt s v (done ++ [x]) = adopt s v done := by
    intro hno
    unfold adopt
    congr 1
    funext i
    by_cases hix : i = x
    · rw [hix]
      simp [hno]
    · simp [hsnoc, hix]
  unfold reparentOne
  rw [adopt_ptable_of_not_mem hx]
  by_cases hstate : (s.ptable x).state = .unused
  · have hno : isChild s v x = false := by simp [isChild, hstate]
    simp [hstate, hsame hno, isZombieChild, hno]
  · by_cases hparent : (s.ptable x).parent = some v
    · have hyes : isChild s v x = true := by simp [isChild, hstate, hparent]
      rw [if_neg hstate, if_neg (not_not.mpr hparent), isZombieChild, hyes, Bool.true_and]
      simp only [decide_eq_true_eq]
      congr 1
      unfold adopt State.modify
      congr 1
      funext i
      rw [update_apply]
      by_cases hix : i = x
      · simp [hix, hx, hyes]
      · simp [hsnoc, hix]
    · have hno : isChild s v x = false := by simp [isChild, hparent]
      simp [hstate, hparent, hsame hno, isZombieChild, hno]

theorem reparent_foldl (s : State μ) (v : Slot) (xs done : List Slot) (hnodup : (done ++ xs).Nodup)
    (z : Option Slot) :
    xs.foldl (reparentOne v) (adopt s v done, z) =
      (adopt s v (done ++ xs), (xs.filter (isZombieChild s v)).getLast?.or z) := by
  induction xs generalizing done z with
  | nil => simp
  | cons x xs ih =>
    have hx : x ∉ done := fun hx => (disjoint_of_nodup_append hnodup) hx mem_cons_self
    rw [foldl_cons, reparentOne_adopt hx, ih (done ++ [x]) (by simpa using hnodup),
      append_assoc, singleton_append]
    congr 1
    by_cases hz : isZombieChild s v x = true
    · rw [filter_cons_of_pos hz, if_pos hz, getLast?_cons]
      cases (xs.filter (isZombieChild s v)).getLast? <;> rfl
    · rw [filter_cons_of_neg hz, if_neg hz]

theorem reparent_eq (s : State μ) (v : Slot) :
    reparent s v = (adopt s v (finRange 256), lastZombie s v) := by
  have hstart : adopt s v [] = s := by simp [adopt]
  have hnodup : ([] ++ finRange 256).Nodup := by
    rw [nil_append]
    exact nodup_finRange 256
  have hfold := reparent_foldl s v (finRange 256) [] hnodup none
  rw [hstart, or_none, nil_append] at hfold
  rw [reparent, hfold, lastZombie]

end Comus.Procs
