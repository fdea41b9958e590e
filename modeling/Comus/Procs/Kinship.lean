import Comus.Procs.Syscall
import Comus.Procs.Queues

/-!
# Where a process belongs, and its relatives

`home` is the queue the state of a control block names. Besides the position of
every block the invariant of the kernel needs facts about relatives: init is
alive and every other process has a living parent. They are what makes the
wake-ups in `pcb_zombify` find the waiting process in the waitpid queue.
-/

namespace Comus.Procs

open Chain

variable {μ : Type} {s s' t : State μ} {loc : Slot → Option QueueId} {i j v : Slot}
  {run run' : Option Slot}
variable {p q : Pcb} {n : Fin 24}

/-- The queue named by the state. A blocked process belongs to the queue of its
system call, if that is a valid number. -/
def home (p : Pcb) : Option QueueId :=
  match p.state with
  | .unused => some .freelist
  | .new => none
  | .ready => some .ready
  | .running => none
  | .blocked => if h : p.syscall < 24 then some (.syscall ⟨p.syscall, h⟩) else none
  | .zombie => some .zombie

def State.home (s : State μ) (i : Slot) : Option QueueId := Procs.home (s.ptable i)

theorem home_eq_ready (h : home p = some .ready) : p.state = .ready := by
  unfold home at h
  cases hp : p.state <;> simp [hp] at h ⊢

theorem home_eq_freelist (h : home p = some .freelist) : p.state = .unused := by
  unfold home at h
  cases hp : p.state <;> simp [hp] at h ⊢

theorem home_eq_syscall (h : home p = some (.syscall n)) :
    p.state = .blocked := by
  unfold home at h
  cases hp : p.state <;> simp [hp] at h ⊢

theorem home_syscall_iff :
    home p = some (.syscall n) ↔ p.state = .blocked ∧ p.syscall = n := by
  constructor
  · intro h
    have hblocked := home_eq_syscall h
    refine ⟨hblocked, ?_⟩
    unfold home at h
    rw [hblocked] at h
    simp only at h
    split_ifs at h with hlt
    simp only [Option.some.injEq, QueueId.syscall.injEq] at h
    exact congrArg Fin.val h
  · rintro ⟨hblocked, hsys⟩
    simp [home, hblocked, hsys]

def Alive (p : Pcb) : Prop := p.state = .ready ∨ p.state = .running ∨ p.state = .blocked

instance (p : Pcb) : Decidable (Alive p) := inferInstanceAs (Decidable (_ ∨ _ ∨ _))

def Present (p : Pcb) : Prop := Alive p ∨ p.state = .zombie

/-- `run` is the process that runs, or that the kernel is working for. -/
structure Kin (s : State μ) (run : Option Slot) : Prop where
  init : ∃ r, s.initPcb = some r ∧ Alive (s.ptable r) ∧ (s.ptable r).pid = 1 ∧
    (s.ptable r).parent = none
  parents : ∀ i, Present (s.ptable i) → s.initPcb ≠ some i →
    ∃ p, (s.ptable i).parent = some p ∧ Alive (s.ptable p) ∧ p ≠ i
  blocked : ∀ i, (s.ptable i).state = .blocked → (s.ptable i).syscall < 24
  ready : ∀ i, (s.ptable i).state = .ready → (s.ptable i).syscall = 0
  running : ∀ i, (s.ptable i).state = .running ↔ run = some i

structure SameKin (p q : Pcb) : Prop where
  state : p.state = q.state
  syscall : p.syscall = q.syscall
  parent : p.parent = q.parent
  pid : p.pid = q.pid

theorem SameKin.refl (p : Pcb) : SameKin p p := ⟨rfl, rfl, rfl, rfl⟩

theorem SameKin.trans {r : Pcb} (h : SameKin p q) (h' : SameKin q r) : SameKin p r :=
  ⟨h.state.trans h'.state, h.syscall.trans h'.syscall, h.parent.trans h'.parent, h.pid.trans h'.pid⟩

theorem SameKin.alive (h : SameKin p q) : Alive p ↔ Alive q := by
  rw [Alive, Alive, h.state]

theorem SameKin.home (h : SameKin p q) : Procs.home p = Procs.home q := by
  unfold Procs.home
  simp only [h.state, h.syscall]

theorem SameBlocks.field {α : Type} (h : SameBlocks s s') (i : Slot) (f : Pcb → α)
    (hf : ∀ p : Pcb, f p.unlinked = f p) : f (s'.ptable i) = f (s.ptable i) := by
  rw [← hf, h.block, hf]

theorem SameBlocks.kin (h : SameBlocks s s') (i : Slot) : SameKin (s'.ptable i) (s.ptable i) :=
  ⟨h.field i Pcb.state fun _ => rfl, h.field i Pcb.syscall fun _ => rfl,
    h.field i Pcb.parent fun _ => rfl, h.field i Pcb.pid fun _ => rfl⟩

theorem Alive.not_unused (h : Alive p) : p.state ≠ .unused := by
  rcases h with h | h | h <;> simp [h]

theorem Alive.not_zombie (h : Alive p) : p.state ≠ .zombie := by
  rcases h with h | h | h <;> simp [h]

theorem Linked.congr (h : Linked s loc) (hnext : s'.next = s.next) (hq : s'.queues = s.queues) :
    Linked s' loc := by
  obtain ⟨xs, h1, h2⟩ := h.lists
  refine ⟨⟨xs, fun q => ?_, h2⟩, fun i hi => ?_⟩
  · rw [hnext, hq]
    exact h1 q
  · rw [hnext]
    exact h.loose i hi

theorem Linked.modify (h : Linked s loc) {f : Pcb → Pcb} (hf : ∀ p, (f p).next = p.next) :
    Linked (s.modify i f) loc := by
  refine h.congr ?_ rfl
  funext j
  simp only [State.next, modify_ptable]
  split_ifs with hj
  · rw [hf, hj]
  · rfl

theorem Kin.congr (h : Kin s run) (hk : ∀ i, SameKin (s'.ptable i) (s.ptable i))
    (hinit : s'.initPcb = s.initPcb) : Kin s' run := by
  refine ⟨?_, fun i hi hne => ?_, fun i hi => ?_, fun i hi => ?_, fun i => ?_⟩
  · obtain ⟨r, h1, h2, h3, h4⟩ := h.init
    exact ⟨r, hinit.trans h1, (hk r).alive.mpr h2, (hk r).pid.trans h3, (hk r).parent.trans h4⟩
  · rw [Present, (hk i).alive, (hk i).state] at hi
    obtain ⟨p, h1, h2, h3⟩ := h.parents i hi (hinit ▸ hne)
    exact ⟨p, (hk i).parent.trans h1, (hk p).alive.mpr h2, h3⟩
  · rw [(hk i).syscall]
    exact h.blocked i ((hk i).state ▸ hi)
  · rw [(hk i).syscall]
    exact h.ready i ((hk i).state ▸ hi)
  · rw [(hk i).state]
    exact h.running i

def Childless (s : State μ) (v : Slot) : Prop :=
  ∀ j, Present (s.ptable j) → (s.ptable j).parent ≠ some v

section Kin

variable (h : Kin s run) (hinit : s'.initPcb = s.initPcb)
  (hother : ∀ j, j ≠ i → SameKin (s'.ptable j) (s.ptable j))
include h hinit hother

/-- What is to be shown of the block that changes. -/
theorem Kin.one_step (hroot : s.initPcb = some i →
      Alive (s'.ptable i) ∧ (s'.ptable i).pid = 1 ∧ (s'.ptable i).parent = none)
    (hstill : Alive (s.ptable i) → Alive (s'.ptable i) ∨ Childless s i)
    (hparent : Present (s'.ptable i) → s.initPcb ≠ some i →
      ∃ p, (s'.ptable i).parent = some p ∧ Alive (s.ptable p) ∧ p ≠ i)
    (hblocked : (s'.ptable i).state = .blocked → (s'.ptable i).syscall < 24)
    (hready : (s'.ptable i).state = .ready → (s'.ptable i).syscall = 0)
    (hrun : ∀ j, (s'.ptable j).state = .running ↔ run' = some j) : Kin s' run' := by
  refine ⟨?_, fun j hj hne => ?_, fun j hj => ?_, fun j hj => ?_, hrun⟩
  · obtain ⟨r, h1, h2, h3, h4⟩ := h.init
    by_cases hr : r = i
    · exact ⟨r, hinit.trans h1, hr ▸ hroot (hr ▸ h1)⟩
    · have hk := hother r hr
      exact ⟨r, hinit.trans h1, hk.alive.mpr h2, hk.pid.trans h3, hk.parent.trans h4⟩
  · by_cases hji : j = i
    · subst hji
      obtain ⟨p, h1, h2, h3⟩ := hparent hj (hinit ▸ hne)
      exact ⟨p, h1, (hother p h3).alive.mpr h2, h3⟩
    · have hk := hother j hji
      rw [Present, hk.alive, hk.state] at hj
      obtain ⟨p, h1, h2, h3⟩ := h.parents j hj (hinit ▸ hne)
      refine ⟨p, hk.parent.trans h1, ?_, h3⟩
      by_cases hpi : p = i
      · subst hpi
        exact (hstill h2).resolve_right fun hchild => hchild j hj h1
      · exact (hother p hpi).alive.mpr h2
  · by_cases hji : j = i
    · subst hji
      exact hblocked hj
    · rw [(hother j hji).syscall]
      exact h.blocked j ((hother j hji).state ▸ hj)
  · by_cases hji : j = i
    · subst hji
      exact hready hj
    · rw [(hother j hji).syscall]
      exact h.ready j ((hother j hji).state ▸ hj)

theorem Kin.alive_step (hparent : (s'.ptable i).parent = (s.ptable i).parent)
    (hpid : (s'.ptable i).pid = (s.ptable i).pid)
    (halive : Alive (s.ptable i)) (halive' : Alive (s'.ptable i))
    (hblocked : (s'.ptable i).state = .blocked → (s'.ptable i).syscall < 24)
    (hready : (s'.ptable i).state = .ready → (s'.ptable i).syscall = 0)
    (hrun : ∀ j, (s'.ptable j).state = .running ↔ run' = some j) : Kin s' run' := by
  refine h.one_step hinit hother (fun hi => ?_) (fun _ => .inl halive') (fun _ hi => ?_) hblocked
    hready hrun
  · obtain ⟨r, h1, -, h3, h4⟩ := h.init
    cases h1.symm.trans hi
    exact ⟨halive', hpid.trans h3, hparent.trans h4⟩
  · obtain ⟨p, h1, h2⟩ := h.parents i (.inl halive) hi
    exact ⟨p, hparent.trans h1, h2⟩

end Kin

theorem Kin.dead_step (h : Kin s run) (hinit : s'.initPcb = s.initPcb)
    (hother : ∀ j, j ≠ v → SameKin (s'.ptable j) (s.ptable j))
    (hparent : (s'.ptable v).parent = (s.ptable v).parent)
    (hdead : (s'.ptable v).state = .unused ∨
      (s'.ptable v).state = .zombie ∧ Alive (s.ptable v))
    (hv : s.initPcb ≠ some v) (hchild : Childless s v)
    (hrun : ∀ j, (s'.ptable j).state = .running ↔ run' = some j) : Kin s' run' := by
  have hnot : ¬ Alive (s'.ptable v) := by
    rintro halive
    rcases hdead with hd | hd
    · exact halive.not_unused hd
    · exact halive.not_zombie hd.1
  refine h.one_step hinit hother (fun hi => absurd hi hv) (fun _ => .inr hchild) (fun hj hne => ?_)
    (fun hb => absurd (.inr (.inr hb)) hnot) (fun hr => absurd (.inl hr) hnot) hrun
  rcases hdead with hd | ⟨-, halive⟩
  · rcases hj with hj | hj
    · exact absurd hj hnot
    · cases hj.symm.trans hd
  · obtain ⟨p, h1, h2⟩ := h.parents v (.inl halive) hne
    exact ⟨p, hparent.trans h1, h2⟩

def without (run : Option Slot) (i : Slot) : Option Slot := if run = some i then none else run

theorem running_without (h : Kin s run) (hother : ∀ j, j ≠ i → (s'.ptable j).state = (s.ptable j).state)
    (hi : (s'.ptable i).state ≠ .running) :
    ∀ j, (s'.ptable j).state = .running ↔ without run i = some j := by
  intro j
  unfold without
  by_cases hj : j = i
  · rw [hj]
    constructor
    · exact fun hr => absurd hr hi
    · intro hr
      split_ifs at hr with hrun
      exact absurd hr hrun
  · rw [hother j hj, h.running j]
    split_ifs with hrun
    · rw [hrun]
      simp [Ne.symm hj]
    · rfl

end Comus.Procs
