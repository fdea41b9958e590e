import Comus.Procs.Frames
import Comus.Procs.Pids

/-!
# The tree of processes

Parent links are raw pointers that nobody clears when a block is freed. That the
links of all processes still lead to init, and that `kill` reaches descendants only,
is shown here without any assumption on the queues: a step is described by what it
does to states, parents and process ids.
-/

namespace Comus.Procs

open Chain Word Option List

variable {μ φ : Type} {ops : MemOps μ φ} {s s' t t' u : State μ} {c i j v r z p w d : Slot}
  {op : Op φ}
variable {b b' : Pcb} {f : Pcb → Pcb} {mem : μ} {rax rdi rsi : Nat} {xs : List Slot}

def State.parentOf (s : State μ) (i : Slot) : Option Slot := (s.ptable i).parent

def Op.number : Op φ → Option Nat
  | .tick => none
  | .syscall rax _ _ _ => some (u64 rax)

/-- The block keeps its id and its parent, and its state unless it is alive afterwards. -/
structure Kept (b b' : Pcb) : Prop where
  pid : b'.pid = b.pid
  parent : b'.parent = b.parent
  state : b'.state = b.state ∨ Alive b'

theorem Kept.alive (h : Kept b b') (hb : Alive b) : Alive b' := by
  rcases h.state with hstate | halive
  · unfold Alive at hb ⊢
    rwa [hstate]
  · exact halive

theorem Kept.of_state (hstate : b'.state = b.state) (hpid : b'.pid = b.pid)
    (hparent : b'.parent = b.parent) : Kept b b' :=
  ⟨hpid, hparent, .inl hstate⟩

theorem kept_tame : Tame Kept where
  refl _ := ⟨rfl, rfl, .inl rfl⟩
  trans := by
    intro p p' p'' h h'
    refine ⟨h'.pid.trans h.pid, h'.parent.trans h.parent, ?_⟩
    rcases h'.state with hstate' | halive
    · rcases h.state with hstate | halive
      · exact .inl (hstate'.trans hstate)
      · exact .inr (h'.alive halive)
    · exact .inr halive
  same hstate hpid hparent _ _ _ := Kept.of_state hstate hpid hparent
  active := by
    intro p p' hstate hpid hparent
    exact ⟨hpid, hparent, .inr (hstate.imp_right .inl)⟩

structure Ended (b b' : Pcb) : Prop where
  pid : b'.pid = b.pid
  parent : b'.parent = b.parent
  state : b'.state = .unused ∨ b'.state = .zombie

structure Alike (b b' : Pcb) : Prop where
  state : b'.state = b.state
  pid : b'.pid = b.pid
  parent : b'.parent = b.parent

structure AllAlike (s s' : State μ) : Prop where
  block : ∀ i, Alike (s.ptable i) (s'.ptable i)
  initPcb : s'.initPcb = s.initPcb

theorem AllAlike.trans (h : AllAlike s u) (h' : AllAlike u t) : AllAlike s t where
  block i := ⟨(h'.block i).state.trans (h.block i).state, (h'.block i).pid.trans (h.block i).pid,
    (h'.block i).parent.trans (h.block i).parent⟩
  initPcb := h'.initPcb.trans h.initPcb

theorem AllAlike.framed (h : AllAlike s s') : Framed Kept s s' :=
  ⟨fun i => Kept.of_state (h.block i).state (h.block i).pid (h.block i).parent, h.initPcb⟩

theorem SameBlocks.alike (h : SameBlocks s s') : AllAlike s s' :=
  ⟨fun i => ⟨(h.kin i).state, (h.kin i).pid, (h.kin i).parent⟩, h.initPcb⟩

theorem alike_modify (hf : ∀ b, Alike b (f b)) : AllAlike s (s.modify i f) := by
  refine ⟨fun j => ?_, rfl⟩
  rw [modify_ptable]
  split_ifs with hj
  · rw [hj]
    exact hf _
  · exact ⟨rfl, rfl, rfl⟩

theorem rax_alike (f : Pcb → Nat) (s : State μ) (i : Slot) :
    AllAlike s (s.modify i fun p => { p with rax := f p }) :=
  alike_modify fun _ => ⟨rfl, rfl, rfl⟩

theorem entered_alike (s : State μ) (c : Slot) (rax rdi rsi : Nat) :
    AllAlike s (entered s c rax rdi rsi) := by
  have h := alike_modify (s := s) (i := c) (f := fun p =>
    { p with rax := 0, rdi := u64 rdi, rsi := u64 rsi, syscall := u64 rax }) fun _ => ⟨rfl, rfl, rfl⟩
  exact ⟨h.block, h.initPcb⟩

theorem finish_ret_alike (code : Int) (s : State μ) (c : Slot) :
    AllAlike s (finish c (.ret code s)) := by
  have h := alike_modify (s := s) (i := c) (f := fun p =>
    { p with rax := if code ≠ 0 then toU64 code else p.rax, syscall := 0 }) fun _ => ⟨rfl, rfl, rfl⟩
  exact ⟨h.block, h.initPcb⟩

theorem finish_framed {h : Handled μ} (hf : EndsFramed Kept s h) : Framed Kept s (finish c h) := by
  cases h with
  | dispatched t => exact hf
  | ret code t => exact Framed.trans kept_tame hf (finish_ret_alike code t c).framed

structure OneEnds (s s' : State μ) (d : Slot) : Prop where
  other : ∀ i, i ≠ d → Kept (s.ptable i) (s'.ptable i)
  ended : Ended (s.ptable d) (s'.ptable d)
  initPcb : s'.initPcb = s.initPcb

theorem freed_ends (h : SameBlocks { s.modify d Pcb.freed with mem := mem } s') :
    OneEnds s s' d := by
  have hkin := h.alike
  refine ⟨fun i hi => ?_, ?_, hkin.initPcb⟩
  · have hblock := hkin.block i
    simp only [modify_ptable, if_neg hi] at hblock
    exact Kept.of_state hblock.state hblock.pid hblock.parent
  · have hblock := hkin.block d
    simp only [modify_ptable, if_true] at hblock
    exact ⟨hblock.pid, hblock.parent, .inl hblock.state⟩

theorem served_ends (hwd : w ≠ d)
    (h : SameBlocks { served s w d with mem := mem } s') : OneEnds s s' d := by
  have hkin := h.alike
  refine ⟨fun i hi => ?_, ?_, hkin.initPcb⟩
  · have hblock : Alike ((served s w d).ptable i) (s'.ptable i) := hkin.block i
    rw [served_ptable hwd, if_neg hi] at hblock
    split_ifs at hblock with hiw
    · rw [hiw] at hblock ⊢
      exact ⟨hblock.pid, hblock.parent, .inr (.inl hblock.state)⟩
    · exact Kept.of_state hblock.state hblock.pid hblock.parent
  · have hblock : Alike ((served s w d).ptable d) (s'.ptable d) := hkin.block d
    rw [served_ptable hwd, if_pos rfl] at hblock
    exact ⟨hblock.pid, hblock.parent, .inl hblock.state⟩

theorem passToInit_ends (hzr : z ≠ r) (h : passToInit ops s r z = some s') : OneEnds s s' z := by
  rcases passToInit_cases hzr h with ⟨-, -, hblocks⟩ | ⟨-, hblocks⟩
  · exact served_ends hzr.symm hblocks
  · exact freed_ends hblocks

theorem tellParent_ends (hpv : p ≠ v) (h : tellParent ops s p v = some s') : OneEnds s s' v := by
  rcases tellParent_cases hpv h with ⟨-, -, hblocks⟩ | ⟨-, hblocks⟩
  · exact served_ends hpv hblocks
  · have hkin := hblocks.alike
    refine ⟨fun i hi => ?_, ?_, hkin.initPcb⟩
    · have hblock := hkin.block i
      rw [modify_ptable_of_ne _ _ hi] at hblock
      exact Kept.of_state hblock.state hblock.pid hblock.parent
    · have hblock := hkin.block v
      rw [modify_ptable_self] at hblock
      exact ⟨hblock.pid, hblock.parent, .inr hblock.state⟩

structure Dies (s s' : State μ) (v : Slot) : Prop where
  initPcb : s'.initPcb = s.initPcb
  pid : ∀ i, (s'.ptable i).pid = (s.ptable i).pid
  parent : ∀ i, s'.parentOf i = if isChild s v i then s.initPcb else s.parentOf i
  alive : ∀ i, i ≠ v → Alive (s.ptable i) → Alive (s'.ptable i)
  state : ∀ i, (s'.ptable i).state = (s.ptable i).state ∨ Alive (s'.ptable i) ∨ i = v ∨
    (s.ptable i).state = .zombie ∧ s.parentOf i = some v

theorem Dies.of_alike (h : Dies t t' v) (hs : AllAlike s t) : Dies s t' v := by
  have hchild : ∀ i, isChild t v i = isChild s v i := by
    intro i
    unfold isChild
    rw [(hs.block i).state, (hs.block i).parent]
  refine ⟨h.initPcb.trans hs.initPcb, fun i => (h.pid i).trans (hs.block i).pid, fun i => ?_,
    fun i hi halive => h.alive i hi ?_, fun i => ?_⟩
  · rw [h.parent, hchild, hs.initPcb]
    unfold State.parentOf
    rw [(hs.block i).parent]
  · unfold Alive at halive ⊢
    rwa [(hs.block i).state]
  · have hstate := h.state i
    unfold State.parentOf at hstate ⊢
    rwa [(hs.block i).state, (hs.block i).parent] at hstate

theorem Dies.trans_framed (h : Dies s t v) (ht : Framed Kept t t') : Dies s t' v := by
  refine ⟨ht.initPcb.trans h.initPcb, fun i => (ht.block i).pid.trans (h.pid i), fun i => ?_,
    fun i hi halive => (ht.block i).alive (h.alive i hi halive), fun i => ?_⟩
  · exact (ht.block i).parent.trans (h.parent i)
  · rcases (ht.block i).state with hstate | halive
    · rw [hstate]
      rcases h.state i with hsame | halive | hdead
      · exact .inl hsame
      · exact .inr (.inl ((ht.block i).alive halive))
      · exact .inr (.inr hdead)
    · exact .inr (.inl halive)

theorem pcbZombify_dies (hloop : s.parentOf v ≠ some v)
    (hinit : ∀ r, s.initPcb = some r → (s.ptable r).state ≠ .zombie)
    (h : pcbZombify ops s v = some s') : Dies s s' v := by
  obtain ⟨-, p, t, hparent, hover, htell⟩ := pcbZombify_cases h
  have hpv : p ≠ v := fun hpv => hloop (hpv ▸ hparent)
  have hlast := tellParent_ends hpv htell
  have hadopt : ∀ i, ((adopted s v).ptable i).pid = (s.ptable i).pid ∧
      ((adopted s v).ptable i).state = (s.ptable i).state ∧
      ((adopted s v).ptable i).parent = if isChild s v i then s.initPcb else s.parentOf i := by
    intro i
    refine ⟨(adopted_state s v i).2.2.1, (adopted_state s v i).1, ?_⟩
    rw [adopted_ptable]
    split_ifs <;> rfl
  -- the blocks after the zombie child, if any, has been passed on
  have hfirst : t.initPcb = s.initPcb ∧ ∀ i, (t.ptable i).pid = (s.ptable i).pid ∧
      (t.ptable i).parent = (if isChild s v i then s.initPcb else s.parentOf i) ∧
      ((t.ptable i).state = (s.ptable i).state ∨ Alive (t.ptable i) ∨
        (s.ptable i).state = .zombie ∧ s.parentOf i = some v) := by
    rcases hover with ⟨rfl, -⟩ | ⟨r, z, hr, hz, -, hpass⟩
    · exact ⟨rfl, fun i => ⟨(hadopt i).1, (hadopt i).2.2, .inl (hadopt i).2.1⟩⟩
    · obtain ⟨hzombie, hzparent⟩ := lastZombie_spec hz
      have hzr : z ≠ r := fun hzr => hinit r hr (hzr ▸ hzombie)
      have hends := passToInit_ends hzr hpass
      refine ⟨hends.initPcb, fun i => ?_⟩
      by_cases hi : i = z
      · subst hi
        exact ⟨hends.ended.pid.trans (hadopt i).1, hends.ended.parent.trans (hadopt i).2.2,
          .inr (.inr ⟨hzombie, hzparent⟩)⟩
      · have hkept := hends.other i hi
        refine ⟨hkept.pid.trans (hadopt i).1, hkept.parent.trans (hadopt i).2.2, ?_⟩
        rcases hkept.state with hstate | halive
        · exact .inl (hstate.trans (hadopt i).2.1)
        · exact .inr (.inl halive)
  have hrest : ∀ i, (s'.ptable i).pid = (t.ptable i).pid ∧
      (s'.ptable i).parent = (t.ptable i).parent := by
    intro i
    by_cases hi : i = v
    · rw [hi]
      exact ⟨hlast.ended.pid, hlast.ended.parent⟩
    · exact ⟨(hlast.other i hi).pid, (hlast.other i hi).parent⟩
  refine ⟨hlast.initPcb.trans hfirst.1, fun i => (hrest i).1.trans (hfirst.2 i).1,
    fun i => (hrest i).2.trans (hfirst.2 i).2.1, fun i hi halive => ?_, fun i => ?_⟩
  · refine (hlast.other i hi).alive ?_
    rcases (hfirst.2 i).2.2 with hstate | hlive | ⟨hzombie, -⟩
    · unfold Alive at halive ⊢
      rwa [hstate]
    · exact hlive
    · exact absurd hzombie halive.not_zombie
  · by_cases hi : i = v
    · exact .inr (.inr (.inl hi))
    · rcases (hlast.other i hi).state with hstate | halive
      · rw [hstate]
        rcases (hfirst.2 i).2.2 with hsame | halive | hzombie
        · exact .inl hsame
        · exact .inr (.inl ((hlast.other i hi).alive halive))
        · exact .inr (.inr (.inr hzombie))
      · exact .inr (.inl halive)

theorem zombifyCall_cases (hcall : zombifyCall s op = some (t, v)) :
    ∃ c rax rdi rsi file, op = .syscall rax rdi rsi file ∧ s.currentPcb = some c ∧ AllAlike s t ∧
      (v = c ∨ killVictim (entered s c rax rdi rsi) c = some v ∧ Alive (s.ptable v)) := by
  cases op with
  | tick => exact absurd hcall (by simp [zombifyCall])
  | syscall rax rdi rsi file =>
    cases hc : s.currentPcb with
    | none =>
      unfold zombifyCall at hcall
      simp [hc] at hcall
    | some c =>
      have hentered := entered_alike s c rax rdi rsi
      have hexit : ∀ (i : Slot) (e : Pcb → Nat), AllAlike s ((entered s c rax rdi rsi).modify i
          fun p => { p with exitStatus := e p }) :=
        fun i e => hentered.trans (alike_modify fun _ => ⟨rfl, rfl, rfl⟩)
      refine ⟨c, rax, rdi, rsi, file, rfl, rfl, ?_⟩
      simp only [zombifyCall, hc] at hcall
      split_ifs at hcall
      · cases hcall
        exact ⟨hexit _ _, .inl rfl⟩
      · cases hcall
        exact ⟨hexit _ _, .inl rfl⟩
      · obtain ⟨hblocks, hwho⟩ := killCall_cases hcall
        refine ⟨(hexit v _).trans hblocks.alike, hwho.imp_right fun h => ⟨h.1, ?_⟩⟩
        have halive := h.2
        unfold Alive at halive ⊢
        rwa [(hentered.block v).state] at halive

structure Born (s s' : State μ) (c i : Slot) : Prop where
  head : (s.queues .freelist).head = some i
  other : ∀ j, j ≠ i → Kept (s.ptable j) (s'.ptable j)
  pid : (s'.ptable i).pid = s.nextPid
  block : (s'.ptable i).state = .new ∧ (s'.ptable i).parent = (s.ptable i).parent ∨
    (s'.ptable i).state = .ready ∧ (s'.ptable i).parent = some c
  initPcb : s'.initPcb = s.initPcb

theorem Born.trans_alike (h : Born s t c i) (ht : AllAlike t t') : Born s t' c i where
  head := h.head
  other j hj := kept_tame.trans (h.other j hj) (ht.framed.block j)
  pid := (ht.block i).pid.trans h.pid
  block := by
    rw [(ht.block i).state, (ht.block i).parent]
    exact h.block
  initPcb := ht.initPcb.trans h.initPcb

theorem Born.entered (h : Born (entered s c rax rdi rsi) t c i) :
    Born s t c i := by
  have hs := entered_alike s c rax rdi rsi
  refine ⟨h.head, fun j hj => kept_tame.trans (hs.framed.block j) (h.other j hj), h.pid, ?_,
    h.initPcb.trans hs.initPcb⟩
  have hblock := h.block
  rwa [(hs.block i).parent] at hblock

theorem Touched.alike (h : Touched s t) : AllAlike s t :=
  ⟨fun i => ⟨(h.kin i).state, (h.kin i).pid, (h.kin i).parent⟩, h.initPcb⟩

theorem sysFork_family {h : Handled μ} (hh : sysFork ops s c = some h) :
    ∃ code t, h = .ret code t ∧
      ((s.queues .freelist).head = none ∧ Framed Kept s t ∨ ∃ i, Born s t c i) := by
  rcases sysFork_cases hh with ⟨hnone, rfl⟩ | ⟨i, u, r, halloc, hcases⟩
  · refine ⟨_, _, rfl, .inl ⟨?_, Framed.refl kept_tame _⟩⟩
    cases hhead : (s.queues .freelist).head with
    | none => rfl
    | some i => simp [pcbAlloc, pcbQueuePop, hhead] at hnone
  · obtain ⟨hhead, hblocks⟩ := pcbAlloc_blocks halloc
    have hnew := hblocks.alike
    have hself := hnew.block i
    simp only [modify_ptable, if_true] at hself
    have hothers : ∀ {t : State μ} {f : Pcb → Pcb}, Touched (u.modify i f) t → ∀ j, j ≠ i →
        Kept (s.ptable j) (t.ptable j) := by
      intro t f ht j hj
      have hold := hnew.framed.block j
      have hlast := ht.alike.framed.block j
      simp only [modify_ptable, if_neg hj] at hold hlast
      exact kept_tame.trans hold hlast
    rcases hcases with ⟨t, rfl, ht⟩ | ⟨t, t', rfl, hsched, ht⟩
    · have hchild := ht.alike.block i
      rw [modify_ptable_self] at hchild
      exact ⟨_, t, rfl, .inr ⟨i, hhead, hothers ht, hchild.pid.trans hself.pid,
        .inl ⟨hchild.state.trans hself.state, hchild.parent.trans hself.parent⟩,
        ht.initPcb.trans hnew.initPcb⟩⟩
    · have hchild := ht.alike.block i
      have hlast := (schedule_blocks hsched).alike.block i
      rw [modify_ptable_self] at hchild hlast
      exact ⟨_, t', rfl, .inr ⟨i, hhead,
        fun j hj => kept_tame.trans (hothers ht j hj) ((schedule_framed kept_tame hsched).block j),
        hlast.pid.trans (hchild.pid.trans hself.pid), .inr ⟨hlast.state, hlast.parent.trans hchild.parent⟩,
        (schedule_blocks hsched).initPcb.trans (ht.initPcb.trans hnew.initPcb)⟩⟩

theorem blocked_framed (hf : ∀ b, (f b).state = .blocked ∧ (f b).pid = b.pid ∧
    (f b).parent = b.parent) : Framed Kept s (s.modify i f) :=
  framed_modify kept_tame ⟨(hf _).2.1, (hf _).2.2, .inr (.inr (.inr (hf _).1))⟩

theorem sysWaitpid_family {h : Handled μ} (hh : sysWaitpid ops s c = some h) :
    EndsFramed Kept s h ∨
      ∃ code t z, h = .ret code t ∧ (s.ptable z).state = .zombie ∧ OneEnds s t z := by
  unfold sysWaitpid at hh
  split at hh
  · rename_i z hz
    obtain ⟨mem, -, hh⟩ := bind_eq_some_iff.mp hh
    obtain ⟨t, hclean, rfl⟩ := map_eq_some_iff.mp hh
    have hzombie := find?_some hz
    simp only [reapable, Bool.and_eq_true, decide_eq_true_eq] at hzombie
    have hends := freed_ends (pcbCleanup_blocks hclean).2
    exact .inr ⟨_, t, z, rfl, hzombie.1.1, hends.other, hends.ended, hends.initPcb⟩
  · split at hh
    · rename_i t hins
      refine .inl (EndsFramed.of_framed kept_tame ?_ (handOver_framed kept_tame hh))
      have hblock : Framed Kept s (s.modify c fun p => { p with state := .blocked }) :=
        blocked_framed fun _ => ⟨rfl, rfl, rfl⟩
      exact hblock.trans kept_tame ((pcbQueueInsert_blocks hins).framed kept_tame)
    · cases hh

theorem sysSleep_framed {h : Handled μ} (hh : sysSleep s c = some h) : EndsFramed Kept s h := by
  unfold sysSleep at hh
  split_ifs at hh with hdur
  · exact EndsFramed.of_framed kept_tame (rax_alike (fun _ => 0) s c).framed
      (yield_framed kept_tame hh)
  · simp only at hh
    obtain ⟨⟨st, t⟩, hins, hh⟩ := bind_eq_some_iff.mp hh
    have hwake : Framed Kept s (s.modify c fun p => { p with wakeup := u64 (s.ticks + p.rdi) }) :=
      framed_modify kept_tame (Kept.of_state rfl rfl rfl)
    have hqueued := hwake.trans kept_tame ((pcbQueueInsert_blocks hins).framed kept_tame)
    have hblock : Framed Kept t (t.modify c fun p => { p with state := .blocked }) :=
      blocked_framed fun _ => ⟨rfl, rfl, rfl⟩
    cases st with
    | success =>
      exact EndsFramed.of_framed kept_tame (hqueued.trans kept_tame hblock)
        (handOver_framed kept_tame hh)
    | badParam => exact some.inj hh ▸ hqueued
    | emptyQueue => exact some.inj hh ▸ hqueued
    | notFound => exact some.inj hh ▸ hqueued
    | noPcbs => exact some.inj hh ▸ hqueued

inductive FamilyStep (s : State μ) (op : Op φ) (s' : State μ) : Prop where
  | calm (framed : Framed Kept s s')
      (full : op.number = some 2 → (s.queues .freelist).head = none)
  | birth (c i : Slot) (caller : s.currentPcb = some c) (forks : op.number = some 2)
      (born : Born s s' c i)
  | reap (z : Slot) (waits : op.number = some 1) (zombie : (s.ptable z).state = .zombie) (ends : OneEnds s s' z)
  | death (t : State μ) (v : Slot) (call : zombifyCall s op = some (t, v))
      (notInit : (s.ptable v).pid ≠ 1) (dies : Dies s s' v)

/-- Init is alive, the parents of all others are alive, all parent links lead to an end, also
those of blocks that are free, and used blocks have different ids. -/
structure Tree (s : State μ) : Prop where
  init : ∃ r, s.initPcb = some r ∧ Alive (s.ptable r) ∧ (s.ptable r).pid = 1 ∧ s.parentOf r = none
  parents : ∀ i, Present (s.ptable i) → s.initPcb ≠ some i →
    ∃ p, s.parentOf i = some p ∧ Alive (s.ptable p)
  grounded : ∀ i, Grounded s.parentOf i
  distinct : PidsDistinct s

theorem familyStep (h : Tree s) (hstep : step ops s op = some s') : FamilyStep s op s' := by
  cases op with
  | tick => exact .calm (tick_framed kept_tame hstep) (by simp [Op.number])
  | syscall rax rdi rsi file =>
    cases hcall : zombifyCall s (.syscall rax rdi rsi file) with
    | some call =>
      obtain ⟨t, v⟩ := call
      obtain ⟨-, -, -, -, -, -, -, halike, -⟩ := zombifyCall_cases hcall
      obtain ⟨t', hz, hrest⟩ := step_of_zombifyCall hcall hstep
      have hloop : t.parentOf v ≠ some v := by
        unfold State.parentOf
        rw [(halike.block v).parent]
        exact (h.grounded v).next_ne
      have hinit : ∀ r, t.initPcb = some r → (t.ptable r).state ≠ .zombie := by
        intro r hr
        obtain ⟨r', hr', halive, -⟩ := h.init
        obtain rfl : r = r' := some.inj (hr.symm.trans (halike.initPcb.trans hr'))
        rw [(halike.block r).state]
        exact halive.not_zombie
      have hpid := (pcbZombify_cases hz).1
      rw [(halike.block v).pid] at hpid
      refine .death t v hcall hpid (((pcbZombify_dies hloop hinit hz).of_alike halike).trans_framed ?_)
      rcases hrest with hd | ⟨c, -, rfl⟩
      · exact dispatch_framed kept_tame hd
      · exact (finish_ret_alike 0 t' c).framed
    | none =>
      cases hc : s.currentPcb with
      | none =>
        simp only [step, hc] at hstep
        cases hstep
      | some c =>
        have hentered := (entered_alike s c rax rdi rsi).framed
        have hcalm : ∀ {hd : Handled μ}, u64 rax ≠ 2 →
            EndsFramed Kept (entered s c rax rdi rsi) hd →
            FamilyStep s (Op.syscall rax rdi rsi file) (finish c hd) :=
          fun hnum hends => .calm (hentered.trans kept_tame (finish_framed hends))
            fun htwo => absurd (some.inj htwo) hnum
        simp only [zombifyCall, hc] at hcall
        rw [step_syscall_eq hc] at hstep
        split_ifs at hcall hstep with hbad hexit hkill
        · obtain ⟨hd, hh, rfl⟩ := map_eq_some_iff.mp hstep
          rw [hkill] at hh
          exact hcalm (by omega) (sysKill_framed kept_tame hcall hh)
        · obtain ⟨hd, hh, rfl⟩ := map_eq_some_iff.mp hstep
          by_cases hone : u64 rax = 1
          · rw [hone] at hh
            rcases sysWaitpid_family hh with hends | ⟨code, t, z, rfl, hzombie, hends⟩
            · exact hcalm (by omega) hends
            · have hlast := (finish_ret_alike code t c).framed
              refine .reap z (congrArg some hone) ?_ ⟨fun i hi => ?_, ⟨?_, ?_, ?_⟩, ?_⟩
              · rwa [((entered_alike s c rax rdi rsi).block z).state] at hzombie
              · exact kept_tame.trans (hentered.block i)
                  (kept_tame.trans (hends.other i hi) (hlast.block i))
              · exact (hlast.block z).pid.trans (hends.ended.pid.trans (hentered.block z).pid)
              · exact (hlast.block z).parent.trans
                  (hends.ended.parent.trans (hentered.block z).parent)
              · rw [((finish_ret_alike code t c).block z).state]
                exact hends.ended.state
              · exact hlast.initPcb.trans (hends.initPcb.trans hentered.initPcb)
          · by_cases htwo : u64 rax = 2
            · rw [htwo] at hh
              obtain ⟨code, t, rfl, hborn⟩ := sysFork_family hh
              rcases hborn with ⟨hempty, hframed⟩ | ⟨i, hborn⟩
              · exact .calm (hentered.trans kept_tame (hframed.trans kept_tame
                  (finish_ret_alike code t c).framed)) fun _ => hempty
              · refine .birth c i hc (congrArg some htwo) ?_
                exact hborn.entered.trans_alike (finish_ret_alike code t c)
            · by_cases hsleep : u64 rax = 14
              · rw [hsleep] at hh
                exact hcalm htwo (sysSleep_framed hh)
              · exact hcalm htwo (handler_framed kept_tame hexit hone htwo hkill hsleep hh)

theorem Tree.pass (h : Tree s) (hinit : s'.initPcb = s.initPcb)
    (hpid : ∀ i, (s'.ptable i).pid = (s.ptable i).pid)
    (hlink : ∀ i, s'.parentOf i = s.parentOf i ∨ s'.parentOf i = s.initPcb)
    (hroot : ∀ r, s.initPcb = some r → Alive (s'.ptable r) ∧ s'.parentOf r = none)
    (hused : ∀ i, Used (s'.ptable i) → Used (s.ptable i))
    (hpresent : ∀ i, Present (s'.ptable i) → Present (s.ptable i))
    (hparent : ∀ i p, Present (s.ptable i) → s.parentOf i = some p → Alive (s.ptable p) →
      s'.parentOf i = s.initPcb ∨ s'.parentOf i = some p ∧ Alive (s'.ptable p)) : Tree s' := by
  obtain ⟨r, hr, -, hone, -⟩ := h.init
  obtain ⟨hralive, hrparent⟩ := hroot r hr
  refine ⟨⟨r, hinit.trans hr, hralive, (hpid r).trans hone, hrparent⟩, fun i hi hne => ?_,
    fun i => ?_, fun i j hi hj hsame => ?_⟩
  · obtain ⟨p, hp, halive⟩ := h.parents i (hpresent i hi) (hinit ▸ hne)
    rcases hparent i p (hpresent i hi) hp halive with hadopted | hkept
    · exact ⟨r, hadopted.trans hr, hralive⟩
    · exact ⟨p, hkept⟩
  · refine (h.grounded i).of_links fun y => (hlink y).imp_right fun hy z hz => ?_
    obtain rfl : r = z := some.inj (hr.symm.trans (hy.symm.trans hz))
    exact grounded_of_none hrparent
  · rw [hpid, hpid] at hsame
    exact h.distinct i j (hused i hi) (hused j hj) hsame

theorem present_of_state (hstate : b'.state = b.state ∨ Alive b')
    (hres : Alive b' → Present b) (h : Present b') : Present b := by
  rcases h with halive | hzombie
  · exact hres halive
  · rcases hstate with hsame | halive
    · exact .inr (hsame.symm.trans hzombie)
    · exact absurd hzombie halive.not_zombie

theorem used_of_state (hstate : b'.state = b.state ∨ Alive b')
    (hres : Alive b' → Present b) (h : Used b') : Used b := by
  rcases hstate with hsame | halive
  · unfold Used at h ⊢
    rwa [← hsame]
  · exact (hres halive).not_unused

section Keep

variable (h : Tree s) (hres : ∀ i, Alive (s'.ptable i) → Present (s.ptable i))
include h hres

theorem Tree.calm (hf : Framed Kept s s') : Tree s' := by
  refine h.pass hf.initPcb (fun i => (hf.block i).pid) (fun i => .inl (hf.block i).parent)
    (fun r hr => ?_) (fun i => used_of_state (hf.block i).state (hres i))
    (fun i => present_of_state (hf.block i).state (hres i))
    fun i p _ hp halive => .inr ⟨(hf.block i).parent.trans hp, (hf.block p).alive halive⟩
  obtain ⟨r', hr', halive, -, hparent⟩ := h.init
  cases hr.symm.trans hr'
  exact ⟨(hf.block r).alive halive, (hf.block r).parent.trans hparent⟩

theorem Tree.reap (hz : (s.ptable z).state = .zombie) (he : OneEnds s s' z) : Tree s' := by
  have hne : ∀ i, Alive (s.ptable i) → i ≠ z := by
    rintro i halive rfl
    exact halive.not_zombie hz
  have hparent : ∀ i, s'.parentOf i = s.parentOf i := by
    intro i
    by_cases hi : i = z
    · rw [hi]
      exact he.ended.parent
    · exact (he.other i hi).parent
  refine h.pass he.initPcb (fun i => ?_) (fun i => .inl (hparent i)) (fun r hr => ?_) (fun i hi => ?_)
    (fun i hi => ?_) fun i p _ hp halive =>
      .inr ⟨(hparent i).trans hp, (he.other p (hne p halive)).alive halive⟩
  · by_cases hi : i = z
    · rw [hi]
      exact he.ended.pid
    · exact (he.other i hi).pid
  · obtain ⟨r', hr', halive, -, hroot⟩ := h.init
    cases hr.symm.trans hr'
    exact ⟨(he.other r (hne r halive)).alive halive, (hparent r).trans hroot⟩
  · by_cases hiz : i = z
    · rw [hiz, Used, hz]
      simp
    · exact used_of_state (he.other i hiz).state (hres i) hi
  · by_cases hiz : i = z
    · rw [hiz]
      exact .inr hz
    · exact present_of_state (he.other i hiz).state (hres i) hi

theorem Tree.death (hv : Alive (s.ptable v)) (hinit : s.initPcb ≠ some v) (hd : Dies s s' v) :
    Tree s' := by
  have hstate : ∀ i, ((s'.ptable i).state = (s.ptable i).state ∨ Alive (s'.ptable i)) ∨
      Present (s.ptable i) := by
    intro i
    rcases hd.state i with hsame | halive | rfl | ⟨hzombie, -⟩
    · exact .inl (.inl hsame)
    · exact .inl (.inr halive)
    · exact .inr (.inl hv)
    · exact .inr (.inr hzombie)
  refine h.pass hd.initPcb hd.pid (fun i => ?_) (fun r hr => ?_) (fun i hi => ?_) (fun i hi => ?_)
    fun i p hi hp halive => ?_
  · rw [hd.parent]
    split_ifs
    · exact .inr rfl
    · exact .inl rfl
  · obtain ⟨r', hr', halive, -, hroot⟩ := h.init
    cases hr.symm.trans hr'
    have hrv : r ≠ v := fun hrv => hinit (hrv ▸ hr)
    refine ⟨hd.alive r hrv halive, ?_⟩
    rw [hd.parent, if_neg]
    · exact hroot
    · unfold State.parentOf at hroot
      simp [isChild, hroot]
  · rcases hstate i with hkeep | hpresent
    · exact used_of_state hkeep (hres i) hi
    · exact hpresent.not_unused
  · rcases hstate i with hkeep | hpresent
    · exact present_of_state hkeep (hres i) hi
    · exact hpresent
  · rw [hd.parent]
    by_cases hpv : p = v
    · subst hpv
      unfold State.parentOf at hp
      exact .inl (if_pos (by simp [isChild, hp, hi.not_unused]))
    · right
      unfold State.parentOf at hp ⊢
      rw [if_neg (by simp [isChild, hp, hpv])]
      exact ⟨hp, hd.alive p hpv halive⟩

end Keep

theorem Tree.ancestors (h : Tree s) (hi : Present (s.ptable i))
    (hseg : Seg s.parentOf (some i) xs none) : ∀ j ∈ xs, Present (s.ptable j) := by
  induction xs generalizing i with
  | nil => cases hseg
  | cons x xs ih =>
    obtain rfl : i = x := some.inj hseg.1
    rintro j (_ | ⟨_, hj⟩)
    · exact hi
    · by_cases hinit : s.initPcb = some i
      · obtain ⟨r, hr, -, -, hroot⟩ := h.init
        obtain rfl : r = i := some.inj (hr.symm.trans hinit)
        have hnil := hseg.2
        rw [hroot] at hnil
        cases xs with
        | nil => exact absurd hj not_mem_nil
        | cons y xs => exact absurd hnil.1.symm (some_ne_none y)
      · obtain ⟨p, hp, halive⟩ := h.parents i hi hinit
        exact ih (.inl halive) (hp ▸ hseg.2) j hj

theorem Tree.birth (h : Tree s) (hc : Alive (s.ptable c)) (hunused : (s.ptable i).state = .unused)
    (hfresh : ∀ j, j ≠ i → Used (s.ptable j) → (s.ptable j).pid ≠ s.nextPid)
    (hres : ∀ j, j ≠ i → Alive (s'.ptable j) → Present (s.ptable j)) (hb : Born s s' c i) :
    Tree s' := by
  have hne : ∀ j, Present (s.ptable j) → j ≠ i := by
    rintro j hj rfl
    exact hj.not_unused hunused
  have hci := hne c (.inl hc)
  obtain ⟨r, hr, hralive, hone, hroot⟩ := h.init
  have hri := hne r (.inl hralive)
  have hparent : ∀ j, j ≠ i → s'.parentOf j = s.parentOf j := fun j hj => (hb.other j hj).parent
  have hused : ∀ j, j ≠ i → Used (s'.ptable j) → Used (s.ptable j) :=
    fun j hj => used_of_state (hb.other j hj).state (hres j hj)
  have hdiff : ∀ j, j ≠ i → Used (s'.ptable j) → (s'.ptable j).pid ≠ (s'.ptable i).pid := by
    intro j hj huse
    rw [(hb.other j hj).pid, hb.pid]
    exact hfresh j hj (hused j hj huse)
  refine ⟨⟨r, hb.initPcb.trans hr, (hb.other r hri).alive hralive, (hb.other r hri).pid.trans hone,
    (hparent r hri).trans hroot⟩, fun j hj hinit => ?_, fun j => ?_, fun j k hj hk hsame => ?_⟩
  · by_cases hji : j = i
    · subst hji
      rcases hb.block with ⟨hnew, -⟩ | ⟨-, hborn⟩
      · rcases hj with halive | hzombie
        · rcases halive with hst | hst | hst <;> cases hnew.symm.trans hst
        · cases hnew.symm.trans hzombie
      · exact ⟨c, hborn, (hb.other c hci).alive hc⟩
    · have hold := present_of_state (hb.other j hji).state (hres j hji) hj
      obtain ⟨p, hp, halive⟩ := h.parents j hold (hb.initPcb ▸ hinit)
      exact ⟨p, (hparent j hji).trans hp, (hb.other p (hne p (.inl halive))).alive halive⟩
  · -- the way up from the parent does not meet the new block
    have hup : Grounded s'.parentOf c := by
      obtain ⟨xs, hxs⟩ := h.grounded c
      refine ⟨xs, hxs.congr fun x hx => hparent x ?_⟩
      exact hne x (h.ancestors (.inl hc) hxs x hx)
    refine (h.grounded j).of_links fun y => ?_
    by_cases hyi : y = i
    · subst hyi
      rcases hb.block with ⟨-, hold⟩ | ⟨-, hborn⟩
      · exact .inl hold
      · right
        intro z hz
        cases hborn.symm.trans hz
        exact hup
    · exact .inl (hparent y hyi)
  · by_cases hji : j = i
    · by_contra hjk
      subst hji
      exact hdiff k (Ne.symm hjk) hk hsame.symm
    · by_cases hki : k = i
      · subst hki
        exact absurd hsame (hdiff j hji hj)
      · rw [(hb.other j hji).pid, (hb.other k hki).pid] at hsame
        exact h.distinct j k (hused j hji hj) (hused k hki hk) hsame

/-- The condition on a step. `fork` takes an `UNUSED` block and a number that no other used
block has; the caller is running; and no block that is free, or left over from a failed
`fork`, is woken or dispatched. -/
structure Orderly (ops : MemOps μ φ) (s : State μ) (op : Op φ) : Prop where
  unused : op.number = some 2 → ∀ i, (s.queues .freelist).head = some i →
    (s.ptable i).state = .unused
  fresh : op.number = some 2 → ∀ i j, (s.queues .freelist).head = some i → j ≠ i →
    Used (s.ptable j) → (s.ptable j).pid ≠ s.nextPid
  running : ∀ c, s.currentPcb = some c → (s.ptable c).state = .running
  resumes : ∀ s', step ops s op = some s' → ∀ i, Alive (s'.ptable i) →
    Present (s.ptable i) ∨ op.number = some 2 ∧ (s.queues .freelist).head = some i

theorem Tree.not_init (h : Tree s) (hpid : (s.ptable v).pid ≠ 1) : s.initPcb ≠ some v := by
  intro hv
  obtain ⟨r, hr, -, hone, -⟩ := h.init
  cases hr.symm.trans hv
  exact hpid hone

theorem Orderly.victim_alive (ho : Orderly ops s op) (hcall : zombifyCall s op = some (t, v)) :
    Alive (s.ptable v) := by
  obtain ⟨c, rax, rdi, rsi, file, -, hc, -, hwho⟩ := zombifyCall_cases hcall
  rcases hwho with rfl | ⟨-, halive⟩
  · exact .inr (.inl (ho.running v hc))
  · exact halive

theorem zombifyCall_number (hcall : zombifyCall s op = some (t, v)) : op.number ≠ some 2 := by
  obtain ⟨c, rax, rdi, rsi, file, rfl, hc, -⟩ := zombifyCall_cases hcall
  intro htwo
  have hnum : u64 rax = 2 := some.inj htwo
  simp only [zombifyCall, hc, hnum] at hcall
  cases hcall

theorem Tree.step (h : Tree s) (ho : Orderly ops s op) (hstep : step ops s op = some s') :
    Tree s' := by
  have hres := ho.resumes s' hstep
  have hnofork : ∀ i, (op.number = some 2 → (s.queues .freelist).head = none) →
      Alive (s'.ptable i) → Present (s.ptable i) := by
    intro i hfork halive
    refine (hres i halive).resolve_right ?_
    rintro ⟨htwo, hhead⟩
    exact absurd ((hfork htwo).symm.trans hhead) (by simp)
  rcases familyStep h hstep with ⟨hframed, hfull⟩ | ⟨c, i, hc, htwo, hborn⟩ |
    ⟨z, hone, hzombie, hends⟩ | ⟨t, v, hcall, hpid, hdies⟩
  · exact h.calm (fun i => hnofork i hfull) hframed
  · refine h.birth (.inr (.inl (ho.running c hc))) (ho.unused htwo i hborn.head)
      (fun j => ho.fresh htwo i j hborn.head) (fun j hj halive => ?_) hborn
    refine (hres j halive).resolve_right fun hhead => hj ?_
    exact some.inj (hhead.2.symm.trans hborn.head)
  · refine h.reap (fun i => hnofork i fun htwo => ?_) hzombie hends
    cases hone.symm.trans htwo
  · exact h.death (fun i => hnofork i fun htwo => absurd htwo (zombifyCall_number hcall))
      (ho.victim_alive hcall) (h.not_init hpid) hdies

theorem bootProcs_tree {file : φ} (hboot : bootProcs ops file mem = some s) : Tree s := by
  obtain ⟨r, u, hd, -, hinit, -, hfirst, hrest⟩ := bootProcs_loaded hboot
  obtain ⟨r', hinit', -, -, -, hother⟩ := bootProcs_only hboot
  have hframed := dispatch_framed kept_tame hd
  obtain rfl : r = r' := some.inj (hinit.symm.trans (hframed.initPcb.symm.trans hinit'))
  have hnone : ∀ i, s.parentOf i = none := by
    intro i
    refine (hframed.block i).parent.trans ?_
    by_cases hi : i = r
    · rw [hi]
      exact hfirst.parent
    · exact (hrest i hi).parent
  refine ⟨⟨r, hinit', (hframed.block r).alive (.inl hfirst.state),
    (hframed.block r).pid.trans hfirst.pid, hnone r⟩, fun i hi hne => ?_,
    fun i => grounded_of_none (hnone i), (bootProcs_pidsGood hboot).distinct⟩
  have hir : i ≠ r := fun hir => hne (hir ▸ hinit')
  exact absurd (hother i hir) hi.not_unused

def Descends (s : State μ) (i c : Slot) : Prop := ∃ xs, Seg s.parentOf (some i) xs (some c)

theorem Descends.child (h : Descends s i c) (hj : s.parentOf j = some i) : Descends s j c := by
  obtain ⟨xs, hxs⟩ := h
  exact ⟨j :: xs, rfl, hj ▸ hxs⟩

theorem Tree.reaches_init (h : Tree s) (hr : s.initPcb = some r) (hi : Present (s.ptable i)) :
    Descends s i r := by
  obtain ⟨xs, hxs⟩ := h.grounded i
  induction xs generalizing i with
  | nil => cases hxs
  | cons x xs ih =>
    obtain rfl : i = x := some.inj hxs.1
    by_cases hinit : s.initPcb = some i
    · obtain rfl : r = i := some.inj (hr.symm.trans hinit)
      exact ⟨[], rfl⟩
    · obtain ⟨p, hp, halive⟩ := h.parents i hi hinit
      exact (ih (.inl halive) (hp ▸ hxs.2)).child hp

theorem findOwner_eq {pid fuel : Nat} {q : Option Slot} (hseg : Seg s.parentOf q xs none) (hfuel : xs.length < fuel) :
    findOwner s pid fuel q = some (xs.find? fun i => decide ((s.ptable i).pid = pid)) := by
  induction xs generalizing q fuel with
  | nil =>
    obtain ⟨fuel, rfl⟩ := Nat.exists_eq_succ_of_ne_zero (Nat.ne_of_gt hfuel)
    rw [show q = none from hseg]
    rfl
  | cons x xs ih =>
    obtain ⟨fuel, rfl⟩ := Nat.exists_eq_succ_of_ne_zero (Nat.ne_of_gt (Nat.lt_of_le_of_lt (Nat.zero_le _) hfuel))
    rw [hseg.1]
    unfold findOwner
    by_cases hx : (s.ptable x).pid = pid
    · rw [if_pos hx, find?_cons_of_pos (by simpa using hx)]
    · rw [if_neg hx, find?_cons_of_neg (by simpa using hx)]
      exact ih hseg.2 (by simpa using hfuel)

theorem findOwner_alike (h : AllAlike s t) (pid fuel : Nat) (q : Option Slot) :
    findOwner t pid fuel q = findOwner s pid fuel q := by
  induction fuel generalizing q with
  | zero => rfl
  | succ fuel ih =>
    cases q with
    | none => rfl
    | some i =>
      unfold findOwner
      rw [(h.block i).pid, (h.block i).parent, ih]

theorem Tree.findOwner_terminates (h : Tree s) (pid : Nat) (v : Slot) :
    ∃ xs, Seg s.parentOf (some v) xs none ∧ findOwner s pid walkFuel (some v) =
      some (xs.find? fun i => decide ((s.ptable i).pid = pid)) := by
  obtain ⟨xs, hxs⟩ := h.grounded v
  have hshort : xs.length ≤ 256 := by
    simpa using hxs.nodup.length_le_card
  exact ⟨xs, hxs, findOwner_eq hxs (Nat.lt_succ_of_le hshort)⟩

theorem Tree.victim_descends (h : Tree s) (hc : Used (s.ptable c))
    (hvictim : killVictim (entered s c rax rdi rsi) c = some v) (hv : Alive (s.ptable v)) :
    Descends s v c := by
  have halike := entered_alike s c rax rdi rsi
  obtain ⟨-, o, hfound⟩ := killVictim_eq_some hvictim
  rw [findOwner_alike halike, (halike.block c).pid] at hfound
  obtain ⟨xs, hxs, heq⟩ := h.findOwner_terminates (s.ptable c).pid v
  have ho := some.inj (heq.symm.trans hfound)
  have hmem := mem_of_find?_eq_some ho
  have hpid : (s.ptable o).pid = (s.ptable c).pid := by simpa using find?_some ho
  have hused := (h.ancestors (.inl hv) hxs o hmem).not_unused
  obtain rfl : o = c := h.distinct o c hused hc hpid
  exact hxs.mem_iff.mp hmem

def Terminated (s s' : State μ) (i : Slot) : Prop :=
  (s'.ptable i).state = .zombie ∧ (s.ptable i).state ≠ .zombie ∨
    (s'.ptable i).state = .unused ∧ (s.ptable i).state ≠ .unused

theorem Terminated.changed (h : Terminated s s' i) :
    ¬ ((s'.ptable i).state = (s.ptable i).state ∨ Alive (s'.ptable i)) := by
  rintro (hsame | halive)
  · rcases h with ⟨hz, hnot⟩ | ⟨hu, hnot⟩
    · exact hnot (hsame.symm.trans hz)
    · exact hnot (hsame.symm.trans hu)
  · rcases h with ⟨hz, -⟩ | ⟨hu, -⟩
    · exact halive.not_zombie hz
    · exact halive.not_unused hu

theorem Tree.kill (h : Tree s) (ho : Orderly ops s op) (hkill : op.number = some 13)
    (hstep : Procs.step ops s op = some s') (hi : Terminated s s' i) :
    ∃ c, s.currentPcb = some c ∧ Descends s i c := by
  rcases familyStep h hstep with ⟨hframed, -⟩ | ⟨-, -, -, htwo, -⟩ | ⟨-, hone, -⟩ |
    ⟨t, v, hcall, -, hdies⟩
  · exact absurd (hframed.block i).state hi.changed
  · cases hkill.symm.trans htwo
  · cases hkill.symm.trans hone
  · obtain ⟨c, rax, rdi, rsi, file, rfl, hc, -, hwho⟩ := zombifyCall_cases hcall
    have hrun := ho.running c hc
    have hv : Descends s v c := by
      rcases hwho with rfl | ⟨hvictim, halive⟩
      · exact ⟨[], rfl⟩
      · exact h.victim_descends (by simp [Used, hrun]) hvictim halive
    refine ⟨c, hc, ?_⟩
    rcases hdies.state i with hsame | halive | rfl | ⟨-, hparent⟩
    · exact absurd (.inl hsame) hi.changed
    · exact absurd (.inr halive) hi.changed
    · exact hv
    · exact hv.child hparent

structure IsTree (s : State μ) : Prop where
  parents : ∀ i, Present (s.ptable i) → s.initPcb ≠ some i → ∃ p, (s.ptable i).parent = some p ∧
    (s.ptable p).state ≠ .unused ∧ (s.ptable p).state ≠ .zombie
  reaches : ∀ i, Present (s.ptable i) → ∃ r, s.initPcb = some r ∧ Descends s i r

theorem Tree.isTree (h : Tree s) : IsTree s where
  parents i hi hne := by
    obtain ⟨p, hp, halive⟩ := h.parents i hi hne
    exact ⟨p, hp, halive.not_unused, halive.not_zombie⟩
  reaches i hi := by
    obtain ⟨r, hr, -⟩ := h.init
    exact ⟨r, hr, h.reaches_init hr hi⟩

instance (s : State μ) (i : Slot) : Decidable (Present (s.ptable i)) :=
  inferInstanceAs (Decidable (_ ∨ _))

theorem orderly_iff : Orderly ops s op ↔
    (op.number = some 2 → ∀ i ∈ (s.queues .freelist).head, (s.ptable i).state = .unused ∧
      ∀ j, j ≠ i → Used (s.ptable j) → (s.ptable j).pid ≠ s.nextPid) ∧
    (∀ c ∈ s.currentPcb, (s.ptable c).state = .running) ∧
    ∀ s' ∈ step ops s op, ∀ i, Alive (s'.ptable i) →
      Present (s.ptable i) ∨ op.number = some 2 ∧ (s.queues .freelist).head = some i := by
  constructor
  · intro h
    exact ⟨fun htwo i hi => ⟨h.unused htwo i hi, fun j => h.fresh htwo i j hi⟩, h.running, h.resumes⟩
  · rintro ⟨hfork, hrun, hres⟩
    exact ⟨fun htwo i hi => (hfork htwo i hi).1, fun htwo i j hi => (hfork htwo i hi).2 j, hrun, hres⟩

instance (s : State μ) (op : Op φ) : Decidable (Orderly ops s op) :=
  decidable_of_iff _ orderly_iff.symm

end Comus.Procs
