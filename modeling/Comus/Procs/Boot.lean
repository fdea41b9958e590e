import Comus.Procs.Blocks
import Comus.Procs.Handlers

/-!
# The first process

`pcb_init` puts all slots on the free list, in table order, and `load_init` takes
the first of them for init.
-/

namespace Comus.Procs

open Chain Word Option List Function

variable {μ φ : Type} {ops : MemOps μ φ} {s : State μ}

def inFreelist (done : List Slot) (i : Slot) : Option QueueId :=
  if i ∈ done then some .freelist else none

theorem pcbFreeAll_eq (xs done : List Slot) (hnodup : (done ++ xs).Nodup)
    (h : Linked s (inFreelist done)) (hunused : ∀ i, (s.ptable i).state = .unused) :
    ∃ s', pcbFreeAll xs s = some s' ∧ Linked s' (inFreelist (done ++ xs)) ∧ SameBlocks s s' := by
  induction xs generalizing s done with
  | nil => exact ⟨s, rfl, by simpa using h, SameBlocks.refl s⟩
  | cons x xs ih =>
    have hx : inFreelist done x = none :=
      if_neg fun hx => (disjoint_of_nodup_append hnodup) hx mem_cons_self
    obtain ⟨t, hfree, hlinked, hsame⟩ := pcbFree_eq h hx
    have hblocks : SameBlocks s t := by
      refine ⟨fun j => (hsame.block j).trans ?_, hsame.currentPcb, hsame.initPcb, hsame.nextPid,
        hsame.ticks, hsame.mem⟩
      rw [modify_ptable]
      split_ifs with hj
      · rw [hj]
        unfold Pcb.unlinked
        rw [← hunused x]
      · rfl
    have hloc : update (inFreelist done) x (some .freelist) = inFreelist (done ++ [x]) := by
      funext j
      rw [update_apply]
      unfold inFreelist
      by_cases hj : j = x <;> simp [hj]
    rw [hloc] at hlinked
    obtain ⟨u, hrest, hlinked', hsame'⟩ := ih (done ++ [x]) (by simpa using hnodup) hlinked
      fun i => (hblocks.kin i).state.trans (hunused i)
    refine ⟨u, ?_, by simpa using hlinked', hblocks.trans hsame'⟩
    rw [pcbFreeAll, hfree, bind_some, hrest]

theorem pcbInit_spec (mem : μ) :
    ∃ s, pcbInit (statics mem) = some s ∧ Linked s s.home ∧ s.nextPid = 1 ∧
      ∀ i, SameKin (s.ptable i) zeroPcb := by
  have hempty : Linked { statics mem with
      currentPcb := none, queues := fun q => ⟨none, none, initialOrder q⟩ } (inFreelist []) :=
    ⟨⟨fun _ => [], fun _ => IsQueue.empty _, fun i q => by simp [inFreelist]⟩, fun i _ => rfl⟩
  have hnodup : ([] ++ finRange 256).Nodup := by
    rw [nil_append]
    exact nodup_finRange 256
  obtain ⟨s, hs, hlinked, hsame⟩ := pcbFreeAll_eq _ [] hnodup hempty fun _ => rfl
  have hkin : ∀ i, SameKin (s.ptable i) zeroPcb := hsame.kin
  refine ⟨s, hs, ?_, hsame.nextPid, hkin⟩
  have hhome : inFreelist ([] ++ finRange 256) = s.home := by
    funext i
    rw [State.home, (hkin i).home, nil_append, inFreelist, if_pos (mem_finRange i)]
    rfl
  rwa [hhome] at hlinked

theorem Kin.first {r : Slot} (hinit : s.initPcb = some r) (hstate : (s.ptable r).state = .ready)
    (hpid : (s.ptable r).pid = 1) (hparent : (s.ptable r).parent = none)
    (hsys : (s.ptable r).syscall = 0)
    (hother : ∀ j, j ≠ r → (s.ptable j).state = .unused) : Kin s none := by
  have honly : ∀ j, (s.ptable j).state ≠ .unused → j = r := fun j hj => by
    by_contra hjr
    exact hj (hother j hjr)
  refine ⟨⟨r, hinit, .inl hstate, hpid, hparent⟩, fun i hi hne => ?_, fun i hi => ?_,
    fun i hi => ?_, fun i => ?_⟩
  · exact absurd (honly i hi.not_unused ▸ hinit) hne
  · rw [honly i (by simp [hi]), hstate] at hi
    cases hi
  · rw [honly i (by simp [hi])]
    exact hsys
  · constructor
    · intro hi
      rw [honly i (by simp [hi]), hstate] at hi
      cases hi
    · exact fun hi => absurd hi (by simp)

theorem bootProcs_loaded {file : φ} {mem : μ} (hboot : bootProcs ops file mem = some s) :
    ∃ r u, dispatch u = some s ∧ Core u [] none ∧ u.initPcb = some r ∧ u.nextPid = 2 ∧
      SameKin (u.ptable r) { zeroPcb with pid := 1, state := .ready } ∧
      ∀ j, j ≠ r → SameKin (u.ptable j) zeroPcb := by
  obtain ⟨s0, hinit, hlinked, hpid, hzero⟩ := pcbInit_spec mem
  rw [bootProcs, hinit, bind_some] at hboot
  unfold loadInit at hboot
  cases halloc : pcbAlloc s0 with
  | none =>
    rw [halloc] at hboot
    cases hboot
  | some found =>
    obtain ⟨r, s1⟩ := found
    simp only [halloc] at hboot
    obtain ⟨-, hlinked1, -, hother, hself⟩ := pcbAlloc_spec hlinked halloc
    obtain ⟨⟨image, mem'⟩, -, hboot⟩ := bind_eq_some_iff.mp hboot
    cases image with
    | none => cases hboot
    | some image =>
      obtain ⟨s2, hsched, hd⟩ := bind_eq_some_iff.mp hboot
      have hloaded : Harmless (Pcb.load image) := fun _ => ⟨⟨rfl, rfl, rfl, rfl⟩, rfl⟩
      have hkin := hloaded.kin { s1 with initPcb := some r, mem := mem' } r
      have hset : Linked { s1 with initPcb := some r, mem := mem' } s1.home :=
        hlinked1.congr rfl rfl
      have hlink := hset.modify (i := r) fun p => (hloaded p).2
      have hnew1 : (s1.ptable r).state = .new := hself.state
      have hnew := (hkin r).state.trans hnew1
      obtain ⟨u, hu, hlinked2, hsame⟩ := schedule_eq hlink
        (i := r) (by simp [State.home, home, hnew1]) (by rw [hnew]; simp) (by rw [hnew]; simp)
      obtain rfl : u = s2 := some.inj (hu.symm.trans hsched)
      have hself2 := kin_self_of_modify hsame
      have hother2 : ∀ j, j ≠ r → SameKin (u.ptable j) (s1.ptable j) :=
        fun j hj => (kin_of_modify hsame hj).trans (hkin j)
      have hfirst : SameKin (u.ptable r) { zeroPcb with pid := 1, state := .ready } :=
        ⟨hself2.state, hself2.syscall, hself2.parent.trans
          ((hkin r).parent.trans (hself.parent.trans (hzero r).parent)),
          hself2.pid.trans ((hkin r).pid.trans (hself.pid.trans hpid))⟩
      have hrest : ∀ j, j ≠ r → SameKin (u.ptable j) zeroPcb :=
        fun j hj => (hother2 j hj).trans ((hother j hj).trans (hzero j))
      refine ⟨r, u, hd, ⟨?_, Kin.first hsame.initPcb hfirst.state hfirst.pid hfirst.parent
        hfirst.syscall fun j hj => (hrest j hj).state⟩, hsame.initPcb, ?_, hfirst, hrest⟩
      · have hhome : update s1.home r (some .ready) = u.homeBut [] := by
          funext j
          rw [homeBut_nil, update_apply]
          split_ifs with hj
          · rw [hj, State.home, hself2.home]
            rfl
          · exact (hother2 j hj).home.symm
        rwa [hhome] at hlinked2
      · have hnext : u.nextPid = s1.nextPid := hsame.nextPid
        rw [hnext, (pcbAlloc_blocks halloc).2.nextPid]
        change (s0.nextPid + 1) % 2^16 = 2
        omega

theorem bootProcs_inv {file : φ} {mem : μ} (hboot : bootProcs ops file mem = some s) : Inv s := by
  obtain ⟨r, u, hd, hcore, -⟩ := bootProcs_loaded hboot
  exact hcore.dispatch hd

def freedTable (mem : μ) (k : Nat) : State μ where
  ptable := fun i =>
    { zeroPcb with next := if h : i.1 + 1 < 256 ∧ i.1 + 1 < k then some ⟨i.1 + 1, h.1⟩ else none }
  queues := fun q =>
    if q = .freelist then
      ⟨if 0 < k then some 0 else none, if h : 0 < k ∧ k ≤ 256 then some ⟨k - 1, pred_lt_slots h⟩ else none,
        .fifo⟩
    else ⟨none, none, initialOrder q⟩
  currentPcb := none
  initPcb := none
  nextPid := 1
  ticks := 0
  mem := mem

theorem State.eq_of (s s' : State μ) (hptable : ∀ i, s.ptable i = s'.ptable i)
    (hqueues : ∀ q, s.queues q = s'.queues q)
    (hrest : (s.currentPcb, s.initPcb, s.nextPid, s.ticks, s.mem) =
      (s'.currentPcb, s'.initPcb, s'.nextPid, s'.ticks, s'.mem)) : s = s' := by
  cases s
  cases s'
  simp_all [funext_iff]

theorem freedTable_modify (mem : μ) (k : Nat) (i : Slot) :
    ((freedTable mem k).modify i fun p => { p with state := .unused }) = freedTable mem k := by
  refine State.eq_of _ _ (fun j => ?_) (fun _ => rfl) rfl
  rw [modify_ptable]
  split_ifs with hj
  · rw [hj]
    rfl
  · rfl

theorem pcbFree_freedTable (mem : μ) {k : Nat} (hk : k < 256) :
    pcbFree (freedTable mem k) ⟨k, hk⟩ = some (freedTable mem (k + 1)) := by
  have hnext : (freedTable mem k).next ⟨k, hk⟩ = none := by simp [State.next, freedTable]
  rw [pcbFree, freedTable_modify, pcbQueueInsert, hnext]
  rcases eq_zero_or_pos k with rfl | hpos
  · -- the first slot becomes head and tail
    rw [if_neg (by simp), if_pos (by simp [freedTable])]
    refine congrArg some (State.eq_of _ _ (fun j => ?_) (fun q => ?_) rfl)
    · have hj : ¬ j.1 + 1 < 1 := by omega
      simp [freedTable, State.setHead, State.setTail, State.modifyQueue]
    · by_cases hq : q = .freelist
      · simp [hq, freedTable]
      · simp [freedTable, hq]
  · -- any other is linked behind the last one
    have htail : ((freedTable mem k).queues .freelist).tail = some ⟨k - 1, by omega⟩ := by
      simp [freedTable, hpos, Nat.le_of_lt hk]
    have hlast : (freedTable mem k).next ⟨k - 1, by omega⟩ = none := by
      simp only [State.next, freedTable]
      rw [dif_neg (by omega)]
    rw [if_neg (by simp), if_neg (by simp [freedTable, hpos]), if_neg (by simp [htail])]
    have hprev : findPrev (freedTable mem k) .freelist ⟨k, hk⟩ = some (some ⟨k - 1, by omega⟩) := by
      rw [findPrev, show ((freedTable mem k).queues .freelist).order = .fifo from rfl, htail]
    simp only [hprev, hlast, isNone_none, if_true]
    refine congrArg some (State.eq_of _ _ (fun j => ?_) (fun q => ?_) rfl)
    · have hblock := modify_ptable (freedTable mem k) ⟨k - 1, by omega⟩ j
        fun p => { p with next := some ⟨k, hk⟩ }
      refine Eq.trans hblock ?_
      split_ifs with hj
      · have hlink : j.1 + 1 < 256 ∧ j.1 + 1 < k + 1 := by
          rw [hj]
          simp only
          omega
        simp only [freedTable, dif_pos hlink]
        simp only [hj, Nat.sub_add_cancel hpos]
      · have hne : j.1 + 1 ≠ k := fun he => hj (Fin.ext (by simp only; omega))
        have hiff : (j.1 + 1 < 256 ∧ j.1 + 1 < k) ↔ (j.1 + 1 < 256 ∧ j.1 + 1 < k + 1) := by omega
        simp only [freedTable, hiff]
    · by_cases hq : q = .freelist
      · simp [hq, freedTable, hpos, hk]
      · simp [freedTable, hq]

theorem pcbFreeAll_freedTable (mem : μ) (n k : Nat) (hk : n + k = 256) :
    pcbFreeAll ((finRange 256).drop k) (freedTable mem k) = some (freedTable mem 256) := by
  induction n generalizing k with
  | zero =>
    obtain rfl : k = 256 := by omega
    rw [drop_of_length_le (by simp)]
    rfl
  | succ n ih =>
    have hlt : k < (finRange 256).length := by
      rw [length_finRange]
      omega
    rw [drop_eq_getElem_cons hlt, getElem_finRange, pcbFreeAll]
    rw [show Fin.cast _ (⟨k, hlt⟩ : Fin _) = (⟨k, by omega⟩ : Slot) from rfl,
      pcbFree_freedTable mem, bind_some]
    exact ih (k + 1) (by omega)

theorem pcbInit_eq (mem : μ) : pcbInit (statics mem) = some (freedTable mem 256) := by
  have hstart : { statics mem with
      currentPcb := none, queues := fun q => ⟨none, none, initialOrder q⟩ } = freedTable mem 0 := by
    refine State.eq_of _ _ (fun i => ?_) (fun q => ?_) rfl
    · simp [freedTable, statics, zeroPcb]
    · by_cases hq : q = .freelist
      · simp [hq, freedTable, initialOrder]
      · simp [freedTable, hq]
  unfold pcbInit
  have hall := pcbFreeAll_freedTable mem 256 0 rfl
  rw [drop_zero] at hall
  rw [hstart, hall]

end Comus.Procs
