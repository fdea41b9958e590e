import Comus.Lib.Run
import Comus.Procs.Placement

/-!
# Process ids

`pcb_alloc` numbers the processes with a counter of 16 bits and never looks at the
numbers that are in use. The table is taken through any sequence of allocations and
releases; what decides is whether the counter meets a number in use.
-/

namespace Comus.Procs

open Chain Option List Function

variable {μ φ : Type} {ops : MemOps μ φ} {s s' t : State μ} {i j : Slot}

inductive TableOp where
  | alloc
  | free (i : Slot)

def tableStep (s : State μ) : TableOp → Option (State μ)
  | .alloc => (pcbAlloc s).map Prod.snd
  | .free i => pcbFree s i

def Used (p : Pcb) : Prop := p.state ≠ .unused

instance (p : Pcb) : Decidable (Used p) := inferInstanceAs (Decidable (¬ _))

def PidsDistinct (s : State μ) : Prop :=
  ∀ i j, Used (s.ptable i) → Used (s.ptable j) → (s.ptable i).pid = (s.ptable j).pid → i = j

structure PidsGood (s : State μ) : Prop where
  distinct : PidsDistinct s
  nonzero : ∀ i, Used (s.ptable i) → (s.ptable i).pid ≠ 0
  first : ∀ i, Used (s.ptable i) → (s.ptable i).pid = 1 → s.initPcb = some i
  found : ∀ i pid, pcbFindPid s pid = some i ↔ Used (s.ptable i) ∧ (s.ptable i).pid = pid

def PidFree (s : State μ) : TableOp → Prop
  | .alloc => ∀ i, (s.queues .freelist).head = some i → s.nextPid ≠ 0 ∧
      (∀ j, j ≠ i → Used (s.ptable j) → (s.ptable j).pid ≠ s.nextPid) ∧
      (s.nextPid = 1 → s.initPcb = some i)
  | .free _ => True

theorem pcbFindPid_some {pid : Nat} (h : pcbFindPid s pid = some i) :
    Used (s.ptable i) ∧ (s.ptable i).pid = pid := by
  unfold pcbFindPid at h
  split_ifs at h
  have hi := find?_some h
  simp only [Bool.and_eq_true, decide_eq_true_eq] at hi
  exact ⟨hi.2, hi.1⟩

theorem PidsDistinct.found (h : PidsDistinct s) (hi : Used (s.ptable i))
    (hpid : (s.ptable i).pid ≠ 0) : pcbFindPid s (s.ptable i).pid = some i := by
  have hsome : ((finRange 256).find? fun j =>
      decide ((s.ptable j).pid = (s.ptable i).pid) && decide ((s.ptable j).state ≠ .unused)).isSome := by
    rw [find?_isSome]
    refine ⟨i, mem_finRange i, ?_⟩
    rw [Bool.and_eq_true, decide_eq_true_eq, decide_eq_true_eq]
    exact ⟨rfl, hi⟩
  obtain ⟨j, hj⟩ := isSome_iff_exists.mp hsome
  have hfound : pcbFindPid s (s.ptable i).pid = some j := by
    unfold pcbFindPid
    rw [if_neg (by omega)]
    exact hj
  obtain ⟨hused, hsame⟩ := pcbFindPid_some hfound
  rw [hfound, h j i hused hi hsame]

theorem PidsGood.of_distinct (hdistinct : PidsDistinct s)
    (hnonzero : ∀ i, Used (s.ptable i) → (s.ptable i).pid ≠ 0)
    (hfirst : ∀ i, Used (s.ptable i) → (s.ptable i).pid = 1 → s.initPcb = some i) : PidsGood s where
  distinct := hdistinct
  nonzero := hnonzero
  first := hfirst
  found := by
    refine fun i pid => ⟨pcbFindPid_some, ?_⟩
    rintro ⟨hused, rfl⟩
    exact hdistinct.found hused (hnonzero i hused)

theorem pcbAlloc_fields (h : pcbAlloc s = some (i, s')) :
    (s'.ptable i).pid = s.nextPid ∧ Used (s'.ptable i) ∧
      (∀ j, j ≠ i → (s'.ptable j).pid = (s.ptable j).pid ∧
        (Used (s'.ptable j) ↔ Used (s.ptable j))) ∧ s'.initPcb = s.initPcb := by
  obtain ⟨-, hblocks⟩ := pcbAlloc_blocks h
  have hself := hblocks.kin i
  have hother : ∀ j, j ≠ i → SameKin (s'.ptable j) (s.ptable j) := by
    intro j hj
    have hkin := hblocks.kin j
    simpa only [modify_ptable, if_neg hj] using hkin
  simp only [modify_ptable, if_true] at hself
  refine ⟨hself.pid, ?_, fun j hj => ⟨(hother j hj).pid, ?_⟩, hblocks.initPcb⟩
  · unfold Used
    rw [hself.state]
    exact fun h => absurd h (by simp [Pcb.allocated])
  · unfold Used
    rw [(hother j hj).state]

theorem PidsGood.alloc_iff (h : PidsGood s) (halloc : pcbAlloc s = some (i, s')) :
    PidsGood s' ↔ PidFree s .alloc := by
  obtain ⟨hpid, hused, hother, hinit⟩ := pcbAlloc_fields halloc
  have hhead := (pcbAlloc_blocks halloc).1
  constructor
  · intro h' k hk
    cases hhead.symm.trans hk
    refine ⟨hpid ▸ h'.nonzero i hused, fun j hj hj' hsame => ?_, fun hone => ?_⟩
    · obtain ⟨hjpid, hjused⟩ := hother j hj
      exact hj (h'.distinct j i (hjused.mpr hj') hused (by rw [hjpid, hsame, hpid]))
    · rw [← hinit]
      exact h'.first i hused (hpid.trans hone)
  · intro hfree
    obtain ⟨hzero, hunused, hone⟩ := hfree i hhead
    have hdiff : ∀ j, j ≠ i → Used (s'.ptable j) → (s'.ptable j).pid ≠ s.nextPid := by
      intro j hj hj'
      rw [(hother j hj).1]
      exact hunused j hj ((hother j hj).2.mp hj')
    refine PidsGood.of_distinct (fun j k hj hk hsame => ?_) (fun j hj => ?_) fun j hj hjpid => ?_
    · by_cases hji : j = i
      · subst hji
        by_contra hne
        exact hdiff k (Ne.symm hne) hk (by rw [← hsame, hpid])
      · by_cases hki : k = i
        · subst hki
          exact absurd (hsame.trans hpid) (hdiff j hji hj)
        · rw [(hother j hji).1, (hother k hki).1] at hsame
          exact h.distinct j k ((hother j hji).2.mp hj) ((hother k hki).2.mp hk) hsame
    · by_cases hji : j = i
      · rw [hji, hpid]
        exact hzero
      · rw [(hother j hji).1]
        exact h.nonzero j ((hother j hji).2.mp hj)
    · rw [hinit]
      by_cases hji : j = i
      · subst hji
        exact hone (hpid.symm.trans hjpid)
      · exact h.first j ((hother j hji).2.mp hj) ((hother j hji).1.symm.trans hjpid)

theorem PidsGood.free (h : PidsGood s) (hfree : pcbFree s i = some s') : PidsGood s' := by
  have hblocks := pcbFree_blocks hfree
  have hkeep : ∀ j, Used (s'.ptable j) → Used (s.ptable j) ∧ (s'.ptable j).pid = (s.ptable j).pid := by
    intro j hj
    have hkin := hblocks.kin j
    unfold Used at hj ⊢
    rw [modify_ptable] at hkin
    split_ifs at hkin with hji
    · rw [hkin.state] at hj
      exact absurd rfl hj
    · exact ⟨hkin.state ▸ hj, hkin.pid⟩
  refine PidsGood.of_distinct (fun j k hj hk hsame => ?_) (fun j hj => ?_) fun j hj hone => ?_
  · rw [(hkeep j hj).2, (hkeep k hk).2] at hsame
    exact h.distinct j k (hkeep j hj).1 (hkeep k hk).1 hsame
  · rw [(hkeep j hj).2]
    exact h.nonzero j (hkeep j hj).1
  · have hinit : s'.initPcb = s.initPcb := hblocks.initPcb
    rw [hinit]
    exact h.first j (hkeep j hj).1 ((hkeep j hj).2.symm.trans hone)

theorem PidsGood.step_iff (h : PidsGood s) {op : TableOp} (hstep : tableStep s op = some s') :
    PidsGood s' ↔ PidFree s op := by
  cases op with
  | alloc =>
    obtain ⟨⟨i, t⟩, halloc, rfl⟩ := map_eq_some_iff.mp hstep
    exact h.alloc_iff halloc
  | free i => exact ⟨fun _ => trivial, fun _ => h.free hstep⟩

theorem bootProcs_only {file : φ} {mem : μ} (hboot : bootProcs ops file mem = some s) :
    ∃ r, s.initPcb = some r ∧ (s.ptable r).pid = 1 ∧ Used (s.ptable r) ∧ s.nextPid = 2 ∧
      ∀ j, j ≠ r → (s.ptable j).state = .unused := by
  obtain ⟨r, u, hd, hcore, hinit, hnext, hfirst, hrest⟩ := bootProcs_loaded hboot
  have hready : (u.ptable r).state = .ready := hfirst.state
  have hother : ∀ j, j ≠ r → (u.ptable j).state = .unused := fun j hj => (hrest j hj).state
  have hused : ∀ b : Pcb, b.state = .ready ∨ b.state = .running → Used b := by
    rintro b (hb | hb) <;> simp [Used, hb]
  rcases dispatch_blocks hd with ⟨-, rfl | ⟨k, hhead, hblocks⟩⟩
  · exact ⟨r, hinit, hfirst.pid, hused _ (.inl hready), hnext, hother⟩
  · -- the head of the ready queue is init
    have hk : u.home k = some .ready := (homeBut_nil u ▸ hcore.linked).peek hhead
    obtain rfl : k = r := by
      by_contra hne
      exact absurd ((home_eq_ready hk).symm.trans (hother k hne)) (by simp)
    have hself := hblocks.kin k
    simp only [modify_ptable, if_true] at hself
    refine ⟨k, hblocks.initPcb.trans hinit, hself.pid.trans hfirst.pid,
      hused _ (.inr hself.state), hblocks.nextPid.trans hnext, fun j hj => ?_⟩
    have hkin := hblocks.kin j
    simp only [modify_ptable, if_neg hj] at hkin
    exact hkin.state.trans (hother j hj)

theorem bootProcs_pidsGood {file : φ} {mem : μ} (hboot : bootProcs ops file mem = some s) :
    PidsGood s := by
  obtain ⟨r, hinit, hpid, -, -, hrest⟩ := bootProcs_only hboot
  have honly : ∀ j, Used (s.ptable j) → j = r := by
    intro j hj
    by_contra hne
    exact hj (hrest j hne)
  refine PidsGood.of_distinct (fun i j hi hj _ => ?_) (fun i hi => ?_) fun i hi _ => ?_
  · rw [honly i hi, honly j hj]
  · rw [honly i hi, hpid]
    exact Nat.one_ne_zero
  · rw [honly i hi]
    exact hinit

/-- Runs in which the counter never meets a number in use: used blocks have different ids
other than zero, and one of them has the id 1 only if it is init. The next operation keeps
it so exactly if it does not allocate a number that is zero or in use. -/
theorem pids_good_iff (ops : MemOps μ φ) (file : φ) (mem : μ) (s₀ s : State μ)
    (hboot : bootProcs ops file mem = some s₀) (hrun : Run.Reach tableStep PidFree s₀ s) :
    PidsGood s ∧ ∀ op s', tableStep s op = some s' → (PidsGood s' ↔ PidFree s op) := by
  have hgood : PidsGood s :=
    hrun.invariant (bootProcs_pidsGood hboot) fun _ _ _ h hfree hstep => (h.step_iff hstep).mpr hfree
  exact ⟨hgood, fun op s' hstep => hgood.step_iff hstep⟩

instance (s : State μ) (op : TableOp) : Decidable (PidFree s op) :=
  match op with
  | .alloc => inferInstanceAs (Decidable (∀ i, (s.queues .freelist).head = some i → s.nextPid ≠ 0 ∧
      (∀ j, j ≠ i → Used (s.ptable j) → (s.ptable j).pid ≠ s.nextPid) ∧
      (s.nextPid = 1 → s.initPcb = some i)))
  | .free _ => isTrue trivial

/-- Two allocations: the processes 2 and 3. -/
theorem pids_good_two : ∃ s : State Unit, (s.ptable 1).pid = 2 ∧ (s.ptable 2).pid = 3 ∧ PidsGood s := by
  obtain ⟨s₀, hboot, hrun⟩ := booted_run (fun s₀ =>
      (Run.execOk tableStep PidFree s₀ [.alloc, .alloc]).map fun s =>
        ((s.ptable 1).pid, (s.ptable 2).pid)) (2, 3) (by decide +kernel)
  obtain ⟨s, hexec, hrun⟩ := map_eq_some_iff.mp hrun
  simp only [Prod.mk.injEq] at hrun
  exact ⟨s, hrun.1, hrun.2,
    (pids_good_iff idleOps () () s₀ s hboot (Run.Reach.start.execOk hexec)).1⟩

structure Spare (s : State μ) : Prop where
  linked : Linked s s.home
  free : ∃ j, (s.ptable j).state = .unused

structure SameUsed (s s' : State μ) : Prop where
  state : ∀ j, (s'.ptable j).state = (s.ptable j).state
  pid : ∀ j, Used (s.ptable j) → (s'.ptable j).pid = (s.ptable j).pid
  initPcb : s'.initPcb = s.initPcb

theorem SameUsed.refl (s : State μ) : SameUsed s s := ⟨fun _ => rfl, fun _ _ => rfl, rfl⟩

theorem SameUsed.used (h : SameUsed s s') : Used (s'.ptable j) ↔ Used (s.ptable j) := by
  rw [Used, Used, h.state]

theorem SameUsed.trans (h : SameUsed s s') (h' : SameUsed s' t) : SameUsed s t :=
  ⟨fun j => (h'.state j).trans (h.state j),
    fun j hj => (h'.pid j (h.used.mpr hj)).trans (h.pid j hj), h'.initPcb.trans h.initPcb⟩

theorem Spare.alloc (h : Spare s) : ∃ i t, pcbAlloc s = some (i, t) := by
  obtain ⟨j, hj⟩ := h.free
  obtain ⟨i, t, hpop, -⟩ := h.linked.pop (q := .freelist) ⟨j, by simp [State.home, home, hj]⟩
  unfold pcbAlloc
  rw [hpop]
  exact ⟨_, _, rfl⟩

theorem Spare.recycle (h : Spare s) :
    ∃ s', (∀ {s₀}, Run.Reach tableStep Run.anyOp s₀ s → Run.Reach tableStep Run.anyOp s₀ s') ∧
      Spare s' ∧ s'.nextPid = (s.nextPid + 1) % 2^16 ∧ SameUsed s s' := by
  obtain ⟨i, t, halloc⟩ := h.alloc
  obtain ⟨hunused, hlinked, hinit, hother, hself⟩ := pcbAlloc_spec h.linked halloc
  have hnew : (t.ptable i).state = .new := hself.state
  obtain ⟨s', hfree, hlinked', hblocks⟩ := pcbFree_eq hlinked (i := i) (by simp [State.home, home, hnew])
  have hkin : ∀ j, j ≠ i → SameKin (s'.ptable j) (s.ptable j) :=
    fun j hj => (kin_of_modify hblocks hj).trans (hother j hj)
  have hfreed : (s'.ptable i).state = .unused := (kin_self_of_modify hblocks).state
  have hhome : update t.home i (some .freelist) = s'.home := by
    funext j
    rw [update_apply]
    split_ifs with hj
    · rw [hj]
      simp [State.home, home, hfreed]
    · exact (kin_of_modify hblocks hj).home.symm
  refine ⟨s', fun hrun => .step (.free i) (.step .alloc hrun trivial ?_) trivial hfree,
    ⟨hhome ▸ hlinked', i, hfreed⟩, ?_, fun j => ?_, fun j hj => ?_, hblocks.initPcb.trans hinit⟩
  · change (pcbAlloc s).map Prod.snd = some t
    rw [halloc]
    rfl
  · have hnext : s'.nextPid = t.nextPid := hblocks.nextPid
    exact hnext.trans (pcbAlloc_blocks halloc).2.nextPid
  · by_cases hji : j = i
    · rw [hji, hfreed, hunused]
    · exact (hkin j hji).state
  · refine (hkin j fun hji => ?_).pid
    exact hj (hji ▸ hunused)

theorem Spare.recycle_many (h : Spare s) (hlt : s.nextPid < 2^16) (n : Nat) :
    ∃ s', (∀ {s₀}, Run.Reach tableStep Run.anyOp s₀ s → Run.Reach tableStep Run.anyOp s₀ s') ∧
      Spare s' ∧ s'.nextPid = (s.nextPid + n) % 2^16 ∧ SameUsed s s' := by
  induction n with
  | zero => exact ⟨s, id, h, (Nat.mod_eq_of_lt hlt).symm, SameUsed.refl s⟩
  | succ n ih =>
    obtain ⟨t, hrun, ht, hnext, hsame⟩ := ih
    obtain ⟨s', hrun', hs', hnext', hsame'⟩ := ht.recycle
    refine ⟨s', fun h => hrun' (hrun h), hs', ?_, hsame.trans hsame'⟩
    rw [hnext', hnext]
    omega

theorem tableStep_alloc (h : pcbAlloc s = some (i, s')) : tableStep s .alloc = some s' := by
  change (pcbAlloc s).map Prod.snd = some s'
  rw [h]
  rfl

/-- After 65534 processes that have come and gone, the next two have the ids 0 and 1. -/
theorem pid_counter_wraps : ∃ (s₀ s : State Unit) (i j r : Slot),
    bootProcs idleOps () () = some s₀ ∧ Run.Reach tableStep Run.anyOp s₀ s ∧
    s.initPcb = some r ∧ Used (s.ptable r) ∧ (s.ptable r).pid = 1 ∧
    Used (s.ptable i) ∧ (s.ptable i).pid = 0 ∧ Used (s.ptable j) ∧ (s.ptable j).pid = 1 ∧ j ≠ r := by
  obtain ⟨s₀, hboot, -⟩ := booted_run (fun _ => some ()) () (by decide +kernel)
  obtain ⟨r, hinit, hpid, hused, hnext, hrest⟩ := bootProcs_only hboot
  have hlinked := (bootProcs_inv hboot).core.linked
  rw [homeBut_nil] at hlinked
  have hthird : ∀ k l : Slot, ∃ m, m ≠ k ∧ m ≠ l := by
    intro k l
    by_contra hno
    have hcover : ∀ m : Slot, m = k ∨ m = l := by
      intro m
      by_contra hm
      exact hno ⟨m, not_or.mp hm⟩
    have h0 := hcover 0
    have h1 := hcover 1
    have h2 := hcover 2
    grind
  obtain ⟨m, hm, -⟩ := hthird r r
  obtain ⟨s1, hrun1, hs1, hnext1, hsame1⟩ :=
    Spare.recycle_many ⟨hlinked, m, hrest m hm⟩ (by rw [hnext]; decide) 65534
  replace hnext1 : s1.nextPid = 0 := by omega
  have hr1 : Used (s1.ptable r) := hsame1.used.mpr hused
  -- the process 0
  obtain ⟨i, s2, halloc⟩ := hs1.alloc
  obtain ⟨hfree, hlinked2, hinit2, -, -⟩ := pcbAlloc_spec hs1.linked halloc
  obtain ⟨hipid, hiused, hother, -⟩ := pcbAlloc_fields halloc
  have hri : r ≠ i := fun h => hr1 (h ▸ hfree)
  have hnext2 : s2.nextPid = 1 := by
    have h2 := (pcbAlloc_blocks halloc).2.nextPid
    rw [hnext1] at h2
    exact h2
  obtain ⟨k, hkr, hki⟩ := hthird r i
  have hk : (s2.ptable k).state = .unused := by
    by_contra hk
    have hused := hsame1.used.mp ((hother k hki).2.mp hk)
    exact hused (hrest k hkr)
  -- the second process 1
  obtain ⟨j, s3, halloc'⟩ := Spare.alloc ⟨hlinked2, k, hk⟩
  obtain ⟨hfree', -, hinit3, -, -⟩ := pcbAlloc_spec hlinked2 halloc'
  obtain ⟨hjpid, hjused, hother', -⟩ := pcbAlloc_fields halloc'
  have hr2 : Used (s2.ptable r) := (hother r hri).2.mpr hr1
  have hrj : r ≠ j := fun h => hr2 (h ▸ hfree')
  have hij : i ≠ j := fun h => hiused (h ▸ hfree')
  refine ⟨s₀, s3, i, j, r, hboot, .step .alloc (.step .alloc (hrun1 .start) trivial
    (tableStep_alloc halloc)) trivial (tableStep_alloc halloc'), ?_, ?_, ?_, ?_, ?_, hjused, ?_,
    hrj.symm⟩
  · rw [hinit3, hinit2, hsame1.initPcb, hinit]
  · exact (hother' r hrj).2.mpr hr2
  · rw [(hother' r hrj).1, (hother r hri).1, hsame1.pid r hused, hpid]
  · exact (hother' i hij).2.mpr hiused
  · rw [(hother' i hij).1, hipid, hnext1]
  · rw [hjpid, hnext2]

end Comus.Procs
