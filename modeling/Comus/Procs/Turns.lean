import Comus.Procs.Sleep

/-!
# Turns of the processor

As long as no process sleeps or calls the kernel, only the timer acts: when its ticks are used up,
the running process goes back to the ready queue and `dispatch` takes the first one for three ticks.
-/

namespace Comus.Procs

open Chain Word Option List

variable {μ φ : Type} {ops : MemOps μ φ} {s t : State μ} {c p : Slot} {xs as bs : List Slot} {n k m : Nat}

theorem modify_priority {f : Pcb → Pcb} (hf : ∀ b, (f b).priority = b.priority) (s : State μ) (i j : Slot) :
    ((s.modify i f).ptable j).priority = (s.ptable j).priority := by
  rw [modify_ptable]
  split_ifs with hj
  · rw [hj, hf]
  · rfl

def countDown (s : State μ) (c : Slot) : State μ :=
  ({ s with ticks := u64 (s.ticks + 1) }).modify c fun p => { p with ticks := sub64 p.ticks 1 }

theorem countDown_priority (s : State μ) (c i : Slot) :
    ((countDown s c).ptable i).priority = (s.ptable i).priority := by
  apply modify_priority
  exact fun _ => rfl

theorem countDown_next (s : State μ) (c : Slot) : (countDown s c).next = s.next := by
  apply modify_next
  exact fun _ => rfl

/-- `c` has `n` more ticks, and the ready processes have its priority. -/
structure Turn (k : Nat) (s : State μ) (c : Slot) (n : Nat) (xs : List Slot) : Prop where
  current : s.currentPcb = some c
  ticks : (s.ptable c).ticks = n
  few : n < 2^64
  ready : IsQueue s.next (s.queues .ready).head (s.queues .ready).tail xs
  order : (s.queues .ready).order = .prio
  priority : ∀ i ∈ c :: xs, (s.ptable i).priority = k
  asleep : (s.queues (.syscall SYS_sleep)).head = none

theorem Turn.onTick (hinv : Inv s) (h : Turn k s c n xs) :
    pcbOnTick { s with ticks := u64 (s.ticks + 1) } = if sub64 n 1 < 1 then
      (schedule (countDown s c) c).bind fun t => dispatch { t with currentPcb := none }
    else some (countDown s c) := by
  obtain ⟨r, hr, -⟩ := hinv.core.kin.init
  have hwake : wakeSleepers walkFuel { s with ticks := u64 (s.ticks + 1) } =
      some { s with ticks := u64 (s.ticks + 1) } := by
    unfold walkFuel wakeSleepers pcbQueuePeek
    rw [h.asleep]
  rw [pcbOnTick, if_neg (by simp [hr]), hwake, bind_some]
  simp only [h.current, modify_ptable_self, h.ticks, countDown]

theorem Turn.count (ops : MemOps μ φ) (hinv : Inv s) (h : Turn k s c (n + 2) xs) :
    ∃ s', step ops s .tick = some s' ∧ Turn k s' c (n + 1) xs := by
  have hfew := h.few
  have hsub : sub64 (n + 2) 1 = n + 1 := sub64_of_le (by omega) hfew
  have hstep : step ops s .tick = some (countDown s c) := by
    rw [step, h.onTick hinv, hsub, if_neg (by omega), bind_some, if_neg]
    simp [countDown, State.modify, h.current]
  refine ⟨_, hstep, h.current, ?_, by omega, ?_, h.order, ?_, h.asleep⟩
  · rw [countDown, modify_ptable_self, h.ticks, hsub]
  · rw [countDown_next]
    exact h.ready
  · intro i hi
    exact (countDown_priority s c i).trans (h.priority i hi)

theorem woken_priority (s : State μ) (c i : Slot) :
    (((countDown s c).modify c Pcb.woken).ptable i).priority = (s.ptable i).priority :=
  (modify_priority (f := Pcb.woken) (fun _ => rfl) _ c i).trans (countDown_priority s c i)

theorem Turn.requeue (hinv : Inv s) (h : Turn k s c n xs) : ∃ t, schedule (countDown s c) c = some t ∧
    Relisted ((countDown s c).modify c Pcb.woken) t .ready xs (xs ++ [c]) := by
  have hrun := (hinv.core.kin.running c).mpr h.current
  have hhome : s.homeBut [] c = none := by rw [homeBut_nil, home_running hrun]
  have hc : c ∉ xs := by
    rw [h.ready.seg.mem_iff]
    intro hready
    cases hhome.symm.trans (hinv.core.linked.onQueue_iff.mp hready)
  have hlinks : ((countDown s c).modify c Pcb.woken).next = s.next :=
    (modify_next (f := Pcb.woken) (fun _ => rfl) _ c).trans (countDown_next s c)
  have hready := h.ready
  rw [← hlinks] at hready
  obtain ⟨t, hins, ht⟩ := pcbQueueInsert_spec (s := (countDown s c).modify c Pcb.woken) (q := .ready) hready hc
    (hlinks ▸ hinv.core.linked.loose c hhome)
  have horder : (((countDown s c).modify c Pcb.woken).queues .ready).order = .prio := h.order
  have hall : ∀ j ∈ xs, goesOn ((countDown s c).modify c Pcb.woken) .ready c j = true := by
    intro j hj
    rw [goesOn, horder, QueueOrder.keeps, woken_priority, woken_priority, h.priority j (mem_cons_of_mem _ hj),
      h.priority c mem_cons_self]
    simp
  rw [takeWhile_eq_self_iff.mpr hall, dropWhile_eq_nil_iff.mpr hall] at ht
  have hwoken : pcbQueueInsert ((countDown s c).modify c fun p => { p with state := .ready, syscall := 0 }) .ready c =
      some (.success, t) := hins
  exact ⟨t, by rw [schedule, if_neg (by simp [countDown, hrun]), hwoken], ht⟩

theorem Turn.pass (ops : MemOps μ φ) (hinv : Inv s) (h : Turn k s c 1 (p :: bs)) :
    ∃ s', step ops s .tick = some s' ∧ Turn k s' p 3 (bs ++ [c]) := by
  obtain ⟨t, hsched, ht⟩ := h.requeue hinv
  obtain ⟨u, hpop, hu, -⟩ := pcbQueuePop_spec (s := { t with currentPcb := none }) (q := .ready) (i := p)
    ht.queue
  have hstep : step ops s .tick = some { u.modify p Pcb.dispatched with currentPcb := some p } := by
    rw [step, h.onTick hinv, sub64_of_le le_rfl (by decide), if_pos (by decide), hsched, bind_some, dispatch,
      if_neg (by simp), hpop]
    rfl
  refine ⟨_, hstep, rfl, ?_, by decide, ?_, hu.order.trans (ht.order.trans h.order), ?_, ?_⟩
  · exact congrArg Pcb.ticks (modify_ptable_self u p Pcb.dispatched)
  · have hnext : (u.modify p Pcb.dispatched).next = u.next := modify_next (f := Pcb.dispatched) (fun _ => rfl) u p
    exact hnext ▸ hu.queue
  · intro i hi
    have hmem : i ∈ c :: p :: bs := by
      simp only [mem_cons, mem_append, not_mem_nil, or_false] at hi ⊢
      tauto
    exact (modify_priority (f := Pcb.dispatched) (fun _ => rfl) u p i).trans
      ((hu.blocks.field i Pcb.priority fun _ => rfl).trans
        ((ht.blocks.field i Pcb.priority fun _ => rfl).trans ((woken_priority s c i).trans (h.priority i hmem))))
  · exact (congrArg Queue.head ((hu.queues _ (by simp)).trans (ht.queues _ (by simp)))).trans h.asleep

theorem Turn.reaches (hinv : Inv s) (h : Turn k s c n (as ++ p :: bs)) (hn : 0 < n) (hm : m = n + 3 * as.length) :
    ∃ s', Run.exec (step ops) s (replicate m .tick) = some s' ∧ Turn k s' p 3 (bs ++ c :: as) := by
  induction m generalizing s c n as bs with
  | zero => omega
  | succ m ih =>
    rw [replicate_succ, Run.exec]
    rcases n with _ | _ | n
    · omega
    · cases as with
      | nil =>
        obtain ⟨s', hstep, hturn⟩ := h.pass ops hinv
        obtain rfl : m = 0 := by simpa using hm
        exact ⟨s', by rw [hstep]; rfl, hturn⟩
      | cons a as =>
        obtain ⟨s', hstep, hturn⟩ := h.pass ops hinv
        have hrest : Turn k s' a 3 (as ++ p :: (bs ++ [c])) := by simpa using hturn
        obtain ⟨t, hexec, hlast⟩ := ih (hinv.tick hstep) hrest (by omega) (by rw [length_cons] at hm; omega)
        exact ⟨t, by rw [hstep, bind_some, hexec], by simpa using hlast⟩
    · obtain ⟨s', hstep, hturn⟩ := h.count ops hinv
      rw [hstep]
      exact ih (hinv.tick hstep) hturn (by omega) (by omega)

/-- From boot on, in every state with processes of one priority, each ready process gets the processor as soon as those
before it have had their three ticks, and then these are ready again, in the same order. -/
theorem ready_processes_take_turns {file : φ} {mem : μ} {s₀ : State μ} (hboot : bootProcs ops file mem = some s₀)
    (hrun : Run.Reach (step ops) Sound s₀ s) (h : Turn k s c n (as ++ p :: bs)) (hn : 0 < n) :
    ∃ s', Run.exec (step ops) s (replicate (n + 3 * as.length) .tick) = some s' ∧ Turn k s' p 3 (bs ++ c :: as) :=
  h.reaches (hrun.invariant (bootProcs_inv hboot) Inv.step) hn rfl

/-- Init has forked. -/
theorem ready_processes_take_turns_fork : ∃ s s' : State Unit, s.currentPcb = some 0 ∧
    Run.exec (step idleOps) s (replicate 3 .tick) = some s' ∧ Turn 0 s' 1 3 [0] := by
  obtain ⟨s₀, s, hboot, hrun, hs⟩ := booted_reach Sound [.syscall 2 0 0 none]
    (fun s => ([s.currentPcb, (s.queues .ready).head, (s.queues .ready).tail, s.next 1,
      (s.queues (.syscall SYS_sleep)).head], [(s.ptable 0).ticks, (s.ptable 0).priority, (s.ptable 1).priority],
      (s.queues .ready).order)) ([some 0, some 1, some 1, none, none], [3, 0, 0], .prio) (by decide +kernel)
  simp only [Prod.mk.injEq, cons.injEq, and_true] at hs
  obtain ⟨⟨hc, hhead, htail, hnext, hasleep⟩, ⟨hticks, hinit, hchild⟩, horder⟩ := hs
  have h : Turn 0 s 0 3 ([] ++ [1]) :=
    ⟨hc, hticks, by decide, by rw [hhead, htail]; exact IsQueue.singleton hnext, horder, by simp [hinit, hchild],
      hasleep⟩
  obtain ⟨s', hexec, hturn⟩ := ready_processes_take_turns hboot hrun h (by decide)
  exact ⟨s, s', hc, hexec, hturn⟩

end Comus.Procs
