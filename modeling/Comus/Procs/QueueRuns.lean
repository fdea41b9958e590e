import Comus.Lib.Run
import Comus.Lib.Stable
import Comus.Procs.Queues

/-!
# The queues as lists

Beside the table of control blocks runs one abstract list for each queue: an
insertion is the stable insertion by the key of the queue's ordering, a pop takes
the first element, a removal the named one. The other code of the kernel may
rewrite control blocks in between, but not the key of a block in a queue.
-/

namespace Comus.Procs

open Chain Stable Option List Function

variable {μ : Type} {s s' : State μ} {i : Slot} {q : QueueId}

/-- What a queue is sorted by. In a queue without order all blocks are alike. -/
def QueueOrder.key : QueueOrder → Pcb → Nat
  | .fifo, _ => 0
  | .prio, p => p.priority
  | .pid, p => p.pid
  | .wakeup, p => p.wakeup

theorem QueueOrder.keeps_eq (o : QueueOrder) (p new : Pcb) : o.keeps p new = decide (o.key p ≤ o.key new) := by
  cases o with
  | fifo => rfl
  | prio => rfl
  | pid => rfl
  | wakeup => rfl

def State.key (s : State μ) (q : QueueId) (i : Slot) : Nat := (s.queues q).order.key (s.ptable i)

theorem goesOn_eq (s : State μ) (q : QueueId) (i : Slot) :
    goesOn s q i = fun j => decide (s.key q j ≤ s.key q i) := by
  funext j
  exact (s.queues q).order.keeps_eq _ _

structure Tracked (μ : Type) where
  state : State μ
  lists : QueueId → List Slot

def Tracked.inserted (t : Tracked μ) (q : QueueId) (i : Slot) : List Slot :=
  match (t.state.queues q).order with
  | .fifo => t.lists q ++ [i]
  | .prio => insertBy (fun j => (t.state.ptable j).priority) i (t.lists q)
  | .pid => insertBy (fun j => (t.state.ptable j).pid) i (t.lists q)
  | .wakeup => insertBy (fun j => (t.state.ptable j).wakeup) i (t.lists q)

/-- The queue operations; `write` stands for all other code. -/
inductive QueueOp where
  | insert (q : QueueId) (i : Slot)
  | pop (q : QueueId)
  | remove (q : QueueId) (i : Slot)
  | write (i : Slot) (p : Pcb)
  deriving Repr, DecidableEq

def QueueOp.run (t : Tracked μ) : QueueOp → Option (Tracked μ)
  | .insert q i => (pcbQueueInsert t.state q i).map fun x =>
      ⟨x.2, update t.lists q (t.inserted q i)⟩
  | .pop q => some ⟨(pcbQueuePop t.state q).elim t.state Prod.snd,
      update t.lists q (t.lists q).tail⟩
  | .remove q i => (pcbQueueRemove t.state q i).map fun x =>
      ⟨x.2, update t.lists q ((t.lists q).erase i)⟩
  | .write i p => some ⟨t.state.modify i fun old => { p with next := old.next }, t.lists⟩

/-- Only a block in no queue is inserted, and a block in a queue keeps its key. -/
def QueueOp.allowed (t : Tracked μ) : QueueOp → Prop
  | .insert _ i => ∀ q, i ∉ t.lists q
  | .pop _ => True
  | .remove _ _ => True
  | .write i p => ∀ q, i ∈ t.lists q → (t.state.queues q).order.key p = t.state.key q i

structure Represents (t : Tracked μ) : Prop where
  queue : ∀ q, IsQueue t.state.next (t.state.queues q).head (t.state.queues q).tail (t.lists q)
  apart : ∀ i q q', i ∈ t.lists q → i ∈ t.lists q' → q = q'
  loose : ∀ i, (∀ q, i ∉ t.lists q) → t.state.next i = none
  sorted : ∀ q, SortedBy (t.state.key q) (t.lists q)

variable {t t' t₀ : Tracked μ}

theorem SameBlocks.key_eq (h : SameBlocks s s') (hq : (s'.queues q).order = (s.queues q).order) :
    s'.key q i = s.key q i := by
  have hblock := h.block i
  rw [State.key, State.key, hq]
  cases (s.queues q).order with
  | fifo => rfl
  | prio =>
    have heq := congrArg Pcb.priority hblock
    exact heq
  | pid =>
    have heq := congrArg Pcb.pid hblock
    exact heq
  | wakeup =>
    have heq := congrArg Pcb.wakeup hblock
    exact heq

theorem Relisted.order_eq {xs xs' : List Slot} (h : Relisted s s' q xs xs') (q' : QueueId) :
    (s'.queues q').order = (s.queues q').order := by
  by_cases hq : q' = q
  · rw [hq, h.order]
  · rw [h.queues q' hq]

section OneList

variable {xs : List Slot} (h : Represents t) (hs : Relisted t.state s' q (t.lists q) xs)
  (hnew : ∀ i ∈ xs, i ∈ t.lists q ∨ ∀ q', i ∉ t.lists q')
include h hnew

theorem Represents.other {q' : QueueId} (hq : q' ≠ q) (hi : i ∈ t.lists q') : i ∉ t.lists q ∧ i ∉ xs := by
  have hold : i ∉ t.lists q := fun hi' => hq (h.apart i q' q hi hi')
  refine ⟨hold, fun hx => ?_⟩
  rcases hnew i hx with hi' | hnone
  · exact hold hi'
  · exact hnone q' hi

include hs

theorem Represents.relisted (hsorted : SortedBy (t.state.key q) xs)
    (hgone : ∀ i ∈ t.lists q, i ∉ xs → s'.next i = none) :
    Represents ⟨s', update t.lists q xs⟩ := by
  have hkey : ∀ q', s'.key q' = t.state.key q' := fun q' => funext fun i => hs.blocks.key_eq (hs.order_eq q')
  generalize hls : update t.lists q xs = ls
  have hself : ls q = xs := by rw [← hls, update_self]
  have hother : ∀ q', q' ≠ q → ls q' = t.lists q' := fun q' hq => by rw [← hls, update_of_ne hq]
  constructor
  · intro q'
    by_cases hq : q' = q
    · subst hq
      change IsQueue _ _ _ (ls q')
      rw [hself]
      exact hs.queue
    · change IsQueue s'.next (s'.queues q').head (s'.queues q').tail (ls q')
      rw [hother q' hq, hs.queues q' hq]
      apply (h.queue q').congr
      intro i hi
      obtain ⟨hold, hx⟩ := h.other hnew hq hi
      exact hs.next i hold hx
  · intro i q₁ q₂ (h₁ : i ∈ ls q₁) (h₂ : i ∈ ls q₂)
    by_cases hq₁ : q₁ = q
    · by_cases hq₂ : q₂ = q
      · rw [hq₁, hq₂]
      · rw [hq₁, hself] at h₁
        rw [hother q₂ hq₂] at h₂
        exact absurd h₁ (h.other hnew hq₂ h₂).2
    · rw [hother q₁ hq₁] at h₁
      by_cases hq₂ : q₂ = q
      · rw [hq₂, hself] at h₂
        exact absurd h₂ (h.other hnew hq₁ h₁).2
      · rw [hother q₂ hq₂] at h₂
        exact h.apart i q₁ q₂ h₁ h₂
  · intro i (hi : ∀ q', i ∉ ls q')
    have hx : i ∉ xs := hself ▸ hi q
    change s'.next i = none
    by_cases hold : i ∈ t.lists q
    · exact hgone i hold hx
    · rw [hs.next i hold hx]
      apply h.loose
      intro q'
      by_cases hq : q' = q
      · rw [hq]
        exact hold
      · rw [← hother q' hq]
        exact hi q'
  · intro q'
    change SortedBy (s'.key q') (ls q')
    rw [hkey q']
    by_cases hq : q' = q
    · rw [hq, hself]
      exact hsorted
    · rw [hother q' hq]
      exact h.sorted q'

end OneList

theorem Tracked.inserted_eq (t : Tracked μ) (q : QueueId) (i : Slot) :
    t.inserted q i = insertBy (t.state.key q) i (t.lists q) := by
  unfold Tracked.inserted State.key
  cases (t.state.queues q).order with
  | fifo => simp [insertBy, QueueOrder.key]
  | prio => rfl
  | pid => rfl
  | wakeup => rfl

theorem Represents.insert (h : Represents t) (hi : ∀ q, i ∉ t.lists q) (q : QueueId) :
    ∃ s', pcbQueueInsert t.state q i = some (.success, s') ∧
      Represents ⟨s', update t.lists q (t.inserted q i)⟩ := by
  obtain ⟨s', hins, hs⟩ := pcbQueueInsert_spec (h.queue q) (hi q) (h.loose i hi)
  rw [goesOn_eq, ← (h.sorted q).insertBy_eq] at hs
  refine ⟨s', hins, ?_⟩
  rw [t.inserted_eq]
  refine h.relisted hs ?_ (h.sorted q).insertBy ?_
  · intro j hj
    rcases mem_insertBy.mp hj with rfl | hj
    · exact .inr hi
    · exact .inl hj
  · intro j hj hnot
    exact absurd (mem_insertBy.mpr (.inr hj)) hnot

theorem Represents.pop_cons {rest : List Slot} (h : Represents t) (hq : t.lists q = i :: rest) :
    ∃ s', pcbQueuePop t.state q = some (i, s') ∧ s'.next i = none ∧
      Represents ⟨s', update t.lists q rest⟩ := by
  have hqueue := h.queue q
  rw [hq] at hqueue
  obtain ⟨s', hpop, hs, hnone⟩ := pcbQueuePop_spec hqueue
  refine ⟨s', hpop, hnone, ?_⟩
  rw [← hq] at hs
  refine h.relisted hs ?_ ?_ ?_
  · intro j hj
    exact .inl (hq ▸ mem_cons_of_mem i hj)
  · exact (h.sorted q).sublist (hq ▸ sublist_cons_self i rest)
  · intro j hj hnot
    rw [hq] at hj
    rcases mem_cons.mp hj with rfl | hj
    · exact hnone
    · exact absurd hj hnot

theorem Represents.remove_mem (h : Represents t) (hi : i ∈ t.lists q) :
    ∃ s', pcbQueueRemove t.state q i = some (.success, s') ∧ s'.next i = none ∧
      Represents ⟨s', update t.lists q ((t.lists q).erase i)⟩ := by
  have hqueue := h.queue q
  obtain ⟨ys, zs, hsplit⟩ := append_of_mem hi
  rw [hsplit] at hqueue
  obtain ⟨hy, -⟩ := not_mem_of_nodup_append hqueue.seg.nodup
  have herase : (t.lists q).erase i = ys ++ zs := by
    rw [hsplit, erase_append_right _ hy, erase_cons_head]
  obtain ⟨s', hrun, hs, hnone⟩ := pcbQueueRemove_spec hqueue
  refine ⟨s', hrun, hnone, ?_⟩
  rw [← hsplit, ← herase] at hs
  refine h.relisted hs ?_ ?_ ?_
  · intro j hj
    exact .inl (mem_of_mem_erase hj)
  · exact (h.sorted q).sublist erase_sublist
  · intro j hj hnot
    by_cases hji : j = i
    · rw [hji]
      exact hnone
    · exact absurd ((mem_erase_of_ne hji).mpr hj) hnot

theorem Represents.remove_missing (h : Represents t) (hi : i ∉ t.lists q) :
    pcbQueueRemove t.state q i = some (if t.lists q = [] then .emptyQueue else .notFound, t.state) :=
  pcbQueueRemove_missing (h.queue q) hi

theorem Represents.write {p : Pcb} (h : Represents t)
    (hp : ∀ q, i ∈ t.lists q → (t.state.queues q).order.key p = t.state.key q i) :
    Represents ⟨t.state.modify i fun old => { p with next := old.next }, t.lists⟩ := by
  have hnext : (t.state.modify i fun old => { p with next := old.next }).next = t.state.next := by
    funext j
    simp only [State.next, modify_ptable]
    split_ifs with hji
    · rw [hji]
    · rfl
  refine ⟨?_, h.apart, ?_, ?_⟩
  · intro q
    dsimp only
    rw [hnext]
    exact h.queue q
  · intro j hj
    dsimp only
    rw [hnext]
    exact h.loose j hj
  · intro q
    apply (h.sorted q).congr
    intro j hj
    simp only [State.key, modify_queues, modify_ptable]
    split_ifs with hji
    · subst hji
      have hkey := hp q hj
      rw [State.key] at hkey
      rw [← hkey]
      cases (t.state.queues q).order with
      | fifo => rfl
      | prio => rfl
      | pid => rfl
      | wakeup => rfl
    · rfl

theorem update_lists_self (t : Tracked μ) (q : QueueId) {xs : List Slot} (h : xs = t.lists q) :
    update t.lists q xs = t.lists := by
  rw [h, update_eq_self]

theorem Represents.run {op : QueueOp} (h : Represents t) (hop : op.allowed t) (hrun : op.run t = some t') :
    Represents t' := by
  cases op with
  | insert q i =>
    obtain ⟨s', hins, hrep⟩ := h.insert hop q
    rw [QueueOp.run, hins] at hrun
    rw [← some.inj hrun]
    exact hrep
  | pop q =>
    rw [← some.inj hrun]
    cases hq : t.lists q with
    | nil =>
      have hqueue := h.queue q
      rw [hq] at hqueue
      rw [pcbQueuePop_empty hqueue, tail_nil, update_lists_self t q hq.symm]
      exact h
    | cons i rest =>
      obtain ⟨s', hpop, -, hrep⟩ := h.pop_cons hq
      rw [hpop]
      exact hrep
  | remove q i =>
    by_cases hi : i ∈ t.lists q
    · obtain ⟨s', hrem, -, hrep⟩ := h.remove_mem hi
      rw [QueueOp.run, hrem] at hrun
      rw [← some.inj hrun]
      exact hrep
    · rw [QueueOp.run, h.remove_missing hi, erase_of_not_mem hi, update_lists_self t q rfl] at hrun
      rw [← some.inj hrun]
      exact h
  | write i p =>
    rw [← some.inj hrun]
    exact h.write hop

structure Cleared (t : Tracked μ) : Prop where
  lists : ∀ q, t.lists q = []
  head : ∀ q, (t.state.queues q).head = none
  tail : ∀ q, (t.state.queues q).tail = none
  next : ∀ i, t.state.next i = none

theorem Cleared.represents (h : Cleared t) : Represents t := by
  refine ⟨fun q => ?_, fun i q q' hi => ?_, fun i _ => h.next i, fun q => ?_⟩
  · rw [h.lists q, h.head q, h.tail q]
    exact IsQueue.empty _
  · rw [h.lists q] at hi
    cases hi
  · rw [h.lists q]
    exact Pairwise.nil

/-- Along every run the queues are their abstract lists, and every operation answers
what the list says. -/
theorem queues_refine_lists (hstart : Cleared t₀) (hrun : Run.Reach QueueOp.run QueueOp.allowed t₀ t) :
    Represents t ∧
    (∀ q i, (∀ q', i ∉ t.lists q') → ∃ s', pcbQueueInsert t.state q i = some (.success, s')) ∧
    (∀ q, t.lists q = [] → pcbQueuePop t.state q = none) ∧
    (∀ q i rest, t.lists q = i :: rest →
      ∃ s', pcbQueuePop t.state q = some (i, s') ∧ s'.next i = none) ∧
    (∀ q i, i ∈ t.lists q →
      ∃ s', pcbQueueRemove t.state q i = some (.success, s') ∧ s'.next i = none) ∧
    ∀ q i, i ∉ t.lists q → pcbQueueRemove t.state q i =
      some (if t.lists q = [] then .emptyQueue else .notFound, t.state) := by
  have h : Represents t := hrun.invariant hstart.represents fun _ _ _ h hop hstep => h.run hop hstep
  refine ⟨h, fun q i hi => ?_, fun q hq => ?_, fun q i rest hq => ?_, fun q i hi => ?_,
    fun q i hi => h.remove_missing hi⟩
  · obtain ⟨s', hins, -⟩ := h.insert hi q
    exact ⟨s', hins⟩
  · exact pcbQueuePop_empty (hq ▸ h.queue q)
  · obtain ⟨s', hpop, hnone, -⟩ := h.pop_cons hq
    exact ⟨s', hpop, hnone⟩
  · obtain ⟨s', hrem, hnone, -⟩ := h.remove_mem hi
    exact ⟨s', hrem, hnone⟩

def threeBlocks : Tracked Unit where
  state :=
    { ptable := fun i => ⟨0, 0, 0, 0, 0, none, .unused, if i = 1 then 1 else 2, 0, 0, 0, none, 0, 0, 0, 0, 0, 0⟩
      queues := fun q => ⟨none, none, initialOrder q⟩
      currentPcb := none
      initPcb := none
      nextPid := 1
      ticks := 0
      mem := () }
  lists := fun _ => []

/-- Blocks of one priority stay in the order of their insertion. -/
theorem queues_refine_lists_three : ∃ t : Tracked Unit, t.lists .ready = [1, 0, 2] ∧ Represents t ∧
    ∃ s', pcbQueuePop t.state .ready = some (1, s') ∧ s'.next 1 = none := by
  have hstart : Cleared threeBlocks := ⟨fun _ => rfl, fun _ => rfl, fun _ => rfl, fun _ => rfl⟩
  have h₁ : Run.Reach QueueOp.run QueueOp.allowed threeBlocks _ :=
    .step (.insert .ready 0) .start (fun _ => not_mem_nil) rfl
  have h₂ : Run.Reach QueueOp.run QueueOp.allowed threeBlocks _ :=
    .step (.insert .ready 1) h₁ (fun q => by
      cases q with
      | syscall num => exact not_mem_nil
      | _ => decide) rfl
  have h₃ : Run.Reach QueueOp.run QueueOp.allowed threeBlocks _ :=
    .step (.insert .ready 2) h₂ (fun q => by
      cases q with
      | syscall num => exact not_mem_nil
      | _ => decide) rfl
  obtain ⟨hrep, -, -, hpop, -, -⟩ := queues_refine_lists hstart h₃
  exact ⟨_, rfl, hrep, hpop .ready 1 [0, 2] rfl⟩

/-- Inserting the block into any queue is refused, and the callers panic. -/
structure Guarded (s : State μ) (i : Slot) : Prop where
  refused : ∀ q, pcbQueueInsert s q i = some (.badParam, s)
  free : pcbFree s i = none
  schedule : schedule s i = none

theorem pcbQueueInsert_of_linked (h : (s.next i).isSome) (q : QueueId) :
    pcbQueueInsert s q i = some (.badParam, s) := by
  rw [pcbQueueInsert, if_pos h]

theorem pcbQueueInsert_of_unlinked (h : s.next i = none) (q : QueueId) :
    pcbQueueInsert s q i ≠ some (.badParam, s') := by
  unfold pcbQueueInsert
  rw [h, if_neg (by simp)]
  split_ifs
  · simp
  · simp
  · split
    · simp
    · simp
    · split_ifs <;> simp

theorem guarded_of_linked (h : (s.next i).isSome) : Guarded s i := by
  have hmod : ∀ (f : Pcb → Pcb) (q : QueueId), (∀ p, (f p).next = p.next) →
      pcbQueueInsert (s.modify i f) q i = some (.badParam, s.modify i f) := by
    intro f q hf
    apply pcbQueueInsert_of_linked
    rw [State.next, modify_ptable_self, hf]
    exact h
  refine ⟨pcbQueueInsert_of_linked h, ?_, ?_⟩
  · have hins := hmod (fun p => { p with state := .unused }) .freelist fun _ => rfl
    rw [pcbFree, hins]
  · have hins := hmod (fun p => { p with state := .ready, syscall := 0 }) .ready fun _ => rfl
    rw [Procs.schedule, hins]
    split_ifs <;> rfl

theorem next_isSome_iff {xs : List Slot} (hq : IsQueue s.next (s.queues q).head (s.queues q).tail xs)
    (hi : i ∈ xs) : (s.next i).isSome ↔ (s.queues q).tail ≠ some i := by
  obtain ⟨ys, zs, rfl⟩ := append_of_mem hi
  rw [hq.seg.next_of_mem, hq.tail_eq]
  cases zs with
  | nil => simp
  | cons z zs =>
    have hnodup := hq.seg.nodup
    have hlast : (ys ++ i :: z :: zs).getLast? = (z :: zs).getLast? := by
      rw [getLast?_append, getLast?_cons_cons, getLast?_cons]
      rfl
    have hne : (z :: zs).getLast? ≠ some i := by
      intro heq
      have hmem := mem_of_getLast? heq
      exact (not_mem_of_nodup_append hnodup).2 hmem
    rw [hlast]
    simp [hne]

/-- A second insertion is caught exactly if the block is not the last one of its queue. -/
theorem insertTwice_guarded_iff {xs : List Slot}
    (hq : IsQueue s.next (s.queues q).head (s.queues q).tail xs) (hi : i ∈ xs) :
    Guarded s i ↔ (s.queues q).tail ≠ some i := by
  rw [← next_isSome_iff hq hi]
  constructor
  · intro h
    by_contra hnone
    exact pcbQueueInsert_of_unlinked (by simpa using hnone) q (h.refused q)
  · exact guarded_of_linked

def twoReady : State Unit where
  ptable := fun i => { threeBlocks.state.ptable i with next := if i = 1 then some 0 else none, state := .ready }
  queues := fun q => if q = .ready then ⟨some 1, some 0, .prio⟩ else ⟨none, none, initialOrder q⟩
  currentPcb := none
  initPcb := none
  nextPid := 1
  ticks := 0
  mem := ()

theorem twoReady_queue : IsQueue twoReady.next (twoReady.queues .ready).head (twoReady.queues .ready).tail [1, 0] := by
  constructor
  · simp [twoReady, State.next]
  · simp [twoReady]

theorem insertTwice_guarded_iff_first : Guarded twoReady 1 := by
  have hne : (twoReady.queues .ready).tail ≠ some 1 := by decide
  exact (insertTwice_guarded_iff twoReady_queue (by simp)).mpr hne

/-- The last block of the ready queue is freed without complaint, and is then in two queues. -/
theorem insertTwice_last_accepted : ∃ s', pcbQueueInsert twoReady .freelist 0 = some (.success, s') ∧
    IsQueue s'.next (s'.queues .ready).head (s'.queues .ready).tail [1, 0] ∧
    IsQueue s'.next (s'.queues .freelist).head (s'.queues .freelist).tail [0] ∧
    (pcbFree twoReady 0).isSome ∧ ¬ Guarded twoReady 0 := by
  refine ⟨_, rfl, ⟨⟨rfl, rfl, rfl⟩, rfl⟩, ⟨⟨rfl, rfl⟩, rfl⟩, rfl, fun h => ?_⟩
  exact absurd (h.refused .freelist) (pcbQueueInsert_of_unlinked rfl .freelist)

end Comus.Procs
