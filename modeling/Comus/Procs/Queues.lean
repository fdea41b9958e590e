import Mathlib.Data.List.TakeWhile
import Comus.Procs.Table

/-!
# What the queue operations do

`Linked s loc` says that every queue is a list that ends at its tail, that slot
`i` is a member of the queue `loc i` and of no other, and that a slot outside
all queues has a null link. Each queue operation moves one slot and changes
nothing but links, heads and tails.
-/

namespace Comus.Procs

open Chain Option List Function

variable {μ : Type} {s s' t : State μ} {loc : Slot → Option QueueId} {i j : Slot} {q : QueueId}
  {st : Status}
variable {xs xs' ys zs : List Slot}

structure Linked (s : State μ) (loc : Slot → Option QueueId) : Prop where
  lists : ∃ xs : QueueId → List Slot,
    (∀ q, IsQueue s.next (s.queues q).head (s.queues q).tail (xs q)) ∧
      ∀ i q, i ∈ xs q ↔ loc i = some q
  loose : ∀ i, loc i = none → s.next i = none

def Pcb.unlinked (p : Pcb) : Pcb := { p with next := none }

/-- The two states differ in links, heads and tails only. -/
structure SameBlocks (s s' : State μ) : Prop where
  block : ∀ i, (s'.ptable i).unlinked = (s.ptable i).unlinked
  currentPcb : s'.currentPcb = s.currentPcb
  initPcb : s'.initPcb = s.initPcb
  nextPid : s'.nextPid = s.nextPid
  ticks : s'.ticks = s.ticks
  mem : s'.mem = s.mem

theorem SameBlocks.refl (s : State μ) : SameBlocks s s := ⟨fun _ => rfl, rfl, rfl, rfl, rfl, rfl⟩

theorem SameBlocks.trans (h : SameBlocks s s') (h' : SameBlocks s' t) : SameBlocks s t :=
  ⟨fun i => (h'.block i).trans (h.block i), h'.currentPcb.trans h.currentPcb,
    h'.initPcb.trans h.initPcb, h'.nextPid.trans h.nextPid, h'.ticks.trans h.ticks,
    h'.mem.trans h.mem⟩

@[simp] theorem modify_queues (s : State μ) (i : Slot) (f : Pcb → Pcb) :
    (s.modify i f).queues = s.queues := rfl

theorem modify_ptable (s : State μ) (i j : Slot) (f : Pcb → Pcb) :
    (s.modify i f).ptable j = if j = i then f (s.ptable i) else s.ptable j := by
  simp only [State.modify, update_apply]

@[simp] theorem modify_ptable_self (s : State μ) (i : Slot) (f : Pcb → Pcb) :
    (s.modify i f).ptable i = f (s.ptable i) := by rw [modify_ptable, if_pos rfl]

theorem modify_ptable_of_ne (s : State μ) (f : Pcb → Pcb) (h : j ≠ i) :
    (s.modify i f).ptable j = s.ptable j := by rw [modify_ptable, if_neg h]

theorem modify_modify (s : State μ) (i : Slot) (f g : Pcb → Pcb) :
    (s.modify i f).modify i g = s.modify i fun p => g (f p) := by
  simp [State.modify]

@[simp] theorem setNext_queues (s : State μ) (i : Slot) (v : Option Slot) :
    (s.setNext i v).queues = s.queues := rfl

@[simp] theorem setNext_next (s : State μ) (i : Slot) (v : Option Slot) :
    (s.setNext i v).next = update s.next i v := by
  funext j
  simp only [State.next, State.setNext, modify_ptable, update_apply]
  split_ifs <;> rfl

section State

variable (s : State μ) (q : QueueId) (v : Option Slot)

@[simp] theorem setHead_next :
    (s.setHead q v).next = s.next := rfl

@[simp] theorem setTail_next :
    (s.setTail q v).next = s.next := rfl

@[simp] theorem setHead_queues :
    (s.setHead q v).queues = update s.queues q { s.queues q with head := v } := rfl

@[simp] theorem setTail_queues :
    (s.setTail q v).queues = update s.queues q { s.queues q with tail := v } := rfl

end State

theorem SameBlocks.setNext (s : State μ) (i : Slot) (v : Option Slot) :
    SameBlocks s (s.setNext i v) := by
  refine ⟨fun j => ?_, rfl, rfl, rfl, rfl, rfl⟩
  rw [State.setNext, modify_ptable]
  split_ifs with h
  · rw [h]
    rfl
  · rfl

theorem SameBlocks.setHead (s : State μ) (q : QueueId) (v : Option Slot) :
    SameBlocks s (s.setHead q v) := ⟨fun _ => rfl, rfl, rfl, rfl, rfl, rfl⟩

theorem SameBlocks.setTail (s : State μ) (q : QueueId) (v : Option Slot) :
    SameBlocks s (s.setTail q v) := ⟨fun _ => rfl, rfl, rfl, rfl, rfl, rfl⟩

theorem SameBlocks.modify (h : SameBlocks s s') {f : Pcb → Pcb}
    (hf : ∀ p, (f p.unlinked).unlinked = (f p).unlinked) (i : Slot) :
    SameBlocks (s.modify i f) (s'.modify i f) := by
  refine ⟨fun j => ?_, h.currentPcb, h.initPcb, h.nextPid, h.ticks, h.mem⟩
  rw [modify_ptable, modify_ptable]
  split_ifs
  · rw [← hf (s'.ptable i), h.block i, hf]
  · exact h.block j

theorem length_lt_walkFuel {next : Slot → Option Slot} {p : Option Slot} (h : Seg next p xs none) : xs.length < walkFuel := by
  have := h.nodup.length_le_card
  rw [Fintype.card_fin] at this
  exact Nat.lt_succ_of_le this

theorem Linked.change (h : Linked s loc) {loc' : Slot → Option QueueId}
    (hq : IsQueue s'.next (s'.queues q).head (s'.queues q).tail xs)
    (hxs : ∀ i, i ∈ xs ↔ loc' i = some q)
    (hqueues : ∀ q', q' ≠ q → s'.queues q' = s.queues q')
    (hloc : ∀ i q', q' ≠ q → (loc' i = some q' ↔ loc i = some q'))
    (hnext : ∀ i q', q' ≠ q → loc i = some q' → s'.next i = s.next i)
    (hloose : ∀ i, loc' i = none → s'.next i = none) : Linked s' loc' := by
  obtain ⟨ys, hys, hmem⟩ := h.lists
  refine ⟨⟨update ys q xs, fun q' => ?_, fun i q' => ?_⟩, hloose⟩
  · by_cases hqq : q' = q
    · subst hqq
      rw [update_self]
      exact hq
    · rw [update_of_ne hqq, hqueues q' hqq]
      exact (hys q').congr fun i hi => hnext i q' hqq ((hmem i q').mp hi)
  · by_cases hqq : q' = q
    · subst hqq
      rw [update_self]
      exact hxs i
    · rw [update_of_ne hqq, hloc i q' hqq]
      exact hmem i q'

/-- The operation gives the queue `q` the members `xs'` instead of `xs` and changes
nothing else but links of old or new members. -/
structure Relisted (s s' : State μ) (q : QueueId) (xs xs' : List Slot) : Prop where
  queue : IsQueue s'.next (s'.queues q).head (s'.queues q).tail xs'
  order : (s'.queues q).order = (s.queues q).order
  queues : ∀ q', q' ≠ q → s'.queues q' = s.queues q'
  next : ∀ j, j ∉ xs → j ∉ xs' → s'.next j = s.next j
  blocks : SameBlocks s s'

def QueueOrder.keeps (o : QueueOrder) (p new : Pcb) : Bool :=
  match o with
  | .fifo => true
  | .prio => decide (p.priority ≤ new.priority)
  | .pid => decide (p.pid ≤ new.pid)
  | .wakeup => decide (p.wakeup ≤ new.wakeup)

def goesOn (s : State μ) (q : QueueId) (i j : Slot) : Bool :=
  (s.queues q).order.keeps (s.ptable j) (s.ptable i)

theorem findPrev_eq (i : Slot) (hq : IsQueue s.next (s.queues q).head (s.queues q).tail xs) :
    findPrev s q i = some (xs.takeWhile (goesOn s q i)).getLast? := by
  have hby : ∀ key : Pcb → Nat, findPrevBy key s q i =
      some (xs.takeWhile fun j => decide (key (s.ptable j) ≤ key (s.ptable i))).getLast? := by
    intro key
    rw [findPrevBy, walk_eq _ none hq.seg (length_lt_walkFuel hq.seg), map_some, or_none]
  unfold findPrev goesOn
  cases (s.queues q).order with
  | fifo =>
    have hall : xs.takeWhile (fun _ => true) = xs := takeWhile_eq_self_iff.mpr fun _ _ => rfl
    rw [hq.tail_eq]
    exact congrArg (fun ys => some (getLast? ys)) hall.symm
  | prio => exact hby Pcb.priority
  | pid => exact hby Pcb.pid
  | wakeup => exact hby Pcb.wakeup

theorem pcbQueueInsert_spec (hq : IsQueue s.next (s.queues q).head (s.queues q).tail xs) (hix : i ∉ xs) (hnext : s.next i = none) :
    ∃ s', pcbQueueInsert s q i = some (.success, s') ∧
      Relisted s s' q xs (xs.takeWhile (goesOn s q i) ++ i :: xs.dropWhile (goesOn s q i)) := by
  have hhead := hq.seg.head?_eq
  have htail := hq.tail_eq
  unfold pcbQueueInsert
  rw [hnext, isSome_none, if_neg (by simp)]
  by_cases hnil : xs = []
  · -- the queue is empty
    subst hnil
    rw [head?_nil] at hhead
    rw [← hhead, isNone_none, if_pos rfl]
    refine ⟨_, rfl, ?_, ?_, ?_, fun _ _ _ => rfl,
      (SameBlocks.setHead s q _).trans (SameBlocks.setTail _ q _)⟩
    · simp only [setHead_queues, setTail_queues, update_self, setTail_next, setHead_next]
      exact IsQueue.singleton hnext
    · simp
    · intro q' hqq
      simp [update_of_ne hqq]
  · obtain ⟨x, rest, hcons⟩ := exists_cons_of_ne_nil hnil
    have hlast : xs.getLast?.isNone = false := by
      rw [hcons, getLast?_cons]
      rfl
    rw [← hhead, hcons, head?_cons, isNone_some, if_neg (by simp), htail, hlast,
      if_neg (by simp), ← hcons, findPrev_eq i hq]
    have hsplit := takeWhile_append_dropWhile (p := goesOn s q i) (l := xs)
    generalize xs.takeWhile (goesOn s q i) = ys at hsplit
    generalize xs.dropWhile (goesOn s q i) = zs at hsplit
    rcases eq_nil_or_concat ys with rfl | ⟨ys, prev, rfl⟩
    · -- in front of all others
      rw [nil_append] at hsplit
      subst hsplit
      refine ⟨_, rfl, ?_, ?_, ?_, ?_, (SameBlocks.setNext s i _).trans (SameBlocks.setHead _ q _)⟩
      · simp only [setHead_queues, update_self, setHead_next, setNext_next, setNext_queues]
        have hpush := hq.push_front hnil hix
        rwa [← hhead, hcons, head?_cons, ← hcons] at hpush
      · simp
      · intro q' hqq
        simp [update_of_ne hqq]
      · intro j _ hj
        have hji : j ≠ i := fun hji => hj (hji ▸ mem_cons_self)
        simp [update_of_ne hji]
    · rw [concat_eq_append, getLast?_append, getLast?_singleton, some_or]
      rw [concat_eq_append, append_assoc, singleton_append] at hsplit
      subst hsplit
      have hpnext := hq.seg.next_of_mem
      have hpmem : prev ∈ ys ++ prev :: zs := by simp
      cases zs with
      | nil =>
        -- behind all others
        simp only [hpnext, head?_nil, isNone_none, if_true]
        refine ⟨_, rfl, ?_, ?_, ?_, ?_, (SameBlocks.setNext s prev _).trans (SameBlocks.setTail _ q _)⟩
        · simp only [setTail_queues, update_self, setTail_next, setNext_next,
            setNext_queues]
          exact hq.push_back hnext hix
        · simp
        · intro q' hqq
          simp [update_of_ne hqq]
        · intro j hj _
          have hjp : j ≠ prev := fun hjp => hj (hjp ▸ hpmem)
          simp [update_of_ne hjp]
      | cons z zs =>
        simp only [hpnext, head?_cons, isNone_some, Bool.false_eq_true, if_false]
        refine ⟨_, rfl, ?_, rfl, fun q' _ => rfl, ?_,
          (SameBlocks.setNext s i _).trans (SameBlocks.setNext _ prev _)⟩
        · simp only [setNext_next, setNext_queues]
          rw [show some z = s.next prev from hpnext.symm, append_assoc]
          exact hq.insert_between (by simp) hix
        · intro j hj hj'
          have hjp : j ≠ prev := fun hjp => hj (hjp ▸ hpmem)
          have hji : j ≠ i := fun hji => hj' (hji ▸ by simp)
          simp [update_of_ne hjp, update_of_ne hji]

theorem Linked.insert_of (h : Linked s loc) (hi : loc i = none) (hxs : ∀ j, j ∈ xs ↔ loc j = some q) (hs : Relisted s s' q xs xs')
    (hxs' : ∀ j, j ∈ xs' ↔ j = i ∨ j ∈ xs) : Linked s' (update loc i (some q)) := by
  refine h.change hs.queue (fun j => ?_) hs.queues (fun j q' hqq => ?_) (fun j q' hqq hj => ?_)
    (fun j hj => ?_)
  · rw [hxs', hxs, update_apply]
    split_ifs with hji <;> simp [hji]
  · rw [update_apply]
    split_ifs with hji
    · simp [hji, hi, Ne.symm hqq]
    · rfl
  · have hjx : j ∉ xs := fun hjx => by
      rw [(hxs j).mp hjx] at hj
      exact hqq (some.inj hj).symm
    have hji : j ≠ i := fun hji => by
      rw [hji, hi] at hj
      cases hj
    exact hs.next j hjx fun hj' => ((hxs' j).mp hj').elim hji hjx
  · have hji : j ≠ i := by
      rintro rfl
      rw [update_self] at hj
      cases hj
    rw [update_of_ne hji] at hj
    have hjx : j ∉ xs := fun hjx => by
      rw [(hxs j).mp hjx] at hj
      cases hj
    rw [hs.next j hjx fun hj' => ((hxs' j).mp hj').elim hji hjx]
    exact h.loose j hj

theorem Linked.insert (h : Linked s loc) (hi : loc i = none) (q : QueueId) :
    ∃ s', pcbQueueInsert s q i = some (.success, s') ∧
      Linked s' (update loc i (some q)) ∧ SameBlocks s s' := by
  obtain ⟨lists, hlists, hmem⟩ := h.lists
  have hxs := fun j => hmem j q
  have hix : i ∉ lists q := fun hx => by
    rw [(hxs i).mp hx] at hi
    cases hi
  obtain ⟨s', hins, hs⟩ := pcbQueueInsert_spec (hlists q) hix (h.loose i hi)
  refine ⟨s', hins, h.insert_of hi hxs hs fun j => ?_, hs.blocks⟩
  conv_rhs => rw [← takeWhile_append_dropWhile (p := goesOn s q i) (l := lists q)]
  simp only [mem_append, mem_cons]
  tauto

theorem Linked.remove_of (h : Linked s loc) (hxs : ∀ j, j ∈ xs ↔ loc j = some q) (hix : i ∈ xs) (hs : Relisted s s' q xs xs')
    (hxs' : ∀ j, j ∈ xs' ↔ j ≠ i ∧ j ∈ xs) (hi : s'.next i = none) :
    Linked s' (update loc i none) := by
  have hloc := (hxs i).mp hix
  have hnext : ∀ j, j ∉ xs → s'.next j = s.next j := fun j hj => hs.next j hj fun hj' =>
    hj ((hxs' j).mp hj').2
  refine h.change hs.queue (fun j => ?_) hs.queues (fun j q' hqq => ?_) (fun j q' hqq hj => ?_)
    (fun j hj => ?_)
  · rw [hxs', hxs, update_apply]
    split_ifs with hji <;> simp [hji]
  · rw [update_apply]
    split_ifs with hji
    · simp [hji, hloc, Ne.symm hqq]
    · rfl
  · refine hnext j (fun hjx => ?_)
    rw [(hxs j).mp hjx] at hj
    exact hqq (some.inj hj).symm
  · by_cases hji : j = i
    · rw [hji]
      exact hi
    · rw [update_of_ne hji] at hj
      rw [hnext j (fun hjx => by rw [(hxs j).mp hjx] at hj; exact absurd hj (by simp))]
      exact h.loose j hj

theorem pcbQueuePop_empty (hq : IsQueue s.next (s.queues q).head (s.queues q).tail []) :
    pcbQueuePop s q = none := by
  have hhead := hq.seg.head?_eq
  rw [head?_nil] at hhead
  rw [pcbQueuePop, ← hhead]

theorem pcbQueuePop_spec {rest : List Slot}
    (hq : IsQueue s.next (s.queues q).head (s.queues q).tail (i :: rest)) :
    ∃ s', pcbQueuePop s q = some (i, s') ∧ Relisted s s' q (i :: rest) rest ∧ s'.next i = none := by
  have hhead := hq.seg.head?_eq
  rw [head?_cons] at hhead
  have hrest := hq.seg.2
  have hinot : i ∉ rest := (nodup_cons.mp hq.seg.nodup).1
  rw [pcbQueuePop, ← hhead]
  refine ⟨_, rfl, ⟨?_, ?_, ?_, ?_, ?_⟩, ?_⟩
  · have hlink : Seg (update s.next i none) (s.next i) rest none := hrest.update hinot _
    simp only [setNext_queues, setHead_queues, update_self]
    have hnext := hrest.head?_eq
    cases rest with
    | nil =>
      rw [head?_nil] at hnext
      simp only [← hnext, isNone_none, if_true, setTail_queues, setNext_queues,
        setHead_queues, update_self, setTail_next, setNext_next, setHead_next]
      exact IsQueue.empty _
    | cons y ys =>
      rw [head?_cons] at hnext
      simp only [← hnext, isNone_some, Bool.false_eq_true, if_false, setNext_queues,
        setHead_queues, update_self, setNext_next, setHead_next]
      refine ⟨hnext ▸ hlink, ?_⟩
      rw [hq.tail_eq, getLast?_cons_cons]
  · split_ifs <;> simp
  · intro q' hqq
    split_ifs <;> simp [update_of_ne hqq]
  · intro j hj _
    have hji : j ≠ i := fun hji => hj (hji ▸ mem_cons_self)
    split_ifs <;> simp [update_of_ne hji]
  · have hstep := (SameBlocks.setHead s q (s.next i)).trans (SameBlocks.setNext _ i none)
    split_ifs
    · exact hstep.trans (SameBlocks.setTail _ q none)
    · exact hstep
  · split_ifs <;> simp

theorem Linked.pop_empty (h : Linked s loc) (hq : ∀ j, loc j ≠ some q) : pcbQueuePop s q = none := by
  obtain ⟨lists, hlists, hmem⟩ := h.lists
  have hnil : lists q = [] := eq_nil_iff_forall_not_mem.mpr fun j hj => hq j ((hmem j q).mp hj)
  exact pcbQueuePop_empty (hnil ▸ hlists q)

theorem Linked.pop (h : Linked s loc) (hq : ∃ j, loc j = some q) :
    ∃ i s', pcbQueuePop s q = some (i, s') ∧ loc i = some q ∧
      Linked s' (update loc i none) ∧ SameBlocks s s' := by
  obtain ⟨lists, hlists, hmem⟩ := h.lists
  have hq' := hlists q
  have hxs := fun j => hmem j q
  have hne : lists q ≠ [] := by
    obtain ⟨j, hj⟩ := hq
    exact ne_nil_of_mem ((hxs j).mpr hj)
  generalize lists q = xs at hq' hxs hne
  obtain ⟨i, rest, rfl⟩ := exists_cons_of_ne_nil hne
  have hinot : i ∉ rest := (nodup_cons.mp hq'.seg.nodup).1
  obtain ⟨s', hpop, hs, hnone⟩ := pcbQueuePop_spec hq'
  refine ⟨i, s', hpop, (hxs i).mp mem_cons_self, ?_, hs.blocks⟩
  apply h.remove_of hxs mem_cons_self hs _ hnone
  intro j
  rw [mem_cons]
  constructor
  · exact fun hj => ⟨fun hji => hinot (hji ▸ hj), .inr hj⟩
  · rintro ⟨hji, rfl | hj⟩
    · exact absurd rfl hji
    · exact hj

theorem unlinkNode_queue (hq : IsQueue s.next (s.queues q).head (s.queues q).tail (ys ++ i :: zs)) :
    IsQueue (unlinkNode s q ys.getLast? i).next ((unlinkNode s q ys.getLast? i).queues q).head
      ((unlinkNode s q ys.getLast? i).queues q).tail (ys ++ zs) := by
  have hnext := hq.seg.next_of_mem
  have hunlink := hq.unlink
  rcases eq_nil_or_concat ys with rfl | ⟨ys, prev, rfl⟩
  · cases zs with
    | nil => simpa [unlinkNode, hnext] using hunlink
    | cons z zs => simpa [unlinkNode, hnext] using hunlink
  · have hne : i ≠ prev := by
      rintro rfl
      rw [concat_eq_append] at hq
      exact (disjoint_of_nodup_append hq.seg.nodup)
        (mem_append_right _ mem_cons_self) mem_cons_self
    rw [concat_eq_append] at *
    cases zs with
    | nil => simpa [unlinkNode, hnext, hne] using hunlink
    | cons z zs => simpa [unlinkNode, hnext, hne] using hunlink

theorem unlinkNode_frame (s : State μ) (q : QueueId) (prev : Option Slot) (i : Slot) :
    SameBlocks s (unlinkNode s q prev i) ∧
      (∀ q', q' ≠ q → (unlinkNode s q prev i).queues q' = s.queues q') ∧
      ((unlinkNode s q prev i).queues q).order = (s.queues q).order ∧
      (unlinkNode s q prev i).next i = none ∧
      ∀ j, j ≠ i → prev ≠ some j → (unlinkNode s q prev i).next j = s.next j := by
  cases prev with
  | none =>
    refine ⟨?_, fun q' hqq => ?_, ?_, ?_, fun j hji _ => ?_⟩
    · have hstep := SameBlocks.setHead s q (s.next i)
      unfold unlinkNode
      dsimp only
      split_ifs
      · exact (hstep.trans (SameBlocks.setTail _ q none)).trans (SameBlocks.setNext _ i none)
      · exact hstep.trans (SameBlocks.setNext _ i none)
    · unfold unlinkNode
      dsimp only
      split_ifs <;> simp [update_of_ne hqq]
    · unfold unlinkNode
      dsimp only
      split_ifs <;> simp
    · simp [unlinkNode]
    · unfold unlinkNode
      dsimp only
      split_ifs <;> simp [update_of_ne hji]
  | some prev =>
    refine ⟨?_, fun q' hqq => ?_, ?_, ?_, fun j hji hjp => ?_⟩
    · have hstep := SameBlocks.setNext s prev (s.next i)
      unfold unlinkNode
      dsimp only
      split_ifs
      · exact (hstep.trans (SameBlocks.setTail _ q _)).trans (SameBlocks.setNext _ i none)
      · exact hstep.trans (SameBlocks.setNext _ i none)
    · unfold unlinkNode
      dsimp only
      split_ifs <;> simp [update_of_ne hqq]
    · unfold unlinkNode
      dsimp only
      split_ifs <;> simp
    · simp [unlinkNode]
    · have hjp' : j ≠ prev := fun he => hjp (he ▸ rfl)
      unfold unlinkNode
      dsimp only
      split_ifs <;> simp [update_of_ne hji, update_of_ne hjp']

theorem not_mem_of_nodup_append (h : (ys ++ i :: zs).Nodup) : i ∉ ys ∧ i ∉ zs :=
  ⟨fun hy => disjoint_of_nodup_append h hy mem_cons_self,
    (nodup_cons.mp h.of_append_right).1⟩

theorem walk_to_member (hq : IsQueue s.next (s.queues q).head (s.queues q).tail (ys ++ i :: zs)) :
    walk s.next (fun j => decide (j ≠ i)) walkFuel none (s.queues q).head = some (ys.getLast?, some i) := by
  have hys : ∀ j ∈ ys, decide (j ≠ i) = true := fun j hj =>
    decide_eq_true fun hji => (not_mem_of_nodup_append hq.seg.nodup).1 (hji ▸ hj)
  rw [walk_eq _ none hq.seg (length_lt_walkFuel hq.seg), takeWhile_append_of_pos hys,
    dropWhile_append_of_pos hys, takeWhile_cons_of_neg (by simp),
    dropWhile_cons_of_neg (by simp), append_nil, or_none, head?_cons]

theorem pcbQueueRemove_spec (hq : IsQueue s.next (s.queues q).head (s.queues q).tail (ys ++ i :: zs)) :
    ∃ s', pcbQueueRemove s q i = some (.success, s') ∧
      Relisted s s' q (ys ++ i :: zs) (ys ++ zs) ∧ s'.next i = none := by
  have hhead : (s.queues q).head.isNone = false := by
    rw [← hq.seg.head?_eq]
    cases ys <;> rfl
  have hqueue := unlinkNode_queue hq
  obtain ⟨hsame, hqueues, horder, hnone, hnext⟩ := unlinkNode_frame s q ys.getLast? i
  refine ⟨unlinkNode s q ys.getLast? i, ?_, ⟨hqueue, horder, hqueues, fun j hj _ => ?_, hsame⟩, hnone⟩
  · unfold pcbQueueRemove
    rw [hhead, if_neg (by simp), walk_to_member hq]
    simp only [hqueue.isNone_eq, if_true]
  · refine hnext j (fun hji => hj (hji ▸ by simp)) fun hlast => hj ?_
    exact mem_append_left _ (mem_of_getLast? hlast)

theorem pcbQueueRemove_missing (hq : IsQueue s.next (s.queues q).head (s.queues q).tail xs) (hi : i ∉ xs) :
    pcbQueueRemove s q i = some (if xs = [] then .emptyQueue else .notFound, s) := by
  have hhead := hq.seg.head?_eq
  have hall : ∀ j ∈ xs, decide (j ≠ i) = true := fun j hj => decide_eq_true fun hji => hi (hji ▸ hj)
  unfold pcbQueueRemove
  cases xs with
  | nil =>
    rw [head?_nil] at hhead
    rw [← hhead, isNone_none, if_pos rfl, if_pos rfl]
  | cons x xs =>
    rw [walk_eq _ none hq.seg (length_lt_walkFuel hq.seg), takeWhile_eq_self_iff.mpr hall,
      dropWhile_eq_nil_iff.mpr hall, ← hhead]
    simp [getLast?_cons]

theorem Linked.remove (h : Linked s loc) (hi : loc i = some q) :
    ∃ s', pcbQueueRemove s q i = some (.success, s') ∧
      Linked s' (update loc i none) ∧ SameBlocks s s' := by
  obtain ⟨lists, hlists, hmem⟩ := h.lists
  have hq := hlists q
  have hxs := fun j => hmem j q
  generalize lists q = xs at hq hxs
  have hix : i ∈ xs := (hxs i).mpr hi
  obtain ⟨ys, zs, rfl⟩ := append_of_mem hix
  obtain ⟨s', hrun, hs, hnone⟩ := pcbQueueRemove_spec hq
  refine ⟨s', hrun, ?_, hs.blocks⟩
  apply h.remove_of hxs hix hs _ hnone
  intro j
  obtain ⟨hy, hz⟩ := not_mem_of_nodup_append hq.seg.nodup
  simp only [mem_append, mem_cons]
  constructor
  · intro hj
    refine ⟨?_, by tauto⟩
    rintro rfl
    tauto
  · rintro ⟨hji, hj⟩
    tauto

theorem pcbQueueInsert_blocks (h : pcbQueueInsert s q i = some (st, s')) : SameBlocks s s' := by
  unfold pcbQueueInsert at h
  split_ifs at h with hlink hhead htail
  · cases h
    exact SameBlocks.refl s
  · cases h
    exact (SameBlocks.setHead s q _).trans (SameBlocks.setTail _ q _)
  · rcases hprev : findPrev s q i with _ | _ | prev
    · rw [hprev] at h
      cases h
    · rw [hprev] at h
      cases h
      exact (SameBlocks.setNext s i _).trans (SameBlocks.setHead _ q _)
    · rw [hprev] at h
      simp only at h
      split_ifs at h
      · cases h
        exact (SameBlocks.setNext s prev _).trans (SameBlocks.setTail _ q _)
      · cases h
        exact (SameBlocks.setNext s i _).trans (SameBlocks.setNext _ prev _)

theorem pcbQueuePop_blocks (h : pcbQueuePop s q = some (i, s')) : SameBlocks s s' := by
  unfold pcbQueuePop at h
  cases hhead : (s.queues q).head with
  | none =>
    rw [hhead] at h
    cases h
  | some tmp =>
    rw [hhead] at h
    obtain ⟨-, rfl⟩ := Prod.mk.inj (some.inj h)
    have hstep := (SameBlocks.setHead s q (s.next tmp)).trans (SameBlocks.setNext _ tmp none)
    split_ifs
    · exact hstep.trans (SameBlocks.setTail _ q none)
    · exact hstep

theorem pcbQueueRemove_blocks (h : pcbQueueRemove s q i = some (st, s')) : SameBlocks s s' := by
  unfold pcbQueueRemove at h
  split_ifs at h with hhead
  · cases h
    exact SameBlocks.refl s
  · split at h
    · cases h
    · split_ifs at h
      cases h
      exact SameBlocks.refl s
    · rename_i prev curr _
      simp only at h
      split_ifs at h
      cases h
      exact (unlinkNode_frame s q prev curr).1

theorem Linked.removed_mem (h : Linked s loc) (hr : pcbQueueRemove s q i = some (.success, s')) :
    loc i = some q := by
  obtain ⟨lists, hlists, hmem⟩ := h.lists
  by_contra hloc
  rw [pcbQueueRemove_missing (hlists q) fun hi => hloc ((hmem i q).mp hi)] at hr
  have hstatus := (Prod.mk.inj (some.inj hr)).1
  split_ifs at hstatus

theorem Linked.insert_frame (h : Linked s loc) (hins : pcbQueueInsert s q i = some (st, s')) :
    (∀ q', q' ≠ q → s'.queues q' = s.queues q') ∧
      ∀ j, j ≠ i → loc j ≠ some q → s'.next j = s.next j := by
  obtain ⟨lists, hlists, hmem⟩ := h.lists
  unfold pcbQueueInsert at hins
  split_ifs at hins with hlink hhead htail
  · cases hins
    exact ⟨fun _ _ => rfl, fun _ _ _ => rfl⟩
  · cases hins
    exact ⟨fun q' hq => by simp [update_of_ne hq], fun _ _ _ => rfl⟩
  · rw [findPrev_eq i (hlists q)] at hins
    cases hlast : ((lists q).takeWhile (goesOn s q i)).getLast? with
    | none =>
      rw [hlast] at hins
      cases hins
      refine ⟨fun q' hq => by simp [update_of_ne hq], fun j hj _ => ?_⟩
      simp [update_of_ne hj]
    | some prev =>
      have hmember : loc prev = some q :=
        (hmem prev q).mp ((takeWhile_sublist _).subset (mem_of_getLast? hlast))
      have hne : ∀ j, loc j ≠ some q → j ≠ prev := fun j hj hjp => hj (hjp ▸ hmember)
      simp only [hlast] at hins
      split_ifs at hins
      · cases hins
        refine ⟨fun q' hq => by simp [update_of_ne hq], fun j _ hj => ?_⟩
        simp [update_of_ne (hne j hj)]
      · cases hins
        refine ⟨fun _ _ => rfl, fun j hji hj => ?_⟩
        simp [update_of_ne (hne j hj), update_of_ne hji]

theorem pcbQueueRemove_head (hq : IsQueue s.next (s.queues q).head (s.queues q).tail (i :: xs)) :
    ∃ s', pcbQueueRemove s q i = some (.success, s') ∧
      IsQueue s'.next (s'.queues q).head (s'.queues q).tail xs := by
  rw [← nil_append (i :: xs)] at hq
  obtain ⟨s', hrun, hs, -⟩ := pcbQueueRemove_spec hq
  exact ⟨s', hrun, hs.queue⟩

def OnQueue (s : State μ) (q : QueueId) (i : Slot) : Prop :=
  ∃ xs, Seg s.next (s.queues q).head xs (some i)

theorem Linked.onQueue_iff (h : Linked s loc) : OnQueue s q i ↔ loc i = some q := by
  obtain ⟨lists, hlists, hmem⟩ := h.lists
  rw [← hmem]
  exact (hlists q).seg.mem_iff.symm

end Comus.Procs
