import Comus.Lib.Chain
import Comus.User.MallocRuns

/-!
# The list of headers

`next` and `prev` are to link all headers of the heap in address order, from
`start_header` to `end_header`, and the headers of one chunk are to account for
all of its bytes. A chunk is what one `sbrk` has given to `malloc`; the program
does not remember the chunks, so they are recorded next to the heap.

`end_header` is set by the first `malloc` and never moved, and `free` reads the
header of the chunk that it has just given back. So the list is in order until the
second block is allocated or the first one is freed, and not any longer.
-/

namespace Comus.User

open Word Bytes Option List

variable {h : Nat} {s' : Heap} {op : HeapOp}

/-- A heap with the address and the size of each chunk that is mapped, in the order in
which they were allocated. -/
structure Chunked where
  heap : Heap
  chunks : List (Nat × Nat)

def chunksAfter (chunks : List (Nat × Nat)) (old new : Nat) : List (Nat × Nat) :=
  if old < new then chunks ++ [(old, new - old)]
  else (chunks.filter fun c => c.1 < new).map fun c => (c.1, min c.2 (new - c.1))

def chunkStep (s : Chunked) (op : HeapOp) : Option Chunked :=
  (heapStep s.heap op).map fun t => ⟨t, chunksAfter s.chunks s.heap.brk t.brk⟩

def pointer (a : Nat) : Option Nat := if a = 0 then none else some a

def link (m : Memory) (f : Field) (h : Nat) : Option Nat := pointer (hdr m h f)

def area (m : Memory) (h : Nat) : Nat := headerLen + hdr m h .used + hdr m h .free

structure Fills (m : Memory) (chunk : Nat × Nat) (hs : List Nat) : Prop where
  inside : ∀ h ∈ hs, chunk.1 ≤ h ∧ h < chunk.1 + chunk.2
  total : (hs.map (area m)).sum = chunk.2

/-- `hs` are the headers of each chunk, and all of them are the list of the heap. -/
structure Ordered (s : Chunked) (hs : List (List Nat)) : Prop where
  links : Chain.IsDList (link s.heap.mem .next) (link s.heap.mem .prev)
    (pointer s.heap.startHeader) hs.flatten
  last : pointer s.heap.endHeader = hs.flatten.getLast?
  sorted : hs.flatten.Pairwise (· < ·)
  mapped : ∀ h ∈ hs.flatten, InHeap s.heap h
  fills : Forall₂ (Fills s.heap.mem) s.chunks hs
  visits : ∀ b ∈ s.heap.live, ∃ h ∈ hs.flatten, b.1 = h + headerLen

def InOrder (s : Chunked) : Prop := ∃ hs, Ordered s hs

variable {s : Heap} {t : Chunked} {hs : List (List Nat)} {L : List (Nat × Nat)} {size ptr : Nat}
  {room : Bool}

theorem pointer_of_ne {a : Nat} (ha : a ≠ 0) : pointer a = some a := if_neg ha

theorem Ordered.single (h : Ordered t hs) (hne : t.heap.startHeader ≠ 0)
    (hends : t.heap.endHeader = t.heap.startHeader) : hs.flatten = [t.heap.startHeader] := by
  have hhead := h.links.fwd.head?_eq
  have hlast := h.last
  have hsorted := h.sorted
  rw [hends] at hlast
  rw [pointer_of_ne hne] at hhead hlast
  cases hflat : hs.flatten with
  | nil =>
    rw [hflat] at hhead
    cases hhead
  | cons a as =>
    rw [hflat] at hhead hlast hsorted
    obtain rfl : a = t.heap.startHeader := by simpa using hhead
    cases as with
    | nil => rfl
    | cons b bs =>
      rw [getLast?_cons_cons] at hlast
      have hmem := mem_of_getLast? hlast.symm
      exact absurd ((pairwise_cons.mp hsorted).1 _ hmem) (lt_irrefl _)

theorem Ordered.live_eq (h : Ordered t hs) (hne : t.heap.startHeader ≠ 0)
    (hends : t.heap.endHeader = t.heap.startHeader) {b : Nat × Nat} (hb : b ∈ t.heap.live) :
    b.1 = t.heap.startHeader + headerLen := by
  obtain ⟨x, hx, hbx⟩ := h.visits b hb
  rw [h.single hne hends, mem_singleton] at hx
  rw [hbx, hx]

theorem of_set_bind {α : Type} {s : Heap} {v : Nat} {f : Field} {k : Heap → Option α} {r : α}
    (hset : (s.set h f v).bind k = some r) : k { s with mem := put s.mem h f v } = some r := by
  unfold Heap.set at hset
  split_ifs at hset
  · exact hset
  · cases hset

theorem newNode_lt {node : Nat} (h : s.newNode = some node) : node < 2^64 := by
  unfold Heap.newNode at h
  split_ifs at h
  · obtain ⟨n, -, rfl⟩ := map_eq_some_iff.mp h
    exact u64_lt _
  · cases h
    decide

/-- `sbrk` fails and changes nothing, or returns the old break; the new one is in bounds. -/
theorem sbrk_some (increment : Int) (room : Bool) (hlimit : s.brk ≤ heapLimit) :
    sbrk s increment room = (0, s) ∨
      ∃ new ≤ heapLimit, sbrk s increment room = (s.brk, { s with brk := new }) := by
  unfold sbrk
  dsimp only
  split_ifs with hzero hneg hfits
  · exact .inr ⟨s.brk, hlimit, rfl⟩
  · exact .inl rfl
  · refine .inr ⟨_, ?_, rfl⟩
    rcases hfits with hle | ⟨-, hle⟩
    · exact hle.trans hlimit
    · exact hle
  · exact .inl rfl

theorem allocPages_some (pages : Nat) (room : Bool) (hpos : s.brk ≠ 0) (hlimit : s.brk ≤ heapLimit) :
    allocPages s pages room = (0, s) ∨
      ∃ new ≤ heapLimit, allocPages s pages room = (s.brk, { s with brk := new }) := by
  have hzero : sbrk s 0 room = (s.brk, s) := by simp [sbrk]
  unfold allocPages
  simp only [hzero, if_neg hpos]
  rcases sbrk_some (toI64 (u64 (pages * PAGE_SIZE))) room hlimit with hsbrk | ⟨new, hnew, hsbrk⟩
  · left
    simp only [hsbrk, if_true]
  · refine .inr ⟨new, hnew, ?_⟩
    simp only [hsbrk, if_neg hpos]

theorem allocNew_some (hpos : s.brk ≠ 0) (hlimit : s.brk ≤ heapLimit)
    (hnew : allocNew s size room = some (ptr, s')) :
    ptr = 0 ∧ s' = s ∨
      ∃ new ≤ heapLimit, ∃ free < 2^64, ∃ node < 2^64, ptr = s.brk + headerLen ∧
        s' = { s with
          mem := nodeMem s.mem s.brk size free s.endHeader node
          brk := new
          startHeader := if s.startHeader = 0 then s.brk else s.startHeader
          endHeader := if s.endHeader = 0 then s.brk else s.endHeader } := by
  have hptr : u64 (s.brk + headerLen) = s.brk + headerLen := by
    have hlen : headerLen = 48 := rfl
    unfold heapLimit at hlimit
    exact u64_of_lt (by omega)
  unfold allocNew at hnew
  rcases allocPages_some (u64 (size + headerLen) / PAGE_SIZE + 1) room hpos hlimit with
    hpages | ⟨new, hle, hpages⟩
  · simp only [hpages, if_true, some.injEq, Prod.mk.injEq] at hnew
    exact .inl ⟨hnew.1.symm, hnew.2.symm⟩
  · right
    simp only [hpages, if_neg hpos, bind_eq_bind, hptr] at hnew
    obtain ⟨node, hnode, hnew⟩ := bind_eq_some_iff.mp hnew
    -- the six stores to the new header, one after the other
    replace hnew := of_set_bind hnew
    replace hnew := of_set_bind hnew
    replace hnew := of_set_bind hnew
    replace hnew := of_set_bind hnew
    replace hnew := of_set_bind hnew
    replace hnew := of_set_bind hnew
    refine ⟨new, hle, sub64 (u64 ((u64 (size + headerLen) / PAGE_SIZE + 1) * PAGE_SIZE))
      (u64 (size + headerLen)), sub64_lt _ _, node, newNode_lt hnode, ?_⟩
    by_cases hstart : s.startHeader = 0 <;> by_cases hend : s.endHeader = 0
    all_goals simp only [hstart, hend, if_true, if_false, ne_eq, not_true_eq_false,
      not_false_eq_true] at hnew ⊢
    · cases hnew
      exact ⟨rfl, rfl⟩
    · replace hnew := of_set_bind hnew
      cases hnew
      exact ⟨rfl, by rw [nodeMem, if_neg hend]⟩
    · cases hnew
      exact ⟨rfl, rfl⟩
    · replace hnew := of_set_bind hnew
      cases hnew
      exact ⟨rfl, by rw [nodeMem, if_neg hend]⟩

theorem malloc_eq_allocNew (hfit : findFit s size s.fuel s.startHeader = some 0) :
    malloc s size room = (allocNew s size room).map fun r =>
      (r.1, if r.1 = 0 then r.2 else { r.2 with live := (r.1, size) :: r.2.live }) := by
  unfold malloc
  rw [hfit]
  simp only [bind_eq_bind, bind_some, ne_eq, not_true_eq_false, if_false]
  cases allocNew s size room <;> rfl

/-- The heap is empty, or its only header accounts for its only chunk. -/
structure AtMostOne (t : Chunked) (L : List (Nat × Nat)) : Prop where
  inv : HeapInv t.heap L
  short : L.length ≤ 1
  whole : ∀ b ∈ L, endOf (hdr t.heap.mem) b = t.heap.brk
  aligned : ∀ b ∈ L, PAGE_SIZE ∣ b.1 - t.heap.heapStart
  chunks : t.chunks = L.map fun b => (b.1, t.heap.brk - b.1)

variable {b : Nat × Nat}

theorem AtMostOne.nil_or_single (h : AtMostOne t L) : L = [] ∨ ∃ b, L = [b] := by
  have hshort := h.short
  match L with
  | [] => exact .inl rfl
  | [b] => exact .inr ⟨b, rfl⟩
  | _ :: _ :: _ => exact absurd hshort (by simp)

theorem AtMostOne.start_eq (h : AtMostOne t []) : t.heap.startHeader = 0 := by
  rcases h.inv.tidy.root with hempty | ⟨⟨c, hc, -⟩, -⟩
  · exact hempty.2
  · cases hc

theorem AtMostOne.alone (h : AtMostOne t [b]) :
    t.heap.startHeader = b.1 ∧ hdr t.heap.mem b.1 .next = 0 ∧ hdr t.heap.mem b.1 .prev = 0 := by
  have htidy := h.inv.tidy
  rcases htidy.root with ⟨hnil, -⟩ | ⟨⟨c, hc, hfirst⟩, hprev, -⟩
  · cases hnil
  · obtain rfl := mem_singleton.mp hc
    rw [← hfirst] at hprev
    refine ⟨hfirst.symm, ?_, hprev⟩
    rcases htidy.next c hc with hzero | ⟨hlt, d, hd, heq⟩
    · exact hzero
    · obtain rfl := mem_singleton.mp hd
      omega

theorem AtMostOne.lt_brk (h : AtMostOne t L) (hb : b ∈ L) : b.1 + headerLen ≤ t.heap.brk :=
  (h.inv.inHeap hb).2

theorem AtMostOne.chunksAfter_self (h : AtMostOne t L) :
    chunksAfter t.chunks t.heap.brk t.heap.brk = t.chunks := by
  have hlen : headerLen = 48 := rfl
  unfold chunksAfter
  rw [if_neg (lt_irrefl _), h.chunks]
  rcases h.nil_or_single with rfl | ⟨b, rfl⟩
  · rfl
  · have hlt := h.lt_brk mem_cons_self
    have hb : b.1 < t.heap.brk := by omega
    simp [hb]

theorem AtMostOne.inOrder (h : AtMostOne t L) : InOrder t := by
  have hlen : headerLen = 48 := rfl
  have hends := h.inv.ends
  have hlive := h.inv.live
  rcases h.nil_or_single with rfl | ⟨b, rfl⟩
  · have hstart := h.start_eq
    refine ⟨[], ⟨?_, trivial⟩, ?_, .nil, by simp, ?_, ?_⟩
    · rw [hstart]
      rfl
    · rw [hends, hstart]
      rfl
    · rw [h.chunks]
      exact .nil
    · rw [hlive]
      simp
  · obtain ⟨hstart, hnext, hprev⟩ := h.alone
    have hpos := h.inv.tidy.pos mem_cons_self
    have hlt := h.lt_brk mem_cons_self
    have hused := (h.inv.tidy.fits b mem_cons_self).2.2.1
    have hwhole := h.whole b mem_cons_self
    unfold endOf at hwhole
    refine ⟨[[b.1]], ⟨⟨?_, ?_⟩, ?_, trivial⟩, ?_, ?_, ?_, ?_, ?_⟩
    · rw [hstart, pointer_of_ne hpos.ne']
    · rw [link, hnext]
      rfl
    · rw [link, hprev]
      rfl
    · rw [hends, hstart, pointer_of_ne hpos.ne']
      rfl
    · exact pairwise_singleton _ _
    · intro x hx
      obtain rfl : x = b.1 := by simpa using hx
      exact h.inv.inHeap mem_cons_self
    · rw [h.chunks]
      refine .cons ⟨?_, ?_⟩ .nil
      · intro x hx
        obtain rfl : x = b.1 := by simpa using hx
        dsimp only
        omega
      · simp only [map_cons, map_nil, sum_cons, sum_nil, area]
        omega
    · intro c hc
      rw [hlive] at hc
      obtain rfl := mem_singleton.mp hc
      exact ⟨b.1, by simp, rfl⟩

theorem AtMostOne.findFit_empty (h : AtMostOne t []) :
    findFit t.heap size t.heap.fuel t.heap.startHeader = some 0 := by
  rw [h.start_eq, Heap.fuel, findFit, if_pos rfl]

theorem AtMostOne.malloc_first (h : AtMostOne t [])
    (hok : size + headerLen + PAGE_SIZE + (t.heap.brk - t.heap.heapStart) < 2^64) :
    malloc t.heap size room = some (0, t.heap) ∨
      ∃ s', malloc t.heap size room = some (t.heap.brk + headerLen, s') ∧
        AtMostOne ⟨s', chunksAfter t.chunks t.heap.brk s'.brk⟩ [(t.heap.brk, size)] := by
  have hlen : headerLen = 48 := rfl
  rw [malloc_eq_allocNew h.findFit_empty]
  rcases h.inv.allocNew room hok with hnone | ⟨s', hnew, hlive, hinv, hwhole, hstart⟩
  · left
    rw [hnone]
    rfl
  · right
    have hptr : t.heap.brk + headerLen ≠ 0 := by omega
    refine ⟨{ s' with live := (t.heap.brk + headerLen, size) :: t.heap.live }, ?_, hinv, le_rfl,
      ?_, ?_, ?_⟩
    · rw [hnew, map_some, if_neg hptr, hlive]
    · intro b hb
      obtain rfl := mem_singleton.mp hb
      exact hwhole
    · intro b hb
      obtain rfl := mem_singleton.mp hb
      dsimp only
      rw [hstart]
      exact h.inv.pages
    · have hgrown : t.heap.brk < s'.brk := by
        unfold endOf at hwhole
        dsimp only at hwhole
        omega
      dsimp only
      rw [chunksAfter, if_pos hgrown, h.chunks]
      rfl

theorem AtMostOne.malloc_wraps (h : AtMostOne t []) (hsize : size < 2^64)
    (hbig : 2^64 ≤ size + headerLen + PAGE_SIZE + (t.heap.brk - t.heap.heapStart)) (hmalloc : malloc t.heap size room = some (ptr, s')) :
    ptr = 0 ∧ s' = t.heap ∨ ¬ InOrder ⟨s', chunksAfter t.chunks t.heap.brk s'.brk⟩ := by
  have hlen : headerLen = 48 := rfl
  obtain ⟨hpos, hlo, hlimit⟩ := h.inv.tidy.bounds
  have hbrk : t.heap.brk ≠ 0 := by omega
  rw [malloc_eq_allocNew h.findFit_empty] at hmalloc
  obtain ⟨⟨p, u⟩, hnew, heq⟩ := map_eq_some_iff.mp hmalloc
  cases heq
  rcases allocNew_some hbrk hlimit hnew with ⟨rfl, rfl⟩ | ⟨new, hle, free, hfree, node, hnode, rfl, rfl⟩
  · exact .inl ⟨rfl, rfl⟩
  · right
    rintro ⟨hs, hord⟩
    have hptr : t.heap.brk + headerLen ≠ 0 := by omega
    simp only [if_neg hptr, h.inv.ends, h.start_eq, if_true] at hord
    have hsingle : hs.flatten = [t.heap.brk] := hord.single hbrk rfl
    have hfills := hord.fills
    have hbounds : t.heap.brk < 2^64 := by
      unfold heapLimit at hlimit
      omega
    have hused : hdr (nodeMem t.heap.mem t.heap.brk size free 0 node) t.heap.brk .used = size := by
      rw [hdr_nodeMem (.inl rfl) (fun hne => absurd rfl hne) (by omega) hbounds hsize hfree hnode,
        if_pos rfl]
    rw [h.chunks] at hfills
    by_cases hgrown : t.heap.brk < new
    · have hchunks : chunksAfter [] t.heap.brk new = [(t.heap.brk, new - t.heap.brk)] := if_pos hgrown
      simp only [map_nil, hchunks] at hfills
      obtain ⟨g, gs, hfill, hgs, rfl⟩ := forall₂_cons_left_iff.mp hfills
      obtain rfl := forall₂_nil_left_iff.mp hgs
      obtain rfl : g = [t.heap.brk] := by simpa using hsingle
      have htotal := hfill.total
      simp only [map_cons, map_nil, sum_cons, sum_nil, area, hused] at htotal
      unfold heapLimit at hlimit hle
      unfold PAGE_SIZE at hbig
      omega
    · have hchunks : chunksAfter [] t.heap.brk new = [] := if_neg hgrown
      simp only [map_nil, hchunks] at hfills
      obtain rfl := forall₂_nil_left_iff.mp hfills
      cases hsingle

/-- A second block is not in the list that ends at the first one. -/
theorem AtMostOne.malloc_second (h : AtMostOne t [b]) (hmalloc : malloc t.heap size room = some (ptr, s')) :
    ptr = 0 ∧ s' = t.heap ∨ ¬ InOrder ⟨s', chunksAfter t.chunks t.heap.brk s'.brk⟩ := by
  have hlen : headerLen = 48 := rfl
  have hmem : b ∈ [b] := mem_cons_self
  obtain ⟨-, -, hlimit⟩ := h.inv.tidy.bounds
  have hpos := h.inv.tidy.pos hmem
  have hlt := h.lt_brk hmem
  obtain ⟨hstart, -, -⟩ := h.alone
  have hne : t.heap.startHeader ≠ 0 := by omega
  obtain ⟨r, hr, hfound⟩ := h.inv.findFit_start size
  rcases hfound with rfl | ⟨c, hc, rfl, hfree, hfit⟩
  · rw [malloc_eq_allocNew hr] at hmalloc
    obtain ⟨⟨p, u⟩, hnew, heq⟩ := map_eq_some_iff.mp hmalloc
    cases heq
    rcases allocNew_some (by omega) hlimit hnew with
      ⟨rfl, rfl⟩ | ⟨new, -, free, -, node, -, rfl, rfl⟩
    · exact .inl ⟨rfl, rfl⟩
    · right
      rintro ⟨hs, hord⟩
      have hptr : t.heap.brk + headerLen ≠ 0 := by omega
      simp only [if_neg hptr, h.inv.ends, if_neg hne] at hord
      have hlive := hord.live_eq hne rfl mem_cons_self
      dsimp only at hlive
      omega
  · right
    rintro ⟨hs, hord⟩
    obtain rfl := mem_singleton.mp hc
    obtain ⟨m, hblock, -⟩ := h.inv.allocBlock hc hfree hfit
    have hptr : c.1 + headerLen + c.2 + headerLen ≠ 0 := by omega
    have hmalloc' : malloc t.heap size room = some (c.1 + headerLen + c.2 + headerLen, { t.heap with
        mem := m
        live := (c.1 + headerLen + c.2 + headerLen, size) :: t.heap.live }) := by
      unfold malloc
      rw [hr]
      simp only [bind_eq_bind, bind_some, ne_eq, hpos.ne', not_false_eq_true, if_true,
        hblock, if_neg hptr]
    rw [hmalloc'] at hmalloc
    cases hmalloc
    have hlive := hord.live_eq hne h.inv.ends mem_cons_self
    dsimp only at hlive
    omega

theorem sbrk_back {T : Nat} (hlo : s.heapStart ≤ h) (hpages : PAGE_SIZE ∣ h - s.heapStart)
    (hT : 0 < T) (hwhole : h + T = s.brk) (hlimit : s.brk ≤ heapLimit) :
    (sbrk s (toI64 (sub64 0 T)) true).2 = { s with brk := h } := by
  have hback : toI64 (sub64 0 T) = -(T : Int) := by
    unfold heapLimit at hlimit
    unfold toI64 sub64
    omega
  have hbreak : s.heapStart + ((((s.brk - s.heapStart : Nat) : Int) + -(T : Int)).toNat +
      PAGE_SIZE - 1) / PAGE_SIZE * PAGE_SIZE = h := by
    unfold PAGE_SIZE at hpages ⊢
    omega
  unfold sbrk
  rw [hback]
  dsimp only
  rw [if_neg (by omega), if_neg (by omega), hbreak, if_pos (.inl (by omega))]

/-- `free` reads the header of the last chunk after it has given the chunk back. -/
theorem releaseNode_faults (hin : InHeap s h) (hnext : hdr s.mem h .next = 0)
    (hprev : hdr s.mem h .prev = 0) (hused : hdr s.mem h .used = 0)
    (hpages : PAGE_SIZE ∣ h - s.heapStart) (hwhole : h + (hdr s.mem h .free + headerLen) = s.brk)
    (hlimit : s.brk ≤ heapLimit) : releaseNode s h = none := by
  have hlen : headerLen = 48 := rfl
  have hfree : u64 (hdr s.mem h .free + headerLen) = hdr s.mem h .free + headerLen := by
    unfold heapLimit at hlimit
    exact u64_of_lt (by omega)
  have hback : freePages s h = some (true, { s with brk := h }) := by
    unfold freePages
    simp only [get_eq hin, hnext, hused, bind_eq_bind, bind_some, ne_eq,
      not_true_eq_false, if_false, hfree]
    rw [sbrk_back hin.1 hpages (by omega) hwhole hlimit]
  have hother : otherNode s h 0 = some true := if_pos rfl
  have hgone : Heap.get { s with brk := h } h .next = none :=
    if_neg fun hget => absurd hget.2 (by dsimp only; omega)
  unfold releaseNode
  simp only [get_eq hin, hnext, hprev, hused, hother, bind_eq_bind, bind_some, hback,
    Bool.not_true, Bool.false_eq_true, if_false, ne_eq, not_true_eq_false, hgone, bind_none]

theorem AtMostOne.free_faults (h : AtMostOne t [b]) : free t.heap (b.1 + headerLen) = none := by
  have hlen : headerLen = 48 := rfl
  have hmem : b ∈ [b] := mem_cons_self
  obtain ⟨hpos, hlo, hlimit⟩ := h.inv.tidy.bounds
  obtain ⟨hstart, hnext, hprev⟩ := h.alone
  obtain ⟨-, -, hused, hmagic⟩ := h.inv.tidy.fits b hmem
  have hin := h.inv.inHeap hmem
  have hwhole := h.whole b hmem
  have hkeep : ∀ m, InHeap { t.heap with mem := m } b.1 := fun _ => hin
  have hsub : sub64 (b.1 + headerLen) headerLen = b.1 := by
    have := hin.2
    unfold heapLimit at hlimit
    rw [sub64_of_le (by omega) (by omega), Nat.add_sub_cancel]
  have hsum : hdr t.heap.mem b.1 .free + hdr t.heap.mem b.1 .used < 2^64 := by
    unfold heapLimit at hlimit
    unfold endOf at hwhole
    omega
  -- nothing is merged: the header has no neighbours
  obtain ⟨m, hm⟩ : ∃ m, m = clearedMem t.heap.mem b.1 := ⟨_, rfl⟩
  have hcleared : ∀ f, f ≠ .free → hdr m b.1 f = if b.1 = b.1 ∧ f = .used then 0 else _ :=
    fun f hf => hm ▸ hdr_clearedMem (.inl rfl) f hf
  have hnext' : hdr m b.1 .next = 0 := by rw [hcleared .next (by simp), if_neg (by simp), hnext]
  have hprev' : hdr m b.1 .prev = 0 := by rw [hcleared .prev (by simp), if_neg (by simp), hprev]
  have hused' : hdr m b.1 .used = 0 := by rw [hcleared .used (by simp), if_pos ⟨rfl, rfl⟩]
  have hfree' : hdr m b.1 .free = hdr t.heap.mem b.1 .free + hdr t.heap.mem b.1 .used := by
    rw [hm, clearedMem, hdr_put (by decide) (.inl rfl), hdr_put (u64_lt _) (.inl rfl),
      if_neg (by simp), if_pos ⟨rfl, rfl⟩, u64_of_lt hsum]
  have hrelease : releaseNode { t.heap with mem := m } b.1 = none := by
    apply releaseNode_faults (hkeep m) hnext' hprev' hused' (h.aligned b hmem) _ hlimit
    dsimp only
    rw [hfree']
    unfold endOf at hwhole
    omega
  unfold free
  rw [hsub]
  dsimp only
  rw [if_neg (by omega), get_eq hin]
  simp only [bind_eq_bind, bind_some, hmagic, ne_eq, not_true_eq_false, if_false,
    get_eq hin, set_eq hin, set_eq (hkeep _)]
  rw [← clearedMem, ← hm]
  simp only [get_eq (hkeep _), bind_some, hprev']
  rw [Heap.fuel, mergeLeft_stop (.inl rfl)]
  simp only [bind_some, get_eq (hkeep _), hnext']
  rw [Heap.fuel, mergeRight_stop (.inl rfl)]
  exact hrelease

/-- The steps after which the list is still in order: a `malloc` that returns null, the
first one that does not with a size that does not wrap, and stores to the block. -/
def KeepsOrder (s : Heap) : HeapOp → Prop
  | .malloc size room => malloc s size room = some (0, s) ∨
      s.startHeader = 0 ∧ size + headerLen + PAGE_SIZE + (s.brk - s.heapStart) < 2^64
  | .free _ => False
  | .store _ _ => True

theorem AtMostOne.malloc_null (h : AtMostOne t L) (hnull : malloc t.heap size room = some (0, t.heap)) :
    chunkStep t (.malloc size room) = some t := by
  rw [chunkStep, heapStep, hnull, map_some, map_some, h.chunksAfter_self]

theorem AtMostOne.store (h : AtMostOne t L) {addr : Nat} (byte : UInt8)
    (hlegal : Legal t.heap (.store addr byte)) :
    ∃ t', chunkStep t (.store addr byte) = some t' ∧ AtMostOne t' L := by
  obtain ⟨b, hb, hlo, hhi⟩ := hlegal
  rw [h.inv.live] at hb
  obtain ⟨c, hc, rfl⟩ := mem_map.mp hb
  have hinv := h.inv.store hc byte hlo hhi
  refine ⟨_, rfl, hinv, h.short, ?_, h.aligned, ?_⟩
  · intro d hd
    rw [← h.whole d hd, endOf, endOf]
    dsimp only
    rw [h.inv.hdr_store hc byte hlo hhi hd]
  · exact h.chunksAfter_self.trans h.chunks

theorem AtMostOne.step (h : AtMostOne t L) (hlegal : Legal t.heap op)
    (hkeep : KeepsOrder t.heap op) : ∃ t' L', chunkStep t op = some t' ∧ AtMostOne t' L' := by
  cases op with
  | malloc size room =>
    rcases hkeep with hnull | ⟨hzero, hok⟩
    · exact ⟨t, L, h.malloc_null hnull, h⟩
    · rcases h.nil_or_single with rfl | ⟨b, rfl⟩
      · rcases h.malloc_first hok with hnull | ⟨s', hmalloc, h'⟩
        · exact ⟨t, [], h.malloc_null hnull, h⟩
        · exact ⟨_, _, by rw [chunkStep, heapStep, hmalloc]; rfl, h'⟩
      · have hpos := h.inv.tidy.pos mem_cons_self
        have hstart := h.alone.1
        omega
  | free ptr => exact hkeep.elim
  | store addr byte =>
    obtain ⟨t', hstep, h'⟩ := h.store byte hlegal
    exact ⟨t', L, hstep, h'⟩

theorem AtMostOne.keepsOrder (h : AtMostOne t L) (hlegal : Legal t.heap op)
    {t' : Chunked} (hstep : chunkStep t op = some t') (hord : InOrder t') :
    KeepsOrder t.heap op := by
  obtain ⟨s', hs', rfl⟩ := map_eq_some_iff.mp hstep
  cases op with
  | malloc size room =>
    obtain ⟨⟨ptr, u⟩, hmalloc, rfl⟩ := map_eq_some_iff.mp hs'
    rcases h.nil_or_single with rfl | ⟨b, rfl⟩
    · by_cases hok : size + headerLen + PAGE_SIZE + (t.heap.brk - t.heap.heapStart) < 2^64
      · exact .inr ⟨h.start_eq, hok⟩
      · rcases h.malloc_wraps hlegal (by omega) hmalloc with ⟨rfl, rfl⟩ | hnot
        · exact .inl hmalloc
        · exact absurd hord hnot
    · rcases h.malloc_second hmalloc with ⟨rfl, rfl⟩ | hnot
      · exact .inl hmalloc
      · exact absurd hord hnot
  | free ptr =>
    obtain ⟨c, hc, rfl⟩ := hlegal
    rw [h.inv.live] at hc
    rcases h.nil_or_single with rfl | ⟨b, rfl⟩
    · cases hc
    · obtain rfl := mem_singleton.mp hc
      rw [heapStep, h.free_faults] at hs'
      cases hs'
  | store addr byte => trivial

theorem NewHeap.atMostOne (h : NewHeap s) : AtMostOne ⟨s, []⟩ [] :=
  ⟨h.inv, by simp, by simp, by simp, rfl⟩

end Comus.User
