import Comus.User.MallocMem

/-!
# Runs of `malloc` and `free`

`free` keeps the layout of the heap only where it takes the last block of a node
away from a neighbour that is in use, and `malloc` only where the sizes do not
wrap. A run of such calls never hands out overlapping blocks.
-/

namespace Comus.User

open Word Bytes Option List Function

variable {s : Heap}
variable {size addr : Nat} {p : Nat × Nat}

structure HeapInv (s : Heap) (L : List (Nat × Nat)) : Prop where
  tidy : Tidy (hdr s.mem) L s.heapStart s.brk s.startHeader
  live : s.live = L.map fun b => (b.1 + headerLen, b.2)
  ends : s.endHeader = s.startHeader
  pages : PAGE_SIZE ∣ s.brk - s.heapStart

variable {L : List (Nat × Nat)} {c d : Nat × Nat}

section HeapInv

variable (hi : HeapInv s L)
include hi

theorem HeapInv.inHeap (hc : c ∈ L) : InHeap s c.1 := by
  have hfits := hi.tidy.fits c hc
  exact ⟨hfits.1, (header_lt_endOf _ c).trans hfits.2.1⟩

theorem HeapInv.clear (hc : c ∈ L) (hd : d ∈ L) : Clear c.1 d.1 := by
  by_cases hcd : c.1 = d.1
  · exact .inl hcd
  · right
    rcases hi.tidy.areas hc hd hcd with hle | hle
    · exact .inl ((header_lt_endOf _ c).trans hle)
    · exact .inr ((header_lt_endOf _ d).trans hle)

theorem HeapInv.findFit {fuel header : Nat}
    (hfuel : header = 0 ∧ 0 < fuel ∨ ∃ c ∈ L, c.1 = header ∧ s.brk - header < fuel) :
    ∃ r, User.findFit s size fuel header = some r ∧
      (r = 0 ∨ ∃ c ∈ L, c.1 = r ∧ headerLen ≤ hdr s.mem r .free ∧
        size ≤ hdr s.mem r .free - headerLen) := by
  induction fuel generalizing header with
  | zero => rcases hfuel with ⟨-, h0⟩ | ⟨_, -, -, h0⟩ <;> omega
  | succ fuel ih =>
    unfold User.findFit
    rcases hfuel with ⟨rfl, -⟩ | ⟨c, hc, rfl, hlt⟩
    · exact ⟨0, if_pos rfl, .inl rfl⟩
    · have hin := hi.inHeap hc
      -- the next header is further up
      have hnext : ∃ r, User.findFit s size fuel (hdr s.mem c.1 .next) = some r ∧
          (r = 0 ∨ ∃ d ∈ L, d.1 = r ∧ headerLen ≤ hdr s.mem r .free ∧
            size ≤ hdr s.mem r .free - headerLen) := by
        have hlen : headerLen = 48 := rfl
        have hhi := hin.2
        apply ih
        rcases hi.tidy.next c hc with hzero | ⟨hup, d, hd, hdn⟩
        · exact .inl ⟨hzero, by omega⟩
        · exact .inr ⟨d, hd, hdn, by omega⟩
      rw [if_neg (hi.tidy.pos hc).ne', get_eq hin, get_eq hin]
      simp only [bind_eq_bind, bind_some]
      split_ifs with hsmall hfit
      · exact hnext
      · exact ⟨c.1, rfl, .inr ⟨c, hc, rfl, by omega, hfit⟩⟩
      · exact hnext

theorem HeapInv.findFit_start (size : Nat) :
    ∃ r, User.findFit s size s.fuel s.startHeader = some r ∧
      (r = 0 ∨ ∃ c ∈ L, c.1 = r ∧ headerLen ≤ hdr s.mem r .free ∧
        size ≤ hdr s.mem r .free - headerLen) := by
  apply hi.findFit
  rcases hi.tidy.root with ⟨-, hzero⟩ | ⟨⟨c, hc, hcf⟩, -⟩
  · exact .inl ⟨hzero, Nat.succ_pos _⟩
  · exact .inr ⟨c, hc, hcf, by unfold Heap.fuel; omega⟩

theorem HeapInv.splitAt (hc : c ∈ L) {N : Nat}
    (hN : N = c.1 + headerLen + c.2) (hfree : headerLen ≤ hdr s.mem c.1 .free)
    (hsize : size ≤ hdr s.mem c.1 .free - headerLen) :
    SplitAt (hdr s.mem) (hdr (blockMem s.mem c.1 N size)) L c N size := by
  have hlen : headerLen = 48 := rfl
  have hbounds := hi.tidy.bounds
  have hlimit : heapLimit < 2^64 := by decide
  have hend := (hi.tidy.fits c hc).2.1
  have hNend : N + headerLen ≤ endOf (hdr s.mem) c := by
    unfold endOf
    omega
  have hsize' : size < 2^64 := by
    have := hdr_lt s.mem c.1 .free
    omega
  have hN' : N < 2^64 := by omega
  have hcN : c.1 + headerLen ≤ N := by omega
  have hclearN : ∀ d ∈ L, Clear N d.1 := by
    intro d hd
    by_cases hdc : d.1 = c.1
    · exact .inr (.inr (by omega))
    · have := header_lt_endOf (hdr s.mem) d
      rcases hi.tidy.areas hc hd (Ne.symm hdc) with hle | hle
      · exact .inr (.inl (by omega))
      · exact .inr (.inr (by omega))
  have hold : ∀ d ∈ L, ∀ f, hdr (blockMem s.mem c.1 N size) d.1 f = _ := fun d hd f =>
    hdr_blockMem (hi.clear hc hd) (hclearN d hd) hcN hsize' hN' f
  have hnew : ∀ f, hdr (blockMem s.mem c.1 N size) N f = _ := fun f =>
    hdr_blockMem (.inr (.inl hcN)) (.inl rfl) hcN hsize' hN' f
  have hne : N ≠ c.1 := by omega
  constructor
  · intro d hd f hf
    rw [hold d hd]
    by_cases hdc : d.1 = c.1
    · rw [if_pos hdc, hdc]
      obtain ⟨hfree, hnext⟩ := hf.resolve_left (not_not.mpr hdc)
      cases f with
      | free => exact absurd rfl hfree
      | next => exact absurd rfl hnext
      | _ => rfl
    · have hdN : d.1 ≠ N := hN ▸ hi.tidy.not_inside hc hfree hd
      rw [if_neg hdc, if_neg hdN]
  · rw [hold c hc, if_pos rfl]
  · rw [hold c hc, if_pos rfl]
  all_goals rw [hnew, if_neg hne, if_pos rfl]

theorem HeapInv.nodeAt {hi' free : Nat}
    (hend : s.brk + headerLen + size + free = hi') (hlimit : hi' ≤ heapLimit) :
    NodeAt (hdr s.mem) (hdr (nodeHeap s hi' size free).mem) L s.startHeader s.brk size free := by
  have hlen : headerLen = 48 := rfl
  have hbig : heapLimit < 2^64 := by decide
  have hbounds := hi.tidy.bounds
  have hbelow : ∀ d ∈ L, d.1 + headerLen ≤ s.brk := fun d hd => (hi.inHeap hd).2
  have hfirst : s.startHeader = 0 ∨ ∃ c ∈ L, c.1 = s.startHeader ∧
      hdr s.mem s.startHeader .nodeNumber = 0 := by
    rcases hi.tidy.root with ⟨-, hzero⟩ | ⟨⟨c, hc, hcf⟩, -, hnode⟩
    · exact .inl hzero
    · exact .inr ⟨c, hc, hcf, hnode⟩
  have hlt : s.startHeader ≠ 0 → s.startHeader + headerLen ≤ s.brk := by
    intro hne
    obtain ⟨c, hc, hcf, -⟩ := hfirst.resolve_left hne
    exact hcf ▸ hbelow c hc
  have hclear : ∀ d ∈ L, s.startHeader ≠ 0 → Clear s.startHeader d.1 := by
    intro d hd hne
    obtain ⟨c, hc, hcf, -⟩ := hfirst.resolve_left hne
    exact hcf ▸ hi.clear hc hd
  have hnode : (if s.startHeader = 0 then 0 else u64 (hdr s.mem s.startHeader .nodeNumber + 1)) =
      if s.startHeader = 0 then 0 else 1 := by
    rcases hfirst with hzero | ⟨c, hc, hcf, hz⟩
    · simp [hzero]
    · rw [hz, u64_of_lt (by decide)]
  have hnodelt : (if s.startHeader = 0 then 0 else 1) < 2^64 := by
    split_ifs <;> decide
  have hmem : (nodeHeap s hi' size free).mem = nodeMem s.mem s.brk size free s.startHeader
      (if s.startHeader = 0 then 0 else 1) := by
    unfold nodeHeap
    rw [hnode]
  have hhdr : ∀ x, Clear s.brk x → (s.startHeader ≠ 0 → Clear s.startHeader x) → ∀ f,
      hdr (nodeMem s.mem s.brk size free s.startHeader (if s.startHeader = 0 then 0 else 1)) x f = _ :=
    fun x hx hx' f => hdr_nodeMem hx hx' (by omega) (by omega) (by omega) (by omega) hnodelt f
  have hnew := hhdr s.brk (.inl rfl) fun hne => .inr (.inl (hlt hne))
  rw [hmem]
  constructor
  · intro d hd f hf
    have hdbrk := hbelow d hd
    rw [hhdr d.1 (.inr (.inr hdbrk)) (hclear d hd), if_neg (by omega), if_neg]
    rintro ⟨hdf, -, rfl⟩
    rcases hf with hf | hf
    · exact hf hdf
    · exact hf rfl
  · intro hne
    have := hlt hne
    rw [hhdr s.startHeader (.inr (.inr this)) (fun _ => .inl rfl), if_neg (by omega),
      if_pos ⟨rfl, hne, rfl⟩]
  all_goals rw [hnew, if_pos rfl]

theorem HeapInv.allocNew (room : Bool)
    (hok : size + headerLen + PAGE_SIZE + (s.brk - s.heapStart) < 2^64) :
    User.allocNew s size room = some (0, s) ∨
      ∃ s', User.allocNew s size room = some (s.brk + headerLen, s') ∧ s'.live = s.live ∧
        HeapInv { s' with live := (s.brk + headerLen, size) :: s.live } ((s.brk, size) :: L) ∧
        endOf (hdr s'.mem) (s.brk, size) = s'.brk ∧ s'.heapStart = s.heapStart := by
  obtain ⟨hpos, hlo, hlimit⟩ := hi.tidy.bounds
  have hfirst : s.startHeader = 0 ∨ InHeap s s.startHeader := by
    rcases hi.tidy.root with ⟨-, hzero⟩ | ⟨⟨c, hc, hcf⟩, -⟩
    · exact .inl hzero
    · exact .inr (hcf ▸ hi.inHeap hc)
  rcases allocNew_cases room (by omega) hlo hi.pages hok hi.ends hfirst with
    hnone | ⟨free, hi', hend, hlimit', hpages, hnew⟩
  · exact .inl hnone
  · have hs := hi.nodeAt hend hlimit'
    have hbreak : endOf (hdr (nodeHeap s hi' size free).mem) (s.brk, size) = hi' := by
      unfold endOf
      rw [hs.newFree]
      exact hend
    refine .inr ⟨_, hnew, rfl, ⟨?_, ?_, rfl, hpages⟩, hbreak, rfl⟩
    · rcases hi.tidy.root with ⟨rfl, hzero⟩ | ⟨⟨c, hc, hcf⟩, -⟩
      · have hstart : (nodeHeap s hi' size free).startHeader = s.brk := if_pos hzero
        dsimp only
        rw [hstart]
        rw [hzero] at hs
        exact tidy_first (by omega) hlimit' hlo hpos hend hs
      · have hcpos := hi.tidy.pos hc
        have hstart : (nodeHeap s hi' size free).startHeader = s.startHeader :=
          if_neg (by omega)
        dsimp only
        rw [hstart]
        exact hi.tidy.newNode hlimit' hend hs (ne_nil_of_mem hc)
    · rw [hi.live]
      rfl

theorem HeapInv.allocBlock (hc : c ∈ L) (hfree : headerLen ≤ hdr s.mem c.1 .free) (hfit : size ≤ hdr s.mem c.1 .free - headerLen) :
    ∃ m, User.allocBlock s size c.1 =
        some (c.1 + headerLen + c.2 + headerLen, { s with mem := m }) ∧
      HeapInv { s with
        mem := m
        live := (c.1 + headerLen + c.2 + headerLen, size) :: s.live }
        ((c.1 + headerLen + c.2, size) :: L) := by
  have hlen : headerLen = 48 := rfl
  have hlimit := hi.tidy.bounds.2.2
  have hused := (hi.tidy.fits c hc).2.2.1
  have hend := (hi.tidy.fits c hc).2.1
  have hheader : c.1 + headerLen + c.2 = c.1 + hdr s.mem c.1 .used + headerLen := by omega
  have hN : InHeap s (c.1 + headerLen + c.2) := by
    have := (hi.inHeap hc).1
    unfold endOf at hend
    exact ⟨by omega, by omega⟩
  refine ⟨blockMem s.mem c.1 (c.1 + headerLen + c.2) size,
    allocBlock_eq (hi.inHeap hc) hN hheader hlimit (by omega), ?_, ?_, hi.ends, hi.pages⟩
  · exact hi.tidy.split hc rfl hfree hfit (hi.splitAt hc rfl hfree hfit)
  · rw [hi.live]
    rfl

theorem HeapInv.malloc (room : Bool)
    (hok : size + headerLen + PAGE_SIZE + (s.brk - s.heapStart) < 2^64) :
    ∃ ptr s' L', User.malloc s size room = some (ptr, s') ∧ HeapInv s' L' := by
  have hlen : headerLen = 48 := rfl
  obtain ⟨r, hr, hfound⟩ := hi.findFit_start size
  unfold User.malloc
  rw [hr]
  simp only [bind_eq_bind, bind_some]
  rcases hfound with rfl | ⟨c, hc, rfl, hfree, hfit⟩
  · rw [if_neg (by simp)]
    rcases hi.allocNew room hok with hnone | ⟨s', hnew, hlive, hi', -⟩
    · exact ⟨0, s, L, by rw [hnone]; rfl, hi⟩
    · have hptr : s.brk + headerLen ≠ 0 := by omega
      refine ⟨s.brk + headerLen, _, _, ?_, hi'⟩
      rw [hnew]
      simp only [bind_some, if_neg hptr, hlive]
  · have hcpos := hi.tidy.pos hc
    obtain ⟨m, hblock, hi'⟩ := hi.allocBlock hc hfree hfit
    have hptr : c.1 + headerLen + c.2 + headerLen ≠ 0 := by omega
    refine ⟨c.1 + headerLen + c.2 + headerLen, _, _, ?_, hi'⟩
    rw [if_pos (by omega), hblock]
    simp only [bind_some, if_neg hptr]

end HeapInv

/-- The header `h` is the last one of its node, its left neighbour is in use, and so is
the one before that, if it is of the same node. -/
structure FreesLast (m : Memory) (h : Nat) : Prop where
  left : hdr m h .prev ≠ 0
  node : hdr m (hdr m h .prev) .nodeNumber = hdr m h .nodeNumber
  used : hdr m (hdr m h .prev) .used ≠ 0
  before : hdr m (hdr m h .prev) .prev = 0 ∨
    hdr m (hdr m (hdr m h .prev) .prev) .nodeNumber ≠ hdr m (hdr m h .prev) .nodeNumber ∨
    hdr m (hdr m (hdr m h .prev) .prev) .used ≠ 0
  last : hdr m h .next = 0 ∨ hdr m (hdr m h .next) .nodeNumber ≠ hdr m h .nodeNumber

section HeapInv

variable (hi : HeapInv s L) (hc : c ∈ L)
include hi hc

theorem HeapInv.left (hlast : FreesLast s.mem c.1) :
    ∃ p ∈ L, hdr s.mem c.1 .prev = p.1 ∧ LeftOf (hdr s.mem) p c := by
  obtain ⟨p, hp, hpc⟩ := hi.tidy.prev_mem hc hlast.left
  exact ⟨p, hp, hpc.symm, hpc.symm, by rw [hpc, hlast.node]⟩

theorem HeapInv.sum_lt (hp : p ∈ L) (hl : LeftOf (hdr s.mem) p c) :
    hdr s.mem p.1 .free + (hdr s.mem c.1 .free + hdr s.mem c.1 .used + headerLen) < 2^64 := by
  have hend := (hi.tidy.fits c hc).2.1
  have hlimit := hi.tidy.bounds.2.2
  have hbig : heapLimit < 2^64 := by decide
  rw [(hi.tidy.joined c hc p hp hl).2, (hi.tidy.fits c hc).2.2.1]
  unfold endOf at hend
  omega

theorem HeapInv.free_eq (hlast : FreesLast s.mem c.1)
    (hp : p ∈ L) (hpc : hdr s.mem c.1 .prev = p.1) (hl : LeftOf (hdr s.mem) p c) :
    User.free s (c.1 + headerLen) = some { s with mem := popMem s.mem c.1 p.1 } := by
  have hlen : headerLen = 48 := rfl
  obtain ⟨hne, hnode, hpused, hbefore, hend⟩ := hlast
  rw [hpc] at hne hnode hpused hbefore
  obtain ⟨hjoin, -⟩ := hi.tidy.joined c hc p hp hl
  have hin := hi.inHeap hc
  have hinp := hi.inHeap hp
  have hbounds := hi.tidy.bounds
  have hcp : c.1 ≠ p.1 := by omega
  have hself : Clear c.1 c.1 := .inl rfl
  have hclear : Clear c.1 p.1 := hi.clear hc hp
  have hsum := hi.sum_lt hc hp hl
  have hsub : sub64 (c.1 + headerLen) headerLen = c.1 := by
    have := hin.2
    unfold heapLimit at hbounds
    rw [sub64_of_le (by omega) (by omega), Nat.add_sub_cancel]
  have hpop : ∀ d ∈ L, ∀ f, hdr (popMem s.mem c.1 p.1) d.1 f = _ := fun d hd f =>
    hdr_popMem (hi.clear hc hd) (hi.clear hp hd) (by omega) hsum f
  have hkeep : ∀ d ∈ L, ∀ m, InHeap { s with mem := m } d.1 := fun d hd _ => hi.inHeap hd
  have hcleared : ∀ d ∈ L, ∀ f, f ≠ .free → hdr (clearedMem s.mem c.1) d.1 f = _ :=
    fun d hd f hf => hdr_clearedMem (hi.clear hc hd) f hf
  obtain ⟨k, hk⟩ : ∃ k, s.brk = k + 1 := ⟨s.brk - 1, by omega⟩
  have hfuel : ∀ m, Heap.fuel { s with mem := m } = k + 1 + 1 := fun _ => by rw [Heap.fuel, hk]
  have hother : ∀ d ∈ L, d.1 ≠ p.1 → d.1 ≠ c.1 → ∀ f,
      hdr (popMem s.mem c.1 p.1) d.1 f = hdr s.mem d.1 f := fun d hd hdp hdc f => by
    rw [hpop d hd, if_neg hdp, if_neg hdc]
  have hpopp : ∀ f, f ≠ .free → f ≠ .next →
      hdr (popMem s.mem c.1 p.1) p.1 f = hdr s.mem p.1 f := fun f hf hf' => by
    rw [hpop p hp, if_pos rfl]
    cases f with
    | free => exact absurd rfl hf
    | next => exact absurd rfl hf'
    | _ => rfl
  have hpopnext : hdr (popMem s.mem c.1 p.1) p.1 .next = hdr s.mem c.1 .next := by
    rw [hpop p hp, if_pos rfl]
  -- the header before the neighbour is another one
  have hfar : ∀ q ∈ L, q.1 = hdr s.mem p.1 .prev → q.1 ≠ p.1 ∧ q.1 ≠ c.1 := by
    intro q hq hqp
    constructor
    · intro heq
      have hleft : LeftOf (hdr s.mem) q p := ⟨hqp.symm, by rw [heq]⟩
      have := (hi.tidy.joined p hp q hq hleft).1
      omega
    · intro heq
      have hleft : LeftOf (hdr s.mem) q p := ⟨hqp.symm, by rw [heq, hnode]⟩
      have := (hi.tidy.joined p hp q hq hleft).1
      omega
  have hprevp : hdr s.mem p.1 .prev = 0 ∨ ∃ q ∈ L, q.1 = hdr s.mem p.1 .prev := by
    by_cases hzero : hdr s.mem p.1 .prev = 0
    · exact .inl hzero
    · exact .inr (hi.tidy.prev_mem hp hzero)
  have hnextc : hdr s.mem c.1 .next = 0 ∨ ∃ x ∈ L, x.1 = hdr s.mem c.1 .next ∧ c.1 < x.1 := by
    rcases hi.tidy.next c hc with hzero | ⟨hlt, x, hx, hxn⟩
    · exact .inl hzero
    · exact .inr ⟨x, hx, hxn, hxn ▸ hlt⟩
  -- the block is merged into its left neighbour, and neither loop goes on
  have hmerge : mergeLeft (k + 1 + 1) { s with mem := clearedMem s.mem c.1 } c.1 p.1 =
      some (p.1, { s with mem := popMem s.mem c.1 p.1 }) := by
    rw [mergeLeft_merge (hkeep c hc _) (hkeep p hp _) hne]
    · have hstop : mergeLeft (k + 1) { s with mem := popMem s.mem c.1 p.1 } p.1
          (hdr (popMem s.mem c.1 p.1) p.1 .prev) =
          some (p.1, { s with mem := popMem s.mem c.1 p.1 }) := by
        apply mergeLeft_stop
        rw [hpopp .prev (by simp) (by simp)]
        rcases hprevp with hzero | ⟨q, hq, hqp⟩
        · exact .inl hzero
        · obtain ⟨hqp', hqc⟩ := hfar q hq hqp
          rw [← hqp] at hbefore ⊢
          refine .inr ⟨hkeep p hp _, hkeep q hq _, ?_⟩
          dsimp only
          rw [hother q hq hqp' hqc, hother q hq hqp' hqc, hpopp .nodeNumber (by simp) (by simp),
            hpopp .used (by simp) (by simp)]
          have hqpos := hi.tidy.pos hq
          rcases hbefore with hzero | hnode' | hused
          · omega
          · exact .inl hnode'
          · exact .inr ⟨hused, hpused⟩
      exact hstop
    · dsimp only
      rw [hcleared p hp .nodeNumber (by simp), hcleared c hc .nodeNumber (by simp),
        if_neg (by simp), if_neg (by simp), hnode]
    · dsimp only
      rw [hcleared c hc .used (by simp), if_pos ⟨rfl, rfl⟩]
  have hright : mergeRight (k + 1 + 1) { s with mem := popMem s.mem c.1 p.1 } p.1
      (hdr (popMem s.mem c.1 p.1) p.1 .next) = some { s with mem := popMem s.mem c.1 p.1 } := by
    apply mergeRight_stop
    rw [hpopnext]
    rcases hnextc with hzero | ⟨x, hx, hxn, hlt⟩
    · exact .inl hzero
    · rw [← hxn] at hend ⊢
      refine .inr ⟨hkeep p hp _, hkeep x hx _, ?_⟩
      dsimp only
      rw [hother x hx (by omega) (by omega), hpopp .nodeNumber (by simp) (by simp), hnode]
      have hxpos := hi.tidy.pos hx
      exact hend.resolve_left (by omega)
  have hrelease : releaseNode { s with mem := popMem s.mem c.1 p.1 } p.1 =
      some { s with mem := popMem s.mem c.1 p.1 } := by
    apply releaseNode_used (hkeep p hp _)
    · dsimp only
      rw [hpopp .used (by simp) (by simp)]
      exact hpused
    · dsimp only
      rw [hpopnext]
      rcases hnextc with hzero | ⟨x, hx, hxn, -⟩
      · exact .inl hzero
      · exact .inr (hxn ▸ hkeep x hx _)
    · dsimp only
      rw [hpopp .prev (by simp) (by simp)]
      rcases hprevp with hzero | ⟨q, hq, hqp⟩
      · exact .inl hzero
      · exact .inr (hqp ▸ hkeep q hq _)
  unfold User.free
  rw [hsub]
  dsimp only
  rw [if_neg (by omega), get_eq hin]
  simp only [bind_eq_bind, bind_some, (hi.tidy.fits c hc).2.2.2, ne_eq,
    not_true_eq_false, if_false, get_eq hin, set_eq hin, set_eq (hkeep c hc _),
    get_eq (hkeep c hc _)]
  have hprev : hdr (clearedMem s.mem c.1) c.1 .prev = p.1 := by
    rw [hcleared c hc .prev (by simp), if_neg (by simp), hpc]
  unfold clearedMem at hprev hmerge
  rw [hprev, hfuel, hmerge]
  simp only [bind_some, get_eq (hkeep p hp _), hfuel, hright, hrelease]

theorem HeapInv.popAt (hp : p ∈ L) (hl : LeftOf (hdr s.mem) p c) :
    PopAt (hdr s.mem) (hdr (popMem s.mem c.1 p.1)) L p c := by
  have hlen : headerLen = 48 := rfl
  have hjoin := (hi.tidy.joined c hc p hp hl).1
  have hpop : ∀ d ∈ L, ∀ f, hdr (popMem s.mem c.1 p.1) d.1 f = _ := fun d hd f =>
    hdr_popMem (hi.clear hc hd) (hi.clear hp hd) (by omega) (hi.sum_lt hc hp hl) f
  constructor
  · intro d hd hdc f hf
    rw [hpop d hd]
    by_cases hdp : d.1 = p.1
    · rw [if_pos hdp, hdp]
      obtain ⟨hfree, hnext⟩ := hf.resolve_left (not_not.mpr hdp)
      cases f with
      | free => exact absurd rfl hfree
      | next => exact absurd rfl hnext
      | _ => rfl
    · rw [if_neg hdp, if_neg hdc]
  · rw [hpop p hp, if_pos rfl, (hi.tidy.fits c hc).2.2.1]
  · rw [hpop p hp, if_pos rfl]

end HeapInv

theorem eraseP_live (L : List (Nat × Nat)) (c : Nat × Nat) (hinj : ∀ b ∈ L, b.1 = c.1 → b = c) :
    ((L.map fun b => (b.1 + headerLen, b.2)).eraseP fun b => b.1 = c.1 + headerLen) =
      (L.erase c).map fun b => (b.1 + headerLen, b.2) := by
  induction L with
  | nil => rfl
  | cons b L ih =>
    have ih := ih fun d hd => hinj d (mem_cons_of_mem _ hd)
    by_cases hbc : b = c
    · subst hbc
      simp
    · have hne : b.1 ≠ c.1 := fun heq => hbc (hinj b mem_cons_self heq)
      rw [map_cons, eraseP_cons_of_neg (by simpa using hne), ih,
        erase_cons_tail (by simpa using hbc), map_cons]

theorem HeapInv.free (hi : HeapInv s L) (hc : c ∈ L) (hlast : FreesLast s.mem c.1) :
    ∃ s', User.free s (c.1 + headerLen) = some s' ∧
      HeapInv { s' with live := s'.live.eraseP fun b => b.1 = c.1 + headerLen } (L.erase c) := by
  obtain ⟨p, hp, hpc, hl⟩ := hi.left hc hlast
  refine ⟨_, hi.free_eq hc hlast hp hpc hl, ?_, ?_, hi.ends, hi.pages⟩
  · exact hi.tidy.pop hc hp hl hlast.last (hi.popAt hc hp hl)
  · dsimp only
    rw [hi.live]
    exact eraseP_live L c fun b hb heq => hi.tidy.eq_of_header hb hc heq

theorem HeapInv.hdr_store (hi : HeapInv s L) (hc : c ∈ L) (byte : UInt8)
    (hlo : c.1 + headerLen ≤ addr) (hhi : addr < c.1 + headerLen + c.2) (hd : d ∈ L) (f : Field) :
    hdr (update s.mem addr byte) d.1 f = hdr s.mem d.1 f := by
  have hoff := f.off_le
  have hend : c.1 + headerLen + c.2 ≤ endOf (hdr s.mem) c := by
    unfold endOf
    omega
  have hout : addr < d.1 ∨ d.1 + headerLen ≤ addr := by
    by_cases hdc : d.1 = c.1
    · exact .inr (by omega)
    · have := header_lt_endOf (hdr s.mem) d
      rcases hi.tidy.areas hc hd (Ne.symm hdc) with hle | hle
      · exact .inl (by omega)
      · exact .inr (by omega)
  apply load64_congr
  intro i hi hi'
  exact update_of_ne (by omega) _ _

theorem HeapInv.store (hi : HeapInv s L) (hc : c ∈ L) (byte : UInt8)
    (hlo : c.1 + headerLen ≤ addr) (hhi : addr < c.1 + headerLen + c.2) :
    HeapInv { s with mem := update s.mem addr byte } L :=
  ⟨hi.tidy.congr fun _ hd f => hi.hdr_store hc byte hlo hhi hd f, hi.live, hi.ends, hi.pages⟩

theorem HeapInv.blocksApart (hi : HeapInv s L) : BlocksApart s := by
  have hlen : headerLen = 48 := rfl
  have hend : ∀ b, b.1 + headerLen + b.2 ≤ endOf (hdr s.mem) b := fun b => by
    unfold endOf
    omega
  constructor
  · intro b hb
    rw [hi.live] at hb
    obtain ⟨c, hc, rfl⟩ := mem_map.mp hb
    have hfits := hi.tidy.fits c hc
    have := hend c
    exact ⟨by dsimp only; omega, by dsimp only; omega⟩
  · rw [hi.live, pairwise_map]
    refine hi.tidy.apart.imp fun {a b} hab => ?_
    have ha := hend a
    have hb := hend b
    unfold InBlock InWhole
    dsimp only
    constructor
    · intro x hx hx'
      omega
    · intro x hx hx'
      omega

/-- The calls that keep the heap in order: sizes that do not wrap, and frees of the last
block of a node from a neighbour in use. -/
def HeapOk (s : Heap) : HeapOp → Prop
  | .malloc size _ => size + headerLen + PAGE_SIZE + (s.brk - s.heapStart) < 2^64
  | .free ptr => FreesLast s.mem (ptr - headerLen)
  | .store _ _ => True

theorem HeapInv.step (hi : HeapInv s L) {op : HeapOp} (hlegal : Legal s op) (hok : HeapOk s op) :
    ∃ s' L', heapStep s op = some s' ∧ HeapInv s' L' := by
  cases op with
  | malloc size room =>
    obtain ⟨ptr, s', L', hmalloc, hi'⟩ := hi.malloc room hok
    exact ⟨s', L', by rw [heapStep, hmalloc]; rfl, hi'⟩
  | free ptr =>
    obtain ⟨b, hb, rfl⟩ := hlegal
    rw [hi.live] at hb
    obtain ⟨c, hc, rfl⟩ := mem_map.mp hb
    have hlast : FreesLast s.mem c.1 := by simpa [HeapOk] using hok
    obtain ⟨s', hfree, hi'⟩ := hi.free hc hlast
    exact ⟨_, _, by rw [heapStep, hfree]; rfl, hi'⟩
  | store addr byte =>
    obtain ⟨b, hb, hlo, hhi⟩ := hlegal
    rw [hi.live] at hb
    obtain ⟨c, hc, rfl⟩ := mem_map.mp hb
    exact ⟨_, L, rfl, hi.store hc byte hlo hhi⟩

structure NewHeap (s : Heap) : Prop where
  bounds : 0 < s.heapStart ∧ s.heapStart ≤ s.brk ∧ s.brk ≤ heapLimit
  pages : PAGE_SIZE ∣ s.brk - s.heapStart
  headers : s.startHeader = 0 ∧ s.endHeader = 0
  live : s.live = []

theorem NewHeap.inv (h : NewHeap s) : HeapInv s [] := by
  refine ⟨⟨h.bounds, ?_, .nil, ?_, ?_, ?_, ?_, ?_, .inl ⟨rfl, h.headers.1⟩⟩, h.live,
    h.headers.2.trans h.headers.1.symm, h.pages⟩
  all_goals simp

/-- A run of such calls keeps all live blocks apart, and the next one does not fault. -/
theorem malloc_blocks_apart (s₀ s : Heap) (hnew : NewHeap s₀)
    (hrun : Run.Reach heapStep (fun s op => Legal s op ∧ HeapOk s op) s₀ s) :
    BlocksApart s ∧ ∀ op, Legal s op → HeapOk s op → (heapStep s op).isSome := by
  have hkeep : ∀ s op s', (∃ L, HeapInv s L) → Legal s op ∧ HeapOk s op →
      heapStep s op = some s' → ∃ L, HeapInv s' L := by
    rintro s op s' ⟨L, hi⟩ hok hstep
    obtain ⟨t, L', ht, hi'⟩ := hi.step hok.1 hok.2
    cases ht.symm.trans hstep
    exact ⟨L', hi'⟩
  obtain ⟨L, hi⟩ := hrun.invariant ⟨[], hnew.inv⟩ hkeep
  refine ⟨hi.blocksApart, fun op hlegal hok => ?_⟩
  obtain ⟨t, L', ht, -⟩ := hi.step hlegal hok
  rw [ht]
  rfl

instance (s : Heap) : ∀ op, Decidable (Legal s op)
  | .malloc size _ => inferInstanceAs (Decidable (size < 2^64))
  | .free ptr => inferInstanceAs (Decidable (∃ b ∈ s.live, b.1 = ptr))
  | .store addr _ => inferInstanceAs (Decidable (∃ b ∈ s.live, b.1 ≤ addr ∧ addr < b.1 + b.2))

instance (m : Memory) (h : Nat) : Decidable (FreesLast m h) :=
  decidable_of_iff (hdr m h .prev ≠ 0 ∧
    hdr m (hdr m h .prev) .nodeNumber = hdr m h .nodeNumber ∧
    hdr m (hdr m h .prev) .used ≠ 0 ∧
    (hdr m (hdr m h .prev) .prev = 0 ∨
      hdr m (hdr m (hdr m h .prev) .prev) .nodeNumber ≠ hdr m (hdr m h .prev) .nodeNumber ∨
      hdr m (hdr m (hdr m h .prev) .prev) .used ≠ 0) ∧
    (hdr m h .next = 0 ∨ hdr m (hdr m h .next) .nodeNumber ≠ hdr m h .nodeNumber))
    ⟨fun ⟨h₁, h₂, h₃, h₄, h₅⟩ => ⟨h₁, h₂, h₃, h₄, h₅⟩, fun ⟨h₁, h₂, h₃, h₄, h₅⟩ => ⟨h₁, h₂, h₃, h₄, h₅⟩⟩

instance (s : Heap) : ∀ op, Decidable (HeapOk s op)
  | .malloc size _ =>
    inferInstanceAs (Decidable (size + headerLen + PAGE_SIZE + (s.brk - s.heapStart) < 2^64))
  | .free ptr => inferInstanceAs (Decidable (FreesLast s.mem (ptr - headerLen)))
  | .store _ _ => isTrue trivial

def emptyHeap : Heap := ⟨fun _ => 0, 0x10000, 0x10000, 0, 0, []⟩

theorem emptyHeap_new : NewHeap emptyHeap :=
  ⟨by decide, by decide, by decide, rfl⟩

/-- Two blocks of one node, the second freed and allocated again. -/
theorem malloc_blocks_apart_two : ∃ s : Heap,
    s.live = [(0x10000 + 48 + 100 + 48, 50), (0x10000 + 48, 100)] ∧ BlocksApart s := by
  have hrun : (Run.execOk heapStep (fun s op => Legal s op ∧ HeapOk s op) emptyHeap
      [.malloc 100 true, .malloc 200 true, .free (0x10000 + 48 + 100 + 48), .malloc 50 true]).map
        Heap.live = some [(0x10000 + 48 + 100 + 48, 50), (0x10000 + 48, 100)] := by
    decide +kernel
  obtain ⟨s, hexec, hlive⟩ := map_eq_some_iff.mp hrun
  exact ⟨s, hlive, (malloc_blocks_apart emptyHeap s emptyHeap_new
    (Run.Reach.start.execOk hexec)).1⟩

/-- Three blocks with a page each: freeing the second one gives the page of the third back,
and the next `malloc` returns the pointer of the third block again. -/
theorem malloc_returns_live_block : ∃ s : Heap,
    Run.Reach heapStep Legal emptyHeap s ∧
      s.live = [(0x12030, 4000), (0x12030, 4000), (0x10030, 4000)] ∧ ¬ BlocksApart s := by
  have hrun : (Run.execOk heapStep Legal emptyHeap
      [.malloc 4000 true, .malloc 4000 true, .malloc 4000 true, .free 0x11030,
        .malloc 4000 true]).map Heap.live =
        some [(0x12030, 4000), (0x12030, 4000), (0x10030, 4000)] := by
    decide +kernel
  obtain ⟨s, hexec, hlive⟩ := map_eq_some_iff.mp hrun
  refine ⟨s, Run.Reach.start.execOk hexec, hlive, fun hapart => ?_⟩
  have hpair := hapart.apart
  rw [hlive] at hpair
  have hfirst := (pairwise_cons.mp hpair).1 (0x12030, 4000) mem_cons_self
  exact hfirst.1 0x12030 ⟨by decide, by decide⟩ ⟨by decide, by decide⟩

end Comus.User
