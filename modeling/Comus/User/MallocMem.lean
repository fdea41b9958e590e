import Comus.User.MallocInv

/-!
# The memory after `malloc` and `free`

Each call in closed form, as the list of words it writes, and the header fields
that can be read afterwards from headers that do not overlap the written ones.
-/

namespace Comus.User

open Word Bytes Option

variable {size block header x h : Nat}

def put (m : Memory) (h : Nat) (f : Field) (v : Nat) : Memory := store64 m (h + f.off) v

def InHeap (s : Heap) (h : Nat) : Prop := s.heapStart ≤ h ∧ h + headerLen ≤ s.brk

def Clear (a b : Nat) : Prop := a = b ∨ a + headerLen ≤ b ∨ b + headerLen ≤ a

variable {s : Heap} {m : Memory} {a b h v : Nat} {f g : Field}

theorem Field.off_le (f : Field) : f.off + 8 ≤ headerLen := by
  cases f <;> decide

theorem Field.off_apart (h : f ≠ g) : f.off + 8 ≤ g.off ∨ g.off + 8 ≤ f.off := by
  cases f <;> cases g <;> first | exact absurd rfl h | decide

theorem get_eq (hh : InHeap s h) (f : Field) : s.get h f = some (hdr s.mem h f) := by
  have hoff := f.off_le
  obtain ⟨hlo, hhi⟩ := hh
  unfold Heap.get
  rw [if_pos (by omega)]

theorem set_eq (hh : InHeap s h) (f : Field) (v : Nat) :
    s.set h f v = some { s with mem := put s.mem h f v } := by
  have hoff := f.off_le
  obtain ⟨hlo, hhi⟩ := hh
  unfold Heap.set
  rw [if_pos (by omega)]
  rfl

theorem hdr_put (hv : v < 2^64) (hab : Clear a b) :
    hdr (put m a f v) b g = if a = b ∧ f = g then v else hdr m b g := by
  have hf := f.off_le
  have hg := g.off_le
  unfold hdr put
  rcases hab with rfl | hab
  · by_cases hfg : f = g
    · subst hfg
      rw [if_pos ⟨rfl, rfl⟩, load64_store64 hv]
    · rw [if_neg fun h => hfg h.2]
      have hoff := Field.off_apart hfg
      apply load64_store64_apart
      omega
  · rw [if_neg (by
      rintro ⟨rfl, -⟩
      have : 0 < headerLen := by decide
      omega)]
    apply load64_store64_apart
    omega

theorem hdr_lt (m : Memory) (h : Nat) (f : Field) : hdr m h f < 2^64 := load64_lt m _

def blockMem (m : Memory) (block header size : Nat) : Memory :=
  let m₁ := put m block .free 0
  let m₂ := put m₁ header .magic MAGIC
  let m₃ := put m₂ header .used size
  let m₄ := put m₃ header .free (hdr m block .free - (size + headerLen))
  let m₅ := put m₄ header .prev block
  let m₆ := put m₅ header .next (hdr m₅ block .next)
  let m₇ := put m₆ block .next header
  put m₇ header .nodeNumber (hdr m₇ block .nodeNumber)

theorem allocBlock_eq (hb : InHeap s block) (hh : InHeap s header)
    (hheader : header = block + hdr s.mem block .used + headerLen)
    (hbrk : s.brk ≤ heapLimit) (hsize : size + headerLen ≤ hdr s.mem block .free) :
    allocBlock s size block =
      some (header + headerLen, { s with mem := blockMem s.mem block header size }) := by
  have hlt : header + headerLen < 2^64 := by
    have := hh.2
    unfold heapLimit at hbrk
    omega
  have hfree := hdr_lt s.mem block .free
  have hb' : ∀ m, InHeap { s with mem := m } block := fun _ => hb
  have hh' : ∀ m, InHeap { s with mem := m } header := fun _ => hh
  unfold allocBlock
  rw [get_eq hb, get_eq hb]
  simp only [bind_eq_bind, bind_some]
  rw [← hheader, u64_of_lt (by omega : header < 2^64), u64_of_lt (by omega : size + headerLen < 2^64),
    sub64_of_le hsize hfree, u64_of_lt hlt]
  simp only [set_eq hb, set_eq (hb' _), get_eq (hb' _), set_eq (hh' _), bind_some]
  rfl

theorem hdr_blockMem (hx : Clear block x) (hx' : Clear header x)
    (hbh : block + headerLen ≤ header) (hsize : size < 2^64) (hheader : header < 2^64) (f : Field) :
    hdr (blockMem m block header size) x f =
      if x = block then
        match f with
        | .free => 0
        | .next => header
        | f => hdr m block f
      else if x = header then
        match f with
        | .magic => MAGIC
        | .used => size
        | .free => hdr m block .free - (size + headerLen)
        | .prev => block
        | .next => hdr m block .next
        | .nodeNumber => hdr m block .nodeNumber
      else hdr m x f := by
  have hlen : headerLen = 48 := rfl
  have hmagic : MAGIC < 2^64 := by decide
  have hfree : hdr m block .free - (size + headerLen) < 2^64 :=
    (Nat.sub_le _ _).trans_lt (hdr_lt m block .free)
  have hself : Clear block block := .inl rfl
  have hback : Clear header block := .inr (.inr hbh)
  have hne : header ≠ block := by omega
  have hblock : block < 2^64 := by omega
  have hzero : 0 < 2^64 := by decide
  have hwrites : hdr (blockMem m block header size) x f = hdr (put (put (put (put (put (put
      (put (put m block .free 0) header .magic MAGIC) header .used size) header .free
      (hdr m block .free - (size + headerLen))) header .prev block) header .next
      (hdr m block .next)) block .next header) header .nodeNumber (hdr m block .nodeNumber)) x f := by
    unfold blockMem
    simp only [hdr_put hzero hself, hdr_put hmagic hback, hdr_put hsize hback,
      hdr_put hfree hback, hdr_put hblock hback, hdr_put (hdr_lt _ _ _) hback,
      hdr_put hheader hself, hne, if_false, reduceCtorEq, and_false]
  rw [hwrites, hdr_put (hdr_lt _ _ _) hx', hdr_put hheader hx, hdr_put (hdr_lt _ _ _) hx',
    hdr_put hblock hx', hdr_put hfree hx', hdr_put hsize hx', hdr_put hmagic hx',
    hdr_put hzero hx]
  by_cases hxb : x = block
  · subst hxb
    cases f <;> simp [hne]
  · by_cases hxh : x = header
    · subst hxh
      cases f <;> simp [hne, hne.symm]
    · simp [Ne.symm hxb, Ne.symm hxh, hxb, hxh]

theorem sbrk_cases {T : Nat} (room : Bool) (hT : 0 < T) (hpages : PAGE_SIZE ∣ T)
    (hlo : s.heapStart ≤ s.brk) (halign : PAGE_SIZE ∣ s.brk - s.heapStart)
    (hfit : T + (s.brk - s.heapStart) < 2^64) :
    sbrk s (toI64 T) room = (0, s) ∨
      sbrk s (toI64 T) room = (s.brk, { s with brk := s.brk + T }) ∧ s.brk + T ≤ heapLimit := by
  have hpage : PAGE_SIZE = 4096 := rfl
  unfold sbrk
  dsimp only
  by_cases hneg : T < 2^63
  · have hI : toI64 T = T := toI64_of_lt (by omega) (by omega)
    have hbrk : s.heapStart + ((((s.brk - s.heapStart : Nat) : Int) + T).toNat + PAGE_SIZE - 1) /
        PAGE_SIZE * PAGE_SIZE = s.brk + T := by
      rw [hpage] at hpages halign ⊢
      omega
    rw [hI, if_neg (by omega), if_neg (by omega), hbrk]
    by_cases hroom : room = true ∧ s.brk + T ≤ heapLimit
    · right
      rw [if_pos (.inr hroom)]
      exact ⟨rfl, hroom.2⟩
    · left
      rw [if_neg]
      rintro (hle | hle)
      · omega
      · exact hroom hle
  · left
    have hI : toI64 T = (T : Int) - 2^64 := by
      unfold toI64
      omega
    rw [hI, if_neg (by omega), if_pos (by omega)]

theorem allocPages_cases (pages : Nat) (room : Bool) (hpages : 0 < pages) (hpos : 0 < s.brk)
    (hlo : s.heapStart ≤ s.brk) (halign : PAGE_SIZE ∣ s.brk - s.heapStart)
    (hfit : pages * PAGE_SIZE + (s.brk - s.heapStart) < 2^64) :
    allocPages s pages room = (0, s) ∨
      allocPages s pages room = (s.brk, { s with brk := s.brk + pages * PAGE_SIZE }) ∧
        s.brk + pages * PAGE_SIZE ≤ heapLimit := by
  have hzero : sbrk s 0 room = (s.brk, s) := by simp [sbrk]
  have hT : u64 (pages * PAGE_SIZE) = pages * PAGE_SIZE := u64_of_lt (by omega)
  have hbrk : s.brk ≠ 0 := by omega
  unfold allocPages
  simp only [hzero, hT, if_neg hbrk]
  rcases sbrk_cases room (Nat.mul_pos hpages (by decide)) (Nat.dvd_mul_left _ _) hlo halign hfit with
    hsbrk | ⟨hsbrk, hlimit⟩
  · left
    simp only [hsbrk, if_true]
  · right
    simp only [hsbrk, if_neg hbrk]
    exact ⟨trivial, hlimit⟩

def nodeMem (m : Memory) (header size free first node : Nat) : Memory :=
  let m := put m header .magic MAGIC
  let m := put m header .used size
  let m := put m header .free free
  let m := put m header .prev first
  let m := put m header .next 0
  let m := put m header .nodeNumber node
  if first = 0 then m else put m first .next header

theorem hdr_nodeMem {free first node : Nat} (hx : Clear header x)
    (hx' : first ≠ 0 → Clear first x) (hfirst : first < header) (hheader : header < 2^64) (hsize : size < 2^64)
    (hfree : free < 2^64) (hnode : node < 2^64) (f : Field) :
    hdr (nodeMem m header size free first node) x f =
      if x = header then
        match f with
        | .magic => MAGIC
        | .used => size
        | .free => free
        | .prev => first
        | .next => 0
        | .nodeNumber => node
      else if x = first ∧ first ≠ 0 ∧ f = .next then header
      else hdr m x f := by
  have hmagic : MAGIC < 2^64 := by decide
  have hne : first ≠ header := by omega
  have hwrites : hdr (put (put (put (put (put (put m header .magic MAGIC) header .used size) header
      .free free) header .prev first) header .next 0) header .nodeNumber node) x f =
      if x = header then
        match f with
        | .magic => MAGIC
        | .used => size
        | .free => free
        | .prev => first
        | .next => 0
        | .nodeNumber => node
      else hdr m x f := by
    rw [hdr_put hnode hx, hdr_put (by decide) hx, hdr_put (by omega) hx, hdr_put hfree hx,
      hdr_put hsize hx, hdr_put hmagic hx]
    by_cases hxh : x = header
    · subst hxh
      cases f <;> simp
    · simp [Ne.symm hxh, hxh]
  unfold nodeMem
  simp only
  by_cases hzero : first = 0
  · rw [if_pos hzero, hwrites]
    simp [hzero]
  · rw [if_neg hzero, hdr_put hheader (hx' hzero), hwrites]
    by_cases hxf : x = first
    · subst hxf
      by_cases hf : f = .next
      · simp [hf, hne, hzero]
      · simp [hf, Ne.symm hf, hne]
    · simp [Ne.symm hxf, hxf]

def nodeHeap (s : Heap) (hi size free : Nat) : Heap :=
  { s with
    brk := hi
    mem := nodeMem s.mem s.brk size free s.startHeader
      (if s.startHeader = 0 then 0 else u64 (hdr s.mem s.startHeader .nodeNumber + 1))
    startHeader := if s.startHeader = 0 then s.brk else s.startHeader
    endHeader := if s.startHeader = 0 then s.brk else s.startHeader }

theorem allocNew_cases (room : Bool) (hpos : 0 < s.brk) (hlo : s.heapStart ≤ s.brk)
    (halign : PAGE_SIZE ∣ s.brk - s.heapStart)
    (hfit : size + headerLen + PAGE_SIZE + (s.brk - s.heapStart) < 2^64)
    (hends : s.endHeader = s.startHeader) (hfirst : s.startHeader = 0 ∨ InHeap s s.startHeader) :
    allocNew s size room = some (0, s) ∨
      ∃ free hi, s.brk + headerLen + size + free = hi ∧ hi ≤ heapLimit ∧
        PAGE_SIZE ∣ hi - s.heapStart ∧
        allocNew s size room = some (s.brk + headerLen, nodeHeap s hi size free) := by
  have hpage : PAGE_SIZE = 4096 := rfl
  have hlen : headerLen = 48 := rfl
  have hsize : u64 (size + headerLen) = size + headerLen := u64_of_lt (by omega)
  obtain ⟨pages, hpages⟩ : ∃ pages, pages = (size + headerLen) / PAGE_SIZE + 1 := ⟨_, rfl⟩
  have hpages_pos : 0 < pages := hpages ▸ Nat.succ_pos _
  have hlt : size + headerLen < pages * PAGE_SIZE ∧
      pages * PAGE_SIZE ≤ size + headerLen + PAGE_SIZE := by
    rw [hpages, hpage]
    omega
  have hT : u64 (pages * PAGE_SIZE) = pages * PAGE_SIZE := u64_of_lt (by omega)
  unfold allocNew
  rw [hsize, ← hpages]
  rcases allocPages_cases pages room hpages_pos hpos hlo halign (by omega) with hnone | ⟨hgrow, hlimit⟩
  · left
    simp only [hnone, if_true]
  · right
    refine ⟨pages * PAGE_SIZE - (size + headerLen), s.brk + pages * PAGE_SIZE, by omega, hlimit, ?_, ?_⟩
    · obtain ⟨k, hk⟩ := halign
      exact ⟨k + pages, by rw [mul_add, ← hk, mul_comm PAGE_SIZE pages]; omega⟩
    · have hnew : ∀ m a e, InHeap ⟨m, s.heapStart, s.brk + pages * PAGE_SIZE, a, e, s.live⟩ s.brk :=
        fun _ _ _ => ⟨hlo, by dsimp only; omega⟩
      have hold : s.startHeader ≠ 0 → ∀ m a e,
          InHeap ⟨m, s.heapStart, s.brk + pages * PAGE_SIZE, a, e, s.live⟩ s.startHeader := by
        intro hne m a e
        obtain ⟨hl, hh⟩ := hfirst.resolve_left hne
        exact ⟨hl, by dsimp only; omega⟩
      have hptr : u64 (s.brk + headerLen) = s.brk + headerLen := by
        apply u64_of_lt
        unfold heapLimit at hlimit
        omega
      have hfree : sub64 (pages * PAGE_SIZE) (size + headerLen) = pages * PAGE_SIZE - (size + headerLen) :=
        sub64_of_le (by omega) (by omega)
      have hbrk : s.brk ≠ 0 := by omega
      simp only [hgrow, hT, hfree, hptr, if_neg hbrk, bind_eq_bind]
      unfold Heap.newNode nodeHeap
      simp only [hends]
      by_cases hzero : s.startHeader = 0
      · simp only [hzero, ne_eq, not_true_eq_false, if_false, if_true, bind_some,
          set_eq (hnew _ _ _)]
        rfl
      · simp only [hzero, ne_eq, not_false_eq_true, if_true, if_false, get_eq (hold hzero _ _ _),
          map_some, bind_some, set_eq (hnew _ _ _), set_eq (hold hzero _ _ _)]
        rw [nodeMem, if_neg hzero]

def clearedMem (m : Memory) (h : Nat) : Memory :=
  put (put m h .free (u64 (hdr m h .free + hdr m h .used))) h .used 0

def popMem (m : Memory) (h p : Nat) : Memory :=
  let m₂ := clearedMem m h
  let m₃ := put m₂ p .free (u64 (hdr m₂ p .free + (hdr m₂ h .free + headerLen)))
  put m₃ p .next (hdr m₃ h .next)

theorem hdr_clearedMem (hx : Clear h x) (f : Field) (hf : f ≠ .free) :
    hdr (clearedMem m h) x f = if h = x ∧ f = .used then 0 else hdr m x f := by
  unfold clearedMem
  rw [hdr_put (by decide) hx, hdr_put (u64_lt _) hx]
  simp [Ne.symm hf, eq_comm]

theorem hdr_popMem {p : Nat} (hx : Clear h x) (hx' : Clear p x) (hph : p + headerLen ≤ h)
    (hsum : hdr m p .free + (hdr m h .free + hdr m h .used + headerLen) < 2^64) (f : Field) :
    hdr (popMem m h p) x f =
      if x = p then
        match f with
        | .free => hdr m p .free + (hdr m h .free + hdr m h .used + headerLen)
        | .next => hdr m h .next
        | f => hdr m p f
      else if x = h then
        match f with
        | .free => hdr m h .free + hdr m h .used
        | .used => 0
        | f => hdr m h f
      else hdr m x f := by
  have hlen : headerLen = 48 := rfl
  have hfree : u64 (hdr m h .free + hdr m h .used) = hdr m h .free + hdr m h .used :=
    u64_of_lt (by omega)
  have hfreelt : hdr m h .free + hdr m h .used < 2^64 := by omega
  have hself : Clear h h := .inl rfl
  have hselfp : Clear p p := .inl rfl
  have hhp : Clear h p := .inr (.inr hph)
  have hph' : Clear p h := .inr (.inl hph)
  have hne : h ≠ p := by omega
  have hwrites : popMem m h p = put (put (put (put m h .free (hdr m h .free + hdr m h .used)) h
      .used 0) p .free (hdr m p .free + (hdr m h .free + hdr m h .used + headerLen))) p .next
      (hdr m h .next) := by
    unfold popMem clearedMem
    simp only [hfree, hdr_put hfreelt hself, hdr_put hfreelt hhp, hdr_put (by decide : 0 < 2^64) hself,
      hdr_put (by decide : 0 < 2^64) hhp, hne, false_and, if_false, reduceCtorEq, and_false, and_self,
      if_true, u64_of_lt hsum, hdr_put hsum hph', hne.symm]
  rw [hwrites, hdr_put (hdr_lt _ _ _) hx', hdr_put hsum hx', hdr_put (by decide) hx,
    hdr_put hfreelt hx]
  by_cases hxp : x = p
  · subst hxp
    cases f <;> simp [hne]
  · by_cases hxh : x = h
    · subst hxh
      cases f <;> simp [hne, hne.symm]
    · simp [Ne.symm hxp, Ne.symm hxh, hxp, hxh]

variable {header neighbor fuel : Nat}

theorem bothUsed_eq (hh : InHeap s header) (hn : InHeap s neighbor) :
    bothUsed s neighbor header =
      some (decide (hdr s.mem neighbor .used ≠ 0 ∧ hdr s.mem header .used ≠ 0)) := by
  unfold bothUsed
  rw [get_eq hn, get_eq hh]
  simp only [bind_eq_bind, bind_some]
  by_cases hu : hdr s.mem neighbor .used = 0
  · simp [hu]
  · by_cases hu' : hdr s.mem header .used = 0 <;> simp [hu, hu']

theorem mergeLeft_merge (hh : InHeap s header) (hn : InHeap s neighbor) (hne : neighbor ≠ 0)
    (hnode : hdr s.mem neighbor .nodeNumber = hdr s.mem header .nodeNumber)
    (hused : hdr s.mem header .used = 0) :
    mergeLeft (fuel + 1) s header neighbor =
      let m := put s.mem neighbor .free
        (u64 (hdr s.mem neighbor .free + (hdr s.mem header .free + headerLen)))
      let m := put m neighbor .next (hdr m header .next)
      mergeLeft fuel { s with mem := m } neighbor (hdr m neighbor .prev) := by
  have hh' : ∀ m, InHeap { s with mem := m } header := fun _ => hh
  have hn' : ∀ m, InHeap { s with mem := m } neighbor := fun _ => hn
  rw [mergeLeft, if_neg hne, get_eq hn, get_eq hh, bothUsed_eq hh hn]
  simp only [bind_eq_bind, bind_some, hnode, ne_eq, not_true_eq_false, if_false, hused,
    and_false, decide_false, Bool.false_eq_true, get_eq hn, get_eq hh, set_eq hn, get_eq (hh' _),
    set_eq (hn' _), get_eq (hn' _)]

theorem mergeLeft_stop (hstop : neighbor = 0 ∨ InHeap s header ∧ InHeap s neighbor ∧
    (hdr s.mem neighbor .nodeNumber ≠ hdr s.mem header .nodeNumber ∨
      hdr s.mem neighbor .used ≠ 0 ∧ hdr s.mem header .used ≠ 0)) :
    mergeLeft (fuel + 1) s header neighbor = some (header, s) := by
  rw [mergeLeft]
  by_cases hzero : neighbor = 0
  · rw [if_pos hzero]
  · obtain ⟨hh, hn, hcase⟩ := hstop.resolve_left hzero
    rw [if_neg hzero, get_eq hn, get_eq hh, bothUsed_eq hh hn]
    simp only [bind_eq_bind, bind_some]
    by_cases hnode : hdr s.mem neighbor .nodeNumber = hdr s.mem header .nodeNumber
    · have hused := hcase.resolve_left (not_not.mpr hnode)
      rw [if_neg (not_not.mpr hnode), if_pos (decide_eq_true hused)]
    · rw [if_pos hnode]

theorem mergeRight_stop (hstop : neighbor = 0 ∨ InHeap s header ∧ InHeap s neighbor ∧
    hdr s.mem neighbor .nodeNumber ≠ hdr s.mem header .nodeNumber) :
    mergeRight (fuel + 1) s header neighbor = some s := by
  rw [mergeRight]
  by_cases hzero : neighbor = 0
  · rw [if_pos hzero]
  · obtain ⟨hh, hn, hnode⟩ := hstop.resolve_left hzero
    rw [if_neg hzero, get_eq hn, get_eq hh]
    simp only [bind_eq_bind, bind_some]
    rw [if_pos hnode]

theorem otherNode_isSome (hh : InHeap s header) (hn : neighbor = 0 ∨ InHeap s neighbor) :
    ∃ r, otherNode s header neighbor = some r := by
  unfold otherNode
  by_cases hzero : neighbor = 0
  · exact ⟨true, if_pos hzero⟩
  · rw [if_neg hzero, get_eq (hn.resolve_left hzero), get_eq hh]
    exact ⟨_, rfl⟩

theorem releaseNode_used (hh : InHeap s header) (hused : hdr s.mem header .used ≠ 0)
    (hnext : hdr s.mem header .next = 0 ∨ InHeap s (hdr s.mem header .next))
    (hprev : hdr s.mem header .prev = 0 ∨ InHeap s (hdr s.mem header .prev)) :
    releaseNode s header = some s := by
  obtain ⟨r, hr⟩ := otherNode_isSome hh hnext
  obtain ⟨r', hr'⟩ := otherNode_isSome hh hprev
  unfold releaseNode
  rw [get_eq hh, get_eq hh, get_eq hh]
  simp only [bind_eq_bind, bind_some, hr, hr']
  cases r
  · rfl
  · cases r'
    · rfl
    · simp [hused]

end Comus.User
