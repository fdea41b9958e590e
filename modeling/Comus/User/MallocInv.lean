import Comus.User.Malloc

/-!
# The layout of a heap that is only freed from the end of a node

A node is the area of one `sbrk`. Each of its blocks is a header, the bytes in
use and free bytes up to the next header, and only the last has free bytes. The
layout is stated over a table `H` of header fields and the list `L` of headers
with the sizes of their blocks, apart from the memory they are stored in.
-/

namespace Comus.User

open List

variable {N size free hi' : Nat}

abbrev Table : Type := Nat → Field → Nat

def endOf (H : Table) (b : Nat × Nat) : Nat := b.1 + headerLen + b.2 + H b.1 .free

def LeftOf (H : Table) (c b : Nat × Nat) : Prop :=
  H b.1 .prev = c.1 ∧ H c.1 .nodeNumber = H b.1 .nodeNumber

structure Tidy (H : Table) (L : List (Nat × Nat)) (lo hi first : Nat) : Prop where
  bounds : 0 < lo ∧ lo ≤ hi ∧ hi ≤ heapLimit
  fits : ∀ b ∈ L, lo ≤ b.1 ∧ endOf H b ≤ hi ∧ H b.1 .used = b.2 ∧ H b.1 .magic = MAGIC
  apart : L.Pairwise fun a b => endOf H a ≤ b.1 ∨ endOf H b ≤ a.1
  next : ∀ b ∈ L, H b.1 .next = 0 ∨ b.1 < H b.1 .next ∧ ∃ c ∈ L, c.1 = H b.1 .next
  prev : ∀ b ∈ L, H b.1 .prev = 0 ∨ H b.1 .prev = first ∨ ∃ c ∈ L, LeftOf H c b
  joined : ∀ b ∈ L, ∀ c ∈ L, LeftOf H c b → c.1 + headerLen + c.2 = b.1 ∧ H c.1 .free = 0
  onward : ∀ b ∈ L, ∀ c ∈ L, LeftOf H c b → c.1 ≠ first → H c.1 .next = b.1
  back : ∀ a ∈ L, ∀ b ∈ L, ∀ c ∈ L, H a.1 .next = b.1 → LeftOf H c b → a.1 = c.1
  root : L = [] ∧ first = 0 ∨
    (∃ b ∈ L, b.1 = first) ∧ H first .prev = 0 ∧ H first .nodeNumber = 0

variable {H H' : Table} {L : List (Nat × Nat)} {lo hi first : Nat} {a b c : Nat × Nat}

theorem header_lt_endOf (H : Table) (b : Nat × Nat) : b.1 + headerLen ≤ endOf H b := by
  unfold endOf
  omega

section Tidy

variable (h : Tidy H L lo hi first)
include h

theorem Tidy.pos (hb : b ∈ L) : 0 < b.1 :=
  h.bounds.1.trans_le (h.fits b hb).1

theorem Tidy.eq_of_header (ha : a ∈ L) (hb : b ∈ L) (hab : a.1 = b.1) :
    a = b := by
  have hua := (h.fits a ha).2.2.1
  have hub := (h.fits b hb).2.2.1
  rw [hab] at hua
  exact Prod.ext hab (hua.symm.trans hub)

theorem Tidy.areas (ha : a ∈ L) (hb : b ∈ L) (hab : a.1 ≠ b.1) :
    endOf H a ≤ b.1 ∨ endOf H b ≤ a.1 := by
  have hsymm : Std.Symm fun a b => endOf H a ≤ b.1 ∨ endOf H b ≤ a.1 := ⟨fun _ _ => Or.symm⟩
  exact h.apart.forall ha hb fun heq => hab (congrArg Prod.fst heq)

theorem Tidy.not_inside (hb : b ∈ L) (hfree : headerLen ≤ H b.1 .free)
    (hc : c ∈ L) : c.1 ≠ b.1 + headerLen + b.2 := by
  intro heq
  have hend : endOf H b = c.1 + H b.1 .free := by
    unfold endOf
    omega
  have hlen : 0 < headerLen := by decide
  rcases h.areas hb hc (by omega) with hle | hle
  · omega
  · have := header_lt_endOf H c
    omega

theorem Tidy.next_ne (hb : b ∈ L) (hN : 0 < N)
    (hnew : ∀ c ∈ L, c.1 ≠ N) : H b.1 .next ≠ N := by
  rcases h.next b hb with hzero | ⟨-, c, hc, heq⟩
  · omega
  · exact heq ▸ hnew c hc

theorem Tidy.prev_mem (hb : b ∈ L) (hne : H b.1 .prev ≠ 0) :
    ∃ c ∈ L, c.1 = H b.1 .prev := by
  rcases h.prev b hb with hzero | hfirst | ⟨c, hc, hleft⟩
  · exact absurd hzero hne
  · rcases h.root with ⟨rfl, -⟩ | ⟨⟨c, hc, hcf⟩, -⟩
    · cases hb
    · exact ⟨c, hc, hcf.trans hfirst.symm⟩
  · exact ⟨c, hc, hleft.1.symm⟩

theorem Tidy.congr (hH : ∀ b ∈ L, ∀ f, H' b.1 f = H b.1 f) :
    Tidy H' L lo hi first := by
  have hend : ∀ b ∈ L, endOf H' b = endOf H b := fun b hb => by rw [endOf, endOf, hH b hb]
  have hleft : ∀ b ∈ L, ∀ c ∈ L, LeftOf H' c b → LeftOf H c b := fun b hb c hc hl => by
    rwa [LeftOf, hH b hb, hH b hb, hH c hc] at hl
  constructor
  · exact h.bounds
  · intro b hb
    rw [hend b hb, hH b hb, hH b hb]
    exact h.fits b hb
  · refine h.apart.imp_of_mem fun ha hb hab => ?_
    rwa [hend _ ha, hend _ hb]
  · intro b hb
    rw [hH b hb]
    exact h.next b hb
  · intro b hb
    rcases h.prev b hb with hzero | hfirst | ⟨c, hc, hl⟩
    · exact .inl (by rw [hH b hb, hzero])
    · exact .inr (.inl (by rw [hH b hb, hfirst]))
    · refine .inr (.inr ⟨c, hc, ?_⟩)
      rwa [LeftOf, hH b hb, hH b hb, hH c hc]
  · intro b hb c hc hl
    rw [hH c hc]
    exact h.joined b hb c hc (hleft b hb c hc hl)
  · intro b hb c hc hl hne
    rw [hH c hc]
    exact h.onward b hb c hc (hleft b hb c hc hl) hne
  · intro a ha b hb c hc hnext hl
    rw [hH a ha] at hnext
    exact h.back a ha b hb c hc hnext (hleft b hb c hc hl)
  · rcases h.root with hempty | ⟨⟨b, hb, rfl⟩, hprev, hnode⟩
    · exact .inl hempty
    · exact .inr ⟨⟨b, hb, rfl⟩, by rw [hH b hb, hprev], by rw [hH b hb, hnode]⟩

end Tidy

structure Hung (H H' : Table) (L : List (Nat × Nat)) (p : Nat × Nat) (N size hi' first : Nat) : Prop where
  kept : ∀ c ∈ L, ∀ f, (c.1 ≠ p.1 ∨ f ≠ .free ∧ f ≠ .next) → H' c.1 f = H c.1 f
  next : H' p.1 .next = N
  newMagic : H' N .magic = MAGIC
  newUsed : H' N .used = size
  newPrev : H' N .prev = p.1
  newNext : H' N .next = 0 ∨ N < H' N .next ∧ ∃ c ∈ L, c.1 = H' N .next
  behind : p.1 < N
  fresh : ∀ c ∈ L, c.1 ≠ N
  shrunk : ∀ c ∈ L, endOf H' c ≤ endOf H c
  newEnd : endOf H' (N, size) ≤ hi'
  area : ∀ c ∈ L, endOf H' (N, size) ≤ c.1 ∨ endOf H' c ≤ N
  node : p.1 = first ∨ H' p.1 .nodeNumber = H' N .nodeNumber
  joined : LeftOf H' p (N, size) → p.1 + headerLen + p.2 = N ∧ H' p.1 .free = 0
  left : ∀ x ∈ L, LeftOf H p x → H' p.1 .free = H p.1 .free ∧ p.1 = first
  alone : ∀ x ∈ L, H' N .next = x.1 → ∀ d ∈ L, ¬ LeftOf H d x

theorem Hung.left_iff {p : Nat × Nat} (hs : Hung H H' L p N size hi' first) (ha : a ∈ L) (hc : c ∈ L) :
    LeftOf H' c a ↔ LeftOf H c a := by
  unfold LeftOf
  rw [hs.kept a ha .prev (by simp), hs.kept a ha .nodeNumber (by simp),
    hs.kept c hc .nodeNumber (by simp)]

theorem Tidy.insert {p : Nat × Nat} (h : Tidy H L lo hi first) (hp : p ∈ L) (hle : hi ≤ hi')
    (hhi : hi' ≤ heapLimit) (hs : Hung H H' L p N size hi' first) :
    Tidy H' ((N, size) :: L) lo hi' first := by
  have hbehind := hs.behind
  have hNleft : ∀ x ∈ L, ¬ LeftOf H' (N, size) x := by
    intro x hx hl
    have hprev : H x.1 .prev = N := (hs.kept x hx .prev (by simp)).symm.trans hl.1
    obtain ⟨c, hc, hcN⟩ := h.prev_mem hx (by omega)
    exact hs.fresh c hc (hcN.trans hprev)
  have hright : ∀ d ∈ (N, size) :: L, LeftOf H' d (N, size) → d = p := by
    intro d hd hl
    have hdp : d.1 = p.1 := hl.1.symm.trans hs.newPrev
    rcases mem_cons.mp hd with rfl | hd
    · exact absurd hdp.symm (hs.fresh p hp)
    · exact h.eq_of_header hd hp hdp
  have hold : ∀ x ∈ L, ∀ d ∈ L, LeftOf H d x → H' d.1 .free = H d.1 .free ∧
      (d.1 ≠ first → H' d.1 .next = H d.1 .next) := by
    intro x hx d hd hl
    by_cases hdp : d.1 = p.1
    · obtain rfl := h.eq_of_header hd hp hdp
      obtain ⟨hfree, hfirst⟩ := hs.left x hx hl
      exact ⟨hfree, fun hne => absurd hfirst hne⟩
    · exact ⟨hs.kept d hd .free (.inl hdp), fun _ => hs.kept d hd .next (.inl hdp)⟩
  constructor
  · exact ⟨h.bounds.1, h.bounds.2.1.trans hle, hhi⟩
  · intro c hc
    rcases mem_cons.mp hc with rfl | hc
    · exact ⟨(h.fits p hp).1.trans hbehind.le, hs.newEnd, hs.newUsed, hs.newMagic⟩
    · have hfits := h.fits c hc
      rw [hs.kept c hc .used (by simp), hs.kept c hc .magic (by simp)]
      exact ⟨hfits.1, (hs.shrunk c hc).trans (hfits.2.1.trans hle), hfits.2.2⟩
  · refine pairwise_cons.mpr ⟨hs.area, h.apart.imp_of_mem fun ha hc hac => ?_⟩
    have := hs.shrunk _ ha
    have := hs.shrunk _ hc
    omega
  · intro c hc
    rcases mem_cons.mp hc with rfl | hc
    · rcases hs.newNext with hzero | ⟨hlt, d, hd, hdn⟩
      · exact .inl hzero
      · exact .inr ⟨hlt, d, mem_cons_of_mem _ hd, hdn⟩
    · by_cases hcp : c.1 = p.1
      · rw [hcp, hs.next]
        exact .inr ⟨hbehind, (N, size), mem_cons_self, rfl⟩
      · rw [hs.kept c hc .next (.inl hcp)]
        rcases h.next c hc with hzero | ⟨hlt, d, hd, hdn⟩
        · exact .inl hzero
        · exact .inr ⟨hlt, d, mem_cons_of_mem _ hd, hdn⟩
  · intro c hc
    rcases mem_cons.mp hc with rfl | hc
    · rcases hs.node with hfirst | hnode
      · exact .inr (.inl (hs.newPrev.trans hfirst))
      · exact .inr (.inr ⟨p, mem_cons_of_mem _ hp, hs.newPrev, hnode⟩)
    · rw [hs.kept c hc .prev (by simp)]
      rcases h.prev c hc with hzero | hfirst | ⟨d, hd, hl⟩
      · exact .inl hzero
      · exact .inr (.inl hfirst)
      · exact .inr (.inr ⟨d, mem_cons_of_mem _ hd, (hs.left_iff hc hd).mpr hl⟩)
  · intro x hx d hd hl
    rcases mem_cons.mp hx with rfl | hx
    · obtain rfl := hright d hd hl
      exact hs.joined hl
    · rcases mem_cons.mp hd with rfl | hd
      · exact absurd hl (hNleft x hx)
      · have hl := (hs.left_iff hx hd).mp hl
        rw [(hold x hx d hd hl).1]
        exact h.joined x hx d hd hl
  · intro x hx d hd hl hne
    rcases mem_cons.mp hx with rfl | hx
    · rw [hright d hd hl, hs.next]
    · rcases mem_cons.mp hd with rfl | hd
      · exact absurd hl (hNleft x hx)
      · have hl := (hs.left_iff hx hd).mp hl
        rw [(hold x hx d hd hl).2 hne]
        exact h.onward x hx d hd hl hne
  · intro y hy x hx d hd hnext hl
    rcases mem_cons.mp hx with rfl | hx
    · rw [hright d hd hl]
      rcases mem_cons.mp hy with rfl | hy
      · have := hs.newNext
        dsimp only at hnext
        omega
      · by_contra hyp
        rw [hs.kept y hy .next (.inl hyp)] at hnext
        exact h.next_ne hy (by omega) hs.fresh hnext
    · rcases mem_cons.mp hd with rfl | hd
      · exact absurd hl (hNleft x hx)
      · have hl := (hs.left_iff hx hd).mp hl
        rcases mem_cons.mp hy with rfl | hy
        · exact absurd hl (hs.alone x hx hnext d hd)
        · by_cases hyp : y.1 = p.1
          · rw [hyp, hs.next] at hnext
            exact absurd hnext.symm (hs.fresh x hx)
          · rw [hs.kept y hy .next (.inl hyp)] at hnext
            exact h.back y hy x hx d hd hnext hl
  · rcases h.root with ⟨rfl, -⟩ | ⟨⟨d, hd, rfl⟩, hprev, hnode⟩
    · cases hp
    · right
      rw [hs.kept d hd .prev (by simp), hs.kept d hd .nodeNumber (by simp)]
      exact ⟨⟨d, mem_cons_of_mem _ hd, rfl⟩, hprev, hnode⟩

/-- What `alloc_block` makes of the table: `b` keeps its bytes in use, the new header `N`
takes over its free bytes and its successor. -/
structure SplitAt (H H' : Table) (L : List (Nat × Nat)) (b : Nat × Nat) (N size : Nat) : Prop where
  kept : ∀ c ∈ L, ∀ f, (c.1 ≠ b.1 ∨ f ≠ .free ∧ f ≠ .next) → H' c.1 f = H c.1 f
  free : H' b.1 .free = 0
  next : H' b.1 .next = N
  newMagic : H' N .magic = MAGIC
  newUsed : H' N .used = size
  newFree : H' N .free = H b.1 .free - (size + headerLen)
  newPrev : H' N .prev = b.1
  newNext : H' N .next = H b.1 .next
  newNode : H' N .nodeNumber = H b.1 .nodeNumber

theorem SplitAt.end_le (hs : SplitAt H H' L b N size) (hc : c ∈ L) :
    endOf H' c ≤ endOf H c := by
  unfold endOf
  by_cases hcb : c.1 = b.1
  · rw [hcb, hs.free]
    omega
  · rw [hs.kept c hc .free (.inl hcb)]

theorem Tidy.split (h : Tidy H L lo hi first) (hb : b ∈ L) (hN : N = b.1 + headerLen + b.2)
    (hfree : headerLen ≤ H b.1 .free) (hsize : size ≤ H b.1 .free - headerLen)
    (hs : SplitAt H H' L b N size) : Tidy H' ((N, size) :: L) lo hi first := by
  have hlen : headerLen = 48 := rfl
  have hnew : ∀ c ∈ L, c.1 ≠ N := fun c hc => hN ▸ h.not_inside hb hfree hc
  have hendN : endOf H' (N, size) = endOf H b := by
    unfold endOf
    dsimp only
    rw [hs.newFree]
    omega
  have hendb : N + headerLen ≤ endOf H b := by
    unfold endOf
    omega
  -- the old block had free bytes, so that nothing stood behind it
  have hlast : ∀ x ∈ L, ¬ LeftOf H b x := fun x hx hl => by
    have := (h.joined x hx b hb hl).2
    omega
  have harea : ∀ c ∈ L, endOf H' (N, size) ≤ c.1 ∨ endOf H' c ≤ N := by
    intro c hc
    by_cases hcb : c.1 = b.1
    · right
      obtain rfl := h.eq_of_header hc hb hcb
      unfold endOf
      rw [hs.free]
      omega
    · rcases h.areas hb hc (Ne.symm hcb) with hle | hle
      · exact .inl (hendN ▸ hle)
      · right
        have := hs.end_le hc
        omega
  have hnext : H' N .next = 0 ∨ N < H' N .next ∧ ∃ c ∈ L, c.1 = H' N .next := by
    rw [hs.newNext]
    rcases h.next b hb with hzero | ⟨hlt, d, hd, hdn⟩
    · exact .inl hzero
    · refine .inr ⟨?_, d, hd, hdn⟩
      rcases h.areas hb hd (by omega) with hle | hle
      · omega
      · have := header_lt_endOf H d
        omega
  have halone : ∀ x ∈ L, H' N .next = x.1 → ∀ d ∈ L, ¬ LeftOf H d x := by
    intro x hx hnext d hd hl
    rw [hs.newNext] at hnext
    have hbd := h.back b hb x hx d hd hnext hl
    exact hlast x hx (h.eq_of_header hd hb hbd.symm ▸ hl)
  have hnode : H' b.1 .nodeNumber = H' N .nodeNumber := by
    rw [hs.newNode, hs.kept b hb .nodeNumber (by simp)]
  exact h.insert hb le_rfl h.bounds.2.2 ⟨hs.kept, hs.next, hs.newMagic, hs.newUsed, hs.newPrev, hnext,
    by omega, hnew, fun c hc => hs.end_le hc, hendN ▸ (h.fits b hb).2.1, harea, .inr hnode,
    fun _ => ⟨hN.symm, hs.free⟩, fun x hx hl => absurd hl (hlast x hx), halone⟩

/-- What `alloc_new` makes of the table: a header `N` with all of the new area, reached
from the first header. All nodes but the first get number 1. -/
structure NodeAt (H H' : Table) (L : List (Nat × Nat)) (first N size free : Nat) : Prop where
  kept : ∀ c ∈ L, ∀ f, (c.1 ≠ first ∨ f ≠ .next) → H' c.1 f = H c.1 f
  next : first ≠ 0 → H' first .next = N
  newMagic : H' N .magic = MAGIC
  newUsed : H' N .used = size
  newFree : H' N .free = free
  newPrev : H' N .prev = first
  newNext : H' N .next = 0
  newNode : H' N .nodeNumber = if first = 0 then 0 else 1

theorem NodeAt.end_eq (hs : NodeAt H H' L first N size free) (hc : c ∈ L) :
    endOf H' c = endOf H c := by
  unfold endOf
  rw [hs.kept c hc .free (by simp)]

theorem tidy_first (hlo : 0 < N) (hhi : hi' ≤ heapLimit) (hlo' : lo ≤ N)
    (hpos : 0 < lo) (hend : N + headerLen + size + free = hi')
    (hs : NodeAt H H' [] 0 N size free) : Tidy H' [(N, size)] lo hi' N := by
  have hself : ¬ LeftOf H' (N, size) (N, size) := fun hl => by
    have := hl.1.symm.trans hs.newPrev
    dsimp only at this
    omega
  have hendN : endOf H' (N, size) = hi' := by
    unfold endOf
    dsimp only
    rw [hs.newFree, hend]
  constructor
  · exact ⟨hpos, by omega, hhi⟩
  · simp [hlo', hendN, hs.newUsed, hs.newMagic]
  · exact pairwise_singleton _ _
  · simp [hs.newNext]
  · simp [hs.newPrev]
  · simpa using fun hl => absurd hl hself
  · simp
  · simp
  · right
    exact ⟨⟨(N, size), mem_singleton_self _, rfl⟩, hs.newPrev, by simp [hs.newNode]⟩

theorem Tidy.newNode (h : Tidy H L lo hi first) (hhi : hi' ≤ heapLimit)
    (hend : hi + headerLen + size + free = hi') (hs : NodeAt H H' L first hi size free)
    (hne : L ≠ []) : Tidy H' ((hi, size) :: L) lo hi' first := by
  have hlen : headerLen = 48 := rfl
  obtain ⟨⟨p, hp, rfl⟩, -, hnode⟩ := h.root.resolve_left fun hempty => hne hempty.1
  have hpos := h.pos hp
  have hbelow : ∀ c ∈ L, c.1 + headerLen ≤ hi := fun c hc =>
    (header_lt_endOf H c).trans (h.fits c hc).2.1
  have hnew : ∀ c ∈ L, c.1 ≠ hi := fun c hc => by
    have := hbelow c hc
    omega
  have hendN : endOf H' (hi, size) = hi' := by
    unfold endOf
    dsimp only
    rw [hs.newFree, hend]
  -- the new header has another number than the first one
  have hright : ¬ LeftOf H' p (hi, size) := by
    rintro ⟨-, hnum⟩
    dsimp only at hnum
    rw [hs.newNode, if_neg (by omega), hs.kept p hp .nodeNumber (by simp), hnode] at hnum
    cases hnum
  refine h.insert hp (by omega) hhi ⟨?_, hs.next (by omega), hs.newMagic, hs.newUsed, hs.newPrev,
    .inl hs.newNext, ?_, hnew, fun c hc => (hs.end_eq hc).le, hendN.le, ?_, .inl rfl,
    fun hl => absurd hl hright, fun x hx _ => ⟨hs.kept p hp .free (by simp), rfl⟩, ?_⟩
  · rintro c hc f (hcp | ⟨-, hf⟩)
    · exact hs.kept c hc f (.inl hcp)
    · exact hs.kept c hc f (.inr hf)
  · have := hbelow p hp
    omega
  · intro c hc
    rw [hs.end_eq hc]
    exact .inr (h.fits c hc).2.1
  · intro x hx hnext
    rw [hs.newNext] at hnext
    have := h.pos hx
    omega

/-- What a `free` of `b` makes of the table if it merges `b` into its left neighbour `p`
and does nothing else. -/
structure PopAt (H H' : Table) (L : List (Nat × Nat)) (p b : Nat × Nat) : Prop where
  kept : ∀ c ∈ L, c.1 ≠ b.1 → ∀ f, (c.1 ≠ p.1 ∨ f ≠ .free ∧ f ≠ .next) → H' c.1 f = H c.1 f
  free : H' p.1 .free = H p.1 .free + (H b.1 .free + b.2 + headerLen)
  next : H' p.1 .next = H b.1 .next

theorem Tidy.nodup (h : Tidy H L lo hi first) : L.Nodup := by
  refine h.apart.imp fun {a b} hab heq => ?_
  subst heq
  have := header_lt_endOf H a
  have hlen : 0 < headerLen := by decide
  omega

theorem Tidy.pop (h : Tidy H L lo hi first) {p : Nat × Nat} (hb : b ∈ L) (hp : p ∈ L) (hl : LeftOf H p b)
    (hlast : H b.1 .next = 0 ∨ H (H b.1 .next) .nodeNumber ≠ H b.1 .nodeNumber)
    (hs : PopAt H H' L p b) : Tidy H' (L.erase b) lo hi first := by
  have hlen : headerLen = 48 := rfl
  obtain ⟨hjoin, hpfree⟩ := h.joined b hb p hp hl
  have hpb : p.1 ≠ b.1 := by omega
  have hmem : ∀ c ∈ L.erase b, c ∈ L ∧ c.1 ≠ b.1 := by
    intro c hc
    obtain ⟨hne, hc⟩ := (h.nodup.mem_erase_iff).mp hc
    exact ⟨hc, fun heq => hne (h.eq_of_header hc hb heq)⟩
  have hkeep : ∀ c ∈ L, c.1 ≠ b.1 → c ∈ L.erase b := fun c hc hne =>
    (h.nodup.mem_erase_iff).mpr ⟨fun heq => hne (congrArg Prod.fst heq), hc⟩
  have hfirst : first ≠ b.1 := by
    intro heq
    rcases h.root with ⟨rfl, -⟩ | ⟨-, hprev, -⟩
    · cases hb
    · rw [heq, hl.1] at hprev
      have := h.pos hp
      omega
  -- nothing stands behind `b` in its node
  have hend : ∀ x ∈ L, ¬ LeftOf H b x := by
    intro x hx hbx
    have hnext := h.onward x hx b hb hbx hfirst.symm
    rcases hlast with hzero | hnode
    · have := h.pos hx
      omega
    · rw [hnext] at hnode
      exact hnode hbx.2.symm
  have hright : ∀ x ∈ L, x.1 ≠ b.1 → ¬ LeftOf H p x := fun x hx hne hpx =>
    hne ((h.joined x hx p hp hpx).1.symm.trans hjoin)
  have hleft : ∀ x ∈ L.erase b, ∀ c ∈ L.erase b, LeftOf H' c x ↔ LeftOf H c x := by
    intro x hx c hc
    obtain ⟨hx, hxb⟩ := hmem x hx
    obtain ⟨hc, hcb⟩ := hmem c hc
    unfold LeftOf
    rw [hs.kept x hx hxb .prev (by simp), hs.kept x hx hxb .nodeNumber (by simp),
      hs.kept c hc hcb .nodeNumber (by simp)]
  have hendp : endOf H' p = endOf H b := by
    unfold endOf
    rw [hs.free, hpfree]
    omega
  have hendc : ∀ c ∈ L, c.1 ≠ b.1 → c.1 ≠ p.1 → endOf H' c = endOf H c := by
    intro c hc hcb hcp
    unfold endOf
    rw [hs.kept c hc hcb .free (.inl hcp)]
  have hareap : ∀ c ∈ L, c.1 ≠ b.1 → c.1 ≠ p.1 → endOf H b ≤ c.1 ∨ endOf H c ≤ p.1 := by
    intro c hc hcb hcp
    have hc48 := header_lt_endOf H c
    have hpend : endOf H p = b.1 := by
      unfold endOf
      omega
    rcases h.areas hp hc hcp.symm with hle | hle
    · rcases h.areas hb hc hcb.symm with hle' | hle'
      · exact .inl hle'
      · omega
    · exact .inr hle
  constructor
  · exact h.bounds
  · intro c hc
    obtain ⟨hc, hcb⟩ := hmem c hc
    have hfits := h.fits c hc
    rw [hs.kept c hc hcb .used (by simp), hs.kept c hc hcb .magic (by simp)]
    refine ⟨hfits.1, ?_, hfits.2.2⟩
    by_cases hcp : c.1 = p.1
    · rw [h.eq_of_header hc hp hcp, hendp]
      exact (h.fits b hb).2.1
    · rw [hendc c hc hcb hcp]
      exact hfits.2.1
  · refine (h.apart.sublist erase_sublist).imp_of_mem fun {x y} hx hy hxy => ?_
    obtain ⟨hx, hxb⟩ := hmem x hx
    obtain ⟨hy, hyb⟩ := hmem y hy
    by_cases hxp : x.1 = p.1
    · obtain rfl := h.eq_of_header hx hp hxp
      have hyx : y.1 ≠ x.1 := by
        intro heq
        obtain rfl := h.eq_of_header hy hx heq
        have := header_lt_endOf H y
        omega
      rw [hendp, hendc y hy hyb hyx]
      exact hareap y hy hyb hyx
    · by_cases hyp : y.1 = p.1
      · obtain rfl := h.eq_of_header hy hp hyp
        rw [hendp, hendc x hx hxb hxp]
        exact (hareap x hx hxb hxp).symm
      · rwa [hendc x hx hxb hxp, hendc y hy hyb hyp]
  · intro c hc
    obtain ⟨hc, hcb⟩ := hmem c hc
    by_cases hcp : c.1 = p.1
    · rw [hcp, hs.next]
      rcases h.next b hb with hzero | ⟨hlt, d, hd, hdn⟩
      · exact .inl hzero
      · exact .inr ⟨by omega, d, hkeep d hd (by omega), hdn⟩
    · rw [hs.kept c hc hcb .next (.inl hcp)]
      rcases h.next c hc with hzero | ⟨hlt, d, hd, hdn⟩
      · exact .inl hzero
      · refine .inr ⟨hlt, d, hkeep d hd fun hdb => hcp ?_, hdn⟩
        exact h.back c hc b hb p hp (hdn.symm.trans hdb) hl
  · intro c hc
    obtain ⟨hcL, hcb⟩ := hmem c hc
    rw [hs.kept c hcL hcb .prev (by simp)]
    rcases h.prev c hcL with hzero | hf | ⟨d, hd, hdc⟩
    · exact .inl hzero
    · exact .inr (.inl hf)
    · have hdb : d.1 ≠ b.1 := fun heq => hend c hcL (h.eq_of_header hd hb heq ▸ hdc)
      have hd' := hkeep d hd hdb
      exact .inr (.inr ⟨d, hd', (hleft c hc d hd').mpr hdc⟩)
  · intro x hx d hd hdx
    have hold := (hleft x hx d hd).mp hdx
    obtain ⟨hx, hxb⟩ := hmem x hx
    obtain ⟨hd, hdb⟩ := hmem d hd
    have hdp : d.1 ≠ p.1 := fun heq => hright x hx hxb (h.eq_of_header hd hp heq ▸ hold)
    rw [hs.kept d hd hdb .free (.inl hdp)]
    exact h.joined x hx d hd hold
  · intro x hx d hd hdx hne
    have hold := (hleft x hx d hd).mp hdx
    obtain ⟨hx, hxb⟩ := hmem x hx
    obtain ⟨hd, hdb⟩ := hmem d hd
    have hdp : d.1 ≠ p.1 := fun heq => hright x hx hxb (h.eq_of_header hd hp heq ▸ hold)
    rw [hs.kept d hd hdb .next (.inl hdp)]
    exact h.onward x hx d hd hold hne
  · intro y hy x hx d hd hnext hdx
    have hold := (hleft x hx d hd).mp hdx
    obtain ⟨hy, hyb⟩ := hmem y hy
    obtain ⟨hx, hxb⟩ := hmem x hx
    obtain ⟨hd, hdb⟩ := hmem d hd
    by_cases hyp : y.1 = p.1
    · rw [hyp, hs.next] at hnext
      have hbd := h.back b hb x hx d hd hnext hold
      exact absurd hbd.symm hdb
    · rw [hs.kept y hy hyb .next (.inl hyp)] at hnext
      exact h.back y hy x hx d hd hnext hold
  · rcases h.root with ⟨rfl, -⟩ | ⟨⟨d, hd, rfl⟩, hprev, hnode⟩
    · cases hb
    · right
      rw [hs.kept d hd hfirst .prev (by simp), hs.kept d hd hfirst .nodeNumber (by simp)]
      exact ⟨⟨d, hkeep d hd hfirst, rfl⟩, hprev, hnode⟩

end Comus.User
