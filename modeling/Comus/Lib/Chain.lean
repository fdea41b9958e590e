import Mathlib.Data.List.Basic
import Mathlib.Logic.Function.Basic
import Mathlib.Tactic

/-!
# Singly linked lists over a link function

`next : ι → Option ι` is the link field of every node at once. `Seg next p xs q`
says that the nodes visited from `p` are exactly `xs` and that the walk then
stands at `q`; a complete list is a segment that ends at `none`. Several lists
may share one link field: each of them only depends on the links of its members.
-/

namespace Comus.Chain

open Option List Function

universe u
variable {ι : Type u} {next next' : ι → Option ι} {p q : Option ι} {x y : ι} {xs ys zs : List ι}

def Seg (next : ι → Option ι) : Option ι → List ι → Option ι → Prop
  | p, [], q => p = q
  | p, x :: xs, q => p = some x ∧ Seg next (next x) xs q

@[simp] theorem seg_nil : Seg next p [] q ↔ p = q := .rfl

@[simp] theorem seg_cons : Seg next p (x :: xs) q ↔ p = some x ∧ Seg next (next x) xs q := .rfl

theorem seg_append :
    Seg next p (xs ++ ys) q ↔ ∃ m, Seg next p xs m ∧ Seg next m ys q := by
  induction xs generalizing p with
  | nil => simp
  | cons x xs ih =>
    simp only [cons_append, seg_cons, ih]
    constructor
    · rintro ⟨hp, m, h1, h2⟩
      exact ⟨m, ⟨hp, h1⟩, h2⟩
    · rintro ⟨m, ⟨hp, h1⟩, h2⟩
      exact ⟨hp, m, h1, h2⟩

theorem Seg.congr (h : Seg next p xs q) (hx : ∀ x ∈ xs, next' x = next x) : Seg next' p xs q := by
  induction xs generalizing p with
  | nil => exact h
  | cons x xs ih =>
    refine ⟨h.1, ?_⟩
    rw [hx x mem_cons_self]
    exact ih h.2 fun y hy => hx y (mem_cons_of_mem _ hy)

theorem Seg.update [DecidableEq ι] (h : Seg next p xs q) (hx : x ∉ xs) (v : Option ι) :
    Seg (update next x v) p xs q :=
  h.congr fun y hy => by
    have hne : y ≠ x := fun he => hx (he ▸ hy)
    rw [update_of_ne hne]

theorem Seg.unique (h : Seg next p xs none) (h' : Seg next p ys none) : xs = ys := by
  induction xs generalizing p ys with
  | nil =>
    cases ys with
    | nil => rfl
    | cons y ys => cases h.symm.trans h'.1
  | cons x xs ih =>
    cases ys with
    | nil => cases h'.symm.trans h.1
    | cons y ys =>
      cases h.1.symm.trans h'.1
      rw [ih h.2 h'.2]

/-- A list that ends visits no node twice: the second visit would repeat the walk forever. -/
theorem Seg.nodup (h : Seg next p xs none) : xs.Nodup := by
  induction xs generalizing p with
  | nil => exact nodup_nil
  | cons x xs ih =>
    refine nodup_cons.mpr ⟨fun hx => ?_, ih h.2⟩
    obtain ⟨as, bs, hxs⟩ := append_of_mem hx
    have htail := h.2
    rw [hxs] at htail
    obtain ⟨m, -, hm⟩ := seg_append.mp htail
    have heq := congrArg length (htail.unique hm.2)
    simp only [length_append, length_cons] at heq
    omega

theorem Seg.head?_eq (h : Seg next p xs none) : xs.head? = p := by
  cases xs with
  | nil => exact h.symm
  | cons x xs => exact h.1.symm

theorem Seg.mem_iff (h : Seg next p xs none) : x ∈ xs ↔ ∃ ys, Seg next p ys (some x) := by
  constructor
  · intro hx
    obtain ⟨ys, zs, rfl⟩ := append_of_mem hx
    obtain ⟨m, hys, hm, -⟩ := seg_append.mp h
    exact ⟨ys, hm ▸ hys⟩
  · rintro ⟨ys, hys⟩
    -- the two walks from `p` agree as long as the shorter one lasts
    induction ys generalizing p xs with
    | nil =>
      cases xs with
      | nil => cases h.symm.trans hys
      | cons y xs =>
        cases h.1.symm.trans hys
        exact mem_cons_self
    | cons y ys ih =>
      cases xs with
      | nil => cases h.symm.trans hys.1
      | cons y' xs =>
        cases h.1.symm.trans hys.1
        exact mem_cons_of_mem _ (ih h.2 hys.2)

theorem Seg.next_of_mem (h : Seg next p (xs ++ x :: ys) none) : next x = ys.head? := by
  obtain ⟨m, -, hm⟩ := seg_append.mp h
  exact hm.2.head?_eq.symm

def Grounded (next : ι → Option ι) (x : ι) : Prop := ∃ xs, Seg next (some x) xs none

theorem grounded_of_none (h : next x = none) : Grounded next x := ⟨[x], rfl, h⟩

theorem Grounded.cons (hy : Grounded next y) (h : next x = some y) : Grounded next x := by
  obtain ⟨xs, hxs⟩ := hy
  exact ⟨x :: xs, rfl, h ▸ hxs⟩

theorem Grounded.next_ne (h : Grounded next x) : next x ≠ some x := by
  intro hx
  obtain ⟨xs, hxs⟩ := h
  cases xs with
  | nil => cases hxs
  | cons y xs =>
    cases hxs.1
    have hlen := congrArg length (hxs.unique (hx ▸ hxs.2))
    simp at hlen

theorem Grounded.of_links (h : Grounded next x)
    (hlink : ∀ y, next' y = next y ∨ ∀ z, next' y = some z → Grounded next' z) :
    Grounded next' x := by
  obtain ⟨xs, hxs⟩ := h
  induction xs generalizing x with
  | nil => cases hxs
  | cons y xs ih =>
    obtain rfl : x = y := some.inj hxs.1
    cases hnext : next' x with
    | none => exact grounded_of_none hnext
    | some z =>
      refine Grounded.cons ?_ hnext
      rcases hlink x with hsame | hnew
      · exact ih (hnext ▸ hsame ▸ hxs.2)
      · exact hnew z hnext

/-- The loop `while (curr && go(curr)) prev = curr, curr = curr->next`. It returns
the final `prev` and `curr`; `none` means that the fuel has run out. -/
def walk (next : ι → Option ι) (go : ι → Bool) :
    Nat → Option ι → Option ι → Option (Option ι × Option ι)
  | 0, _, _ => none
  | _ + 1, prev, none => some (prev, none)
  | fuel + 1, prev, some c =>
    if go c then walk next go fuel (some c) (next c) else some (prev, some c)

theorem walk_eq (go : ι → Bool) (prev : Option ι) {fuel : Nat} (h : Seg next p xs none)
    (hf : xs.length < fuel) :
    walk next go fuel prev p =
      some ((xs.takeWhile go).getLast?.or prev, (xs.dropWhile go).head?) := by
  induction xs generalizing p prev fuel with
  | nil =>
    obtain ⟨fuel, rfl⟩ := Nat.exists_eq_succ_of_ne_zero (Nat.ne_of_gt hf)
    rw [h]
    rfl
  | cons x xs ih =>
    obtain ⟨fuel, rfl⟩ := Nat.exists_eq_succ_of_ne_zero (Nat.ne_of_gt (Nat.zero_lt_of_lt hf))
    rw [h.1, walk]
    cases hgo : go x with
    | false => simp [hgo]
    | true =>
      rw [if_pos rfl, ih (some x) h.2 (by simpa using hf), takeWhile_cons_of_pos hgo,
        dropWhile_cons_of_pos hgo]
      cases xs.takeWhile go with
      | nil => rfl
      | cons y ys =>
        rw [getLast?_cons_cons, getLast?_cons]
        rfl

structure IsQueue (next : ι → Option ι) (head tail : Option ι) (xs : List ι) : Prop where
  seg : Seg next head xs none
  tail_eq : tail = xs.getLast?

variable {head tail : Option ι}

theorem IsQueue.congr (h : IsQueue next head tail xs) (hx : ∀ x ∈ xs, next' x = next x) :
    IsQueue next' head tail xs :=
  ⟨h.seg.congr hx, h.tail_eq⟩

theorem IsQueue.isNone_eq (h : IsQueue next head tail xs) : head.isNone = tail.isNone := by
  rw [h.tail_eq, ← h.seg.head?_eq]
  cases xs with
  | nil => rfl
  | cons x xs =>
    rw [getLast?_cons]
    rfl

theorem IsQueue.empty (next : ι → Option ι) : IsQueue next none none [] := ⟨rfl, rfl⟩

theorem IsQueue.singleton (h : next x = none) : IsQueue next (some x) (some x) [x] :=
  ⟨⟨rfl, h⟩, rfl⟩

section Update

variable [DecidableEq ι]

theorem IsQueue.push_front (h : IsQueue next head tail xs) (hne : xs ≠ []) (hx : x ∉ xs) :
    IsQueue (update next x head) (some x) tail (x :: xs) := by
  refine ⟨⟨rfl, ?_⟩, ?_⟩
  · rw [update_self]
    exact h.seg.update hx _
  · rw [h.tail_eq]
    cases xs with
    | nil => exact absurd rfl hne
    | cons y ys => rw [getLast?_cons_cons]

theorem IsQueue.push_back (h : IsQueue next head tail (xs ++ [y])) (hx : next x = none)
    (hmem : x ∉ xs ++ [y]) :
    IsQueue (update next y (some x)) head (some x) (xs ++ [y] ++ [x]) := by
  have hnodup := h.seg.nodup
  have hy : y ∉ xs := fun hy => (disjoint_of_nodup_append hnodup) hy mem_cons_self
  have hxy : x ≠ y := fun he => hmem (he ▸ mem_append_right _ mem_cons_self)
  obtain ⟨m, h1, h2⟩ := seg_append.mp h.seg
  refine ⟨?_, by simp⟩
  rw [append_assoc]
  refine seg_append.mpr ⟨m, h1.update hy _, h2.1, ?_⟩
  rw [update_self]
  exact ⟨rfl, by rw [update_of_ne hxy]; exact hx⟩

theorem IsQueue.insert_between (h : IsQueue next head tail (xs ++ y :: zs)) (hne : zs ≠ [])
    (hmem : x ∉ xs ++ y :: zs) :
    IsQueue (update (update next x (next y)) y (some x)) head tail
      (xs ++ y :: x :: zs) := by
  have hnodup := h.seg.nodup
  have hy : y ∉ xs := fun hy => (disjoint_of_nodup_append hnodup) hy mem_cons_self
  have hyz : y ∉ zs := (nodup_cons.mp (Nodup.of_append_right hnodup)).1
  simp only [mem_append, mem_cons, not_or] at hmem
  obtain ⟨hxs, hxy, hxz⟩ := hmem
  obtain ⟨m, h1, h2⟩ := seg_append.mp h.seg
  refine ⟨seg_append.mpr ⟨m, (h1.update hxs _).update hy _, h2.1, ?_⟩, ?_⟩
  · rw [update_self]
    refine ⟨rfl, ?_⟩
    rw [update_of_ne hxy, update_self]
    exact (h2.2.update hxz _).update hyz _
  · rw [h.tail_eq]
    cases zs with
    | nil => exact absurd rfl hne
    | cons z zs => simp [getLast?_append, getLast?_cons_cons]

theorem IsQueue.unlink (h : IsQueue next head tail (xs ++ x :: zs)) :
    IsQueue
      (update (match xs.getLast? with
        | some p => update next p (next x)
        | none => next) x none)
      (match xs.getLast? with
        | some _ => head
        | none => next x)
      (if zs = [] then xs.getLast? else tail) (xs ++ zs) := by
  have hnodup := h.seg.nodup
  have hxs : x ∉ xs := fun hx => (disjoint_of_nodup_append hnodup) hx mem_cons_self
  have hxz : x ∉ zs := (nodup_cons.mp (Nodup.of_append_right hnodup)).1
  have htail : (if zs = [] then xs.getLast? else tail) = (xs ++ zs).getLast? := by
    rw [h.tail_eq]
    split_ifs with hz
    · rw [hz, append_nil]
    · cases zs with
      | nil => exact absurd rfl hz
      | cons z zs => simp [getLast?_append, getLast?_cons_cons]
  obtain ⟨m, h1, h2⟩ := seg_append.mp h.seg
  refine ⟨?_, htail⟩
  rcases eq_nil_or_concat xs with rfl | ⟨ys, p, rfl⟩
  · exact h2.2.update hxz _
  · rw [concat_eq_append] at *
    have hp : p ∉ ys := fun hp =>
      (disjoint_of_nodup_append (Nodup.of_append_left hnodup)) hp mem_cons_self
    have hpz : p ∉ zs := fun hp => (disjoint_of_nodup_append hnodup)
      (mem_append_right _ mem_cons_self) (mem_cons_of_mem _ hp)
    have hpx : p ≠ x := fun he => hxs (he ▸ mem_append_right _ mem_cons_self)
    have hys : x ∉ ys := fun hy => hxs (mem_append_left _ hy)
    obtain ⟨k, h3, h4⟩ := seg_append.mp h1
    simp only [getLast?_append, getLast?_singleton, some_or]
    rw [append_assoc]
    refine seg_append.mpr ⟨k, (h3.update hp _).update hys _, h4.1, ?_⟩
    rw [update_of_ne hpx, update_self]
    exact (h2.2.update hpz _).update hxz _

end Update

/-!
## Doubly linked lists

The backward links of a list are described by `Back`: each node points to its
predecessor, the first one to a given pointer. All local rewritings of a list
(inserting next to a node, unlinking neighbours) are one rule, `IsDList.splice`:
the inner part of a list behind some node is replaced, and only links of that
node, of the inner part and of its successor change.
-/

variable {nx nx' pv pv' : ι → Option ι} {head : Option ι} {as bs mid' : List ι}

def Back (pv : ι → Option ι) : Option ι → List ι → Prop
  | _, [] => True
  | p, x :: xs => pv x = p ∧ Back pv (some x) xs

@[simp] theorem back_nil : Back pv p [] := trivial

@[simp] theorem back_cons : Back pv p (x :: xs) ↔ pv x = p ∧ Back pv (some x) xs := .rfl

theorem back_append :
    Back pv p (xs ++ ys) ↔ Back pv p xs ∧ Back pv (xs.getLast?.or p) ys := by
  induction xs generalizing p with
  | nil => simp
  | cons x xs ih =>
    have hlast : (x :: xs).getLast?.or p = xs.getLast?.or (some x) := by
      cases xs with
      | nil => rfl
      | cons y ys =>
        rw [getLast?_cons_cons, getLast?_cons]
        rfl
    rw [cons_append, back_cons, back_cons, ih, hlast, and_assoc]

theorem Back.congr (h : Back pv p xs) (hx : ∀ x ∈ xs, pv' x = pv x) : Back pv' p xs := by
  induction xs generalizing p with
  | nil => trivial
  | cons x xs ih =>
    refine ⟨?_, ih h.2 fun y hy => hx y (mem_cons_of_mem _ hy)⟩
    rw [hx x mem_cons_self]
    exact h.1

structure IsDList (nx pv : ι → Option ι) (head : Option ι) (xs : List ι) : Prop where
  fwd : Seg nx head xs none
  back : Back pv none xs

theorem IsDList.nodup (h : IsDList nx pv head xs) : xs.Nodup := h.fwd.nodup

theorem IsDList.next_eq (h : IsDList nx pv head (xs ++ x :: ys)) : nx x = ys.head? :=
  h.fwd.next_of_mem

theorem IsDList.prev_eq (h : IsDList nx pv head (xs ++ x :: ys)) : pv x = xs.getLast? := by
  have hback := (back_append.mp h.back).2
  rw [or_none] at hback
  exact hback.1

theorem IsDList.congr (h : IsDList nx pv head xs) (hnx : ∀ x ∈ xs, nx' x = nx x)
    (hpv : ∀ x ∈ xs, pv' x = pv x) : IsDList nx' pv' head xs :=
  ⟨h.fwd.congr hnx, h.back.congr hpv⟩

theorem IsDList.links_mem (h : IsDList nx pv head xs) (hx : x ∈ xs) (hlink : nx x = some y ∨ pv x = some y) :
    y ∈ xs := by
  obtain ⟨as, bs, rfl⟩ := append_of_mem hx
  rw [h.next_eq, h.prev_eq] at hlink
  rcases hlink with hnext | hprev
  · exact mem_append_right _ (mem_cons_of_mem _ (mem_of_mem_head? hnext))
  · exact mem_append_left _ (mem_of_mem_getLast? hprev)

theorem IsDList.prev_iff_next (h : IsDList nx pv head xs) (hx : x ∈ xs) (hy : y ∈ xs) :
    nx x = some y ↔ pv y = some x := by
  constructor
  · intro hn
    obtain ⟨as, bs, rfl⟩ := append_of_mem hx
    have hnext := h.next_eq
    rw [hn] at hnext
    obtain ⟨cs, rfl⟩ : ∃ cs, bs = y :: cs := by
      cases bs with
      | nil => cases hnext
      | cons b cs =>
        rw [head?_cons] at hnext
        exact ⟨cs, by rw [some.inj hnext]⟩
    rw [show as ++ x :: y :: cs = (as ++ [x]) ++ y :: cs by simp] at h
    rw [h.prev_eq]
    simp
  · intro hp
    obtain ⟨as, bs, rfl⟩ := append_of_mem hy
    have hprev := h.prev_eq
    rw [hp] at hprev
    rcases eq_nil_or_concat as with rfl | ⟨cs, c, rfl⟩
    · cases hprev
    · rw [concat_eq_append, getLast?_append, getLast?_singleton,
        some_or] at hprev
      cases hprev
      rw [concat_eq_append, append_assoc, singleton_append] at h
      exact h.next_eq

theorem ne_of_nodup_append (h : (as ++ x :: bs).Nodup) :
    (∀ y ∈ as, y ≠ x) ∧ (∀ y ∈ bs, y ≠ x) ∧ ∀ y ∈ as, ∀ z ∈ bs, y ≠ z := by
  obtain ⟨-, h2, h3⟩ := nodup_append.mp h
  refine ⟨fun y hy => h3 y hy x mem_cons_self, fun y hy he => ?_,
    fun y hy z hz => h3 y hy z (mem_cons_of_mem _ hz)⟩
  exact (nodup_cons.mp h2).1 (he ▸ hy)

theorem IsDList.splice [DecidableEq ι] (mid : List ι) (h : IsDList nx pv head (as ++ x :: (mid ++ bs)))
    (hnx : ∀ y ∈ as ++ x :: bs, nx' y = if y = x then (mid' ++ bs).head? else nx y)
    (hpv : ∀ y ∈ as ++ x :: bs, pv' y = if bs.head? = some y then mid'.getLast?.or (some x) else pv y)
    (hmid : Seg nx' (mid' ++ bs).head? mid' bs.head?) (hback : Back pv' (some x) mid') :
    IsDList nx' pv' head (as ++ x :: (mid' ++ bs)) := by
  obtain ⟨has, hbs, hdis⟩ := ne_of_nodup_append h.nodup
  have hnotHead : ∀ y, y ∈ as ∨ y = x → ¬ bs.head? = some y := by
    intro y hy he
    have hmem : y ∈ mid ++ bs := mem_append_right _ (mem_of_mem_head? he)
    rcases hy with hy | rfl
    · exact hdis y hy y hmem rfl
    · exact hbs y hmem rfl
  obtain ⟨m, h1, h2⟩ := seg_append.mp h.fwd
  obtain ⟨k, -, h3⟩ := seg_append.mp h2.2
  obtain ⟨hb1, hb2⟩ := back_append.mp h.back
  obtain ⟨-, hb3⟩ := back_append.mp hb2.2
  constructor
  · refine seg_append.mpr ⟨m, h1.congr fun y hy => ?_, h2.1, seg_append.mpr ⟨bs.head?, ?_, ?_⟩⟩
    · rw [hnx y (mem_append_left _ hy), if_neg (has y hy)]
    · rw [hnx x (by simp), if_pos rfl]
      exact hmid
    · rw [h3.head?_eq]
      refine h3.congr fun y hy => ?_
      rw [hnx y (by simp [hy]), if_neg (hbs y (mem_append_right _ hy))]
  · refine back_append.mpr ⟨hb1.congr fun y hy => ?_, ?_, back_append.mpr ⟨hback, ?_⟩⟩
    · rw [hpv y (mem_append_left _ hy), if_neg (hnotHead y (.inl hy))]
    · rw [hpv x (by simp), if_neg (hnotHead x (.inr rfl))]
      exact hb2.1
    · cases bs with
      | nil => trivial
      | cons b bs =>
        refine ⟨by rw [hpv b (by simp), if_pos head?_cons], hb3.2.congr fun y hy => ?_⟩
        have hby : b ≠ y := fun he => (nodup_cons.mp h3.nodup).1 (he ▸ hy)
        rw [hpv y (by simp [hy]), head?_cons, if_neg (by simp [hby])]

end Comus.Chain
