import Comus.Memory.VirtList

/-!
# Moving nodes to a new array (update_node_ptrs)

The used nodes of the old array are copied one after the other, in the order of the array.
Each copy takes the place of its node in the list at once: the neighbours are found through
the links that were copied, whether they have been moved already or not. So between two
rounds there is one list, in which the nodes in front of the index are replaced.
-/

namespace Comus.VirtAlloc

open Chain Option List Function

variable {h h₀ : Heap} {old new i idx oldLen newLen : Nat} {head : Option Ptr} {xs as bs : List Ptr} {p y : Ptr}

theorem copyNode_self (h : Heap) (old new i idx : Nat) :
    block (copyNode old new i idx h) ⟨new, idx⟩ = block h ⟨old, i⟩ ∧
      (copyNode old new i idx h ⟨new, idx⟩).isUsed = (h ⟨old, i⟩).isUsed := by
  simp only [block, copyNode, setPrevIf_apply, setNextIf_apply, update_self]
  split_ifs <;> exact ⟨rfl, rfl⟩

theorem copyNode_other (h : Heap) (old i : Nat) (hp : p ≠ ⟨new, idx⟩) :
    block (copyNode old new i idx h) p = block h p ∧
      (copyNode old new i idx h p).isUsed = (h p).isUsed := by
  simp only [block, copyNode, setPrevIf_apply, setNextIf_apply, update_of_ne hp]
  split_ifs <;> exact ⟨rfl, rfl⟩

section Links

variable (hprev : (h ⟨old, i⟩).prev = some y) (hy : y ≠ ⟨new, idx⟩)
include hprev hy

/-- The predecessor is not the new place, so the link to the successor is still the copied one. -/
theorem copyNode_eq : copyNode old new i idx h =
    setPrevIf (setNext (update h ⟨new, idx⟩ (h ⟨old, i⟩)) y (some ⟨new, idx⟩)) (h ⟨old, i⟩).next
      (some ⟨new, idx⟩) := by
  have hself : setNext (update h ⟨new, idx⟩ (h ⟨old, i⟩)) y (some ⟨new, idx⟩) ⟨new, idx⟩ =
      h ⟨old, i⟩ := by
    rw [setNext, modify_apply, if_neg hy.symm, update_self]
  simp only [copyNode, update_self, hprev, setNextIf, hself]

theorem copyNode_next (q : Ptr) : nextOf (copyNode old new i idx h) q =
    if q = y then some ⟨new, idx⟩ else if q = ⟨new, idx⟩ then (h ⟨old, i⟩).next else nextOf h q := by
  rw [nextOf, copyNode_eq hprev hy, setPrevIf_apply, setNext, modify_apply, update_apply, nextOf]
  split_ifs <;> rfl

theorem copyNode_prev (q : Ptr) :
    prevOf (copyNode old new i idx h) q =
      if (h ⟨old, i⟩).next = some q then some ⟨new, idx⟩ else if q = ⟨new, idx⟩ then some y else prevOf h q := by
  rw [prevOf, copyNode_eq hprev hy, setPrevIf_apply, setNext, modify_apply, update_apply, prevOf]
  split_ifs <;> first | rfl | exact hprev

end Links

theorem copyNode_list (hl : IsDList (nextOf h) (prevOf h) head (as ++ y :: ([⟨old, i⟩] ++ bs)))
    (hnew : ⟨new, idx⟩ ∉ as ++ y :: ([⟨old, i⟩] ++ bs)) :
    IsDList (nextOf (copyNode old new i idx h)) (prevOf (copyNode old new i idx h)) head
      (as ++ y :: ([⟨new, idx⟩] ++ bs)) := by
  have hsplit : as ++ y :: ([⟨old, i⟩] ++ bs) = (as ++ [y]) ++ ⟨old, i⟩ :: bs := by simp
  have hlist := hl
  rw [hsplit] at hlist
  have hprev : (h ⟨old, i⟩).prev = some y := by
    have := hlist.prev_eq
    rwa [getLast?_append, getLast?_singleton, some_or] at this
  have hnext : (h ⟨old, i⟩).next = bs.head? := hlist.next_eq
  have hnot : ∀ q ∈ as ++ y :: bs, q ≠ ⟨new, idx⟩ := by
    rintro q hq rfl
    simp only [mem_append, mem_cons, singleton_append] at hnew hq
    tauto
  have hny : ⟨new, idx⟩ ≠ y := (hnot y (by simp)).symm
  have hnhead : bs.head? ≠ some ⟨new, idx⟩ := fun he => hnot _ (by simp [mem_of_mem_head? he]) rfl
  have hnextAt := copyNode_next hprev hny.symm
  have hprevAt := copyNode_prev hprev hny.symm
  rw [hnext] at hnextAt hprevAt
  refine IsDList.splice [⟨old, i⟩] hl ?_ ?_ ⟨rfl, ?_⟩ ⟨?_, trivial⟩
  · intro q hq
    rw [hnextAt, if_neg (hnot q hq)]
    rfl
  · intro q hq
    rw [hprevAt, if_neg (hnot q hq)]
    rfl
  · change nextOf (copyNode old new i idx h) ⟨new, idx⟩ = bs.head?
    rw [hnextAt, if_neg hny, if_pos rfl]
  · rw [hprevAt, if_neg hnhead, if_pos rfl]

def usedBefore (h : Heap) (old i : Nat) : Nat := (range i).countP fun j => (h ⟨old, j⟩).isUsed

theorem usedBefore_succ (h : Heap) (old i : Nat) :
    usedBefore h old (i + 1) = usedBefore h old i + if (h ⟨old, i⟩).isUsed then 1 else 0 := by
  rw [usedBefore, range_succ, countP_append, countP_singleton, usedBefore]

theorem usedBefore_mono (h : Heap) (old : Nat) : Monotone (usedBefore h old) := by
  refine monotone_nat_of_le_succ fun i => ?_
  rw [usedBefore_succ]
  exact Nat.le_add_right _ _

theorem usedBefore_lt {j : Nat} (hj : j < i) (hused : (h ⟨old, j⟩).isUsed = true) :
    usedBefore h old j < usedBefore h old i := by
  have hle : usedBefore h old (j + 1) ≤ usedBefore h old i := usedBefore_mono h old hj
  rw [usedBefore_succ, if_pos hused] at hle
  exact hle

theorem exists_usedBefore {j n : Nat} (hj : j < usedBefore h old n) :
    ∃ i, i < n ∧ (h ⟨old, i⟩).isUsed = true ∧ usedBefore h old i = j := by
  induction n with
  | zero => exact absurd hj (Nat.not_lt_zero j)
  | succ n ih =>
    by_cases hlt : j < usedBefore h old n
    · obtain ⟨i, hi, hused, heq⟩ := ih hlt
      exact ⟨i, Nat.lt_succ_of_lt hi, hused, heq⟩
    · rw [usedBefore_succ] at hj
      by_cases hused : (h ⟨old, n⟩).isUsed = true
      · rw [if_pos hused] at hj
        exact ⟨n, Nat.lt_succ_self n, hused, by omega⟩
      · rw [if_neg hused] at hj
        exact absurd hj hlt

/-- Where a node of the list is once the entries in front of `i` have been moved. -/
def relocate (h : Heap) (old new i : Nat) (p : Ptr) : Ptr :=
  if p.arr = old ∧ p.idx < i then ⟨new, usedBefore h old p.idx⟩ else p

theorem relocate_succ_of_ne (hp : p ≠ ⟨old, i⟩) : relocate h old new (i + 1) p = relocate h old new i p := by
  unfold relocate
  obtain ⟨arr, j⟩ := p
  have hiff : (arr = old ∧ j < i + 1) ↔ (arr = old ∧ j < i) := by
    constructor
    · rintro ⟨rfl, hj⟩
      refine ⟨rfl, Nat.lt_of_le_of_ne (Nat.lt_succ_iff.mp hj) ?_⟩
      rintro rfl
      exact hp rfl
    · exact fun h => ⟨h.1, Nat.lt_succ_of_lt h.2⟩
  simp only [hiff]

theorem relocate_self : relocate h old new i ⟨old, i⟩ = ⟨old, i⟩ := if_neg fun h => lt_irrefl i h.2

theorem relocate_succ_self : relocate h old new (i + 1) ⟨old, i⟩ = ⟨new, usedBefore h old i⟩ :=
  if_pos ⟨rfl, Nat.lt_succ_self i⟩

structure Movable (h : Heap) (old new oldLen : Nat) (head : Option Ptr) (xs : List Ptr) : Prop where
  list : IsDList (nextOf h) (prevOf h) head xs
  first : ∀ p, xs.head? = some p → p.arr ≠ old
  used : ∀ p ∈ xs, (h p).isUsed = true
  entries : ∀ p, p.arr = old → (p ∈ xs ↔ p.idx < oldLen ∧ (h p).isUsed = true)
  fresh : ∀ p ∈ xs, p.arr ≠ new
  apart : new ≠ old

structure Moving (h₀ h : Heap) (old new i : Nat) (head : Option Ptr) (xs : List Ptr) : Prop where
  list : IsDList (nextOf h) (prevOf h) head (xs.map (relocate h₀ old new i))
  data : ∀ p ∈ xs, block h (relocate h₀ old new i p) = block h₀ p
  used : ∀ p ∈ xs, (h (relocate h₀ old new i p)).isUsed = true
  flags : ∀ j, (h ⟨old, j⟩).isUsed = (h₀ ⟨old, j⟩).isUsed

theorem Movable.start (hm : Movable h old new oldLen head xs) : Moving h h old new 0 head xs := by
  have hzero : ∀ p, relocate h old new 0 p = p := fun p => if_neg fun h => Nat.not_lt_zero _ h.2
  have hmap : xs.map (relocate h old new 0) = xs := by
    rw [map_congr_left fun p _ => hzero p]
    exact List.map_id xs
  refine ⟨hmap.symm ▸ hm.list, fun p _ => ?_, fun p hp => ?_, fun _ => rfl⟩
  · rw [hzero]
  · rw [hzero]
    exact hm.used p hp

theorem Movable.place_notMem (hm : Movable h₀ old new oldLen head xs) :
    ⟨new, usedBefore h₀ old i⟩ ∉ xs.map (relocate h₀ old new i) := by
  intro hmem
  obtain ⟨q, hq, heq⟩ := mem_map.mp hmem
  unfold relocate at heq
  split_ifs at heq with hmoved
  · obtain ⟨arr, j⟩ := q
    obtain ⟨rfl, hj⟩ := hmoved
    have hlt := usedBefore_lt hj (hm.used _ hq)
    have hplace := congrArg Ptr.idx heq
    exact Nat.ne_of_lt hlt hplace
  · exact hm.fresh q hq (congrArg Ptr.arr heq)

theorem Moving.skip (hv : Moving h₀ h old new i head xs) (hnot : ⟨old, i⟩ ∉ xs) :
    Moving h₀ h old new (i + 1) head xs := by
  have hsame : ∀ p ∈ xs, relocate h₀ old new (i + 1) p = relocate h₀ old new i p :=
    fun p hp => relocate_succ_of_ne fun he => hnot (he ▸ hp)
  refine ⟨?_, fun p hp => ?_, fun p hp => ?_, hv.flags⟩
  · rw [map_congr_left hsame]
    exact hv.list
  · rw [hsame p hp]
    exact hv.data p hp
  · rw [hsame p hp]
    exact hv.used p hp

theorem Moving.move (hm : Movable h₀ old new oldLen head xs) (hv : Moving h₀ h old new i head xs)
    (hmem : ⟨old, i⟩ ∈ xs) :
    Moving h₀ (copyNode old new i (usedBefore h₀ old i) h) old new (i + 1) head xs := by
  have hplace := hm.place_notMem (i := i)
  obtain ⟨cs, bs, hxs⟩ := append_of_mem hmem
  obtain ⟨hcs, hbs, -⟩ := ne_of_nodup_append (hxs ▸ hm.list.nodup)
  have hrest : ∀ p ∈ xs, p ≠ ⟨old, i⟩ → relocate h₀ old new (i + 1) p = relocate h₀ old new i p ∧
      relocate h₀ old new i p ≠ ⟨new, usedBefore h₀ old i⟩ := by
    intro p hp hne
    refine ⟨relocate_succ_of_ne hne, fun he => hplace ?_⟩
    rw [← he]
    exact List.mem_map_of_mem hp
  constructor
  · -- the first node is not in the old array
    obtain ⟨as, y, rfl⟩ : ∃ as y, cs = as ++ [y] := by
      rcases eq_nil_or_concat cs with rfl | ⟨as, y, rfl⟩
      · refine absurd rfl (hm.first ⟨old, i⟩ ?_)
        rw [hxs]
        rfl
      · exact ⟨as, y, concat_eq_append⟩
    have hbefore : xs.map (relocate h₀ old new i) = as.map (relocate h₀ old new i) ++
        relocate h₀ old new i y :: ([⟨old, i⟩] ++ bs.map (relocate h₀ old new i)) := by
      rw [hxs]
      simp [relocate_self]
    have hafter : xs.map (relocate h₀ old new (i + 1)) = as.map (relocate h₀ old new i) ++
        relocate h₀ old new i y :: ([⟨new, usedBefore h₀ old i⟩] ++ bs.map (relocate h₀ old new i)) := by
      have has : as.map (relocate h₀ old new (i + 1)) = as.map (relocate h₀ old new i) :=
        map_congr_left fun p hp => relocate_succ_of_ne (hcs p (mem_append_left _ hp))
      have hbs' : bs.map (relocate h₀ old new (i + 1)) = bs.map (relocate h₀ old new i) :=
        map_congr_left fun p hp => relocate_succ_of_ne (hbs p hp)
      have hy : relocate h₀ old new (i + 1) y = relocate h₀ old new i y :=
        relocate_succ_of_ne (hcs y (by simp))
      rw [hxs]
      simp [has, hbs', hy, relocate_succ_self]
    rw [hafter]
    refine copyNode_list ?_ ?_
    · rw [← hbefore]
      exact hv.list
    · rw [← hbefore]
      exact hplace
  · intro p hp
    by_cases hpi : p = ⟨old, i⟩
    · have hdata := hv.data p hp
      rw [hpi, relocate_self] at hdata
      rw [hpi, relocate_succ_self, (copyNode_self _ _ _ _ _).1, hdata]
    · obtain ⟨hsame, hne⟩ := hrest p hp hpi
      rw [hsame, (copyNode_other _ _ _ hne).1, hv.data p hp]
  · intro p hp
    by_cases hpi : p = ⟨old, i⟩
    · have hused := hv.used p hp
      rw [hpi, relocate_self] at hused
      rw [hpi, relocate_succ_self, (copyNode_self _ _ _ _ _).2, hused]
    · obtain ⟨hsame, hne⟩ := hrest p hp hpi
      rw [hsame, (copyNode_other _ _ _ hne).2, hv.used p hp]
  · intro j
    have hne : (⟨old, j⟩ : Ptr) ≠ ⟨new, usedBefore h₀ old i⟩ := fun he => hm.apart (congrArg Ptr.arr he).symm
    rw [(copyNode_other _ _ _ hne).2, hv.flags]

theorem Moving.loop (hm : Movable h₀ old new oldLen head xs) {n : Nat} (hv : Moving h₀ h old new i head xs)
    (hn : i + n = oldLen) :
    Moving h₀ (copyNodes old new n i (usedBefore h₀ old i) h).1 old new oldLen head xs ∧
      (copyNodes old new n i (usedBefore h₀ old i) h).2 = usedBefore h₀ old oldLen := by
  induction n generalizing i h with
  | zero =>
    obtain rfl : i = oldLen := hn
    exact ⟨hv, rfl⟩
  | succ n ih =>
    have hentry := hm.entries ⟨old, i⟩ rfl
    have hcount := usedBefore_succ h₀ old i
    rw [copyNodes, hv.flags]
    by_cases hused : (h₀ ⟨old, i⟩).isUsed = true
    · rw [if_pos hused] at hcount ⊢
      rw [← hcount]
      exact ih (Moving.move hm hv (hentry.mpr ⟨by dsimp only; omega, hused⟩)) (by omega)
    · rw [if_neg hused] at hcount ⊢
      rw [← show usedBefore h₀ old (i + 1) = usedBefore h₀ old i from hcount]
      exact ih (hv.skip fun hmem => hused (hentry.mp hmem).2) (by omega)

theorem clearNodes_kept {q : Ptr} (hq : q.arr ≠ new ∨ q.idx < idx) (n : Nat) (h : Heap) :
    clearNodes new n idx h q = h q := by
  rw [clearNodes_apply, if_neg]
  rintro ⟨harr, hle, -⟩
  rcases hq with hne | hlt
  · exact hne harr
  · omega

section Movable

variable (hm : Movable h old new oldLen head xs)
include hm

theorem Movable.relocate_old (hp : p ∈ xs) (harr : p.arr = old) :
    relocate h old new oldLen p = ⟨new, usedBefore h old p.idx⟩ ∧
      usedBefore h old p.idx < usedBefore h old oldLen := by
  obtain ⟨hidx, hused⟩ := (hm.entries p harr).mp hp
  have hself : p = ⟨old, p.idx⟩ := by rw [← harr]
  exact ⟨if_pos ⟨harr, hidx⟩, usedBefore_lt hidx (hself ▸ hused)⟩

omit hm in
theorem relocate_elsewhere (harr : p.arr ≠ old) : relocate h old new i p = p := if_neg fun h => harr h.1

theorem Movable.relocated {q : Ptr} (hq : q ∈ xs.map (relocate h old new oldLen)) :
    q.arr = new ∧ q.idx < usedBefore h old oldLen ∨ q.arr ≠ new ∧ q.arr ≠ old := by
  obtain ⟨p, hp, rfl⟩ := mem_map.mp hq
  by_cases harr : p.arr = old
  · obtain ⟨heq, hlt⟩ := hm.relocate_old hp harr
    rw [heq]
    exact .inl ⟨rfl, hlt⟩
  · rw [relocate_elsewhere harr]
    exact .inr ⟨hm.fresh p hp, harr⟩

theorem Movable.place_iff {j : Nat} :
    ⟨new, j⟩ ∈ xs.map (relocate h old new oldLen) ↔ j < usedBefore h old oldLen := by
  constructor
  · intro hmem
    rcases hm.relocated hmem with ⟨-, hlt⟩ | ⟨hne, -⟩
    · exact hlt
    · exact absurd rfl hne
  · intro hj
    obtain ⟨i, hi, hused, rfl⟩ := exists_usedBefore hj
    have hmem : ⟨old, i⟩ ∈ xs := (hm.entries ⟨old, i⟩ rfl).mpr ⟨hi, hused⟩
    exact mem_map.mpr ⟨⟨old, i⟩, hmem, (hm.relocate_old hmem rfl).1⟩

end Movable

/-- `update_node_ptrs` moves the nodes of `old` to `new`: the list has the same blocks in the
same order, no link of it leads to `old`, and the used entries of `new` are its nodes. -/
theorem updateNodePtrs_moves (hm : Movable h old new oldLen head xs)
    (hroom : usedBefore h old oldLen ≤ newLen) :
    ∃ ys, IsDList (nextOf (updateNodePtrs (some old) new oldLen newLen h))
        (prevOf (updateNodePtrs (some old) new oldLen newLen h)) head ys ∧
      ys.map (block (updateNodePtrs (some old) new oldLen newLen h)) = xs.map (block h) ∧
      Forall₂ (fun p q => if p.arr = old then q.arr = new ∧ q.idx < newLen else q = p) xs ys ∧
      (∀ q ∈ ys, ∀ p, (updateNodePtrs (some old) new oldLen newLen h q).next = some p ∨
        (updateNodePtrs (some old) new oldLen newLen h q).prev = some p → p.arr ≠ old) ∧
      ∀ j, j < newLen →
        ((updateNodePtrs (some old) new oldLen newLen h ⟨new, j⟩).isUsed = true ↔ ⟨new, j⟩ ∈ ys) := by
  obtain ⟨hmoving, hcount⟩ := Moving.loop hm hm.start (zero_add oldLen)
  rw [show usedBefore h old 0 = 0 from rfl] at hmoving hcount
  have heq : updateNodePtrs (some old) new oldLen newLen h =
      clearNodes new (newLen - usedBefore h old oldLen) (usedBefore h old oldLen)
        (copyNodes old new oldLen 0 0 h).1 := by
    rw [updateNodePtrs, ← hcount]
  generalize updateNodePtrs (some old) new oldLen newLen h = h' at heq ⊢
  have hkept : ∀ q ∈ xs.map (relocate h old new oldLen), h' q = (copyNodes old new oldLen 0 0 h).1 q := by
    intro q hq
    rw [heq]
    refine clearNodes_kept ?_ _ _
    rcases hm.relocated hq with ⟨-, hlt⟩ | ⟨hne, -⟩
    · exact .inr hlt
    · exact .inl hne
  have hlist : IsDList (nextOf h') (prevOf h') head (xs.map (relocate h old new oldLen)) := by
    refine hmoving.list.congr (fun q hq => ?_) fun q hq => ?_
    · rw [nextOf, hkept q hq, nextOf]
    · rw [prevOf, hkept q hq, prevOf]
  refine ⟨xs.map (relocate h old new oldLen), hlist, ?_, ?_, ?_, ?_⟩
  · rw [List.map_map]
    refine map_congr_left fun p hp => ?_
    rw [comp_apply, block, hkept _ (List.mem_map_of_mem hp), ← hmoving.data p hp, block]
  · rw [forall₂_map_right_iff, forall₂_same]
    intro p hp
    by_cases harr : p.arr = old
    · obtain ⟨hplace, hlt⟩ := hm.relocate_old hp harr
      rw [if_pos harr, hplace]
      exact ⟨rfl, Nat.lt_of_lt_of_le hlt hroom⟩
    · rw [if_neg harr, relocate_elsewhere harr]
  · intro q hq p hlink
    rcases hm.relocated (hlist.links_mem hq hlink) with ⟨hnew, -⟩ | ⟨-, hne⟩
    · rw [hnew]
      exact hm.apart
    · exact hne
  · intro j hj
    rw [hm.place_iff]
    constructor
    · intro hused
      by_contra hge
      rw [heq, clearNodes_apply, if_pos ⟨rfl, by dsimp only; omega, by dsimp only; omega⟩] at hused
      cases hused
    · intro hlt
      have hmem := (hm.place_iff (j := j)).mpr hlt
      obtain ⟨p, hp, hplace⟩ := mem_map.mp hmem
      rw [hkept _ hmem, ← hplace]
      exact hmoving.used p hp

def twoArrays : Heap := fun p =>
  if p = ⟨0, 0⟩ then ⟨0, 1, some ⟨1, 1⟩, none, true, true⟩
  else if p = ⟨1, 1⟩ then ⟨1, 2, some ⟨1, 0⟩, some ⟨0, 0⟩, false, true⟩
  else if p = ⟨1, 0⟩ then ⟨2, 3, some ⟨0, 1⟩, some ⟨1, 1⟩, true, true⟩
  else if p = ⟨0, 1⟩ then ⟨3, 4, none, some ⟨1, 0⟩, false, true⟩
  else zeroNode

def crossing : List Ptr := [⟨0, 0⟩, ⟨1, 1⟩, ⟨1, 0⟩, ⟨0, 1⟩]

theorem twoArrays_movable : Movable twoArrays 1 2 3 (some ⟨0, 0⟩) crossing := by
  constructor
  · constructor
    · exact ⟨rfl, rfl, rfl, rfl, rfl⟩
    · exact ⟨rfl, rfl, rfl, rfl, trivial⟩
  · intro p hp
    cases hp
    decide
  · decide
  · rintro ⟨arr, idx⟩ rfl
    rcases idx with _ | _ | _ | idx
    · decide
    · decide
    · decide
    · simp [crossing, twoArrays, zeroNode]
  · decide
  · decide

theorem updateNodePtrs_moves_crossing : usedBefore twoArrays 1 3 ≤ 8 ∧
    ∃ ys, IsDList (nextOf (updateNodePtrs (some 1) 2 3 8 twoArrays))
        (prevOf (updateNodePtrs (some 1) 2 3 8 twoArrays)) (some ⟨0, 0⟩) ys ∧
      ys.map (block (updateNodePtrs (some 1) 2 3 8 twoArrays)) = crossing.map (block twoArrays) := by
  have hroom : usedBefore twoArrays 1 3 ≤ 8 := by decide
  obtain ⟨ys, hlist, hblocks, -⟩ := updateNodePtrs_moves twoArrays_movable hroom
  exact ⟨hroom, ys, hlist, hblocks⟩

end Comus.VirtAlloc
