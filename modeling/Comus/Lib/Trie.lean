import Mathlib.Data.List.Infix
import Mathlib.Tactic

/-!
# Tries in a store

A store of nodes is a partial function `child` from a node and an index to a node.
A path of indices is followed from a root. `Tree child n r` says that no node at a
depth below `n` has two paths; under it a change of one entry is seen by the paths
through that entry only.
-/

namespace Comus.Trie

open Option List

universe u v
variable {F : Type u} {I : Type v}

def follow (child : F → I → Option F) : F → List I → Option F
  | f, [] => some f
  | f, i :: q => (child f i).bind fun g => follow child g q

variable {child child' : F → I → Option F} {r f g c : F} {i : I} {p q : List I} {n : Nat}

theorem follow_append (r : F) (p q : List I) :
    follow child r (p ++ q) = (follow child r p).bind fun f => follow child f q := by
  induction p generalizing r with
  | nil => rfl
  | cons i p ih =>
    rw [cons_append, follow, follow, bind_assoc]
    congr 1
    funext g
    exact ih g

theorem follow_snoc (r : F) (p : List I) (i : I) :
    follow child r (p ++ [i]) = (follow child r p).bind fun f => child f i := by
  rw [follow_append]
  congr 1
  funext f
  simp [follow]

theorem follow_last (h : follow child r q = some f) :
    q = [] ∧ f = r ∨ ∃ p i g, q = p ++ [i] ∧ follow child r p = some g ∧ child g i = some f := by
  rcases eq_nil_or_concat q with rfl | ⟨p, i, rfl⟩
  · exact .inl ⟨rfl, (some.inj h).symm⟩
  · rw [concat_eq_append, follow_snoc] at h
    obtain ⟨g, hp, hg⟩ := bind_eq_some_iff.mp h
    exact .inr ⟨p, i, g, concat_eq_append, hp, hg⟩

def Node (child : F → I → Option F) (n : Nat) (r f : F) : Prop :=
  ∃ p, p.length < n ∧ follow child r p = some f

def Tree (child : F → I → Option F) (n : Nat) (r : F) : Prop :=
  ∀ p q f, p.length < n → q.length < n →
    follow child r p = some f → follow child r q = some f → p = q

theorem tree_of_parents (hroot : ∀ g i, child g i ≠ some r)
    (hparent : ∀ g g' i i' f, child g i = some f → child g' i' = some f → g = g' ∧ i = i') :
    Tree child n r := by
  intro p q f _ _ hp hq
  induction p using reverseRecOn generalizing q f with
  | nil =>
    cases hp
    rcases follow_last hq with ⟨rfl, -⟩ | ⟨q', j, g, -, -, hg⟩
    · rfl
    · exact absurd hg (hroot g j)
  | append_singleton p i ih =>
    rw [follow_snoc] at hp
    obtain ⟨g, hp, hg⟩ := bind_eq_some_iff.mp hp
    rcases follow_last hq with ⟨-, rfl⟩ | ⟨q', j, g', rfl, hq', hg'⟩
    · exact absurd hg (hroot g i)
    · obtain ⟨rfl, rfl⟩ := hparent g g' i j f hg hg'
      simp only [length_append, length_singleton] at *
      rw [ih q' g (by omega) (by omega) hp hq']

theorem follow_congr (h : ∀ p i f, p ++ [i] <+: q → follow child r p = some f → child' f i = child f i) :
    follow child' r q = follow child r q := by
  induction q generalizing r with
  | nil => rfl
  | cons j q ih =>
    have hfirst : child' r j = child r j := h [] j r (by simp) rfl
    rw [follow, follow, hfirst]
    cases hj : child r j with
    | none => rfl
    | some g =>
      refine ih fun p i f hp hf => h (j :: p) i f ?_ ?_
      · exact cons_prefix_cons.mpr ⟨rfl, hp⟩
      · rw [follow, hj]
        exact hf

theorem length_lt_of_snoc_prefix (h : p ++ [i] <+: q) : p.length < q.length := by
  have hle := h.length_le
  rw [length_append] at hle
  exact hle

theorem follow_eq_of_nodes (h : ∀ f i, Node child n r f → child' f i = child f i)
    (hq : q.length ≤ n) : follow child' r q = follow child r q := by
  apply follow_congr
  intro p i f hp hf
  have hlen := length_lt_of_snoc_prefix hp
  exact h f i ⟨p, by omega, hf⟩

/-- `child'` differs from `child` in the entry `i` of the node at `p` only, as far as
the nodes of `child` go. -/
structure Changed (child child' : F → I → Option F) (n : Nat) (r : F) (p : List I) (f : F) (i : I) :
    Prop where
  tree : Tree child n r
  depth : p.length < n
  path : follow child r p = some f
  keep : ∀ g j, Node child n r g → ¬ (g = f ∧ j = i) → child' g j = child g j

theorem Changed.follow_of_not_prefix (h : Changed child child' n r p f i) (hq : q.length ≤ n)
    (hnot : ¬ p ++ [i] <+: q) : follow child' r q = follow child r q := by
  apply follow_congr
  intro p' j g hp' hg
  have hlen := length_lt_of_snoc_prefix hp'
  apply h.keep g j ⟨p', by omega, hg⟩
  rintro ⟨rfl, rfl⟩
  -- the changed node has one path only
  have hsame : p' = p := h.tree p' p g (by omega) h.depth hg h.path
  exact hnot (hsame ▸ hp')

theorem not_snoc_below (p : List I) (i : I) : ¬ p ++ [i] <+: p := by
  intro h
  have hlen := length_lt_of_snoc_prefix h
  omega

theorem Changed.follow_at (h : Changed child child' n r p f i) (q : List I) :
    follow child' r (p ++ i :: q) = (child' f i).bind fun g => follow child' g q := by
  have hpath : follow child' r p = some f :=
    (h.follow_of_not_prefix h.depth.le (not_snoc_below p i)).trans h.path
  rw [follow_append, hpath]
  rfl

/-- A new leaf: the entry was empty, its new node is not one of the tree and has no children. -/
structure Grafted (child child' : F → I → Option F) (n : Nat) (r : F) (p : List I) (f : F) (i : I)
    (c : F) : Prop extends Changed child child' n r p f i where
  empty : child f i = none
  entry : child' f i = some c
  fresh : ¬ Node child n r c
  bare : ∀ j, child' c j = none

theorem Grafted.follow [DecidableEq I] (h : Grafted child child' n r p f i c) (hq : q.length ≤ n) :
    follow child' r q = if q = p ++ [i] then some c else Trie.follow child r q := by
  by_cases hpre : p ++ [i] <+: q
  · obtain ⟨rest, rfl⟩ := hpre
    have hold : Trie.follow child r (p ++ [i] ++ rest) = none := by
      rw [follow_append, follow_snoc, h.path, bind_some, h.empty]
      rfl
    have hnew : Trie.follow child' r (p ++ [i] ++ rest) = Trie.follow child' c rest := by
      rw [append_assoc, singleton_append, h.follow_at, h.entry]
      rfl
    rw [hnew, hold]
    cases rest with
    | nil => simp [Trie.follow]
    | cons j rest => simp [Trie.follow, h.bare]
  · rw [h.follow_of_not_prefix hq hpre, if_neg]
    rintro rfl
    exact hpre (prefix_refl _)

theorem Grafted.tree' (h : Grafted child child' n r p f i c) : Tree child' n r := by
  classical
  intro p₁ p₂ g h₁ h₂ hf₁ hf₂
  rw [h.follow h₁.le] at hf₁
  rw [h.follow h₂.le] at hf₂
  split_ifs at hf₁ hf₂ with hat₁ hat₂ hat₂
  · rw [hat₁, hat₂]
  · cases hf₁
    exact absurd ⟨p₂, h₂, hf₂⟩ h.fresh
  · cases hf₂
    exact absurd ⟨p₁, h₁, hf₁⟩ h.fresh
  · exact h.tree p₁ p₂ g h₁ h₂ hf₁ hf₂

theorem Changed.follow_leaf [DecidableEq I] (h : Changed child child' n r p f i)
    (hp : p.length + 1 = n) (hq : q.length ≤ n) :
    follow child' r q = if q = p ++ [i] then child' f i else follow child r q := by
  by_cases hpre : p ++ [i] <+: q
  · have hsame : p ++ [i] = q := by
      apply hpre.eq_of_length_le
      rw [length_append, length_singleton, hp]
      exact hq
    subst hsame
    rw [if_pos rfl, h.follow_at]
    cases child' f i <;> rfl
  · rw [h.follow_of_not_prefix hq hpre, if_neg]
    rintro rfl
    exact hpre (prefix_refl _)

theorem Changed.tree_leaf (h : Changed child child' n r p f i) (hp : p.length + 1 = n) :
    Tree child' n r := by
  intro p₁ p₂ g h₁ h₂ hf₁ hf₂
  have hshort : ∀ p', p'.length < n → follow child' r p' = follow child r p' := by
    intro p' hp'
    apply h.follow_of_not_prefix hp'.le
    intro hpre
    have hlen := length_lt_of_snoc_prefix hpre
    omega
  rw [hshort p₁ h₁] at hf₁
  rw [hshort p₂ h₂] at hf₂
  exact h.tree p₁ p₂ g h₁ h₂ hf₁ hf₂

/-!
## Pruned walks of a trie

A depth-first walk visits the children of a node in the order of their indices and
the node after them. It does not look below a node that is closed. `trail` lists the
visited nodes with their paths.
-/

variable (child : F → Nat → Option F) (width : Nat) (isOpen : Nat → F → Bool)

/-- The visited nodes below `f`, with `k` levels below it; a child has an index below `width`. -/
def trail : Nat → F → List (List Nat × F)
  | 0, f => [([], f)]
  | k + 1, f =>
    (if isOpen k f then (range width).flatMap fun i =>
      (child f i).elim [] fun g => (trail k g).map fun x => (i :: x.1, x.2)
    else []) ++ [([], f)]

def Passes : Nat → F → List Nat → Prop
  | _, _, [] => True
  | 0, _, _ :: _ => False
  | k + 1, f, i :: q => isOpen k f = true ∧ ∃ g, child f i = some g ∧ Passes k g q

variable {child width isOpen} {f g h : F} {i k : Nat} {q : List Nat}

theorem Passes.length_le (hq : Passes child isOpen k f q) : q.length ≤ k := by
  induction k generalizing f q with
  | zero =>
    cases q with
    | nil => exact le_rfl
    | cons i q => exact hq.elim
  | succ k ih =>
    cases q with
    | nil => exact Nat.zero_le _
    | cons i q =>
      obtain ⟨-, g, -, hg⟩ := hq
      exact Nat.succ_le_succ (ih hg)

theorem Passes.isOpen_last {n : Nat} (h : Passes child isOpen k f (q ++ [i]))
    (hk : q.length + 1 + n = k) (hg : follow child f q = some g) : isOpen n g = true := by
  induction q generalizing k f with
  | nil =>
    obtain rfl : n + 1 = k := by rw [← hk, length_nil, zero_add, add_comm]
    cases hg
    exact h.1
  | cons j q ih =>
    obtain rfl : q.length + 1 + n + 1 = k := by rw [← hk, length_cons]; omega
    obtain ⟨-, f', hf', hpass⟩ := h
    rw [follow, hf', bind_some] at hg
    exact ih hpass rfl hg

theorem mem_children {x : List Nat × F} {l : Nat → F → List (List Nat × F)} :
    x ∈ ((range width).flatMap fun i => (child f i).elim [] fun g =>
      (l i g).map fun y => (i :: y.1, y.2)) ↔
    ∃ i q g, i < width ∧ x.1 = i :: q ∧ child f i = some g ∧ (q, x.2) ∈ l i g := by
  constructor
  · intro hx
    obtain ⟨i, hi, hx⟩ := mem_flatMap.mp hx
    cases hg : child f i with
    | none =>
      rw [hg] at hx
      cases hx
    | some g =>
      rw [hg] at hx
      obtain ⟨y, hy, rfl⟩ := mem_map.mp hx
      exact ⟨i, y.1, g, mem_range.mp hi, rfl, hg, hy⟩
  · rintro ⟨i, q, g, hi, hq, hg, hmem⟩
    refine mem_flatMap.mpr ⟨i, mem_range.mpr hi, ?_⟩
    rw [hg]
    exact mem_map.mpr ⟨(q, x.2), hmem, Prod.ext hq.symm rfl⟩

theorem mem_trail (hwidth : ∀ f i g, child f i = some g → i < width) :
    (q, h) ∈ trail child width isOpen k f ↔ follow child f q = some h ∧ Passes child isOpen k f q := by
  induction k generalizing f q with
  | zero =>
    cases q with
    | nil => simp [trail, follow, Passes, eq_comm]
    | cons i q => simp [trail, Passes]
  | succ k ih =>
    rw [trail, mem_append]
    cases q with
    | nil =>
      have hnot : ([], h) ∉ (if isOpen k f then (range width).flatMap fun i =>
          (child f i).elim [] fun g => (trail child width isOpen k g).map fun x => (i :: x.1, x.2)
          else []) := by
        split_ifs with hopen
        · intro hmem
          obtain ⟨i, q, g, -, hcons, -⟩ := mem_children.mp hmem
          cases hcons
        · exact not_mem_nil
      simp only [hnot, false_or, mem_singleton, Prod.mk.injEq, true_and, follow, some.injEq,
        Passes, and_true]
      exact eq_comm
    | cons i q =>
      have hlast : (i :: q, h) ∉ [(([] : List Nat), f)] := by simp
      simp only [hlast, or_false]
      split_ifs with hopen
      · rw [mem_children, follow]
        constructor
        · rintro ⟨j, q', g, hj, hcons, hg, hmem⟩
          obtain ⟨rfl, rfl⟩ := cons.inj hcons
          obtain ⟨hfollow, hpass⟩ := ih.mp hmem
          rw [hg, bind_some]
          exact ⟨hfollow, hopen, g, hg, hpass⟩
        · rintro ⟨hfollow, -, g, hg, hpass⟩
          rw [hg, bind_some] at hfollow
          exact ⟨i, q, g, hwidth f i g hg, rfl, hg, ih.mpr ⟨hfollow, hpass⟩⟩
      · simp [Passes, hopen]

theorem nodup_trail : ((trail child width isOpen k f).map Prod.fst).Nodup := by
  induction k generalizing f with
  | zero => simp [trail]
  | succ k ih =>
    rw [trail, map_append, nodup_append]
    refine ⟨?_, by simp, ?_⟩
    · split_ifs with hopen
      · rw [map_flatMap, nodup_flatMap]
        constructor
        · intro i _
          cases hg : child f i with
          | none => simp
          | some g =>
            have hmap : ((trail child width isOpen k g).map fun x => (i :: x.1, x.2)).map Prod.fst =
                ((trail child width isOpen k g).map Prod.fst).map (i :: ·) := by
              rw [List.map_map, List.map_map]
              rfl
            change (((trail child width isOpen k g).map fun x => (i :: x.1, x.2)).map Prod.fst).Nodup
            rw [hmap]
            exact ih.map fun _ _ heq => (cons.inj heq).2
        · apply (nodup_range (n := width)).imp
          intro i j hne q hq hq'
          have hhead : ∀ i, q ∈ map Prod.fst ((child f i).elim [] fun g =>
              (trail child width isOpen k g).map fun x => (i :: x.1, x.2)) → ∃ q', q = i :: q' := by
            intro i hq
            obtain ⟨x, hx, rfl⟩ := mem_map.mp hq
            cases hg : child f i with
            | none =>
              rw [hg] at hx
              cases hx
            | some g =>
              rw [hg] at hx
              obtain ⟨y, -, rfl⟩ := mem_map.mp hx
              exact ⟨y.1, rfl⟩
          obtain ⟨q₁, rfl⟩ := hhead i hq
          obtain ⟨q₂, hcons⟩ := hhead j hq'
          exact hne (cons.inj hcons).1
      · simp
    · intro q hq q' hq'
      obtain rfl : q' = [] := by simpa using hq'
      rintro rfl
      split_ifs at hq with hopen
      · obtain ⟨x, hx, hnil⟩ := mem_map.mp hq
        obtain ⟨i, q, g, -, hcons, -⟩ := mem_children.mp hx
        rw [hnil] at hcons
        cases hcons
      · simp at hq

theorem nodup_visited (hwidth : ∀ f i g, child f i = some g → i < width) :
    ((trail child width isOpen k f).map Prod.snd).Nodup ↔
      ∀ q q' h, follow child f q = some h → Passes child isOpen k f q → follow child f q' = some h →
        Passes child isOpen k f q' → q = q' := by
  have hnodup : (trail child width isOpen k f).Nodup := nodup_trail.of_map _
  rw [nodup_map_iff_inj_on hnodup]
  constructor
  · intro hinj q q' h hq hpass hq' hpass'
    exact congrArg Prod.fst (hinj _ ((mem_trail hwidth).mpr ⟨hq, hpass⟩) _
      ((mem_trail hwidth).mpr ⟨hq', hpass'⟩) rfl)
  · rintro hone ⟨q, h⟩ hx ⟨q', h'⟩ hy heq
    obtain rfl : h = h' := heq
    obtain ⟨hq, hpass⟩ := (mem_trail hwidth).mp hx
    obtain ⟨hq', hpass'⟩ := (mem_trail hwidth).mp hy
    rw [hone q q' h hq hpass hq' hpass']

end Comus.Trie
