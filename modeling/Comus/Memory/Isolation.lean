import Comus.Memory.Freeing
import Comus.Memory.Spaces

/-!
# Directories side by side

`map_pages` and `unmap_pages` are called for the directories of several contexts, in any order.
-/

namespace Comus.Paging

open Trie Option

variable {P : Type} {K : KernelImage} {A : PageAlloc P} {free : P → Nat → Prop} {s s₀ s' : Machine P}
  {rs : List Nat} {root v p flags total n b : Nat} {c : Call} {op : Nat × Call}

theorem mapPagesLoop_result (h : mapPagesLoop K A root flags total n v p s = some (b, s')) : b = 0 ∨ b = 1 := by
  induction n generalizing v p s with
  | zero =>
    cases h
    exact .inl rfl
  | succ n ih =>
    obtain ⟨⟨x, s₁⟩, -, h⟩ := bind_eq_some_iff.mp h
    cases x with
    | true => exact ih h
    | false =>
      obtain ⟨y, -, h⟩ := bind_eq_some_iff.mp h
      cases h
      exact .inr rfl

/-- The directories share no table, and the table of the window is in none. -/
structure Apart (K : KernelImage) (free : P → Nat → Prop) (rs : List Nat) (s : Machine P) : Prop where
  forest : Forest free s rs
  usable : ∀ r ∈ rs, Usable K free r s

/-- A call for one of the directories. -/
def Listed (K : KernelImage) (A : PageAlloc P) (rs : List Nat) (s : Machine P) (op : Nat × Call) : Prop :=
  op.1 / PAGE_SIZE ∈ rs ∧ op.2.inRange K A op.1 s

section Call

variable (hA : Pool K A free) (hnull : IgnoresNull A)
include hA hnull

theorem Usable.evolves (h : Usable K free (root / PAGE_SIZE) s) (hc : c.inRange K A root s)
    (hrun : c.run K A root s = some s') :
    ∃ t σ, s' = t.withSlots K σ ∧ Evolves K free s t (root / PAGE_SIZE) := by
  have hoff := h.sound.offWindow
  cases c with
  | map v p flags n =>
    obtain ⟨⟨b, s₁⟩, hmap, rfl⟩ := map_eq_some_iff.mp hrun
    obtain rfl | rfl := mapPagesLoop_result hmap
    · obtain ⟨t, σ, hs, -, -, hmapped⟩ := mapPages_range hA h.sound.dir h.ready hc.1 (fun _ _ => hoff _) hmap
      exact ⟨t, σ, hs, hmapped.toEvolves⟩
    · have hend := hc.2 _ _ hmap one_ne_zero
      rw [PAGE_SIZE] at hend
      obtain ⟨k, s₂, s₃, hk, hloop, halloc, hundo⟩ :=
        mapPagesLoop_fails (by rw [Int.toNat_natCast, PAGE_SIZE]; omega) hmap
      rw [Int.toNat_natCast] at hk hloop hundo
      obtain ⟨t, σ, hs, -, hleft⟩ := unmapPages_abandons hA h.sound.dir h.ready (fun _ _ _ => hoff _) hk
        (by rw [PAGE_SIZE]; omega) hloop halloc hnull hundo
      exact ⟨t, σ, hs, hleft.toEvolves⟩
  | unmap v n deallocate =>
    obtain ⟨⟨_, s₁⟩, hunmap, rfl⟩ := map_eq_some_iff.mp hrun
    obtain ⟨t, hruns, hgone⟩ := unmapPages_runs (Γ := []) deallocate hnull h.sound.dir hc fun _ _ => hoff _
    obtain ⟨σ, heq, -⟩ := hruns _ h.ready (by simp)
    rw [Machine.withSlots_self, hunmap] at heq
    cases heq
    exact ⟨t, σ, rfl, hgone.evolves⟩

theorem Apart.call (h : Apart K free rs s) (hop : Listed K A rs s op) (hrun : op.2.run K A op.1 s = some s') :
    Apart K free rs s' ∧ ∀ r ∈ rs, r ≠ op.1 / PAGE_SIZE → ∀ q, q.length ≤ 4 →
      follow (child s'.mem) r q = follow (child s.mem) r q := by
  obtain ⟨hroot, hc⟩ := hop
  have hown := (h.usable _ hroot).run hA hnull hc hrun
  obtain ⟨t, σ, rfl, he⟩ := (h.usable _ hroot).evolves hA hnull hc hrun
  have hback : Sound K free t (op.1 / PAGE_SIZE) := by
    simpa [Machine.withSlots] using hown.sound.withSlots (t.mem K.pagingPt)
  have hforest := h.forest.evolves hroot he hback.dir
  have hsound : ∀ r ∈ rs, Sound K free t r := by
    intro r hr
    by_cases hne : r = op.1 / PAGE_SIZE
    · exact hne ▸ hback
    · exact ⟨hforest.dir r hr, fun f hf => (h.usable r hr).sound.off f (h.forest.node_other hroot hr hne he hf)⟩
  refine ⟨⟨⟨fun r hr => ((hsound r hr).withSlots σ).dir, ?_⟩, fun r hr => ⟨(hsound r hr).withSlots σ, hown.ready⟩⟩, ?_⟩
  · rintro r hr r' hr' hne f ⟨q, hq, hf⟩ ⟨q', hq', hf'⟩
    rw [(hsound r hr).follow_slots σ hq.le] at hf
    rw [(hsound r' hr').follow_slots σ hq'.le] at hf'
    exact hforest.apart r hr r' hr' hne f ⟨q, hq, hf⟩ ⟨q', hq', hf'⟩
  · intro r hr hne q hq
    rw [(hsound r hr).follow_slots σ hq, h.forest.follow_other hroot hr hne he hq]

/-- In every state that calls for the directories reach, in any order, the next one changes no other directory. -/
theorem directories_isolated (h : Apart K free rs s₀)
    (hreach : Run.Reach (fun s op => op.2.run K A op.1 s) (Listed K A rs) s₀ s) (hop : Listed K A rs s op)
    (hrun : op.2.run K A op.1 s = some s') : Apart K free rs s' ∧ ∀ r ∈ rs, r ≠ op.1 / PAGE_SIZE →
      ∀ u, translate s'.mem (r * PAGE_SIZE) u = translate s.mem (r * PAGE_SIZE) u := by
  have hs : Apart K free rs s := hreach.invariant h fun _ _ _ hs hop hrun => (hs.call hA hnull hop hrun).1
  obtain ⟨hs', hother⟩ := hs.call hA hnull hop hrun
  refine ⟨hs', fun r hr hne u => ?_⟩
  rw [translate, translate, frame_div]
  exact hother r hr hne _ (pathOf_length u).le

end Call

/-- A page of the second directory. -/
theorem directories_isolated_page : ∃ s', Call.run smallImage countingPages 0x3000 (smallMachine fun _ _ => 0)
    (.map 0x400000 0x5000 3 1) = some s' ∧ ∀ u, translate s'.mem (2 * PAGE_SIZE) u =
      translate (fun _ _ => 0) (2 * PAGE_SIZE) u := by
  have hrun : (Call.run smallImage countingPages 0x3000 (smallMachine fun _ _ => 0)
      (.map 0x400000 0x5000 3 1)).isSome := by decide +kernel
  obtain ⟨s', hrun⟩ := isSome_iff_exists.mp hrun
  have hsmall : ∀ r ∈ [2, 3], r ≠ 1 ∧ r ≠ 0 ∧ r < 2^40 ∧ ¬ countingFree 10 r := by simp [countingFree]
  have hforest : Forest countingFree (smallMachine fun _ _ => 0) [2, 3] := zero_forest rfl fun r hr => (hsmall r hr).2
  have hop : Listed smallImage countingPages [2, 3] (smallMachine fun _ _ => 0) (0x3000, .map 0x400000 0x5000 3 1) :=
    ⟨by decide, by decide, fun _ _ _ _ => by decide⟩
  refine ⟨s', hrun, (directories_isolated countingPages_pool countingPages_ignoresNull
    ⟨hforest, fun r hr => ⟨⟨hforest.dir r hr, ?_⟩, zero_ready⟩⟩ .start hop hrun).2 2 (by decide) (by decide)⟩
  rintro f ⟨q, -, hf⟩
  exact (follow_cleared (child_zero r) hf).2 ▸ (hsmall r hr).1

end Comus.Paging
