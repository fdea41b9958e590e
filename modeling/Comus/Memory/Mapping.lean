import Comus.Memory.PageTables

/-!
# Mapping a range of pages (map_pages, mem_get_phys)

One round of `map_pages` adds tables and sets one entry of a page table. From the
effect of a round on the translations the effect of the whole call follows by
induction on the number of pages.
-/

namespace Comus.Paging

open Word BitField Trie Option List

variable {P : Type} {K : KernelImage} {A : PageAlloc P} {free : P → Nat → Prop}
variable {s t t' : Machine P} {m m' : Mem} {Γ : List (Nat × Nat)} {σ : Nat → Nat}
variable {root v u p f i r flags n : Nat}
variable {q : List Nat} {total : Nat} {s' : Machine P}

def memGetPhys (K : KernelImage) (pml4 vADDR : Nat) : KernelM P Nat := do
  match ← pageLocate K pml4 vADDR with
  | none => pure 0
  | some offset =>
    let e ← load K PT_MAP offset
    pure (u64 (addressOf e + vADDR % PAGE_SIZE))

/-- The flags of the entry for a page in the directory with its first table in frame
`r`, zero if the page has no page table. -/
def entryFlags (m : Mem) (r v : Nat) : Nat :=
  match follow (child m) r (tablePath v) with
  | some f => field (m f (pageIndex v)) 0 pageFlags
  | none => 0

def Machine.clearPage (s : Machine P) (f i : Nat) : Machine P :=
  let s := s.write f i 0
  s.write f 0 (ptCount.set (s.mem f 0) (ptCount.get (s.mem f 0) + 1))

def Machine.setPage (s : Machine P) (f i p flags : Nat) : Machine P :=
  let s := s.clearPage f i
  s.write f i (setFlags pageFlags (setAddress (s.mem f i) p) (F_PRESENT ||| flags))

structure LeafSet (m m' : Mem) (f i : Nat) : Prop where
  same : ∀ j, j ≠ i → child m' f j = child m f j ∧
    field (m' f j) 0 pageFlags = field (m f j) 0 pageFlags
  other : ∀ g, g ≠ f → m' g = m g

/-- The entry maps the page at address `p`, of which it keeps 40 bits. -/
structure Entered (m m' : Mem) (f i p flags : Nat) : Prop extends LeafSet m m' f i where
  entry : child m' f i = some (p / PAGE_SIZE % 2^40)
  flags : field (m' f i) 0 pageFlags = (F_PRESENT ||| flags) % 2^9

theorem field_ptCount (e count : Nat) : field (ptCount.set e count) 0 pageFlags = field e 0 pageFlags := by
  rw [ptCount, field_setField_below (by decide), field_setField_below (by decide)]

theorem ptCount_set (e count : Nat) : ptCount.get (ptCount.set e count) = count % 2^9 := by
  have hhigh : field (setField (setField e 10 2 count) 52 7 (count / 4)) 52 7 = count / 4 % 2^7 :=
    field_setField _ _ _ _
  have hlow : field (setField (setField e 10 2 count) 52 7 (count / 4)) 10 2 = count % 2^2 := by
    rw [field_setField_below (by decide), field_setField]
  change field (setField (setField e 10 2 count) 52 7 (count / 4)) 52 7 * 4 +
    field (setField (setField e 10 2 count) 52 7 (count / 4)) 10 2 = _
  rw [hhigh, hlow]
  omega

theorem ptCount_filled (e p flags : Nat) :
    ptCount.get (setFlags pageFlags (setAddress e p) flags) = ptCount.get e := by
  have hkeep : ∀ lo len, 9 ≤ lo → lo + len ≤ 12 ∨ 52 ≤ lo →
      field (setFlags pageFlags (setAddress e p) flags) lo len = field e lo len := by
    intro lo len hlo hout
    rw [setFlags, field_setField_above (by rw [pageFlags]; omega), setAddress]
    rcases hout with hout | hout
    · exact field_setField_below hout
    · exact field_setField_above hout
  change field _ 52 7 * 4 + field _ 10 2 = field e 52 7 * 4 + field e 10 2
  rw [hkeep 52 7 (by omega) (by omega), hkeep 10 2 (by omega) (by omega)]

theorem setPage_entered (hi : i < 512) : Entered t.mem (t.setPage f i p flags).mem f i p flags := by
  have hodd : (F_PRESENT ||| flags) % 2 = 1 := odd_or rfl flags
  -- the counter shares its word with entry 0
  have hat : ∃ e, (t.setPage f i p flags).mem f i =
      setFlags pageFlags (setAddress e p) (F_PRESENT ||| flags) := by
    refine ⟨(t.clearPage f i).mem f i, ?_⟩
    simp [Machine.setPage]
  have hword : ∀ j, j ≠ i → (t.setPage f i p flags).mem f j =
      if j = 0 then ptCount.set (t.mem f 0) (ptCount.get (t.mem f 0) + 1) else t.mem f j := by
    intro j hj
    by_cases hzero : j = 0
    · subst hzero
      simp [Machine.setPage, Machine.clearPage, hj]
    · simp [Machine.setPage, Machine.clearPage, hj, hzero]
  obtain ⟨e, he⟩ := hat
  refine ⟨⟨?_, ?_⟩, ?_, ?_⟩
  · intro j hj
    constructor
    · apply child_congr
      · rw [hword j hj]
        split_ifs with hzero
        · rw [present_ptCount, hzero]
        · rfl
      · rw [hword j hj]
        split_ifs with hzero
        · rw [frameOf_ptCount, hzero]
        · rfl
    · rw [hword j hj]
      split_ifs with hzero
      · rw [field_ptCount, hzero]
      · rfl
  · intro g hg
    funext j
    simp [Machine.setPage, Machine.clearPage, hg]
  · rw [child_eq hi, he, present_setFlags_page, decide_eq_true hodd, if_pos rfl,
      frameOf_setFlags_page, frameOf_setAddress]
  · rw [he, setFlags, pageFlags, field_setField]

/-- Mapping entry 0 starts the counter anew: it is cleared with the entry. -/
theorem setPage_count : ptCount.get ((t.setPage f i p flags).mem f 0) =
    if i = 0 then 1 else (ptCount.get (t.mem f 0) + 1) % 2^9 := by
  split_ifs with hi
  · subst hi
    have hzero : ptCount.get 0 = 0 := by decide
    have hword : (t.setPage f 0 p flags).mem f 0 =
        setFlags pageFlags (setAddress (ptCount.set 0 1) p) (F_PRESENT ||| flags) := by
      simp [Machine.setPage, Machine.clearPage, hzero]
    rw [hword, ptCount_filled, ptCount_set]
    rfl
  · have hword : (t.setPage f i p flags).mem f 0 =
        ptCount.set (t.mem f 0) (ptCount.get (t.mem f 0) + 1) := by
      simp [Machine.setPage, Machine.clearPage, Ne.symm hi]
    rw [hword, ptCount_set]

structure PageMapped (K : KernelImage) (A : PageAlloc P) (free : P → Nat → Prop) (t t' : Machine P)
    (r v p flags : Nat) : Prop extends Evolves K free t t' r where
  dir : Directory (free t'.phys) t'.mem r
  page : ∀ q, q.length = 4 → follow (child t'.mem) r q =
    if q = pathOf v then some (p / PAGE_SIZE % 2^40) else follow (child t.mem) r q
  flags : ∀ u, entryFlags t'.mem r u =
    if pathOf u = pathOf v then (F_PRESENT ||| flags) % 2^9 else entryFlags t.mem r u
  table : ∃ f, follow (child t'.mem) r (tablePath v) = some f ∧
    (pageIndex v = 0 → ptCount.get (t'.mem f 0) = 1) ∧
    ∀ g, follow (child t.mem) r (tablePath v) = some g → g = f ∧
      (pageIndex v ≠ 0 → ptCount.get (t'.mem f 0) = (ptCount.get (t.mem f 0) + 1) % 2^9)
  spent : ∀ supply, Supply A supply → supply t.phys ≤ supply t'.phys + 3

theorem Grow.entryFlags {free free' : Nat → Prop} (h : Grow free free' m m' r 3) (u : Nat) :
    entryFlags m' r u = entryFlags m r u := by
  have hlen : (tablePath u).length = 3 := rfl
  unfold Paging.entryFlags
  cases hold : follow (child m) r (tablePath u) with
  | some f =>
    rw [h.old _ f (by omega) hold]
    dsimp only
    rw [h.keep _ f (by omega) (by omega) hold]
  | none =>
    cases hnew : follow (child m') r (tablePath u) with
    | none => rfl
    | some f =>
      dsimp only
      rcases h.new _ f (by omega) hnew with hsome | ⟨-, hzero⟩
      · rw [hold] at hsome
        cases hsome
      · rw [hzero (by omega), field_zero]

section Leaf

variable {free : Nat → Prop} (hd : Directory free m r)
  (hf : follow (child m) r (tablePath v) = some f) (h : LeafSet m m' f (pageIndex v))
include hd hf h

theorem LeafSet.changed : Changed (child m) (child m') 4 r (tablePath v) f (pageIndex v) := by
  refine ⟨hd.tree, by simp [tablePath], hf, ?_⟩
  intro g j _ hne
  by_cases hg : g = f
  · subst hg
    exact (h.same j fun hj => hne ⟨rfl, hj⟩).1
  · unfold child
    rw [h.other g hg]

theorem LeafSet.follow_table (hq : q.length < 4) :
    follow (child m') r q = follow (child m) r q := by
  rw [(h.changed hd hf).follow_leaf rfl hq.le, if_neg]
  rintro rfl
  simp [tablePath] at hq

theorem LeafSet.follow_page (hq : q.length = 4) : follow (child m') r q =
    if q = pathOf v then child m' f (pageIndex v) else follow (child m) r q := by
  rw [(h.changed hd hf).follow_leaf rfl hq.le, pathOf_eq]

theorem LeafSet.directory : Directory free m' r := by
  refine ⟨(h.changed hd hf).tree_leaf rfl, hd.root, ?_⟩
  rintro g ⟨q, hq, hg⟩
  rw [h.follow_table hd hf hq] at hg
  exact hd.table g ⟨q, hq, hg⟩

theorem LeafSet.entryFlags (u : Nat) : entryFlags m' r u =
    if pathOf u = pathOf v then field (m' f (pageIndex v)) 0 pageFlags else entryFlags m r u := by
  have htable : follow (child m') r (tablePath u) = follow (child m) r (tablePath u) :=
    h.follow_table hd hf (by simp [tablePath])
  unfold Paging.entryFlags
  rw [htable]
  split_ifs with hsame
  · rw [pathOf_eq, pathOf_eq] at hsame
    obtain ⟨hpath, hindex⟩ := append_inj hsame rfl
    obtain hindex : pageIndex u = pageIndex v := by simpa using hindex
    rw [hpath, hf]
    dsimp only
    rw [hindex]
  · cases hg : follow (child m) r (tablePath u) with
    | none => rfl
    | some g =>
      dsimp only
      by_cases hgf : g = f
      · subst hgf
        -- a page table has one path: the other page differs in its index
        have hpath : tablePath u = tablePath v :=
          hd.tree _ _ g (by simp [tablePath]) (by simp [tablePath]) hg hf
        have hindex : pageIndex u ≠ pageIndex v := by
          intro hindex
          exact hsame (by rw [pathOf_eq, pathOf_eq, hpath, hindex])
        exact (h.same _ hindex).2
      · rw [h.other g hgf]

end Leaf

section MapPage

variable (hA : Pool K A free) (hv : v < 2^48)
  (hd : Directory (free t.phys) t.mem (root / PAGE_SIZE))
  (hw : OffWindow K t.mem (root / PAGE_SIZE) v)
include hA hv hd hw

theorem pageAlloc_runs (flags : Nat) :
    (∃ t', Runs K [0, 1, 2, 3] Γ (pageAlloc K A root v flags) t none t' [] ∧
      Grown free t t' (root / PAGE_SIZE) 3 ∧ t'.mem K.pagingPt = t.mem K.pagingPt ∧
      ∀ supply, Supply A supply → supply t.phys < 3) ∨
    ∃ f t', Grown free t t' (root / PAGE_SIZE) 3 ∧ t'.mem K.pagingPt = t.mem K.pagingPt ∧
      (∀ supply, Supply A supply → supply t.phys ≤ supply t'.phys + 3) ∧
      follow (child t'.mem) (root / PAGE_SIZE) (tablePath v) = some f ∧
      Runs K [0, 1, 2, 3] Γ (pageAlloc K A root v flags) t (some (pageIndex v))
        (t'.clearPage f (pageIndex v)) [(3, f)] := by
  have hidx : v / 2^39 % 512 = v / 2^39 := Nat.mod_eq_of_lt (by omega)
  obtain ⟨a₁, t₁, hrun₁, hgrown₁, -, hslots₁, hsome₁, hsup₁⟩ := tableAlloc_grows (Γ := Γ) (q := [])
    flags hA (show PML4_MAP < 10 by decide) (show PDPT_MAP < 10 by decide) (by decide)
    (show v / 2^39 < 512 by omega) hd (by simp) rfl (hw 0 _ (by decide) rfl)
  by_cases ha₁ : a₁ = 0
  · refine .inl ⟨t₁, ?_, hgrown₁.trans ⟨hgrown₁.grow.dir.refl fun _ h => h, rfl, rfl⟩ (by simp), hslots₁,
      ?_⟩
    · exact hrun₁.stop (by decide) ha₁
    · intro supply hsup
      have h₁ := (hsup₁ supply hsup).2 ha₁
      omega
  have hf₁ := hsome₁ ha₁
  have hw₁ := hgrown₁.grow.offWindow hA hw
  obtain ⟨a₂, t₂, hrun₂, hgrown₂, -, hslots₂, hsome₂, hsup₂⟩ := tableAlloc_grows (Γ := [])
    flags hA (show PDPT_MAP < 10 by decide) (show PD_MAP < 10 by decide) (by decide)
    (show v / 2^30 % 512 < 512 by omega) hgrown₁.grow.dir (by simp) hf₁
    (hw₁ 1 _ (by decide) (by rw [pathOf, hidx]; exact hf₁))
  have hgrown := hgrown₁.trans hgrown₂ (by simp)
  by_cases ha₂ : a₂ = 0
  · refine .inl ⟨t₂, ?_, hgrown.trans ⟨hgrown.grow.dir.refl fun _ h => h, rfl, rfl⟩ (by simp),
      hslots₂.trans hslots₁, ?_⟩
    · exact hrun₁.onward (by decide) ha₁ (hrun₂.stop (by decide) ha₂)
    · intro supply hsup
      have h₁ := (hsup₁ supply hsup).1
      have h₂ := (hsup₂ supply hsup).2 ha₂
      omega
  have hf₂ := hsome₂ ha₂
  have hw₂ := hgrown₂.grow.offWindow hA hw₁
  obtain ⟨a₃, t₃, hrun₃, hgrown₃, -, hslots₃, hsome₃, hsup₃⟩ := tableAlloc_grows (Γ := [])
    flags hA (show PD_MAP < 10 by decide) (show PT_MAP < 10 by decide) (by decide)
    (show v / 2^21 % 512 < 512 by omega) hgrown₂.grow.dir (by simp) hf₂
    (hw₂ 2 _ (by decide) (by rw [pathOf, hidx]; exact hf₂))
  have hgrown := hgrown.trans hgrown₃ (by simp)
  by_cases ha₃ : a₃ = 0
  · refine .inl ⟨t₃, ?_, hgrown, hslots₃.trans (hslots₂.trans hslots₁), ?_⟩
    · exact hrun₁.onward (by decide) ha₁ (hrun₂.onward (by decide) ha₂ (hrun₃.stop (by decide) ha₃))
    · intro supply hsup
      have h₁ := (hsup₁ supply hsup).1
      have h₂ := (hsup₂ supply hsup).1
      have h₃ := (hsup₃ supply hsup).2 ha₃
      omega
  have hf₃ : follow (child t₃.mem) (root / PAGE_SIZE) (tablePath v) = some (a₃ / PAGE_SIZE) := by
    rw [tablePath, hidx]
    exact hsome₃ ha₃
  have hne₃ := hgrown₃.grow.offWindow hA hw₂ 3 _ (by decide) hf₃
  have hm₃ : Mappable K a₃ :=
    hgrown₃.grow.dir.mappable ⟨tablePath v, by simp [tablePath], hf₃⟩ hne₃
  have hshows : Shows K [(3, a₃ / PAGE_SIZE)] 3 (a₃ / PAGE_SIZE) := ⟨by decide, by simp, hne₃⟩
  refine .inr ⟨_, t₃, hgrown, hslots₃.trans (hslots₂.trans hslots₁), ?_, hf₃, ?_⟩
  · intro supply hsup
    have h₁ := (hsup₁ supply hsup).1
    have h₂ := (hsup₂ supply hsup).1
    have h₃ := (hsup₃ supply hsup).1
    omega
  · refine hrun₁.onward (by decide) ha₁ (hrun₂.onward (by decide) ha₂ (hrun₃.onward (by decide) ha₃ ?_))
    refine (Runs.mapAddr (by decide) hm₃).bind [(3, a₃ / PAGE_SIZE)] ?_ (by decide) (by simp [PT_MAP])
    refine (Runs.store hshows (pageIndex_lt v)).seq ?_
    refine (Runs.load hshows (by decide)).seq ((Runs.store hshows (by decide)).seq ?_)
    exact Runs.pure _

theorem mapPage_runs (p flags : Nat) :
    (∃ t', Runs K [0, 1, 2, 3] Γ (mapPage K A root v p flags) t false t' [] ∧
      Grown free t t' (root / PAGE_SIZE) 3 ∧ t'.mem K.pagingPt = t.mem K.pagingPt ∧
      ∀ supply, Supply A supply → supply t.phys < 3) ∨
    ∃ t', Runs K [0, 1, 2, 3] Γ (mapPage K A root v p flags) t true t' [] ∧
      PageMapped K A free t t' (root / PAGE_SIZE) v p flags := by
  rcases pageAlloc_runs (Γ := Γ) hA hv hd hw flags with
    ⟨t', hrun, hgrown, hslots, hsup⟩ | ⟨f, t₃, hgrown, hslots, hsup, hf, hrun⟩
  · refine .inl ⟨t', ?_, hgrown, hslots, hsup⟩
    exact hrun.bind [] (Runs.ret _) (by simp) (by simp)
  · have hgrow := hgrown.grow
    have hne : f ≠ K.pagingPt := hgrow.offWindow hA hw 3 f (by decide) hf
    have hshows : Shows K [(3, f)] PT_MAP f := ⟨by decide, by simp [PT_MAP], hne⟩
    have hentered : Entered t₃.mem (t₃.setPage f (pageIndex v) p flags).mem f (pageIndex v) p flags :=
      setPage_entered (pageIndex_lt v)
    have hleaf := hentered.toLeafSet
    have hlen : (tablePath v).length < 4 := by simp [tablePath]
    have hphys : (t₃.setPage f (pageIndex v) p flags).phys = t₃.phys := by
      simp [Machine.setPage, Machine.clearPage]
    refine .inr ⟨t₃.setPage f (pageIndex v) p flags, ?_, ?_⟩
    · refine hrun.bind [(3, f)] ?_ (by simp) (by simp)
      refine (Runs.load hshows (pageIndex_lt v)).seq ?_
      exact (Runs.store hshows (pageIndex_lt v)).seq (Runs.ret _)
    · have hset : Evolves K free t₃ (t₃.setPage f (pageIndex v) p flags) (root / PAGE_SIZE) := by
        have hnode : Node (child (t₃.setPage f (pageIndex v) p flags).mem) 4 (root / PAGE_SIZE) f :=
          ⟨tablePath v, hlen, by rw [hleaf.follow_table hgrow.dir hf hlen, hf]⟩
        refine ⟨?_, ?_, ?_, ?_, hleaf.other _ hne.symm, ⟨0, ?_⟩, ?_⟩
        · rintro g ⟨q, hq, hg⟩
          exact ⟨q, hq, by rw [hleaf.follow_table hgrow.dir hf hq, hg]⟩
        · intro q g hq hg
          rw [hleaf.follow_table hgrow.dir hf hq] at hg
          exact .inl hg
        · intro g hg
          exact hleaf.other g fun h => hg (h ▸ hnode)
        · rw [hphys]
          exact fun _ hf => hf
        · simp [Machine.setPage, Machine.clearPage]
        · simp [Machine.setPage, Machine.clearPage]
      refine ⟨(hgrown.evolves hslots).trans hset, ?_, ?_, ?_, ?_, ?_⟩
      · rw [hphys]
        exact hleaf.directory hgrow.dir hf
      · intro q hq
        rw [hleaf.follow_page hgrow.dir hf hq, hentered.entry, hgrow.page q hq]
      · intro u
        rw [hleaf.entryFlags hgrow.dir hf, hentered.flags, hgrow.entryFlags]
      · refine ⟨f, ?_, ?_, ?_⟩
        · rw [hleaf.follow_table hgrow.dir hf hlen, hf]
        · intro hi
          rw [setPage_count, if_pos hi]
        · intro g hg
          have hsame := hgrow.old _ g hlen hg
          rw [hf] at hsame
          cases hsame
          refine ⟨rfl, fun hi => ?_⟩
          rw [setPage_count, if_neg hi, hgrow.keep _ f (by simp [tablePath]) hlen hg]
      · intro supply hsupply
        rw [hphys]
        exact hsup supply hsupply

end MapPage

abbrev InPages (v n u : Nat) : Prop := v / PAGE_SIZE ≤ u / PAGE_SIZE ∧ u / PAGE_SIZE < v / PAGE_SIZE + n

/-- What `map_pages` has done once `n` pages are mapped. In one page table its counter
goes up by one for each page. -/
structure RangeMapped (K : KernelImage) (free : P → Nat → Prop) (t t' : Machine P)
    (r v p flags n : Nat) : Prop extends Evolves K free t t' r where
  dir : Directory (free t'.phys) t'.mem r
  page : ∀ u, u < 2^48 → follow (child t'.mem) r (pathOf u) =
    if InPages v n u then some ((p / PAGE_SIZE + (u / PAGE_SIZE - v / PAGE_SIZE)) % 2^40)
    else follow (child t.mem) r (pathOf u)
  flags : ∀ u, u < 2^48 → entryFlags t'.mem r u =
    if InPages v n u then (F_PRESENT ||| flags) % 2^9 else entryFlags t.mem r u
  nil : n = 0 → t' = t
  table : 0 < n → pageIndex v + n ≤ 512 → ∃ f, follow (child t'.mem) r (tablePath v) = some f ∧
    (pageIndex v = 0 → ptCount.get (t'.mem f 0) = n % 2^9) ∧
    ∀ g, follow (child t.mem) r (tablePath v) = some g → g = f ∧
      (pageIndex v ≠ 0 → ptCount.get (t'.mem f 0) = (ptCount.get (t.mem f 0) + n) % 2^9)

theorem next_page (h : pageIndex v + 1 < 512) :
    tablePath (v + PAGE_SIZE) = tablePath v ∧ pageIndex (v + PAGE_SIZE) = pageIndex v + 1 := by
  unfold pageIndex at *
  rw [PAGE_SIZE]
  constructor
  · simp only [tablePath, cons.injEq, and_true]
    refine ⟨?_, ?_, ?_⟩ <;> omega
  · omega

theorem next_frame (p d : Nat) :
    (u64 (p + PAGE_SIZE) / PAGE_SIZE + d) % 2^40 = (p / PAGE_SIZE + (d + 1)) % 2^40 := by
  rw [u64, PAGE_SIZE]
  omega

section Cons

variable {t₁ : Machine P} (h : PageMapped K A free t t₁ r v p flags)
  (hrest : RangeMapped K free t₁ t' r (v + PAGE_SIZE) (u64 (p + PAGE_SIZE)) flags n)
include h hrest

theorem PageMapped.cons_table (hn : pageIndex v + (n + 1) ≤ 512) :
    ∃ f, follow (child t'.mem) r (tablePath v) = some f ∧
      (pageIndex v = 0 → ptCount.get (t'.mem f 0) = (n + 1) % 2^9) ∧
      ∀ g, follow (child t.mem) r (tablePath v) = some g → g = f ∧
        (pageIndex v ≠ 0 → ptCount.get (t'.mem f 0) = (ptCount.get (t.mem f 0) + (n + 1)) % 2^9) := by
  obtain ⟨f, hf, hfirst, hnext⟩ := h.table
  by_cases hzero : n = 0
  · rw [hrest.nil hzero, hzero]
    exact ⟨f, hf, hfirst, hnext⟩
  · obtain ⟨hpath, hindex⟩ := next_page (show pageIndex v + 1 < 512 by omega)
    obtain ⟨f', hf', -, hcount⟩ := hrest.table (by omega) (by omega)
    rw [hpath] at hf' hcount
    obtain ⟨rfl, hcount⟩ := hcount f hf
    have hcount := hcount (by omega)
    refine ⟨f, hf', ?_, ?_⟩
    · intro hi
      rw [hcount, hfirst hi, add_comm]
    · intro g hg
      obtain ⟨rfl, hnext⟩ := hnext g hg
      refine ⟨rfl, fun hi => ?_⟩
      rw [hcount, hnext hi]
      omega

theorem PageMapped.cons (hv : v < 2^48) : RangeMapped K free t t' r v p flags (n + 1) := by
  have hv' : (v + PAGE_SIZE) / PAGE_SIZE = v / PAGE_SIZE + 1 := Nat.add_div_right v (by decide)
  refine ⟨h.toEvolves.trans hrest.toEvolves, hrest.dir, ?_, ?_, ?_, ?_⟩
  · intro u hu
    rw [hrest.page u hu, h.page _ (pathOf_length u), next_frame]
    simp only [pathOf_eq_iff hu hv]
    by_cases hin : InPages (v + PAGE_SIZE) n u
    · have hstep : u / PAGE_SIZE - (v + PAGE_SIZE) / PAGE_SIZE + 1 = u / PAGE_SIZE - v / PAGE_SIZE := by
        omega
      rw [if_pos hin, if_pos (by omega), hstep]
    · rw [if_neg hin]
      by_cases hat : u / PAGE_SIZE = v / PAGE_SIZE
      · rw [if_pos hat, if_pos (by omega), hat, tsub_self, add_zero]
      · rw [if_neg hat, if_neg (by omega)]
  · intro u hu
    rw [hrest.flags u hu, h.flags u]
    simp only [pathOf_eq_iff hu hv]
    by_cases hin : InPages (v + PAGE_SIZE) n u
    · rw [if_pos hin, if_pos (by omega)]
    · rw [if_neg hin]
      by_cases hat : u / PAGE_SIZE = v / PAGE_SIZE
      · rw [if_pos hat, if_pos (by omega)]
      · rw [if_neg hat, if_neg (by omega)]
  · intro hn
    omega
  · intro _ hn
    exact h.cons_table hrest hn

end Cons

theorem mapPagesLoop_succ : mapPagesLoop K A root flags total (n + 1) v p s =
    (mapPage K A root v p flags s).bind fun x =>
      (if x.1 then mapPagesLoop K A root flags total n (u64 (v + PAGE_SIZE)) (u64 (p + PAGE_SIZE))
      else do
        unmapPages K A root true total v
        pure 1) x.2 := rfl

theorem mapPagesLoop_maps (hA : Pool K A free) (hd : Directory (free t.phys) t.mem (root / PAGE_SIZE)) (hσ : Ready σ)
    (hend : v + PAGE_SIZE * n ≤ 2^48)
    (hw : ∀ i, i < n → OffWindow K t.mem (root / PAGE_SIZE) (v + PAGE_SIZE * i))
    (hrun : mapPagesLoop K A root flags total n v p (t.withSlots K σ) = some (0, s')) :
    ∃ t' σ', s' = t'.withSlots K σ' ∧ Ready σ' ∧ (∀ k, PT_MAP < k → σ' k = σ k) ∧
      RangeMapped K free t t' (root / PAGE_SIZE) v p flags n := by
  induction n generalizing v p t σ with
  | zero =>
    cases hrun
    refine ⟨t, σ, rfl, hσ, fun _ _ => rfl, .refl _ _, hd, ?_, ?_, fun _ => rfl, ?_⟩
    · intro u _
      rw [if_neg (by omega)]
    · intro u _
      rw [if_neg (by omega)]
    · intro hn
      omega
  | succ n ih =>
    rw [Nat.mul_succ] at hend
    have hsize : 0 < PAGE_SIZE := by decide
    have hv : v < 2^48 := by omega
    rw [mapPagesLoop_succ] at hrun
    rcases mapPage_runs (Γ := []) hA hv hd (hw 0 (by omega)) p flags with
      ⟨t₁, hruns, -⟩ | ⟨t₁, hruns, hmapped⟩
    · -- the failed call returns 1
      obtain ⟨σ₁, hfirst, -⟩ := hruns σ hσ (by simp)
      rw [hfirst, bind_some, if_neg (by simp)] at hrun
      obtain ⟨x, -, hx⟩ := bind_eq_some_iff.mp hrun
      cases hx
    · obtain ⟨σ₁, hfirst, hσ₁, hkeep₁, -⟩ := hruns σ hσ (by simp)
      rw [hfirst, bind_some, if_pos rfl, u64_of_lt (n := v + PAGE_SIZE) (by omega)] at hrun
      have hw₁ : ∀ i, i < n →
          OffWindow K t₁.mem (root / PAGE_SIZE) (v + PAGE_SIZE + PAGE_SIZE * i) := by
        intro i hi
        have hnext : v + PAGE_SIZE + PAGE_SIZE * i = v + PAGE_SIZE * (i + 1) := by
          rw [Nat.mul_succ]
          omega
        rw [hnext]
        exact hmapped.offWindow hA (hw (i + 1) (by omega))
      obtain ⟨t', σ', rfl, hσ', hkeep', hrest⟩ :=
        ih hmapped.dir hσ₁ (by omega) hw₁ hrun
      refine ⟨t', σ', rfl, hσ', ?_, hmapped.cons hrest hv⟩
      intro k hk
      rw [hkeep' k hk, hkeep₁ k]
      simp only [PT_MAP] at hk
      simp
      omega

theorem memGetPhys_runs (hu : u < 2^48) (hd : Directory (free t.phys) t.mem (root / PAGE_SIZE))
    (hw : OffWindow K t.mem (root / PAGE_SIZE) u) (ht : translate t.mem root u = some f) :
    Runs K [0, 1, 2, 3] Γ (memGetPhys K root u) t (u64 (f * PAGE_SIZE + u % PAGE_SIZE)) t [] := by
  rcases pageLocate_runs (Γ := Γ) hu hd hw with ⟨hnone, -⟩ | ⟨g, hg, hsome, hrun⟩
  · rw [ht] at hnone
    cases hnone
  · have hne : g ≠ K.pagingPt := hw 3 g (by decide) hg
    have hshows : Shows K [(3, g)] PT_MAP g := ⟨by decide, by simp [PT_MAP], hne⟩
    have hentry : child t.mem g (pageIndex u) = some f := by
      rw [translate, pathOf_eq, follow_snoc, hg, bind_some] at ht
      exact ht
    have hframe : addressOf (t.mem g (pageIndex u)) = f * PAGE_SIZE := by
      rw [child_eq (pageIndex_lt u)] at hentry
      split_ifs at hentry
      rw [addressOf, some.inj hentry]
    refine hrun.bind [(3, g)] ?_ (by simp) (by simp)
    refine (Runs.load hshows (pageIndex_lt u)).seq ?_
    rw [hframe]
    exact Runs.ret _

/-- The walk for `v` goes through none of the slots of the window that `map_pages` uses. -/
def OffSlots (K : KernelImage) (m : Mem) (r v : Nat) : Prop :=
  ∀ q i f, q ++ [i] <+: pathOf v → follow (child m) r q = some f → f = K.pagingPt → PT_MAP < i

section Slots

variable (hnew : ∀ q f, q.length < 4 → follow (child t'.mem) r q = some f →
    follow (child s.mem) r q = some f ∨ free s.phys f)
  (hslots : t'.mem K.pagingPt = s.mem K.pagingPt) (hA : Pool K A free)
  (hkeep : ∀ k, PT_MAP < k → σ k = s.mem K.pagingPt k) (hu : OffSlots K s.mem r u)
include hnew hslots hA hkeep hu

theorem word_withSlots (hq : q ++ [i] <+: pathOf u)
    (hf : follow (child t'.mem) r q = some f) : (t'.withSlots K σ).mem f i = t'.mem f i := by
  by_cases hne : f = K.pagingPt
  · have hlen := length_lt_of_snoc_prefix hq
    rcases hnew q f hlen hf with hold | hfree
    · have hi := hu q i f hq hold hne
      rw [hne, hslots, ← hkeep i hi]
      exact congrFun Machine.withSlots_slots i
    · exact absurd hne (hA.usable _ f hfree).2.2
  · rw [Machine.withSlots_mem_ne hne]

theorem follow_withSlots (hq : q <+: pathOf u) :
    follow (child (t'.withSlots K σ).mem) r q = follow (child t'.mem) r q := by
  apply follow_congr
  intro q' i f hq' hf
  unfold child
  rw [word_withSlots hnew hslots hA hkeep hu (hq'.trans hq) hf]

end Slots

section Evolves

variable (h : Evolves K free s t' r) (hA : Pool K A free)
  (hkeep : ∀ k, PT_MAP < k → σ k = s.mem K.pagingPt k) (hu : OffSlots K s.mem r u)
include h hA hkeep hu

theorem Evolves.follow_slots (hq : q <+: pathOf u) :
    follow (child (t'.withSlots K σ).mem) r q = follow (child t'.mem) r q :=
  follow_withSlots h.new h.slots hA hkeep hu hq

theorem Evolves.entryFlags_slots :
    entryFlags (t'.withSlots K σ).mem r u = entryFlags t'.mem r u := by
  have hpath : tablePath u ++ [pageIndex u] <+: pathOf u := prefix_refl _
  unfold entryFlags
  rw [h.follow_slots hA hkeep hu ((prefix_append _ _).trans hpath)]
  cases hf : follow (child t'.mem) r (tablePath u) with
  | none => rfl
  | some f =>
    dsimp only
    rw [word_withSlots h.new h.slots hA hkeep hu hpath hf]

end Evolves

theorem OffWindow.offSlots (h : OffWindow K m r v) : OffSlots K m r v := by
  intro q i f hq hf hne
  have htake : q = (pathOf v).take q.length :=
    prefix_iff_eq_take.mp ((prefix_append q [i]).trans hq)
  have hlen := length_lt_of_snoc_prefix hq
  rw [htake] at hf
  exact absurd hne (h _ f hlen hf)

section Offsets

variable {off : Nat} (hv : v % PAGE_SIZE = 0) (hoff : off < PAGE_SIZE)
include hv hoff

theorem page_add : (v + PAGE_SIZE * i + off) / PAGE_SIZE = v / PAGE_SIZE + i := by
  rw [PAGE_SIZE] at *
  omega

theorem inPages_add (hi : i < n) : InPages v n (v + PAGE_SIZE * i + off) := by
  rw [InPages, page_add hv hoff]
  omega

theorem address_add (hp : p % PAGE_SIZE = 0) :
    (p / PAGE_SIZE + i) * PAGE_SIZE + (v + PAGE_SIZE * i + off) % PAGE_SIZE = p + PAGE_SIZE * i + off := by
  rw [PAGE_SIZE] at *
  omega

end Offsets

theorem add_lt_end {off z : Nat} (hi : i < n) (hoff : off < PAGE_SIZE) (hend : v + PAGE_SIZE * n ≤ z) :
    v + PAGE_SIZE * i + off < z := by
  rw [PAGE_SIZE] at *
  omega

theorem mapPages_range (hA : Pool K A free)
    (hd : Directory (free s.phys) s.mem (root / PAGE_SIZE)) (hready : Ready (s.mem K.pagingPt))
    (hend : v + PAGE_SIZE * n ≤ 2^48)
    (hw : ∀ i, i < n → OffWindow K s.mem (root / PAGE_SIZE) (v + PAGE_SIZE * i))
    (hrun : mapPages K A root v p flags n s = some (0, s')) :
    ∃ t' σ', s' = t'.withSlots K σ' ∧ Ready σ' ∧ (∀ k, PT_MAP < k → σ' k = s.mem K.pagingPt k) ∧
      RangeMapped K free s t' (root / PAGE_SIZE) v p flags n := by
  have hloop : mapPagesLoop K A root flags n n v p (s.withSlots K (s.mem K.pagingPt)) = some (0, s') := by
    rw [Machine.withSlots_self]
    exact hrun
  exact mapPagesLoop_maps hA hd hready hend hw hloop

section GetPhys

variable {off : Nat} (h : RangeMapped K free s t' (root / PAGE_SIZE) v p flags n) (hA : Pool K A free)
  (hσ : Ready σ) (hv : v % PAGE_SIZE = 0) (hp : p % PAGE_SIZE = 0) (hend : v + PAGE_SIZE * n ≤ 2^48)
  (hphys : p + PAGE_SIZE * n ≤ 2^52) (hi : i < n)
  (hw : OffWindow K s.mem (root / PAGE_SIZE) (v + PAGE_SIZE * i)) (hoff : off < PAGE_SIZE)
include h hA hσ hv hp hend hphys hi hw hoff

theorem RangeMapped.getPhys : ∃ s'', memGetPhys K root (v + PAGE_SIZE * i + off) (t'.withSlots K σ) =
    some (p + PAGE_SIZE * i + off, s'') := by
  have hpos : 0 < PAGE_SIZE := by decide
  have hlt := add_lt_end hi hoff hend
  have hfirst : v + PAGE_SIZE * i < 2^48 := add_lt_end hi hpos hend
  have hpage : (v + PAGE_SIZE * i) / PAGE_SIZE = v / PAGE_SIZE + i := page_add hv hpos
  have hsame : pathOf (v + PAGE_SIZE * i + off) = pathOf (v + PAGE_SIZE * i) := by
    rw [pathOf_eq_iff hlt hfirst, page_add hv hoff, hpage]
  have hoffw : OffWindow K t'.mem (root / PAGE_SIZE) (v + PAGE_SIZE * i + off) := by
    unfold OffWindow
    rw [hsame]
    exact h.offWindow hA hw
  have hframe : p / PAGE_SIZE + i < 2^40 := by
    have hphys' := add_lt_end hi hpos hphys
    rw [PAGE_SIZE] at *
    omega
  have htrans : translate t'.mem root (v + PAGE_SIZE * i + off) = some (p / PAGE_SIZE + i) := by
    rw [translate, h.page _ hlt, if_pos (inPages_add hv hoff hi), page_add hv hoff,
      Nat.add_sub_cancel_left, Nat.mod_eq_of_lt hframe]
  obtain ⟨σ'', hgot, -⟩ := memGetPhys_runs (Γ := []) hlt h.dir hoffw htrans σ hσ (by simp)
  have hphys' := add_lt_end hi hoff hphys
  rw [address_add hv hoff hp, u64_of_lt (by omega)] at hgot
  exact ⟨_, hgot⟩

end GetPhys

/-- `map_pages` maps the pages, with the flags, and no other page. -/
theorem mapPages_maps {s' : Machine P} (hA : Pool K A free)
    (hd : Directory (free s.phys) s.mem (root / PAGE_SIZE)) (hready : Ready (s.mem K.pagingPt))
    (hv : v % PAGE_SIZE = 0) (hp : p % PAGE_SIZE = 0) (hend : v + PAGE_SIZE * n ≤ 2^48)
    (hphys : p + PAGE_SIZE * n ≤ 2^52) (hflags : flags < 2^9)
    (hw : ∀ i, i < n → OffWindow K s.mem (root / PAGE_SIZE) (v + PAGE_SIZE * i))
    (hrun : mapPages K A root v p flags n s = some (0, s')) :
    (∀ i off, i < n → off < PAGE_SIZE → ∃ s'',
      memGetPhys K root (v + PAGE_SIZE * i + off) s' = some (p + PAGE_SIZE * i + off, s'')) ∧
    (∀ i, i < n → entryFlags s'.mem (root / PAGE_SIZE) (v + PAGE_SIZE * i) = F_PRESENT ||| flags) ∧
    ∀ u, u < 2^48 → ¬ InPages v n u → OffSlots K s.mem (root / PAGE_SIZE) u →
      translate s'.mem root u = translate s.mem root u ∧
      entryFlags s'.mem (root / PAGE_SIZE) u = entryFlags s.mem (root / PAGE_SIZE) u := by
  obtain ⟨t', σ', rfl, hσ', hkeep, hmapped⟩ := mapPages_range hA hd hready hend hw hrun
  have hpos : 0 < PAGE_SIZE := by decide
  refine ⟨?_, ?_, ?_⟩
  · intro i off hi hoff
    exact hmapped.getPhys hA hσ' hv hp hend hphys hi (hw i hi) hoff
  · intro i hi
    have hfirst : v + PAGE_SIZE * i < 2^48 := add_lt_end hi hpos hend
    have hin : InPages v n (v + PAGE_SIZE * i) := inPages_add hv hpos hi
    have hbits : F_PRESENT ||| flags < 2^9 := Nat.or_lt_two_pow (by decide) hflags
    rw [hmapped.entryFlags_slots hA hkeep (hw i hi).offSlots, hmapped.flags _ hfirst, if_pos hin,
      Nat.mod_eq_of_lt hbits]
  · intro u hu hout hslots
    constructor
    · rw [translate, hmapped.follow_slots hA hkeep hslots (prefix_refl _), hmapped.page u hu,
        if_neg hout, translate]
    · rw [hmapped.entryFlags_slots hA hkeep hslots, hmapped.flags u hu, if_neg hout]

def countingPages : PageAlloc Nat where
  allocPhysPage next := some (if 10 ≤ next ∧ next < 2^40 then (next * PAGE_SIZE, next + 1) else (0, next))
  allocPhysPagesExact next _ := some (0, next)
  freePhysPage next _ := next
  freePhysPages next _ _ := next

def countingFree (next f : Nat) : Prop := 10 ≤ f ∧ next ≤ f ∧ f < 2^40

def smallImage : KernelImage where
  kernelStart := 0x1000
  kernelEnd := 0x9000
  kernelPml4 := 0x2000
  pagingPt := 1

theorem countingPages_pool : Pool smallImage countingPages countingFree := by
  have hpos : 0 < PAGE_SIZE := by decide
  constructor
  · intro s
    exact ⟨_, _, rfl⟩
  · intro s p s' h hp
    simp only [countingPages, some.injEq] at h
    split_ifs at h with hs
    · cases h
      rw [Nat.mul_div_cancel _ hpos]
      exact ⟨hs.1, le_rfl, hs.2⟩
    · exact absurd (Prod.mk.inj h).1.symm hp
  · intro s p s' f h hf
    simp only [countingPages, some.injEq] at h
    split_ifs at h with hs
    · cases h
      rw [Nat.mul_div_cancel _ hpos]
      exact ⟨⟨hf.1, by have := hf.2.1; omega, hf.2.2⟩, by have := hf.2.1; omega⟩
    · cases h
      rw [Nat.zero_div]
      exact ⟨hf, by have := hf.1; omega⟩
  · intro s f hf
    refine ⟨by have := hf.1; omega, hf.2.2, ?_⟩
    have hten := hf.1
    change f ≠ 1
    omega

def countingSupply (next : Nat) : Nat := if 10 ≤ next then 2^40 - next else 0

theorem countingPages_supply : Supply countingPages countingSupply := by
  intro s p s' h hpos
  have hten : 10 ≤ s := by
    by_contra hlow
    rw [countingSupply, if_neg hlow] at hpos
    omega
  rw [countingSupply, if_pos hten] at hpos
  unfold countingSupply
  simp only [countingPages, some.injEq] at h
  rw [if_pos ⟨hten, by omega⟩] at h
  cases h
  refine ⟨mul_ne_zero (by omega) (by decide), ?_⟩
  rw [if_pos hten, if_pos (by omega)]
  omega

def smallMachine (mem : Mem) : Machine Nat where
  mem := mem
  phys := 10
  freed := []
  strayed := false

theorem smallMachine_directory {mem : Mem} (hroot : ∀ g i, child mem g i ≠ some r) (hr : r ≠ 0 ∧ r < 10)
    (hparent : ∀ g g' i i' f, child mem g i = some f → child mem g' i' = some f → g = g' ∧ i = i')
    (hlow : ∀ g i f, child mem g i = some f → f ≠ 0 ∧ f < 10) :
    Directory (countingFree (smallMachine mem).phys) (smallMachine mem).mem r := by
  refine ⟨tree_of_parents hroot hparent, by omega, ?_⟩
  rintro f ⟨q, -, hf⟩
  have hsmall : f ≠ 0 ∧ f < 10 := by
    rcases follow_last hf with ⟨-, rfl⟩ | ⟨q', i, g, -, -, hg⟩
    · exact hr
    · exact hlow g i f hg
  refine ⟨hsmall.1, fun hfree => ?_⟩
  have hten := hfree.1
  omega

theorem child_zero (f i : Nat) : child (fun _ _ => 0) f i = none := by
  simp [child]

theorem follow_cleared (hr : ∀ i, child m r i = none) (hf : follow (child m) r q = some f) :
    q = [] ∧ f = r := by
  cases q with
  | nil => exact ⟨rfl, (some.inj hf).symm⟩
  | cons i q =>
    rw [follow, hr] at hf
    cases hf

theorem zero_directory {free : Nat → Prop} (hpos : r ≠ 0) (hlt : r < 2^40) (hfree : ¬ free r) :
    Directory free (fun _ _ => 0) r := by
  refine ⟨?_, hlt, ?_⟩
  · intro q q' f _ _ hf hf'
    rw [(follow_cleared (child_zero r) hf).1, (follow_cleared (child_zero r) hf').1]
  · rintro f ⟨q, -, hf⟩
    rw [(follow_cleared (child_zero r) hf).2]
    exact ⟨hpos, hfree⟩

theorem zero_offWindow (hr : r ≠ K.pagingPt) (u : Nat) : OffWindow K (fun _ _ => 0) r u := by
  intro d f _ hf
  rw [(follow_cleared (child_zero r) hf).2]
  exact hr

theorem zero_ready : Ready fun _ => 0 := fun _ _ hframe => absurd (show frameOf 0 = 0 by decide) hframe

/-- The first page of an empty directory. -/
theorem mapPages_maps_first : ∃ s',
    mapPages smallImage countingPages 0x2000 0 0x5000 3 1 (smallMachine fun _ _ => 0) = some (0, s') ∧
    ∃ s'', memGetPhys smallImage 0x2000 0x10 s' = some (0x5010, s'') := by
  have hzero : (mapPages smallImage countingPages 0x2000 0 0x5000 3 1
      (smallMachine fun _ _ => 0)).map Prod.fst = some 0 := by decide +kernel
  obtain ⟨⟨x, s'⟩, hrun, hx⟩ := map_eq_some_iff.mp hzero
  obtain rfl : x = 0 := hx
  have hd : Directory (countingFree 10) (fun _ _ => 0) (0x2000 / PAGE_SIZE) :=
    zero_directory (by decide) (by decide) fun h => absurd h.1 (by decide)
  obtain ⟨hget, -⟩ := mapPages_maps (n := 1) countingPages_pool hd zero_ready (by decide) (by decide) (by decide)
    (by decide) (by decide) (fun _ _ => zero_offWindow (by decide) _) hrun
  exact ⟨s', hrun, hget 0 0x10 (by decide) (by decide)⟩

def windowTables : Mem := fun f i =>
  if f = 2 ∧ i = 0 then 0x3003 else if f = 3 ∧ i = 1 then 0x4003 else if f = 4 ∧ i = 0 then 0x1003 else 0

theorem windowTables_child (f i : Nat) : child windowTables f i =
    if f = 2 ∧ i = 0 then some 3 else if f = 3 ∧ i = 1 then some 4
    else if f = 4 ∧ i = 0 then some 1 else none := by
  split_ifs with h₁ h₂ h₃
  · obtain ⟨rfl, rfl⟩ := h₁
    decide
  · obtain ⟨rfl, rfl⟩ := h₂
    decide
  · obtain ⟨rfl, rfl⟩ := h₃
    decide
  · simp [child, windowTables, h₁, h₂, h₃]

/-- Mapping a page in the directory of the kernel moves a page of the window. -/
theorem mapPages_moves_window :
    Pool smallImage countingPages countingFree ∧
    Directory (countingFree (smallMachine windowTables).phys) (smallMachine windowTables).mem 2 ∧
    Ready ((smallMachine windowTables).mem smallImage.pagingPt) ∧
    ¬ InPages (2^39) 1 windowStart ∧
    (∃ s', mapPages smallImage countingPages 0x2000 (2^39) 0x5000 3 1 (smallMachine windowTables) =
        some (0, s') ∧ translate s'.mem 0x2000 windowStart = some 2) ∧
    translate (smallMachine windowTables).mem 0x2000 windowStart = none := by
  refine ⟨countingPages_pool, smallMachine_directory ?_ (by decide) ?_ ?_, ?_, by decide, ?_, by decide +kernel⟩
  · intro g i
    rw [windowTables_child]
    split_ifs <;> simp
  · intro g g' i i' f h h'
    rw [windowTables_child] at h h'
    split_ifs at h h' <;> simp_all <;> omega
  · intro g i f h
    rw [windowTables_child] at h
    split_ifs at h <;> simp_all <;> omega
  · intro k _ hk
    exact absurd (show frameOf 0 = 0 by decide) hk
  · have hmoved : (mapPages smallImage countingPages 0x2000 (2^39) 0x5000 3 1
        (smallMachine windowTables)).map (fun x => (x.1, translate x.2.mem 0x2000 windowStart)) =
        some (0, some 2) := by decide +kernel
    obtain ⟨⟨x, s'⟩, hrun, hx⟩ := map_eq_some_iff.mp hmoved
    obtain ⟨rfl, htrans⟩ := Prod.mk.inj hx
    exact ⟨s', hrun, htrans⟩

end Comus.Paging
