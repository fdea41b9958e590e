import Comus.Fs.Tar
import Comus.Lib.Run

/-!
# File descriptors of one process (kernel/syscall.c)

Descriptor `fd` is slot `fd - 3` of `open_files`. A slot holds the address of a
file object on the kernel heap, or null. The objects are those that some open
has made and no close has freed; using any other address is a fault. `shut`
records, for the statements only, the descriptors closed since they were last
returned by an open.
-/

namespace Comus.Fs

open Word Option Function

structure Files where
  openFiles : Fin 64 → Nat
  objects : Nat → Option TarFile
  shut : Fin 64 → Bool

def slotOf (fd : Int) : Option (Fin 64) :=
  if h : fd < 3 ∨ 67 ≤ fd then none else some ⟨(fd - 3).toNat, by omega⟩

def getFilePtr (s : Files) (fd : Int) : Nat :=
  match slotOf fd with
  | none => 0
  | some i => s.openFiles i

def firstFree (s : Files) : Option (Fin 64) :=
  (List.finRange 64).find? fun i => decide (s.openFiles i = 0)

/-- `sys_open`: the variables of `find_file` are `len` and `sect`, `addr` is the result of
`kalloc`. Page zero is mapped, so that a null result is written to all the same. -/
def sysOpen (s : Files) (flags : Int) (len sect addr : Nat) : Int × Files :=
  match firstFree s with
  | none => (-1, s)
  | some i =>
    match tarOpen flags len sect with
    | none => (-1, s)
    | some file =>
      (i.1 + 3,
        { openFiles := update s.openFiles i addr
          objects := update s.objects addr (some file)
          shut := update s.shut i false })

/-- `sys_close`: the object is freed, the slot keeps its address. -/
def sysClose (s : Files) (fd : Int) : Option (Int × Files) :=
  if getFilePtr s fd = 0 then some (1, s)
  else
    match s.objects (getFilePtr s fd) with
    | none => none
    | some _ =>
      some (0, { s with
        objects := update s.objects (getFilePtr s fd) none
        shut := match slotOf fd with
          | none => s.shut
          | some i => update s.shut i true })

/-- `sys_read`; `mapped` says whether the user's buffer could be mapped. -/
def sysRead (disk : Disk) (s : Files) (fd : Int) (mapped : Bool) (nbytes : Nat) :
    Option (Int × Files) :=
  if !mapped then some (-1, s)
  else if getFilePtr s fd = 0 then some (-1, s)
  else
    (s.objects (getFilePtr s fd)).map fun file =>
      let (n, _, file) := tarRead disk file nbytes
      (n, { s with objects := update s.objects (getFilePtr s fd) (some file) })

def sysSeek (s : Files) (fd off whence : Int) : Option (Int × Files) :=
  if getFilePtr s fd = 0 then some (-1, s)
  else
    (s.objects (getFilePtr s fd)).map fun file =>
      let (n, file) := tarSeek file off whence
      (n, { s with objects := update s.objects (getFilePtr s fd) (some file) })

inductive FileOp where
  | openFile (flags : Int) (len sect addr : Nat)
  | closeFile (fd : Int)
  | readFile (fd : Int) (mapped : Bool) (nbytes : Nat)
  | seekFile (fd off whence : Int)

def call (disk : Disk) (s : Files) : FileOp → Option (Int × Files)
  | .openFile flags len sect addr => some (sysOpen s flags len sect addr)
  | .closeFile fd => sysClose s fd
  | .readFile fd mapped nbytes => sysRead disk s fd mapped nbytes
  | .seekFile fd off whence => sysSeek s fd off whence

def fileStep (disk : Disk) (s : Files) (op : FileOp) : Option Files := (call disk s op).map Prod.snd

/-- The heap never returns the address of an object that is in use. -/
def KallocFresh (s : Files) : FileOp → Prop
  | .openFile _ _ _ addr => addr ≠ 0 → s.objects addr = none
  | _ => True

def Refused (disk : Disk) (s : Files) (fd : Int) : Prop :=
  sysClose s fd = some (1, s) ∧ (∀ mapped nbytes, sysRead disk s fd mapped nbytes = some (-1, s)) ∧
    ∀ off whence, sysSeek s fd off whence = some (-1, s)

structure Good (disk : Disk) (s : Files) : Prop where
  live : ∀ i, s.openFiles i ≠ 0 → (s.objects (s.openFiles i)).isSome
  distinct : ∀ i j, s.openFiles i ≠ 0 → s.openFiles i = s.openFiles j → i = j
  shut : ∀ i, s.shut i = true → Refused disk s (i.1 + 3)

def Closes (s : Files) : FileOp → Prop
  | .closeFile fd => getFilePtr s fd ≠ 0
  | _ => False

variable {disk : Disk} {s s' : Files} {fd : Int} {i : Fin 64} {op : FileOp}

theorem slotOf_add (i : Fin 64) : slotOf (i.1 + 3) = some i := by
  have hi := i.2
  unfold slotOf
  rw [dif_neg (by omega)]
  congr 1
  ext
  dsimp only
  omega

@[simp] theorem getFilePtr_add (s : Files) (i : Fin 64) : getFilePtr s (i.1 + 3) = s.openFiles i := by
  unfold getFilePtr
  rw [slotOf_add]

theorem getFilePtr_ne_zero (h : getFilePtr s fd ≠ 0) :
    ∃ i, slotOf fd = some i ∧ getFilePtr s fd = s.openFiles i := by
  unfold getFilePtr at h ⊢
  cases hfd : slotOf fd with
  | none => simp [hfd] at h
  | some i => exact ⟨i, rfl, rfl⟩

theorem refused_iff : Refused disk s fd ↔ getFilePtr s fd = 0 := by
  constructor
  · intro h
    by_contra hptr
    have hclose := h.1
    unfold sysClose at hclose
    rw [if_neg hptr] at hclose
    cases hobj : s.objects (getFilePtr s fd) <;> simp [hobj] at hclose
  · intro h
    refine ⟨?_, fun mapped nbytes => ?_, fun off whence => ?_⟩
    · rw [sysClose, if_pos h]
    · rw [sysRead, if_pos h, ite_self]
    · rw [sysSeek, if_pos h]

theorem Good.setObject (h : Good disk s) (a : Nat) (file : TarFile) :
    Good disk { s with objects := update s.objects a (some file) } where
  live := by
    intro i hi
    by_cases ha : s.openFiles i = a
    · simp [ha]
    · simpa [ha] using h.live i hi
  distinct := h.distinct
  shut := by
    intro i hi
    have hnull := refused_iff.mp (h.shut i hi)
    exact refused_iff.mpr hnull

theorem firstFree_eq_some (h : firstFree s = some i) : s.openFiles i = 0 := by
  simpa using List.find?_some h

theorem Good.opened (h : Good disk s) (hi : s.openFiles i = 0) {a : Nat} (file : TarFile)
    (ha : a ≠ 0 → s.objects a = none) :
    Good disk
      { openFiles := update s.openFiles i a
        objects := update s.objects a (some file)
        shut := update s.shut i false } := by
  have hnew : ∀ j, s.openFiles j ≠ 0 → s.openFiles j ≠ a := by
    intro j hj hja
    have hlive := h.live j hj
    rw [hja, ha (hja ▸ hj)] at hlive
    cases hlive
  constructor
  · intro j hj
    by_cases hji : j = i
    · subst hji
      simp
    · simp only [update_of_ne hji] at hj ⊢
      rw [update_of_ne (hnew j hj)]
      exact h.live j hj
  · intro j j' hj heq
    by_cases hji : j = i
    · by_cases hji' : j' = i
      · rw [hji, hji']
      · subst hji
        simp only [update_self, update_of_ne hji'] at hj heq
        exact absurd heq.symm (hnew j' (heq ▸ hj))
    · simp only [update_of_ne hji] at hj heq
      by_cases hji' : j' = i
      · subst hji'
        rw [update_self] at heq
        exact absurd heq (hnew j hj)
      · rw [update_of_ne hji'] at heq
        exact h.distinct j j' hj heq
  · intro j hj
    by_cases hji : j = i
    · subst hji
      simp at hj
    · simp only [update_of_ne hji] at hj
      have hnull := refused_iff.mp (h.shut j hj)
      rw [getFilePtr_add] at hnull
      rw [refused_iff, getFilePtr_add]
      simpa [hji] using hnull

theorem Good.sysOpen (h : Good disk s) {flags : Int} {len sect addr : Nat}
    (hfresh : addr ≠ 0 → s.objects addr = none) :
    Good disk (Fs.sysOpen s flags len sect addr).2 := by
  unfold Fs.sysOpen
  cases hfree : firstFree s with
  | none => exact h
  | some i =>
    cases tarOpen flags len sect with
    | none => exact h
    | some file => exact h.opened (firstFree_eq_some hfree) file hfresh

theorem Good.sysRead (h : Good disk s) {mapped : Bool} {nbytes : Nat} {n : Int}
    (hread : Fs.sysRead disk s fd mapped nbytes = some (n, s')) : Good disk s' := by
  unfold Fs.sysRead at hread
  split_ifs at hread with hmap hnull
  · cases hread
    exact h
  · cases hread
    exact h
  · obtain ⟨file, -, hfile⟩ := map_eq_some_iff.mp hread
    cases hfile
    exact h.setObject _ _

theorem Good.sysSeek (h : Good disk s) {off whence n : Int}
    (hseek : Fs.sysSeek s fd off whence = some (n, s')) : Good disk s' := by
  unfold Fs.sysSeek at hseek
  split_ifs at hseek with hnull
  · cases hseek
    exact h
  · obtain ⟨file, -, hfile⟩ := map_eq_some_iff.mp hseek
    cases hfile
    exact h.setObject _ _

/-- The slot of a closed descriptor keeps the address of the freed object. -/
theorem sysClose_not_good {n : Int} (hptr : getFilePtr s fd ≠ 0)
    (hclose : sysClose s fd = some (n, s')) : ¬ Good disk s' := by
  obtain ⟨i, hslot, hi⟩ := getFilePtr_ne_zero hptr
  unfold sysClose at hclose
  rw [if_neg hptr] at hclose
  cases hobj : s.objects (getFilePtr s fd) with
  | none => simp [hobj] at hclose
  | some file =>
    rw [hobj] at hclose
    cases hclose
    intro hgood
    have hlive := hgood.live i (hi ▸ hptr)
    rw [hi] at hlive
    simp at hlive

theorem Good.step_iff (h : Good disk s) (hfresh : KallocFresh s op)
    (hstep : fileStep disk s op = some s') : Good disk s' ↔ ¬ Closes s op := by
  obtain ⟨⟨n, t⟩, hcall, hts⟩ := map_eq_some_iff.mp hstep
  obtain rfl : t = s' := hts
  cases op with
  | openFile flags len sect addr =>
    obtain rfl : (Fs.sysOpen s flags len sect addr).2 = t :=
      congrArg Prod.snd (some.inj hcall)
    exact iff_of_true (h.sysOpen hfresh) id
  | closeFile fd =>
    by_cases hptr : getFilePtr s fd = 0
    · have hclose := (refused_iff.mpr hptr : Refused disk s fd).1
      obtain ⟨-, rfl⟩ := Prod.mk.inj (some.inj (hclose.symm.trans hcall))
      exact iff_of_true h fun hcloses => hcloses hptr
    · exact iff_of_false (sysClose_not_good hptr hcall) fun hcloses => hcloses hptr
  | readFile fd mapped nbytes => exact iff_of_true (h.sysRead hcall) id
  | seekFile fd off whence => exact iff_of_true (h.sysSeek hcall) id

/-- As long as no open file is closed the descriptor table is good, and the first close
of an open file ends that. -/
theorem descriptors_good_iff (disk : Disk) (s₀ s : Files) (h₀ : Good disk s₀)
    (hrun : Run.Reach (fileStep disk) (fun s op => KallocFresh s op ∧ ¬ Closes s op) s₀ s) :
    Good disk s ∧ ∀ op s', KallocFresh s op → fileStep disk s op = some s' →
      (Good disk s' ↔ ¬ Closes s op) := by
  have hgood : Good disk s :=
    hrun.invariant h₀ fun _ _ _ h hok hstep => (h.step_iff hok.1 hstep).mpr hok.2
  exact ⟨hgood, fun _ _ hfresh hstep => hgood.step_iff hfresh hstep⟩

def noFiles : Files where
  openFiles := fun _ => 0
  objects := fun _ => none
  shut := fun _ => false

theorem noFiles_good (disk : Disk) : Good disk noFiles where
  live := fun _ h => absurd rfl h
  distinct := fun _ _ h => absurd rfl h
  shut := fun _ h => absurd h (by simp [noFiles])

instance (s : Files) : ∀ op, Decidable (KallocFresh s op)
  | .openFile _ _ _ addr => inferInstanceAs (Decidable (addr ≠ 0 → s.objects addr = none))
  | .closeFile _ | .readFile _ _ _ | .seekFile _ _ _ => isTrue trivial

instance (s : Files) : ∀ op, Decidable (Closes s op)
  | .closeFile fd => inferInstanceAs (Decidable (getFilePtr s fd ≠ 0))
  | .openFile _ _ _ _ | .readFile _ _ _ | .seekFile _ _ _ => isFalse id

/-- A process opens a file, reads from it and moves in it. -/
theorem descriptors_good_iff_open_read : ∃ s : Files,
    s.openFiles 0 = 0x1000 ∧ Good (ramdisk []) s := by
  have hrun : (Run.execOk (fileStep (ramdisk [])) (fun s op => KallocFresh s op ∧ ¬ Closes s op)
      noFiles [.openFile O_RDONLY 10 0 0x1000, .readFile 3 true 4, .seekFile 3 0 SEEK_SET]).map
        (fun s => s.openFiles 0) = some 0x1000 := by
    decide +kernel
  obtain ⟨s, hexec, hfile⟩ := map_eq_some_iff.mp hrun
  exact ⟨s, hfile, (descriptors_good_iff (ramdisk []) noFiles s (noFiles_good _)
    (Run.Reach.start.execOk hexec)).1⟩

/-- A process opens a file, closes it and opens it again, at the address that has become
free: descriptor 3, which is closed, and descriptor 4 are the same object. -/
theorem closed_descriptor_stays_open : ∃ s : Files,
    Run.Reach (fileStep (ramdisk [])) KallocFresh noFiles s ∧ s.shut 0 = true ∧
      s.openFiles 0 = 0x1000 ∧ s.openFiles 1 = 0x1000 ∧ ¬ Good (ramdisk []) s := by
  have hrun : (Run.execOk (fileStep (ramdisk [])) KallocFresh noFiles
      [.openFile O_RDONLY 10 0 0x1000, .closeFile 3, .openFile O_RDONLY 10 0 0x1000]).map
        (fun s => (s.shut 0, s.openFiles 0, s.openFiles 1)) = some (true, 0x1000, 0x1000) := by
    decide +kernel
  obtain ⟨s, hexec, hs⟩ := map_eq_some_iff.mp hrun
  simp only [Prod.mk.injEq] at hs
  obtain ⟨hshut, hzero, hone⟩ := hs
  refine ⟨s, Run.Reach.start.execOk hexec, hshut, hzero, hone, fun hgood => ?_⟩
  have hsame := hgood.distinct 0 1 (by rw [hzero]; decide) (hzero.trans hone.symm)
  cases hsame

end Comus.Fs
