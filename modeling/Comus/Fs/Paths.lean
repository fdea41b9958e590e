import Comus.Fs.Descriptors
import Comus.Fs.DiskReads

/-!
# The file names of open and exec (kernel/syscall.c)

Both calls copy a name from the memory of the user to a buffer of 256 bytes on the kernel
stack, as long as the name is. `sys_exec` copies the null at its end as well, `sys_open`
does not. The memory from the start of the buffer on is a function of the index; what it
holds before the call is left over from earlier ones.
-/

namespace Comus.Fs

open Option List

def N_FILE_NAME : Nat := 256

/-- What a call does with the name: the bytes that it writes to the buffer, and the memory
from the buffer on at the call of `fs->open`, if there is one. -/
structure NameCopy where
  written : Nat
  passed : Option (Nat → UInt8)

/-- `sys_exec` up to the call of `fs->open`; `root` says whether there is a file system. -/
def sysExecName (root : Bool) (name : List UInt8) (stack : Nat → UInt8) : NameCopy where
  written := name.length + 1
  passed := if root then some (bufferAfter stack (name ++ [0])) else none

def sysOpenName (s : Files) (root : Bool) (name : List UInt8) (stack : Nat → UInt8) : NameCopy where
  written := name.length
  passed :=
    match firstFree s with
    | none => none
    | some _ => if root then some (bufferAfter stack name) else none

structure IsString (mem : Nat → UInt8) (name : List UInt8) : Prop where
  chars : ∀ i, i < name.length → mem i = name.getD i 0 ∧ mem i ≠ 0
  null : mem name.length = 0

def PassesName (call : (Nat → UInt8) → NameCopy) (name : List UInt8) : Prop :=
  ∀ stack, (call stack).written ≤ N_FILE_NAME ∧ ∀ mem, (call stack).passed = some mem → IsString mem name

variable {name : List UInt8} {stack : Nat → UInt8} {s : Files} {root : Bool}

theorem bufferAfter_name {rest : List UInt8} {i : Nat} (h : i < name.length) :
    bufferAfter stack (name ++ rest) i = name.getD i 0 := by
  rw [bufferAfter, getElem?_append_left h, getD_eq_getElem?_getD, getElem?_eq_getElem h,
    getD_some, getD_some]

theorem name_ne_zero (hname : 0 ∉ name) {i : Nat} (h : i < name.length) : name.getD i 0 ≠ 0 := by
  rw [getD_eq_getElem?_getD, getElem?_eq_getElem h, getD_some]
  intro hzero
  exact hname (hzero ▸ getElem_mem h)

/-- With its null the name is a string; without it, the byte left on the stack decides. -/
theorem isString_bufferAfter (hname : 0 ∉ name) : IsString (bufferAfter stack (name ++ [0])) name where
  chars i hi := ⟨bufferAfter_name hi, by rw [bufferAfter_name hi]; exact name_ne_zero hname hi⟩
  null := by
    rw [bufferAfter, getElem?_append_right le_rfl, tsub_self]
    rfl

theorem isString_stack (h : IsString (bufferAfter stack name) name) : stack name.length = 0 := by
  have hnull := h.null
  rwa [bufferAfter, getElem?_eq_none le_rfl, getD_none] at hnull

theorem sysExecName_passes_iff (hname : 0 ∉ name) :
    PassesName (sysExecName root name) name ↔ name.length < N_FILE_NAME := by
  constructor
  · intro h
    exact (h fun _ => 0).1
  · intro hlen stack
    refine ⟨hlen, fun mem hmem => ?_⟩
    cases root with
    | false => cases hmem
    | true =>
      cases hmem
      exact isString_bufferAfter hname

theorem sysOpenName_passed (hfd : firstFree s ≠ none) (stack : Nat → UInt8) :
    (sysOpenName s true name stack).passed = some (bufferAfter stack name) := by
  obtain ⟨fd, hsome⟩ := ne_none_iff_exists'.mp hfd
  unfold sysOpenName
  rw [hsome]
  rfl

theorem sysOpenName_passes_iff :
    PassesName (sysOpenName s root name) name ↔ name.length ≤ N_FILE_NAME ∧ (firstFree s = none ∨ root = false) := by
  constructor
  · intro h
    refine ⟨(h fun _ => 0).1, ?_⟩
    by_contra hcalled
    obtain ⟨hfd, hroot⟩ := not_or.mp hcalled
    obtain rfl : root = true := Bool.eq_true_of_not_eq_false hroot
    -- a stack without a null
    have hone := isString_stack ((h fun _ => 1).2 _ (sysOpenName_passed hfd _))
    cases hone
  · rintro ⟨hlen, hfails⟩ stack
    refine ⟨hlen, fun mem hmem => ?_⟩
    unfold sysOpenName at hmem
    rcases hfails with hnone | rfl
    · rw [hnone] at hmem
      cases hmem
    · cases hfd : firstFree s <;> rw [hfd] at hmem <;> cases hmem

/-- `exec` passes every name on that fits into the buffer with its null; `open` passes none on
without what an earlier call has left behind it. -/
theorem names_passed_iff (s : Files) (root : Bool) (name : List UInt8) (hname : 0 ∉ name) :
    (PassesName (sysExecName root name) name ↔ name.length < N_FILE_NAME) ∧
    (PassesName (sysOpenName s root name) name ↔
      name.length ≤ N_FILE_NAME ∧ (firstFree s = none ∨ root = false)) :=
  ⟨sysExecName_passes_iff hname, sysOpenName_passes_iff⟩

theorem names_passed_iff_b : PassesName (sysExecName true [98]) [98] :=
  (names_passed_iff noFiles true [98] (by decide)).1.mpr (by decide)

/-- Opening `b` after an `a/c` has been opened looks for `b/c`. A name of 300 characters
overruns the buffer in both calls. -/
theorem sysOpenName_leftover :
    (∃ mem, (sysOpenName noFiles true [98] (bufferAfter (fun _ => 0) [97, 47, 99])).passed = some mem ∧
      IsString mem [98, 47, 99]) ∧
    ∀ stack, N_FILE_NAME < (sysOpenName noFiles true (replicate 300 98) stack).written ∧
      N_FILE_NAME < (sysExecName true (replicate 300 98) stack).written := by
  have hfd : firstFree noFiles ≠ none := by decide
  refine ⟨⟨_, sysOpenName_passed hfd _, ?_, rfl⟩, fun stack => ?_⟩
  · decide
  · unfold sysOpenName sysExecName
    dsimp only
    rw [length_replicate]
    decide

end Comus.Fs
