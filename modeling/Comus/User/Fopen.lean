import Comus.Lib.Word

/-!
# Opening a stream (user/lib/fopen.c)

The loop over the mode string reads the character at `modes` and never moves `modes`. The
string is read through that pointer only, so the loop either stops at the first character or
does not stop. `none` is a loop that has not ended within the given number of rounds.
-/

namespace Comus.Fopen

open Word Option List

def O_CREATE : Nat := 0x01

def O_RDONLY : Nat := 0x02

def O_WRONLY : Nat := 0x04

def O_APPEND : Nat := 0x08

def O_RDWR : Nat := 0x10

/-- The characters of a string, without the null character that ends it. -/
abbrev CString : Type := {s : List UInt8 // 0 ∉ s}

def CString.first (modes : CString) : UInt8 := modes.val.headD 0

def modeFlag (c : UInt8) : Option Nat :=
  if c = 114 then some O_RDONLY
  else if c = 119 then some (O_CREATE ||| O_WRONLY)
  else if c = 97 then some O_APPEND
  else if c = 43 then some O_RDWR
  else none

/-- The loop, with the flags so far: the flags at its end, or the early `return NULL`. -/
def modeLoop (modes : CString) : Nat → Nat → Option (Option Nat)
  | 0, _ => none
  | fuel + 1, flags =>
    if modes.first = 0 then some (some flags)
    else
      match modeFlag modes.first with
      | some flag => modeLoop modes fuel (flags ||| flag)
      | none => some none

/-- What a call has done: the flags it has passed to `open`, if it has called it, and the
stream it returns, null being zero. -/
structure Opened where
  flags : Option Nat
  stream : Nat
  deriving Repr, DecidableEq

def streamOf (fd : Int) : Nat := if fd < 0 then 0 else toU64 fd

def fopen (openFile : List UInt8 → Nat → Int) (filename : List UInt8) (modes : CString) (fuel : Nat) :
    Option Opened :=
  match modeLoop modes fuel 0 with
  | none => none
  | some none => some ⟨none, 0⟩
  | some (some flags) =>
    if flags = 0 then some ⟨none, 0⟩ else some ⟨some flags, streamOf (openFile filename flags)⟩

/-- The flags of a mode string: those of all its characters. There are none for the empty
string and for a string with another character. -/
def modeFlags (modes : CString) : Option Nat :=
  if modes.val = [] then none else (modes.val.mapM modeFlag).map fun flags => flags.foldl (· ||| ·) 0

def openedFor (openFile : List UInt8 → Nat → Int) (filename : List UInt8) (modes : CString) : Opened :=
  match modeFlags modes with
  | none => ⟨none, 0⟩
  | some flags => ⟨some flags, streamOf (openFile filename flags)⟩

variable {modes : CString}

theorem modeLoop_endless {c : UInt8} (hc : modes.val.head? = some c) (hflag : modeFlag c ≠ none)
    (fuel flags : Nat) : modeLoop modes fuel flags = none := by
  have hfirst : modes.first = c := by
    rw [CString.first, headD_eq_head?_getD, hc, getD_some]
  have hmem : c ∈ modes.val := mem_of_mem_head? hc
  have hne : c ≠ 0 := fun h => modes.property (h ▸ hmem)
  obtain ⟨flag, hflag⟩ := ne_none_iff_exists'.mp hflag
  induction fuel generalizing flags with
  | zero => rfl
  | succ fuel ih =>
    -- the next round starts at the same character
    rw [modeLoop, hfirst, if_neg hne, hflag]
    exact ih (flags ||| flag)

/-- The call ends, and opens what the mode string asks for, exactly if the string is empty or
its first character is none of `r`, `w`, `a` and `+`; then it opens nothing. -/
theorem fopen_opens_iff (openFile : List UInt8 → Nat → Int) (filename : List UInt8) (modes : CString) :
    (∃ fuel, fopen openFile filename modes fuel = some (openedFor openFile filename modes)) ↔
      ∀ c, modes.val.head? = some c → modeFlag c = none := by
  constructor
  · rintro ⟨fuel, hrun⟩ c hc
    by_contra hflag
    rw [fopen, modeLoop_endless hc hflag] at hrun
    cases hrun
  · intro hfirst
    refine ⟨1, ?_⟩
    obtain ⟨chars, hchars⟩ := modes
    cases chars with
    | nil => rfl
    | cons c rest =>
      have hflag : modeFlag c = none := hfirst c rfl
      have hne : c ≠ 0 := fun h => hchars (h ▸ mem_cons_self)
      have hnone : openedFor openFile filename ⟨c :: rest, hchars⟩ = ⟨none, 0⟩ := by
        rw [openedFor, modeFlags, if_neg (cons_ne_nil _ _), mapM_cons, hflag]
        rfl
      rw [hnone, fopen, modeLoop, CString.first, headD_cons, if_neg hne, hflag]

def readMode : CString := ⟨[114], by decide⟩

/-- `fopen(filename, "r")` does not return, though the string asks for a file to read. -/
theorem fopen_read_endless : (openedFor (fun _ _ => 3) [97] readMode).flags = some O_RDONLY ∧
    ∀ fuel, fopen (fun _ _ => 3) [97] readMode fuel = none := by
  refine ⟨by decide, fun fuel => ?_⟩
  rw [fopen, modeLoop_endless (c := 114) rfl (by decide)]

end Comus.Fopen
