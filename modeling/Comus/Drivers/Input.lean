import Comus.Lib.Ring

/-!
# Input events (kernel/input.c)

One buffer for keycodes and one for mouse events. The array of the mouse events has
`N_MOUSEEV` entries, but its places are reduced modulo `N_KEYCODE`. A pop that finds its
buffer empty returns 1, here no event.
-/

namespace Comus.Input

open Comus.Ring

def N_KEYCODE : Nat := 64

def N_MOUSEEV : Nat := 64

structure Keycode where
  key : UInt8
  flags : UInt8
  deriving Repr, DecidableEq

structure MouseEvent where
  updated : Bool
  lmb : Bool
  rmb : Bool
  mmb : Bool
  relx : Int
  rely : Int
  deriving Repr, DecidableEq

def keycodeBuffer : Buf Keycode := ⟨fun _ => ⟨0, 0⟩, 0, 0, 0⟩

def keycodePush (b : Buf Keycode) (ev : Keycode) : Option (Buf Keycode) := push N_KEYCODE N_KEYCODE b ev

def keycodePop (b : Buf Keycode) : Option (Option Keycode × Buf Keycode) := pop N_KEYCODE N_KEYCODE b

def keycodeLen (b : Buf Keycode) : Nat := b.len

def mouseEventBuffer : Buf MouseEvent := ⟨fun _ => ⟨false, false, false, false, 0, 0⟩, 0, 0, 0⟩

def mouseEventPush (b : Buf MouseEvent) (ev : MouseEvent) : Option (Buf MouseEvent) :=
  push N_MOUSEEV N_KEYCODE b ev

def mouseEventPop (b : Buf MouseEvent) : Option (Option MouseEvent × Buf MouseEvent) :=
  pop N_MOUSEEV N_KEYCODE b

def mouseEventLen (b : Buf MouseEvent) : Nat := b.len

/-- In every run both buffers are queues of 64 events that drop the oldest one when they are
full: they stay inside their arrays, the pops have the results of the queue, and the lengths
are those of the queue. -/
theorem input_buffers_fifo :
    (∀ ops : List (Op Keycode), ∃ b,
      run keycodePush keycodePop keycodeBuffer ops = some ((queueRun 64 [] ops).1, b) ∧
      keycodeLen b = (queueRun 64 [] ops).2.length) ∧
    ∀ ops : List (Op MouseEvent), ∃ b,
      run mouseEventPush mouseEventPop mouseEventBuffer ops = some ((queueRun 64 [] ops).1, b) ∧
      mouseEventLen b = (queueRun 64 [] ops).2.length := by
  constructor
  · intro ops
    have hempty : Holds N_KEYCODE keycodeBuffer [] := holds_nil (by decide)
    obtain ⟨b, hrun, hb⟩ := hempty.run (le_refl N_KEYCODE) ops
    exact ⟨b, hrun, hb.len⟩
  · intro ops
    have hempty : Holds N_KEYCODE mouseEventBuffer [] := holds_nil (by decide)
    have hsize : N_KEYCODE ≤ N_MOUSEEV := by decide
    obtain ⟨b, hrun, hb⟩ := hempty.run hsize ops
    exact ⟨b, hrun, hb.len⟩

end Comus.Input
