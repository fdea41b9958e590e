import Comus.Drivers.Input

/-!
# The PS/2 keyboard (kernel/drivers/ps2.c)

`ps2kb_recv` is called for each byte. Two flags keep what the bytes 0xF0 and 0xE0 announce
until the code of a key comes. Codes up to 0x84 are looked up, but the plain table ends at
0x83. `none` is a lookup behind the end of a table.
-/

namespace Comus.Keyboard

open Input Option List Function

def KC_FLAG_KEY_DOWN : UInt8 := 0x01
def KC_FLAG_KEY_UP : UInt8 := 0x02
def KC_FLAG_ERROR : UInt8 := 0x04
def KEY_NONE : UInt8 := 0x00
def KEY_UNKNOWN : UInt8 := 0x01
def KEY_ESCAPE : UInt8 := 0x10
def KEY_1 : UInt8 := 0x11
def KEY_2 : UInt8 := 0x12
def KEY_3 : UInt8 := 0x13
def KEY_4 : UInt8 := 0x14
def KEY_5 : UInt8 := 0x15
def KEY_6 : UInt8 := 0x16
def KEY_7 : UInt8 := 0x17
def KEY_8 : UInt8 := 0x18
def KEY_9 : UInt8 := 0x19
def KEY_0 : UInt8 := 0x1A
def KEY_MINUS : UInt8 := 0x1B
def KEY_EQUAL : UInt8 := 0x1C
def KEY_BACKSPACE : UInt8 := 0x1D
def KEY_L_SHIFT : UInt8 := 0x1E
def KEY_R_SHIFT : UInt8 := 0x1F
def KEY_TAB : UInt8 := 0x20
def KEY_Q : UInt8 := 0x21
def KEY_W : UInt8 := 0x22
def KEY_E : UInt8 := 0x23
def KEY_R : UInt8 := 0x24
def KEY_T : UInt8 := 0x25
def KEY_Y : UInt8 := 0x26
def KEY_U : UInt8 := 0x27
def KEY_I : UInt8 := 0x28
def KEY_O : UInt8 := 0x29
def KEY_P : UInt8 := 0x2A
def KEY_L_BRACE : UInt8 := 0x2B
def KEY_R_BRACE : UInt8 := 0x2C
def KEY_BACKSLASH : UInt8 := 0x2D
def KEY_L_CTRL : UInt8 := 0x2E
def KEY_R_CTRL : UInt8 := 0x2F
def KEY_CAPS_LOCK : UInt8 := 0x30
def KEY_A : UInt8 := 0x31
def KEY_S : UInt8 := 0x32
def KEY_D : UInt8 := 0x33
def KEY_F : UInt8 := 0x34
def KEY_G : UInt8 := 0x35
def KEY_H : UInt8 := 0x36
def KEY_J : UInt8 := 0x37
def KEY_K : UInt8 := 0x38
def KEY_L : UInt8 := 0x39
def KEY_SEMICOLON : UInt8 := 0x3A
def KEY_QUOTE : UInt8 := 0x3B
def KEY_ENTER : UInt8 := 0x3C
def KEY_MENU : UInt8 := 0x3D
def KEY_L_ALT : UInt8 := 0x3E
def KEY_R_ALT : UInt8 := 0x3F
def KEY_SPACE : UInt8 := 0x40
def KEY_Z : UInt8 := 0x41
def KEY_X : UInt8 := 0x42
def KEY_C : UInt8 := 0x43
def KEY_V : UInt8 := 0x44
def KEY_B : UInt8 := 0x45
def KEY_N : UInt8 := 0x46
def KEY_M : UInt8 := 0x47
def KEY_COMMA : UInt8 := 0x48
def KEY_PERIOD : UInt8 := 0x49
def KEY_SLASH : UInt8 := 0x4A
def KEY_BACKTICK : UInt8 := 0x4B
def KEY_NUM_LOCK : UInt8 := 0x4C
def KEY_SCROLL_LOCK : UInt8 := 0x4D
def KEY_L_META : UInt8 := 0x4E
def KEY_R_META : UInt8 := 0x4F
def KEY_NP_SLASH : UInt8 := 0x50
def KEY_NP_7 : UInt8 := 0x51
def KEY_NP_8 : UInt8 := 0x52
def KEY_NP_9 : UInt8 := 0x53
def KEY_NP_ASTERISK : UInt8 := 0x54
def KEY_NP_4 : UInt8 := 0x55
def KEY_NP_5 : UInt8 := 0x56
def KEY_NP_6 : UInt8 := 0x57
def KEY_NP_MINUS : UInt8 := 0x58
def KEY_NP_1 : UInt8 := 0x59
def KEY_NP_2 : UInt8 := 0x5A
def KEY_NP_3 : UInt8 := 0x5B
def KEY_NP_PLUS : UInt8 := 0x5C
def KEY_NP_0 : UInt8 := 0x5D
def KEY_NP_PERIOD : UInt8 := 0x5E
def KEY_NP_ENTER : UInt8 := 0x5F
def KEY_PRINT_SCREEN : UInt8 := 0x60
def KEY_INSERT : UInt8 := 0x62
def KEY_HOME : UInt8 := 0x63
def KEY_PAGE_UP : UInt8 := 0x64
def KEY_DELETE : UInt8 := 0x65
def KEY_END : UInt8 := 0x66
def KEY_PAGE_DOWN : UInt8 := 0x67
def KEY_UP : UInt8 := 0x68
def KEY_DOWN : UInt8 := 0x69
def KEY_LEFT : UInt8 := 0x6A
def KEY_RIGHT : UInt8 := 0x6B
def KEY_F1 : UInt8 := 0x70
def KEY_F2 : UInt8 := 0x71
def KEY_F3 : UInt8 := 0x72
def KEY_F4 : UInt8 := 0x73
def KEY_F5 : UInt8 := 0x74
def KEY_F6 : UInt8 := 0x75
def KEY_F7 : UInt8 := 0x76
def KEY_F8 : UInt8 := 0x77
def KEY_F9 : UInt8 := 0x78
def KEY_F10 : UInt8 := 0x79
def KEY_F11 : UInt8 := 0x7A
def KEY_F12 : UInt8 := 0x7B

def scancodes : List UInt8 :=
  [ KEY_NONE, KEY_F9, KEY_NONE, KEY_F5, KEY_F3,
    KEY_F1, KEY_F2, KEY_F12, KEY_NONE, KEY_F10,
    KEY_F8, KEY_F6, KEY_F4, KEY_TAB, KEY_BACKTICK,
    KEY_NONE, KEY_NONE, KEY_L_ALT, KEY_L_SHIFT, KEY_NONE,
    KEY_L_CTRL, KEY_Q, KEY_1, KEY_NONE, KEY_NONE,
    KEY_NONE, KEY_Z, KEY_S, KEY_A, KEY_W,
    KEY_2, KEY_NONE, KEY_NONE, KEY_C, KEY_X,
    KEY_D, KEY_E, KEY_4, KEY_3, KEY_NONE,
    KEY_NONE, KEY_SPACE, KEY_V, KEY_F, KEY_T,
    KEY_R, KEY_5, KEY_NONE, KEY_NONE, KEY_N,
    KEY_B, KEY_H, KEY_G, KEY_Y, KEY_6,
    KEY_NONE, KEY_NONE, KEY_NONE, KEY_M, KEY_J,
    KEY_U, KEY_7, KEY_8, KEY_NONE, KEY_NONE,
    KEY_COMMA, KEY_K, KEY_I, KEY_O, KEY_0,
    KEY_9, KEY_NONE, KEY_NONE, KEY_PERIOD, KEY_SLASH,
    KEY_L, KEY_SEMICOLON, KEY_P, KEY_MINUS, KEY_NONE,
    KEY_NONE, KEY_NONE, KEY_QUOTE, KEY_NONE, KEY_L_BRACE,
    KEY_EQUAL, KEY_NONE, KEY_NONE, KEY_CAPS_LOCK, KEY_R_SHIFT,
    KEY_ENTER, KEY_R_BRACE, KEY_NONE, KEY_BACKSLASH, KEY_NONE,
    KEY_NONE, KEY_NONE, KEY_NONE, KEY_NONE, KEY_NONE,
    KEY_NONE, KEY_NONE, KEY_BACKSPACE, KEY_NONE, KEY_NONE,
    KEY_NP_1, KEY_NONE, KEY_NP_4, KEY_NP_7, KEY_NONE,
    KEY_NONE, KEY_NONE, KEY_NP_0, KEY_NP_PERIOD, KEY_NP_2,
    KEY_NP_5, KEY_NP_6, KEY_NP_8, KEY_ESCAPE, KEY_NUM_LOCK,
    KEY_F11, KEY_NP_PLUS, KEY_NP_3, KEY_NP_MINUS, KEY_NP_ASTERISK,
    KEY_NP_9, KEY_SCROLL_LOCK, KEY_NONE, KEY_NONE, KEY_NONE,
    KEY_NONE, KEY_F7 ]

def scancodesExt : List UInt8 :=
  [ KEY_NONE, KEY_NONE, KEY_NONE, KEY_NONE, KEY_NONE,
    KEY_NONE, KEY_NONE, KEY_NONE, KEY_NONE, KEY_NONE,
    KEY_NONE, KEY_NONE, KEY_NONE, KEY_NONE, KEY_NONE,
    KEY_NONE, KEY_UNKNOWN, KEY_R_ALT, KEY_PRINT_SCREEN, KEY_NONE,
    KEY_R_CTRL, KEY_UNKNOWN, KEY_NONE, KEY_NONE, KEY_UNKNOWN,
    KEY_NONE, KEY_NONE, KEY_NONE, KEY_NONE, KEY_NONE,
    KEY_NONE, KEY_L_META, KEY_UNKNOWN, KEY_UNKNOWN, KEY_NONE,
    KEY_UNKNOWN, KEY_NONE, KEY_NONE, KEY_NONE, KEY_R_META,
    KEY_UNKNOWN, KEY_NONE, KEY_NONE, KEY_UNKNOWN, KEY_NONE,
    KEY_NONE, KEY_NONE, KEY_MENU, KEY_UNKNOWN, KEY_NONE,
    KEY_UNKNOWN, KEY_NONE, KEY_UNKNOWN, KEY_NONE, KEY_NONE,
    KEY_UNKNOWN, KEY_UNKNOWN, KEY_NONE, KEY_UNKNOWN, KEY_UNKNOWN,
    KEY_NONE, KEY_NONE, KEY_NONE, KEY_UNKNOWN, KEY_UNKNOWN,
    KEY_NONE, KEY_NONE, KEY_NONE, KEY_NONE, KEY_NONE,
    KEY_NONE, KEY_NONE, KEY_UNKNOWN, KEY_NONE, KEY_NP_SLASH,
    KEY_NONE, KEY_NONE, KEY_UNKNOWN, KEY_NONE, KEY_NONE,
    KEY_UNKNOWN, KEY_NONE, KEY_NONE, KEY_NONE, KEY_NONE,
    KEY_NONE, KEY_NONE, KEY_NONE, KEY_NONE, KEY_NONE,
    KEY_NP_ENTER, KEY_NONE, KEY_NONE, KEY_NONE, KEY_UNKNOWN,
    KEY_NONE, KEY_NONE, KEY_NONE, KEY_NONE, KEY_NONE,
    KEY_NONE, KEY_NONE, KEY_NONE, KEY_NONE, KEY_NONE,
    KEY_END, KEY_NONE, KEY_LEFT, KEY_HOME, KEY_NONE,
    KEY_NONE, KEY_NONE, KEY_INSERT, KEY_DELETE, KEY_DOWN,
    KEY_NONE, KEY_RIGHT, KEY_UP, KEY_NONE, KEY_NONE,
    KEY_NONE, KEY_NONE, KEY_PAGE_DOWN, KEY_NONE, KEY_NONE,
    KEY_PAGE_UP, KEY_NONE, KEY_NONE, KEY_NONE, KEY_NONE,
    KEY_NONE, KEY_NONE, KEY_NONE, KEY_NONE, KEY_NONE,
    KEY_NONE ]

/-- The static variables; `keycode` is the one of `ps2kb_recv`. -/
structure Kbd where
  hasKbd : Bool
  stateKeyup : Bool
  stateExt : Bool
  keycode : Keycode
  deriving Repr, DecidableEq

def scancodeTable (ext : Bool) : List UInt8 := if ext then scancodesExt else scancodes

def keyFlags (keyup : Bool) : UInt8 := if keyup then KC_FLAG_KEY_UP else KC_FLAG_KEY_DOWN

def ps2kbRecv (s : Kbd) (code : UInt8) : Option (Kbd × List Keycode) :=
  if !s.hasKbd then some (s, [])
  else if code = 0x00 ∨ code = 0x0F then some ({ s with keycode := ⟨KEY_NONE, KC_FLAG_ERROR⟩ }, [])
  else if code = 0xF0 then some ({ s with stateKeyup := true }, [])
  else if code = 0xE0 then some ({ s with stateExt := true }, [])
  else if code ≤ 0x84 then
    match (scancodeTable s.stateExt)[code.toNat]? with
    | none => none
    | some kcode =>
      if kcode ≠ KEY_NONE then
        some ({ s with keycode := ⟨kcode, keyFlags s.stateKeyup⟩, stateKeyup := false, stateExt := false },
          [⟨kcode, keyFlags s.stateKeyup⟩])
      else some ({ s with stateKeyup := false, stateExt := false }, [])
  else some (s, [])

def recvAll : Kbd → List UInt8 → Option (Kbd × List Keycode)
  | s, [] => some (s, [])
  | s, code :: codes =>
    (ps2kbRecv s code).bind fun r => (recvAll r.1 codes).map fun rs => (rs.1, r.2 ++ rs.2)

def IsKey (code : UInt8) : Prop := code ≤ 0x84 ∧ code ≠ 0x00 ∧ code ≠ 0x0F

instance (code : UInt8) : Decidable (IsKey code) := inferInstanceAs (Decidable (_ ∧ _))

structure KeySeq where
  ext : Bool
  up : Bool
  code : UInt8
  isKey : IsKey code

def KeySeq.bytes (q : KeySeq) : List UInt8 :=
  (if q.ext then [0xE0] else []) ++ (if q.up then [0xF0] else []) ++ [q.code]

def KeySeq.events (q : KeySeq) : List Keycode :=
  match (scancodeTable q.ext)[q.code.toNat]? with
  | none => []
  | some kcode => if kcode ≠ KEY_NONE then [⟨kcode, keyFlags q.up⟩] else []

def nextExt (ext : Bool) (code : UInt8) : Bool :=
  if code = 0xE0 then true else if IsKey code then false else ext

def extPending (codes : List UInt8) : Bool := codes.foldl nextExt false

variable {s t : Kbd} {code : UInt8} {codes : List UInt8} {evs : List Keycode}

theorem scancodes_length : scancodes.length = 0x84 := by decide +kernel

theorem scancodesExt_length : scancodesExt.length = 0x88 := by decide +kernel

theorem scancodeTable_none_iff (ext : Bool) (hcode : code ≤ 0x84) :
    (scancodeTable ext)[code.toNat]? = none ↔ code = 0x84 ∧ ext = false := by
  have hle : code.toNat ≤ 0x84 := hcode
  have heq : code = 0x84 ↔ code.toNat = 0x84 := by
    rw [← UInt8.toNat_inj]
    rfl
  rw [List.getElem?_eq_none_iff, heq]
  cases ext with
  | false =>
    rw [scancodeTable, if_neg (by decide), scancodes_length]
    simp only [and_true]
    omega
  | true =>
    rw [scancodeTable, if_pos rfl, scancodesExt_length]
    simp only [Bool.true_eq_false, and_false, iff_false]
    omega

theorem IsKey.ne_announce (h : IsKey code) : code ≠ 0xF0 ∧ code ≠ 0xE0 := by
  constructor
  · rintro rfl
    exact absurd h.1 (by decide)
  · rintro rfl
    exact absurd h.1 (by decide)

def Kbd.released (s : Kbd) (keycode : Keycode) : Kbd :=
  { s with keycode := keycode, stateKeyup := false, stateExt := false }

section Ready

variable (hkbd : s.hasKbd = true)
include hkbd

theorem ps2kbRecv_keyup : ps2kbRecv s 0xF0 = some ({ s with stateKeyup := true }, []) := by
  rw [ps2kbRecv, hkbd]
  rfl

theorem ps2kbRecv_ext : ps2kbRecv s 0xE0 = some ({ s with stateExt := true }, []) := by
  rw [ps2kbRecv, hkbd]
  rfl

theorem ps2kbRecv_key (hkey : IsKey code) : ps2kbRecv s code =
    (scancodeTable s.stateExt)[code.toNat]?.map fun kcode =>
      if kcode ≠ KEY_NONE then
        (s.released ⟨kcode, keyFlags s.stateKeyup⟩, [⟨kcode, keyFlags s.stateKeyup⟩])
      else (s.released s.keycode, []) := by
  have hcode : ¬ (code = 0x00 ∨ code = 0x0F) := fun h => h.elim hkey.2.1 hkey.2.2
  obtain ⟨hup, hext⟩ := hkey.ne_announce
  have hon : ¬ (!s.hasKbd) = true := by simp [hkbd]
  rw [ps2kbRecv, if_neg hon, if_neg hcode, if_neg hup, if_neg hext, if_pos hkey.1]
  cases (scancodeTable s.stateExt)[code.toNat]? with
  | none => rfl
  | some kcode =>
    rw [map_some]
    dsimp only
    split_ifs <;> rfl

theorem ps2kbRecv_other (hkey : ¬ IsKey code) (hup : code ≠ 0xF0) (hext : code ≠ 0xE0) :
    ∃ keycode, ps2kbRecv s code = some ({ s with keycode := keycode }, []) := by
  have hon : ¬ (!s.hasKbd) = true := by simp [hkbd]
  rw [ps2kbRecv, if_neg hon]
  by_cases hcode : code = 0x00 ∨ code = 0x0F
  · rw [if_pos hcode]
    exact ⟨_, rfl⟩
  · rw [not_or] at hcode
    have hbig : ¬ code ≤ 0x84 := fun hle => hkey ⟨hle, hcode.1, hcode.2⟩
    rw [if_neg (not_or.mpr hcode), if_neg hup, if_neg hext, if_neg hbig]
    exact ⟨s.keycode, rfl⟩

/-- The only lookup outside of its table is that of 0x84 in the plain one. -/
theorem ps2kbRecv_none_iff : ps2kbRecv s code = none ↔ code = 0x84 ∧ s.stateExt = false := by
  have hlast : IsKey 0x84 := by decide
  by_cases hkey : IsKey code
  · rw [ps2kbRecv_key hkbd hkey, map_eq_none_iff, scancodeTable_none_iff _ hkey.1]
  · have hne : code ≠ 0x84 := fun h => hkey (h ▸ hlast)
    refine ⟨fun hnone => ?_, fun h => absurd h.1 hne⟩
    exfalso
    by_cases hup : code = 0xF0
    · rw [hup, ps2kbRecv_keyup hkbd] at hnone
      cases hnone
    · by_cases hext : code = 0xE0
      · rw [hext, ps2kbRecv_ext hkbd] at hnone
        cases hnone
      · obtain ⟨keycode, hrun⟩ := ps2kbRecv_other hkbd hkey hup hext
        rw [hrun] at hnone
        cases hnone

theorem ps2kbRecv_state (hrun : ps2kbRecv s code = some (t, evs)) :
    t.hasKbd = true ∧ t.stateExt = nextExt s.stateExt code := by
  unfold nextExt
  by_cases hkey : IsKey code
  · rw [ps2kbRecv_key hkbd hkey] at hrun
    obtain ⟨kcode, -, heq⟩ := map_eq_some_iff.mp hrun
    rw [if_neg hkey.ne_announce.2, if_pos hkey]
    split_ifs at heq
    · rw [← (Prod.mk.inj heq).1]
      exact ⟨hkbd, rfl⟩
    · rw [← (Prod.mk.inj heq).1]
      exact ⟨hkbd, rfl⟩
  · by_cases hext : code = 0xE0
    · rw [hext, ps2kbRecv_ext hkbd] at hrun
      rw [if_pos hext, ← (Prod.mk.inj (some.inj hrun)).1]
      exact ⟨hkbd, rfl⟩
    · rw [if_neg hext, if_neg hkey]
      by_cases hup : code = 0xF0
      · rw [hup, ps2kbRecv_keyup hkbd] at hrun
        rw [← (Prod.mk.inj (some.inj hrun)).1]
        exact ⟨hkbd, rfl⟩
      · obtain ⟨keycode, heq⟩ := ps2kbRecv_other hkbd hkey hup hext
        rw [heq] at hrun
        rw [← (Prod.mk.inj (some.inj hrun)).1]
        exact ⟨hkbd, rfl⟩

theorem recvAll_isSome_iff : recvAll s codes ≠ none ↔
    ∀ before after, codes = before ++ 0x84 :: after → before.foldl nextExt s.stateExt = true := by
  induction codes generalizing s with
  | nil => simp [recvAll]
  | cons code codes ih =>
    rw [recvAll]
    cases hrun : ps2kbRecv s code with
    | none =>
      obtain ⟨rfl, hplain⟩ := (ps2kbRecv_none_iff hkbd).mp hrun
      rw [bind_none]
      refine ⟨fun h => absurd rfl h, fun h => ?_⟩
      have hfirst := h [] codes rfl
      rw [foldl_nil, hplain] at hfirst
      cases hfirst
    | some r =>
      obtain ⟨t, evs⟩ := r
      obtain ⟨hkbd', hstate⟩ := ps2kbRecv_state hkbd hrun
      have hok : ¬ (code = 0x84 ∧ s.stateExt = false) := by
        rw [← ps2kbRecv_none_iff hkbd, hrun]
        exact some_ne_none _
      rw [bind_some, ne_eq, map_eq_none_iff, ← ne_eq, ih hkbd', hstate]
      constructor
      · intro h before after heq
        cases before with
        | nil =>
          rw [nil_append] at heq
          rw [foldl_nil]
          by_contra hplain
          exact hok ⟨(cons.inj heq).1, Bool.eq_false_iff.mpr hplain⟩
        | cons c before =>
          obtain ⟨rfl, hrest⟩ := cons.inj heq
          exact h before after hrest
      · intro h before after heq
        exact h (code :: before) after (by rw [heq, cons_append])

end Ready

theorem recvAll_append (s : Kbd) (as bs : List UInt8) : recvAll s (as ++ bs) =
    (recvAll s as).bind fun r => (recvAll r.1 bs).map fun rs => (rs.1, r.2 ++ rs.2) := by
  induction as generalizing s with
  | nil => simp [recvAll]
  | cons code as ih =>
    rw [cons_append, recvAll, recvAll]
    cases ps2kbRecv s code with
    | none => rfl
    | some r =>
      rw [bind_some, bind_some, ih]
      cases recvAll r.1 as with
      | none => rfl
      | some r' =>
        simp only [bind_some, map_some, Option.map_map, comp_def, append_assoc]

structure Idle (s : Kbd) : Prop where
  kbd : s.hasKbd = true
  keyup : s.stateKeyup = false
  ext : s.stateExt = false

theorem Idle.recv_bytes (h : Idle s) (q : KeySeq) :
    recvAll s q.bytes = ps2kbRecv { s with stateKeyup := q.up, stateExt := q.ext } q.code := by
  obtain ⟨kbd, keyup, ext, keycode⟩ := s
  obtain ⟨rfl, rfl, rfl⟩ := h
  obtain ⟨ext, up, code, hkey⟩ := q
  cases ext <;> cases up <;>
    simp [KeySeq.bytes, recvAll, ps2kbRecv_keyup, ps2kbRecv_ext, comp_def]

theorem Idle.recv_seq (h : Idle s) {q : KeySeq} (hq : q.code = 0x84 → q.ext = true) :
    ∃ t, recvAll s q.bytes = some (t, q.events) ∧ Idle t := by
  obtain ⟨kcode, hentry⟩ : ∃ kcode, (scancodeTable q.ext)[q.code.toNat]? = some kcode := by
    refine ne_none_iff_exists'.mp fun hnone => ?_
    obtain ⟨hlast, hplain⟩ := (scancodeTable_none_iff q.ext q.isKey.1).mp hnone
    rw [hq hlast] at hplain
    cases hplain
  have hkbd : ({ s with stateKeyup := q.up, stateExt := q.ext } : Kbd).hasKbd = true := h.kbd
  rw [h.recv_bytes, ps2kbRecv_key hkbd q.isKey, KeySeq.events, hentry, map_some]
  dsimp only
  split_ifs
  · exact ⟨_, rfl, h.kbd, rfl, rfl⟩
  · exact ⟨_, rfl, h.kbd, rfl, rfl⟩

theorem Idle.recv_outside (h : Idle s) {q : KeySeq} (hlast : q.code = 0x84) (hplain : q.ext = false) :
    recvAll s q.bytes = none := by
  have hkbd : ({ s with stateKeyup := q.up, stateExt := q.ext } : Kbd).hasKbd = true := h.kbd
  rw [h.recv_bytes]
  exact (ps2kbRecv_none_iff hkbd).mpr ⟨hlast, hplain⟩

theorem Idle.recv_seqs (h : Idle s) (qs : List KeySeq) :
    (∃ t, recvAll s (qs.flatMap KeySeq.bytes) = some (t, qs.flatMap KeySeq.events) ∧ Idle t) ↔
      ∀ q ∈ qs, q.code = 0x84 → q.ext = true := by
  induction qs generalizing s with
  | nil => exact ⟨fun _ q hq => absurd hq not_mem_nil, fun _ => ⟨s, rfl, h⟩⟩
  | cons q qs ih =>
    rw [flatMap_cons, flatMap_cons, recvAll_append, forall_mem_cons]
    by_cases hq : q.code = 0x84 → q.ext = true
    · obtain ⟨t, hseq, ht⟩ := h.recv_seq hq
      rw [hseq, bind_some, and_iff_right hq, ← ih ht]
      constructor
      · rintro ⟨u, hrun, hu⟩
        obtain ⟨⟨u', evs⟩, hrest, heq⟩ := map_eq_some_iff.mp hrun
        obtain ⟨rfl, hevs⟩ := Prod.mk.inj heq
        obtain rfl : evs = qs.flatMap KeySeq.events := append_cancel_left hevs
        exact ⟨u', hrest, hu⟩
      · rintro ⟨u, hrun, hu⟩
        refine ⟨u, ?_, hu⟩
        rw [hrun]
        rfl
    · obtain ⟨hlast, hplain⟩ := Classical.not_imp.mp hq
      rw [h.recv_outside hlast (Bool.eq_false_iff.mpr hplain), bind_none]
      constructor
      · rintro ⟨t, hrun, -⟩
        cases hrun
      · exact fun hall => absurd hall.1 hq

def ready (keycode : Keycode) : Kbd := ⟨true, false, false, keycode⟩

/-- Every lookup of a stream is inside its table exactly if no 0x84 comes for the plain table.
A stream of key sequences gives its events in order, and announces nothing to what follows,
exactly if each sequence with the code 0x84 is an extended one. -/
theorem ps2kb_decodes_iff (keycode : Keycode) :
    (∀ codes, recvAll (ready keycode) codes ≠ none ↔
      ∀ before after, codes = before ++ 0x84 :: after → extPending before = true) ∧
    ∀ qs : List KeySeq,
      (∃ t, recvAll (ready keycode) (qs.flatMap KeySeq.bytes) = some (t, qs.flatMap KeySeq.events) ∧ Idle t) ↔
        ∀ q ∈ qs, q.code = 0x84 → q.ext = true := by
  have hidle : Idle (ready keycode) := ⟨rfl, rfl, rfl⟩
  exact ⟨fun codes => recvAll_isSome_iff hidle.kbd, hidle.recv_seqs⟩

/-- The byte 0x84 alone reads behind the plain table. -/
theorem ps2kb_reads_behind : IsKey 0x84 ∧ scancodes.length = 0x84 ∧
    recvAll (ready ⟨0, 0⟩) [0x84] = none := by
  decide +kernel

end Comus.Keyboard
