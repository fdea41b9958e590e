import Comus.Klib.Printf

/-!
# The output of a call of kprintf.c

A run is the list of its effects. What the effects do to a buffer depends only on the
characters printed so far, with and without a limit.
-/

namespace Comus.Printf

open Word Bytes Klib Option List

variable {E : Env} {fmt out : List UInt8} {es : List Effect} {m : Memory} {s maxlen : Nat}

def effects (E : Env) : Nat → List UInt8 → Nat → Except Fault (List Effect)
  | 0, _, _ => .error .format
  | fuel + 1, fmt, i =>
    match round E fmt i with
    | .error fault => .error fault
    | .ok none => .ok []
    | .ok (some (effect, rest, i)) => (effects E fuel rest i).map (effect :: ·)

theorem rounds_eq (fuel : Nat) (fmt : List UInt8) (i : Nat) (ctx : Context) :
    rounds E fuel fmt i ctx = (effects E fuel fmt i).map (foldl Context.apply ctx) := by
  induction fuel generalizing fmt i ctx with
  | zero => rfl
  | succ fuel ih =>
    rw [rounds, effects]
    rcases round E fmt i with fault | _ | ⟨effect, rest, j⟩
    · rfl
    · rfl
    · show rounds E fuel rest j (ctx.apply effect) = Except.map _ (Except.map _ (effects E fuel rest j))
      rw [ih]
      rcases effects E fuel rest j with fault | es
      · rfl
      · rfl

def Effect.text : Effect → List UInt8
  | .chars cs => cs
  | .count _ => []
  | .smash => []

def printed (es : List Effect) : List UInt8 := es.flatMap Effect.text

def Uncounted (es : List Effect) : Prop := ∀ bad, Effect.count bad ∉ es

structure Sink (after : Bool → List UInt8 → Context) : Prop where
  putc : ∀ smashed out c, printfPutc (after smashed out) c = after smashed (out ++ [c])
  smash : ∀ smashed out, (after smashed out).apply .smash = after true out

theorem Sink.foldl_putc {after : Bool → List UInt8 → Context} (h : Sink after) (smashed : Bool)
    (out cs : List UInt8) : cs.foldl printfPutc (after smashed out) = after smashed (out ++ cs) := by
  induction cs generalizing out with
  | nil => rw [foldl_nil, append_nil]
  | cons c cs ih =>
    rw [foldl_cons, h.putc, ih, append_assoc]
    rfl

theorem Sink.foldl_apply {after : Bool → List UInt8 → Context} (h : Sink after) (hcount : Uncounted es)
    (smashed : Bool) (out : List UInt8) :
    es.foldl Context.apply (after smashed out) = after (smashed || decide (Effect.smash ∈ es)) (out ++ printed es) := by
  induction es generalizing smashed out with
  | nil => simp [printed]
  | cons e es ih =>
    have hrest : Uncounted es := fun bad hmem => hcount bad (mem_cons_of_mem _ hmem)
    rw [foldl_cons]
    rcases e with cs | bad | _
    · rw [Context.apply, h.foldl_putc, ih hrest]
      simp [printed, Effect.text]
    · exact absurd mem_cons_self (hcount bad)
    · rw [h.smash, ih hrest]
      simp [printed, Effect.text]

def kept (limit : Option Nat) (n : Nat) : Nat :=
  match limit with
  | none => n
  | some maxlen => min n maxlen

def buffered (limit : Option Nat) (s : Nat) (m : Memory) (smashed : Bool) (out : List UInt8) : Context where
  maxLen := limit.getD 0
  hasMaxLen := limit.isSome
  writtenLen := u64 (kept limit out.length)
  possibleWrittenLen := u64 out.length
  sprintf := true
  sprintfBuf := s + kept limit out.length
  mem := write m s (out.take (kept limit out.length))
  smashed := smashed

variable {limit : Option Nat} {smashed : Bool}

theorem u64_succ (n : Nat) : u64 (u64 n + 1) = u64 (n + 1) := by
  unfold u64
  omega

theorem printfPutc_full (hlimit : limit = some maxlen) (hmax : maxlen < 2^64) (hfull : maxlen ≤ out.length)
    (c : UInt8) : printfPutc (buffered limit s m smashed out) c = buffered limit s m smashed (out ++ [c]) := by
  subst hlimit
  have hold : kept (some maxlen) out.length = maxlen := min_eq_right hfull
  have hnew : kept (some maxlen) (out.length + 1) = maxlen := min_eq_right (by omega)
  have hge : u64 maxlen ≥ maxlen := (u64_of_lt hmax).ge
  simp only [printfPutc, buffered, hold, hnew, isSome_some, getD_some, hge, and_self, if_true,
    u64_succ, length_append, length_singleton, take_append_of_le_length hfull]

theorem printfPutc_room (hlimit : ∀ n, limit = some n → n < 2^64 ∧ out.length < n) (c : UInt8) :
    printfPutc (buffered limit s m smashed out) c = buffered limit s m smashed (out ++ [c]) := by
  have hkept : kept limit out.length = out.length ∧ kept limit (out.length + 1) = out.length + 1 := by
    unfold kept
    rcases limit with _ | n
    · exact ⟨rfl, rfl⟩
    · have hn := hlimit n rfl
      exact ⟨min_eq_left (by omega), min_eq_left (by omega)⟩
  have hopen : ¬ (limit.isSome = true ∧ u64 out.length ≥ limit.getD 0) := by
    rintro ⟨hsome, hge⟩
    obtain ⟨n, rfl⟩ := isSome_iff_exists.mp hsome
    obtain ⟨hn, hlt⟩ := hlimit n rfl
    rw [u64_of_lt (by omega), getD_some] at hge
    omega
  have hall : (out ++ [c]).take (out.length + 1) = out ++ [c] := take_of_length_le (by simp)
  simp only [printfPutc, buffered, hkept, if_neg hopen, if_true, u64_succ, length_append,
    length_singleton, take_length, hall, write_concat, add_assoc]

theorem printfPutc_buffered (hlimit : ∀ n, limit = some n → n < 2^64) (c : UInt8) :
    printfPutc (buffered limit s m smashed out) c = buffered limit s m smashed (out ++ [c]) := by
  rcases limit with _ | n
  · exact printfPutc_room (by simp) c
  · have hn := hlimit n rfl
    rcases lt_or_ge out.length n with hlt | hge
    · refine printfPutc_room ?_ c
      intro k hk
      cases hk
      exact ⟨hn, hlt⟩
    · exact printfPutc_full rfl hn hge c

theorem buffered_sink (hlimit : ∀ n, limit = some n → n < 2^64) (s : Nat) (m : Memory) : Sink (buffered limit s m) :=
  ⟨fun _ _ c => printfPutc_buffered hlimit c, fun _ _ => rfl⟩

theorem toI32_lengths (n : Nat) : toI32 (toU64 (toI32 (u64 n))) = toI32 n := by
  unfold toI32 toU64 u64
  split_ifs <;> omega

theorem terminate_buffered (hlimit : ∀ n, limit = some n → n < 2^64) (s : Nat) (m : Memory) (smashed : Bool)
    (out : List UInt8) :
    (terminate (buffered limit s m smashed out)).mem = write m s ((out ++ [0]).take (kept limit (out.length + 1))) ∧
    (terminate (buffered limit s m smashed out)).smashed = smashed ∧
    toI32 (terminate (buffered limit s m smashed out)).writtenLen = toI32 (kept limit out.length) ∧
    toI32 (terminate (buffered limit s m smashed out)).possibleWrittenLen = toI32 out.length := by
  have hterm : terminate (buffered limit s m smashed out) =
      { printfPutc (buffered limit s m smashed out) 0 with
        writtenLen := toU64 (toI32 (u64 (kept limit out.length)))
        possibleWrittenLen := toU64 (toI32 (u64 out.length)) } := rfl
  rw [hterm, printfPutc_buffered hlimit]
  refine ⟨?_, rfl, toI32_lengths _, toI32_lengths _⟩
  show write m s ((out ++ [0]).take (kept limit (out ++ [0]).length)) = _
  rw [length_append, length_singleton]

def run (E : Env) (fmt : List UInt8) : Except Fault (List Effect) := effects E fmt.length fmt 0

theorem doPrintf_eq (E : Env) (fmt : List UInt8) (ctx : Context) :
    doPrintf E fmt ctx = (run E fmt).map fun es => terminate (es.foldl Context.apply ctx) := by
  unfold doPrintf run
  rw [rounds_eq]
  rcases effects E fmt.length fmt 0 with fault | es
  · rfl
  · rfl

theorem kvsprintf_eq (hrun : run E fmt = .ok es) (hcount : Uncounted es) (s : Nat) (m : Memory) : ∃ ctx,
    kvsprintf E s fmt m = .ok (toI32 (printed es).length, ctx) ∧ ctx.mem = write m s (printed es ++ [0]) ∧
    ctx.smashed = decide (Effect.smash ∈ es) := by
  have hnone : ∀ n, (none : Option Nat) = some n → n < 2^64 := by simp
  have hstart : ({ mem := m, sprintfBuf := s, sprintf := true } : Context) = buffered none s m false [] := by
    simp [buffered, kept, u64]
  have hterm := terminate_buffered hnone s m (decide (Effect.smash ∈ es)) (printed es)
  refine ⟨terminate (buffered none s m (decide (Effect.smash ∈ es)) (printed es)), ?_, ?_, hterm.2.1⟩
  · rw [kvsprintf, doPrintf_eq, hrun, hstart]
    simp only [Except.map, (buffered_sink hnone s m).foldl_apply hcount, Bool.false_or, nil_append, hterm.2.2.1, kept]
  · rw [hterm.1, kept, take_of_length_le (by simp)]

theorem kvsnprintf_eq (hmax : maxlen < 2^64) (hrun : run E fmt = .ok es) (hcount : Uncounted es) (s : Nat)
    (m : Memory) : ∃ ctx, kvsnprintf E s maxlen fmt m = .ok (toI32 (printed es).length, ctx) ∧
      ctx.mem = write m s ((printed es ++ [0]).take (min ((printed es).length + 1) maxlen)) ∧
      ctx.smashed = decide (Effect.smash ∈ es) := by
  have hlimit : ∀ n, some maxlen = some n → n < 2^64 := by
    rintro n ⟨⟩
    exact hmax
  have hstart : ({ mem := m, sprintfBuf := s, sprintf := true, hasMaxLen := true, maxLen := maxlen } : Context) =
      buffered (some maxlen) s m false [] := by
    simp [buffered, kept, u64]
  have hterm := terminate_buffered hlimit s m (decide (Effect.smash ∈ es)) (printed es)
  refine ⟨terminate (buffered (some maxlen) s m (decide (Effect.smash ∈ es)) (printed es)), ?_, hterm.1, hterm.2.1⟩
  rw [kvsnprintf, doPrintf_eq, hrun, hstart]
  simp only [Except.map, (buffered_sink hlimit s m).foldl_apply hcount, Bool.false_or, nil_append, hterm.2.2.2]

def shownOn (m : Memory) (smashed : Bool) (out : List UInt8) : Context where
  writtenLen := u64 out.length
  possibleWrittenLen := u64 out.length
  mem := m
  console := out
  smashed := smashed

theorem shownOn_sink (m : Memory) : Sink (shownOn m) :=
  ⟨fun _ _ _ => by simp [printfPutc, shownOn, u64_succ], fun _ _ => rfl⟩

/-- `kvprintf` sends to the console what `kvsprintf` writes, without the terminator. -/
theorem kvprintf_eq (hrun : run E fmt = .ok es) (hcount : Uncounted es) (m : Memory) :
    kvprintf E fmt m = .ok (toI32 (u64 (printed es).length),
      shownOn m (decide (Effect.smash ∈ es)) (printed es)) := by
  have hstart : ({ mem := m } : Context) = shownOn m false [] := by
    simp [shownOn, u64]
  rw [kvprintf, doPrintf_eq, hrun, hstart]
  simp only [Except.map, (shownOn_sink m).foldl_apply hcount, Bool.false_or, nil_append]
  rfl

def Prints (E : Env) (fmt out : List UInt8) : Prop := ∀ s m, ∃ r ctx,
  kvsprintf E s fmt m = .ok (r, ctx) ∧ ctx.smashed = false ∧ ctx.mem = write m s (out ++ [0])

/-- `kvsnprintf` as it is meant: it keeps to its `maxlen` bytes, which hold as much of the
output as there is room for and a terminator, and returns the length of the output. -/
def Bounded (E : Env) (s maxlen : Nat) (fmt : List UInt8) (m : Memory) : Prop := ∃ out, Prints E fmt out ∧
  ∃ r ctx, kvsnprintf E s maxlen fmt m = .ok (r, ctx) ∧ ctx.smashed = false ∧
    (∀ a, a < s ∨ s + maxlen ≤ a → ctx.mem a = m a) ∧
    (∀ j, j < min out.length (maxlen - 1) → ctx.mem (s + j) = out.getD j 0) ∧
    ctx.mem (s + min out.length (maxlen - 1)) = 0 ∧ r = out.length

theorem write_text_inj {out out' : List UInt8} (h : ∀ m, write m s (out ++ [0]) = write m s (out' ++ [0])) :
    out = out' := by
  have hshort : ∀ {a b : List UInt8}, (∀ m, write m s (a ++ [0]) = write m s (b ++ [0])) → b.length ≤ a.length := by
    intro a b hab
    by_contra hlt
    -- the terminator of the longer text lies behind the shorter one
    have hat := congrFun (hab fun _ => 1) (s + b.length)
    rw [write_outside (.inr (by simp; omega)), write_at (by simp), getD_append_right _ _ _ _ le_rfl,
      tsub_self] at hat
    cases hat
  have hlen : out.length = out'.length := le_antisymm (hshort fun m => (h m).symm) (hshort h)
  have hslice : slice (write (fun _ => 0) s (out ++ [0])) s (out ++ [0]).length = out ++ [0] := slice_write
  have hsame : (out ++ [0]).length = (out' ++ [0]).length := by simp [hlen]
  rw [h, hsame, slice_write] at hslice
  exact (append_left_injective [0] hslice).symm

theorem prints_iff (hcount : ∀ es, run E fmt = .ok es → Uncounted es) :
    Prints E fmt out ↔ ∃ es, run E fmt = .ok es ∧ Effect.smash ∉ es ∧ printed es = out := by
  constructor
  · intro h
    rcases hrun : run E fmt with fault | es
    · obtain ⟨r, ctx, hcall, -⟩ := h 0 fun _ => 0
      rw [kvsprintf, doPrintf_eq, hrun] at hcall
      exact absurd hcall (by simp [Except.map])
    · have hone : ∀ m, Effect.smash ∉ es ∧ write m 0 (printed es ++ [0]) = write m 0 (out ++ [0]) := by
        intro m
        obtain ⟨r, ctx, hcall, hsmashed, hmem⟩ := h 0 m
        obtain ⟨ctx', hcall', hmem', hsmashed'⟩ := kvsprintf_eq hrun (hcount es hrun) 0 m
        rw [hcall'] at hcall
        cases hcall
        refine ⟨?_, hmem'.symm.trans hmem⟩
        rwa [hsmashed', decide_eq_false_iff_not] at hsmashed
      exact ⟨es, rfl, (hone fun _ => 0).1, write_text_inj fun m => (hone m).2⟩
  · rintro ⟨es, hrun, hsmash, rfl⟩ s m
    obtain ⟨ctx, hcall, hmem, hsmashed⟩ := kvsprintf_eq hrun (hcount es hrun) s m
    exact ⟨_, ctx, hcall, by rw [hsmashed, decide_eq_false hsmash], hmem⟩

theorem toI32_eq_length_iff (n : Nat) : toI32 n = n ↔ n < 2^31 := by
  unfold toI32
  split_ifs <;> omega

theorem write_limited (hpos : 1 ≤ maxlen) (s : Nat) (m : Memory) (out : List UInt8) :
    (∀ a, a < s ∨ s + maxlen ≤ a → write m s ((out ++ [0]).take (min (out.length + 1) maxlen)) a = m a) ∧
    (∀ j, j < min out.length (maxlen - 1) →
      write m s ((out ++ [0]).take (min (out.length + 1) maxlen)) (s + j) = out.getD j 0) ∧
    write m s ((out ++ [0]).take (min (out.length + 1) maxlen)) (s + min out.length (maxlen - 1)) =
      if out.length < maxlen then 0 else out.getD (maxlen - 1) 0 := by
  have hlen : ((out ++ [0]).take (min (out.length + 1) maxlen)).length = min (out.length + 1) maxlen := by
    rw [length_take, length_append, length_singleton]
    omega
  have hget : ∀ j, j < min (out.length + 1) maxlen →
      ((out ++ [0]).take (min (out.length + 1) maxlen)).getD j 0 = (out ++ [0]).getD j 0 := by
    intro j hj
    rw [getD_eq_getElem?_getD, getElem?_take_of_lt hj, getD_eq_getElem?_getD]
  refine ⟨?_, ?_, ?_⟩
  · intro a ha
    exact write_outside (by omega)
  · intro j hj
    rw [write_at (by omega), hget j (by omega), getD_append _ _ _ _ (by omega)]
  · rw [write_at (by omega), hget _ (by omega)]
    split_ifs with hlt
    · rw [min_eq_left (by omega), getD_append_right _ _ _ _ le_rfl, tsub_self]
      rfl
    · rw [min_eq_right (by omega), getD_append _ _ _ _ (by omega)]

theorem kvsnprintf_bounded_iff (hpos : 1 ≤ maxlen) (hmax : maxlen < 2^64)
    (hcount : ∀ es, run E fmt = .ok es → Uncounted es) (s : Nat) (m : Memory) :
    Bounded E s maxlen fmt m ↔ ∃ out, Prints E fmt out ∧ out.length < 2^31 ∧
      (out.length < maxlen ∨ out.getD (maxlen - 1) 0 = 0) := by
  unfold Bounded
  apply exists_congr
  intro out
  apply and_congr_right
  intro hout
  obtain ⟨es, hrun, hsmash, rfl⟩ := (prints_iff hcount).mp hout
  obtain ⟨ctx, hcall, hmem, hsmashed⟩ := kvsnprintf_eq hmax hrun (hcount es hrun) s m
  obtain ⟨hframe, htext, hend⟩ := write_limited hpos s m (printed es)
  rw [← hmem] at hframe htext hend
  have hzero : (if (printed es).length < maxlen then (0 : UInt8) else (printed es).getD (maxlen - 1) 0) = 0 ↔
      (printed es).length < maxlen ∨ (printed es).getD (maxlen - 1) 0 = 0 := by
    split_ifs with hlt
    · simp [hlt]
    · simp [hlt]
  constructor
  · rintro ⟨r, ctx', hcall', -, -, -, hnul, hr⟩
    rw [hcall] at hcall'
    cases hcall'
    exact ⟨(toI32_eq_length_iff _).mp hr, hzero.mp (hend.symm.trans hnul)⟩
  · rintro ⟨hshort, hnul⟩
    exact ⟨_, ctx, hcall, by rw [hsmashed, decide_eq_false hsmash], hframe, htext, hend.trans (hzero.mpr hnul),
      (toI32_eq_length_iff _).mpr hshort⟩

def noArgs : Env := ⟨fun _ => 0, fun _ => []⟩

theorem run_ab : run noArgs [97, 98, 0] = .ok [.chars [97], .chars [98]] := by rfl

theorem kvsnprintf_bounded_iff_room : Bounded noArgs 0 3 [97, 98, 0] fun _ => 1 := by
  have hcount : ∀ es, run noArgs [97, 98, 0] = .ok es → Uncounted es := by
    rintro es hes bad
    rw [run_ab] at hes
    cases hes
    simp
  refine (kvsnprintf_bounded_iff (by decide) (by decide) hcount 0 fun _ => 1).mpr ⟨[97, 98], ?_, by decide, by decide⟩
  exact (prints_iff hcount).mpr ⟨_, run_ab, by simp, rfl⟩

/-- Two characters fill a buffer of two bytes: there is no terminator. -/
theorem kvsnprintf_unterminated : ¬ Bounded noArgs 0 2 [97, 98, 0] fun _ => 1 := by
  rintro ⟨out, -, r, ctx, hcall, -, -, -, hnul, hr⟩
  have hrun : (kvsnprintf noArgs 0 2 [97, 98, 0] fun _ => 1).toOption.map (fun p => (p.1, p.2.mem 1)) =
      some (2, 98) := by
    decide +kernel
  rw [hcall] at hrun
  obtain ⟨hlen, hmem⟩ := Prod.mk.inj (some.inj hrun)
  have htwo : out.length = 2 := by
    simp only at hlen
    omega
  rw [htwo] at hnul
  cases hmem.symm.trans hnul

end Comus.Printf
