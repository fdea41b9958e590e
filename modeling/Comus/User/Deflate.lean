import Comus.Lib.RunLength
import Comus.Lib.Word

/-!
# The run-length format (user/deflate.c, user/inflate.c, user/apple.c)

`deflate` writes a run as bytes 255, a shorter length and the value. The reader in
`apple` adds the lengths up; `inflate` takes every length byte for a run of its own.
A stream is the list of its bytes. `none` is undefined: a counter past `INT_MAX`, or a
read behind the data.
-/

namespace Comus.Deflate

open Word RunLength Option List

/-- The variables of `main` and what is written; `tracking` is `EOF` at first. -/
structure Encoder where
  lengthBytes : Nat
  length : Nat
  tracking : Option UInt8
  out : List UInt8

def INT_MAX : Nat := 2^31 - 1

def flush (s : Encoder) (tracking : UInt8) : List UInt8 :=
  s.out ++ replicate s.lengthBytes 255 ++ [UInt8.ofNat s.length, tracking]

def near (tracking next : UInt8) : Prop :=
  let diff : Int := (tracking.toNat : Int) - (next.toNat : Int)
  (if diff < 1 then -diff else diff) < 2

instance (tracking next : UInt8) : Decidable (near tracking next) := by
  unfold near
  infer_instance

def encodeByte (s : Encoder) (next : UInt8) : Option Encoder :=
  match s.tracking with
  | none => some { s with tracking := some next, length := 1, lengthBytes := 0 }
  | some tracking =>
    let next := if near tracking next then tracking else next
    if tracking = next then
      if s.length + 1 = 255 then
        if s.lengthBytes = INT_MAX then none
        else some { s with lengthBytes := s.lengthBytes + 1, length := 0 }
      else some { s with length := s.length + 1 }
    else
      some { lengthBytes := 0, length := 1, tracking := some next, out := flush s tracking }

def encodeLoop : Encoder → List UInt8 → Option Encoder
  | s, [] => some s
  | s, next :: x => (encodeByte s next).bind fun s => encodeLoop s x

/-- Behind the loop the last run is written if `length` is not zero. -/
def finish (s : Encoder) : List UInt8 :=
  match s.tracking with
  | some tracking => if s.length ≠ 0 then flush s tracking else s.out
  | none => s.out

def deflate (x : List UInt8) : Option (List UInt8) := (encodeLoop ⟨0, 0, none, []⟩ x).map finish

/-- `d_length`, `d_value` and the data from `d_offset` on. -/
structure Reader where
  rest : List UInt8
  length : Nat
  value : UInt8

def readLength : List UInt8 → Nat → Option (Nat × List UInt8)
  | [], _ => none
  | len :: rest, length =>
    if len = 255 then readLength rest (u64 (length + len.toNat))
    else some (u64 (length + len.toNat), rest)

def fill : Nat → Reader → Option Reader
  | 0, s => if s.length < 1 then none else some s
  | fuel + 1, s =>
    if s.length < 1 then
      (readLength s.rest 0).bind fun (length, rest) =>
        match rest with
        | [] => none
        | value :: rest => fill fuel ⟨rest, length, value⟩
    else some s

def readByte (s : Reader) : Option (UInt8 × Reader) :=
  (fill s.rest.length s).map fun s => (s.value, { s with length := s.length - 1 })

def readAll : Nat → Reader → Option (List UInt8)
  | 0, s => if s.length = 0 ∧ s.rest = [] then some [] else none
  | fuel + 1, s =>
    if s.length = 0 ∧ s.rest = [] then some []
    else (readByte s).bind fun (value, s) => (readAll fuel s).map (value :: ·)

/-- A byte of the data stands for at most 255 bytes. -/
def appleDecode (data : List UInt8) : Option (List UInt8) := readAll (255 * data.length) ⟨data, 0, 0⟩

def inflate : List UInt8 → List UInt8 × Int
  | [] => ([], 0)
  | [_] => ([], 1)
  | length :: value :: rest =>
    (replicate length.toNat value ++ (inflate rest).1, (inflate rest).2)

def runs (tracking : UInt8) (n : Nat) : List UInt8 → List (Nat × UInt8)
  | [] => [(n, tracking)]
  | next :: x => if near tracking next then runs tracking (n + 1) x else (n, tracking) :: runs next 1 x

def runsOf : List UInt8 → List (Nat × UInt8)
  | [] => []
  | b :: x => runs b 1 x

/-- A last run of a multiple of 255 bytes is not written. -/
def written : List (Nat × UInt8) → List (Nat × UInt8)
  | [] => []
  | [r] => if r.1 % 255 = 0 then [] else [r]
  | r :: s :: rs => r :: written (s :: rs)

def encodeRun (r : Nat × UInt8) : List UInt8 :=
  replicate (r.1 / 255) 255 ++ [UInt8.ofNat (r.1 % 255), r.2]

def encode (rs : List (Nat × UInt8)) : List UInt8 := rs.flatMap encodeRun

def Counted (rs : List (Nat × UInt8)) : Prop := ∀ r ∈ rs, r.1 / 255 ≤ INT_MAX

instance (rs : List (Nat × UInt8)) : Decidable (Counted rs) := by
  unfold Counted
  infer_instance

variable {x out : List UInt8} {n : Nat} {t b v : UInt8} {rs ws : List (Nat × UInt8)}

theorem runs_ne_nil (t : UInt8) (n : Nat) (x : List UInt8) : runs t n x ≠ [] := by
  induction x generalizing t n with
  | nil => simp [runs]
  | cons b x ih =>
    unfold runs
    split_ifs
    · exact ih t (n + 1)
    · simp

theorem written_cons {r : Nat × UInt8} (h : rs ≠ []) : written (r :: rs) = r :: written rs := by
  cases rs with
  | nil => exact absurd rfl h
  | cons s rs => rfl

theorem near_self (t : UInt8) : near t t := by
  simp [near]

theorem flush_run (n : Nat) (t : UInt8) (out : List UInt8) (tracking : Option UInt8) :
    flush ⟨n / 255, n % 255, tracking, out⟩ t = out ++ encodeRun (n, t) := by
  simp [flush, encodeRun]

theorem encode_cons (r : Nat × UInt8) (rs : List (Nat × UInt8)) :
    encode (r :: rs) = encodeRun r ++ encode rs := rfl

theorem encodeByte_near (hb : near t b) (hn : n / 255 ≤ INT_MAX) :
    encodeByte ⟨n / 255, n % 255, some t, out⟩ b =
      if (n + 1) / 255 ≤ INT_MAX then some ⟨(n + 1) / 255, (n + 1) % 255, some t, out⟩ else none := by
  simp only [encodeByte, if_pos hb, if_true]
  by_cases hfull : n % 255 + 1 = 255
  · have hdiv : (n + 1) / 255 = n / 255 + 1 := by omega
    have hmod : (n + 1) % 255 = 0 := by omega
    rw [if_pos hfull, hdiv, hmod]
    by_cases hmax : n / 255 = INT_MAX
    · rw [if_pos hmax, if_neg (by omega)]
    · rw [if_neg hmax, if_pos (by omega)]
  · have hdiv : (n + 1) / 255 = n / 255 := by omega
    have hmod : (n + 1) % 255 = n % 255 + 1 := by omega
    rw [if_neg hfull, hdiv, hmod, if_pos hn]

theorem encodeByte_far (hb : ¬ near t b) :
    encodeByte ⟨n / 255, n % 255, some t, out⟩ b = some ⟨0, 1, some b, out ++ encodeRun (n, t)⟩ := by
  have hne : t ≠ b := fun h => hb (h ▸ near_self t)
  simp only [encodeByte, if_neg hb, if_neg hne, flush_run]

theorem runs_head (t : UInt8) (n : Nat) (x : List UInt8) : ∃ m, n ≤ m ∧ (m, t) ∈ runs t n x := by
  induction x generalizing n with
  | nil => exact ⟨n, le_rfl, mem_singleton_self _⟩
  | cons b x ih =>
    unfold runs
    split_ifs
    · obtain ⟨m, hm, hmem⟩ := ih (n + 1)
      exact ⟨m, by omega, hmem⟩
    · exact ⟨n, le_rfl, mem_cons_self⟩

theorem encodeLoop_eq (hn : n / 255 ≤ INT_MAX) :
    (encodeLoop ⟨n / 255, n % 255, some t, out⟩ x).map finish =
      if Counted (runs t n x) then some (out ++ encode (written (runs t n x))) else none := by
  induction x generalizing t n out with
  | nil =>
    have hcounted : Counted (runs t n []) := by
      intro r hr
      obtain rfl := mem_singleton.mp hr
      exact hn
    rw [encodeLoop, map_some, if_pos hcounted]
    unfold finish runs written
    dsimp only
    by_cases hr : n % 255 = 0
    · rw [if_neg (not_not.mpr hr), if_pos hr]
      simp [encode]
    · rw [if_pos hr, if_neg hr, flush_run]
      simp [encode]
  | cons b x ih =>
    rw [encodeLoop]
    by_cases hb : near t b
    · rw [encodeByte_near hb hn, runs, if_pos hb]
      by_cases hmax : (n + 1) / 255 ≤ INT_MAX
      · rw [if_pos hmax, bind_some]
        exact ih hmax
      · -- the run is already too long
        obtain ⟨m, hm, hmem⟩ := runs_head t (n + 1) x
        have hlong : ¬ Counted (runs t (n + 1) x) := fun h => hmax <|
          (Nat.div_le_div_right hm).trans (h _ hmem)
        rw [if_neg hmax, if_neg hlong]
        rfl
    · rw [encodeByte_far hb, runs, if_neg hb, bind_some]
      have hih : (encodeLoop ⟨0, 1, some b, out ++ encodeRun (n, t)⟩ x).map finish = _ :=
        ih (show 1 / 255 ≤ INT_MAX by decide)
      have hcounted : Counted ((n, t) :: runs b 1 x) ↔ Counted (runs b 1 x) := by
        unfold Counted
        simp [hn]
      rw [hih, written_cons (runs_ne_nil b 1 x), encode_cons, append_assoc]
      simp only [hcounted]

theorem deflate_eq (x : List UInt8) :
    deflate x = if Counted (runsOf x) then some (encode (written (runsOf x))) else none := by
  cases x with
  | nil => rfl
  | cons b x =>
    have h : (encodeLoop ⟨0, 1, some b, []⟩ x).map finish = _ :=
      encodeLoop_eq (show 1 / 255 ≤ INT_MAX by decide)
    rw [nil_append] at h
    exact h

theorem readLength_run {q r acc : Nat} (hr : r < 255) (hacc : acc + 255 * q + r < 2^64)
    (rest : List UInt8) :
    readLength (replicate q 255 ++ UInt8.ofNat r :: rest) acc = some (acc + 255 * q + r, rest) := by
  induction q generalizing acc with
  | zero =>
    have hbyte : (UInt8.ofNat r).toNat = r := by
      rw [UInt8.toNat_ofNat', Nat.mod_eq_of_lt (by omega)]
    have hne : UInt8.ofNat r ≠ 255 := by
      intro h
      rw [h] at hbyte
      exact absurd hbyte (by simpa using hr.ne')
    rw [replicate_zero, nil_append, readLength, if_neg hne, hbyte, u64_of_lt (by omega)]
    rfl
  | succ q ih =>
    rw [replicate_succ, cons_append, readLength, if_pos rfl,
      show (255 : UInt8).toNat = 255 from rfl, u64_of_lt (by omega), ih (by omega)]
    congr 2
    omega

theorem fill_of_pos {n : Nat} (hpos : 1 ≤ n) (rest : List UInt8) (v : UInt8) (fuel : Nat) :
    fill fuel ⟨rest, n, v⟩ = some ⟨rest, n, v⟩ := by
  have hnot : ¬ n < 1 := by omega
  cases fuel <;> simp only [fill, if_neg hnot]

theorem readByte_of_pos {n : Nat} (hpos : 1 ≤ n) (rest : List UInt8) (v : UInt8) :
    readByte ⟨rest, n, v⟩ = some (v, ⟨rest, n - 1, v⟩) := by
  rw [readByte, fill_of_pos hpos]
  rfl

theorem readAll_run (rest : List UInt8) (v : UInt8) (n fuel : Nat) :
    readAll (n + fuel) ⟨rest, n, v⟩ = (readAll fuel ⟨rest, 0, v⟩).map (replicate n v ++ ·) := by
  induction n with
  | zero => simp
  | succ n ih =>
    rw [add_right_comm, readAll, if_neg (by simp), readByte_of_pos (Nat.le_add_left 1 n),
      bind_some]
    dsimp only
    rw [Nat.add_sub_cancel, ih, Option.map_map]
    rfl

theorem readByte_start (hpos : 1 ≤ n) (hlt : n < 2^64) (b v : UInt8) (rest : List UInt8) :
    readByte ⟨encodeRun (n, b) ++ rest, 0, v⟩ = readByte ⟨rest, n, b⟩ := by
  have hlength : readLength (encodeRun (n, b) ++ rest) 0 = some (n, b :: rest) := by
    have h := readLength_run (show n % 255 < 255 by omega) (show 0 + 255 * (n / 255) + n % 255 < 2^64 by omega)
      (b :: rest)
    rw [show 0 + 255 * (n / 255) + n % 255 = n by omega] at h
    rw [← h]
    simp [encodeRun]
  obtain ⟨k, hk⟩ : ∃ k, (encodeRun (n, b) ++ rest).length = k + 1 := by
    refine ⟨(encodeRun (n, b) ++ rest).length - 1, ?_⟩
    simp only [encodeRun, length_append, length_cons]
    omega
  rw [readByte_of_pos hpos, readByte]
  dsimp only
  rw [hk, fill, if_pos Nat.zero_lt_one]
  dsimp only
  rw [hlength, bind_some]
  dsimp only
  rw [fill_of_pos hpos]
  rfl

theorem encodeRun_length (r : Nat × UInt8) : (encodeRun r).length = r.1 / 255 + 2 := by
  simp [encodeRun]

theorem readAll_encode (hpos : ∀ r ∈ rs, 1 ≤ r.1) (hlt : ∀ r ∈ rs, r.1 < 2^64) (v : UInt8) {fuel : Nat}
    (hfuel : (rs.map Prod.fst).sum ≤ fuel) : readAll fuel ⟨encode rs, 0, v⟩ = some (expand rs) := by
  induction rs generalizing v fuel with
  | nil => cases fuel <;> simp [readAll, encode]
  | cons r rs ih =>
    obtain ⟨n, b⟩ := r
    have hn := hpos (n, b) mem_cons_self
    rw [map_cons, sum_cons] at hfuel
    dsimp only at hn hfuel
    obtain ⟨fuel, rfl⟩ := Nat.exists_eq_add_of_le (show n ≤ fuel by omega)
    have hstart : readAll (n + fuel) ⟨encode ((n, b) :: rs), 0, v⟩ = readAll (n + fuel) ⟨encode rs, n, b⟩ := by
      obtain ⟨m, rfl⟩ := Nat.exists_eq_add_of_le' hn
      have hdata : ¬ ((0 : Nat) = 0 ∧ encode ((m + 1, b) :: rs) = []) := by
        simp [encode, encodeRun]
      rw [add_right_comm, readAll, readAll, if_neg hdata, if_neg (by simp), encode_cons,
        readByte_start hn (hlt _ mem_cons_self)]
    rw [hstart, readAll_run, ih (fun r hr => hpos r (mem_cons_of_mem _ hr))
      (fun r hr => hlt r (mem_cons_of_mem _ hr)) b (by omega)]
    rfl

theorem appleDecode_encode (hpos : ∀ r ∈ rs, 1 ≤ r.1) (hlt : ∀ r ∈ rs, r.1 < 2^64) :
    appleDecode (encode rs) = some (expand rs) := by
  refine readAll_encode hpos hlt 0 ?_
  clear hpos hlt
  induction rs with
  | nil => exact Nat.zero_le _
  | cons r rs ih =>
    rw [encode_cons, length_append, encodeRun_length, map_cons, sum_cons]
    omega

def Close (a b : UInt8) : Prop := a.toNat ≤ b.toNat + 1 ∧ b.toNat ≤ a.toNat + 1

theorem near_iff_close (a b : UInt8) : near a b ↔ Close a b := by
  unfold near Close
  dsimp only
  split_ifs <;> omega

def Restored (x : List UInt8) : Prop :=
  ∃ out ys, deflate x = some out ∧ appleDecode out = some ys ∧ Forall₂ Close ys x

theorem runs_pos (hn : 1 ≤ n) : ∀ r ∈ runs t n x, 1 ≤ r.1 := by
  induction x generalizing t n with
  | nil =>
    intro r hr
    obtain rfl := mem_singleton.mp hr
    exact hn
  | cons b x ih =>
    unfold runs
    split_ifs
    · exact ih (by omega)
    · intro r hr
      rcases mem_cons.mp hr with rfl | hr
      · exact hn
      · exact ih le_rfl r hr

theorem runs_close (t : UInt8) (n : Nat) (x : List UInt8) :
    ∃ ys, expand (runs t n x) = replicate n t ++ ys ∧ Forall₂ Close ys x := by
  induction x generalizing t n with
  | nil => exact ⟨[], by simp [runs], .nil⟩
  | cons b x ih =>
    unfold runs
    split_ifs with hb
    · obtain ⟨ys, heq, hclose⟩ := ih t (n + 1)
      refine ⟨t :: ys, ?_, .cons ((near_iff_close t b).mp hb) hclose⟩
      rw [heq, replicate_succ', append_assoc]
      rfl
    · obtain ⟨ys, heq, hclose⟩ := ih b 1
      refine ⟨b :: ys, ?_, .cons ((near_iff_close b b).mp (near_self b)) hclose⟩
      rw [expand_cons, heq]
      rfl

theorem runsOf_close (x : List UInt8) : Forall₂ Close (expand (runsOf x)) x := by
  cases x with
  | nil => exact .nil
  | cons b x =>
    obtain ⟨ys, heq, hclose⟩ := runs_close b 1 x
    rw [runsOf, heq]
    exact .cons ((near_iff_close b b).mp (near_self b)) hclose

theorem runsOf_pos (x : List UInt8) : ∀ r ∈ runsOf x, 1 ≤ r.1 := by
  cases x with
  | nil => simp [runsOf]
  | cons b x => exact runs_pos le_rfl

theorem written_eq (rs : List (Nat × UInt8)) :
    (∀ r, rs.getLast? = some r → r.1 % 255 ≠ 0) ∧ written rs = rs ∨
      ∃ ws r, rs = ws ++ [r] ∧ r.1 % 255 = 0 ∧ written rs = ws := by
  induction rs with
  | nil => exact .inl ⟨by simp, rfl⟩
  | cons r rs ih =>
    cases rs with
    | nil =>
      by_cases hr : r.1 % 255 = 0
      · exact .inr ⟨[], r, rfl, hr, if_pos hr⟩
      · exact .inl ⟨by simpa using hr, if_neg hr⟩
    | cons s rs =>
      rw [written_cons (cons_ne_nil s rs)]
      rcases ih with ⟨hlast, hall⟩ | ⟨ws, z, hsplit, hz, hws⟩
      · rw [hall, getLast?_cons_cons]
        exact .inl ⟨hlast, rfl⟩
      · exact .inr ⟨r :: ws, z, by rw [hsplit]; rfl, hz, by rw [hws]⟩

theorem written_subset {r : Nat × UInt8} (hr : r ∈ written rs) : r ∈ rs := by
  rcases written_eq rs with ⟨-, hall⟩ | ⟨ws, z, hsplit, -, hws⟩
  · exact hall ▸ hr
  · rw [hsplit]
    exact mem_append_left _ (hws ▸ hr)

theorem appleDecode_written (h : Counted (runsOf x)) :
    appleDecode (encode (written (runsOf x))) = some (expand (written (runsOf x))) := by
  refine appleDecode_encode (fun r hr => runsOf_pos x r (written_subset hr)) fun r hr => ?_
  have hcounted := h r (written_subset hr)
  unfold INT_MAX at hcounted
  omega

/-- The round trip restores an input exactly if no run is too long for the counters and the
last run is not a multiple of 255 bytes. -/
theorem restored_iff (x : List UInt8) :
    Restored x ↔ Counted (runsOf x) ∧ ∀ r, (runsOf x).getLast? = some r → r.1 % 255 ≠ 0 := by
  unfold Restored
  rw [deflate_eq]
  by_cases hcounted : Counted (runsOf x)
  · rw [if_pos hcounted]
    have hdecode := appleDecode_written hcounted
    constructor
    · rintro ⟨out, ys, hout, hys, hclose⟩
      cases hout
      rw [hdecode] at hys
      cases hys
      refine ⟨hcounted, ?_⟩
      rcases written_eq (runsOf x) with ⟨hlast, -⟩ | ⟨ws, r, hsplit, -, hws⟩
      · exact hlast
      · -- the bytes of the last run are missing
        exfalso
        have hlen := hclose.length_eq
        have hall := (runsOf_close x).length_eq
        have hpos := runsOf_pos x r (by rw [hsplit]; simp)
        rw [hsplit, expand_append, length_append, expand_length [r]] at hall
        rw [hws] at hlen
        simp at hall
        omega
    · rintro ⟨-, hlast⟩
      rcases written_eq (runsOf x) with ⟨-, hall⟩ | ⟨ws, r, hsplit, hr, -⟩
      · exact ⟨_, _, rfl, hdecode, hall.symm ▸ runsOf_close x⟩
      · exact absurd hr (hlast r (by rw [hsplit]; simp))
  · rw [if_neg hcounted]
    constructor
    · rintro ⟨out, ys, hout, -⟩
      cases hout
    · exact fun h => absurd h.1 hcounted

/-- A run of 255 bytes that ends the input is lost. -/
theorem last_run_lost : deflate (replicate 255 97) = some [] ∧ ¬ Restored (replicate 255 97) := by
  have hdeflate : deflate (replicate 255 97) = some [] := by decide +kernel
  refine ⟨hdeflate, ?_⟩
  rintro ⟨out, ys, hout, hys, hclose⟩
  rw [hdeflate] at hout
  cases hout
  cases hys
  cases hclose

def pairs : List UInt8 → List (Nat × UInt8)
  | [] => []
  | [_] => []
  | length :: value :: rest => (length.toNat, value) :: pairs rest

theorem inflate_eq (out : List UInt8) : (inflate out).1 = expand (pairs out) := by
  induction out using pairs.induct with
  | case1 => rfl
  | case2 => rfl
  | case3 length value rest ih => rw [inflate, pairs, expand_cons, ih]

theorem pairs_le (out : List UInt8) : ∀ p ∈ pairs out, p.1 ≤ 255 := by
  induction out using pairs.induct with
  | case1 => simp [pairs]
  | case2 => simp [pairs]
  | case3 length value rest ih =>
    intro p hp
    rcases mem_cons.mp hp with rfl | hp
    · have := length.toNat_lt
      dsimp only
      omega
    · exact ih p hp

def Agree (x : List UInt8) : Prop :=
  ∃ out, deflate x = some out ∧ appleDecode out = some (inflate out).1

theorem runs_eq_cons (t : UInt8) (n : Nat) (x : List UInt8) : ∃ m rs, runs t n x = (m, t) :: rs := by
  induction x generalizing n with
  | nil => exact ⟨n, [], rfl⟩
  | cons b x ih =>
    unfold runs
    split_ifs
    · exact ih (n + 1)
    · exact ⟨n, _, rfl⟩

theorem runs_apart (t : UInt8) (n : Nat) (x : List UInt8) : (runs t n x).IsChain fun r s => r.2 ≠ s.2 := by
  induction x generalizing t n with
  | nil => exact isChain_singleton _
  | cons b x ih =>
    unfold runs
    split_ifs with hb
    · exact ih t (n + 1)
    · have hrest := ih b 1
      obtain ⟨m, rs, hruns⟩ := runs_eq_cons b 1 x
      rw [hruns] at hrest ⊢
      refine isChain_cons_cons.mpr ⟨fun h => hb ?_, hrest⟩
      dsimp only at h
      exact h ▸ near_self t

theorem runsOf_maximal (x : List UInt8) : Maximal (runsOf x) := by
  refine ⟨runsOf_pos x, ?_⟩
  cases x with
  | nil => exact isChain_nil
  | cons b x => exact runs_apart b 1 x

theorem written_maximal (x : List UInt8) : Maximal (written (runsOf x)) := by
  have hmax := runsOf_maximal x
  rcases written_eq (runsOf x) with ⟨-, hall⟩ | ⟨ws, r, hsplit, -, hws⟩
  · exact hall.symm ▸ hmax
  · rw [hws]
    rw [hsplit] at hmax
    exact ⟨fun s hs => hmax.pos s (mem_append_left _ hs), hmax.apart.left_of_append⟩

def pairCount (out : List UInt8) : Nat := pieces (pairs out)

theorem pairCount_cons_cons (a b : UInt8) (rest : List UInt8) :
    pairCount (a :: b :: rest) = (if a = 0 then 0 else 1) + pairCount rest := by
  have hzero : a.toNat = 0 ↔ a = 0 := by
    rw [← UInt8.toNat_inj]
    rfl
  unfold pairCount
  rw [pairs, pieces_cons]
  simp only [hzero]

theorem pairCount_long (q : Nat) (r v : UInt8) (rest : List UInt8) :
    pairCount (replicate q 255 ++ r :: v :: rest) =
      if q % 2 = 0 then q / 2 + (if r = 0 then 0 else 1) + pairCount rest
      else q / 2 + 1 + pairCount (v :: rest) := by
  induction q using Nat.twoStepInduction with
  | zero => simp [pairCount_cons_cons]
  | one => simp [pairCount_cons_cons]
  | more q ih _ =>
    rw [replicate_succ, replicate_succ, cons_append, cons_append,
      pairCount_cons_cons, if_neg (by decide), ih, Nat.add_mod_right, Nat.add_div_right _ (by decide)]
    split_ifs <;> omega

theorem ofNat_eq_zero {r : Nat} (hr : r < 255) : UInt8.ofNat r = 0 ↔ r = 0 := by
  rw [← UInt8.toNat_inj, UInt8.toNat_ofNat', Nat.mod_eq_of_lt (by omega)]
  rfl

theorem pairCount_run (n : Nat) (v : UInt8) (rest : List UInt8) :
    pairCount (encodeRun (n, v) ++ rest) =
      if n / 255 % 2 = 0 then n / 255 / 2 + (if n % 255 = 0 then 0 else 1) + pairCount rest
      else n / 255 / 2 + 1 + pairCount (v :: rest) := by
  have h := pairCount_long (n / 255) (UInt8.ofNat (n % 255)) v rest
  simp only [ofNat_eq_zero (show n % 255 < 255 by omega)] at h
  rw [← h]
  simp [encodeRun]

theorem pairCount_run_odd (p : UInt8) (n : Nat) (v : UInt8) (rest : List UInt8) :
    pairCount (p :: (encodeRun (n, v) ++ rest)) = (if p = 0 then 0 else 1) +
      if n / 255 = 0 then pairCount (v :: rest)
      else if (n / 255 - 1) % 2 = 0 then
        (n / 255 - 1) / 2 + (if n % 255 = 0 then 0 else 1) + pairCount rest
      else (n / 255 - 1) / 2 + 1 + pairCount (v :: rest) := by
  rcases hq : n / 255 with - | q
  · simp [encodeRun, hq, pairCount_cons_cons]
  · have h := pairCount_long q (UInt8.ofNat (n % 255)) v rest
    simp only [ofNat_eq_zero (show n % 255 < 255 by omega)] at h
    rw [if_neg (Nat.succ_ne_zero q), Nat.add_sub_cancel, ← h, ← pairCount_cons_cons p 255]
    simp [encodeRun, hq, replicate_succ]

theorem cost_eq (n : Nat) : cost 255 n = n / 255 + if n % 255 = 0 then 0 else 1 := by
  unfold cost
  split_ifs <;> omega

theorem pairCount_le (hpos : ∀ r ∈ rs, 1 ≤ r.1) :
    pairCount (encode rs) ≤ costs 255 rs ∧ ∀ p, pairCount (p :: encode rs) ≤ costs 255 rs := by
  induction rs with
  | nil => exact ⟨le_rfl, fun p => le_rfl⟩
  | cons r rs ih =>
    obtain ⟨n, v⟩ := r
    obtain ⟨heven, hodd⟩ := ih fun r hr => hpos r (mem_cons_of_mem _ hr)
    have hn := hpos (n, v) mem_cons_self
    have hv := hodd v
    dsimp only at hn
    rw [costs_cons, cost_eq, encode_cons]
    constructor
    · rw [pairCount_run]
      split_ifs <;> omega
    · intro p
      rw [pairCount_run_odd]
      split_ifs <;> omega

theorem pairCount_zero_lt (hpos : ∀ r ∈ rs, 1 ≤ r.1) (hne : rs ≠ []) :
    pairCount (0 :: encode rs) < costs 255 rs := by
  obtain ⟨⟨n, v⟩, rs, rfl⟩ := exists_cons_of_ne_nil hne
  obtain ⟨heven, hodd⟩ := pairCount_le fun r hr => hpos r (mem_cons_of_mem _ hr)
  have hn := hpos (n, v) mem_cons_self
  have hv := hodd v
  dsimp only at hn
  rw [costs_cons, cost_eq, encode_cons, pairCount_run_odd, if_pos rfl]
  split_ifs <;> omega

theorem pairs_short (hlt : n < 255) (v : UInt8) (rest : List UInt8) :
    pairs (encodeRun (n, v) ++ rest) = (n, v) :: pairs rest := by
  have hbyte : (UInt8.ofNat n).toNat = n := by
    rw [UInt8.toNat_ofNat', Nat.mod_eq_of_lt (by omega)]
  simp [encodeRun, Nat.div_eq_of_lt hlt, Nat.mod_eq_of_lt hlt, pairs, hbyte]

theorem pairs_encode_short (hlt : ∀ r ∈ ws, r.1 < 255) (rest : List UInt8) :
    pairs (encode ws ++ rest) = ws ++ pairs rest := by
  induction ws with
  | nil => rfl
  | cons r ws ih =>
    obtain ⟨n, v⟩ := r
    rw [encode_cons, append_assoc, pairs_short (hlt _ mem_cons_self),
      ih fun r hr => hlt r (mem_cons_of_mem _ hr)]
    rfl

/-- What is written behind the short runs: nothing, or 255 zeros as the last run. -/
theorem long_run_agrees (hmax : Maximal ((n, v) :: rs)) (hlong : 255 ≤ n)
    (heq : expand (pairs (encode ((n, v) :: rs))) = expand ((n, v) :: rs)) :
    n = 255 ∧ v = 0 ∧ rs = [] := by
  have hcosts := hmax.costs_le (by decide) (pairs_le _) heq
  have hpos : ∀ r ∈ rs, 1 ≤ r.1 := fun r hr => hmax.pos r (mem_cons_of_mem _ hr)
  obtain ⟨heven, hodd⟩ := pairCount_le hpos
  have hv := hodd v
  rw [costs_cons, cost_eq] at hcosts
  change _ ≤ pairCount (encode ((n, v) :: rs)) at hcosts
  rw [encode_cons, pairCount_run] at hcosts
  -- any longer run needs more pairs than there are
  have hn : n = 255 := by
    split_ifs at hcosts <;> omega
  subst hn
  -- the first pair is 255 zeros
  have hfirst : pairs (encode ((255, v) :: rs)) = (255, 0) :: pairs (v :: encode rs) := by
    simp [encode_cons, encodeRun, pairs]
  rw [hfirst, expand_cons] at heq
  obtain ⟨rfl, -, -⟩ := hmax.first_piece (by decide) heq.symm
  refine ⟨rfl, rfl, ?_⟩
  by_contra hne
  have hlost := pairCount_zero_lt hpos hne
  norm_num at hcosts
  omega

/-- The runs on which both decoders agree: short ones, behind which there may be a last
run of 255 zeros. -/
def Alike (rs : List (Nat × UInt8)) : Prop :=
  (∀ r ∈ rs, r.1 < 255) ∨ ∃ ws, rs = ws ++ [(255, 0)] ∧ ∀ r ∈ ws, r.1 < 255

theorem first_long (h : ¬ ∀ r ∈ rs, r.1 < 255) :
    ∃ ws n v zs, rs = ws ++ (n, v) :: zs ∧ (∀ r ∈ ws, r.1 < 255) ∧ 255 ≤ n := by
  induction rs with
  | nil => exact absurd (by simp) h
  | cons r rs ih =>
    by_cases hr : r.1 < 255
    · obtain ⟨ws, n, v, zs, rfl, hws, hlong⟩ := ih fun hall => h (forall_mem_cons.mpr ⟨hr, hall⟩)
      exact ⟨r :: ws, n, v, zs, rfl, forall_mem_cons.mpr ⟨hr, hws⟩, hlong⟩
    · exact ⟨[], r.1, r.2, rs, rfl, by simp, not_lt.mp hr⟩

theorem pairs_encode_iff (hmax : Maximal rs) : expand (pairs (encode rs)) = expand rs ↔ Alike rs := by
  constructor
  · intro heq
    by_cases hshort : ∀ r ∈ rs, r.1 < 255
    · exact .inl hshort
    · -- the short runs in front of the first long one
      obtain ⟨ws, n, v, zs, rfl, hws, hlong⟩ := first_long hshort
      have henc : encode (ws ++ (n, v) :: zs) = encode ws ++ encode ((n, v) :: zs) := flatMap_append
      rw [henc, pairs_encode_short hws, expand_append, expand_append] at heq
      obtain ⟨rfl, rfl, rfl⟩ := long_run_agrees hmax.right hlong (append_cancel_left heq)
      exact .inr ⟨ws, rfl, hws⟩
  · rintro (hshort | ⟨ws, rfl, hws⟩)
    · have h := pairs_encode_short hshort []
      rw [append_nil] at h
      rw [h]
      simp [pairs]
    · have henc : encode (ws ++ [(255, 0)]) = encode ws ++ [255, 0, 0] := by
        simp [encode, encodeRun]
      rw [henc, pairs_encode_short hws, expand_append, expand_append]
      rfl

/-- The decoders agree exactly if no run is too long for the counters and the runs written
are shorter than 255 bytes, but for a last one of 255 zeros. -/
theorem decoders_agree_iff (x : List UInt8) :
    Agree x ↔ Counted (runsOf x) ∧ Alike (written (runsOf x)) := by
  unfold Agree
  rw [deflate_eq]
  by_cases hcounted : Counted (runsOf x)
  · rw [if_pos hcounted]
    have hiff := pairs_encode_iff (written_maximal x)
    have hdecode := appleDecode_written hcounted
    constructor
    · rintro ⟨out, hout, hys⟩
      cases hout
      rw [hdecode, inflate_eq] at hys
      exact ⟨hcounted, hiff.mp (some.inj hys).symm⟩
    · rintro ⟨-, halike⟩
      refine ⟨_, rfl, ?_⟩
      rw [hdecode, inflate_eq, hiff.mpr halike]
  · rw [if_neg hcounted]
    constructor
    · rintro ⟨out, hout, -⟩
      cases hout
    · exact fun h => absurd h.1 hcounted

/-- A run of 256 bytes is read as 255 bytes of its last length byte. -/
theorem decoders_differ : deflate (replicate 256 97) = some [255, 1, 97] ∧
    (inflate [255, 1, 97]).1 = replicate 255 1 ∧
    appleDecode [255, 1, 97] = some (replicate 256 97) ∧ ¬ Agree (replicate 256 97) := by
  have hdeflate : deflate (replicate 256 97) = some [255, 1, 97] := by decide +kernel
  have happle : appleDecode [255, 1, 97] = some (replicate 256 97) := by decide +kernel
  refine ⟨hdeflate, by decide +kernel, happle, ?_⟩
  rintro ⟨out, hout, hys⟩
  rw [hdeflate] at hout
  cases hout
  rw [happle] at hys
  exact absurd hys (by decide +kernel)

end Comus.Deflate
