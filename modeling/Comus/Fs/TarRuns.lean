import Comus.Fs.DiskReads
import Comus.Lib.Run

/-!
# Seeking and reading in an open file

An offset is unsigned and a seek is not checked. Behind the end of its file a read
goes on in the files that follow, at the end it returns one without a byte. The
reads that report their own bytes only are those described by `OwnRead`.
-/

namespace Comus.Fs

open Word Option List

/-- The calls on one open file; a read comes with what the heap and the drive answer. -/
inductive TarOp where
  | seek (offsetAdd whence : Int)
  | read (b : Bounce) (a : Answer) (len : Nat)

def tarStep (d : Drive) (f : TarFile) : TarOp → Option TarFile
  | .seek offsetAdd whence => some (tarSeek f offsetAdd whence).2
  | .read b a len => some (tarRead (d.disk b a) f len).2.2

def TarFile.position (f : TarFile) : Nat := (f.sect + 1) * TAR_SIZE + f.offset

/-- Every byte reported is the next one of the file's own data, and at its end there is none. -/
structure ReadsOwn (d : Drive) (f : TarFile) (n : Int) (bytes : List UInt8) : Prop where
  own : ∀ (old : Nat → UInt8) (i : Nat), (i : Int) < n → f.offset + i < f.len ∧
    f.position + i < d.size ∧ bufferAfter old bytes i = d.byte (f.position + i)
  atEnd : f.len ≤ f.offset → n ≤ 0

def TarFile.request (f : TarFile) (len : Nat) : Int := toI64 (min (sub64 f.len f.offset) len : Nat)

/-- At least one byte is asked for, the disk tells the truth about it, and the offset is
in front of the end of the file unless no byte is reported. -/
structure OwnRead (d : Drive) (b : Bounce) (a : Answer) (f : TarFile) (len : Nat) : Prop where
  pos : 1 ≤ f.request len
  truthful : Truthful d b a (u64 f.position) (f.request len).toNat
  inside : d.transferLen (u64 f.position) (f.request len).toNat ≤ 0 ∨
    f.offset < f.len ∧ f.position < 2^64

structure Opened (len sect : Nat) (f : TarFile) : Prop where
  type : f.type = .reg
  len : f.len = len
  sect : f.sect = sect
  offset : f.offset < 2^64

variable {d : Drive} {f : TarFile} {len sect req : Nat}

theorem tarSeek_opened (h : Opened len sect f) (offsetAdd whence : Int) :
    Opened len sect (tarSeek f offsetAdd whence).2 := by
  unfold tarSeek
  split_ifs
  · exact ⟨h.type, h.len, h.sect, toU64_lt _⟩
  · exact ⟨h.type, h.len, h.sect, toU64_lt _⟩
  · exact ⟨h.type, h.len, h.sect, toU64_lt _⟩
  · exact h

theorem tarRead_opened (h : Opened len sect f) (disk : Disk) (req : Nat) :
    Opened len sect (tarRead disk f req).2.2 := by
  unfold tarRead
  dsimp only
  split_ifs
  · exact h
  · exact ⟨h.type, h.len, h.sect, toU64_lt _⟩

theorem opened_of_reach {flags : Int} {f₀ : TarFile} (hopen : tarOpen flags len sect = some f₀)
    (hrun : Run.Reach (tarStep d) Run.anyOp f₀ f) : Opened len sect f := by
  have hstart : Opened len sect f₀ := by
    unfold tarOpen at hopen
    split_ifs at hopen
    cases hopen
    exact ⟨rfl, rfl, rfl, show 0 < 2^64 by decide⟩
  refine hrun.invariant hstart fun f op f' hf _ hstep => ?_
  cases op with
  | seek offsetAdd whence =>
    cases hstep
    exact tarSeek_opened hf offsetAdd whence
  | read b a len =>
    cases hstep
    exact tarRead_opened hf _ len

theorem accesses_of_pos (htype : f.type = .reg) (hpos : 1 ≤ f.request req) :
    Accesses f req (u64 f.position) (f.request req).toNat := by
  refine ⟨htype, ?_, by omega, rfl⟩
  rw [Int.toNat_of_nonneg (by omega), TarFile.request, Nat.cast_min]

theorem tarRead_of_not_pos (disk : Disk) (hpos : ¬ 1 ≤ f.request req) :
    tarRead disk f req = (ERROR_TAR, [], f) := by
  unfold tarRead
  dsimp only
  rw [TarFile.request, Nat.cast_min] at hpos
  rw [if_pos (.inr (by omega))]

theorem request_le (hlen : f.len < 2^64) (h : f.offset < f.len) (req : Nat) :
    f.request req ≤ f.len - f.offset := by
  unfold TarFile.request
  rw [sub64_of_le h.le hlen]
  unfold toI64
  omega

theorem not_readsOwn_nil {n : Int} (hn : 1 ≤ n) : ¬ ReadsOwn d f n [] := by
  intro h
  obtain ⟨-, -, heq⟩ := h.own (fun _ => d.byte f.position + 1) 0 (by omega)
  simp [bufferAfter] at heq

/-- After any calls on an open file, a read reports bytes of its own file only, and none at
the end, exactly if it is an `OwnRead`. -/
theorem tarRead_own_iff (d : Drive) (hd : d.size ≤ 2^64) (flags : Int) (len sect : Nat)
    (hlen : len < 2^64) (f₀ f : TarFile) (hopen : tarOpen flags len sect = some f₀)
    (hrun : Run.Reach (tarStep d) Run.anyOp f₀ f) (b : Bounce) (a : Answer) (req : Nat) :
    (∀ b' a', b.Like b' → a.Like a' → ReadsOwn d f (tarRead (d.disk b' a') f req).1
      (tarRead (d.disk b' a') f req).2.1) ↔ OwnRead d b a f req := by
  have hf := opened_of_reach hopen hrun
  have hlen' : f.len < 2^64 := hf.len ▸ hlen
  by_cases hpos : 1 ≤ f.request req
  · have hacc := accesses_of_pos hf.type hpos
    have hread : ∀ b' a', tarRead (d.disk b' a') f req = _ := fun b' a' => hacc.tarRead_eq _
    have hwrap : f.position < d.size → u64 f.position = f.position :=
      fun h => u64_of_lt (by omega)
    constructor
    · intro h
      have htruth : Truthful d b a (u64 f.position) (f.request req).toNat := by
        rw [← delivers_iff]
        intro b' a' hb ha old i hi
        have hown := h b' a' hb ha
        rw [hread] at hown
        -- the first byte shows that the position is on the disk
        obtain ⟨-, hfirst, -⟩ := hown.own old 0 (by
          have hnat : (0 : Int) ≤ i := Int.natCast_nonneg i
          exact lt_of_le_of_lt hnat hi)
        obtain ⟨-, hdisk, hbyte⟩ := hown.own old i hi
        rw [hwrap (by omega)] at hbyte ⊢
        exact ⟨hdisk, hbyte⟩
      refine ⟨hpos, htruth, ?_⟩
      by_cases hzero : d.transferLen (u64 f.position) (f.request req).toNat ≤ 0
      · exact .inl hzero
      · have hown := h b a Bounce.Like.rfl Answer.Like.rfl
        rw [hread] at hown
        obtain ⟨hoff, hdisk, -⟩ := hown.own (fun _ => 0) 0 (by
          change (0 : Int) < (diskRead d b a (u64 f.position) (f.request req).toNat).ret
          rw [htruth.ret]
          omega)
        exact .inr ⟨hoff, by omega⟩
    · intro h b' a' hb ha
      have htruth := h.truthful.like hb ha
      have hdel := (delivers_iff d b a _ _).mpr h.truthful b' a' hb ha
      have hret := htruth.ret
      rw [hread]
      change ReadsOwn d f (diskRead d b' a' (u64 f.position) (f.request req).toNat).ret
        (diskRead d b' a' (u64 f.position) (f.request req).toNat).bytes
      rcases h.inside with hzero | ⟨hoff, hposition⟩
      · constructor
        · intro old i hi
          omega
        · intro _
          omega
      · rw [u64_of_lt hposition] at hdel hret htruth ⊢
        constructor
        · intro old i hi
          have hle := htruth.transferLen_le
          have hrest := request_le hlen' hoff req
          obtain ⟨hdisk, hbyte⟩ := hdel old i hi
          exact ⟨by omega, hdisk, hbyte⟩
        · intro hend
          omega
  · refine ⟨fun h => ?_, fun h => absurd h.pos hpos⟩
    have hown := h b a Bounce.Like.rfl Answer.Like.rfl
    rw [tarRead_of_not_pos _ hpos] at hown
    exact absurd hown (not_readsOwn_nil (show (1 : Int) ≤ ERROR_TAR by decide))

def smallDisk : Drive := .ramdisk (replicate 512 0 ++ [1, 2, 3] ++ replicate 509 9)

def noAnswer : Answer := ⟨none, .ok, .ok, fun _ => 0⟩

theorem smallDisk_size : smallDisk.size ≤ 2^64 := by
  simp only [smallDisk, Drive.size, length_append, length_replicate]
  decide

/-- After a seek to the second byte, the read of five bytes reports the last two. -/
theorem tarRead_own_two :
    ReadsOwn smallDisk ⟨.reg, 3, 1, 0⟩ 2 [2, 3] := by
  have hrun : Run.Reach (tarStep smallDisk) Run.anyOp ⟨.reg, 3, 0, 0⟩ ⟨.reg, 3, 1, 0⟩ :=
    .step (.seek 1 SEEK_SET) .start trivial (by decide +kernel)
  have hown : OwnRead smallDisk ⟨0, none⟩ noAnswer ⟨.reg, 3, 1, 0⟩ 5 := by
    have htruth : u64 (TarFile.position ⟨.reg, 3, 1, 0⟩) <
        (replicate 512 0 ++ [1, 2, 3] ++ replicate 509 (9 : UInt8)).length := by
      decide +kernel
    exact ⟨by decide +kernel, htruth, .inr ⟨by decide, by decide⟩⟩
  have hread : tarRead (smallDisk.disk ⟨0, none⟩ noAnswer) ⟨.reg, 3, 1, 0⟩ 5 =
      (2, [2, 3], ⟨.reg, 3, 3, 0⟩) := by
    decide +kernel
  have h := (tarRead_own_iff smallDisk smallDisk_size O_RDONLY 3 0 (by decide) ⟨.reg, 3, 0, 0⟩ _ rfl
    hrun ⟨0, none⟩ noAnswer 5).mpr hown _ _ Bounce.Like.rfl Answer.Like.rfl
  rw [hread] at h
  exact h

/-- At its end a file still reports one byte, and behind its end the bytes of the block
that follows. -/
theorem tarRead_past_end :
    ∃ f g : TarFile, Run.Reach (tarStep smallDisk) Run.anyOp ⟨.reg, 3, 0, 0⟩ f ∧
      Run.Reach (tarStep smallDisk) Run.anyOp ⟨.reg, 3, 0, 0⟩ g ∧ f.offset = f.len ∧
      tarRead (smallDisk.disk ⟨0, none⟩ noAnswer) f 5 = (1, [], f) ∧ ¬ ReadsOwn smallDisk f 1 [] ∧
      g.len < g.offset ∧ (tarRead (smallDisk.disk ⟨0, none⟩ noAnswer) g 2).1 = 2 ∧
      (tarRead (smallDisk.disk ⟨0, none⟩ noAnswer) g 2).2.1 = [9, 9] ∧
      ¬ ReadsOwn smallDisk g 2 [9, 9] := by
  refine ⟨⟨.reg, 3, 3, 0⟩, ⟨.reg, 3, 4, 0⟩, .step (.seek 0 SEEK_END) .start trivial ?_,
    .step (.seek 1 SEEK_END) .start trivial ?_, rfl, ?_, not_readsOwn_nil (by decide), by decide,
    ?_, ?_, ?_⟩
  · decide +kernel
  · decide +kernel
  · decide +kernel
  · decide +kernel
  · decide +kernel
  · intro h
    exact absurd (h.atEnd (by decide)) (by decide)

end Comus.Fs
