import Comus.Fs.Archive

/-!
# tar_open and tar_stat

Both functions call `find_file` and ignore what it returns. Where it finds nothing they
go on with the header and the sector that their uninitialised variables hold.
-/

namespace Comus.Fs

open Word Option List

def NOERROR_TAR : Int := 0

def REGTYPE : UInt8 := 48
def DIRTYPE : UInt8 := 53

def typeFlag (hdr : List UInt8) : UInt8 := hdr.getD 156 0

structure Locals where
  hdr : List UInt8
  sect : Nat

def lookUp (disk : Disk) (path : List UInt8) (fuel : Nat) (v : Locals) : Option Locals :=
  (findFile disk path fuel 0).map fun
    | none => v
    | some (hdr, sect) => ⟨hdr, sect⟩

/-- `tar_open` with `*out` as it is on entry; `none` is the null pointer. That is also what a
`kalloc` without memory returns: the object is filled in on page zero, which is mapped. -/
def tarOpenPath (disk : Disk) (path : List UInt8) (flags : Int) (memory : Bool) (fuel : Nat) (v : Locals)
    (out : Option TarFile) : Option (Int × Option TarFile) :=
  match lookUp disk path fuel v with
  | none => none
  | some v =>
    match tarOpen flags (fileSize v.hdr) v.sect with
    | none => some (ERROR_TAR, out)
    | some file => some (NOERROR_TAR, if memory then some file else none)

structure Stat where
  type : FileType
  length : Nat
  deriving Repr, DecidableEq

/-- `tar_stat`; the length is stored before the type is looked at. -/
def tarStat (disk : Disk) (path : List UInt8) (fuel : Nat) (v : Locals) (out : Stat) : Option (Int × Stat) :=
  match lookUp disk path fuel v with
  | none => none
  | some v =>
    let out := { out with length := fileSize v.hdr }
    if typeFlag v.hdr = REGTYPE then some (NOERROR_TAR, { out with type := .reg })
    else if typeFlag v.hdr = DIRTYPE then some (NOERROR_TAR, { out with type := .dir })
    else some (ERROR_TAR, out)

def Typed (flag : UInt8) : Prop := flag = REGTYPE ∨ flag = DIRTYPE

def Entry.typeFlag (e : Entry) : UInt8 := e.link 20

def firstEntry (path : List UInt8) : List Entry → Nat → Option (Entry × Nat)
  | [], _ => none
  | e :: es, sect => if e.name = path then some (e, sect) else firstEntry path es (sect + e.blocks + 1)

def OpensRight (disk : Disk) (es : List Entry) (path : List UInt8) (memory : Bool) : Prop :=
  ∀ v out, ∃ fuel r, tarOpenPath disk path O_RDONLY memory fuel v out = some r ∧
    (∀ e sect, firstEntry path es 0 = some (e, sect) → memory = true →
      r = (NOERROR_TAR, some ⟨.reg, e.contents.length, 0, sect⟩)) ∧
    (firstEntry path es 0 = none ∨ memory = false → r.1 ≠ NOERROR_TAR ∧ r.2 = out)

def StatsRight (disk : Disk) (es : List Entry) (path : List UInt8) : Prop :=
  ∀ v out, ∃ fuel r, tarStat disk path fuel v out = some r ∧
    (r.1 = NOERROR_TAR ↔ ∃ e sect, firstEntry path es 0 = some (e, sect) ∧ Typed e.typeFlag)

def Finds (disk : Disk) (path : List UInt8) (r : Option (List UInt8 × Nat)) : Prop :=
  ∃ fuel, findFile disk path fuel 0 = some r

variable {disk : Disk} {path : List UInt8} {es : List Entry} {memory : Bool} {fuel sect : Nat} {v : Locals}
  {r r' : Option (List UInt8 × Nat)}

theorem findFile_mono (h : findFile disk path fuel sect = some r) (n : Nat) :
    findFile disk path (fuel + n) sect = some r := by
  induction fuel generalizing sect with
  | zero => cases h
  | succ fuel ih =>
    rw [Nat.succ_add]
    rw [findFile] at h ⊢
    cases hread : readTarHeader disk sect with
    | none =>
      rw [hread] at h
      exact h
    | some hdr =>
      rw [hread] at h
      dsimp only at h ⊢
      split_ifs at h ⊢ with hname
      · exact ih h
      · exact h

theorem Finds.unique (h : Finds disk path r) (h' : Finds disk path r') : r = r' := by
  obtain ⟨fuel, hfuel⟩ := h
  obtain ⟨fuel', hfuel'⟩ := h'
  have heq := findFile_mono hfuel fuel'
  rw [add_comm, findFile_mono hfuel' fuel] at heq
  exact (some.inj heq).symm

def Locals.after (v : Locals) : Option (List UInt8 × Nat) → Locals
  | none => v
  | some (hdr, sect) => ⟨hdr, sect⟩

theorem lookUp_eq_some_iff {v' : Locals} :
    lookUp disk path fuel v = some v' ↔ ∃ r, findFile disk path fuel 0 = some r ∧ v.after r = v' := by
  unfold lookUp
  rw [map_eq_some_iff]
  refine exists_congr fun r => and_congr_right fun _ => ?_
  cases r <;> rfl

theorem tarOpenPath_eq_some_iff {out : Option TarFile} {x : Int × Option TarFile} :
    tarOpenPath disk path O_RDONLY memory fuel v out = some x ↔
      ∃ r, findFile disk path fuel 0 = some r ∧ x = (NOERROR_TAR,
        if memory then some ⟨.reg, fileSize (v.after r).hdr, 0, (v.after r).sect⟩ else none) := by
  have hopen : ∀ len sect, tarOpen O_RDONLY len sect = some ⟨.reg, len, 0, sect⟩ := fun _ _ => rfl
  unfold tarOpenPath
  cases hlook : lookUp disk path fuel v with
  | none =>
    have hnone : ∀ r, findFile disk path fuel 0 ≠ some r := by
      intro r hr
      rw [lookUp_eq_some_iff.mpr ⟨r, hr, rfl⟩] at hlook
      cases hlook
    simp [hnone]
  | some v' =>
    obtain ⟨r, hr, rfl⟩ := lookUp_eq_some_iff.mp hlook
    simp [hopen, hr, eq_comm]

theorem tarStat_fst {out : Stat} (hfind : findFile disk path fuel 0 = some r) :
    ∃ x, tarStat disk path fuel v out = some x ∧ (x.1 = NOERROR_TAR ↔ Typed (typeFlag (v.after r).hdr)) := by
  unfold tarStat Typed
  rw [lookUp_eq_some_iff.mpr ⟨r, hfind, rfl⟩]
  dsimp only
  split_ifs with hreg hdir
  · exact ⟨_, rfl, by simp [hreg]⟩
  · exact ⟨_, rfl, by simp [hdir]⟩
  · exact ⟨_, rfl, by simp [hreg, hdir, NOERROR_TAR, ERROR_TAR]⟩

theorem finds_of_tarStat {out : Stat} {x : Int × Stat} (h : tarStat disk path fuel v out = some x) :
    ∃ r, findFile disk path fuel 0 = some r ∧ (x.1 = NOERROR_TAR ↔ Typed (typeFlag (v.after r).hdr)) := by
  cases hfind : findFile disk path fuel 0 with
  | none =>
    unfold tarStat lookUp at h
    rw [hfind] at h
    cases h
  | some r =>
    obtain ⟨x', hx', hiff⟩ := tarStat_fst hfind
    cases hx'.symm.trans h
    exact ⟨r, rfl, hiff⟩

/-- A file that is not found is opened all the same. -/
theorem opensRight_iff : OpensRight disk es path memory ↔ memory = true ∧ ∃ e sect hdr,
    firstEntry path es 0 = some (e, sect) ∧ Finds disk path (some (hdr, sect)) ∧
      fileSize hdr = e.contents.length := by
  constructor
  · intro h
    obtain ⟨fuel, x, hx, hsome, hnone⟩ := h ⟨[], 0⟩ none
    obtain ⟨r, hfind, rfl⟩ := tarOpenPath_eq_some_iff.mp hx
    have hmem : memory = true := by
      by_contra hfalse
      exact (hnone (.inr (Bool.eq_false_of_not_eq_true hfalse))).1 rfl
    subst hmem
    refine ⟨rfl, ?_⟩
    cases hfirst : firstEntry path es 0 with
    | none => exact absurd rfl (hnone (.inl hfirst)).1
    | some p =>
      obtain ⟨e, sect⟩ := p
      cases r with
      | some p =>
        obtain ⟨hdr, sect'⟩ := p
        have heq := hsome e sect hfirst rfl
        simp only [Locals.after, if_true, Prod.mk.injEq, some.injEq, TarFile.mk.injEq, true_and] at heq
        obtain ⟨hlen, rfl⟩ := heq
        exact ⟨e, sect', hdr, rfl, ⟨fuel, hfind⟩, hlen⟩
      | none =>
        -- another stack, with another sector
        obtain ⟨fuel', x, hx', hsome', -⟩ := h ⟨[], sect + 1⟩ none
        obtain ⟨r, hfind', rfl⟩ := tarOpenPath_eq_some_iff.mp hx'
        obtain rfl : none = r := Finds.unique ⟨fuel, hfind⟩ ⟨fuel', hfind'⟩
        have heq := hsome' e sect hfirst rfl
        simp [Locals.after] at heq
  · rintro ⟨rfl, e, sect, hdr, hfirst, ⟨fuel, hfind⟩, hlen⟩ v out
    refine ⟨fuel, _, tarOpenPath_eq_some_iff.mpr ⟨_, hfind, rfl⟩, ?_, ?_⟩
    · intro e' sect' hfirst' _
      cases hfirst.symm.trans hfirst'
      rw [Locals.after, hlen, if_pos rfl]
    · rintro (hnone | hfalse)
      · rw [hfirst] at hnone
        cases hnone
      · cases hfalse

theorem statsRight_iff : StatsRight disk es path ↔ ∃ hdr sect, Finds disk path (some (hdr, sect)) ∧
    (Typed (typeFlag hdr) ↔ ∃ e sect, firstEntry path es 0 = some (e, sect) ∧ Typed e.typeFlag) := by
  constructor
  · intro h
    obtain ⟨fuel, x, hx, hiff⟩ := h ⟨[], 0⟩ ⟨.reg, 0⟩
    obtain ⟨r, hfind, htyped⟩ := finds_of_tarStat hx
    cases r with
    | some p => exact ⟨p.1, p.2, ⟨fuel, hfind⟩, htyped.symm.trans hiff⟩
    | none =>
      -- a stack that holds the type of a regular file
      obtain ⟨fuel', x', hx', hiff'⟩ := h ⟨replicate 157 48, 0⟩ ⟨.reg, 0⟩
      obtain ⟨r, hfind', htyped'⟩ := finds_of_tarStat hx'
      obtain rfl : none = r := Finds.unique ⟨fuel, hfind⟩ ⟨fuel', hfind'⟩
      have hreg : Typed (typeFlag (replicate 157 48)) := .inl (by decide)
      have hzero := htyped.mp (hiff.mpr (hiff'.mp (htyped'.mpr hreg)))
      exact absurd hzero (by unfold Typed; decide)
  · rintro ⟨hdr, sect, ⟨fuel, hfind⟩, hiff⟩ v out
    obtain ⟨x, hx, htyped⟩ := tarStat_fst hfind
    exact ⟨fuel, x, hx, htyped.trans hiff⟩

theorem firstEntry_eq_none_iff : firstEntry path es sect = none ↔ ∀ e ∈ es, e.name ≠ path := by
  induction es generalizing sect with
  | nil => simp [firstEntry]
  | cons e es ih =>
    rw [firstEntry]
    split_ifs with hname
    · simp [hname]
    · simp [hname, ih]

theorem firstEntry_eq_some {e : Entry} {sect' : Nat} (h : firstEntry path es sect = some (e, sect')) :
    ∃ pre post, es = pre ++ e :: post ∧ e.name = path ∧ (∀ e' ∈ pre, e'.name ≠ path) ∧
      sect' = sect + sectors pre := by
  induction es generalizing sect with
  | nil => cases h
  | cons e₀ es ih =>
    rw [firstEntry] at h
    split_ifs at h with hname
    · cases h
      exact ⟨[], es, rfl, hname, by simp, rfl⟩
    · obtain ⟨pre, post, rfl, hname', hpre, rfl⟩ := ih h
      refine ⟨e₀ :: pre, post, rfl, hname', ?_, ?_⟩
      · simpa [hname] using hpre
      · rw [sectors]
        omega

theorem typeFlag_header (e : Entry) : typeFlag e.header = e.typeFlag := by
  have hsplit : e.header = (e.front ++ octal e.contents.length 11 ++ [e.sizeEnd]) ++
      (ofFn e.link ++ (TMAGIC ++ (TVERSION ++ e.back))) := by
    simp only [Entry.header, Entry.middle, append_assoc, cons_append, nil_append]
  have hlen : (e.front ++ octal e.contents.length 11 ++ [e.sizeEnd]).length = 136 := by
    simp [Entry.front_length, octal_length, sizeField]
  rw [typeFlag, hsplit, getD_eq_getElem?_getD, getElem?_append_right (by omega), hlen,
    getElem?_append_left (by rw [length_ofFn]; decide), List.getElem?_ofFn]
  rfl

theorem finds_archive (hsize : (archive es).length < 2^32) (hpath : 0 ∉ path) :
    Finds (ramdisk (archive es)) path ((firstEntry path es 0).map fun p => (p.1.header, p.2)) := by
  obtain ⟨hfound, hnone⟩ := findFile_from hpath es [] 0 (es.length + 1) (by simp) hsize (Nat.lt_succ_self _)
  refine ⟨es.length + 1, ?_⟩
  cases hfirst : firstEntry path es 0 with
  | none => exact hnone (firstEntry_eq_none_iff.mp hfirst)
  | some p =>
    obtain ⟨pre, post, hsplit, hname, hpre, hsect⟩ := firstEntry_eq_some hfirst
    rw [map_some, hsect]
    exact hfound pre p.1 post hsplit hname hpre

/-- Both calls are right, on every stack, if and only if there is memory and `find_file` finds
the entry. In an archive below four gigabytes this is so for the names of the archive, and a
call for any other name goes wrong. -/
theorem tarOpen_tarStat_right_iff (disk : Disk) (es : List Entry) (path : List UInt8) (memory : Bool) :
    (OpensRight disk es path memory ∧ StatsRight disk es path ↔ memory = true ∧ ∃ e sect hdr,
      firstEntry path es 0 = some (e, sect) ∧ Finds disk path (some (hdr, sect)) ∧
        fileSize hdr = e.contents.length ∧ (Typed (typeFlag hdr) ↔ Typed e.typeFlag)) ∧
    (disk = ramdisk (archive es) → (archive es).length < 2^32 → 0 ∉ path →
      (OpensRight disk es path memory ∧ StatsRight disk es path ↔ memory = true ∧ ∃ e ∈ es, e.name = path)) := by
  have hiff : OpensRight disk es path memory ∧ StatsRight disk es path ↔ memory = true ∧ ∃ e sect hdr,
      firstEntry path es 0 = some (e, sect) ∧ Finds disk path (some (hdr, sect)) ∧
        fileSize hdr = e.contents.length ∧ (Typed (typeFlag hdr) ↔ Typed e.typeFlag) := by
    rw [opensRight_iff, statsRight_iff]
    constructor
    · rintro ⟨⟨hmem, e, sect, hdr, hfirst, hfind, hlen⟩, hdr', sect', hfind', htyped⟩
      cases hfind.unique hfind'
      refine ⟨hmem, e, sect, hdr, hfirst, hfind, hlen, ?_⟩
      simpa [hfirst] using htyped
    · rintro ⟨hmem, e, sect, hdr, hfirst, hfind, hlen, htyped⟩
      refine ⟨⟨hmem, e, sect, hdr, hfirst, hfind, hlen⟩, hdr, sect, hfind, ?_⟩
      simpa [hfirst] using htyped
  refine ⟨hiff, ?_⟩
  rintro rfl hsize hpath
  have hfind := finds_archive hsize hpath
  rw [hiff]
  refine and_congr_right fun _ => ?_
  constructor
  · rintro ⟨e, sect, hdr, hfirst, -⟩
    obtain ⟨pre, post, rfl, hname, -⟩ := firstEntry_eq_some hfirst
    exact ⟨e, by simp, hname⟩
  · rintro ⟨e, he, hname⟩
    cases hfirst : firstEntry path es 0 with
    | none => exact absurd hname (firstEntry_eq_none_iff.mp hfirst e he)
    | some p =>
      rw [hfirst] at hfind
      exact ⟨p.1, p.2, p.1.header, rfl, hfind, p.1.fileSize_header, by rw [typeFlag_header]⟩

def oneFile : List Entry := [letterEntry 97 [1, 2, 3] letter_ne_zero (by decide)]

theorem oneFile_length : (archive oneFile).length < 2^32 := by
  rw [archive_length]
  decide

theorem tarOpen_tarStat_right_iff_one :
    OpensRight (ramdisk (archive oneFile)) oneFile [97] true ∧ StatsRight (ramdisk (archive oneFile)) oneFile [97] :=
  ((tarOpen_tarStat_right_iff (ramdisk (archive oneFile)) oneFile [97] true).2 rfl oneFile_length (by decide)).mpr
    ⟨rfl, _, mem_singleton_self _, rfl⟩

/-- A name that is not in the archive opens, with the length and the sector that the stack
holds. -/
theorem tarOpen_missing : (∀ e ∈ oneFile, e.name ≠ [98]) ∧ ∀ v out, ∃ fuel,
    tarOpenPath (ramdisk (archive oneFile)) [98] O_RDONLY true fuel v out =
      some (NOERROR_TAR, some ⟨.reg, fileSize v.hdr, 0, v.sect⟩) := by
  have hmissing : firstEntry [98] oneFile 0 = none := by decide
  refine ⟨firstEntry_eq_none_iff.mp hmissing, fun v out => ?_⟩
  obtain ⟨fuel, hfind⟩ := finds_archive oneFile_length (show 0 ∉ ([98] : List UInt8) by decide)
  rw [hmissing] at hfind
  exact ⟨fuel, tarOpenPath_eq_some_iff.mpr ⟨none, hfind, rfl⟩⟩

end Comus.Fs
