import Comus.Fs.Opening

/-!
# Listing a directory (tar_ents)

The search inside `tar_ents` starts again from the first header each time: what
`find_file_redux` adds to is its own copy of the pointer, not the sector behind it.
The name that it looks for is the one of the first header as well.
-/

namespace Comus.Fs

open Word List

def cString (s : List UInt8) : List UInt8 := s.takeWhile (· ≠ 0)

/-- `find_file_redux` from a sector on: the names are compared as far as the shorter one goes. -/
def findFileRedux (disk : Disk) (path : List UInt8) : Nat → Nat → Option (Option (List UInt8 × Nat))
  | 0, _ => none
  | fuel + 1, currSect =>
    match readTarHeader disk currSect with
    | none => some none
    | some hdr =>
      if memcmp hdr path (min path.length (cString hdr).length) ≠ 0 then
        findFileRedux disk path fuel (nextSect hdr currSect)
      else some (some (hdr, currSect))

structure Dirent where
  offset : Nat
  namelen : Nat
  name : List UInt8
  deriving Repr, DecidableEq

/-- The loop of `tar_ents` with so many rounds to go before the last one: `sect_off` stays zero. -/
def tarEntsLoop (disk : Disk) (name : List UInt8) (fuel : Nat) : Nat → Option (Option (List UInt8))
  | 0 =>
    match findFileRedux disk name fuel 0 with
    | none => none
    | some none => some none
    | some (some (hdr, _)) => some (some hdr)
  | n + 1 =>
    match findFileRedux disk name fuel 0 with
    | none => none
    | some none => some none
    | some (some _) => tarEntsLoop disk name fuel n

def tarEnts (disk : Disk) (f : TarFile) (fuel entry : Nat) (ent : Dirent) : Option (Int × Dirent) :=
  if f.type ≠ .dir then some (ERROR_TAR, ent)
  else
    match readTarHeader disk 0 with
    | none => some (ERROR_TAR, ent)
    | some dir =>
      match tarEntsLoop disk (cString dir) fuel entry with
      | none => none
      | some none => some (ERROR_TAR, ent)
      | some (some hdr) =>
        let namelen := (cString hdr).length % 2^16
        some (NOERROR_TAR, ⟨entry, namelen, hdr.take (namelen + 1)⟩)

def listing (es : List Entry) (dir : Entry) : List Entry := es.filter fun e => dir.name.isPrefixOf e.name

def Enumerates (disk : Disk) (es : List Entry) (dir : Entry) (f : TarFile) : Prop :=
  ∀ i ent, ∃ fuel r, tarEnts disk f fuel i ent = some r ∧
    match (listing es dir)[i]? with
    | some e => r = (NOERROR_TAR, ⟨i, e.name.length, e.name ++ [0]⟩)
    | none => r.1 ≠ NOERROR_TAR

variable {disk : Disk} {e : Entry} {f : TarFile} {fuel i : Nat}
  {ent : Dirent}

theorem readTarHeader_first (e : Entry) (es : List Entry) :
    readTarHeader (ramdisk (archive (e :: es))) 0 = some e.header := by
  have hsplit : archive (e :: es) = e.header ++ (e.data ++ archive es) := by
    simp only [archive, flatMap_cons, Entry.bytes, append_assoc]
  have hread : (ramdisk (archive (e :: es))).read (0 % 2^32 * TAR_SIZE % 2^32) TAR_SIZE =
      ((TAR_SIZE : Int), e.header) := by
    change diskReadRd _ 0 _ = _
    have hlen := e.header_length
    unfold TAR_SIZE at hlen ⊢
    rw [hsplit, diskReadRd, if_neg (by rw [length_append]; omega)]
    dsimp only
    rw [if_neg (by rw [length_append]; omega), drop_zero, ← hlen, take_left, hlen,
      toI32_of_lt (by decide) (by decide)]
  unfold readTarHeader
  rw [hread]
  dsimp only
  rw [if_neg (lt_irrefl _), if_neg]
  rintro (hmagic | hversion)
  · exact hmagic e.header_magic
  · exact hversion e.header_version

theorem cString_header (e : Entry) : cString e.header = e.name := by
  obtain ⟨rest, hrest⟩ := e.header_name
  have hname : ∀ c ∈ e.name, decide (c ≠ 0) = true := by
    intro c hc
    simpa using fun h : c = 0 => e.name_null (h ▸ hc)
  rw [cString, hrest, takeWhile_append_of_pos hname]
  simp

section ReadTarHeader

variable (h : readTarHeader disk 0 = some e.header)
include h

theorem findFileRedux_first :
    findFileRedux disk e.name (fuel + 1) 0 = some (some (e.header, 0)) := by
  obtain ⟨rest, hrest⟩ := e.header_name
  have hsame : memcmp e.header e.name e.name.length = 0 := by
    simpa [hrest] using memcmp_append_eq_zero e.name (0 :: rest) []
  rw [findFileRedux, h]
  dsimp only
  rw [cString_header, Nat.min_self, if_neg (not_not.mpr hsame)]

theorem tarEntsLoop_first (n : Nat) :
    tarEntsLoop disk e.name (fuel + 1) n = some (some e.header) := by
  induction n with
  | zero => rw [tarEntsLoop, findFileRedux_first h]
  | succ n ih => rw [tarEntsLoop, findFileRedux_first h, ih]

theorem tarEnts_first (htype : f.type = .dir) :
    tarEnts disk f (fuel + 1) i ent = some (NOERROR_TAR, ⟨i, e.name.length, e.name ++ [0]⟩) := by
  obtain ⟨rest, hrest⟩ := e.header_name
  have hshort := e.name_short
  have hname : e.header.take (e.name.length + 1) = e.name ++ [0] := by
    rw [hrest, take_append, take_of_length_le (by omega), Nat.add_sub_cancel_left]
    rfl
  rw [tarEnts, if_neg (not_not.mpr htype), h]
  dsimp only
  rw [cString_header, tarEntsLoop_first h]
  dsimp only
  rw [cString_header, Nat.mod_eq_of_lt (by omega), hname]

theorem tarEnts_zero (htype : f.type = .dir) :
    tarEnts disk f 0 i ent = none := by
  rw [tarEnts, if_neg (not_not.mpr htype), h]
  dsimp only
  cases i <;> rfl

end ReadTarHeader

/-- No directory of any archive is listed: a file that `tar_open` has made is no directory to
`tar_ents`, and for one that is the listing has no end. -/
theorem not_enumerates (es : List Entry) (dir : Entry) (hdir : dir ∈ es) (f : TarFile) :
    ¬ Enumerates (ramdisk (archive es)) es dir f := by
  intro h
  cases es with
  | nil => cases hdir
  | cons e es =>
    have hread := readTarHeader_first e es
    cases htype : f.type with
    | reg =>
      -- the directory itself is in the list
      have hmem : dir ∈ listing (e :: es) dir := mem_filter.mpr ⟨hdir, by simp⟩
      obtain ⟨fuel, r, hr, hspec⟩ := h 0 ⟨0, 0, []⟩
      rw [getElem?_eq_getElem (length_pos_of_mem hmem)] at hspec
      rw [tarEnts, if_pos (by simp [htype])] at hr
      subst hspec
      cases hr
    | dir =>
      obtain ⟨fuel, r, hr, hspec⟩ := h (listing (e :: es) dir).length ⟨0, 0, []⟩
      rw [getElem?_eq_none le_rfl] at hspec
      cases fuel with
      | zero =>
        rw [tarEnts_zero hread htype] at hr
        cases hr
      | succ fuel =>
        rw [tarEnts_first hread htype] at hr
        exact hspec (congrArg Prod.fst (Option.some.inj hr).symm)

theorem not_enumerates_one : ¬ Enumerates (ramdisk (archive oneFile)) oneFile
    (letterEntry 97 [1, 2, 3] (by decide) (by decide)) ⟨.dir, 3, 0, 0⟩ :=
  not_enumerates oneFile _ (mem_singleton_self _) _

/-- The archive has one entry, and index 5 gets it too. -/
theorem tarEnts_sixth : oneFile.length = 1 ∧
    ∃ fuel, tarEnts (ramdisk (archive oneFile)) ⟨.dir, 0, 0, 0⟩ fuel 5 ⟨0, 0, []⟩ =
      some (NOERROR_TAR, ⟨5, 1, [97, 0]⟩) :=
  ⟨rfl, 1, tarEnts_first (readTarHeader_first _ _) rfl⟩

end Comus.Fs
