import Comus.Fs.Lookup

/-!
# Archives

A ustar archive is the list of its entries, each a header block followed by the
contents in whole blocks, and two zero blocks. The walk of `findFile` visits the
headers of the entries one after the other, whatever the contents are.
-/

namespace Comus.Fs

open Word List

/-- One file of an archive. The header fields that the kernel does not look at are free. -/
structure Entry where
  name : List UInt8
  contents : List UInt8
  /-- Mode, owner and group. -/
  owner : Fin 24 → UInt8
  /-- The byte behind the digits of the size. -/
  sizeEnd : UInt8
  /-- Time, checksum, type and link name. -/
  link : Fin 121 → UInt8
  /-- User, group and device numbers. -/
  device : Fin 80 → UInt8
  unused : Fin 12 → UInt8
  /-- What fills the last block of the contents. -/
  padding : Nat → UInt8
  name_ne : name ≠ []
  name_short : name.length < 100
  name_null : 0 ∉ name
  size_lt : contents.length < 8^11
  sizeEnd_not_digit : sizeEnd.toNat < 48 ∨ 55 < sizeEnd.toNat

def octal (n : Nat) : Nat → List UInt8
  | 0 => []
  | w + 1 => UInt8.ofNat (48 + n / 8^w % 8) :: octal n w

def Entry.front (e : Entry) : List UInt8 :=
  e.name ++ replicate (100 - e.name.length) 0 ++ ofFn e.owner

def Entry.middle (e : Entry) : List UInt8 :=
  octal e.contents.length 11 ++ e.sizeEnd :: ofFn e.link

def Entry.back (e : Entry) : List UInt8 :=
  ofFn e.device ++ replicate 155 0 ++ ofFn e.unused

def Entry.header (e : Entry) : List UInt8 := e.front ++ (e.middle ++ (TMAGIC ++ (TVERSION ++ e.back)))

def Entry.blocks (e : Entry) : Nat := (e.contents.length + TAR_SIZE - 1) / TAR_SIZE

def Entry.data (e : Entry) : List UInt8 :=
  e.contents ++ (range (e.blocks * TAR_SIZE - e.contents.length)).map e.padding

def Entry.bytes (e : Entry) : List UInt8 := e.header ++ e.data

def archive (es : List Entry) : List UInt8 :=
  es.flatMap Entry.bytes ++ replicate (2 * TAR_SIZE) 0

def sectors : List Entry → Nat
  | [] => 0
  | e :: es => e.blocks + 1 + sectors es

section Strings

variable {name path rest : List UInt8}

theorem memcmp_append_eq_zero (l rest rest' : List UInt8) :
    memcmp (l ++ rest) (l ++ rest') l.length = 0 := by
  induction l with
  | nil => rfl
  | cons c l ih => simp [memcmp, ih]

theorem memcmp_string_iff (hname : 0 ∉ name) (hpath : 0 ∉ path) :
    memcmp (name ++ 0 :: rest) (path ++ [0]) (path.length + 1) = 0 ↔ name = path := by
  have hdiff : ∀ a b : UInt8, a ≠ b → (a.toNat : Int) - b.toNat ≠ 0 := by
    intro a b hab hzero
    exact hab (UInt8.toNat_inj.mp (by omega))
  induction path generalizing name with
  | nil =>
    cases name with
    | nil => simp [memcmp]
    | cons c name =>
      have hc : c ≠ 0 := fun h => hname (by simp [h])
      simpa [memcmp, hc] using hdiff c 0 hc
  | cons d path ih =>
    have hd : d ≠ 0 := fun h => hpath (by simp [h])
    cases name with
    | nil => simpa [memcmp, hd.symm] using hdiff 0 d hd.symm
    | cons c name =>
      by_cases hcd : c = d
      · subst hcd
        have hrec := ih (fun h : 0 ∈ name => hname (by simp [h])) fun h => hpath (by simp [h])
        simpa [memcmp] using hrec
      · simpa [memcmp, hcd] using hdiff c d hcd

theorem octal_length (n w : Nat) : (octal n w).length = w := by
  induction w with
  | zero => rfl
  | succ w ih => simp [octal, ih]

theorem ctoi_digit {d : Nat} (hd : d < 8) : ctoi (UInt8.ofNat (48 + d)) = d := by
  have hnat : (UInt8.ofNat (48 + d)).toNat = 48 + d := by
    rw [UInt8.toNat_ofNat']
    omega
  unfold ctoi
  rw [hnat, if_pos (by omega)]
  omega

theorem ctoi_not_digit {c : UInt8} (hc : c.toNat < 48 ∨ 55 < c.toNat) : ctoi c < 0 ∨ ctoi c ≥ (8 : Nat) := by
  unfold ctoi
  split_ifs <;> omega

theorem strtoullDigits_octal {c : UInt8} (hc : c.toNat < 48 ∨ 55 < c.toNat) (n w num : Nat)
    (hfit : (num + 1) * 8^w ≤ 2^64) :
    strtoullDigits 8 (octal n w ++ c :: rest) num = num * 8^w + n % 8^w := by
  induction w generalizing num with
  | zero =>
    rw [octal, nil_append, strtoullDigits, if_pos (ctoi_not_digit hc), pow_zero, Nat.mod_one]
    omega
  | succ w ih =>
    have hdigit : n / 8^w % 8 < 8 := Nat.mod_lt _ (by decide)
    have hpow : 8^(w + 1) = 8 * 8^w := by rw [pow_succ, mul_comm]
    have hpos : 0 < 8^w := by positivity
    rw [hpow] at hfit
    have hnext : (num * 8 + n / 8^w % 8 + 1) * 8^w ≤ 2^64 := by
      calc (num * 8 + n / 8^w % 8 + 1) * 8^w ≤ (num * 8 + 8) * 8^w :=
            Nat.mul_le_mul_right _ (by omega)
        _ = (num + 1) * (8 * 8^w) := by ring
        _ ≤ 2^64 := hfit
    have hlt : num * 8 + n / 8^w % 8 < 2^64 := by nlinarith
    rw [octal, cons_append, strtoullDigits, ctoi_digit hdigit, if_neg (by omega),
      Int.toNat_natCast, u64_of_lt hlt, ih _ hnext, hpow, mul_comm 8 (8^w), Nat.mod_mul]
    ring

end Strings

namespace Entry

variable (e : Entry)

theorem front_length : e.front.length = sizeField := by
  have hshort := e.name_short
  simp only [front, length_append, length_replicate, length_ofFn, sizeField]
  omega

theorem middle_length : e.middle.length = 133 := by
  simp only [middle, length_append, length_cons, length_ofFn, octal_length]

theorem header_length : e.header.length = TAR_SIZE := by
  simp only [header, back, length_append, length_replicate, length_ofFn,
    front_length, middle_length]
  rfl

theorem data_length : e.data.length = e.blocks * TAR_SIZE := by
  have hle : e.contents.length ≤ e.blocks * TAR_SIZE := by
    unfold blocks TAR_SIZE
    omega
  simp only [data, length_append, length_map, length_range]
  omega

theorem bytes_length : e.bytes.length = (e.blocks + 1) * TAR_SIZE := by
  rw [bytes, length_append, header_length, data_length]
  ring

theorem fileSize_header : fileSize e.header = e.contents.length := by
  have hspace : ∀ rest, (octal e.contents.length 11 ++ rest).dropWhile isspace =
      octal e.contents.length 11 ++ rest := by
    intro rest
    have hdigit : e.contents.length / 8^10 % 8 < 8 := Nat.mod_lt _ (by decide)
    rw [octal, cons_append, dropWhile_cons_of_neg]
    generalize e.contents.length / 8^10 % 8 = d at hdigit
    interval_cases d <;> decide
  have hdrop : e.header.drop sizeField = octal e.contents.length 11 ++ e.sizeEnd ::
      (ofFn e.link ++ (TMAGIC ++ (TVERSION ++ e.back))) := by
    rw [header, drop_left' e.front_length, middle, append_assoc, cons_append]
  rw [fileSize, hdrop, strtoull, hspace, if_neg (fun h => absurd h.1 (by decide)), if_neg (by decide),
    strtoullDigits_octal e.sizeEnd_not_digit _ _ _ (by norm_num), zero_mul, zero_add,
    Nat.mod_eq_of_lt e.size_lt]

theorem header_magic : memcmp (e.header.drop magicField) TMAGIC 6 = 0 := by
  have hfront : (e.front ++ e.middle).length = magicField := by
    rw [length_append, front_length, middle_length]
    rfl
  rw [header, ← append_assoc, drop_left' hfront]
  exact memcmp_append_eq_zero TMAGIC _ []

theorem header_version : memcmp (e.header.drop versionField) TVERSION 2 = 0 := by
  have hfront : (e.front ++ e.middle ++ TMAGIC).length = versionField := by
    rw [length_append, length_append, front_length, middle_length]
    rfl
  rw [header, ← append_assoc, ← append_assoc, drop_left' hfront]
  exact memcmp_append_eq_zero TVERSION _ []

theorem header_name : ∃ rest, e.header = e.name ++ 0 :: rest := by
  have hshort := e.name_short
  obtain ⟨k, hk⟩ : ∃ k, 100 - e.name.length = k + 1 := ⟨99 - e.name.length, by omega⟩
  refine ⟨replicate k 0 ++ (ofFn e.owner ++ (e.middle ++ (TMAGIC ++ (TVERSION ++ e.back)))), ?_⟩
  rw [header, front, hk, replicate_succ]
  simp only [append_assoc, cons_append]

theorem memcmp_header_iff {path : List UInt8} (hpath : 0 ∉ path) :
    memcmp e.header (path ++ [0]) (path.length + 1) = 0 ↔ e.name = path := by
  obtain ⟨rest, hheader⟩ := e.header_name
  rw [hheader]
  exact memcmp_string_iff e.name_null hpath

theorem nextSect_header {sect : Nat} (h : sect + e.blocks + 1 < 2^32) :
    nextSect e.header sect = sect + e.blocks + 1 := by
  have hfit : e.contents.length + TAR_SIZE - 1 < 2^64 := by
    have hsize := e.size_lt
    unfold TAR_SIZE
    omega
  unfold nextSect
  rw [fileSize_header, u64_of_lt hfit]
  change u64 (sect + (e.blocks + 1)) = _
  rw [u64_of_lt (by omega)]
  omega

end Entry

theorem entries_length (es : List Entry) : (es.flatMap Entry.bytes).length = sectors es * TAR_SIZE := by
  induction es with
  | nil => rfl
  | cons e es ih =>
    rw [flatMap_cons, length_append, ih, Entry.bytes_length, sectors]
    ring

theorem archive_length (es : List Entry) : (archive es).length = (sectors es + 2) * TAR_SIZE := by
  rw [archive, length_append, entries_length, length_replicate]
  ring

theorem archive_getElem (pre post : List Entry) (e : Entry) {i : Nat} (hi : i < e.contents.length) :
    (archive (pre ++ e :: post))[(sectors pre + 1) * TAR_SIZE + i]? = e.contents[i]? := by
  have hpos : (sectors pre + 1) * TAR_SIZE + i = (pre.flatMap Entry.bytes ++ e.header).length + i := by
    rw [length_append, entries_length, Entry.header_length]
    ring
  have hsplit : archive (pre ++ e :: post) = (pre.flatMap Entry.bytes ++ e.header) ++
      (e.data ++ (post.flatMap Entry.bytes ++ replicate (2 * TAR_SIZE) 0)) := by
    simp only [archive, flatMap_append, flatMap_cons, Entry.bytes, append_assoc]
  rw [hpos, hsplit, getElem?_append_right (Nat.le_add_right _ _), Nat.add_sub_cancel_left,
    Entry.data, append_assoc, getElem?_append_left hi]

section Walk

variable {front rest hdr : List UInt8} {sect : Nat}

theorem read_block (hfront : front.length = sect * TAR_SIZE) (hhdr : hdr.length = TAR_SIZE)
    (hsize : (front ++ (hdr ++ rest)).length < 2^32) :
    (ramdisk (front ++ (hdr ++ rest))).read (sect % 2^32 * TAR_SIZE % 2^32) TAR_SIZE =
      ((TAR_SIZE : Int), hdr) := by
  simp only [length_append] at hsize
  unfold TAR_SIZE at *
  have hsect : sect % 2^32 * 512 % 2^32 = front.length := by omega
  change diskReadRd _ _ _ = _
  rw [hsect, diskReadRd, if_neg (by simp only [length_append]; omega)]
  dsimp only
  rw [if_neg (by simp only [length_append]; omega), drop_left, ← hhdr, take_left,
    hhdr, toI32_of_lt (by omega) (by omega)]

theorem readTarHeader_entry (e : Entry) (hfront : front.length = sect * TAR_SIZE)
    (hsize : (front ++ (e.header ++ rest)).length < 2^32) :
    readTarHeader (ramdisk (front ++ (e.header ++ rest))) sect = some e.header := by
  unfold readTarHeader
  rw [read_block hfront e.header_length hsize]
  dsimp only
  rw [if_neg (lt_irrefl _), if_neg]
  rintro (hmagic | hversion)
  · exact hmagic e.header_magic
  · exact hversion e.header_version

theorem readTarHeader_end (hfront : front.length = sect * TAR_SIZE)
    (hsize : (front ++ replicate (2 * TAR_SIZE) 0).length < 2^32) :
    readTarHeader (ramdisk (front ++ replicate (2 * TAR_SIZE) 0)) sect = none := by
  have hzeros : replicate (2 * TAR_SIZE) (0 : UInt8) =
      replicate TAR_SIZE 0 ++ replicate TAR_SIZE 0 := by
    rw [← replicate_add]
    rfl
  rw [hzeros] at hsize ⊢
  unfold readTarHeader
  rw [read_block hfront (by simp) hsize]
  dsimp only
  rw [if_neg (lt_irrefl _), if_pos]
  left
  rw [drop_replicate]
  decide

theorem findFile_from {path : List UInt8} (hpath : 0 ∉ path) (es : List Entry) (front : List UInt8)
    (sect fuel : Nat) (hfront : front.length = sect * TAR_SIZE)
    (hsize : (front ++ archive es).length < 2^32) (hfuel : es.length < fuel) :
    (∀ pre e post, es = pre ++ e :: post → e.name = path → (∀ e' ∈ pre, e'.name ≠ path) →
      findFile (ramdisk (front ++ archive es)) path fuel sect =
        some (some (e.header, sect + sectors pre))) ∧
    ((∀ e ∈ es, e.name ≠ path) →
      findFile (ramdisk (front ++ archive es)) path fuel sect = some none) := by
  induction es generalizing front sect fuel with
  | nil =>
    obtain ⟨fuel, rfl⟩ := Nat.exists_eq_succ_of_ne_zero (Nat.ne_of_gt (Nat.zero_lt_of_lt hfuel))
    refine ⟨fun pre e post h => absurd h (by simp), fun _ => ?_⟩
    have hend : archive [] = replicate (2 * TAR_SIZE) 0 := rfl
    rw [hend] at hsize ⊢
    rw [findFile, readTarHeader_end hfront hsize]
  | cons e es ih =>
    obtain ⟨fuel, rfl⟩ := Nat.exists_eq_succ_of_ne_zero (Nat.ne_of_gt (Nat.zero_lt_of_lt hfuel))
    -- the archive splits behind the first header, and behind the first entry
    have hheader : archive (e :: es) = e.header ++ (e.data ++ archive es) := by
      simp [archive, Entry.bytes]
    have hentry : front ++ archive (e :: es) = (front ++ e.bytes) ++ archive es := by
      simp [archive]
    have hread : readTarHeader (ramdisk (front ++ archive (e :: es))) sect = some e.header := by
      rw [hheader] at hsize ⊢
      exact readTarHeader_entry e hfront hsize
    have hnext : (front ++ e.bytes).length = (sect + e.blocks + 1) * TAR_SIZE := by
      rw [length_append, hfront, Entry.bytes_length]
      ring
    have hsmall : sect + e.blocks + 1 < 2^32 := by
      have hle : (front ++ e.bytes).length ≤ (front ++ archive (e :: es)).length := by
        rw [hentry]
        simp only [length_append]
        omega
      rw [hnext] at hle
      unfold TAR_SIZE at hle
      omega
    have hstep : e.name ≠ path → findFile (ramdisk (front ++ archive (e :: es))) path (fuel + 1) sect =
        findFile (ramdisk (front ++ e.bytes ++ archive es)) path fuel (sect + e.blocks + 1) := by
      intro hne
      rw [findFile, hread]
      dsimp only
      rw [if_pos (fun h => hne ((e.memcmp_header_iff hpath).mp h)), e.nextSect_header hsmall, hentry]
    obtain ⟨hfound, hnone⟩ := ih (front ++ e.bytes) (sect + e.blocks + 1) fuel hnext
      (hentry ▸ hsize) (by simpa using hfuel)
    constructor
    · intro pre e' post hsplit hname hpre
      cases pre with
      | nil =>
        obtain ⟨rfl, rfl⟩ := cons.inj hsplit
        rw [findFile, hread]
        dsimp only
        rw [if_neg (not_not.mpr ((e.memcmp_header_iff hpath).mpr hname))]
        rfl
      | cons e'' pre =>
        obtain ⟨rfl, htail⟩ := cons.inj hsplit
        rw [hstep (hpre e (by simp)), hfound pre e' post htail hname fun x hx => hpre x (by simp [hx])]
        congr 3
        simp only [sectors]
        omega
    · intro hall
      rw [hstep (hall e (by simp)), hnone fun x hx => hall x (by simp [hx])]

end Walk

/-- `find_file` on an archive below four gigabytes finds the first entry with the name of
the path, and fails if there is none. -/
theorem findFile_archive (es : List Entry) (hsize : (archive es).length < 2^32)
    (path : List UInt8) (hpath : 0 ∉ path) (fuel : Nat) (hfuel : es.length < fuel) :
    ((∃ r, findFile (ramdisk (archive es)) path fuel 0 = some (some r)) ↔ ∃ e ∈ es, e.name = path) ∧
    ((¬ ∃ e ∈ es, e.name = path) → findFile (ramdisk (archive es)) path fuel 0 = some none) ∧
    (∀ pre e post, es = pre ++ e :: post → e.name = path → (∀ e' ∈ pre, e'.name ≠ path) →
      findFile (ramdisk (archive es)) path fuel 0 = some (some (e.header, sectors pre))) := by
  obtain ⟨hfound, hnone⟩ := findFile_from hpath es [] 0 fuel (by simp) hsize hfuel
  simp only [nil_append, zero_add] at hfound hnone
  have hmissing : (¬ ∃ e ∈ es, e.name = path) →
      findFile (ramdisk (archive es)) path fuel 0 = some none :=
    fun h => hnone fun e he hname => h ⟨e, he, hname⟩
  refine ⟨⟨?_, ?_⟩, hmissing, hfound⟩
  · rintro ⟨r, hr⟩
    by_contra hno
    rw [hmissing hno] at hr
    simp at hr
  · rintro ⟨e, he, hname⟩
    -- the first of the entries with this name
    obtain ⟨pre, e', post, hsplit, hname', hpre⟩ : ∃ pre e' post, es = pre ++ e' :: post ∧
        e'.name = path ∧ ∀ x ∈ pre, x.name ≠ path := by
      classical
      have hex : ∃ x ∈ es, decide (x.name = path) = true := ⟨e, he, by simpa using hname⟩
      obtain ⟨x, hx⟩ := Option.isSome_iff_exists.mp (find?_isSome.mpr hex)
      obtain ⟨hxname, pre, post, hsplit, hpre⟩ := find?_eq_some_iff_append.mp hx
      refine ⟨pre, x, post, hsplit, by simpa using hxname, fun y hy => ?_⟩
      simpa using hpre y hy
    exact ⟨_, hfound pre e' post hsplit hname' hpre⟩

theorem letter_ne_zero : (97 : UInt8) ≠ 0 := by decide

def letterEntry (letter : UInt8) (contents : List UInt8) (hletter : letter ≠ 0)
    (hsize : contents.length < 8^11) : Entry where
  name := [letter]
  contents := contents
  owner _ := 48
  sizeEnd := 0
  link _ := 0
  device _ := 0
  unused _ := 0
  padding _ := 0
  name_ne := by simp
  name_short := by simp
  name_null := by simpa using hletter.symm
  size_lt := hsize
  sizeEnd_not_digit := by decide

/-- Two files: the second one is found behind the block of the first. -/
theorem findFile_archive_two :
    findFile (ramdisk (archive [letterEntry 97 [1, 2, 3] (by decide) (by decide),
      letterEntry 98 [] (by decide) (by decide)])) [98] 3 0 =
        some (some ((letterEntry 98 [] (by decide) (by decide)).header, 2)) := by
  have hsize : (archive [letterEntry 97 [1, 2, 3] (by decide) (by decide),
      letterEntry 98 [] (by decide) (by decide)]).length < 2^32 := by
    rw [archive_length]
    decide
  exact (findFile_archive _ hsize [98] (by decide) 3 (by decide)).2.2
    [letterEntry 97 [1, 2, 3] (by decide) (by decide)] _ [] rfl rfl (by decide)

end Comus.Fs
