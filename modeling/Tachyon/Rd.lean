import Mathlib.Data.List.TakeWhile
import Tachyon.Lib.Bytes

/-!
# RAM-disk images (`rd.h`, `tools/apps/rd/rd.c`)

An image is a header, and for each file a file header followed by the contents.  Reads, writes and
`sendfile` transfer all that is asked for, if it is there.

* `create`, `extract`: the source;
* `body`: the bytes of the files, with the position of each one;
* `createLoop_eq`, `extractLoop_eq`: the loops against `body`;
* `image_round_trip`: what is extracted from an image are the files it was created from.
-/

namespace Tachyon.Rd

open List

/-- `RD_MAGIC`. -/
def rdMagic : ℕ := 0x44524452

/-- `RD_VSZ`, the room for an image in the kernel. -/
def rdVsz : ℕ := 0x8000000

def errFilename : ℕ := 2
def errOscall : ℕ := 3
def errNoimage : ℕ := 4
def errHdrsize : ℕ := 5
def errIsdir : ℕ := 6

/-- A return with an error code, or a use of a header that was not read. -/
inductive Stop
  | code (n : ℕ)
  | undefined
  deriving DecidableEq, Repr

/-! ### Headers -/

/-- `rd_header_t`. -/
structure RdHeader where
  magic : ℕ
  hdrSize : ℕ
  numFiles : ℕ
  deriving DecidableEq, Repr

/-- `rd_file_t`. -/
structure RdFile where
  hdrSize : ℕ
  start : ℕ
  size : ℕ
  name : List UInt8
  deriving DecidableEq, Repr

/-- `sizeof(rd_header_t)`, `sizeof(fhdr.name)` and `sizeof(rd_file_t)`. -/
def headerSize : ℕ := 12
def nameSize : ℕ := 64
def fileSize : ℕ := 12 + nameSize

def RdHeader.bytes (h : RdHeader) : List UInt8 :=
  toLE 4 h.magic ++ toLE 4 h.hdrSize ++ toLE 4 h.numFiles

def RdHeader.ofBytes (bs : List UInt8) : RdHeader :=
  ⟨ofLE (slice bs 0 4), ofLE (slice bs 4 4), ofLE (slice bs 8 4)⟩

def RdFile.bytes (h : RdFile) : List UInt8 :=
  toLE 4 h.hdrSize ++ toLE 4 h.start ++ toLE 4 h.size ++ h.name

def RdFile.ofBytes (bs : List UInt8) : RdFile :=
  ⟨ofLE (slice bs 0 4), ofLE (slice bs 4 4), ofLE (slice bs 8 4), slice bs 12 nameSize⟩

/-! ### The source -/

/-- What `stat` finds under a name. -/
inductive Node
  | dir
  | file (data : List UInt8)

/-- The character `/`. -/
def slash : UInt8 := 47

/-- What is behind the last `/`. -/
def basename (path : List UInt8) : List UInt8 := (path.reverse.takeWhile (· ≠ slash)).reverse

/-- `strncpy` to the field `name`. -/
def nameField (base : List UInt8) : List UInt8 := (base ++ List.replicate nameSize 0).take nameSize

/-- `CHECK_CALL` for a call that returns a number of bytes. -/
def checkCall {α : Type} (x : ℕ) (k : Except Stop α) : Except Stop α :=
  if x % 2 ^ 32 = 2 ^ 32 - 1 then .error (.code errOscall) else k

/-- The loop of `create`. -/
def createLoop (host : List UInt8 → Option Node) :
    List (List UInt8) → ℕ → Stream → Except Stop Stream
  | [], _, target => .ok target
  | filename :: rest, pos, target =>
    if nameSize - 1 < filename.length then .error (.code errFilename)
    else
      match host filename with
      | none => .error (.code errOscall)
      | some .dir => .error (.code errIsdir)
      | some (.file data) =>
        let fhdr : RdFile := ⟨fileSize, (pos + fileSize) % 2 ^ 32, data.length % 2 ^ 32,
          nameField (basename filename)⟩
        checkCall (data.take fhdr.size).length
          (createLoop host rest ((pos + fileSize + fhdr.size) % 2 ^ 32)
            ((target.write fhdr.bytes).write (data.take fhdr.size)))

/-- `create`, over a target that holds the bytes `old`: the bytes it holds then. -/
def create (host : List UInt8 → Option Node) (old : List UInt8) (filenames : List (List UInt8)) :
    Except Stop (List UInt8) :=
  let hdr : RdHeader := ⟨rdMagic, headerSize, filenames.length % 2 ^ 32⟩
  (createLoop host filenames headerSize (Stream.write ⟨old, 0⟩ hdr.bytes)).map (·.data)

/-- The files in a directory, in the order in which they were created. -/
abbrev Dir := List (List UInt8 × List UInt8)

/-- `open` with `O_CREAT | O_EXCL` succeeds. -/
def CanCreate (dir : Dir) (name : List UInt8) : Prop :=
  name ∉ dir.map Prod.fst ∧ name ≠ [] ∧ name ≠ [46] ∧ name ≠ [46, 46] ∧ slash ∉ name

instance (dir : Dir) (name : List UInt8) : Decidable (CanCreate dir name) :=
  inferInstanceAs (Decidable (_ ∧ _ ∧ _ ∧ _ ∧ _))

/-- The string in a field. -/
def cString (bs : List UInt8) : Except Stop (List UInt8) :=
  if 0 ∈ bs then .ok (bs.takeWhile (· ≠ 0)) else .error .undefined

/-- One file is copied from the image to the directory, unless the image is only tested. -/
def extractFile (test : Bool) (image : List UInt8) (fhdr : RdFile) (dir : Dir) : Except Stop Dir :=
  if test then .ok dir
  else
    cString fhdr.name >>= fun name =>
      if CanCreate dir name then
        checkCall (slice image fhdr.start fhdr.size).length
          (.ok (dir ++ [(name, slice image fhdr.start fhdr.size)]))
      else .error (.code errOscall)

/-- The loop of `extract`: the files in the directory, and the headers that are listed. -/
def extractLoop (test : Bool) : ℕ → Stream → Dir → List RdFile → Except Stop (Dir × List RdFile)
  | 0, _, dir, listed => .ok (dir, listed)
  | numFiles + 1, source, dir, listed =>
    let br := source.read fileSize
    if br.1.length ≠ fileSize then .error .undefined
    else
      let fhdr := RdFile.ofBytes br.1
      if fhdr.hdrSize ≠ fileSize then .error (.code errHdrsize)
      else
        extractFile test source.data fhdr dir >>= fun dir =>
          let off := (fhdr.start + fhdr.size) % 2 ^ 32
          checkCall off
            (extractLoop test numFiles { br.2 with pos := off } dir (listed ++ [fhdr]))

/-- `extract`, to an empty directory. -/
def extract (test : Bool) (image : List UInt8) : Except Stop (Dir × List RdFile) :=
  let br := Stream.read ⟨image, 0⟩ headerSize
  if br.1.length ≠ headerSize then .error .undefined
  else
    let hdr := RdHeader.ofBytes br.1
    if hdr.magic ≠ rdMagic then .error (.code errNoimage)
    else if hdr.hdrSize ≠ headerSize then .error (.code errHdrsize)
    else extractLoop test hdr.numFiles br.2 [] []

/-! ### The bytes of the files -/

/-- A file on the command line. -/
structure File where
  path : List UInt8
  data : List UInt8

/-- A regular file; its path is a string that does not end in the name of a directory. -/
structure Regular (host : List UInt8 → Option Node) (f : File) : Prop where
  lookup : host f.path = some (.file f.data)
  nul : 0 ∉ f.path
  base : basename f.path ≠ [] ∧ basename f.path ≠ [46] ∧ basename f.path ≠ [46, 46]

/-- The header of a file at a position. -/
def fileHeader (pos : ℕ) (f : File) : RdFile :=
  ⟨fileSize, pos + fileSize, f.data.length, nameField (basename f.path)⟩

/-- The bytes of the files from a position on. -/
def body : ℕ → List File → List UInt8
  | _, [] => []
  | pos, f :: fs => (fileHeader pos f).bytes ++ f.data ++ body (pos + fileSize + f.data.length) fs

/-- The headers of the files from a position on. -/
def fileHeaders : ℕ → List File → List RdFile
  | _, [] => []
  | pos, f :: fs => fileHeader pos f :: fileHeaders (pos + fileSize + f.data.length) fs

/-- The header of an image. -/
def header (files : List File) : RdHeader := ⟨rdMagic, headerSize, files.length⟩

/-- The length of an image. -/
def imageSize (files : List File) : ℕ := headerSize + (body headerSize files).length

variable {host : List UInt8 → Option Node} {files : List File} {f : File} {pos : ℕ} {dir : Dir}
  {h : RdFile}

theorem length_nameField (base : List UInt8) : (nameField base).length = nameSize := by
  rw [nameField, length_take, length_append, length_replicate]
  omega

theorem RdFile.length_bytes (hname : h.name.length = nameSize) :
    h.bytes.length = fileSize := by
  simp only [RdFile.bytes, length_append, length_toLE, hname]
  rfl

theorem length_fileHeader (pos : ℕ) (f : File) : (fileHeader pos f).bytes.length = fileSize :=
  RdFile.length_bytes (length_nameField _)

theorem length_header (files : List File) : (header files).bytes.length = headerSize := by
  rfl

theorem RdHeader.ofBytes_bytes {h : RdHeader} (hmagic : h.magic < 2 ^ 32)
    (hsize : h.hdrSize < 2 ^ 32) (hnum : h.numFiles < 2 ^ 32) :
    RdHeader.ofBytes h.bytes = h := by
  have hfirst : slice h.bytes 0 4 = toLE 4 h.magic :=
    slice_eq [] (toLE 4 h.hdrSize ++ toLE 4 h.numFiles) (by simp [bytes]) rfl (length_toLE _ _)
  have hsecond : slice h.bytes 4 4 = toLE 4 h.hdrSize :=
    slice_eq (toLE 4 h.magic) (toLE 4 h.numFiles) rfl (length_toLE _ _) (length_toLE _ _)
  have hthird : slice h.bytes 8 4 = toLE 4 h.numFiles :=
    slice_eq _ [] (append_nil _).symm (by simp) (length_toLE _ _)
  rw [RdHeader.ofBytes, hfirst, hsecond, hthird, ofLE_toLE hmagic, ofLE_toLE hsize, ofLE_toLE hnum]

theorem RdFile.ofBytes_bytes (hsize : h.hdrSize < 2 ^ 32) (hstart : h.start < 2 ^ 32)
    (hlen : h.size < 2 ^ 32) (hname : h.name.length = nameSize) :
    RdFile.ofBytes h.bytes = h := by
  have hfirst : slice h.bytes 0 4 = toLE 4 h.hdrSize :=
    slice_eq [] (toLE 4 h.start ++ toLE 4 h.size ++ h.name) (by simp [bytes]) rfl (length_toLE _ _)
  have hsecond : slice h.bytes 4 4 = toLE 4 h.start :=
    slice_eq (toLE 4 h.hdrSize) (toLE 4 h.size ++ h.name) (by simp [bytes]) (length_toLE _ _)
      (length_toLE _ _)
  have hthird : slice h.bytes 8 4 = toLE 4 h.size := slice_eq _ _ rfl (by simp) (length_toLE _ _)
  have hfourth : slice h.bytes 12 nameSize = h.name :=
    slice_eq _ [] (append_nil _).symm (by simp) hname
  rw [RdFile.ofBytes, hfirst, hsecond, hthird, hfourth, ofLE_toLE hsize, ofLE_toLE hstart,
    ofLE_toLE hlen]

theorem slash_notMem_basename (path : List UInt8) : slash ∉ basename path := by
  intro h
  have := mem_takeWhile_imp (mem_reverse.1 h)
  simp at this

theorem basename_subset {path : List UInt8} {b : UInt8} (h : b ∈ basename path) : b ∈ path := by
  have := (takeWhile_sublist _).subset (mem_reverse.1 h)
  exact mem_reverse.1 this

theorem length_basename_le (path : List UInt8) : (basename path).length ≤ path.length := by
  have := (takeWhile_sublist (l := path.reverse) (· ≠ slash)).length_le
  rwa [length_reverse, ← length_reverse] at this

/-- The name is found again in its field, which has a `0` behind it. -/
theorem cString_nameField {base : List UInt8} (hnul : 0 ∉ base) (hlen : base.length < nameSize) :
    cString (nameField base) = .ok base := by
  obtain ⟨n, hn⟩ := Nat.exists_eq_add_of_lt hlen
  have hfield : nameField base = base ++ 0 :: replicate n 0 := by
    rw [nameField, take_append, take_of_length_le hlen.le, take_replicate, ← replicate_succ]
    congr 2
    omega
  have hwhile : (nameField base).takeWhile (· ≠ 0) = base := by
    rw [hfield, takeWhile_append_of_pos fun b hb => by simpa using ne_of_mem_of_not_mem hb hnul]
    simp
  rw [cString, if_pos (by rw [hfield]; simp), hwhile]

theorem checkCall_of_lt {α : Type} {x : ℕ} {k : Except Stop α} (h : x < 2 ^ 31) :
    checkCall x k = k := by
  rw [checkCall, if_neg (by omega)]

/-- The position behind a file. -/
theorem length_append_file (xs : List UInt8) (f : File) :
    (xs ++ (fileHeader xs.length f).bytes ++ f.data).length =
      xs.length + fileSize + f.data.length := by
  rw [length_append, length_append, length_fileHeader]

/-- The bytes around the first file. -/
theorem append_body_cons (xs zs : List UInt8) (f : File) (files : List File) :
    xs ++ body xs.length (f :: files) ++ zs = xs ++ (fileHeader xs.length f).bytes ++ f.data ++
      body (xs.length + fileSize + f.data.length) files ++ zs := by
  rw [body]
  simp only [append_assoc]

theorem length_body_cons (f : File) (files : List File) : (body pos (f :: files)).length =
    fileSize + f.data.length + (body (pos + fileSize + f.data.length) files).length := by
  rw [body, length_append, length_append, length_fileHeader]

theorem length_le_body (pos : ℕ) (files : List File) : files.length ≤ (body pos files).length := by
  induction files generalizing pos with
  | nil => exact le_rfl
  | cons f files ih =>
    have hrest := ih (pos + fileSize + f.data.length)
    have hpos : 0 < fileSize := by decide
    rw [length_body_cons, length_cons]
    omega

/-! ### Creating -/

theorem createLoop_eq (xs ys : List UInt8) (hregular : ∀ f ∈ files, Regular host f)
    (hlen : ∀ f ∈ files, f.path.length < nameSize)
    (hsize : xs.length + (body xs.length files).length < 2 ^ 31) :
    createLoop host (files.map File.path) xs.length ⟨xs ++ ys, xs.length⟩ =
      .ok ⟨xs ++ body xs.length files ++ ys.drop (body xs.length files).length,
        (xs ++ body xs.length files).length⟩ := by
  induction files generalizing xs ys with
  | nil =>
    rw [body, append_nil]
    rfl
  | cons f files ih =>
    have hpath : ¬ nameSize - 1 < f.path.length := by
      have := hlen f mem_cons_self
      omega
    have hnext := length_append_file xs f
    rw [length_body_cons] at hsize
    have hstart : (xs.length + fileSize) % 2 ^ 32 = xs.length + fileSize :=
      Nat.mod_eq_of_lt (by omega)
    have hdata : f.data.length % 2 ^ 32 = f.data.length := Nat.mod_eq_of_lt (by omega)
    have hpos : (xs.length + fileSize + f.data.length) % 2 ^ 32 =
        (xs ++ (fileHeader xs.length f).bytes ++ f.data).length := by
      rw [hnext, Nat.mod_eq_of_lt (by omega)]
    have htail := ih (xs ++ (fileHeader xs.length f).bytes ++ f.data)
      ((ys.drop (fileHeader xs.length f).bytes.length).drop f.data.length)
      (fun g hg => hregular g (mem_cons_of_mem _ hg))
      (fun g hg => hlen g (mem_cons_of_mem _ hg)) (by rw [hnext]; omega)
    rw [map_cons, createLoop, if_neg hpath, (hregular f mem_cons_self).lookup]
    dsimp only
    rw [hstart, hdata, take_length, checkCall_of_lt (by omega), hpos, ← fileHeader,
      Stream.write_append, Stream.write_append, htail, hnext, ← append_body_cons, drop_drop,
      drop_drop, length_fileHeader, ← Nat.add_assoc, ← length_body_cons]
    simp only [body, append_assoc]

theorem create_eq (old : List UInt8) (hregular : ∀ f ∈ files, Regular host f)
    (hlen : ∀ f ∈ files, f.path.length < nameSize) (hsize : imageSize files < 2 ^ 31) :
    create host old (files.map File.path) =
      .ok ((header files).bytes ++ body headerSize files ++ old.drop (imageSize files)) := by
  have hnum : files.length % 2 ^ 32 = files.length := by
    have := length_le_body headerSize files
    rw [imageSize] at hsize
    exact Nat.mod_eq_of_lt (by omega)
  have hwrite : Stream.write ⟨old, 0⟩ (header files).bytes =
      ⟨(header files).bytes ++ old.drop headerSize, headerSize⟩ := by
    have := Stream.write_append [] old (header files).bytes
    rwa [length_header, nil_append, nil_append, length_header] at this
  have hloop := createLoop_eq (header files).bytes (old.drop headerSize) hregular hlen hsize
  rw [length_header] at hloop
  unfold create
  rw [length_map, hnum]
  show (createLoop host _ headerSize (Stream.write ⟨old, 0⟩ (header files).bytes)).map _ = _
  rw [hwrite, hloop, drop_drop]
  rfl

/-! ### Extracting -/

/-- What `extract` makes of a file. -/
def File.entry (f : File) : List UInt8 × List UInt8 := (basename f.path, f.data)

theorem extractFile_eq {image : List UInt8} (hregular : Regular host f)
    (hlen : f.path.length < nameSize) (hnew : basename f.path ∉ dir.map Prod.fst)
    (hsize : f.data.length < 2 ^ 31)
    (hslice : slice image (pos + fileSize) f.data.length = f.data) :
    extractFile false image (fileHeader pos f) dir = .ok (dir ++ [f.entry]) := by
  have hname : cString (nameField (basename f.path)) = .ok (basename f.path) :=
    cString_nameField (fun h => hregular.nul (basename_subset h))
      ((length_basename_le _).trans_lt hlen)
  have hcreate : CanCreate dir (basename f.path) :=
    ⟨hnew, hregular.base.1, hregular.base.2.1, hregular.base.2.2, slash_notMem_basename _⟩
  show (cString (nameField (basename f.path)) >>= fun name =>
    if CanCreate dir name then
      checkCall (slice image (pos + fileSize) f.data.length).length
        (.ok (dir ++ [(name, slice image (pos + fileSize) f.data.length)]))
    else .error (.code errOscall)) = _
  rw [hname, hslice]
  exact (if_pos hcreate).trans (checkCall_of_lt hsize)

/-- One turn of the loop. -/
theorem extractLoop_succ {n : ℕ} {source next : Stream} {enc : List UInt8} {fhdr : RdFile}
    {dir' : Dir} {listed : List RdFile} (hread : source.read fileSize = (enc, next))
    (hlen : enc.length = fileSize) (hheader : RdFile.ofBytes enc = fhdr)
    (hhdr : fhdr.hdrSize = fileSize) (hfile : extractFile false source.data fhdr dir = .ok dir')
    (hoff : fhdr.start + fhdr.size < 2 ^ 31) :
    extractLoop false (n + 1) source dir listed =
      extractLoop false n { next with pos := fhdr.start + fhdr.size } dir' (listed ++ [fhdr]) := by
  have hmod : (fhdr.start + fhdr.size) % 2 ^ 32 = fhdr.start + fhdr.size :=
    Nat.mod_eq_of_lt (by omega)
  rw [extractLoop]
  rw [hread, if_neg (not_not.2 hlen), hheader, if_neg (not_not.2 hhdr), hfile, hmod]
  exact checkCall_of_lt hoff

theorem extractLoop_eq (xs zs : List UInt8) (dir : Dir) (listed : List RdFile)
    (hregular : ∀ f ∈ files, Regular host f) (hlen : ∀ f ∈ files, f.path.length < nameSize)
    (hnodup : (dir.map Prod.fst ++ files.map fun f => basename f.path).Nodup)
    (hsize : xs.length + (body xs.length files).length < 2 ^ 31) :
    extractLoop false files.length ⟨xs ++ body xs.length files ++ zs, xs.length⟩ dir listed =
      .ok (dir ++ files.map File.entry, listed ++ fileHeaders xs.length files) := by
  induction files generalizing xs dir listed with
  | nil => simp [extractLoop, fileHeaders]
  | cons f files ih =>
    set enc := (fileHeader xs.length f).bytes with henc
    have hencLen : enc.length = fileSize := length_fileHeader _ _
    have hnext : (xs ++ enc ++ f.data).length = _ := length_append_file xs f
    rw [length_body_cons] at hsize
    -- the image around this file
    set rest := body (xs.length + fileSize + f.data.length) files ++ zs with hrest
    have hparts : xs ++ body xs.length (f :: files) ++ zs = xs ++ enc ++ (f.data ++ rest) := by
      rw [append_body_cons, hrest, henc]
      simp only [append_assoc]
    rw [hparts]
    have hread := Stream.read_append xs enc (f.data ++ rest)
    rw [hencLen] at hread
    have hheader : RdFile.ofBytes enc = fileHeader xs.length f :=
      RdFile.ofBytes_bytes (show fileSize < 2 ^ 32 by decide)
        (show xs.length + fileSize < 2 ^ 32 by omega) (show f.data.length < 2 ^ 32 by omega)
        (length_nameField _)
    have hslice : slice (xs ++ enc ++ (f.data ++ rest)) (xs.length + fileSize) f.data.length =
        f.data :=
      slice_eq (xs ++ enc) rest (append_assoc _ _ _).symm (by rw [length_append, hencLen]) rfl
    rw [map_cons, nodup_middle, nodup_cons, mem_append, not_or] at hnodup
    have hfile : extractFile false (xs ++ enc ++ (f.data ++ rest)) (fileHeader xs.length f) dir =
        .ok (dir ++ [f.entry]) :=
      extractFile_eq (hregular f mem_cons_self) (hlen f mem_cons_self) hnodup.1.1 (by omega) hslice
    rw [length_cons, extractLoop_succ hread hencLen hheader rfl hfile
      (show xs.length + fileSize + f.data.length < 2 ^ 31 by omega)]
    have htail := ih (xs ++ enc ++ f.data) (dir ++ [f.entry])
      (listed ++ [fileHeader xs.length f]) (fun g hg => hregular g (mem_cons_of_mem _ hg))
      (fun g hg => hlen g (mem_cons_of_mem _ hg)) ?_ (by rw [hnext]; omega)
    · rw [hnext] at htail
      show extractLoop false files.length ⟨_, xs.length + fileSize + f.data.length⟩ _ _ = _
      simpa only [hrest, append_assoc, fileHeaders, map_cons, singleton_append] using htail
    · rw [map_append, append_assoc]
      exact nodup_middle.2 (nodup_cons.2 ⟨by simpa [File.entry] using hnodup.1, hnodup.2⟩)

theorem extract_eq {zs : List UInt8} (hregular : ∀ f ∈ files, Regular host f)
    (hlen : ∀ f ∈ files, f.path.length < nameSize)
    (hnodup : (files.map fun f => basename f.path).Nodup) (hsize : imageSize files < 2 ^ 31) :
    extract false ((header files).bytes ++ body headerSize files ++ zs) =
      .ok (files.map File.entry, fileHeaders headerSize files) := by
  have hnum : files.length < 2 ^ 32 := by
    have := length_le_body headerSize files
    rw [imageSize] at hsize
    omega
  have hread := Stream.read_append [] (header files).bytes (body headerSize files ++ zs)
  have hheader : RdHeader.ofBytes (header files).bytes = header files :=
    RdHeader.ofBytes_bytes (show rdMagic < 2 ^ 32 by decide) (show headerSize < 2 ^ 32 by decide)
      hnum
  rw [nil_append, length_header, ← append_assoc] at hread
  have hbound := hsize
  have hloop := extractLoop_eq (header files).bytes zs [] [] hregular hlen hnodup hbound
  unfold extract
  rw [show (0 : ℕ) = ([] : List UInt8).length from rfl, hread, if_neg (not_not.2 (length_header _)),
    hheader]
  exact (if_neg (not_not.2 rfl)).trans ((if_neg (not_not.2 rfl)).trans hloop)

/-! ### There and back -/

/-- A header designates the bytes of a file inside of the image. -/
def Designates (image : List UInt8) (h : RdFile) (f : File) : Prop :=
  h.start + h.size ≤ image.length ∧ slice image h.start h.size = f.data

theorem designates_fileHeaders (xs zs : List UInt8) (files : List File) :
    Forall₂ (Designates (xs ++ body xs.length files ++ zs)) (fileHeaders xs.length files)
      files := by
  induction files generalizing xs with
  | nil => exact .nil
  | cons f files ih =>
    have hnext := length_append_file xs f
    have htail := ih (xs ++ (fileHeader xs.length f).bytes ++ f.data)
    rw [hnext] at htail
    rw [append_body_cons]
    refine .cons ⟨?_, ?_⟩ htail
    · show xs.length + fileSize + f.data.length ≤ _
      rw [← hnext, append_assoc _ _ zs]
      exact (prefix_append _ _).length_le
    · refine slice_eq (xs ++ (fileHeader xs.length f).bytes) _ (append_assoc _ _ zs) ?_ rfl
      rw [length_append, length_fileHeader]
      rfl

/-- **What is extracted from an image are the files it was created from**, in their order, whatever
the target held before; and each header in the image designates the bytes of its file. -/
theorem image_round_trip (old : List UInt8) (hregular : ∀ f ∈ files, Regular host f)
    (hlen : ∀ f ∈ files, f.path.length ≤ 63)
    (hnodup : (files.map fun f => basename f.path).Nodup) (hsize : imageSize files ≤ rdVsz) :
    ∃ image headers, create host old (files.map File.path) = .ok image ∧
      extract false image = .ok (files.map fun f => (basename f.path, f.data), headers) ∧
      List.Forall₂ (Designates image) headers files := by
  have hlen' : ∀ f ∈ files, f.path.length < nameSize := fun f hf => Nat.lt_succ_of_le (hlen f hf)
  have hbound : imageSize files < 2 ^ 31 := hsize.trans_lt (by decide)
  refine ⟨_, fileHeaders headerSize files, create_eq old hregular hlen' hbound,
    extract_eq hregular hlen' hnodup hbound, ?_⟩
  exact designates_fileHeaders _ _ _

/-- The files "x/a" and "b". -/
def twoFiles : List File := [⟨[120, slash, 97], [1, 2, 3]⟩, ⟨[98], []⟩]

/-- A host with these files. -/
def twoFilesHost (path : List UInt8) : Option Node :=
  (twoFiles.find? fun f => f.path = path).map fun f => .file f.data

theorem image_round_trip_twoFiles : ∃ image headers,
    create twoFilesHost (List.replicate 200 255) [[120, slash, 97], [98]] = .ok image ∧
      extract false image = .ok ([([97], [1, 2, 3]), ([98], [])], headers) ∧
      List.Forall₂ (Designates image) headers twoFiles := by
  have hregular : ∀ f ∈ twoFiles, Regular twoFilesHost f := by
    intro f hf
    rcases List.mem_pair.1 hf with rfl | rfl
    · exact ⟨rfl, by decide, by decide⟩
    · exact ⟨rfl, by decide, by decide⟩
  exact image_round_trip _ hregular (by decide) (by decide) (by decide +kernel)

end Tachyon.Rd
