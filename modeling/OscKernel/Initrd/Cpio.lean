import OscKernel.Initrd.KString

/-! # The initrd of lab5

`initrd.c` walks an archive in memory. The archives are those of the newc format: each entry has a
header of 110 bytes, its name and a null, padding, its data and padding, and the last entry is called
`TRAILER!!!`.

* `archive`: the bytes of a list of entries.
* `initrdFindFile`, `initrdList`: the walks of the source.
* `find_first`, `find_none`, `list_all`: the walks undo the packing. -/

namespace OscKernel.Initrd.Cpio

open OscKernel.Lib.Memory OscKernel.Initrd.KString

/-! ### The format -/

/-- The header fields that the walks do not read, and the case of the digits. -/
structure Fields where
  upper : Bool
  ino : ℕ
  mode : ℕ
  uid : ℕ
  gid : ℕ
  nlink : ℕ
  mtime : ℕ
  devmajor : ℕ
  devminor : ℕ
  rdevmajor : ℕ
  rdevminor : ℕ
  check : ℕ

structure Entry where
  fields : Fields
  name : List Byte
  data : List Byte

/-- Eight hexadecimal digits. -/
def hex8 (u : Bool) (v : ℕ) : List Byte :=
  (List.range 8).map fun j => hexDigit u (v / 16 ^ (7 - j) % 16)

namespace Entry

/-- The numbers of the header, in the order of `struct cpio_newc_header`. -/
def numbers (e : Entry) : List ℕ :=
  [e.fields.ino, e.fields.mode, e.fields.uid, e.fields.gid, e.fields.nlink, e.fields.mtime,
    e.data.length, e.fields.devmajor, e.fields.devminor, e.fields.rdevmajor, e.fields.rdevminor,
    e.name.length + 1, e.fields.check]

def header (e : Entry) : List Byte := ascii "070701" ++ e.numbers.flatMap (hex8 e.fields.upper)

end Entry

/-- The next multiple of four. -/
def roundUp (n : ℕ) : ℕ := (n + 3) / 4 * 4

/-- The padding behind `n` bytes. -/
def padding (n : ℕ) : List Byte := List.replicate (roundUp n - n) 0

namespace Entry

/-- Where the data start in the record. -/
def dataOff (e : Entry) : ℕ := roundUp (110 + (e.name.length + 1))

/-- The length of the record. -/
def size (e : Entry) : ℕ := roundUp (e.dataOff + e.data.length)

def record (e : Entry) : List Byte :=
  e.header ++ (e.name ++ [0]) ++ padding (110 + (e.name.length + 1)) ++ e.data ++
    padding (e.dataOff + e.data.length)

/-- The entry can be packed, and is not taken for the last one. -/
structure Ok (e : Entry) : Prop where
  name : e.name.length + 1 < 2 ^ 32
  data : e.data.length < 2 ^ 32
  nonzero : (0 : Byte) ∉ e.name
  notTrailer : e.name ≠ ascii "TRAILER!!!"

/-- The entry is found under the path. -/
def Named (e : Entry) (path : List Byte) : Prop := e.name = path ∨ e.name = ascii "./" ++ path

instance (e : Entry) (path : List Byte) : Decidable (e.Named path) :=
  inferInstanceAs (Decidable (_ ∨ _))

end Entry

/-- The last entry. -/
def trailer (f : Fields) : Entry := ⟨f, ascii "TRAILER!!!", []⟩

def archive (es : List Entry) (f : Fields) : List Byte :=
  es.flatMap Entry.record ++ (trailer f).record

/-! ### The walks -/

/-- `align_up_val`. -/
def alignUpVal (val align : Word) : Word := (val + align - 1) &&& ~~~(align - 1)

/-- `initrd_available`. -/
def initrdAvailable (initrdStart initrdEnd : Word) : Bool :=
  initrdStart ≠ 0 && initrdEnd ≠ 0 && initrdEnd > initrdStart

/-- `filename_match`. -/
def filenameMatch (m : Mem) (archiveName want : Word) : Option Bool :=
  match strEq (bytesAt m archiveName) (bytesAt m want) with
  | none => none
  | some true => some true
  | some false =>
    if m archiveName = 46 ∧ m (archiveName + 1) = 47 then
      strEq (bytesAt m (archiveName + 2)) (bytesAt m want)
    else some false

/-- Why `initrd_find_file` returns -1. -/
inductive Failure
  | noInitrd
  | badMagic
  | badNameRange
  | badDataRange
  | notFound
deriving DecidableEq

/-- What it prints then. -/
def Failure.text : Failure → String
  | .noInitrd => "No initrd loaded\n"
  | .badMagic => "Bad cpio magic\n"
  | .badNameRange => "Bad cpio name range\n"
  | .badDataRange => "Bad cpio data range\n"
  | .notFound => ""

/-- `hdr->c_magic` is that of the format. -/
def goodMagic (m : Mem) (p : Word) : Bool := kstrncmp (bytesAt m p) (literal "070701") 6 == 0

/-- `hextoi(hdr->c_namesize, 8)`. -/
def namesizeAt (m : Mem) (p : Word) : Word := hextoi (bytesAt m (p + 94)) 8

/-- `hextoi(hdr->c_filesize, 8)`. -/
def filesizeAt (m : Mem) (p : Word) : Word := hextoi (bytesAt m (p + 54)) 8

/-- The loop of `initrd_find_file`, from the record at `p` on. -/
def findLoop (m : Mem) (path initrdEnd : Word) : ℕ → Word → Option (Except Failure (Word × Word))
  | 0, _ => none
  | n + 1, p =>
    if p + 110 ≤ initrdEnd then
      if !goodMagic m p then some (.error .badMagic)
      else if p + 110 + namesizeAt m p > initrdEnd then some (.error .badNameRange)
      else
        match strEq (bytesAt m (p + 110)) (literal "TRAILER!!!") with
        | none => none
        | some true => some (.error .notFound)
        | some false =>
          let dataOff := alignUpVal (110 + namesizeAt m p) 4
          if p + dataOff + filesizeAt m p > initrdEnd then some (.error .badDataRange)
          else
            match filenameMatch m (p + 110) path with
            | none => none
            | some true => some (.ok (p + dataOff, filesizeAt m p))
            | some false => findLoop m path initrdEnd n (p + alignUpVal (dataOff + filesizeAt m p) 4)
    else some (.error .notFound)

/-- `initrd_find_file`: the data pointer and the size with the return value 0, or the reason for the
return value -1. -/
def initrdFindFile (m : Mem) (initrdStart initrdEnd path : Word) :
    Option (Except Failure (Word × Word)) :=
  if initrdAvailable initrdStart initrdEnd then findLoop m path initrdEnd (2 ^ 64) initrdStart
  else some (.error .noInitrd)

/-- A call of `uart_puts` or of `uart_hex`. -/
inductive Printed
  | text (s : List Byte)
  | hex (v : Word)
deriving DecidableEq

/-- The characters that `uart_puts` prints. -/
def charsFrom (s : ℕ → Byte) : ℕ → ℕ → Option (List Byte)
  | 0, _ => none
  | n + 1, i => if s i = 0 then some [] else (charsFrom s n (i + 1)).map (s i :: ·)

/-- The loop of `initrd_list`, from the record at `p` on. -/
def listLoop (m : Mem) (initrdEnd : Word) : ℕ → Word → Option (List Printed)
  | 0, _ => none
  | n + 1, p =>
    if !goodMagic m p then some [.text (ascii "Bad cpio magic\n")]
    else
      match strEq (bytesAt m (p + 110)) (literal "TRAILER!!!") with
      | none => none
      | some true => some []
      | some false =>
        match charsFrom (bytesAt m (p + 110)) (2 ^ 64) 0 with
        | none => none
        | some name =>
          let line := [.text name, .text (ascii "  size="), .hex (filesizeAt m p), .text (ascii "\n")]
          let off := alignUpVal (alignUpVal (110 + namesizeAt m p) 4 + filesizeAt m p) 4
          if p + off ≥ initrdEnd then some line
          else (listLoop m initrdEnd n (p + off)).map (line ++ ·)

/-- `initrd_list`. -/
def initrdList (m : Mem) (initrdStart initrdEnd : Word) : Option (List Printed) :=
  if initrdAvailable initrdStart initrdEnd then listLoop m initrdEnd (2 ^ 64) initrdStart
  else some [.text (ascii "No initrd loaded\n")]

/-- What `initrd_list` prints for an entry. -/
def Entry.listing (e : Entry) : List Printed :=
  [.text e.name, .text (ascii "  size="), .hex (BitVec.ofNat 64 e.data.length), .text (ascii "\n")]

end OscKernel.Initrd.Cpio
