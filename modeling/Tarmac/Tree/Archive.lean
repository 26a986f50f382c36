import Tarmac.Tree.Codec

/-!
# What the reader makes of an archive

The part of `src/tree.cpp` that turns an archive into items (`read_regular`, `read_item`,
`read_items`). libarchive itself is not part of the repository: an archive is what its functions
answer, one `Entry` for each header, in the order the code asks. `Archive.items` is what
`read_items` hands on when nothing stops it: the items up to the first failure, and the failure.
-/

namespace Tarmac.Tree

open PackCas

/-- A byte string as part of an error text. -/
def text (bs : Bytes) : String := String.ofList (bs.map fun b => Char.ofNat b.toNat)

/-- The types of items: `h` hard link, `d` directory, or a leaf. -/
inductive ItemType where
  | h
  | d
  | leaf (type : LeafType)
  deriving DecidableEq, Repr

/-- `TarItem`; the data of a link is its target. No string is longer than `maxOff`. -/
structure TarItem where
  path : Bytes
  type : ItemType
  data : Bytes
  short : data.length ≤ maxOff

/-- An item, unless its data is too long for a `std::string`. -/
def tarItem (path : Bytes) (type : ItemType) (data : Bytes) : Except Err TarItem :=
  if h : data.length ≤ maxOff then .ok ⟨path, type, data, h⟩ else .error .lengthError

/-- `AE_IFDIR`, `AE_IFLNK`, `AE_IFREG`, and the rest. -/
inductive FileType where
  | dir
  | lnk
  | reg
  | other
  deriving DecidableEq, Repr

/-- What libarchive says of one member: the fields of its header, the bytes `archive_read_data`
returns in turn, and the error string of the call that fails after them, if one does. -/
structure Entry where
  pathname : Option Bytes
  hardlink : Option Bytes
  filetype : FileType
  symlink : Option Bytes
  size : Int
  perm : Nat
  reads : List Bytes
  readErr : Option (Option Bytes)

/-- The headers `archive_read_next_header` yields, and the error string of the call after them if
that is not the end of the archive. -/
structure Archive where
  entries : List Entry
  fin : Option (Option Bytes)

def kExecBits : Nat := 0o111

/-- `archive_err`. -/
def archiveErr (msg : Option Bytes) : String :=
  match msg with
  | some msg => text msg
  | none => "unknown archive error"

/-- The loop of `read_regular`: it ends when nothing was read. -/
def readData (fail : Option (Option Bytes)) : List Bytes → Bytes → Except Err Bytes
  | [], data =>
    match fail with
    | some msg => .error (.runtime (archiveErr msg))
    | none => .ok data
  | got :: rest, data => if got = [] then .ok data else readData fail rest (data ++ got)

/-- `read_regular`. -/
def readRegular (header : Entry) (path : Bytes) : Except Err TarItem :=
  if header.size < 0 then .error (.runtime "negative entry size")
  else do
    let data ← readData header.readErr header.reads []
    tarItem path (.leaf (if header.perm &&& kExecBits ≠ 0 then .x else .r)) data

/-- `read_item`. -/
def readItem (header : Entry) : Except Err TarItem :=
  match header.pathname with
  | none => .error (.runtime "archive entry without name")
  | some name =>
    match header.hardlink with
    | some target => tarItem name .h target
    | none =>
      match header.filetype with
      | .dir => tarItem name .d []
      | .lnk =>
        match header.symlink with
        | none => .error (.runtime "symlink without target")
        | some target => tarItem name (.leaf .s) target
      | .reg => readRegular header name
      | .other =>
        .error (.runtime ("file '" ++ text name ++ "' in tarball has unsupported file type"))

/-- The exception `read_items` throws behind the last header. -/
def Archive.endError (arc : Archive) : Option Err :=
  arc.fin.map fun msg => .runtime ("archive error: " ++ archiveErr msg)

/-- What `read_items` reads when no push fails: the items, and the exception that ends the
reading. -/
def readItems (fin : Option Err) : List Entry → List TarItem × Option Err
  | [] => ([], fin)
  | header :: rest =>
    match readItem header with
    | .ok item => (item :: (readItems fin rest).1, (readItems fin rest).2)
    | .error e => ([], some e)

/-- The items of an archive, and the exception the reading ends with. -/
def Archive.items (arc : Archive) : List TarItem × Option Err :=
  readItems arc.endError arc.entries

end Tarmac.Tree
