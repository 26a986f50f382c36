import Tarmac.Lib.Prog
import Tarmac.Lib.Bytes
import Tarmac.Lib.SortedMap

/-!
# The environment of `PackCas`

What the code of `src/pack_cas.cpp` runs against: the directory with its pack files, the LMDB
environment with its two tables, and the writer's `flock`. Pack files are inodes reached through a
directory entry per generation, so a file that was unlinked is still there for whoever has it
mapped. LMDB admits one write transaction at a time, whose working copy of the tables replaces the
committed ones when it commits; a read transaction is a snapshot of the committed tables.

`exec` is what one call does for the process `p`. A `Choice` settles what the code cannot know:
whether a fallible call fails, and how many bytes a read or write transfers.
-/

namespace Tarmac.PackCas

/-! ## Constants of `pack_cas.cpp` -/

def kMapSize : Nat := 2 ^ 40
def kAutoSyncBytes : Nat := 256 * 2 ^ 20
def kCompactChunk : Nat := 4 * 2 ^ 20
def kHashLen : Nat := 32
/-- `kLockTimeout / kLockPoll`: the number of times a waiting writer sleeps. -/
def kLockPolls : Nat := 10 * 60 * 1000 / 50
def kMaxGenerationRetries : Nat := 8
def kMinCompressSize : Nat := 64
def kFormat : Bytes := ascii ['2']
def genKey : Bytes := ascii ['g', 'e', 'n']
def formatKey : Bytes := ascii ['f', 'o', 'r', 'm', 'a', 't']
def lz4MaxInputSize : Nat := 0x7E000000
def int32Max : Nat := 2 ^ 31 - 1
/-- The largest file offset, and the largest size of a `std::string`. -/
def maxOff : Nat := 2 ^ 63 - 1

/-- Why a call failed. `damaged` stands for the results by which LMDB says that the index is damaged or
of another version: `MDB_INVALID`, `MDB_VERSION_MISMATCH`, `MDB_CORRUPTED`, `MDB_PAGE_NOTFOUND`. -/
inductive Errno where
  | io
  | inval
  | fbig
  | exist
  | badTxn
  | damaged
  deriving DecidableEq, Repr

/-- The exceptions the code throws, with their texts; that of `lmdb` ends in the text of the result
`res`. Two are not exceptions and no handler sees them: `sigbus` is the signal a read of a mapped page
beyond the end of the file raises, `undefined` the use of a null mapping or of a transaction handle
that LMDB has ended. -/
inductive Err where
  | corrupt (msg : String)
  | sys (what : String)
  | lmdb (what : String) (res : Errno)
  | runtime (msg : String)
  | invalidArgument (msg : String)
  | logic (msg : String)
  | lengthError
  | badAlloc
  | undefined (what : String)
  | sigbus
  deriving DecidableEq, Repr

/-- Whether a C++ `catch` clause for every exception handles it. -/
def Err.caught : Err → Bool
  | .sigbus | .undefined _ => false
  | _ => true

/-- What the code takes from its libraries: BLAKE3 and LZ4. `lz4Compress d cap` is `none` when the
compressed form of `d` does not fit into `cap` bytes, `lz4Decompress s n` is `none` on input that
does not decode within `n` bytes. -/
structure Ext where
  blake3 : Bytes → Bytes
  lz4Compress : Bytes → Nat → Option Bytes
  lz4Decompress : Bytes → Nat → Option Bytes

/-- The documented behaviour of BLAKE3 and LZ4: digests have 32 bytes, a compressed form fits into
the capacity it was given and decompresses to the original. -/
structure Ext.Lawful (ext : Ext) : Prop where
  length_blake3 : ∀ d, (ext.blake3 d).length = kHashLen
  compress_le : ∀ d cap s, ext.lz4Compress d cap = some s → s.length ≤ cap
  roundtrip : ∀ d cap s, d.length ≤ lz4MaxInputSize → ext.lz4Compress d cap = some s →
    s ≠ [] → ext.lz4Decompress s d.length = some d

/-! ## The state -/

/-- The pack files: the directory's entries by generation, and the bytes of every inode, linked or
not. -/
structure Fs where
  names : List (Nat × Nat)
  data : Nat → Bytes
  next : Nat

/-- The inode of the pack of a generation. -/
def Fs.ino (fs : Fs) (gen : Nat) : Option Nat :=
  (fs.names.find? fun p => decide (p.1 = gen)).map Prod.snd

/-- Replaces the bytes of an inode. -/
def Fs.setData (fs : Fs) (ino : Nat) (d : Bytes) : Fs :=
  { fs with data := fun i => if i = ino then d else fs.data i }

/-- Cuts an inode to `len` bytes, or fills it up with zeros. -/
def Fs.truncate (fs : Fs) (ino len : Nat) : Fs :=
  fs.setData ino ((fs.data ino).take len ++ List.replicate (len - (fs.data ino).length) 0)

/-- Creates an empty pack file. -/
def Fs.create (fs : Fs) (gen : Nat) : Fs :=
  { names := (gen, fs.next) :: fs.names
    data := fun i => if i = fs.next then [] else fs.data i
    next := fs.next + 1 }

/-- Removes the directory entry of a generation. -/
def Fs.unlink (fs : Fs) (gen : Nat) : Fs :=
  { fs with names := fs.names.filter fun p => decide (p.1 ≠ gen) }

/-- The two tables of the LMDB environment, values as raw bytes. -/
structure Db where
  blobs : SortedMap Bytes Bytes
  metaTable : SortedMap Bytes Bytes

inductive Dbi where
  | blobs
  | metaTable
  deriving DecidableEq, Repr

def Db.table (db : Db) : Dbi → SortedMap Bytes Bytes
  | .blobs => db.blobs
  | .metaTable => db.metaTable

def Db.setTable (db : Db) (t : SortedMap Bytes Bytes) : Dbi → Db
  | .blobs => { db with blobs := t }
  | .metaTable => { db with metaTable := t }

def Db.empty : Db := ⟨.empty, .empty⟩

/-- The LMDB environment and the lock file: the committed tables, the process with the write
transaction and its working copy, and the process that holds the `flock`. -/
structure Env where
  db : Db
  writer : Option (Nat × Db)
  lock : Option Nat

structure World where
  fs : Fs
  env : Env

/-- A directory that was never opened. -/
def World.fresh : World := ⟨⟨[], fun _ => [], 0⟩, ⟨.empty, none, none⟩⟩

/-- The working copy of the write transaction of `p`, if it has one. -/
def World.txn (w : World) (p : Nat) : Option Db :=
  match w.env.writer with
  | some (q, t) => if q = p then some t else none
  | none => none

/-- `p` dies: the kernel drops its lock, LMDB its transaction. Its writes to files stay. -/
def World.kill (w : World) (p : Nat) : World :=
  { w with env :=
    { w.env with
      writer := if (w.txn p).isSome then none else w.env.writer
      lock := if w.env.lock = some p then none else w.env.lock } }

/-! ## Calls -/

/-- The system and library calls of `pack_cas.cpp`. `openPack` names the file by its generation,
the other file calls by inode; `listPacks` is the directory iteration of `cleanup_orphans` and
carries that function's `live_gen`. -/
inductive Call where
  | flockTry
  | flockUn
  | txnBegin
  | txnCommit
  | txnAbort
  | txnDb
  | readTxn
  | mdbRead
  | txnPut (dbi : Dbi) (key val : Bytes) (overwrite : Bool)
  | txnDel (dbi : Dbi) (key : Bytes)
  | txnDropBlobs
  | envSync
  | openPack (gen : Nat) (create trunc : Bool)
  | fstat (ino : Nat)
  | mmap (ino : Nat)
  | mmapRead (ino off len : Nat)
  | pread (ino off len : Nat)
  | pwrite (ino off : Nat) (d : Bytes)
  | write (ino pos : Nat) (d : Bytes)
  | ftruncate (ino len : Nat)
  | fdatasync (ino : Nat)
  | closeFd (ino : Nat)
  | unlink (gen : Nat)
  | listPacks (liveGen : Nat)
  | createDirs
  | envOpen
  | openLock
  | removeAll
  | alloc (n : Nat)

/-- The answers to the calls. A transfer of `n + 1` bytes is answered by `n`; `openPack` is answered
by `none` for `ENOENT`; `mmapRead` by `none` for `SIGBUS`. Where `remove_all` fails at an entry, its
answer says which entries are gone by then (`World.removeSome`); the code does not look at it. -/
def Call.Resp : Call → Type
  | .flockTry => Except Errno Bool
  | .flockUn | .closeFd _ | .unlink _ => Unit
  | .txnBegin | .txnCommit | .txnAbort | .mdbRead | .txnPut .. | .txnDel .. | .txnDropBlobs | .envSync
  | .mmap _ | .fdatasync _ | .createDirs | .envOpen | .openLock | .alloc _ => Except Errno Unit
  | .removeAll => Except Nat Unit
  | .txnDb | .readTxn => Except Errno Db
  | .openPack .. => Except Errno (Option Nat)
  | .fstat _ => Except Errno Nat
  | .mmapRead .. => Option Bytes
  | .pread .. => Except Errno Bytes
  | .pwrite .. | .write .. => Except Errno Nat
  | .ftruncate .. => Bool
  | .listPacks _ => Except Errno (List Nat)

/-- The signature of the calls. -/
abbrev sig : Sig := ⟨Call, Call.Resp⟩

/-- What the environment decides about a call: whether it fails, if it can, and how many bytes
beyond the first a transfer moves at most. For a call that fails, `more` says how. -/
structure Choice where
  fail : Bool := false
  more : Nat := 0
  deriving DecidableEq, Repr

/-- The result of an LMDB call that fails: an error of the environment, or a report of damage. -/
def Choice.mdbErrno (ch : Choice) : Errno := if ch.more = 0 then .io else .damaged

/-- A positioned write of at most `ch.more + 1` bytes of `d`. -/
def Fs.write (fs : Fs) (ch : Choice) (ino off : Nat) (d : Bytes) : Except Errno Nat × Fs :=
  let n := min (ch.more + 1) d.length
  if ch.fail then (.error .io, fs)
  else if maxOff < off + n then (.error .fbig, fs)
  else (.ok (n - 1), fs.setData ino (splice (fs.data ino) off (d.take n)))

/-- A fallible operation on the working copy of the write transaction of `p`. -/
def World.onTxn (w : World) (p : Nat) (ch : Choice) (f : Db → Except Errno Db) :
    Except Errno Unit × World :=
  match w.txn p with
  | none => (.error .badTxn, w)
  | some t =>
    if ch.fail then (.error ch.mdbErrno, w)
    else match f t with
      | .error e => (.error e, w)
      | .ok t' => (.ok (), { w with env := { w.env with writer := some (p, t') } })

/-- Fails with an I/O error if the environment chose so. -/
def Choice.guard {α : Type} (ch : Choice) (a : α) : Except Errno α :=
  if ch.fail then .error .io else .ok a

/-- The same for a call of LMDB. -/
def Choice.mdbGuard {α : Type} (ch : Choice) (a : α) : Except Errno α :=
  if ch.fail then .error ch.mdbErrno else .ok a

/-- The directory after a `remove_all` that failed at an entry. The order in which it goes through the
directory is not specified, so what is gone by then is any part of the entries: the index if the bit 0
of `n` is set, the lock file if the bit 1 is, the pack of the generation `g` if the bit `g + 2` is. -/
def World.removeSome (w : World) (n : Nat) : World where
  fs := { w.fs with names := w.fs.names.filter fun p => !n.testBit (p.1 + 2) }
  env :=
    { db := if n.testBit 0 then .empty else w.env.db
      writer := if n.testBit 0 then none else w.env.writer
      lock := if n.testBit 1 then none else w.env.lock }

/-- The directory after a `remove_all` that was answered by `r`. -/
def World.removeAll (w : World) : Except Nat Unit → World
  | .ok _ => { fs := { w.fs with names := [] }, env := ⟨.empty, none, none⟩ }
  | .error n => w.removeSome n

/-- What a call of the process `p` does; `none` when it waits. -/
def exec (p : Nat) (ch : Choice) (c : Call) (w : World) : Option (c.Resp × World) :=
  match c with
  | .flockTry =>
    if ch.fail then some (.error .io, w)
    else if w.env.lock = none ∨ w.env.lock = some p then
      some (.ok true, { w with env := { w.env with lock := some p } })
    else some (.ok false, w)
  | .flockUn =>
    some ((), { w with env :=
      { w.env with lock := if w.env.lock = some p then none else w.env.lock } })
  | .txnBegin =>
    if ch.fail then some (.error ch.mdbErrno, w)
    else match w.env.writer with
      | none => some (.ok (), { w with env := { w.env with writer := some (p, w.env.db) } })
      | some _ => none
  | .txnCommit =>
    match w.txn p with
    | none => some (.error .badTxn, w)
    | some t =>
      if ch.fail then some (.error ch.mdbErrno, { w with env := { w.env with writer := none } })
      else some (.ok (), { w with env := { w.env with db := t, writer := none } })
  | .txnAbort =>
    match w.txn p with
    | none => some (.error .badTxn, w)
    | some _ => some (.ok (), { w with env := { w.env with writer := none } })
  | .txnDb =>
    match w.txn p with
    | none => some (.error .badTxn, w)
    | some t => some (.ok t, w)
  | .readTxn => some (ch.mdbGuard w.env.db, w)
  | .mdbRead => some (ch.mdbGuard (), w)
  | .txnPut dbi key val overwrite =>
    some (w.onTxn p ch fun t =>
      if !overwrite && ((t.table dbi).find? key).isSome then .error .exist
      else .ok (t.setTable ((t.table dbi).insert key val) dbi))
  | .txnDel dbi key =>
    some (w.onTxn p ch fun t => .ok (t.setTable ((t.table dbi).erase key) dbi))
  | .txnDropBlobs => some (w.onTxn p ch fun t => .ok { t with blobs := .empty })
  | .envSync => some (ch.mdbGuard (), w)
  | .openPack gen create trunc =>
    if ch.fail then some (.error .io, w)
    else match w.fs.ino gen with
      | some i => some (.ok (some i), if trunc then { w with fs := w.fs.setData i [] } else w)
      | none =>
        if create then some (.ok (some w.fs.next), { w with fs := w.fs.create gen })
        else some (.ok none, w)
  | .fstat ino => some (ch.guard (w.fs.data ino).length, w)
  | .mmap _ => some (ch.guard (), w)
  | .mmapRead ino off len =>
    some (if len = 0 ∨ off + len ≤ (w.fs.data ino).length then some (slice (w.fs.data ino) off len)
      else none, w)
  | .pread ino off len =>
    if ch.fail then some (.error .io, w)
    else if maxOff < off + len then some (.error .inval, w)
    else some (.ok ((slice (w.fs.data ino) off len).take (ch.more + 1)), w)
  | .pwrite ino off d =>
    some ((w.fs.write ch ino off d).1, { w with fs := (w.fs.write ch ino off d).2 })
  | .write ino pos d =>
    some ((w.fs.write ch ino pos d).1, { w with fs := (w.fs.write ch ino pos d).2 })
  | .ftruncate ino len =>
    if ch.fail then some (false, w)
    else some (true, { w with fs := w.fs.truncate ino len })
  | .fdatasync _ => some (ch.guard (), w)
  | .closeFd _ => some ((), w)
  | .unlink gen => some ((), { w with fs := w.fs.unlink gen })
  | .listPacks _ => some (ch.guard (w.fs.names.map Prod.fst), w)
  | .createDirs => some (ch.guard (), w)
  | .envOpen => some (ch.mdbGuard (), w)
  | .openLock => some (ch.guard (), w)
  | .removeAll =>
    let r : Except Nat Unit := if ch.fail then .error ch.more else .ok ()
    some (r, w.removeAll r)
  | .alloc _ => some (ch.guard (), w)

/-- The semantics of the calls of `p` when the environment only makes choices that `ok` admits. -/
def sem (ok : Call → Choice → Prop) (p : Nat) : Sem sig World :=
  fun c w r w' => ∃ ch, ok c ch ∧ exec p ch c w = some (r, w')

end Tarmac.PackCas
