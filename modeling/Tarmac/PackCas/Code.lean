import Tarmac.PackCas.World

/-!
# The code of `src/pack_cas.cpp`

`PackCas` and `PackCas::Impl`, function by function, as programs over the calls of
`Tarmac.PackCas.World`. The fields of `Impl` are the private state of the computation `CasM`; the
C++ exceptions are its errors.

Three idioms of the source read as follows. A destructor that runs when an exception leaves its
scope is a handler that cleans up and throws again (`txnScope` for `WriteTxn`, `guardNewPack` for
the first half of the `catch` block of `compact`). The file offset `write` advances is handed from
one call to the next. `Mapping::size`, which lives in a shared object, is the table `known`, by
generation.
-/

namespace Tarmac.PackCas

/-- An index entry; `rawLen = len` means stored raw. -/
structure IndexEntry where
  off : Nat
  len : Nat
  rawLen : Nat
  deriving DecidableEq, Repr

def IndexEntry.compressed (e : IndexEntry) : Bool := e.rawLen != e.len

/-- The index value of an entry: its three 64-bit fields in memory order. -/
def encodeEntry (e : IndexEntry) : Bytes := leBytes 8 e.off ++ leBytes 8 e.len ++ leBytes 8 e.rawLen

/-- `decode_entry`. The sum is one of 64-bit integers. -/
def decodeEntry (v : Bytes) : Except Err IndexEntry :=
  if v.length ≠ 24 then .error (.corrupt "corrupt index entry")
  else
    let e : IndexEntry :=
      ⟨ofLeBytes (slice v 0 8), ofLeBytes (slice v 8 8), ofLeBytes (slice v 16 8)⟩
    if (e.off + e.len) % 2 ^ 64 < e.off then .error (.corrupt "pack index out of bounds")
    else .ok e

/-- The blob whose stored form is `stored`: what `decompress` makes of it. -/
def unpackBlob (ext : Ext) (stored : Bytes) (rawLen : Nat) : Except Err Bytes :=
  if lz4MaxInputSize < rawLen ∨ int32Max < stored.length then
    .error (.corrupt "corrupt index entry: blob too large")
  else match ext.lz4Decompress stored rawLen with
    | none => .error (.corrupt "corrupt compressed blob")
    | some out =>
      if out.length ≠ rawLen then .error (.corrupt "corrupt compressed blob") else .ok out

/-- The bytes `put` stores for a blob: its compressed form where that is shorter. -/
def packBlob (ext : Ext) (data : Bytes) : Bytes :=
  if kMinCompressSize ≤ data.length ∧ data.length ≤ lz4MaxInputSize then
    match ext.lz4Compress data (data.length - 1) with
    | some packed => if 0 < packed.length then packed else data
    | none => data
  else data

/-- The generation a database records (`read_gen`). -/
def Db.gen (db : Db) : Except Err Nat :=
  match db.metaTable.find? genKey with
  | none => .ok 0
  | some v => if v.length ≠ 8 then .error (.corrupt "corrupt generation record")
    else .ok (ofLeBytes v)

/-- A pack file mapped by this process. -/
structure Mapping where
  gen : Nat
  ino : Nat
  deriving DecidableEq, Repr

/-- The fields of `PackCas::Impl`; `thread` is the calling thread. -/
structure Impl where
  cur : Option Mapping := none
  retired : List Mapping := []
  known : Nat → Nat := fun _ => 0
  wtxn : Bool := false
  writerThread : Nat := 0
  thread : Nat := 0
  committedEnd : Nat := 0
  end_ : Nat := 0
  batchBytes : Nat := 0

/-- `batch_txn` is not null. -/
def Impl.batchTxn (i : Impl) : Bool := i.wtxn && i.writerThread == i.thread

/-- The mapping of a generation the handle already has. -/
def Impl.find (i : Impl) (gen : Nat) : Option Mapping :=
  (i.cur.toList ++ i.retired).find? fun m => decide (m.gen = gen)

/-- Takes a new mapping into the handle, as `cur` if it is the newest. -/
def Impl.addMapping (i : Impl) (m : Mapping) : Impl :=
  match i.cur with
  | none => { i with cur := some m }
  | some c =>
    if c.gen < m.gen then { i with retired := i.retired ++ [c], cur := some m }
    else { i with retired := i.retired ++ [m] }

/-- Sets `Mapping::size` of a generation's mapping. -/
def Impl.setKnown (i : Impl) (gen size : Nat) : Impl :=
  { i with known := fun g => if g = gen then size else i.known g }

/-- A computation of a process that has the handle `Impl` open. -/
abbrev CasM : Type → Type := Eff sig Impl Err

def perform (c : Call) : CasM c.Resp := Eff.perform (S := sig) c

/-- `try m catch (...) h`. -/
def catchAll {α : Type} (m : CasM α) (h : Err → CasM α) : CasM α := Eff.catchIf Err.caught m h

/-- `mdb_check`. -/
def mdbCheck {α : Type} (what : String) : Except Errno α → CasM α
  | .ok a => pure a
  | .error .badTxn => Eff.throw (.undefined what)
  | .error res => Eff.throw (.lmdb what res)

/-- `sys_err` on failure. -/
def sysCheck {α : Type} (what : String) : Except Errno α → CasM α
  | .ok a => pure a
  | .error _ => Eff.throw (.sys what)

/-- `std::bad_alloc` on failure. -/
def allocCheck : Except Errno Unit → CasM Unit
  | .ok _ => pure ()
  | .error _ => Eff.throw .badAlloc

/-- The name of a generation's pack file in the directory (`pack_path`). -/
def packPath (gen : Nat) : String := "pack." ++ toString gen

/-! ## Strings -/

/-- `std::string::resize`, and the constructor of a string of `n` bytes. -/
def resize (n : Nat) : CasM Unit :=
  if maxOff < n then Eff.throw .lengthError else perform (.alloc n) >>= allocCheck

/-- `decompress`. -/
def decompress (ext : Ext) (stored : Bytes) (rawLen : Nat) : CasM Bytes :=
  if lz4MaxInputSize < rawLen ∨ int32Max < stored.length then
    Eff.throw (.corrupt "corrupt index entry: blob too large")
  else do
    resize rawLen
    match ext.lz4Decompress stored rawLen with
    | none => Eff.throw (.corrupt "corrupt compressed blob")
    | some out =>
      if out.length ≠ rawLen then Eff.throw (.corrupt "corrupt compressed blob") else pure out

/-! ## Files -/

/-- `Mapping::file_size`. -/
def fileSize (m : Mapping) : CasM Nat := perform (.fstat m.ino) >>= sysCheck "fstat pack"

/-- `pwrite_all`. Every round writes at least one byte, so as many rounds as bytes suffice. -/
def pwriteAll.go (ino : Nat) : Nat → Bytes → Nat → CasM Unit
  | 0, _, _ => pure ()
  | fuel + 1, data, off =>
    if data = [] then pure ()
    else do
      let n ← perform (.pwrite ino off data) >>= sysCheck "pwrite pack"
      pwriteAll.go ino fuel (data.drop (n + 1)) (off + (n + 1))

def pwriteAll (ino : Nat) (data : Bytes) (off : Nat) : CasM Unit :=
  pwriteAll.go ino data.length data off

/-- `write_all`; returns the file offset it leaves. -/
def writeAll.go (ino : Nat) : Nat → Bytes → Nat → CasM Nat
  | 0, _, pos => pure pos
  | fuel + 1, data, pos =>
    if data = [] then pure pos
    else do
      let n ← perform (.write ino pos data) >>= sysCheck "write pack"
      writeAll.go ino fuel (data.drop (n + 1)) (pos + (n + 1))

def writeAll (ino : Nat) (data : Bytes) (pos : Nat) : CasM Nat :=
  writeAll.go ino data.length data pos

/-- `pread_all`, after the `resize` of its destination to `len` bytes. Every round reads at least
one byte or ends. -/
def preadAll.go (ino : Nat) : Nat → Nat → Nat → Bytes → CasM Bytes
  | 0, _, _, acc => pure acc
  | fuel + 1, len, off, acc =>
    if len = 0 then pure acc
    else do
      let got ← perform (.pread ino off len) >>= sysCheck "pread pack"
      if got = [] then Eff.throw (.corrupt "pack truncated")
      else preadAll.go ino fuel (len - got.length) (off + got.length) (acc ++ got)

def preadAll (ino len off : Nat) : CasM Bytes := do
  resize len
  preadAll.go ino len len off []

/-- `Mapping::view`. -/
def view (m : Mapping) (off len : Nat) : CasM Bytes := do
  if kMapSize < (off + len) % 2 ^ 64 then Eff.throw (.corrupt "pack index out of bounds")
  else
    let i ← Eff.get
    if i.known m.gen < (off + len) % 2 ^ 64 then
      let known ← fileSize m
      Eff.modify (·.setKnown m.gen known)
      if known < (off + len) % 2 ^ 64 then Eff.throw (.corrupt "pack index out of bounds")
      else mapped m off len
    else mapped m off len
where
  /-- The bytes behind the returned `string_view`. -/
  mapped (m : Mapping) (off len : Nat) : CasM Bytes := do
    match ← perform (.mmapRead m.ino off len) with
    | some bytes => pure bytes
    | none => Eff.throw .sigbus

/-! ## `Impl` -/

/-- `read_gen`. -/
def readGen (db : Db) : CasM Nat := do
  perform .mdbRead >>= mdbCheck "mdb_get gen"
  Eff.ofExcept db.gen

/-- `write_gen`. -/
def writeGen (gen : Nat) : CasM Unit :=
  perform (.txnPut .metaTable genKey (leBytes 8 gen) true) >>= mdbCheck "mdb_put gen"

/-- `map_pack`. -/
def mapPack (gen : Nat) (create : Bool) : CasM (Option Mapping) := do
  match ← perform (.openPack gen create false) with
  | .error _ => Eff.throw (.sys ("open " ++ packPath gen))
  | .ok none => if create then Eff.throw (.sys ("open " ++ packPath gen)) else pure none
  | .ok (some ino) =>
    let m : Mapping := ⟨gen, ino⟩
    let size ← fileSize m
    Eff.modify (·.setKnown gen size)
    perform (.mmap ino) >>= sysCheck "mmap pack"
    pure (some m)

/-- `mapping_for`. -/
def mappingFor (gen : Nat) (create : Bool) : CasM (Option Mapping) := do
  let i ← Eff.get
  match i.find gen with
  | some m => pure (some m)
  | none =>
    match ← mapPack gen create with
    | none => pure none
    | some m =>
      Eff.modify (·.addMapping m)
      pure (some m)

/-- `mapping_for(gen, true)`, whose result the callers dereference. -/
def mapCreate (gen : Nat) : CasM Mapping := do
  match ← mappingFor gen true with
  | some m => pure m
  | none => Eff.throw (.undefined "null mapping")

/-- `current`, dereferenced. -/
def current : CasM Mapping := do
  let i ← Eff.get
  match i.cur with
  | some m => pure m
  | none => Eff.throw (.undefined "null mapping")

/-- `lock_writer`, with the number of polls left. -/
def lockWriter.go : Nat → CasM Unit
  | 0 => do
    let got ← perform .flockTry >>= sysCheck "flock"
    if got then pure ()
    else Eff.throw (.runtime
      "timed out waiting for the pack writer lock; is another process stuck?")
  | polls + 1 => do
    let got ← perform .flockTry >>= sysCheck "flock"
    if got then pure () else lockWriter.go polls

def lockWriter : CasM Unit := lockWriter.go kLockPolls

/-- `unlock_writer`. -/
def unlockWriter : CasM Unit := perform .flockUn

/-- `mdb_txn_abort`. -/
def txnAbort : CasM Unit := perform .txnAbort >>= mdbCheck "mdb_txn_abort"

/-- `begin_batch`. -/
def beginBatch : CasM Unit := do
  lockWriter
  catchAll
    (do
      perform .txnBegin >>= mdbCheck "txn_begin"
      Eff.modify fun i => { i with wtxn := true, writerThread := i.thread }
      let db ← perform .txnDb >>= mdbCheck "mdb_get gen"
      let gen ← readGen db
      let m ← mapCreate gen
      let size ← fileSize m
      Eff.modify fun i =>
        ({ i with end_ := size, committedEnd := size, batchBytes := 0 }).setKnown m.gen size)
    (fun e => do
      let i ← Eff.get
      if i.wtxn then
        txnAbort
        Eff.modify fun i => { i with wtxn := false }
        unlockWriter
        Eff.throw e
      else
        unlockWriter
        Eff.throw e)

/-- `commit_batch`. -/
def commitBatch : CasM Unit := do
  let m ← current
  perform (.fdatasync m.ino) >>= sysCheck "fdatasync pack"
  perform .txnCommit >>= mdbCheck "txn_commit"
  Eff.modify fun i => { i with wtxn := false }
  perform .envSync >>= mdbCheck "env_sync"
  Eff.modify fun i => ({ i with committedEnd := i.end_ }).setKnown m.gen i.end_
  unlockWriter

/-- `abort_batch`. -/
def abortBatch : CasM Unit := do
  txnAbort
  Eff.modify fun i => { i with wtxn := false }
  let m ← current
  let i ← Eff.get
  let cut : Bool ← perform (.ftruncate m.ino i.committedEnd)
  Eff.modify fun i => if cut then { i with end_ := i.committedEnd } else i
  Eff.modify fun i => i.setKnown m.gen i.end_
  unlockWriter

/-- The transaction a `ReadTxn` reads: the open batch's, if it is this thread's, or a snapshot. -/
def readTxn : CasM Db := do
  let i ← Eff.get
  if i.batchTxn then perform .txnDb >>= mdbCheck "mdb_get"
  else perform .readTxn >>= mdbCheck "txn_begin"

/-- `lookup`; the generation is read where `gen_out` is given. -/
def lookup (hash : Bytes) (genOut : Bool) : CasM (Nat × Option IndexEntry) := do
  if hash.length ≠ kHashLen then Eff.throw (.invalidArgument "bad hash length")
  else
    let db ← readTxn
    let gen ← if genOut then readGen db else pure 0
    perform .mdbRead >>= mdbCheck "mdb_get"
    match db.blobs.find? hash with
    | none => pure (gen, none)
    | some v =>
      let e ← Eff.ofExcept (decodeEntry v)
      pure (gen, some e)

/-- `locate`, with the number of attempts left. -/
def locate.go (hash : Bytes) : Nat → CasM (Option (IndexEntry × Mapping))
  | 0 => Eff.throw (.runtime "pack generation churn")
  | n + 1 => do
    let r ← lookup hash true
    match r.2 with
    | none => pure none
    | some e =>
      let i ← Eff.get
      match ← mappingFor r.1 i.wtxn with
      | some m => pure (some (e, m))
      | none => locate.go hash n

def locate (hash : Bytes) : CasM (Option (IndexEntry × Mapping)) :=
  locate.go hash kMaxGenerationRetries

/-! ## `PackCas` -/

/-- `PackCas::sync`. -/
def sync : CasM Unit := do
  let i ← Eff.get
  if i.wtxn then commitBatch else pure ()

/-- `PackCas::put`. -/
def put (ext : Ext) (data : Bytes) : CasM Bytes := do
  let hash := ext.blake3 data
  let i ← Eff.get
  if i.wtxn && !i.batchTxn then
    Eff.throw (.logic "pack write batch is open in another thread; serialize writers")
  else
    if i.wtxn then pure () else beginBatch
    let r ← lookup hash false
    match r.2 with
    | some _ => pure hash
    | none =>
      let stored := packBlob ext data
      let m ← current
      let i ← Eff.get
      pwriteAll m.ino stored i.end_
      perform (.txnPut .blobs hash (encodeEntry ⟨i.end_, stored.length, data.length⟩) false) >>=
        mdbCheck "mdb_put"
      Eff.modify fun i =>
        { i with end_ := i.end_ + stored.length, batchBytes := i.batchBytes + stored.length }
      let i ← Eff.get
      if kAutoSyncBytes ≤ i.batchBytes then
        sync
        pure hash
      else pure hash

/-- `PackCas::get`. -/
def get (ext : Ext) (hash : Bytes) : CasM (Option Bytes) := do
  match ← locate hash with
  | none => pure none
  | some (e, m) =>
    let stored ← preadAll m.ino e.len e.off
    if e.compressed then
      let out ← decompress ext stored e.rawLen
      pure (some out)
    else pure (some stored)

/-- `PackCas::get_view`. -/
def getView (ext : Ext) (hash : Bytes) : CasM (Option Bytes) := do
  match ← locate hash with
  | none => pure none
  | some (e, m) =>
    let stored ← view m e.off e.len
    if e.compressed then
      let out ← decompress ext stored e.rawLen
      pure (some out)
    else pure (some stored)

/-- `PackCas::size`. -/
def size (hash : Bytes) : CasM (Option Nat) := do
  let r ← lookup hash false
  pure (r.2.map IndexEntry.rawLen)

/-- `PackCas::has`. -/
def has (hash : Bytes) : CasM Bool := do
  let r ← lookup hash false
  pure r.2.isSome

/-- `PackCas::pack_size`. -/
def packSize : CasM Nat := do
  let m ← current
  fileSize m

/-- The locals of the loop of `compact`, with the file offset of the new pack. -/
structure Sweep where
  buf : Bytes := []
  keep : List (Bytes × IndexEntry) := []
  newOff : Nat := 0
  pos : Nat := 0

/-- The cursor loop of `compact` over the bindings left. -/
def compactLoop (live : Bytes → Except Err Bool) (m : Mapping) (newIno : Nat) :
    List (Bytes × Bytes) → Sweep → CasM Sweep
  | [], s => do
    perform .mdbRead >>= mdbCheck "cursor_get"
    pure s
  | (hash, v) :: rest, s => do
    perform .mdbRead >>= mdbCheck "cursor_get"
    let e ← Eff.ofExcept (decodeEntry v)
    let keep ← Eff.ofExcept (live hash)
    if keep then
      let bytes ← view m e.off e.len
      let s := { s with
        buf := s.buf ++ bytes
        keep := s.keep ++ [(hash, ⟨s.newOff, e.len, e.rawLen⟩)]
        newOff := s.newOff + e.len }
      if kCompactChunk ≤ s.buf.length then
        let pos ← writeAll newIno s.buf s.pos
        compactLoop live m newIno rest { s with buf := [], pos := pos }
      else compactLoop live m newIno rest s
    else compactLoop live m newIno rest s

/-- Puts the kept entries into the emptied index. -/
def putKept : List (Bytes × IndexEntry) → CasM Unit
  | [] => pure ()
  | (hash, e) :: rest => do
    perform (.txnPut .blobs hash (encodeEntry e) true) >>= mdbCheck "mdb_put"
    putKept rest

/-- Part of the scope of an owned `WriteTxn` before its `commit`: left by an exception, it aborts
the transaction. -/
def txnScope {α : Type} (m : CasM α) : CasM α :=
  catchAll m fun e => do
    txnAbort
    Eff.throw e

/-- The part of `compact` during which `new_fd` is open: left by an exception, the new pack is
removed. -/
def guardNewPack {α : Type} (gen ino : Nat) (m : CasM α) : CasM α :=
  catchAll m fun e => do
    perform (.closeFd ino)
    perform (.unlink gen)
    Eff.throw e

/-- The generation after `gen`; the counter has 64 bits. -/
def nextGen (gen : Nat) : Nat := (gen + 1) % 2 ^ 64

/-- Fills the new pack and the new index, in the transaction of `compact`. -/
def compactCopy (live : Bytes → Except Err Bool) (gen : Nat) (m : Mapping) (newIno : Nat) :
    CasM Nat := do
  perform .mdbRead >>= mdbCheck "cursor_open"
  let db ← perform .txnDb >>= mdbCheck "cursor_get"
  let s ← compactLoop live m newIno db.blobs.toList {}
  let _ ← writeAll newIno s.buf s.pos
  perform (.fdatasync newIno) >>= sysCheck "fdatasync new pack"
  perform .txnDropBlobs >>= mdbCheck "mdb_drop"
  putKept s.keep
  writeGen (nextGen gen)
  pure s.newOff

/-- Opens the old and the new pack, in the transaction of `compact`. -/
def compactOpen : CasM (Nat × Mapping × Nat) := do
  let db ← perform .txnDb >>= mdbCheck "mdb_get gen"
  let gen ← readGen db
  let m ← mapCreate gen
  let size ← fileSize m
  Eff.modify (·.setKnown m.gen size)
  match ← perform (.openPack (nextGen gen) true true) with
  | .ok (some newIno) => pure (gen, m, newIno)
  | _ => Eff.throw (.sys ("open " ++ packPath (nextGen gen)))

/-- Fills the new pack and switches to it. -/
def compactSwitch (live : Bytes → Except Err Bool) (gen : Nat) (m : Mapping) (newIno : Nat) :
    CasM Nat :=
  guardNewPack (nextGen gen) newIno do
    let newOff ← txnScope (compactCopy live gen m newIno)
    perform .txnCommit >>= mdbCheck "txn_commit"
    perform .envSync >>= mdbCheck "env_sync"
    pure newOff

/-- The end of `compact`: the old pack goes, the new one is mapped. -/
def compactEnd (gen newIno newOff : Nat) : CasM Unit := do
  perform (.closeFd newIno)
  perform (.unlink gen)
  let _ ← mappingFor (nextGen gen) true
  Eff.modify fun i => { i with committedEnd := newOff, end_ := newOff }
  unlockWriter

/-- The `try` block of `compact`. -/
def compactLocked (live : Bytes → Except Err Bool) : CasM Unit := do
  perform .txnBegin >>= mdbCheck "txn_begin"
  let (gen, m, newIno) ← txnScope compactOpen
  let newOff ← compactSwitch live gen m newIno
  compactEnd gen newIno newOff

/-- `compact` behind the `sync`. -/
def compactLocking (live : Bytes → Except Err Bool) : CasM Unit := do
  lockWriter
  catchAll (compactLocked live) fun e => do
    unlockWriter
    Eff.throw e

/-- `PackCas::compact`. -/
def compact (live : Bytes → Except Err Bool) : CasM Unit := do
  sync
  compactLocking live

/-! ## Opening and closing -/

/-- `check_format` on the tables of the opening transaction. -/
def checkFormat (db : Db) : CasM Unit := do
  perform .mdbRead >>= mdbCheck "mdb_get format"
  match db.metaTable.find? formatKey with
  | some v => if v ≠ kFormat then Eff.throw (.corrupt "unsupported cache format") else pure ()
  | none => do
    perform .mdbRead >>= mdbCheck "mdb_stat"
    if db.blobs.toList ≠ [] then Eff.throw (.corrupt "cache predates format versioning")
    else perform (.txnPut .metaTable formatKey kFormat true) >>= mdbCheck "mdb_put format"

/-- The loop of `cleanup_orphans`. -/
def unlinkOrphans (liveGen : Nat) : List Nat → CasM Unit
  | [] => pure ()
  | gen :: rest =>
    if gen ≠ liveGen then do
      perform (.unlink gen)
      unlinkOrphans liveGen rest
    else unlinkOrphans liveGen rest

/-- `cleanup_orphans`. -/
def cleanupOrphans (liveGen : Nat) : CasM Unit := do
  let names ← perform (.listPacks liveGen) >>= sysCheck "directory_iterator"
  unlinkOrphans liveGen names

/-- Cleans up unless a writer is at work. -/
def cleanupIfFree (gen : Nat) : CasM Unit := do
  match ← perform .flockTry with
  | .ok true => do
    cleanupOrphans gen
    unlockWriter
  | _ => pure ()

/-- The body of `open_once`. -/
def openBody : CasM Unit := do
  perform .createDirs >>= sysCheck "mkdir index"
  perform .envOpen >>= mdbCheck "env_open"
  perform .txnBegin >>= mdbCheck "txn_begin"
  let gen ← txnScope do
    perform .mdbRead >>= mdbCheck "dbi_open"
    perform .mdbRead >>= mdbCheck "dbi_open"
    let db ← perform .txnDb >>= mdbCheck "mdb_get format"
    checkFormat db
    readGen db
  perform .txnCommit >>= mdbCheck "txn_commit"
  perform .openLock >>= sysCheck "open lock"
  cleanupIfFree gen
  match ← mappingFor gen true with
  | some _ => pure ()
  | none => Eff.throw (.runtime "cannot map pack")

/-- `PackCas::open_once`, on a new `Impl`, which an exception destroys. Closing the lock file drops
a lock that is still held. -/
def openOnce : CasM Unit :=
  catchAll openBody fun e => do
    perform .flockUn
    Eff.throw e

/-- `PackCas::open`. -/
def open_ : CasM Unit :=
  catchAll openOnce fun _ => do
    let _ ← perform .removeAll
    Eff.modify fun i => { thread := i.thread }
    openOnce

/-- `~Impl`. -/
def destroy : CasM Unit := do
  let i ← Eff.get
  if i.wtxn then abortBatch else pure ()
  perform .flockUn
  Eff.modify fun i => { thread := i.thread }

/-! ## The meta table -/

/-- A `WriteTxn` around one operation: it joins an open batch of this thread or is a transaction
of its own. -/
def writeTxn (op : CasM Unit) : CasM Unit := do
  let i ← Eff.get
  if i.batchTxn then op
  else
    perform .txnBegin >>= mdbCheck "txn_begin"
    txnScope op
    perform .txnCommit >>= mdbCheck "txn_commit"

/-- `PackCas::meta_put`. -/
def metaPut (key val : Bytes) : CasM Unit :=
  writeTxn (perform (.txnPut .metaTable key val true) >>= mdbCheck "mdb_put meta")

/-- `PackCas::meta_get`. -/
def metaGet (key : Bytes) : CasM (Option Bytes) := do
  let db ← readTxn
  perform .mdbRead >>= mdbCheck "mdb_get meta"
  pure (db.metaTable.find? key)

/-- `PackCas::meta_del`. -/
def metaDel (key : Bytes) : CasM Unit :=
  writeTxn (perform (.txnDel .metaTable key) >>= mdbCheck "mdb_del meta")

/-- `PackCas::meta_scan`: the records the callback is called with, in order, if it never stops the
scan. -/
def metaScan (pre : Bytes) : CasM (List (Bytes × Bytes)) := do
  let db ← readTxn
  perform .mdbRead >>= mdbCheck "cursor_get"
  pure ((db.metaTable.fromKey pre).takeWhile fun r => pre.isPrefixOf r.1)

end Tarmac.PackCas
