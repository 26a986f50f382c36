import Tarmac.Tree.Env
import Tarmac.Tree.Mem

/-!
# The code of `src/tree.cpp` and of the eval store

`TreeStore`, `ingest_archive` and the functions of `plugin/store.cc` that write and read records, as
programs over the calls of `Tarmac.Tree.Env`. The private state of a program is the touch queue of
its `TreeStore`; the order of the queue, which the source does not fix, is that of insertion.

Two loops of the source have no bound that the program could know, since what they walk is in the
store: those of `mark_live` get one as an argument (`fuel`) and fail when it is used up. What
`mark_live` has put into the set before it throws stays there, so it returns the set with its
outcome.
-/

namespace Tarmac.Tree

open PackCas

/-- `pending_touch_`: keys of roots and the stamps to write. -/
abbrev Pending : Type := List (Bytes × Nat)

/-- The programs of a `TreeStore`. -/
abbrev TreeM (α : Type) : Type := Eff sig Pending Err α

/-- A call that throws what it fails with. -/
def ask {α : Type} (c : Call) (h : c.Resp = Except Err α) : TreeM α := do
  let r ← Eff.perform (S := sig) c
  Eff.ofExcept (h ▸ r)

namespace Cas

/-- `PackCas::put` and its siblings, as `TreeStore` calls them. -/
def put (tree : Bool) (d : Bytes) : TreeM Bytes := ask (.put tree d) rfl
def get (h : Bytes) : TreeM (Option Bytes) := ask (.get h) rfl
def getView (h : Bytes) : TreeM (Option Bytes) := ask (.getView h) rfl
def size (h : Bytes) : TreeM (Option Nat) := ask (.size h) rfl
def has (h : Bytes) : TreeM Bool := ask (.has h) rfl
def sync : TreeM Unit := ask .sync rfl
def compact (live : Bytes → Bool) : TreeM Unit := ask (.compact live) rfl
def metaPut (key val : Bytes) : TreeM Unit := ask (.metaPut key val) rfl
def metaGet (key : Bytes) : TreeM (Option Bytes) := ask (.metaGet key) rfl
def metaDel (key : Bytes) : TreeM Unit := ask (.metaDel key) rfl
def metaScan (pre : Bytes) : TreeM (List (Bytes × Bytes)) := ask (.metaScan pre) rfl

end Cas

/-- `now_ns`. -/
def nowNs : TreeM Nat := Eff.perform (S := sig) .now

/-- The intervals of a `TreeStore`, in nanoseconds. -/
structure Config where
  ttl : Nat
  gcInterval : Nat
  touchInterval : Nat

/-! ## Stamps and keys -/

/-- `be64`. -/
def be64 (v : Nat) : Bytes := (leBytes 8 v).reverse

/-- `rbe64`, of eight bytes. -/
def rbe64 (bs : Bytes) : Nat := ofLeBytes bs.reverse

/-- `is_timestamp`. -/
def isTimestamp (bs : Bytes) : Bool := decide (bs.length = 8)

/-- `now - stamp`, a difference of 64-bit integers. -/
def age (now stamp : Nat) : Nat := (now + 2 ^ 64 - stamp) % 2 ^ 64

/-- A stamp is read back. -/
theorem rbe64_be64 {v : Nat} (h : v < 2 ^ 64) : rbe64 (be64 v) = v := by
  unfold rbe64 be64
  rw [List.reverse_reverse, ofLeBytes_leBytes]
  exact Nat.mod_eq_of_lt h

/-- It is a stamp. -/
@[simp] theorem isTimestamp_be64 (v : Nat) : isTimestamp (be64 v) = true := by
  simp [isTimestamp, be64]

/-- The age of a stamp that is not in the future. -/
theorem age_eq {now stamp : Nat} (h : stamp ≤ now) (hnow : now < 2 ^ 64) :
    age now stamp = now - stamp := by
  unfold age
  omega

def treePrefix : Bytes := ascii ['R']
def blobPrefix : Bytes := ascii ['B']
def lastGcKey : Bytes := ascii ['l', 'a', 's', 't', 'g', 'c']
def kPathPrefix : Bytes := ascii ['s', 'p', ':']
def kDrvPrefix : Bytes := ascii ['s', 'd', ':']

/-- `root_key`. -/
def rootKey (root : Bytes) (tree : Bool) : Bytes := (if tree then treePrefix else blobPrefix) ++ root

/-- Keys of roots begin with `R` or `B`. -/
theorem rootKey_cons (root : Bytes) (tree : Bool) :
    rootKey root tree = (if tree then 82 else 66) :: root := by cases tree <;> rfl

/-- They are not keys of paths. -/
theorem rootKey_ne_path {root path : Bytes} {tree : Bool} : rootKey root tree ≠ kPathPrefix ++ path := by
  rw [rootKey_cons]
  cases tree <;> simp [kPathPrefix, ascii]

theorem rootKey_ne_drv {root path : Bytes} {tree : Bool} : rootKey root tree ≠ kDrvPrefix ++ path := by
  rw [rootKey_cons]
  cases tree <;> simp [kDrvPrefix, ascii]

theorem rootKey_ne_lastGc {root : Bytes} {tree : Bool} : rootKey root tree ≠ lastGcKey := by
  rw [rootKey_cons]
  cases tree <;> simp [lastGcKey, ascii]

/-- Keys of paths are not those of derivations. -/
theorem path_ne_drv {path path' : Bytes} : kPathPrefix ++ path ≠ kDrvPrefix ++ path' := by
  simp [kPathPrefix, kDrvPrefix, ascii]

theorem path_ne_lastGc {path : Bytes} : kPathPrefix ++ path ≠ lastGcKey := by
  simp [kPathPrefix, lastGcKey, ascii]

/-! ## Objects -/

/-- `TreeStore::putBlob`. -/
def putBlob (data : Bytes) : TreeM Bytes := Cas.put false data

/-- `TreeStore::putTree`. -/
def putTree (entries : List TreeEntry) : TreeM Bytes :=
  if entries.all TreeEntry.fits then Cas.put true (encodeTree entries)
  else Eff.throw (.invalidArgument "tree entry too large")

/-- `TreeStore::readTree`. -/
def readTree (treeId : Bytes) : TreeM (List TreeEntry) := do
  match ← Cas.get treeId with
  | none => Eff.throw (.corrupt "missing tree object")
  | some data => Eff.ofExcept (decodeTree data)

/-! ## Unpacking -/

/-- The directories among the children of a directory. -/
def subDirs (children : List (Bytes × MemNode Bytes)) : List (List (Bytes × MemNode Bytes)) :=
  children.filterMap fun c => match c.2 with
    | .dir sub => some sub
    | .leaf .. => none

/-- The entries of a directory, `ids` being the ids of the directories among its children. -/
def dirEntries : List (Bytes × MemNode Bytes) → List Bytes → List TreeEntry
  | [], _ => []
  | (name, .leaf type id) :: rest, ids => ⟨name, .leaf type, id⟩ :: dirEntries rest ids
  | (name, .dir _) :: rest, ids => ⟨name, .d, ids.headD []⟩ :: dirEntries rest ids.tail

/-- Stores the directories of one level from the last to the first, `ids` being the ids of the level
below. -/
def flushLevel : List (List (Bytes × MemNode Bytes)) → List Bytes → TreeM (List Bytes)
  | [], _ => pure []
  | dir :: level, ids => do
    let rest ← flushLevel level (ids.drop (subDirs dir).length)
    let id ← putTree (dirEntries dir (ids.take (subDirs dir).length))
    pure (id :: rest)

/-- The listing of `flush_tree` is by levels. Walked backwards, it stores the deepest level first;
`n` bounds the number of levels. -/
def flushLevels : Nat → List (List (Bytes × MemNode Bytes)) → TreeM (List Bytes)
  | 0, _ => pure []
  | n + 1, level => do
    if level.isEmpty then pure []
    else
      let ids ← flushLevels n (level.flatMap subDirs)
      flushLevel level ids

mutual

/-- The number of levels of a tree. -/
def MemNode.height {ι : Type} : MemNode ι → Nat
  | .leaf .. => 0
  | .dir children => heightAll children + 1

def heightAll {ι : Type} : List (Bytes × MemNode ι) → Nat
  | [] => 0
  | c :: rest => max c.2.height (heightAll rest)

end

/-- `flush_tree`. -/
def flushTree (root : MemNode Bytes) : TreeM Bytes := do
  match root with
  | .leaf _ id => pure id
  | .dir children =>
    let ids ← flushLevels root.height [children]
    pure (ids.headD [])

/-- `apply_item`, with the number of files. -/
def applyItem (st : MemNode Bytes × Nat) (item : TarItem) : TreeM (MemNode Bytes × Nat) := do
  let comps ← Eff.ofExcept (itemComps item)
  match item.type with
  | .h => do
    let node ← Eff.ofExcept (linkTarget st.1 item)
    let root ← Eff.ofExcept (addNode st.1 comps item.path node)
    pure (root, st.2)
  | .d => do
    let root ← Eff.ofExcept (addNode st.1 comps item.path .empty)
    pure (root, st.2)
  | .leaf type => do
    let id ← putBlob item.data
    let root ← Eff.ofExcept (addNode st.1 comps item.path (.leaf type id))
    pure (root, st.2 + 1)

/-- The loop of `ingest_archive`. -/
def applyItems : MemNode Bytes × Nat → List TarItem → TreeM (MemNode Bytes × Nat)
  | st, [] => pure st
  | st, item :: items => do
    let st ← applyItem st item
    applyItems st items

/-! ## Roots and collection -/

/-- `TreeStore::registerRoot`. -/
def registerRoot (root : Bytes) (tree : Bool) : TreeM Unit := do
  let now ← nowNs
  Cas.metaPut (rootKey root tree) (be64 now)

/-- `pending_touch_.try_emplace`. -/
def queueTouch (key : Bytes) (now : Nat) (pending : Pending) : Pending :=
  if pending.any fun p => decide (p.1 = key) then pending else pending ++ [(key, now)]

/-- `TreeStore::touchRoot`. -/
def touchRoot (cfg : Config) (root : Bytes) (tree : Bool) : TreeM Unit := do
  let key := rootKey root tree
  match ← Cas.metaGet key with
  | none => pure ()
  | some stamp =>
    if !isTimestamp stamp then pure ()
    else
      let now ← nowNs
      if age now (rbe64 stamp) < cfg.touchInterval then pure ()
      else Eff.modify (queueTouch key now)

/-- The loop of `flush_touches`. -/
def writeTouches : Pending → TreeM Unit
  | [] => pure ()
  | (key, stamp) :: rest => do
    Cas.metaPut key (be64 stamp)
    writeTouches rest

/-- `TreeStore::flush_touches`. -/
def flushTouches : TreeM Unit := do
  let batch ← Eff.get
  Eff.modify fun _ => []
  writeTouches batch

/-- `TreeStore::sync`. -/
def sync : TreeM Unit := do
  flushTouches
  Cas.sync

/-- The condition under which `expire_roots` collects a record. -/
def expired (cfg : Config) (now : Nat) (val : Bytes) : Bool :=
  isTimestamp val && decide (cfg.ttl ≤ age now (rbe64 val))

/-- Deletes records. -/
def deleteAll : List Bytes → TreeM Unit
  | [] => pure ()
  | key :: rest => do
    Cas.metaDel key
    deleteAll rest

/-- `TreeStore::expire_roots`. -/
def expireRoots (cfg : Config) (pre : Bytes) (now : Nat) : TreeM Nat := do
  let records ← Cas.metaScan pre
  let keys := (records.filter fun r => expired cfg now r.2).map Prod.fst
  deleteAll keys
  pure keys.length

/-- `live.insert`. -/
def insertLive (id : Bytes) (live : List Bytes) : List Bytes := if id ∈ live then live else id :: live

/-- The loop of `mark_live` over the entries of a directory. -/
def markEntries : List TreeEntry → List Bytes → List Bytes → List Bytes × List Bytes
  | [], pending, live => (pending, live)
  | e :: es, pending, live =>
    if e.id ∈ live then markEntries es pending live
    else markEntries es (if e.type = .d then e.id :: pending else pending) (e.id :: live)

/-- Runs `m` and returns what it ends with. -/
def attempt {α : Type} (m : TreeM α) : TreeM (Except Err α) :=
  Eff.catchIf Err.caught (m >>= fun a => pure (.ok a)) fun e => pure (.error e)

/-- The loop of `mark_live` over the directories not read yet. -/
def markLoop : Nat → List Bytes → List Bytes → TreeM (List Bytes × Except Err Unit)
  | _, [], live => pure (live, .ok ())
  | 0, _ :: _, _ => Eff.throw (.undefined "out of fuel")
  | fuel + 1, treeId :: pending, live => do
    match ← attempt (readTree treeId) with
    | .error e => pure (live, .error e)
    | .ok entries =>
      let (pending, live) := markEntries entries pending live
      markLoop fuel pending live

/-- `TreeStore::mark_live`. -/
def markLive (fuel : Nat) (root : Bytes) (live : List Bytes) : TreeM (List Bytes × Except Err Unit) :=
  if root ∈ live then pure (live, .ok ()) else markLoop fuel [root] (root :: live)

/-- The marking of `maybeGc`: the live objects, and the roots that could not be walked. -/
def markRoots (fuel : Nat) : List Bytes → List Bytes → List Bytes →
    TreeM (List Bytes × List Bytes)
  | [], live, broken => pure (live, broken)
  | root :: roots, live, broken => do
    let (live, outcome) ← markLive fuel root live
    match outcome with
    | .ok () => markRoots fuel roots live broken
    | .error _ => markRoots fuel roots live (broken ++ [root])

/-- The roots behind the keys of a scan. -/
def rootsOf (records : List (Bytes × Bytes)) : List Bytes := records.map fun r => r.1.drop 1

/-- The end of `TreeStore::maybeGc`: the broken roots go, and what is not live. -/
def sweep (live broken : List Bytes) : TreeM Unit := do
  deleteAll (broken.map fun root => treePrefix ++ root)
  let blobs ← Cas.metaScan blobPrefix
  let live := (rootsOf blobs).foldl (fun live id => insertLive id live) live
  Cas.compact fun hash => decide (hash ∈ live)

/-- `TreeStore::maybeGc` behind the expiry. -/
def collect (fuel : Nat) : TreeM Unit := do
  let records ← Cas.metaScan treePrefix
  let (live, broken) ← markRoots fuel (rootsOf records) [] []
  sweep live broken

/-- The pass was run less than an interval ago. -/
def gcRecent (cfg : Config) (now : Nat) (stamp : Option Bytes) : Bool :=
  stamp.any fun stamp => isTimestamp stamp && decide (age now (rbe64 stamp) < cfg.gcInterval)

/-- `TreeStore::maybeGc` up to the expiry; whether anything expired. -/
def expireAll (cfg : Config) : TreeM Bool := do
  flushTouches
  let now ← nowNs
  let stamp ← Cas.metaGet lastGcKey
  if gcRecent cfg now stamp then pure false
  else
    Cas.metaPut lastGcKey (be64 now)
    let trees ← expireRoots cfg treePrefix now
    let blobs ← expireRoots cfg blobPrefix now
    pure (decide (trees + blobs ≠ 0))

/-- `TreeStore::maybeGc`. -/
def maybeGc (cfg : Config) (fuel : Nat) : TreeM Unit := do
  let due ← expireAll cfg
  if due then collect fuel else pure ()

/-- `ingest_archive` up to its last call, the threads replaced by what they come to
(`queue_faithful`). -/
def ingestTree (arc : Archive) : TreeM (Bytes × Nat) := do
  let (root, files) ← applyItems (.empty, 0) arc.items.1
  match arc.items.2 with
  | some e => Eff.throw e
  | none =>
    let id ← flushTree root
    registerRoot id true
    sync
    pure (id, files)

/-- `ingest_archive`: the root, and the number of files. -/
def ingestArchive (cfg : Config) (fuel : Nat) (arc : Archive) : TreeM (Bytes × Nat) := do
  let res ← ingestTree arc
  maybeGc cfg fuel
  pure res

/-! ## The eval store -/

/-- `MemorySourceAccessor::File`; the entries of a directory are in increasing order of the names. -/
inductive FsNode where
  | regular (executable : Bool) (contents : Bytes)
  | symlink (target : Bytes)
  | directory (entries : List (Bytes × FsNode))

mutual

/-- `ingest` of `plugin/store.cc`. -/
def ingest : FsNode → TreeM (EntryType × Bytes)
  | .regular executable contents => do
    let id ← putBlob contents
    pure (.leaf (if executable then .x else .r), id)
  | .symlink target => do
    let id ← putBlob target
    pure (.leaf .s, id)
  | .directory entries => do
    let entries ← ingestAll entries
    let id ← putTree entries
    pure (.d, id)

/-- The loop of `ingest` over a directory. -/
def ingestAll : List (Bytes × FsNode) → TreeM (List TreeEntry)
  | [] => pure []
  | (name, sub) :: rest => do
    let (type, id) ← ingest sub
    let entries ← ingestAll rest
    pure (⟨name, type, id⟩ :: entries)

end

/-- `PathRecord`. -/
structure PathRecord where
  rootType : EntryType
  rootId : Bytes
  narHash : Bytes
  narSize : Nat
  ca : Bytes
  refs : List Bytes
  deriving DecidableEq, Repr

/-- The JSON form of a record: `PathRecord::encode` and `PathRecord::decode`. -/
structure Json where
  encode : PathRecord → Except Err Bytes
  decode : Bytes → Except Err PathRecord

/-- What is encoded is decoded again. -/
def Json.Lawful (json : Json) : Prop :=
  ∀ rec val, json.encode rec = .ok val → json.decode val = .ok rec

/-- `TarmacStore::pathRecord`. -/
def pathRecord (cfg : Config) (json : Json) (path : Bytes) : TreeM (Option PathRecord) := do
  match ← Cas.metaGet (kPathPrefix ++ path) with
  | none => pure none
  | some raw =>
    let rec_ ← Eff.ofExcept (json.decode raw)
    let present ← Cas.has rec_.rootId
    if !present then
      Cas.metaDel (kPathPrefix ++ path)
      pure none
    else
      touchRoot cfg rec_.rootId (decide (rec_.rootType = .d))
      pure (some rec_)

/-- `TarmacStore::drvText`. -/
def drvText (cfg : Config) (path : Bytes) : TreeM (Option Bytes) := do
  match ← Cas.metaGet (kDrvPrefix ++ path) with
  | none => pure none
  | some id =>
    match ← Cas.get id with
    | none =>
      Cas.metaDel (kDrvPrefix ++ path)
      pure none
    | some contents =>
      touchRoot cfg id false
      pure (some contents)

/-- `nix::StorePath`, which is not part of the repository: the base names it accepts, and those of
derivations. -/
structure PathNames where
  valid : Bytes → Bool
  isDerivation : Bytes → Bool

/-- `ValidPathInfo`, as far as a record keeps it. -/
structure PathInfo where
  path : Bytes
  narHash : Bytes
  narSize : Nat
  ca : Bytes
  refs : List Bytes

/-- `TarmacStore::storeObject`. -/
def storeObject (json : Json) (info : PathInfo) (file : FsNode) : TreeM Unit := do
  let (type, id) ← ingest file
  registerRoot id (decide (type = .d))
  let val ← Eff.ofExcept
    (json.encode ⟨type, id, info.narHash, info.narSize, info.ca, info.refs⟩)
  Cas.metaPut (kPathPrefix ++ info.path) val
  sync

/-- The part of `TarmacStore::writeDerivation` under its lock. -/
def storeDerivation (path contents : Bytes) : TreeM Unit := do
  let id ← putBlob contents
  registerRoot id false
  Cas.metaPut (kDrvPrefix ++ path) id
  sync

/-- `TarmacStore::writeDerivation`, of a derivation with this path and text. -/
def writeDerivation (cfg : Config) (path contents : Bytes) : TreeM Unit := do
  match ← drvText cfg path with
  | some _ => pure ()
  | none => storeDerivation path contents

/-- `TarmacStore::addToStore` and `addToStoreFromDump`, of a path that is no derivation. -/
def addObject (cfg : Config) (json : Json) (info : PathInfo) (file : FsNode) : TreeM Unit := do
  match ← pathRecord cfg json info.path with
  | some _ => pure ()
  | none => storeObject json info file

end Tarmac.Tree
