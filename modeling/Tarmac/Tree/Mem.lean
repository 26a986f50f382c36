import Tarmac.Tree.Archive

/-!
# The tree an archive unpacks to

`MemNode` of `src/tree.cpp`, the tree `ingest_archive` builds in memory before it is stored, with the
functions that find and add its nodes. The source keeps the blob id of a leaf; here a leaf keeps a
`ι`, so that the same text also unpacks an archive to a tree of contents.
-/

namespace Tarmac.Tree

open PackCas

/-- `MemNode`. The children of a directory are bound to their names in increasing order. -/
inductive MemNode (ι : Type) where
  | leaf (type : LeafType) (id : ι)
  | dir (children : List (Bytes × MemNode ι))

variable {ι : Type}

/-- A directory as it is created. -/
def MemNode.empty : MemNode ι := .dir []

/-- `children.find`. -/
def child {α : Type} (comp : Bytes) (children : List (Bytes × α)) : Option α :=
  (children.find? fun c => decide (c.1 = comp)).map Prod.snd

/-- The part of a path before the first slash, and the part behind it. -/
def nextComp (path : Bytes) : Bytes × Bytes :=
  let comp := path.takeWhile fun b => decide (b ≠ 47)
  (comp, path.drop (comp.length + 1))

/-- The loop of `split_path`, with a bound on the number of its rounds: each consumes a byte. -/
def splitLoop : Nat → Bytes → List Bytes → Option (List Bytes)
  | 0, _, comps => some comps
  | n + 1, path, comps =>
    if path = [] then some comps
    else
      let (comp, path) := nextComp path
      if comp = [] ∨ comp = ascii ['.'] then splitLoop n path comps
      else if comp = ascii ['.', '.'] then splitLoop n path comps.dropLast
      else if kMaxNameLen < comp.length ∨ kMaxTreeDepth ≤ comps.length then none
      else splitLoop n path (comps ++ [comp])

/-- `split_path`. -/
def splitPath (path : Bytes) : Option (List Bytes) := splitLoop path.length path []

/-- `lookup_node`. -/
def lookupNode : MemNode ι → List Bytes → Option (MemNode ι)
  | cur, [] => some cur
  | .leaf .., _ :: _ => none
  | .dir children, comp :: comps =>
    match child comp children with
    | some sub => lookupNode sub comps
    | none => none

/-- The end of `add_node`: `node` replaces `cur`. -/
def replaceNode (path : Bytes) (node : MemNode ι) (isRoot : Bool) (cur : MemNode ι) :
    Except Err (MemNode ι) :=
  match cur, node with
  | .dir _, .dir _ => .ok cur
  | .dir children, .leaf .. =>
    if !children.isEmpty || isRoot then .error (.runtime
      ("cannot create '" ++ text path ++ "', conflicting non-empty directory"))
    else .ok node
  | .leaf .., _ => .ok node

/-- The loop of `add_node`, begun at `cur`. -/
def addNodeAt (path : Bytes) (node : MemNode ι) (isRoot : Bool) :
    MemNode ι → List Bytes → Except Err (MemNode ι)
  | cur, [] => replaceNode path node isRoot cur
  | .leaf .., _ :: _ => .error (.runtime ("parent of '" ++ text path ++ "' is not a directory"))
  | .dir children, comp :: comps =>
    match child comp children, comps with
    | none, [] => .ok (.dir (SortedMap.insertList comp node children))
    | found, comps => do
      let sub ← addNodeAt path node false (found.getD .empty) comps
      .ok (.dir (SortedMap.insertList comp sub children))

/-- `add_node`. -/
def addNode (root : MemNode ι) (comps : List Bytes) (path : Bytes) (node : MemNode ι) :
    Except Err (MemNode ι) :=
  addNodeAt path node true root comps

/-- `split_path`, or the error of an item whose path it rejects. -/
def itemComps (item : TarItem) : Except Err (List Bytes) :=
  match splitPath item.path with
  | some comps => .ok comps
  | none => .error (.runtime ("path '" ++ text item.path ++ "' too long"))

/-- The leaf a hard link copies. -/
def linkTarget (root : MemNode ι) (item : TarItem) : Except Err (MemNode ι) :=
  let msg := "hard link from '" ++ text item.path ++ "' to '" ++ text item.data
  match (splitPath item.data).bind (lookupNode root) with
  | none => .error (.runtime (msg ++ "': target does not exist"))
  | some (.dir _) => .error (.runtime (msg ++ "': target is a directory"))
  | some node => .ok node

/-- `apply_item`, where the blob of a leaf is stored as `id`. -/
def placeItem (root : MemNode ι) (item : TarItem) (id : ι) : Except Err (MemNode ι) := do
  let comps ← itemComps item
  match item.type with
  | .h => do
    let node ← linkTarget root item
    addNode root comps item.path node
  | .d => addNode root comps item.path .empty
  | .leaf type => addNode root comps item.path (.leaf type id)

end Tarmac.Tree
