import Tarmac.Tree.Files
import Tarmac.Tree.Gives
import Tarmac.Tree.SplitPath

/-!
# The writers

What `ingest` of the eval store and `ingest_archive` store of a file tree. `FsNode.object` is the
object of a file tree and `FsNode.ref` its name, by recursion over the tree. The eval store follows
the same recursion. `ingest_archive` folds the items into a tree in memory first, whose leaves are
ids already, and stores its directories level by level; the tree it comes to is the one the same fold
makes of the contents (`unpack`), which does not depend on the store.

Both programs are followed for what they return and what they put (`Gives`), whatever other
processes do meanwhile.
-/

namespace Tarmac.Tree

open PackCas

/-! ## Objects of file trees -/

mutual

/-- The object a file tree is stored as. -/
def FsNode.object (ext : Ext) : FsNode → Bytes
  | .regular _ contents => contents
  | .symlink target => target
  | .directory entries => encodeTree (fsEntries ext entries)

/-- The entries of a directory. -/
def fsEntries (ext : Ext) : List (Bytes × FsNode) → List TreeEntry
  | [] => []
  | (name, sub) :: rest => ⟨name, sub.type, ext.blake3 (sub.object ext)⟩ :: fsEntries ext rest

end

/-- The reference to a file tree. -/
def FsNode.ref (ext : Ext) (file : FsNode) : Ref := (file.type, ext.blake3 (file.object ext))

mutual

/-- The objects of a file tree and of all its subtrees. -/
def FsNode.objects (ext : Ext) : FsNode → List Bytes
  | .regular _ contents => [contents]
  | .symlink target => [target]
  | .directory entries => encodeTree (fsEntries ext entries) :: objectsAll ext entries

def objectsAll (ext : Ext) : List (Bytes × FsNode) → List Bytes
  | [] => []
  | (_, sub) :: rest => sub.objects ext ++ objectsAll ext rest

end

/-- The names in a file tree are not too long for an entry. -/
inductive FsNode.Named : FsNode → Prop where
  | regular {executable : Bool} {contents : Bytes} : Named (.regular executable contents)
  | symlink {target : Bytes} : Named (.symlink target)
  | directory {entries : List (Bytes × FsNode)} (hn : ∀ c ∈ entries, c.1.length ≤ kMaxNameLen)
      (hc : ∀ c ∈ entries, Named c.2) : Named (.directory entries)

section

variable {ext : Ext} {entries : List (Bytes × FsNode)}

/-- The entries, one for each file. -/
theorem fsEntries_eq : fsEntries ext entries =
    entries.map fun c => ⟨c.1, c.2.type, ext.blake3 (c.2.object ext)⟩ := by
  induction entries with
  | nil => rw [fsEntries, List.map_nil]
  | cons c entries ih => rw [fsEntries, List.map_cons, ih]

/-- An entry is that of a file. -/
theorem mem_fsEntries {e : TreeEntry} :
    e ∈ fsEntries ext entries ↔ ∃ c ∈ entries, e.name = c.1 ∧ e.ref = c.2.ref ext := by
  rw [fsEntries_eq, List.mem_map]
  constructor
  · rintro ⟨c, hc, rfl⟩
    exact ⟨c, hc, rfl, rfl⟩
  · rintro ⟨c, hc, hname, href⟩
    obtain ⟨name, type, id⟩ := e
    obtain ⟨htype, hid⟩ := Prod.mk.inj (show (type, id) = (c.2.type, ext.blake3 (c.2.object ext))
      from href)
    exact ⟨c, hc, by rw [← show name = c.1 from hname, htype, hid]⟩

/-- They have the names of the files. -/
theorem fsEntries_names : (fsEntries ext entries).map TreeEntry.name = entries.map Prod.fst := by
  rw [fsEntries_eq, List.map_map]
  rfl

/-- The entries of a directory with short names fit. -/
theorem fsEntries_fit (hext : ext.Lawful) (hn : ∀ c ∈ entries, c.1.length ≤ kMaxNameLen) :
    ∀ e ∈ fsEntries ext entries, e.fits = true := by
  intro e he
  obtain ⟨c, hc, hname, href⟩ := mem_fsEntries.1 he
  have hid : e.id = ext.blake3 (c.2.object ext) := congrArg Prod.snd href
  refine TreeEntry.fits_iff.2 ⟨hname ▸ hn c hc, ?_⟩
  rw [hid, hext.length_blake3]
  decide

/-- The object of a directory is read back. -/
theorem decode_object (hext : ext.Lawful) (hs : entries.Pairwise fun a b => a.1 < b.1)
    (hn : ∀ c ∈ entries, c.1.length ≤ kMaxNameLen) :
    decodeTree (encodeTree (fsEntries ext entries)) = .ok (fsEntries ext entries) := by
  refine decodeTree_encodeTree (sorted_of_pairwise nofun ?_) (fsEntries_fit hext hn)
  rw [← List.pairwise_map (R := fun a b => a < b), fsEntries_names, List.pairwise_map]
  exact hs

/-- The objects of the entries are those of the files. -/
theorem mem_objectsAll {d : Bytes} :
    d ∈ objectsAll ext entries ↔ ∃ c ∈ entries, d ∈ c.2.objects ext := by
  induction entries with
  | nil => simp [objectsAll]
  | cons c entries ih => simp [objectsAll, ih]

/-- The object of a file is one of its objects. -/
theorem FsNode.object_mem (file : FsNode) : file.object ext ∈ file.objects ext := by
  cases file <;> simp [FsNode.object, FsNode.objects]

/-- In an index of objects that do not collide, the reference to a file tree leads no deeper than
the tree is. -/
theorem FsNode.shallow_ref {S : Bytes → Prop} {M : BlobMap} (hext : ext.Lawful)
    (hS : NoCollision ext S) (hM : Indexed ext S M) {k n : Nat} {x y : Ref} (hy : Below M n x y)
    {file : FsNode} (hx : x = file.ref ext) (hk : FsNode.Within k file) (ho : file.Ordered)
    (hn : file.Named) (hobj : ∀ d ∈ file.objects ext, S d) : n ≤ k := by
  induction hy generalizing file k with
  | refl => exact Nat.zero_le k
  | @step n id buf es e y hbuf hes he _ ih =>
    cases file with
    | regular executable => cases executable <;> cases congrArg Prod.fst hx
    | symlink => cases congrArg Prod.fst hx
    | directory entries =>
      obtain ⟨hSbuf, hhash⟩ := hM _ _ hbuf
      have hid : id = ext.blake3 (encodeTree (fsEntries ext entries)) := by
        have := congrArg Prod.snd hx
        unfold FsNode.ref FsNode.object at this
        exact this
      obtain rfl := hS _ _ hSbuf (hobj _ (by rw [FsNode.objects]; exact .head _)) (hhash.trans hid)
      cases hk with
      | directory hpos hin =>
        cases ho with
        | directory hs hso =>
          cases hn with
          | directory hn hnc =>
            obtain rfl := Except.ok.inj ((decode_object hext hs hn).symm.trans hes)
            obtain ⟨c, hc, -, href⟩ := mem_fsEntries.1 he
            have hpos := hpos c hc
            have hle := ih href (hin c hc) (hso c hc) (hnc c hc) fun d hd => hobj d (by
              rw [FsNode.objects]
              exact .tail _ (mem_objectsAll.2 ⟨c, hc, hd⟩))
            omega

end

/-! ## Trees in memory -/

mutual

/-- Replaces what the leaves keep. -/
def MemNode.map {ι κ : Type} (f : ι → κ) : MemNode ι → MemNode κ
  | .leaf type id => .leaf type (f id)
  | .dir children => .dir (mapAll f children)

def mapAll {ι κ : Type} (f : ι → κ) : List (Bytes × MemNode ι) → List (Bytes × MemNode κ)
  | [] => []
  | (name, node) :: rest => (name, node.map f) :: mapAll f rest

end

mutual

/-- The file tree a tree of contents is. -/
def MemNode.file : MemNode Bytes → FsNode
  | .leaf type contents => leafFile type contents
  | .dir children => .directory (fileAll children)

def fileAll : List (Bytes × MemNode Bytes) → List (Bytes × FsNode)
  | [] => []
  | (name, node) :: rest => (name, node.file) :: fileAll rest

end

/-- The tree of contents the items of an archive come to. -/
def unpack : MemNode Bytes → List TarItem → Except Err (MemNode Bytes)
  | root, [] => .ok root
  | root, item :: items => do
    let root ← placeItem root item item.data
    unpack root items

/-- A tree as `ingest_archive` builds it: sorted, its names not too long, and not too deep. -/
inductive MemNode.Formed {ι : Type} : Nat → MemNode ι → Prop where
  | leaf {k : Nat} {type : LeafType} {id : ι} : Formed k (.leaf type id)
  | dir {k : Nat} {children : List (Bytes × MemNode ι)}
      (hs : children.Pairwise fun a b => a.1 < b.1)
      (hn : ∀ c ∈ children, c.1.length ≤ kMaxNameLen ∧ 0 < k)
      (hc : ∀ c ∈ children, Formed (k - 1) c.2) : Formed k (.dir children)

section

variable {ι κ : Type} {f : ι → κ} {children : List (Bytes × MemNode ι)}

/-- A map over the children. -/
theorem mapAll_eq : mapAll f children = children.map fun c => (c.1, c.2.map f) := by
  induction children with
  | nil => rw [mapAll, List.map_nil]
  | cons c children ih => rw [mapAll, List.map_cons, ih]

/-- The files of the children. -/
theorem fileAll_eq {children : List (Bytes × MemNode Bytes)} :
    fileAll children = children.map fun c => (c.1, c.2.file) := by
  induction children with
  | nil => rw [fileAll, List.map_nil]
  | cons c children ih => rw [fileAll, List.map_cons, ih]

/-- A child of the mapped children. -/
theorem child_mapAll {comp : Bytes} :
    child comp (mapAll f children) = (child comp children).map (MemNode.map f) := by
  rw [mapAll_eq]
  unfold child
  rw [List.find?_map, Option.map_map, Option.map_map]
  rfl

/-- An insertion into the mapped children. -/
theorem insertList_mapAll {comp : Bytes} {node : MemNode ι} :
    SortedMap.insertList comp (node.map f) (mapAll f children) =
      mapAll f (SortedMap.insertList comp node children) := by
  rw [mapAll_eq, mapAll_eq]
  induction children with
  | nil => rfl
  | cons c children ih =>
    rw [List.map_cons, SortedMap.insertList, SortedMap.insertList]
    dsimp only
    split
    · rfl
    · split
      · rfl
      · rw [ih, List.map_cons]

/-- A lookup in a mapped tree. -/
theorem lookupNode_map {node : MemNode ι} {comps : List Bytes} :
    lookupNode (node.map f) comps = (lookupNode node comps).map (MemNode.map f) := by
  induction comps generalizing node with
  | nil => cases node <;> rw [MemNode.map] <;> rfl
  | cons comp comps ih =>
    cases node with
    | leaf => rw [MemNode.map]; rfl
    | dir children =>
      rw [MemNode.map, lookupNode, lookupNode, child_mapAll]
      cases child comp children with
      | none => rfl
      | some sub => exact ih

/-- A replacement in it. -/
theorem replaceNode_map {path : Bytes} {node cur : MemNode ι} {isRoot : Bool} :
    replaceNode path (node.map f) isRoot (cur.map f) =
      (replaceNode path node isRoot cur).map (MemNode.map f) := by
  unfold replaceNode
  cases cur with
  | leaf => cases node <;> simp only [MemNode.map] <;> rfl
  | dir children =>
    cases node with
    | dir => simp only [MemNode.map]; rfl
    | leaf =>
      simp only [MemNode.map]
      have hempty : (mapAll f children).isEmpty = children.isEmpty := by
        rw [mapAll_eq]
        cases children <;> rfl
      rw [hempty]
      split <;> rfl

/-- A node is added at the end of its path. -/
theorem addNodeAt_nil {path : Bytes} {node cur : MemNode ι} {isRoot : Bool} :
    addNodeAt path node isRoot cur [] = replaceNode path node isRoot cur := by
  cases cur <;> rfl

/-- Before that it is added below the first component. -/
theorem addNodeAt_cons {path : Bytes} {node : MemNode ι} {isRoot : Bool} {comp : Bytes}
    {comps : List Bytes} :
    addNodeAt path node isRoot (.dir children) (comp :: comps) =
      match child comp children, comps with
      | none, [] => .ok (.dir (SortedMap.insertList comp node children))
      | found, comps => (do
        let sub ← addNodeAt path node false (found.getD .empty) comps
        .ok (.dir (SortedMap.insertList comp sub children))) := by
  cases h : child comp children with
  | none => cases comps <;> simp [addNodeAt, h]
  | some sub => cases comps <;> simp [addNodeAt, h]

/-- The empty directory has nothing to map. -/
theorem map_empty : (MemNode.empty : MemNode ι).map f = .empty := by
  rw [MemNode.empty, MemNode.empty, MemNode.map, mapAll]

/-- A node is added to a mapped tree. -/
theorem addNodeAt_map {path : Bytes} {node cur : MemNode ι} {isRoot : Bool} {comps : List Bytes} :
    addNodeAt path (node.map f) isRoot (cur.map f) comps =
      (addNodeAt path node isRoot cur comps).map (MemNode.map f) := by
  induction comps generalizing cur isRoot with
  | nil => rw [addNodeAt_nil, addNodeAt_nil, replaceNode_map]
  | cons comp comps ih =>
    cases cur with
    | leaf => rw [MemNode.map]; rfl
    | dir children =>
      rw [MemNode.map, addNodeAt_cons, addNodeAt_cons, child_mapAll]
      have hrest (found : MemNode ι) :
          (do
            let sub ← addNodeAt path (node.map f) false (found.map f) comps
            .ok (.dir (SortedMap.insertList comp sub (mapAll f children)))) =
          (do
            let sub ← addNodeAt path node false found comps
            .ok (.dir (SortedMap.insertList comp sub children)) :
              Except Err (MemNode ι)).map (MemNode.map f) := by
        rw [ih]
        cases addNodeAt path node false found comps with
        | error e => rfl
        | ok sub =>
          show Except.ok (MemNode.dir (SortedMap.insertList comp (sub.map f) (mapAll f children))) =
            Except.ok ((MemNode.dir (SortedMap.insertList comp sub children)).map f)
          rw [insertList_mapAll, MemNode.map]
      cases hc : child comp children with
      | none =>
        cases comps with
        | nil =>
          show Except.ok (MemNode.dir (SortedMap.insertList comp (node.map f) (mapAll f children))) =
            Except.ok ((MemNode.dir (SortedMap.insertList comp node children)).map f)
          rw [insertList_mapAll, MemNode.map]
        | cons comp' comps =>
          have h := hrest .empty
          rw [map_empty] at h
          exact h
      | some found => exact hrest found

/-- The target of a link in a mapped tree. -/
theorem linkTarget_map {root : MemNode ι} {item : TarItem} :
    linkTarget (root.map f) item = (linkTarget root item).map (MemNode.map f) := by
  unfold linkTarget
  dsimp only
  cases hpath : splitPath item.data with
  | none => rfl
  | some comps =>
    simp only [Option.bind_some, lookupNode_map]
    cases lookupNode root comps with
    | none => rfl
    | some node => cases node <;> simp only [Option.map_some, MemNode.map] <;> rfl

end

section

variable {ι : Type} {k : Nat} {children : List (Bytes × MemNode ι)} {comp path : Bytes}
  {root cur node new : MemNode ι} {isRoot : Bool} {comps : List Bytes}

/-- A child of a well-formed directory is well formed. -/
theorem MemNode.Formed.child {sub : MemNode ι} (h : Formed k (.dir children))
    (hc : Tree.child comp children = some sub) : Formed (k - 1) sub := by
  obtain ⟨c, hmem, rfl⟩ := child_mem hc
  cases h with
  | dir _ _ hall => exact hall c hmem

/-- A well-formed child may be inserted. -/
theorem MemNode.Formed.insert {sub : MemNode ι} (h : Formed k (.dir children))
    (hcomp : comp.length ≤ kMaxNameLen) (hk : 0 < k) (hsub : Formed (k - 1) sub) :
    Formed k (.dir (SortedMap.insertList comp sub children)) := by
  cases h with
  | dir hs hn hall =>
    refine .dir (SortedMap.pairwise_insertList hs) (fun c hc => ?_) fun c hc => ?_
    · rcases SortedMap.mem_insertList hc with rfl | hc
      · exact ⟨hcomp, hk⟩
      · exact hn c hc
    · rcases SortedMap.mem_insertList hc with rfl | hc
      · exact hsub
      · exact hall c hc

/-- The empty directory is well formed. -/
theorem MemNode.Formed.empty : Formed k (MemNode.empty : MemNode ι) := .dir .nil nofun nofun

theorem MemNode.Formed.replaceNode (h : Formed k cur) (hn : Formed k node)
    (hr : Tree.replaceNode path node isRoot cur = .ok new) : Formed k new := by
  unfold Tree.replaceNode at hr
  split at hr
  · cases hr
    exact h
  · split at hr
    · cases hr
    · cases hr
      exact hn
  · cases hr
    exact hn

/-- A node that may stand anywhere is added at a path that is not too long. -/
theorem MemNode.Formed.addNodeAt (h : Formed k cur) (hn : ∀ m, Formed m node)
    (hlen : comps.length ≤ k) (hnames : ∀ c ∈ comps, c.length ≤ kMaxNameLen)
    (ha : Tree.addNodeAt path node isRoot cur comps = .ok new) : Formed k new := by
  induction comps generalizing cur isRoot new k with
  | nil =>
    rw [addNodeAt_nil] at ha
    exact h.replaceNode (hn k) ha
  | cons comp comps ih =>
    have hcomp := hnames comp (.head _)
    have hrest := fun c hc => hnames c (.tail _ hc)
    rw [List.length_cons] at hlen
    cases cur with
    | leaf => cases ha
    | dir children =>
      rw [addNodeAt_cons] at ha
      split at ha
      · cases ha
        exact h.insert hcomp (by omega) (hn _)
      · obtain ⟨sub, hsub, hok⟩ := except_bind_ok.1 ha
        cases hok
        refine h.insert hcomp (by omega) (ih ?_ (by omega) hrest hsub)
        cases hc : Tree.child comp children with
        | none => exact .empty
        | some sub => exact h.child hc

theorem formed_linkTarget {item : TarItem} (hl : linkTarget root item = .ok node) (m : Nat) :
    MemNode.Formed m node := by
  unfold linkTarget at hl
  dsimp only at hl
  split at hl
  · cases hl
  · cases hl
  · next hno _ =>
    cases hl
    cases node with
    | leaf => exact .leaf
    | dir children => exact absurd rfl (hno children)

/-- Placing an item keeps the tree formed. -/
theorem formed_placeItem {item : TarItem} {id : ι} (h : MemNode.Formed kMaxTreeDepth root)
    (hp : placeItem root item id = .ok new) : MemNode.Formed kMaxTreeDepth new := by
  unfold placeItem at hp
  obtain ⟨comps, hcomps, hp⟩ := except_bind_ok.1 hp
  have hsplit : splitPath item.path = some comps := by
    unfold itemComps at hcomps
    split at hcomps
    · next hs =>
      cases hcomps
      exact hs
    · cases hcomps
  have hsplits := splitsInto_of_splitPath hsplit
  have hlen := hsplits.depth
  have hnames := hsplits.short
  split at hp
  · obtain ⟨node, hnode, hadd⟩ := except_bind_ok.1 hp
    exact h.addNodeAt (formed_linkTarget hnode) hlen hnames hadd
  · exact h.addNodeAt (fun _ => .empty) hlen hnames hp
  · exact h.addNodeAt (fun _ => .leaf) hlen hnames hp

end

/-- The tree the items come to is formed. -/
theorem formed_unpack {items : List TarItem} {root new : MemNode Bytes}
    (h : MemNode.Formed kMaxTreeDepth root) (hu : unpack root items = .ok new) :
    MemNode.Formed kMaxTreeDepth new := by
  induction items generalizing root with
  | nil =>
    cases hu
    exact h
  | cons item items ih =>
    unfold unpack at hu
    obtain ⟨root', hroot, hrest⟩ := except_bind_ok.1 hu
    exact ih (formed_placeItem h hroot) hrest

/-- The file tree of a formed tree. -/
theorem MemNode.Formed.file {k : Nat} {node : MemNode Bytes} (h : Formed k node) :
    FsNode.Within k node.file ∧ node.file.Ordered ∧ node.file.Named := by
  induction h with
  | @leaf k type id =>
    rw [MemNode.file]
    refine ⟨within_leafFile type id, ?_, ?_⟩ <;> cases type
    · exact .regular
    · exact .regular
    · exact .symlink
    · exact .regular
    · exact .regular
    · exact .symlink
  | @dir k children hs hn _ ih =>
    rw [MemNode.file, fileAll_eq]
    have hmem {P : Bytes × FsNode → Prop} (hP : ∀ c ∈ children, P (c.1, c.2.file)) :
        ∀ c ∈ children.map fun c => (c.1, c.2.file), P c := by
      intro c hc
      obtain ⟨c', hc', rfl⟩ := List.mem_map.1 hc
      exact hP c' hc'
    refine ⟨.directory (hmem fun c hc => (hn c hc).2) (hmem fun c hc => (ih c hc).1), ?_, ?_⟩
    · refine .directory ?_ (hmem fun c hc => (ih c hc).2.1)
      rw [List.pairwise_map]
      exact hs
    · exact .directory (hmem fun c hc => (hn c hc).1) (hmem fun c hc => (ih c hc).2.2)

/-! ## The eval store -/

section

variable {ext : Ext} {calm : Prop}

mutual

/-- The eval store returns the reference to the file tree, and puts its objects. -/
theorem gives_ingest (hext : ext.Lawful) (file : FsNode) (hn : calm → file.Named) :
    Gives ext calm (fun tr r => r = file.ref ext ∧ ∀ d ∈ file.objects ext, WasPut ext tr d)
      (ingest file) := by
  cases file with
  | regular executable contents =>
    unfold ingest
    refine Gives.bind gives_put ?_
    rintro tr id ⟨rfl, hput⟩
    refine .pure ⟨rfl, fun d hd => ?_⟩
    obtain rfl := List.mem_singleton.1 (by rwa [FsNode.objects] at hd)
    exact hput.left
  | symlink target =>
    unfold ingest
    refine Gives.bind gives_put ?_
    rintro tr id ⟨rfl, hput⟩
    refine .pure ⟨rfl, fun d hd => ?_⟩
    obtain rfl := List.mem_singleton.1 (by rwa [FsNode.objects] at hd)
    exact hput.left
  | directory entries =>
    unfold ingest
    have hnames : calm → (∀ c ∈ entries, c.1.length ≤ kMaxNameLen) ∧
        ∀ c ∈ entries, FsNode.Named c.2 := fun hcalm => by
      cases hn hcalm with
      | directory hn hc => exact ⟨hn, hc⟩
    refine Gives.bind (gives_ingestAll hext entries fun hcalm => (hnames hcalm).2) ?_
    rintro tr es ⟨rfl, hall⟩
    refine Gives.bind (gives_putTree fun hcalm => fsEntries_fit hext (hnames hcalm).1) ?_
    rintro tr' id ⟨rfl, hput⟩
    refine .pure ⟨by rw [FsNode.ref, FsNode.object, FsNode.type], fun d hd => ?_⟩
    rw [FsNode.objects] at hd
    rw [List.append_nil]
    rcases List.mem_cons.1 hd with rfl | hd
    · exact hput.right
    · exact (hall d hd).left

/-- `ingest` of the entries of a directory puts their objects. -/
theorem gives_ingestAll (hext : ext.Lawful) (entries : List (Bytes × FsNode))
    (hn : calm → ∀ c ∈ entries, FsNode.Named c.2) :
    Gives ext calm (fun tr es => es = fsEntries ext entries ∧
      ∀ d ∈ objectsAll ext entries, WasPut ext tr d) (ingestAll entries) := by
  cases entries with
  | nil =>
    unfold ingestAll
    exact .pure ⟨by rw [fsEntries], by rw [objectsAll]; exact nofun⟩
  | cons c entries =>
    obtain ⟨name, sub⟩ := c
    unfold ingestAll
    refine Gives.bind (gives_ingest hext sub fun hcalm => hn hcalm _ (.head _)) ?_
    rintro tr r ⟨rfl, hsub⟩
    refine Gives.bind (gives_ingestAll hext entries fun hcalm c hc => hn hcalm c (.tail _ hc)) ?_
    rintro tr' es ⟨rfl, hall⟩
    refine .pure ⟨by rw [fsEntries], fun d hd => ?_⟩
    rw [objectsAll, List.mem_append] at hd
    rw [List.append_nil]
    rcases hd with hd | hd
    · exact (hsub d hd).left
    · exact (hall d hd).right

end

end

/-! ## Unpacking -/

/-- The contents of the leaves of a tree. -/
inductive MemNode.Holds (d : Bytes) : MemNode Bytes → Prop where
  | leaf {type : LeafType} : Holds d (.leaf type d)
  | dir {children : List (Bytes × MemNode Bytes)} {c : Bytes × MemNode Bytes} (hc : c ∈ children)
      (hd : Holds d c.2) : Holds d (.dir children)

section

variable {ext : Ext} {calm : Prop} {d path : Bytes} {root cur node new : MemNode Bytes}
  {isRoot : Bool} {comps : List Bytes}

/-- What a node holds is held by the tree it was found in. -/
theorem MemNode.Holds.lookupNode (hl : Tree.lookupNode root comps = some node) (h : Holds d node) :
    Holds d root := by
  induction comps generalizing root with
  | nil =>
    unfold Tree.lookupNode at hl
    cases hl
    exact h
  | cons comp comps ih =>
    cases root with
    | leaf => cases hl
    | dir children =>
      unfold Tree.lookupNode at hl
      split at hl
      · next hc =>
        obtain ⟨c, hmem, rfl⟩ := child_mem hc
        exact .dir hmem (ih hl)
      · cases hl

/-- What a tree holds after a node was added, it or the node held before. -/
theorem MemNode.Holds.addNodeAt (ha : Tree.addNodeAt path node isRoot cur comps = .ok new)
    (h : Holds d new) : Holds d cur ∨ Holds d node := by
  induction comps generalizing cur isRoot new with
  | nil =>
    rw [addNodeAt_nil] at ha
    unfold replaceNode at ha
    split at ha
    · cases ha
      exact .inl h
    · split at ha
      · cases ha
      · cases ha
        exact .inr h
    · cases ha
      exact .inr h
  | cons comp comps ih =>
    cases cur with
    | leaf => cases ha
    | dir children =>
      rw [addNodeAt_cons] at ha
      split at ha
      · cases ha
        cases h with
        | dir hc hd =>
          rcases SortedMap.mem_insertList hc with rfl | hc
          · exact .inr hd
          · exact .inl (.dir hc hd)
      · obtain ⟨sub, hsub, hok⟩ := except_bind_ok.1 ha
        cases hok
        cases h with
        | dir hc hd =>
          rcases SortedMap.mem_insertList hc with rfl | hc
          · rcases ih hsub hd with hd | hd
            · refine .inl ?_
              cases hchild : Tree.child comp children with
              | none =>
                rw [hchild] at hd
                cases hd with
                | dir hc => cases hc
              | some sub' =>
                rw [hchild] at hd
                obtain ⟨c, hmem, rfl⟩ := child_mem hchild
                exact .dir hmem hd
            · exact .inr hd
          · exact .inl (.dir hc hd)

/-- So is what the target of a link holds. -/
theorem MemNode.Holds.linkTarget {item : TarItem} (hl : Tree.linkTarget root item = .ok node)
    (h : Holds d node) : Holds d root := by
  unfold Tree.linkTarget at hl
  dsimp only at hl
  split at hl
  · cases hl
  · cases hl
  · next hsome =>
    cases hl
    obtain ⟨comps, -, hlook⟩ := Option.bind_eq_some_iff.1 hsome
    exact h.lookupNode hlook

/-- An item with a path is placed at it. -/
theorem placeItem_of_comps {ι : Type} {root : MemNode ι} {item : TarItem} {id : ι}
    (hcomps : itemComps item = .ok comps) :
    placeItem root item id = match item.type with
      | .h => linkTarget root item >>= fun node => addNode root comps item.path node
      | .d => addNode root comps item.path .empty
      | .leaf type => addNode root comps item.path (.leaf type id) := by
  unfold placeItem
  rw [hcomps]
  rfl

/-- Adding a node to the tree of ids adds it to the tree of contents. -/
theorem gives_addNode (tr : List (Tarmac.Event sig)) {files : Nat}
    (hok : calm → ∃ root', addNode root comps path node = .ok root')
    (hnode : ∀ d, MemNode.Holds d node → MemNode.Holds d root ∨ WasPut ext tr d) :
    Gives ext calm (fun tr' st => ∃ root', addNode root comps path node = .ok root' ∧
      st.1 = root'.map ext.blake3 ∧
      ∀ d, MemNode.Holds d root' → MemNode.Holds d root ∨ WasPut ext (tr ++ tr') d)
      (Eff.ofExcept (addNode (root.map ext.blake3) comps path (node.map ext.blake3)) >>=
        fun root => pure (root, files)) := by
  unfold addNode at hok ⊢
  rw [addNodeAt_map]
  cases hnew : addNodeAt path node true root comps with
  | error e =>
    refine .throw fun hcalm => ?_
    obtain ⟨root', hroot⟩ := hok hcalm
    rw [hnew] at hroot
    cases hroot
  | ok root' =>
    refine .pure ⟨root', rfl, rfl, fun d hd => ?_⟩
    rcases hd.addNodeAt hnew with hd | hd
    · exact .inl hd
    · exact (hnode d hd).imp_right WasPut.left

/-- An item is placed in the tree of ids as in the tree of contents. -/
theorem gives_applyItem {files : Nat} {item : TarItem}
    (hok : calm → ∃ root', placeItem root item item.data = .ok root') :
    Gives ext calm (fun tr st => ∃ root', placeItem root item item.data = .ok root' ∧
      st.1 = root'.map ext.blake3 ∧
      ∀ d, MemNode.Holds d root' → MemNode.Holds d root ∨ WasPut ext tr d)
      (applyItem (root.map ext.blake3, files) item) := by
  unfold applyItem
  cases hcomps : itemComps item with
  | error e =>
    refine .throw fun hcalm => ?_
    obtain ⟨root', hroot⟩ := hok hcalm
    unfold placeItem at hroot
    rw [hcomps] at hroot
    cases hroot
  | ok comps =>
    rw [placeItem_of_comps hcomps] at hok ⊢
    simp only [Eff.ofExcept_ok, pure_bind]
    cases htype : item.type with
    | h =>
      rw [htype] at hok
      dsimp only at hok ⊢
      rw [linkTarget_map]
      cases hlink : linkTarget root item with
      | error e =>
        refine .throw fun hcalm => ?_
        obtain ⟨root', hroot⟩ := hok hcalm
        rw [hlink] at hroot
        cases hroot
      | ok node =>
        rw [hlink] at hok
        exact gives_addNode [] hok fun d hd => .inl (hd.linkTarget hlink)
    | d =>
      rw [htype] at hok
      dsimp only at hok ⊢
      rw [← map_empty (f := ext.blake3)]
      refine gives_addNode [] hok fun d hd => ?_
      cases hd with
      | dir hc => cases hc
    | leaf type =>
      rw [htype] at hok
      dsimp only at hok ⊢
      refine Gives.bind gives_put ?_
      rintro tr id ⟨rfl, hput⟩
      have hleaf : MemNode.leaf type (ext.blake3 item.data) =
          (MemNode.leaf type item.data).map ext.blake3 := by rw [MemNode.map]
      rw [hleaf]
      refine gives_addNode _ hok fun d hd => ?_
      cases hd with
      | leaf => exact .inr hput

/-- The loop over the items comes to the tree of contents of the items. -/
theorem gives_applyItems {files : Nat} {items : List TarItem}
    (hok : calm → ∃ root', unpack root items = .ok root') :
    Gives ext calm (fun tr st => ∃ root', unpack root items = .ok root' ∧
      st.1 = root'.map ext.blake3 ∧
      ∀ d, MemNode.Holds d root' → MemNode.Holds d root ∨ WasPut ext tr d)
      (applyItems (root.map ext.blake3, files) items) := by
  induction items generalizing root files with
  | nil => exact .pure ⟨root, rfl, rfl, fun d hd => .inl hd⟩
  | cons item items ih =>
    unfold applyItems
    have hstep : calm → ∃ root₁, placeItem root item item.data = .ok root₁ ∧
        ∃ root', unpack root₁ items = .ok root' := fun hcalm => by
      obtain ⟨root', hroot⟩ := hok hcalm
      unfold unpack at hroot
      obtain ⟨root₁, hroot₁, hrest⟩ := except_bind_ok.1 hroot
      exact ⟨root₁, hroot₁, root', hrest⟩
    refine Gives.bind (gives_applyItem fun hcalm => ?_) ?_
    · obtain ⟨root₁, hroot₁, -⟩ := hstep hcalm
      exact ⟨root₁, hroot₁⟩
    · rintro tr ⟨st, n⟩ ⟨root₁, hroot₁, hst, hput⟩
      obtain rfl : st = root₁.map ext.blake3 := hst
      refine (ih fun hcalm => ?_).mono ?_
      · obtain ⟨root₁', hroot₁', hrest⟩ := hstep hcalm
        obtain rfl := Except.ok.inj (hroot₁.symm.trans hroot₁')
        exact hrest
      · rintro tr' st' ⟨root', hroot', hst', hput'⟩
        refine ⟨root', ?_, hst', fun d hd => ?_⟩
        · unfold unpack
          rw [hroot₁]
          exact hroot'
        · rcases hput' d hd with hd | hd
          · exact (hput d hd).imp_right WasPut.left
          · exact .inr hd.right

/-! ## Storing the directories -/

/-- The object of a directory of contents. -/
def dirObject (ext : Ext) (children : List (Bytes × MemNode Bytes)) : Bytes :=
  encodeTree (fsEntries ext (fileAll children))

section

variable {ι : Type} {children : List (Bytes × MemNode Bytes)} {k n : Nat}
  {level : List (List (Bytes × MemNode Bytes))}

/-- The subdirectories of mapped children. -/
theorem subDirs_mapAll {f : Bytes → Bytes} :
    subDirs (mapAll f children) = (subDirs children).map (mapAll f) := by
  unfold subDirs
  induction children with
  | nil => rw [mapAll]; rfl
  | cons c children ih =>
    obtain ⟨name, node⟩ := c
    rw [mapAll]
    cases node with
    | leaf =>
      rw [MemNode.map]
      exact ih
    | dir sub =>
      rw [MemNode.map, List.filterMap_cons, List.filterMap_cons, List.map_cons, ih]

/-- Those of a whole level. -/
theorem flatMap_subDirs_mapAll {f : Bytes → Bytes} :
    (level.map (mapAll f)).flatMap subDirs = (level.flatMap subDirs).map (mapAll f) := by
  induction level with
  | nil => rfl
  | cons dir level ih =>
    rw [List.map_cons, List.flatMap_cons, List.flatMap_cons, List.map_append, ih, subDirs_mapAll]

/-- A leaf has its type, and its contents for an object. -/
theorem type_file_leaf {type : LeafType} {d : Bytes} :
    (leafFile type d).type = .leaf type ∧ (leafFile type d).object ext = d := by
  cases type <;> exact ⟨rfl, rfl⟩

/-- With the ids of its subdirectories, the entries of a directory of ids are those of its files. -/
theorem dirEntries_mapAll :
    dirEntries (mapAll ext.blake3 children)
      ((subDirs children).map fun sub => ext.blake3 (dirObject ext sub)) =
      fsEntries ext (fileAll children) := by
  unfold subDirs
  induction children with
  | nil => rw [mapAll, fileAll, fsEntries]; rfl
  | cons c children ih =>
    obtain ⟨name, node⟩ := c
    rw [mapAll, fileAll, fsEntries]
    cases node with
    | leaf type d =>
      have hleaf : (leafFile type d).type = .leaf type ∧ (leafFile type d).object ext = d :=
        type_file_leaf
      obtain ⟨htype, hobj⟩ := hleaf
      rw [MemNode.map, MemNode.file, htype, hobj, dirEntries]
      exact congrArg _ ih
    | dir sub =>
      rw [MemNode.map, MemNode.file, List.filterMap_cons]
      dsimp only
      rw [List.map_cons, dirEntries, List.headD_cons, List.tail_cons, ih]
      rfl

/-- The names of a well-formed directory fit. -/
theorem MemNode.Formed.dir_file (h : Formed k (.dir children)) :
    (∀ c ∈ fileAll children, c.1.length ≤ kMaxNameLen) := by
  obtain ⟨-, -, hnamed⟩ := h.file
  rw [MemNode.file] at hnamed
  cases hnamed with
  | directory hn _ => exact hn

/-- A level is stored under the ids of its file trees. -/
theorem gives_flushLevel (hext : ext.Lawful) (hlevel : ∀ dir ∈ level, MemNode.Formed k (.dir dir)) :
    Gives ext calm (fun tr ids => ids = level.map (fun dir => ext.blake3 (dirObject ext dir)) ∧
      ∀ dir ∈ level, WasPut ext tr (dirObject ext dir))
      (flushLevel (level.map (mapAll ext.blake3))
        ((level.flatMap subDirs).map fun sub => ext.blake3 (dirObject ext sub))) := by
  induction level with
  | nil => exact .pure ⟨rfl, nofun⟩
  | cons dir level ih =>
    rw [List.map_cons, List.map_cons, flushLevel, subDirs_mapAll, List.length_map,
      List.flatMap_cons, List.map_append, List.drop_left' (by simp), List.take_left' (by simp)]
    refine Gives.bind (ih fun dir hd => hlevel dir (.tail _ hd)) ?_
    rintro tr rest ⟨rfl, hrest⟩
    rw [dirEntries_mapAll]
    refine Gives.bind (gives_putTree fun _ => fsEntries_fit hext (hlevel dir (.head _)).dir_file) ?_
    rintro tr' id ⟨rfl, hput⟩
    refine .pure ⟨rfl, fun dir' hd => ?_⟩
    rw [List.append_nil]
    rcases List.mem_cons.1 hd with rfl | hd
    · exact hput.right
    · exact (hrest dir' hd).left

/-- The directories of a tree, itself included. -/
inductive Inside : List (Bytes × MemNode Bytes) → List (Bytes × MemNode Bytes) → Prop where
  | refl {dir : List (Bytes × MemNode Bytes)} : Inside dir dir
  | sub {dir sub dir' : List (Bytes × MemNode Bytes)} (hsub : sub ∈ subDirs dir)
      (h : Inside sub dir') : Inside dir dir'

/-- A subdirectory is well formed. -/
theorem MemNode.Formed.sub {sub : List (Bytes × MemNode Bytes)} (h : Formed k (.dir children))
    (hsub : sub ∈ subDirs children) : Formed (k - 1) (.dir sub) ∧ 0 < k := by
  obtain ⟨c, hc, heq⟩ := mem_subDirs hsub
  cases h with
  | dir _ hn hall => exact ⟨heq ▸ hall c hc, (hn c hc).2⟩

/-- All levels from a given one on are stored, if their number is not greater than `n`. -/
theorem gives_flushLevels (hext : ext.Lawful) (hlevel : ∀ dir ∈ level, MemNode.Formed k (.dir dir))
    (hn : ∀ dir ∈ level, heightAll dir + 1 ≤ n) :
    Gives ext calm (fun tr ids => ids = level.map (fun dir => ext.blake3 (dirObject ext dir)) ∧
      ∀ dir ∈ level, ∀ dir', Inside dir dir' → WasPut ext tr (dirObject ext dir'))
      (flushLevels n (level.map (mapAll ext.blake3))) := by
  induction n generalizing level k with
  | zero =>
    have hnil : level = [] := List.eq_nil_iff_forall_not_mem.2 fun dir hd => by
      have := hn dir hd
      omega
    subst hnil
    exact .pure ⟨rfl, nofun⟩
  | succ n ih =>
    unfold flushLevels
    split
    · next hempty =>
      rw [List.isEmpty_iff, List.map_eq_nil_iff] at hempty
      subst hempty
      exact .pure ⟨rfl, nofun⟩
    · rw [flatMap_subDirs_mapAll]
      refine Gives.bind (ih (k := k - 1) ?_ ?_) ?_
      · intro sub hsub
        obtain ⟨dir, hdir, hmem⟩ := List.mem_flatMap.1 hsub
        exact ((hlevel dir hdir).sub hmem).1
      · intro sub hsub
        obtain ⟨dir, hdir, hmem⟩ := List.mem_flatMap.1 hsub
        obtain ⟨c, hc, heq⟩ := mem_subDirs hmem
        have hheight := heightAll_of_mem hc
        have hle := hn dir hdir
        rw [heq, MemNode.height] at hheight
        omega
      · rintro tr ids ⟨rfl, hbelow⟩
        refine (gives_flushLevel hext hlevel).mono ?_
        rintro tr' ids' ⟨rfl, hputs⟩
        refine ⟨rfl, fun dir hd dir' hin => ?_⟩
        cases hin with
        | refl => exact (hputs dir hd).right
        | sub hsub hin =>
          exact (hbelow _ (List.mem_flatMap.2 ⟨dir, hd, hsub⟩) dir' hin).left

mutual

/-- The height of a tree does not depend on what its leaves keep. -/
theorem height_map {f : Bytes → Bytes} (node : MemNode Bytes) :
    (node.map f).height = node.height := by
  cases node with
  | leaf =>
    rw [MemNode.map]
    rfl
  | dir children =>
    rw [MemNode.map, MemNode.height, MemNode.height, heightAll_mapAll children]

/-- A map keeps the height. -/
theorem heightAll_mapAll {f : Bytes → Bytes} (children : List (Bytes × MemNode Bytes)) :
    heightAll (mapAll f children) = heightAll children := by
  cases children with
  | nil => rw [mapAll]
  | cons c children =>
    obtain ⟨name, node⟩ := c
    rw [mapAll, heightAll, heightAll, height_map node, heightAll_mapAll children]

end

/-- `flush_tree` puts the objects of all directories, and returns the root. -/
theorem gives_flushTree (hext : ext.Lawful) (hf : MemNode.Formed k (.dir children)) :
    Gives ext calm (fun tr id => id = ext.blake3 (dirObject ext children) ∧
      ∀ dir, Inside children dir → WasPut ext tr (dirObject ext dir))
      (flushTree ((MemNode.dir children).map ext.blake3)) := by
  have hheight := height_map (f := ext.blake3) (.dir children)
  rw [MemNode.map] at hheight ⊢
  unfold flushTree
  dsimp only
  rw [hheight]
  have hlevel : ∀ dir ∈ [children], MemNode.Formed k (.dir dir) := by
    intro dir hd
    obtain rfl := List.mem_singleton.1 hd
    exact hf
  have hn : ∀ dir ∈ [children], heightAll dir + 1 ≤ (MemNode.dir children).height := by
    intro dir hd
    obtain rfl := List.mem_singleton.1 hd
    rw [MemNode.height]
  refine Gives.bind (gives_flushLevels hext hlevel hn) ?_
  rintro tr ids ⟨rfl, hput⟩
  refine .pure ⟨rfl, fun dir hin => ?_⟩
  exact (hput children (.head _) dir hin).left

end

end

end Tarmac.Tree
