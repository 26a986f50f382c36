import Tarmac.Lib.PathTree
import Tarmac.Tree.Served

/-!
# What ingesting an archive means

`ingest_archive` against a reference that knows nothing of nodes and objects: a finite map from paths
to nodes (`RefTree`), to which the items of the archive are added one after the other. The tree in
memory mirrors the map after every item, and fails where the map admits no such node
(`unpack_follows`). What is stored is found again by every walk over the stored tree
(`ingest_reference`).
-/

namespace Tarmac.Tree

open PackCas

/-! ## The reference -/

/-- The tree of an archive: its leaves have a type and contents. -/
abbrev RefTree : Type := PathTree Bytes (LeafType × Bytes)

/-- Adds a copy of the leaf a path leads to. -/
def RefTree.link (t : RefTree) (comps target : List Bytes) : Option RefTree :=
  match t.find? target with
  | some (.leaf file) => t.add comps (.leaf file)
  | _ => none

/-- What an item adds. -/
def RefTree.item (t : RefTree) (item : TarItem) : Option RefTree := do
  let comps ← splitPath item.path
  match item.type with
  | .h => do
    let target ← splitPath item.data
    t.link comps target
  | .d => t.add comps .dir
  | .leaf type => t.add comps (.leaf (type, item.data))

/-- What the items of an archive add. -/
def RefTree.items (t : RefTree) (items : List TarItem) : Option RefTree := items.foldlM RefTree.item t

/-- The tree of an archive, if it can be read to its end and every item can be added. -/
def Archive.reference (arc : Archive) : Option RefTree :=
  match arc.items.2 with
  | some _ => none
  | none => RefTree.items PathTree.empty arc.items.1

/-! ## The tree in memory -/

/-- What a node is, apart from what is below it. -/
def MemNode.kind {ι : Type} : MemNode ι → PathNode (LeafType × ι)
  | .leaf type id => .leaf (type, id)
  | .dir _ => .dir

/-- A node with nothing below it. -/
def bareNode {ι : Type} : PathNode (LeafType × ι) → MemNode ι
  | .leaf file => .leaf file.1 file.2
  | .dir => .empty

/-- What a path below a node leads to. -/
def MemNode.view {ι : Type} (node : MemNode ι) (q : List Bytes) : Option (PathNode (LeafType × ι)) :=
  (lookupNode node q).map MemNode.kind

section

variable {ι : Type} {children : List (Bytes × MemNode ι)} {comp comp' : Bytes} {comps q : List Bytes}
  {cur node new : MemNode ι} {k : PathNode (LeafType × ι)} {path : Bytes} {isRoot : Bool}

/-- A bare node has its kind. -/
@[simp] theorem kind_bareNode : (bareNode k).kind = k := by
  cases k <;> rfl

/-- The empty path leads to the node itself. -/
theorem view_nil : cur.view [] = some cur.kind := by
  cases cur <;> rfl

/-- Nothing is below a leaf. -/
theorem view_leaf {type : LeafType} {id : ι} : (MemNode.leaf type id).view (comp :: q) = none := rfl

/-- What is below a directory is below one of its children. -/
theorem view_dir : (MemNode.dir children).view (comp :: q) =
    (child comp children).bind fun sub => sub.view q := by
  unfold MemNode.view
  rw [lookupNode]
  cases child comp children <;> rfl

/-- Nothing is below a bare node. -/
theorem view_bareNode : (bareNode k).view (comp :: q) = none := by
  cases k <;> rfl

/-- The children after an insertion. -/
theorem child_insertList {sub : MemNode ι} :
    child comp' (SortedMap.insertList comp sub children) =
      if comp' = comp then some sub else child comp' children := by
  induction children with
  | nil => by_cases h : comp' = comp <;> simp [child, SortedMap.insertList, h, eq_comm]
  | cons c children ih =>
    rw [SortedMap.insertList]
    split
    · by_cases h : comp' = comp
      · simp [child, h]
      · simp [child, h, Ne.symm h]
    · split
      · next heq => by_cases h : comp' = comp <;> simp [child, h, ← heq, eq_comm]
      · next hne =>
        by_cases hc : c.1 = comp'
        · have h : comp' ≠ comp := fun h => hne (h.symm.trans hc.symm)
          simp [child, hc, h]
        · simpa [child, List.find?_cons, hc] using ih

/-- A directory has nothing below it just when it has no children. -/
theorem view_eq_none_iff : (∀ q, q ≠ [] → (MemNode.dir children).view q = none) ↔ children = [] := by
  constructor
  · intro h
    cases children with
    | nil => rfl
    | cons c children =>
      have hview := h [c.1] (List.cons_ne_nil _ _)
      rw [view_dir] at hview
      simp [child, view_nil] at hview
  · rintro rfl q hq
    cases q with
    | nil => exact absurd rfl hq
    | cons comp q => rfl

/-- A leaf may be replaced. -/
theorem replaceNode_leaf {type : LeafType} {id : ι} :
    replaceNode path node isRoot (.leaf type id) = .ok node := by
  cases node <;> rfl

/-- A directory may be replaced by a directory, which keeps it, and otherwise if it is empty and not the
root. -/
theorem replaceNode_dir : replaceNode path (bareNode k) isRoot (.dir children) =
    if k.isDir then .ok (.dir children)
    else if !children.isEmpty || isRoot then .error (.runtime
      ("cannot create '" ++ text path ++ "', conflicting non-empty directory"))
    else .ok (bareNode k) := by
  cases k <;> rfl

/-- What is found after a bare node was put in place of another. -/
theorem view_replaceNode (h : replaceNode path (bareNode k) isRoot cur = .ok new) (q : List Bytes) :
    new.view q = if q = [] then some k else cur.view q := by
  cases q with
  | nil =>
    rw [if_pos rfl, view_nil]
    cases cur with
    | leaf =>
      rw [replaceNode_leaf] at h
      cases h
      rw [kind_bareNode]
    | dir children =>
      rw [replaceNode_dir] at h
      split at h
      · next hk =>
        cases h
        cases k with
        | dir => rfl
        | leaf => cases hk
      · split at h
        · cases h
        · cases h
          rw [kind_bareNode]
  | cons comp q =>
    rw [if_neg (List.cons_ne_nil _ _)]
    cases cur with
    | leaf =>
      rw [replaceNode_leaf] at h
      cases h
      rw [view_bareNode, view_leaf]
    | dir children =>
      rw [replaceNode_dir] at h
      split at h
      · cases h
        rfl
      · split at h
        · cases h
        · next hempty =>
          cases h
          obtain rfl : children = [] := by simp_all
          exact view_bareNode

/-- Below a node that is made where it is missing, what was found there before is found. -/
theorem view_made (hcomps : child comp children = none → comps ≠ []) (q : List Bytes) :
    (if q = comps then some k else if q ∈ above comps then some .dir
      else ((child comp children).getD .empty).view q) =
    if q = comps then some k else if q ∈ above comps then some .dir
      else (MemNode.dir children).view (comp :: q) := by
  rw [view_dir]
  cases hchild : child comp children with
  | some sub => rfl
  | none =>
    split
    · rfl
    · split
      · rfl
      · next hmem =>
        cases q with
        | cons => rfl
        | nil =>
          cases comps with
          | nil => exact absurd rfl (hcomps hchild)
          | cons => exact absurd nil_mem_above hmem

/-- What is found after a bare node was added. -/
theorem view_addNodeAt (h : addNodeAt path (bareNode k) isRoot cur comps = .ok new) (q : List Bytes) :
    new.view q = if q = comps then some k else if q ∈ above comps then some .dir else cur.view q := by
  induction comps generalizing cur isRoot new q with
  | nil =>
    rw [addNodeAt_nil] at h
    rw [view_replaceNode h, if_neg not_mem_above_nil]
  | cons comp comps ih =>
    cases cur with
    | leaf => cases h
    | dir children =>
      have hinsert {sub : MemNode ι} (hsub : ∀ q, sub.view q =
          if q = comps then some k else if q ∈ above comps then some .dir
          else (MemNode.dir children).view (comp :: q)) :
          (MemNode.dir (SortedMap.insertList comp sub children)).view q =
          if q = comp :: comps then some k else if q ∈ above (comp :: comps) then some .dir
          else (MemNode.dir children).view q := by
        cases q with
        | nil =>
          rw [if_neg (List.cons_ne_nil _ _).symm, if_pos nil_mem_above]
          rfl
        | cons comp' q =>
          rw [view_dir, child_insertList]
          by_cases hcomp : comp' = comp
          · subst hcomp
            simp only [List.cons.injEq, true_and, cons_mem_above, if_true, Option.bind_some]
            exact hsub q
          · simp only [List.cons.injEq, hcomp, false_and, if_false, cons_mem_above]
            rw [view_dir]
      rw [addNodeAt_cons] at h
      split at h
      · next hchild =>
        cases h
        refine hinsert fun q => ?_
        cases q with
        | nil => rw [view_nil, kind_bareNode, if_pos rfl]
        | cons comp' q =>
          rw [view_bareNode, if_neg (List.cons_ne_nil _ _), if_neg not_mem_above_nil, view_dir, hchild]
          rfl
      · next hnot =>
        obtain ⟨sub, hsub, hok⟩ := except_bind_ok.1 h
        cases hok
        refine hinsert fun q => ?_
        rw [ih hsub q]
        exact view_made (fun hchild hnil => hnot hchild hnil) q

/-- A bare node may be added to a tree in memory, as `PathTree.Admits` has it of a map. -/
def MemNode.Admits (cur : MemNode ι) (isRoot : Bool) (comps : List Bytes)
    (k : PathNode (LeafType × ι)) : Prop :=
  (∀ q ∈ above comps, (cur.view q).all PathNode.isDir) ∧
    (k.isDir ∨ ¬(cur.view comps).any PathNode.isDir ∨
      ((isRoot = true → comps ≠ []) ∧ ∀ q, comps ∈ above q → cur.view q = none))

/-- A node can be replaced exactly if the reference admits it. -/
theorem replaceNode_ok_iff : (∃ new, replaceNode path (bareNode k) isRoot cur = .ok new) ↔
    cur.Admits isRoot [] k := by
  have habove : (∀ q, ([] : List Bytes) ∈ above q → cur.view q = none) ↔
      ∀ q, q ≠ [] → cur.view q = none := by
    refine forall_congr' fun q => imp_congr ?_ Iff.rfl
    rw [mem_above]
    exact ⟨fun h heq => h.2 heq.symm, fun h => ⟨List.nil_prefix, h.symm⟩⟩
  unfold MemNode.Admits
  rw [habove, view_nil]
  cases cur with
  | leaf =>
    rw [replaceNode_leaf]
    exact iff_of_true ⟨_, rfl⟩ ⟨fun q hq => absurd hq not_mem_above_nil,
      .inr (.inl (by simp [MemNode.kind, PathNode.isDir]))⟩
  | dir children =>
    rw [replaceNode_dir, view_eq_none_iff]
    constructor
    · rintro ⟨new, hnew⟩
      refine ⟨fun q hq => absurd hq not_mem_above_nil, ?_⟩
      split at hnew
      · next hk => exact .inl hk
      · split at hnew
        · cases hnew
        · next hempty =>
          refine .inr (.inr ⟨fun hroot => ?_, ?_⟩)
          · simp [hroot] at hempty
          · simp_all
    · rintro ⟨-, hk | hdir | ⟨hroot, rfl⟩⟩
      · exact ⟨_, if_pos hk⟩
      · exact absurd rfl hdir
      · by_cases hk : k.isDir
        · exact ⟨_, if_pos hk⟩
        · refine ⟨_, (if_neg hk).trans (if_neg ?_)⟩
          cases isRoot with
          | true => exact absurd rfl (hroot rfl)
          | false => simp

/-- Whether a node may be added below a directory is up to the child on the way to it. -/
theorem admits_dir : (MemNode.dir children).Admits isRoot (comp :: comps) k ↔
    (child comp children = none ∧ comps = []) ∨
      ((child comp children).getD .empty).Admits false comps k := by
  have hview (q : List Bytes) : (MemNode.dir children).view (comp :: q) =
      (child comp children).bind fun sub => sub.view q := view_dir
  have habove : (∀ q ∈ above (comp :: comps), ((MemNode.dir children).view q).all PathNode.isDir) ↔
      ∀ q ∈ above comps, ((MemNode.dir children).view (comp :: q)).all PathNode.isDir := by
    constructor
    · exact fun h q hq => h _ (cons_mem_above.2 ⟨rfl, hq⟩)
    · intro h q hq
      cases q with
      | nil => rfl
      | cons comp' q =>
        obtain ⟨rfl, hq'⟩ := cons_mem_above.1 hq
        exact h q hq'
  have hbelow : (∀ q, comp :: comps ∈ above q → (MemNode.dir children).view q = none) ↔
      ∀ q, comps ∈ above q → (MemNode.dir children).view (comp :: q) = none := by
    constructor
    · exact fun h q hq => h _ (cons_mem_above.2 ⟨rfl, hq⟩)
    · intro h q hq
      cases q with
      | nil => exact absurd hq not_mem_above_nil
      | cons comp' q =>
        obtain ⟨rfl, hq'⟩ := cons_mem_above.1 hq
        exact h q hq'
  unfold MemNode.Admits
  rw [habove, hbelow]
  cases hchild : child comp children with
  | some sub =>
    simp only [hview, hchild, Option.bind_some, Option.getD_some]
    simp
  | none =>
    simp only [hview, hchild, Option.bind_none, Option.getD_none]
    cases comps with
    | nil => simp
    | cons comp' comps =>
      have hempty (comp : Bytes) (q : List Bytes) : (MemNode.empty : MemNode ι).view (comp :: q) = none :=
        view_eq_none_iff.2 rfl _ (List.cons_ne_nil comp q)
      refine iff_of_true ⟨fun _ _ => rfl, .inr (.inl (by simp))⟩
        (.inr ⟨fun q _ => ?_, .inr (.inl ?_)⟩)
      · cases q with
        | nil => rfl
        | cons comp q =>
          rw [hempty]
          rfl
      · rw [hempty]
        simp

/-- `add_node` adds a bare node exactly where it may be added. -/
theorem addNodeAt_ok_iff : (∃ new, addNodeAt path (bareNode k) isRoot cur comps = .ok new) ↔
    cur.Admits isRoot comps k := by
  induction comps generalizing cur isRoot with
  | nil =>
    rw [addNodeAt_nil]
    exact replaceNode_ok_iff
  | cons comp comps ih =>
    cases cur with
    | leaf =>
      refine iff_of_false ?_ fun h => ?_
      · rintro ⟨new, hnew⟩
        cases hnew
      · cases h.1 [] nil_mem_above
    | dir children =>
      rw [admits_dir, addNodeAt_cons, ← ih]
      split
      · next hchild => exact iff_of_true ⟨_, rfl⟩ (.inl ⟨hchild, rfl⟩)
      · next hnot =>
        rw [or_iff_right fun h => hnot h.1 h.2]
        constructor
        · rintro ⟨new, hnew⟩
          obtain ⟨sub, hsub, -⟩ := except_bind_ok.1 hnew
          exact ⟨sub, hsub⟩
        · rintro ⟨sub, hsub⟩
          exact ⟨_, by rw [hsub]; rfl⟩

end

/-! ## The simulation -/

/-- The tree in memory has the nodes of the reference. -/
def Mirrors (node : MemNode Bytes) (t : RefTree) : Prop := ∀ q, t.find? q = node.view q

/-- The tree in memory does as the reference does. -/
inductive Follows : Except Err (MemNode Bytes) → Option RefTree → Prop where
  | ok {node : MemNode Bytes} {t : RefTree} (h : Mirrors node t) : Follows (.ok node) (some t)
  | fails {e : Err} : Follows (.error e) none

section

variable {node : MemNode Bytes} {t t' : RefTree} {comps : List Bytes} {k : PathNode (LeafType × Bytes)}
  {path : Bytes} {item : TarItem} {items : List TarItem}

/-- The empty directory mirrors the empty tree. -/
theorem mirrors_empty : Mirrors .empty PathTree.empty := by
  intro q
  rw [PathTree.find?_empty]
  cases q with
  | nil => rfl
  | cons => rfl

/-- The tree of an archive admits what its reference does. -/
theorem Mirrors.admits_iff (h : Mirrors node t) : node.Admits true comps k ↔ t.Admits comps k := by
  unfold MemNode.Admits PathTree.Admits
  rw [PathTree.not_above_iff]
  simp only [h _]
  simp

/-- Adding a node. -/
theorem Mirrors.add (h : Mirrors node t) : Follows (addNode node comps path (bareNode k)) (t.add comps k) := by
  have hiff : (∃ new, addNodeAt path (bareNode k) true node comps = .ok new) ↔ t.Admits comps k :=
    addNodeAt_ok_iff.trans h.admits_iff
  unfold addNode
  by_cases hadmits : t.Admits comps k
  · obtain ⟨new, hnew⟩ := hiff.2 hadmits
    obtain ⟨t', ht'⟩ := hadmits.exists_add
    rw [hnew, ht']
    refine .ok fun q => ?_
    rw [PathTree.find?_add ht', view_addNodeAt hnew, h q]
    by_cases heq : q = comps
    · rw [if_pos heq, if_pos heq]
    · rw [if_neg heq, if_neg heq]
      by_cases hmem : q ∈ above comps
      · rw [if_pos hmem, if_pos hmem]
      · rw [if_neg hmem, if_neg hmem]
  · rw [PathTree.add_eq_none.2 hadmits]
    cases hnew : addNodeAt path (bareNode k) true node comps with
    | ok new => exact absurd (hiff.1 ⟨new, hnew⟩) hadmits
    | error e => exact .fails

/-- The leaf a hard link copies is the one the reference has there. -/
theorem Mirrors.link (h : Mirrors node t) : Follows
    (linkTarget node item >>= fun leaf => addNode node comps item.path leaf)
    ((splitPath item.data).bind fun target => t.link comps target) := by
  unfold linkTarget
  cases splitPath item.data with
  | none => exact .fails
  | some target =>
    simp only [Option.bind_some, RefTree.link, h target, MemNode.view]
    cases lookupNode node target with
    | none => exact .fails
    | some leaf =>
      cases leaf with
      | leaf type id => exact h.add (k := .leaf (type, id))
      | dir children => exact .fails

/-- Adding an item. -/
theorem Mirrors.place (h : Mirrors node t) : Follows (placeItem node item item.data) (t.item item) := by
  unfold RefTree.item
  cases hsplit : splitPath item.path with
  | none =>
    unfold placeItem itemComps
    rw [hsplit]
    exact .fails
  | some comps =>
    have hcomps : itemComps item = .ok comps := by
      unfold itemComps
      rw [hsplit]
    rw [placeItem_of_comps hcomps]
    cases htype : item.type with
    | h => exact h.link
    | d => exact h.add (k := .dir)
    | leaf type => exact h.add (k := .leaf (type, item.data))

/-- The tree in memory follows the reference through every list of items. -/
theorem unpack_follows (h : Mirrors node t) : Follows (unpack node items) (t.items items) := by
  induction items generalizing node t with
  | nil => exact .ok h
  | cons item items ih =>
    unfold unpack RefTree.items
    rw [List.foldlM_cons]
    have hitem : Follows (placeItem node item item.data) (t.item item) := h.place
    cases hitem' : placeItem node item item.data with
    | error e =>
      rw [hitem'] at hitem
      cases hitem' : t.item item with
      | none => exact .fails
      | some t' =>
        rw [hitem'] at hitem
        cases hitem
    | ok node' =>
      rw [hitem'] at hitem
      cases hitem' : t.item item with
      | none =>
        rw [hitem'] at hitem
        cases hitem
      | some t' =>
        rw [hitem'] at hitem
        cases hitem with
        | ok h' => exact ih h'

/-- The tree an archive unpacks to has the nodes of the reference. -/
theorem Unpacks.reference {arc : Archive} {file : FsNode} (h : Unpacks arc file) :
    ∃ node t, node.file = file ∧ arc.reference = some t ∧ Mirrors node t := by
  obtain ⟨hend, node, hu, rfl⟩ := h
  have hfollows : Follows (unpack .empty arc.items.1) (RefTree.items .empty arc.items.1) :=
    unpack_follows mirrors_empty
  rw [hu] at hfollows
  unfold Archive.reference
  rw [hend]
  generalize RefTree.items PathTree.empty arc.items.1 = y at hfollows ⊢
  cases hfollows with
  | ok ht => exact ⟨node, _, rfl, rfl, ht⟩

/-- An archive can be unpacked just when the reference has a tree for it. -/
theorem reference_iff {arc : Archive} :
    (∃ file, Unpacks arc file) ↔ ∃ t, arc.reference = some t := by
  constructor
  · rintro ⟨file, hu⟩
    obtain ⟨-, t, -, ht, -⟩ := hu.reference
    exact ⟨t, ht⟩
  · rintro ⟨t, ht⟩
    have hfollows : Follows (unpack .empty arc.items.1) (RefTree.items .empty arc.items.1) :=
    unpack_follows mirrors_empty
    unfold Archive.reference at ht
    split at ht
    · cases ht
    · next hend =>
      rw [ht] at hfollows
      generalize hu : unpack .empty arc.items.1 = x at hfollows
      cases hfollows with
      | ok => exact ⟨_, hend, _, hu, rfl⟩

end

end Tarmac.Tree
