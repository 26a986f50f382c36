import Tarmac.Tree.Whole

/-!
# Storing objects

The part of the programs that puts objects: unpacking the items of an archive, storing the
directories of the unpacked tree, storing a file of the eval store. What a put keeps and what it
makes good is a parameter (`Keeper`), so that the programs are followed once (`Stores`) for every
invariant: a keeper only has to know single puts, of blobs and of directories whose entries are
good.
-/

namespace Tarmac.Tree

open PackCas

/-- An invariant `I` that puts keep, a relation `G` by which they move the store, and the references
`Good` they make and rely on. -/
structure Keeper (ext : Ext) (ok : Call → Sys → Choice → Prop) (p : Nat) where
  I : Sys → Prop
  G : Sys → Sys → Prop
  Good : Sys → Ref → Prop
  refl : ∀ s, G s s
  trans : ∀ s₁ s₂ s₃, G s₁ s₂ → G s₂ s₃ → G s₁ s₃
  mono : ∀ s s' r, G s s' → Good s r → Good s' r
  blob : ∀ d s x s', (solo ext ok p I).Inv s → (∃ ch, ok (.put false d) s ch) →
    PutOutcome ext p false d s x s' → I s' ∧ G s s' ∧ ∀ id, x = .ok id → ∀ t, Good s' (.leaf t, id)
  tree : ∀ es s x s', (solo ext ok p I).Inv s → (∃ ch, ok (.put true (encodeTree es)) s ch) →
    decodeTree (encodeTree es) = .ok es → (∀ e ∈ es, Good s e.ref) →
    PutOutcome ext p true (encodeTree es) s x s' →
    I s' ∧ G s s' ∧ ∀ id, x = .ok id → Good s' (.d, id)

/-- The program only puts objects, moves the store by `G`, and `Q` holds of its result. -/
def Stores {ext : Ext} {ok : Call → Sys → Choice → Prop} {p : Nat} {α : Type}
    (K : Keeper ext ok p) (m : TreeM α) (Q : α → Sys → Prop) (σ : Pending) (s : Sys) : Prop :=
  Eff.Safe (solo ext ok p K.I)
    (fun x σ' s' => σ' = σ ∧ K.G s s' ∧ ∀ a, x = .ok a → Q a s') m σ s

section

variable {ext : Ext} {ok : Call → Sys → Choice → Prop} {p : Nat} {K : Keeper ext ok p}
  {s s' s₁ : Sys} {σ σ' : Pending} {α β : Type}

theorem Stores.pure {a : α} {Q : α → Sys → Prop} (h : Q a s) :
    Stores K (Pure.pure a) Q σ s := by
  refine safe_pure ⟨rfl, K.refl s, ?_⟩
  intro a' ha
  cases ha
  exact h

theorem Stores.throw {e : Err} {Q : α → Sys → Prop} : Stores K (Eff.throw e) Q σ s :=
  safe_throw ⟨rfl, K.refl s, nofun⟩

theorem Stores.ofExcept {x : Except Err α} {Q : α → Sys → Prop} (h : ∀ a, x = .ok a → Q a s) :
    Stores K (Eff.ofExcept x) Q σ s :=
  safe_ofExcept ⟨rfl, K.refl s, h⟩

/-- Sequencing. -/
theorem Stores.bind {m : TreeM β} {f : β → TreeM α} {P : β → Sys → Prop} {Q : α → Sys → Prop}
    (hs : (solo ext ok p K.I).Inv s) (hm : Stores K m P σ s)
    (hf : ∀ b s', (solo ext ok p K.I).Inv s' → K.G s s' → P b s' → Stores K (f b) Q σ s') :
    Stores K (m >>= f) Q σ s := by
  refine safe_bind hs hm ?_ ?_
  · rintro b σ' s' hI ⟨rfl, hg, hP⟩
    refine (hf b s' hI hg (hP b rfl)).mono ?_
    rintro x σ'' s'' - ⟨rfl, hg', hQ⟩
    exact ⟨rfl, K.trans _ _ _ hg hg', hQ⟩
  · rintro e σ' s' - ⟨rfl, hg, -⟩
    exact ⟨rfl, hg, nofun⟩

/-- `putBlob` stores a file. -/
theorem stores_putBlob {d : Bytes} (hs : (solo ext ok p K.I).Inv s) :
    Stores K (putBlob d) (fun id s' => ∀ t, K.Good s' (.leaf t, id)) σ s := by
  refine safe_put fun x s' hok hx => ?_
  obtain ⟨hI, hg, hgood⟩ := K.blob d s x s' hs hok hx
  exact ⟨hI, rfl, hg, hgood⟩

/-! ## Unpacked trees -/

/-- The leaves are good references, and the children of directories are sorted. -/
inductive Held (G : Ref → Prop) : MemNode Bytes → Prop where
  | leaf {t : LeafType} {id : Bytes} (hg : G (.leaf t, id)) : Held G (.leaf t id)
  | dir {children : List (Bytes × MemNode Bytes)} (hs : children.Pairwise fun a b => a.1 < b.1)
      (hc : ∀ c ∈ children, Held G c.2) : Held G (.dir children)

/-- A weaker property of the leaves. -/
theorem Held.mono {G G' : Ref → Prop} {node : MemNode Bytes} (h : ∀ r, G r → G' r)
    (hn : Held G node) : Held G' node := by
  induction hn with
  | leaf hg => exact .leaf (h _ hg)
  | dir hs _ ih => exact .dir hs ih

/-- The empty directory has no leaves. -/
theorem Held.empty {G : Ref → Prop} : Held G .empty := .dir .nil nofun

/-- A child is one of the children. -/
theorem child_mem {γ : Type} {comp : Bytes} {children : List (Bytes × γ)} {sub : γ}
    (h : child comp children = some sub) : ∃ c ∈ children, c.2 = sub := by
  obtain ⟨c, hc, rfl⟩ := Option.map_eq_some_iff.1 h
  exact ⟨c, List.mem_of_find?_eq_some hc, rfl⟩

/-- A child of a held directory is held. -/
theorem Held.child {G : Ref → Prop} {children : List (Bytes × MemNode Bytes)} {comp : Bytes}
    {sub : MemNode Bytes} (h : Held G (.dir children)) (hc : Tree.child comp children = some sub) :
    Held G sub := by
  obtain ⟨c, hmem, rfl⟩ := child_mem hc
  cases h with
  | dir _ hall => exact hall c hmem

/-- A held child may be inserted. -/
theorem Held.insert {G : Ref → Prop} {children : List (Bytes × MemNode Bytes)} {comp : Bytes}
    {sub : MemNode Bytes} (h : Held G (.dir children)) (hsub : Held G sub) :
    Held G (.dir (SortedMap.insertList comp sub children)) := by
  cases h with
  | dir hs hall =>
    refine .dir (SortedMap.pairwise_insertList hs) ?_
    intro c hc
    rcases SortedMap.mem_insertList hc with rfl | hc
    · exact hsub
    · exact hall c hc

/-- What is found in a held tree is held. -/
theorem Held.lookupNode {G : Ref → Prop} {node sub : MemNode Bytes} {comps : List Bytes}
    (h : Held G node) (hl : Tree.lookupNode node comps = some sub) : Held G sub := by
  induction comps generalizing node with
  | nil =>
    unfold Tree.lookupNode at hl
    cases hl
    exact h
  | cons comp comps ih =>
    cases node with
    | leaf => cases hl
    | dir children =>
      unfold Tree.lookupNode at hl
      split at hl
      · next hc => exact ih (h.child hc) hl
      · cases hl

theorem Held.replaceNode {G : Ref → Prop} {path : Bytes} {isRoot : Bool}
    {cur node new : MemNode Bytes} (h : Held G cur) (hn : Held G node)
    (hr : Tree.replaceNode path node isRoot cur = .ok new) : Held G new := by
  unfold Tree.replaceNode at hr
  split at hr
  · cases hr
    exact h
  · split at hr
    · cases hr
    · cases hr
      exact hn
  · cases hr
    exact hn

/-- A held tree to which a held node is added is held. -/
theorem Held.addNodeAt {G : Ref → Prop} {path : Bytes} {isRoot : Bool} {cur node new : MemNode Bytes}
    {comps : List Bytes} (h : Held G cur) (hn : Held G node)
    (ha : Tree.addNodeAt path node isRoot cur comps = .ok new) : Held G new := by
  induction comps generalizing cur isRoot new with
  | nil =>
    cases cur <;> exact h.replaceNode hn ha
  | cons comp comps ih =>
    cases cur with
    | leaf => cases ha
    | dir children =>
      unfold Tree.addNodeAt at ha
      split at ha
      · cases ha
        exact h.insert hn
      · obtain ⟨sub, hsub, hok⟩ := except_bind_ok.1 ha
        cases hok
        refine h.insert (ih ?_ hsub)
        cases hc : Tree.child comp children with
        | none => exact .empty
        | some sub => exact h.child hc

/-- The root stays a directory. -/
theorem addNode_dir {ι : Type} {path : Bytes} {children : List (Bytes × MemNode ι)}
    {node new : MemNode ι} {comps : List Bytes} (h : addNode (.dir children) comps path node = .ok new) :
    ∃ children', new = .dir children' := by
  unfold addNode at h
  cases comps with
  | nil =>
    unfold addNodeAt replaceNode at h
    cases node with
    | dir => cases h; exact ⟨_, rfl⟩
    | leaf => simp at h
  | cons comp comps =>
    unfold addNodeAt at h
    split at h
    · cases h
      exact ⟨_, rfl⟩
    · obtain ⟨sub, hsub, hok⟩ := except_bind_ok.1 h
      cases hok
      exact ⟨_, rfl⟩

/-- A directory whose leaves are there. -/
def HeldDir (G : Ref → Prop) (root : MemNode Bytes) : Prop :=
  Held G root ∧ ∃ children, root = .dir children

/-- A weaker property of the leaves. -/
theorem HeldDir.mono {G G' : Ref → Prop} {root : MemNode Bytes} (h : ∀ r, G r → G' r)
    (hr : HeldDir G root) : HeldDir G' root := ⟨hr.1.mono h, hr.2⟩

/-- A held node may be added below the root. -/
theorem HeldDir.addNode {G : Ref → Prop} {root node new : MemNode Bytes} {comps : List Bytes}
    {path : Bytes} (h : HeldDir G root) (hn : Held G node)
    (ha : Tree.addNode root comps path node = .ok new) : HeldDir G new := by
  obtain ⟨hroot, children, rfl⟩ := h
  exact ⟨hroot.addNodeAt hn ha, addNode_dir ha⟩

/-- The target of a link is held. -/
theorem Held.linkTarget {G : Ref → Prop} {root node : MemNode Bytes} {item : TarItem}
    (h : Held G root) (hl : Tree.linkTarget root item = .ok node) : Held G node := by
  unfold Tree.linkTarget at hl
  dsimp only at hl
  split at hl
  · cases hl
  · cases hl
  · next hsome =>
    cases hl
    obtain ⟨comps, -, hlook⟩ := Option.bind_eq_some_iff.1 hsome
    exact h.lookupNode hlook

/-- The application of an item stores its data. -/
theorem stores_applyItem {st : MemNode Bytes × Nat} {item : TarItem}
    (hs : (solo ext ok p K.I).Inv s) (hst : HeldDir (K.Good s) st.1) :
    Stores K (applyItem st item) (fun st' s' => HeldDir (K.Good s') st'.1) σ s := by
  unfold applyItem
  refine Stores.bind (P := fun _ _ => True) hs (.ofExcept fun _ _ => trivial) ?_
  intro comps s₁ hs₁ hg₁ _
  have hst₁ := hst.mono fun r => K.mono _ _ r hg₁
  split
  · refine Stores.bind (P := fun node s' => Held (K.Good s') node) hs₁
      (.ofExcept fun node hnode => hst₁.1.linkTarget hnode) ?_
    intro node s₂ hs₂ hg₂ hnode
    have hst₂ := hst₁.mono fun r => K.mono _ _ r hg₂
    refine Stores.bind (P := fun root s' => HeldDir (K.Good s') root) hs₂
      (.ofExcept fun root hroot => hst₂.addNode hnode hroot) ?_
    intro root s₃ _ _ hroot
    exact .pure hroot
  · refine Stores.bind (P := fun root s' => HeldDir (K.Good s') root) hs₁
      (.ofExcept fun root hroot => hst₁.addNode .empty hroot) ?_
    intro root s₂ _ _ hroot
    exact .pure hroot
  · refine Stores.bind hs₁ (stores_putBlob hs₁) ?_
    intro id s₂ hs₂ hg₂ hid
    have hst₂ := hst₁.mono fun r => K.mono _ _ r hg₂
    refine Stores.bind (P := fun root s' => HeldDir (K.Good s') root) hs₂
      (.ofExcept fun root hroot => hst₂.addNode (.leaf (hid _)) hroot) ?_
    intro root s₃ _ _ hroot
    exact .pure hroot

theorem stores_applyItems {st : MemNode Bytes × Nat} {items : List TarItem}
    (hs : (solo ext ok p K.I).Inv s) (hst : HeldDir (K.Good s) st.1) :
    Stores K (applyItems st items) (fun st' s' => HeldDir (K.Good s') st'.1) σ s := by
  induction items generalizing st s with
  | nil => exact .pure hst
  | cons item items ih =>
    unfold applyItems
    exact Stores.bind hs (stores_applyItem hs hst) fun st' s' hs' _ hst' => ih hs' hst'

/-! ## Storing directories -/

/-- A directory whose entries are good is good when it is stored. -/
theorem stores_putTree {es : List TreeEntry} (hs : (solo ext ok p K.I).Inv s)
    (hsorted : es.Pairwise fun a b => a.name < b.name) (hes : ∀ e ∈ es, K.Good s e.ref) :
    Stores K (putTree es) (fun id s' => K.Good s' (.d, id)) σ s := by
  unfold putTree
  split
  · next hfits =>
    have hdec : decodeTree (encodeTree es) = .ok es :=
      decodeTree_encodeTree (sorted_of_pairwise nofun hsorted) (List.all_eq_true.1 hfits)
    refine safe_put fun x s' hok hx => ?_
    obtain ⟨hI, hg, hgood⟩ := K.tree es s x s' hs hok hdec hes hx
    exact ⟨hI, rfl, hg, hgood⟩
  · exact .throw

/-- The entries have the names of the children. -/
theorem dirEntries_names (children : List (Bytes × MemNode Bytes)) (ids : List Bytes) :
    (dirEntries children ids).map TreeEntry.name = children.map Prod.fst := by
  induction children generalizing ids with
  | nil => rfl
  | cons c children ih =>
    obtain ⟨name, _ | _⟩ := c <;> simp [dirEntries, ih]

/-- They refer to what was stored of the children. -/
theorem dirEntries_good {G : Ref → Prop} {children : List (Bytes × MemNode Bytes)} {ids : List Bytes}
    (h : ∀ c ∈ children, Held G c.2) (hlen : ids.length = (subDirs children).length)
    (hids : ∀ id ∈ ids, G (.d, id)) : ∀ e ∈ dirEntries children ids, G e.ref := by
  induction children generalizing ids with
  | nil => exact nofun
  | cons c children ih =>
    obtain ⟨name, node⟩ := c
    have hc := h _ (.head _)
    have hrest := fun c hc => h c (.tail _ hc)
    intro e he
    cases node with
    | leaf t id =>
      rcases List.mem_cons.1 he with rfl | he
      · cases hc with
        | leaf hg => exact hg
      · exact ih hrest hlen hids e he
    | dir sub =>
      cases ids with
      | nil => simp [subDirs] at hlen
      | cons id ids =>
        rcases List.mem_cons.1 he with rfl | he
        · exact hids id (.head _)
        · refine ih hrest ?_ (fun id hid => hids id (.tail _ hid)) e he
          simpa [subDirs] using hlen

/-- A subdirectory is a child. -/
theorem mem_subDirs {children sub : List (Bytes × MemNode Bytes)} (h : sub ∈ subDirs children) :
    ∃ c ∈ children, c.2 = .dir sub := by
  obtain ⟨c, hc, heq⟩ := List.mem_filterMap.1 h
  refine ⟨c, hc, ?_⟩
  split at heq
  · next hsub =>
    cases heq
    exact hsub
  · cases heq

/-- It is held when the directory is. -/
theorem Held.subDirs {G : Ref → Prop} {children sub : List (Bytes × MemNode Bytes)}
    (h : Held G (.dir children)) (hsub : sub ∈ Tree.subDirs children) : Held G (.dir sub) := by
  obtain ⟨c, hc, heq⟩ := mem_subDirs hsub
  cases h with
  | dir _ hall => exact heq ▸ hall c hc

/-- A level is stored from its last directory to its first. -/
theorem stores_flushLevel {level : List (List (Bytes × MemNode Bytes))} {ids : List Bytes}
    (hs : (solo ext ok p K.I).Inv s) (hlevel : ∀ dir ∈ level, Held (K.Good s) (.dir dir))
    (hlen : ids.length = (level.flatMap subDirs).length) (hids : ∀ id ∈ ids, K.Good s (.d, id)) :
    Stores K (flushLevel level ids)
      (fun ids' s' => ids'.length = level.length ∧ ∀ id ∈ ids', K.Good s' (.d, id)) σ s := by
  induction level generalizing ids s with
  | nil => exact .pure ⟨rfl, nofun⟩
  | cons dir level ih =>
    have hdir := hlevel dir (.head _)
    rw [List.flatMap_cons, List.length_append] at hlen
    unfold flushLevel
    refine Stores.bind hs (ih hs (fun dir hd => hlevel dir (.tail _ hd)) ?_ ?_) ?_
    · rw [List.length_drop]
      omega
    · exact fun id hid => hids id (List.mem_of_mem_drop hid)
    · rintro rest s₁ hs₁ hg₁ ⟨hlen₁, hrest⟩
      have hdir₁ := hdir.mono fun r => K.mono _ _ r hg₁
      cases hdir₁ with
      | dir hsorted hchildren =>
        refine Stores.bind hs₁ (stores_putTree hs₁ ?_ ?_) ?_
        · rw [← List.pairwise_map (R := fun a b => a < b), dirEntries_names, List.pairwise_map]
          exact hsorted
        · refine dirEntries_good hchildren ?_ ?_
          · rw [List.length_take]
            omega
          · exact fun id hid => K.mono _ _ _ hg₁ (hids id (List.mem_of_mem_take hid))
        · intro id s₂ hs₂ hg₂ hid
          refine .pure ⟨by rw [List.length_cons, hlen₁, List.length_cons], ?_⟩
          intro id' hid'
          rcases List.mem_cons.1 hid' with rfl | hid'
          · exact hid
          · exact K.mono _ _ _ hg₂ (hrest id' hid')

/-- A child is no higher than its directory. -/
theorem heightAll_of_mem {ι : Type} {children : List (Bytes × MemNode ι)} {c : Bytes × MemNode ι}
    (h : c ∈ children) : c.2.height ≤ heightAll children := by
  induction children with
  | nil => cases h
  | cons c' children ih =>
    unfold heightAll
    rcases List.mem_cons.1 h with rfl | h
    · exact Nat.le_max_left _ _
    · exact (ih h).trans (Nat.le_max_right _ _)

/-- All levels from a given one on, if their number is not greater than `n`. -/
theorem stores_flushLevels {n : Nat} {level : List (List (Bytes × MemNode Bytes))}
    (hs : (solo ext ok p K.I).Inv s) (hlevel : ∀ dir ∈ level, Held (K.Good s) (.dir dir))
    (hn : ∀ dir ∈ level, heightAll dir + 1 ≤ n) :
    Stores K (flushLevels n level)
      (fun ids s' => ids.length = level.length ∧ ∀ id ∈ ids, K.Good s' (.d, id)) σ s := by
  induction n generalizing level s with
  | zero =>
    have hnil : level = [] := List.eq_nil_iff_forall_not_mem.2 fun dir hd => by
      have := hn dir hd
      omega
    subst hnil
    exact .pure ⟨rfl, nofun⟩
  | succ n ih =>
    unfold flushLevels
    split
    · next hempty =>
      rw [List.isEmpty_iff] at hempty
      subst hempty
      exact .pure ⟨rfl, nofun⟩
    · refine Stores.bind hs (ih hs ?_ ?_) ?_
      · intro sub hsub
        obtain ⟨dir, hdir, hmem⟩ := List.mem_flatMap.1 hsub
        exact (hlevel dir hdir).subDirs hmem
      · intro sub hsub
        obtain ⟨dir, hdir, hmem⟩ := List.mem_flatMap.1 hsub
        obtain ⟨c, hc, heq⟩ := mem_subDirs hmem
        have hheight := heightAll_of_mem hc
        have hle := hn dir hdir
        rw [heq, MemNode.height] at hheight
        omega
      · rintro ids s₁ hs₁ hg₁ ⟨hlen, hids⟩
        exact stores_flushLevel hs₁
          (fun dir hd => (hlevel dir hd).mono fun r => K.mono _ _ r hg₁) hlen hids

/-- `flush_tree` stores the tree. -/
theorem stores_flushTree {root : MemNode Bytes} (hs : (solo ext ok p K.I).Inv s)
    (hroot : HeldDir (K.Good s) root) :
    Stores K (flushTree root) (fun id s' => K.Good s' (.d, id)) σ s := by
  obtain ⟨hheld, children, rfl⟩ := hroot
  unfold flushTree
  refine Stores.bind hs (stores_flushLevels hs ?_ ?_) ?_
  · intro dir hd
    obtain rfl := List.mem_singleton.1 hd
    exact hheld
  · intro dir hd
    obtain rfl := List.mem_singleton.1 hd
    rw [MemNode.height]
  · rintro ids s₁ - - ⟨hlen, hids⟩
    refine .pure ?_
    match ids, hlen with
    | [id], _ => exact hids id (.head _)

/-! ## Files of the eval store -/

/-- The entries of every directory of a file tree are sorted by name, as those of a `std::map` are. -/
inductive FsNode.Ordered : FsNode → Prop where
  | regular {executable : Bool} {contents : Bytes} : Ordered (.regular executable contents)
  | symlink {target : Bytes} : Ordered (.symlink target)
  | directory {entries : List (Bytes × FsNode)} (hs : entries.Pairwise fun a b => a.1 < b.1)
      (hc : ∀ c ∈ entries, Ordered c.2) : Ordered (.directory entries)

/-- A directory of one file. -/
def oneFileDir (name : Char) (contents : Bytes) : FsNode := .directory [(ascii [name], .regular false contents)]

/-- The directory of one file is in order. -/
theorem ordered_oneFileDir (name : Char) (contents : Bytes) : (oneFileDir name contents).Ordered := by
  refine .directory (.cons (fun _ hm => absurd hm List.not_mem_nil) .nil) fun c hc => ?_
  obtain rfl := List.mem_singleton.1 hc
  exact .regular

/-- A directory of one directory. -/
def nestedDir : FsNode := .directory [(ascii ['d'], oneFileDir 'f' (ascii ['x']))]

theorem ordered_nestedDir : nestedDir.Ordered := by
  refine .directory (.cons (fun _ hm => absurd hm List.not_mem_nil) .nil) fun c hc => ?_
  obtain rfl := List.mem_singleton.1 hc
  exact ordered_oneFileDir 'f' (ascii ['x'])

/-- The object of a directory of one file, with the hash of that file. -/
def oneFileObject (name : Char) (contents : Bytes) : Bytes :=
  encodeTree [⟨ascii [name], .leaf .r, Ext.sample.blake3 contents⟩]

/-- The object of `nestedDir`. -/
def nestedObject : Bytes :=
  encodeTree [⟨ascii ['d'], .d, Ext.sample.blake3 (oneFileObject 'f' (ascii ['x']))⟩]

/-- What the two directories are made of. -/
def dirContents : List Bytes :=
  [ascii ['x'], oneFileObject 'f' (ascii ['x']), nestedObject, ascii ['y'], oneFileObject 'g' (ascii ['y'])]

mutual

/-- `ingest` stores a file system object. -/
theorem stores_ingest (file : FsNode) {s : Sys} (hs : (solo ext ok p K.I).Inv s)
    (hfile : file.Ordered) : Stores K (ingest file) (fun x s' => K.Good s' x) σ s := by
  cases file with
  | regular executable contents =>
    unfold ingest
    refine Stores.bind hs (stores_putBlob hs) ?_
    intro id s₁ _ _ hid
    exact .pure (hid _)
  | symlink target =>
    unfold ingest
    refine Stores.bind hs (stores_putBlob hs) ?_
    intro id s₁ _ _ hid
    exact .pure (hid _)
  | directory entries =>
    cases hfile with
    | directory hsorted hc =>
      unfold ingest
      refine Stores.bind hs (stores_ingestAll entries hs hc) ?_
      rintro es s₁ hs₁ - ⟨hnames, hes⟩
      refine Stores.bind hs₁ (stores_putTree hs₁ ?_ hes) ?_
      · rw [← List.pairwise_map (R := fun a b => a < b), hnames, List.pairwise_map]
        exact hsorted
      · intro id s₂ _ _ hid
        exact .pure hid

/-- It stores the entries of a directory. -/
theorem stores_ingestAll (entries : List (Bytes × FsNode)) {s : Sys}
    (hs : (solo ext ok p K.I).Inv s) (hall : ∀ c ∈ entries, FsNode.Ordered c.2) :
    Stores K (ingestAll entries) (fun es s' => es.map TreeEntry.name = entries.map Prod.fst ∧
      ∀ e ∈ es, K.Good s' e.ref) σ s := by
  cases entries with
  | nil => exact .pure ⟨rfl, nofun⟩
  | cons c rest =>
    obtain ⟨name, sub⟩ := c
    unfold ingestAll
    refine Stores.bind hs (stores_ingest sub hs (hall _ (.head _))) ?_
    rintro x s₁ hs₁ - hx
    refine Stores.bind hs₁ (stores_ingestAll rest hs₁ fun c hc => hall c (.tail _ hc)) ?_
    rintro es s₂ _ hg₂ ⟨hnames, hes⟩
    refine .pure ⟨by simp [hnames], ?_⟩
    intro e he
    rcases List.mem_cons.1 he with rfl | he
    · exact K.mono _ _ _ hg₂ hx
    · exact hes e he

end

end

end Tarmac.Tree
