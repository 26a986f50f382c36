import Tarmac.Tree.Reference

/-!
# What an ingested archive shows

The tree of an archive (`Archive.reference`) is what walkers find in the store under the root that
`ingest_archive` returned, whatever was done to the store before and after, for as long as the tree is
there in full (`ingest_reference`).
-/

namespace Tarmac.Tree

open PackCas

/-! ## Walks -/

/-- A walker looks up a path below a root, and no access to the store fails. -/
def LookupStep (ext : Ext) (p : Nat) (root : Bytes) (x : (Pending × Cache) × Sys)
    (l : Bytes × Except Err (Option TreeEntry)) (x' : (Pending × Cache) × Sys) : Prop :=
  ∃ tr, Prog.Run (sem ext unfailing p) (lookup root l.1 x.1) x.2 tr (l.2, x'.1) x'.2

/-- What a path string leads to in the tree of an archive. -/
def RefTree.at (t : RefTree) (path : Bytes) : Option (PathNode (LeafType × Bytes)) :=
  (splitPath path).bind t.find?

/-- A lookup has found a node: an entry of its type, and the contents under the id of a leaf. -/
def FoundAs (ext : Ext) (p : Nat) (s : Sys) (y : Except Err (Option TreeEntry)) :
    Option (PathNode (LeafType × Bytes)) → Prop
  | none => y = .ok none
  | some .dir => ∃ e, y = .ok (some e) ∧ e.type = .d
  | some (.leaf file) => ∃ e, y = .ok (some e) ∧ e.type = .leaf file.1 ∧
    ∀ queue, Reads ext p s (fun z _ => z = .ok file.2) (readBlob e.id) queue

/-- Every path can be looked up, and whatever was looked up before, the walker finds what the tree
has there. -/
def Shows (ext : Ext) (p : Nat) (queue : Pending) (s : Sys) (root : Bytes) (t : RefTree) : Prop :=
  ∀ ls x, Runs (LookupStep ext p root) ((queue, .empty), s) ls x →
    (∀ l ∈ ls, FoundAs ext p s l.2 (t.at l.1)) ∧ ∀ path, ∃ y x', LookupStep ext p root x (path, y) x'

section

variable {ext : Ext} {S : Bytes → Prop} {M : BlobMap} {file : FsNode} {node : MemNode Bytes}
  {t : RefTree} {comps : List Bytes} {p : Nat} {s : Sys} {queue : Pending} {cache : Cache}
  {root path : Bytes}

/-- The lookup of a path only reads objects. -/
theorem makes_lookupComps {e : TreeEntry} {state : Pending × Cache} :
    Eff.Makes (S := sig) (fun c : Call => ∃ id, c = .get id) (fun _ _ => True) (lookupComps comps e)
      state := by
  induction comps generalizing e state with
  | nil => exact .pure trivial
  | cons comp comps ih =>
    obtain ⟨queue, cache⟩ := state
    unfold lookupComps
    split
    · exact .pure trivial
    · refine Eff.Makes.seq (T := fun _ _ => True) (Eff.Makes.get ?_) ?_ fun _ _ _ => trivial
      · dsimp only
        split
        · exact .pure trivial
        · refine Eff.Makes.modify (Eff.Makes.seq (T := fun _ _ => True) (.onFst ?_) ?_ fun _ _ _ => trivial)
          · unfold readTree
            refine Eff.Makes.seq (T := fun _ _ => True) (makes_ask ⟨_, rfl⟩ fun _ => trivial) ?_
              fun _ _ _ => trivial
            rintro data σ' -
            split
            · exact .throw trivial
            · exact .ofExcept trivial
          · rintro entries σ' -
            exact Eff.Makes.modify (.pure trivial)
      · rintro entries σ' -
        split
        · exact .pure trivial
        · exact ih

/-- Every lookup ends. -/
theorem exists_lookup (root path : Bytes) (x : (Pending × Cache) × Sys) :
    ∃ y x', LookupStep ext p root x (path, y) x' := by
  have hmakes : Eff.Makes (S := sig) (fun c : Call => ∃ id, c = .get id) (fun _ _ => True)
      (lookup root path) x.1 := by
    unfold lookup
    split
    · exact .pure trivial
    · exact makes_lookupComps
  have hanswered : ∀ (c : Call) (s : Sys), (∃ id, c = .get id) → ∃ r s', sem ext unfailing p c s r s' := by
    rintro _ s ⟨id, rfl⟩
    exact ⟨_, s, {}, rfl, rfl⟩
  obtain ⟨tr, ⟨y, state⟩, s', hr⟩ := Prog.Makes.exists_run hanswered hmakes x.2
  exact ⟨y, (state, s'), tr, hr⟩

/-! ## The files of a tree in memory -/

/-- The child of a file system node. -/
theorem child_fileAll {children : List (Bytes × MemNode Bytes)} {comp : Bytes} :
    child comp (fileAll children) = (child comp children).map MemNode.file := by
  rw [fileAll_eq]
  unfold child
  rw [List.find?_map, Option.map_map, Option.map_map]
  rfl

/-- A path in it. -/
theorem file_at : node.file.at comps = (lookupNode node comps).map MemNode.file := by
  induction comps generalizing node with
  | nil => rw [FsNode.at_nil]; cases node <;> rfl
  | cons comp comps ih =>
    cases node with
    | leaf type d =>
      rw [MemNode.file, FsNode.at_leaf (by cases type <;> simp [leafFile, FsNode.type])]
      rfl
    | dir children =>
      rw [MemNode.file, FsNode.at_cons, child_fileAll, lookupNode]
      cases child comp children with
      | none => rfl
      | some sub => exact ih

/-- A reference that stands for a node of the tree is what is found for it. -/
theorem foundAs_of_denotes (hM : Keyed (s.blobs p)) {y : Except Err (Option TreeEntry)}
    {sub : Option (MemNode Bytes)} (h : Located (s.blobs p) (sub.map MemNode.file) y) :
    FoundAs ext p s y (sub.map MemNode.kind) := by
  cases sub with
  | none => exact h
  | some node =>
    obtain ⟨e, he, hfile⟩ := h
    cases node with
    | dir children =>
      rw [MemNode.file] at hfile
      exact ⟨e, he, hfile.type⟩
    | leaf type d =>
      rw [MemNode.file] at hfile
      have href : e.ref = (.leaf type, e.id) := by
        have htype : (leafFile type d).type = .leaf type := (@type_file_leaf ext type d).1
        rw [← htype, ← hfile.type]
        rfl
      rw [href] at hfile
      obtain ⟨d', hd', heq⟩ := denotes_leaf.1 hfile
      obtain rfl : d = d' := by
        cases type <;> cases heq <;> rfl
      refine ⟨e, he, congrArg Prod.fst href, fun queue => ?_⟩
      refine (reads_readBlob (hM e.id (by rw [hd']; rfl)) hd').mono ?_
      rintro z _ ⟨hz, -⟩
      exact hz

/-- A lookup finds what the path leads to in the reference. -/
theorem reads_lookup (hM : Keyed (s.blobs p)) (hclean : Clean (s.blobs p) cache)
    (h : Denotes (s.blobs p) node.file (.d, root)) (ht : Mirrors node t) :
    Reads ext p s (fun y x' => FoundAs ext p s y (t.at path) ∧ Clean (s.blobs p) x'.2)
      (lookup root path) (queue, cache) := by
  unfold lookup RefTree.at
  cases splitPath path with
  | none => exact .pure ⟨rfl, hclean⟩
  | some comps =>
    have hread : Denotes (s.blobs p) node.file (TreeEntry.mk [] .d root).ref := h
    refine (reads_lookupComps hM hclean hread).mono ?_
    rintro y x' ⟨hy, hclean'⟩
    refine ⟨?_, hclean'⟩
    rw [file_at] at hy
    rw [Option.bind_some, ht comps]
    exact foundAs_of_denotes hM hy

/-- A walker over a tree that is there finds what the archive has. -/
theorem Mirrors.shows (ht : Mirrors node t) (hM : Keyed (s.blobs p))
    (h : Denotes (s.blobs p) node.file (.d, root)) : Shows ext p queue s root t := by
  intro ls x hr
  have hall : (x.2 = s ∧ Clean (s.blobs p) x.1.2) ∧ ∀ l ∈ ls, FoundAs ext p s l.2 (t.at l.1) := by
    refine hr.history (I := fun ls x => (x.2 = s ∧ Clean (s.blobs p) x.1.2) ∧
      ∀ l ∈ ls, FoundAs ext p s l.2 (t.at l.1)) ?_ ⟨⟨rfl, ?_⟩, ?_⟩
    · rintro ls ⟨path, y⟩ ⟨⟨queue₁, cache₁⟩, s₁⟩ ⟨x₂, s₂⟩ ⟨⟨rfl, hclean⟩, hls⟩ ⟨tr, hstep⟩
      obtain ⟨hs₂, hy, hclean₂⟩ := reads_lookup hM hclean h ht tr y x₂ s₂ hstep
      refine ⟨⟨hs₂, hclean₂⟩, fun l hl => ?_⟩
      rcases List.mem_append.1 hl with hl | hl
      · exact hls l hl
      · exact List.mem_singleton.1 hl ▸ hy
    · exact fun id es hfind => by cases hfind
    · exact fun l hl => absurd hl List.not_mem_nil
  exact ⟨hall.2, fun path => exists_lookup root path x⟩

/-! ## Trees under their references -/

mutual

/-- In an index of objects that do not collide, a file tree is found under its reference when it is
there in full. -/
theorem FsNode.denotes_ref (hext : ext.Lawful) (hS : NoCollision ext S) (hM : Indexed ext S M)
    (file : FsNode) (ho : file.Ordered) (hn : file.Named) (hobj : ∀ d ∈ file.objects ext, S d)
    (hw : Whole M (file.ref ext)) : Denotes M file (file.ref ext) := by
  obtain ⟨d, hd, -⟩ := hw.present
  obtain ⟨hSd, hhash⟩ := hM _ _ hd
  obtain rfl := hS _ _ hSd (hobj _ file.object_mem) hhash
  cases file with
  | regular executable contents =>
    unfold Denotes
    exact ⟨rfl, hd⟩
  | symlink target =>
    unfold Denotes
    exact ⟨rfl, hd⟩
  | directory entries =>
    cases ho with
    | directory hs hso =>
      cases hn with
      | directory hn hnc =>
        unfold Denotes
        have hdec := decode_object hext hs hn
        have hwhole := (whole_dir hd (by rw [FsNode.object]; exact hdec)).1 hw
        refine ⟨rfl, _, _, hd, by rw [FsNode.object]; exact hdec, ?_⟩
        refine denotesAll_fsEntries hext hS hM entries hso hnc (fun d hd => hobj d ?_) hwhole
        rw [FsNode.objects]
        exact .tail _ hd

/-- The entries of a list of files denote them, where they are whole. -/
theorem denotesAll_fsEntries (hext : ext.Lawful) (hS : NoCollision ext S) (hM : Indexed ext S M)
    (entries : List (Bytes × FsNode)) (ho : ∀ c ∈ entries, FsNode.Ordered c.2)
    (hn : ∀ c ∈ entries, FsNode.Named c.2) (hobj : ∀ d ∈ objectsAll ext entries, S d)
    (hw : ∀ e ∈ fsEntries ext entries, Whole M e.ref) :
    DenotesAll M entries (fsEntries ext entries) := by
  cases entries with
  | nil =>
    unfold fsEntries DenotesAll
    trivial
  | cons c rest =>
    obtain ⟨name, sub⟩ := c
    rw [fsEntries] at hw ⊢
    unfold DenotesAll
    rw [objectsAll] at hobj
    refine ⟨rfl, ?_, ?_⟩
    · exact FsNode.denotes_ref hext hS hM sub (ho _ (.head _)) (hn _ (.head _))
        (fun d hd => hobj d (List.mem_append_left _ hd)) (hw _ (.head _))
    · exact denotesAll_fsEntries hext hS hM rest (fun c hc => ho c (.tail _ hc))
        (fun c hc => hn c (.tail _ hc)) (fun d hd => hobj d (List.mem_append_right _ hd))
        fun e he => hw e (.tail _ he)

end

end

/-! ## What the ingestion leaves -/

section

variable {ext : Ext} {S : Bytes → Prop} {p : Nat} {s : Sys} {σ : Pending} {arc : Archive}

/-- A tree stays whole in a greater store. -/
theorem whole_mono (p : Nat) (s s' : Sys) (r : Ref) (hg : Grows (s.blobs p) (s'.blobs p))
    (h : Whole (s.blobs p) r) : Whole (s'.blobs p) r :=
  h.mono hg

/-- A put of a file makes it whole. -/
theorem whole_put_blob (hS : NoCollision ext S) (p : Nat) (d : Bytes) (s : Sys) (x : Except Err Bytes)
    (s' : Sys) (hs : (solo ext (puts S) p fun s => Indexed ext S (s.blobs p)).Inv s)
    (hok : ∃ ch, puts S (.put false d) s ch) (hx : PutOutcome ext p false d s x s') :
    Indexed ext S (s'.blobs p) ∧ Grows (s.blobs p) (s'.blobs p) ∧
      ∀ id, x = .ok id → ∀ t, Whole (s'.blobs p) (.leaf t, id) := by
  obtain ⟨ch, hch⟩ := hok
  obtain ⟨hI, hg, hid⟩ := hs.2.put hS (hch _ _ rfl) hx
  exact ⟨hI, hg, fun id hx t => whole_leaf.2 ⟨d, hid id hx⟩⟩

/-- A put of a directory of whole trees makes it whole. -/
theorem whole_put_tree (hS : NoCollision ext S) (p : Nat) (es : List TreeEntry) (s : Sys)
    (x : Except Err Bytes) (s' : Sys)
    (hs : (solo ext (puts S) p fun s => Indexed ext S (s.blobs p)).Inv s)
    (hok : ∃ ch, puts S (.put true (encodeTree es)) s ch)
    (hdec : decodeTree (encodeTree es) = .ok es) (hes : ∀ e ∈ es, Whole (s.blobs p) e.ref)
    (hx : PutOutcome ext p true (encodeTree es) s x s') :
    Indexed ext S (s'.blobs p) ∧ Grows (s.blobs p) (s'.blobs p) ∧
      ∀ id, x = .ok id → Whole (s'.blobs p) (.d, id) := by
  obtain ⟨ch, hch⟩ := hok
  obtain ⟨hI, hg, hid⟩ := hs.2.put hS (hch _ _ rfl) hx
  exact ⟨hI, hg, fun id hx => (whole_dir (hid id hx) hdec).2 fun e he => (hes e he).mono hg⟩

/-- Puts make whole trees of whole trees. -/
def wholeKeeper (hS : NoCollision ext S) (p : Nat) : Keeper ext (puts S) p where
  I s := Indexed ext S (s.blobs p)
  G s s' := Grows (s.blobs p) (s'.blobs p)
  Good s r := Whole (s.blobs p) r
  refl := grows_refl p
  trans := grows_trans p
  mono := whole_mono p
  blob := whole_put_blob hS p
  tree := whole_put_tree hS p

/-- What a run has put is what it may put. -/
theorem puts_of_run {ok : Call → Sys → Choice → Prop} {α : Type} {m : Prog sig α} {a : α} {s s' : Sys}
    {tr : List (Tarmac.Event sig)} (hok : ∀ c s ch, ok c s ch → puts S c s ch)
    (hr : Prog.Run (amid ext ok p) m s tr a s') : ∀ d, WasPut ext tr d → S d := by
  induction hr with
  | ret =>
    rintro d ⟨tree, hmem⟩
    cases hmem
  | call hs _ ih =>
    rintro d ⟨tree, hmem⟩
    rcases List.mem_cons.1 hmem with heq | hmem
    · cases heq
      obtain ⟨s₀, ch, hch, -⟩ := hs
      exact hok _ _ _ hch tree d rfl
    · exact ih d ⟨tree, hmem⟩

/-- `ingest_archive` up to its collection stores a good tree, and after that it writes only records. -/
theorem stores_ingestTree {ok : Call → Sys → Choice → Prop} {K : Keeper ext ok p}
    (hI : Unrecorded p K.I) (hs : (solo ext ok p K.I).Inv s) :
    Eff.Safe (solo ext ok p K.I)
      (fun x _ s' => ∀ res, x = .ok res →
        ∃ s₁, s'.blobs p = s₁.blobs p ∧ K.G s s₁ ∧ K.Good s₁ (.d, res.1)) (ingestTree arc) σ s := by
  unfold ingestTree
  refine safe_bind hs (stores_applyItems hs ⟨.empty, _, rfl⟩) ?_ (fun e _ _ _ _ res hx => by cases hx)
  rintro ⟨root, files⟩ σ₁ s₁ hs₁ ⟨rfl, hg₁, hst⟩
  dsimp only
  split
  · exact safe_throw fun res hx => by cases hx
  · refine safe_bind hs₁ (stores_flushTree hs₁ (hst _ rfl)) ?_ (fun e _ _ _ _ res hx => by cases hx)
    rintro id σ₂ s₂ hs₂ ⟨rfl, hg₂, hid⟩
    refine safe_bind hs₂ (quiet_registerRoot (K := fun _ => True) hI hs₂ trivial) ?_
      (fun e _ _ _ _ res hx => by cases hx)
    rintro _ σ₃ s₃ hs₃ ⟨hw₃, -, -⟩
    refine safe_bind hs₃ (quiet_sync (K := fun _ => True) hI hs₃ fun _ _ => trivial) ?_
      (fun e _ _ _ _ res hx => by cases hx)
    rintro _ σ₄ s₄ hs₄ ⟨hw₄, -⟩
    refine safe_pure fun res hx => ?_
    cases hx
    exact ⟨s₂, hw₄.blobs.trans hw₃.blobs, K.trans _ _ _ hg₁ hg₂, hid id rfl⟩

/-- The tree that was stored is there when `ingest_archive` is done, besides what was there. -/
theorem whole_ingestTree (hS : NoCollision ext S)
    (hs : (solo ext (puts S) p (wholeKeeper hS p).I).Inv s) :
    Eff.Safe (solo ext (puts S) p (wholeKeeper hS p).I)
      (fun x _ s' => ∀ res, x = .ok res → Grows (s.blobs p) (s'.blobs p) ∧ Whole (s'.blobs p) (.d, res.1))
      (ingestTree arc) σ s := by
  have hI : Unrecorded p (wholeKeeper hS p).I := fun K s s' hw h => by
    show Indexed ext S (s'.blobs p)
    rw [hw.blobs]
    exact h
  refine Eff.Safe.mono (stores_ingestTree hI hs) ?_
  rintro x σ' s' - hx res hres
  obtain ⟨s₁, hblobs, hw⟩ := hx res hres
  rw [hblobs]
  exact hw

/-- What `ingest_archive` has stored shows the tree of the archive, wherever it is there in full. -/
theorem ingestArchive_shows {ok : Call → Sys → Choice → Prop} {cfg : Config} {fuel : Nat} {s' : Sys}
    {tr : List (Tarmac.Event sig)} {res : Bytes × Nat} {σ' : Pending} (hext : ext.Lawful)
    (hS : NoCollision ext S) (hok : ∀ c s ch, ok c s ch → puts S c s ch)
    (hr : Prog.Run (amid ext ok p) (ingestArchive cfg fuel arc σ) s tr (.ok res, σ') s') :
    ∃ t, arc.reference = some t ∧ ∀ q queue z, Indexed ext S (z.blobs q) →
      Whole (z.blobs q) (.d, res.1) → Shows ext q queue z res.1 t := by
  obtain ⟨file, hu, href, hput⟩ :=
    ((gives_ingestArchive hext arc cfg fuel).run (fun h => h.elim) hr).2 res rfl
  obtain ⟨-, hordered, hnamed⟩ := hu.formed
  obtain ⟨node, t, rfl, ht, hmirrors⟩ := hu.reference
  refine ⟨t, ht, fun q queue z hM hw => ?_⟩
  refine hmirrors.shows (hM.keyed hext) ?_
  rw [href] at hw ⊢
  exact node.file.denotes_ref hext hS hM hordered hnamed (fun d hd => puts_of_run hok hr d (hput d hd)) hw

/-- Only what can be unpacked is ingested. -/
theorem unpacks_of_returned {ok : Call → Sys → Choice → Prop} {s' : Sys} {tr : List (Tarmac.Event sig)}
    {res : Bytes × Nat} {σ' : Pending} (hext : ext.Lawful)
    (hr : Prog.Run (amid ext ok p) (ingestTree arc σ) s tr (.ok res, σ') s') : ∃ file, Unpacks arc file := by
  have hgives : Gives ext False (fun tr res => ∃ file, Unpacks arc file ∧
      (.d, res.1) = file.ref ext ∧ ∀ d ∈ file.objects ext, WasPut ext tr d) (ingestTree arc) :=
    gives_ingestTree hext fun h => h.elim
  obtain ⟨file, hu, -⟩ := (hgives.run (fun h => h.elim) hr).2 res rfl
  exact ⟨file, hu⟩

end

/-- An archive can be ingested just when the reference has a tree for it: without faults,
`ingest_archive` stores it, and it never returns a root otherwise. What walkers find under the root it
returned is that tree, in every store that has the tree in full; a process that is alone has it when
`ingest_archive` comes to its collection. -/
theorem ingest_reference {ext : Ext} {S : Bytes → Prop} (hext : ext.Lawful) (hS : NoCollision ext S)
    (arc : Archive) :
    ((∃ t, arc.reference = some t) ↔ ReturnsUnfailing ext (ingestTree arc)) ∧
    (∀ cfg fuel ok p σ s tr res σ' s', (∀ c s ch, ok c s ch → puts S c s ch) →
      Prog.Run (amid ext ok p) (ingestArchive cfg fuel arc σ) s tr (.ok res, σ') s' →
      ∃ t, arc.reference = some t ∧ ∀ q queue z, Indexed ext S (z.blobs q) →
        Whole (z.blobs q) (.d, res.1) → Shows ext q queue z res.1 t) ∧
    (∀ p σ s tr res σ' s', s.busy p = false → Indexed ext S (s.blobs p) →
      Prog.Run (sem ext (puts S) p) (ingestTree arc σ) s tr (.ok res, σ') s' →
      Whole (s'.blobs p) (.d, res.1)) := by
  refine ⟨?_, ?_, ?_⟩
  · rw [← reference_iff]
    constructor
    · exact fun hu => Gives.returnsUnfailing (gives_ingestTree hext fun _ => hu)
    · intro hret
      obtain ⟨⟨tr, ⟨x, σ'⟩, s', hr⟩, hall⟩ := hret 0 [] .fresh
      obtain ⟨res, rfl⟩ := hall tr x σ' s' hr
      exact unpacks_of_returned hext hr
  · intro cfg fuel ok p σ s tr res σ' s' hok hr
    exact ingestArchive_shows hext hS hok hr
  · intro p σ s tr res σ' s' hbusy hM hr
    exact ((solo_run hr ⟨hbusy, hM⟩ (whole_ingestTree hS ⟨hbusy, hM⟩)).2 res rfl).2

/-- A file, a hard link to it, and another file in its place. -/
def linkArchive : Archive :=
  ⟨[⟨some [97, 47, 98], none, .reg, none, 1, 0, [[7]], none⟩,
    ⟨some [99], some [97, 47, 98], .reg, none, 0, 0, [], none⟩,
    ⟨some [97, 47, 98], none, .reg, none, 1, 0, [[8]], none⟩], none⟩

/-- What is put when it is ingested. -/
def linkContents : List Bytes :=
  let sub : Bytes := encodeTree [⟨[98], .leaf .r, Ext.sample.blake3 [8]⟩]
  [[7], [8], sub,
    encodeTree [⟨[97], .d, Ext.sample.blake3 sub⟩, ⟨[99], .leaf .r, Ext.sample.blake3 [7]⟩]]

/-- The link keeps the contents its target had, in the archive's tree and for the walkers of the store
the archive was ingested into. -/
theorem ingest_reference_sample : ∃ t res z,
    linkArchive.reference = some t ∧ t.at [99] = some (.leaf (.r, [7])) ∧
      t.at [97, 47, 98] = some (.leaf (.r, [8])) ∧ ReturnsUnfailing .sample (ingestTree linkArchive) ∧
    (∃ tr σ', Prog.Run (sem .sample (puts (· ∈ linkContents)) 0) (ingestTree linkArchive []) .fresh tr
      (.ok res, σ') z) ∧
    (∃ tr σ' s', Prog.Run (sem .sample (puts (· ∈ linkContents)) 0)
      (ingestArchive ⟨0, 0, 0⟩ 10 linkArchive []) .fresh tr (.ok res, σ') s') ∧
    Whole (z.blobs 0) (.d, res.1) ∧ Shows .sample 0 [] z res.1 t := by
  have hS : NoCollision .sample (· ∈ linkContents) := noCollision_of_isInjective (by decide +kernel)
  have hM : Indexed .sample (· ∈ linkContents) (Sys.fresh.blobs 0) := fun _ _ h => by cases h
  obtain ⟨hiff, hshows, hwhole⟩ := ingest_reference Ext.lawful_sample hS linkArchive
  have h : (linkArchive.reference.any fun t => decide (t.at [99] = some (.leaf (.r, [7]))) &&
      decide (t.at [97, 47, 98] = some (.leaf (.r, [8])))) = true := by decide +kernel
  obtain ⟨t, ht, hat⟩ := (Option.any_eq_true _ _).1 h
  rw [Bool.and_eq_true, decide_eq_true_eq, decide_eq_true_eq] at hat
  have h : ((ingestTree linkArchive []).eval (execIf .sample 0 (putsIn linkContents))
      (List.replicate 40 {}) .fresh).any (fun x =>
        ((ingestArchive ⟨0, 0, 0⟩ 10 linkArchive []).eval (execIf .sample 0 (putsIn linkContents))
          (List.replicate 80 {}) .fresh).any fun y =>
            x.2.1.1.toOption.isSome && decide (x.2.1.1.toOption = y.2.1.1.toOption)) = true := by
    decide +kernel
  obtain ⟨⟨tr₁, ⟨x, σ₁⟩, z⟩, h₁, h⟩ := (Option.any_eq_true _ _).1 h
  obtain ⟨⟨tr₂, ⟨y, σ₂⟩, s₂⟩, h₂, h⟩ := (Option.any_eq_true _ _).1 h
  obtain ⟨hsome, heq⟩ := Bool.and_eq_true_iff.1 h
  obtain ⟨res, hres⟩ := Option.isSome_iff_exists.1 hsome
  obtain rfl : x = .ok res := ok_of_toOption hres
  obtain rfl : y = .ok res := ok_of_toOption ((of_decide_eq_true heq).symm.trans hres)
  have hr₁ : Prog.Run (sem .sample (puts (· ∈ linkContents)) 0) (ingestTree linkArchive []) .fresh tr₁
      (.ok res, σ₁) z := run_of_execIf puts_of_putsIn h₁
  have hr₂ : Prog.Run (sem .sample (puts (· ∈ linkContents)) 0)
      (ingestArchive ⟨0, 0, 0⟩ 10 linkArchive []) .fresh tr₂ (.ok res, σ₂) s₂ :=
    run_of_execIf puts_of_putsIn h₂
  have hw : Whole (z.blobs 0) (.d, res.1) := hwhole 0 [] _ _ _ _ _ rfl hM hr₁
  have hz : Indexed .sample (· ∈ linkContents) (z.blobs 0) :=
    (solo_run hr₁ ⟨rfl, hM⟩ (whole_ingestTree hS ⟨rfl, hM⟩)).1.2
  obtain ⟨t', ht', hshow⟩ := hshows ⟨0, 0, 0⟩ 10 _ 0 [] _ _ _ _ _ (fun _ _ _ h => h)
    (hr₂.mono fun c s r s' hstep => ⟨s, hstep⟩)
  obtain rfl := Option.some.inj (ht.symm.trans ht')
  exact ⟨t, res, z, ht, hat.1, hat.2, hiff.1 ⟨t, ht⟩, ⟨_, _, hr₁⟩, ⟨_, _, _, hr₂⟩, hw,
    hshow 0 [] z hz hw⟩

end Tarmac.Tree
