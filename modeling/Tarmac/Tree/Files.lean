import Tarmac.Tree.Stores

/-!
# The file trees of an index

A reference is the name of a file tree: `Denotes M file r` says that the objects of the index `M`
that can be reached from `r` spell out `file`. When everything is there and the directories do not
nest for ever, there is such a tree (`exists_denotes`), and only one (`Denotes.unique`).

An id is that of what it stands for: where objects are filed under their hashes, the same file tree
has the same reference everywhere (`Denotes.canonical`), and if no two of the objects collide, the
same reference stands for the same file tree (`Denotes.faithful`).
-/

namespace Tarmac.Tree

open PackCas

/-- `Below M n x y`: `y` is reached from `x` through `n` directories. -/
inductive Below (M : BlobMap) : Nat → Ref → Ref → Prop where
  | refl {x : Ref} : Below M 0 x x
  | step {n : Nat} {id buf : Bytes} {es : List TreeEntry} {e : TreeEntry} {y : Ref}
      (hbuf : M id = some buf) (hes : decodeTree buf = .ok es) (he : e ∈ es)
      (hy : Below M n e.ref y) : Below M (n + 1) (.d, id) y

/-- No node lies more than `k` levels deep. -/
def Shallow (M : BlobMap) (k : Nat) (x : Ref) : Prop := ∀ n y, Below M n x y → n ≤ k

/-- No node of a file tree lies more than `k` levels deep. -/
inductive FsNode.Within : Nat → FsNode → Prop where
  | regular {k : Nat} {executable : Bool} {contents : Bytes} : Within k (.regular executable contents)
  | symlink {k : Nat} {target : Bytes} : Within k (.symlink target)
  | directory {k : Nat} {entries : List (Bytes × FsNode)} (hk : ∀ c ∈ entries, 0 < k)
      (hc : ∀ c ∈ entries, Within (k - 1) c.2) : Within k (.directory entries)

/-- The type of an entry for a file. -/
def FsNode.type : FsNode → EntryType
  | .regular executable _ => .leaf (if executable then .x else .r)
  | .symlink _ => .leaf .s
  | .directory _ => .d

mutual

/-- The reference stands for the file tree. -/
def Denotes (M : BlobMap) : FsNode → Ref → Prop
  | .regular executable contents, r =>
    r.1 = .leaf (if executable then .x else .r) ∧ M r.2 = some contents
  | .symlink target, r => r.1 = .leaf .s ∧ M r.2 = some target
  | .directory entries, r =>
    r.1 = .d ∧ ∃ buf es, M r.2 = some buf ∧ decodeTree buf = .ok es ∧ DenotesAll M entries es

/-- The entries of a directory stand for files under their names. -/
def DenotesAll (M : BlobMap) : List (Bytes × FsNode) → List TreeEntry → Prop
  | [], [] => True
  | (name, sub) :: rest, e :: es => e.name = name ∧ Denotes M sub e.ref ∧ DenotesAll M rest es
  | _, _ => False

end

/-- The file a leaf stands for. -/
def leafFile (t : LeafType) (d : Bytes) : FsNode :=
  match t with
  | .r => .regular false d
  | .x => .regular true d
  | .s => .symlink d

/-! ## Every shallow tree is spelt out -/

section

variable {M M' : BlobMap} {x y : Ref} {n k : Nat} {id buf : Bytes} {es : List TreeEntry}

/-- A blob denotes a leaf. -/
theorem denotes_leaf {file : FsNode} {t : LeafType} :
    Denotes M file (.leaf t, id) ↔ ∃ d, M id = some d ∧ file = leafFile t d := by
  unfold leafFile
  cases file with
  | regular executable contents =>
    unfold Denotes
    cases executable <;> cases t <;> simp
  | symlink target =>
    unfold Denotes
    cases t <;> simp
  | directory entries =>
    unfold Denotes
    cases t <;> simp

/-- A directory object denotes a directory of what its entries denote. -/
theorem denotes_directory {file : FsNode} :
    Denotes M file (.d, id) ↔ ∃ entries buf es, file = .directory entries ∧ M id = some buf ∧
      decodeTree buf = .ok es ∧ DenotesAll M entries es := by
  constructor
  · intro h
    cases file with
    | regular => unfold Denotes at h; cases h.1
    | symlink => unfold Denotes at h; cases h.1
    | directory entries =>
      unfold Denotes at h
      obtain ⟨-, buf, es, hbuf, hes, hall⟩ := h
      exact ⟨entries, buf, es, rfl, hbuf, hes, hall⟩
  · rintro ⟨entries, buf, es, rfl, hbuf, hes, hall⟩
    unfold Denotes
    exact ⟨rfl, buf, es, hbuf, hes, hall⟩

/-- A leaf has no depth. -/
theorem within_leafFile (t : LeafType) (d : Bytes) : FsNode.Within k (leafFile t d) := by
  cases t
  · exact .regular
  · exact .regular
  · exact .symlink

/-- A step down. -/
theorem Shallow.entry (h : Shallow M k (.d, id)) (hbuf : M id = some buf)
    (hes : decodeTree buf = .ok es) {e : TreeEntry} (he : e ∈ es) :
    0 < k ∧ Shallow M (k - 1) e.ref := by
  have hone := h 1 e.ref (.step hbuf hes he .refl)
  refine ⟨by omega, fun n y hy => ?_⟩
  have hle := h (n + 1) y (.step hbuf hes he hy)
  omega

/-- Entries that each denote something denote a directory's entries. -/
theorem exists_denotesAll
    (h : ∀ e ∈ es, 0 < k ∧ ∃ file, Denotes M file e.ref ∧ FsNode.Within (k - 1) file) :
    ∃ entries, DenotesAll M entries es ∧ ∀ c ∈ entries, 0 < k ∧ FsNode.Within (k - 1) c.2 := by
  induction es with
  | nil =>
    refine ⟨[], ?_, nofun⟩
    unfold DenotesAll
    trivial
  | cons e es ih =>
    obtain ⟨hk, file, hfile, hin⟩ := h e (.head _)
    obtain ⟨entries, hall, hrest⟩ := ih fun e he => h e (.tail _ he)
    refine ⟨(e.name, file) :: entries, ?_, ?_⟩
    · unfold DenotesAll
      exact ⟨rfl, hfile, hall⟩
    · intro c hc
      rcases List.mem_cons.1 hc with rfl | hc
      · exact ⟨hk, hin⟩
      · exact hrest c hc

/-- What is there in full, and not too deep, is a file tree. -/
theorem exists_denotes (hx : Whole M x) (hk : Shallow M k x) :
    ∃ file, Denotes M file x ∧ FsNode.Within k file := by
  induction k using Nat.strongRecOn generalizing x with
  | ind k ih =>
    obtain ⟨t, id⟩ := x
    obtain ⟨buf, hbuf, hdir⟩ := hx.present
    cases t with
    | leaf t =>
      exact ⟨leafFile t buf, denotes_leaf.2 ⟨buf, hbuf, rfl⟩, within_leafFile t buf⟩
    | d =>
      obtain ⟨es, hes⟩ := hdir rfl
      have hentries (e : TreeEntry) (he : e ∈ es) :
          0 < k ∧ ∃ file, Denotes M file e.ref ∧ FsNode.Within (k - 1) file := by
        obtain ⟨hpos, hshallow⟩ := hk.entry hbuf hes he
        exact ⟨hpos, ih (k - 1) (by omega) ((whole_dir hbuf hes).1 hx e he) hshallow⟩
      obtain ⟨entries, hall, hin⟩ := exists_denotesAll hentries
      exact ⟨.directory entries, denotes_directory.2 ⟨entries, buf, es, rfl, hbuf, hes, hall⟩,
        .directory (fun c hc => (hin c hc).1) fun c hc => (hin c hc).2⟩

/-- The files of the entries. -/
theorem DenotesAll.mem {entries : List (Bytes × FsNode)} (h : DenotesAll M entries es) {e : TreeEntry}
    (he : e ∈ es) : ∃ c ∈ entries, Denotes M c.2 e.ref := by
  induction es generalizing entries with
  | nil => cases he
  | cons e' es ih =>
    cases entries with
    | nil => unfold DenotesAll at h; exact h.elim
    | cons c entries =>
      obtain ⟨name, sub⟩ := c
      unfold DenotesAll at h
      rcases List.mem_cons.1 he with rfl | he
      · exact ⟨_, .head _, h.2.1⟩
      · obtain ⟨c, hc, hd⟩ := ih h.2.2 he
        exact ⟨c, .tail _ hc, hd⟩

/-- The type of a reference is that of the file. -/
theorem Denotes.type {file : FsNode} (h : Denotes M file x) : x.1 = file.type := by
  cases file <;> unfold Denotes at h <;> exact h.1

/-- A tree that is spelt out is there, and as deep as the file tree. -/
theorem Denotes.below {file : FsNode} (h : Denotes M file x) (hk : FsNode.Within k file)
    (hy : Below M n x y) : n ≤ k ∧ Present M y := by
  induction hy generalizing file k with
  | @refl x =>
    refine ⟨Nat.zero_le _, ?_⟩
    cases file with
    | regular executable contents =>
      unfold Denotes at h
      exact ⟨contents, h.2, fun hd => by rw [h.1] at hd; cases hd⟩
    | symlink target =>
      unfold Denotes at h
      exact ⟨target, h.2, fun hd => by rw [h.1] at hd; cases hd⟩
    | directory entries =>
      unfold Denotes at h
      obtain ⟨-, buf, es, hbuf, hes, -⟩ := h
      exact ⟨buf, hbuf, fun _ => ⟨es, hes⟩⟩
  | @step n id buf es e y hbuf hes he _ ih =>
    cases file with
    | regular => unfold Denotes at h; cases h.1
    | symlink => unfold Denotes at h; cases h.1
    | directory entries =>
      unfold Denotes at h
      obtain ⟨-, buf', es', hbuf', hes', hall⟩ := h
      obtain rfl := Option.some.inj (hbuf.symm.trans hbuf')
      obtain rfl := Except.ok.inj (hes.symm.trans hes')
      obtain ⟨c, hc, hd⟩ := hall.mem he
      cases hk with
      | directory hpos hin =>
        have hpos := hpos c hc
        obtain ⟨hle, hpresent⟩ := ih hd (hin c hc)
        exact ⟨by omega, hpresent⟩

/-- A tree of a certain depth has no path that is longer. -/
theorem Denotes.shallow {file : FsNode} (h : Denotes M file x) (hk : FsNode.Within k file) :
    Shallow M k x := fun _ _ hy => (h.below hk hy).1

/-- What is reached is reached in some number of steps. -/
theorem Reach.exists_below (h : Reach M x y) : ∃ n, Below M n x y := by
  induction h with
  | refl => exact ⟨0, .refl⟩
  | step hbuf hes he _ ih =>
    obtain ⟨n, hn⟩ := ih
    exact ⟨n + 1, .step hbuf hes he hn⟩

/-- What denotes a tree is whole. -/
theorem Denotes.whole {file : FsNode} (h : Denotes M file x) (hk : FsNode.Within k file) :
    Whole M x := by
  intro y hy
  obtain ⟨n, hn⟩ := hy.exists_below
  exact (h.below hk hn).2

/-! ## The names of file trees -/

mutual

/-- Where objects are filed under their hashes, a file tree has one reference. -/
theorem Denotes.canonical {ext : Ext} {S S' : Bytes → Prop} (hM : Indexed ext S M)
    (hM' : Indexed ext S' M') (file : FsNode) {x y : Ref} (hx : Denotes M file x)
    (hy : Denotes M' file y) : x = y := by
  obtain ⟨t, id⟩ := x
  obtain ⟨t', id'⟩ := y
  obtain rfl : t = t' := hx.type.trans hy.type.symm
  have hid {d : Bytes} (h : M id = some d) (h' : M' id' = some d) : id = id' :=
    (hM id d h).2.symm.trans (hM' id' d h').2
  cases file with
  | regular executable contents =>
    unfold Denotes at hx hy
    rw [hid hx.2 hy.2]
  | symlink target =>
    unfold Denotes at hx hy
    rw [hid hx.2 hy.2]
  | directory entries =>
    unfold Denotes at hx hy
    obtain ⟨-, buf, es, hbuf, hes, hall⟩ := hx
    obtain ⟨-, buf', es', hbuf', hes', hall'⟩ := hy
    obtain rfl := DenotesAll.canonical hM hM' entries hall hall'
    -- a buffer that is read is the encoding of what it is read as
    obtain rfl : buf = buf' := (decodeTree_ok hes).1.symm.trans (decodeTree_ok hes').1
    rw [hid hbuf hbuf']

/-- The entries of two directories with the same contents are the same. -/
theorem DenotesAll.canonical {ext : Ext} {S S' : Bytes → Prop} (hM : Indexed ext S M)
    (hM' : Indexed ext S' M') (entries : List (Bytes × FsNode)) {es es' : List TreeEntry}
    (h : DenotesAll M entries es) (h' : DenotesAll M' entries es') : es = es' := by
  cases entries with
  | nil =>
    cases es with
    | cons => unfold DenotesAll at h; exact h.elim
    | nil =>
      cases es' with
      | cons => unfold DenotesAll at h'; exact h'.elim
      | nil => rfl
  | cons c entries =>
    obtain ⟨name, sub⟩ := c
    cases es with
    | nil => unfold DenotesAll at h; exact h.elim
    | cons e es =>
      cases es' with
      | nil => unfold DenotesAll at h'; exact h'.elim
      | cons e' es' =>
        unfold DenotesAll at h h'
        have href := Denotes.canonical hM hM' sub h.2.1 h'.2.1
        rw [DenotesAll.canonical hM hM' entries h.2.2 h'.2.2]
        obtain ⟨ename, etype, eid⟩ := e
        obtain ⟨ename', etype', eid'⟩ := e'
        obtain ⟨rfl, rfl⟩ := Prod.mk.inj (show (etype, eid) = (etype', eid') from href)
        rw [show ename = ename' from h.1.trans h'.1.symm]

end

mutual

/-- A reference goes on to stand for a file tree when objects are added. -/
theorem Denotes.mono (hg : Grows M M') (file : FsNode) {x : Ref} (h : Denotes M file x) :
    Denotes M' file x := by
  cases file with
  | regular executable contents =>
    unfold Denotes at h ⊢
    exact ⟨h.1, hg _ _ h.2⟩
  | symlink target =>
    unfold Denotes at h ⊢
    exact ⟨h.1, hg _ _ h.2⟩
  | directory entries =>
    unfold Denotes at h ⊢
    obtain ⟨htype, buf, es, hbuf, hes, hall⟩ := h
    exact ⟨htype, buf, es, hg _ _ hbuf, hes, DenotesAll.mono hg entries hall⟩

/-- They denote the same in a greater store. -/
theorem DenotesAll.mono (hg : Grows M M') (entries : List (Bytes × FsNode)) {es : List TreeEntry}
    (h : DenotesAll M entries es) : DenotesAll M' entries es := by
  cases entries with
  | nil =>
    cases es with
    | nil => unfold DenotesAll; trivial
    | cons => unfold DenotesAll at h; exact h.elim
  | cons c entries =>
    obtain ⟨name, sub⟩ := c
    cases es with
    | nil => unfold DenotesAll at h; exact h.elim
    | cons e es =>
      unfold DenotesAll at h ⊢
      exact ⟨h.1, Denotes.mono hg sub h.2.1, DenotesAll.mono hg entries h.2.2⟩

end

/-- A file tree that is not of the type of a reference is not what it stands for. -/
theorem Denotes.same_type {file file' : FsNode} (h : Denotes M file x) (h' : Denotes M' file' x) :
    file.type = file'.type := h.type.symm.trans h'.type

mutual

/-- In indexes that agree on what they both have, a reference stands for one file tree. -/
theorem Denotes.same (hM : ∀ id d d', M id = some d → M' id = some d' → d = d') (file : FsNode)
    {file' : FsNode} {x : Ref} (h : Denotes M file x) (h' : Denotes M' file' x) : file = file' := by
  have htype := h.same_type h'
  cases file with
  | regular executable contents =>
    cases file' with
    | regular executable' contents' =>
      unfold Denotes at h h'
      obtain rfl : executable = executable' := by
        cases executable <;> cases executable' <;> simp_all [FsNode.type]
      rw [hM _ _ _ h.2 h'.2]
    | symlink => cases executable <;> cases htype
    | directory => cases htype
  | symlink target =>
    cases file' with
    | regular executable' contents' => cases executable' <;> cases htype
    | symlink target' =>
      unfold Denotes at h h'
      rw [hM _ _ _ h.2 h'.2]
    | directory => cases htype
  | directory entries =>
    cases file' with
    | regular => cases htype
    | symlink => cases htype
    | directory entries' =>
      unfold Denotes at h h'
      obtain ⟨-, buf, es, hbuf, hes, hall⟩ := h
      obtain ⟨-, buf', es', hbuf', hes', hall'⟩ := h'
      obtain rfl := hM _ _ _ hbuf hbuf'
      obtain rfl := Except.ok.inj (hes.symm.trans hes')
      rw [DenotesAll.same hM entries hall hall']

/-- They denote one list of files. -/
theorem DenotesAll.same (hM : ∀ id d d', M id = some d → M' id = some d' → d = d')
    (entries : List (Bytes × FsNode)) {entries' : List (Bytes × FsNode)} {es : List TreeEntry}
    (h : DenotesAll M entries es) (h' : DenotesAll M' entries' es) : entries = entries' := by
  cases entries with
  | nil =>
    cases es with
    | cons => unfold DenotesAll at h; exact h.elim
    | nil =>
      cases entries' with
      | nil => rfl
      | cons => unfold DenotesAll at h'; exact h'.elim
  | cons c entries =>
    obtain ⟨name, sub⟩ := c
    cases es with
    | nil => unfold DenotesAll at h; exact h.elim
    | cons e es =>
      cases entries' with
      | nil => unfold DenotesAll at h'; exact h'.elim
      | cons c' entries' =>
        obtain ⟨name', sub'⟩ := c'
        unfold DenotesAll at h h'
        rw [Denotes.same hM sub h.2.1 h'.2.1, DenotesAll.same hM entries h.2.2 h'.2.2, ← h.1, ← h'.1]

end

/-- A reference stands for one file tree only. -/
theorem Denotes.unique {file file' : FsNode} (h : Denotes M file x) (h' : Denotes M file' x) :
    file = file' :=
  h.same (fun _ _ _ hd hd' => Option.some.inj (hd.symm.trans hd')) file h'

/-- If no two objects collide, a reference stands for one file tree in all indexes. -/
theorem Denotes.faithful {ext : Ext} {S : Bytes → Prop} (hS : NoCollision ext S)
    (hM : Indexed ext S M) (hM' : Indexed ext S M') {file file' : FsNode} (h : Denotes M file x)
    (h' : Denotes M' file' x) : file = file' := by
  refine Denotes.same (fun id d d' hd hd' => ?_) file h h'
  obtain ⟨hSd, hhash⟩ := hM _ _ hd
  obtain ⟨hSd', hhash'⟩ := hM' _ _ hd'
  exact hS _ _ hSd hSd' (hhash.trans hhash'.symm)

mutual

/-- The directories of a file tree that is spelt out are sorted. -/
theorem Denotes.ordered (file : FsNode) {x : Ref} (h : Denotes M file x) : file.Ordered := by
  cases file with
  | regular => exact .regular
  | symlink => exact .symlink
  | directory entries =>
    unfold Denotes at h
    obtain ⟨-, buf, es, -, hes, hall⟩ := h
    obtain ⟨hnames, hsub⟩ := DenotesAll.ordered entries hall
    refine .directory ?_ hsub
    rw [← List.pairwise_map (R := fun a b => a < b), ← hnames, List.pairwise_map]
    exact (decodeTree_ok hes).2.1.pairwise.1

/-- Their names are those of the files, in order. -/
theorem DenotesAll.ordered (entries : List (Bytes × FsNode)) {es : List TreeEntry}
    (h : DenotesAll M entries es) :
    es.map TreeEntry.name = entries.map Prod.fst ∧ ∀ c ∈ entries, FsNode.Ordered c.2 := by
  cases entries with
  | nil =>
    cases es with
    | nil => exact ⟨rfl, nofun⟩
    | cons => unfold DenotesAll at h; exact h.elim
  | cons c entries =>
    obtain ⟨name, sub⟩ := c
    cases es with
    | nil => unfold DenotesAll at h; exact h.elim
    | cons e es =>
      unfold DenotesAll at h
      obtain ⟨hnames, hsub⟩ := DenotesAll.ordered entries h.2.2
      refine ⟨by rw [List.map_cons, List.map_cons, hnames, h.1], fun c hc => ?_⟩
      rcases List.mem_cons.1 hc with rfl | hc
      · exact Denotes.ordered sub h.2.1
      · exact hsub c hc

end

end

end Tarmac.Tree
