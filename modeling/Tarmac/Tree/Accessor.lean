import Tarmac.Lib.Leads
import Tarmac.Tree.Canonical
import Tarmac.Tree.Walker

/-!
# What an accessor presents

The eval store serves an object through an accessor: `PackAccessor` (`plugin/pack_accessor.hh`) for a
directory, `BlobAccessor` (`plugin/store.cc`) for a single file or symlink. An accessor presents what
its object stands for, path by path, if that is not deeper than `kMaxTreeDepth`
(`presents_of_within`), and not otherwise (`not_presents`).
-/

namespace Tarmac.Tree

open PackCas

/-! ## The interface -/

/-- `nix::SourceAccessor::Type`, as far as it is used. -/
inductive FsType where
  | tRegular
  | tSymlink
  | tDirectory
  deriving DecidableEq, Repr

/-- `tarmac_entry_type`. -/
def tarmacEntryType : EntryType → FsType
  | .d => .tDirectory
  | .leaf .s => .tSymlink
  | .leaf .r | .leaf .x => .tRegular

/-- `nix::SourceAccessor::Stat`. -/
structure Stat where
  type : FsType
  fileSize : Option Nat
  isExecutable : Bool
  deriving DecidableEq, Repr

/-- A component of a canonical path. The name of a file in a NAR is one. -/
def IsName (comp : Bytes) : Prop :=
  comp ≠ [] ∧ 47 ∉ comp ∧ comp ≠ ascii ['.'] ∧ comp ≠ ascii ['.', '.']

/-- `nix::CanonPath`. -/
structure CanonPath where
  comps : List Bytes
  canon : ∀ comp ∈ comps, IsName comp

/-- `CanonPath::rel`. -/
def CanonPath.rel (path : CanonPath) : Bytes := [47].intercalate path.comps

/-- The path as it stands in a message. -/
def CanonPath.abs (path : CanonPath) : String := text (47 :: path.rel)

/-- A call on a `nix::SourceAccessor`. -/
inductive AccessCall where
  | readFile (path : CanonPath)
  | pathExists (path : CanonPath)
  | maybeLstat (path : CanonPath)
  | readDirectory (path : CanonPath)
  | readLink (path : CanonPath)

/-- The path a call is about. -/
def AccessCall.path : AccessCall → CanonPath
  | readFile path | pathExists path | maybeLstat path | readDirectory path | readLink path => path

/-- What a call answers; `readFile` gives the size to one callback and the contents to another. -/
def AccessCall.Answer : AccessCall → Type
  | readFile _ => Nat × Bytes
  | pathExists _ => Bool
  | maybeLstat _ => Option Stat
  | readDirectory _ => List (Bytes × FsType)
  | readLink _ => Bytes

/-! ## The accessors -/

/-- `TreeStore::readBlob`. -/
def readBlob (blobId : Bytes) : TreeM Bytes := do
  match ← Cas.get blobId with
  | none => Eff.throw (.corrupt "missing blob")
  | some out => pure out

/-- `TreeStore::blobSize`. -/
def blobSize (blobId : Bytes) : TreeM (Option Nat) := Cas.size blobId

/-- The exceptions `PackAccessor::healing` catches, and the one it throws for them. -/
def Err.healed : Err → Option Err
  | .corrupt msg => some (.runtime ("tarmac cache is corrupt (" ++ msg ++ ")"))
  | _ => none

/-- `PackAccessor::healing`, without a hook. -/
def healing {α : Type} (m : WalkM α) : WalkM α :=
  Eff.catchIf (fun e => (Err.healed e).isSome) m fun e => Eff.throw ((Err.healed e).getD e)

/-- `PackAccessor::find`. -/
def PackAccessor.find (root : Bytes) (path : CanonPath) : WalkM (Option TreeEntry) :=
  healing (lookup root path.rel)

/-- The part of `maybeLstat` that is common to the accessors. -/
def statOf (type : EntryType) (id : Bytes) : WalkM Stat :=
  if tarmacEntryType type = .tRegular then do
    let size ← (blobSize id).onFst
    pure ⟨.tRegular, size, decide (type = .leaf .x)⟩
  else pure ⟨tarmacEntryType type, none, false⟩

def notRegular (path : CanonPath) : Err :=
  .runtime ("path '" ++ path.abs ++ "' is not a regular file")
def missingBlob (path : CanonPath) : Err := .runtime ("missing blob for '" ++ path.abs ++ "'")
def notDirectory (path : CanonPath) : Err :=
  .runtime ("path '" ++ path.abs ++ "' is not a directory")
def notSymlink (path : CanonPath) : Err := .runtime ("path '" ++ path.abs ++ "' is not a symlink")

/-- `PackAccessor`. The entries `readTree` returns are sorted as those of `DirEntries` are. -/
def PackAccessor.code (root : Bytes) : (c : AccessCall) → WalkM c.Answer
  | .readFile path => do
    match ← find root path with
    | none => Eff.throw (notRegular path)
    | some entry =>
      if entry.type = .d ∨ entry.type = .leaf .s then Eff.throw (notRegular path)
      else
        match ← healing (readBlobView entry.id).onFst with
        | none => Eff.throw (missingBlob path)
        | some contents => pure (contents.length, contents)
  | .pathExists path => do
    let entry ← find root path
    pure entry.isSome
  | .maybeLstat path => do
    match ← find root path with
    | none => pure none
    | some entry => do
      let info ← statOf entry.type entry.id
      pure (some info)
  | .readDirectory path => do
    match ← find root path with
    | none => Eff.throw (notDirectory path)
    | some entry =>
      if entry.type ≠ .d then Eff.throw (notDirectory path)
      else do
        let children ← healing (readTree entry.id).onFst
        pure (children.map fun child => (child.name, tarmacEntryType child.type))
  | .readLink path => do
    match ← find root path with
    | none => Eff.throw (notSymlink path)
    | some entry =>
      if entry.type ≠ .leaf .s then Eff.throw (notSymlink path)
      else healing (readBlob entry.id).onFst

/-- `CanonPath::isRoot`. -/
def CanonPath.isRoot (path : CanonPath) : Bool := path.comps.isEmpty

/-- `BlobAccessor`. -/
def BlobAccessor.code (type : LeafType) (id : Bytes) : (c : AccessCall) → WalkM c.Answer
  | .readFile path =>
    if !path.isRoot || decide (type = .s) then Eff.throw (notRegular path)
    else do
      match ← (readBlobView id).onFst with
      | none => Eff.throw (missingBlob path)
      | some contents => pure (contents.length, contents)
  | .pathExists path => pure path.isRoot
  | .maybeLstat path =>
    if !path.isRoot then pure none
    else do
      let info ← statOf (.leaf type) id
      pure (some info)
  | .readDirectory path => Eff.throw (notDirectory path)
  | .readLink path =>
    if !path.isRoot || decide (type ≠ .s) then Eff.throw (notSymlink path)
    else (readBlob id).onFst

/-! ## What a file tree presents -/

/-- The file at a path. -/
def FsNode.at : FsNode → List Bytes → Option FsNode
  | file, [] => some file
  | .directory entries, comp :: comps => (child comp entries).bind fun sub => sub.at comps
  | _, _ :: _ => none

/-- `File::lstat` of a `nix::MemorySourceAccessor`. -/
def FsNode.stat : FsNode → Stat
  | .regular executable contents => ⟨.tRegular, some contents.length, executable⟩
  | .symlink _ => ⟨.tSymlink, none, false⟩
  | .directory _ => ⟨.tDirectory, none, false⟩

/-- What a `nix::MemorySourceAccessor` answers when this is the file at the path, unless it throws. -/
def AccessCall.answer : (c : AccessCall) → Option FsNode → Option c.Answer
  | readFile _, some (.regular _ contents) => some (contents.length, contents)
  | readFile _, _ => none
  | pathExists _, file => some file.isSome
  | maybeLstat _, file => some (file.map FsNode.stat)
  | readDirectory _, some (.directory entries) =>
    some (entries.map fun c => (c.1, c.2.stat.type))
  | readDirectory _, _ => none
  | readLink _, some (.symlink target) => some target
  | readLink _, _ => none

/-- The accessors of the eval store; `memory` is a `nix::MemorySourceAccessor` of one file. -/
inductive Accessor where
  | pack (root : Bytes)
  | blob (type : LeafType) (id : Bytes)
  | memory (contents : Bytes)

/-- The code of a call. -/
def Accessor.code : Accessor → (c : AccessCall) → WalkM c.Answer
  | pack root, c => PackAccessor.code root c
  | blob type id, c => BlobAccessor.code type id c
  | memory contents, c =>
    match c.answer ((FsNode.regular false contents).at c.path.comps) with
    | some a => pure a
    | none => Eff.throw (.runtime "the file is of another type")

/-- `TarmacStore::accessorFor`. -/
def accessorFor (names : PathNames) (cfg : Config) (json : Json) (path : Bytes) :
    TreeM (Option Accessor) := do
  if names.isDerivation path then
    match ← drvText cfg path with
    | none => pure none
    | some contents => pure (some (.memory contents))
  else
    match ← pathRecord cfg json path with
    | none => pure none
    | some record =>
      match record.rootType with
      | .d => pure (some (.pack record.rootId))
      | .leaf type => pure (some (.blob type record.rootId))

/-- An accessor makes a call, and no access to the store fails. -/
def AccessStep (ext : Ext) (p : Nat) (accessor : Accessor) (x : (Pending × Cache) × Sys)
    (l : Σ c : AccessCall, Except Err c.Answer) (x' : (Pending × Cache) × Sys) : Prop :=
  ∃ tr, Prog.Run (sem ext unfailing p) (accessor.code l.1 x.1) x.2 tr (l.2, x'.1) x'.2

/-- A call ends as it does when this is the file at the path: with the same answer, or by throwing. -/
def EndsAs (c : AccessCall) (file : Option FsNode) (y : Except Err c.Answer) : Prop :=
  match c.answer file with
  | some a => y = .ok a
  | none => ∃ e, y = .error e

/-- A call ends as it does on the file tree. -/
def AsOn (file : FsNode) (l : Σ c : AccessCall, Except Err c.Answer) : Prop :=
  EndsAs l.1 (file.at l.1.path.comps) l.2

/-- Whatever calls are made on the accessor, each returns, and as it does on the file tree. -/
def Presents (ext : Ext) (p : Nat) (queue : Pending) (s : Sys) (accessor : Accessor)
    (file : FsNode) : Prop :=
  ∀ ls x, Runs (AccessStep ext p accessor) ((queue, .empty), s) ls x →
    (∀ l ∈ ls, AsOn file l) ∧ ∀ c, ∃ y x', AccessStep ext p accessor x ⟨c, y⟩ x'

/-- The eval store serves the path as the file tree when no call fails; a `getView` that `Mapping::view`
refuses, since the blob ends behind `kMapSize`, is a call that fails. -/
def Serves (ext : Ext) (names : PathNames) (cfg : Config) (json : Json) (p : Nat) (path : Bytes)
    (queue : Pending) (s : Sys) (file : FsNode) : Prop :=
  (∃ tr y s', Prog.Run (sem ext unfailing p) (accessorFor names cfg json path queue) s tr y s') ∧
  ∀ tr x queue' s', Prog.Run (sem ext unfailing p) (accessorFor names cfg json path queue) s tr
    (x, queue') s' → ∃ accessor, x = .ok (some accessor) ∧ Presents ext p queue' s' accessor file

/-! ## Splitting a path -/

/-- `split_path` takes a canonical path apart, unless it is too long. -/
theorem splitPath_rel (path : CanonPath) : splitPath path.rel =
    if (∀ comp ∈ path.comps, comp.length ≤ kMaxNameLen) ∧ path.comps.length ≤ kMaxTreeDepth then
      some path.comps
    else none := by
  have hord : ∀ comp ∈ path.comps, Ordinary comp := fun comp hc =>
    have ⟨hne, hslash, hdot, hdots⟩ := path.canon comp hc
    ⟨hne, hslash, hdot, hdots⟩
  have hsplit : splitPath path.rel = Hop.walkWithin mayEnter (path.comps.map .down) [] := by
    rw [splitPath_eq, CanonPath.rel, hops_join hord]
  rw [hsplit]
  split
  · next hok =>
    obtain ⟨hshort, hdepth⟩ := hok
    refine Hop.walkWithin_down fun pre name post heq => ?_
    rw [List.nil_append] at heq
    have hname := hshort name (heq ▸ List.mem_append_right _ (.head _))
    rw [heq, List.length_append, List.length_cons] at hdepth
    rw [mayEnter, Bool.and_eq_true, decide_eq_true_eq, decide_eq_true_eq]
    omega
  · next hbad =>
    cases hw : Hop.walkWithin mayEnter (path.comps.map .down) [] with
    | none => rfl
    | some comps =>
      obtain rfl : comps = path.comps := by
        rw [Hop.walk_of_within hw, Hop.walk_down, List.nil_append]
      have hsplits := splitsInto_of_splitPath (hsplit.trans hw)
      exact absurd ⟨hsplits.short, hsplits.depth⟩ hbad

/-! ## The files of a file tree -/

/-- What is found under a name is the entry of that name. -/
theorem mem_of_child {α : Type} {entries : List (Bytes × α)} {comp : Bytes} {sub : α}
    (h : child comp entries = some sub) : (comp, sub) ∈ entries := by
  obtain ⟨c, hc, rfl⟩ := Option.map_eq_some_iff.1 h
  have hname := List.find?_some hc
  obtain rfl : c.1 = comp := of_decide_eq_true hname
  exact List.mem_of_find?_eq_some hc

/-- Where the names are ordered, an entry is found under its name. -/
theorem child_of_mem {α : Type} {entries : List (Bytes × α)} {c : Bytes × α}
    (hs : entries.Pairwise fun a b => a.1 < b.1) (hc : c ∈ entries) : child c.1 entries = some c.2 := by
  induction entries with
  | nil => cases hc
  | cons c' entries ih =>
    obtain ⟨hbelow, hrest⟩ := List.pairwise_cons.1 hs
    unfold child
    rw [List.find?_cons]
    rcases List.mem_cons.1 hc with rfl | hc
    · rw [decide_eq_true rfl]
      rfl
    · rw [decide_eq_false (hbelow c hc).ne]
      exact ih hrest hc

section

variable {file sub : FsNode} {comps : List Bytes} {k : Nat}

/-- The empty path leads to the file itself. -/
theorem FsNode.at_nil (file : FsNode) : file.at [] = some file := by
  unfold FsNode.at
  rfl

/-- A path into a directory leads on from its first component. -/
theorem FsNode.at_cons {entries : List (Bytes × FsNode)} {comp : Bytes} :
    (FsNode.directory entries).at (comp :: comps) =
      (child comp entries).bind fun sub => sub.at comps := by
  rw [FsNode.at]

/-- There is nothing below a file that is no directory. -/
theorem FsNode.at_leaf {comp : Bytes} (h : file.type ≠ .d) : file.at (comp :: comps) = none := by
  cases file with
  | regular => rw [FsNode.at]; exact nofun
  | symlink => rw [FsNode.at]; exact nofun
  | directory => exact absurd rfl h

/-- The files of a tree lie as deep as it has levels. -/
theorem FsNode.Within.at (h : Within k file) (hsub : file.at comps = some sub) : comps.length ≤ k := by
  induction comps generalizing file k with
  | nil => exact Nat.zero_le k
  | cons comp comps ih =>
    cases h with
    | regular => cases (at_leaf (by unfold FsNode.type; exact nofun)).symm.trans hsub
    | symlink => cases (at_leaf (by unfold FsNode.type; exact nofun)).symm.trans hsub
    | directory hk hc =>
      rw [at_cons] at hsub
      obtain ⟨node, hchild, hsub⟩ := Option.bind_eq_some_iff.1 hsub
      have hmem := mem_of_child hchild
      have hpos := hk _ hmem
      have hle := ih (hc _ hmem) hsub
      rw [List.length_cons]
      omega

/-- A path whose names are too long leads to nothing. -/
theorem FsNode.Named.at (h : Named file) (hsub : file.at comps = some sub) :
    ∀ comp ∈ comps, comp.length ≤ kMaxNameLen := by
  induction comps generalizing file with
  | nil => simp
  | cons comp comps ih =>
    cases h with
    | regular => cases (at_leaf (by simp [FsNode.type])).symm.trans hsub
    | symlink => cases (at_leaf (by simp [FsNode.type])).symm.trans hsub
    | directory hn hc =>
      rw [at_cons] at hsub
      obtain ⟨node, hchild, hsub⟩ := Option.bind_eq_some_iff.1 hsub
      have hmem := mem_of_child hchild
      rintro comp' hcomp
      rcases List.mem_cons.1 hcomp with rfl | hcomp
      · exact hn _ hmem
      · exact ih (hc _ hmem) hsub comp' hcomp

/-- A tree with more levels has a file that lies deeper. -/
theorem FsNode.exists_deep (ho : file.Ordered) (h : ¬Within k file) :
    ∃ comps sub, comps.length = k + 1 ∧ file.at comps = some sub := by
  induction k generalizing file with
  | zero =>
    cases ho with
    | regular => exact absurd .regular h
    | symlink => exact absurd .symlink h
    | @directory entries hs hc =>
      cases entries with
      | nil => exact absurd (.directory (by simp) (by simp)) h
      | cons c entries =>
        refine ⟨[c.1], c.2, rfl, ?_⟩
        rw [at_cons, child_of_mem hs (.head _)]
        exact at_nil _
  | succ k ih =>
    cases ho with
    | regular => exact absurd .regular h
    | symlink => exact absurd .symlink h
    | @directory entries hs hc =>
      obtain ⟨c, hmem, hdeep⟩ : ∃ c ∈ entries, ¬Within k c.2 := by
        by_contra hall
        refine h (.directory (fun _ _ => Nat.succ_pos k) fun c hmem => ?_)
        by_contra hdeep
        exact hall ⟨c, hmem, hdeep⟩
      obtain ⟨comps, sub, hlen, hsub⟩ := ih (hc c hmem) hdeep
      refine ⟨c.1 :: comps, sub, by rw [List.length_cons, hlen], ?_⟩
      rw [at_cons, child_of_mem hs hmem]
      exact hsub

/-- The names of a tree are names of files in a NAR. -/
def FsNode.Canonical (file : FsNode) : Prop :=
  ∀ entries, FsNode.Subtree (.directory entries) file → ∀ c ∈ entries, IsName c.1

/-- What lies in a canonical directory is canonical. -/
theorem FsNode.Canonical.entry {entries : List (Bytes × FsNode)} (h : Canonical (.directory entries))
    {c : Bytes × FsNode} (hc : c ∈ entries) : Canonical c.2 :=
  fun entries' hsub => h entries' (.entry hc hsub)

/-- The path of a file is a canonical path. -/
theorem FsNode.Canonical.at (h : Canonical file) (hsub : file.at comps = some sub) :
    ∀ comp ∈ comps, IsName comp := by
  induction comps generalizing file with
  | nil => simp
  | cons comp comps ih =>
    cases file with
    | regular => cases (at_leaf (by simp [FsNode.type])).symm.trans hsub
    | symlink => cases (at_leaf (by simp [FsNode.type])).symm.trans hsub
    | directory entries =>
      rw [at_cons] at hsub
      obtain ⟨node, hchild, hsub⟩ := Option.bind_eq_some_iff.1 hsub
      have hmem := mem_of_child hchild
      rintro comp' hcomp
      rcases List.mem_cons.1 hcomp with rfl | hcomp
      · exact h entries .refl _ hmem
      · exact ih (h.entry hmem) hsub comp' hcomp

end

/-! ## Reading -/

/-- Every run of the program in which no call fails leaves the store as it is, and ends in `Q`. -/
def Reads {σ α : Type} (ext : Ext) (p : Nat) (s : Sys) (Q : Except Err α → σ → Prop)
    (m : Eff sig σ Err α) (x : σ) : Prop :=
  Eff.Leads (sem ext unfailing p) (fun y x' s' => s' = s ∧ Q y x') m x s

section

variable {ext : Ext} {p : Nat} {s : Sys} {σ α β : Type} {x : σ} {Q : Except Err α → σ → Prop}

theorem Reads.pure {a : α} (h : Q (.ok a) x) : Reads ext p s Q (Pure.pure a) x :=
  Eff.Leads.pure ⟨rfl, h⟩

theorem Reads.throw {e : Err} (h : Q (.error e) x) : Reads ext p s Q (Eff.throw e) x :=
  Eff.Leads.throw ⟨rfl, h⟩

theorem Reads.mono {T : Except Err α → σ → Prop} {m : Eff sig σ Err α} (hm : Reads ext p s Q m x)
    (h : ∀ y x', Q y x' → T y x') : Reads ext p s T m x :=
  Eff.Leads.mono hm fun y x' _ hx => ⟨hx.1, h y x' hx.2⟩

/-- One program after another; an exception of the first ends both. -/
theorem Reads.bind {P : Except Err β → σ → Prop} {m : Eff sig σ Err β} {f : β → Eff sig σ Err α}
    (hm : Reads ext p s P m x) (hok : ∀ b x', P (.ok b) x' → Reads ext p s Q (f b) x')
    (herr : ∀ e x', P (.error e) x' → Q (.error e) x') : Reads ext p s Q (m >>= f) x := by
  refine Eff.Leads.seq hm ?_ ?_
  · rintro b x' _ ⟨rfl, hP⟩
    exact hok b x' hP
  · rintro e x' s' ⟨hs, hP⟩
    exact ⟨hs, herr e x' hP⟩

/-- After a program that answers. -/
theorem Reads.then {P : σ → Prop} {b : β} {m : Eff sig σ Err β} {f : β → Eff sig σ Err α}
    (hm : Reads ext p s (fun y x' => y = .ok b ∧ P x') m x) (hf : ∀ x', P x' → Reads ext p s Q (f b) x') :
    Reads ext p s Q (m >>= f) x := by
  refine hm.bind ?_ ?_
  · rintro b' x' ⟨hb, hP⟩
    cases hb
    exact hf x' hP
  · rintro e x' ⟨he, -⟩
    cases he

theorem Reads.onFst {τ : Type} {Q : Except Err α → σ × τ → Prop} {m : Eff sig σ Err α} {t : τ}
    (hm : Reads ext p s (fun y x' => Q y (x', t)) m x) : Reads ext p s Q m.onFst (x, t) :=
  Eff.Leads.onFst hm

/-- `healing` passes on an answer. -/
theorem Reads.healing {P : Pending × Cache → Prop} {a : α} {m : WalkM α} {x : Pending × Cache}
    (hm : Reads ext p s (fun y x' => y = .ok a ∧ P x') m x) :
    Reads ext p s (fun y x' => y = .ok a ∧ P x') (healing m) x := by
  refine Eff.Leads.catchIf hm (fun _ _ _ h => h) ?_ ?_
  · rintro e x' s' ⟨-, he, -⟩
    cases he
  · rintro e x' s' ⟨-, he, -⟩
    cases he

/-- A call that looks an object up. -/
theorem reads_ask {c : Call} {hc : c.Resp = Except Err α} {a : α} {queue : Pending}
    (h : ∀ ch r s', ch.fail = none → exec ext p ch c s = some (r, s') → s' = s ∧ hc ▸ r = Except.ok a) :
    Reads ext p s (fun y queue' => y = .ok a ∧ queue' = queue) (ask c hc) queue := by
  refine Eff.Leads.perform fun r s' hstep => ?_
  obtain ⟨ch, hch, hx⟩ := hstep
  obtain ⟨rfl, hr⟩ := h ch r s' hch hx
  exact Eff.Leads.ofExcept ⟨rfl, hr, rfl⟩

/-- A read that does not fail answers what is there. -/
theorem read_ok {ch : Choice} {a : α} (hch : ch.fail = none) : ch.read a = .ok a := by
  unfold Choice.read
  rw [hch]

theorem lookup_ok {ch : Choice} {id : Bytes} {a : α} (hch : ch.fail = none)
    (hlen : id.length = kHashLen) : ch.lookup id a = .ok a := by
  unfold Choice.lookup
  rw [if_neg (not_not.2 hlen)]
  exact read_ok hch

variable {id : Bytes} {queue : Pending}

/-- `meta_get` reads the record. -/
theorem reads_metaGet {key : Bytes} :
    Reads ext p s (fun y queue' => y = .ok ((s.model p).view.records.find? key) ∧ queue' = queue)
      (Cas.metaGet key) queue :=
  reads_ask fun ch r s' hch hx => by
    cases hx
    exact ⟨rfl, read_ok hch⟩

/-- `meta_scan` reads the records with the prefix. -/
theorem reads_metaScan {pre : Bytes} :
    Reads ext p s (fun y queue' => y = .ok ((s.model p).view.scan pre) ∧ queue' = queue)
      (Cas.metaScan pre) queue :=
  reads_ask fun ch r s' hch hx => by
    cases hx
    exact ⟨rfl, read_ok hch⟩

/-- `get` reads the blob. -/
theorem reads_get (hlen : id.length = kHashLen) :
    Reads ext p s (fun y queue' => y = .ok (s.blobs p id) ∧ queue' = queue) (Cas.get id) queue :=
  reads_ask fun ch r s' hch hx => by
    cases hx
    exact ⟨rfl, lookup_ok hch hlen⟩

theorem reads_readBlobView (hlen : id.length = kHashLen) :
    Reads ext p s (fun y queue' => y = .ok (s.blobs p id) ∧ queue' = queue) (readBlobView id) queue := by
  unfold readBlobView Cas.getView
  refine reads_ask fun ch r s' hch hx => ?_
  cases hx
  exact ⟨rfl, lookup_ok hch hlen⟩

/-- `blobSize` reads its length. -/
theorem reads_blobSize (hlen : id.length = kHashLen) :
    Reads ext p s (fun y queue' => y = .ok ((s.blobs p id).map List.length) ∧ queue' = queue)
      (blobSize id) queue := by
  unfold blobSize Cas.size
  refine reads_ask fun ch r s' hch hx => ?_
  cases hx
  exact ⟨rfl, lookup_ok hch hlen⟩

/-- `readBlob` reads a blob that is there. -/
theorem reads_readBlob {d : Bytes} (hlen : id.length = kHashLen) (hd : s.blobs p id = some d) :
    Reads ext p s (fun y queue' => y = .ok d ∧ queue' = queue) (readBlob id) queue := by
  refine (reads_get hlen).then ?_
  rintro _ rfl
  rw [hd]
  exact .pure ⟨rfl, rfl⟩

/-- `readTree` reads the entries of a directory. -/
theorem reads_readTree {es : List TreeEntry} (h : treeAt (s.blobs p) id = .ok es) :
    Reads ext p s (fun y queue' => y = .ok es ∧ queue' = queue) (readTree id) queue := by
  obtain ⟨d, hd, hes⟩ := treeAt_ok h
  have hlen : id.length = kHashLen := by
    by_contra hlen
    unfold treeAt at h
    rw [if_pos hlen] at h
    cases h
  refine (reads_get hlen).then ?_
  rintro _ rfl
  rw [hd]
  exact Eff.Leads.ofExcept ⟨rfl, hes, rfl⟩

/-- What the cache keeps is right. -/
def Clean (M : BlobMap) (cache : Cache) : Prop :=
  ∀ id es, cache.find? id = some es → treeAt M id = .ok es

/-- So does the walker, whose cache stays clean. -/
theorem reads_walkerTree {es : List TreeEntry} {cache : Cache} (hclean : Clean (s.blobs p) cache)
    (h : treeAt (s.blobs p) id = .ok es) :
    Reads ext p s (fun y x' => y = .ok es ∧ Clean (s.blobs p) x'.2) (walkerTree id) (queue, cache) := by
  refine Eff.Leads.get ?_
  dsimp only
  cases hfind : cache.find? id with
  | some es' =>
    obtain rfl : es' = es := Except.ok.inj ((hclean id es' hfind).symm.trans h)
    exact Reads.pure ⟨rfl, hclean⟩
  | none =>
    refine Eff.Leads.modify (Reads.then (b := es) (P := fun x' => x'.2 = cache.insert id [])
      (.onFst ?_) ?_)
    · refine (reads_readTree h).mono ?_
      rintro y _ ⟨hy, rfl⟩
      exact ⟨hy, rfl⟩
    · rintro ⟨queue', _⟩ rfl
      refine Eff.Leads.modify (Reads.pure ⟨rfl, ?_⟩)
      intro id' es' hfind'
      rw [SortedMap.find?_insert] at hfind'
      split at hfind'
      · next heq =>
        subst heq
        cases hfind'
        exact h
      · next hne =>
        rw [SortedMap.find?_insert_of_ne hne] at hfind'
        exact hclean id' es' hfind'

end

/-! ## Looking up -/

section

variable {ext : Ext} {p : Nat} {s : Sys} {M : BlobMap} {file : FsNode} {queue : Pending} {cache : Cache}

/-- A directory that is there can be read. -/
theorem treeAt_of_denotes {id buf : Bytes} {es : List TreeEntry} (hM : Keyed M) (hbuf : M id = some buf)
    (hes : decodeTree buf = .ok es) : treeAt M id = .ok es := by
  unfold treeAt
  rw [if_neg (not_not.2 (hM id (by rw [hbuf]; rfl))), hbuf]
  exact hes

/-- An entry with the name of a file stands for it. -/
theorem DenotesAll.find {entries : List (Bytes × FsNode)} {es : List TreeEntry}
    (h : DenotesAll M entries es) (comp : Bytes) :
    match child comp entries with
    | none => (es.find? fun e => decide (e.name = comp)) = none
    | some sub => ∃ e, (es.find? fun e => decide (e.name = comp)) = some e ∧ Denotes M sub e.ref := by
  induction entries generalizing es with
  | nil =>
    cases es with
    | nil => rfl
    | cons => unfold DenotesAll at h; exact h.elim
  | cons c entries ih =>
    obtain ⟨name, sub⟩ := c
    cases es with
    | nil => unfold DenotesAll at h; exact h.elim
    | cons e es =>
      unfold DenotesAll at h
      obtain ⟨rfl, hsub, hall⟩ := h
      unfold child
      rw [List.find?_cons, List.find?_cons]
      by_cases hname : e.name = comp
      · rw [decide_eq_true hname]
        exact ⟨e, rfl, hsub⟩
      · rw [decide_eq_false hname]
        exact ih hall

/-- The answer of a lookup that leads to a file, or to nothing. -/
def Located (M : BlobMap) (file : Option FsNode) (y : Except Err (Option TreeEntry)) : Prop :=
  match file with
  | none => y = .ok none
  | some file => ∃ e, y = .ok (some e) ∧ Denotes M file e.ref

/-- A look that does not go wrong has no error to give. -/
theorem Located.answers {file : Option FsNode} {e : Err} (h : Located M file (.error e)) : False := by
  unfold Located at h
  split at h
  · cases h
  · obtain ⟨e', he', -⟩ := h
    cases he'

/-- `lookup` walks down the file tree. -/
theorem reads_lookupComps {comps : List Bytes} {e : TreeEntry} (hM : Keyed (s.blobs p))
    (hclean : Clean (s.blobs p) cache) (h : Denotes (s.blobs p) file e.ref) :
    Reads ext p s (fun y x' => Located (s.blobs p) (file.at comps) y ∧ Clean (s.blobs p) x'.2)
      (lookupComps comps e) (queue, cache) := by
  induction comps generalizing file e queue cache with
  | nil =>
    rw [FsNode.at_nil]
    exact .pure ⟨⟨e, rfl, h⟩, hclean⟩
  | cons comp comps ih =>
    unfold lookupComps
    by_cases hd : e.type = .d
    · rw [if_neg (not_not.2 hd)]
      have href : e.ref = (.d, e.id) := by rw [← hd]; rfl
      rw [href] at h
      obtain ⟨entries, buf, es, rfl, hbuf, hes, hall⟩ := denotes_directory.1 h
      have htree := treeAt_of_denotes hM hbuf hes
      refine (reads_walkerTree hclean htree).then ?_
      rintro ⟨queue', cache'⟩ hclean'
      rw [findEntry_eq (treeAt_sorted htree), FsNode.at_cons]
      have hfind := hall.find comp
      split at hfind
      · next hnone =>
        rw [hnone, hfind]
        exact .pure ⟨rfl, hclean'⟩
      · next sub hsome =>
        obtain ⟨found, hfound, hsub⟩ := hfind
        rw [hsome, hfound]
        exact ih hclean' hsub
    · rw [if_pos hd, FsNode.at_leaf fun htype => hd (h.type.trans htype)]
      exact .pure ⟨rfl, hclean⟩

variable {root : Bytes} {path : CanonPath}

/-- `find` finds what is there, in a tree that is not too deep. -/
theorem reads_find (hM : Keyed (s.blobs p)) (hclean : Clean (s.blobs p) cache)
    (h : Denotes (s.blobs p) file (.d, root)) (hnamed : file.Named)
    (hin : FsNode.Within kMaxTreeDepth file) :
    Reads ext p s (fun y x' => Located (s.blobs p) (file.at path.comps) y ∧ Clean (s.blobs p) x'.2)
      (PackAccessor.find root path) (queue, cache) := by
  unfold PackAccessor.find lookup
  rw [splitPath_rel]
  split
  · next hlong =>
    split at hlong
    · cases hlong
    · next hbad =>
      refine Eff.Leads.pure ⟨rfl, ?_, hclean⟩
      cases hat : file.at path.comps with
      | none => rfl
      | some sub => exact absurd ⟨hnamed.at hat, hin.at hat⟩ hbad
  · next comps hsplit =>
    split at hsplit
    · cases hsplit
      refine Eff.Leads.catchIf (reads_lookupComps hM hclean h) (fun _ _ _ h => h) ?_ ?_
      · exact fun e x' s' h => h.2.1.answers.elim
      · exact fun e x' s' h => h.2.1.answers.elim
    · cases hsplit

/-- `find` finds nothing at a path that is too long. -/
theorem reads_find_deep (hlong : kMaxTreeDepth < path.comps.length) :
    Reads ext p s (fun y _ => y = .ok none) (PackAccessor.find root path) (queue, cache) := by
  have hsplit : splitPath path.rel = none := by
    rw [splitPath_rel, if_neg]
    rintro ⟨-, hle⟩
    omega
  unfold PackAccessor.find lookup
  rw [hsplit]
  exact Eff.Leads.pure ⟨rfl, rfl⟩

/-! ## The calls -/

/-- The type of `lstat` is that of the object. -/
theorem FsNode.stat_type (file : FsNode) : file.stat.type = tarmacEntryType file.type := by
  cases file with
  | regular executable => cases executable <;> rfl
  | symlink => rfl
  | directory => rfl

/-- The listing of a directory. -/
theorem DenotesAll.listing {entries : List (Bytes × FsNode)} {es : List TreeEntry}
    (h : DenotesAll M entries es) :
    (es.map fun child => (child.name, tarmacEntryType child.type)) =
      entries.map fun c => (c.1, c.2.stat.type) := by
  induction entries generalizing es with
  | nil =>
    cases es with
    | nil => rfl
    | cons => unfold DenotesAll at h; exact h.elim
  | cons c entries ih =>
    obtain ⟨name, sub⟩ := c
    cases es with
    | nil => unfold DenotesAll at h; exact h.elim
    | cons e es =>
      unfold DenotesAll at h
      obtain ⟨rfl, hsub, hall⟩ := h
      rw [List.map_cons, List.map_cons, ih hall, FsNode.stat_type, ← hsub.type]
      rfl

/-- `maybeLstat` of the file an entry stands for. -/
theorem reads_statOf {type : EntryType} {id : Bytes} {x : Pending × Cache} (hM : Keyed (s.blobs p))
    (h : Denotes (s.blobs p) file (type, id)) :
    Reads ext p s (fun y x' => y = .ok file.stat ∧ x' = x) (statOf type id) x := by
  obtain ⟨queue, cache⟩ := x
  unfold statOf
  cases file with
  | regular executable contents =>
    unfold Denotes at h
    obtain ⟨htype, hid⟩ := h
    dsimp only at htype hid
    subst htype
    have hlen : id.length = kHashLen := hM id (by rw [hid]; rfl)
    rw [if_pos (by cases executable <;> rfl)]
    refine Reads.then (b := some contents.length) (P := fun x' => x' = (queue, cache)) (.onFst ?_) ?_
    · refine (reads_blobSize hlen).mono ?_
      rintro y _ ⟨hy, rfl⟩
      rw [hid] at hy
      exact ⟨hy, rfl⟩
    · rintro _ rfl
      refine Reads.pure ⟨?_, rfl⟩
      cases executable <;> rfl
  | symlink target =>
    unfold Denotes at h
    obtain ⟨htype, -⟩ := h
    dsimp only at htype
    subst htype
    exact Reads.pure ⟨rfl, rfl⟩
  | directory entries =>
    unfold Denotes at h
    obtain ⟨htype, -⟩ := h
    dsimp only at htype
    subst htype
    exact Reads.pure ⟨rfl, rfl⟩

/-- What follows `find`. -/
theorem reads_at {α : Type} {Q : Except Err α → Pending × Cache → Prop} {sub : Option FsNode}
    {m : WalkM (Option TreeEntry)} {f : Option TreeEntry → WalkM α} {x : Pending × Cache}
    (hm : Reads ext p s (fun y x' => Located (s.blobs p) sub y ∧ Clean (s.blobs p) x'.2) m x)
    (hnone : ∀ x', Clean (s.blobs p) x'.2 → sub = none → Reads ext p s Q (f none) x')
    (hsome : ∀ x' e file, Clean (s.blobs p) x'.2 → sub = some file → Denotes (s.blobs p) file e.ref →
      Reads ext p s Q (f (some e)) x') : Reads ext p s Q (m >>= f) x := by
  refine hm.bind ?_ ?_
  · rintro found x' ⟨hloc, hclean⟩
    cases sub with
    | none =>
      cases hloc
      exact hnone x' hclean rfl
    | some file =>
      obtain ⟨e, he, hfile⟩ := hloc
      cases he
      exact hsome x' e file hclean rfl hfile
  · rintro e x' ⟨hloc, -⟩
    exact hloc.answers.elim

/-- What an accessor reads itself does not touch the cache. -/
theorem reads_healing {α : Type} {a : α} {m : TreeM α} (hclean : Clean (s.blobs p) cache)
    (hm : Reads ext p s (fun y queue' => y = .ok a ∧ queue' = queue) m queue) :
    Reads ext p s (fun y x' => y = .ok a ∧ Clean (s.blobs p) x'.2) (healing m.onFst)
      (queue, cache) := by
  refine Reads.healing (.onFst (hm.mono ?_))
  rintro y _ ⟨hy, rfl⟩
  exact ⟨hy, hclean⟩

/-- The calls on the accessor of a directory that is not too deep. -/
theorem reads_pack (hM : Keyed (s.blobs p)) (hclean : Clean (s.blobs p) cache)
    (h : Denotes (s.blobs p) file (.d, root)) (hnamed : file.Named)
    (hin : FsNode.Within kMaxTreeDepth file) (c : AccessCall) :
    Reads ext p s (fun y x' => EndsAs c (file.at c.path.comps) y ∧ Clean (s.blobs p) x'.2)
      (PackAccessor.code root c) (queue, cache) := by
  have hfind : Reads ext p s (fun y x' => Located (s.blobs p) (file.at c.path.comps) y ∧
      Clean (s.blobs p) x'.2) (PackAccessor.find root c.path) (queue, cache) :=
    reads_find hM hclean h hnamed hin
  generalize file.at c.path.comps = sub at hfind
  cases c with
  | readFile path =>
    refine reads_at hfind ?_ ?_
    · rintro x' hclean' rfl
      exact .throw ⟨⟨_, rfl⟩, hclean'⟩
    · rintro ⟨queue', cache'⟩ ⟨name, type, id⟩ sub hclean' rfl hsub
      cases sub with
      | regular executable contents =>
        unfold Denotes at hsub
        obtain ⟨htype, hid⟩ := hsub
        dsimp only [TreeEntry.ref] at htype hid
        subst htype
        dsimp only
        rw [if_neg (by cases executable <;> decide)]
        refine (reads_healing hclean' (reads_readBlobView (hM id (by rw [hid]; rfl)))).then ?_
        intro x' hclean''
        rw [hid]
        exact .pure ⟨rfl, hclean''⟩
      | symlink target =>
        unfold Denotes at hsub
        dsimp only
        rw [if_pos (.inr hsub.1)]
        exact .throw ⟨⟨_, rfl⟩, hclean'⟩
      | directory entries =>
        unfold Denotes at hsub
        dsimp only
        rw [if_pos (.inl hsub.1)]
        exact .throw ⟨⟨_, rfl⟩, hclean'⟩
  | pathExists path =>
    refine reads_at hfind ?_ ?_
    · rintro x' hclean' rfl
      exact .pure ⟨rfl, hclean'⟩
    · rintro x' e sub hclean' rfl hsub
      exact .pure ⟨rfl, hclean'⟩
  | maybeLstat path =>
    refine reads_at hfind ?_ ?_
    · rintro x' hclean' rfl
      exact .pure ⟨rfl, hclean'⟩
    · rintro x' e sub hclean' rfl hsub
      refine (reads_statOf hM hsub).then ?_
      rintro _ rfl
      exact .pure ⟨rfl, hclean'⟩
  | readDirectory path =>
    refine reads_at hfind ?_ ?_
    · rintro x' hclean' rfl
      exact .throw ⟨⟨_, rfl⟩, hclean'⟩
    · rintro ⟨queue', cache'⟩ ⟨name, type, id⟩ sub hclean' rfl hsub
      cases sub with
      | directory entries =>
        unfold Denotes at hsub
        obtain ⟨htype, buf, es, hbuf, hes, hall⟩ := hsub
        dsimp only [TreeEntry.ref] at htype hbuf
        dsimp only
        rw [if_neg (not_not.2 htype)]
        refine (reads_healing hclean' (reads_readTree (treeAt_of_denotes hM hbuf hes))).then ?_
        intro x' hclean''
        exact .pure ⟨congrArg Except.ok hall.listing, hclean''⟩
      | regular executable contents =>
        unfold Denotes at hsub
        dsimp only
        rw [if_pos (by rw [show type = _ from hsub.1]; exact nofun)]
        exact .throw ⟨⟨_, rfl⟩, hclean'⟩
      | symlink target =>
        unfold Denotes at hsub
        dsimp only
        rw [if_pos (by rw [show type = _ from hsub.1]; exact nofun)]
        exact .throw ⟨⟨_, rfl⟩, hclean'⟩
  | readLink path =>
    refine reads_at hfind ?_ ?_
    · rintro x' hclean' rfl
      exact .throw ⟨⟨_, rfl⟩, hclean'⟩
    · rintro ⟨queue', cache'⟩ ⟨name, type, id⟩ sub hclean' rfl hsub
      cases sub with
      | symlink target =>
        unfold Denotes at hsub
        obtain ⟨htype, hid⟩ := hsub
        dsimp only [TreeEntry.ref] at htype hid
        dsimp only
        rw [if_neg (not_not.2 htype)]
        exact reads_healing hclean' (reads_readBlob (hM id (by rw [hid]; rfl)) hid)
      | regular executable contents =>
        unfold Denotes at hsub
        dsimp only
        rw [if_pos (by rw [show type = _ from hsub.1]; cases executable <;> decide)]
        exact .throw ⟨⟨_, rfl⟩, hclean'⟩
      | directory entries =>
        unfold Denotes at hsub
        dsimp only
        rw [if_pos (by rw [show type = _ from hsub.1]; exact nofun)]
        exact .throw ⟨⟨_, rfl⟩, hclean'⟩

/-- Two ways to go on, by a condition that is known. -/
theorem reads_if {α : Type} {Q : Except Err α → Pending × Cache → Prop} {a b : Bool} {m m' : WalkM α}
    {x : Pending × Cache} (hab : a = b) (hm : b = true → Reads ext p s Q m x)
    (hm' : b = false → Reads ext p s Q m' x) : Reads ext p s Q (if a = true then m else m') x := by
  subst hab
  cases a with
  | true => exact hm rfl
  | false => exact hm' rfl

/-- The calls on the accessor of a single file or symlink. -/
theorem reads_blob {type : LeafType} {id : Bytes} {x : Pending × Cache} (hM : Keyed (s.blobs p))
    (h : Denotes (s.blobs p) file (.leaf type, id)) (c : AccessCall) :
    Reads ext p s (fun y x' => EndsAs c (file.at c.path.comps) y ∧ x' = x) (BlobAccessor.code type id c)
      x := by
  obtain ⟨queue, cache⟩ := x
  obtain ⟨d, hd, rfl⟩ := denotes_leaf.1 h
  have hlen : id.length = kHashLen := hM id (by rw [hd]; rfl)
  have hroot (path : CanonPath) : (path.isRoot = true ∧ (leafFile type d).at path.comps =
      some (leafFile type d)) ∨ (path.isRoot = false ∧ (leafFile type d).at path.comps = none) := by
    obtain ⟨comps, canon⟩ := path
    cases comps with
    | nil => exact .inl ⟨rfl, FsNode.at_nil _⟩
    | cons comp comps => exact .inr ⟨rfl, FsNode.at_leaf (by cases type <;> exact nofun)⟩
  obtain ⟨hpath, hat⟩ | ⟨hpath, hat⟩ := hroot c.path
  · rw [hat]
    cases c with
    | readFile path =>
      have hpath : path.isRoot = true := hpath
      refine reads_if (b := decide (type = .s)) (by rw [hpath]; rfl) (fun hs => ?_) fun hs => ?_
      · obtain rfl := of_decide_eq_true hs
        exact .throw ⟨⟨_, rfl⟩, rfl⟩
      · refine Reads.then (b := some d) (P := fun x' => x' = (queue, cache)) (.onFst ?_) ?_
        · refine (reads_readBlobView hlen).mono ?_
          rintro y _ ⟨hy, rfl⟩
          exact ⟨hd ▸ hy, rfl⟩
        · rintro _ rfl
          refine .pure ⟨?_, rfl⟩
          cases type with
          | s => cases hs
          | r | x => rfl
    | pathExists path => exact Reads.pure ⟨congrArg Except.ok hpath, rfl⟩
    | maybeLstat path =>
      have hpath : path.isRoot = true := hpath
      refine reads_if (b := false) (by rw [hpath]; rfl) nofun fun _ => ?_
      refine (reads_statOf hM h).then ?_
      rintro _ rfl
      exact .pure ⟨rfl, rfl⟩
    | readDirectory path =>
      cases type with
      | r | x | s => exact Reads.throw ⟨⟨_, rfl⟩, rfl⟩
    | readLink path =>
      have hpath : path.isRoot = true := hpath
      refine reads_if (b := decide (type ≠ .s)) (by rw [hpath]; rfl) (fun hs => ?_) fun hs => ?_
      · cases type with
        | s => cases hs
        | r | x => exact .throw ⟨⟨_, rfl⟩, rfl⟩
      · refine Reads.onFst ((reads_readBlob hlen hd).mono ?_)
        rintro y _ ⟨hy, rfl⟩
        refine ⟨?_, rfl⟩
        cases type with
        | s => exact hy
        | r | x => cases hs
  · rw [hat]
    cases c with
    | readFile path | readLink path =>
      have hpath : path.isRoot = false := hpath
      exact reads_if (b := true) (by rw [hpath]; rfl) (fun _ => .throw ⟨⟨_, rfl⟩, rfl⟩) nofun
    | pathExists path => exact Reads.pure ⟨congrArg Except.ok hpath, rfl⟩
    | maybeLstat path =>
      have hpath : path.isRoot = false := hpath
      exact reads_if (b := true) (by rw [hpath]; rfl) (fun _ => .pure ⟨rfl, rfl⟩) nofun
    | readDirectory path => exact Reads.throw ⟨⟨_, rfl⟩, rfl⟩

/-- The accessor that the eval store makes for a reference. -/
def Accessor.of : Ref → Accessor
  | (.d, id) => .pack id
  | (.leaf type, id) => .blob type id

/-- A process that is alone runs to the end. -/
theorem exists_run_of_not_busy {α : Type} (m : Prog sig α) (hs : s.busy p = false) :
    ∃ tr a s', Prog.Run (sem ext unfailing p) m s tr a s' := by
  have hexec (c : Call) (s : Sys) (hs : s.busy p = false) :
      ∃ r s', sem ext unfailing p c s r s' ∧ s'.busy p = false := by
    obtain ⟨r, s', hx⟩ : ∃ r s', exec ext p {} c s = some (r, s') := exists_exec c hs
    exact ⟨r, s', ⟨{}, rfl, hx⟩, exec_busy hx hs⟩
  exact Prog.exists_run hexec m hs

/-- An accessor presents what its reference stands for, if that is not too deep. -/
theorem presents_of_within {x : Ref} (hs : s.busy p = false) (hM : Keyed (s.blobs p))
    (h : Denotes (s.blobs p) file x) (hnamed : file.Named) (hin : FsNode.Within kMaxTreeDepth file) :
    Presents ext p queue s (.of x) file := by
  have hcall (queue : Pending) (cache : Cache) (hclean : Clean (s.blobs p) cache) (c : AccessCall) :
      Reads ext p s (fun y x' => EndsAs c (file.at c.path.comps) y ∧ Clean (s.blobs p) x'.2)
        ((Accessor.of x).code c) (queue, cache) := by
    obtain ⟨type | _, id⟩ := x
    · refine (reads_blob hM h c).mono ?_
      rintro y _ ⟨hy, rfl⟩
      exact ⟨hy, hclean⟩
    · exact reads_pack hM hclean h hnamed hin c
  intro ls x' hr
  have hall : (x'.2 = s ∧ Clean (s.blobs p) x'.1.2) ∧ ∀ l ∈ ls, AsOn file l := by
    refine hr.history (I := fun ls x' => (x'.2 = s ∧ Clean (s.blobs p) x'.1.2) ∧
      ∀ l ∈ ls, AsOn file l) ?_ ⟨⟨rfl, nofun⟩, nofun⟩
    rintro ls ⟨c, y⟩ ⟨⟨queue₁, cache₁⟩, s₁⟩ ⟨x₂, s₂⟩ ⟨⟨rfl, hclean⟩, hls⟩ ⟨tr, hstep⟩
    obtain ⟨hs₂, hy, hclean₂⟩ := hcall queue₁ cache₁ hclean c tr y x₂ s₂ hstep
    refine ⟨⟨hs₂, hclean₂⟩, fun l hl => ?_⟩
    rcases List.mem_append.1 hl with hl | hl
    · exact hls l hl
    · exact List.mem_singleton.1 hl ▸ hy
  refine ⟨hall.2, fun c => ?_⟩
  obtain ⟨⟨rfl, -⟩, -⟩ := hall
  obtain ⟨tr, ⟨y, x₂⟩, s₂, hrun⟩ : ∃ tr y s₂, Prog.Run (sem ext unfailing p)
      ((Accessor.of x).code c x'.1) x'.2 tr y s₂ := exists_run_of_not_busy _ hs
  exact ⟨y, (x₂, s₂), tr, hrun⟩

/-- The accessor of a directory that is too deep does not show everything. -/
theorem not_presents (hcanon : file.Canonical) (ho : file.Ordered)
    (hin : ¬FsNode.Within kMaxTreeDepth file) : ¬Presents ext p queue s (.pack root) file := by
  intro h
  obtain ⟨comps, sub, hlen, hat⟩ := FsNode.exists_deep ho hin
  let path : CanonPath := ⟨comps, hcanon.at hat⟩
  have hread : Reads ext p s (fun y _ => y = .ok false)
      (PackAccessor.code root (.pathExists path)) (queue, .empty) := by
    refine (reads_find_deep (by show kMaxTreeDepth < comps.length; omega)).bind ?_ ?_
    · rintro found x' hfound
      cases hfound
      exact .pure rfl
    · rintro e x' he
      cases he
  obtain ⟨-, hex⟩ := h [] _ .nil
  obtain ⟨y, x', tr, hrun⟩ := hex (.pathExists path)
  obtain ⟨hall, -⟩ := h _ _ (.cons ⟨tr, hrun⟩ .nil)
  have hy : y = .ok false := (hread tr y x'.1 x'.2 hrun).2
  have hshown : EndsAs (.pathExists path) (file.at comps) y := hall _ (.head _)
  rw [hat] at hshown
  cases hy.symm.trans hshown

end

end Tarmac.Tree
