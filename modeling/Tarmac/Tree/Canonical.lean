import Tarmac.Tree.Dump
import Tarmac.Tree.Merkle
import Tarmac.Tree.Ops
import Tarmac.Tree.Shared

/-!
# Root ids are canonical

A directory has one id, whichever program stored it: `ingest_archive` and the eval store return the
reference of the file tree and put the same objects (`writers_agree`). What was stored can be dumped
(`dump_serialises`), and two roots are equal just when their dumps are (`roots_canonical`).
-/

namespace Tarmac.Tree

open PackCas

/-! ## The writers agree -/

/-- The items of an archive come to a file tree, and nothing ends the reading before its end. -/
def Unpacks (arc : Archive) (file : FsNode) : Prop :=
  arc.items.2 = none ∧ ∃ node, unpack .empty arc.items.1 = .ok node ∧ node.file = file

/-- A file of a file tree, itself included. -/
inductive FsNode.Subtree : FsNode → FsNode → Prop where
  | refl {file : FsNode} : Subtree file file
  | entry {sub : FsNode} {entries : List (Bytes × FsNode)} {c : Bytes × FsNode} (hc : c ∈ entries)
      (h : Subtree sub c.2) : Subtree sub (.directory entries)

/-- Whatever other processes do meanwhile, a run of `m` that returns names the file tree, and has put
the object of each of its subtrees under its hash. -/
def StoresFile {α : Type} (ext : Ext) (m : TreeM α) (ref : α → Ref) (file : FsNode) : Prop :=
  ∀ ok p σ s tr a σ' s', Prog.Run (amid ext ok p) (m σ) s tr (.ok a, σ') s' →
    ref a = file.ref ext ∧ ∀ sub, FsNode.Subtree sub file → WasPut ext tr (sub.object ext)

section

variable {ext : Ext} {calm' : Prop} {α : Type} {d : Bytes} {file sub : FsNode}

/-- The object of a subtree is among those of the tree. -/
theorem FsNode.Subtree.object_mem (h : Subtree sub file) : sub.object ext ∈ file.objects ext := by
  induction h with
  | refl => exact FsNode.object_mem _
  | @entry entries c hc _ ih =>
    rw [FsNode.objects]
    exact .tail _ (mem_objectsAll.2 ⟨c, hc, ih⟩)

/-! ### The two programs -/

/-- The objects of an unpacked tree are the contents of its leaves and those of its directories. -/
theorem MemNode.Formed.mem_objects {k : Nat} {node : MemNode Bytes} (hf : Formed k node)
    (hd : d ∈ node.file.objects ext) :
    Holds d node ∨ ∃ children dir, node = .dir children ∧ Inside children dir ∧
      d = dirObject ext dir := by
  induction hf with
  | @leaf k type contents =>
    left
    rw [MemNode.file] at hd
    have hd : d = contents := by
      cases type <;> exact List.mem_singleton.1 hd
    rw [hd]
    exact .leaf
  | @dir k children hs hn hc ih =>
    rw [MemNode.file, FsNode.objects] at hd
    rcases List.mem_cons.1 hd with rfl | hd
    · exact .inr ⟨children, children, rfl, .refl, rfl⟩
    · obtain ⟨c', hc', hd⟩ := mem_objectsAll.1 hd
      rw [fileAll_eq] at hc'
      obtain ⟨c, hmem, rfl⟩ := List.mem_map.1 hc'
      rcases ih c hmem hd with h | ⟨sub, dir, hsub, hin, hobj⟩
      · exact .inl (.dir hmem h)
      · refine .inr ⟨children, dir, rfl, .sub ?_ hin, hobj⟩
        refine List.mem_filterMap.2 ⟨c, hmem, ?_⟩
        rw [hsub]

/-- Unpacking leaves a directory. -/
theorem unpack_dir {items : List TarItem} {children : List (Bytes × MemNode Bytes)}
    {new : MemNode Bytes} (hu : unpack (.dir children) items = .ok new) :
    ∃ children', new = .dir children' := by
  induction items generalizing children with
  | nil =>
    cases hu
    exact ⟨children, rfl⟩
  | cons item items ih =>
    unfold unpack at hu
    obtain ⟨root, hroot, hrest⟩ := except_bind_ok.1 hu
    have hdir : ∃ children', root = .dir children' := by
      unfold placeItem at hroot
      obtain ⟨comps, -, hplace⟩ := except_bind_ok.1 hroot
      split at hplace
      · obtain ⟨node, -, hadd⟩ := except_bind_ok.1 hplace
        exact addNode_dir hadd
      · exact addNode_dir hplace
      · exact addNode_dir hplace
    obtain ⟨children', rfl⟩ := hdir
    exact ih hrest

/-- What unpacking an archive leaves is sorted, its names are not too long, and it is not too
deep. -/
theorem Unpacks.formed {arc : Archive} (h : Unpacks arc file) :
    FsNode.Within kMaxTreeDepth file ∧ file.Ordered ∧ file.Named := by
  obtain ⟨-, node, hu, rfl⟩ := h
  exact (formed_unpack .empty hu).file

/-- An archive unpacks to one tree. -/
theorem Unpacks.unique {arc : Archive} {file' : FsNode} (h : Unpacks arc file)
    (h' : Unpacks arc file') : file = file' := by
  obtain ⟨-, node, hu, rfl⟩ := h
  obtain ⟨-, node', hu', rfl⟩ := h'
  rw [Except.ok.inj (hu.symm.trans hu')]

/-- `ingest_archive` up to its collection. -/
theorem gives_ingestTree (hext : ext.Lawful) {arc : Archive} (hok : calm' → ∃ file, Unpacks arc file) :
    Gives ext calm' (fun tr res => ∃ file, Unpacks arc file ∧ (.d, res.1) = file.ref ext ∧
      ∀ d ∈ file.objects ext, WasPut ext tr d) (ingestTree arc) := by
  unfold ingestTree
  have hempty : (MemNode.empty : MemNode Bytes) = MemNode.empty.map ext.blake3 := map_empty.symm
  rw [hempty]
  refine Gives.bind (gives_applyItems fun hcalm => ?_) ?_
  · obtain ⟨file, -, node, hu, -⟩ := hok hcalm
    exact ⟨node, hu⟩
  · rintro tr ⟨root, files⟩ ⟨root', hu, hroot, hput⟩
    obtain ⟨children, rfl⟩ := unpack_dir hu
    have hf := formed_unpack .empty hu
    obtain rfl : root = (MemNode.dir children).map ext.blake3 := hroot
    cases hend : arc.items.2 with
    | some e =>
      refine .throw fun hcalm => ?_
      obtain ⟨file, hnone, -⟩ := hok hcalm
      rw [hend] at hnone
      cases hnone
    | none =>
      refine Gives.bind (gives_flushTree hext hf) ?_
      rintro tr' id ⟨rfl, hdirs⟩
      refine Gives.bind gives_registerRoot fun tr₁ _ _ => ?_
      refine Gives.bind gives_sync fun tr₂ _ _ => ?_
      refine .pure ⟨_, ⟨hend, _, hu, rfl⟩, by rw [MemNode.file]; rfl, fun d hd => ?_⟩
      rcases hf.mem_objects hd with hd | ⟨children', dir, heq, hin, rfl⟩
      · rcases hput d hd with hd | hd
        · cases hd with
          | dir hc => cases hc
        · exact hd.left
      · cases heq
        exact (hdirs dir hin).left.right

/-- `ingest_archive` returns the root of the tree the archive unpacks to, all of whose objects it has
put. -/
theorem gives_ingestArchive (hext : ext.Lawful) (arc : Archive) (cfg : Config) (fuel : Nat) :
    Gives ext False (fun tr res => ∃ file, Unpacks arc file ∧ (.d, res.1) = file.ref ext ∧
      ∀ d ∈ file.objects ext, WasPut ext tr d) (ingestArchive cfg fuel arc) := by
  unfold ingestArchive
  refine Gives.bind (gives_ingestTree hext fun h => h.elim) ?_
  rintro tr res ⟨file, hu, href, hput⟩
  refine Gives.bind gives_true fun tr' _ _ => ?_
  exact .pure ⟨file, hu, href, fun d hd => (hput d hd).left⟩

/-- A program that has put the objects of a file stores it. -/
theorem Gives.storesFile {m : TreeM α} {ref : α → Ref}
    (hm : Gives ext False (fun tr a => ref a = file.ref ext ∧
      ∀ d ∈ file.objects ext, WasPut ext tr d) m) : StoresFile ext m ref file := by
  intro ok p σ s tr a σ' s' hr
  obtain ⟨href, hput⟩ := (hm.run (fun h => h.elim) hr).2 a rfl
  exact ⟨href, fun sub hsub => hput _ hsub.object_mem⟩

/-- Both writers store a file tree under the same id and with the same objects: the eval store from
memory, and `ingest_archive` from any archive whose items come to it. -/
theorem writers_agree (hext : ext.Lawful) {arc : Archive} (hu : Unpacks arc file) (cfg : Config)
    (fuel : Nat) :
    StoresFile ext (ingest file) id file ∧
    StoresFile ext (ingestArchive cfg fuel arc) (fun res => (.d, res.1)) file ∧
    ReturnsUnfailing ext (ingest file) ∧ ReturnsUnfailing ext (ingestTree arc) := by
  have hnamed := hu.formed.2.2
  refine ⟨?_, ?_, ?_, ?_⟩
  · exact Gives.storesFile (gives_ingest hext file fun _ => hnamed)
  · refine Gives.storesFile ((gives_ingestArchive hext arc cfg fuel).mono ?_)
    rintro tr res ⟨file', hu', href, hput⟩
    obtain rfl := hu.unique hu'
    exact ⟨href, hput⟩
  · exact Gives.returnsUnfailing (gives_ingest hext file fun _ => hnamed)
  · exact Gives.returnsUnfailing (gives_ingestTree hext fun _ => ⟨file, hu⟩)

/-- A directory with a file, in a directory. -/
theorem writers_agree_sample :
    let arc : Archive := ⟨[⟨some [97], none, .dir, none, 0, 0, [], none⟩,
      ⟨some [97, 47, 98], none, .reg, none, 1, 0, [[7]], none⟩], none⟩
    let file : FsNode := .directory [([97], .directory [([98], .regular false [7])])]
    Unpacks arc file ∧
    StoresFile .sample (ingest file) id file ∧
    StoresFile .sample (ingestArchive ⟨0, 0, 0⟩ 0 arc) (fun res => (.d, res.1)) file ∧
    ReturnsUnfailing .sample (ingest file) ∧ ReturnsUnfailing .sample (ingestTree arc) := by
  intro arc file
  have hu : Unpacks arc file := ⟨rfl, _, rfl, rfl⟩
  exact ⟨hu, writers_agree Ext.lawful_sample hu ⟨0, 0, 0⟩ 0⟩

end

/-! ## Dumps -/

/-- Every dump of the tree that ends well has given these bytes to the sink, and it does end well
when no call fails; a `getView` that `Mapping::view` refuses, since the blob ends behind `kMapSize`, is a
call that fails. -/
def DumpsTo (ext : Ext) (p : Nat) (s : Sys) (root bytes : Bytes) : Prop :=
  ∀ ok σ tr x σ' s', Prog.Run (sem ext ok p) (narDump root σ) s tr (x, σ') s' →
    (∀ chunks, x = .ok chunks → chunks.flatten = bytes) ∧
    ((∀ c s ch, ok c s ch → unfailing c s ch) → ∃ chunks, x = .ok chunks)

section

variable {ext : Ext} {p : Nat} {s : Sys} {root : Bytes} {file : FsNode}

/-- The dump of a file tree that is not too deep is its NAR. -/
theorem Denotes.dumps (hM : Keyed (s.blobs p)) (hfile : Denotes (s.blobs p) file (.d, root))
    (hin : FsNode.Within kMaxTreeDepth file) : DumpsTo ext p s root file.nar := by
  intro ok σ tr x σ' s' hr
  obtain ⟨-, -, hx⟩ := narDump_run hr
  cases x with
  | ok chunks =>
    obtain ⟨file', hfile', -, hflat⟩ := hx
    obtain rfl := hfile.unique hfile'
    refine ⟨?_, fun _ => ⟨chunks, rfl⟩⟩
    rintro _ ⟨⟩
    exact hflat
  | error e =>
    refine ⟨nofun, fun hcalm => ?_⟩
    exact absurd ⟨file, hfile, hin, List.append_nil _⟩ (hx ⟨hcalm, hM⟩ [file.nar])

/-- A dump of a tree that is too deep fails. -/
theorem narDump_deep {ok : Call → Sys → Choice → Prop} {σ σ' : Pending} {s' : Sys}
    {tr : List (Tarmac.Event sig)} {x : Except Err (List Bytes)}
    (hdeep : ¬Shallow (s.blobs p) kMaxTreeDepth (.d, root))
    (hr : Prog.Run (sem ext ok p) (narDump root σ) s tr (x, σ') s') : ∃ e, x = .error e := by
  obtain ⟨-, -, hx⟩ := narDump_run hr
  cases x with
  | error e => exact ⟨e, rfl⟩
  | ok chunks =>
    obtain ⟨file, hfile, hin, -⟩ := hx
    exact absurd (hfile.shallow hin) hdeep

/-- `nar_dump` ends in every store, on every id. What is there and not too deep is dumped as its NAR,
what is too deep is an error. What `ingest_archive` returns is the id of the tree that the archive
came to, which is not too deep; nor is what any store without collisions has under that id. -/
theorem dump_serialises (hext : ext.Lawful) :
    (∀ ok p s σ root, (∀ c s, ∃ ch, ok c s ch) →
      ∃ tr x, Prog.Run (sem ext ok p) (narDump root σ) s tr (x, σ) s) ∧
    (∀ p s root, Keyed (s.blobs p) → Whole (s.blobs p) (.d, root) →
      Shallow (s.blobs p) kMaxTreeDepth (.d, root) →
      ∃ file, Denotes (s.blobs p) file (.d, root) ∧ file.Ordered ∧
        DumpsTo ext p s root file.nar ∧ 8 ∣ file.nar.length) ∧
    (∀ ok p s σ root tr x σ' s', ¬Shallow (s.blobs p) kMaxTreeDepth (.d, root) →
      Prog.Run (sem ext ok p) (narDump root σ) s tr (x, σ') s' → ∃ e, x = .error e) ∧
    (∀ cfg fuel arc ok p s σ tr res σ' s',
      Prog.Run (amid ext ok p) (ingestArchive cfg fuel arc σ) s tr (.ok res, σ') s' →
      ∃ file, Unpacks arc file ∧ (.d, res.1) = file.ref ext ∧
        (∀ q t, Keyed (t.blobs q) → Denotes (t.blobs q) file (.d, res.1) →
          DumpsTo ext q t res.1 file.nar) ∧
        (∀ S M, NoCollision ext S → Indexed ext S M → (∀ d, WasPut ext tr d → S d) →
          Shallow M kMaxTreeDepth (.d, res.1))) := by
  refine ⟨?_, ?_, ?_, ?_⟩
  · intro ok p s σ root hok
    exact exists_narDump_run hok
  · intro p s root hM hwhole hshallow
    obtain ⟨file, hfile, hin⟩ := exists_denotes hwhole hshallow
    exact ⟨file, hfile, hfile.ordered, hfile.dumps hM hin, file.dvd_length_nar⟩
  · intro ok p s σ root tr x σ' s' hdeep hr
    exact narDump_deep hdeep hr
  · intro cfg fuel arc ok p s σ tr res σ' s' hr
    obtain ⟨file, hu, href, hput⟩ :=
      ((gives_ingestArchive hext arc cfg fuel).run (fun h => h.elim) hr).2 res rfl
    obtain ⟨hin, hordered, hnamed⟩ := hu.formed
    refine ⟨file, hu, href, fun q t hM hfile => hfile.dumps hM hin, ?_⟩
    intro S M hS hM hall n y hy
    exact FsNode.shallow_ref hext hS hM hy href hin hordered hnamed fun d hd => hall d (hput d hd)

/-- A directory with one file. -/
theorem dump_serialises_sample :
    let t : Bytes := encodeTree [⟨[97], .leaf .r, Ext.sample.blake3 [7]⟩]
    let s : Sys := { Sys.fresh with
      committed := (Sys.fresh.committed.add (Ext.sample.blake3 [7]) [7]).add (Ext.sample.blake3 t) t }
    ∃ file, Denotes (s.blobs 0) file (.d, Ext.sample.blake3 t) ∧
      DumpsTo .sample 0 s (Ext.sample.blake3 t) file.nar := by
  intro t s
  have hM : Indexed .sample (fun _ => True) (s.blobs 0) := by
    refine Indexed.add (Indexed.add ?_ trivial) trivial
    intro h d hd
    cases hd
  have hfile : Denotes (s.blobs 0) (.directory [([97], .regular false [7])])
      (.d, Ext.sample.blake3 t) := by
    unfold Denotes DenotesAll Denotes DenotesAll
    exact ⟨rfl, t, _, rfl, rfl, rfl, ⟨rfl, rfl⟩, trivial⟩
  have hin : FsNode.Within kMaxTreeDepth (.directory [([97], .regular false [7])]) := by
    refine .directory (fun _ _ => by decide) fun c hc => ?_
    obtain rfl := List.mem_singleton.1 hc
    exact .regular
  obtain ⟨-, hdump, -, -⟩ := dump_serialises Ext.lawful_sample
  obtain ⟨file, hdenotes, -, hdumps, -⟩ := hdump 0 s (Ext.sample.blake3 t)
    (hM.keyed Ext.lawful_sample) (hfile.whole hin) (hfile.shallow hin)
  exact ⟨file, hdenotes, hdumps⟩

end

/-- A collection keeps the blobs filed under their hashes. -/
theorem Indexed.restrict {ext : Ext} {S : Bytes → Prop} {M : BlobMap} {keep : Bytes → Bool}
    (h : Indexed ext S M) : Indexed ext S (M.restrict keep) :=
  fun id d hd => h id d (restrict_eq_some.1 hd).2

/-! ## Fingerprints -/

def kHexDigits : Bytes :=
  ascii ['0', '1', '2', '3', '4', '5', '6', '7', '8', '9', 'a', 'b', 'c', 'd', 'e', 'f']

/-- `to_hex`. -/
def toHex (raw : Bytes) : Bytes :=
  raw.flatMap fun byte =>
    [kHexDigits.getD (byte.toNat >>> 4) 0, kHexDigits.getD (byte.toNat &&& 0xf) 0]

/-- The fingerprint of a `PackAccessor`. -/
def fingerprint (root : Bytes) : Bytes := ascii ['t', 'a', 'r', 'm', 'a', 'c', ':'] ++ toHex root

/-- Two digits are different. -/
theorem kHexDigits_inj : ∀ m < 16, ∀ n < 16, kHexDigits.getD m 0 = kHexDigits.getD n 0 → m = n := by
  decide

/-- The hexadecimal form gives the bytes away. -/
theorem toHex_injective {raw raw' : Bytes} (h : toHex raw = toHex raw') : raw = raw' := by
  induction raw generalizing raw' with
  | nil =>
    cases raw' with
    | nil => rfl
    | cons => cases h
  | cons a raw ih =>
    cases raw' with
    | nil => cases h
    | cons b raw' =>
      obtain ⟨hhigh, h⟩ := List.cons.inj h
      obtain ⟨hlow, h⟩ := List.cons.inj h
      have ha := a.toNat_lt
      have hb := b.toNat_lt
      rw [Nat.shiftRight_eq_div_pow, Nat.shiftRight_eq_div_pow] at hhigh
      rw [show 0xf = 2 ^ 4 - 1 from rfl, Nat.and_two_pow_sub_one_eq_mod,
        Nat.and_two_pow_sub_one_eq_mod] at hlow
      have hdiv := kHexDigits_inj _ (by omega) _ (by omega) hhigh
      have hmod := kHexDigits_inj _ (by omega) _ (by omega) hlow
      have hab : a.toNat = b.toNat := by omega
      rw [UInt8.toNat_inj.1 hab, ih h]

/-! ## Roots are canonical -/

section

variable {ext : Ext} {M : BlobMap} {file : FsNode}

mutual

/-- The strings of the NAR of a file tree that is spelt out are names and contents of objects. -/
theorem Denotes.tokens_short (hM : ∀ id d, M id = some d → d.length ≤ maxOff) (file : FsNode) {x : Ref}
    (h : Denotes M file x) : ∀ s ∈ file.tokens, s.length < 2 ^ 64 := by
  have hshort {d : Bytes} (hd : d.length ≤ maxOff) : d.length < 2 ^ 64 := by
    unfold maxOff at hd
    omega
  cases file with
  | regular executable contents =>
    unfold Denotes at h
    have hcontents := hshort (hM _ _ h.2)
    unfold FsNode.tokens
    cases executable <;> simpa [ascii] using hcontents
  | symlink target =>
    unfold Denotes at h
    have htarget := hshort (hM _ _ h.2)
    unfold FsNode.tokens
    simpa [ascii] using htarget
  | directory entries =>
    unfold Denotes at h
    obtain ⟨-, buf, es, -, hes, hall⟩ := h
    have hentries := DenotesAll.tokens_short hM entries hall (decodeTree_ok hes).2.2
    unfold FsNode.tokens
    intro s hs
    rw [List.mem_append, List.mem_append] at hs
    rcases hs with hs | hs | hs
    · simp only [List.mem_cons, List.not_mem_nil, or_false] at hs
      rcases hs with rfl | rfl | rfl <;> decide
    · exact hentries s hs
    · obtain rfl := List.mem_singleton.1 hs
      decide

/-- The tokens of a tree have lengths that fit in 64 bits. -/
theorem DenotesAll.tokens_short (hM : ∀ id d, M id = some d → d.length ≤ maxOff)
    (entries : List (Bytes × FsNode)) {es : List TreeEntry} (h : DenotesAll M entries es)
    (hfits : ∀ e ∈ es, e.fits = true) : ∀ s ∈ entryTokens entries, s.length < 2 ^ 64 := by
  cases entries with
  | nil =>
    unfold entryTokens
    exact nofun
  | cons c entries =>
    obtain ⟨name, sub⟩ := c
    cases es with
    | nil => unfold DenotesAll at h; exact h.elim
    | cons e es =>
      unfold DenotesAll at h
      obtain ⟨rfl, hsub, hall⟩ := h
      have hname := (TreeEntry.fits_iff.1 (hfits e (.head _))).1
      unfold kMaxNameLen at hname
      have hrest := DenotesAll.tokens_short hM entries hall fun e he => hfits e (.tail _ he)
      have hin := Denotes.tokens_short hM sub hsub
      rw [entryTokens_cons]
      intro s hs
      rcases List.mem_append.1 hs with hs | hs
      · simp only [List.mem_cons, List.not_mem_nil, or_false] at hs
        rcases hs with rfl | rfl | rfl | rfl | rfl
        case inr.inr.inr.inl => omega
        all_goals decide
      · rcases List.mem_append.1 hs with hs | hs
        · exact hin s hs
        · rcases List.mem_cons.1 hs with rfl | hs
          · decide
          · exact hrest s hs

end

/-- In the stores a run of processes leads to, objects are filed under their hashes. -/
theorem indexed_of_runs {O : Type} {S : Bytes → Prop} {ok : Nat → Call → Sys → Choice → Prop}
    {code : Nat → O → TreeM Unit} {gs : Nat → Process sig O Pending (Except Err Unit)} {s : Sys}
    {acts : List (Nat × Act sig O (Except Err Unit))}
    (hok : ∀ p tree d s ch, ok p (.put tree d) s ch → S d)
    (hr : Runs (machine ext ok code).Step (atRest, .fresh) acts (gs, s)) (p : Nat) :
    Indexed ext S (s.blobs p) := by
  have hall : Everywhere (fun st => Indexed ext S st.blobs) s := by
    refine everywhere_of_runs (P := fun _ => True) (J := fun _ => True) trivial
      (fun p op σ _ => Prog.makes_true _) (fun p => ⟨?_, ?_⟩) ?_ hr
    · exact fun _ _ h => nomatch (show none = some _ from h)
    · exact fun _ _ h => nomatch (show none = some _ from h)
    rintro p c s₁ ch - hch
    refine ⟨?_, fun _ _ _ _ h => h, fun _ _ h => h, fun _ _ h => h.restrict⟩
    rintro tree d st rfl h
    exact h.add (hok p tree d s₁ ch hch)
  exact (hall p).2

/-- Whatever any processes have done to two directories (or one), the roots of two trees that are
there, and not too deep, are equal just when their dumps are, and so are their fingerprints; provided
that no two of the objects that were put have the same hash. -/
theorem roots_canonical {O : Type} {S : Bytes → Prop} (hext : ext.Lawful) (hS : NoCollision ext S)
    (hshort : ∀ d, S d → d.length ≤ maxOff) {ok ok' : Nat → Call → Sys → Choice → Prop}
    {code code' : Nat → O → TreeM Unit} {gs gs' : Nat → Process sig O Pending (Except Err Unit)}
    {s s' : Sys} {acts acts' : List (Nat × Act sig O (Except Err Unit))}
    (hok : ∀ p tree d s ch, ok p (.put tree d) s ch → S d)
    (hok' : ∀ p tree d s ch, ok' p (.put tree d) s ch → S d)
    (hr : Runs (machine ext ok code).Step (atRest, .fresh) acts (gs, s))
    (hr' : Runs (machine ext ok' code').Step (atRest, .fresh) acts' (gs', s'))
    {p p' : Nat} {root root' : Bytes} (hroot : Whole (s.blobs p) (.d, root))
    (hroot' : Whole (s'.blobs p') (.d, root'))
    (hdepth : Shallow (s.blobs p) kMaxTreeDepth (.d, root))
    (hdepth' : Shallow (s'.blobs p') kMaxTreeDepth (.d, root')) :
    ∃ bytes bytes', DumpsTo ext p s root bytes ∧ DumpsTo ext p' s' root' bytes' ∧
      (root = root' ↔ bytes = bytes') ∧ (fingerprint root = fingerprint root' ↔ bytes = bytes') := by
  have hM := indexed_of_runs hok hr p
  have hM' := indexed_of_runs hok' hr' p'
  obtain ⟨file, hfile, hin⟩ := exists_denotes hroot hdepth
  obtain ⟨file', hfile', hin'⟩ := exists_denotes hroot' hdepth'
  have hiff : root = root' ↔ file.nar = file'.nar := by
    constructor
    · rintro rfl
      rw [hfile.faithful hS hM hM' hfile']
    · intro hnar
      have htokens := hfile.tokens_short fun id d hd => hshort d (hM id d hd).1
      have htokens' := hfile'.tokens_short fun id d hd => hshort d (hM' id d hd).1
      obtain rfl := FsNode.nar_inj htokens htokens' hnar
      exact congrArg Prod.snd (hfile.canonical hM hM' file hfile')
  refine ⟨file.nar, file'.nar, hfile.dumps (hM.keyed hext) hin, hfile'.dumps (hM'.keyed hext) hin',
    hiff, Iff.trans ⟨fun h => ?_, congrArg fingerprint⟩ hiff⟩
  exact toHex_injective (List.append_cancel_left h)

/-- No put is of other bytes than these. -/
def putsAmong (ds : List Bytes) (c : Call) (_ : Sys) (_ : Choice) : Bool :=
  match c with
  | .put _ d => decide (d ∈ ds)
  | _ => true

/-- The empty directory in one store, and a directory with a file in another. -/
theorem roots_canonical_sample : ∃ s s' : Sys, ∃ root root' bytes bytes', root ≠ root' ∧
    DumpsTo .sample 0 s root bytes ∧ DumpsTo .sample 0 s' root' bytes' ∧ bytes ≠ bytes' := by
  let dir : FsNode := .directory [([97], .regular false [7])]
  let t : Bytes := encodeTree [⟨[97], .leaf .r, Ext.sample.blake3 [7]⟩]
  let S : Bytes → Prop := fun d => d ∈ [[], [7], t]
  let ok : Nat → Call → Sys → Choice → Prop := fun _ c _ _ => ∀ tree d, c = .put tree d → S d
  let M := machine .sample ok fun _ (file : FsNode) => ingest file >>= fun _ => pure ()
  let check : Call → Sys → Choice → Bool := putsAmong [[], [7], t]
  have hok (p : Nat) (tree : Bool) (d : Bytes) (s : Sys) (ch : Choice)
      (h : ok p (.put tree d) s ch) : S d := h tree d rfl
  have hrun {ms ls x} (h : M.eval (fun p (_ : Unit) => execIf .sample p check {}) ms (atRest, .fresh) =
      some (ls, x)) : Runs M.Step (atRest, .fresh) ls x := by
    refine Machine.runs_of_eval (fun p _ c s r s' hx => ?_) h
    unfold execIf at hx
    split at hx
    · next hc =>
      refine ⟨_, fun tree d hd => ?_, hx⟩
      subst hd
      have hmem : decide (d ∈ [[], [7], t]) = true := hc
      exact of_decide_eq_true hmem
    · cases hx
  have h : (M.eval (fun p (_ : Unit) => execIf .sample p check {})
      [(0, .start (.directory [])), (0, .go ())] (atRest, .fresh)).any (fun y =>
        decide (y.2.2.blobs 0 (Ext.sample.blake3 []) = some [])) = true := by decide +kernel
  have h' : (M.eval (fun p (_ : Unit) => execIf .sample p check {})
      [(0, .start dir), (0, .go ()), (0, .go ())] (atRest, .fresh)).any (fun y =>
        decide (y.2.2.blobs 0 (Ext.sample.blake3 [7]) = some [7]) &&
        decide (y.2.2.blobs 0 (Ext.sample.blake3 t) = some t)) = true := by decide +kernel
  obtain ⟨⟨ls, gs, s⟩, hx, h⟩ := (Option.any_eq_true _ _).1 h
  obtain ⟨⟨ls', gs', s'⟩, hx', h'⟩ := (Option.any_eq_true _ _).1 h'
  have hempty : s.blobs 0 (Ext.sample.blake3 []) = some [] := of_decide_eq_true h
  obtain ⟨hfile, hdir⟩ := Bool.and_eq_true_iff.1 h'
  have hfile : s'.blobs 0 (Ext.sample.blake3 [7]) = some [7] := of_decide_eq_true hfile
  have hdir : s'.blobs 0 (Ext.sample.blake3 t) = some t := of_decide_eq_true hdir
  have hroot : Denotes (s.blobs 0) (.directory []) (.d, Ext.sample.blake3 []) := by
    unfold Denotes DenotesAll
    exact ⟨rfl, [], [], hempty, rfl, trivial⟩
  have hroot' : Denotes (s'.blobs 0) dir (.d, Ext.sample.blake3 t) := by
    unfold dir Denotes DenotesAll Denotes DenotesAll
    exact ⟨rfl, t, _, hdir, rfl, rfl, ⟨rfl, hfile⟩, trivial⟩
  have hin : FsNode.Within kMaxTreeDepth (.directory []) := .directory (by simp) (by simp)
  have hin' : FsNode.Within kMaxTreeDepth dir := by
    refine .directory (fun _ _ => by decide) fun c hc => ?_
    obtain rfl := List.mem_singleton.1 hc
    exact .regular
  have hS : NoCollision .sample S := by
    intro d d' hd hd'
    simp only [S, List.mem_cons, List.not_mem_nil, or_false] at hd hd'
    rcases hd with rfl | rfl | rfl <;> rcases hd' with rfl | rfl | rfl <;> decide
  have hshort (d : Bytes) (hd : S d) : d.length ≤ maxOff := by
    simp only [S, List.mem_cons, List.not_mem_nil, or_false] at hd
    rcases hd with rfl | rfl | rfl <;> decide
  obtain ⟨bytes, bytes', hdumps, hdumps', hiff, -⟩ := roots_canonical Ext.lawful_sample hS hshort hok hok
    (hrun hx) (hrun hx') (hroot.whole hin) (hroot'.whole hin') (hroot.shallow hin) (hroot'.shallow hin')
  have hne : Ext.sample.blake3 [] ≠ Ext.sample.blake3 t := by decide
  exact ⟨s, s', _, _, bytes, bytes', hne, hdumps, hdumps', fun heq => hne (hiff.2 heq)⟩

end

end Tarmac.Tree
