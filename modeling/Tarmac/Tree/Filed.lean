import Tarmac.Tree.Fetch

/-!
# What was filed

Objects are filed under their hashes, and where no two of them collide what is read under an id is the
object that was put under it, whoever reads and whatever was collected meanwhile. `filed` is the index
of all objects there are, and `Yielding` follows a program that reads from it: what the fetcher reads,
dumps, hashes and strips is part of the trees that were stored.
-/

namespace Tarmac.Tree

open PackCas

/-- Objects filed under their hashes. -/
noncomputable def filed (ext : Ext) (S : Bytes → Prop) : BlobMap := fun id =>
  open Classical in
  if h : ∃ d, S d ∧ ext.blake3 d = id then some h.choose else none

section

variable {ext : Ext} {S : Bytes → Prop} {M M' : BlobMap} {id d : Bytes} {file : FsNode} {x y : Ref}
  {n k : Nat}

/-- A blob is filed under its hash. -/
theorem filed_eq_some (hS : NoCollision ext S) : filed ext S id = some d ↔ S d ∧ ext.blake3 d = id := by
  unfold filed
  constructor
  · intro h
    split at h
    · next hex =>
      cases h
      exact hex.choose_spec
    · cases h
  · rintro ⟨hd, hid⟩
    have hex : ∃ d, S d ∧ ext.blake3 d = id := ⟨d, hd, hid⟩
    rw [dif_pos hex]
    exact congrArg some (hS _ _ hex.choose_spec.1 hd (hex.choose_spec.2.trans hid.symm))

/-- A store has only what is filed. -/
theorem Indexed.filed (hS : NoCollision ext S) (h : Indexed ext S M) : Grows M (filed ext S) :=
  fun id d hd => (filed_eq_some hS).2 (h id d hd)

/-- What is below stays below in a greater store. -/
theorem Below.mono (hg : Grows M M') (h : Below M n x y) : Below M' n x y := by
  induction h with
  | refl => exact .refl
  | step hbuf hes he _ ih => exact .step (hg _ _ hbuf) hes he ih

/-- What a reference stands for in a larger index, it stands for where its tree is whole. -/
theorem Denotes.of_whole (hg : Grows M M') (h : Denotes M' file x) (hk : FsNode.Within k file)
    (hw : Whole M x) : Denotes M file x := by
  have hshallow : Shallow M k x := fun _ _ hy => (h.below hk (hy.mono hg)).1
  obtain ⟨file', h', -⟩ := exists_denotes hw hshallow
  rwa [h.unique (h'.mono hg file')]

end

/-! ## Hashes of dumps -/

/-- Objects that are read are those of the index. -/
def ReadsOf (M : BlobMap) : Tarmac.Event sig → Prop
  | ⟨.get id, r⟩ => ∀ d, (show Except Err (Option Bytes) from r) = .ok (some d) → M id = some d
  | ⟨.getView id, r⟩ => ∀ d, (show Except Err (Option Bytes) from r) = .ok (some d) → M id = some d
  | _ => True

/-- If it returns, the program returns a `P`. -/
def Yielding {α : Type} (M : BlobMap) (P : α → Prop) (m : TreeM α) : Prop :=
  Eff.Returns (ReadsOf M) (fun _ x => ∀ a, x = .ok a → P a) m

section

variable {M : BlobMap} {α β : Type} {P : α → Prop} {Q : β → Prop} {m : TreeM α} {f : α → TreeM β}

theorem Yielding.bind (hm : Yielding M P m) (hf : ∀ a, P a → Yielding M Q (f a)) :
    Yielding M Q (m >>= f) :=
  Eff.Returns.seq hm (fun _ a h => (hf a (h a rfl)).mono fun _ _ hx => hx) fun _ e _ b hb => by cases hb

theorem Yielding.pure {b : β} (h : Q b) : Yielding M Q (Pure.pure b) :=
  Eff.Returns.pure fun _ hb => Except.ok.inj hb ▸ h

theorem Yielding.throw {e : Err} : Yielding M Q (Eff.throw e) := Eff.Returns.throw fun _ hb => by cases hb

theorem Yielding.ofExcept {x : Except Err β} (h : ∀ b, x = .ok b → Q b) : Yielding M Q (Eff.ofExcept x) :=
  Eff.Returns.ofExcept h

theorem Yielding.mono {P' : α → Prop} (hm : Yielding M P m) (h : ∀ a, P a → P' a) : Yielding M P' m :=
  Eff.Returns.mono hm fun _ _ hx a ha => h a (hx a ha)

/-- Nothing is said of what the program returns. -/
theorem yielding_true (M : BlobMap) (m : TreeM α) : Yielding M (fun _ => True) m := by
  intro σ
  exact Prog.returns_of_runs Sys.fresh fun _ _ _ _ _ _ => trivial

/-- `readTree` returns the entries of a directory that is there. -/
theorem yielding_readTree {id : Bytes} :
    Yielding M (fun es => ∃ buf, M id = some buf ∧ decodeTree buf = .ok es) (readTree id) := by
  unfold readTree
  refine Yielding.bind (P := fun r => ∀ d, r = some d → M id = some d) ?_ ?_
  · refine Eff.Returns.perform fun r hr => Eff.Returns.ofExcept ?_
    rintro a ha d rfl
    exact hr d ha
  · intro r hr
    cases r with
    | none => exact .throw
    | some buf => exact .ofExcept fun es hes => ⟨buf, hr buf rfl, hes⟩

/-- A leaf is dumped as its tokens. -/
theorem yielding_narLeaf {type : LeafType} {id : Bytes} :
    Yielding M (fun chunks => ∃ d, M id = some d ∧ frames 8 (leafFile type d).tokens =
      frames 8 [ascii ['('], ascii ['t', 'y', 'p', 'e']] ++ chunks.flatten) (narLeaf type id) := by
  unfold narLeaf readBlobView Cas.getView
  refine Yielding.bind (P := fun r => ∀ d, r = some d → M id = some d) ?_ ?_
  · refine Eff.Returns.perform fun r hr => Eff.Returns.ofExcept ?_
    rintro a ha d rfl
    exact hr d ha
  · intro r hr
    cases r with
    | none => exact .throw
    | some contents =>
      refine .pure ⟨contents, hr contents rfl, ?_⟩
      obtain _ | _ | _ := type
      all_goals
        unfold leafFile FsNode.tokens
        simp

/-- The loop gives the sink what the work comes to. -/
theorem yielding_narLoop (work : List NarWork) (out : List Bytes) :
    Yielding M (fun chunks => ∃ bytes, Emits M work bytes ∧ chunks.flatten = out.flatten ++ bytes)
      (narLoop work out) := by
  induction work, out using narLoop.induct with
  | case1 out =>
    rw [narLoop]
    exact .pure ⟨[], by rw [Emits], (List.append_nil _).symm⟩
  | case2 out str work ih =>
    rw [narLoop]
    refine ih.mono ?_
    rintro chunks ⟨bytes, hbytes, heq⟩
    exact ⟨frame 8 str ++ bytes, emits_str.2 ⟨bytes, rfl, hbytes⟩, by simp [heq]⟩
  | case3 out name type id depth work hdepth =>
    rw [narLoop, dif_pos hdepth]
    exact .throw
  | case4 out name id depth work hdepth out₁ out₂ ih =>
    rw [narLoop, dif_neg hdepth]
    refine yielding_readTree.bind ?_
    rintro es ⟨buf, hbuf, hes⟩
    refine (ih es).mono ?_
    rintro chunks ⟨bytes, hbytes, heq⟩
    exact ⟨_, (emits_directory hbuf hes hdepth).2 ⟨bytes, rfl, hbytes⟩, by simp [heq, out₂, out₁]⟩
  | case5 out name id depth work hdepth out₁ type ih =>
    rw [narLoop, dif_neg hdepth]
    refine yielding_narLeaf.bind ?_
    rintro chunks₁ ⟨d, hd, hchunks⟩
    refine (ih chunks₁).mono ?_
    rintro chunks ⟨bytes, hbytes, heq⟩
    refine ⟨frames 8 (leafFile type d).tokens ++ bytes, emits_node.2 ⟨leafFile type d, bytes,
      denotes_leaf.2 ⟨d, hd, rfl⟩, by omega, within_leafFile _ _, rfl, hbytes⟩, ?_⟩
    simp [heq, hchunks, out₁]

/-- `nar_dump` returns the NAR of the tree under the root. -/
theorem yielding_narDump (root : Bytes) :
    Yielding M (fun chunks => ∃ file, Denotes M file (.d, root) ∧ FsNode.Within kMaxTreeDepth file ∧
      chunks.flatten = file.nar) (narDump root) := by
  unfold narDump
  refine (yielding_narLoop _ _).mono ?_
  rintro chunks ⟨bytes, hbytes, heq⟩
  obtain ⟨file, rest, hfile, -, hin, rfl, hrest⟩ := emits_node.1 hbytes
  rw [Emits] at hrest
  subst hrest
  refine ⟨file, hfile, hin, ?_⟩
  rw [heq, FsNode.nar, frames_cons, flatten_narStr, List.append_nil]

/-- What OpenSSL computes is `sha` of the bytes it was given, however they were split. -/
def Evp.Computes (evp : Evp) (sha : Bytes → Bytes) : Prop :=
  ∀ ctx updates end_ digest, evp.init = some ctx → evp.feed ctx updates = some end_ →
    evp.final end_ = some digest → digest = sha updates.flatten

/-- `nar_sha256` returns its hash. -/
theorem yielding_narSha256 {evp : Evp} {sha : Bytes → Bytes} (hsha : evp.Computes sha) (root : Bytes) :
    Yielding M (fun y => ∃ file, Denotes M file (.d, root) ∧ FsNode.Within kMaxTreeDepth file ∧
      y.1 = sha file.nar) (narSha256 evp root) := by
  intro σ
  refine Prog.returns_of_runs Sys.fresh ?_
  rintro tr ⟨x, σ'⟩ s' hr ⟨digest, size⟩ hx
  obtain rfl : x = .ok (digest, size) := hx
  obtain ⟨chunks, ctx, updates, end_, hdump, hinit, hfeed, hflat, hfinal, -⟩ :=
    run_narDump_of_narSha256 hr
  have hdumped := Eff.Returns.run (fun _ _ _ _ h => h) hdump (yielding_narDump (M := M) root)
  obtain ⟨file, hfile, hin, heq⟩ := hdumped chunks rfl
  refine ⟨file, hfile, hin, ?_⟩
  rw [← heq, ← hflat]
  exact hsha ctx updates end_ digest hinit hfeed hfinal

/-- In a store that nobody changes meanwhile, that is the hash of the tree that is there. -/
theorem run_of_narSha256 {ext : Ext} {ok : Call → Sys → Choice → Prop} {p : Nat} {evp : Evp}
    {sha : Bytes → Bytes} {root : Bytes} {y : Bytes × UInt64} {σ σ' : Pending} {s s' : Sys}
    {tr : List (Tarmac.Event sig)} (hsha : evp.Computes sha)
    (hr : Prog.Run (sem ext ok p) (narSha256 evp root σ) s tr (.ok y, σ') s') :
    s' = s ∧ σ' = σ ∧ ∃ file, Denotes (s.blobs p) file (.d, root) ∧ FsNode.Within kMaxTreeDepth file ∧
      y.1 = sha file.nar := by
  obtain ⟨digest, size⟩ := y
  obtain ⟨chunks, ctx, updates, end_, hdump, hinit, hfeed, hflat, hfinal, -⟩ :=
    run_narDump_of_narSha256 hr
  obtain ⟨rfl, rfl, file, hfile, hin, heq⟩ := narDump_run hdump
  refine ⟨rfl, rfl, file, hfile, hin, ?_⟩
  rw [← heq, ← hflat]
  exact hsha ctx updates end_ digest hinit hfeed hfinal

end

/-! ## The top of a tree -/

section

variable {ext : Ext} {M : BlobMap}

mutual

/-- A file tree whose objects are there is found under its reference. -/
theorem FsNode.denotes_objects (hext : ext.Lawful) (file : FsNode) (ho : file.Ordered) (hn : file.Named)
    (hobj : ∀ d ∈ file.objects ext, M (ext.blake3 d) = some d) : Denotes M file (file.ref ext) := by
  have hself := hobj _ file.object_mem
  cases file with
  | regular executable contents =>
    unfold Denotes
    exact ⟨rfl, hself⟩
  | symlink target =>
    unfold Denotes
    exact ⟨rfl, hself⟩
  | directory entries =>
    cases ho with
    | directory hs hso =>
      cases hn with
      | directory hn hnc =>
        rw [FsNode.object] at hself
        unfold Denotes
        refine ⟨rfl, _, _, hself, decode_object hext hs hn, ?_⟩
        refine denotesAll_objects hext entries hso hnc fun d hd => hobj d ?_
        rw [FsNode.objects]
        exact .tail _ hd

/-- The entries whose objects are there denote what they were made of. -/
theorem denotesAll_objects (hext : ext.Lawful) (entries : List (Bytes × FsNode))
    (ho : ∀ c ∈ entries, FsNode.Ordered c.2) (hn : ∀ c ∈ entries, FsNode.Named c.2)
    (hobj : ∀ d ∈ objectsAll ext entries, M (ext.blake3 d) = some d) :
    DenotesAll M entries (fsEntries ext entries) := by
  cases entries with
  | nil =>
    unfold fsEntries DenotesAll
    trivial
  | cons c rest =>
    obtain ⟨name, sub⟩ := c
    rw [objectsAll] at hobj
    rw [fsEntries]
    unfold DenotesAll
    refine ⟨rfl, ?_, ?_⟩
    · exact FsNode.denotes_objects hext sub (ho _ (.head _)) (hn _ (.head _)) fun d hd =>
        hobj d (List.mem_append_left _ hd)
    · exact denotesAll_objects hext rest (fun c hc => ho c (.tail _ hc)) (fun c hc => hn c (.tail _ hc))
        fun d hd => hobj d (List.mem_append_right _ hd)

end

/-- A tree of less depth. -/
theorem FsNode.Within.mono {k n : Nat} {file : FsNode} (h : FsNode.Within k file) (hk : k ≤ n) :
    FsNode.Within n file := by
  induction h generalizing n with
  | regular => exact .regular
  | symlink => exact .symlink
  | directory h0 _ ih =>
    exact .directory (fun c hc => Nat.lt_of_lt_of_le (h0 c hc) hk)
      fun c hc => ih c hc (Nat.sub_le_sub_right hk 1)

/-- A single directory at the top is stripped. -/
def FsNode.stripTop : FsNode → FsNode
  | .directory [(_, .directory entries)] => .directory entries
  | file => file

/-- The top is stripped of a directory in a directory. -/
theorem FsNode.stripTop_cases (file : FsNode) : file.stripTop = file ∨
    ∃ name entries, file = .directory [(name, .directory entries)] ∧ file.stripTop = .directory entries := by
  unfold FsNode.stripTop
  split
  · exact .inr ⟨_, _, rfl, rfl⟩
  · exact .inl rfl

/-- What is left is part of what was there. -/
theorem FsNode.stripTop_part (ext : Ext) {k : Nat} {file : FsNode} (ho : file.Ordered) (hn : file.Named)
    (hk : FsNode.Within k file) : file.stripTop.Ordered ∧ file.stripTop.Named ∧
      FsNode.Within k file.stripTop ∧ ∀ d ∈ file.stripTop.objects ext, d ∈ file.objects ext := by
  rcases file.stripTop_cases with heq | ⟨name, entries, rfl, heq⟩
  · rw [heq]
    exact ⟨ho, hn, hk, fun d hd => hd⟩
  · rw [heq]
    have hmem : (name, FsNode.directory entries) ∈ [(name, FsNode.directory entries)] :=
      List.mem_singleton_self _
    cases ho with
    | directory _ hso =>
      cases hn with
      | directory _ hnc =>
        cases hk with
        | directory _ hkc =>
          refine ⟨hso _ hmem, hnc _ hmem, (hkc _ hmem).mono (Nat.sub_le ..), fun d hd => ?_⟩
          rw [FsNode.objects]
          exact .tail _ (mem_objectsAll.2 ⟨_, hmem, hd⟩)

/-- `strip_top` returns the root of the stripped tree. -/
theorem yielding_stripTop {file : FsNode} {root : Bytes} (hext : ext.Lawful) (ho : file.Ordered)
    (hn : file.Named) (href : (.d, root) = file.ref ext) (hobj : M root = some (file.object ext)) :
    Yielding M (fun root' => (.d, root') = file.stripTop.ref ext) (stripTop root) := by
  unfold stripTop
  refine yielding_readTree.bind ?_
  rintro es ⟨buf, hbuf, hes⟩
  obtain rfl := Option.some.inj (hobj.symm.trans hbuf)
  cases file with
  | regular executable contents => cases executable <;> cases congrArg Prod.fst href
  | symlink target => cases congrArg Prod.fst href
  | directory entries =>
    cases ho with
    | directory hs hso =>
      cases hn with
      | directory hn hnc =>
        rw [FsNode.object, decode_object hext hs hn] at hes
        obtain rfl := Except.ok.inj hes
        cases entries with
        | nil => exact .pure href
        | cons c rest =>
          obtain ⟨name, sub⟩ := c
          cases rest with
          | nil =>
            cases sub with
            | regular executable contents => cases executable <;> exact .pure href
            | symlink target => exact .pure href
            | directory entries' =>
              refine (yielding_true M _).bind fun _ _ => .pure ?_
              rfl
          | cons c' rest =>
            have hkeep : FsNode.stripTop (.directory ((name, sub) :: c' :: rest)) =
                .directory ((name, sub) :: c' :: rest) := by
              unfold FsNode.stripTop
              split
              · next h => cases h
              · rfl
            rw [hkeep, fsEntries_eq, List.map_cons, List.map_cons]
            split
            · next h => exact absurd (congrArg List.length h) (by simp)
            · exact .pure href
end

/-! ## Dumps of what is there -/

/-- The calls that look an object up. -/
def IsRead : Call → Prop
  | .get _ | .getView _ => True
  | _ => False

/-- A dump only reads. -/
theorem makes_narLoop (work : List NarWork) (out : List Bytes) {σ : Pending} :
    Eff.Makes IsRead (fun _ σ' => σ' = σ) (narLoop work out) σ := by
  induction work, out using narLoop.induct with
  | case1 out =>
    rw [narLoop]
    exact .pure rfl
  | case2 out str work ih =>
    rw [narLoop]
    exact ih
  | case3 out name type id depth work hdepth =>
    rw [narLoop, dif_pos hdepth]
    exact .throw rfl
  | case4 out name id depth work hdepth out₁ =>
    rename_i out₂ ih
    rw [narLoop, dif_neg hdepth]
    refine Eff.Makes.seq (T := fun _ σ' => σ' = σ) ?_ ?_ fun _ _ h => h
    · unfold readTree Cas.get
      refine Eff.Makes.seq (T := fun _ σ' => σ' = σ) (makes_ask trivial fun _ => rfl) ?_ fun _ _ h => h
      rintro data _ rfl
      cases data with
      | none => exact .throw rfl
      | some buf => exact .ofExcept rfl
    · rintro children _ rfl
      exact ih children
  | case5 out name id depth work hdepth out₁ type =>
    rename_i ih
    rw [narLoop, dif_neg hdepth]
    refine Eff.Makes.seq (T := fun _ σ' => σ' = σ) ?_ ?_ fun _ _ h => h
    · unfold narLeaf readBlobView Cas.getView
      refine Eff.Makes.seq (T := fun _ σ' => σ' = σ) (makes_ask trivial fun _ => rfl) ?_ fun _ _ h => h
      rintro data _ rfl
      cases data with
      | none => exact .throw rfl
      | some contents => exact .pure rfl
    · rintro chunks _ rfl
      exact ih chunks

/-- What is there is dumped when reads do not fail. -/
theorem Denotes.exists_dump {ext : Ext} {ok : Call → Sys → Choice → Prop} {p : Nat} {s : Sys} {root : Bytes}
    {file : FsNode} {σ : Pending} (hM : Keyed (s.blobs p)) (hfile : Denotes (s.blobs p) file (.d, root))
    (hin : FsNode.Within kMaxTreeDepth file) (hok : ∀ c s, IsRead c → ok c s {}) :
    ∃ tr chunks, Prog.Run (sem ext ok p) (narDump root σ) s tr (.ok chunks, σ) s := by
  have hanswer (c : Call) (s : Sys) (hc : IsRead c) :
      ∃ r s', sem ext (fun c s ch => ok c s ch ∧ unfailing c s ch) p c s r s' := by
    cases c with
    | get id | getView id => exact ⟨_, s, {}, ⟨hok _ s trivial, rfl⟩, rfl⟩
    | put | size | has | sync | compact | metaPut | metaGet | metaDel | metaScan | now => exact hc.elim
  obtain ⟨tr, ⟨x, σ'⟩, s', hr⟩ := Prog.Makes.exists_run hanswer (makes_narLoop _ _) s
  obtain ⟨rfl, rfl, -⟩ := narDump_run hr
  obtain ⟨chunks, rfl⟩ := (hfile.dumps hM hin _ _ tr x _ _ hr).2 fun _ _ _ h => h.2
  refine ⟨tr, chunks, hr.mono ?_⟩
  rintro c s r s' ⟨ch, hch, hx⟩
  exact ⟨ch, hch.1, hx⟩

end Tarmac.Tree
