import Tarmac.Tree.Gives
import Tarmac.Tree.Nar

/-!
# Dumping a tree

What `nar_dump` gives to its sink. `Emits M work bytes` says what a list of work comes to in the
index `M`: the framed strings, and the NAR of the file trees its nodes stand for. The loop produces
exactly that (`safe_narLoop`), under any rules by which reads answer from the index and change
nothing (`Reading`); it fails only when there is nothing to produce, or a read fails.
-/

namespace Tarmac.Tree

open PackCas

/-- The outcome of a computation that looks for an `a` with `P a`: it found one, or failed. It only
fails for no reason when it is not `calm`. -/
def Yields {α : Type} (calm : Prop) (P : α → Prop) (x : Except Err α) : Prop :=
  match x with
  | .ok a => P a
  | .error _ => calm → ∀ a, ¬P a

/-- The answer to a lookup by hash. -/
def Looked (calm : Prop) (M : BlobMap) (h : Bytes) (x : Except Err (Option Bytes)) : Prop :=
  match x with
  | .ok r => r = M h
  | .error _ => calm → M h = none

/-- Under the rules `R`, reads of `p` change nothing and answer from its index, and they do not fail
when it is `calm`. -/
structure Reading (R : Rules sig Sys) (p : Nat) (calm : Prop) : Prop where
  refl : ∀ s, R.Rely s s
  rely : ∀ s s', R.Rely s s' → s' = s
  get : ∀ h s, R.Inv s → R.Step (.get h) (fun r s' => s' = s ∧ Looked calm (s.blobs p) h r) s
  getView : ∀ h s, R.Inv s →
    R.Step (.getView h) (fun r s' => s' = s ∧ Looked calm (s.blobs p) h r) s

/-- What a list of work comes to. -/
def Emits (M : BlobMap) : List NarWork → Bytes → Prop
  | [], bytes => bytes = []
  | .str s :: work, bytes => ∃ rest, bytes = frame 8 s ++ rest ∧ Emits M work rest
  | .node n :: work, bytes => ∃ file rest, Denotes M file n.entry.ref ∧
      n.depth ≤ kMaxTreeDepth ∧ FsNode.Within (kMaxTreeDepth - n.depth) file ∧
      bytes = frames 8 file.tokens ++ rest ∧ Emits M work rest

/-- A string is dumped as a frame. -/
@[simp] theorem flatten_narStr (s : Bytes) : (narStr s).flatten = frame 8 s := by
  unfold narStr frame padding
  by_cases h : s.length % 8 = 0 <;> simp [h]

section

variable {M : BlobMap} {id buf bytes : Bytes} {es : List TreeEntry} {depth : Nat}
  {work : List NarWork}

/-- A string on the list of work comes first. -/
theorem emits_str {s : Bytes} :
    Emits M (.str s :: work) bytes ↔ ∃ rest, bytes = frame 8 s ++ rest ∧ Emits M work rest := by
  rw [Emits]

/-- A node on the list of work is dumped when it is a tree that is not too deep. -/
theorem emits_node {e : TreeEntry} :
    Emits M (.node ⟨e, depth⟩ :: work) bytes ↔ ∃ file rest, Denotes M file e.ref ∧
      depth ≤ kMaxTreeDepth ∧ FsNode.Within (kMaxTreeDepth - depth) file ∧
      bytes = frames 8 file.tokens ++ rest ∧ Emits M work rest := by
  rw [Emits]

/-- The tokens of the first entry. -/
theorem entryTokens_cons {name : Bytes} {sub : FsNode} {rest : List (Bytes × FsNode)} :
    entryTokens ((name, sub) :: rest) = [ascii ['e', 'n', 't', 'r', 'y'], ascii ['('],
      ascii ['n', 'a', 'm', 'e'], name, ascii ['n', 'o', 'd', 'e']] ++
        (sub.tokens ++ (ascii [')'] :: entryTokens rest)) := by
  rw [entryTokens]

/-- What comes behind the strings of a list of work. -/
theorem Emits.strs {l : List Bytes} :
    Emits M (l.map NarWork.str ++ work) bytes ↔
      ∃ rest, bytes = frames 8 l ++ rest ∧ Emits M work rest := by
  induction l generalizing bytes with
  | nil => simp
  | cons s l ih =>
    rw [List.map_cons, List.cons_append, frames_cons, emits_str]
    constructor
    · rintro ⟨rest, rfl, h⟩
      obtain ⟨rest, rfl, hwork⟩ := ih.1 h
      exact ⟨rest, (List.append_assoc _ _ _).symm, hwork⟩
    · rintro ⟨rest, rfl, h⟩
      exact ⟨_, List.append_assoc _ _ _, ih.2 ⟨rest, rfl, h⟩⟩

/-- The work for the entries of a directory. -/
theorem emits_entries :
    Emits M (es.flatMap (narEntry depth) ++ work) bytes ↔
      ∃ entries rest, DenotesAll M entries es ∧
        (∀ c ∈ entries, depth + 1 ≤ kMaxTreeDepth ∧
          FsNode.Within (kMaxTreeDepth - (depth + 1)) c.2) ∧
        bytes = frames 8 (entryTokens entries) ++ rest ∧ Emits M work rest := by
  induction es generalizing bytes with
  | nil =>
    constructor
    · intro h
      refine ⟨[], bytes, ?_, fun _ hc => absurd hc List.not_mem_nil, ?_, h⟩
      · unfold DenotesAll
        trivial
      · unfold entryTokens
        rfl
    · rintro ⟨entries, rest, hall, -, rfl, h⟩
      cases entries with
      | cons c entries => unfold DenotesAll at hall; exact hall.elim
      | nil =>
        unfold entryTokens
        exact h
  | cons e es ih =>
    rw [List.flatMap_cons, List.append_assoc]
    constructor
    · intro h
      obtain ⟨rest₁, rfl, h₁⟩ := (Emits.strs (l := [ascii ['e', 'n', 't', 'r', 'y'], ascii ['('],
        ascii ['n', 'a', 'm', 'e'], e.name, ascii ['n', 'o', 'd', 'e']])).1 h
      obtain ⟨file, rest₂, hfile, hdepth, hin, rfl, h₂⟩ := emits_node.1 h₁
      obtain ⟨rest₃, rfl, h₃⟩ := emits_str.1 h₂
      obtain ⟨entries, rest, hall, hins, rfl, hwork⟩ := ih.1 h₃
      refine ⟨(e.name, file) :: entries, rest, ?_, ?_, ?_, hwork⟩
      · unfold DenotesAll
        exact ⟨rfl, hfile, hall⟩
      · intro c hc
        rcases List.mem_cons.1 hc with rfl | hc
        · exact ⟨hdepth, hin⟩
        · exact hins c hc
      · rw [entryTokens_cons]
        simp
    · rintro ⟨entries, rest, hall, hins, rfl, h⟩
      cases entries with
      | nil => unfold DenotesAll at hall; exact hall.elim
      | cons c entries =>
        obtain ⟨name, sub⟩ := c
        unfold DenotesAll at hall
        obtain ⟨rfl, hsub, hall⟩ := hall
        refine (Emits.strs (l := [ascii ['e', 'n', 't', 'r', 'y'], ascii ['('],
          ascii ['n', 'a', 'm', 'e'], e.name, ascii ['n', 'o', 'd', 'e']])).2
            ⟨frames 8 sub.tokens ++ (frame 8 (ascii [')']) ++
              (frames 8 (entryTokens entries) ++ rest)), ?_, ?_⟩
        · rw [entryTokens_cons]
          simp
        · have hrest := ih.2 ⟨entries, rest, hall, fun c hc => hins c (.tail _ hc), rfl, h⟩
          exact emits_node.2 ⟨sub, _, hsub, (hins _ (.head _)).1, (hins _ (.head _)).2, rfl,
            emits_str.2 ⟨_, rfl, hrest⟩⟩

/-- A directory comes to its entries. -/
theorem emits_directory (hbuf : M id = some buf) (hes : decodeTree buf = .ok es)
    (hdepth : ¬kMaxTreeDepth < depth) {name : Bytes} :
    Emits M (.node ⟨⟨name, .d, id⟩, depth⟩ :: work) bytes ↔
      ∃ rest, bytes = frames 8 [ascii ['('], ascii ['t', 'y', 'p', 'e'],
          ascii ['d', 'i', 'r', 'e', 'c', 't', 'o', 'r', 'y']] ++ rest ∧
        Emits M (narDirectory es depth ++ work) rest := by
  unfold narDirectory
  rw [List.append_assoc]
  constructor
  · intro h
    obtain ⟨file, rest, hfile, -, hin, rfl, hwork⟩ := emits_node.1 h
    cases file with
    | regular => unfold Denotes at hfile; cases hfile.1
    | symlink => unfold Denotes at hfile; cases hfile.1
    | directory entries =>
      unfold Denotes at hfile
      obtain ⟨-, buf', es', hbuf', hes', hall⟩ := hfile
      obtain rfl := Option.some.inj (hbuf.symm.trans hbuf')
      obtain rfl := Except.ok.inj (hes.symm.trans hes')
      cases hin with
      | directory hpos hin =>
        refine ⟨frames 8 (entryTokens entries) ++ (frame 8 (ascii [')']) ++ rest), ?_, ?_⟩
        · unfold FsNode.tokens
          simp
        · refine emits_entries.2 ⟨entries, _, hall, ?_, rfl, ?_⟩
          · intro c hc
            have hpos := hpos c hc
            exact ⟨by omega, Nat.sub_sub _ depth 1 ▸ hin c hc⟩
          · exact emits_str.2 ⟨rest, rfl, hwork⟩
  · rintro ⟨rest, rfl, h⟩
    obtain ⟨entries, rest₁, hall, hins, rfl, h₁⟩ := emits_entries.1 h
    obtain ⟨rest, rfl, hwork⟩ := emits_str.1 h₁
    refine emits_node.2 ⟨.directory entries, rest, ?_, by omega, ?_, ?_, hwork⟩
    · unfold Denotes
      exact ⟨rfl, buf, es, hbuf, hes, hall⟩
    · refine .directory (fun c hc => ?_) fun c hc => ?_
      · have hle := (hins c hc).1
        omega
      · rw [Nat.sub_sub]
        exact (hins c hc).2
    · unfold FsNode.tokens
      simp

end

/-! ## The loop -/

section

variable {R : Rules sig Sys} {p : Nat} {calm : Prop} {s : Sys} {σ : Pending} {α β : Type}

/-- The computation reads, and finds an `a` with `P a` if there is one. -/
def Finds (R : Rules sig Sys) (calm : Prop) (P : α → Prop) (m : TreeM α) (σ : Pending) (s : Sys) :
    Prop :=
  Eff.Safe R (fun x σ' s' => σ' = σ ∧ s' = s ∧ Yields calm P x) m σ s

theorem Finds.congr {P Q : α → Prop} {m : TreeM α} (h : ∀ a, P a ↔ Q a)
    (hm : Finds R calm P m σ s) : Finds R calm Q m σ s := by
  rwa [show Q = P from funext fun a => propext (h a).symm]

/-- A program that returns what is looked for. -/
theorem Reading.pure (hR : Reading R p calm) {P : α → Prop} {a : α} (h : P a) :
    Finds R calm P (Pure.pure a) σ s := by
  refine Eff.Safe.pure ?_
  rintro s₁ - hrely
  exact ⟨rfl, hR.rely _ _ hrely, h⟩

/-- A program that throws, when there is nothing to be found. -/
theorem Reading.throw (hR : Reading R p calm) {P : α → Prop} {e : Err} (h : calm → ∀ a, ¬P a) :
    Finds R calm P (Eff.throw e) σ s := by
  refine Eff.Safe.throw ?_
  rintro s₁ - hrely
  exact ⟨rfl, hR.rely _ _ hrely, h⟩

theorem Reading.ofExcept (hR : Reading R p calm) {P : α → Prop} {x : Except Err α}
    (h : Yields calm P x) : Finds R calm P (Eff.ofExcept x) σ s := by
  cases x with
  | ok a => exact hR.pure h
  | error e => exact hR.throw h

theorem Reading.bind (hR : Reading R p calm) (hs : R.Inv s) {P : β → Prop} {Q : α → Prop}
    {m : TreeM β} {f : β → TreeM α} (hm : Finds R calm P m σ s)
    (hf : ∀ b, P b → Finds R calm Q (f b) σ s) (hno : (∀ b, ¬P b) → ∀ a, ¬Q a) :
    Finds R calm Q (m >>= f) σ s := by
  refine Eff.Safe.seq hR.refl hs hm ?_ ?_
  · rintro b σ' s' - ⟨rfl, rfl, hP⟩
    exact hf b hP
  · rintro e σ' s' - ⟨rfl, rfl, he⟩
    exact ⟨rfl, rfl, fun hcalm => hno (he hcalm)⟩

/-- A lookup by hash, of an object without which there is nothing to be found. -/
theorem Reading.lookup (hR : Reading R p calm) {c : Call} {hc : c.Resp = Except Err (Option Bytes)}
    {id : Bytes} {f : Option Bytes → TreeM α} {Q : α → Prop} (hs : R.Inv s)
    (hstep : R.Step c (fun r s' => s' = s ∧ Looked calm (s.blobs p) id (hc ▸ r)) s)
    (hnone : s.blobs p id = none → ∀ a, ¬Q a) (hthrow : ∃ e, f none = Eff.throw e)
    (hsome : ∀ d, s.blobs p id = some d → Finds R calm Q (f (some d)) σ s) :
    Finds R calm Q (ask c hc >>= f) σ s := by
  refine Eff.Safe.seq (P := fun x σ' s' => σ' = σ ∧ s' = s ∧ Looked calm (s.blobs p) id x)
    hR.refl hs ?_ ?_ ?_
  · refine Eff.Safe.perform ?_
    intro s₁ _ hrely
    obtain rfl := hR.rely _ _ hrely
    obtain ⟨hwait, hall⟩ := hstep
    refine ⟨hwait, fun r s' hsem => ?_⟩
    obtain ⟨hinv, hguar, rfl, hr⟩ := hall r s' hsem
    refine ⟨hinv, hguar, ?_⟩
    dsimp only
    generalize (hc ▸ r : Except Err (Option Bytes)) = x at hr ⊢
    cases x with
    | ok a => exact Eff.Safe.pure fun s₂ _ hrely => ⟨rfl, hR.rely _ _ hrely, hr⟩
    | error e => exact Eff.Safe.throw fun s₂ _ hrely => ⟨rfl, hR.rely _ _ hrely, hr⟩
  · rintro r σ' s' - ⟨rfl, rfl, hr⟩
    cases hM : s'.blobs p id with
    | none =>
      obtain ⟨e, he⟩ := hthrow
      have hr : r = none := hr.trans hM
      rw [hr, he]
      exact hR.throw fun _ => hnone hM
    | some d =>
      have hr : r = some d := hr.trans hM
      rw [hr]
      exact hsome d hM
  · rintro e σ' s' - ⟨rfl, rfl, he⟩
    exact ⟨rfl, rfl, fun hcalm => hnone (he hcalm)⟩

/-- `readTree` finds the entries of a directory. -/
theorem Reading.readTree (hR : Reading R p calm) (hs : R.Inv s) {id : Bytes} :
    Finds R calm (fun es => ∃ buf, s.blobs p id = some buf ∧ decodeTree buf = .ok es)
      (readTree id) σ s := by
  unfold Tree.readTree
  refine hR.lookup hs (hR.get id s hs) ?_ ⟨_, rfl⟩ ?_
  · rintro hnone es ⟨buf, hbuf, -⟩
    rw [hnone] at hbuf
    cases hbuf
  · intro buf hbuf
    refine hR.ofExcept ?_
    cases hes : decodeTree buf with
    | ok es => exact ⟨buf, hbuf, hes⟩
    | error e =>
      rintro - es ⟨buf', hbuf', hes'⟩
      obtain rfl := Option.some.inj (hbuf.symm.trans hbuf')
      rw [hes] at hes'
      cases hes'

/-- `nar_leaf` finds the file of a leaf. -/
theorem Reading.narLeaf (hR : Reading R p calm) (hs : R.Inv s) {type : LeafType} {id : Bytes} :
    Finds R calm (fun chunks => ∃ d, s.blobs p id = some d ∧ frames 8 (leafFile type d).tokens =
      frames 8 [ascii ['('], ascii ['t', 'y', 'p', 'e']] ++ chunks.flatten)
      (narLeaf type id) σ s := by
  unfold Tree.narLeaf readBlobView Cas.getView
  refine hR.lookup hs (hR.getView id s hs) ?_ ⟨_, rfl⟩ ?_
  · rintro hnone chunks ⟨d, hd, -⟩
    rw [hnone] at hd
    cases hd
  · intro contents hcontents
    refine hR.pure ⟨contents, hcontents, ?_⟩
    obtain _ | _ | _ := type
    all_goals
      unfold leafFile FsNode.tokens
      simp

/-- The loop gives the sink what the work comes to. -/
theorem Reading.narLoop (hR : Reading R p calm) (hs : R.Inv s) (work : List NarWork)
    (out : List Bytes) :
    Finds R calm (fun chunks => ∃ bytes, Emits (s.blobs p) work bytes ∧
      chunks.flatten = out.flatten ++ bytes) (narLoop work out) σ s := by
  induction work, out using narLoop.induct with
  | case1 out =>
    rw [Tree.narLoop]
    exact hR.pure ⟨[], by rw [Emits], (List.append_nil _).symm⟩
  | case2 out str work ih =>
    rw [Tree.narLoop]
    refine ih.congr fun chunks => ?_
    constructor
    · rintro ⟨bytes, hbytes, heq⟩
      exact ⟨frame 8 str ++ bytes, emits_str.2 ⟨bytes, rfl, hbytes⟩, by simp [heq]⟩
    · rintro ⟨bytes, hbytes, heq⟩
      obtain ⟨rest, rfl, hrest⟩ := emits_str.1 hbytes
      exact ⟨rest, hrest, by simp [heq]⟩
  | case3 out name type id depth work hdepth =>
    rw [Tree.narLoop, dif_pos hdepth]
    refine hR.throw ?_
    rintro - chunks ⟨bytes, hbytes, -⟩
    obtain ⟨file, rest, -, hle, -⟩ := emits_node.1 hbytes
    omega
  | case4 out name id depth work hdepth out₁ out₂ ih =>
    rw [Tree.narLoop, dif_neg hdepth]
    refine hR.bind hs (hR.readTree hs) ?_ ?_
    · rintro es ⟨buf, hbuf, hes⟩
      refine (ih es).congr fun chunks => ?_
      constructor
      · rintro ⟨bytes, hbytes, heq⟩
        exact ⟨_, (emits_directory hbuf hes hdepth).2 ⟨bytes, rfl, hbytes⟩, by simp [heq, out₂, out₁]⟩
      · rintro ⟨bytes, hbytes, heq⟩
        obtain ⟨rest, rfl, hrest⟩ := (emits_directory hbuf hes hdepth).1 hbytes
        exact ⟨rest, hrest, by simp [heq, out₂, out₁]⟩
    · rintro hno chunks ⟨bytes, hbytes, -⟩
      obtain ⟨file, rest, hfile, -⟩ := emits_node.1 hbytes
      obtain ⟨-, buf, es, -, hbuf, hes, -⟩ := denotes_directory.1 hfile
      exact hno es ⟨buf, hbuf, hes⟩
  | case5 out name id depth work hdepth out₁ type ih =>
    rw [Tree.narLoop, dif_neg hdepth]
    refine hR.bind hs (hR.narLeaf hs) ?_ ?_
    · rintro chunks₁ ⟨d, hd, hchunks⟩
      refine (ih chunks₁).congr fun chunks => ?_
      constructor
      · rintro ⟨bytes, hbytes, heq⟩
        refine ⟨frames 8 (leafFile type d).tokens ++ bytes, emits_node.2 ⟨leafFile type d, bytes,
          denotes_leaf.2 ⟨d, hd, rfl⟩, by omega, within_leafFile _ _, rfl, hbytes⟩, ?_⟩
        simp [heq, hchunks, out₁]
      · rintro ⟨bytes, hbytes, heq⟩
        obtain ⟨file, rest, hfile, -, -, rfl, hrest⟩ := emits_node.1 hbytes
        obtain ⟨d', hd', rfl⟩ := denotes_leaf.1 hfile
        obtain rfl := Option.some.inj (hd.symm.trans hd')
        exact ⟨rest, hrest, by simp [heq, hchunks, out₁]⟩
    · rintro hno chunks ⟨bytes, hbytes, -⟩
      obtain ⟨file, rest, hfile, -⟩ := emits_node.1 hbytes
      obtain ⟨d, hd, rfl⟩ := denotes_leaf.1 hfile
      refine hno [frames 8 ((leafFile type d).tokens.drop 2)] ⟨d, hd, ?_⟩
      obtain _ | _ | _ := type
      all_goals
        unfold leafFile FsNode.tokens
        simp

/-- `nar_dump` finds the NAR of a file tree that is not too deep. -/
theorem Reading.narDump (hR : Reading R p calm) (hs : R.Inv s) (root : Bytes) :
    Finds R calm (fun chunks => ∃ file, Denotes (s.blobs p) file (.d, root) ∧
      FsNode.Within kMaxTreeDepth file ∧ chunks.flatten = file.nar) (narDump root) σ s := by
  unfold Tree.narDump
  refine (hR.narLoop hs _ _).congr fun chunks => ?_
  constructor
  · rintro ⟨bytes, hbytes, heq⟩
    obtain ⟨file, rest, hfile, -, hin, rfl, hrest⟩ := emits_node.1 hbytes
    rw [Emits] at hrest
    subst hrest
    refine ⟨file, hfile, hin, ?_⟩
    rw [heq, FsNode.nar, frames_cons, flatten_narStr, List.append_nil]
  · rintro ⟨file, hfile, hin, heq⟩
    refine ⟨frames 8 file.tokens, emits_node.2 ⟨file, [], hfile, Nat.zero_le _, hin,
      (List.append_nil _).symm, by rw [Emits]⟩, ?_⟩
    rw [heq, FsNode.nar, frames_cons, flatten_narStr]

end

/-! ## A store that is only read -/

/-- The rules of a program that reads the store `s₀` and leaves it as it is. -/
def reading (ext : Ext) (ok : Call → Sys → Choice → Prop) (p : Nat) (s₀ : Sys) : Rules sig Sys where
  sem := sem ext ok p
  Inv s := s = s₀
  Rely := Eq
  Guar := Eq
  Wait c s := ∀ ch, ¬ok c s ch

section

variable {ext : Ext} {ok : Call → Sys → Choice → Prop} {p : Nat} {s s' : Sys} {σ σ' : Pending}
  {root : Bytes}

/-- A lookup answers from the index. -/
theorem looked {ch : Choice} {h : Bytes} {C : Prop} (hC : C → ch.fail = none ∧ Keyed (s.blobs p)) :
    Looked C (s.blobs p) h (ch.lookup h (s.blobs p h)) := by
  unfold Choice.lookup Choice.read
  split
  · next hlen =>
    intro hcalm
    refine Option.not_isSome_iff_eq_none.1 fun hsome => hlen ?_
    exact (hC hcalm).2 h hsome
  · cases hfail : ch.fail with
    | none => exact rfl
    | some e =>
      intro hcalm
      rw [(hC hcalm).1] at hfail
      cases hfail

/-- Reading alone is a way of reading. -/
theorem reading_reading :
    Reading (reading ext ok p s) p ((∀ c s ch, ok c s ch → unfailing c s ch) ∧ Keyed (s.blobs p)) where
  refl _ := rfl
  rely _ _ h := h.symm
  get h s₁ hs := by
    obtain rfl : s₁ = s := hs
    refine ⟨?_, ?_⟩
    · by_cases hok : ∃ ch, ok (.get h) s₁ ch
      · obtain ⟨ch, hch⟩ := hok
        exact .inr ⟨_, _, ch, hch, rfl⟩
      · exact .inl fun ch hch => hok ⟨ch, hch⟩
    · rintro r s' ⟨ch, hch, hx⟩
      cases hx
      exact ⟨rfl, rfl, rfl, looked fun hC => ⟨hC.1 _ _ _ hch, hC.2⟩⟩
  getView h s₁ hs := by
    obtain rfl : s₁ = s := hs
    refine ⟨?_, ?_⟩
    · by_cases hok : ∃ ch, ok (.getView h) s₁ ch
      · obtain ⟨ch, hch⟩ := hok
        exact .inr ⟨_, _, ch, hch, rfl⟩
      · exact .inl fun ch hch => hok ⟨ch, hch⟩
    · rintro r s' ⟨ch, hch, hx⟩
      cases hx
      exact ⟨rfl, rfl, rfl, looked fun hC => ⟨hC.1 _ _ _ hch, hC.2⟩⟩

/-- How a dump of a store ends. -/
theorem narDump_run {tr : List (Tarmac.Event sig)} {x : Except Err (List Bytes)}
    (hr : Prog.Run (sem ext ok p) (narDump root σ) s tr (x, σ') s') :
    s' = s ∧ σ' = σ ∧ Yields ((∀ c s ch, ok c s ch → unfailing c s ch) ∧ Keyed (s.blobs p))
      (fun chunks => ∃ file, Denotes (s.blobs p) file (.d, root) ∧
        FsNode.Within kMaxTreeDepth file ∧ chunks.flatten = file.nar) x := by
  have hR : Reading (reading ext ok p s) p _ := reading_reading
  have hfinds := hR.narDump (σ := σ) (s := s) rfl root
  obtain ⟨hσ, hs, hx⟩ := (Prog.Safe.run (R := reading ext ok p s) (fun _ => rfl) hr rfl hfinds).2
  exact ⟨hs, hσ, hx⟩

/-- A dump ends, whatever it finds. -/
theorem exists_narDump_run (hok : ∀ c s, ∃ ch, ok c s ch) :
    ∃ tr x, Prog.Run (sem ext ok p) (narDump root σ) s tr (x, σ) s := by
  have hR : Reading (reading ext ok p s) p _ := reading_reading
  have hfinds := hR.narDump (σ := σ) (s := s) rfl root
  obtain ⟨tr, ⟨x, σ'⟩, s', hr⟩ := Prog.Safe.exists_run (R := reading ext ok p s) (fun _ => rfl)
    (fun c w _ hwait => by
      obtain ⟨ch, hch⟩ := hok c w
      exact hwait ch hch) rfl hfinds
  obtain ⟨rfl, rfl, -⟩ := narDump_run hr
  exact ⟨tr, x, hr⟩

end

end Tarmac.Tree
