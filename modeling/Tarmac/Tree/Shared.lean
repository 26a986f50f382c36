import Tarmac.Lib.Interleave
import Tarmac.Tree.Records

/-!
# Processes that share a directory

The programs of `Tarmac.Tree.Code` in several processes, whose calls take turns in any order
(`machine`). A process that is killed loses its touches and its batch.

Most of these programs only read, and write records of a few kinds. `Tame K` are the calls of a
program that puts no object, does not compact, and writes records only under the keys `K`. The other
programs make these calls, and a few more.
-/

namespace Tarmac.Tree

open PackCas

/-- The processes that have the directory open; `ok p` are the choices of the environment when the
process `p` makes a call. -/
def machine {O : Type} (ext : Ext) (ok : Nat → Call → Sys → Choice → Prop)
    (code : Nat → O → TreeM Unit) : Machine Nat sig Sys O Pending (Except Err Unit) where
  sem p := sem ext (ok p) p
  code p op σ := code p op σ
  init := []
  kill p s s' := s' = s.drop p

/-- No process runs an operation or has a touch in its queue. -/
def atRest {O : Type} (_ : Nat) : Process sig O Pending (Except Err Unit) := .idle []

/-! ## What the programs call -/

/-- The calls that put no object, sweep none, and write records only under the keys `K`. -/
def Tame (K : Bytes → Prop) : Call → Prop
  | .put .. | .compact _ => False
  | .metaPut key _ => K key
  | _ => True

/-- The keys under which every `TreeStore` writes. -/
structure OwnKeys (K : Bytes → Prop) : Prop where
  root : ∀ root tree, K (rootKey root tree)
  lastGc : K lastGcKey

/-- The queued touches are of keys in `K`. -/
def Queues (K : Bytes → Prop) (σ : Pending) : Prop := ∀ x ∈ σ, K x.1

section

variable {K : Bytes → Prop} {P : Call → Prop} {cfg : Config} {σ : Pending} {α : Type}

/-- A call that may be made. -/
theorem makes_ask {c : Call} {hc : c.Resp = Except Err α} {Q : Except Err α → Pending → Prop}
    (h : P c) (hQ : ∀ x, Q x σ) : Eff.Makes P Q (ask c hc) σ :=
  Eff.Makes.perform (S := sig) h fun _ => .ofExcept (hQ _)

/-- The clock may be asked. -/
theorem makes_nowNs {f : Nat → TreeM α} {Q : Except Err α → Pending → Prop} (h : P .now)
    (hf : ∀ n, Eff.Makes P Q (f n) σ) : Eff.Makes P Q (nowNs >>= f) σ :=
  Eff.Makes.perform (S := sig) h hf

/-- A touch of a root is queued. -/
theorem Queues.queueTouch {key : Bytes} {now : Nat} (h : Queues K σ) (hkey : K key) :
    Queues K (queueTouch key now σ) := by
  unfold Tree.queueTouch
  split
  · exact h
  · intro x hx
    rcases List.mem_append.1 hx with hx | hx
    · exact h x hx
    · cases List.mem_singleton.1 hx
      exact hkey

/-- `touchRoot` queues the touch of a root, and writes nothing. -/
theorem makes_touchRoot (hK : OwnKeys K) {root : Bytes} {tree : Bool} (h : Queues K σ) :
    Eff.Makes (Tame K) (fun _ σ' => Queues K σ') (touchRoot cfg root tree) σ := by
  unfold touchRoot
  refine Eff.Makes.seq (T := fun _ σ' => Queues K σ') (makes_ask trivial fun _ => h) ?_ fun _ _ h => h
  intro stamp σ' h'
  split
  · exact .pure h'
  · split
    · exact .pure h'
    · refine makes_nowNs trivial fun now => ?_
      split
      · exact .pure h'
      · exact h'.queueTouch (hK.root root tree)

/-- Touches are written under the keys that are queued. -/
theorem makes_writeTouches {batch : Pending} (h : Queues K batch) :
    Eff.Makes (Tame K) (fun _ σ' => σ' = σ) (writeTouches batch) σ := by
  induction batch generalizing σ with
  | nil => exact .pure rfl
  | cons x batch ih =>
    unfold writeTouches
    refine Eff.Makes.seq (T := fun _ σ' => σ' = σ) (makes_ask (h x (.head _)) fun _ => rfl) ?_
      fun _ _ h => h
    rintro _ _ rfl
    exact ih fun y hy => h y (.tail _ hy)

/-- `flush_touches` writes what is queued. -/
theorem makes_flushTouches (h : Queues K σ) :
    Eff.Makes (Tame K) (fun _ σ' => Queues K σ') flushTouches σ := by
  unfold flushTouches
  refine Eff.Makes.get (Eff.Makes.modify ?_)
  refine (makes_writeTouches h).mono (fun _ h => h) ?_
  rintro _ _ rfl
  exact nofun

theorem makes_sync (h : Queues K σ) :
    Eff.Makes (Tame K) (fun _ σ' => Queues K σ') sync σ := by
  unfold sync
  exact Eff.Makes.seq (makes_flushTouches h) (fun _ _ h' => makes_ask trivial fun _ => h')
    fun _ _ h => h

/-- `registerRoot` writes a root. -/
theorem makes_registerRoot (hK : OwnKeys K) {root : Bytes} {tree : Bool} (h : Queues K σ) :
    Eff.Makes (Tame K) (fun _ σ' => Queues K σ') (registerRoot root tree) σ := by
  unfold registerRoot
  exact makes_nowNs trivial fun _ => makes_ask (hK.root root tree) fun _ => h

/-- Deleting is tame. -/
theorem makes_deleteAll {keys : List Bytes} :
    Eff.Makes (Tame K) (fun _ σ' => σ' = σ) (deleteAll keys) σ := by
  induction keys with
  | nil => exact .pure rfl
  | cons key keys ih =>
    unfold deleteAll
    refine Eff.Makes.seq (T := fun _ σ' => σ' = σ) (makes_ask trivial fun _ => rfl) ?_ fun _ _ h => h
    rintro _ _ rfl
    exact ih

/-- So is the expiry of one kind of roots. -/
theorem makes_expireRoots {pre : Bytes} {now : Nat} :
    Eff.Makes (Tame K) (fun _ σ' => σ' = σ) (expireRoots cfg pre now) σ := by
  unfold expireRoots
  refine Eff.Makes.seq (T := fun _ σ' => σ' = σ) (makes_ask trivial fun _ => rfl) ?_ fun _ _ h => h
  rintro _ _ rfl
  refine Eff.Makes.seq (T := fun _ σ' => σ' = _) makes_deleteAll ?_ fun _ _ h => h
  rintro _ _ rfl
  exact .pure rfl

theorem makes_expireAll (hK : OwnKeys K) (h : Queues K σ) :
    Eff.Makes (Tame K) (fun _ σ' => Queues K σ') (expireAll cfg) σ := by
  unfold expireAll
  refine Eff.Makes.seq (makes_flushTouches h) ?_ fun _ _ h => h
  rintro _ σ' h'
  refine makes_nowNs trivial fun now => ?_
  refine Eff.Makes.seq (T := fun _ σ' => Queues K σ') (makes_ask trivial fun _ => h') ?_ fun _ _ h => h
  intro stamp σ' h'
  split
  · exact .pure h'
  · refine Eff.Makes.seq (T := fun _ σ' => Queues K σ') (makes_ask hK.lastGc fun _ => h') ?_
      fun _ _ h => h
    intro _ σ' h'
    have hexpire {σ' : Pending} {pre : Bytes} (h' : Queues K σ') :
        Eff.Makes (Tame K) (fun _ σ' => Queues K σ') (expireRoots cfg pre now) σ' := by
      refine makes_expireRoots.mono (fun _ h => h) ?_
      rintro _ _ rfl
      exact h'
    refine Eff.Makes.seq (hexpire h') ?_ fun _ _ h => h
    intro _ σ' h'
    refine Eff.Makes.seq (hexpire h') ?_ fun _ _ h => h
    intro _ σ' h'
    exact .pure h'

/-- Reading a directory is tame. -/
theorem makes_readTree {id : Bytes} :
    Eff.Makes (Tame K) (fun _ σ' => σ' = σ) (readTree id) σ := by
  unfold readTree
  refine Eff.Makes.seq (T := fun _ σ' => σ' = σ) (makes_ask trivial fun _ => rfl) ?_ fun _ _ h => h
  rintro data _ rfl
  split
  · exact .throw rfl
  · exact .ofExcept rfl

/-- An attempt makes the calls of what is tried. -/
theorem makes_attempt {m : TreeM α} (hm : Eff.Makes P (fun _ σ' => σ' = σ) m σ) :
    Eff.Makes P (fun _ σ' => σ' = σ) (attempt m) σ := by
  unfold attempt
  refine Eff.Makes.catchIf (T := fun _ σ' => σ' = σ)
    (Eff.Makes.seq hm (fun _ _ h => .pure h) fun _ _ h => h) (fun _ _ h => h) ?_ fun _ _ h _ => h
  rintro e _ rfl -
  exact .pure rfl

/-- Marks are added to those that are there. -/
theorem subset_markEntries (es : List TreeEntry) (pending live : List Bytes) :
    live ⊆ (markEntries es pending live).2 := by
  induction es generalizing pending live with
  | nil => exact fun _ h => h
  | cons e es ih =>
    unfold markEntries
    split
    · exact ih _ _
    · exact fun id hid => ih _ _ (.tail _ hid)

/-- The loop of `mark_live` only reads, and adds to the live ids. -/
theorem makes_markLoop {fuel : Nat} {pending live : List Bytes} :
    Eff.Makes (Tame K) (fun x σ' => σ' = σ ∧ ∀ out, x = .ok out → live ⊆ out.1)
      (markLoop fuel pending live) σ := by
  have hdone {out : Except Err Unit} : Eff.Makes (Tame K)
      (fun x σ' => σ' = σ ∧ ∀ out, x = .ok out → live ⊆ out.1)
      (pure (live, out) : TreeM (List Bytes × Except Err Unit)) σ := by
    refine .pure ⟨rfl, ?_⟩
    rintro _ ⟨⟩ _ hid
    exact hid
  induction fuel generalizing pending live with
  | zero =>
    cases pending with
    | nil => exact hdone
    | cons => exact .throw ⟨rfl, nofun⟩
  | succ fuel ih =>
    cases pending with
    | nil => exact hdone
    | cons id pending =>
      unfold markLoop
      refine Eff.Makes.seq (makes_attempt makes_readTree) ?_ fun _ _ h => ⟨h, nofun⟩
      rintro r _ rfl
      split
      · exact hdone
      · next entries =>
        refine (ih ?_).mono (fun _ h => h) ?_
        · intro out
          refine .pure ⟨rfl, ?_⟩
          rintro _ ⟨⟩ _ hid
          exact hid
        · rintro x _ ⟨rfl, h⟩
          exact ⟨rfl, fun out hout => List.Subset.trans (subset_markEntries _ _ _) (h out hout)⟩

/-- `mark_live` adds its root. -/
theorem makes_markLive {fuel : Nat} {root : Bytes} {live : List Bytes} :
    Eff.Makes (Tame K) (fun x σ' => σ' = σ ∧ ∀ out, x = .ok out → root :: live ⊆ out.1)
      (markLive fuel root live) σ := by
  unfold markLive
  split
  · next h =>
    refine .pure ⟨rfl, ?_⟩
    rintro _ ⟨⟩
    exact List.cons_subset.2 ⟨h, fun _ h => h⟩
  · exact makes_markLoop

/-- The roots are marked, and what is marked stays marked. -/
theorem makes_markRoots {fuel : Nat} {roots live broken : List Bytes} :
    Eff.Makes (Tame K) (fun x σ' => σ' = σ ∧ ∀ out, x = .ok out → roots ++ live ⊆ out.1)
      (markRoots fuel roots live broken) σ := by
  induction roots generalizing live broken with
  | nil =>
    refine .pure ⟨rfl, ?_⟩
    rintro _ ⟨⟩ _ hid
    exact hid
  | cons root roots ih =>
    unfold markRoots
    refine Eff.Makes.seq makes_markLive ?_ fun _ _ h => ⟨h.1, nofun⟩
    rintro ⟨live', outcome⟩ σ' ⟨rfl, hlive⟩
    have hroot := hlive _ rfl
    have hrest {broken' : List Bytes} : Eff.Makes (Tame K)
        (fun x σ'' => σ'' = σ' ∧ ∀ out, x = .ok out → root :: roots ++ live ⊆ out.1)
        (markRoots fuel roots live' broken') σ' := by
      refine ih.mono (fun _ h => h) ?_
      rintro x _ ⟨rfl, h⟩
      refine ⟨rfl, fun out hout id hid => h out hout ?_⟩
      rcases List.mem_cons.1 hid with rfl | hid
      · exact List.mem_append_right _ (hroot (.head _))
      · rcases List.mem_append.1 hid with hid | hid
        · exact List.mem_append_left _ hid
        · exact List.mem_append_right _ (hroot (.tail _ hid))
    cases outcome with
    | ok => exact hrest
    | error e => exact hrest

end

/-! ## What the operations call -/

section

variable {K : Bytes → Prop} {P : Call → Prop} {cfg : Config} {json : Json} {fuel : Nat} {σ : Pending}
  {path : Bytes}

/-- `pathRecord` is tame. -/
theorem makes_pathRecord (hK : OwnKeys K) (h : Queues K σ) :
    Eff.Makes (Tame K) (fun _ σ' => Queues K σ') (pathRecord cfg json path) σ := by
  have hask {α : Type} {c : Call} {hc : c.Resp = Except Err α} {σ' : Pending}
      (hcall : Tame K c) (h : Queues K σ') :
      Eff.Makes (Tame K) (fun _ σ' => Queues K σ') (ask c hc) σ' :=
    makes_ask hcall fun _ => h
  unfold pathRecord
  refine Eff.Makes.seq (hask trivial h) ?_ fun _ _ h => h
  intro raw σ' h
  split
  · exact .pure h
  · refine Eff.Makes.seq (T := fun _ σ' => Queues K σ') (.ofExcept h) ?_ fun _ _ h => h
    intro rec σ' h
    refine Eff.Makes.seq (hask trivial h) ?_ fun _ _ h => h
    intro present σ' h
    split
    · exact Eff.Makes.seq (hask trivial h) (fun _ _ h => .pure h) fun _ _ h => h
    · exact Eff.Makes.seq (makes_touchRoot hK h) (fun _ _ h => .pure h) fun _ _ h => h

theorem makes_drvText (hK : OwnKeys K) (h : Queues K σ) :
    Eff.Makes (Tame K) (fun _ σ' => Queues K σ') (drvText cfg path) σ := by
  have hask {α : Type} {c : Call} {hc : c.Resp = Except Err α} {σ' : Pending}
      (hcall : Tame K c) (h : Queues K σ') :
      Eff.Makes (Tame K) (fun _ σ' => Queues K σ') (ask c hc) σ' :=
    makes_ask hcall fun _ => h
  unfold drvText
  refine Eff.Makes.seq (hask trivial h) ?_ fun _ _ h => h
  intro id σ' h
  split
  · exact .pure h
  · refine Eff.Makes.seq (hask trivial h) ?_ fun _ _ h => h
    intro contents σ' h
    split
    · exact Eff.Makes.seq (hask trivial h) (fun _ _ h => .pure h) fun _ _ h => h
    · exact Eff.Makes.seq (makes_touchRoot hK h) (fun _ _ h => .pure h) fun _ _ h => h

/-- A collection is, but for its `compact`. -/
theorem makes_maybeGc (hK : OwnKeys K) (htame : ∀ c, Tame K c → P c)
    (hcompact : ∀ live, P (.compact live)) (h : Queues K σ) :
    Eff.Makes P (fun _ σ' => Queues K σ') (maybeGc cfg fuel) σ := by
  have hcalls {α : Type} {m : TreeM α} {Q : Except Err α → Pending → Prop} {σ' : Pending}
      (hm : Eff.Makes (Tame K) Q m σ') : Eff.Makes P Q m σ' := hm.mono htame fun _ _ h => h
  have hask {α : Type} {c : Call} {hc : c.Resp = Except Err α} {σ' : Pending}
      (hcall : P c) (h : Queues K σ') : Eff.Makes P (fun _ σ' => Queues K σ') (ask c hc) σ' :=
    makes_ask hcall fun _ => h
  unfold maybeGc
  refine Eff.Makes.seq (hcalls (makes_expireAll hK h)) ?_ fun _ _ h => h
  intro due σ' h
  split
  · unfold collect
    refine Eff.Makes.seq (hask (htame _ trivial) h) ?_ fun _ _ h => h
    intro records σ₁ h
    refine Eff.Makes.seq (hcalls makes_markRoots) ?_ fun _ _ h' => h'.1 ▸ h
    rintro ⟨live, broken⟩ _ ⟨rfl, -⟩
    unfold sweep
    refine Eff.Makes.seq (hcalls makes_deleteAll) ?_ fun _ _ h' => h' ▸ h
    rintro _ _ rfl
    refine Eff.Makes.seq (hask (htame _ trivial) h) (fun _ _ h => ?_) fun _ _ h => h
    exact hask (hcompact _) h
  · exact .pure h

/-- `putBlob` makes one put. -/
theorem makes_putBlob (hput : ∀ tree d, P (.put tree d)) {data : Bytes} :
    Eff.Makes P (fun _ σ' => σ' = σ) (putBlob data) σ := by
  unfold putBlob Cas.put
  exact makes_ask (hput _ _) fun _ => rfl

theorem makes_putTree (hput : ∀ tree d, P (.put tree d)) {entries : List TreeEntry} :
    Eff.Makes P (fun _ σ' => σ' = σ) (putTree entries) σ := by
  unfold putTree Cas.put
  split
  · exact makes_ask (hput _ _) fun _ => rfl
  · exact .throw rfl

mutual

/-- The ingestion of a file makes only puts. -/
theorem makes_ingest (hput : ∀ tree d, P (.put tree d)) {file : FsNode} {σ : Pending} :
    Eff.Makes P (fun _ σ' => σ' = σ) (ingest file) σ := by
  cases file with
  | regular executable contents =>
    unfold ingest
    refine Eff.Makes.seq (makes_putBlob hput) ?_ fun _ _ h => h
    rintro id _ rfl
    exact .pure rfl
  | symlink target =>
    unfold ingest
    refine Eff.Makes.seq (makes_putBlob hput) ?_ fun _ _ h => h
    rintro id _ rfl
    exact .pure rfl
  | directory entries =>
    unfold ingest
    refine Eff.Makes.seq (makes_ingestAll hput) ?_ fun _ _ h => h
    rintro entries _ rfl
    refine Eff.Makes.seq (makes_putTree hput) ?_ fun _ _ h => h
    rintro id _ rfl
    exact .pure rfl

/-- So does that of the entries of a directory. -/
theorem makes_ingestAll (hput : ∀ tree d, P (.put tree d)) {entries : List (Bytes × FsNode)}
    {σ : Pending} : Eff.Makes P (fun _ σ' => σ' = σ) (ingestAll entries) σ := by
  cases entries with
  | nil => exact .pure rfl
  | cons entry rest =>
    obtain ⟨name, sub⟩ := entry
    unfold ingestAll
    refine Eff.Makes.seq (makes_ingest hput) ?_ fun _ _ h => h
    rintro ⟨type, id⟩ _ rfl
    refine Eff.Makes.seq (makes_ingestAll hput) ?_ fun _ _ h => h
    rintro entries _ rfl
    exact .pure rfl

end

/-- Registering a root, writing a record that names it, and committing. -/
theorem makes_publish (hK : OwnKeys K) (htame : ∀ c, Tame K c → P c) {id key : Bytes} {tree : Bool}
    (hkey : ∀ val, P (.metaPut key val)) (val : Except Err Bytes) (h : Queues K σ) :
    Eff.Makes P (fun _ σ' => Queues K σ')
      (do registerRoot id tree; let val ← Eff.ofExcept val; Cas.metaPut key val; sync) σ := by
  refine Eff.Makes.seq ((makes_registerRoot hK h).mono htame fun _ _ h => h) ?_ fun _ _ h => h
  intro _ σ' h
  refine Eff.Makes.seq (T := fun _ σ' => Queues K σ') (.ofExcept h) ?_ fun _ _ h => h
  intro val σ' h
  exact Eff.Makes.seq (T := fun _ σ' => Queues K σ') (makes_ask (hkey val) fun _ => h)
    (fun _ _ h => (makes_sync h).mono htame fun _ _ h => h) fun _ _ h => h

/-- `addToStore` writes its own record. -/
theorem makes_addObject (hK : OwnKeys K) (htame : ∀ c, Tame K c → P c)
    (hput : ∀ tree d, P (.put tree d)) {info : PathInfo} {file : FsNode}
    (hkey : ∀ val, P (.metaPut (kPathPrefix ++ info.path) val)) (h : Queues K σ) :
    Eff.Makes P (fun _ σ' => Queues K σ') (addObject cfg json info file) σ := by
  unfold addObject
  refine Eff.Makes.seq ((makes_pathRecord hK h).mono htame fun _ _ h => h) ?_ fun _ _ h => h
  intro found σ' h
  cases found with
  | some rec => exact .pure h
  | none =>
    refine Eff.Makes.seq (makes_ingest hput) ?_ fun _ _ h' => h' ▸ h
    rintro ⟨type, id⟩ _ rfl
    exact makes_publish hK htame hkey _ h

/-- `writeDerivation` likewise. -/
theorem makes_writeDerivation (hK : OwnKeys K) (htame : ∀ c, Tame K c → P c)
    (hput : ∀ tree d, P (.put tree d)) {contents : Bytes}
    (hkey : ∀ val, P (.metaPut (kDrvPrefix ++ path) val)) (h : Queues K σ) :
    Eff.Makes P (fun _ σ' => Queues K σ') (writeDerivation cfg path contents) σ := by
  unfold writeDerivation
  refine Eff.Makes.seq ((makes_drvText hK h).mono htame fun _ _ h => h) ?_ fun _ _ h => h
  intro found σ' h
  cases found with
  | some text => exact .pure h
  | none =>
    refine Eff.Makes.seq (makes_putBlob hput) ?_ fun _ _ h' => h' ▸ h
    rintro id _ rfl
    exact makes_publish hK htame hkey (.ok id) h

/-- A level of directories is put. -/
theorem makes_flushLevel (hput : ∀ tree d, P (.put tree d)) {level : List (List (Bytes × MemNode Bytes))}
    {ids : List Bytes} : Eff.Makes P (fun _ σ' => σ' = σ) (flushLevel level ids) σ := by
  induction level generalizing ids with
  | nil => exact .pure rfl
  | cons dir level ih =>
    unfold flushLevel
    refine Eff.Makes.seq ih ?_ fun _ _ h => h
    rintro rest _ rfl
    refine Eff.Makes.seq (makes_putTree hput) ?_ fun _ _ h => h
    rintro id _ rfl
    exact .pure rfl

theorem makes_flushLevels (hput : ∀ tree d, P (.put tree d)) {n : Nat}
    {level : List (List (Bytes × MemNode Bytes))} :
    Eff.Makes P (fun _ σ' => σ' = σ) (flushLevels n level) σ := by
  induction n generalizing level with
  | zero => exact .pure rfl
  | succ n ih =>
    unfold flushLevels
    split
    · exact .pure rfl
    · refine Eff.Makes.seq ih ?_ fun _ _ h => h
      rintro ids _ rfl
      exact makes_flushLevel hput

/-- `flush_tree` makes only puts. -/
theorem makes_flushTree (hput : ∀ tree d, P (.put tree d)) {root : MemNode Bytes} :
    Eff.Makes P (fun _ σ' => σ' = σ) (flushTree root) σ := by
  unfold flushTree
  cases root with
  | leaf type id => exact .pure rfl
  | dir children =>
    refine Eff.Makes.seq (makes_flushLevels hput) ?_ fun _ _ h => h
    rintro ids _ rfl
    exact .pure rfl

/-- So does the application of an item. -/
theorem makes_applyItem (hput : ∀ tree d, P (.put tree d)) {st : MemNode Bytes × Nat} {item : TarItem} :
    Eff.Makes P (fun _ σ' => σ' = σ) (applyItem st item) σ := by
  have hadd {n : Nat} {x : Except Err (MemNode Bytes)} : Eff.Makes P (fun _ σ' => σ' = σ)
      (do let root ← Eff.ofExcept x; pure (root, n) : TreeM (MemNode Bytes × Nat)) σ := by
    refine Eff.Makes.seq (T := fun _ σ' => σ' = σ) (.ofExcept rfl) ?_ fun _ _ h => h
    rintro root _ rfl
    exact .pure rfl
  unfold applyItem
  refine Eff.Makes.seq (T := fun _ σ' => σ' = σ) (.ofExcept rfl) ?_ fun _ _ h => h
  rintro comps σ rfl
  split
  · refine Eff.Makes.seq (T := fun _ σ' => σ' = σ) (.ofExcept rfl) ?_ fun _ _ h => h
    rintro node _ rfl
    exact hadd
  · exact hadd
  · refine Eff.Makes.seq (makes_putBlob hput) ?_ fun _ _ h => h
    rintro id _ rfl
    exact hadd

theorem makes_applyItems (hput : ∀ tree d, P (.put tree d)) {st : MemNode Bytes × Nat}
    {items : List TarItem} : Eff.Makes P (fun _ σ' => σ' = σ) (applyItems st items) σ := by
  induction items generalizing st with
  | nil => exact .pure rfl
  | cons item items ih =>
    unfold applyItems
    refine Eff.Makes.seq (makes_applyItem hput) ?_ fun _ _ h => h
    rintro st' _ rfl
    exact ih

/-- The ingestion of an archive puts, and registers a root. -/
theorem makes_ingestTree (hK : OwnKeys K) (htame : ∀ c, Tame K c → P c)
    (hput : ∀ tree d, P (.put tree d)) {arc : Archive} (h : Queues K σ) :
    Eff.Makes P (fun _ σ' => Queues K σ') (ingestTree arc) σ := by
  unfold ingestTree
  refine Eff.Makes.seq (makes_applyItems hput) ?_ fun _ _ h' => h' ▸ h
  rintro ⟨root, files⟩ _ rfl
  cases arc.items.2 with
  | some e => exact .throw h
  | none =>
    refine Eff.Makes.seq (makes_flushTree hput) ?_ fun _ _ h' => h' ▸ h
    rintro id _ rfl
    refine Eff.Makes.seq ((makes_registerRoot hK h).mono htame fun _ _ h => h) ?_ fun _ _ h => h
    intro _ σ' h
    exact Eff.Makes.seq ((makes_sync h).mono htame fun _ _ h => h) (fun _ _ h => .pure h)
      fun _ _ h => h

end

/-! ## What the calls do when no batch is open -/

/-- Without batches every process sees the committed store. -/
theorem view_of_idle {s : Sys} (hw : s.writer = none) (p : Nat) :
    (s.model p).view = s.committed := by
  simp [Sys.model, Sys.batch, hw, Model.view]

/-- What a call that puts no object does to the committed store, with its answer. -/
inductive Wrote : (c : Call) → c.Resp → Store → Store → Prop where
  | nothing {c : Call} {r : c.Resp} {st : Store} : Wrote c r st st
  | putRecord {key val : Bytes} {st : Store} :
      Wrote (.metaPut key val) (Except.ok ()) st (st.putRecord key val)
  | delRecord {key : Bytes} {st : Store} : Wrote (.metaDel key) (Except.ok ()) st (st.delRecord key)
  | restrict {live : Bytes → Bool} {st : Store} :
      Wrote (.compact live) (Except.ok ()) st (st.restrict live)

/-- A call of a process when no process has a batch. -/
theorem exec_wrote {ext : Ext} {p : Nat} {ch : Choice} {c : Call} {r : c.Resp} {s s' : Sys}
    (hw : s.writer = none) (hc : ∀ tree d, c ≠ .put tree d) (h : exec ext p ch c s = some (r, s')) :
    s'.writer = none ∧ Wrote c r s.committed s'.committed := by
  have hmodel : s.model p = ⟨s.committed, none⟩ := by simp [Sys.model, Sys.batch, hw]
  have hwrite {st : Store} {stages : List Model} {x : Except Err Unit}
      (hx : s.write p ch () ⟨st, none⟩ stages = some (x, s'))
      (hstages : ∀ m ∈ stages, m = ⟨s.committed, none⟩) :
      s'.writer = none ∧ ((x = .ok () ∧ s'.committed = st) ∨ s'.committed = s.committed) := by
    obtain ⟨-, ⟨rfl, rfl⟩ | ⟨e, m', -, rfl, hm'⟩⟩ := Sys.write_cases hx
    · exact ⟨rfl, .inl ⟨rfl, rfl⟩⟩
    · obtain rfl : m' = ⟨s.committed, none⟩ := hm'.elim (fun h => h.trans hmodel) (hstages m')
      exact ⟨rfl, .inr rfl⟩
  cases c with
  | put tree d => exact absurd rfl (hc tree d)
  | sync =>
    rw [exec_sync, if_neg (by simp [Sys.batch, hw])] at h
    cases h
    exact ⟨hw, .nothing⟩
  | compact live =>
    unfold exec at h
    dsimp only at h
    rw [hmodel] at h
    have hstages : ∀ m ∈ [⟨s.committed, none⟩, (⟨s.committed, none⟩ : Model).sync],
        m = ⟨s.committed, none⟩ := by
      intro m hm
      rcases List.mem_cons.1 hm with rfl | hm
      · rfl
      · exact List.mem_singleton.1 hm
    obtain ⟨hnone, ⟨rfl, hst⟩ | hst⟩ := hwrite h hstages
    · exact ⟨hnone, hst ▸ .restrict⟩
    · exact ⟨hnone, hst ▸ .nothing⟩
  | metaPut key val =>
    unfold exec at h
    dsimp only at h
    rw [hmodel] at h
    obtain ⟨hnone, ⟨rfl, hst⟩ | hst⟩ := hwrite h fun m => List.mem_singleton.1
    · exact ⟨hnone, hst ▸ .putRecord⟩
    · exact ⟨hnone, hst ▸ .nothing⟩
  | metaDel key =>
    unfold exec at h
    dsimp only at h
    rw [hmodel] at h
    obtain ⟨hnone, ⟨rfl, hst⟩ | hst⟩ := hwrite h fun m => List.mem_singleton.1
    · exact ⟨hnone, hst ▸ .delRecord⟩
    · exact ⟨hnone, hst ▸ .nothing⟩
  | get | getView | size | has | metaGet | metaScan | now =>
    cases h
    exact ⟨hw, .nothing⟩

/-- The call writes, and has succeeded. -/
def changes : (c : Call) → c.Resp → Bool
  | .put .., .ok _ | .metaPut .., .ok _ | .metaDel _, .ok _ | .compact _, .ok _ => true
  | _, _ => false

/-- What a call does to the store as its own process sees it. -/
inductive Moves (ext : Ext) : (c : Call) → c.Resp → Store → Store → Prop where
  | nothing {c : Call} {r : c.Resp} {st : Store} (h : changes c r = false) : Moves ext c r st st
  | put {tree : Bool} {d : Bytes} {st : Store} :
      Moves ext (.put tree d) (Except.ok (ext.blake3 d)) st (st.add (ext.blake3 d) d)
  | putUncommitted {tree : Bool} {d : Bytes} {e : Err} {st : Store} :
      Moves ext (.put tree d) (Except.error e) st (st.add (ext.blake3 d) d)
  | putRecord {key val : Bytes} {st : Store} :
      Moves ext (.metaPut key val) (Except.ok ()) st (st.putRecord key val)
  | delRecord {key : Bytes} {st : Store} :
      Moves ext (.metaDel key) (Except.ok ()) st (st.delRecord key)
  | restrict {live : Bytes → Bool} {st : Store} :
      Moves ext (.compact live) (Except.ok ()) st (st.restrict live)

/-- A call of a process, and its own view. -/
theorem exec_moves {ext : Ext} {p : Nat} {ch : Choice} {c : Call} {r : c.Resp} {s s' : Sys}
    (h : exec ext p ch c s = some (r, s')) :
    Moves ext c r (s.model p).view (s'.model p).view := by
  have hwrite {m : Model} {stages : List Model} {x : Except Err Unit}
      (hx : s.write p ch () m stages = some (x, s'))
      (hstages : ∀ m ∈ stages, m.view = (s.model p).view) :
      (x = .ok () ∧ (s'.model p).view = m.view) ∨
        ∃ e, x = .error e ∧ (s'.model p).view = (s.model p).view := by
    obtain ⟨-, ⟨rfl, rfl⟩ | ⟨e, m', rfl, rfl, hm'⟩⟩ := Sys.write_cases hx
    · exact .inl ⟨rfl, by rw [Sys.model_setModel]⟩
    · rw [Sys.model_setModel]
      exact .inr ⟨e, rfl, hm'.elim (fun h => by rw [h]) (hstages m')⟩
  cases c with
  | put tree d =>
    obtain ⟨⟨x, s₁⟩, hx, heq⟩ := Option.map_eq_some_iff.1 h
    obtain ⟨-, ⟨rfl, rfl⟩ | ⟨e, m, rfl, rfl, hm⟩⟩ := Sys.write_cases hx
    · cases heq
      rw [Sys.model_noteTree, Sys.model_setModel, Model.view_put]
      exact .put
    · cases heq
      dsimp only
      rw [Sys.model_setModel]
      simp only [List.mem_cons, List.not_mem_nil, or_false] at hm
      rcases hm with rfl | rfl | rfl | rfl
      · exact .nothing rfl
      · exact .nothing rfl
      · exact .nothing rfl
      · exact .putUncommitted
  | sync =>
    rw [exec_sync] at h
    split at h
    · rcases hwrite h (fun m hm => by rw [List.mem_singleton.1 hm]) with ⟨-, hv⟩ | ⟨e, -, hv⟩
      · rw [hv]
        exact .nothing rfl
      · rw [hv]
        exact .nothing rfl
    · cases h
      exact .nothing rfl
  | compact live =>
    have hstages : ∀ m ∈ [s.model p, (s.model p).sync], m.view = (s.model p).view := by
      intro m hm
      rcases List.mem_cons.1 hm with rfl | hm
      · rfl
      · rw [List.mem_singleton.1 hm]
        rfl
    rcases hwrite h hstages with ⟨rfl, hv⟩ | ⟨e, rfl, hv⟩
    · rw [hv]
      exact .restrict
    · rw [hv]
      exact .nothing rfl
  | metaPut key val =>
    rcases hwrite h (fun m hm => by rw [List.mem_singleton.1 hm]) with ⟨rfl, hv⟩ | ⟨e, rfl, hv⟩
    · rw [hv, Model.view_update]
      exact .putRecord
    · rw [hv]
      exact .nothing rfl
  | metaDel key =>
    rcases hwrite h (fun m hm => by rw [List.mem_singleton.1 hm]) with ⟨rfl, hv⟩ | ⟨e, rfl, hv⟩
    · rw [hv, Model.view_update]
      exact .delRecord
    · rw [hv]
      exact .nothing rfl
  | get | getView | size | has | metaGet | metaScan | now =>
    cases h
    exact .nothing rfl

/-! ## What holds of every store -/

/-- `T` holds of the committed store, and of the store as each process sees it. -/
def Everywhere (T : Store → Prop) (s : Sys) : Prop := ∀ p, T s.committed ∧ T (s.model p).view

/-- Whatever the call does to a store, `T` goes on to hold of it. -/
structure KeptBy (ext : Ext) (T : Store → Prop) (c : Call) : Prop where
  put : ∀ tree d st, c = .put tree d → T st → T (st.add (ext.blake3 d) d)
  record : ∀ key val st, c = .metaPut key val → T st → T (st.putRecord key val)
  delete : ∀ key st, T st → T (st.delRecord key)
  sweep : ∀ live st, T st → T (st.restrict live)

section

variable {ext : Ext} {T : Store → Prop} {s s' : Sys} {p : Nat} {ch : Choice} {m : Model}

/-- What holds of both states of a process holds everywhere. -/
theorem Everywhere.setModel (hc : T m.committed) (hv : T m.view) : Everywhere T (s.setModel p m) := by
  intro q
  refine ⟨hc, ?_⟩
  by_cases hq : q = p
  · rw [hq, Sys.model_setModel]
    exact hv
  · unfold Sys.model Sys.batch Sys.setModel
    cases hb : m.batch with
    | none => exact hc
    | some b =>
      dsimp only [Option.map_some]
      rw [if_neg (Ne.symm hq)]
      exact hc

/-- It holds when a batch is dropped. -/
theorem Everywhere.drop (h : Everywhere T s) : Everywhere T (s.drop p) := by
  intro q
  by_cases hb : (s.batch p).isSome
  · have heq : s.drop p = { s with writer := none } := by rw [Sys.drop, if_pos hb]
    rw [heq]
    exact ⟨(h q).1, (h q).1⟩
  · have heq : s.drop p = s := by rw [Sys.drop, if_neg hb]
    rw [heq]
    exact h q

/-- A call that writes, when `T` holds of every store it can leave. -/
theorem Everywhere.write {α : Type} {a : α} {stages : List Model} {x : Except Err α × Sys}
    (h : Everywhere T s) (hall : ∀ m' ∈ m :: stages, T m'.committed ∧ T m'.view)
    (hw : s.write p ch a m stages = some x) : Everywhere T x.2 := by
  obtain ⟨x, s'⟩ := x
  obtain ⟨-, ⟨-, rfl⟩ | ⟨e, m', -, rfl, rfl | hm'⟩⟩ := Sys.write_cases hw
  · exact .setModel (hall m (.head _)).1 (hall m (.head _)).2
  · exact .setModel (h p).1 (h p).2
  · exact .setModel (hall m' (.tail _ hm')).1 (hall m' (.tail _ hm')).2

/-- A call of any process, whatever becomes of it. -/
theorem Everywhere.exec {c : Call} {r : c.Resp} (h : Everywhere T s) (hc : KeptBy ext T c)
    (hx : Tree.exec ext p ch c s = some (r, s')) : Everywhere T s' := by
  have hm : T (s.model p).committed ∧ T (s.model p).view := h p
  have hsync : T (s.model p).sync.committed ∧ T (s.model p).sync.view := ⟨hm.2, hm.2⟩
  have hupdate {f : Store → Store} (hf : ∀ st, T st → T (f st)) :
      T ((s.model p).update f).committed ∧ T ((s.model p).update f).view := by
    rw [Model.view_update]
    refine ⟨?_, hf _ hm.2⟩
    rcases Model.committed_update (s.model p) f with heq | heq <;> rw [heq]
    · exact hm.1
    · exact hf _ hm.2
  cases c with
  | put tree d =>
    have hadd := hc.put tree d _ rfl hm.2
    obtain ⟨y, hy, heq⟩ := Option.map_eq_some_iff.1 hx
    have hall := h.write (x := y) (fun m' hm' => by
      simp only [List.mem_cons, List.not_mem_nil, or_false] at hm'
      rcases hm' with rfl | rfl | rfl | rfl
      · rw [Model.view_put]
        refine ⟨?_, hadd⟩
        rcases Model.committed_put ext (s.model p) d with heq | heq <;> rw [heq]
        · exact hm.1
        · exact hadd
      · exact hm
      · exact hm
      · exact ⟨hm.1, hadd⟩) hy
    cases heq
    split
    · unfold Sys.noteTree
      split
      · exact hall
      · exact hall
    · exact hall
  | sync =>
    rw [exec_sync] at hx
    split at hx
    · refine h.write ?_ hx
      intro m' hm'
      simp only [List.mem_cons, List.not_mem_nil, or_false] at hm'
      rcases hm' with rfl | rfl
      · exact hsync
      · exact hm
    · cases hx
      exact h
  | compact live =>
    have hswept := hc.sweep live _ hm.2
    refine h.write (x := (r, s')) ?_ hx
    intro m' hm'
    simp only [List.mem_cons, List.not_mem_nil, or_false] at hm'
    rcases hm' with rfl | rfl | rfl
    · exact ⟨hswept, hswept⟩
    · exact hm
    · exact hsync
  | metaPut key val =>
    refine h.write (x := (r, s')) ?_ hx
    intro m' hm'
    simp only [List.mem_cons, List.not_mem_nil, or_false] at hm'
    rcases hm' with rfl | rfl
    · exact hupdate fun st => hc.record key val st rfl
    · exact hm
  | metaDel key =>
    refine h.write (x := (r, s')) ?_ hx
    intro m' hm'
    simp only [List.mem_cons, List.not_mem_nil, or_false] at hm'
    rcases hm' with rfl | rfl
    · exact hupdate fun st => hc.delete key st
    · exact hm
  | get | getView | size | has | metaGet | metaScan | now =>
    cases hx
    exact h

/-- What is kept by the calls the operations make holds throughout a run. -/
theorem everywhere_of_runs {O : Type} {ok : Nat → Call → Sys → Choice → Prop}
    {code : Nat → O → TreeM Unit} {P : Call → Prop} {J : Pending → Prop} {s₀ : Sys}
    {gs : Nat → Process sig O Pending (Except Err Unit)}
    {acts : List (Nat × Act sig O (Except Err Unit))} (hJ : J [])
    (hcode : ∀ p op σ, J σ → Eff.Makes P (fun _ σ' => J σ') (code p op) σ) (hs₀ : Everywhere T s₀)
    (hkept : ∀ p c s ch, P c → ok p c s ch → KeptBy ext T c)
    (hr : Runs (machine ext ok code).Step (atRest, s₀) acts (gs, s)) : Everywhere T s := by
  refine (hr.invariant (I := fun x => (∀ i, (x.1 i).Makes P J) ∧ Everywhere T x.2) ?_
    ⟨fun _ => hJ, hs₀⟩).2
  rintro ⟨i, a⟩ ⟨gs₁, s₁⟩ ⟨gs₂, s₂⟩ ⟨hmakes, h⟩ hstep
  cases hstep with
  | @move _ _ _ _ _ g hlocal =>
    dsimp only at hmakes h ⊢
    obtain ⟨hg, hcall⟩ := hlocal.makes (P := P) (J := J) (hcode i) hJ (hmakes i)
    refine ⟨fun j => ?_, ?_⟩
    · by_cases hj : j = i
      · rw [hj, Function.update_self]
        exact hg
      · rw [Function.update_of_ne hj]
        exact hmakes j
    · generalize gs₁ i = g₀ at hlocal
      cases hlocal with
      | start => exact h
      | call hsem =>
        obtain ⟨ch, hch, hx⟩ := hsem
        exact h.exec (hkept i _ _ ch (hcall _ rfl) hch) hx
      | done => exact h
      | kill hkill =>
        obtain rfl := hkill
        exact h.drop

end

/-! ## Rules -/

/-- A call that throws what it fails with. -/
theorem safe_blocking {W α : Type} {sem : Sem sig W} {I : W → Prop} {R G : W → W → Prop} {c : Call}
    {hc : c.Resp = Except Err α} {σ : Pending} {w : W} {Q : Except Err α → Pending → W → Prop}
    (h : ∀ w₁, I w₁ → R w w₁ → ∀ r w', sem c w₁ r w' →
      I w' ∧ G w₁ w' ∧ ∀ w₂, I w₂ → R w' w₂ → Q (hc ▸ r) σ w₂) :
    Eff.Safe (Rules.blocking sem I R G) Q (ask c hc) σ w := by
  refine Eff.Safe.perform fun w₁ hI hR => Rules.blocking_step fun r w' hsem => ?_
  obtain ⟨hI', hG, hQ⟩ := h w₁ hI hR r w' hsem
  refine ⟨hI', hG, ?_⟩
  generalize hr : (hc ▸ r : Except Err α) = x at hQ
  cases x with
  | ok a => exact Eff.Safe.pure hQ
  | error e => exact Eff.Safe.throw hQ

end Tarmac.Tree
