import Tarmac.Lib.Runs
import Tarmac.Tree.Stores

/-!
# Records survive a kill

Objects are put before the records that refer to them, and children before their parents. So however
a batch is cut into commits, and wherever the process is killed, no record of the committed store
refers to a tree of which an object is missing (`killed_recordsOk`).

The proof follows the programs with one judgement, `Adds`: the program keeps what holds of the
store, every blob that was there is there afterwards, and its result refers to whole trees.
-/

namespace Tarmac.Tree

open PackCas

/-- Every call may fail, and the clock may show anything; the objects put satisfy `S`. -/
def puts (S : Bytes → Prop) (c : Call) (_ : Sys) (_ : Choice) : Prop :=
  ∀ tree d, c = .put tree d → S d

/-- What holds of a store: blobs are filed under their hashes, records refer to whole trees. -/
structure Sound (ext : Ext) (S : Bytes → Prop) (json : Json) (s : Store) : Prop where
  indexed : Indexed ext S s.blobs
  records : RecordsOk json s

/-- What holds of the committed store and of the batch of `p`. -/
structure Durable (ext : Ext) (S : Bytes → Prop) (json : Json) (p : Nat) (s : Sys) : Prop where
  committed : Sound ext S json s.committed
  view : Sound ext S json (s.model p).view

/-- The queued touches are of roots that are whole. -/
def TouchesOk (M : BlobMap) (σ : Pending) : Prop :=
  ∀ key stamp, (key, stamp) ∈ σ → ∃ root tree, key = rootKey root tree ∧ Whole M (rootType tree, root)

section

variable {ext : Ext} {S : Bytes → Prop} {json : Json} {p : Nat} {s s' s₁ : Sys} {σ σ' : Pending}
  {α β : Type}

/-! ## What the calls keep -/

/-- A store stays sound when a blob is added. -/
theorem Sound.add {st : Store} {d : Bytes} (h : Sound ext S json st) (hd : S d) :
    Sound ext S json (st.add (ext.blake3 d) d) :=
  ⟨h.indexed.add hd, h.records.add _ _⟩

/-- It stays sound when a record is put that is. -/
theorem Sound.putRecord {st : Store} {key val : Bytes} (h : Sound ext S json st)
    (hr : RecordOk json st.blobs key val) : Sound ext S json (st.putRecord key val) :=
  ⟨h.indexed, h.records.putRecord hr⟩

theorem Sound.delRecord {st : Store} {key : Bytes} (h : Sound ext S json st) :
    Sound ext S json (st.delRecord key) :=
  ⟨h.indexed, h.records.delRecord⟩

/-- The store `p` sees when it changes it. -/
theorem view_setModel (s : Sys) (p : Nat) (m : Model) : ((s.setModel p m).model p).view = m.view := by
  rw [Sys.model_setModel]

/-- The store of a process is durable when both its states are sound. -/
theorem Durable.setModel {m : Model} (hc : Sound ext S json m.committed)
    (hv : Sound ext S json m.view) : Durable ext S json p (s.setModel p m) :=
  ⟨hc, by rwa [view_setModel]⟩

/-! ## What a program adds -/

/-- What a program may begin with. -/
structure Ready (ext : Ext) (S : Bytes → Prop) (json : Json) (p : Nat) (σ : Pending) (s : Sys) :
    Prop where
  inv : (solo ext (puts S) p (Durable ext S json p)).Inv s
  touches : TouchesOk (s.blobs p) σ

/-- The program keeps what holds of the store and all its blobs, and `Q` holds of its result. -/
def Adds (ext : Ext) (S : Bytes → Prop) (json : Json) (p : Nat) (m : TreeM α)
    (Q : α → BlobMap → Prop) (σ : Pending) (s : Sys) : Prop :=
  Eff.Safe (solo ext (puts S) p (Durable ext S json p))
    (fun x σ' s' => Grows (s.blobs p) (s'.blobs p) ∧ TouchesOk (s'.blobs p) σ' ∧
      ∀ a, x = .ok a → Q a (s'.blobs p)) m σ s

/-- The queued touches stay good when more is stored. -/
theorem TouchesOk.mono {M M' : BlobMap} (h : Grows M M') (ht : TouchesOk M σ) : TouchesOk M' σ := by
  intro key stamp hmem
  obtain ⟨root, tree, hk, hw⟩ := ht key stamp hmem
  exact ⟨root, tree, hk, hw.mono h⟩

theorem Adds.pure {a : α} {Q : α → BlobMap → Prop} (hr : Ready ext S json p σ s)
    (h : Q a (s.blobs p)) : Adds ext S json p (Pure.pure a) Q σ s := by
  refine safe_pure ⟨.refl _, hr.touches, ?_⟩
  intro a' ha
  cases ha
  exact h

theorem Adds.throw {e : Err} {Q : α → BlobMap → Prop} (hr : Ready ext S json p σ s) :
    Adds ext S json p (Eff.throw e) Q σ s :=
  safe_throw ⟨.refl _, hr.touches, nofun⟩

theorem Adds.ofExcept {x : Except Err α} {Q : α → BlobMap → Prop} (hr : Ready ext S json p σ s)
    (h : ∀ a, x = .ok a → Q a (s.blobs p)) : Adds ext S json p (Eff.ofExcept x) Q σ s :=
  safe_ofExcept ⟨.refl _, hr.touches, h⟩

/-- Sequencing: the second part finds all blobs of the first. -/
theorem Adds.bind {m : TreeM β} {f : β → TreeM α} {P : β → BlobMap → Prop} {Q : α → BlobMap → Prop}
    (hr : Ready ext S json p σ s) (hm : Adds ext S json p m P σ s)
    (hf : ∀ b σ' s', Ready ext S json p σ' s' → Grows (s.blobs p) (s'.blobs p) →
      P b (s'.blobs p) → Adds ext S json p (f b) Q σ' s') :
    Adds ext S json p (m >>= f) Q σ s := by
  refine safe_bind hr.inv hm ?_ ?_
  · rintro b σ' s' hI ⟨hg, ht, hP⟩
    refine (hf b σ' s' ⟨hI, ht⟩ hg (hP b rfl)).mono ?_
    rintro x σ'' s'' - ⟨hg', ht', hQ⟩
    exact ⟨hg.trans hg', ht', hQ⟩
  · rintro e σ' s' - ⟨hg, ht, -⟩
    exact ⟨hg, ht, nofun⟩

/-- What a process notes of its trees does not matter. -/
theorem Durable.noteTree {tree : Bool} {id : Bytes} (h : Durable ext S json p s) :
    Durable ext S json p (s.noteTree tree id) :=
  ⟨by rw [Sys.committed_noteTree]; exact h.committed, by rw [Sys.model_noteTree]; exact h.view⟩

/-- A put stores the blob: whether it commits, fails halfway or finds the blob there. -/
theorem Durable.put {tree : Bool} {d : Bytes} {x : Except Err Bytes} (hS : NoCollision ext S)
    (h : Durable ext S json p s) (hd : S d) (hx : PutOutcome ext p tree d s x s') :
    Durable ext S json p s' ∧ Grows (s.blobs p) (s'.blobs p) ∧
      ∀ id, x = .ok id → s'.blobs p id = some d := by
  obtain ⟨hc, hv⟩ := h
  have hadd : Sound ext S json ((s.model p).view.add (ext.blake3 d) d) := hv.add hd
  have hgrow : Grows (s.blobs p) ((s.model p).view.add (ext.blake3 d) d).blobs := .add _ _ _
  rcases hx with ⟨rfl, rfl⟩ | ⟨e, m, rfl, rfl, hm⟩
  · have hput := Model.view_put ext (s.model p) d
    rw [Sys.blobs_noteTree, Sys.blobs_setModel, hput]
    refine ⟨.noteTree (.setModel ?_ (hput ▸ hadd)), hgrow, ?_⟩
    · rcases Model.committed_put ext (s.model p) d with h | h <;> rw [h]
      · exact hc
      · exact hadd
    · intro id hid
      cases hid
      exact hv.indexed.find_add hS hd
  · have hcomm : m.committed = s.committed := by
      rcases hm with rfl | rfl | rfl <;> rfl
    have hview : m.view = (s.model p).view ∨ m.view = (s.model p).view.add (ext.blake3 d) d := by
      rcases hm with rfl | rfl | rfl
      · exact .inl rfl
      · exact .inl rfl
      · exact .inr rfl
    rw [Sys.blobs_setModel]
    refine ⟨.setModel (hcomm ▸ hc) ?_, ?_, nofun⟩
    · rcases hview with h | h <;> rw [h]
      · exact hv
      · exact hadd
    · rcases hview with h | h <;> rw [h]
      · exact .refl _
      · exact hgrow

/-- Puts keep the store in order and make whole references. -/
def durableKeeper (hS : NoCollision ext S) (json : Json) (p : Nat) : Keeper ext (puts S) p where
  I := Durable ext S json p
  G s s' := Grows (s.blobs p) (s'.blobs p)
  Good s r := Whole (s.blobs p) r
  refl _ := .refl _
  trans _ _ _ h h' := h.trans h'
  mono _ _ _ h hr := hr.mono h
  blob d s x s' hs hok hx := by
    obtain ⟨ch, hch⟩ := hok
    obtain ⟨hI, hg, hid⟩ := hs.2.put hS (hch _ _ rfl) hx
    exact ⟨hI, hg, fun id hx _ => whole_leaf.2 ⟨d, hid id hx⟩⟩
  tree es s x s' hs hok hdec hes hx := by
    obtain ⟨ch, hch⟩ := hok
    obtain ⟨hI, hg, hid⟩ := hs.2.put hS (hch _ _ rfl) hx
    exact ⟨hI, hg, fun id hx => (whole_dir (hid id hx) hdec).2 fun e he => (hes e he).mono hg⟩

/-- A program that stores trees adds to the store. -/
theorem Adds.of_stores {m : TreeM α} {Q : α → BlobMap → Prop} (hS : NoCollision ext S)
    (hr : Ready ext S json p σ s)
    (h : Stores (durableKeeper hS json p) m (fun a s' => Q a (s'.blobs p)) σ s) :
    Adds ext S json p m Q σ s := by
  refine Eff.Safe.mono h ?_
  rintro x σ' s' - ⟨rfl, hg, hQ⟩
  exact ⟨hg, hr.touches.mono hg, hQ⟩

/-- A change of the records that keeps them in order. -/
theorem adds_write {m : TreeM Unit} {f : Store → Store} (hr : Ready ext S json p σ s)
    (hsafe : ∀ Q : Except Err Unit → Pending → Sys → Prop,
      (∀ x s', WriteOutcome p ((s.model p).update f) s x s' → Durable ext S json p s' ∧ Q x σ s') →
      Eff.Safe (solo ext (puts S) p (Durable ext S json p)) Q m σ s)
    (hf : Sound ext S json (f (s.model p).view))
    (hblobs : (f (s.model p).view).blobs = (s.model p).view.blobs) :
    Adds ext S json p m (fun _ _ => True) σ s := by
  refine hsafe _ ?_
  rintro x s' (⟨rfl, rfl⟩ | ⟨e, rfl, rfl⟩)
  · have hview := Model.view_update (s.model p) f
    rw [Sys.blobs_setModel, hview, hblobs]
    refine ⟨.setModel ?_ (hview ▸ hf), .refl _, hr.touches, fun _ _ => trivial⟩
    rcases Model.committed_update (s.model p) f with h | h <;> rw [h]
    · exact hr.inv.2.committed
    · exact hf
  · exact ⟨hr.inv.2, .refl _, hr.touches, nofun⟩

/-- A record that is sound may be put. -/
theorem adds_metaPut {key val : Bytes} (hr : Ready ext S json p σ s)
    (hrec : RecordOk json (s.blobs p) key val) :
    Adds ext S json p (Cas.metaPut key val) (fun _ _ => True) σ s :=
  adds_write hr (fun _ hQ => safe_metaPut hr.inv fun x s' hx _ => hQ x s' hx)
    (hr.inv.2.view.putRecord hrec) rfl

/-- A record may be deleted. -/
theorem adds_metaDel {key : Bytes} (hr : Ready ext S json p σ s) :
    Adds ext S json p (Cas.metaDel key) (fun _ _ => True) σ s :=
  adds_write hr (fun _ hQ => safe_metaDel hr.inv hQ) hr.inv.2.view.delRecord rfl

/-- `sync` commits what is sound. -/
theorem adds_casSync (hr : Ready ext S json p σ s) :
    Adds ext S json p Cas.sync (fun _ _ => True) σ s := by
  refine safe_casSync hr.inv ?_
  rintro x s' (⟨rfl, rfl⟩ | ⟨e, rfl, rfl⟩)
  · rw [Sys.blobs_setModel]
    exact ⟨.setModel hr.inv.2.view hr.inv.2.view, .refl _, hr.touches, fun _ _ => trivial⟩
  · exact ⟨hr.inv.2, .refl _, hr.touches, nofun⟩

/-- A read tells what the process sees. -/
theorem adds_read {m : TreeM α} {a : α} (hr : Ready ext S json p σ s)
    (hsafe : ∀ Q : Except Err α → Pending → Sys → Prop, (∀ x, ReadOutcome a s x s → Q x σ s) →
      Eff.Safe (solo ext (puts S) p (Durable ext S json p)) Q m σ s) :
    Adds ext S json p m (fun b M => b = a ∧ M = s.blobs p) σ s := by
  refine hsafe _ ?_
  rintro x ⟨-, rfl | ⟨e, rfl⟩⟩
  · refine ⟨.refl _, hr.touches, ?_⟩
    intro b hb
    cases hb
    exact ⟨rfl, rfl⟩
  · exact ⟨.refl _, hr.touches, nofun⟩

/-- The clock does not matter. -/
theorem adds_nowNs {f : Nat → TreeM α} {Q : α → BlobMap → Prop} (hr : Ready ext S json p σ s)
    (h : ∀ now s', Ready ext S json p σ s' → s'.model p = s.model p →
      Adds ext S json p (f now) Q σ s') : Adds ext S json p (nowNs >>= f) Q σ s := by
  refine safe_nowNs fun ch _ => ⟨⟨hr.inv.2.committed, hr.inv.2.view⟩, fun hI => ?_⟩
  exact h ch.clock { s with clock := ch.clock } ⟨hI, hr.touches⟩ rfl

/-! ## Roots -/

/-- The root of a whole tree may be registered. -/
theorem adds_registerRoot {root : Bytes} (tree : Bool) (hr : Ready ext S json p σ s)
    (hroot : Whole (s.blobs p) (rootType tree, root)) :
    Adds ext S json p (registerRoot root tree) (fun _ _ => True) σ s := by
  unfold registerRoot
  refine adds_nowNs hr fun now s' hr' hmodel => adds_metaPut hr' (recordOk_root ?_)
  rw [Sys.blobs, hmodel]
  exact hroot

/-- The queued touches may be written. -/
theorem adds_writeTouches {batch : Pending} (hr : Ready ext S json p σ s)
    (hb : TouchesOk (s.blobs p) batch) :
    Adds ext S json p (writeTouches batch) (fun _ _ => True) σ s := by
  induction batch generalizing σ s with
  | nil => exact .pure hr trivial
  | cons touch batch ih =>
    obtain ⟨key, stamp⟩ := touch
    obtain ⟨root, tree, rfl, hw⟩ := hb _ _ (.head _)
    unfold writeTouches
    refine Adds.bind hr (adds_metaPut hr (recordOk_root hw)) ?_
    intro _ σ₁ s₁ hr₁ hg₁ _
    refine ih hr₁ ?_
    intro key stamp hmem
    obtain ⟨root', tree', hk, hw'⟩ := hb key stamp (.tail _ hmem)
    exact ⟨root', tree', hk, hw'.mono hg₁⟩

/-- So `flush_touches` keeps the store sound. -/
theorem adds_flushTouches (hr : Ready ext S json p σ s) :
    Adds ext S json p flushTouches (fun _ _ => True) σ s := by
  unfold flushTouches
  refine Eff.Safe.get (Eff.Safe.modify ?_)
  exact adds_writeTouches ⟨hr.inv, fun _ _ h => by cases h⟩ hr.touches

theorem adds_sync (hr : Ready ext S json p σ s) :
    Adds ext S json p sync (fun _ _ => True) σ s := by
  unfold sync
  exact Adds.bind hr (adds_flushTouches hr) fun _ _ _ hr' _ _ => adds_casSync hr'

theorem adds_touchRoot {cfg : Config} {root : Bytes} {tree : Bool}
    (hr : Ready ext S json p σ s) :
    Adds ext S json p (touchRoot cfg root tree) (fun _ _ => True) σ s := by
  unfold touchRoot
  refine Adds.bind hr (adds_read hr fun _ hQ => safe_metaGet hr.inv hQ) ?_
  rintro stamp σ₁ s₁ hr₁ hg₁ ⟨hstamp, hM⟩
  cases stamp with
  | none => exact .pure hr₁ trivial
  | some stamp =>
    have hrec := hr.inv.2.view.records _ _ hstamp.symm
    have hw : Whole (s₁.blobs p) (rootType tree, root) := (hrec.root root tree rfl).mono hg₁
    dsimp only
    split
    · exact .pure hr₁ trivial
    · refine adds_nowNs hr₁ fun now s₂ hr₂ hmodel => ?_
      split
      · exact .pure hr₂ trivial
      · refine Eff.Safe.modify_last (safe_pure ⟨.refl _, ?_, fun _ _ => trivial⟩)
        intro key t hmem
        unfold queueTouch at hmem
        split at hmem
        · exact hr₂.touches key t hmem
        · rcases List.mem_append.1 hmem with hmem | hmem
          · exact hr₂.touches key t hmem
          · cases List.mem_singleton.1 hmem
            refine ⟨root, tree, rfl, ?_⟩
            rw [Sys.blobs, hmodel]
            exact hw

/-! ## The operations -/

/-- The ingestion of an archive keeps the store sound. -/
theorem adds_ingestTree (hS : NoCollision ext S) {arc : Archive} (hr : Ready ext S json p σ s) :
    Adds ext S json p (ingestTree arc) (fun _ _ => True) σ s := by
  unfold ingestTree
  refine Adds.bind hr (.of_stores hS hr
    (Q := fun st M => HeldDir (fun r => Whole M r) st.1) ?_) ?_
  · exact stores_applyItems hr.inv ⟨.empty, _, rfl⟩
  rintro ⟨root, files⟩ σ₁ s₁ hr₁ - hst
  dsimp only
  split
  · exact .throw hr₁
  · refine Adds.bind hr₁ (.of_stores hS hr₁ (Q := fun id M => Whole M (.d, id)) ?_) ?_
    · exact stores_flushTree hr₁.inv hst
    intro id σ₂ s₂ hr₂ _ hid
    refine Adds.bind hr₂ (adds_registerRoot _ hr₂ hid) ?_
    intro _ σ₃ s₃ hr₃ _ _
    refine Adds.bind hr₃ (adds_sync hr₃) ?_
    intro _ σ₄ s₄ hr₄ _ _
    exact .pure hr₄ trivial

theorem adds_storeObject (hS : NoCollision ext S) (hjson : json.Lawful) {info : PathInfo}
    {file : FsNode} (hr : Ready ext S json p σ s) (hfile : file.Ordered) :
    Adds ext S json p (storeObject json info file) (fun _ _ => True) σ s := by
  unfold storeObject
  refine Adds.bind hr (.of_stores hS hr (Q := fun x M => Whole M x) ?_) ?_
  · exact stores_ingest file hr.inv hfile
  rintro ⟨type, id⟩ σ₁ s₁ hr₁ - hid
  have hroot : Whole (s₁.blobs p) (rootType (decide (type = .d)), id) := by
    cases type with
    | d => exact hid
    | leaf t => exact whole_leaf.2 (whole_leaf.1 hid)
  refine Adds.bind hr₁ (adds_registerRoot _ hr₁ hroot) ?_
  intro _ σ₂ s₂ hr₂ hg₂ _
  refine Adds.bind (P := fun val _ => json.encode _ = .ok val) hr₂
    (.ofExcept hr₂ fun val hval => hval) ?_
  intro val σ₃ s₃ hr₃ hg₃ hval
  have hrec := recordOk_path info.path (hjson _ _ hval) ((hid.mono hg₂).mono hg₃)
  refine Adds.bind hr₃ (adds_metaPut hr₃ hrec) ?_
  intro _ σ₄ s₄ hr₄ _ _
  exact adds_sync hr₄

theorem adds_drvText {cfg : Config} {path : Bytes} (hr : Ready ext S json p σ s) :
    Adds ext S json p (drvText cfg path) (fun _ _ => True) σ s := by
  unfold drvText
  refine Adds.bind hr (adds_read hr fun _ hQ => safe_metaGet hr.inv hQ) ?_
  rintro id σ₁ s₁ hr₁ - -
  cases id with
  | none => exact .pure hr₁ trivial
  | some id =>
    refine Adds.bind hr₁ (adds_read hr₁ fun _ hQ => safe_get hr₁.inv hQ) ?_
    rintro contents σ₂ s₂ hr₂ - -
    cases contents with
    | none =>
      refine Adds.bind hr₂ (adds_metaDel hr₂) ?_
      intro _ σ₃ s₃ hr₃ _ _
      exact .pure hr₃ trivial
    | some contents =>
      refine Adds.bind hr₂ (adds_touchRoot hr₂) ?_
      intro _ σ₃ s₃ hr₃ _ _
      exact .pure hr₃ trivial

/-- The storing of a derivation keeps it sound. -/
theorem adds_storeDerivation (hS : NoCollision ext S) {path contents : Bytes}
    (hr : Ready ext S json p σ s) :
    Adds ext S json p (storeDerivation path contents) (fun _ _ => True) σ s := by
  unfold storeDerivation
  refine Adds.bind hr (.of_stores hS hr (Q := fun id M => Whole M (.leaf .r, id)) ?_) ?_
  · exact Eff.Safe.mono (stores_putBlob hr.inv) fun x _ s' _ h =>
      ⟨h.1, h.2.1, fun id hid => h.2.2 id hid .r⟩
  intro id σ₁ s₁ hr₁ _ hw
  refine Adds.bind hr₁ (adds_registerRoot false hr₁ hw) ?_
  intro _ σ₂ s₂ hr₂ hg₂ _
  refine Adds.bind hr₂ (adds_metaPut hr₂ (recordOk_drv (hw.mono hg₂))) ?_
  intro _ σ₃ s₃ hr₃ _ _
  exact adds_sync hr₃

theorem adds_writeDerivation (hS : NoCollision ext S) {cfg : Config} {path contents : Bytes}
    (hr : Ready ext S json p σ s) :
    Adds ext S json p (writeDerivation cfg path contents) (fun _ _ => True) σ s := by
  unfold writeDerivation
  refine Adds.bind hr (adds_drvText hr) ?_
  intro found σ₁ s₁ hr₁ _ _
  cases found with
  | none => exact adds_storeDerivation hS hr₁
  | some _ => exact .pure hr₁ trivial

/-! ## Runs of operations -/

/-- The operations that write records. -/
inductive StoreOp where
  | ingestArchive (arc : Archive)
  | storeObject (info : PathInfo) (file : {file : FsNode // file.Ordered})
  | writeDerivation (path contents : Bytes)

/-- The code of an operation, without the collection at the end of `ingest_archive`. -/
def StoreOp.code (cfg : Config) (json : Json) : StoreOp → TreeM Unit
  | .ingestArchive arc => ingestTree arc >>= fun _ => pure ()
  | .storeObject info file => Tree.storeObject json info file.1
  | .writeDerivation path contents => Tree.writeDerivation cfg path contents

theorem adds_op (hS : NoCollision ext S) (hjson : json.Lawful) (cfg : Config) (op : StoreOp)
    (hr : Ready ext S json p σ s) : Adds ext S json p (op.code cfg json) (fun _ _ => True) σ s := by
  cases op with
  | ingestArchive arc =>
    exact Adds.bind hr (adds_ingestTree hS hr) fun _ _ _ hr' _ _ => .pure hr' trivial
  | storeObject info file => exact adds_storeObject hS hjson hr file.2
  | writeDerivation path contents => exact adds_writeDerivation hS hr

/-- The process runs one operation to its end, which may be an error. -/
def opStep (ext : Ext) (S : Bytes → Prop) (p : Nat) (cfg : Config) (json : Json)
    (x : Pending × Sys) (op : StoreOp) (x' : Pending × Sys) : Prop :=
  ∃ tr out, Prog.Run (sem ext (puts S) p) (op.code cfg json x.1) x.2 tr (out, x'.1) x'.2

/-- A process stays ready after it. -/
theorem Ready.opStep (hS : NoCollision ext S) (hjson : json.Lawful) {cfg : Config} {op : StoreOp}
    (hr : Ready ext S json p σ s) (h : opStep ext S p cfg json (σ, s) op (σ', s')) :
    Ready ext S json p σ' s' := by
  obtain ⟨tr, out, hrun⟩ := h
  obtain ⟨hinv, -, ht, -⟩ := solo_run hrun hr.inv (adds_op hS hjson cfg op hr)
  exact ⟨hinv, ht⟩

end

/-- A process that has opened the directory, in which every record referred to a whole tree, runs
`ingest_archive`, `storeObject` and `writeDerivation` in any order, with any outcomes, and is killed
in one more. Wherever that happens, every record of the store it leaves refers to a whole tree. -/
theorem killed_recordsOk {ext : Ext} {S : Bytes → Prop} {cfg : Config} {json : Json} {p : Nat}
    {s₀ s s' : Sys} {σ : Pending} {ops : List StoreOp} {op : StoreOp} (hS : NoCollision ext S)
    (hjson : json.Lawful) (hidle : s₀.writer = none) (hindex : Indexed ext S s₀.committed.blobs)
    (hrec : RecordsOk json s₀.committed) (hops : Runs (opStep ext S p cfg json) ([], s₀) ops (σ, s))
    (hkill : Prog.Visits (sem ext (puts S) p) (op.code cfg json σ) s s') :
    RecordsOk json (s'.drop p).committed := by
  have hmodel : s₀.model p = ⟨s₀.committed, none⟩ := by
    rw [Sys.model, Sys.batch, hidle]
  have hsound : Sound ext S json s₀.committed := ⟨hindex, hrec⟩
  have hr₀ : Ready ext S json p [] s₀ := by
    refine ⟨⟨by rw [Sys.busy, hidle], hsound, ?_⟩, fun _ _ h => by cases h⟩
    rw [hmodel]
    exact hsound
  have hr : Ready ext S json p σ s :=
    hops.invariant (I := fun x : Pending × Sys => Ready ext S json p x.1 x.2)
      (fun {_ _ _} hx hstep => Ready.opStep hS hjson hx hstep) hr₀
  exact (solo_visits hkill hr.inv (adds_op hS hjson _ _ hr)).2.committed.records

/-- The contents put are in the list. -/
def putsIn (l : List Bytes) (c : Call) (_ : Sys) (_ : Choice) : Bool :=
  match c with
  | .put _ d => decide (d ∈ l)
  | _ => true

/-- A checked call puts what is in the list. -/
theorem puts_of_putsIn {l : List Bytes} (c : Call) (s : Sys) (ch : Choice) (h : putsIn l c s ch = true) :
    puts (· ∈ l) c s ch := by
  rintro tree d rfl
  exact of_decide_eq_true h

/-- A directory is stored. The process is killed while it stores another one, which is still in its batch
with the record of its root. -/
theorem killed_recordsOk_sample : ∃ σ s s',
    Runs (opStep .sample (· ∈ dirContents) 0 ⟨0, 0, 0⟩ .sample) ([], .fresh)
      [.storeObject ⟨[2], [], 0, [], []⟩ ⟨nestedDir, ordered_nestedDir⟩] (σ, s) ∧
    Prog.Visits (sem .sample (puts (· ∈ dirContents)) 0)
      ((StoreOp.storeObject ⟨[1], [], 0, [], []⟩
        ⟨oneFileDir 'g' (ascii ['y']), ordered_oneFileDir _ _⟩).code ⟨0, 0, 0⟩ .sample σ) s s' ∧
    ((s'.model 0).view.records.find?
      (rootKey (Ext.sample.blake3 (oneFileObject 'g' (ascii ['y']))) true)).isSome ∧
    (s'.drop 0).committed.records.toList.map Prod.fst =
      [rootKey (Ext.sample.blake3 nestedObject) true, kPathPrefix ++ [2]] ∧
    RecordsOk .sample (s'.drop 0).committed := by
  have h : (((StoreOp.storeObject ⟨[2], [], 0, [], []⟩ ⟨nestedDir, ordered_nestedDir⟩).code ⟨0, 0, 0⟩
      .sample []).eval (execIf .sample 0 (putsIn dirContents)) (List.replicate 10 {}) .fresh).any (fun x =>
        (((StoreOp.storeObject ⟨[1], [], 0, [], []⟩
          ⟨oneFileDir 'g' (ascii ['y']), ordered_oneFileDir _ _⟩).code ⟨0, 0, 0⟩ .sample
          x.2.1.2).stopAfter (execIf .sample 0 (putsIn dirContents)) (List.replicate 4 {}) x.2.2).any
          fun s' => ((s'.model 0).view.records.find?
              (rootKey (Ext.sample.blake3 (oneFileObject 'g' (ascii ['y']))) true)).isSome &&
            decide ((s'.drop 0).committed.records.toList.map Prod.fst =
              [rootKey (Ext.sample.blake3 nestedObject) true, kPathPrefix ++ [2]])) = true := by
    decide +kernel
  obtain ⟨⟨tr, ⟨out, σ⟩, s⟩, hx, h⟩ := (Option.any_eq_true _ _).1 h
  obtain ⟨s', hstop, h⟩ := (Option.any_eq_true _ _).1 h
  obtain ⟨hroot, hkeys⟩ := Bool.and_eq_true_iff.1 h
  have hok (c : Call) (s : Sys) (ch : Choice) (h : putsIn dirContents c s ch = true) :
      puts (· ∈ dirContents) c s ch := puts_of_putsIn c s ch h
  have hops : Runs (opStep .sample (· ∈ dirContents) 0 ⟨0, 0, 0⟩ .sample) ([], .fresh)
      [.storeObject ⟨[2], [], 0, [], []⟩ ⟨nestedDir, ordered_nestedDir⟩] (σ, s) :=
    .cons ⟨tr, out, run_of_execIf hok hx⟩ .nil
  have hkill := visits_of_execIf hok hstop
  have hS : NoCollision .sample (· ∈ dirContents) := noCollision_of_isInjective (by decide +kernel)
  refine ⟨σ, s, s', hops, hkill, hroot, of_decide_eq_true hkeys, ?_⟩
  exact killed_recordsOk hS Json.lawful_sample rfl (fun _ _ h => by cases h) (fun _ _ h => by cases h)
    hops hkill

end Tarmac.Tree
