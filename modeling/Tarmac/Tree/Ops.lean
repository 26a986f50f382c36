import Tarmac.Tree.Complete

/-!
# Runs of operations

The operations of `TreeStore` and of the eval store, as one process issues them that has the
directory to itself (`Op`), and what holds after any run of them. The programs are followed once, for
any property of the touch queue and the store that the elementary changes keep (`Steady`); the
invariant of `Tarmac.Tree.Complete` is kept on the way.

A collection is where the invariant can break. It does not when it is `Tidy`; a run all of whose
collections are keeps every directory complete (`has_whole`). A run in which one is not can lose the
entries of a directory that is still there (`has_broken`).
-/

namespace Tarmac.Tree

open PackCas

section

variable {ext : Ext} {S : Bytes → Prop} {ok : Call → Sys → Choice → Prop} {p : Nat} {s s' : Sys}

/-- Puts keep the invariant and make references that stand. -/
def completeKeeper (hS : NoCollision ext S)
    (hok : ∀ c s ch, ok c s ch → apart ext S p c s ch) : Keeper ext ok p where
  I := Complete ext S p
  G := Stored p
  Good := Stands p
  refl := .refl
  trans _ _ _ h h' := h.trans h'
  mono _ _ _ h hr := hr.mono h
  blob d s x s' hs hch hx := by
    obtain ⟨ch, hch⟩ := hch
    obtain ⟨hd, hent⟩ := hok _ _ _ hch
    obtain ⟨hI, hg, hid⟩ := hs.2.put hS hd (by simpa using hent) (by simp) (by simp) hx
    exact ⟨hI, hg, fun id hx t => ⟨(hid id hx).2.1, nofun⟩⟩
  tree es s x s' hs hch hdec hes hx := by
    obtain ⟨ch, hch⟩ := hch
    obtain ⟨hd, hent⟩ := hok _ _ _ hch
    have hview : EntriesIn (s.blobs p) (encodeTree es) := by
      intro es' hes' e he
      obtain rfl := Except.ok.inj (hdec.symm.trans hes')
      exact (hes e he).1
    have hcomm (hsome : (s.committed.blobs (ext.blake3 (encodeTree es))).isSome) :
        EntriesIn s.committed.blobs (encodeTree es) := by
      by_cases hmem : ext.blake3 (encodeTree es) ∈ s.trees
      · obtain ⟨d, hd'⟩ := Option.isSome_iff_exists.1 hsome
        obtain ⟨hSd, hhash⟩ := hs.2.committed.indexed _ _ hd'
        obtain rfl := hS _ _ hSd hd hhash
        exact hs.2.committed.entries _ hmem _ hd'
      · exact hent hmem hsome
    obtain ⟨hI, hg, hid⟩ := hs.2.put hS hd (fun _ => hview) (fun _ => hcomm)
      (fun _ => ⟨es, hdec, fun e he => (hes e he).2⟩) hx
    exact ⟨hI, hg, fun id hx => ⟨(hid id hx).2.1, fun _ => (hid id hx).2.2 rfl⟩⟩

end

/-! ## Elementary changes -/

/-- A record was written, or not, and nothing else happened. -/
structure Recorded (p : Nat) (key val : Bytes) (s s' : Sys) : Prop where
  writes : Writes p (· = key) s s'
  clock : s'.clock = s.clock
  records : (s'.model p).view.records = (s.model p).view.records.insert key val ∨
    (s'.model p).view.records = (s.model p).view.records

/-- A record was deleted, or not, and nothing else happened. -/
structure Forgot (p : Nat) (key : Bytes) (s s' : Sys) : Prop where
  writes : Writes p (· = key) s s'
  clock : s'.clock = s.clock
  records : (s'.model p).view.records = (s.model p).view.records.erase key ∨
    (s'.model p).view.records = (s.model p).view.records

/-- A root was registered at the time it is, or only the clock was read. -/
structure Registers (ok : Call → Sys → Choice → Prop) (p : Nat) (root : Bytes) (tree : Bool)
    (s s' : Sys) : Prop where
  writes : Writes p (· = rootKey root tree) s s'
  clock : ∃ ch, ok .now s ch ∧ s'.clock = ch.clock
  records : (s'.model p).view.records =
      (s.model p).view.records.insert (rootKey root tree) (be64 s'.clock) ∨
    (s'.model p).view.records = (s.model p).view.records

/-- How `touchRoot` changes the queue and the clock. -/
def Queued (ok : Call → Sys → Choice → Prop) (cfg : Config) (p : Nat) (root : Bytes) (tree : Bool)
    (σ : Pending) (s : Sys) (σ' : Pending) (s' : Sys) : Prop :=
  Writes p (fun _ => False) s s' ∧ (s'.model p).view.records = (s.model p).view.records ∧
  ((σ' = σ ∧ s' = s) ∨ ∃ ch stamp, ok .now s ch ∧ s'.clock = ch.clock ∧
    (s.model p).view.records.find? (rootKey root tree) = some stamp ∧
    σ' = if age ch.clock (rbe64 stamp) < cfg.touchInterval then σ
      else queueTouch (rootKey root tree) ch.clock σ)

/-- How a pass changes records up to the expiry; or it only writes the queued touches. -/
def Passes (ok : Call → Sys → Choice → Prop) (cfg : Config) (p : Nat) (σ : Pending) (s s' : Sys) :
    Prop :=
  (∃ x : Except Err Bool, Touched ok p σ s x s') ∨ ∃ ch s₀, ok .now s₀ ch ∧ s₀.clock = s.clock ∧
    Passed cfg p (flushed σ (s.model p).view.records) ch.clock s'

/-- A property of the queue and the store that the elementary changes keep. -/
structure Steady (ext : Ext) (S : Bytes → Prop) (ok : Call → Sys → Choice → Prop) (cfg : Config)
    (json : Json) (p : Nat) (J : Pending → Sys → Prop) : Prop where
  stored : ∀ σ s s', J σ s → Stored p s s' → J σ s'
  registered : ∀ root tree σ s s', J σ s → Registers ok p root tree s s' → J σ s'
  queued : ∀ root tree σ s σ' s', J σ s → Queued ok cfg p root tree σ s σ' s' → J σ' s'
  touched : ∀ σ s s', J σ s → Writes p (∃ touch ∈ σ, touch.1 = ·) s s' →
    (∃ x : Except Err Unit, Touched ok p σ s x s') → J [] s'
  path : ∀ σ s s' path rec val, J σ s → Stands p s (rec.rootType, rec.rootId) →
    json.encode rec = .ok val → Recorded p (kPathPrefix ++ path) val s s' → J σ s'
  drv : ∀ σ s s' path id, J σ s → Stands p s (.leaf .r, id) →
    Recorded p (kDrvPrefix ++ path) id s s' → J σ s'
  forgot : ∀ σ s s' path, J σ s → Forgot p (kPathPrefix ++ path) s s' ∨
    Forgot p (kDrvPrefix ++ path) s s' → J σ s'
  passes : ∀ σ s s', J σ s → Writes p (fun _ => True) s s' → Passes ok cfg p σ s s' → J [] s'
  collected : ∀ σ s s', J σ s → Collected p s s' → J σ s'

/-- Blobs and directories are only added. -/
structure Gains (p : Nat) (s s' : Sys) : Prop where
  grows : Grows (s.blobs p) (s'.blobs p)
  trees : ∀ id ∈ s.trees, id ∈ s'.trees

section

variable {ext : Ext} {S : Bytes → Prop} {ok : Call → Sys → Choice → Prop} {cfg : Config}
  {json : Json} {p : Nat} {J : Pending → Sys → Prop} {s s' s₁ : Sys} {σ σ' : Pending} {α β : Type}

theorem Gains.refl (s : Sys) : Gains p s s := ⟨.refl _, fun _ h => h⟩

/-- What is gained in two steps is gained. -/
theorem Gains.trans (h : Gains p s s₁) (h' : Gains p s₁ s') : Gains p s s' :=
  ⟨h.grows.trans h'.grows, fun id hid => h'.trees id (h.trees id hid)⟩

/-- Storing is a gain. -/
theorem Stored.gains (h : Stored p s s') : Gains p s s' := ⟨h.grows, h.trees⟩

/-- Writing records is none, and no loss. -/
theorem Writes.gains {K : Bytes → Prop} (h : Writes p K s s') : Gains p s s' := by
  refine ⟨?_, fun id hid => h.trees ▸ hid⟩
  rw [h.blobs]
  exact .refl _

/-- What stands in a store stands after a gain. -/
theorem Stands.gains {r : Ref} (h : Gains p s s') (hr : Stands p s r) : Stands p s' r := by
  obtain ⟨b, hb⟩ := Option.isSome_iff_exists.1 hr.1
  refine ⟨?_, fun hd => h.trees _ (hr.2 hd)⟩
  rw [h.grows _ _ hb]
  rfl

/-! ## Programs -/

/-- What a program may begin with. -/
structure Fit (ext : Ext) (S : Bytes → Prop) (ok : Call → Sys → Choice → Prop) (p : Nat)
    (J : Pending → Sys → Prop) (σ : Pending) (s : Sys) : Prop where
  inv : (solo ext ok p (Complete ext S p)).Inv s
  prop : J σ s

/-- The program keeps the invariant and `J`, only adds blobs, and `Q` holds of its result. -/
def Adheres (ext : Ext) (S : Bytes → Prop) (ok : Call → Sys → Choice → Prop) (p : Nat)
    (J : Pending → Sys → Prop) (m : TreeM α) (Q : α → Sys → Prop) (σ : Pending) (s : Sys) : Prop :=
  Eff.Safe (solo ext ok p (Complete ext S p))
    (fun x σ' s' => Gains p s s' ∧ J σ' s' ∧ ∀ a, x = .ok a → Q a s') m σ s

theorem Adheres.pure {a : α} {Q : α → Sys → Prop} (hf : Fit ext S ok p J σ s) (h : Q a s) :
    Adheres ext S ok p J (Pure.pure a) Q σ s := by
  refine safe_pure ⟨.refl s, hf.prop, ?_⟩
  intro a' ha
  cases ha
  exact h

theorem Adheres.throw {e : Err} {Q : α → Sys → Prop} (hf : Fit ext S ok p J σ s) :
    Adheres ext S ok p J (Eff.throw e) Q σ s :=
  safe_throw ⟨.refl s, hf.prop, nofun⟩

theorem Adheres.ofExcept {x : Except Err α} {Q : α → Sys → Prop} (hf : Fit ext S ok p J σ s)
    (h : ∀ a, x = .ok a → Q a s) : Adheres ext S ok p J (Eff.ofExcept x) Q σ s :=
  safe_ofExcept ⟨.refl s, hf.prop, h⟩

/-- Sequencing. -/
theorem Adheres.bind {m : TreeM β} {f : β → TreeM α} {P : β → Sys → Prop} {Q : α → Sys → Prop}
    (hf : Fit ext S ok p J σ s) (hm : Adheres ext S ok p J m P σ s)
    (h : ∀ b σ' s', Fit ext S ok p J σ' s' → Gains p s s' → P b s' →
      Adheres ext S ok p J (f b) Q σ' s') : Adheres ext S ok p J (m >>= f) Q σ s := by
  refine safe_bind hf.inv hm ?_ ?_
  · rintro b σ' s' hI ⟨hg, hJ, hP⟩
    refine (h b σ' s' ⟨hI, hJ⟩ hg (hP b rfl)).mono ?_
    rintro x σ'' s'' - ⟨hg', hJ', hQ⟩
    exact ⟨hg.trans hg', hJ', hQ⟩
  · rintro e σ' s' - ⟨hg, hJ, -⟩
    exact ⟨hg, hJ, nofun⟩

/-- A program that stores trees adheres, where storing does not harm what is kept. -/
theorem Adheres.of_stores (hS : NoCollision ext S) (hok : ∀ c s ch, ok c s ch → apart ext S p c s ch)
    {m : TreeM α} {Q : α → Sys → Prop} (hJ : ∀ σ s s', J σ s → Stored p s s' → J σ s')
    (hf : Fit ext S ok p J σ s) (h : Stores (completeKeeper hS hok) m Q σ s) :
    Adheres ext S ok p J m Q σ s := by
  refine Eff.Safe.mono h ?_
  rintro x σ' s' - ⟨rfl, hg, hQ⟩
  exact ⟨Stored.gains hg, hJ _ _ _ hf.prop hg, hQ⟩

/-- So does one that only writes records. -/
theorem Adheres.of_quiet {K : Bytes → Prop} {m : TreeM α} {Q : α → Sys → Prop}
    {P : Except Err α → Pending → Sys → Prop}
    (h : Quiet ext ok p (Complete ext S p) K m P σ s)
    (hJ : ∀ x σ' s', Writes p K s s' → P x σ' s' → J σ' s' ∧ ∀ a, x = .ok a → Q a s') :
    Adheres ext S ok p J m Q σ s := by
  refine Eff.Safe.mono h ?_
  rintro x σ' s' - ⟨hw, hP⟩
  exact ⟨hw.gains, hJ x σ' s' hw hP⟩

/-- A write of one record. -/
theorem adheres_metaPut {key val : Bytes} (hf : Fit ext S ok p J σ s)
    (hJ : ∀ s', Recorded p key val s s' → J σ s') :
    Adheres ext S ok p J (Cas.metaPut key val) (fun _ _ => True) σ s := by
  refine .of_quiet (K := (· = key)) (P := fun _ σ' s' => σ' = σ ∧ s'.clock = s.clock ∧
    ((s'.model p).view.records = (s.model p).view.records.insert key val ∨
      (s'.model p).view.records = (s.model p).view.records))
    (quiet_metaPut unrecorded_complete hf.inv rfl fun x s' hx _ => ?_) ?_
  · rcases hx with ⟨-, rfl⟩ | ⟨e, -, rfl⟩
    · refine ⟨rfl, rfl, .inl ?_⟩
      rw [Sys.model_setModel, Model.view_update]
      rfl
    · exact ⟨rfl, rfl, .inr rfl⟩
  · rintro x σ' s' hw ⟨rfl, hclock, hrec⟩
    exact ⟨hJ s' ⟨hw, hclock, hrec⟩, fun _ _ => trivial⟩

/-- A record may be deleted where what is kept does not need it. -/
theorem adheres_metaDel {key : Bytes} (hf : Fit ext S ok p J σ s)
    (hJ : ∀ s', Forgot p key s s' → J σ s') :
    Adheres ext S ok p J (Cas.metaDel key) (fun _ _ => True) σ s := by
  refine .of_quiet (K := (· = key)) (P := fun _ σ' s' => σ' = σ ∧ s'.clock = s.clock ∧
    ((s'.model p).view.records = (s.model p).view.records.erase key ∨
      (s'.model p).view.records = (s.model p).view.records))
    (quiet_metaDel unrecorded_complete hf.inv rfl fun x s' hx => ?_) ?_
  · rcases hx with ⟨-, rfl⟩ | ⟨e, -, rfl⟩
    · refine ⟨rfl, rfl, .inl ?_⟩
      rw [Sys.model_setModel, Model.view_update]
      rfl
    · exact ⟨rfl, rfl, .inr rfl⟩
  · rintro x σ' s' hw ⟨rfl, hclock, hrec⟩
    exact ⟨hJ s' ⟨hw, hclock, hrec⟩, fun _ _ => trivial⟩

/-- A read tells what the process sees. -/
theorem adheres_read {m : TreeM α} {a : α} (hf : Fit ext S ok p J σ s)
    (hsafe : ∀ Q : Except Err α → Pending → Sys → Prop, (∀ x, ReadOutcome a s x s → Q x σ s) →
      Eff.Safe (solo ext ok p (Complete ext S p)) Q m σ s) :
    Adheres ext S ok p J m (fun b s' => b = a ∧ s' = s) σ s := by
  refine hsafe _ ?_
  rintro x ⟨-, rfl | ⟨e, rfl⟩⟩
  · refine ⟨.refl s, hf.prop, ?_⟩
    intro b hb
    cases hb
    exact ⟨rfl, rfl⟩
  · exact ⟨.refl s, hf.prop, nofun⟩

/-- Registering a root adheres. -/
theorem adheres_registerRoot {root : Bytes} {tree : Bool} (hJ : Steady ext S ok cfg json p J)
    (hf : Fit ext S ok p J σ s) :
    Adheres ext S ok p J (registerRoot root tree) (fun _ _ => True) σ s := by
  refine .of_quiet (K := (· = rootKey root tree))
    (quiet_registerRoot unrecorded_complete hf.inv rfl) ?_
  rintro x σ' s' hw ⟨rfl, hclock, hrec⟩
  exact ⟨hJ.registered _ _ _ _ _ hf.prop ⟨hw, hclock, hrec.imp And.right And.right⟩,
    fun _ _ => trivial⟩

theorem adheres_sync (hJ : Steady ext S ok cfg json p J) (hf : Fit ext S ok p J σ s) :
    Adheres ext S ok p J sync (fun _ _ => True) σ s := by
  refine .of_quiet (K := (∃ touch ∈ σ, touch.1 = ·)) (quiet_sync unrecorded_complete hf.inv
    fun touch ht => ⟨touch, ht, rfl⟩) ?_
  rintro x σ' s' hw ⟨rfl, ht⟩
  exact ⟨hJ.touched _ _ _ hf.prop hw ⟨x, ht⟩, fun _ _ => trivial⟩

theorem adheres_flushTouches (hJ : Steady ext S ok cfg json p J) (hf : Fit ext S ok p J σ s) :
    Adheres ext S ok p J flushTouches (fun _ _ => True) σ s := by
  refine .of_quiet (K := (∃ touch ∈ σ, touch.1 = ·)) (quiet_flushTouches unrecorded_complete hf.inv
    fun touch ht => ⟨touch, ht, rfl⟩) ?_
  rintro x σ' s' hw ⟨rfl, ht⟩
  exact ⟨hJ.touched _ _ _ hf.prop hw ⟨x, ht⟩, fun _ _ => trivial⟩

theorem adheres_touchRoot {root : Bytes} {tree : Bool} (hJ : Steady ext S ok cfg json p J)
    (hf : Fit ext S ok p J σ s) :
    Adheres ext S ok p J (touchRoot cfg root tree) (fun _ _ => True) σ s := by
  refine .of_quiet (K := fun _ => False) (quiet_touchRoot unrecorded_complete hf.inv) ?_
  rintro x σ' s' hw ⟨hrec, hq⟩
  exact ⟨hJ.queued root tree _ _ _ _ hf.prop ⟨hw, hrec, hq.imp_left fun h => ⟨h.1, h.2.1⟩⟩,
    fun _ _ => trivial⟩

/-- The expiry of both kinds of roots adheres. -/
theorem adheres_expireAll (hJ : Steady ext S ok cfg json p J) (hf : Fit ext S ok p J σ s) :
    Adheres ext S ok p J (expireAll cfg) (fun _ _ => True) σ s := by
  refine .of_quiet (K := fun _ => True) (quiet_expireAll unrecorded_complete hf.inv
    (fun _ _ => trivial) trivial fun _ _ => trivial) ?_
  rintro x σ' s' hw ⟨rfl, h⟩
  refine ⟨hJ.passes _ _ _ hf.prop hw (h.imp_left ?_), fun _ _ => trivial⟩
  rintro ⟨-, ht⟩
  exact ⟨x, ht⟩

/-! ## The operations -/

/-- The ingestion of an archive adheres, and its tree stands. -/
theorem adheres_ingestTree (hS : NoCollision ext S)
    (hok : ∀ c s ch, ok c s ch → apart ext S p c s ch) (hJ : Steady ext S ok cfg json p J)
    {arc : Archive} (hf : Fit ext S ok p J σ s) :
    Adheres ext S ok p J (ingestTree arc) (fun x s' => Stands p s' (.d, x.1)) σ s := by
  unfold ingestTree
  refine Adheres.bind hf (.of_stores hS hok hJ.stored hf
    (Q := fun st s' => HeldDir (Stands p s') st.1) ?_) ?_
  · exact stores_applyItems hf.inv ⟨.empty, _, rfl⟩
  rintro ⟨root, files⟩ σ₁ s₁ hf₁ - hst
  dsimp only
  split
  · exact .throw hf₁
  · refine Adheres.bind hf₁ (.of_stores hS hok hJ.stored hf₁
      (Q := fun id s' => Stands p s' (.d, id)) ?_) ?_
    · exact stores_flushTree hf₁.inv hst
    intro id σ₂ s₂ hf₂ _ hid
    refine Adheres.bind hf₂ (adheres_registerRoot hJ hf₂) ?_
    intro _ σ₃ s₃ hf₃ hg₃ _
    refine Adheres.bind hf₃ (adheres_sync hJ hf₃) ?_
    intro _ σ₄ s₄ hf₄ hg₄ _
    exact .pure hf₄ ((hid.gains hg₃).gains hg₄)

/-- `storeObject` adheres. -/
theorem adheres_storeObject (hS : NoCollision ext S)
    (hok : ∀ c s ch, ok c s ch → apart ext S p c s ch) (hJ : Steady ext S ok cfg json p J)
    {info : PathInfo} {file : FsNode} (hf : Fit ext S ok p J σ s) (hfile : file.Ordered) :
    Adheres ext S ok p J (storeObject json info file) (fun _ _ => True) σ s := by
  unfold storeObject
  refine Adheres.bind hf (.of_stores hS hok hJ.stored hf (Q := fun x s' => Stands p s' x) ?_) ?_
  · exact stores_ingest file hf.inv hfile
  rintro ⟨type, id⟩ σ₁ s₁ hf₁ - hid
  refine Adheres.bind hf₁ (adheres_registerRoot hJ hf₁) ?_
  intro _ σ₂ s₂ hf₂ hg₂ _
  refine Adheres.bind (P := fun val s' => s' = s₂ ∧ json.encode _ = .ok val) hf₂
    (.ofExcept hf₂ fun val hval => ⟨rfl, hval⟩) ?_
  rintro val σ₃ s₃ hf₃ hg₃ ⟨rfl, hval⟩
  refine Adheres.bind hf₃ (adheres_metaPut hf₃ fun s' hs' => ?_) ?_
  · exact hJ.path _ _ _ _ _ _ hf₃.prop (hid.gains hg₂) hval hs'
  intro _ σ₄ s₄ hf₄ _ _
  exact adheres_sync hJ hf₄

/-- So does the storing of a derivation. -/
theorem adheres_storeDerivation (hS : NoCollision ext S)
    (hok : ∀ c s ch, ok c s ch → apart ext S p c s ch) (hJ : Steady ext S ok cfg json p J)
    {path contents : Bytes} (hf : Fit ext S ok p J σ s) :
    Adheres ext S ok p J (storeDerivation path contents) (fun _ _ => True) σ s := by
  unfold storeDerivation
  refine Adheres.bind hf (.of_stores hS hok hJ.stored hf
    (Q := fun id s' => Stands p s' (.leaf .r, id)) ?_) ?_
  · exact Eff.Safe.mono (stores_putBlob hf.inv) fun x _ s' _ h =>
      ⟨h.1, h.2.1, fun id hid => h.2.2 id hid .r⟩
  intro id σ₁ s₁ hf₁ _ hid
  refine Adheres.bind hf₁ (adheres_registerRoot hJ hf₁) ?_
  intro _ σ₂ s₂ hf₂ hg₂ _
  refine Adheres.bind hf₂ (adheres_metaPut hf₂ fun s' hs' => ?_) ?_
  · exact hJ.drv _ _ _ _ _ hf₂.prop (hid.gains hg₂) hs'
  intro _ σ₃ s₃ hf₃ _ _
  exact adheres_sync hJ hf₃

theorem adheres_drvText (hJ : Steady ext S ok cfg json p J) {path : Bytes}
    (hf : Fit ext S ok p J σ s) :
    Adheres ext S ok p J (drvText cfg path) (fun _ _ => True) σ s := by
  unfold drvText
  refine Adheres.bind hf (adheres_read hf fun _ hQ => safe_metaGet hf.inv hQ) ?_
  rintro id σ₁ s₁ hf₁ - -
  cases id with
  | none => exact .pure hf₁ trivial
  | some id =>
    refine Adheres.bind hf₁ (adheres_read hf₁ fun _ hQ => safe_get hf₁.inv hQ) ?_
    rintro contents σ₂ s₂ hf₂ - -
    cases contents with
    | none =>
      refine Adheres.bind hf₂ (adheres_metaDel hf₂ fun s' hs' => ?_) ?_
      · exact hJ.forgot _ _ _ _ hf₂.prop (.inr hs')
      intro _ σ₃ s₃ hf₃ _ _
      exact .pure hf₃ trivial
    | some contents =>
      refine Adheres.bind hf₂ (adheres_touchRoot hJ hf₂) ?_
      intro _ σ₃ s₃ hf₃ _ _
      exact .pure hf₃ trivial

theorem adheres_writeDerivation (hS : NoCollision ext S)
    (hok : ∀ c s ch, ok c s ch → apart ext S p c s ch) (hJ : Steady ext S ok cfg json p J)
    {path contents : Bytes} (hf : Fit ext S ok p J σ s) :
    Adheres ext S ok p J (writeDerivation cfg path contents) (fun _ _ => True) σ s := by
  unfold writeDerivation
  refine Adheres.bind hf (adheres_drvText hJ hf) ?_
  intro found σ₁ s₁ hf₁ _ _
  cases found with
  | none => exact adheres_storeDerivation hS hok hJ hf₁
  | some _ => exact .pure hf₁ trivial

theorem adheres_pathRecord (hJ : Steady ext S ok cfg json p J) {path : Bytes}
    (hf : Fit ext S ok p J σ s) :
    Adheres ext S ok p J (pathRecord cfg json path) (fun _ _ => True) σ s := by
  unfold pathRecord
  refine Adheres.bind hf (adheres_read hf fun _ hQ => safe_metaGet hf.inv hQ) ?_
  rintro raw σ₁ s₁ hf₁ - -
  cases raw with
  | none => exact .pure hf₁ trivial
  | some raw =>
    refine Adheres.bind (P := fun _ _ => True) hf₁ (.ofExcept hf₁ fun _ _ => trivial) ?_
    intro rec σ₂ s₂ hf₂ _ _
    refine Adheres.bind hf₂ (adheres_read hf₂ fun _ hQ => safe_has hf₂.inv hQ) ?_
    rintro present σ₃ s₃ hf₃ - -
    split
    · refine Adheres.bind hf₃ (adheres_metaDel hf₃ fun s' hs' => ?_) ?_
      · exact hJ.forgot _ _ _ _ hf₃.prop (.inl hs')
      intro _ σ₄ s₄ hf₄ _ _
      exact .pure hf₄ trivial
    · refine Adheres.bind hf₃ (adheres_touchRoot hJ hf₃) ?_
      intro _ σ₄ s₄ hf₄ _ _
      exact .pure hf₄ trivial

/-- What holds after a collection. -/
theorem Fit.collect (hext : ext.Lawful) (hok : ∀ c s ch, ok c s ch → apart ext S p c s ch)
    (hJ : Steady ext S ok cfg json p J) {fuel : Nat} {tr : List (Tarmac.Event sig)} {x : Except Err Unit}
    (hf : Fit ext S ok p J σ s) (ht : Tidy p s)
    (hrun : Prog.Run (sem ext ok p) (collect fuel σ) s tr (x, σ') s') : Fit ext S ok p J σ' s' := by
  have hM := hf.inv.2.view.indexed.keyed hext
  have hreads : ReadsWork ok := fun h s ch hch => hok _ _ _ hch
  obtain ⟨hI, rfl, h⟩ := solo_run hrun hf.inv (safe_collect hreads unrecorded_complete hf.inv
    fun live broken keep s' hm hsw => hf.inv.2.swept hext ht hm hsw)
  refine ⟨hI, hJ.collected _ _ _ hf.prop ?_⟩
  rcases h with ⟨-, rfl | ⟨live, broken, hm, hun⟩⟩ | ⟨-, live, broken, keep, hm, hsw⟩
  · exact .refl
  · exact hun.collected hM ht hm
  · exact hsw.collected hM ht hm

end

/-! ## Runs -/

/-- The operations of a process, and dropping the handle to open the directory again. -/
inductive Op where
  | ingestArchive (arc : Archive)
  | storeObject (info : PathInfo) (file : {file : FsNode // file.Ordered})
  | writeDerivation (path contents : Bytes)
  | pathRecord (path : Bytes)
  | drvText (path : Bytes)
  | registerRoot (root : Bytes) (tree : Bool)
  | touchRoot (root : Bytes) (tree : Bool)
  | sync
  | maybeGc
  | reopen

/-- The code of an operation. The destructor of `TreeStore` flushes the touches. -/
def Op.code (cfg : Config) (json : Json) (fuel : Nat) : Op → TreeM Unit
  | .ingestArchive arc => Tree.ingestArchive cfg fuel arc >>= fun _ => pure ()
  | .storeObject info file => Tree.storeObject json info file.1
  | .writeDerivation path contents => Tree.writeDerivation cfg path contents
  | .pathRecord path => Tree.pathRecord cfg json path >>= fun _ => pure ()
  | .drvText path => Tree.drvText cfg path >>= fun _ => pure ()
  | .registerRoot root tree => Tree.registerRoot root tree
  | .touchRoot root tree => Tree.touchRoot cfg root tree
  | .sync => Tree.sync
  | .maybeGc => Tree.maybeGc cfg fuel
  | .reopen => flushTouches

/-- An operation up to the collection it may end with; whether it does. -/
def Op.before (cfg : Config) (json : Json) : Op → TreeM Bool
  | .ingestArchive arc => ingestTree arc >>= fun _ => expireAll cfg
  | .maybeGc => expireAll cfg
  | op => op.code cfg json 0 >>= fun _ => pure false

/-- What is left of the touch queue, and the directory, when the operation has ended. A handle that is
dropped takes its queue and its batch along. -/
def Op.leave (p : Nat) (op : Op) (σ : Pending) (s : Sys) : Pending × Sys :=
  match op with
  | .reopen => ([], s.drop p)
  | _ => (σ, s)

/-- The operation makes a collection that begins in `s₁`. -/
def Op.Collects (ext : Ext) (ok : Call → Sys → Choice → Prop) (p : Nat) (cfg : Config) (json : Json)
    (fuel : Nat) (op : Op) (σ : Pending) (s : Sys) (tr : List (Tarmac.Event sig)) (σ' : Pending) (s' s₁ : Sys) :
    Prop :=
  ∃ tr₁ tr₂ σ₁ x, tr = tr₁ ++ tr₂ ∧ Prog.Run (sem ext ok p) (op.before cfg json σ) s tr₁ (.ok true, σ₁) s₁ ∧
    Prog.Run (sem ext ok p) (collect fuel σ₁) s₁ tr₂ (x, σ') s'

/-- The process runs one operation to its end, which may be an error. A collection begins in a state
in `C`. -/
def Op.step (ext : Ext) (ok : Call → Sys → Choice → Prop) (p : Nat) (cfg : Config) (json : Json)
    (fuel : Nat) (C : Sys → Prop) (x : Pending × Sys) (op : Op) (x' : Pending × Sys) : Prop :=
  ∃ tr out σ' s', Prog.Run (sem ext ok p) (op.code cfg json fuel x.1) x.2 tr (out, σ') s' ∧
    (∀ s₁, op.Collects ext ok p cfg json fuel x.1 x.2 tr σ' s' s₁ → C s₁) ∧
    x' = op.leave p σ' s'

section

variable {ext : Ext} {S : Bytes → Prop} {ok : Call → Sys → Choice → Prop} {cfg : Config}
  {json : Json} {p fuel : Nat} {J : Pending → Sys → Prop} {s s' : Sys} {σ σ' : Pending}

/-- The code of an operation is what is before the collection, and the collection. -/
theorem Op.code_eq (op : Op) : op.code cfg json fuel =
    op.before cfg json >>= fun due => if due then collect fuel else pure () := by
  cases op <;> simp [code, before, Tree.ingestArchive, Tree.maybeGc]

/-- So does all of an operation that comes before its collection. -/
theorem adheres_before (hS : NoCollision ext S)
    (hok : ∀ c s ch, ok c s ch → apart ext S p c s ch) (hJ : Steady ext S ok cfg json p J) (op : Op)
    (hf : Fit ext S ok p J σ s) :
    Adheres ext S ok p J (op.before cfg json) (fun _ _ => True) σ s := by
  have hend {m : TreeM Unit} {Q : Unit → Sys → Prop} (hm : Adheres ext S ok p J m Q σ s) :
      Adheres ext S ok p J (m >>= fun _ => pure false) (fun _ _ => True) σ s :=
    Adheres.bind hf hm fun _ _ _ hf' _ _ => .pure hf' trivial
  have hskip {α : Type} {m : TreeM α} {Q : α → Sys → Prop} (hm : Adheres ext S ok p J m Q σ s) :
      Adheres ext S ok p J (m >>= fun _ => pure ()) (fun _ _ => True) σ s :=
    Adheres.bind hf hm fun _ _ _ hf' _ _ => .pure hf' trivial
  cases op with
  | ingestArchive arc =>
    exact Adheres.bind hf (adheres_ingestTree hS hok hJ hf) fun _ _ _ hf' _ _ =>
      adheres_expireAll hJ hf'
  | storeObject info file => exact hend (adheres_storeObject hS hok hJ hf file.2)
  | writeDerivation path contents => exact hend (adheres_writeDerivation hS hok hJ hf)
  | pathRecord path => exact hend (hskip (adheres_pathRecord hJ hf))
  | drvText path => exact hend (hskip (adheres_drvText hJ hf))
  | registerRoot root tree => exact hend (adheres_registerRoot hJ hf)
  | touchRoot root tree => exact hend (adheres_touchRoot hJ hf)
  | sync => exact hend (adheres_sync hJ hf)
  | maybeGc => exact adheres_expireAll hJ hf
  | reopen => exact hend (adheres_flushTouches hJ hf)

/-- What holds after the code of an operation. -/
theorem Fit.code (hext : ext.Lawful) (hS : NoCollision ext S)
    (hok : ∀ c s ch, ok c s ch → apart ext S p c s ch) (hJ : Steady ext S ok cfg json p J) (op : Op)
    {tr : List (Tarmac.Event sig)} {x : Except Err Unit} (hf : Fit ext S ok p J σ s)
    (hrun : Prog.Run (sem ext ok p) (op.code cfg json fuel σ) s tr (x, σ') s')
    (ht : ∀ s₁, op.Collects ext ok p cfg json fuel σ s tr σ' s' s₁ → Tidy p s₁) :
    Fit ext S ok p J σ' s' := by
  rw [Op.code_eq] at hrun
  rcases Eff.run_seq hrun with ⟨tr₁, due, σ₁, s₁, tr₂, h₁, h₂, rfl⟩ | ⟨e, -, h₁⟩
  · obtain ⟨hI, -, hJ₁, -⟩ := solo_run h₁ hf.inv (adheres_before hS hok hJ op hf)
    cases due with
    | false =>
      cases h₂
      exact ⟨hI, hJ₁⟩
    | true =>
      have hf₁ : Fit ext S ok p J σ₁ s₁ := ⟨hI, hJ₁⟩
      exact hf₁.collect hext hok hJ (ht s₁ ⟨tr₁, tr₂, σ₁, x, rfl, h₁, h₂⟩) h₂
  · obtain ⟨hI, -, hJ₁, -⟩ := solo_run h₁ hf.inv (adheres_before hS hok hJ op hf)
    exact ⟨hI, hJ₁⟩

/-- A handle that is dropped leaves the committed store. -/
theorem Complete.drop (h : Complete ext S p s) : Complete ext S p (s.drop p) := by
  have hview : (s.drop p).blobs p = s.committed.blobs := by rw [Sys.blobs, Sys.model_drop]; rfl
  exact ⟨h.listed, h.committed, hview ▸ h.committed⟩

end

/-! ## Evaluation -/

/-- The answer to a call that writes is not an error. -/
def answered : Tarmac.Event sig → Bool
  | ⟨.put .., .error _⟩ | ⟨.sync, .error _⟩ | ⟨.compact _, .error _⟩ => false
  | ⟨.metaPut .., .error _⟩ | ⟨.metaDel _, .error _⟩ => false
  | _ => true

section

variable {ext : Ext} {ok : Call → Sys → Choice → Prop} {p fuel : Nat} {cfg : Config} {json : Json}
  {C : Sys → Prop} {check : Call → Sys → Choice → Bool} {tidy : Sys → Bool}

end

/-- Nothing fails, and the clock does not run backwards. -/
def calm (_ : Call) (s : Sys) (ch : Choice) : Prop := ch.fail = none ∧ s.clock ≤ ch.clock

def isCalm (_ : Call) (s : Sys) (ch : Choice) : Bool := ch.fail.isNone && decide (s.clock ≤ ch.clock)

/-- A checked call is calm. -/
theorem calm_of_isCalm (c : Call) (s : Sys) (ch : Choice) (h : isCalm c s ch = true) :
    calm c s ch := by
  obtain ⟨hfail, hclock⟩ := Bool.and_eq_true_iff.1 h
  exact ⟨Option.isNone_iff_eq_none.1 hfail, of_decide_eq_true hclock⟩

end Tarmac.Tree
