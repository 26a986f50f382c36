import Tarmac.Tree.Served
import Tarmac.Tree.Stale

/-!
# Looking up a path by its hash part

`queryPathFromHashPart` (`plugin/store.cc`) answers with the first record whose key begins with the
hash part, among the records of paths and then among those of derivations; it does not look at the
object behind the record, as `isValidPathUncached` does, nor at the length of what it is asked for.
`findsPath_iff`: in every store the eval store can be in, the answer is right just when the first
such record is of an object that is there, and what was asked for has the length of a hash part.
`collected_found` is a store with a record whose object has been collected.
-/

namespace Tarmac.Tree

open PackCas

/-! ## Store paths -/

/-- `StorePath::HashLen`. -/
def hashLen : Nat := 32

/-- `nix::StorePath`: a base name that is accepted. -/
structure StorePath (names : PathNames) where
  base : Bytes
  valid : names.valid base = true

variable {names : PathNames}

/-- The constructor of `nix::StorePath`. -/
def StorePath.ofBase (names : PathNames) (base : Bytes) : Except Err (StorePath names) :=
  if h : names.valid base = true then .ok ⟨base, h⟩
  else .error (.runtime "not a valid store path")

/-- `StorePath::hashPart`. -/
def StorePath.hashPart (path : StorePath names) : Bytes := path.base.take hashLen

/-- A base name that is accepted has a whole hash part. -/
def PathNames.Lawful (names : PathNames) : Prop := ∀ base, names.valid base = true → hashLen ≤ base.length

/-- Derivations of nix, which are not part of the repository: `parseDrv`, of the text of a path,
`unparseDrv`, and `computeStorePath`, which gives a derivation the name of one. -/
structure Derivations (names : PathNames) where
  Drv : Type
  parse : StorePath names → Bytes → Except Err Drv
  unparse : Drv → Bytes
  path : Drv → StorePath names
  isDerivation : ∀ drv, names.isDerivation (path drv).base = true

/-! ## The code -/

/-- `TarmacStore::isValidPathUncached`. -/
def isValidPathUncached (cfg : Config) (json : Json) (path : StorePath names) : TreeM Bool :=
  if names.isDerivation path.base then do
    let text ← drvText cfg path.base
    pure text.isSome
  else do
    let record ← pathRecord cfg json path.base
    pure record.isSome

/-- The loop of `queryPathFromHashPart` over the prefixes. -/
def queryPrefixes (names : PathNames) (hashPart : Bytes) :
    List Bytes → TreeM (Option (StorePath names))
  | [] => pure none
  | pre :: pres => do
    let found ← Cas.metaScan (pre ++ hashPart)
    match found with
    | (key, _) :: _ => do
      let path ← Eff.ofExcept (StorePath.ofBase names (key.drop pre.length))
      pure (some path)
    | [] => queryPrefixes names hashPart pres

/-- `TarmacStore::queryPathFromHashPart`. -/
def queryPathFromHashPart (names : PathNames) (hashPart : Bytes) : TreeM (Option (StorePath names)) :=
  queryPrefixes names hashPart [kPathPrefix, kDrvPrefix]

/-- `MemorySourceAccessor::readFile`, of the root. -/
def FsNode.readRoot : FsNode → Except Err Bytes
  | .regular _ contents => .ok contents
  | _ => .error (.runtime "is not a regular file")

/-- `TarmacStore::addToStore`; `addToStoreFromDump` stores a path that is no derivation in the same
way. -/
def addToStore (cfg : Config) (json : Json) (drvs : Derivations names) (path : StorePath names)
    (info : PathInfo) (file : FsNode) : TreeM Unit :=
  if names.isDerivation path.base then do
    let text ← Eff.ofExcept file.readRoot
    let drv ← Eff.ofExcept (drvs.parse path text)
    writeDerivation cfg (drvs.path drv).base (drvs.unparse drv)
  else addObject cfg json { info with path := path.base } file

/-- What a process does with an eval store, and with the `TreeStore` below it. -/
inductive EvalOp (names : PathNames) (drvs : Derivations names) where
  | isValidPath (path : StorePath names)
  | queryPathFromHashPart (hashPart : Bytes)
  | addToStore (path : StorePath names) (info : PathInfo) (file : FsNode)
  | writeDerivation (drv : drvs.Drv)
  | ingestArchive (arc : Archive)
  | registerRoot (root : Bytes) (tree : Bool)
  | touchRoot (root : Bytes) (tree : Bool)
  | sync
  | maybeGc

/-- The code of an operation. -/
def EvalOp.code {drvs : Derivations names} (cfg : Config) (json : Json) (fuel : Nat) :
    EvalOp names drvs → TreeM Unit
  | .isValidPath path => isValidPathUncached cfg json path >>= fun _ => pure ()
  | .queryPathFromHashPart hashPart =>
    Tree.queryPathFromHashPart names hashPart >>= fun _ => pure ()
  | .addToStore path info file => Tree.addToStore cfg json drvs path info file
  | .writeDerivation drv => Tree.writeDerivation cfg (drvs.path drv).base (drvs.unparse drv)
  | .ingestArchive arc => Tree.ingestArchive cfg fuel arc >>= fun _ => pure ()
  | .registerRoot root tree => Tree.registerRoot root tree
  | .touchRoot root tree => Tree.touchRoot cfg root tree
  | .sync => Tree.sync
  | .maybeGc => Tree.maybeGc cfg fuel

/-! ## What is asked for -/

/-- `isValidPathUncached` has a run that answers `true`. -/
def ValidIn (ext : Ext) (cfg : Config) (json : Json) (p : Nat) (queue : Pending) (s : Sys)
    (path : StorePath names) : Prop :=
  ∃ tr queue' s', Prog.Run (sem ext unfailing p) (isValidPathUncached cfg json path queue) s tr
    (.ok true, queue') s'

/-- What `queryPathFromHashPart` answers is right. -/
def RightAnswer (ext : Ext) (cfg : Config) (json : Json) (p : Nat) (queue : Pending) (s : Sys)
    (hashPart : Bytes) : Option (StorePath names) → Prop
  | none => ∀ path : StorePath names, ValidIn ext cfg json p queue s path → path.hashPart ≠ hashPart
  | some path => ValidIn ext cfg json p queue s path ∧ path.hashPart = hashPart

/-- `queryPathFromHashPart` ends, and its answer is right. -/
def FindsPath (ext : Ext) (names : PathNames) (cfg : Config) (json : Json) (p : Nat) (queue : Pending)
    (s : Sys) (hashPart : Bytes) : Prop :=
  (∃ tr y s', Prog.Run (sem ext unfailing p) (queryPathFromHashPart names hashPart queue) s tr y s') ∧
  ∀ tr x queue' s', Prog.Run (sem ext unfailing p) (queryPathFromHashPart names hashPart queue) s tr
    (x, queue') s' → ∃ found, x = .ok found ∧ RightAnswer ext cfg json p queue s hashPart found

namespace Slot

/-- The base name a record is of. -/
def base : Slot → Bytes
  | path p => p
  | drv p => p

/-- The record is there. -/
def Present (slot : Slot) (st : Store) : Prop := (st.records.find? slot.key).isSome

/-- The query comes to a record `slot` no later than to `slot'`. -/
def NoLater : Slot → Slot → Prop
  | path _, drv _ => True
  | drv _, path _ => False
  | slot, slot' => slot.key ≤ slot'.key

/-- The record is of an accepted base name, of its kind. -/
def Fits (names : PathNames) : Slot → Prop
  | path p => names.valid p = true ∧ names.isDerivation p = false
  | drv p => names.valid p = true ∧ names.isDerivation p = true

/-- A valid path is present. -/
theorem Valid.present {json : Json} {slot : Slot} {st : Store} (h : slot.Valid json st) :
    slot.Present st := by
  obtain ⟨val, id, hval, -, -⟩ := h
  exact Option.isSome_of_eq_some hval

end Slot

/-- The record is the first of those of base names that begin with the hash part. -/
structure Leading (st : Store) (hashPart : Bytes) (slot : Slot) : Prop where
  present : slot.Present st
  begins : hashPart <+: slot.base
  first : ∀ slot' : Slot, slot'.Present st → hashPart <+: slot'.base → slot.NoLater slot'

/-- There is one leading record. -/
theorem Leading.unique {st : Store} {hashPart : Bytes} {slot slot' : Slot}
    (h : Leading st hashPart slot) (h' : Leading st hashPart slot') : slot = slot' := by
  have hle := h.first slot' h'.present h'.begins
  have hle' := h'.first slot h.present h.begins
  cases slot with
  | path p =>
    cases slot' with
    | path p' => exact congrArg Slot.path (List.append_cancel_left (le_antisymm hle hle'))
    | drv p' => exact hle'.elim
  | drv p =>
    cases slot' with
    | path p' => exact hle.elim
    | drv p' => exact congrArg Slot.drv (List.append_cancel_left (le_antisymm hle hle'))

/-- The record of a path. -/
def StorePath.slot (path : StorePath names) : Slot :=
  if names.isDerivation path.base then .drv path.base else .path path.base

/-- The slot of a store path has its base name. -/
theorem StorePath.base_slot (path : StorePath names) : path.slot.base = path.base := by
  unfold slot
  split <;> rfl

/-- A slot with the base name of a store path is its slot. -/
theorem StorePath.slot_of_fits {slot : Slot} (hfits : slot.Fits names) (path : StorePath names)
    (hbase : path.base = slot.base) : path.slot = slot := by
  unfold StorePath.slot
  rw [hbase]
  cases slot with
  | path p => exact if_neg (by rw [Slot.base, hfits.2]; exact Bool.false_ne_true)
  | drv p => exact if_pos hfits.2

/-! ## What holds of every store -/

/-- Every record is of a base name of its kind. -/
def Orderly (names : PathNames) (st : Store) : Prop := ∀ slot : Slot, slot.Present st → slot.Fits names

/-- A record is written only of a base name of its kind. -/
def FitKey (names : PathNames) (key : Bytes) : Prop := ∀ slot : Slot, key = slot.key → slot.Fits names

/-- The calls of an eval store. -/
def FitCall (names : PathNames) : Call → Prop
  | .metaPut key _ => FitKey names key
  | _ => True

/-- The keys that fit are the store's own. -/
theorem ownKeys_fitKey : OwnKeys (FitKey names) where
  root root tree slot h := absurd h ((ownKeys_beside slot).root root tree)
  lastGc slot h := absurd h (ownKeys_beside slot).lastGc

/-- The key of a store path fits. -/
theorem fitKey_slot (path : StorePath names) : FitKey names path.slot.key := by
  have hfits : path.slot.Fits names := by
    unfold StorePath.slot
    split
    · next h => exact ⟨path.valid, h⟩
    · next h => exact ⟨path.valid, Bool.eq_false_of_not_eq_true h⟩
  intro slot h
  generalize path.slot = slot₀ at h hfits
  cases slot₀ with
  | path p => exact Slot.eq_path slot h ▸ hfits
  | drv p => exact Slot.eq_drv slot h ▸ hfits

/-- A tame call fits. -/
theorem fitCall_of_tame (c : Call) (h : Tame (FitKey names) c) : FitCall names c := by
  cases c with
  | metaPut key val => exact h
  | put | get | getView | size | has | sync | compact | metaGet | metaDel | metaScan | now => trivial

section

variable {drvs : Derivations names} {cfg : Config} {json : Json} {fuel : Nat} {σ : Pending}

/-- The query only scans. -/
theorem makes_query {P : Call → Prop} (hscan : ∀ pre, P (.metaScan pre)) {hashPart : Bytes} :
    Eff.Makes P (fun _ σ' => σ' = σ) (queryPathFromHashPart names hashPart) σ := by
  unfold queryPathFromHashPart
  generalize [kPathPrefix, kDrvPrefix] = pres
  induction pres with
  | nil => exact .pure rfl
  | cons pre pres ih =>
    unfold queryPrefixes
    refine Eff.Makes.seq (T := fun _ σ' => σ' = σ) (makes_ask (hscan _) fun _ => rfl) ?_
      fun _ _ h => h
    rintro found _ rfl
    split
    · refine Eff.Makes.seq (T := fun _ σ' => σ' = _) (.ofExcept rfl) ?_ fun _ _ h => h
      rintro path _ rfl
      exact .pure rfl
    · exact ih

/-- What an operation calls. -/
theorem makes_evalOp (op : EvalOp names drvs) (h : Queues (FitKey names) σ) :
    Eff.Makes (FitCall names) (fun _ σ' => Queues (FitKey names) σ') (op.code cfg json fuel) σ := by
  have hK : OwnKeys (FitKey names) := ownKeys_fitKey
  have htame {α : Type} {m : TreeM α} {σ : Pending}
      (hm : Eff.Makes (Tame (FitKey names)) (fun _ σ' => Queues (FitKey names) σ') m σ) :
      Eff.Makes (FitCall names) (fun _ σ' => Queues (FitKey names) σ') m σ :=
    hm.mono fitCall_of_tame fun _ _ h => h
  have hthen {α : Type} {m : TreeM α} {σ : Pending}
      (hm : Eff.Makes (FitCall names) (fun _ σ' => Queues (FitKey names) σ') m σ) :
      Eff.Makes (FitCall names) (fun _ σ' => Queues (FitKey names) σ') (m >>= fun _ => pure ()) σ :=
    hm.seq (fun _ _ h => .pure h) fun _ _ h => h
  have hdrv {drv : drvs.Drv} {σ : Pending} (h : Queues (FitKey names) σ) :
      Eff.Makes (FitCall names) (fun _ σ' => Queues (FitKey names) σ')
        (writeDerivation cfg (drvs.path drv).base (drvs.unparse drv)) σ := by
    refine makes_writeDerivation hK fitCall_of_tame (fun _ _ => trivial) (fun val => ?_) h
    have hfit := fitKey_slot (drvs.path drv)
    rw [StorePath.slot, if_pos (drvs.isDerivation drv)] at hfit
    exact hfit
  cases op with
  | isValidPath path =>
    refine hthen ?_
    unfold isValidPathUncached
    split
    · exact (htame (makes_drvText hK h)).seq (fun _ _ h => .pure h) fun _ _ h => h
    · exact (htame (makes_pathRecord hK h)).seq (fun _ _ h => .pure h) fun _ _ h => h
  | queryPathFromHashPart hashPart =>
    refine hthen ((makes_query fun _ => trivial).mono (fun _ h => h) ?_)
    rintro _ _ rfl
    exact h
  | addToStore path info file =>
    show Eff.Makes _ _ (Tree.addToStore cfg json drvs path info file) σ
    unfold Tree.addToStore
    split
    · refine Eff.Makes.seq (T := fun _ σ' => Queues (FitKey names) σ') (.ofExcept h) ?_ fun _ _ h => h
      intro text σ' h
      refine Eff.Makes.seq (T := fun _ σ' => Queues (FitKey names) σ') (.ofExcept h) ?_ fun _ _ h => h
      intro drv σ' h
      exact hdrv h
    · next hobj =>
      refine makes_addObject hK fitCall_of_tame (fun _ _ => trivial) (fun val => ?_) h
      have hfit := fitKey_slot path
      rw [StorePath.slot, if_neg hobj] at hfit
      exact hfit
  | writeDerivation drv => exact hdrv h
  | ingestArchive arc =>
    refine hthen ?_
    unfold ingestArchive
    refine (makes_ingestTree hK fitCall_of_tame (fun _ _ => trivial) h).seq ?_ fun _ _ h => h
    intro res σ' h
    exact (makes_maybeGc hK fitCall_of_tame (fun _ => trivial) h).seq (fun _ _ h => .pure h)
      fun _ _ h => h
  | registerRoot root tree => exact htame (makes_registerRoot hK h)
  | touchRoot root tree => exact htame (makes_touchRoot hK h)
  | sync => exact htame (makes_sync h)
  | maybeGc => exact makes_maybeGc hK fitCall_of_tame (fun _ => trivial) h

/-- Every store the processes can come to is orderly. -/
theorem orderly_of_runs {ext : Ext} {ok : Nat → Call → Sys → Choice → Prop} {cfg : Nat → Config}
    {gs : Nat → Process sig (EvalOp names drvs) Pending (Except Err Unit)} {s : Sys}
    {acts : List (Nat × Act sig (EvalOp names drvs) (Except Err Unit))}
    (hr : Runs (machine ext ok fun p => EvalOp.code (cfg p) json fuel).Step (atRest, .fresh) acts (gs, s))
    (p : Nat) : Orderly names (s.model p).view := by
  have hfresh : Orderly names Sys.fresh.committed := fun _ h => nomatch (show none.isSome from h)
  have hcode (p : Nat) (op : EvalOp names drvs) (σ : Pending) (h : Queues (FitKey names) σ) :
      Eff.Makes (FitCall names) (fun _ σ' => Queues (FitKey names) σ') (op.code (cfg p) json fuel) σ :=
    makes_evalOp op h
  refine (everywhere_of_runs nofun hcode (fun _ => ⟨hfresh, hfresh⟩) ?_ hr p).2
  rintro _ c _ _ hc -
  refine ⟨fun _ _ _ _ h => h, ?_, ?_, fun _ _ h => h⟩
  · rintro key val st rfl h slot hslot
    unfold Slot.Present Store.putRecord at hslot
    rw [SortedMap.find?_insert] at hslot
    split at hslot
    · next heq => exact hc slot heq
    · exact h slot hslot
  · intro key st h slot hslot
    unfold Slot.Present Store.delRecord at hslot
    rw [SortedMap.find?_erase] at hslot
    split at hslot
    · cases hslot
    · exact h slot hslot

end

/-! ## Validity -/

section

variable {ext : Ext} {cfg : Config} {json : Json} {p : Nat} {s : Sys} {queue : Pending}

/-- `has` answers whether the blob is there, or throws. -/
theorem reads_hasAny {id : Bytes} : Reads ext p s
    (fun y queue' => (∀ b, y = .ok b → b = (s.blobs p id).isSome) ∧ queue' = queue) (Cas.has id)
    queue := by
  refine Eff.Leads.perform fun r s' hstep => ?_
  obtain ⟨ch, -, hx⟩ := hstep
  cases hx
  exact Eff.Leads.ofExcept ⟨rfl, fun b hb => Choice.lookup_ok hb, rfl⟩

/-- `get` answers the blob, or throws. -/
theorem reads_getAny {id : Bytes} : Reads ext p s
    (fun y queue' => (∀ b, y = .ok b → b = s.blobs p id) ∧ queue' = queue) (Cas.get id) queue := by
  refine Eff.Leads.perform fun r s' hstep => ?_
  obtain ⟨ch, -, hx⟩ := hstep
  cases hx
  exact Eff.Leads.ofExcept ⟨rfl, fun b hb => Choice.lookup_ok hb, rfl⟩

/-- Nothing is said of how the computation ends. -/
theorem leads_any {α : Type} {m : TreeM α} : Eff.Leads (sem ext unfailing p) (fun _ _ _ => True) m queue s :=
  fun _ _ _ _ _ => trivial

/-- A path that `pathRecord` finds is there. -/
theorem leads_pathRecord_valid {base : Bytes} : Eff.Leads (sem ext unfailing p)
    (fun y _ _ => ∀ record, y = .ok (some record) → (Slot.path base).Valid json (s.model p).view)
    (pathRecord cfg json base) queue s := by
  unfold pathRecord
  refine Eff.Leads.seq reads_metaGet ?_ fun _ _ _ _ => nofun
  rintro found queue s ⟨rfl, hfound, rfl⟩
  cases hfound
  split
  · exact .pure nofun
  · next raw hraw =>
    cases hdecode : json.decode raw with
    | error e => exact .throw nofun
    | ok record =>
      rw [Eff.ofExcept_ok, pure_bind]
      refine Eff.Leads.seq reads_hasAny ?_ fun _ _ _ _ => nofun
      rintro present queue s ⟨rfl, hpresent, rfl⟩
      obtain rfl := hpresent present rfl
      split
      · exact Eff.Leads.seq leads_any (fun _ _ _ _ => .pure nofun) fun _ _ _ _ => nofun
      · next hid =>
        refine Eff.Leads.seq leads_any (fun _ _ _ _ => .pure ?_) fun _ _ _ _ => nofun
        rintro _ -
        rw [Bool.not_eq_true', Bool.not_eq_false] at hid
        refine ⟨raw, record.rootId, hraw, ?_, hid⟩
        rw [Slot.named, hdecode]
        rfl

/-- A derivation that `drvText` finds is there. -/
theorem leads_drvText_valid {base : Bytes} : Eff.Leads (sem ext unfailing p)
    (fun y _ _ => ∀ text, y = .ok (some text) → (Slot.drv base).Valid json (s.model p).view)
    (drvText cfg base) queue s := by
  unfold drvText
  refine Eff.Leads.seq reads_metaGet ?_ fun _ _ _ _ => nofun
  rintro found queue s ⟨rfl, hfound, rfl⟩
  cases hfound
  split
  · exact .pure nofun
  · next id hval =>
    refine Eff.Leads.seq reads_getAny ?_ fun _ _ _ _ => nofun
    rintro contents queue s ⟨rfl, hcontents, rfl⟩
    obtain rfl := hcontents contents rfl
    split
    · exact Eff.Leads.seq leads_any (fun _ _ _ _ => .pure nofun) fun _ _ _ _ => nofun
    · next text htext =>
      refine Eff.Leads.seq leads_any (fun _ _ _ _ => .pure ?_) fun _ _ _ _ => nofun
      rintro _ -
      exact ⟨id, id, hval, rfl, Option.isSome_of_eq_some htext⟩

/-- A call attains its answer. -/
theorem attains_ask {α : Type} {c : Call} {hc : c.Resp = Except Err α} {a : α} {r : c.Resp} {s' : Sys}
    (hx : exec ext p {} c s = some (r, s')) (hr : hc ▸ r = Except.ok a) :
    Eff.Attains (sem ext unfailing p) (fun x queue' s₁ => x = .ok a ∧ queue' = queue ∧ s₁ = s')
      (ask c hc) queue s :=
  Eff.Attains.perform (S := sig) ⟨{}, rfl, hx⟩ (.ofExcept ⟨hr, rfl, rfl⟩)

/-- `meta_get` attains the record. -/
theorem attains_metaGet {key : Bytes} :
    Eff.Attains (sem ext unfailing p) (fun x queue' s' =>
      x = .ok ((s.model p).view.records.find? key) ∧ queue' = queue ∧ s' = s) (Cas.metaGet key) queue s :=
  attains_ask rfl rfl

/-- `touchRoot` comes through. -/
theorem attains_touchRoot {root : Bytes} {tree : Bool} : ∃ queue' s',
    Eff.Attains (sem ext unfailing p) (fun x queue₁ s₁ => x = .ok () ∧ queue₁ = queue' ∧ s₁ = s')
      (touchRoot cfg root tree) queue s := by
  suffices h : Eff.Attains (sem ext unfailing p) (fun x _ _ => x = .ok ()) (touchRoot cfg root tree)
      queue s by
    obtain ⟨tr, x, queue', s', hr, rfl⟩ := h
    exact ⟨queue', s', tr, _, _, _, hr, rfl, rfl, rfl⟩
  unfold touchRoot
  refine Eff.Attains.seq attains_metaGet ?_
  split
  · exact .pure rfl
  · split
    · exact .pure rfl
    · refine Eff.Attains.perform (S := sig) (r := (0 : Nat)) ⟨{}, rfl, rfl⟩ ?_
      split
      · exact .pure rfl
      · exact Eff.Attains.modify (f := Pure.pure) (.pure rfl)

/-- A path that is there is found. -/
theorem attains_pathRecord {base : Bytes} (hM : Keyed (s.blobs p))
    (h : (Slot.path base).Valid json (s.model p).view) : ∃ record queue' s',
    Eff.Attains (sem ext unfailing p)
      (fun x queue₁ s₁ => x = .ok (some record) ∧ queue₁ = queue' ∧ s₁ = s')
      (pathRecord cfg json base) queue s := by
  obtain ⟨val, id, hval, hnamed, hid⟩ := h
  obtain ⟨record, hdecode, rfl⟩ : ∃ record, json.decode val = .ok record ∧ record.rootId = id := by
    change (json.decode val).toOption.map PathRecord.rootId = some id at hnamed
    cases hdecode : json.decode val with
    | error e => rw [hdecode] at hnamed; cases hnamed
    | ok record => rw [hdecode] at hnamed; exact ⟨record, rfl, Option.some.inj hnamed⟩
  obtain ⟨queue', s', htouch⟩ := @attains_touchRoot ext cfg p s queue record.rootId
    (decide (record.rootType = .d))
  refine ⟨record, queue', s', ?_⟩
  unfold pathRecord
  refine Eff.Attains.seq attains_metaGet ?_
  rw [show (s.model p).view.records.find? (kPathPrefix ++ base) = some val from hval]
  dsimp only
  rw [hdecode, Eff.ofExcept_ok, pure_bind]
  have hhas : Eff.Attains (sem ext unfailing p) (fun x queue' s' => x = .ok true ∧ queue' = queue ∧ s' = s)
      (Cas.has record.rootId) queue s := by
    refine attains_ask rfl ?_
    show Choice.lookup {} _ _ = _
    rw [lookup_ok rfl (hM _ hid)]
    exact congrArg Except.ok hid
  exact Eff.Attains.seq hhas (Eff.Attains.seq htouch (.pure ⟨rfl, rfl, rfl⟩))

/-- A derivation that is there is found. -/
theorem attains_drvText {base : Bytes} (hM : Keyed (s.blobs p))
    (h : (Slot.drv base).Valid json (s.model p).view) : ∃ text queue' s',
    Eff.Attains (sem ext unfailing p)
      (fun x queue₁ s₁ => x = .ok (some text) ∧ queue₁ = queue' ∧ s₁ = s')
      (drvText cfg base) queue s := by
  obtain ⟨val, id, hval, hnamed, hid⟩ := h
  obtain rfl := Option.some.inj hnamed
  obtain ⟨text, htext⟩ := Option.isSome_iff_exists.1 hid
  obtain ⟨queue', s', htouch⟩ := @attains_touchRoot ext cfg p s queue val false
  refine ⟨text, queue', s', ?_⟩
  unfold drvText
  refine Eff.Attains.seq attains_metaGet ?_
  rw [show (s.model p).view.records.find? (kDrvPrefix ++ base) = some val from hval]
  have hget : Eff.Attains (sem ext unfailing p)
      (fun x queue' s' => x = .ok (some text) ∧ queue' = queue ∧ s' = s) (Cas.get val) queue s := by
    refine attains_ask rfl ?_
    show Choice.lookup {} _ _ = _
    rw [lookup_ok rfl (hM _ hid)]
    exact congrArg Except.ok htext
  exact Eff.Attains.seq hget (Eff.Attains.seq htouch (.pure ⟨rfl, rfl, rfl⟩))

/-- `isValidPathUncached` answers `true` just for the paths whose record and object are there. -/
theorem validIn_iff (hM : Keyed (s.blobs p)) (path : StorePath names) :
    ValidIn ext cfg json p queue s path ↔ path.slot.Valid json (s.model p).view := by
  unfold ValidIn isValidPathUncached StorePath.slot
  constructor
  · rintro ⟨tr, queue', s', hr⟩
    split at hr
    · next hdrv =>
      rw [if_pos hdrv]
      have hleads : Eff.Leads (sem ext unfailing p)
          (fun y _ _ => y = .ok true → (Slot.drv path.base).Valid json (s.model p).view)
          (do let text ← drvText cfg path.base; pure text.isSome) queue s := by
        refine Eff.Leads.seq (@leads_drvText_valid ext cfg json p s queue path.base) ?_ fun _ _ _ _ => nofun
        rintro text _ _ htext
        refine .pure fun hsome => ?_
        obtain ⟨text, rfl⟩ := Option.isSome_iff_exists.1 (Except.ok.inj hsome)
        exact htext text rfl
      exact hleads _ _ _ _ hr rfl
    · next hdrv =>
      rw [if_neg hdrv]
      have hleads : Eff.Leads (sem ext unfailing p)
          (fun y _ _ => y = .ok true → (Slot.path path.base).Valid json (s.model p).view)
          (do let record ← pathRecord cfg json path.base; pure record.isSome) queue s := by
        refine Eff.Leads.seq leads_pathRecord_valid ?_ fun _ _ _ _ => nofun
        rintro record _ _ hrecord
        refine .pure fun hsome => ?_
        obtain ⟨record, rfl⟩ := Option.isSome_iff_exists.1 (Except.ok.inj hsome)
        exact hrecord record rfl
      exact hleads _ _ _ _ hr rfl
  · intro h
    suffices hattains : Eff.Attains (sem ext unfailing p) (fun x _ _ => x = .ok true)
        (isValidPathUncached cfg json path) queue s by
      obtain ⟨tr, x, queue', s', hr, rfl⟩ := hattains
      exact ⟨tr, queue', s', hr⟩
    unfold isValidPathUncached
    split at h
    · next hdrv =>
      rw [if_pos hdrv]
      obtain ⟨text, queue', s', hfound⟩ := attains_drvText hM h
      exact Eff.Attains.seq hfound (.pure rfl)
    · next hdrv =>
      rw [if_neg hdrv]
      obtain ⟨record, queue', s', hfound⟩ := attains_pathRecord hM h
      exact Eff.Attains.seq hfound (.pure rfl)

end

/-! ## The first record -/

section

variable {st : Store} {pre hashPart : Bytes}

/-- What a scan begins with. -/
theorem scan_head {key val : Bytes} {rest : List (Bytes × Bytes)}
    (h : st.scan (pre ++ hashPart) = (key, val) :: rest) :
    ∃ base, key = pre ++ base ∧ hashPart <+: base ∧ (st.records.find? (pre ++ base)).isSome ∧
      ∀ base', hashPart <+: base' → (st.records.find? (pre ++ base')).isSome →
        pre ++ base ≤ pre ++ base' := by
  obtain ⟨hval, more, rfl⟩ := Store.mem_scan.1 (h ▸ List.mem_cons_self : (key, val) ∈ st.scan _)
  rw [List.append_assoc] at hval h
  refine ⟨hashPart ++ more, List.append_assoc .., ⟨more, rfl⟩, Option.isSome_of_eq_some hval, ?_⟩
  rintro _ ⟨more', rfl⟩ hfound
  obtain ⟨val', hval'⟩ := Option.isSome_iff_exists.1 hfound
  have hmem : (pre ++ (hashPart ++ more'), val') ∈ st.scan (pre ++ hashPart) :=
    Store.mem_scan.2 ⟨hval', more', List.append_assoc ..⟩
  have hsorted : (st.scan (pre ++ hashPart)).Pairwise fun a b => a.1 < b.1 := by
    rw [Store.scan_eq]
    exact st.records.sorted.filter _
  rw [h] at hmem hsorted
  rcases List.mem_cons.1 hmem with heq | hmem
  · exact le_of_eq (congrArg Prod.fst heq).symm
  · exact le_of_lt ((List.pairwise_cons.1 hsorted).1 _ hmem)

/-- The first record of a path, among those that begin with the hash part, is the leading one. -/
theorem leading_of_scan {base val : Bytes} {rest : List (Bytes × Bytes)}
    (h : st.scan (kPathPrefix ++ hashPart) = (kPathPrefix ++ base, val) :: rest) :
    Leading st hashPart (.path base) := by
  obtain ⟨base', hkey, hbegins, hpresent, hfirst⟩ := scan_head h
  obtain rfl := List.append_cancel_left hkey
  refine ⟨hpresent, hbegins, fun slot' hpresent' hbegins' => ?_⟩
  cases slot' with
  | path base' => exact hfirst base' hbegins' hpresent'
  | drv base' => trivial

/-- When the scan finds nothing, no path with the hash part is present. -/
theorem absent_of_scan {slot : Slot} (hkey : slot.key = pre ++ slot.base)
    (h : st.scan (pre ++ hashPart) = []) (hbegins : hashPart <+: slot.base) : ¬slot.Present st := by
  intro hpresent
  obtain ⟨val, hval⟩ := Option.isSome_iff_exists.1 hpresent
  obtain ⟨more, hmore⟩ := hbegins
  have hmem : (slot.key, val) ∈ st.scan (pre ++ hashPart) := by
    refine Store.mem_scan.2 ⟨hval, more, ?_⟩
    rw [hkey, ← hmore, List.append_assoc]
  rw [h] at hmem
  cases hmem

end

section

variable {ext : Ext} {p : Nat} {s : Sys} {queue : Pending} {hashPart : Bytes}

/-- What `queryPathFromHashPart` answers: the base name of the leading record. -/
def Answer (st : Store) (hashPart : Bytes) : Option (StorePath names) → Prop
  | none => ∀ slot : Slot, slot.Present st → ¬hashPart <+: slot.base
  | some path => Leading st hashPart path.slot

/-- The base name of a slot that fits is that of a store path. -/
theorem ofBase_slot {slot : Slot} (h : slot.Fits names) :
    ∃ path : StorePath names, StorePath.ofBase names slot.base = .ok path ∧ path.slot = slot := by
  have hvalid : names.valid slot.base = true := by
    cases slot with
    | path p => exact h.1
    | drv p => exact h.1
  exact ⟨⟨slot.base, hvalid⟩, dif_pos hvalid, StorePath.slot_of_fits h _ rfl⟩

/-- The query ends with the first record it finds. -/
theorem reads_queryHit {pre base val : Bytes} {rest : List (Bytes × Bytes)} {pres : List Bytes}
    {path : StorePath names} (hscan : (s.model p).view.scan (pre ++ hashPart) = (pre ++ base, val) :: rest)
    (hpath : StorePath.ofBase names base = .ok path) :
    Reads ext p s (fun y _ => y = .ok (some path)) (queryPrefixes names hashPart (pre :: pres)) queue := by
  unfold queryPrefixes
  refine reads_metaScan.then ?_
  rintro _ rfl
  rw [hscan]
  dsimp only
  rw [List.drop_left, hpath, Eff.ofExcept_ok, pure_bind]
  exact .pure rfl

/-- Or goes on with the next prefix. -/
theorem reads_queryMiss {pre : Bytes} {pres : List Bytes} {Q : Except Err (Option (StorePath names)) → Prop}
    (hscan : (s.model p).view.scan (pre ++ hashPart) = [])
    (hrest : Reads ext p s (fun y _ => Q y) (queryPrefixes names hashPart pres) queue) :
    Reads ext p s (fun y _ => Q y) (queryPrefixes names hashPart (pre :: pres)) queue := by
  unfold queryPrefixes
  refine reads_metaScan.then ?_
  rintro _ rfl
  rw [hscan]
  exact hrest

/-- `queryPathFromHashPart` answers with the leading record. -/
theorem query_leading (h : Orderly names (s.model p).view) : ∃ found : Option (StorePath names),
    Answer (s.model p).view hashPart found ∧
    Reads ext p s (fun y _ => y = .ok found) (queryPathFromHashPart names hashPart) queue := by
  unfold queryPathFromHashPart
  cases hpaths : (s.model p).view.scan (kPathPrefix ++ hashPart) with
  | cons record rest =>
    obtain ⟨key, val⟩ := record
    obtain ⟨base, rfl, -, hpresent, -⟩ := scan_head hpaths
    obtain ⟨path, hpath, hslot⟩ := ofBase_slot (h (.path base) hpresent)
    refine ⟨some path, ?_, reads_queryHit hpaths hpath⟩
    show Leading _ _ path.slot
    rw [hslot]
    exact leading_of_scan hpaths
  | nil =>
    have hnone {base : Bytes} := @absent_of_scan _ kPathPrefix hashPart (.path base) rfl hpaths
    cases hdrvs : (s.model p).view.scan (kDrvPrefix ++ hashPart) with
    | cons record rest =>
      obtain ⟨key, val⟩ := record
      obtain ⟨base, rfl, hbegins, hpresent, hfirst⟩ := scan_head hdrvs
      obtain ⟨path, hpath, hslot⟩ := ofBase_slot (h (.drv base) hpresent)
      refine ⟨some path, ?_, reads_queryMiss hpaths (reads_queryHit hdrvs hpath)⟩
      show Leading _ _ path.slot
      rw [hslot]
      refine ⟨hpresent, hbegins, fun slot' hpresent' hbegins' => ?_⟩
      cases slot' with
      | path base' => exact hnone hbegins' hpresent'
      | drv base' => exact hfirst base' hbegins' hpresent'
    | nil =>
      refine ⟨none, ?_, reads_queryMiss hpaths (reads_queryMiss hdrvs (.pure rfl))⟩
      intro slot hpresent hbegins
      cases slot with
      | path base => exact hnone hbegins hpresent
      | drv base => exact absent_of_scan rfl hdrvs hbegins hpresent

/-- The query ends. -/
theorem exists_query_run : ∃ tr y s', Prog.Run (sem ext unfailing p)
    (queryPathFromHashPart names hashPart queue) s tr y s' := by
  have hmakes : Eff.Makes (S := sig) (fun c : Call => ∃ pre, c = .metaScan pre) (fun _ σ' => σ' = queue)
      (queryPathFromHashPart names hashPart) queue := makes_query fun pre => ⟨pre, rfl⟩
  refine Prog.Makes.exists_run ?_ hmakes s
  rintro _ s ⟨pre, rfl⟩
  exact ⟨_, s, {}, rfl, rfl⟩

/-- The hash part of a path that begins with `hashPart`. -/
theorem hashPart_eq_iff (hnames : names.Lawful) {path : StorePath names} (h : hashPart <+: path.base) :
    path.hashPart = hashPart ↔ hashPart.length = hashLen := by
  have hlen : path.hashPart.length = hashLen := by
    unfold StorePath.hashPart
    rw [List.length_take]
    exact Nat.min_eq_left (hnames _ path.valid)
  constructor
  · intro heq
    rw [← heq]
    exact hlen
  · intro heq
    exact ((List.prefix_of_prefix_length_le (List.take_prefix _ _) h
      (le_of_eq (hlen.trans heq.symm))).eq_of_length (hlen.trans heq.symm))

/-- In an orderly store the answer is right just when the leading record is of an object that is there,
and what is asked for is as long as a hash part. -/
theorem findsPath_leading {cfg : Config} {json : Json} (hnames : names.Lawful) (hM : Keyed (s.blobs p))
    (h : Orderly names (s.model p).view) : FindsPath ext names cfg json p queue s hashPart ↔
      ∀ slot, Leading (s.model p).view hashPart slot →
        hashPart.length = hashLen ∧ slot.Valid json (s.model p).view := by
  obtain ⟨found, hleads, hreads⟩ := @query_leading names ext p s queue hashPart h
  have hright : FindsPath ext names cfg json p queue s hashPart ↔
      RightAnswer ext cfg json p queue s hashPart found := by
    constructor
    · rintro ⟨⟨tr, ⟨x, queue'⟩, s', hr⟩, hall⟩
      obtain ⟨found', rfl, hright⟩ := hall _ _ _ _ hr
      obtain rfl := Except.ok.inj (hreads _ _ _ _ hr).2
      exact hright
    · intro hright
      exact ⟨exists_query_run, fun tr x queue' s' hr => ⟨found, (hreads _ _ _ _ hr).2, hright⟩⟩
  rw [hright]
  cases found with
  | none =>
    refine iff_of_true (fun path hvalid hpart => ?_) fun slot hslot =>
      absurd hslot.begins (hleads slot hslot.present)
    have hslot := ((validIn_iff hM path).1 hvalid).present
    refine hleads path.slot hslot ?_
    rw [StorePath.base_slot, ← hpart]
    exact List.take_prefix _ _
  | some path =>
    have hbegins : hashPart <+: path.base := StorePath.base_slot path ▸ hleads.begins
    show ValidIn ext cfg json p queue s path ∧ path.hashPart = hashPart ↔ _
    rw [validIn_iff hM, hashPart_eq_iff hnames hbegins]
    constructor
    · rintro ⟨hvalid, hlen⟩ slot hslot
      rw [hslot.unique hleads]
      exact ⟨hlen, hvalid⟩
    · intro hall
      exact (hall path.slot hleads).symm

/-- In every store that processes can come to, `queryPathFromHashPart` answers with a path just when a
valid path has the hash part, and then with such a path, just when the leading record is of an object
that is there, and what is asked for is as long as a hash part. -/
theorem findsPath_iff {drvs : Derivations names} {cfg : Nat → Config} {json : Json} {fuel : Nat}
    (hext : ext.Lawful) (hnames : names.Lawful) {ok : Nat → Call → Sys → Choice → Prop}
    {gs : Nat → Process sig (EvalOp names drvs) Pending (Except Err Unit)}
    {acts : List (Nat × Act sig (EvalOp names drvs) (Except Err Unit))}
    (hr : Runs (machine ext ok fun p => EvalOp.code (cfg p) json fuel).Step (atRest, .fresh) acts (gs, s))
    (p : Nat) (queue : Pending) (hashPart : Bytes) :
    FindsPath ext names (cfg p) json p queue s hashPart ↔
      ∀ slot, Leading (s.model p).view hashPart slot →
        hashPart.length = hashLen ∧ slot.Valid json (s.model p).view := by
  have hM : Keyed (s.blobs p) :=
    Indexed.keyed hext (indexed_of_runs (S := fun _ => True) (fun _ _ _ _ _ _ => trivial) hr p)
  exact findsPath_leading hnames hM (orderly_of_runs hr p)

end

/-! ## A record whose object has been collected -/

/-- Names as long as a hash part are accepted. -/
def PathNames.long : PathNames := ⟨fun base => decide (hashLen ≤ base.length), fun _ => false⟩

/-- The sample names keep the laws. -/
theorem PathNames.lawful_long : PathNames.long.Lawful := fun _ h => of_decide_eq_true h

/-- No derivations. -/
def Derivations.none : Derivations .long where
  Drv := Empty
  parse _ _ := .error .lengthError
  unparse := nofun
  path := nofun
  isDerivation := nofun

/-- A path with the hash part that consists of one letter. -/
def longPath : StorePath .long := ⟨List.replicate 33 97, by decide⟩

/-- Evaluates moves of processes that work on an eval store; no call fails. -/
def evalStore (ms : List (Nat × Machine.Move (EvalOp .long .none) Nat)) :
    Option (List (Nat × Act sig (EvalOp .long .none) (Except Err Unit)) ×
      (Nat → Process sig (EvalOp .long .none) Pending (Except Err Unit)) × Sys) :=
  (machine .sample (fun _ => unfailing) fun _ => EvalOp.code ⟨10, 0, 2⟩ .sample 1).eval
    (fun p clock => exec .sample p { clock := clock }) ms (atRest, .fresh)

theorem runs_of_evalStore {ms : List (Nat × Machine.Move (EvalOp .long .none) Nat)}
    {acts : List (Nat × Act sig (EvalOp .long .none) (Except Err Unit))}
    {x : (Nat → Process sig (EvalOp .long .none) Pending (Except Err Unit)) × Sys}
    (h : evalStore ms = some (acts, x)) :
    Runs (machine .sample (fun _ => unfailing) fun _ => EvalOp.code ⟨10, 0, 2⟩ .sample 1).Step
      (atRest, .fresh) acts x := by
  refine Machine.runs_of_eval (fun p clock c s r s' hx => ?_) h
  exact ⟨{ clock := clock }, rfl, hx⟩

/-- Adds the empty directory. -/
def addMoves : List (Nat × Machine.Move (EvalOp .long .none) Nat) :=
  [(0, .start (.addToStore longPath .sample (.directory []))), (0, .go 1), (0, .go 1), (0, .go 1),
    (0, .go 1), (0, .go 1), (0, .go 1), (0, .finish)]

/-- A path that has been added is found. -/
theorem findsPath_iff_sample : ∃ acts gs s, evalStore addMoves = some (acts, gs, s) ∧
    (FindsPath .sample .long ⟨10, 0, 2⟩ .sample 0 [] s longPath.hashPart ↔
      ∀ slot, Leading (s.model 0).view longPath.hashPart slot →
        longPath.hashPart.length = hashLen ∧ slot.Valid .sample (s.model 0).view) := by
  have h : (evalStore addMoves).isSome = true := by decide +kernel
  obtain ⟨⟨acts, gs, s⟩, hx⟩ := Option.isSome_iff_exists.1 h
  exact ⟨acts, gs, s, hx, findsPath_iff Ext.lawful_sample PathNames.lawful_long (runs_of_evalStore hx) 0 []
    longPath.hashPart⟩

/-- A path is added, and collected when it has expired; its record is still found. -/
theorem collected_found : ∃ acts gs s,
    Runs (machine .sample (fun _ => unfailing) fun _ =>
      @EvalOp.code .long .none ⟨10, 0, 2⟩ .sample 1).Step (atRest, .fresh) acts (gs, s) ∧
    ¬FindsPath .sample .long ⟨10, 0, 2⟩ .sample 0 [] s longPath.hashPart := by
  have h : (evalStore (addMoves ++ (1, .start .maybeGc) :: List.replicate 9 (1, .go 12) ++
      [(1, .finish)])).any (fun a =>
        match (a.2.2.model 0).view.scan (kPathPrefix ++ longPath.hashPart) with
        | (key, val) :: _ => decide (key = kPathPrefix ++ longPath.base) &&
          (Slot.named .sample (.path longPath.base) val).all fun id =>
            ((a.2.2.model 0).view.blobs id).isNone
        | [] => false) = true := by decide +kernel
  obtain ⟨⟨acts, gs, s⟩, hx, h⟩ := (Option.any_eq_true _ _).1 h
  have hr := runs_of_evalStore hx
  refine ⟨acts, gs, s, hr, fun hfinds => ?_⟩
  have hM : Keyed (s.blobs 0) := Indexed.keyed Ext.lawful_sample
    (indexed_of_runs (S := fun _ => True) (fun _ _ _ _ _ _ => trivial) hr 0)
  dsimp only at h
  split at h
  · next key val rest hscan =>
    obtain ⟨hkey, hnone⟩ := Bool.and_eq_true_iff.1 h
    obtain rfl := of_decide_eq_true hkey
    obtain ⟨-, val', id, hval', hnamed, hid⟩ := (findsPath_leading PathNames.lawful_long hM
      (orderly_of_runs hr 0)).1 hfinds _ (leading_of_scan hscan)
    have hval := (Store.mem_scan.1 (hscan ▸ List.mem_cons_self :
      (kPathPrefix ++ longPath.base, val) ∈ Store.scan _ _)).1
    obtain rfl := Option.some.inj (hval'.symm.trans hval)
    rw [hnamed, Option.all_some, Option.isNone_iff_eq_none] at hnone
    rw [hnone] at hid
    cases hid
  · cases h

end Tarmac.Tree
