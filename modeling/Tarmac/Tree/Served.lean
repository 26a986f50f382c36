import Tarmac.Tree.Accessor
import Tarmac.Tree.Durable

/-!
# What the eval store serves

`accessorFor` (`plugin/store.cc`) makes an accessor for a valid path from the record that
`storeObject` wrote for it. `presents_iff`: the accessor of an object that `storeObject` has stored
presents it exactly just when it is not deeper than `kMaxTreeDepth`; `storeObject` itself takes any
depth.
-/

namespace Tarmac.Tree

open PackCas

/-! ## Storing -/

section

variable {ext : Ext} {S : Bytes → Prop} {p : Nat} {s s' : Sys} {σ : Pending} {d : Bytes}

/-- A put keeps objects filed under their hashes. -/
theorem Indexed.put {tree : Bool} {x : Except Err Bytes} (hS : NoCollision ext S)
    (h : Indexed ext S (s.blobs p)) (hd : S d) (hx : PutOutcome ext p tree d s x s') :
    Indexed ext S (s'.blobs p) ∧ Grows (s.blobs p) (s'.blobs p) ∧
      ∀ id, x = .ok id → s'.blobs p id = some d := by
  obtain ⟨hblobs, -, -, -, hid⟩ := putOutcome_maps hx
  refine ⟨?_, ?_, ?_⟩
  · rcases hblobs with heq | heq <;> rw [heq]
    · exact h
    · exact h.add hd
  · rcases hblobs with heq | heq <;> rw [heq]
    · exact .refl _
    · exact .add _ _ _
  · rintro id rfl
    rcases hid with ⟨⟨e, he⟩, -⟩ | ⟨hok, heq, -⟩
    · cases he
    · cases hok
      rw [heq]
      exact h.find_add hS hd

/-- A store grows into itself. -/
theorem grows_refl (p : Nat) : ∀ s : Sys, Grows (s.blobs p) (s.blobs p) := fun _ => .refl _

/-- It grows step by step. -/
theorem grows_trans (p : Nat) : ∀ s₁ s₂ s₃ : Sys, Grows (s₁.blobs p) (s₂.blobs p) →
    Grows (s₂.blobs p) (s₃.blobs p) → Grows (s₁.blobs p) (s₃.blobs p) := fun _ _ _ h h' => h.trans h'

/-- Puts keep objects filed under their hashes, and lose none. -/
def fileKeeper (hS : NoCollision ext S) (p : Nat) : Keeper ext (puts S) p where
  I s := Indexed ext S (s.blobs p)
  G s s' := Grows (s.blobs p) (s'.blobs p)
  Good _ _ := True
  refl := grows_refl p
  trans := grows_trans p
  mono _ _ _ _ _ := trivial
  blob d s x s' hs hok hx := by
    obtain ⟨ch, hch⟩ := hok
    obtain ⟨hI, hg, -⟩ := hs.2.put hS (hch _ _ rfl) hx
    exact ⟨hI, hg, fun _ _ _ => trivial⟩
  tree es s x s' hs hok _ _ hx := by
    obtain ⟨ch, hch⟩ := hok
    obtain ⟨hI, hg, -⟩ := hs.2.put hS (hch _ _ rfl) hx
    exact ⟨hI, hg, fun _ _ => trivial⟩

variable {hS : NoCollision ext S}

/-- What was put is there. -/
theorem stores_put {tree : Bool} (hs : (solo ext (puts S) p (fileKeeper hS p).I).Inv s) :
    Stores (fileKeeper hS p) (Cas.put tree d) (fun id s' => s'.blobs p id = some d) σ s := by
  refine safe_put fun x s' hok hx => ?_
  obtain ⟨ch, hch⟩ := hok
  obtain ⟨hI, hg, hid⟩ := Indexed.put hS hs.2 (hch _ _ rfl) hx
  exact ⟨hI, rfl, hg, hid⟩

/-- The entries have the names of the files. -/
theorem DenotesAll.names {M : BlobMap} {entries : List (Bytes × FsNode)} {es : List TreeEntry}
    (h : DenotesAll M entries es) : es.map TreeEntry.name = entries.map Prod.fst := by
  have hlist := congrArg (List.map Prod.fst) h.listing
  rw [List.map_map, List.map_map] at hlist
  exact hlist

mutual

/-- What `ingest` stores stands for the file tree. -/
theorem stores_file (file : FsNode) {s : Sys}
    (hs : (solo ext (puts S) p (fileKeeper hS p).I).Inv s) (ho : file.Ordered) :
    Stores (fileKeeper hS p) (ingest file) (fun x s' => Denotes (s'.blobs p) file x ∧ file.Named)
      σ s := by
  cases file with
  | regular executable contents =>
    unfold ingest
    refine Stores.bind hs (stores_put hs) ?_
    intro id s₁ _ _ hid
    refine .pure ⟨?_, .regular⟩
    unfold Denotes
    exact ⟨rfl, hid⟩
  | symlink target =>
    unfold ingest
    refine Stores.bind hs (stores_put hs) ?_
    intro id s₁ _ _ hid
    refine .pure ⟨?_, .symlink⟩
    unfold Denotes
    exact ⟨rfl, hid⟩
  | directory entries =>
    cases ho with
    | directory hsorted hc =>
      unfold ingest
      refine Stores.bind hs (stores_files entries hs hc) ?_
      rintro es s₁ hs₁ - ⟨hall, hnamed⟩
      have hnames := hall.names
      unfold putTree
      split
      · next hfits =>
        have hfits : ∀ e ∈ es, e.fits = true := List.all_eq_true.1 hfits
        have hdec : decodeTree (encodeTree es) = .ok es := by
          refine decodeTree_encodeTree (sorted_of_pairwise nofun ?_) hfits
          rw [← List.pairwise_map (R := fun a b => a < b), hnames, List.pairwise_map]
          exact hsorted
        refine Stores.bind hs₁ (stores_put hs₁) ?_
        intro id s₂ _ hg hid
        refine .pure ⟨?_, .directory ?_ hnamed⟩
        · unfold Denotes
          exact ⟨rfl, _, es, hid, hdec, hall.mono hg⟩
        · intro c hmem
          have hname : c.1 ∈ es.map TreeEntry.name := by
            rw [hnames]
            exact List.mem_map_of_mem hmem
          obtain ⟨e, he, heq⟩ := List.mem_map.1 hname
          rw [← heq]
          exact (TreeEntry.fits_iff.1 (hfits e he)).1
      · exact Stores.bind hs₁ (P := fun _ _ => False) .throw fun _ _ _ _ h => h.elim

/-- The entries of a directory. -/
theorem stores_files (entries : List (Bytes × FsNode)) {s : Sys}
    (hs : (solo ext (puts S) p (fileKeeper hS p).I).Inv s) (ho : ∀ c ∈ entries, FsNode.Ordered c.2) :
    Stores (fileKeeper hS p) (ingestAll entries) (fun es s' => DenotesAll (s'.blobs p) entries es ∧
      ∀ c ∈ entries, FsNode.Named c.2) σ s := by
  cases entries with
  | nil =>
    refine .pure ⟨?_, nofun⟩
    unfold DenotesAll
    trivial
  | cons c rest =>
    obtain ⟨name, sub⟩ := c
    unfold ingestAll
    refine Stores.bind hs (stores_file sub hs (ho _ (.head _))) ?_
    rintro ⟨type, id⟩ s₁ hs₁ - ⟨hsub, hname⟩
    refine Stores.bind hs₁ (stores_files rest hs₁ fun c hc => ho c (.tail _ hc)) ?_
    rintro es s₂ _ hg₂ ⟨hall, hnames⟩
    refine .pure ⟨?_, ?_⟩
    · unfold DenotesAll
      exact ⟨rfl, hsub.mono hg₂, hall⟩
    · intro c hc
      rcases List.mem_cons.1 hc with rfl | hc
      · exact hname
      · exact hnames c hc

end

/-- The record of a path refers to an object. -/
def RecordsPath (json : Json) (p : Nat) (path : Bytes) (s : Sys) (r : Ref) : Prop :=
  ∃ val record, (s.model p).view.records.find? (kPathPrefix ++ path) = some val ∧
    json.decode val = .ok record ∧ (record.rootType, record.rootId) = r

/-- The store has the file tree under its path. -/
structure Placed (json : Json) (p : Nat) (path : Bytes) (file : FsNode) (s : Sys) (r : Ref) : Prop where
  denotes : Denotes (s.blobs p) file r
  named : file.Named
  recorded : RecordsPath json p path s r

/-- What `storeObject` leaves. -/
theorem places_storeObject {json : Json} (hjson : json.Lawful) {info : PathInfo} {file : FsNode}
    (hs : (solo ext (puts S) p (fileKeeper hS p).I).Inv s) (ho : file.Ordered)
    (hσ : ∀ touch ∈ σ, ∃ root tree, touch.1 = rootKey root tree) :
    Eff.Safe (solo ext (puts S) p (fileKeeper hS p).I)
      (fun x _ s' => x = .ok () → ∃ r, Placed json p info.path file s' r)
      (storeObject json info file) σ s := by
  let K : Bytes → Prop := fun key => key ≠ kPathPrefix ++ info.path
  have hI : Unrecorded p (fileKeeper hS p).I := fun K s s' hw h => by
    show Indexed ext S (s'.blobs p)
    rw [hw.blobs]
    exact h
  unfold storeObject
  refine safe_bind hs (stores_file file hs ho) ?_ ?_
  · rintro ⟨type, id⟩ σ₁ s₁ hs₁ ⟨rfl, -, hstored⟩
    obtain ⟨hdenotes, hnamed⟩ := hstored _ rfl
    refine safe_bind hs₁ (quiet_registerRoot (K := K) hI hs₁ rootKey_ne_path) ?_ ?_
    · rintro _ σ₂ s₂ hs₂ ⟨hw₂, rfl, -⟩
      cases hval : json.encode ⟨type, id, info.narHash, info.narSize, info.ca, info.refs⟩ with
      | error e => exact safe_throw nofun
      | ok val =>
        refine safe_bind (n := Eff.ofExcept (.ok val)) hs₂ (P := fun x σ' s' => x = .ok val ∧ σ' = σ₂ ∧
          s' = s₂) (safe_ofExcept ⟨rfl, rfl, rfl⟩) ?_ ?_
        · rintro val' σ₃ s₃ hs₃ ⟨hval', rfl, rfl⟩
          cases hval'
          refine safe_bind hs₃ (quiet_metaPut (K := fun _ => True) hI hs₃ trivial
            (Q := fun x σ' s' => σ' = σ₃ ∧ WriteOutcome p ((s₃.model p).update
              (·.putRecord (kPathPrefix ++ info.path) val)) s₃ x s')
            fun x s' hx _ => ⟨rfl, hx⟩) ?_ ?_
          · rintro _ σ₄ s₄ hs₄ ⟨hw₄, hσ₄, hput⟩
            refine Eff.Safe.mono (quiet_sync (K := K) hI hs₄ ?_) ?_
            · rintro touch htouch
              rw [hσ₄] at htouch
              obtain ⟨root, tree, hkey⟩ := hσ touch htouch
              rw [hkey]
              exact rootKey_ne_path
            · rintro x σ₅ s₅ - ⟨hw₅, -⟩ -
              refine ⟨(type, id), ?_, hnamed, val, _, ?_, hjson _ _ hval, rfl⟩
              · rw [hw₅.blobs, hw₄.blobs, hw₂.blobs]
                exact hdenotes
              · rw [hw₅.frame _ (fun hk => hk rfl)]
                rcases hput with ⟨-, rfl⟩ | ⟨e, he, -⟩
                · rw [Sys.model_setModel, Model.view_update]
                  exact SortedMap.find?_insert_self
                · cases he
          · exact fun e σ' s' _ _ => nofun
        · exact fun e σ' s' _ _ => nofun
    · exact fun e σ' s' _ _ => nofun
  · exact fun e σ' s' _ _ => nofun

/-- While another process writes, nothing is put. -/
theorem run_busy {α : Type} {ok : Call → Sys → Choice → Prop} {m : Prog sig α} {a : α}
    {tr : List (Tarmac.Event sig)} (hr : Prog.Run (sem ext ok p) m s tr a s') (hs : s.busy p = true) :
    ∀ e ∈ tr, ∀ tree d, e.1 ≠ .put tree d := by
  induction hr with
  | ret => exact nofun
  | @call c k s s₁ s₂ r tr a hstep _ ih =>
    obtain ⟨ch, -, hx⟩ := hstep
    have hwait {β : Type} {b : β} {m : Model} {stages : List Model} {x : Except Err β} {s' : Sys}
        (hw : s.write p ch b m stages = some (x, s')) : False := by
      rw [(Sys.write_cases hw).1] at hs
      cases hs
    have hput : ∀ tree d, c ≠ .put tree d := by
      rintro tree d rfl
      obtain ⟨x, hw, -⟩ := Option.map_eq_some_iff.1 hx
      exact hwait hw
    have hbusy : s₁.busy p = true := by
      cases c with
      | put tree d => exact absurd rfl (hput tree d)
      | sync =>
        rw [exec_sync] at hx
        split at hx
        · exact (hwait hx).elim
        · cases hx
          exact hs
      | compact live => exact (hwait hx).elim
      | metaPut key val => exact (hwait hx).elim
      | metaDel key => exact (hwait hx).elim
      | get | getView | size | has | metaGet | metaScan | now =>
        cases hx
        exact hs
    rintro e he
    rcases List.mem_cons.1 he with rfl | he
    · exact hput
    · exact ih hbusy e he

/-- A process that stores an object is not kept waiting. -/
theorem not_busy_of_storeObject {ok : Call → Sys → Choice → Prop} (hext : ext.Lawful) {json : Json}
    {info : PathInfo} {file : FsNode} {σ' : Pending} {tr : List (Tarmac.Event sig)}
    (hr : Prog.Run (sem ext ok p) (storeObject json info file σ) s tr (.ok (), σ') s') :
    s.busy p = false := by
  have hputs : Gives ext False (fun tr _ => WasPut ext tr (file.object ext))
      (storeObject json info file) := by
    refine Gives.bind (gives_ingest hext file fun h => h.elim) fun tr x hx => ?_
    exact gives_true.mono fun _ _ _ => (hx.2 _ (FsNode.object_mem file)).left
  have hr' : Prog.Run (amid ext ok p) (storeObject json info file σ) s tr (.ok (), σ') s' :=
    hr.mono fun c s r s' h => ⟨s, h⟩
  have hmem := (hputs.run (fun h => h.elim) hr').2 () rfl
  obtain ⟨tree, hmem⟩ := hmem
  cases hbusy : s.busy p with
  | false => rfl
  | true => exact absurd rfl (run_busy hr hbusy _ hmem tree _)

end

/-! ## Serving -/

section

variable {ext : Ext} {p : Nat} {s s' : Sys} {queue : Pending}

/-- The store is as before; the time may be another. -/
def SameStore (p : Nat) (s s' : Sys) : Prop := s'.model p = s.model p ∧ s'.busy p = s.busy p

/-- Touching a root does not fail. -/
theorem leads_touchRoot {cfg : Config} {root : Bytes} {tree : Bool} :
    Eff.Leads (sem ext unfailing p) (fun y _ s' => y = .ok () ∧ SameStore p s s')
      (touchRoot cfg root tree) queue s := by
  refine Eff.Leads.seq reads_metaGet ?_ ?_
  · rintro stamp _ _ ⟨rfl, -, rfl⟩
    split
    · exact .pure ⟨rfl, rfl, rfl⟩
    · split
      · exact .pure ⟨rfl, rfl, rfl⟩
      · refine Eff.Leads.perform fun now s' hstep => ?_
        obtain ⟨ch, -, hx⟩ := hstep
        cases hx
        split
        · exact .pure ⟨rfl, rfl, rfl⟩
        · exact Eff.Leads.modify (f := Pure.pure) (.pure ⟨rfl, rfl, rfl⟩)
  · rintro e _ _ ⟨-, he, -⟩
    cases he

/-- The record of a path whose object is there. -/
theorem leads_pathRecord {cfg : Config} {json : Json} {path : Bytes} {r : Ref}
    (hM : Keyed (s.blobs p)) (hrec : RecordsPath json p path s r) (hid : (s.blobs p r.2).isSome) :
    Eff.Leads (sem ext unfailing p) (fun y _ s' => SameStore p s s' ∧
      ∃ record, y = .ok (some record) ∧ (record.rootType, record.rootId) = r)
      (pathRecord cfg json path) queue s := by
  obtain ⟨val, record, hval, hdecode, hr⟩ := hrec
  have hget : Reads ext p s (fun y queue' => y = .ok (some val) ∧ queue' = queue)
      (Cas.metaGet (kPathPrefix ++ path)) queue := by
    rw [← hval]
    exact reads_metaGet
  have hroot : record.rootId = r.2 := congrArg Prod.snd hr
  have hhas : Reads ext p s (fun y queue' => y = .ok true ∧ queue' = queue) (Cas.has record.rootId)
      queue := by
    refine reads_ask fun ch r s' hch hx => ?_
    cases hx
    refine ⟨rfl, ?_⟩
    show ch.lookup _ _ = _
    rw [hroot, lookup_ok hch (hM _ hid)]
    exact congrArg Except.ok hid
  unfold pathRecord
  refine Eff.Leads.seq hget ?_ ?_
  · rintro _ _ _ ⟨rfl, hsome, rfl⟩
    cases hsome
    dsimp only
    rw [hdecode, Eff.ofExcept_ok, pure_bind]
    refine Eff.Leads.seq hhas ?_ ?_
    · rintro _ _ _ ⟨rfl, htrue, rfl⟩
      cases htrue
      refine Eff.Leads.seq leads_touchRoot ?_ ?_
      · rintro _ _ s₁ ⟨-, hsame⟩
        exact .pure ⟨hsame, record, rfl, hr⟩
      · rintro e _ _ ⟨he, -⟩
        cases he
    · rintro e _ _ ⟨-, he, -⟩
      cases he
  · rintro e _ _ ⟨-, he, -⟩
    cases he

/-- `accessorFor` makes the accessor of what was placed under the path. -/
theorem leads_accessorFor {names : PathNames} {cfg : Config} {json : Json} {path : Bytes} {file : FsNode}
    {r : Ref} (hdrv : names.isDerivation path = false) (hM : Keyed (s.blobs p))
    (h : Placed json p path file s r) :
    Eff.Leads (sem ext unfailing p) (fun y _ s' => SameStore p s s' ∧ y = .ok (some (.of r)))
      (accessorFor names cfg json path) queue s := by
  have hid : (s.blobs p r.2).isSome := by
    have hd := h.denotes
    cases file with
    | regular | symlink => unfold Denotes at hd; rw [hd.2]; rfl
    | directory =>
      unfold Denotes at hd
      obtain ⟨-, buf, -, hbuf, -⟩ := hd
      rw [hbuf]
      rfl
  unfold accessorFor
  rw [hdrv, if_neg Bool.false_ne_true]
  refine Eff.Leads.seq (leads_pathRecord hM h.recorded hid) ?_ ?_
  · rintro _ _ s₁ ⟨hsame, record, hsome, rfl⟩
    cases hsome
    dsimp only
    split
    · next htype =>
      rw [htype]
      exact .pure ⟨hsame, rfl⟩
    · next type htype =>
      rw [htype]
      exact .pure ⟨hsame, rfl⟩
  · rintro e _ _ ⟨-, record, he, -⟩
    cases he

end

section

variable {ext : Ext} {S : Bytes → Prop} {p : Nat} {names : PathNames} {cfg : Config} {json : Json}
  {path : Bytes} {file : FsNode} {r : Ref} {s s' : Sys} {σ σ' queue : Pending}
  {tr : List (Tarmac.Event sig)}

/-- What is placed under a path once it is stored. -/
theorem placed_of_run {info : PathInfo} (hext : ext.Lawful) (hS : NoCollision ext S)
    (hjson : json.Lawful) (ho : file.Ordered)
    (hσ : ∀ touch ∈ σ, ∃ root tree, touch.1 = rootKey root tree) (hM : Indexed ext S (s.blobs p))
    (hr : Prog.Run (sem ext (puts S) p) (storeObject json info file σ) s tr (.ok (), σ') s') :
    s'.busy p = false ∧ Keyed (s'.blobs p) ∧ ∃ r, Placed json p info.path file s' r := by
  have hs : (solo ext (puts S) p (fileKeeper hS p).I).Inv s := ⟨not_busy_of_storeObject hext hr, hM⟩
  obtain ⟨⟨hbusy, hM'⟩, hplaced⟩ := solo_run hr hs (places_storeObject hjson hs ho hσ)
  exact ⟨hbusy, Indexed.keyed hext hM', hplaced rfl⟩

/-- `accessorFor` returns when no call fails. -/
theorem exists_accessorFor (hs : s.busy p = false) :
    ∃ tr y s', Prog.Run (sem ext unfailing p) (accessorFor names cfg json path queue) s tr y s' :=
  exists_run_of_not_busy _ hs

/-- What is not too deep is served. -/
theorem serves_of_within (hs : s.busy p = false) (hM : Keyed (s.blobs p))
    (hdrv : names.isDerivation path = false) (h : Placed json p path file s r)
    (hin : FsNode.Within kMaxTreeDepth file) : Serves ext names cfg json p path queue s file := by
  refine ⟨exists_accessorFor hs, fun tr x queue' s' hr => ⟨.of r, ?_⟩⟩
  obtain ⟨⟨hmodel, hsame⟩, hx⟩ := leads_accessorFor hdrv hM h tr x queue' s' hr
  have hblobs : s'.blobs p = s.blobs p := congrArg (fun m => m.view.blobs) hmodel
  refine ⟨hx, presents_of_within (hsame.trans hs) ?_ ?_ h.named hin⟩
  · rw [hblobs]
    exact hM
  · rw [hblobs]
    exact h.denotes

/-- What is served is not too deep. -/
theorem within_of_serves (hM : Keyed (s.blobs p)) (hdrv : names.isDerivation path = false)
    (ho : file.Ordered) (hcanon : file.Canonical) (h : Placed json p path file s r)
    (hserves : Serves ext names cfg json p path queue s file) : FsNode.Within kMaxTreeDepth file := by
  by_contra hin
  obtain ⟨⟨tr, ⟨x, queue'⟩, s', hr⟩, hall⟩ := hserves
  obtain ⟨accessor, hx, hpresents⟩ := hall tr x queue' s' hr
  obtain ⟨-, hof⟩ := leads_accessorFor hdrv hM h tr x queue' s' hr
  cases hx.symm.trans hof
  obtain ⟨type | _, id⟩ := r
  · obtain ⟨d, -, rfl⟩ := denotes_leaf.1 h.denotes
    exact hin (within_leafFile type d)
  · exact not_presents hcanon ho hin hpresents

/-- An object that `storeObject` has stored is presented exactly by the accessor of its path just when
none of its files lies deeper than `kMaxTreeDepth`. -/
theorem presents_iff {info : PathInfo} (hext : ext.Lawful) (hS : NoCollision ext S)
    (hjson : json.Lawful) (hdrv : names.isDerivation info.path = false) (ho : file.Ordered)
    (hcanon : file.Canonical) (hσ : ∀ touch ∈ σ, ∃ root tree, touch.1 = rootKey root tree)
    (hM : Indexed ext S (s.blobs p))
    (hr : Prog.Run (sem ext (puts S) p) (storeObject json info file σ) s tr (.ok (), σ') s') :
    (∀ queue, Serves ext names cfg json p info.path queue s' file) ↔
      FsNode.Within kMaxTreeDepth file := by
  obtain ⟨hbusy, hkeyed, r, hplaced⟩ := placed_of_run hext hS hjson ho hσ hM hr
  exact ⟨fun hserves => within_of_serves hkeyed hdrv ho hcanon hplaced (hserves []),
    fun hin queue => serves_of_within hbusy hkeyed hdrv hplaced hin⟩

end

/-! ## What is accepted -/

/-- The program has a run that returns `a`, and puts nothing but objects of `S`. -/
def CanReturn {α : Type} (ext : Ext) (S : Bytes → Prop) (p : Nat) (m : TreeM α) (σ : Pending) (s : Sys)
    (a : α) : Prop :=
  ∃ tr s', Prog.Run (sem ext (puts S) p) (m σ) s tr (.ok a, σ) s' ∧ s'.busy p = false

section

variable {ext : Ext} {S : Bytes → Prop} {p : Nat} {s : Sys} {σ : Pending} {α β : Type}

theorem CanReturn.pure {a : α} (hs : s.busy p = false) : CanReturn ext S p (Pure.pure a) σ s a :=
  ⟨[], s, .ret, hs⟩

theorem CanReturn.bind {m : TreeM β} {f : β → TreeM α} {a : α} {b : β} (hm : CanReturn ext S p m σ s b)
    (hf : ∀ s', s'.busy p = false → CanReturn ext S p (f b) σ s' a) :
    CanReturn ext S p (m >>= f) σ s a := by
  obtain ⟨tr, s₁, hr₁, hs₁⟩ := hm
  obtain ⟨tr', s', hr', hs'⟩ := hf s₁ hs₁
  exact ⟨tr ++ tr', s', hr₁.bind hr', hs'⟩

/-- A call that can answer. -/
theorem canReturn_ask {c : Call} {hc : c.Resp = Except Err α} {a : α} {r : c.Resp}
    (hs : s.busy p = false) (hok : puts S c s {}) (hx : ∃ s', exec ext p {} c s = some (r, s'))
    (hr : hc ▸ r = Except.ok a) : CanReturn ext S p (ask c hc) σ s a := by
  obtain ⟨s', hx⟩ := hx
  refine ⟨[⟨c, r⟩], s', .call ⟨{}, hok, hx⟩ ?_, exec_busy hx hs⟩
  show Prog.Run _ (Eff.ofExcept (hc ▸ r) σ) s' [] _ s'
  rw [hr]
  exact .ret

/-- `put` can return the hash. -/
theorem canReturn_put {tree : Bool} {d : Bytes} (hs : s.busy p = false) (hd : S d) :
    CanReturn ext S p (Cas.put tree d) σ s (ext.blake3 d) := by
  unfold Cas.put
  refine canReturn_ask (r := Except.ok (ext.blake3 d)) hs (by rintro _ _ ⟨⟩; exact hd) ?_ rfl
  unfold exec
  dsimp only
  rw [write_ok hs]
  exact ⟨_, rfl⟩

/-- `meta_put` can return. -/
theorem canReturn_metaPut {key val : Bytes} (hs : s.busy p = false) :
    CanReturn ext S p (Cas.metaPut key val) σ s () := by
  unfold Cas.metaPut
  refine canReturn_ask (r := Except.ok ()) hs nofun ?_ rfl
  unfold exec
  dsimp only
  rw [write_ok hs]
  exact ⟨_, rfl⟩

theorem canReturn_sync (hs : s.busy p = false) : CanReturn ext S p sync [] s () := by
  refine CanReturn.bind (b := ()) (CanReturn.pure hs) fun s' hs' => ?_
  unfold Cas.sync
  refine canReturn_ask (r := Except.ok ()) hs' nofun ?_ rfl
  rw [exec_sync]
  split
  · exact ⟨_, write_ok hs'⟩
  · exact ⟨s', rfl⟩

theorem canReturn_registerRoot {root : Bytes} {tree : Bool} (hs : s.busy p = false) :
    CanReturn ext S p (registerRoot root tree) σ s () := by
  have hput : CanReturn ext S p (Cas.metaPut (rootKey root tree) (be64 0)) σ { s with clock := 0 } () :=
    canReturn_metaPut hs
  obtain ⟨tr, s', hr, hs'⟩ := hput
  exact ⟨_, s', .call (r := (0 : Nat)) ⟨{}, nofun, rfl⟩ hr, hs'⟩

mutual

/-- `ingest` takes a file tree of any depth. -/
theorem canReturn_ingest (hext : ext.Lawful) (file : FsNode) {s : Sys} (hs : s.busy p = false)
    (hn : file.Named) (hobj : ∀ d ∈ file.objects ext, S d) :
    CanReturn ext S p (ingest file) σ s (file.ref ext) := by
  cases file with
  | regular executable contents =>
    unfold ingest
    refine CanReturn.bind (canReturn_put hs (hobj _ ?_)) fun s' hs' => .pure hs'
    rw [FsNode.objects]
    exact .head _
  | symlink target =>
    unfold ingest
    refine CanReturn.bind (canReturn_put hs (hobj _ ?_)) fun s' hs' => .pure hs'
    rw [FsNode.objects]
    exact .head _
  | directory entries =>
    rw [FsNode.objects] at hobj
    cases hn with
    | directory hn hc =>
      unfold ingest
      refine CanReturn.bind (canReturn_ingestAll hext entries hs hc fun d hd => hobj d (.tail _ hd)) ?_
      intro s₁ hs₁
      have hfits : (fsEntries ext entries).all TreeEntry.fits = true :=
        List.all_eq_true.2 (fsEntries_fit hext hn)
      unfold putTree
      rw [if_pos hfits]
      refine CanReturn.bind (canReturn_put hs₁ (hobj _ (.head _))) fun s' hs' => ?_
      rw [FsNode.ref, FsNode.object, FsNode.type]
      exact .pure hs'

/-- So can the ingestion of a directory's entries. -/
theorem canReturn_ingestAll (hext : ext.Lawful) (entries : List (Bytes × FsNode)) {s : Sys}
    (hs : s.busy p = false) (hn : ∀ c ∈ entries, FsNode.Named c.2)
    (hobj : ∀ d ∈ objectsAll ext entries, S d) :
    CanReturn ext S p (ingestAll entries) σ s (fsEntries ext entries) := by
  cases entries with
  | nil =>
    rw [fsEntries]
    exact .pure hs
  | cons c rest =>
    obtain ⟨name, sub⟩ := c
    rw [objectsAll] at hobj
    unfold ingestAll
    refine CanReturn.bind (canReturn_ingest hext sub hs (hn _ (.head _)) fun d hd =>
      hobj d (List.mem_append_left _ hd)) fun s₁ hs₁ => ?_
    refine CanReturn.bind (canReturn_ingestAll hext rest hs₁ (fun c hc => hn c (.tail _ hc))
      fun d hd => hobj d (List.mem_append_right _ hd)) fun s₂ hs₂ => ?_
    rw [fsEntries]
    exact .pure hs₂

end

/-- `storeObject` takes a file tree of any depth. -/
theorem canReturn_storeObject (hext : ext.Lawful) {json : Json} {info : PathInfo} {file : FsNode}
    {val : Bytes} (hs : s.busy p = false) (hn : file.Named) (hobj : ∀ d ∈ file.objects ext, S d)
    (hval : json.encode ⟨(file.ref ext).1, (file.ref ext).2, info.narHash, info.narSize, info.ca,
      info.refs⟩ = .ok val) : CanReturn ext S p (storeObject json info file) [] s () := by
  unfold storeObject
  refine CanReturn.bind (canReturn_ingest hext file hs hn hobj) fun s₁ hs₁ => ?_
  refine CanReturn.bind (canReturn_registerRoot hs₁) fun s₂ hs₂ => ?_
  dsimp only [FsNode.ref] at hval ⊢
  rw [hval, Eff.ofExcept_ok, pure_bind]
  exact CanReturn.bind (canReturn_metaPut hs₂) fun s₃ hs₃ => canReturn_sync hs₃

end

/-! ## Samples -/

/-- Names for which nothing is a derivation. -/
def PathNames.sample : PathNames := ⟨fun _ => true, fun _ => false⟩

/-- A path without properties. -/
def PathInfo.sample : PathInfo := ⟨[], [], 0, [], []⟩

/-- Directories in one another, `n` of them below the first. -/
def nest : Nat → FsNode
  | 0 => .directory []
  | n + 1 => .directory [(List.replicate (n + 1) 97, nest n)]

/-- Nested directories are in order. -/
theorem nest_ordered (n : Nat) : (nest n).Ordered := by
  induction n with
  | zero => exact .directory .nil nofun
  | succ n ih =>
    refine .directory (List.pairwise_singleton _ _) fun c hc => ?_
    obtain rfl := List.mem_singleton.1 hc
    exact ih

/-- Their names are short. -/
theorem nest_named {n : Nat} (hn : n ≤ kMaxNameLen) : (nest n).Named := by
  induction n with
  | zero => exact .directory nofun nofun
  | succ n ih =>
    refine .directory (fun c hc => ?_) fun c hc => ?_
    · obtain rfl := List.mem_singleton.1 hc
      rw [List.length_replicate]
      exact hn
    · obtain rfl := List.mem_singleton.1 hc
      exact ih (by omega)

/-- They are canonical. -/
theorem nest_canonical (n : Nat) : (nest n).Canonical := by
  intro entries hsub
  generalize hfile : nest n = file at hsub
  induction n generalizing file with
  | zero =>
    subst hfile
    cases hsub with
    | refl => exact nofun
    | entry hc => cases hc
  | succ n ih =>
    subst hfile
    cases hsub with
    | refl =>
      intro c hc
      obtain rfl := List.mem_singleton.1 hc
      refine ⟨nofun, fun hmem => ?_, ?_, ?_⟩
      · cases List.eq_of_mem_replicate hmem
      · rw [List.replicate_succ]
        exact nofun
      · rw [List.replicate_succ]
        exact nofun
    | entry hc hsub =>
      obtain rfl := List.mem_singleton.1 hc
      exact ih _ rfl hsub

/-- There are as many as their depth says. -/
theorem le_of_nest {n k : Nat} (h : FsNode.Within k (nest n)) : n ≤ k := by
  induction n generalizing k with
  | zero => exact Nat.zero_le k
  | succ n ih =>
    cases h with
    | directory hk hc =>
      have hpos := hk _ (.head _)
      have hle := ih (hc _ (.head _))
      omega

/-- The beginning of the hash of a directory tells how many are below it. -/
theorem hash_nest {n : Nat} (hn : n ≤ kMaxNameLen) :
    ofLeBytes (((Ext.sample.blake3 ((nest n).object .sample)).drop 1).take 2) = n := by
  cases n with
  | zero =>
    rw [nest, FsNode.object, fsEntries]
    decide
  | succ n =>
    have hlen : (leBytes 2 (n + 1)).length = 2 := length_leBytes _ _
    have hval := ofLeBytes_leBytes 2 (n + 1)
    rw [Nat.mod_eq_of_lt (by unfold kMaxNameLen at hn; omega)] at hval
    match hle : leBytes 2 (n + 1), hlen with
    | [lo, hi], _ =>
      rw [hle] at hval
      rw [nest, FsNode.object, fsEntries, fsEntries]
      unfold encodeTree
      rw [List.flatMap_cons]
      unfold encodeTreeEntry
      rw [List.length_replicate, hle]
      exact hval

/-- Their objects are those of the shorter nests. -/
theorem mem_objects_nest {n : Nat} {d : Bytes} (hd : d ∈ (nest n).objects .sample) :
    ∃ k ≤ n, d = (nest k).object .sample := by
  induction n with
  | zero =>
    rw [nest, FsNode.objects, objectsAll] at hd
    obtain rfl := List.mem_singleton.1 hd
    exact ⟨0, Nat.le_refl 0, by rw [nest, FsNode.object]⟩
  | succ n ih =>
    rw [nest, FsNode.objects, objectsAll, objectsAll, List.append_nil] at hd
    rcases List.mem_cons.1 hd with rfl | hd
    · exact ⟨n + 1, Nat.le_refl _, by rw [nest, FsNode.object]⟩
    · obtain ⟨k, hk, hobj⟩ := ih hd
      exact ⟨k, by omega, hobj⟩

/-- These have different hashes. -/
theorem noCollision_nest {n : Nat} (hn : n ≤ kMaxNameLen) :
    NoCollision .sample (· ∈ (nest n).objects .sample) := by
  intro d d' hd hd' heq
  obtain ⟨k, hk, rfl⟩ := mem_objects_nest hd
  obtain ⟨k', hk', rfl⟩ := mem_objects_nest hd'
  have h := hash_nest (hk.trans hn)
  rw [heq, hash_nest (hk'.trans hn)] at h
  rw [h]

/-- The record of a file can be encoded. -/
theorem sample_encode (file : FsNode) : ∃ val, Json.sample.encode ⟨(file.ref .sample).1,
    (file.ref .sample).2, [], 0, [], []⟩ = .ok val := by
  unfold Json.sample
  dsimp only
  rw [if_pos rfl]
  exact ⟨_, rfl⟩

/-- Directories in one another are presented when there are not too many. -/
theorem presents_iff_sample : ∃ tr σ' s',
    Prog.Run (sem .sample (puts (· ∈ (nest 2).objects .sample)) 0)
      (storeObject .sample .sample (nest 2) []) .fresh tr (.ok (), σ') s' ∧
    ((∀ queue, Serves .sample .sample ⟨0, 0, 0⟩ .sample 0 [] queue s' (nest 2)) ↔
      FsNode.Within kMaxTreeDepth (nest 2)) := by
  generalize hn : 2 = n
  have hnamed : n ≤ kMaxNameLen := by
    rw [← hn]
    decide
  obtain ⟨val, hval⟩ := sample_encode (nest n)
  have hstore : CanReturn .sample (· ∈ (nest n).objects .sample) 0
      (storeObject .sample .sample (nest n)) [] .fresh () :=
    canReturn_storeObject Ext.lawful_sample rfl (nest_named hnamed) (fun _ h => h) hval
  obtain ⟨tr, s', hr, -⟩ := hstore
  have hfresh : Indexed .sample (· ∈ (nest n).objects .sample) (Sys.fresh.blobs 0) :=
    fun _ _ h => nomatch (show none = some _ from h)
  exact ⟨tr, [], s', hr, presents_iff Ext.lawful_sample
    (noCollision_nest hnamed) Json.lawful_sample rfl (nest_ordered n) (nest_canonical n)
    (fun _ h => absurd h List.not_mem_nil) hfresh hr⟩

/-- More directories in one another than `kMaxTreeDepth` are accepted, and not presented. -/
theorem storeObject_deep : ¬∀ (ext : Ext) (S : Bytes → Prop) (p : Nat) (names : PathNames)
    (cfg : Config) (json : Json) (info : PathInfo) (file : FsNode) (σ σ' : Pending) (s s' : Sys)
    (tr : List (Tarmac.Event sig)), ext.Lawful → NoCollision ext S → json.Lawful →
    names.isDerivation info.path = false → file.Ordered → file.Canonical →
    (∀ touch ∈ σ, ∃ root tree, touch.1 = rootKey root tree) → Indexed ext S (s.blobs p) →
    Prog.Run (sem ext (puts S) p) (storeObject json info file σ) s tr (.ok (), σ') s' →
    ∀ queue, Serves ext names cfg json p info.path queue s' file := by
  intro hall
  have hnamed : kMaxTreeDepth + 1 ≤ kMaxNameLen := by decide
  have hdeep : kMaxTreeDepth < kMaxTreeDepth + 1 := Nat.lt_succ_self _
  generalize kMaxTreeDepth + 1 = n at hnamed hdeep
  obtain ⟨val, hval⟩ := sample_encode (nest n)
  have hstore : CanReturn .sample (· ∈ (nest n).objects .sample) 0
      (storeObject .sample .sample (nest n)) [] .fresh () :=
    canReturn_storeObject Ext.lawful_sample rfl (nest_named hnamed) (fun _ h => h) hval
  obtain ⟨tr, s', hr, -⟩ := hstore
  have hS := noCollision_nest hnamed
  have hfresh : Indexed .sample (· ∈ (nest n).objects .sample) (Sys.fresh.blobs 0) :=
    fun _ _ h => nomatch (show none = some _ from h)
  have hserves := hall .sample _ 0 .sample ⟨0, 0, 0⟩ .sample .sample (nest n) [] [] .fresh s' tr
    Ext.lawful_sample hS Json.lawful_sample rfl (nest_ordered n) (nest_canonical n)
    (fun _ h => absurd h List.not_mem_nil) hfresh hr []
  obtain ⟨-, hkeyed, r, hplaced⟩ := placed_of_run Ext.lawful_sample hS Json.lawful_sample
    (nest_ordered n) (fun _ h => absurd h List.not_mem_nil) hfresh hr
  have hin := within_of_serves hkeyed rfl (nest_ordered n) (nest_canonical n) hplaced hserves
  exact absurd (le_of_nest hin) (by omega)

end Tarmac.Tree
