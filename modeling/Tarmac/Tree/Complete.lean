import Tarmac.Lib.Runs
import Tarmac.Tree.Collect
import Tarmac.Tree.Stores

/-!
# Directories are complete

The fetcher and the eval store take the presence of a root for the presence of its tree. That rests
on an invariant of the index (`Complete`): a directory that `putTree` has stored and that is there
has its entries. Puts keep it, since children are put before their parents; writing records does not
touch it; a collection keeps it when it is `Tidy`.

It can fail where the bytes of a directory are put as a file as well: the index has one namespace for
both. Such a put, and such a collection, is what `apart` and `Tidy` exclude.
-/

namespace Tarmac.Tree

open PackCas

/-! ## The invariant -/

/-- The entries of a directory are there. -/
def EntriesIn (M : BlobMap) (d : Bytes) : Prop :=
  ∀ es, decodeTree d = .ok es → ∀ e ∈ es, (M e.id).isSome

/-- The ids `putTree` has returned belong to directories, and it has returned the ids of their
subdirectories. -/
def Listed (ext : Ext) (S : Bytes → Prop) (trees : List Bytes) : Prop :=
  ∀ id ∈ trees, ∃ d es, S d ∧ ext.blake3 d = id ∧ decodeTree d = .ok es ∧
    ∀ e ∈ es, e.type = .d → e.id ∈ trees

/-- The directories of `trees` that are there have their entries. -/
structure Closed (ext : Ext) (S : Bytes → Prop) (trees : List Bytes) (M : BlobMap) : Prop where
  indexed : Indexed ext S M
  entries : ∀ id ∈ trees, ∀ d, M id = some d → EntriesIn M d

/-- The invariant of the directory while `p` has it to itself. -/
structure Complete (ext : Ext) (S : Bytes → Prop) (p : Nat) (s : Sys) : Prop where
  listed : Listed ext S s.trees
  committed : Closed ext S s.trees s.committed.blobs
  view : Closed ext S s.trees (s.blobs p)

section

variable {ext : Ext} {S : Bytes → Prop} {trees : List Bytes} {M M' : BlobMap} {id d : Bytes} {p : Nat}
  {s s' : Sys}

/-- More blobs do no harm to the entries that are there. -/
theorem EntriesIn.mono (hg : Grows M M') (h : EntriesIn M d) : EntriesIn M' d := by
  intro es hes e he
  obtain ⟨b, hb⟩ := Option.isSome_iff_exists.1 (h es hes e he)
  rw [hg _ _ hb]
  rfl

/-- A directory that is there is whole. -/
theorem Closed.whole (hS : NoCollision ext S) (hl : Listed ext S trees) (h : Closed ext S trees M)
    (hid : id ∈ trees) (hM : (M id).isSome) : Whole M (.d, id) := by
  suffices hgen : ∀ x y, Reach M x y → (M x.2).isSome ∧ (x.1 = .d → x.2 ∈ trees) → Present M y from
    fun y hy => hgen _ y hy ⟨hM, fun _ => hid⟩
  intro x y hxy
  induction hxy with
  | @refl x =>
    rintro ⟨hx, htype⟩
    obtain ⟨b, hb⟩ := Option.isSome_iff_exists.1 hx
    refine ⟨b, hb, fun hd => ?_⟩
    obtain ⟨b', es, hb', hhash, hes, -⟩ := hl _ (htype hd)
    obtain ⟨hSb, hhash'⟩ := h.indexed _ _ hb
    obtain rfl := hS _ _ hSb hb' (hhash'.trans hhash.symm)
    exact ⟨es, hes⟩
  | @step id buf es e y hbuf hes he _ ih =>
    rintro ⟨hx, htype⟩
    have hmem := htype rfl
    refine ih ⟨h.entries id hmem buf hbuf es hes e he, fun hd => ?_⟩
    obtain ⟨b', es', hb', hhash, hes', hdirs⟩ := hl _ hmem
    obtain ⟨hSb, hhash'⟩ := h.indexed _ _ hbuf
    obtain rfl := hS _ _ hSb hb' (hhash'.trans hhash.symm)
    obtain rfl := Except.ok.inj (hes.symm.trans hes')
    exact hdirs e he hd

/-- Adding an object, with its entries if it is a directory of `trees`. -/
theorem Closed.add (h : Closed ext S trees M) (hd : S d)
    (hent : ext.blake3 d ∈ trees → EntriesIn M d) : Closed ext S trees (M.add (ext.blake3 d) d) where
  indexed := h.indexed.add hd
  entries id hid d' hd' := by
    refine EntriesIn.mono (.add _ _ _) ?_
    unfold BlobMap.add at hd'
    split at hd'
    · next hc =>
      cases hd'
      exact hent (hc.1 ▸ hid)
    · exact h.entries id hid d' hd'

/-- One more directory. -/
theorem Closed.note (hS : NoCollision ext S) (h : Closed ext S trees M) (hd : S d)
    (hent : (M (ext.blake3 d)).isSome → EntriesIn M d) :
    Closed ext S (ext.blake3 d :: trees) M where
  indexed := h.indexed
  entries id hid d' hd' := by
    rcases List.mem_cons.1 hid with rfl | hid
    · obtain ⟨hSd, hhash⟩ := h.indexed _ _ hd'
      obtain rfl := hS _ _ hSd hd hhash
      exact hent (hd' ▸ rfl)
    · exact h.entries id hid d' hd'

/-- A directory whose subdirectories are listed is listed. -/
theorem Listed.cons {es : List TreeEntry} (h : Listed ext S trees) (hd : S d)
    (hes : decodeTree d = .ok es) (hdirs : ∀ e ∈ es, e.type = .d → e.id ∈ trees) :
    Listed ext S (ext.blake3 d :: trees) := by
  intro id hid
  rcases List.mem_cons.1 hid with rfl | hid
  · exact ⟨d, es, hd, rfl, hes, fun e he ht => .tail _ (hdirs e he ht)⟩
  · obtain ⟨d', es', hd', hhash, hes', hdirs'⟩ := h id hid
    exact ⟨d', es', hd', hhash, hes', fun e he ht => .tail _ (hdirs' e he ht)⟩

/-- Writing records keeps the invariant. -/
theorem unrecorded_complete : Unrecorded p (Complete ext S p) := by
  intro K s s' hw h
  refine ⟨hw.trees ▸ h.listed, ?_, ?_⟩
  · rw [hw.trees]
    rcases hw.committed with hc | hc <;> rw [hc]
    · exact h.committed
    · exact h.view
  · rw [hw.trees, hw.blobs]
    exact h.view

/-! ## Puts -/

/-- No file is put over a directory, or a directory over a file, without its entries, and no read
fails. Everything else is free to fail. -/
def apart (ext : Ext) (S : Bytes → Prop) (p : Nat) (c : Call) (s : Sys) (ch : Choice) : Prop :=
  match c with
  | .put true d => S d ∧ (ext.blake3 d ∉ s.trees → (s.committed.blobs (ext.blake3 d)).isSome →
      EntriesIn s.committed.blobs d)
  | .put false d => S d ∧ (ext.blake3 d ∈ s.trees → EntriesIn (s.blobs p) d)
  | .get _ => ch.fail = none
  | _ => True

/-- Puts add blobs, and leave the records alone. -/
structure Stored (p : Nat) (s s' : Sys) : Prop where
  grows : Grows (s.blobs p) (s'.blobs p)
  trees : ∀ id ∈ s.trees, id ∈ s'.trees
  records : (s'.model p).view.records = (s.model p).view.records
  clock : s'.clock = s.clock

/-- A store holds itself. -/
theorem Stored.refl (s : Sys) : Stored p s s := ⟨.refl _, fun _ h => h, rfl, rfl⟩

/-- What is stored twice is stored. -/
theorem Stored.trans {s₁ : Sys} (h : Stored p s s₁) (h' : Stored p s₁ s') : Stored p s s' :=
  ⟨h.grows.trans h'.grows, fun id hid => h'.trees id (h.trees id hid),
    h'.records.trans h.records, h'.clock.trans h.clock⟩

/-- A reference that is there; a directory is one `putTree` has stored. -/
def Stands (p : Nat) (s : Sys) (r : Ref) : Prop := (s.blobs p r.2).isSome ∧ (r.1 = .d → r.2 ∈ s.trees)

/-- What stands in a store stands when more is stored. -/
theorem Stands.mono {r : Ref} (h : Stored p s s') (hr : Stands p s r) : Stands p s' r := by
  obtain ⟨b, hb⟩ := Option.isSome_iff_exists.1 hr.1
  refine ⟨?_, fun hd => h.trees _ (hr.2 hd)⟩
  rw [h.grows _ _ hb]
  rfl

/-- What stands is whole. -/
theorem Complete.whole (hS : NoCollision ext S) (h : Complete ext S p s) {r : Ref}
    (hr : Stands p s r) : Whole (s.blobs p) r := by
  obtain ⟨t, id⟩ := r
  cases t with
  | d => exact h.view.whole hS h.listed (hr.2 rfl) hr.1
  | leaf t => exact whole_leaf.2 (Option.isSome_iff_exists.1 hr.1)

/-- The maps a put leaves. -/
theorem putOutcome_maps {tree : Bool} {x : Except Err Bytes} (hx : PutOutcome ext p tree d s x s') :
    (s'.blobs p = s.blobs p ∨ s'.blobs p = (s.blobs p).add (ext.blake3 d) d) ∧
    (s'.committed.blobs = s.committed.blobs ∨
      s'.committed.blobs = (s.blobs p).add (ext.blake3 d) d) ∧
    (s'.model p).view.records = (s.model p).view.records ∧ s'.clock = s.clock ∧
    ((∃ e, x = .error e) ∧ s'.trees = s.trees ∨ x = .ok (ext.blake3 d) ∧
      s'.blobs p = (s.blobs p).add (ext.blake3 d) d ∧
      s'.trees = if tree then ext.blake3 d :: s.trees else s.trees) := by
  rcases hx with ⟨rfl, rfl⟩ | ⟨e, m, rfl, rfl, hm⟩
  · have hput := Model.view_put ext (s.model p) d
    rw [Sys.blobs_noteTree, Sys.blobs_setModel, Sys.model_noteTree, Sys.model_setModel, hput,
      Sys.committed_noteTree]
    refine ⟨.inr rfl, ?_, rfl, ?_, .inr ⟨rfl, rfl, ?_⟩⟩
    · exact (Model.committed_put ext (s.model p) d).imp (congrArg Store.blobs) (congrArg Store.blobs)
    · cases tree <;> rfl
    · cases tree <;> rfl
  · rw [Sys.blobs_setModel, Sys.model_setModel]
    have hview : m.view = (s.model p).view ∨ m.view = (s.model p).view.add (ext.blake3 d) d := by
      rcases hm with rfl | rfl | rfl
      · exact .inl rfl
      · exact .inl rfl
      · exact .inr rfl
    have hcomm : m.committed = s.committed := by
      rcases hm with rfl | rfl | rfl <;> rfl
    refine ⟨?_, .inl (congrArg Store.blobs hcomm), ?_, rfl, .inl ⟨⟨e, rfl⟩, rfl⟩⟩
    · rcases hview with h | h <;> rw [h]
      · exact .inl rfl
      · exact .inr rfl
    · rcases hview with h | h <;> rw [h]
      rfl

/-- A put keeps the invariant. -/
theorem Complete.put {tree : Bool} {x : Except Err Bytes} (hS : NoCollision ext S)
    (h : Complete ext S p s) (hd : S d)
    (hview : ext.blake3 d ∈ s.trees ∨ tree = true → EntriesIn (s.blobs p) d)
    (hcomm : tree = true → (s.committed.blobs (ext.blake3 d)).isSome →
      EntriesIn s.committed.blobs d)
    (hdirs : tree = true → ∃ es, decodeTree d = .ok es ∧ ∀ e ∈ es, e.type = .d → e.id ∈ s.trees)
    (hx : PutOutcome ext p tree d s x s') :
    Complete ext S p s' ∧ Stored p s s' ∧
      ∀ id, x = .ok id → id = ext.blake3 d ∧ (s'.blobs p id).isSome ∧ (tree = true → id ∈ s'.trees) := by
  obtain ⟨hblobs, hcommitted, hrec, hclock, hres⟩ := putOutcome_maps hx
  have hadd : Closed ext S s.trees ((s.blobs p).add (ext.blake3 d) d) :=
    h.view.add hd fun hid => hview (.inl hid)
  have hgrow : Grows (s.blobs p) (s'.blobs p) := by
    rcases hblobs with hb | hb <;> rw [hb]
    · exact .refl _
    · exact .add _ _ _
  have hv : Closed ext S s.trees (s'.blobs p) := by
    rcases hblobs with hb | hb <;> rw [hb]
    · exact h.view
    · exact hadd
  have hc : Closed ext S s.trees s'.committed.blobs := by
    rcases hcommitted with hb | hb <;> rw [hb]
    · exact h.committed
    · exact hadd
  rcases hres with ⟨⟨e, rfl⟩, htrees⟩ | ⟨rfl, hb, htrees⟩
  · rw [← htrees] at hc hv
    exact ⟨⟨htrees ▸ h.listed, hc, hv⟩, ⟨hgrow, fun id hid => htrees ▸ hid, hrec, hclock⟩, nofun⟩
  · have hsome : (s'.blobs p (ext.blake3 d)).isSome := by
      rw [hb, h.view.indexed.find_add hS hd]
      rfl
    cases tree with
    | false =>
      rw [if_neg Bool.false_ne_true] at htrees
      rw [← htrees] at hc hv
      refine ⟨⟨htrees ▸ h.listed, hc, hv⟩, ⟨hgrow, fun id hid => htrees ▸ hid, hrec, hclock⟩, ?_⟩
      intro id hid
      cases hid
      exact ⟨rfl, hsome, nofun⟩
    | true =>
      rw [if_pos rfl] at htrees
      obtain ⟨es, hes, hes'⟩ := hdirs rfl
      have hent := (hview (.inr rfl)).mono hgrow
      refine ⟨⟨?_, ?_, ?_⟩, ⟨hgrow, fun id hid => htrees ▸ .tail _ hid, hrec, hclock⟩, ?_⟩
      · rw [htrees]
        exact h.listed.cons hd hes hes'
      · rw [htrees]
        refine hc.note hS hd fun hsome => ?_
        rcases hcommitted with hb' | hb'
        · rw [hb'] at hsome ⊢
          exact hcomm rfl hsome
        · rw [hb']
          exact (hview (.inr rfl)).mono (.add _ _ _)
      · rw [htrees]
        exact hv.note hS hd fun _ => hent
      · intro id hid
        cases hid
        exact ⟨rfl, hsome, fun _ => htrees ▸ .head _⟩

end

/-! ## Collections -/

/-- A tidy collection keeps the invariant. -/
theorem Complete.swept {ext : Ext} {S : Bytes → Prop} {p : Nat} {s s' : Sys} {fuel : Nat}
    {live broken : List Bytes} {keep : Bytes → Bool} (hext : ext.Lawful) (h : Complete ext S p s)
    (ht : Tidy p s) (hm : markAll (s.blobs p) fuel (treeRoots s p) [] [] = some (live, broken))
    (hs : Swept p live broken keep s s') : Complete ext S p s' := by
  have hM := h.view.indexed.keyed hext
  obtain ⟨hmarked, -⟩ := marked_treeRoots hM ht.unmixed hm
  have hclosed : Closed ext S s.trees ((s.blobs p).restrict keep) := by
    refine ⟨fun id d hd => h.view.indexed id d (restrict_eq_some.1 hd).2, ?_⟩
    intro id hid d hd es hes e he
    obtain ⟨hkeep, hd⟩ := restrict_eq_some.1 hd
    have htree : treeAt (s.blobs p) id = .ok es := by rw [hM.treeAt hd, hes]
    obtain ⟨b, hb⟩ := Option.isSome_iff_exists.1 (h.view.entries id hid d hd es hes e he)
    have hkept (hk : Kept p s e.id) : ((s.blobs p).restrict keep e.id).isSome := by
      rw [restrict_eq_some.2 ⟨hs.kept hM hmarked hk, hb⟩]
      rfl
    rcases (hs.keeps id).1 hkeep with hlive | hblob
    · obtain ⟨root, hroot, t, hreach⟩ := hmarked.sound id hlive
      cases t with
      | leaf t => exact hkept (ht.file id hid (.inr ⟨root, hroot, .inl ⟨t, hreach⟩⟩) es htree e he)
      | d =>
        by_cases hw : Whole (s.blobs p) (.d, root)
        · exact hkept (.inr ⟨root, hroot, hw, e.type, hreach.tail htree he⟩)
        · exact hkept (ht.file id hid (.inr ⟨root, hroot, .inr ⟨hw, hreach⟩⟩) es htree e he)
    · exact hkept (ht.file id hid (.inl hblob) es htree e he)
  exact ⟨hs.trees ▸ h.listed, by rw [hs.trees, hs.committed]; exact hclosed,
    by rw [hs.trees, hs.blobs]; exact hclosed⟩

end Tarmac.Tree
