import Tarmac.Tree.Ops
import Tarmac.Tree.Shared

/-!
# Stale records and their readers

A reader that finds a record whose object is gone deletes the record, whatever it says by then. In
`record_stays` one process adds a path while others read and collect: once the path is added it stays
valid, until a collection removes its object.

Two guards are named, and each is needed. A process deletes the record only as it has looked at it:
`record_lost` is a run in which the record has just been written when a reader deletes it. And while
the path is added no collection removes what that process has put or found: in `record_swept` the
object goes between the look for it and the return.
-/

namespace Tarmac.Tree

open PackCas

/-- The operations on the records of paths, and the collection. -/
inductive RecordOp where
  | pathRecord (path : Bytes)
  | drvText (path : Bytes)
  | maybeGc
  | addToStore (info : PathInfo) (file : FsNode)
  | writeDerivation (path contents : Bytes)

/-- The code of an operation; `addToStore` and `addToStoreFromDump` store the same way. -/
def RecordOp.code (cfg : Config) (json : Json) (fuel : Nat) : RecordOp → TreeM Unit
  | .pathRecord path => Tree.pathRecord cfg json path >>= fun _ => pure ()
  | .drvText path => Tree.drvText cfg path >>= fun _ => pure ()
  | .maybeGc => Tree.maybeGc cfg fuel
  | .addToStore info file => addObject cfg json info file
  | .writeDerivation path contents => Tree.writeDerivation cfg path contents

/-- The operation reads records or collects. -/
def RecordOp.reads : RecordOp → Bool
  | .pathRecord _ | .drvText _ | .maybeGc => true
  | .addToStore .. | .writeDerivation .. => false

/-! ## Records -/

/-- The place of a record: of a path, or of a derivation. -/
inductive Slot where
  | path (path : Bytes)
  | drv (path : Bytes)

namespace Slot

/-- The key of the record. -/
def key : Slot → Bytes
  | path p => kPathPrefix ++ p
  | drv p => kDrvPrefix ++ p

/-- The object a record refers to. -/
def named (json : Json) : Slot → Bytes → Option Bytes
  | path _, val => (json.decode val).toOption.map PathRecord.rootId
  | drv _, val => some val

/-- A key of a path is that of one slot. -/
theorem eq_path {p : Bytes} (slot : Slot) (h : kPathPrefix ++ p = slot.key) : slot = path p := by
  cases slot with
  | path p' => exact congrArg path (List.append_cancel_left h).symm
  | drv p' => simp [key, kPathPrefix, kDrvPrefix, ascii] at h

theorem eq_drv {p : Bytes} (slot : Slot) (h : kDrvPrefix ++ p = slot.key) : slot = drv p := by
  cases slot with
  | path p' => simp [key, kPathPrefix, kDrvPrefix, ascii] at h
  | drv p' => exact congrArg drv (List.append_cancel_left h).symm

/-- The record is there, and so is its object. -/
def Valid (json : Json) (slot : Slot) (st : Store) : Prop :=
  ∃ val id, st.records.find? slot.key = some val ∧ slot.named json val = some id ∧
    (st.blobs id).isSome

end Slot

/-- The operation writes the record. -/
def RecordOp.Writes (slot : Slot) : RecordOp → Prop
  | .addToStore info _ => slot = .path info.path
  | .writeDerivation path _ => slot = .drv path
  | _ => False

/-! ## What the processes have seen -/

/-- What a process has seen of the record: nothing, the value of a record, or the value of a record
whose object it has looked for in vain. -/
inductive Look where
  | nothing
  | read (val : Bytes)
  | missing (val : Bytes)

/-- Between two stores the record is written, or the object that `val` refers to is put. -/
def Slot.renewed (slot : Slot) (json : Json) (val : Bytes) (st st' : Store) : Bool :=
  (st'.records.find? slot.key).any (fun cur => decide (st.records.find? slot.key ≠ some cur)) ||
    (slot.named json val).any fun id => (st.blobs id).isNone && (st'.blobs id).isSome

namespace Look

/-- The process has looked for the object in vain. -/
def isMissing : Look → Bool
  | missing _ => true
  | _ => false

/-- What was seen no longer counts when the record is written, or its object put. -/
def since (json : Json) (slot : Slot) (st st' : Store) : Look → Look
  | nothing => nothing
  | read val => if slot.renewed json val st st' then nothing else read val
  | missing val => if slot.renewed json val st st' then nothing else missing val

/-- The object `id` is not there. -/
def miss (json : Json) (slot : Slot) (id : Bytes) : Look → Look
  | read val => if slot.named json val = some id then missing val else read val
  | look => look

/-- A call of the process, and its answer. -/
def after (json : Json) (slot : Slot) (c : Call) (r : c.Resp) (look : Look) : Look :=
  match c, r with
  | .metaGet key, .ok (some val) => if key = slot.key then read val else look
  | .has id, .ok false => look.miss json slot id
  | .get id, .ok none => look.miss json slot id
  | _, _ => look

end Look

/-- What the processes have seen, and the ids of the objects that puts have returned or that the process
0 has found. -/
structure Watch where
  look : Nat → Look
  kept : List Bytes

/-- Nothing has been seen. -/
def Watch.none : Watch := ⟨fun _ => .nothing, []⟩

/-- The objects that were put, or that the process 0 has found. -/
def keep (p : Nat) (c : Call) (r : c.Resp) (kept : List Bytes) : List Bytes :=
  match c, r with
  | .put .., .ok id => id :: kept
  | .has id, .ok true => if p = 0 then id :: kept else kept
  | .get id, .ok (some _) => if p = 0 then id :: kept else kept
  | _, _ => kept

/-- A call of `p` is watched. -/
def Watch.next (json : Json) (slot : Slot) (p : Nat) (c : Call) (r : c.Resp) (s s' : Sys) (w : Watch) :
    Watch where
  look q :=
    let look := (w.look q).since json slot (s.model q).view (s'.model q).view
    if q = p then look.after json slot c r else look
  kept := keep p c r w.kept

/-! ## The machine -/

/-- The process 0 does every operation, the others only read and collect, and may be killed. Beside
the directory is what the processes have seen. -/
def recordMachine (ext : Ext) (ok : Nat → Call → Sys × Watch → Choice → Prop)
    (cfg : Nat → Config) (json : Json) (fuel : Nat) (slot : Slot) :
    Machine Nat sig (Sys × Watch) RecordOp Pending (Except Err Unit) where
  sem p c x r x' := ∃ ch, ok p c x ch ∧ exec ext p ch c x.1 = some (r, x'.1) ∧
    x'.2 = x.2.next json slot p c r x.1 x'.1
  code p op σ := if p = 0 ∨ op.reads then op.code (cfg p) json fuel σ else .ret (.ok (), σ)
  init := []
  kill p x x' := p ≠ 0 ∧ x' = (x.1.drop p, x.2)

/-- The record is deleted only by a process that has found its object missing, when since then neither
the record was written nor that object put. A collection removes nothing that the process 0 has put or
found; once that process has `returned`, it only spares the object of the record. -/
def spares (json : Json) (slot : Slot) (returned : Bool) (p : Nat) (c : Call) (x : Sys × Watch) : Bool :=
  match c with
  | .metaDel key => decide (key ≠ slot.key) || (x.2.look p).isMissing
  | .compact live =>
    if returned then
      ((x.1.model p).view.records.find? slot.key).all fun val => (slot.named json val).all live
    else x.2.kept.all live
  | _ => true

/-! ## The calls of others -/

/-- A call of a process without a batch, when only `q` may have one. -/
theorem exec_other {ext : Ext} {p q : Nat} {ch : Choice} {c : Call} {r : c.Resp} {s s' : Sys}
    (hpq : p ≠ q) (hb : ∀ i, i ≠ q → s.batch i = none) (hc : ∀ tree d, c ≠ .put tree d)
    (h : exec ext p ch c s = some (r, s')) :
    (∀ i, i ≠ q → s'.batch i = none) ∧ ((s'.model q).view = (s.model q).view ∨
      ((s.model p).view = (s.model q).view ∧ Wrote c r (s.model q).view (s'.model q).view)) := by
  cases hw : s.writer with
  | none =>
    obtain ⟨hw', hwrote⟩ := exec_wrote hw hc h
    rw [view_of_idle hw, view_of_idle hw, view_of_idle hw']
    exact ⟨fun i _ => by simp [Sys.batch, hw'], .inr ⟨rfl, hwrote⟩⟩
  | some b =>
    have hq : b.1 = q := by
      by_contra hne
      have hnone := hb b.1 hne
      simp [Sys.batch, hw] at hnone
    have hbusy : s.busy p = true := by
      simp [Sys.busy, hw, hq, hpq.symm]
    have hwait {α : Type} {a : α} {m : Model} {stages : List Model} {x : Except Err α} {s' : Sys}
        (hx : s.write p ch a m stages = some (x, s')) : False := by
      have hfree := (Sys.write_cases hx).1
      rw [hbusy] at hfree
      cases hfree
    cases c with
    | put tree d => exact absurd rfl (hc tree d)
    | sync =>
      rw [exec_sync, if_neg (by simp [hb p hpq])] at h
      cases h
      exact ⟨hb, .inl rfl⟩
    | compact live => exact (hwait h).elim
    | metaPut key val => exact (hwait h).elim
    | metaDel key => exact (hwait h).elim
    | get | getView | size | has | metaGet | metaScan | now =>
      cases h
      exact ⟨hb, .inl rfl⟩

/-- A call leaves other processes without a batch. -/
theorem exec_batch {ext : Ext} {p i : Nat} {ch : Choice} {c : Call} {r : c.Resp} {s s' : Sys}
    (hi : i ≠ p) (hb : s.batch i = none) (h : exec ext p ch c s = some (r, s')) :
    s'.batch i = none := by
  have hset (m : Model) : (s.setModel p m).batch i = none := by
    obtain ⟨c, b⟩ := m
    cases b <;> simp [Sys.setModel, Sys.batch, hi.symm]
  have hwrite {α : Type} {a : α} {m : Model} {stages : List Model} {x : Except Err α} {s' : Sys}
      (hx : s.write p ch a m stages = some (x, s')) : s'.batch i = none := by
    obtain ⟨-, ⟨-, rfl⟩ | ⟨e, m', -, rfl, -⟩⟩ := Sys.write_cases hx
    · exact hset m
    · exact hset m'
  cases c with
  | put tree d =>
    obtain ⟨⟨x, s₁⟩, hx, heq⟩ := Option.map_eq_some_iff.1 h
    cases heq
    have hb' := hwrite hx
    dsimp only
    split
    · cases tree <;> exact hb'
    · exact hb'
  | sync =>
    rw [exec_sync] at h
    split at h
    · exact hwrite h
    · cases h
      exact hb
  | compact live => exact hwrite h
  | metaPut key val => exact hwrite h
  | metaDel key => exact hwrite h
  | get | getView | size | has | metaGet | metaScan | now =>
    cases h
    exact hb

/-! ## What was seen is so -/

/-- What was seen of the record is so in the store: it is the record, if it is there still, and its object
is missing. -/
def Look.Sound (json : Json) (slot : Slot) (st : Store) : Look → Prop
  | nothing => True
  | read val => ∀ cur, st.records.find? slot.key = some cur → cur = val
  | missing val => (∀ cur, st.records.find? slot.key = some cur → cur = val) ∧
      ∀ id, slot.named json val = some id → st.blobs id = none

section

variable {json : Json} {slot : Slot} {st st' : Store} {look : Look} {val : Bytes}

/-- If nothing is renewed, the record is the one that was there, and no object has come. -/
theorem Slot.of_not_renewed (h : ¬slot.renewed json val st st' = true) :
    (∀ cur, st'.records.find? slot.key = some cur → st.records.find? slot.key = some cur) ∧
    ∀ id, slot.named json val = some id → st.blobs id = none → st'.blobs id = none := by
  unfold renewed at h
  rw [Bool.or_eq_true, not_or] at h
  obtain ⟨hrecord, hobject⟩ := h
  refine ⟨fun cur hcur => ?_, fun id hid hnone => ?_⟩
  · rw [hcur, Option.any_some, decide_eq_true_eq] at hrecord
    exact not_not.1 hrecord
  · rw [hid, Option.any_some, hnone] at hobject
    simpa using hobject

/-- What was seen is still so when nothing was renewed. -/
theorem Look.Sound.since (h : look.Sound json slot st) : (look.since json slot st st').Sound json slot st' := by
  cases look with
  | nothing => trivial
  | read val =>
    unfold Look.since
    dsimp only
    split
    · trivial
    · next hnew => exact fun cur hcur => h cur ((Slot.of_not_renewed hnew).1 cur hcur)
  | missing val =>
    unfold Look.since
    dsimp only
    split
    · trivial
    · next hnew =>
      obtain ⟨hrecord, hobject⟩ := Slot.of_not_renewed hnew
      exact ⟨fun cur hcur => h.1 cur (hrecord cur hcur), fun id hid => hobject id hid (h.2 id hid)⟩

/-- An object that was looked for in vain is missing. -/
theorem Look.Sound.miss {id : Bytes} (h : look.Sound json slot st) (hid : st.blobs id = none) :
    (look.miss json slot id).Sound json slot st := by
  cases look with
  | nothing => trivial
  | missing val => exact h
  | read val =>
    unfold Look.miss
    dsimp only
    split
    · next hnamed =>
      refine ⟨h, fun id' hid' => ?_⟩
      cases hnamed.symm.trans hid'
      exact hid
    · exact h

/-- A record whose object was looked for in vain is not valid. -/
theorem Look.Sound.not_valid (h : look.Sound json slot st) (hmissing : look.isMissing = true) :
    ∀ val id, st.records.find? slot.key = some val → slot.named json val = some id →
      ¬(st.blobs id).isSome := by
  intro cur id hcur hid hsome
  cases look with
  | nothing | read => cases hmissing
  | missing val =>
    cases h.1 cur hcur
    rw [h.2 id hid] at hsome
    cases hsome

/-- What was added is there. -/
theorem isSome_add_self {M : BlobMap} {h d : Bytes} : (M.add h d h).isSome := by
  unfold BlobMap.add
  cases hM : M h with
  | none => simp
  | some d' => simp

/-- What is live is kept. -/
theorem isSome_restrict {live : Bytes → Bool} {id : Bytes} (hlive : live id = true)
    (hid : (st.blobs id).isSome) : ((st.restrict live).blobs id).isSome := by
  unfold Store.restrict BlobMap.restrict
  dsimp only
  rw [if_pos hlive]
  exact hid

/-- What was there stays when more is added. -/
theorem isSome_add {M : BlobMap} {h d id : Bytes} (hid : (M id).isSome) :
    (M.add h d id).isSome := by
  obtain ⟨d', hd'⟩ := Option.isSome_iff_exists.1 hid
  rw [Grows.add M h d id d' hd']
  rfl

/-- What a process sees by its call is so. -/
theorem Look.Sound.after {ext : Ext} {p : Nat} {ch : Choice} {c : Call} {r : c.Resp} {s s' : Sys}
    (h : exec ext p ch c s = some (r, s')) (hlook : look.Sound json slot (s'.model p).view) :
    (look.after json slot c r).Sound json slot (s'.model p).view := by
  unfold Look.after
  split
  · next key val =>
    split
    · next hkey =>
      subst hkey
      obtain ⟨hr, rfl⟩ := Prod.mk.inj (Option.some.inj h)
      intro cur hcur
      rw [hcur] at hr
      unfold Choice.read at hr
      split at hr
      · cases hr
      · exact Option.some.inj (Except.ok.inj hr)
    · exact hlook
  · next id =>
    obtain ⟨hr, rfl⟩ := Prod.mk.inj (Option.some.inj h)
    refine hlook.miss ?_
    have hnone : (((s.model p).view).blobs id).isSome = false := (Choice.lookup_ok hr).symm
    simpa using hnone
  · next id =>
    obtain ⟨hr, rfl⟩ := Prod.mk.inj (Option.some.inj h)
    exact hlook.miss (Choice.lookup_ok hr).symm
  · exact hlook

/-- After a call, what every process has seen is so. -/
theorem Watch.sound_next {ext : Ext} {p : Nat} {ch : Choice} {c : Call} {r : c.Resp} {s s' : Sys}
    {w : Watch} (hw : ∀ q, (w.look q).Sound json slot (s.model q).view)
    (h : exec ext p ch c s = some (r, s')) (q : Nat) :
    ((w.next json slot p c r s s').look q).Sound json slot (s'.model q).view := by
  unfold Watch.next
  dsimp only
  split
  · next hq =>
    subst hq
    exact (hw q).since.after h
  · exact (hw q).since

/-- What is added to the objects that were put or found is there. -/
theorem isSome_of_mem_keep {ext : Ext} {ch : Choice} {c : Call} {r : c.Resp} {s s' : Sys}
    {kept : List Bytes} {id : Bytes} (h : exec ext 0 ch c s = some (r, s')) (hid : id ∈ keep 0 c r kept) :
    id ∈ kept ∨ ((s'.model 0).view.blobs id).isSome := by
  unfold keep at hid
  split at hid
  · next tree d id' =>
    rcases List.mem_cons.1 hid with rfl | hid
    · have hmoves := exec_moves h
      generalize (s'.model 0).view = v' at hmoves ⊢
      generalize (s.model 0).view = v at hmoves
      cases hmoves with
      | nothing hr => cases hr
      | put => exact .inr isSome_add_self
    · exact .inl hid
  · next id' =>
    rw [if_pos rfl] at hid
    rcases List.mem_cons.1 hid with rfl | hid
    · obtain ⟨hr, rfl⟩ := Prod.mk.inj (Option.some.inj h)
      exact .inr (Choice.lookup_ok hr).symm
    · exact .inl hid
  · next id' data =>
    rw [if_pos rfl] at hid
    rcases List.mem_cons.1 hid with rfl | hid
    · obtain ⟨hr, rfl⟩ := Prod.mk.inj (Option.some.inj h)
      refine .inr ?_
      rw [← Choice.lookup_ok hr]
      rfl
    · exact .inl hid
  · exact .inl hid

/-- Nothing that was put or found is forgotten. -/
theorem subset_keep {p : Nat} {c : Call} {r : c.Resp} {kept : List Bytes} : kept ⊆ keep p c r kept := by
  intro id hid
  unfold keep
  split
  · exact .tail _ hid
  · split
    · exact .tail _ hid
    · exact hid
  · split
    · exact .tail _ hid
    · exact hid
  · exact hid

end

/-! ## The rules -/

section

variable (json : Json) (slot : Slot) (returned : Bool)

/-- Only the process 0 has a batch, and what was seen is so. Until the process 0 has returned, what it
has put or found is in the index; from then on the record is valid. -/
structure WriterInv (x : Sys × Watch) : Prop where
  alone : ∀ p, p ≠ 0 → x.1.batch p = none
  looks : ∀ p, (x.2.look p).Sound json slot (x.1.model p).view
  stored : returned = false → ∀ id ∈ x.2.kept, ((x.1.model 0).view.blobs id).isSome
  valid : returned = true → slot.Valid json (x.1.model 0).view

/-- What the others do to the store as the process 0 sees it: they put no object, do not write the
record, and delete it only when its object is missing. -/
structure Aside (x x' : Sys × Watch) : Prop where
  kept : x'.2.kept = x.2.kept
  fewer : ∀ id, ((x'.1.model 0).view.blobs id).isSome → ((x.1.model 0).view.blobs id).isSome
  older : ∀ val, (x'.1.model 0).view.records.find? slot.key = some val →
    (x.1.model 0).view.records.find? slot.key = some val
  record : ∀ val id, (x.1.model 0).view.records.find? slot.key = some val →
    slot.named json val = some id → ((x'.1.model 0).view.blobs id).isSome →
    (x'.1.model 0).view.records.find? slot.key = some val

/-- The record refers to an object that was put or found. -/
def Backed (x : Sys × Watch) : Prop :=
  ∃ val, ∃ id ∈ x.2.kept, (x.1.model 0).view.records.find? slot.key = some val ∧
    slot.named json val = some id

/-- What the process 0 keeps until it has returned: what it has put or found, and the record of such an
object. -/
structure Minds (x x' : Sys × Watch) : Prop where
  kept : x.2.kept ⊆ x'.2.kept
  backed : returned = false → Backed json slot x → Backed json slot x'

end

section

variable {json : Json} {slot : Slot} {returned : Bool} {x x' x₁ : Sys × Watch}

theorem Aside.refl (x : Sys × Watch) : Aside json slot x x :=
  ⟨rfl, fun _ h => h, fun _ h => h, fun _ _ h _ _ => h⟩

/-- Two things may be done beside the record. -/
theorem Aside.trans (h : Aside json slot x x₁) (h' : Aside json slot x₁ x') : Aside json slot x x' where
  kept := h'.kept.trans h.kept
  fewer id hid := h.fewer id (h'.fewer id hid)
  older val hval := h.older val (h'.older val hval)
  record val id hval hid hsome := h'.record val id (h.record val id hval hid (h'.fewer id hsome)) hid hsome

theorem Minds.refl (x : Sys × Watch) : Minds json slot returned x x := ⟨fun _ h => h, fun _ h => h⟩

/-- The record is minded step by step. -/
theorem Minds.trans (h : Minds json slot returned x x₁) (h' : Minds json slot returned x₁ x') :
    Minds json slot returned x x' :=
  ⟨List.Subset.trans h.kept h'.kept, fun hr hb => h'.backed hr (h.backed hr hb)⟩

/-- The others leave what the process 0 has put or found, and its record. -/
theorem Aside.minds (h : Aside json slot x x') (hx' : WriterInv json slot returned x') :
    Minds json slot returned x x' where
  kept _ hid := h.kept ▸ hid
  backed := by
    rintro hr ⟨val, id, hid, hval, hnamed⟩
    have hid' : id ∈ x'.2.kept := h.kept ▸ hid
    exact ⟨val, id, hid', h.record val id hval hnamed (hx'.stored hr id hid'), hnamed⟩

/-- A record of an object that was put or found is valid. -/
theorem Backed.valid (h : Backed json slot x) (hx : WriterInv json slot false x) :
    slot.Valid json (x.1.model 0).view := by
  obtain ⟨val, id, hid, hval, hnamed⟩ := h
  exact ⟨val, id, hval, hnamed, hx.stored rfl id hid⟩

/-- A valid record stays valid when another record changes, or an object is added. -/
theorem Slot.Valid.congr {st st' : Store} (h : slot.Valid json st)
    (hrec : st'.records.find? slot.key = st.records.find? slot.key)
    (hblobs : ∀ id, (st.blobs id).isSome → (st'.blobs id).isSome) : slot.Valid json st' := by
  obtain ⟨val, id, hval, hid, hsome⟩ := h
  exact ⟨val, id, hrec.trans hval, hid, hblobs id hsome⟩

/-- What `spares` leaves: no process deletes a record whose object is there, and a collection spares what
the process 0 has put or found, or once that has returned, the object of the record. -/
theorem WriterInv.spared {p : Nat} {c : Call} (hx : WriterInv json slot returned x)
    (hok : spares json slot returned p c x = true) :
    (c = .metaDel slot.key → ∀ val id, (x.1.model p).view.records.find? slot.key = some val →
      slot.named json val = some id → ¬((x.1.model p).view.blobs id).isSome) ∧
    ∀ live, c = .compact live → (returned = false → ∀ id ∈ x.2.kept, live id = true) ∧
      (returned = true → ∀ val id, (x.1.model p).view.records.find? slot.key = some val →
        slot.named json val = some id → live id = true) := by
  refine ⟨?_, ?_⟩
  · rintro rfl
    refine (hx.looks p).not_valid ?_
    unfold spares at hok
    simpa using hok
  · rintro live rfl
    unfold spares at hok
    dsimp only at hok
    refine ⟨?_, ?_⟩
    · rintro rfl
      rw [if_neg Bool.false_ne_true, List.all_eq_true] at hok
      exact hok
    · rintro rfl val id hval hnamed
      rw [if_pos rfl, hval, Option.all_some, hnamed, Option.all_some] at hok
      exact hok

/-- A call of the process 0 that writes the record only before it has returned, and for an object that was
put. -/
theorem WriterInv.own {ext : Ext} {ch : Choice} {c : Call} {r : c.Resp} {s' : Sys}
    (hx : WriterInv json slot returned x) (hok : spares json slot returned 0 c x = true)
    (hput : ∀ val, c = .metaPut slot.key val →
      returned = false ∧ ∃ id ∈ x.2.kept, slot.named json val = some id)
    (h : exec ext 0 ch c x.1 = some (r, s')) :
    WriterInv json slot returned (s', x.2.next json slot 0 c r x.1 s') ∧
    Minds json slot returned x (s', x.2.next json slot 0 c r x.1 s') := by
  have hkeeps : x.2.kept ⊆ (x.2.next json slot 0 c r x.1 s').kept := subset_keep
  suffices hview : (returned = false → ∀ id ∈ x.2.kept, ((s'.model 0).view.blobs id).isSome) ∧
      (returned = true → slot.Valid json (s'.model 0).view) ∧
      (returned = false → Backed json slot x → ∃ val, ∃ id ∈ x.2.kept,
        (s'.model 0).view.records.find? slot.key = some val ∧ slot.named json val = some id) by
    obtain ⟨hstored, hvalid, hbacked⟩ := hview
    refine ⟨⟨fun p hp => exec_batch hp (hx.alone p hp) h, Watch.sound_next hx.looks h, ?_, hvalid⟩,
      hkeeps, ?_⟩
    · intro hr id hid
      exact (isSome_of_mem_keep h hid).elim (hstored hr id) fun h => h
    · intro hr hb
      obtain ⟨val, id, hid, hrest⟩ := hbacked hr hb
      exact ⟨val, id, hkeeps hid, hrest⟩
  have hmoves := exec_moves h
  obtain ⟨hdel, hcompact⟩ := hx.spared hok
  have hstored := hx.stored
  have hvalid := hx.valid
  unfold Backed
  generalize (s'.model 0).view = v' at hmoves ⊢
  generalize (x.1.model 0).view = v at hmoves hstored hvalid hdel hcompact ⊢
  cases hmoves with
  | nothing => exact ⟨hstored, hvalid, fun _ h => h⟩
  | put | putUncommitted =>
    exact ⟨fun hr id hid => isSome_add (hstored hr id hid),
      fun hr => (hvalid hr).congr rfl fun id => isSome_add, fun _ h => h⟩
  | @putRecord key val =>
    by_cases hkey : key = slot.key
    · subst hkey
      obtain ⟨hr, id, hid, hnamed⟩ := hput val rfl
      subst hr
      exact ⟨hstored, fun h => absurd h Bool.false_ne_true,
        fun _ _ => ⟨val, id, hid, SortedMap.find?_insert_self, hnamed⟩⟩
    · have hsame : (v.putRecord key val).records.find? slot.key = v.records.find? slot.key :=
        SortedMap.find?_insert_of_ne hkey
      refine ⟨hstored, fun hr => (hvalid hr).congr hsame fun _ h => h, fun _ hb => ?_⟩
      rw [hsame]
      exact hb
  | @delRecord key =>
    by_cases hkey : key = slot.key
    · subst hkey
      refine ⟨hstored, fun hr => ?_, ?_⟩
      · obtain ⟨val, id, hval, hnamed, hsome⟩ := hvalid hr
        exact absurd hsome (hdel rfl val id hval hnamed)
      · rintro hr ⟨val, id, hid, hval, hnamed⟩
        exact absurd (hstored hr id hid) (hdel rfl val id hval hnamed)
    · have hsame : (v.delRecord key).records.find? slot.key = v.records.find? slot.key :=
        SortedMap.find?_erase_of_ne hkey
      refine ⟨hstored, fun hr => (hvalid hr).congr hsame fun _ h => h, fun _ hb => ?_⟩
      rw [hsame]
      exact hb
  | @restrict live =>
    obtain ⟨hkept, hobject⟩ := hcompact live rfl
    refine ⟨fun hr id hid => isSome_restrict (hkept hr id hid) (hstored hr id hid), fun hr => ?_,
      fun _ h => h⟩
    obtain ⟨val, id, hval, hnamed, hsome⟩ := hvalid hr
    exact ⟨val, id, hval, hnamed, isSome_restrict (hobject hr val id hval hnamed) hsome⟩

/-- A call of another process, which puts nothing and does not write the record. -/
theorem WriterInv.other {ext : Ext} {p : Nat} {ch : Choice} {c : Call} {r : c.Resp} {s' : Sys}
    (hp : p ≠ 0) (hx : WriterInv json slot returned x) (hok : spares json slot returned p c x = true)
    (hput : ∀ tree d, c ≠ .put tree d) (hkey : ∀ val, c ≠ .metaPut slot.key val)
    (h : exec ext p ch c x.1 = some (r, s')) :
    WriterInv json slot returned (s', x.2.next json slot p c r x.1 s') ∧
    Aside json slot x (s', x.2.next json slot p c r x.1 s') := by
  have hsame : (x.2.next json slot p c r x.1 s').kept = x.2.kept := by
    unfold Watch.next keep
    dsimp only
    split
    · exact absurd rfl (hput _ _)
    · exact if_neg hp
    · exact if_neg hp
    · rfl
  obtain ⟨halone, hview⟩ := exec_other hp hx.alone hput h
  have hlooks := Watch.sound_next hx.looks h
  suffices hkeep : (returned = false → ∀ id ∈ x.2.kept, ((s'.model 0).view.blobs id).isSome) ∧
      (returned = true → slot.Valid json (s'.model 0).view) ∧
      (∀ id, ((s'.model 0).view.blobs id).isSome → ((x.1.model 0).view.blobs id).isSome) ∧
      (∀ val, (s'.model 0).view.records.find? slot.key = some val →
        (x.1.model 0).view.records.find? slot.key = some val) ∧
      ∀ val id, (x.1.model 0).view.records.find? slot.key = some val → slot.named json val = some id →
        ((s'.model 0).view.blobs id).isSome → (s'.model 0).view.records.find? slot.key = some val by
    obtain ⟨hstored, hvalid, hfewer, holder, hrecord⟩ := hkeep
    exact ⟨⟨halone, hlooks, hsame ▸ hstored, hvalid⟩, hsame, hfewer, holder, hrecord⟩
  have hstored := hx.stored
  have hvalid := hx.valid
  rcases hview with hview | ⟨hseen, hwrote⟩
  · rw [hview]
    exact ⟨hstored, hvalid, fun _ h => h, fun _ h => h, fun _ _ h _ _ => h⟩
  · obtain ⟨hdel, hcompact⟩ := hx.spared hok
    rw [hseen] at hdel hcompact
    generalize (s'.model 0).view = v' at hwrote ⊢
    generalize (x.1.model 0).view = v at hwrote hstored hvalid hdel hcompact ⊢
    cases hwrote with
    | nothing => exact ⟨hstored, hvalid, fun _ h => h, fun _ h => h, fun _ _ h _ _ => h⟩
    | @putRecord key val =>
      have hne : key ≠ slot.key := by
        rintro rfl
        exact hkey val rfl
      have hfind : (v.putRecord key val).records.find? slot.key = v.records.find? slot.key :=
        SortedMap.find?_insert_of_ne hne
      refine ⟨hstored, fun hr => (hvalid hr).congr hfind fun _ h => h, fun _ h => h, ?_, ?_⟩
      · intro val h
        rw [← hfind]
        exact h
      · intro val id h _ _
        rw [hfind]
        exact h
    | @delRecord key =>
      by_cases hdeleted : key = slot.key
      · subst hdeleted
        have hgone : (v.delRecord slot.key).records.find? slot.key = none :=
          (SortedMap.find?_erase ..).trans (if_pos rfl)
        refine ⟨hstored, fun hr => ?_, fun _ h => h, ?_, ?_⟩
        · obtain ⟨val, id, hval, hnamed, hsome⟩ := hvalid hr
          exact absurd hsome (hdel rfl val id hval hnamed)
        · intro val h
          rw [hgone] at h
          cases h
        · intro val id hval hnamed hsome
          exact absurd hsome (hdel rfl val id hval hnamed)
      · have hfind : (v.delRecord key).records.find? slot.key = v.records.find? slot.key :=
          SortedMap.find?_erase_of_ne hdeleted
        refine ⟨hstored, fun hr => (hvalid hr).congr hfind fun _ h => h, fun _ h => h, ?_, ?_⟩
        · intro val h
          rw [← hfind]
          exact h
        · intro val id h _ _
          rw [hfind]
          exact h
    | @restrict live =>
      obtain ⟨hkept, hobject⟩ := hcompact live rfl
      refine ⟨fun hr id hid => isSome_restrict (hkept hr id hid) (hstored hr id hid), fun hr => ?_,
        fun id hid => ?_, fun _ h => h, fun _ _ h _ _ => h⟩
      · obtain ⟨val, id, hval, hnamed, hsome⟩ := hvalid hr
        exact ⟨val, id, hval, hnamed, isSome_restrict (hobject hr val id hval hnamed) hsome⟩
      · obtain ⟨d, hd⟩ := Option.isSome_iff_exists.1 hid
        exact Option.isSome_iff_exists.2 ⟨d, (restrict_eq_some.1 hd).2⟩

end

/-- The rules of the processes: the process 0 relies on the others staying aside. -/
def recordRules (ext : Ext) (cfg : Nat → Config) (json : Json) (fuel : Nat) (slot : Slot)
    (returned : Bool) (p : Nat) : Rules sig (Sys × Watch) :=
  .blocking ((recordMachine ext (fun p c x _ => spares json slot returned p c x) cfg json fuel slot).sem p)
    (WriterInv json slot returned) (fun x x' => p = 0 → Aside json slot x x')
    fun x x' => p ≠ 0 → Aside json slot x x'

/-! ## The programs -/

/-- Keys of other records than the one at `slot`. -/
def Beside (slot : Slot) (key : Bytes) : Prop := key ≠ slot.key

/-- Roots are beside the record. -/
theorem ownKeys_beside (slot : Slot) : OwnKeys (Beside slot) where
  root root tree h := by
    rw [rootKey_cons] at h
    cases slot <;> cases tree <;> simp [Slot.key, kPathPrefix, kDrvPrefix, ascii] at h
  lastGc h := by
    cases slot <;> simp [Slot.key, lastGcKey, kPathPrefix, kDrvPrefix, ascii] at h

/-- The calls that put no object and do not write the record. -/
def Bystands (slot : Slot) (c : Call) : Prop :=
  (∀ tree d, c ≠ .put tree d) ∧ ∀ val, c ≠ .metaPut slot.key val

/-- A tame call stands by. -/
theorem Tame.bystands {slot : Slot} {c : Call} (h : Tame (Beside slot) c) : Bystands slot c := by
  refine ⟨?_, ?_⟩
  · rintro tree d rfl
    exact h
  · rintro val rfl
    exact h rfl

section

variable {slot : Slot} {cfg : Config} {json : Json} {fuel : Nat} {σ : Pending}

/-- What the other processes do. -/
theorem makes_reads {op : RecordOp} (hop : op.reads = true) (h : Queues (Beside slot) σ) :
    Eff.Makes (Bystands slot) (fun _ σ' => Queues (Beside slot) σ') (op.code cfg json fuel) σ := by
  have hskip {α : Type} {m : TreeM α}
      (hm : Eff.Makes (Tame (Beside slot)) (fun _ σ' => Queues (Beside slot) σ') m σ) :
      Eff.Makes (Bystands slot) (fun _ σ' => Queues (Beside slot) σ') (m >>= fun _ => pure ()) σ :=
    Eff.Makes.seq (hm.mono (fun _ h => h.bystands) fun _ _ h => h) (fun _ _ h => .pure h) fun _ _ h => h
  cases op with
  | pathRecord path => exact hskip (makes_pathRecord (ownKeys_beside slot) h)
  | drvText path => exact hskip (makes_drvText (ownKeys_beside slot) h)
  | maybeGc =>
    exact makes_maybeGc (ownKeys_beside slot) (fun _ h => h.bystands) (fun _ => ⟨nofun, nofun⟩) h
  | addToStore | writeDerivation => cases hop

end

/-! ## The process that writes -/

/-- The calls that do not write the record. -/
def KeepsOff (slot : Slot) (c : Call) : Prop := ∀ val, c ≠ .metaPut slot.key val

/-- It keeps off the record. -/
theorem Tame.keepsOff {slot : Slot} {c : Call} (h : Tame (Beside slot) c) : KeepsOff slot c :=
  h.bystands.2

section

variable {ext : Ext} {cfg : Nat → Config} {json : Json} {fuel : Nat} {slot : Slot} {returned : Bool}
  {σ : Pending} {x : Sys × Watch} {α : Type}

/-- A call of the writing process. -/
theorem safe_own {c : Call} {hc : c.Resp = Except Err α}
    {Q : Except Err α → Pending → Sys × Watch → Prop}
    (h : ∀ x₁, WriterInv json slot returned x₁ → Aside json slot x x₁ →
      (∀ val, c = .metaPut slot.key val →
        returned = false ∧ ∃ id ∈ x₁.2.kept, slot.named json val = some id) ∧
      ∀ ch r x₂ x₃, exec ext 0 ch c x₁.1 = some (r, x₂.1) →
        x₂.2 = x₁.2.next json slot 0 c r x₁.1 x₂.1 → Minds json slot returned x₁ x₂ →
        WriterInv json slot returned x₃ → Aside json slot x₂ x₃ → Q (hc ▸ r) σ x₃) :
    Eff.Safe (recordRules ext cfg json fuel slot returned 0) Q (ask c hc) σ x := by
  refine safe_blocking ?_
  rintro x₁ hx₁ haside r ⟨s', w'⟩ ⟨ch, hok, hexec, hw⟩
  obtain ⟨hput, hQ⟩ := h x₁ hx₁ (haside rfl)
  obtain ⟨hx₂, hminds⟩ := hx₁.own hok hput hexec
  dsimp only at hw
  subst hw
  exact ⟨hx₂, fun h => absurd rfl h, fun x₃ hx₃ haside' =>
    hQ ch r _ x₃ hexec rfl hminds hx₃ (haside' rfl)⟩

/-- A program that does not write the record. -/
theorem safe_keepsOff {m : TreeM α} {Q : Except Err α → Pending → Prop}
    (hm : Eff.Makes (KeepsOff slot) Q m σ) (hx : WriterInv json slot returned x) :
    Eff.Safe (recordRules ext cfg json fuel slot returned 0)
      (fun r σ' x' => Q r σ' ∧ Minds json slot returned x x') m σ x := by
  refine Eff.Safe.of_makes (P := KeepsOff slot) (T := Minds json slot returned) Minds.refl
    (fun _ _ _ => Minds.trans) (fun _ _ _ hx' h => (h rfl).minds hx') ?_ hm hx
  intro c x₁ hc hx₁
  refine Rules.blocking_step ?_
  rintro r ⟨s', w'⟩ ⟨ch, hok, hexec, hw⟩
  obtain ⟨hx₂, hminds⟩ := hx₁.own hok (fun val h => absurd h (hc val)) hexec
  dsimp only at hw
  subst hw
  exact ⟨hx₂, fun h => absurd rfl h, hminds⟩

/-- A step that changes nothing is relied on. -/
theorem recordRules_refl (p : Nat) (x : Sys × Watch) :
    (recordRules ext cfg json fuel slot returned p).Rely x x := fun _ => Aside.refl x

/-- The id a put returns is among those that were put. -/
theorem safe_putOwn {tree : Bool} {d : Bytes} :
    Eff.Safe (recordRules ext cfg json fuel slot returned 0)
      (fun r σ' x' => σ' = σ ∧ ∀ id, r = .ok id → id ∈ x'.2.kept) (Cas.put tree d) σ x := by
  refine safe_own fun x₁ _ _ => ⟨nofun, ?_⟩
  intro ch r x₂ x₃ _ hw _ _ haside
  refine ⟨rfl, fun id hid => ?_⟩
  have hr : r = Except.ok id := hid
  rw [haside.kept, hw, hr]
  exact .head _

/-- An object that is stored was put. -/
theorem safe_ingestOwn {file : FsNode} (hx : WriterInv json slot returned x) :
    Eff.Safe (recordRules ext cfg json fuel slot returned 0)
      (fun r σ' x' => σ' = σ ∧ ∀ type id, r = .ok (type, id) → id ∈ x'.2.kept) (ingest file) σ x := by
  have hblob {type : EntryType} {data : Bytes} : Eff.Safe (recordRules ext cfg json fuel slot returned 0)
      (fun r σ' x' => σ' = σ ∧ ∀ type id, r = .ok (type, id) → id ∈ x'.2.kept)
      (do let id ← putBlob data; pure (type, id)) σ x := by
    refine Eff.Safe.map hx safe_putOwn ?_
    rintro (e | id) σ' x' - ⟨rfl, hid⟩
    · exact ⟨rfl, nofun⟩
    · refine ⟨rfl, ?_⟩
      rintro _ _ ⟨⟩
      exact hid id rfl
  cases file with
  | regular executable contents =>
    unfold ingest
    exact hblob
  | symlink target =>
    unfold ingest
    exact hblob
  | directory entries =>
    unfold ingest
    refine Eff.Safe.seq (recordRules_refl 0) hx (safe_keepsOff (makes_ingestAll fun _ _ => nofun) hx) ?_
      fun _ _ _ _ h => ⟨h.1, nofun⟩
    rintro es σ' x₁ hx₁ ⟨rfl, -⟩
    unfold putTree
    split
    · refine Eff.Safe.map hx₁ safe_putOwn ?_
      rintro (e | id) σ' x' - ⟨rfl, hid⟩
      · exact ⟨rfl, nofun⟩
      · refine ⟨rfl, ?_⟩
        rintro _ _ ⟨⟩
        exact hid id rfl
    · exact Eff.Safe.throw fun _ _ _ => ⟨rfl, nofun⟩

/-- Writing a record for an object that was put. -/
theorem safe_metaPutOwn {key val : Bytes}
    (hnamed : key = slot.key → returned = false ∧ ∃ id ∈ x.2.kept, slot.named json val = some id) :
    Eff.Safe (recordRules ext cfg json fuel slot returned 0)
      (fun r σ' x' => σ' = σ ∧ (r = .ok () → key = slot.key → Backed json slot x'))
      (Cas.metaPut key val) σ x := by
  refine safe_own fun x₁ hx₁ haside => ⟨?_, ?_⟩
  · rintro val' ⟨⟩
    obtain ⟨hr, id, hid, hval⟩ := hnamed rfl
    exact ⟨hr, id, haside.kept ▸ hid, hval⟩
  · intro ch r x₂ x₃ hexec hw hminds hx₃ haside'
    refine ⟨rfl, ?_⟩
    rintro hr rfl
    have hr' : r = Except.ok () := hr
    subst hr'
    obtain ⟨hfalse, id, hid, hval⟩ := hnamed rfl
    refine (haside'.minds hx₃).backed hfalse ⟨val, id, hminds.kept (haside.kept ▸ hid), ?_, hval⟩
    have hmoves := exec_moves hexec
    generalize (x₂.1.model 0).view = v' at hmoves ⊢
    generalize (x₁.1.model 0).view = v at hmoves
    cases hmoves with
    | nothing h => cases h
    | putRecord => exact SortedMap.find?_insert_self

/-- A record that was read: it is there still if its object is, or once the process 0 has returned. -/
structure Hit (json : Json) (slot : Slot) (returned : Bool) (raw : Bytes) (x : Sys × Watch) : Prop where
  found : ∀ id, slot.named json raw = some id → ((x.1.model 0).view.blobs id).isSome →
    (x.1.model 0).view.records.find? slot.key = some raw
  sure : returned = true → (x.1.model 0).view.records.find? slot.key = some raw

/-- What was found is still there when something else is done. -/
theorem Hit.aside {raw : Bytes} {x' : Sys × Watch} (h : Hit json slot returned raw x)
    (ha : Aside json slot x x') (hx' : WriterInv json slot returned x') :
    Hit json slot returned raw x' where
  found id hid hsome := ha.record raw id (h.found id hid (ha.fewer id hsome)) hid hsome
  sure hr := by
    obtain ⟨val, id, hval, -⟩ := hx'.valid hr
    rw [← h.sure hr, ha.older val hval]
    exact hval

/-- A record that was read. -/
theorem safe_metaGetOwn {key : Bytes} :
    Eff.Safe (recordRules ext cfg json fuel slot returned 0)
      (fun r σ' x' => σ' = σ ∧ (key = slot.key → (r = .ok none → returned = false) ∧
        ∀ raw, r = .ok (some raw) → Hit json slot returned raw x')) (Cas.metaGet key) σ x := by
  refine safe_own fun x₁ hx₁ _ => ⟨nofun, ?_⟩
  rintro ch r ⟨s₂, w₂⟩ x₃ hexec - - hx₃ haside
  refine ⟨rfl, ?_⟩
  rintro rfl
  cases hexec
  have hread {o : Option Bytes} (hr : (ch.read ((x₁.1.model 0).view.records.find? slot.key) :
      Except Err _) = .ok o) : (x₁.1.model 0).view.records.find? slot.key = o := by
    unfold Choice.read at hr
    split at hr
    · cases hr
    · exact Except.ok.inj hr
  refine ⟨fun hr => ?_, fun raw hr => ?_⟩
  · have hnone := hread hr
    cases hreturned : returned with
    | false => rfl
    | true =>
      obtain ⟨val, id, hval, -⟩ := hx₁.valid hreturned
      rw [hnone] at hval
      cases hval
  · have hraw := hread hr
    have hhit : Hit json slot returned raw (x₁.1, w₂) := ⟨fun _ _ _ => hraw, fun _ => hraw⟩
    exact hhit.aside haside hx₃

/-- Once the process 0 has returned, the object of the record is found. -/
theorem Hit.returned_of_missed {raw id : Bytes} (h : Hit json slot returned raw x)
    (hx : WriterInv json slot returned x) (hid : slot.named json raw = some id)
    (hmissed : ((x.1.model 0).view.blobs id).isSome = false) : returned = false := by
  cases hreturned : returned with
  | false => rfl
  | true =>
    obtain ⟨val, id', hval, hid', hsome⟩ := hx.valid hreturned
    rw [h.sure hreturned] at hval
    cases hval
    cases hid.symm.trans hid'
    rw [hmissed] at hsome
    cases hsome

/-- An object that was looked for. -/
theorem safe_hasOwn {raw id : Bytes} (hid : slot.named json raw = some id)
    (hhit : Hit json slot returned raw x) :
    Eff.Safe (recordRules ext cfg json fuel slot returned 0)
      (fun r σ' x' => σ' = σ ∧ (r = .ok true → returned = false → Backed json slot x') ∧
        (r = .ok false → returned = false)) (Cas.has id) σ x := by
  refine safe_own fun x₁ hx₁ haside => ⟨nofun, ?_⟩
  rintro ch r ⟨s₂, w₂⟩ x₃ hexec hw - hx₃ haside'
  have hhit₁ := hhit.aside haside hx₁
  cases hexec
  dsimp only at hw
  subst hw
  have hlookup {b : Bool} (hr : (ch.lookup id ((x₁.1.model 0).view.blobs id).isSome : Except Err Bool) =
      .ok b) : ((x₁.1.model 0).view.blobs id).isSome = b := (Choice.lookup_ok hr).symm
  refine ⟨rfl, fun hr hreturned => ?_, fun hr => hhit₁.returned_of_missed hx₁ hid (hlookup hr)⟩
  refine (haside'.minds hx₃).backed hreturned ⟨raw, id, ?_, hhit₁.found id hid (hlookup hr), hid⟩
  unfold Watch.next keep
  dsimp only at hr ⊢
  rw [hr]
  exact .head _

/-- An object that was read. -/
theorem safe_getOwn {raw id : Bytes} (hid : slot.named json raw = some id)
    (hhit : Hit json slot returned raw x) :
    Eff.Safe (recordRules ext cfg json fuel slot returned 0)
      (fun r σ' x' => σ' = σ ∧ (∀ d, r = .ok (some d) → returned = false → Backed json slot x') ∧
        (r = .ok none → returned = false)) (Cas.get id) σ x := by
  refine safe_own fun x₁ hx₁ haside => ⟨nofun, ?_⟩
  rintro ch r ⟨s₂, w₂⟩ x₃ hexec hw - hx₃ haside'
  have hhit₁ := hhit.aside haside hx₁
  cases hexec
  dsimp only at hw
  subst hw
  have hlookup {o : Option Bytes} (hr : (ch.lookup id ((x₁.1.model 0).view.blobs id) : Except Err _) =
      .ok o) : (x₁.1.model 0).view.blobs id = o := (Choice.lookup_ok hr).symm
  refine ⟨rfl, fun d hr hreturned => ?_, fun hr => hhit₁.returned_of_missed hx₁ hid ?_⟩
  · refine (haside'.minds hx₃).backed hreturned ⟨raw, id, ?_, hhit₁.found id hid ?_, hid⟩
    · unfold Watch.next keep
      dsimp only at hr ⊢
      rw [hr]
      exact .head _
    · rw [hlookup hr]
      rfl
  · rw [hlookup hr]
    rfl

/-- What the look for a path or a derivation ends in: if it is valid, the record is of an object that was
found; once the process 0 has returned, it is valid. -/
def Sought (json : Json) (slot : Slot) (returned : Bool) (mine : Slot) {β : Type}
    (r : Except Err (Option β)) (x : Sys × Watch) : Prop :=
  slot = mine → (∀ b, r = .ok (some b) → returned = false → Backed json slot x) ∧
    (r = .ok none → returned = false)

/-- An exception says nothing. -/
theorem Sought.error {mine : Slot} {β : Type} {e : Err} :
    Sought json slot returned mine (.error e : Except Err (Option β)) x := fun _ => ⟨nofun, nofun⟩

/-- The look for a path. -/
theorem safe_pathRecordOwn {cfg₀ : Config} {path : Bytes} (hx : WriterInv json slot returned x)
    (hσ : Queues (Beside slot) σ) :
    Eff.Safe (recordRules ext cfg json fuel slot returned 0)
      (fun r σ' x' => Queues (Beside slot) σ' ∧ Sought json slot returned (.path path) r x')
      (pathRecord cfg₀ json path) σ x := by
  unfold pathRecord
  refine Eff.Safe.seq (recordRules_refl 0) hx safe_metaGetOwn ?_ fun _ _ _ _ h => ⟨h.1 ▸ hσ, .error⟩
  rintro raw σ₁ x₁ hx₁ ⟨rfl, hread⟩
  split
  · exact Eff.Safe.pure fun _ _ _ => ⟨hσ, fun hslot => ⟨nofun, fun _ => (hread (hslot ▸ rfl)).1 rfl⟩⟩
  · next raw =>
    cases hdec : json.decode raw with
    | error e => exact Eff.Safe.throw fun _ _ _ => ⟨hσ, .error⟩
    | ok rec =>
      rw [Eff.ofExcept_ok, pure_bind]
      have hhas : Eff.Safe (recordRules ext cfg json fuel slot returned 0)
          (fun r σ' x' => σ' = σ₁ ∧ (slot = .path path →
            (r = .ok true → returned = false → Backed json slot x') ∧ (r = .ok false → returned = false)))
          (Cas.has rec.rootId) σ₁ x₁ := by
        by_cases hslot : slot = .path path
        · have hnamed : slot.named json raw = some rec.rootId := by
            rw [hslot]
            unfold Slot.named
            dsimp only
            rw [hdec]
            rfl
          refine (safe_hasOwn hnamed ((hread (hslot ▸ rfl)).2 raw rfl)).mono ?_
          exact fun _ _ _ _ h => ⟨h.1, fun _ => h.2⟩
        · refine safe_own fun _ _ _ => ⟨nofun, fun _ _ _ _ _ _ _ _ _ => ⟨rfl, fun h => absurd h hslot⟩⟩
      refine Eff.Safe.seq (recordRules_refl 0) hx₁ hhas ?_ fun _ _ _ _ h => ⟨h.1 ▸ hσ, .error⟩
      rintro present _ x₂ hx₂ ⟨rfl, hfound⟩
      split
      · next habsent =>
        have hdel : Eff.Makes (KeepsOff slot) (fun r σ' => Queues (Beside slot) σ' ∧
            ∀ rec : PathRecord, r ≠ .ok (some rec))
            (do Cas.metaDel (kPathPrefix ++ path); pure none : TreeM (Option PathRecord)) _ :=
          Eff.Makes.seq (T := fun _ σ' => Queues (Beside slot) σ') (makes_ask nofun fun _ => hσ)
            (fun _ _ h => .pure ⟨h, nofun⟩) fun _ _ h => ⟨h, nofun⟩
        refine (safe_keepsOff hdel hx₂).mono ?_
        rintro r σ' x' - ⟨⟨hσ', hr⟩, -⟩
        refine ⟨hσ', fun hslot => ⟨fun rec h => absurd h (hr rec), fun _ => (hfound hslot).2 ?_⟩⟩
        exact congrArg _ (by simpa using habsent)
      · next hpresent =>
        have htouch : Eff.Makes (KeepsOff slot) (fun r σ' => Queues (Beside slot) σ' ∧ r ≠ .ok none)
            (do touchRoot cfg₀ rec.rootId (decide (rec.rootType = .d)); pure (some rec) :
              TreeM (Option PathRecord)) _ :=
          (Eff.Makes.seq (makes_touchRoot (ownKeys_beside slot) hσ) (fun _ _ h => .pure ⟨h, nofun⟩)
            fun _ _ h => ⟨h, nofun⟩).mono (fun _ h => h.keepsOff) fun _ _ h => h
        refine (safe_keepsOff htouch hx₂).mono ?_
        rintro r σ' x' - ⟨⟨hσ', hr⟩, hminds⟩
        refine ⟨hσ', fun hslot => ⟨fun _ _ hfalse => hminds.backed hfalse ((hfound hslot).1 ?_ hfalse),
          fun h => absurd h hr⟩⟩
        exact congrArg _ (by simpa using hpresent)

/-- The look for a derivation. -/
theorem safe_drvTextOwn {cfg₀ : Config} {path : Bytes} (hx : WriterInv json slot returned x)
    (hσ : Queues (Beside slot) σ) :
    Eff.Safe (recordRules ext cfg json fuel slot returned 0)
      (fun r σ' x' => Queues (Beside slot) σ' ∧ Sought json slot returned (.drv path) r x')
      (drvText cfg₀ path) σ x := by
  unfold drvText
  refine Eff.Safe.seq (recordRules_refl 0) hx safe_metaGetOwn ?_ fun _ _ _ _ h => ⟨h.1 ▸ hσ, .error⟩
  rintro id σ₁ x₁ hx₁ ⟨rfl, hread⟩
  split
  · exact Eff.Safe.pure fun _ _ _ => ⟨hσ, fun hslot => ⟨nofun, fun _ => (hread (hslot ▸ rfl)).1 rfl⟩⟩
  · next id =>
    have hget : Eff.Safe (recordRules ext cfg json fuel slot returned 0)
        (fun r σ' x' => σ' = σ₁ ∧ (slot = .drv path →
          (∀ d, r = .ok (some d) → returned = false → Backed json slot x') ∧
          (r = .ok none → returned = false))) (Cas.get id) σ₁ x₁ := by
      by_cases hslot : slot = .drv path
      · have hnamed : slot.named json id = some id := by
          rw [hslot]
          rfl
        refine (safe_getOwn hnamed ((hread (hslot ▸ rfl)).2 id rfl)).mono ?_
        exact fun _ _ _ _ h => ⟨h.1, fun _ => h.2⟩
      · refine safe_own fun _ _ _ => ⟨nofun, fun _ _ _ _ _ _ _ _ _ => ⟨rfl, fun h => absurd h hslot⟩⟩
    refine Eff.Safe.seq (recordRules_refl 0) hx₁ hget ?_ fun _ _ _ _ h => ⟨h.1 ▸ hσ, .error⟩
    rintro contents _ x₂ hx₂ ⟨rfl, hfound⟩
    split
    · have hdel : Eff.Makes (KeepsOff slot) (fun r σ' => Queues (Beside slot) σ' ∧
          ∀ text : Bytes, r ≠ .ok (some text))
          (do Cas.metaDel (kDrvPrefix ++ path); pure none : TreeM (Option Bytes)) _ :=
        Eff.Makes.seq (T := fun _ σ' => Queues (Beside slot) σ') (makes_ask nofun fun _ => hσ)
          (fun _ _ h => .pure ⟨h, nofun⟩) fun _ _ h => ⟨h, nofun⟩
      refine (safe_keepsOff hdel hx₂).mono ?_
      rintro r σ' x' - ⟨⟨hσ', hr⟩, -⟩
      exact ⟨hσ', fun hslot => ⟨fun text h => absurd h (hr text), fun _ => (hfound hslot).2 rfl⟩⟩
    · next contents =>
      have htouch : Eff.Makes (KeepsOff slot) (fun r σ' => Queues (Beside slot) σ' ∧ r ≠ .ok none)
          (do touchRoot cfg₀ id false; pure (some contents) : TreeM (Option Bytes)) _ :=
        (Eff.Makes.seq (makes_touchRoot (ownKeys_beside slot) hσ) (fun _ _ h => .pure ⟨h, nofun⟩)
          fun _ _ h => ⟨h, nofun⟩).mono (fun _ h => h.keepsOff) fun _ _ h => h
      refine (safe_keepsOff htouch hx₂).mono ?_
      rintro r σ' x' - ⟨⟨hσ', hr⟩, hminds⟩
      exact ⟨hσ', fun hslot => ⟨fun _ _ hfalse => hminds.backed hfalse ((hfound hslot).1 contents rfl hfalse),
        fun h => absurd h hr⟩⟩

/-- A root is registered, and a record for its object is written and committed. -/
theorem safe_publishOwn {id key val : Bytes} {tree : Bool} (hx : WriterInv json slot returned x)
    (hσ : Queues (Beside slot) σ) (hid : id ∈ x.2.kept)
    (hnamed : key = slot.key → returned = false ∧ slot.named json val = some id) :
    Eff.Safe (recordRules ext cfg json fuel slot returned 0)
      (fun r σ' x' => Queues (Beside slot) σ' ∧ (r = .ok () → key = slot.key → Backed json slot x'))
      (do registerRoot id tree; Cas.metaPut key val; sync) σ x := by
  have hregister : Eff.Makes (KeepsOff slot) (fun _ σ' => Queues (Beside slot) σ')
      (registerRoot id tree) σ :=
    (makes_registerRoot (ownKeys_beside slot) hσ).mono (fun _ h => h.keepsOff) fun _ _ h => h
  refine Eff.Safe.seq (recordRules_refl 0) hx (safe_keepsOff hregister hx) ?_
    fun _ _ _ _ h => ⟨h.1, nofun⟩
  rintro _ σ₁ x₁ hx₁ ⟨hσ₁, hminds⟩
  refine Eff.Safe.seq (recordRules_refl 0) hx₁
    (safe_metaPutOwn fun hkey => ⟨(hnamed hkey).1, id, hminds.kept hid, (hnamed hkey).2⟩) ?_
    fun _ _ _ _ h => ⟨h.1 ▸ hσ₁, nofun⟩
  rintro _ _ x₂ hx₂ ⟨rfl, hbacked⟩
  have hsync := (makes_sync hσ₁).mono (fun _ h => h.keepsOff) fun _ _ h => h
  refine (safe_keepsOff hsync hx₂).mono ?_
  rintro r σ' x' - ⟨hσ', hminds'⟩
  exact ⟨hσ', fun _ hkey => hminds'.backed (hnamed hkey).1 (hbacked rfl hkey)⟩

/-- An object is stored for a path that was looked for in vain. -/
theorem safe_storeObjectOwn (hjson : json.Lawful) {info : PathInfo} {file : FsNode}
    (hx : WriterInv json slot returned x) (hσ : Queues (Beside slot) σ)
    (hnew : slot = .path info.path → returned = false) :
    Eff.Safe (recordRules ext cfg json fuel slot returned 0)
      (fun r σ' x' => Queues (Beside slot) σ' ∧ (r = .ok () → slot = .path info.path →
        Backed json slot x')) (storeObject json info file) σ x := by
  unfold storeObject
  refine Eff.Safe.seq (recordRules_refl 0) hx (safe_ingestOwn hx) ?_
    fun _ _ _ _ h => ⟨h.1 ▸ hσ, nofun⟩
  rintro ⟨type, id⟩ _ x₁ hx₁ ⟨rfl, hid⟩
  dsimp only
  cases henc : json.encode ⟨type, id, info.narHash, info.narSize, info.ca, info.refs⟩ with
  | error e =>
    have hregister : Eff.Makes (KeepsOff slot) (fun r σ' => Queues (Beside slot) σ' ∧ r ≠ .ok ())
        (do registerRoot id (decide (type = .d)); Eff.throw e : TreeM Unit) _ :=
      Eff.Makes.seq ((makes_registerRoot (ownKeys_beside slot) hσ).mono (fun _ h => h.keepsOff)
        fun _ _ h => h) (fun _ _ h => .throw ⟨h, nofun⟩) fun _ _ h => ⟨h, nofun⟩
    refine (safe_keepsOff hregister hx₁).mono ?_
    rintro r σ' x' - ⟨⟨hσ', hr⟩, -⟩
    exact ⟨hσ', fun h => absurd h hr⟩
  | ok val =>
    refine (safe_publishOwn hx₁ hσ (hid type id rfl) fun hkey => ?_).mono ?_
    · have hslot := slot.eq_path hkey
      refine ⟨hnew hslot, ?_⟩
      rw [hslot]
      unfold Slot.named
      dsimp only
      rw [hjson _ _ henc]
      rfl
    · rintro r σ' x' - ⟨hσ', hbacked⟩
      exact ⟨hσ', fun hr hslot => hbacked hr (hslot ▸ rfl)⟩

/-- A derivation is stored that was looked for in vain. -/
theorem safe_storeDerivationOwn {path contents : Bytes} (hx : WriterInv json slot returned x)
    (hσ : Queues (Beside slot) σ) (hnew : slot = .drv path → returned = false) :
    Eff.Safe (recordRules ext cfg json fuel slot returned 0)
      (fun r σ' x' => Queues (Beside slot) σ' ∧ (r = .ok () → slot = .drv path →
        Backed json slot x')) (storeDerivation path contents) σ x := by
  unfold storeDerivation
  refine Eff.Safe.seq (recordRules_refl 0) hx safe_putOwn ?_ fun _ _ _ _ h => ⟨h.1 ▸ hσ, nofun⟩
  rintro id _ x₁ hx₁ ⟨rfl, hid⟩
  refine (safe_publishOwn hx₁ hσ (hid id rfl) fun hkey => ?_).mono ?_
  · have hslot := slot.eq_drv hkey
    refine ⟨hnew hslot, ?_⟩
    rw [hslot]
    rfl
  · rintro r σ' x' - ⟨hσ', hbacked⟩
    exact ⟨hσ', fun hr hslot => hbacked hr (hslot ▸ rfl)⟩

/-- What the operations of the writing process do. -/
theorem safe_codeOwn (hjson : json.Lawful) {cfg₀ : Config} (op : RecordOp)
    (hx : WriterInv json slot returned x) (hσ : Queues (Beside slot) σ) :
    Eff.Safe (recordRules ext cfg json fuel slot returned 0)
      (fun r σ' x' => Queues (Beside slot) σ' ∧ (r = .ok () → op.Writes slot → returned = false →
        Backed json slot x')) (op.code cfg₀ json fuel) σ x := by
  have hreads (hop : op.reads = true) (hno : ¬op.Writes slot) :
      Eff.Safe (recordRules ext cfg json fuel slot returned 0)
        (fun r σ' x' => Queues (Beside slot) σ' ∧ (r = .ok () → op.Writes slot → returned = false →
          Backed json slot x')) (op.code cfg₀ json fuel) σ x :=
    (safe_keepsOff ((makes_reads hop hσ).mono (fun _ h => h.2) fun _ _ h => h) hx).mono
      fun _ _ _ _ h => ⟨h.1, fun _ hw => absurd hw hno⟩
  cases op with
  | pathRecord | drvText | maybeGc => exact hreads rfl fun h => h
  | addToStore info file =>
    unfold RecordOp.code addObject
    refine Eff.Safe.seq (recordRules_refl 0) hx (safe_pathRecordOwn hx hσ) ?_
      fun _ _ _ _ h => ⟨h.1, nofun⟩
    rintro found σ₁ x₁ hx₁ ⟨hσ₁, hsought⟩
    cases found with
    | some rec =>
      exact Eff.Safe.pure fun x' hx' haside => ⟨hσ₁, fun _ hw hfalse =>
        ((haside rfl).minds hx').backed hfalse ((hsought hw).1 rec rfl hfalse)⟩
    | none =>
      refine (safe_storeObjectOwn hjson hx₁ hσ₁ fun hslot => (hsought hslot).2 rfl).mono ?_
      exact fun _ _ _ _ h => ⟨h.1, fun hr hw _ => h.2 hr hw⟩
  | writeDerivation path contents =>
    unfold RecordOp.code Tree.writeDerivation
    refine Eff.Safe.seq (recordRules_refl 0) hx (safe_drvTextOwn hx hσ) ?_
      fun _ _ _ _ h => ⟨h.1, nofun⟩
    rintro found σ₁ x₁ hx₁ ⟨hσ₁, hsought⟩
    cases found with
    | some text =>
      exact Eff.Safe.pure fun x' hx' haside => ⟨hσ₁, fun _ hw hfalse =>
        ((haside rfl).minds hx').backed hfalse ((hsought hw).1 text rfl hfalse)⟩
    | none =>
      refine (safe_storeDerivationOwn hx₁ hσ₁ fun hslot => (hsought hslot).2 rfl).mono ?_
      exact fun _ _ _ _ h => ⟨h.1, fun hr hw _ => h.2 hr hw⟩

end

/-! ## All processes together -/

/-- What is kept between two operations: the queue holds touches of roots. -/
def RecordQueue (slot : Slot) (_ : Nat) (σ : Pending) (_ : Sys × Watch) : Prop :=
  Queues (Beside slot) σ

/-- What an operation of the process 0 has done when it returns. -/
def RecordDone (json : Json) (slot : Slot) (returned : Bool) (p : Nat) (op : RecordOp)
    (a : Except Err Unit) (_ : Pending) (x : Sys × Watch) : Prop :=
  p = 0 → a = .ok () → op.Writes slot → returned = false → Backed json slot x

section

variable {ext : Ext} {cfg : Nat → Config} {json : Json} {fuel : Nat} {slot : Slot} {returned : Bool}
  {x : Sys × Watch} {p : Nat}

/-- A program of another process. -/
theorem safe_bystander (hp : p ≠ 0) {α : Type} {Q : α → Prop} {m : Prog sig α}
    (hm : m.Makes (Bystands slot) Q) (hx : WriterInv json slot returned x) :
    m.Safe (recordRules ext cfg json fuel slot returned p) (fun a _ => Q a) x := by
  refine Prog.Safe.mono (fun _ _ _ h => h.1) (Prog.Safe.of_makes (P := Bystands slot)
    (T := fun _ _ => True) (fun _ => trivial) (fun _ _ _ _ _ => trivial) (fun _ _ _ _ _ => trivial)
    ?_ hm hx)
  intro c x₁ hc hx₁
  refine Rules.blocking_step ?_
  rintro r ⟨s', w'⟩ ⟨ch, hok, hexec, hw⟩
  obtain ⟨hx₂, haside⟩ := hx₁.other hp hok hc.1 hc.2 hexec
  dsimp only at hw
  subst hw
  exact ⟨hx₂, fun _ => haside, trivial⟩

/-- A process that stands by is fine. -/
theorem fine_bystander (hp : p ≠ 0) {g : Process sig RecordOp Pending (Except Err Unit)}
    (hg : g.Makes (Bystands slot) (Queues (Beside slot))) (hx : WriterInv json slot returned x) :
    Machine.Fine (recordRules ext cfg json fuel slot returned p) (RecordQueue slot p)
      (RecordDone json slot returned p) x g := by
  cases g with
  | idle σ => exact fun _ _ _ => hg
  | running op m =>
    exact Prog.Safe.mono (fun _ _ _ h => ⟨h, fun h0 => absurd h0 hp⟩) (safe_bystander hp hg hx)

/-- The rules fit together. -/
theorem recordMachine_composable (hjson : json.Lawful) :
    (recordMachine ext (fun p c x _ => spares json slot returned p c x) cfg json fuel slot).Composable
      (WriterInv json slot returned) (recordRules ext cfg json fuel slot returned) (RecordQueue slot)
      (RecordDone json slot returned) where
  sem _ := rfl
  inv _ _ := Iff.rfl
  refl p x := recordRules_refl p x
  trans p x₁ x₂ x₃ _ _ h h' hp := (h hp).trans (h' hp)
  guar p q hpq x x' _ _ h hq := h fun hp => hpq (hp.trans hq.symm)
  code p op σ x hx hσ := by
    have hqueue : Queues (Beside slot) σ := hσ x hx (recordRules_refl p x)
    by_cases hp : p = 0
    · subst hp
      have h : Eff.Safe (recordRules ext cfg json fuel slot returned 0) _ (op.code (cfg 0) json fuel) σ x :=
        safe_codeOwn hjson op hx hqueue
      exact Prog.Safe.mono (fun _ _ _ h => ⟨h.1, fun _ => h.2⟩) h
    · unfold recordMachine
      dsimp only
      split
      · next hop =>
        exact Prog.Safe.mono (fun _ _ _ h => ⟨h, fun h0 => absurd h0 hp⟩)
          (safe_bystander hp (makes_reads (hop.resolve_left hp) hqueue) hx)
      · exact fun _ _ _ => ⟨hqueue, fun h0 => absurd h0 hp⟩
  kill p x x' hx hkill := by
    obtain ⟨hp, rfl⟩ := hkill
    rw [Sys.drop_of_none (hx.alone p hp)]
    exact ⟨hx, fun _ => Aside.refl x, fun _ _ _ => nofun⟩

/-- The calls of a process: the others put nothing and do not write the record. -/
def Calls (slot : Slot) (p : Nat) (c : Call) : Prop := p ≠ 0 → Bystands slot c

/-- Every operation queues touches of roots only. -/
theorem makes_code {cfg₀ : Config} {op : RecordOp} {σ : Pending} (h : Queues (Beside slot) σ) :
    Eff.Makes (fun _ => True) (fun _ σ' => Queues (Beside slot) σ') (op.code cfg₀ json fuel) σ := by
  have hfree {P : Call → Prop} {α : Type} {m : TreeM α} {Q : Except Err α → Pending → Prop}
      {σ' : Pending} (hm : Eff.Makes P Q m σ') : Eff.Makes (fun _ => True) Q m σ' :=
    hm.mono (fun _ _ => trivial) fun _ _ h => h
  cases op with
  | pathRecord path => exact hfree (makes_reads rfl h)
  | drvText path => exact hfree (makes_reads rfl h)
  | maybeGc => exact hfree (makes_reads rfl h)
  | addToStore info file =>
    exact makes_addObject (ownKeys_beside slot) (fun _ _ => trivial) (fun _ _ => trivial)
      (fun _ => trivial) h
  | writeDerivation path contents =>
    exact makes_writeDerivation (ownKeys_beside slot) (fun _ _ => trivial) (fun _ _ => trivial)
      (fun _ => trivial) h

/-- What holds at any time: only the process 0 has a batch, what was seen is so, and every process does its
own calls. -/
structure Tended (json : Json) (slot : Slot)
    (x : (Nat → Process sig RecordOp Pending (Except Err Unit)) × (Sys × Watch)) : Prop where
  alone : ∀ p, p ≠ 0 → x.2.1.batch p = none
  looks : ∀ p, (x.2.2.look p).Sound json slot (x.2.1.model p).view
  makes : ∀ p, (x.1 p).Makes (Calls slot p) (Queues (Beside slot))

/-- A step, whatever the calls that are admitted. -/
theorem Tended.step {ok : Nat → Call → Sys × Watch → Choice → Prop}
    {y y' : (Nat → Process sig RecordOp Pending (Except Err Unit)) × (Sys × Watch)}
    {l : Nat × Act sig RecordOp (Except Err Unit)}
    (h : (recordMachine ext ok cfg json fuel slot).Step y l y') (hy : Tended json slot y) :
    Tended json slot y' := by
  have hcode (p : Nat) (op : RecordOp) (σ : Pending) (hσ : Queues (Beside slot) σ) :
      ((recordMachine ext ok cfg json fuel slot).code p op σ).Makes (Calls slot p)
        fun x => Queues (Beside slot) x.2 := by
    unfold recordMachine
    dsimp only
    split
    · next hop =>
      by_cases hp : p = 0
      · have hmakes : Eff.Makes (fun _ => True) (fun _ σ' => Queues (Beside slot) σ')
            (op.code (cfg p) json fuel) σ := makes_code hσ
        exact Prog.Makes.mono (fun _ _ h => absurd hp h) (fun _ h => h) hmakes
      · have hmakes : Eff.Makes (Bystands slot) (fun _ σ' => Queues (Beside slot) σ')
            (op.code (cfg p) json fuel) σ := makes_reads (hop.resolve_left hp) hσ
        exact Prog.Makes.mono (fun _ h _ => h) (fun _ h => h) hmakes
    · exact hσ
  obtain ⟨hmakes, hcall⟩ := h.makes hcode (fun _ => nofun) hy.makes
  have halone := hy.alone
  have hlooks := hy.looks
  cases h with
  | @move gs x x' p a g h =>
    generalize gs p = g₀ at h
    cases h with
    | start => exact ⟨halone, hlooks, hmakes⟩
    | done => exact ⟨halone, hlooks, hmakes⟩
    | kill hkill =>
      obtain ⟨hp, rfl⟩ := hkill
      have hsame : x.1.drop p = x.1 := Sys.drop_of_none (halone p hp)
      refine ⟨?_, ?_, hmakes⟩
      · dsimp only
        rw [hsame]
        exact halone
      · dsimp only
        rw [hsame]
        exact hlooks
    | call hsem =>
      obtain ⟨ch, -, hx, hw⟩ := hsem
      refine ⟨fun i hi => ?_, fun q => ?_, hmakes⟩
      · by_cases hp : p = 0
        · subst hp
          exact exec_batch hi (halone i hi) hx
        · exact (exec_other hp halone (hcall _ rfl hp).1 hx).1 i hi
      · dsimp only
        rw [hw]
        exact Watch.sound_next hlooks hx q

/-- What every process is good for when an addition begins, or has just ended. -/
theorem Tended.fine {y : (Nat → Process sig RecordOp Pending (Except Err Unit)) × (Sys × Watch)}
    {σ : Pending} (hy : Tended json slot y) (hx : WriterInv json slot returned y.2) (hσ : y.1 0 = .idle σ)
    (p : Nat) : Machine.Fine (recordRules ext cfg json fuel slot returned p) (RecordQueue slot p)
      (RecordDone json slot returned p) y.2 (y.1 p) := by
  by_cases hp : p = 0
  · subst hp
    have hqueue := hy.makes 0
    rw [hσ] at hqueue ⊢
    exact fun _ _ _ => hqueue
  · refine fine_bystander hp ?_ hx
    have hmakes := hy.makes p
    cases hg : y.1 p with
    | idle σ =>
      rw [hg] at hmakes
      exact hmakes
    | running op m =>
      rw [hg] at hmakes
      exact Prog.Makes.mono (fun _ h => h hp) (fun _ h => h) hmakes

end

/-- Process 0 adds a path, or writes a derivation, while others read it and collect. Let no process delete
the record when it was written, or its object put, since that process found the object missing, and let
no collection remove what process 0 has put or found since it began the addition, until that returns.
Then the record is valid from the time process 0 has returned until a collection removes its object. -/
theorem record_stays {ext : Ext} {cfg : Nat → Config} {json : Json} {fuel : Nat} {slot : Slot}
    {s₀ s : Sys} {w : Watch} {σ : Pending} {op : RecordOp}
    {ls₁ ls₂ ls₃ : List (Nat × Act sig RecordOp (Except Err Unit))}
    {gs : Nat → Process sig RecordOp Pending (Except Err Unit)}
    {y₁ y : (Nat → Process sig RecordOp Pending (Except Err Unit)) × (Sys × Watch)}
    (hjson : json.Lawful) (hs₀ : s₀.writer = none)
    (h₁ : Runs (recordMachine ext (fun _ _ _ _ => True) cfg json fuel slot).Step
      (atRest, (s₀, .none)) ls₁ (gs, (s, w)))
    (hidle : gs 0 = .idle σ)
    (h₂ : Runs (recordMachine ext (fun p c x _ => spares json slot false p c x) cfg json fuel slot).Step
      (gs, (s, { w with kept := [] })) (ls₂ ++ [(0, .done op (.ok ()))]) y₁)
    (h₃ : Runs (recordMachine ext (fun p c x _ => spares json slot true p c x) cfg json fuel slot).Step
      y₁ ls₃ y)
    (hop : op.Writes slot) : slot.Valid json (y.2.1.model 0).view := by
  have hbegin : Tended json slot (gs, (s, w)) := by
    refine h₁.invariant (I := Tended json slot) (fun hy h => Tended.step h hy)
      ⟨fun p _ => ?_, fun _ => trivial, fun p => ?_⟩
    · simp [Sys.batch, hs₀]
    · exact fun _ hm => absurd hm List.not_mem_nil
  have htended : Tended json slot (gs, (s, { w with kept := [] })) :=
    ⟨hbegin.alone, hbegin.looks, hbegin.makes⟩
  have hinv : WriterInv json slot false (s, { w with kept := [] }) :=
    ⟨hbegin.alone, hbegin.looks, fun _ _ hm => absurd hm List.not_mem_nil, fun h => by cases h⟩
  -- up to the end of the operation nothing is known of the record
  obtain ⟨y', hadds, hdone⟩ := h₂.split
  obtain ⟨hinv', hfine'⟩ := Machine.run_safe (recordMachine_composable hjson) hadds hinv
    (htended.fine hinv hidle)
  have htended' := hadds.invariant (I := Tended json slot) (fun hy h => Tended.step h hy) htended
  cases hdone with
  | cons hdone hnil =>
    cases hnil
    obtain ⟨σ₁, hidle₁, hsame, hbacked⟩ :=
      Machine.run_done (recordMachine_composable hjson) hdone hinv' hfine'
    -- from then on its validity is part of the invariant
    have htended₁ := Tended.step hdone htended'
    have hstored : WriterInv json slot false y₁.2 := hsame ▸ hinv'
    have hinv₁ : WriterInv json slot true y₁.2 := ⟨htended₁.alone, htended₁.looks,
      (fun h => by cases h), fun _ => (hbacked rfl rfl hop rfl).valid hstored⟩
    obtain ⟨hinv₂, -⟩ := Machine.run_safe (recordMachine_composable hjson) h₃ hinv₁
      (htended₁.fine hinv₁ hidle₁)
    exact hinv₂.valid rfl

/-! ## A path that is added while a reader looks at it -/

/-- Evaluates moves of processes that work on records, of which `check` admits the calls; no call fails. -/
def evalRecords (slot : Slot) (check : Nat → Call → Sys × Watch → Bool)
    (ok : Nat → Call → Sys × Watch → Choice → Prop) (ms : List (Nat × Machine.Move RecordOp Nat)) :
    (Nat → Process sig RecordOp Pending (Except Err Unit)) × (Sys × Watch) →
    Option (List (Nat × Act sig RecordOp (Except Err Unit)) ×
      (Nat → Process sig RecordOp Pending (Except Err Unit)) × (Sys × Watch)) :=
  (recordMachine .sample ok (fun _ => ⟨10, 0, 2⟩) .sample 2 slot).eval
    (fun p clock c x =>
      if check p c x then (exec .sample p { clock := clock } c x.1).map fun y =>
        (y.1, y.2, x.2.next .sample slot p c y.1 x.1 y.2)
      else none) ms

theorem runs_of_evalRecords {slot : Slot} {check : Nat → Call → Sys × Watch → Bool}
    {ok : Nat → Call → Sys × Watch → Choice → Prop}
    (hok : ∀ p c x clock, check p c x = true → ok p c x { clock := clock })
    {ms : List (Nat × Machine.Move RecordOp Nat)}
    {ls : List (Nat × Act sig RecordOp (Except Err Unit))}
    {y y' : (Nat → Process sig RecordOp Pending (Except Err Unit)) × (Sys × Watch)}
    (h : evalRecords slot check ok ms y = some (ls, y')) :
    Runs (recordMachine .sample ok (fun _ => ⟨10, 0, 2⟩) .sample 2 slot).Step y ls y' := by
  refine Machine.runs_of_eval (fun p clock c x r x' hx => ?_) h
  split at hx
  · next hc =>
    obtain ⟨z, hz, heq⟩ := Option.map_eq_some_iff.1 hx
    cases heq
    exact ⟨_, hok p c x clock hc, hz, rfl⟩
  · cases hx

/-- Calls that do not compact. -/
def noCompact : Call → Bool
  | .compact _ => false
  | _ => true

/-- Such a call is no collection. -/
theorem of_noCompact {c : Call} (h : noCompact c = true) :
    (none : Option Err) = none ∧ ∀ live, c ≠ .compact live := by
  refine ⟨rfl, ?_⟩
  rintro live rfl
  cases h

/-- Calls that do not delete the record. -/
def leavesRecord (slot : Slot) : Call → Bool
  | .metaDel key => decide (key ≠ slot.key)
  | _ => true

/-- Such a call does not delete the record. -/
theorem of_leavesRecord {slot : Slot} {c : Call} (h : leavesRecord slot c = true) :
    (none : Option Err) = none ∧ c ≠ .metaDel slot.key := by
  refine ⟨rfl, ?_⟩
  rintro rfl
  simp [leavesRecord] at h

/-- The queue of a process between two operations. -/
def idleQueue (g : Process sig RecordOp Pending (Except Err Unit)) : Option Pending :=
  match g with
  | .idle σ => some σ
  | .running .. => none

/-- What was seen of an idle process. -/
theorem eq_idle_of_idleQueue {g : Process sig RecordOp Pending (Except Err Unit)} {σ : Pending}
    (h : idleQueue g = some σ) : g = .idle σ := by
  cases g with
  | idle σ' =>
    cases h
    rfl
  | running op m => cases h

/-- What an addition that is at its end has added, and its queue. -/
def addedObject (g : Process sig RecordOp Pending (Except Err Unit)) :
    Option (PathInfo × FsNode × Pending) :=
  match g with
  | .running (.addToStore info file) (.ret (.ok (), σ)) => some (info, file, σ)
  | _ => none

/-- What was seen of one that has added an object. -/
theorem eq_running_of_addedObject {g : Process sig RecordOp Pending (Except Err Unit)}
    {info : PathInfo} {file : FsNode} {σ : Pending} (h : addedObject g = some (info, file, σ)) :
    g = .running (.addToStore info file) (.ret (.ok (), σ)) := by
  unfold addedObject at h
  split at h
  · cases h
    rfl
  · cases h

/-- The directory that is added: it holds one file. -/
def pathDir : FsNode := .directory [([97], .regular false [5])]

/-- The path that is added. -/
def onePath : PathInfo := ⟨[1], [], 0, [], []⟩

/-- Process 0 adds a directory at 1 and a file under another path at 6, process 1 collects the directory
at 12. At 13 process 1 finds the record of the directory without its object. -/
def collectedMoves : List (Nat × Machine.Move RecordOp Nat) :=
  (0, .start (.addToStore onePath pathDir)) :: List.replicate 7 (0, .go 1) ++ (0, .finish) ::
  (0, .start (.addToStore ⟨[2], [], 0, [], []⟩ (.regular false [6, 7]))) :: List.replicate 6 (0, .go 6) ++
  (0, .finish) :: (1, .start .maybeGc) :: List.replicate 9 (1, .go 12) ++
  [(1, .finish), (1, .start (.pathRecord [1])), (1, .go 13), (1, .go 13)]

/-- Process 0 adds the directory again. Process 1 deletes the record before that is written. -/
def addedMoves : List (Nat × Machine.Move RecordOp Nat) :=
  (0, .start (.addToStore onePath pathDir)) :: (0, .go 13) :: (1, .go 13) :: (1, .finish) ::
  List.replicate 8 (0, .go 13)

/-- Process 1 reads the record at 14, and collects the file at 17. -/
def laterMoves : List (Nat × Machine.Move RecordOp Nat) :=
  (1, .start (.pathRecord [1])) :: List.replicate 4 (1, .go 14) ++ (1, .finish) ::
  (1, .start .maybeGc) :: List.replicate 10 (1, .go 17) ++ [(1, .finish)]

/-- The directory is added again while a reader finds its record stale, and stays when another collection
removes the file. -/
theorem record_stays_sample : ∃ y : (Nat → Process sig RecordOp Pending (Except Err Unit)) × (Sys × Watch),
    (Slot.path [1]).Valid .sample (y.2.1.model 0).view ∧
    (y.2.1.model 0).view.blobs (Ext.sample.blake3 [6, 7]) = none := by
  have h : (evalRecords (.path [1]) (fun _ _ _ => true) (fun _ _ _ _ => True) collectedMoves
      (atRest, (.fresh, .none))).any (fun a => (idleQueue (a.2.1 0)).any fun _ =>
        (evalRecords (.path [1]) (spares .sample (.path [1]) false)
          (fun p c x _ => spares .sample (.path [1]) false p c x) addedMoves
          (a.2.1, (a.2.2.1, { a.2.2.2 with kept := [] }))).any fun b =>
            (addedObject (b.2.1 0)).any fun added => decide (added.1.path = [1]) &&
            (evalRecords (.path [1]) (spares .sample (.path [1]) true)
              (fun p c x _ => spares .sample (.path [1]) true p c x) laterMoves
              (Function.update b.2.1 0 (.idle added.2.2), b.2.2)).any fun c =>
                ((c.2.2.1.model 0).view.blobs (Ext.sample.blake3 [6, 7])).isNone) = true := by
    decide +kernel
  obtain ⟨⟨ls₁, gs, s, w⟩, ha, h⟩ := (Option.any_eq_true _ _).1 h
  obtain ⟨σ, hidle, h⟩ := (Option.any_eq_true _ _).1 h
  obtain ⟨⟨ls₂, gs', x⟩, hb, h⟩ := (Option.any_eq_true _ _).1 h
  obtain ⟨⟨info, file, σ'⟩, hadded, h⟩ := (Option.any_eq_true _ _).1 h
  obtain ⟨hpath, h⟩ := Bool.and_eq_true_iff.1 h
  obtain ⟨⟨ls₃, y⟩, hc, h⟩ := (Option.any_eq_true _ _).1 h
  have hg := eq_running_of_addedObject hadded
  have hpath' : info.path = [1] := of_decide_eq_true hpath
  refine ⟨y, record_stays Json.lawful_sample rfl
    (runs_of_evalRecords (fun _ _ _ _ _ => trivial) ha) (eq_idle_of_idleQueue hidle)
    ((runs_of_evalRecords (fun _ _ _ _ h => h) hb).append (.cons (Machine.step_done hg) .nil))
    (runs_of_evalRecords (fun _ _ _ _ h => h) hc) (congrArg Slot.path hpath'.symm), ?_⟩
  simpa using h

/-- A reader has found the record without its object. The directory is added again, and then the reader
deletes the record. Nothing has been collected since. -/
theorem record_lost : ∃ (ls₁ ls₂ ls₃ : List (Nat × Act sig RecordOp (Except Err Unit)))
    (gs : Nat → Process sig RecordOp Pending (Except Err Unit)) (s : Sys) (w : Watch) (σ : Pending)
    (op : RecordOp) (y₁ y : (Nat → Process sig RecordOp Pending (Except Err Unit)) × (Sys × Watch)),
    Runs (recordMachine .sample (fun _ _ _ ch => ch.fail = none) (fun _ => ⟨10, 0, 2⟩) .sample 2
      (.path [1])).Step (atRest, (.fresh, .none)) ls₁ (gs, (s, w)) ∧
    gs 0 = .idle σ ∧
    Runs (recordMachine .sample (fun _ c _ ch => ch.fail = none ∧ ∀ live, c ≠ .compact live)
      (fun _ => ⟨10, 0, 2⟩) .sample 2 (.path [1])).Step (gs, (s, { w with kept := [] }))
      (ls₂ ++ [(0, .done op (.ok ()))]) y₁ ∧
    Runs (recordMachine .sample (fun _ c _ ch => ch.fail = none ∧ ∀ live, c ≠ .compact live)
      (fun _ => ⟨10, 0, 2⟩) .sample 2 (.path [1])).Step y₁ ls₃ y ∧
    op.Writes (.path [1]) ∧ ¬(Slot.path [1]).Valid .sample (y.2.1.model 0).view := by
  have h : (evalRecords (.path [1]) (fun _ _ _ => true) (fun _ _ _ ch => ch.fail = none) collectedMoves
      (atRest, (.fresh, .none))).any (fun a => (idleQueue (a.2.1 0)).any fun _ =>
        (evalRecords (.path [1]) (fun _ c _ => noCompact c)
          (fun _ c _ ch => ch.fail = none ∧ ∀ live, c ≠ .compact live)
          ((0, .start (.addToStore onePath pathDir)) :: List.replicate 9 (0, .go 13))
          (a.2.1, (a.2.2.1, { a.2.2.2 with kept := [] }))).any fun b =>
            (addedObject (b.2.1 0)).any fun added => decide (added.1.path = [1]) &&
            (evalRecords (.path [1]) (fun _ c _ => noCompact c)
              (fun _ c _ ch => ch.fail = none ∧ ∀ live, c ≠ .compact live) [(1, .go 14), (1, .finish)]
              (Function.update b.2.1 0 (.idle added.2.2), b.2.2)).any fun c =>
                ((c.2.2.1.model 0).view.records.find? (Slot.path [1]).key).isNone) = true := by
    decide +kernel
  obtain ⟨⟨ls₁, gs, s, w⟩, ha, h⟩ := (Option.any_eq_true _ _).1 h
  obtain ⟨σ, hidle, h⟩ := (Option.any_eq_true _ _).1 h
  obtain ⟨⟨ls₂, gs', x⟩, hb, h⟩ := (Option.any_eq_true _ _).1 h
  obtain ⟨⟨info, file, σ'⟩, hadded, h⟩ := (Option.any_eq_true _ _).1 h
  obtain ⟨hpath, h⟩ := Bool.and_eq_true_iff.1 h
  obtain ⟨⟨ls₃, y⟩, hc, h⟩ := (Option.any_eq_true _ _).1 h
  have hg := eq_running_of_addedObject hadded
  have hpath' : info.path = [1] := of_decide_eq_true hpath
  refine ⟨ls₁, ls₂, ls₃, gs, s, w, σ, .addToStore info file, _, y,
    runs_of_evalRecords (fun _ _ _ _ _ => rfl) ha, eq_idle_of_idleQueue hidle,
    (runs_of_evalRecords (fun _ _ _ _ => of_noCompact) hb).append (.cons (Machine.step_done hg) .nil),
    runs_of_evalRecords (fun _ _ _ _ => of_noCompact) hc, congrArg Slot.path hpath'.symm, ?_⟩
  rintro ⟨val, id, hval, -⟩
  rw [hval] at h
  cases h

/-- The directory has expired when it is added again. Process 0 finds it there, process 1 collects it, and
process 0 returns. No record is deleted. -/
theorem record_swept : ∃ (ls₁ ls₂ : List (Nat × Act sig RecordOp (Except Err Unit)))
    (gs : Nat → Process sig RecordOp Pending (Except Err Unit)) (s : Sys) (w : Watch) (σ : Pending)
    (op : RecordOp) (y : (Nat → Process sig RecordOp Pending (Except Err Unit)) × (Sys × Watch)),
    Runs (recordMachine .sample (fun _ _ _ ch => ch.fail = none) (fun _ => ⟨10, 0, 2⟩) .sample 2
      (.path [1])).Step (atRest, (.fresh, .none)) ls₁ (gs, (s, w)) ∧
    gs 0 = .idle σ ∧
    Runs (recordMachine .sample (fun _ c _ ch => ch.fail = none ∧ c ≠ .metaDel (Slot.path [1]).key)
      (fun _ => ⟨10, 0, 2⟩) .sample 2 (.path [1])).Step (gs, (s, { w with kept := [] }))
      (ls₂ ++ [(0, .done op (.ok ()))]) y ∧
    op.Writes (.path [1]) ∧ ¬(Slot.path [1]).Valid .sample (y.2.1.model 0).view := by
  have h : (evalRecords (.path [1]) (fun _ _ _ => true) (fun _ _ _ ch => ch.fail = none)
      ((0, .start (.addToStore onePath pathDir)) :: List.replicate 7 (0, .go 1) ++ [(0, .finish)])
      (atRest, (.fresh, .none))).any (fun a => (idleQueue (a.2.1 0)).any fun _ =>
        (evalRecords (.path [1]) (fun _ c _ => leavesRecord (.path [1]) c)
          (fun _ c _ ch => ch.fail = none ∧ c ≠ .metaDel (Slot.path [1]).key)
          ((0, .start (.addToStore onePath pathDir)) :: List.replicate 4 (0, .go 12) ++
            (1, .start .maybeGc) :: List.replicate 9 (1, .go 12) ++ [(1, .finish)])
          (a.2.1, (a.2.2.1, { a.2.2.2 with kept := [] }))).any fun b =>
            (addedObject (b.2.1 0)).any fun added => decide (added.1.path = [1]) &&
            ((b.2.2.1.model 0).view.records.find? (Slot.path [1]).key).all fun val =>
              ((Slot.path [1]).named .sample val).all fun id =>
                ((b.2.2.1.model 0).view.blobs id).isNone) = true := by
    decide +kernel
  obtain ⟨⟨ls₁, gs, s, w⟩, ha, h⟩ := (Option.any_eq_true _ _).1 h
  obtain ⟨σ, hidle, h⟩ := (Option.any_eq_true _ _).1 h
  obtain ⟨⟨ls₂, gs', x⟩, hb, h⟩ := (Option.any_eq_true _ _).1 h
  obtain ⟨⟨info, file, σ'⟩, hadded, h⟩ := (Option.any_eq_true _ _).1 h
  obtain ⟨hpath, h⟩ := Bool.and_eq_true_iff.1 h
  have hg := eq_running_of_addedObject hadded
  have hpath' : info.path = [1] := of_decide_eq_true hpath
  refine ⟨ls₁, ls₂, gs, s, w, σ, .addToStore info file, _,
    runs_of_evalRecords (fun _ _ _ _ _ => rfl) ha, eq_idle_of_idleQueue hidle,
    (runs_of_evalRecords (fun _ _ _ _ => of_leavesRecord) hb).append (.cons (Machine.step_done hg) .nil),
    congrArg Slot.path hpath'.symm, ?_⟩
  rintro ⟨val, id, hval, hnamed, hsome⟩
  rw [hval, Option.all_some, hnamed, Option.all_some] at h
  rw [Option.isNone_iff_eq_none.1 h] at hsome
  cases hsome

end Tarmac.Tree
