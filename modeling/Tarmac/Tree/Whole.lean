import Tarmac.Tree.Solo

/-!
# Whole trees

What the records of the meta table rely on: a reference (a type and an id) is `Whole` in an index
when every object that can be reached from it is there, and what is reached as a directory is one.
Wholeness only depends on what is reached, so it survives everything that adds objects
(`Whole.mono`).
-/

namespace Tarmac.Tree

open PackCas

/-- A reference to an object. -/
abbrev Ref : Type := EntryType × Bytes

/-- The reference an entry makes. -/
def TreeEntry.ref (e : TreeEntry) : Ref := (e.type, e.id)

/-- One reference leads to another through the entries of directories. -/
inductive Reach (M : BlobMap) : Ref → Ref → Prop where
  | refl {x : Ref} : Reach M x x
  | step {id buf : Bytes} {es : List TreeEntry} {e : TreeEntry} {y : Ref} (hbuf : M id = some buf)
      (hes : decodeTree buf = .ok es) (he : e ∈ es) (hy : Reach M e.ref y) : Reach M (.d, id) y

/-- The object of a reference is there, and is a directory where it has to be one. -/
def Present (M : BlobMap) (x : Ref) : Prop :=
  ∃ d, M x.2 = some d ∧ (x.1 = .d → ∃ es, decodeTree d = .ok es)

/-- Everything that can be reached is there. -/
def Whole (M : BlobMap) (x : Ref) : Prop := ∀ y, Reach M x y → Present M y

/-- One index has all blobs of another. -/
def Grows (M M' : BlobMap) : Prop := ∀ h d, M h = some d → M' h = some d

namespace Grows

/-- A map grows into itself. -/
theorem refl (M : BlobMap) : Grows M M := fun _ _ h => h

/-- It grows step by step. -/
theorem trans {M₁ M₂ M₃ : BlobMap} (h : Grows M₁ M₂) (h' : Grows M₂ M₃) : Grows M₁ M₃ :=
  fun k d hk => h' k d (h k d hk)

/-- It grows when a blob is added. -/
theorem add (M : BlobMap) (h d : Bytes) : Grows M (M.add h d) := by
  intro k d' hk
  unfold BlobMap.add
  split
  · next hc =>
    obtain ⟨rfl, hnone⟩ := hc
    rw [hk] at hnone
    cases hnone
  · exact hk

end Grows

/-- What is present stays so. -/
theorem Present.mono {M M' : BlobMap} {x : Ref} (h : Grows M M') (hx : Present M x) :
    Present M' x := by
  obtain ⟨d, hd, ht⟩ := hx
  exact ⟨d, h _ _ hd, ht⟩

/-- Reaching through a whole tree takes place in the smaller index. -/
theorem Reach.of_grows {M M' : BlobMap} (h : Grows M M') {x y : Ref} (hy : Reach M' x y)
    (hx : Whole M x) : Reach M x y := by
  induction hy with
  | refl => exact .refl
  | @step id buf es e y hbuf hes he _ ih =>
    obtain ⟨buf', hbuf', -⟩ := hx _ .refl
    obtain rfl : buf' = buf := Option.some.inj ((h _ _ hbuf').symm.trans hbuf)
    exact .step hbuf' hes he (ih fun z hz => hx z (.step hbuf' hes he hz))

/-- What is reached stays so. -/
theorem Reach.mono {M M' : BlobMap} (h : Grows M M') {x y : Ref} (hy : Reach M x y) :
    Reach M' x y := by
  induction hy with
  | refl => exact .refl
  | step hbuf hes he _ ih => exact .step (h _ _ hbuf) hes he ih

/-- What is whole stays so. -/
theorem Whole.mono {M M' : BlobMap} {x : Ref} (h : Grows M M') (hx : Whole M x) : Whole M' x :=
  fun y hy => (hx y (hy.of_grows h hx)).mono h

/-- What is whole is present. -/
theorem Whole.present {M : BlobMap} {x : Ref} (h : Whole M x) : Present M x := h x .refl

/-- A leaf is whole when it is there. -/
theorem whole_leaf {M : BlobMap} {t : LeafType} {id : Bytes} :
    Whole M (.leaf t, id) ↔ ∃ d, M id = some d := by
  constructor
  · intro h
    obtain ⟨d, hd, -⟩ := h.present
    exact ⟨d, hd⟩
  · rintro ⟨d, hd⟩ y hy
    cases hy
    exact ⟨d, hd, nofun⟩

/-- A directory is whole when it is there and its entries are whole. -/
theorem whole_dir {M : BlobMap} {id buf : Bytes} {es : List TreeEntry} (hbuf : M id = some buf)
    (hes : decodeTree buf = .ok es) : Whole M (.d, id) ↔ ∀ e ∈ es, Whole M e.ref := by
  constructor
  · intro h e he y hy
    exact h y (.step hbuf hes he hy)
  · intro h y hy
    cases hy with
    | refl => exact ⟨buf, hbuf, fun _ => ⟨es, hes⟩⟩
    | step hbuf' hes' he hy =>
      obtain rfl := Option.some.inj (hbuf.symm.trans hbuf')
      obtain rfl := Except.ok.inj (hes.symm.trans hes')
      exact h _ he y hy

/-! ## Records -/

/-- The type of what a root record keeps alive; a blob root keeps a single object. -/
def rootType (tree : Bool) : EntryType := if tree then .d else .leaf .r

/-- A record of the meta table refers to a whole tree. -/
structure RecordOk (json : Json) (M : BlobMap) (key val : Bytes) : Prop where
  root : ∀ root tree, key = rootKey root tree → Whole M (rootType tree, root)
  path : ∀ path rec, key = kPathPrefix ++ path → json.decode val = .ok rec →
    Whole M (rec.rootType, rec.rootId)
  drv : ∀ path, key = kDrvPrefix ++ path → Whole M (.leaf .r, val)

/-- Every record of a store refers to a whole tree. -/
def RecordsOk (json : Json) (s : Store) : Prop :=
  ∀ key val, s.records.find? key = some val → RecordOk json s.blobs key val

/-- No two byte strings for which `S` is true have the same hash. -/
def NoCollision (ext : Ext) (S : Bytes → Prop) : Prop :=
  ∀ d d', S d → S d' → ext.blake3 d = ext.blake3 d' → d = d'

/-- No two contents of the list have one hash. -/
def isInjective (ext : Ext) (l : List Bytes) : Bool :=
  l.all fun d => l.all fun d' => decide (ext.blake3 d = ext.blake3 d' → d = d')

/-- Blobs whose hashes were compared do not collide. -/
theorem noCollision_of_isInjective {ext : Ext} {l : List Bytes} (h : isInjective ext l = true) :
    NoCollision ext (· ∈ l) := by
  intro d d' hd hd' heq
  exact of_decide_eq_true (List.all_eq_true.1 (List.all_eq_true.1 h d hd) d' hd') heq

/-- The blobs are filed under their hashes, and `S` is true of them. -/
def Indexed (ext : Ext) (S : Bytes → Prop) (M : BlobMap) : Prop :=
  ∀ h d, M h = some d → S d ∧ ext.blake3 d = h

/-- A record stays sound. -/
theorem RecordOk.mono {json : Json} {M M' : BlobMap} {key val : Bytes} (h : Grows M M')
    (hr : RecordOk json M key val) : RecordOk json M' key val where
  root root tree hk := (hr.root root tree hk).mono h
  path path rec hk hrec := (hr.path path rec hk hrec).mono h
  drv path hk := (hr.drv path hk).mono h

/-- The key of a root gives it away. -/
theorem rootKey_injective {root root' : Bytes} {tree tree' : Bool}
    (h : rootKey root tree = rootKey root' tree') : root = root' ∧ tree = tree' := by
  rw [rootKey_cons, rootKey_cons] at h
  cases tree <;> cases tree' <;> simp_all

/-- The record of a whole tree is sound. -/
theorem recordOk_root {json : Json} {M : BlobMap} {root val : Bytes} {tree : Bool}
    (h : Whole M (rootType tree, root)) : RecordOk json M (rootKey root tree) val where
  root root' tree' hk := by
    obtain ⟨rfl, rfl⟩ := rootKey_injective hk
    exact h
  path path rec hk := by
    rw [rootKey_cons] at hk
    cases tree <;> simp [kPathPrefix, ascii] at hk
  drv path hk := by
    rw [rootKey_cons] at hk
    cases tree <;> simp [kDrvPrefix, ascii] at hk

/-- So is the record of a path whose object is. -/
theorem recordOk_path {json : Json} {M : BlobMap} (path : Bytes) {val : Bytes} {rec : PathRecord}
    (hval : json.decode val = .ok rec) (h : Whole M (rec.rootType, rec.rootId)) :
    RecordOk json M (kPathPrefix ++ path) val where
  root root' tree' hk := by
    rw [rootKey_cons] at hk
    cases tree' <;> simp [kPathPrefix, ascii] at hk
  path path' rec' _ hrec := by
    obtain rfl := Except.ok.inj (hval.symm.trans hrec)
    exact h
  drv path' hk := by simp [kPathPrefix, kDrvPrefix, ascii] at hk

/-- So is that of a derivation whose text is there. -/
theorem recordOk_drv {json : Json} {M : BlobMap} {path val : Bytes} (h : Whole M (.leaf .r, val)) :
    RecordOk json M (kDrvPrefix ++ path) val where
  root root' tree' hk := by
    rw [rootKey_cons] at hk
    cases tree' <;> simp [kDrvPrefix, ascii] at hk
  path path' rec' hk := by simp [kPathPrefix, kDrvPrefix, ascii] at hk
  drv path' _ := h

/-- Records stay sound when a blob is added. -/
theorem RecordsOk.add {json : Json} {s : Store} (h : RecordsOk json s) (k d : Bytes) :
    RecordsOk json (s.add k d) :=
  fun key val hkey => (h key val hkey).mono (.add _ _ _)

theorem RecordsOk.putRecord {json : Json} {s : Store} {key val : Bytes} (h : RecordsOk json s)
    (hr : RecordOk json s.blobs key val) : RecordsOk json (s.putRecord key val) := by
  intro key' val' hkey
  unfold Store.putRecord at hkey
  dsimp only at hkey
  rw [SortedMap.find?_insert] at hkey
  split at hkey
  · next heq =>
    cases hkey
    subst heq
    exact hr
  · exact h key' val' hkey

theorem RecordsOk.delRecord {json : Json} {s : Store} {key : Bytes} (h : RecordsOk json s) :
    RecordsOk json (s.delRecord key) := by
  intro key' val' hkey
  unfold Store.delRecord at hkey
  dsimp only at hkey
  rw [SortedMap.find?_erase] at hkey
  split at hkey
  · cases hkey
  · exact h key' val' hkey

/-- Blobs stay filed under their hashes when one is added that may be put. -/
theorem Indexed.add {ext : Ext} {S : Bytes → Prop} {M : BlobMap} {d : Bytes} (h : Indexed ext S M)
    (hd : S d) : Indexed ext S (M.add (ext.blake3 d) d) := by
  intro k d' hk
  unfold BlobMap.add at hk
  split at hk
  · next hc =>
    cases hk
    exact ⟨hd, hc.1.symm⟩
  · exact h k d' hk

/-- After a put the blob is there, unless it collides with another. -/
theorem Indexed.find_add {ext : Ext} {S : Bytes → Prop} {M : BlobMap} {d : Bytes}
    (hS : ∀ d d', S d → S d' → ext.blake3 d = ext.blake3 d' → d = d') (h : Indexed ext S M)
    (hd : S d) : M.add (ext.blake3 d) d (ext.blake3 d) = some d := by
  unfold BlobMap.add
  cases hM : M (ext.blake3 d) with
  | none => exact if_pos ⟨rfl, rfl⟩
  | some d' =>
    obtain ⟨hd', heq⟩ := h _ _ hM
    rw [if_neg (fun hc => by cases hc.2), hS d' d hd' hd heq]

/-! ## A stand-in for the JSON library -/

/-- Encodes records that are nothing but a reference. -/
def Json.sample : Json where
  encode rec :=
    if rec = ⟨rec.rootType, rec.rootId, [], 0, [], []⟩ then .ok (rec.rootType.byte :: rec.rootId)
    else .error .lengthError
  decode val :=
    match val with
    | [] => .error .lengthError
    | b :: id =>
      match EntryType.ofByte b with
      | some type => .ok ⟨type, id, [], 0, [], []⟩
      | none => .error .lengthError

/-- The sample codec keeps the laws. -/
theorem Json.lawful_sample : Json.sample.Lawful := by
  intro rec val h
  unfold sample at h ⊢
  dsimp only at h ⊢
  split at h
  · next heq =>
    cases h
    dsimp only
    rw [EntryType.ofByte_byte]
    exact congrArg Except.ok heq.symm
  · cases h

end Tarmac.Tree
