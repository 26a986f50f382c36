import Tarmac.PackCas.Batch

/-!
# Lookups and reads

`lookup`, `locate`, `get`, `get_view`, `size` and `has` only look (`Steady`), so they are safe in
every setting. What they return is said in terms of the tables and the pack the process sees
(`Sees`): the working copy of its own batch, or a snapshot of the committed tables taken while the
operation ran. An entry that the pack covers is read back whatever other processes do meanwhile, as
long as they do not compact (`Backed`).
-/

namespace Tarmac.PackCas

variable {S : Setting} {p : Nat} {w w' w'' : World} {i i' i'' : Impl} {m : Mapping} {hash : Bytes}

/-- The handle is open, with or without a batch. -/
def Ready (S : Setting) (p : Nat) (i : Impl) (w : World) : Prop :=
  Idle p i w ∨ ∃ g ino t, Batch S p i w g ino t

/-- Only `pwrite` may fail. -/
def Setting.Reliable (S : Setting) : Prop := ∀ c, S.CanFail c → ∃ i off d, c = .pwrite i off d

/-- In a sound setting only `pwrite` may fail. -/
theorem Setting.reliable_of_sound (hS : S.sound) : S.Reliable :=
  fun c ⟨n, hn⟩ => S.reliable hS c n hn

/-- Any other call does not fail. -/
theorem Setting.Reliable.elim (h : S.Reliable) {c : Call} (hc : ∀ i off d, c ≠ .pwrite i off d) :
    ¬S.CanFail c := fun hf => by
  obtain ⟨i, off, d, rfl⟩ := h c hf
  exact hc i off d rfl

/-- An operation that only looks: the store moved as the others moved it, and the handle may have
new mappings. -/
structure Steady (S : Setting) (p : Nat) (i : Impl) (w : World) (i' : Impl) (w' : World) :
    Prop where
  rely : Rely S p w w'
  handle : HandleOk i' w'
  same : i.SameBatch i'
  cur : i.wtxn = true → i'.cur = i.cur

/-- The mappings of a handle that is ready are good. -/
theorem Ready.handle (h : Ready S p i w) : HandleOk i w := by
  rcases h with h | ⟨_, _, _, h⟩ <;> exact h.handle

/-- Who does nothing is steady. -/
theorem Steady.refl (hh : HandleOk i w) : Steady S p i w i w :=
  ⟨.refl w, hh, .refl i, fun _ => rfl⟩

/-- Who is steady twice is steady. -/
theorem Steady.trans (hI : Inv S p w) (hI' : Inv S p w') (h : Steady S p i w i' w')
    (h' : Steady S p i' w' i'' w'') : Steady S p i w i'' w'' :=
  ⟨h.rely.trans hI hI' h'.rely, h'.handle, h.same.trans h'.same,
    fun hw => (h'.cur (h.same.wtxn.trans hw)).trans (h.cur hw)⟩

/-- Other processes may move in between. -/
theorem Steady.move (hI : Inv S p w) (hI' : Inv S p w') (h : Steady S p i w i' w')
    (hR : Rely S p w' w'') : Steady S p i w i' w'' :=
  ⟨h.rely.trans hI hI' hR, h.handle.rely hI' hR, h.same, h.cur⟩

/-- A steady handle stays so. -/
theorem stable_steady (hI : Inv S p w) : S.Stable p (Steady S p i w i') :=
  fun _ _ hI₁ _ hR h => h.move hI hI₁ hR

/-- What a mapping knows of its file does not matter. -/
theorem Steady.setKnown (h : Steady S p i w i' w') (g n : Nat) :
    Steady S p i w (i'.setKnown g n) w' :=
  ⟨h.rely, h.handle.of_mappings rfl rfl, h.same.trans (.setKnown i' g n), h.cur⟩

/-- A steady handle stays idle. -/
theorem Steady.idle (hI : Inv S p w) (h : Steady S p i w i' w') (hid : Idle p i w) :
    Idle p i' w' :=
  ⟨h.handle, h.same.wtxn.trans hid.wtxn, (hid.rely hI h.rely).txn, (hid.rely hI h.rely).format⟩

/-- A steady handle stays in its batch. -/
theorem Steady.batch {g ino : Nat} {t : Db} (hI : Inv S p w) (h : Steady S p i w i' w')
    (hb : Batch S p i w g ino t) : Batch S p i' w' g ino t := by
  have hb' := hb.rely hI h.rely
  have hs := h.same
  exact ⟨h.handle, hs.wtxn.trans hb.wtxn, by rw [hs.writerThread, hs.thread, hb.thread], hb'.lock,
    hb'.txn, (h.cur hb.wtxn).trans hb.cur, hb'.gen, hb'.name, hb'.tgen, hb'.format, hb'.tformat,
    by rw [hs.committedEnd, hs.end_]; exact hb'.le, by rw [hs.end_]; exact hb'.len, hb'.grow,
    by rw [hs.committedEnd]; exact hb'.committed, by rw [hs.end_]; exact hb'.pending⟩

/-- The tables and the pack a process sees between `w` and `w'`. -/
inductive Sees (S : Setting) (p : Nat) (i : Impl) (w w' : World) : Db → Bytes → Prop where
  | snapshot {w₁ : World} (hid : Idle p i w) (hI₁ : Inv S p w₁) (before : Rely S p w w₁)
      (after : Rely S p w₁ w') : Sees S p i w w' w₁.env.db w₁.pack
  | batch {g ino : Nat} {t : Db} (hb : Batch S p i w g ino t) : Sees S p i w w' t (w.fs.data ino)

/-- What was seen was there before the others moved. -/
theorem Sees.move {db : Db} {file : Bytes} (h : Sees S p i w w' db file)
    (hI' : Inv S p w') (hR : Rely S p w' w'') : Sees S p i w w'' db file := by
  cases h with
  | snapshot hid hI₁ hb ha => exact .snapshot hid hI₁ hb (ha.trans hI₁ hI' hR)
  | batch hb => exact .batch hb

theorem stable_sees {db : Db} {file : Bytes} : S.Stable p fun w' => Sees S p i w w' db file :=
  fun _ _ hI₁ _ hR h => h.move hI₁ hR

/-- In a batch a process sees its working copy. -/
theorem Sees.eq_batch {db : Db} {file : Bytes} {g ino : Nat} {t : Db}
    (h : Sees S p i w w' db file) (hb : Batch S p i w g ino t) : db = t ∧ file = w.fs.data ino := by
  cases h with
  | snapshot hid => exact absurd (hid.wtxn.symm.trans hb.wtxn) (by simp)
  | batch hb' =>
    have ht := hb'.txn.symm.trans hb.txn
    have hc := hb'.cur.symm.trans hb.cur
    cases ht
    cases hc
    exact ⟨rfl, rfl⟩

/-- Without a batch a process sees a snapshot. -/
theorem Sees.eq_snapshot {db : Db} {file : Bytes} (h : Sees S p i w w' db file)
    (hid : Idle p i w) : ∃ w₁, Inv S p w₁ ∧ Rely S p w w₁ ∧ Rely S p w₁ w' ∧ db = w₁.env.db ∧
      file = w₁.pack := by
  cases h with
  | snapshot _ hI₁ hb ha => exact ⟨_, hI₁, hb, ha, rfl, rfl⟩
  | batch hb => exact absurd (hid.wtxn.symm.trans hb.wtxn) (by simp)

/-- A process sees a generation. -/
theorem Sees.gen {db : Db} {file : Bytes} (h : Sees S p i w w' db file) : ∃ g, db.gen = .ok g := by
  cases h with
  | snapshot _ hI₁ _ _ => exact hI₁.shape.gen
  | batch hb => exact ⟨_, hb.tgen⟩

/-- The tables of a `ReadTxn`: those of the open batch, or a snapshot. -/
theorem safe_readTxn {α : Type} {g : Db → CasM α} {Q : Except Err α → Impl → World → Prop}
    (hI : Inv S p w) (ho : Ready S p i w)
    (h : ∀ db file w₁, Inv S p w₁ → Rely S p w w₁ ∧ Sees S p i w w₁ db file →
      Eff.Safe (S.rules p) Q (g db) i w₁)
    (hfail : ∀ {what : String} {res : Errno}, ¬S.Reliable → ∀ w₁, Inv S p w₁ → Rely S p w w₁ →
      Q (.error (.lmdb what res)) i w₁) : Eff.Safe (S.rules p) Q (readTxn >>= g) i w := by
  rw [readTxn, bind_assoc]
  refine Eff.Safe.get ?_
  split
  · next hbatch =>
    rcases ho with hid | ⟨g, ino, t, hb⟩
    · simp [Impl.batchTxn, hid.wtxn] at hbatch
    · exact safe_txnDb (stable_rely hI) hI (.refl w) hb.txn fun w₁ hI₁ hR₁ _ =>
        h _ _ w₁ hI₁ ⟨hR₁, .batch hb⟩
  · next hbatch =>
    rcases ho with hid | ⟨g, ino, t, hb⟩
    · exact safe_readDb (stable_rely hI) hI (.refl w)
        (fun w₁ hI₁ hR₁ => h _ _ w₁ hI₁ ⟨hR₁, .snapshot hid hI₁ hR₁ (.refl _)⟩)
        fun hf => hfail fun hrel => hrel.elim (by simp) hf
    · exact absurd hb.batchTxn hbatch

/-! ## `lookup` -/

/-- The entry of a hash in tables. -/
def Db.entry (db : Db) (hash : Bytes) : Except Err (Option IndexEntry) :=
  match db.blobs.find? hash with
  | none => .ok none
  | some v => (decodeEntry v).map some

/-- An entry is decoded from an index value. -/
theorem Db.entry_eq_some {db : Db} {e : IndexEntry} (h : db.entry hash = .ok (some e)) :
    ∃ v, db.blobs.find? hash = some v ∧ decodeEntry v = .ok e := by
  rw [Db.entry] at h
  split at h
  · cases h
  · next v hv =>
    cases hd : decodeEntry v with
    | error _ => rw [hd] at h; cases h
    | ok e' => rw [hd] at h; cases h; exact ⟨v, hv, hd⟩

/-- No entry means no index value. -/
theorem Db.find_eq_none {db : Db} (h : db.entry hash = .ok none) : db.blobs.find? hash = none := by
  rw [Db.entry] at h
  split at h
  · assumption
  · next v _ => cases hd : decodeEntry v <;> simp [hd, Except.map] at h

/-- What `lookup` finds in tables. -/
def lookupIn (db : Db) (hash : Bytes) (genOut : Bool) : Except Err (Nat × Option IndexEntry) :=
  if hash.length ≠ kHashLen then .error (.invalidArgument "bad hash length")
  else match if genOut then db.gen else .ok 0 with
    | .error e => .error e
    | .ok gen => (db.entry hash).map fun e => (gen, e)

/-- A lookup found what the process sees. -/
def Looked (S : Setting) (p : Nat) (i : Impl) (w : World) (hash : Bytes) (genOut : Bool)
    (x : Except Err (Nat × Option IndexEntry)) (i' : Impl) (w' : World) : Prop :=
  i' = i ∧ Rely S p w w' ∧ ∃ db file, Sees S p i w w' db file ∧
    (x = lookupIn db hash genOut ∨ ¬S.Reliable ∧ ∃ e, x = .error e)

/-- `lookup` once it has read the generation. -/
theorem safe_lookup_entry {genOut : Bool} {db : Db} {file : Bytes} {gen : Nat} {w₁ : World}
    (hI : Inv S p w) (hlen : hash.length = kHashLen)
    (hgen : (if genOut then db.gen else .ok 0) = .ok gen) (hI₁ : Inv S p w₁)
    (h₁ : Rely S p w w₁ ∧ Sees S p i w w₁ db file) :
    Eff.Safe (S.rules p) (Looked S p i w hash genOut)
      (do
        perform .mdbRead >>= mdbCheck "mdb_get"
        match db.blobs.find? hash with
        | none => pure (gen, none)
        | some v => do
          let e ← Eff.ofExcept (decodeEntry v)
          pure (gen, some e)) i w₁ := by
  have hstable : S.Stable p fun w₁ => Rely S p w w₁ ∧ Sees S p i w w₁ db file :=
    (stable_rely hI).and stable_sees
  have hin : lookupIn db hash genOut = (db.entry hash).map fun e => (gen, e) := by
    rw [lookupIn, if_neg (not_not.2 hlen), hgen]
  refine safe_mdbRead hstable hI₁ h₁ (fun w₂ hI₂ h₂ => ?_)
    fun hf w₂ _ h₂ => ⟨rfl, h₂.1, db, file, h₂.2, .inr ⟨fun h => h.elim (by simp) hf, _, rfl⟩⟩
  rw [Db.entry] at hin
  split
  · next hv =>
    rw [hv] at hin
    exact safe_pure hstable hI₂ h₂ fun w₃ _ h₃ => ⟨rfl, h₃.1, db, file, h₃.2, .inl hin.symm⟩
  · next v hv =>
    rw [hv] at hin
    cases hd : decodeEntry v with
    | error e =>
      simp only [hd] at hin
      exact safe_throw hstable hI₂ h₂ fun w₃ _ h₃ => ⟨rfl, h₃.1, db, file, h₃.2, .inl hin.symm⟩
    | ok e =>
      simp only [hd] at hin
      exact safe_pure hstable hI₂ h₂ fun w₃ _ h₃ => ⟨rfl, h₃.1, db, file, h₃.2, .inl hin.symm⟩

/-- `lookup` once it has the tables. -/
theorem safe_lookup_tables {genOut : Bool} {db : Db} {file : Bytes} {w₁ : World} (hI : Inv S p w)
    (hlen : hash.length = kHashLen) (hI₁ : Inv S p w₁)
    (h₁ : Rely S p w w₁ ∧ Sees S p i w w₁ db file) :
    Eff.Safe (S.rules p) (Looked S p i w hash genOut)
      (do
        let gen ← if genOut then readGen db else pure 0
        perform .mdbRead >>= mdbCheck "mdb_get"
        match db.blobs.find? hash with
        | none => pure (gen, none)
        | some v => do
          let e ← Eff.ofExcept (decodeEntry v)
          pure (gen, some e)) i w₁ := by
  cases genOut with
  | false => exact safe_lookup_entry hI hlen rfl hI₁ h₁
  | true =>
    obtain ⟨g, hg⟩ := h₁.2.gen
    rw [if_pos rfl, readGen, bind_assoc]
    refine safe_mdbRead ((stable_rely hI).and stable_sees) hI₁ h₁ (fun w₂ hI₂ h₂ => ?_)
      fun hf w₂ _ h₂ => ⟨rfl, h₂.1, db, file, h₂.2, .inr ⟨fun h => h.elim (by simp) hf, _, rfl⟩⟩
    rw [hg, Eff.ofExcept_ok, pure_bind]
    exact safe_lookup_entry hI hlen (by rw [if_pos rfl, hg]) hI₂ h₂

/-- What a lookup in a shared store finds is what it finds in tables the process sees. -/
theorem safe_lookup {genOut : Bool} (hI : Inv S p w) (ho : Ready S p i w) :
    Eff.Safe (S.rules p) (Looked S p i w hash genOut) (lookup hash genOut) i w := by
  -- the tables the process sees if it looks no further
  have hsees : ∀ w₁, Inv S p w₁ → Rely S p w w₁ → ∃ db file, Sees S p i w w₁ db file :=
    fun w₁ hI₁ hR => ho.elim (fun h => ⟨_, _, .snapshot h hI₁ hR (.refl _)⟩)
      fun ⟨_, _, _, h⟩ => ⟨_, _, .batch h⟩
  rw [lookup]
  split
  · next hlen =>
    refine safe_throw (stable_rely hI) hI (.refl w) fun w₁ hI₁ hR₁ => ⟨rfl, hR₁, ?_⟩
    obtain ⟨db, file, hs⟩ := hsees w₁ hI₁ hR₁
    exact ⟨db, file, hs, .inl (by rw [lookupIn, if_pos hlen])⟩
  · next hlen =>
    refine safe_readTxn hI ho (fun db file w₁ hI₁ h₁ =>
      safe_lookup_tables hI (not_not.1 hlen) hI₁ h₁) fun hrel w₁ hI₁ hR₁ => ⟨rfl, hR₁, ?_⟩
    obtain ⟨db, file, hs⟩ := hsees w₁ hI₁ hR₁
    exact ⟨db, file, hs, .inr ⟨hrel, _, rfl⟩⟩

/-! ## Reading stored bytes -/

/-- While `P` holds, the bytes of the file in the range are `b`. -/
def Shows (S : Setting) (p : Nat) (P : World → Prop) (ino off len : Nat) (b : Bytes) : Prop :=
  ∀ w, Inv S p w → P w →
    off + len ≤ (w.fs.data ino).length ∧ slice (w.fs.data ino) off len = b

/-- The bytes that are shown are as many as were asked for. -/
theorem Shows.length {P : World → Prop} {ino off len : Nat} {b : Bytes}
    (h : Shows S p P ino off len b) (hI : Inv S p w) (hw : P w) : b.length = len := by
  obtain ⟨hle, rfl⟩ := h w hI hw
  exact length_slice_of_le hle

/-- So are the bytes behind the first `k`. -/
theorem Shows.drop {P : World → Prop} {ino off len : Nat} {b : Bytes}
    (h : Shows S p P ino off len b) {k : Nat} (hk : k ≤ len) :
    Shows S p P ino (off + k) (len - k) (b.drop k) := fun w hI hw => by
  obtain ⟨hle, rfl⟩ := h w hI hw
  exact ⟨by omega, (drop_slice _ _ _ _).symm⟩

/-- What the file shows was read, behind `acc`. -/
def ReadBack (S : Setting) (p : Nat) (P : World → Prop) (ino off len : Nat) (acc : Bytes) (i : Impl)
    (x : Except Err Bytes) (i' : Impl) (w' : World) : Prop :=
  i' = i ∧ P w' ∧ ∀ b, S.Reliable → Shows S p P ino off len b → x = .ok (acc ++ b)

/-- `pread_all` when nothing is left to read. -/
theorem safe_preadAll_done {P : World → Prop} (hP : S.Stable p P) {ino off : Nat} {acc : Bytes}
    (hI : Inv S p w) (hw : P w) :
    Eff.Safe (S.rules p) (ReadBack S p P ino off 0 acc i) (pure acc) i w :=
  safe_pure hP hI hw fun w₁ hI₁ h₁ => ⟨rfl, h₁, fun b _ hb => by
    rw [List.length_eq_zero_iff.1 (hb.length hI₁ h₁), List.append_nil]⟩

/-- The loop of `pread_all` reads what the file shows, however few bytes each round returns. -/
theorem safe_preadAll_go {P : World → Prop} (hP : S.Stable p P) {ino : Nat} (fuel : Nat)
    {len off : Nat} {acc : Bytes} {w : World} (hfuel : len ≤ fuel) (hI : Inv S p w) (hw : P w) :
    Eff.Safe (S.rules p) (ReadBack S p P ino off len acc i) (preadAll.go ino fuel len off acc)
      i w := by
  induction fuel generalizing len off acc w with
  | zero =>
    cases Nat.le_zero.1 hfuel
    exact safe_preadAll_done hP hI hw
  | succ fuel ih =>
    rw [preadAll.go]
    split
    · next hlen =>
      subst hlen
      exact safe_preadAll_done hP hI hw
    · next hlen =>
      refine safe_call hP hI hw fun w₁ hI₁ h₁ => step_pread hI₁ (fun n => ?_) (fun hf => ?_)
        fun hoff => ?_
      · change Eff.Safe _ _ (if _ then _ else _) i w₁
        split
        · next hnil =>
          refine safe_throw hP hI₁ h₁ fun w₂ _ h₂ => ⟨rfl, h₂, fun b _ hb => ?_⟩
          have h0 := congrArg List.length hnil
          rw [List.length_take, length_slice_of_le (hb w₁ hI₁ h₁).1, List.length_nil] at h0
          omega
        · next hne =>
          have hpos := List.length_pos_iff.2 hne
          refine (ih (by omega) hI₁ h₁).mono ?_
          rintro x i' w' _ ⟨rfl, hP', hx⟩
          refine ⟨rfl, hP', fun b hrel hb => ?_⟩
          obtain ⟨hle, rfl⟩ := hb w₁ hI₁ h₁
          have hsl := length_slice_of_le hle
          have hgot : ((slice (w₁.fs.data ino) off len).take (n + 1)).length ≤ len := by
            rw [List.length_take]
            omega
          rw [hx _ hrel (hb.drop hgot), List.append_assoc, List.length_take, hsl]
          congr 2
          rcases Nat.le_total (n + 1) len with h | h
          · rw [Nat.min_eq_left h, List.take_append_drop]
          · rw [Nat.min_eq_right h, List.take_of_length_le (hsl.trans_le h),
              List.drop_eq_nil_of_le hsl.le, List.append_nil]
      · exact safe_throw hP hI₁ h₁ fun w₂ _ h₂ =>
          ⟨rfl, h₂, fun b hrel _ => absurd hf (hrel.elim (by simp))⟩
      · refine safe_throw hP hI₁ h₁ fun w₂ _ h₂ => ⟨rfl, h₂, fun b _ hb => ?_⟩
        have hle := (hb w₁ hI₁ h₁).1
        have hsize := hI₁.shape.sizes ino
        omega

/-- `pread_all` reads what the file shows. -/
theorem safe_preadAll {P : World → Prop} (hP : S.Stable p P) {ino len off : Nat} (hI : Inv S p w)
    (hw : P w) :
    Eff.Safe (S.rules p) (ReadBack S p P ino off len [] i) (preadAll ino len off) i w := by
  refine safe_resize hP hI hw (fun w₁ hI₁ h₁ => safe_preadAll_go hP len (Nat.le_refl _) hI₁ h₁)
    (fun hlong w₁ hI₁ h₁ => ⟨rfl, h₁, fun b _ hb => ?_⟩)
    fun hf w₁ _ h₁ => ⟨rfl, h₁, fun b hrel _ => absurd hf (hrel.elim (by simp))⟩
  have hle := (hb w₁ hI₁ h₁).1
  have hsize := hI₁.shape.sizes ino
  omega

/-- A result, unless it is refused. -/
def answer {α : Type} (r : Option Err) (a : α) : Except Err α :=
  match r with
  | some e => .error e
  | none => .ok a

/-- `Mapping::view` refuses a range that ends behind the mapping. -/
def viewRefuses (off len : Nat) : Option Err :=
  if kMapSize < off + len then some (.corrupt "pack index out of bounds") else none

/-- What the file shows was viewed, or refused. -/
def Viewed (S : Setting) (p : Nat) (P : World → Prop) (m : Mapping) (off len : Nat) (i : Impl)
    (r : Option Err) (x : Except Err Bytes) (i' : Impl) (w' : World) : Prop :=
  (i' = i ∨ ∃ n, i' = i.setKnown m.gen n) ∧ P w' ∧
    ∀ b, S.Reliable → Shows S p P m.ino off len b → x = answer r b

/-- The 64-bit sum in `view` is exact on what a file can show. -/
theorem Shows.mod {P : World → Prop} {ino off len : Nat} {b : Bytes}
    (h : Shows S p P ino off len b) (hI : Inv S p w) (hw : P w) :
    (off + len) % 2 ^ 64 = off + len := by
  have hle := (h w hI hw).1
  have hsize := hI.shape.sizes ino
  simp only [maxOff] at hsize
  omega

/-- The second half of `Mapping::view`, for a range within the mapping. -/
theorem safe_view_mapped {P : World → Prop} (hP : S.Stable p P) {off len : Nat} {i₀ : Impl}
    (hi : i = i₀ ∨ ∃ n, i = i₀.setKnown m.gen n) (hI : Inv S p w) (hw : P w)
    (hsmall : ¬kMapSize < (off + len) % 2 ^ 64) :
    Eff.Safe (S.rules p) (Viewed S p P m off len i₀ (viewRefuses off len)) (view.mapped m off len) i w := by
  refine Eff.Safe.perform fun w₁ hI₁ hR₁ => ?_
  have h₁ := hP w w₁ hI hI₁ hR₁ hw
  refine step_mmapRead hI₁ ?_ fun hlt => ?_
  · refine safe_pure hP hI₁ h₁ fun w₂ _ h₂ => ⟨hi, h₂, fun b _ hb => ?_⟩
    rw [viewRefuses, if_neg (hb.mod hI hw ▸ hsmall), (hb w₁ hI₁ h₁).2]
    rfl
  · refine safe_throw hP hI₁ h₁ fun w₂ _ h₂ => ⟨hi, h₂, fun b _ hb => ?_⟩
    have := (hb w₁ hI₁ h₁).1
    omega

/-- `Mapping::view` returns what the file shows, unless the range ends behind the mapping. -/
theorem safe_view {P : World → Prop} (hP : S.Stable p P) {off len : Nat} (hI : Inv S p w)
    (hw : P w) :
    Eff.Safe (S.rules p) (Viewed S p P m off len i (viewRefuses off len)) (view m off len) i w := by
  rw [view]
  split
  · next hbig =>
    refine safe_throw hP hI hw fun w₁ _ h₁ => ⟨.inl rfl, h₁, fun b _ hb => ?_⟩
    rw [viewRefuses, if_pos (hb.mod hI hw ▸ hbig)]
    rfl
  · next hsmall =>
    refine Eff.Safe.get ?_
    split
    · refine safe_fileSize hP hI hw (fun w₁ hI₁ h₁ => ?_) fun hf w₁ _ h₁ =>
        ⟨.inl rfl, h₁, fun b hrel _ => absurd hf (hrel.elim (by simp))⟩
      refine Eff.Safe.modify ?_
      split
      · next hlt =>
        refine safe_throw hP hI₁ h₁ fun w₂ _ h₂ => ⟨.inr ⟨_, rfl⟩, h₂, fun b _ hb => ?_⟩
        have hle := (hb w₁ hI₁ h₁).1
        rw [hb.mod hI hw] at hlt
        omega
      · exact safe_view_mapped hP (.inr ⟨_, rfl⟩) hI₁ h₁ hsmall
    · exact safe_view_mapped hP (.inl rfl) hI hw hsmall

/-! ## `locate` -/

/-- The bytes of an entry are `b` in the pack of `m`, and stay so: `m` is the committed pack and
nobody compacts, or it is the pack of this process's batch. -/
def Backed (S : Setting) (p : Nat) (m : Mapping) (e : IndexEntry) (b : Bytes) (w : World) : Prop :=
  (S.pinned ∧ MapOk m w ∧ w.env.db.gen = .ok m.gen ∧
    ∃ k v, w.env.db.blobs.find? k = some v ∧ decodeEntry v = .ok e ∧
      e.off + e.len ≤ w.pack.length ∧ slice w.pack e.off e.len = b) ∨
  (w.env.lock = some p ∧ m.ino < w.fs.next ∧ e.off + e.len ≤ (w.fs.data m.ino).length ∧
    slice (w.fs.data m.ino) e.off e.len = b)

/-- The bytes of an entry stay in the pack. -/
theorem stable_backed {e : IndexEntry} {b : Bytes} : S.Stable p (Backed S p m e b) := by
  intro w w' hI _ hR h
  rcases h with ⟨hp, hm, hg, k, v, hk, hd, hle, hb⟩ | ⟨hl, hn, hle, hb⟩
  · have hgen := hR.pinned hp
    obtain ⟨hle', heq⟩ := (hR.same hgen).bytes k v e hk hd hle
    exact .inl ⟨hp, hm.rely hI hR, hgen.trans hg, k, v, (hR.same hgen).find k v hk, hd, hle',
      heq.trans hb⟩
  · rw [← (hR.held hl).data m.ino hn] at hle hb
    exact .inr ⟨hR.lock.2 hl, hn.trans_le hR.next, hle, hb⟩

/-- They are what is shown of its range. -/
theorem Backed.shows {e : IndexEntry} {b : Bytes} :
    Shows S p (Backed S p m e b) m.ino e.off e.len b := by
  rintro w _ (⟨_, hm, hg, _, _, _, _, hle, hb⟩ | ⟨_, _, hle, hb⟩)
  · rw [← World.pack_eq hg (hm.ino hg)]
    exact ⟨hle, hb⟩
  · exact ⟨hle, hb⟩

/-- An entry was found together with the pack that backs it, or none was. -/
def Located (S : Setting) (p : Nat) (i : Impl) (w : World) (hash : Bytes)
    (x : Except Err (Option (IndexEntry × Mapping))) (w' : World) : Prop :=
  ∃ db file, Sees S p i w w' db file ∧ match db.entry hash with
    | .error e => x = .error e
    | .ok none => x = .ok none
    | .ok (some e) => ∃ m, x = .ok (some (e, m)) ∧
        (e.off + e.len ≤ file.length → Backed S p m e (slice file e.off e.len) w')

/-- When reads are known to succeed: no question fails, and no other process compacts or the batch
is this process's own. -/
def Setting.Serves (S : Setting) (i : Impl) : Prop := S.Reliable ∧ (S.pinned ∨ i.wtxn = true)

/-- A lookup that the process sees has the generation it sees. -/
theorem lookupIn_eq {db : Db} {g : Nat} (hlen : hash.length = kHashLen) (hg : db.gen = .ok g) :
    lookupIn db hash true = (db.entry hash).map fun e => (g, e) := by
  rw [lookupIn, if_neg (not_not.2 hlen), if_pos rfl, hg]

/-- `mapping_for` of the current generation. -/
theorem safe_mappingFor_cur {α : Type} {g : Nat} {create : Bool} {f : Option Mapping → CasM α}
    {Q : Except Err α → Impl → World → Prop} (hc : i.cur = some m) (hg : m.gen = g)
    (h : Eff.Safe (S.rules p) Q (f (some m)) i w) :
    Eff.Safe (S.rules p) Q (mappingFor g create >>= f) i w := by
  rw [mappingFor, bind_assoc]
  refine Eff.Safe.get ?_
  rw [Impl.find, hc, Option.toList_some, List.cons_append, List.nil_append,
    List.find?_cons_of_pos (by simpa using hg)]
  exact h

/-- What `locate` ends in. -/
def Locates (S : Setting) (p : Nat) (i : Impl) (w : World) (hash : Bytes)
    (x : Except Err (Option (IndexEntry × Mapping))) (i' : Impl) (w' : World) : Prop :=
  Steady S p i w i' w' ∧ (S.Serves i → Located S p i w hash x w')

/-- `locate` in a batch finds the entry in the working copy and the pack of the batch. -/
theorem safe_locate_batch {n g ino : Nat} {t : Db} (hI : Inv S p w) (hb : Batch S p i w g ino t)
    (hlen : hash.length = kHashLen) :
    Eff.Safe (S.rules p) (Locates S p i w hash) (locate.go hash (n + 1)) i w := by
  have hlook : lookupIn t hash true = _ := lookupIn_eq hlen hb.tgen
  have hsteady : ∀ {w'}, Rely S p w w' → Steady S p i w i w' := fun hR =>
    ⟨hR, hb.handle.rely hI hR, .refl _, fun _ => rfl⟩
  refine safe_seq hI (safe_lookup hI (.inr ⟨g, ino, t, hb⟩)) ?_ ?_
  · rintro ⟨gen, en⟩ i' w' hI' ⟨rfl, hR, db, file, hs, hx | ⟨_, e, he⟩⟩
    · obtain ⟨rfl, rfl⟩ := hs.eq_batch hb
      rw [hlook] at hx
      cases he : db.entry hash with
      | error e => rw [he] at hx; cases hx
      | ok o =>
        rw [he] at hx
        cases hx
        cases en with
        | none =>
          exact safe_pure (stable_steady hI) hI' (hsteady hR) fun w₁ _ h₁ =>
            ⟨h₁, fun _ => ⟨db, _, .batch hb, by rw [he]⟩⟩
        | some e =>
          refine Eff.Safe.get (safe_mappingFor_cur hb.cur rfl ?_)
          refine safe_pure (stable_steady hI) hI' (hsteady hR) fun w₁ _ h₁ =>
            ⟨h₁, fun _ => ⟨db, _, .batch hb, ?_⟩⟩
          rw [he]
          refine ⟨⟨g, ino⟩, rfl, fun hle => .inr ?_⟩
          have hl := hb.lock
          have hdata := ((h₁.rely).held hl).data ino (hb.lt hI)
          exact ⟨h₁.rely.lock.2 hl, (hb.lt hI).trans_le h₁.rely.next, by rw [hdata]; exact hle,
            by rw [hdata]⟩
    · cases he
  · rintro e i' w' _ ⟨rfl, hR, db, file, hs, hx | ⟨hrel, _⟩⟩
    · obtain ⟨rfl, rfl⟩ := hs.eq_batch hb
      refine ⟨hsteady hR, fun _ => ⟨db, _, .batch hb, ?_⟩⟩
      rw [hlook] at hx
      cases he : db.entry hash with
      | error e => rw [he] at hx; cases hx; rfl
      | ok o => rw [he] at hx; cases hx
    · exact ⟨hsteady hR, fun h => absurd h.1 hrel⟩

/-- `locate` once it has found the entry `e` in the snapshot of `w₁`, if `hnext` is what one attempt
less ends in. -/
theorem safe_locate_mapping {n g : Nat} {e : IndexEntry} {w₁ : World} (hI : Inv S p w)
    (hid : Idle p i w) (hI₁ : Inv S p w₁) (hb : Rely S p w w₁) (hg : w₁.env.db.gen = .ok g)
    (he : w₁.env.db.entry hash = .ok (some e))
    (hnext : ∀ {i w}, Inv S p w → Idle p i w → Eff.Safe (S.rules p) (fun x i' w' =>
      Steady S p i w i' w' ∧ (0 < n → S.Serves i → Located S p i w hash x w'))
      (locate.go hash n) i w)
    (hI' : Inv S p w') (hR : Rely S p w w') (ha : Rely S p w₁ w') :
    Eff.Safe (S.rules p) (fun x i' w' => Steady S p i w i' w' ∧
      (0 < n + 1 → S.Serves i → Located S p i w hash x w'))
      (do
        match ← mappingFor g false with
        | some m => pure (some (e, m))
        | none => locate.go hash n) i w' := by
  have hpinned : S.Serves i → S.pinned := fun h => h.2.resolve_right (by simp [hid.wtxn])
  have hP : S.Stable p fun w' => Rely S p w w' ∧ Rely S p w₁ w' :=
    (stable_rely hI).and (stable_rely hI₁)
  obtain ⟨v, hv, hd⟩ := Db.entry_eq_some he
  refine safe_seq hI' (safe_mappingFor hI' (hid.handle.rely hI hR) hP ⟨hR, ha⟩ (ha.gen g · hg)
    (by simp)) ?_ ?_
  · rintro (_ | m) i₂ w₂ hI₂ ⟨⟨hR₂, ha₂⟩, hh₂, hsame, h₂⟩
    · obtain ⟨_, w₃, hI₃, ⟨_, ha₃⟩, hnone⟩ := h₂
      have hst : Steady S p i w i₂ w₂ :=
        ⟨hR₂, hh₂, hsame, fun h => absurd (hid.wtxn.symm.trans h) (by simp)⟩
      refine (hnext hI₂ (hst.idle hI hid)).mono fun x i₃ w₄ hI₄ h₄ =>
        ⟨hst.trans hI hI₂ h₄.1, fun _ hs => ?_⟩
      -- the pack is there: the index is not empty
      have hgen := ha₃.pinned (hpinned hs)
      have hempty := hI₃.shape.pack g (hgen.trans hg) hnone
      have hmem := SortedMap.mem_toList.2 ((ha₃.same hgen).find hash v hv)
      rw [hempty] at hmem
      cases hmem
    · obtain ⟨rfl, hm⟩ := h₂
      refine safe_pure (hP.and stable_handleOk) hI₂ ⟨⟨hR₂, ha₂⟩, hh₂⟩ fun w₃ _ h₃ => ⟨⟨h₃.1.1, h₃.2,
        hsame, fun h => absurd (hid.wtxn.symm.trans h) (by simp)⟩, fun _ hs => ?_⟩
      refine ⟨_, _, .snapshot hid hI₁ hb h₃.1.2, ?_⟩
      rw [he]
      refine ⟨m, rfl, fun hle => .inl ?_⟩
      have hgen := h₃.1.2.pinned (hpinned hs)
      obtain ⟨hle', heq⟩ := (h₃.1.2.same hgen).bytes hash v e hv hd hle
      exact ⟨hpinned hs, h₃.2.map m hm, hgen.trans hg, hash, v, (h₃.1.2.same hgen).find hash v hv,
        hd, hle', heq⟩
  · rintro _ i₂ w₂ _ ⟨⟨hR₂, _⟩, hh₂, hsame, _, c, hc, hne⟩
    exact ⟨⟨hR₂, hh₂, hsame, fun h => absurd (hid.wtxn.symm.trans h) (by simp)⟩,
      fun _ hs => absurd hc (hs.1.elim hne)⟩

/-- `locate` on a snapshot finds the entry and the pack the snapshot describes; only a compaction
can make it try again. -/
theorem safe_locate_idle (n : Nat) {i : Impl} {w : World} (hI : Inv S p w) (hid : Idle p i w)
    (hlen : hash.length = kHashLen) :
    Eff.Safe (S.rules p) (fun x i' w' => Steady S p i w i' w' ∧
      (0 < n → S.Serves i → Located S p i w hash x w')) (locate.go hash n) i w := by
  induction n generalizing i w with
  | zero =>
    exact safe_throw (stable_steady hI) hI (.refl hid.handle) fun w₁ _ h₁ =>
      ⟨h₁, fun h => absurd h (lt_irrefl _)⟩
  | succ n ih =>
    have hsteady : ∀ {w'}, Rely S p w w' → Steady S p i w i w' := fun hR =>
      ⟨hR, hid.handle.rely hI hR, .refl _, fun _ => rfl⟩
    refine safe_seq hI (safe_lookup hI (.inl hid)) ?_ ?_
    · rintro ⟨gen, en⟩ i' w' hI' ⟨rfl, hR, db, file, hs, hx | ⟨_, e, he⟩⟩
      · have hsees : S.Stable p fun w₁ => Steady S p i' w i' w₁ ∧ Sees S p i' w w₁ db file :=
          (stable_steady hI).and stable_sees
        obtain ⟨g, hg⟩ := hs.gen
        rw [lookupIn_eq hlen hg] at hx
        cases he : db.entry hash with
        | error e => rw [he] at hx; cases hx
        | ok o =>
          rw [he] at hx
          cases hx
          cases en with
          | none =>
            exact safe_pure hsees hI' ⟨hsteady hR, hs⟩ fun w₁ _ h₁ =>
              ⟨h₁.1, fun _ _ => ⟨db, file, h₁.2, by rw [he]⟩⟩
          | some e =>
            refine Eff.Safe.get ?_
            rw [hid.wtxn]
            obtain ⟨w₁, hI₁, hb, ha, rfl, rfl⟩ := hs.eq_snapshot hid
            exact safe_locate_mapping hI hid hI₁ hb hg he ih hI' hR ha
      · cases he
    · rintro e i' w' _ ⟨rfl, hR, db, file, hs, hx | ⟨hrel, _⟩⟩
      · refine ⟨hsteady hR, fun _ _ => ⟨db, file, hs, ?_⟩⟩
        obtain ⟨g, hg⟩ := hs.gen
        rw [lookupIn_eq hlen hg] at hx
        cases he : db.entry hash with
        | error e => rw [he] at hx; cases hx; rfl
        | ok o => rw [he] at hx; cases hx
      · exact ⟨hsteady hR, fun _ h => absurd h.1 hrel⟩

/-- `locate` finds the entry the process sees, and the pack that backs it. -/
theorem safe_locate (hI : Inv S p w) (ho : Ready S p i w) (hlen : hash.length = kHashLen) :
    Eff.Safe (S.rules p) (Locates S p i w hash) (locate hash) i w := by
  rcases ho with hid | ⟨g, ino, t, hb⟩
  · exact (safe_locate_idle _ hI hid hlen).mono fun x i' w' _ h => ⟨h.1, h.2 (by decide)⟩
  · exact safe_locate_batch hI hb hlen

/-! ## `get`, `get_view`, `size` and `has` -/

/-- Tables over a pack hold the blob `d` under a hash, in the entry `e`. -/
def Holds (ext : Ext) (file : Bytes) (t : SortedMap Bytes Bytes) (hash : Bytes) (e : IndexEntry)
    (d : Bytes) : Prop :=
  ∃ v, t.find? hash = some v ∧ decodeEntry v = .ok e ∧ e.off + e.len ≤ file.length ∧
    readStored ext e (slice file e.off e.len) = .ok d

/-- A blob of a table that describes its pack is behind an entry. -/
theorem TableOk.holds {ext : Ext} {file : Bytes} {t : SortedMap Bytes Bytes} {k d : Bytes}
    (h : TableOk ext file file.length t) (hk : tableMap ext file t k = some d) :
    ∃ e, Holds ext file t k e d ∧ d.length = e.rawLen := by
  cases hf : t.find? k with
  | none =>
    rw [h.map_eq_none.2 hf] at hk
    cases hk
  | some v =>
    obtain ⟨e, d', hd, hle, hr, _, hlen, hmap⟩ := h.cell hf
    rw [hmap] at hk
    cases hk
    exact ⟨e, ⟨v, hf, hd, hle, hr⟩, hlen⟩

/-- The blob the process sees was read, unless its range is refused by `r`. -/
def Fetched (S : Setting) (p : Nat) (i : Impl) (w : World) (hash : Bytes)
    (r : Nat → Nat → Option Err) (x : Except Err (Option Bytes)) (w' : World) : Prop :=
  ∃ db file, Sees S p i w w' db file ∧ (db.blobs.find? hash = none → x = .ok none) ∧
    ∀ e d, Holds S.ext file db.blobs hash e d → x = answer (r e.off e.len) (some d)

/-- What a read ends in. -/
def Fetches (S : Setting) (p : Nat) (i : Impl) (w : World) (hash : Bytes)
    (r : Nat → Nat → Option Err) (x : Except Err (Option Bytes)) (i' : Impl) (w' : World) : Prop :=
  Steady S p i w i' w' ∧ (S.Serves i → Fetched S p i w hash r x w')

/-- A blob that is there has its entry. -/
theorem Holds.entry {db : Db} {file : Bytes} {e : IndexEntry} {d : Bytes}
    (h : Holds S.ext file db.blobs hash e d) : db.entry hash = .ok (some e) := by
  obtain ⟨v, hv, hd, _⟩ := h
  rw [Db.entry, hv]
  exact congrArg (Except.map some) hd

/-- Without an index value there is no entry. -/
theorem Db.entry_eq_none {db : Db} (h : db.blobs.find? hash = none) : db.entry hash = .ok none := by
  rw [Db.entry, h]

/-- `locate` has found the entry `e` and the pack `m`. -/
def Found (S : Setting) (p : Nat) (i : Impl) (w : World) (hash : Bytes) (e : IndexEntry)
    (m : Mapping) (db : Db) (file : Bytes) (i' : Impl) (w' : World) : Prop :=
  Steady S p i w i' w' ∧ (S.Serves i → Sees S p i w w' db file ∧ db.entry hash = .ok (some e) ∧
    (e.off + e.len ≤ file.length → Backed S p m e (slice file e.off e.len) w'))

section

variable {e : IndexEntry} {db : Db} {file : Bytes} {r : Nat → Nat → Option Err}

/-- What was found stays found. -/
theorem stable_found (hI : Inv S p w) : S.Stable p (Found S p i w hash e m db file i') :=
  (stable_steady hI).and fun w₂ w₃ hI₂ hI₃ hR h hs => ⟨(h hs).1.move hI₂ hR, (h hs).2.1, fun hle =>
    stable_backed w₂ w₃ hI₂ hI₃ hR ((h hs).2.2 hle)⟩

/-- What was located is found. -/
theorem Located.found (hst : Steady S p i w i' w')
    (h : S.Serves i → Located S p i w hash (.ok (some (e, m))) w') :
    ∃ db file, Found S p i w hash e m db file i' w' := by
  by_cases hs : S.Serves i
  · obtain ⟨db, file, hsee, h⟩ := h hs
    refine ⟨db, file, hst, fun _ => ⟨hsee, ?_⟩⟩
    split at h
    · cases h
    · cases h
    · next e' he =>
      obtain ⟨m', hm, hb⟩ := h
      cases hm
      exact ⟨he, hb⟩
  · exact ⟨.empty, [], hst, fun h => absurd h hs⟩

/-- The read of the entry that was found returns its bytes, or is refused. -/
theorem Found.read {x : Except Err Bytes} (hs : S.Serves i) (hle : e.off + e.len ≤ file.length)
    (h : ∀ b, S.Reliable → Shows S p (Found S p i w hash e m db file i') m.ino e.off e.len b →
      x = answer (r e.off e.len) b) : x = answer (r e.off e.len) (slice file e.off e.len) :=
  h _ hs.1 fun w₁ hI₁ h₁ => Backed.shows w₁ hI₁ ((h₁.2 hs).2.2 hle)

/-- A result that fits the entry that was found. -/
theorem Found.fetches {i₂ : Impl} {w₂ : World} {x : Except Err (Option Bytes)}
    (h : Found S p i w hash e m db file i' w₂) (hi : i₂ = i' ∨ ∃ n, i₂ = i'.setKnown m.gen n)
    (hx : S.Serves i → e.off + e.len ≤ file.length → ∀ d,
      readStored S.ext e (slice file e.off e.len) = .ok d → x = answer (r e.off e.len) (some d)) :
    Fetches S p i w hash r x i₂ w₂ := by
  refine ⟨?_, fun hs => ⟨db, file, (h.2 hs).1, fun hn => ?_, fun e' d hh => ?_⟩⟩
  · rcases hi with rfl | ⟨n, rfl⟩
    exacts [h.1, h.1.setKnown _ n]
  · have he := (h.2 hs).2.1
    rw [Db.entry_eq_none hn] at he
    cases he
  · have he := hh.entry
    rw [(h.2 hs).2.1] at he
    cases he
    obtain ⟨v, _, _, hle, hd⟩ := hh
    exact hx hs hle d hd

/-- The stored bytes of an entry that was found are unpacked. -/
theorem safe_unpack {b : Bytes} {i₂ : Impl} (hI : Inv S p w) (hI' : Inv S p w')
    (h : Found S p i w hash e m db file i' w') (hi : i₂ = i' ∨ ∃ n, i₂ = i'.setKnown m.gen n)
    (hb : S.Serves i → e.off + e.len ≤ file.length →
      .ok b = answer (r e.off e.len) (slice file e.off e.len)) :
    Eff.Safe (S.rules p) (Fetches S p i w hash r)
      (if e.compressed then do
        let out ← decompress S.ext b e.rawLen
        pure (some out)
      else pure (some b)) i₂ w' := by
  -- the blob is what `readStored` makes of the stored bytes
  have hout : S.Serves i → e.off + e.len ≤ file.length → ∀ d,
      readStored S.ext e (slice file e.off e.len) = .ok d →
      (readStored S.ext e b).map some = answer (r e.off e.len) (some d) := by
    intro hs hle d hd
    have hb' := hb hs hle
    cases hr : r e.off e.len with
    | some err => rw [hr] at hb'; cases hb'
    | none =>
      rw [hr] at hb'
      cases hb'
      rw [hd]
      rfl
  split
  · next hc =>
    rw [show readStored S.ext e b = unpackBlob S.ext b e.rawLen from if_pos hc] at hout
    rw [decompress_eq]
    split
    · next hsize =>
      rw [unpackBlob, if_pos hsize] at hout
      exact safe_throw (stable_found hI) hI' h fun w₁ _ h₁ => h₁.fetches hi hout
    · next hsize =>
      have hmax : lz4MaxInputSize < maxOff := by decide
      rw [bind_assoc]
      refine safe_resize (stable_found hI) hI' h (fun w₁ hI₁ h₁ => ?_) (fun hlong => ?_)
        fun hf w₁ _ h₁ => h₁.fetches hi fun hs => absurd hf (hs.1.elim (by simp))
      · cases hd : unpackBlob S.ext b e.rawLen with
        | error err =>
          rw [hd] at hout
          exact safe_throw (stable_found hI) hI₁ h₁ fun w₂ _ h₂ => h₂.fetches hi hout
        | ok out =>
          rw [hd] at hout
          exact safe_pure (stable_found hI) hI₁ h₁ fun w₂ _ h₂ => h₂.fetches hi hout
      · omega
  · next hc =>
    rw [show readStored S.ext e b = .ok b from if_neg hc] at hout
    exact safe_pure (stable_found hI) hI' h fun w₁ _ h₁ => h₁.fetches hi hout

end

/-- `get` and `get_view`: they differ in how the stored bytes are read. -/
theorem safe_fetch (read : Mapping → Nat → Nat → CasM Bytes) {r : Nat → Nat → Option Err}
    (hread : ∀ {P : World → Prop} {m off len i w}, S.Stable p P → Inv S p w → P w →
      Eff.Safe (S.rules p) (Viewed S p P m off len i (r off len)) (read m off len) i w)
    (hI : Inv S p w) (ho : Ready S p i w) (hlen : hash.length = kHashLen) :
    Eff.Safe (S.rules p) (Fetches S p i w hash r)
      (do
        match ← locate hash with
        | none => pure none
        | some (e, m) =>
          let stored ← read m e.off e.len
          if e.compressed then
            let out ← decompress S.ext stored e.rawLen
            pure (some out)
          else pure (some stored)) i w := by
  refine safe_seq hI (safe_locate hI ho hlen) ?_ ?_
  · rintro (_ | ⟨e, m⟩) i₁ w₁ hI₁ ⟨hst, hloc⟩
    · have hP : S.Stable p (Fetches S p i w hash r (.ok none) i₁) :=
        (stable_steady hI).and fun w₂ w₃ hI₂ _ hR h hs => by
          obtain ⟨db, file, hsee, h⟩ := h hs
          exact ⟨db, file, hsee.move hI₂ hR, h⟩
      refine safe_pure hP hI₁ ⟨hst, fun hs => ?_⟩ fun w₂ _ h₂ => h₂
      obtain ⟨db, file, hsee, h⟩ := hloc hs
      refine ⟨db, file, hsee, fun _ => rfl, fun e d hh => ?_⟩
      rw [hh.entry] at h
      obtain ⟨m, hm, _⟩ := h
      cases hm
    · obtain ⟨db, file, hf⟩ := Located.found hst hloc
      refine safe_seq hI₁ (hread (stable_found hI) hI₁ hf) ?_ ?_
      · rintro b i₂ w₂ hI₂ ⟨hi, hf₂, hx⟩
        exact safe_unpack hI hI₂ hf₂ hi fun hs hle => Found.read hs hle hx
      · rintro err i₂ w₂ _ ⟨hi, hf₂, hx⟩
        refine hf₂.fetches hi fun hs hle d _ => ?_
        have hb := Found.read hs hle hx
        cases hr : r e.off e.len with
        | some err' => rw [hr] at hb; cases hb; rfl
        | none => rw [hr] at hb; cases hb
  · rintro err i₁ w₁ _ ⟨hst, hloc⟩
    refine ⟨hst, fun hs => ?_⟩
    obtain ⟨db, file, hsee, h⟩ := hloc hs
    refine ⟨db, file, hsee, fun hn => ?_, fun e d hh => ?_⟩
    · rw [Db.entry_eq_none hn] at h
      cases h
    · rw [hh.entry] at h
      obtain ⟨m, hm, _⟩ := h
      cases hm

/-- `get` reads the blob the process sees. -/
theorem safe_get (hI : Inv S p w) (ho : Ready S p i w) (hlen : hash.length = kHashLen) :
    Eff.Safe (S.rules p) (Fetches S p i w hash fun _ _ => none) (get S.ext hash) i w :=
  safe_fetch (fun m off len => preadAll m.ino len off)
    (fun hP hI hw => (safe_preadAll hP hI hw).mono fun _ _ _ _ h =>
      ⟨.inl h.1, h.2.1, fun b hrel hb => by rw [h.2.2 b hrel hb]; rfl⟩) hI ho hlen

/-- `get_view` reads the blob the process sees, unless it ends behind the mapping. -/
theorem safe_getView (hI : Inv S p w) (ho : Ready S p i w) (hlen : hash.length = kHashLen) :
    Eff.Safe (S.rules p) (Fetches S p i w hash viewRefuses) (getView S.ext hash) i w :=
  safe_fetch view (fun hP hI hw => safe_view hP hI hw) hI ho hlen

/-- What an operation that only consults the index ends in: `f` of the entry the process sees. -/
def Consults {α : Type} (S : Setting) (p : Nat) (i : Impl) (w : World) (hash : Bytes)
    (f : Option IndexEntry → α) (x : Except Err α) (i' : Impl) (w' : World) : Prop :=
  i' = i ∧ Rely S p w w' ∧ (S.Reliable → ∃ db file, Sees S p i w w' db file ∧
    x = (db.entry hash).map f)

/-- A lookup of which only the entry is used. -/
theorem safe_consult {α : Type} {f : Option IndexEntry → α} (hI : Inv S p w) (ho : Ready S p i w)
    (hlen : hash.length = kHashLen) :
    Eff.Safe (S.rules p) (Consults S p i w hash f)
      (do
        let r ← lookup hash false
        pure (f r.2)) i w := by
  have hlook : ∀ db, lookupIn db hash false = (db.entry hash).map fun e => (0, e) := fun db => by
    rw [lookupIn, if_neg (not_not.2 hlen)]
    rfl
  refine safe_seq hI (safe_lookup hI ho) ?_ ?_
  · rintro ⟨gen, en⟩ i' w' hI' ⟨rfl, hR, db, file, hs, hx | ⟨_, e, he⟩⟩
    · refine safe_pure ((stable_rely hI).and stable_sees) hI' ⟨hR, hs⟩ fun w₁ _ h₁ =>
        ⟨rfl, h₁.1, fun _ => ⟨db, file, h₁.2, ?_⟩⟩
      rw [hlook] at hx
      cases he : db.entry hash with
      | error e => rw [he] at hx; cases hx
      | ok o => rw [he] at hx; cases hx; rfl
    · cases he
  · rintro e i' w' _ ⟨rfl, hR, db, file, hs, hx | ⟨hrel, _⟩⟩
    · refine ⟨rfl, hR, fun _ => ⟨db, file, hs, ?_⟩⟩
      rw [hlook] at hx
      cases he : db.entry hash with
      | error e => rw [he] at hx; cases hx; rfl
      | ok o => rw [he] at hx; cases hx
    · exact ⟨rfl, hR, fun h => absurd h hrel⟩

/-- `size` is the recorded length. -/
theorem safe_size (hI : Inv S p w) (ho : Ready S p i w) (hlen : hash.length = kHashLen) :
    Eff.Safe (S.rules p) (Consults S p i w hash (Option.map IndexEntry.rawLen)) (size hash) i w :=
  safe_consult hI ho hlen

/-- `has` is whether there is an entry. -/
theorem safe_has (hI : Inv S p w) (ho : Ready S p i w) (hlen : hash.length = kHashLen) :
    Eff.Safe (S.rules p) (Consults S p i w hash Option.isSome) (has hash) i w :=
  safe_consult hI ho hlen

end Tarmac.PackCas
