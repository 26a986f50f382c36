import Tarmac.Lib.Leads
import Tarmac.Lib.Returns
import Tarmac.PackCas.Never
import Tarmac.PackCas.Solo

/-!
# The two read paths

`get` reads the stored bytes of a blob with `pread` into a string of the length that the entry gives,
`get_view` takes them from the mapping of the pack. The bounds of an entry are checked by `decode_entry`
for both, by `Mapping::view` for the second, and by nothing but the end of the file for the first, which
needs memory for the string before it gets there. `agree_iff` says on which index values the two agree;
`empty_behind_end` is a value on which they do not.
-/

namespace Tarmac.PackCas

/-! ## What reading comes to -/

/-- No system call fails, and there is memory for a string of `n` bytes exactly if `grants n`; a transfer
may still move fewer bytes than it was asked for. -/
def granting (grants : Nat → Bool) (c : Call) (ch : Choice) : Prop :=
  ch.fail = true ↔ ∃ n, c = .alloc n ∧ grants n = false

/-- Only an allocation may fail. -/
theorem fail_of_granting {grants : Nat → Bool} {c : Call} {ch : Choice} (h : granting grants c ch)
    (hc : ∀ n, c ≠ .alloc n) : ch.fail = false := by
  rw [← Bool.not_eq_true]
  intro hfail
  obtain ⟨n, rfl, -⟩ := h.1 hfail
  exact hc n rfl

/-- What `resize` comes to. -/
def resizeOutcome (grants : Nat → Bool) (n : Nat) : Except Err Unit :=
  if maxOff < n then .error .lengthError else if grants n then .ok () else .error .badAlloc

/-- What the loop of `pread_all` comes to. -/
def readOutcome (file : Bytes) (off len : Nat) : Except Err Bytes :=
  if len = 0 ∨ off + len ≤ file.length then .ok (slice file off len)
  else if maxOff < off + len then .error (.sys "pread pack")
  else .error (.corrupt "pack truncated")

/-- A round of the loop. -/
theorem readOutcome_round {file : Bytes} {off len n : Nat} (hle : n ≤ len)
    (hfile : off + n ≤ file.length) : (readOutcome file (off + n) (len - n)).map
      (slice file off n ++ ·) = readOutcome file off len := by
  have hsum : off + n + (len - n) = off + len := by omega
  unfold readOutcome
  rw [hsum]
  by_cases hin : off + len ≤ file.length
  · rw [if_pos (.inr hin), if_pos (.inr hin), Except.map, slice_append, Nat.add_sub_cancel' hle]
  · have hrest : ¬(len - n = 0 ∨ off + len ≤ file.length) := by omega
    have hall : ¬(len = 0 ∨ off + len ≤ file.length) := by omega
    rw [if_neg hrest, if_neg hall]
    split <;> rfl

namespace IndexEntry

/-- The range is in the file, or empty. -/
def Readable (e : IndexEntry) (file : Bytes) : Prop := e.len = 0 ∨ e.off + e.len ≤ file.length

/-- The range is in the mapping, and in what the mapping knows of the file or in the file. -/
def Viewable (e : IndexEntry) (known : Nat) (file : Bytes) : Prop :=
  e.off + e.len ≤ kMapSize ∧ (e.off + e.len ≤ known ∨ e.off + e.len ≤ file.length)

/-- There is memory for the blob, where `decompress` asks for it. -/
def Roomy (grants : Nat → Bool) (e : IndexEntry) : Prop :=
  e.compressed → e.rawLen ≤ lz4MaxInputSize → e.len ≤ int32Max → grants e.rawLen

/-- The stored bytes do not unpack. -/
def Spoilt (ext : Ext) (e : IndexEntry) (file : Bytes) : Prop :=
  ∃ err, readStored ext e (slice file e.off e.len) = .error err

instance (e : IndexEntry) (file : Bytes) : Decidable (e.Readable file) :=
  inferInstanceAs (Decidable (_ ∨ _))

instance (e : IndexEntry) (known : Nat) (file : Bytes) : Decidable (e.Viewable known file) :=
  inferInstanceAs (Decidable (_ ∧ _))

/-- What `pread_all` comes to. -/
def preadOutcome (grants : Nat → Bool) (e : IndexEntry) (file : Bytes) : Except Err Bytes :=
  (resizeOutcome grants e.len).bind fun _ => readOutcome file e.off e.len

/-- With memory, a range of the file is read. -/
theorem preadOutcome_of_readable {grants : Nat → Bool} {e : IndexEntry} {file : Bytes}
    (hsize : file.length ≤ maxOff) (hmem : grants e.len) (h : e.Readable file) :
    e.preadOutcome grants file = .ok (slice file e.off e.len) := by
  have hlen : ¬maxOff < e.len := by
    rcases h with hzero | hin <;> omega
  rw [preadOutcome, resizeOutcome, if_neg hlen, if_pos hmem]
  exact if_pos h

/-- `pread_all` throws `CorruptError` only where the offsets behind the range are offsets of files. -/
theorem preadOutcome_of_not_readable {grants : Nat → Bool} {e : IndexEntry} {file : Bytes}
    (hmem : grants e.len) (h : ¬e.Readable file) :
    ∃ err, e.preadOutcome grants file = .error err ∧
      ((∃ msg, err = .corrupt msg) ↔ e.off + e.len ≤ maxOff) := by
  unfold preadOutcome resizeOutcome
  rw [if_pos hmem]
  split
  · exact ⟨_, rfl, iff_of_false nofun (by omega)⟩
  · rw [Except.bind, readOutcome]
    split
    · next hread => exact absurd hread h
    · split
      · exact ⟨_, rfl, iff_of_false nofun (by omega)⟩
      · exact ⟨_, rfl, iff_of_true ⟨_, rfl⟩ (by omega)⟩

/-- Without memory `pread_all` throws, and no `CorruptError`. -/
theorem preadOutcome_of_not_granted {grants : Nat → Bool} {e : IndexEntry} {file : Bytes}
    (h : ¬grants e.len) :
    ∃ err, e.preadOutcome grants file = .error err ∧ ∀ msg, err ≠ .corrupt msg := by
  unfold preadOutcome resizeOutcome
  rw [if_neg h]
  split
  · exact ⟨_, rfl, fun _ => by simp⟩
  · exact ⟨_, rfl, fun _ => by simp⟩

/-- What `Mapping::view` comes to. -/
def viewOutcome (e : IndexEntry) (known : Nat) (file : Bytes) : Except Err Bytes :=
  if e.Viewable known file then
    if e.Readable file then .ok (slice file e.off e.len) else .error .sigbus
  else .error (.corrupt "pack index out of bounds")

end IndexEntry

section

variable {grants : Nat → Bool} {p : Nat} {w : World} {i : Impl} {α : Type}

/-- A call that is answered in one way, and changes nothing. -/
theorem leads_call {c : Call} {f : c.Resp → CasM α} {r : c.Resp}
    {Q : Except Err α → Impl → World → Prop} (hc : ∀ n, c ≠ .alloc n)
    (hx : ∀ ch, ch.fail = false → exec p ch c w = some (r, w))
    (h : Eff.Leads (sem (granting grants) p) Q (f r) i w) :
    Eff.Leads (sem (granting grants) p) Q (perform c >>= f) i w := by
  refine Eff.Leads.perform (S := sig) fun r₁ w₁ hstep => ?_
  obtain ⟨ch, hch, hx₁⟩ := hstep
  cases (hx ch (fail_of_granting hch hc)).symm.trans hx₁
  exact h

/-- A call, the check of its answer, and the rest. -/
theorem leads_ask {β : Type} {c : Call} {k : c.Resp → CasM β} {f : β → CasM α}
    {Q : Except Err α → Impl → World → Prop} (hc : ∀ n, c ≠ .alloc n)
    (h : ∀ ch r w', ch.fail = false → exec p ch c w = some (r, w') →
      Eff.Leads (sem (granting grants) p) Q (k r >>= f) i w') :
    Eff.Leads (sem (granting grants) p) Q ((perform c >>= k) >>= f) i w := by
  have hcall : Eff.Leads (sem (granting grants) p) Q (Eff.perform (S := sig) c >>= fun r => k r >>= f) i w := by
    refine Eff.Leads.perform (S := sig) fun r w' hstep => ?_
    obtain ⟨ch, hch, hx⟩ := hstep
    exact h ch r w' (fail_of_granting hch hc) hx
  exact hcall

/-- `resize` of a string. -/
theorem leads_resize {n : Nat} {f : Unit → CasM α} {Q : Except Err α → Impl → World → Prop}
    (hok : resizeOutcome grants n = .ok () → Eff.Leads (sem (granting grants) p) Q (f ()) i w)
    (herr : ∀ err, resizeOutcome grants n = .error err → Q (.error err) i w) :
    Eff.Leads (sem (granting grants) p) Q (resize n >>= f) i w := by
  unfold resizeOutcome at hok herr
  rw [resize]
  split
  · next hlong =>
    rw [if_pos hlong] at herr
    exact .throw (herr _ rfl)
  · next hshort =>
    rw [if_neg hshort] at hok herr
    have hcall : Eff.Leads (sem (granting grants) p) Q
        (Eff.perform (S := sig) (.alloc n) >>= fun r => allocCheck r >>= f) i w := by
      refine Eff.Leads.perform (S := sig) fun r w' hstep => ?_
      obtain ⟨ch, hch, hx⟩ := hstep
      cases hx
      cases hmem : grants n with
      | true =>
        have hfail : ¬ch.fail = true := by
          intro hfail
          obtain ⟨m, hm, hno⟩ := hch.1 hfail
          cases hm
          rw [hmem] at hno
          cases hno
        rw [Choice.guard, if_neg hfail]
        exact hok (if_pos hmem)
      | false =>
        rw [Choice.guard, if_pos (hch.2 ⟨n, rfl, hmem⟩)]
        exact .throw (herr _ (if_neg (by simp [hmem])))
    exact hcall

/-- The loop of `pread_all`. -/
theorem leads_preadAll_go {ino fuel len off : Nat} {acc : Bytes} (hfuel : len ≤ fuel)
    (hsize : (w.fs.data ino).length ≤ maxOff) :
    Eff.Leads (sem (granting grants) p) (fun x i' w' => i' = i ∧ w' = w ∧
      x = (readOutcome (w.fs.data ino) off len).map (acc ++ ·)) (preadAll.go ino fuel len off acc) i w := by
  have hdone {off : Nat} {acc : Bytes} : Eff.Leads (sem (granting grants) p) (fun x i' w' => i' = i ∧ w' = w ∧
      x = (readOutcome (w.fs.data ino) off 0).map (acc ++ ·)) (pure acc : CasM Bytes) i w := by
    refine .pure ⟨rfl, rfl, ?_⟩
    rw [readOutcome, if_pos (.inl rfl), slice_zero, Except.map, List.append_nil]
  induction fuel generalizing len off acc with
  | zero =>
    cases Nat.le_zero.1 hfuel
    exact hdone
  | succ fuel ih =>
    rw [preadAll.go]
    by_cases hlen : len = 0
    · rw [if_pos hlen, hlen]
      exact hdone
    · rw [if_neg hlen]
      refine leads_ask (by simp) fun ch r w' hch hx => ?_
      obtain ⟨fail, more⟩ := ch
      obtain rfl : fail = false := hch
      simp only [exec, Bool.false_eq_true, if_false] at hx
      split at hx
      · next hbig =>
        have hout : ¬(len = 0 ∨ off + len ≤ (w.fs.data ino).length) := by omega
        cases hx
        refine Eff.Leads.throw ⟨rfl, rfl, ?_⟩
        rw [readOutcome, if_neg hout, if_pos hbig]
        rfl
      · next hsmall =>
        cases hx
        change Eff.Leads _ _ (if _ then _ else _) i w
        have hgot : ((slice (w.fs.data ino) off len).take (more + 1)).length =
            min (more + 1) (min len ((w.fs.data ino).length - off)) := by
          rw [List.length_take, length_slice]
        split
        · next hnil =>
          rw [hnil, List.length_nil] at hgot
          have hout : ¬(len = 0 ∨ off + len ≤ (w.fs.data ino).length) := by omega
          refine Eff.Leads.throw ⟨rfl, rfl, ?_⟩
          rw [readOutcome, if_neg hout, if_neg hsmall]
          rfl
        · next hne =>
          have hpos := List.length_pos_iff.2 hne
          obtain ⟨n, hslice, hlen', hfile, hn⟩ : ∃ n,
              (slice (w.fs.data ino) off len).take (more + 1) = slice (w.fs.data ino) off n ∧
              (slice (w.fs.data ino) off n).length = n ∧ off + n ≤ (w.fs.data ino).length ∧ n ≤ len := by
            refine ⟨min (more + 1) (min len ((w.fs.data ino).length - off)), ?_, ?_, by omega, by omega⟩
            · rw [slice, slice, List.take_take, List.take_eq_take_iff, List.length_drop]
              omega
            · rw [length_slice]
              omega
          rw [hslice] at hpos ⊢
          rw [hlen'] at hpos ⊢
          refine (ih (by omega)).mono ?_
          rintro x _ _ ⟨rfl, rfl, rfl⟩
          refine ⟨rfl, rfl, ?_⟩
          rw [← readOutcome_round hn hfile]
          cases readOutcome _ _ _ with
          | error e => rfl
          | ok b => exact congrArg Except.ok (List.append_assoc _ _ _)

/-- `pread_all` leads to its outcome. -/
theorem leads_preadAll {ino : Nat} {e : IndexEntry} (hsize : (w.fs.data ino).length ≤ maxOff) :
    Eff.Leads (sem (granting grants) p)
      (fun x i' w' => i' = i ∧ w' = w ∧ x = e.preadOutcome grants (w.fs.data ino))
      (preadAll ino e.len e.off) i w := by
  refine leads_resize (fun hok => (leads_preadAll_go (Nat.le_refl _) hsize).mono ?_) fun err herr => ?_
  · rintro x i' w' ⟨hi, hw, rfl⟩
    refine ⟨hi, hw, ?_⟩
    rw [IndexEntry.preadOutcome, hok, Except.bind]
    cases readOutcome (w.fs.data ino) e.off e.len with
    | error err => rfl
    | ok b => rfl
  · refine ⟨rfl, rfl, ?_⟩
    rw [IndexEntry.preadOutcome, herr]
    rfl

/-- The size of a pack is the length of its file. -/
theorem leads_fileSize {m : Mapping} {f : Nat → CasM α} {Q : Except Err α → Impl → World → Prop}
    (h : Eff.Leads (sem (granting grants) p) Q (f (w.fs.data m.ino).length) i w) :
    Eff.Leads (sem (granting grants) p) Q (fileSize m >>= f) i w := by
  refine leads_ask (by simp) fun ch r w' hch hx => ?_
  cases hx
  rw [Choice.guard, if_neg (by rw [hch]; exact Bool.false_ne_true)]
  exact h

/-- `Mapping::view`, of an entry whose end does not overflow. -/
theorem leads_view {m : Mapping} {e : IndexEntry} (hsum : e.off + e.len < 2 ^ 64) :
    Eff.Leads (sem (granting grants) p) (fun x _ _ => x = e.viewOutcome (i.known m.gen) (w.fs.data m.ino))
      (view m e.off e.len) i w := by
  have hmapped {i' : Impl} (hview : e.Viewable (i.known m.gen) (w.fs.data m.ino)) :
      Eff.Leads (sem (granting grants) p) (fun x _ _ => x = e.viewOutcome (i.known m.gen) (w.fs.data m.ino))
        (view.mapped m e.off e.len) i' w := by
    rw [IndexEntry.viewOutcome, if_pos hview]
    by_cases hread : e.Readable (w.fs.data m.ino)
    · rw [if_pos hread]
      refine leads_call (c := .mmapRead m.ino e.off e.len)
        (r := some (slice (w.fs.data m.ino) e.off e.len)) (by simp) (fun ch _ => ?_) (.pure rfl)
      exact congrArg (fun r : Option Bytes => some (r, w)) (if_pos hread)
    · rw [if_neg hread]
      refine leads_call (c := .mmapRead m.ino e.off e.len) (r := none) (by simp) (fun ch _ => ?_)
        (.throw rfl)
      exact congrArg (fun r : Option Bytes => some (r, w)) (if_neg hread)
  rw [view, Nat.mod_eq_of_lt hsum]
  split
  · next hbig =>
    refine Eff.Leads.throw ?_
    rw [IndexEntry.viewOutcome, if_neg fun h => absurd h.1 (by omega)]
  · next hsmall =>
    refine Eff.Leads.get ?_
    split
    · next hknown =>
      refine leads_fileSize (Eff.Leads.modify ?_)
      split
      · next hout =>
        refine Eff.Leads.throw ?_
        rw [IndexEntry.viewOutcome, if_neg fun h => absurd h.2 (by omega)]
      · next hin => exact hmapped ⟨not_lt.1 hsmall, .inr (not_lt.1 hin)⟩
    · next hknown => exact hmapped ⟨not_lt.1 hsmall, .inl (not_lt.1 hknown)⟩

end

/-! ## The entry -/

/-- The tables a handle reads. -/
def Impl.tables (i : Impl) (p : Nat) (w : World) : Option Db :=
  if i.batchTxn then w.txn p else some w.env.db

/-- The handle finds the index value `v` under the hash, and maps `m` for the pack, of which the mapping
knows `known` bytes. -/
structure Points (p : Nat) (i : Impl) (w : World) (hash v : Bytes) (m : Mapping) (known : Nat) :
    Prop where
  length : hash.length = kHashLen
  value : ∃ db, i.tables p w = some db ∧ db.gen = .ok m.gen ∧ db.blobs.find? hash = some v
  mapped : (i.find m.gen = some m ∧ known = i.known m.gen) ∨
    (i.find m.gen = none ∧ w.fs.ino m.gen = some m.ino ∧ known = (w.fs.data m.ino).length)

section

variable {grants : Nat → Bool} {p : Nat} {i : Impl} {w : World} {hash v : Bytes} {m : Mapping}
  {known : Nat} {α : Type}

/-- A new mapping leaves what was known of the generations. -/
theorem Impl.known_addMapping (i : Impl) (m : Mapping) : (i.addMapping m).known = i.known := by
  unfold Impl.addMapping
  split
  · rfl
  · split <;> rfl

/-- `mapping_for` leads to the mapping that is there or made. -/
theorem leads_mappingFor {create : Bool} (h : Points p i w hash v m known) :
    Eff.Leads (sem (granting grants) p) (fun x i' w' => x = .ok (some m) ∧ i'.known m.gen = known ∧ w' = w)
      (mappingFor m.gen create) i w := by
  rw [mappingFor]
  refine Eff.Leads.get ?_
  rcases h.mapped with ⟨hfind, rfl⟩ | ⟨hfind, hino, rfl⟩
  · rw [hfind]
    exact .pure ⟨rfl, rfl, rfl⟩
  · rw [hfind]
    have hopen : Eff.Leads (sem (granting grants) p)
        (fun x i' w' => x = .ok (some m) ∧ i'.known m.gen = (w.fs.data m.ino).length ∧ w' = w)
        (mapPack m.gen create) i w := by
      rw [mapPack]
      refine leads_call (c := .openPack m.gen create false) (r := .ok (some m.ino)) (by simp)
        (fun ch hch => ?_) ?_
      · simp only [exec, hch, Bool.false_eq_true, if_false, hino]
      · refine leads_fileSize ?_
        refine Eff.Leads.modify (leads_ask (by simp) fun ch r w' hch hx => ?_)
        cases hx
        rw [Choice.guard, if_neg (by rw [hch]; exact Bool.false_ne_true)]
        exact Eff.Leads.pure ⟨rfl, if_pos rfl, rfl⟩
    refine Eff.Leads.seq hopen ?_ ?_
    · rintro _ i' _ ⟨hm, hknown, rfl⟩
      cases hm
      refine Eff.Leads.modify (f := fun _ => Pure.pure (some m)) (.pure ⟨rfl, ?_, rfl⟩)
      rw [Impl.known_addMapping, hknown]
    · rintro e _ _ ⟨he, -⟩
      cases he

/-- Reading the tables. -/
theorem leads_readTxn {db : Db} {f : Db → CasM α} {Q : Except Err α → Impl → World → Prop}
    (hdb : i.tables p w = some db) (h : Eff.Leads (sem (granting grants) p) Q (f db) i w) :
    Eff.Leads (sem (granting grants) p) Q (readTxn >>= f) i w := by
  unfold Impl.tables at hdb
  rw [readTxn, bind_assoc]
  refine Eff.Leads.get ?_
  split at hdb
  · next hbatch =>
    rw [if_pos hbatch]
    refine leads_ask (by simp) fun ch r w' hch hx => ?_
    simp only [exec, hdb] at hx
    cases hx
    exact h
  · next hbatch =>
    rw [if_neg hbatch]
    cases hdb
    refine leads_ask (by simp) fun ch r w' hch hx => ?_
    cases hx
    rw [Choice.mdbGuard, if_neg (by rw [hch]; exact Bool.false_ne_true)]
    exact h

/-- Reading the index. -/
theorem leads_mdbRead {what : String} {f : Unit → CasM α} {Q : Except Err α → Impl → World → Prop}
    (h : Eff.Leads (sem (granting grants) p) Q (f ()) i w) :
    Eff.Leads (sem (granting grants) p) Q ((perform .mdbRead >>= mdbCheck what) >>= f) i w := by
  refine leads_ask (by simp) fun ch r w' hch hx => ?_
  cases hx
  rw [Choice.mdbGuard, if_neg (by rw [hch]; exact Bool.false_ne_true)]
  exact h

/-- The lookup leads to what the index value decodes to. -/
theorem leads_lookup (h : Points p i w hash v m known) :
    Eff.Leads (sem (granting grants) p) (fun x i' w' => i' = i ∧ w' = w ∧
      x = (decodeEntry v).map fun e => (m.gen, some e)) (lookup hash true) i w := by
  obtain ⟨db, hdb, hgen, hv⟩ := h.value
  rw [lookup, if_neg (not_not.2 h.length)]
  refine leads_readTxn hdb ?_
  rw [if_pos rfl, readGen, bind_assoc]
  refine leads_mdbRead ?_
  rw [hgen, Eff.ofExcept_ok, pure_bind]
  refine leads_mdbRead ?_
  rw [hv]
  dsimp only
  cases decodeEntry v with
  | ok e => exact .pure ⟨rfl, rfl, rfl⟩
  | error err => exact .throw ⟨rfl, rfl, rfl⟩

/-- `locate`, where the handle finds an index value. -/
theorem leads_locate (h : Points p i w hash v m known) :
    Eff.Leads (sem (granting grants) p) (fun x i' w' => w' = w ∧ x = (decodeEntry v).map (fun e => some (e, m)) ∧
      ∀ e, decodeEntry v = .ok e → i'.known m.gen = known) (locate hash) i w := by
  unfold locate
  rw [show kMaxGenerationRetries = kMaxGenerationRetries - 1 + 1 from rfl, locate.go]
  refine Eff.Leads.seq (leads_lookup h) ?_ ?_
  · rintro r _ _ ⟨rfl, rfl, hr⟩
    cases hdecode : decodeEntry v with
    | error err =>
      rw [hdecode] at hr
      cases hr
    | ok e =>
      rw [hdecode] at hr
      cases hr
      refine Eff.Leads.get (Eff.Leads.seq (leads_mappingFor h) ?_ ?_)
      · rintro _ i' _ ⟨hm, hknown, rfl⟩
        cases hm
        exact .pure ⟨rfl, rfl, fun _ _ => hknown⟩
      · rintro err _ _ ⟨he, -⟩
        cases he
  · rintro err _ _ ⟨rfl, rfl, hr⟩
    cases hdecode : decodeEntry v with
    | error err' =>
      rw [hdecode] at hr
      cases hr
      exact ⟨rfl, rfl, nofun⟩
    | ok e =>
      rw [hdecode] at hr
      cases hr

end

/-! ## Agreement -/

/-- Both have succeeded with the same bytes, or both have thrown `CorruptError`. -/
def Alike (x y : Except Err (Option Bytes)) : Prop :=
  (∃ d, x = .ok (some d) ∧ y = .ok (some d)) ∨
    ((∃ msg, x = .error (.corrupt msg)) ∧ ∃ msg, y = .error (.corrupt msg))

/-- `get` and `get_view` end, and do alike. -/
def Agree (ext : Ext) (grants : Nat → Bool) (p : Nat) (i : Impl) (w : World) (hash : Bytes) : Prop :=
  (∃ tr y w', Prog.Run (sem (granting grants) p) (get ext hash i) w tr y w') ∧
  (∃ tr y w', Prog.Run (sem (granting grants) p) (getView ext hash i) w tr y w') ∧
  ∀ tr x i₁ w₁ tr' y i₂ w₂,
    Prog.Run (sem (granting grants) p) (get ext hash i) w tr (x, i₁) w₁ →
    Prog.Run (sem (granting grants) p) (getView ext hash i) w tr' (y, i₂) w₂ → Alike x y

/-- The entries that both paths treat alike: there is memory for the stored bytes, and the range is one
that both can read, with memory for the blob, or one that neither can; stored bytes that do not unpack
are refused by `get` also where only the view refuses the range. -/
def Uniform (ext : Ext) (grants : Nat → Bool) (e : IndexEntry) (known : Nat) (file : Bytes) : Prop :=
  grants e.len ∧
    ((e.Readable file ∧ e.Roomy grants ∧ (e.Viewable known file ∨ e.Spoilt ext file)) ∨
      (¬e.Readable file ∧ ¬e.Viewable known file ∧ e.off + e.len ≤ maxOff))

section

variable {ext : Ext} {grants : Nat → Bool} {p : Nat} {i : Impl} {w : World} {hash v : Bytes}
  {m : Mapping} {known : Nat}

/-- What unpacking the stored bytes of an entry comes to. -/
def unpackOutcome (ext : Ext) (grants : Nat → Bool) (e : IndexEntry) (stored : Bytes) :
    Except Err Bytes :=
  if e.compressed ∧ e.rawLen ≤ lz4MaxInputSize ∧ stored.length ≤ int32Max ∧ grants e.rawLen = false then
    .error .badAlloc
  else readStored ext e stored

/-- What `get` and `get_view` do with the stored bytes. -/
def unpack (ext : Ext) (grants : Nat → Bool) (e : IndexEntry) (stored : Except Err Bytes) :
    Except Err (Option Bytes) :=
  (stored.bind (unpackOutcome ext grants e)).map some

/-- `decompress` leads to its outcome. -/
theorem leads_decompress {e : IndexEntry} {stored : Bytes} (hc : e.compressed) :
    Eff.Leads (sem (granting grants) p) (fun y _ _ => y = unpackOutcome ext grants e stored)
      (decompress ext stored e.rawLen) i w := by
  have hread : readStored ext e stored = unpackBlob ext stored e.rawLen := if_pos hc
  have hmax : lz4MaxInputSize < maxOff := by decide
  unfold unpackOutcome
  rw [decompress_eq, hread]
  by_cases hbig : lz4MaxInputSize < e.rawLen ∨ int32Max < stored.length
  · rw [if_pos hbig, if_neg (by omega), unpackBlob, if_pos hbig]
    exact .throw rfl
  · have hlen : ¬maxOff < e.rawLen := by omega
    rw [if_neg hbig]
    refine leads_resize (fun hok => ?_) fun err herr => ?_
    · have hmem : grants e.rawLen = true := by
        by_contra hno
        rw [resizeOutcome, if_neg hlen, if_neg hno] at hok
        cases hok
      rw [if_neg (by simp [hmem])]
      exact .ofExcept rfl
    · rw [resizeOutcome, if_neg hlen] at herr
      split at herr
      · cases herr
      · next hno =>
        cases herr
        rw [if_pos ⟨hc, by omega, by omega, by simpa using hno⟩]

/-- Both paths unpack what they have read in the same way. -/
theorem leads_unpack {e : IndexEntry} {stored : CasM Bytes} {x : Except Err Bytes}
    (h : Eff.Leads (sem (granting grants) p) (fun y _ _ => y = x) stored i w) :
    Eff.Leads (sem (granting grants) p) (fun y _ _ => y = unpack ext grants e x) (do
      let stored ← stored
      if e.compressed then
        let out ← decompress ext stored e.rawLen
        pure (some out)
      else pure (some stored)) i w := by
  refine Eff.Leads.seq h ?_ ?_
  · rintro b i' w' rfl
    unfold unpack Except.bind
    dsimp only
    split
    · next hc =>
      refine Eff.Leads.seq (leads_decompress hc) ?_ ?_
      · rintro out _ _ hout
        rw [← hout]
        exact .pure rfl
      · rintro err _ _ hout
        rw [← hout]
        rfl
    · next hc =>
      rw [unpackOutcome, if_neg (fun h => hc h.1), readStored, if_neg hc]
      exact .pure rfl
  · rintro err _ _ rfl
    rfl

/-- `get`, where the handle finds an index value. -/
theorem leads_get (h : Points p i w hash v m known) (hsize : (w.fs.data m.ino).length ≤ maxOff) :
    Eff.Leads (sem (granting grants) p) (fun x _ _ => x = (decodeEntry v).bind fun e =>
      unpack ext grants e (e.preadOutcome grants (w.fs.data m.ino))) (get ext hash) i w := by
  rw [get]
  refine Eff.Leads.seq (leads_locate h) ?_ ?_
  · rintro r i' _ ⟨rfl, hr, -⟩
    cases hdecode : decodeEntry v with
    | error err =>
      rw [hdecode] at hr
      cases hr
    | ok e =>
      rw [hdecode] at hr
      cases hr
      exact leads_unpack ((leads_preadAll hsize).mono fun x _ _ hx => hx.2.2)
  · rintro err _ _ ⟨-, hr, -⟩
    cases hdecode : decodeEntry v with
    | error err' =>
      rw [hdecode] at hr
      cases hr
      rfl
    | ok e =>
      rw [hdecode] at hr
      cases hr

/-- `get_view`, where the handle finds an index value. -/
theorem leads_getView (h : Points p i w hash v m known) :
    Eff.Leads (sem (granting grants) p) (fun x _ _ => x = (decodeEntry v).bind fun e =>
      unpack ext grants e (e.viewOutcome known (w.fs.data m.ino))) (getView ext hash) i w := by
  rw [getView]
  refine Eff.Leads.seq (leads_locate h) ?_ ?_
  · rintro r i' _ ⟨rfl, hr, hknown⟩
    cases hdecode : decodeEntry v with
    | error err =>
      rw [hdecode] at hr
      cases hr
    | ok e =>
      rw [hdecode] at hr
      cases hr
      rw [← hknown e hdecode]
      exact leads_unpack (leads_view (decodeEntry_lt hdecode))
  · rintro err _ _ ⟨-, hr, -⟩
    cases hdecode : decodeEntry v with
    | error err' =>
      rw [hdecode] at hr
      cases hr
      rfl
    | ok e =>
      rw [hdecode] at hr
      cases hr

/-- Functions that read are not held up. -/
theorem exists_run_of_never {α : Type} {m : CasM α} (grants : Nat → Bool) (h : Never .txnBegin m) :
    ∃ tr y w', Prog.Run (sem (granting grants) p) (m i) w tr y w' := by
  refine Prog.Makes.exists_run ?_ (h i).makes w
  intro c w hc
  obtain ⟨ch, hch⟩ : ∃ ch, granting grants c ch := by
    by_cases hno : ∃ n, c = .alloc n ∧ grants n = false
    · exact ⟨⟨true, 0⟩, iff_of_true rfl hno⟩
    · exact ⟨{}, iff_of_false (by simp) hno⟩
  obtain ⟨r, w', hx⟩ : ∃ r w', exec p ch c w = some (r, w') := by
    cases c with
    | txnBegin => exact absurd rfl hc
    | flockTry | txnCommit | txnAbort | txnDb | openPack | pread | ftruncate =>
      unfold exec
      dsimp only
      repeat' split
      all_goals exact ⟨_, _, rfl⟩
    | _ => exact ⟨_, _, rfl⟩
  exact ⟨r, w', ch, hch, hx⟩

/-- `decompress` makes only calls that read. -/
theorem never_decompress {c : Call} (hc : c.reads = false) {stored : Bytes} {n : Nat} :
    Never c (decompress ext stored n) := by
  rw [decompress_eq]
  split
  · exact never_throw
  · exact never_seq (never_resize hc) fun _ => Eff.Avoids.ofExcept

theorem never_casGet {c : Call} (hc : c.reads = false) : Never c (get ext hash) := by
  refine never_seq (never_locate hc) fun r => ?_
  split
  · exact never_pure
  · refine never_seq (never_preadAll hc) fun stored => ?_
    split
    · exact never_seq (never_decompress hc) fun _ => never_pure
    · exact never_pure

theorem never_casGetView {c : Call} (hc : c.reads = false) : Never c (getView ext hash) := by
  refine never_seq (never_locate hc) fun r => ?_
  split
  · exact never_pure
  · refine never_seq (never_view hc) fun stored => ?_
    split
    · exact never_seq (never_decompress hc) fun _ => never_pure
    · exact never_pure

/-- An index value that does not decode is corrupt. -/
theorem decodeEntry_corrupt {err : Err} (h : decodeEntry v = .error err) : ∃ msg, err = .corrupt msg := by
  rw [decodeEntry] at h
  split at h
  · cases h
    exact ⟨_, rfl⟩
  · dsimp only at h
    split at h
    · cases h
      exact ⟨_, rfl⟩
    · cases h

/-- Stored bytes that do not unpack are corrupt. -/
theorem readStored_corrupt {e : IndexEntry} {stored : Bytes} {err : Err}
    (h : readStored ext e stored = .error err) : ∃ msg, err = .corrupt msg := by
  unfold readStored at h
  split at h
  · unfold unpackBlob at h
    split at h
    · cases h
      exact ⟨_, rfl⟩
    · split at h
      · cases h
        exact ⟨_, rfl⟩
      · split at h
        · cases h
          exact ⟨_, rfl⟩
        · cases h
  · cases h

/-- The stored bytes of an entry for whose blob there is memory. -/
theorem unpackOutcome_of_roomy {e : IndexEntry} {stored : Bytes} (hlen : stored.length = e.len)
    (h : e.Roomy grants) : unpackOutcome ext grants e stored = readStored ext e stored := by
  refine if_neg ?_
  rintro ⟨hc, hraw, hstored, hno⟩
  rw [h hc hraw (hlen ▸ hstored)] at hno
  cases hno

/-- Without memory for the blob, `decompress` gets none. -/
theorem unpackOutcome_of_not_roomy {e : IndexEntry} {stored : Bytes} (hlen : stored.length = e.len)
    (h : ¬e.Roomy grants) : unpackOutcome ext grants e stored = .error .badAlloc := by
  simp only [IndexEntry.Roomy, Classical.not_imp] at h
  obtain ⟨hc, hraw, hstored, hno⟩ := h
  exact if_pos ⟨hc, hraw, hlen ▸ hstored, by simpa using hno⟩

/-- An outcome that is alike to another is a blob or a `CorruptError`. -/
theorem not_alike {err : Err} (h : ∀ msg, err ≠ .corrupt msg) {y : Except Err (Option Bytes)} :
    ¬Alike (.error err) y := by
  rintro (⟨d, hx, -⟩ | ⟨⟨msg, hx⟩, -⟩)
  · cases hx
  · exact h msg (Except.error.inj hx)

/-- Stored bytes that both paths have read. -/
theorem alike_unpack {e : IndexEntry} {b : Bytes} (hlen : b.length = e.len) :
    Alike (unpack ext grants e (.ok b)) (unpack ext grants e (.ok b)) ↔ e.Roomy grants := by
  rw [unpack, Except.bind]
  by_cases hroom : e.Roomy grants
  · refine iff_of_true ?_ hroom
    rw [unpackOutcome_of_roomy hlen hroom]
    cases h : readStored ext e b with
    | ok d => exact .inl ⟨d, rfl, rfl⟩
    | error err =>
      obtain ⟨msg, rfl⟩ := readStored_corrupt h
      exact .inr ⟨⟨msg, rfl⟩, msg, rfl⟩
  · refine iff_of_false ?_ hroom
    rw [unpackOutcome_of_not_roomy hlen hroom]
    exact not_alike fun _ => by simp

/-- Stored bytes that only `pread` has read. -/
theorem alike_spoilt {e : IndexEntry} {file : Bytes} {msg : String}
    (hlen : (slice file e.off e.len).length = e.len) :
    Alike (unpack ext grants e (.ok (slice file e.off e.len)))
      (unpack ext grants e (.error (.corrupt msg))) ↔ e.Roomy grants ∧ e.Spoilt ext file := by
  rw [unpack, unpack, Except.bind, Except.bind, IndexEntry.Spoilt]
  by_cases hroom : e.Roomy grants
  · rw [unpackOutcome_of_roomy hlen hroom]
    cases hstored : readStored ext e (slice file e.off e.len) with
    | ok d =>
      refine iff_of_false ?_ nofun
      rintro (⟨d', -, hy⟩ | ⟨⟨msg, hx⟩, -⟩)
      · cases hy
      · cases hx
    | error err =>
      obtain ⟨msg, rfl⟩ := readStored_corrupt hstored
      exact iff_of_true (.inr ⟨⟨msg, rfl⟩, _, rfl⟩) ⟨hroom, _, rfl⟩
  · refine iff_of_false ?_ fun h => hroom h.1
    rw [unpackOutcome_of_not_roomy hlen hroom]
    exact not_alike fun _ => by simp

/-- The outcomes are alike just for the uniform entries. -/
theorem alike_iff {e : IndexEntry} {file : Bytes} (hsize : file.length ≤ maxOff) :
    Alike (unpack ext grants e (e.preadOutcome grants file))
      (unpack ext grants e (e.viewOutcome known file)) ↔ Uniform ext grants e known file := by
  unfold Uniform IndexEntry.viewOutcome
  by_cases hmem : grants e.len
  · by_cases hread : e.Readable file
    · have hlen : (slice file e.off e.len).length = e.len := by
        rw [length_slice]
        rcases hread with hzero | hin <;> omega
      rw [e.preadOutcome_of_readable hsize hmem hread, if_pos hread]
      by_cases hview : e.Viewable known file
      · rw [if_pos hview, alike_unpack hlen]
        exact ⟨fun h => ⟨hmem, .inl ⟨hread, h, .inl hview⟩⟩,
          fun h => h.2.elim (fun h => h.2.1) fun h => absurd hread h.1⟩
      · rw [if_neg hview, alike_spoilt hlen]
        constructor
        · exact fun h => ⟨hmem, .inl ⟨hread, h.1, .inr h.2⟩⟩
        · rintro ⟨-, ⟨-, hroom, h | h⟩ | ⟨h, -⟩⟩
          · exact absurd h hview
          · exact ⟨hroom, h⟩
          · exact absurd hread h
    · obtain ⟨err, herr, hcorrupt⟩ := e.preadOutcome_of_not_readable hmem hread
      rw [herr, if_neg hread]
      by_cases hview : e.Viewable known file
      · rw [if_pos hview]
        refine iff_of_false ?_ ?_
        · rintro (⟨d, -, hy⟩ | ⟨-, msg, hy⟩)
          · cases hy
          · cases hy
        · rintro ⟨-, ⟨h, -⟩ | ⟨-, h, -⟩⟩
          · exact hread h
          · exact h hview
      · rw [if_neg hview]
        constructor
        · rintro (⟨d, hx, -⟩ | ⟨⟨msg, hx⟩, -⟩)
          · cases hx
          · exact ⟨hmem, .inr ⟨hread, hview, hcorrupt.1 ⟨msg, Except.error.inj hx⟩⟩⟩
        · rintro ⟨-, ⟨h, -⟩ | ⟨-, -, h⟩⟩
          · exact absurd h hread
          · obtain ⟨msg, rfl⟩ := hcorrupt.2 h
            exact .inr ⟨⟨msg, rfl⟩, _, rfl⟩
  · -- `get` gets no memory for the stored bytes
    obtain ⟨err, herr, hcorrupt⟩ : ∃ err, e.preadOutcome grants file = .error err ∧
        ∀ msg, err ≠ .corrupt msg := e.preadOutcome_of_not_granted hmem
    rw [herr]
    exact iff_of_false (not_alike hcorrupt) fun h => hmem h.1

/-- `get` and `get_view` agree when what they come to is alike. -/
theorem agree_alike (h : Points p i w hash v m known) (hsize : (w.fs.data m.ino).length ≤ maxOff) :
    Agree ext grants p i w hash ↔ Alike
      ((decodeEntry v).bind fun e => unpack ext grants e (e.preadOutcome grants (w.fs.data m.ino)))
      ((decodeEntry v).bind fun e => unpack ext grants e (e.viewOutcome known (w.fs.data m.ino))) := by
  have hget : Eff.Leads (sem (granting grants) p) _ (get ext hash) i w := leads_get h hsize
  have hview : Eff.Leads (sem (granting grants) p) _ (getView ext hash) i w := leads_getView h
  constructor
  · rintro ⟨⟨tr, ⟨x, i₁⟩, w₁, hr⟩, ⟨tr', ⟨y, i₂⟩, w₂, hr'⟩, hall⟩
    rw [← hget _ _ _ _ hr, ← hview _ _ _ _ hr']
    exact hall _ _ _ _ _ _ _ _ hr hr'
  · intro hboth
    refine ⟨exists_run_of_never grants (never_casGet rfl),
      exists_run_of_never grants (never_casGetView rfl), ?_⟩
    intro tr x i₁ w₁ tr' y i₂ w₂ hr hr'
    rw [hget _ _ _ _ hr, hview _ _ _ _ hr']
    exact hboth

/-- `get` and `get_view` agree on an index value just when it does not decode, or to a uniform entry,
whatever the lengths are for which there is memory. -/
theorem agree_iff (h : Points p i w hash v m known) (hsize : (w.fs.data m.ino).length ≤ maxOff) :
    Agree ext grants p i w hash ↔
      ∀ e, decodeEntry v = .ok e → Uniform ext grants e known (w.fs.data m.ino) := by
  rw [agree_alike h hsize]
  cases hdecode : decodeEntry v with
  | error err =>
    obtain ⟨msg, rfl⟩ := decodeEntry_corrupt hdecode
    exact iff_of_true (.inr ⟨⟨msg, rfl⟩, msg, rfl⟩) nofun
  | ok e =>
    refine (alike_iff hsize).trans ⟨?_, fun hall => hall e rfl⟩
    rintro huniform _ ⟨⟩
    exact huniform

end

/-! ## Samples -/

/-- A hash. -/
def sampleHash : Bytes := List.replicate kHashLen 0

/-- A store with one index value, and three bytes in the pack. -/
def World.indexed (v : Bytes) : World :=
  ⟨⟨[(0, 0)], fun _ => [1, 2, 3], 1⟩, ⟨⟨SortedMap.empty.insert sampleHash v, .empty⟩, none, none⟩⟩

/-- The handle finds the index value. -/
theorem points_indexed (v : Bytes) : Points 0 {} (.indexed v) sampleHash v ⟨0, 0⟩ 3 where
  length := rfl
  value := ⟨_, rfl, rfl, SortedMap.find?_insert_self⟩
  mapped := .inr ⟨rfl, rfl, rfl⟩

/-- On a machine that has memory for fewer than 2^32 bytes the two agree on an entry of the whole pack,
and not on one of 2^47 bytes. -/
theorem agree_iff_sample :
    Agree .sample (fun n => decide (n < 2 ^ 32)) 0 {} (.indexed (encodeEntry ⟨0, 3, 3⟩)) sampleHash ∧
    ¬Agree .sample (fun n => decide (n < 2 ^ 32)) 0 {}
      (.indexed (encodeEntry ⟨0, 2 ^ 47, 2 ^ 47⟩)) sampleHash := by
  constructor
  · refine (agree_iff (points_indexed _) (by decide)).2 fun e he => ?_
    rw [decodeEntry_encodeEntry (by decide) (by decide)] at he
    cases he
    exact ⟨by decide, .inl ⟨by decide, fun hc => absurd hc (by decide), .inl (by decide)⟩⟩
  · intro hagree
    have huniform := (agree_iff (points_indexed _) (by decide)).1 hagree _
      (decodeEntry_encodeEntry (by decide) (by decide))
    exact absurd huniform.1 (by decide)

/-- An empty entry behind the end of the pack: `get` finds the empty blob, `get_view` refuses. -/
theorem empty_behind_end :
    ¬∀ (ext : Ext) (grants : Nat → Bool) (p : Nat) (i : Impl) (w : World) (hash v : Bytes) (m : Mapping)
      (known : Nat), Points p i w hash v m known → (w.fs.data m.ino).length ≤ maxOff →
        Agree ext grants p i w hash := by
  intro hall
  have hagree := hall .sample (fun _ => true) _ _ _ _ _ _ _ (points_indexed (encodeEntry ⟨4, 0, 0⟩))
    (by decide)
  rw [agree_alike (points_indexed _) (by decide), decodeEntry_encodeEntry (by decide) (by decide)]
    at hagree
  rcases (alike_iff (by decide)).1 hagree with ⟨-, ⟨-, -, h | ⟨err, h⟩⟩ | ⟨h, -⟩⟩
  · exact absurd h (by decide)
  · cases h
  · exact h (.inl rfl)

end Tarmac.PackCas
