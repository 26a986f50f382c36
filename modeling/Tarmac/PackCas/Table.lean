import Tarmac.PackCas.Code

/-!
# Index tables over a pack file

What the index stores about a pack: `TableOk ext file lim t` says that the entries of `t` lie in
the first `lim` bytes of `file`, that each decodes to a blob whose hash is its key, and that
non-empty entries do not overlap. The table then stands for the finite map `tableMap ext file t`.
Both depend on the first `lim` bytes only (`TableOk.congr`, `tableMap_congr`), so whatever is
appended, left over or cut off behind them does not matter.
-/

namespace Tarmac.PackCas

/-- A finite map from hashes to blobs. -/
abbrev BlobMap : Type := Bytes → Option Bytes

/-- The blob behind the stored bytes of an entry. -/
def readStored (ext : Ext) (e : IndexEntry) (stored : Bytes) : Except Err Bytes :=
  if e.compressed then unpackBlob ext stored e.rawLen else .ok stored

/-- `decompress` checks the sizes, makes room for the blob, and unpacks it. -/
theorem decompress_eq {ext : Ext} {stored : Bytes} {n : Nat} : decompress ext stored n =
    if lz4MaxInputSize < n ∨ int32Max < stored.length then
      Eff.throw (.corrupt "corrupt index entry: blob too large")
    else resize n >>= fun _ => Eff.ofExcept (unpackBlob ext stored n) := by
  unfold decompress
  split
  · rfl
  · next hsize =>
    rw [unpackBlob, if_neg hsize]
    cases ext.lz4Decompress stored n with
    | none => rfl
    | some out =>
      by_cases hlen : out.length = n
      · simp only [ne_eq, hlen, not_true_eq_false, if_false]
        rfl
      · simp only [ne_eq, hlen, not_false_eq_true, if_true]
        rfl

/-- The blob behind an index value. -/
def cellOf (ext : Ext) (file v : Bytes) : Except Err Bytes :=
  match decodeEntry v with
  | .error e => .error e
  | .ok e => readStored ext e (slice file e.off e.len)

/-- The finite map a table stands for. -/
def tableMap (ext : Ext) (file : Bytes) (t : SortedMap Bytes Bytes) : BlobMap := fun k =>
  (t.find? k).bind fun v => (cellOf ext file v).toOption

/-- The records of the meta table other than the two `PackCas` keeps for itself. -/
def Db.records (db : Db) : SortedMap Bytes Bytes :=
  db.metaTable.filter fun k _ => decide (k ≠ genKey ∧ k ≠ formatKey)

/-- What a store holds: blobs by hash, records by key, and the number of compactions behind it. -/
structure Store where
  blobs : BlobMap
  records : SortedMap Bytes Bytes
  gen : Nat

/-- The store that tables over a pack file stand for. -/
def storeOf (ext : Ext) (file : Bytes) (db : Db) : Store :=
  ⟨tableMap ext file db.blobs, db.records, db.gen.toOption.getD 0⟩

/-- Two entries share no byte of the pack. -/
def IndexEntry.Disjoint (e e' : IndexEntry) : Prop :=
  e.off + e.len ≤ e'.off ∨ e'.off + e'.len ≤ e.off

/-- The table describes the first `lim` bytes of the pack. -/
structure TableOk (ext : Ext) (file : Bytes) (lim : Nat) (t : SortedMap Bytes Bytes) : Prop where
  entry : ∀ k v, t.find? k = some v → ∃ e d, decodeEntry v = .ok e ∧ e.off + e.len ≤ lim ∧
    readStored ext e (slice file e.off e.len) = .ok d ∧ ext.blake3 d = k ∧ d.length = e.rawLen
  disjoint : ∀ k k' v v' e e', k ≠ k' → t.find? k = some v → t.find? k' = some v' →
    decodeEntry v = .ok e → decodeEntry v' = .ok e' → e.len ≠ 0 → e'.len ≠ 0 → e.Disjoint e'

/-- Adds a blob unless its hash is taken. -/
def BlobMap.add (M : BlobMap) (h d : Bytes) : BlobMap := fun k =>
  if k = h ∧ M h = none then some d else M k

/-- Keeps the blobs whose hashes satisfy `live`. -/
def BlobMap.restrict (M : BlobMap) (live : Bytes → Bool) : BlobMap := fun k =>
  if live k then M k else none

/-! ## Entries -/

/-- An entry that fits 64-bit integers is read back as it was written. -/
theorem decodeEntry_encodeEntry {e : IndexEntry} (h : e.off + e.len < 2 ^ 64)
    (hraw : e.rawLen < 2 ^ 64) : decodeEntry (encodeEntry e) = .ok e := by
  have h₁ : slice (encodeEntry e) 0 8 = leBytes 8 e.off := by
    rw [slice, encodeEntry, List.drop_zero, List.append_assoc,
      List.take_append_of_le_length (by simp), List.take_of_length_le (by simp)]
  have h₂ : slice (encodeEntry e) 8 8 = leBytes 8 e.len := by
    rw [slice, encodeEntry, List.append_assoc, List.drop_append_of_le_length (by simp),
      List.drop_eq_nil_of_le (by simp), List.nil_append,
      List.take_append_of_le_length (by simp), List.take_of_length_le (by simp)]
  have h₃ : slice (encodeEntry e) 16 8 = leBytes 8 e.rawLen := by
    rw [slice, encodeEntry, List.drop_append_of_le_length (by simp),
      List.drop_eq_nil_of_le (by simp), List.nil_append, List.take_of_length_le (by simp)]
  have hlen : (encodeEntry e).length = 24 := by simp [encodeEntry]
  have hpow : 256 ^ 8 = 2 ^ 64 := by decide
  rw [decodeEntry, if_neg (not_not.2 hlen)]
  simp only [h₁, h₂, h₃, ofLeBytes_leBytes, hpow, Nat.mod_eq_of_lt hraw,
    Nat.mod_eq_of_lt (show e.off < 2 ^ 64 by omega), Nat.mod_eq_of_lt (show e.len < 2 ^ 64 by omega),
    Nat.mod_eq_of_lt h]
  exact if_neg (by omega)

/-- What `decodeEntry` accepts ends below `2 ^ 64`. -/
theorem decodeEntry_lt {v : Bytes} {e : IndexEntry} (h : decodeEntry v = .ok e) :
    e.off + e.len < 2 ^ 64 := by
  have hpow : 256 ^ 8 = 2 ^ 64 := by decide
  have hs : ∀ n, ofLeBytes (slice v n 8) < 2 ^ 64 := fun n => by
    have h₁ := ofLeBytes_lt (slice v n 8)
    have h₂ : 256 ^ (slice v n 8).length ≤ 256 ^ 8 :=
      Nat.pow_le_pow_right (by omega) (by rw [length_slice]; omega)
    omega
  rw [decodeEntry] at h
  split at h
  · cases h
  · dsimp only at h
    split at h
    · cases h
    · next hlt =>
      cases h
      have := hs 0
      have := hs 8
      dsimp only at hlt ⊢
      omega

/-- What `put` stores for a blob is read back as the blob. -/
theorem readStored_packBlob {ext : Ext} (hext : ext.Lawful) (d : Bytes) (off : Nat) :
    readStored ext ⟨off, (packBlob ext d).length, d.length⟩ (packBlob ext d) = .ok d := by
  have hraw : readStored ext ⟨off, d.length, d.length⟩ d = .ok d := by
    simp [readStored, IndexEntry.compressed]
  rw [packBlob]
  split
  · next hsize =>
    split
    · next s hs =>
      split
      · next hpos =>
        have hle := hext.compress_le _ _ _ hs
        have hne : s ≠ [] := fun h => by simp [h] at hpos
        have hrt := hext.roundtrip _ _ _ hsize.2 hs hne
        have hmin : kMinCompressSize ≤ d.length := hsize.1
        have hmax : d.length ≤ lz4MaxInputSize := hsize.2
        have hcomp : (⟨off, s.length, d.length⟩ : IndexEntry).compressed = true := by
          simp only [IndexEntry.compressed, bne_iff_ne]
          simp only [kMinCompressSize] at hmin
          omega
        rw [readStored, if_pos hcomp, unpackBlob, if_neg, hrt]
        · simp
        · simp only [lz4MaxInputSize, int32Max] at *
          omega
      · exact hraw
    · exact hraw
  · exact hraw

/-- The stored form of a blob is not longer than the blob. -/
theorem length_packBlob_le {ext : Ext} (hext : ext.Lawful) (d : Bytes) :
    (packBlob ext d).length ≤ d.length := by
  rw [packBlob]
  split
  · split
    · next s hs =>
      split
      · have := hext.compress_le _ _ _ hs
        omega
      · exact Nat.le_refl _
    · exact Nat.le_refl _
  · exact Nat.le_refl _

/-- A stored blob that is compressed is small. -/
theorem length_le_of_packBlob {ext : Ext} {d : Bytes} (h : (packBlob ext d).length ≠ d.length) :
    d.length ≤ lz4MaxInputSize := by
  rw [packBlob] at h
  split at h
  · next hsize => exact hsize.2
  · exact absurd rfl h

/-! ## Tables -/

variable {ext : Ext} {file file' : Bytes} {lim lim' : Nat} {t : SortedMap Bytes Bytes}

/-- A table depends on the bytes it describes only. -/
theorem TableOk.congr (h : TableOk ext file lim t) (hf : file'.take lim = file.take lim) :
    TableOk ext file' lim t where
  entry k v hk := by
    obtain ⟨e, d, hd, hle, hr, hrest⟩ := h.entry k v hk
    exact ⟨e, d, hd, hle, by rwa [slice_congr hle hf], hrest⟩
  disjoint := h.disjoint

/-- A table of a shorter part is a table of a longer part. -/
theorem TableOk.mono (h : TableOk ext file lim t) (hle : lim ≤ lim') : TableOk ext file lim' t where
  entry k v hk := by
    obtain ⟨e, d, hd, hl, hrest⟩ := h.entry k v hk
    exact ⟨e, d, hd, hl.trans hle, hrest⟩
  disjoint := h.disjoint

/-- An empty index describes every file. -/
theorem TableOk.empty : TableOk ext file lim .empty where
  entry k v h := by cases h
  disjoint k k' v v' e e' _ h := by cases h

/-- The blob a table holds under a hash. -/
theorem TableOk.cell (h : TableOk ext file lim t) {k v : Bytes} (hk : t.find? k = some v) :
    ∃ e d, decodeEntry v = .ok e ∧ e.off + e.len ≤ lim ∧
      readStored ext e (slice file e.off e.len) = .ok d ∧ ext.blake3 d = k ∧ d.length = e.rawLen ∧
      tableMap ext file t k = some d := by
  obtain ⟨e, d, hd, hle, hr, hb, hl⟩ := h.entry k v hk
  refine ⟨e, d, hd, hle, hr, hb, hl, ?_⟩
  simp [tableMap, hk, cellOf, hd, hr, Except.toOption]

/-- A table's map has exactly the table's keys. -/
theorem TableOk.map_eq_none (h : TableOk ext file lim t) {k : Bytes} :
    tableMap ext file t k = none ↔ t.find? k = none := by
  cases hk : t.find? k with
  | none => simp [tableMap, hk]
  | some v =>
    obtain ⟨e, d, _, _, _, _, _, hm⟩ := h.cell hk
    simp [hm]

/-- The map of a table depends on the bytes the table describes only. -/
theorem tableMap_congr (h : TableOk ext file lim t) (hf : file'.take lim = file.take lim) :
    tableMap ext file' t = tableMap ext file t := by
  funext k
  cases hk : t.find? k with
  | none => simp [tableMap, hk]
  | some v =>
    obtain ⟨e, d, hd, hle, _⟩ := h.entry k v hk
    simp [tableMap, hk, cellOf, hd, slice_congr hle hf]

/-- Adding an entry behind the described part. -/
theorem TableOk.insert (h : TableOk ext file lim t) {k d : Bytes} {e : IndexEntry}
    (hlim : lim ≤ e.off) (hlt : e.off + e.len < 2 ^ 64) (hraw : e.rawLen < 2 ^ 64)
    (hr : readStored ext e (slice file e.off e.len) = .ok d) (hb : ext.blake3 d = k)
    (hl : d.length = e.rawLen) :
    TableOk ext file (e.off + e.len) (t.insert k (encodeEntry e)) := by
  have hdec := decodeEntry_encodeEntry hlt hraw
  constructor
  · intro k' v hk
    rw [SortedMap.find?_insert] at hk
    split at hk
    · next heq =>
      cases hk
      exact ⟨e, d, hdec, Nat.le_refl _, hr, hb.trans heq, hl⟩
    · obtain ⟨e', d', hd', hle', hrest⟩ := h.entry k' v hk
      exact ⟨e', d', hd', by omega, hrest⟩
  · intro k₁ k₂ v₁ v₂ e₁ e₂ hne h₁ h₂ hd₁ hd₂ hl₁ hl₂
    -- an old entry ends before the new one begins
    have old : ∀ {k' v' e'}, t.find? k' = some v' → decodeEntry v' = .ok e' →
        e'.off + e'.len ≤ e.off := fun hk' hd' => by
      obtain ⟨e'', _, hd'', hle, _⟩ := h.entry _ _ hk'
      rw [hd'] at hd''
      cases hd''
      omega
    rw [SortedMap.find?_insert] at h₁ h₂
    split at h₁
    · next hk₁ =>
      cases h₁
      rw [hdec] at hd₁
      cases hd₁
      rw [if_neg (fun hk₂ => hne (hk₁.symm.trans hk₂))] at h₂
      exact .inr (old h₂ hd₂)
    · split at h₂
      · cases h₂
        rw [hdec] at hd₂
        cases hd₂
        exact .inl (old h₁ hd₁)
      · exact h.disjoint _ _ _ _ _ _ hne h₁ h₂ hd₁ hd₂ hl₁ hl₂

/-- The map after an entry for a new hash is added. -/
theorem tableMap_insert {k d : Bytes} {e : IndexEntry} (hk : t.find? k = none)
    (hlt : e.off + e.len < 2 ^ 64) (hraw : e.rawLen < 2 ^ 64)
    (hr : readStored ext e (slice file e.off e.len) = .ok d) :
    tableMap ext file (t.insert k (encodeEntry e)) = (tableMap ext file t).add k d := by
  funext k'
  have hnone : tableMap ext file t k = none := by simp [tableMap, hk]
  by_cases hkk : k = k'
  · subst hkk
    simp [tableMap, SortedMap.find?_insert, cellOf, decodeEntry_encodeEntry hlt hraw, hr,
      BlobMap.add, hk, Except.toOption]
  · rw [BlobMap.add, if_neg (fun h => hkk h.1.symm)]
    simp [tableMap, SortedMap.find?_insert, hkk]

end Tarmac.PackCas
