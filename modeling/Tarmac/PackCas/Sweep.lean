import Mathlib.Algebra.Order.Ring.Nat
import Mathlib.Data.List.Pairwise
import Mathlib.Order.Interval.Finset.Nat
import Tarmac.PackCas.Table

/-!
# What a compaction makes of an index and its pack

`Sweeps live file done acc keep` is the invariant of the cursor loop of `compact`: from the
bindings `done` of the index it has collected the stored bytes `acc` of the live blobs and the
entries `keep` that describe them. `Swept live file t file' t'` is what the loop and the rewriting
of the index amount to: the new tables hold the live blobs of the old ones, with the same stored
bytes, and nothing else. Neither needs the old index to be sound; what was sound stays so
(`Swept.tableOk`), and the store is restricted to `live` (`Swept.tableMap`).
-/

namespace Tarmac.PackCas

/-- The hashes for which the predicate answers `true`. -/
def isLive (live : Bytes → Except Err Bool) (k : Bytes) : Bool :=
  match live k with
  | .ok b => b
  | .error _ => false

/-- What is live is what the predicate returns true for. -/
theorem isLive_eq {live : Bytes → Except Err Bool} {k : Bytes} :
    isLive live k = true ↔ live k = .ok true := by
  rw [isLive]
  split <;> simp [*]

/-- Keeps the blobs whose hashes satisfy `live`, in a new generation. -/
def Store.restrict (M : Store) (live : Bytes → Bool) : Store :=
  { M with blobs := M.blobs.restrict live, gen := nextGen M.gen }

/-- The loop of `compact` after the bindings `done`. -/
inductive Sweeps (live : Bytes → Except Err Bool) (file : Bytes) :
    List (Bytes × Bytes) → Bytes → List (Bytes × IndexEntry) → Prop where
  | nil : Sweeps live file [] [] []
  | keep {done : List (Bytes × Bytes)} {acc : Bytes} {keep : List (Bytes × IndexEntry)}
      {k v : Bytes} {e : IndexEntry} : Sweeps live file done acc keep → decodeEntry v = .ok e →
      live k = .ok true → e.off + e.len ≤ file.length → e.off + e.len ≤ kMapSize →
      Sweeps live file (done ++ [(k, v)]) (acc ++ slice file e.off e.len)
        (keep ++ [(k, ⟨acc.length, e.len, e.rawLen⟩)])
  | drop {done : List (Bytes × Bytes)} {acc : Bytes} {keep : List (Bytes × IndexEntry)}
      {k v : Bytes} {e : IndexEntry} : Sweeps live file done acc keep → decodeEntry v = .ok e →
      live k = .ok false → Sweeps live file (done ++ [(k, v)]) acc keep

/-- A kept entry describes the stored bytes of its blob. -/
structure Copied (live : Bytes → Except Err Bool) (file : Bytes) (acc : Bytes) (k : Bytes)
    (e e' : IndexEntry) : Prop where
  live : live k = .ok true
  le : e.off + e.len ≤ file.length
  small : e.off + e.len ≤ kMapSize
  len : e'.len = e.len
  rawLen : e'.rawLen = e.rawLen
  le' : e'.off + e'.len ≤ acc.length
  slice : slice acc e'.off e'.len = slice file e.off e.len

variable {live : Bytes → Except Err Bool} {file acc : Bytes} {done : List (Bytes × Bytes)}
  {keep : List (Bytes × IndexEntry)}

/-- What was copied stays where it is when more is written. -/
theorem Copied.append {k b : Bytes} {e e' : IndexEntry} (h : Copied live file acc k e e') :
    Copied live file (acc ++ b) k e e' := by
  refine { h with le' := ?_, slice := ?_ }
  · rw [List.length_append]
    exact h.le'.trans (Nat.le_add_right _ _)
  · rw [← h.slice]
    exact slice_congr h.le' (by rw [List.take_append_of_le_length (Nat.le_refl _)])

namespace Sweeps

/-- Every kept entry is the copy of an entry of the index. -/
theorem copied (h : Sweeps live file done acc keep) {k : Bytes} {e' : IndexEntry}
    (hk : (k, e') ∈ keep) :
    ∃ v e, (k, v) ∈ done ∧ decodeEntry v = .ok e ∧ Copied live file acc k e e' := by
  induction h with
  | nil => cases hk
  | @keep _ acc _ k₁ v₁ e₁ _ hd hl hle hmap ih =>
    rcases List.mem_append.1 hk with hk | hk
    · obtain ⟨v, e, hv, he, hc⟩ := ih hk
      exact ⟨v, e, List.mem_append.2 (.inl hv), he, hc.append⟩
    · cases List.mem_singleton.1 hk
      have hlen := length_slice_of_le hle
      refine ⟨v₁, e₁, by simp, hd, hl, hle, hmap, rfl, rfl, ?_, ?_⟩
      · rw [List.length_append, hlen]
      · rw [Tarmac.slice, List.drop_left, List.take_of_length_le hlen.le]
  | drop _ _ _ ih =>
    obtain ⟨v, e, hv, he, hc⟩ := ih hk
    exact ⟨v, e, List.mem_append.2 (.inl hv), he, hc⟩

/-- Every binding of a live hash is kept. -/
theorem mem_keep (h : Sweeps live file done acc keep) {k v : Bytes} (hk : (k, v) ∈ done)
    (hl : live k = .ok true) : ∃ e', (k, e') ∈ keep := by
  induction h with
  | nil => cases hk
  | keep _ _ _ _ _ ih =>
    rcases List.mem_append.1 hk with hk | hk
    · obtain ⟨e', he⟩ := ih hk
      exact ⟨e', List.mem_append.2 (.inl he)⟩
    · cases List.mem_singleton.1 hk
      exact ⟨_, List.mem_append.2 (.inr (.head _))⟩
  | drop _ _ hdead ih =>
    rcases List.mem_append.1 hk with hk | hk
    · exact ih hk
    · cases List.mem_singleton.1 hk
      rw [hdead] at hl
      cases hl

/-- The kept hashes are hashes of the index, in its order. -/
theorem keys (h : Sweeps live file done acc keep) :
    (keep.map Prod.fst).Sublist (done.map Prod.fst) := by
  induction h with
  | nil => exact .slnil
  | keep _ _ _ _ _ ih =>
    rw [List.map_append, List.map_append]
    exact ih.append (.refl _)
  | drop _ _ _ ih =>
    rw [List.map_append]
    exact ih.trans (List.sublist_append_left _ _)

/-- The kept entries lie behind each other. -/
theorem pairwise (h : Sweeps live file done acc keep) :
    keep.Pairwise fun a b => a.2.off + a.2.len ≤ b.2.off := by
  induction h with
  | nil => exact .nil
  | keep hs _ _ _ _ ih =>
    refine List.pairwise_append.2 ⟨ih, List.pairwise_singleton _ _, fun a ha b hb => ?_⟩
    cases List.mem_singleton.1 hb
    obtain ⟨_, _, _, _, hc⟩ := hs.copied ha
    exact hc.le'
  | drop _ _ _ ih => exact ih

/-- The bytes of the old pack that were copied, when no entries of the index overlap. -/
theorem covered (h : Sweeps live file done acc keep) {ext : Ext} {lim : Nat}
    {t : SortedMap Bytes Bytes} (ht : TableOk ext file lim t)
    (hdone : ∀ r ∈ done, t.find? r.1 = some r.2) (hn : (done.map Prod.fst).Nodup) :
    ∃ F : Finset Nat, F.card = acc.length ∧ ∀ x ∈ F, x < file.length ∧
      ∃ r ∈ done, ∃ e, decodeEntry r.2 = .ok e ∧ e.off ≤ x ∧ x < e.off + e.len := by
  induction h with
  | nil => exact ⟨∅, rfl, fun x hx => absurd hx (Finset.notMem_empty x)⟩
  | @keep done acc _ k v e _ hd _ hle _ ih =>
    rw [List.map_append, List.nodup_append] at hn
    obtain ⟨F, hcard, hF⟩ := ih (fun r hr => hdone r (List.mem_append_left _ hr)) hn.1
    have hdisj : Disjoint F (Finset.Ico e.off (e.off + e.len)) := by
      refine Finset.disjoint_left.2 fun x hx hxe => ?_
      obtain ⟨_, r, hr, e', hd', hlo, hhi⟩ := hF x hx
      have hin := Finset.mem_Ico.1 hxe
      have hne : r.1 ≠ k := hn.2.2 r.1 (List.mem_map_of_mem hr) k (by simp)
      have hdis := ht.disjoint _ _ _ _ e' e hne (hdone r (List.mem_append_left _ hr))
        (hdone (k, v) (by simp)) hd' hd (by omega) (by omega)
      rw [IndexEntry.Disjoint] at hdis
      omega
    refine ⟨F.disjUnion _ hdisj, ?_, fun x hx => ?_⟩
    · rw [Finset.card_disjUnion, hcard, Nat.card_Ico, List.length_append, length_slice_of_le hle]
      omega
    · rcases (Finset.mem_disjUnion (h := hdisj)).1 hx with hx | hx
      · obtain ⟨hlt, r, hr, hrest⟩ := hF x hx
        exact ⟨hlt, r, List.mem_append_left _ hr, hrest⟩
      · have hin := Finset.mem_Ico.1 hx
        exact ⟨by omega, (k, v), by simp, e, hd, hin⟩
  | drop _ _ _ ih =>
    rw [List.map_append, List.nodup_append] at hn
    obtain ⟨F, hcard, hF⟩ := ih (fun r hr => hdone r (List.mem_append_left _ hr)) hn.1
    refine ⟨F, hcard, fun x hx => ?_⟩
    obtain ⟨hlt, r, hr, hrest⟩ := hF x hx
    exact ⟨hlt, r, List.mem_append_left _ hr, hrest⟩

/-- A compaction writes no more than the old pack has, when no entries of the index overlap. -/
theorem length_le (h : Sweeps live file done acc keep) {ext : Ext} {lim : Nat}
    {t : SortedMap Bytes Bytes} (ht : TableOk ext file lim t) {rest : List (Bytes × Bytes)}
    (hdone : done ++ rest = t.toList) : acc.length ≤ file.length := by
  have hmem : ∀ r ∈ done, t.find? r.1 = some r.2 := fun r hr =>
    SortedMap.mem_toList.1 (hdone ▸ List.mem_append_left _ hr)
  have hkeys : ((done ++ rest).map Prod.fst).Nodup :=
    hdone ▸ List.Pairwise.map _ (fun a b hab => ne_of_lt hab) t.sorted
  rw [List.map_append] at hkeys
  obtain ⟨F, hcard, hF⟩ := h.covered ht hmem (List.nodup_append.1 hkeys).1
  rw [← hcard]
  calc F.card ≤ (Finset.range file.length).card :=
        Finset.card_le_card fun x hx => Finset.mem_range.2 (hF x hx).1
    _ = file.length := Finset.card_range _

end Sweeps

/-! ## The new index -/

/-- The index `putKept` fills. -/
def keepTable (keep : List (Bytes × IndexEntry)) (t : SortedMap Bytes Bytes) :
    SortedMap Bytes Bytes :=
  keep.foldl (fun t r => t.insert r.1 (encodeEntry r.2)) t

/-- The kept entries leave other keys alone. -/
theorem find?_keepTable_of_not_mem {t : SortedMap Bytes Bytes} {k : Bytes}
    (h : k ∉ keep.map Prod.fst) : (keepTable keep t).find? k = t.find? k := by
  induction keep generalizing t with
  | nil => rfl
  | cons r rest ih =>
    have ⟨hr, hrest⟩ := List.ne_and_not_mem_of_not_mem_cons h
    refine (ih hrest).trans ?_
    rw [SortedMap.find?_insert, if_neg (Ne.symm hr)]

/-- A kept entry is in the table. -/
theorem find?_keepTable {t : SortedMap Bytes Bytes} {k : Bytes} {e : IndexEntry}
    (hn : (keep.map Prod.fst).Nodup) (h : (k, e) ∈ keep) :
    (keepTable keep t).find? k = some (encodeEntry e) := by
  induction keep generalizing t with
  | nil => cases h
  | cons r rest ih =>
    have ⟨hr, hrest⟩ := List.nodup_cons.1 hn
    rcases List.mem_cons.1 h with rfl | h
    · refine (find?_keepTable_of_not_mem hr).trans ?_
      rw [SortedMap.find?_insert, if_pos rfl]
    · exact ih hrest h

/-- The lengths an index value can hold have 64 bits. -/
theorem decodeEntry_rawLen_lt {v : Bytes} {e : IndexEntry} (h : decodeEntry v = .ok e) :
    e.rawLen < 2 ^ 64 := by
  rw [decodeEntry] at h
  split at h
  · cases h
  · dsimp only at h
    split at h
    · cases h
    · cases h
      have h₁ := ofLeBytes_lt (slice v 16 8)
      have h₂ : 256 ^ (slice v 16 8).length ≤ 256 ^ 8 :=
        Nat.pow_le_pow_right (by omega) (by rw [length_slice]; omega)
      have hpow : 256 ^ 8 = 2 ^ 64 := by decide
      dsimp only
      omega

/-- The tables `t'` over `file'` hold the live blobs of the tables `t` over `file`. -/
structure Swept (live : Bytes → Except Err Bool) (file : Bytes) (t : SortedMap Bytes Bytes)
    (file' : Bytes) (t' : SortedMap Bytes Bytes) : Prop where
  kept : ∀ k v, t.find? k = some v → live k = .ok true → ∃ e e', decodeEntry v = .ok e ∧
    t'.find? k = some (encodeEntry e') ∧ decodeEntry (encodeEntry e') = .ok e' ∧
    Copied live file file' k e e'
  only : ∀ k v', t'.find? k = some v' → live k = .ok true ∧ ∃ v, t.find? k = some v
  disjoint : ∀ k k' v v' e e', k ≠ k' → t'.find? k = some v → t'.find? k' = some v' →
    decodeEntry v = .ok e → decodeEntry v' = .ok e' → e.Disjoint e'

/-- The index values of the kept entries are read back. -/
theorem Sweeps.decode (h : Sweeps live file done acc keep) (hlen : acc.length ≤ maxOff) {k : Bytes}
    {e' : IndexEntry} (hk : (k, e') ∈ keep) : decodeEntry (encodeEntry e') = .ok e' := by
  obtain ⟨v, e, _, he, hc⟩ := h.copied hk
  have hle := hc.le'
  simp only [maxOff] at hlen
  refine decodeEntry_encodeEntry (by omega) ?_
  rw [hc.rawLen]
  exact decodeEntry_rawLen_lt he

/-- The loop over the whole index and the rewriting of the index amount to a sweep. -/
theorem Sweeps.swept {t : SortedMap Bytes Bytes} (h : Sweeps live file t.toList acc keep)
    (hlen : acc.length ≤ maxOff) : Swept live file t acc (keepTable keep .empty) := by
  have hnodup : (keep.map Prod.fst).Nodup := by
    refine h.keys.nodup ?_
    exact List.Pairwise.map _ (fun a b hab => ne_of_lt hab) t.sorted
  -- the bindings of the new index
  have hmem : ∀ {k v'}, (keepTable keep .empty).find? k = some v' →
      ∃ e', (k, e') ∈ keep ∧ v' = encodeEntry e' := fun {k v'} hk => by
    by_cases hin : k ∈ keep.map Prod.fst
    · obtain ⟨⟨_, e'⟩, he, rfl⟩ := List.mem_map.1 hin
      rw [find?_keepTable hnodup he] at hk
      exact ⟨e', he, (Option.some.inj hk).symm⟩
    · rw [find?_keepTable_of_not_mem hin] at hk
      cases hk
  constructor
  · intro k v hv hl
    have hvm := SortedMap.mem_toList.2 hv
    obtain ⟨e', he'⟩ := h.mem_keep hvm hl
    obtain ⟨v₁, e, hv₁, he, hc⟩ := h.copied he'
    have hvv := SortedMap.mem_toList.1 hv₁
    rw [hv] at hvv
    cases hvv
    exact ⟨e, e', he, find?_keepTable hnodup he', h.decode hlen he', hc⟩
  · intro k v' hk
    obtain ⟨e', he', _⟩ := hmem hk
    obtain ⟨v, _, hv, _, hc⟩ := h.copied he'
    exact ⟨hc.live, v, SortedMap.mem_toList.1 hv⟩
  · intro k k' v v' e e' hne hk hk' hd hd'
    obtain ⟨e₁, he₁, rfl⟩ := hmem hk
    obtain ⟨e₂, he₂, rfl⟩ := hmem hk'
    rw [h.decode hlen he₁] at hd
    rw [h.decode hlen he₂] at hd'
    cases hd
    cases hd'
    have hall : keep.Pairwise fun a b => a.2.Disjoint b.2 := h.pairwise.imp .inl
    have : Std.Symm fun a b : Bytes × IndexEntry => a.2.Disjoint b.2 := ⟨fun _ _ h => Or.symm h⟩
    exact hall.forall he₁ he₂ fun heq => hne (congrArg Prod.fst heq)

variable {ext : Ext} {t t' : SortedMap Bytes Bytes} {file' : Bytes}

namespace Swept

/-- The stored bytes of a kept blob are those it had. -/
theorem cellOf {k v : Bytes} {e e' : IndexEntry} (hd : decodeEntry v = .ok e)
    (hd' : decodeEntry (encodeEntry e') = .ok e') (hc : Copied live file file' k e e') :
    PackCas.cellOf ext file' (encodeEntry e') = PackCas.cellOf ext file v := by
  have hslice := hc.slice
  rw [hc.len] at hslice
  simp only [PackCas.cellOf, hd, hd', readStored, IndexEntry.compressed, hc.len, hc.rawLen, hslice]
  rfl

/-- The store is restricted to the live hashes. -/
theorem tableMap (h : Swept live file t file' t') :
    PackCas.tableMap ext file' t' = (PackCas.tableMap ext file t).restrict (isLive live) := by
  funext k
  rw [BlobMap.restrict]
  split
  · next hl =>
    cases hv : t.find? k with
    | none =>
      have hnone : t'.find? k = none := by
        cases hv' : t'.find? k with
        | none => rfl
        | some v' =>
          obtain ⟨_, v, hv₁⟩ := h.only k v' hv'
          rw [hv] at hv₁
          cases hv₁
      simp [PackCas.tableMap, hv, hnone]
    | some v =>
      obtain ⟨e, e', hd, hf, hd', hc⟩ := h.kept k v hv (isLive_eq.1 hl)
      simp [PackCas.tableMap, hv, hf, cellOf hd hd' hc]
  · next hl =>
    have hnone : t'.find? k = none := by
      cases hv' : t'.find? k with
      | none => rfl
      | some v' => exact absurd (isLive_eq.2 (h.only k v' hv').1) hl
    simp [PackCas.tableMap, hnone]

/-- What described the old pack describes the new one. -/
theorem tableOk (h : Swept live file t file' t') (ht : TableOk ext file file.length t) :
    TableOk ext file' file'.length t' where
  entry k v' hv' := by
    obtain ⟨hl, v, hv⟩ := h.only k v' hv'
    obtain ⟨e, e', hd, hf, hd', hc⟩ := h.kept k v hv hl
    obtain ⟨e₁, d, hd₁, _, hr, hb, hlen⟩ := ht.entry k v hv
    rw [hv'] at hf
    rw [hd] at hd₁
    cases hf
    cases hd₁
    have hcell : PackCas.cellOf ext _ _ = _ := cellOf hd hd' hc
    simp only [PackCas.cellOf, hd, hd'] at hcell
    exact ⟨e', d, hd', hc.le', hcell.trans hr, hb, hlen.trans hc.rawLen.symm⟩
  disjoint k k' v v' e e' hne hv hv' hd hd' _ _ := h.disjoint k k' v v' e e' hne hv hv' hd hd'

end Swept

end Tarmac.PackCas
