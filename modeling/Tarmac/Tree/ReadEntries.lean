import Tarmac.Tree.Code

/-!
# Reading a tree object by position

The loop of `TreeStore::readTree` as it stands in the source, with a position in the buffer that each
access is checked against (`readEntries`): an access behind the end is `undefined`. It comes to
`decodeTree`, which takes the buffer apart from its front, so no access is behind the end, and what it
accepts is what `putTree` wrote (`codec_bijection`).
-/

namespace Tarmac.Tree

open PackCas

/-! ## The code -/

def kTreeEntryHeader : Nat := 3

/-- `buf[pos]`. -/
def byteAt (buf : Bytes) (pos : Nat) : Except Err UInt8 :=
  match buf[pos]? with
  | some byte => .ok byte
  | none => .error (.undefined "read past the end")

/-- `buf.substr(pos, len)`. -/
def substr (buf : Bytes) (pos len : Nat) : Except Err Bytes :=
  if buf.length < pos then .error (.undefined "substr past the end")
  else .ok ((buf.drop pos).take len)

/-- One round of the loop, up to the comparison with the entry before: the entry, and the position
behind it. -/
def readEntry (buf : Bytes) (pos : Nat) : Except Err (TreeEntry × Nat) := do
  if buf.length < pos + kTreeEntryHeader then .error (.corrupt "corrupt tree object")
  let byte ← byteAt buf pos
  match EntryType.ofByte byte with
  | none => .error (.corrupt "corrupt tree object: bad type")
  | some type =>
    let pos := pos + 1
    let lo ← byteAt buf pos
    let hi ← byteAt buf (pos + 1)
    let nameLen := lo.toNat ||| hi.toNat <<< 8
    let pos := pos + 2
    if buf.length < pos + nameLen + 1 then .error (.corrupt "corrupt tree object: truncated")
    let name ← substr buf pos nameLen
    let pos := pos + nameLen
    let idLen ← byteAt buf pos
    let pos := pos + 1
    if buf.length < pos + idLen.toNat then .error (.corrupt "corrupt tree object: truncated")
    let id ← substr buf pos idLen.toNat
    .ok (⟨name, type, id⟩, pos + idLen.toNat)

/-- The byte at a position, from what is left there. -/
theorem byteAt_of_drop {buf rest : Bytes} {pos : Nat} {b : UInt8} (h : buf.drop pos = b :: rest) :
    byteAt buf pos = .ok b := by
  have hget : buf[pos]? = some b := by
    rw [← List.head?_drop, h, List.head?_cons]
  unfold byteAt
  rw [hget]

/-- What is left behind it. -/
theorem drop_succ_of_drop {buf rest : Bytes} {pos : Nat} {b : UInt8} (h : buf.drop pos = b :: rest) :
    buf.drop (pos + 1) = rest := by
  rw [← List.drop_drop, h, List.drop_one, List.tail_cons]

/-- A part of the buffer, from what is left there. -/
theorem substr_of_le {buf : Bytes} {pos len : Nat} (h : pos ≤ buf.length) :
    substr buf pos len = .ok ((buf.drop pos).take len) := if_neg (Nat.not_lt_of_le h)

/-- The two bytes of a length, little-endian. -/
theorem or_shiftLeft_eq (lo hi : UInt8) : lo.toNat ||| hi.toNat <<< 8 = ofLeBytes [lo, hi] := by
  rw [Nat.or_comm, ← Nat.shiftLeft_add_eq_or_of_lt lo.toNat_lt, Nat.shiftLeft_eq]
  simp [ofLeBytes]
  omega

/-- A round by position is a round at the front of what is left. -/
theorem readEntry_eq (buf : Bytes) (pos : Nat) :
    readEntry buf pos = (decodeTreeEntry (buf.drop pos)).map fun x =>
      (x.1, buf.length - x.2.length) := by
  have hlen : (buf.drop pos).length = buf.length - pos := List.length_drop
  match hdrop : buf.drop pos with
  | [] | [_] | [_, _] =>
    rw [hdrop] at hlen
    simp only [List.length_cons, List.length_nil] at hlen
    have hshort : buf.length < pos + kTreeEntryHeader := by
      unfold kTreeEntryHeader
      omega
    unfold readEntry
    rw [if_pos hshort]
    rfl
  | byte :: lo :: hi :: rest =>
    rw [hdrop] at hlen
    simp only [List.length_cons] at hlen
    have hheader : ¬buf.length < pos + kTreeEntryHeader := by
      unfold kTreeEntryHeader
      omega
    have hlo := drop_succ_of_drop hdrop
    have hhi := drop_succ_of_drop hlo
    have hrest := drop_succ_of_drop hhi
    unfold readEntry decodeTreeEntry
    rw [if_neg hheader, byteAt_of_drop hdrop]
    dsimp only [Bind.bind, Except.bind]
    cases EntryType.ofByte byte with
    | none => rfl
    | some type =>
      rw [byteAt_of_drop hlo, byteAt_of_drop hhi]
      dsimp only [Bind.bind, Except.bind]
      rw [or_shiftLeft_eq]
      generalize ofLeBytes [lo, hi] = nameLen
      have hname : buf.drop (pos + 1 + 2 + nameLen) = rest.drop nameLen := by
        rw [← List.drop_drop, show pos + 1 + 2 = pos + 1 + 1 + 1 from rfl, hrest]
      have hnameLen : (rest.drop nameLen).length = rest.length - nameLen := List.length_drop
      cases htail : rest.drop nameLen with
      | nil =>
        rw [htail, List.length_nil] at hnameLen
        rw [if_pos (by omega)]
        rfl
      | cons idLen tail =>
        rw [htail, List.length_cons] at hnameLen
        rw [htail] at hname
        have hid := drop_succ_of_drop hname
        rw [if_neg (by omega), substr_of_le (by omega), byteAt_of_drop hname]
        dsimp only
        by_cases hshort : tail.length < idLen.toNat
        · rw [if_pos (by omega), if_pos hshort]
          rfl
        · rw [if_neg (by omega), if_neg hshort, substr_of_le (by omega), hid]
          have hdrop : (tail.drop idLen.toNat).length = tail.length - idLen.toNat := List.length_drop
          have hend : pos + 1 + 2 + nameLen + 1 + idLen.toNat =
              buf.length - (tail.drop idLen.toNat).length := by omega
          rw [hend, show pos + 1 + 2 = pos + 1 + 1 + 1 from rfl, hrest]
          rfl

/-- A round moves the position on, within the buffer. -/
theorem readEntry_pos {buf : Bytes} {pos : Nat} {e : TreeEntry} {pos' : Nat}
    (h : readEntry buf pos = .ok (e, pos')) :
    pos < pos' ∧ pos' ≤ buf.length ∧ decodeTreeEntry (buf.drop pos) = .ok (e, buf.drop pos') := by
  rw [readEntry_eq] at h
  cases hd : decodeTreeEntry (buf.drop pos) with
  | error e' =>
    rw [hd] at h
    cases h
  | ok x =>
    obtain ⟨e', rest⟩ := x
    rw [hd] at h
    cases h
    dsimp only
    obtain ⟨hbuf, -⟩ := decodeTreeEntry_ok hd
    have hlen := congrArg List.length hbuf
    rw [List.length_drop, List.length_append] at hlen
    have hpos := length_encodeTreeEntry e'
    have hend : buf.length - rest.length = pos + (encodeTreeEntry e').length := by omega
    rw [hend, ← List.drop_drop, hbuf, List.drop_left]
    exact ⟨by omega, by omega, rfl⟩

/-- The loop of `readTree`, from a position on; `out` are the entries so far. -/
def readEntries (buf : Bytes) (pos : Nat) (out : List TreeEntry) : Except Err (List TreeEntry) :=
  if pos < buf.length then
    match _h : readEntry buf pos with
    | .error e => .error e
    | .ok (entry, pos') =>
      if out.getLast?.any fun last => decide (entry.name ≤ last.name) then
        .error (.corrupt "corrupt tree object: not sorted")
      else readEntries buf pos' (out ++ [entry])
  else .ok out
termination_by buf.length - pos
decreasing_by
  have := readEntry_pos _h
  omega

/-- The loop by position is the loop that takes the buffer apart. -/
theorem readEntries_eq (buf : Bytes) (pos : Nat) (out : List TreeEntry) {n : Nat}
    (hn : buf.length - pos ≤ n) :
    readEntries buf pos out =
      (decodeLoop n (out.getLast?.map TreeEntry.name) (buf.drop pos)).map (out ++ ·) := by
  induction n generalizing pos out with
  | zero =>
    have hpos : ¬pos < buf.length := by omega
    rw [readEntries, if_neg hpos, List.drop_eq_nil_of_le (Nat.le_of_not_lt hpos), decodeLoop_nil]
    exact congrArg Except.ok (List.append_nil out).symm
  | succ n ih =>
    by_cases hpos : pos < buf.length
    · have hne : buf.drop pos ≠ [] := by
        rw [Ne, List.drop_eq_nil_iff]
        omega
      rw [readEntries, if_pos hpos, decodeLoop_succ hne]
      split
      · next e he =>
        rw [readEntry_eq] at he
        cases hd : decodeTreeEntry (buf.drop pos) with
        | ok x =>
          rw [hd] at he
          cases he
        | error e' =>
          rw [hd] at he
          cases he
          rfl
      · next entry pos' he =>
        obtain ⟨hlt, -, hd⟩ := readEntry_pos he
        rw [hd]
        dsimp only [Bind.bind, Except.bind]
        rw [Option.any_map]
        split
        · rfl
        · rw [ih pos' (out ++ [entry]) (by omega), List.getLast?_append, List.getLast?_singleton]
          dsimp only [Option.some_or, Option.map_some]
          cases decodeLoop n (some entry.name) (buf.drop pos') with
          | error e => rfl
          | ok es => exact congrArg Except.ok (List.append_assoc out [entry] es)
    · rw [readEntries, if_neg hpos, List.drop_eq_nil_of_le (Nat.le_of_not_lt hpos), decodeLoop_nil]
      exact congrArg Except.ok (List.append_nil out).symm

/-- What `readTree` makes of an object, by position. -/
theorem readEntries_eq_decodeTree (buf : Bytes) : readEntries buf 0 [] = decodeTree buf := by
  rw [readEntries_eq buf 0 [] (Nat.sub_le _ _)]
  show (decodeLoop buf.length none buf).map (fun es => es) = decodeTree buf
  unfold decodeTree
  cases decodeLoop buf.length none buf <;> rfl

/-! ## The codec -/

/-- What is rejected is reported as corruption. -/
theorem decodeTreeEntry_error {buf : Bytes} {e : Err} (h : decodeTreeEntry buf = .error e) :
    ∃ msg, e = .corrupt msg := by
  unfold decodeTreeEntry at h
  split at h
  · split at h
    · cases h
      exact ⟨_, rfl⟩
    · dsimp only at h
      split at h
      · cases h
        exact ⟨_, rfl⟩
      · split at h
        · cases h
          exact ⟨_, rfl⟩
        · cases h
  · cases h
    exact ⟨_, rfl⟩

/-- What does not decode is corrupt. -/
theorem decodeLoop_error {n : Nat} {last : Option Bytes} {buf : Bytes} {e : Err}
    (h : decodeLoop n last buf = .error e) : ∃ msg, e = .corrupt msg := by
  induction n generalizing last buf with
  | zero => cases buf <;> cases h
  | succ n ih =>
    by_cases hbuf : buf = []
    · rw [hbuf, decodeLoop_nil] at h
      cases h
    · rw [decodeLoop_succ hbuf] at h
      cases hd : decodeTreeEntry buf with
      | error e' =>
        rw [hd] at h
        cases h
        exact decodeTreeEntry_error hd
      | ok x =>
        rw [hd] at h
        dsimp only [Bind.bind, Except.bind] at h
        split at h
        · cases h
          exact ⟨_, rfl⟩
        · cases hrest : decodeLoop n (some x.1.name) x.2 with
          | error e' =>
            rw [hrest] at h
            cases h
            exact ih hrest
          | ok es =>
            rw [hrest] at h
            cases h

/-- `readTree` in terms of the loop. -/
theorem readTree_eq (treeId : Bytes) : readTree treeId = (do
    match ← Cas.get treeId with
    | none => Eff.throw (.corrupt "missing tree object")
    | some data => Eff.ofExcept (readEntries data 0 [])) := by
  refine congrArg (Cas.get treeId >>= ·) (funext fun found => ?_)
  cases found with
  | none => rfl
  | some data => exact congrArg Eff.ofExcept (readEntries_eq_decodeTree data).symm

/-- The tree codec is a bijection between the lists of entries that `putTree` accepts and that are
sorted, and the buffers the loop of `readTree` accepts; every other buffer is reported as corrupt, and
none is read behind its end. -/
theorem codec_bijection :
    (∀ treeId, readTree treeId = (do
      match ← Cas.get treeId with
      | none => Eff.throw (.corrupt "missing tree object")
      | some data => Eff.ofExcept (readEntries data 0 []))) ∧
    (∀ es : List TreeEntry, (es.Pairwise fun a b => a.name < b.name) →
      (∀ e ∈ es, e.name.length ≤ kMaxNameLen ∧ e.id.length ≤ kMaxIdLen) →
      putTree es = Cas.put true (encodeTree es) ∧ readEntries (encodeTree es) 0 [] = .ok es) ∧
    (∀ buf : Bytes, (∃ msg, readEntries buf 0 [] = .error (.corrupt msg)) ∨
      ∃ es, readEntries buf 0 [] = .ok es ∧ (es.Pairwise fun a b => a.name < b.name) ∧
        (∀ e ∈ es, e.name.length ≤ kMaxNameLen ∧ e.id.length ≤ kMaxIdLen) ∧ encodeTree es = buf) := by
  refine ⟨readTree_eq, ?_, ?_⟩
  · intro es hsorted hlen
    have hfits : ∀ e ∈ es, e.fits = true := fun e he => TreeEntry.fits_iff.2 (hlen e he)
    refine ⟨if_pos (List.all_eq_true.2 hfits), ?_⟩
    rw [readEntries_eq_decodeTree]
    exact decodeTree_encodeTree (sorted_of_pairwise nofun hsorted) hfits
  · intro buf
    rw [readEntries_eq_decodeTree]
    cases hbuf : decodeTree buf with
    | error e =>
      obtain ⟨msg, rfl⟩ := decodeLoop_error hbuf
      exact .inl ⟨msg, rfl⟩
    | ok es =>
      obtain ⟨henc, hsorted, hfits⟩ := decodeTree_ok hbuf
      exact .inr ⟨es, rfl, hsorted.pairwise.1, fun e he => TreeEntry.fits_iff.1 (hfits e he), henc⟩

/-- A directory with a file and a subdirectory. -/
theorem codec_bijection_sample :
    let es : List TreeEntry := [⟨[97], .d, [1]⟩, ⟨[98], .leaf .x, [2, 3]⟩]
    putTree es = Cas.put true (encodeTree es) ∧ readEntries (encodeTree es) 0 [] = .ok es :=
  codec_bijection.2.1 _ (by decide) (by decide)

end Tarmac.Tree
