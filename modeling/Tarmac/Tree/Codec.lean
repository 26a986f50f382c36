import Tarmac.PackCas.World

/-!
# Tree objects

The binary form of a directory in `src/tree.cpp`: `encodeTree` is the buffer `TreeStore::putTree`
builds, `decodeTree` the loop of `TreeStore::readTree`. What is decoded is strictly sorted by name
and its encoding is the buffer it came from (`decodeTree_ok`), and every list that can be encoded is
decoded again (`decodeTree_encodeTree`).
-/

namespace Tarmac.Tree

open PackCas

def kMaxNameLen : Nat := 0xffff
def kMaxIdLen : Nat := 0xff
def kMaxTreeDepth : Nat := 512

/-- The types of what has contents: `r` regular, `x` executable, `s` symlink. -/
inductive LeafType where
  | r
  | x
  | s
  deriving DecidableEq, Repr

/-- The types of tree entries: a leaf, or `d` directory. -/
inductive EntryType where
  | leaf (type : LeafType)
  | d
  deriving DecidableEq, Repr

/-- The type as its ASCII letter. -/
def EntryType.byte : EntryType → UInt8
  | .leaf .r => 114
  | .leaf .x => 120
  | .leaf .s => 115
  | .d => 100

def EntryType.ofByte (b : UInt8) : Option EntryType :=
  if b = 114 then some (.leaf .r)
  else if b = 120 then some (.leaf .x)
  else if b = 115 then some (.leaf .s)
  else if b = 100 then some .d
  else none

/-- The byte of a type is read back. -/
@[simp] theorem EntryType.ofByte_byte (t : EntryType) : ofByte t.byte = some t := by
  obtain (_ | _ | _) | _ := t <;> rfl

/-- A type that was read is written as the byte it was read from. -/
theorem EntryType.byte_ofByte {b : UInt8} {t : EntryType} (h : ofByte b = some t) : t.byte = b := by
  unfold ofByte at h
  split at h
  · next hb => cases h; exact hb.symm
  · split at h
    · next hb => cases h; exact hb.symm
    · split at h
      · next hb => cases h; exact hb.symm
      · split at h
        · next hb => cases h; exact hb.symm
        · cases h

/-- `TreeEntry`; the id of a symlink is that of its target's blob. -/
structure TreeEntry where
  name : Bytes
  type : EntryType
  id : Bytes
  deriving DecidableEq, Repr

/-- What `putTree` demands of an entry. -/
def TreeEntry.fits (e : TreeEntry) : Bool :=
  decide (e.name.length ≤ kMaxNameLen) && decide (e.id.length ≤ kMaxIdLen)

/-- An entry fits when the lengths of its name and id do. -/
theorem TreeEntry.fits_iff {e : TreeEntry} :
    e.fits = true ↔ e.name.length ≤ kMaxNameLen ∧ e.id.length ≤ kMaxIdLen := by
  simp [fits]

/-- One entry in the buffer of `putTree`. -/
def encodeTreeEntry (e : TreeEntry) : Bytes :=
  e.type.byte :: leBytes 2 e.name.length ++ e.name ++ leBytes 1 e.id.length ++ e.id

/-- The buffer of `putTree`. -/
def encodeTree (entries : List TreeEntry) : Bytes := entries.flatMap encodeTreeEntry

/-- One round of the loop of `readTree`, up to the comparison with the entry before: the entry, and
the buffer behind it. -/
def decodeTreeEntry (buf : Bytes) : Except Err (TreeEntry × Bytes) :=
  match buf with
  | type :: lo :: hi :: rest =>
    match EntryType.ofByte type with
    | none => .error (.corrupt "corrupt tree object: bad type")
    | some type =>
      let nameLen := ofLeBytes [lo, hi]
      match rest.drop nameLen with
      | [] => .error (.corrupt "corrupt tree object: truncated")
      | idLen :: tail =>
        if tail.length < idLen.toNat then .error (.corrupt "corrupt tree object: truncated")
        else .ok (⟨rest.take nameLen, type, tail.take idLen.toNat⟩, tail.drop idLen.toNat)
  | _ => .error (.corrupt "corrupt tree object")

/-- The loop of `readTree`, `last` being the name of the entry before; every round consumes a byte at
least, so as many rounds as there are bytes are enough. -/
def decodeLoop : Nat → Option Bytes → Bytes → Except Err (List TreeEntry)
  | _, _, [] => .ok []
  | 0, _, _ => .ok []
  | n + 1, last, buf => do
    let (entry, rest) ← decodeTreeEntry buf
    if last.any fun name => decide (entry.name ≤ name) then
      .error (.corrupt "corrupt tree object: not sorted")
    else
      let entries ← decodeLoop n (some entry.name) rest
      .ok (entry :: entries)

/-- What `readTree` makes of an object. -/
def decodeTree (buf : Bytes) : Except Err (List TreeEntry) := decodeLoop buf.length none buf

/-! ## Round trips -/

/-- An entry is at least its four bytes of header. -/
theorem length_encodeTreeEntry (e : TreeEntry) :
    (encodeTreeEntry e).length = 4 + e.name.length + e.id.length := by
  simp only [encodeTreeEntry, List.length_append, List.length_cons, length_leBytes]
  omega

/-- An entry that fits is decoded from its encoding, whatever follows. -/
theorem decodeTreeEntry_encode {e : TreeEntry} (h : e.fits = true) (rest : Bytes) :
    decodeTreeEntry (encodeTreeEntry e ++ rest) = .ok (e, rest) := by
  obtain ⟨hname, hid⟩ := TreeEntry.fits_iff.1 h
  unfold kMaxNameLen at hname
  unfold kMaxIdLen at hid
  have hname : ofLeBytes (leBytes 2 e.name.length) = e.name.length := by
    rw [ofLeBytes_leBytes, Nat.mod_eq_of_lt (by omega)]
  have hid : (UInt8.ofNat e.id.length).toNat = e.id.length := by
    rw [UInt8.toNat_ofNat', Nat.mod_eq_of_lt (by omega)]
  have hbuf : encodeTreeEntry e ++ rest = e.type.byte :: UInt8.ofNat e.name.length ::
      UInt8.ofNat (e.name.length / 256) ::
        (e.name ++ (UInt8.ofNat e.id.length :: (e.id ++ rest))) := by
    simp [encodeTreeEntry, leBytes]
  rw [hbuf]
  unfold decodeTreeEntry
  simp only [EntryType.ofByte_byte]
  rw [show ofLeBytes [UInt8.ofNat e.name.length, UInt8.ofNat (e.name.length / 256)] = e.name.length
    from hname, List.drop_left]
  dsimp only
  rw [hid, if_neg (by simp), List.take_left, List.take_left, List.drop_left]

/-- What is decoded was encoded there. -/
theorem decodeTreeEntry_ok {buf rest : Bytes} {e : TreeEntry}
    (h : decodeTreeEntry buf = .ok (e, rest)) : buf = encodeTreeEntry e ++ rest ∧ e.fits = true := by
  unfold decodeTreeEntry at h
  split at h
  · next type lo hi body =>
    split at h
    · cases h
    · next t ht =>
      dsimp only at h
      split at h
      · cases h
      · next idLen tail htail =>
        split at h
        · cases h
        · next hlen =>
          cases h
          have hbody : body = body.take (ofLeBytes [lo, hi]) ++ idLen :: tail := by
            rw [← htail, List.take_append_drop]
          have hname : (body.take (ofLeBytes [lo, hi])).length = ofLeBytes [lo, hi] := by
            have hlt : (body.drop (ofLeBytes [lo, hi])).length ≠ 0 := by simp [htail]
            rw [List.length_drop] at hlt
            rw [List.length_take]
            omega
          have hid : (tail.take idLen.toNat).length = idLen.toNat := by
            rw [List.length_take]
            omega
          have hlo := leBytes_ofLeBytes [lo, hi]
          have hone : leBytes 1 idLen.toNat = [idLen] := by simp [leBytes]
          refine ⟨?_, TreeEntry.fits_iff.2 ⟨?_, ?_⟩⟩
          · unfold encodeTreeEntry
            rw [EntryType.byte_ofByte ht, hname, hid, hone,
              show leBytes 2 (ofLeBytes [lo, hi]) = [lo, hi] from hlo]
            simpa using hbody
          · have hlt := ofLeBytes_lt [lo, hi]
            rw [show [lo, hi].length = 2 from rfl] at hlt
            rw [hname]
            unfold kMaxNameLen
            omega
          · have hlt := idLen.toNat_lt
            rw [hid]
            unfold kMaxIdLen
            omega
  · cases h

/-- The names of the entries increase strictly, from above `last` on. -/
def Sorted : Option Bytes → List TreeEntry → Prop
  | _, [] => True
  | last, e :: es => (∀ name, last = some name → name < e.name) ∧ Sorted (some e.name) es

/-- Sorted names, as the codec wants them. -/
theorem sorted_of_pairwise {es : List TreeEntry} {last : Option Bytes}
    (hlast : ∀ name, last = some name → ∀ e ∈ es, name < e.name)
    (h : es.Pairwise fun a b => a.name < b.name) : Sorted last es := by
  induction es generalizing last with
  | nil => trivial
  | cons e es ih =>
    obtain ⟨he, hes⟩ := List.pairwise_cons.1 h
    refine ⟨fun name hname => hlast name hname e (.head _), ih ?_ hes⟩
    intro name hname e' he'
    cases hname
    exact he e' he'

/-- The names are pairwise increasing. -/
theorem Sorted.pairwise {last : Option Bytes} {es : List TreeEntry} (h : Sorted last es) :
    (es.Pairwise fun a b => a.name < b.name) ∧ ∀ name, last = some name → ∀ e ∈ es, name < e.name := by
  induction es generalizing last with
  | nil => exact ⟨.nil, nofun⟩
  | cons e es ih =>
    obtain ⟨hlast, hs⟩ := h
    obtain ⟨hpair, habove⟩ := ih hs
    refine ⟨List.pairwise_cons.2 ⟨habove e.name rfl, hpair⟩, fun name hname e' he' => ?_⟩
    rcases List.mem_cons.1 he' with rfl | he'
    · exact hlast name hname
    · exact lt_trans (hlast name hname) (habove e.name rfl e' he')

/-- Nothing is left to decode. -/
@[simp] theorem decodeLoop_nil (n : Nat) (last : Option Bytes) : decodeLoop n last [] = .ok [] := by
  cases n <;> rfl

/-- One round of the loop. -/
theorem decodeLoop_succ {n : Nat} {last : Option Bytes} {buf : Bytes} (h : buf ≠ []) :
    decodeLoop (n + 1) last buf = (do
      let (entry, rest) ← decodeTreeEntry buf
      if last.any fun name => decide (entry.name ≤ name) then
        .error (.corrupt "corrupt tree object: not sorted")
      else
        let entries ← decodeLoop n (some entry.name) rest
        .ok (entry :: entries)) := by
  cases buf with
  | nil => exact absurd rfl h
  | cons => rfl

/-- The loop decodes what was encoded. -/
theorem decodeLoop_encode {n : Nat} {last : Option Bytes} {es : List TreeEntry}
    (hs : Sorted last es) (hfits : ∀ e ∈ es, e.fits = true) (hn : (encodeTree es).length ≤ n) :
    decodeLoop n last (encodeTree es) = .ok es := by
  induction es generalizing n last with
  | nil => exact decodeLoop_nil n last
  | cons e es ih =>
    obtain ⟨hlast, hs'⟩ := hs
    have hlen := length_encodeTreeEntry e
    have henc : encodeTree (e :: es) = encodeTreeEntry e ++ encodeTree es := by simp [encodeTree]
    rw [henc, List.length_append] at hn
    have hany : (last.any fun name => decide (e.name ≤ name)) = false := by
      cases last with
      | none => rfl
      | some name => simpa using hlast name rfl
    obtain ⟨k, rfl⟩ : ∃ k, n = k + 1 := ⟨n - 1, by omega⟩
    have hrest := ih hs' (fun e' he' => hfits e' (.tail _ he')) (n := k) (by omega)
    rw [henc, decodeLoop_succ (by simp [encodeTreeEntry]), decodeTreeEntry_encode (hfits e (.head _))]
    dsimp only [Bind.bind, Except.bind]
    rw [hany, hrest]
    rfl

/-- Every list `putTree` accepts is read back, if its names are strictly increasing. -/
theorem decodeTree_encodeTree {es : List TreeEntry} (hs : Sorted none es)
    (hfits : ∀ e ∈ es, e.fits = true) : decodeTree (encodeTree es) = .ok es :=
  decodeLoop_encode hs hfits (Nat.le_refl _)

/-- What the loop accepts is the encoding of sorted entries that fit. -/
theorem decodeLoop_ok {n : Nat} {last : Option Bytes} {buf : Bytes} {es : List TreeEntry}
    (hn : buf.length ≤ n) (h : decodeLoop n last buf = .ok es) :
    encodeTree es = buf ∧ Sorted last es ∧ ∀ e ∈ es, e.fits = true := by
  induction n generalizing last buf es with
  | zero =>
    obtain rfl := List.eq_nil_of_length_eq_zero (Nat.le_zero.1 hn)
    cases h
    exact ⟨rfl, trivial, nofun⟩
  | succ n ih =>
    by_cases hbuf : buf = []
    · subst hbuf
      cases h
      exact ⟨rfl, trivial, nofun⟩
    · rw [decodeLoop_succ hbuf] at h
      cases hd : decodeTreeEntry buf with
      | error e => rw [hd] at h; cases h
      | ok r =>
        obtain ⟨e, rest⟩ := r
        obtain ⟨rfl, hfit⟩ := decodeTreeEntry_ok hd
        rw [hd] at h
        dsimp only [Bind.bind, Except.bind] at h
        split at h
        · cases h
        · next hlast =>
          cases hrest : decodeLoop n (some e.name) rest with
          | error e' => rw [hrest] at h; cases h
          | ok es' =>
            rw [hrest] at h
            cases h
            rw [List.length_append, length_encodeTreeEntry] at hn
            obtain ⟨henc, hs, hfits⟩ := ih (by omega) hrest
            refine ⟨?_, ⟨fun name hname => ?_, hs⟩, ?_⟩
            · rw [← henc]
              simp [encodeTree]
            · rw [hname] at hlast
              simpa using hlast
            · intro e' he'
              rcases List.mem_cons.1 he' with rfl | he'
              · exact hfit
              · exact hfits e' he'

/-- What is read was put: its encoding is the object, and it is sorted. -/
theorem decodeTree_ok {buf : Bytes} {es : List TreeEntry} (h : decodeTree buf = .ok es) :
    encodeTree es = buf ∧ Sorted none es ∧ ∀ e ∈ es, e.fits = true :=
  decodeLoop_ok (Nat.le_refl _) h

end Tarmac.Tree
