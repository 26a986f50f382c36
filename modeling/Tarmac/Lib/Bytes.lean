import Mathlib.Algebra.Order.Ring.Nat
import Mathlib.Data.List.Lex

/-!
# Byte strings and byte files

Byte strings in the order of `memcmp` (unsigned bytes, a prefix before its extensions), fixed-width
little-endian integers, and the two accesses to a file's bytes: `slice` is what a positioned read
returns and `splice` what a positioned write leaves. A read that ends at or before the offset of a
write does not see it (`slice_splice_of_le`), a read of the written range returns what was written
(`slice_splice_self`).
-/

namespace Tarmac

/-- Bytes are compared as unsigned numbers. -/
instance instLinearOrderUInt8 : LinearOrder UInt8 where
  le_refl := UInt8.le_refl
  le_trans _ _ _ := UInt8.le_trans
  lt_iff_le_not_ge a b := by simp only [UInt8.lt_iff_toNat_lt, UInt8.le_iff_toNat_le]; omega
  le_antisymm _ _ := UInt8.le_antisymm
  le_total := UInt8.le_total
  toDecidableLE := inferInstance
  toDecidableLT := inferInstance
  toDecidableEq := inferInstance

instance instLawfulBEqBytes : LawfulBEq (List UInt8) := inferInstance

/-- A byte string. Its order is `memcmp`'s, the shorter first on a common prefix. -/
abbrev Bytes : Type := List UInt8

/-- The bytes of a string of ASCII characters. -/
def ascii (s : List Char) : Bytes := s.map fun c => UInt8.ofNat c.toNat

/-- A byte string is not below its prefixes. -/
theorem not_lt_of_prefix {pre k : Bytes} (h : pre <+: k) : ¬k < pre := by
  induction pre generalizing k with
  | nil => exact List.not_lt_nil k
  | cons b pre ih =>
    obtain ⟨rest, rfl⟩ := h
    rw [List.cons_append, List.cons_lt_cons_iff]
    rintro (hlt | ⟨-, hlt⟩)
    · exact lt_irrefl _ hlt
    · exact ih ⟨rest, rfl⟩ hlt

/-- What lies between a prefix and a string that has it, has it too. -/
theorem prefix_of_between {pre x k : Bytes} (h : pre <+: k) (hx : ¬x < pre) (hxk : x < k) :
    pre <+: x := by
  induction pre generalizing x k with
  | nil => exact List.nil_prefix
  | cons b pre ih =>
    obtain ⟨rest, rfl⟩ := h
    cases x with
    | nil => exact absurd (List.nil_lt_cons _ _) hx
    | cons c x =>
      rw [List.cons_lt_cons_iff] at hx
      rw [List.cons_append, List.cons_lt_cons_iff] at hxk
      rcases hxk with hlt | ⟨rfl, hlt⟩
      · exact absurd (.inl hlt) hx
      · exact List.cons_prefix_cons.2 ⟨rfl, ih ⟨rest, rfl⟩ (fun h => hx (.inr ⟨rfl, h⟩)) hlt⟩

/-! ## Fixed-width integers -/

/-- The `n` low bytes of `v`, least significant first. -/
def leBytes : Nat → Nat → Bytes
  | 0, _ => []
  | n + 1, v => UInt8.ofNat v :: leBytes n (v / 256)

/-- The number whose bytes, least significant first, are given. -/
def ofLeBytes : Bytes → Nat
  | [] => 0
  | b :: bs => b.toNat + 256 * ofLeBytes bs

/-- The encoding has the length that was asked for. -/
@[simp] theorem length_leBytes (n v : Nat) : (leBytes n v).length = n := by
  induction n generalizing v with
  | zero => rfl
  | succ n ih => simp [leBytes, ih]

/-- What does not fit is cut off. -/
theorem ofLeBytes_leBytes (n v : Nat) : ofLeBytes (leBytes n v) = v % 256 ^ n := by
  induction n generalizing v with
  | zero => simp [leBytes, ofLeBytes, Nat.mod_one]
  | succ n ih =>
    have hpow : 256 ^ (n + 1) = 256 * 256 ^ n := by rw [Nat.pow_succ, Nat.mul_comm]
    rw [leBytes, ofLeBytes, ih, UInt8.toNat_ofNat', hpow, Nat.mod_mul]

/-- A decoded number is below the bound its length gives. -/
theorem ofLeBytes_lt (bs : Bytes) : ofLeBytes bs < 256 ^ bs.length := by
  induction bs with
  | nil => simp [ofLeBytes]
  | cons b bs ih =>
    have := b.toNat_lt
    rw [ofLeBytes, List.length_cons, Nat.pow_succ]
    omega

/-- Decoding forgets nothing but the length. -/
theorem leBytes_ofLeBytes (bs : Bytes) : leBytes bs.length (ofLeBytes bs) = bs := by
  induction bs with
  | nil => rfl
  | cons b bs ih =>
    have hb := b.toNat_lt
    have hdiv : (b.toNat + 256 * ofLeBytes bs) / 256 = ofLeBytes bs := by omega
    have hlow : UInt8.ofNat (b.toNat + 256 * ofLeBytes bs) = b := by
      apply UInt8.toNat.inj
      rw [UInt8.toNat_ofNat']
      omega
    rw [List.length_cons, ofLeBytes, leBytes, hdiv, ih, hlow]

/-! ## Positioned reads and writes -/

/-- At most `len` bytes of `f` from `off` on. -/
def slice (f : Bytes) (off len : Nat) : Bytes := (f.drop off).take len

/-- `f` after `d` is written at `off`; a gap before `off` is filled with zeros. -/
def splice (f : Bytes) (off : Nat) (d : Bytes) : Bytes :=
  (f.take off ++ List.replicate (off - f.length) 0) ++ d ++ f.drop (off + d.length)

/-- A slice ends at the end of the file. -/
theorem length_slice (f : Bytes) (off len : Nat) :
    (slice f off len).length = min len (f.length - off) := by simp [slice]

/-- A slice inside the file has its full length. -/
theorem length_slice_of_le {f : Bytes} {off len : Nat} (h : off + len ≤ f.length) :
    (slice f off len).length = len := by rw [length_slice]; omega

@[simp] theorem slice_zero (f : Bytes) (off : Nat) : slice f off 0 = [] := by simp [slice]

/-- A slice that ends at or before `n` is a slice of the first `n` bytes. -/
theorem slice_take {f : Bytes} {off len n : Nat} (h : off + len ≤ n) :
    slice (f.take n) off len = slice f off len := by
  rw [slice, slice, List.drop_take, List.take_take, Nat.min_eq_left (by omega)]

/-- Files that agree on their first `n` bytes have the same slices there. -/
theorem slice_congr {f g : Bytes} {off len n : Nat} (h : off + len ≤ n)
    (hfg : f.take n = g.take n) : slice f off len = slice g off len := by
  rw [← slice_take h, hfg, slice_take h]

/-- What is left of a slice when its beginning is dropped. -/
theorem drop_slice (f : Bytes) (off len k : Nat) :
    (slice f off len).drop k = slice f (off + k) (len - k) := by
  rw [slice, slice, List.drop_take, List.drop_drop]

/-- Consecutive slices. -/
theorem slice_append (f : Bytes) (off m n : Nat) :
    slice f off m ++ slice f (off + m) n = slice f off (m + n) := by
  rw [slice, slice, slice, ← List.drop_drop, List.take_add]

/-- A splice leaves what lies before it. -/
theorem take_splice {f : Bytes} {off n : Nat} (d : Bytes) (hn : n ≤ off) (hoff : off ≤ f.length) :
    (splice f off d).take n = f.take n := by
  rw [splice, List.append_assoc, List.append_assoc, List.take_append_of_le_length (by simp; omega),
    List.take_take, Nat.min_eq_left hn]

/-- A splice makes the file longer where it reaches past the end. -/
theorem length_splice {f : Bytes} {off : Nat} (d : Bytes) (hoff : off ≤ f.length) :
    (splice f off d).length = max f.length (off + d.length) := by
  simp only [splice, List.length_append, List.length_take, List.length_replicate, List.length_drop]
  omega

/-- A read does not see a write at or after its end. -/
theorem slice_splice_of_le {f : Bytes} {off off' len : Nat} (d : Bytes) (h : off' + len ≤ off)
    (hoff : off ≤ f.length) : slice (splice f off d) off' len = slice f off' len :=
  slice_congr h (take_splice d (Nat.le_refl _) hoff)

/-- A read of a written range returns what was written. -/
theorem slice_splice_self {f : Bytes} {off : Nat} (d : Bytes) (hoff : off ≤ f.length) :
    slice (splice f off d) off d.length = d := by
  have hl : (f.take off ++ List.replicate (off - f.length) (0 : UInt8)).length = off := by
    simp; omega
  rw [slice, splice, List.append_assoc, List.drop_append_of_le_length (by omega),
    List.drop_eq_nil_of_le (by omega), List.nil_append, List.take_append_of_le_length (by omega),
    List.take_of_length_le (by omega)]

/-- A write at the end of a file appends. -/
theorem splice_length (f d : Bytes) : splice f f.length d = f ++ d := by
  simp [splice]

end Tarmac
