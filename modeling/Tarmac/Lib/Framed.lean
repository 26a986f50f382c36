import Tarmac.Lib.Bytes

/-!
# Framed strings

Strings written one after another, each behind its length and padded with zeros: `frame w s` is the
length of `s` in `w` bytes, `s`, and as many zeros as make the length of the whole a multiple of `w`.
What was framed can be read back, whatever it is followed by (`frame_append_inj`), so a sequence of
strings is determined by its framed form (`frames_inj`), as long as their lengths fit `w` bytes.
-/

namespace Tarmac

/-- The zeros behind a string of length `len`. -/
def padding (w len : Nat) : Bytes :=
  if len % w = 0 then [] else List.replicate (w - len % w) 0

/-- A string behind its length, padded. -/
def frame (w : Nat) (s : Bytes) : Bytes := leBytes w s.length ++ (s ++ padding w s.length)

/-- The strings of a list, framed one after another. -/
def frames (w : Nat) (l : List Bytes) : Bytes := l.flatMap (frame w)

@[simp] theorem frames_nil (w : Nat) : frames w [] = [] := rfl

@[simp] theorem frames_cons (w : Nat) (s : Bytes) (l : List Bytes) :
    frames w (s :: l) = frame w s ++ frames w l := List.flatMap_cons

/-- The frames of two lists, one after the other. -/
@[simp] theorem frames_append (w : Nat) (l l' : List Bytes) :
    frames w (l ++ l') = frames w l ++ frames w l' := List.flatMap_append

/-- The length of a framed string is a multiple of the width. -/
theorem dvd_length_frame {w : Nat} (hw : 0 < w) (s : Bytes) : w ∣ (frame w s).length := by
  have hmod := Nat.div_add_mod s.length w
  have hlt := Nat.mod_lt s.length hw
  unfold frame padding
  split
  · next h =>
    rw [List.append_nil, List.length_append, length_leBytes]
    exact Nat.dvd_add (Nat.dvd_refl w) (Nat.dvd_of_mod_eq_zero h)
  · refine ⟨s.length / w + 2, ?_⟩
    rw [List.length_append, List.length_append, length_leBytes, List.length_replicate, Nat.mul_add]
    omega

/-- Framed strings fill whole words. -/
theorem dvd_length_frames {w : Nat} (hw : 0 < w) (l : List Bytes) : w ∣ (frames w l).length := by
  induction l with
  | nil => exact Nat.dvd_zero w
  | cons s l ih =>
    rw [frames_cons, List.length_append]
    exact Nat.dvd_add (dvd_length_frame hw s) ih

/-- Fixed-width integers that fit are told apart. -/
theorem leBytes_inj {w m n : Nat} (hm : m < 256 ^ w) (hn : n < 256 ^ w)
    (h : leBytes w m = leBytes w n) : m = n := by
  have hof := congrArg ofLeBytes h
  rwa [ofLeBytes_leBytes, ofLeBytes_leBytes, Nat.mod_eq_of_lt hm, Nat.mod_eq_of_lt hn] at hof

/-- A framed string is read back. -/
theorem frame_append_inj {w : Nat} {s s' r r' : Bytes} (hs : s.length < 256 ^ w)
    (hs' : s'.length < 256 ^ w) (h : frame w s ++ r = frame w s' ++ r') : s = s' ∧ r = r' := by
  unfold frame at h
  simp only [List.append_assoc] at h
  obtain ⟨hlen, hrest⟩ := List.append_inj h (by simp)
  have hlen := leBytes_inj hs hs' hlen
  rw [hlen] at hrest
  obtain ⟨rfl, hrest⟩ := List.append_inj hrest hlen
  exact ⟨rfl, List.append_cancel_left hrest⟩

/-- A framed string is not empty. -/
theorem frame_ne_nil {w : Nat} (hw : 0 < w) (s : Bytes) : frame w s ≠ [] := by
  intro h
  have hlen := congrArg List.length h
  unfold frame at hlen
  rw [List.length_append, length_leBytes, List.length_nil] at hlen
  omega

/-- A sequence of strings is determined by its framed form. -/
theorem frames_inj {w : Nat} (hw : 0 < w) {l l' : List Bytes} (hl : ∀ s ∈ l, s.length < 256 ^ w)
    (hl' : ∀ s ∈ l', s.length < 256 ^ w) (h : frames w l = frames w l') : l = l' := by
  induction l generalizing l' with
  | nil =>
    cases l' with
    | nil => rfl
    | cons s l' =>
      rw [frames_cons] at h
      exact absurd (List.append_eq_nil_iff.1 h.symm).1 (frame_ne_nil hw s)
  | cons s l ih =>
    cases l' with
    | nil =>
      rw [frames_cons] at h
      exact absurd (List.append_eq_nil_iff.1 h).1 (frame_ne_nil hw s)
    | cons s' l' =>
      rw [frames_cons, frames_cons] at h
      obtain ⟨rfl, hrest⟩ := frame_append_inj (hl _ (.head _)) (hl' _ (.head _)) h
      rw [ih (fun s hs => hl s (.tail _ hs)) (fun s hs => hl' s (.tail _ hs)) hrest]

end Tarmac
