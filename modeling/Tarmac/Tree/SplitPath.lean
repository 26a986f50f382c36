import Tarmac.Lib.LexPath
import Tarmac.Tree.Mem

/-!
# Splitting a path

`split_path` against lexical paths: what it answers is where the components between the slashes lead,
as long as no name is longer than `kMaxNameLen` and none is entered below `kMaxTreeDepth` others
(`splitLoop_eq`). The limits are looked at where a name is entered, and what is left again later has
been looked at too.
-/

namespace Tarmac.Tree

/-- What a component of a path does. -/
def hop (comp : Bytes) : Hop Bytes :=
  if comp = [] ∨ comp = ascii ['.'] then .stay
  else if comp = ascii ['.', '.'] then .up
  else .down comp

/-- The components of a path, read from left to right. -/
def hops (path : Bytes) : List (Hop Bytes) := (path.splitOn 47).map hop

/-- Where a path leads from a root that `..` does not leave. -/
def normalPath (path : Bytes) : List Bytes := Hop.walk (hops path) []

/-- The check of `split_path` before it enters a name. -/
def mayEnter (comps : List Bytes) (comp : Bytes) : Bool :=
  decide (comp.length ≤ kMaxNameLen) && decide (comps.length < kMaxTreeDepth)

/-- `split_path`, begun with components that were split before. -/
def splitFrom (comps : List Bytes) (path : Bytes) : Option (List Bytes) :=
  splitLoop path.length path comps

variable {path comp : Bytes} {comps : List Bytes}

/-! ## The loop -/

/-- A round of the loop consumes a byte. -/
theorem nextComp_lt (h : path ≠ []) : (nextComp path).2.length < path.length := by
  have hpos := List.length_pos_of_ne_nil h
  unfold nextComp
  rw [List.length_drop]
  omega

/-- A component goes as far as the next slash. -/
theorem takeWhile_slash (hcomp : 47 ∉ comp) (rest : Bytes) :
    (comp ++ rest).takeWhile (fun b => decide (b ≠ 47)) =
      comp ++ rest.takeWhile fun b => decide (b ≠ 47) := by
  refine List.takeWhile_append_of_pos fun b hb => decide_eq_true ?_
  rintro rfl
  exact hcomp hb

/-- The next component is what comes before the slash. -/
theorem nextComp_slash (hcomp : 47 ∉ comp) (rest : Bytes) :
    nextComp (comp ++ 47 :: rest) = (comp, rest) := by
  unfold nextComp
  rw [takeWhile_slash hcomp, List.takeWhile_cons_of_neg (by decide), List.append_nil]
  dsimp only
  rw [List.drop_append, List.drop_eq_nil_of_le (Nat.le_succ _), Nat.add_sub_cancel_left,
    List.drop_one, List.tail_cons, List.nil_append]

/-- The last one is what is left. -/
theorem nextComp_last (hcomp : 47 ∉ comp) : nextComp comp = (comp, []) := by
  have htake := takeWhile_slash hcomp []
  rw [List.append_nil, List.takeWhile_nil, List.append_nil] at htake
  unfold nextComp
  rw [htake]
  dsimp only
  rw [List.drop_eq_nil_of_le (Nat.le_succ _)]

/-- Nothing is left to split. -/
theorem splitLoop_nil (n : Nat) (comps : List Bytes) : splitLoop n [] comps = some comps := by
  cases n <;> rfl

/-- One round of the loop follows one component. -/
theorem splitLoop_succ {n : Nat} (hpath : path ≠ []) {rest : Bytes}
    (hnext : nextComp path = (comp, rest)) {hs : List (Hop Bytes)}
    (hrest : ∀ comps, splitLoop n rest comps = Hop.walkWithin mayEnter hs comps) :
    splitLoop (n + 1) path comps = Hop.walkWithin mayEnter (hop comp :: hs) comps := by
  rw [splitLoop, if_neg hpath, hnext]
  dsimp only
  unfold hop
  split
  · exact hrest comps
  · split
    · exact hrest comps.dropLast
    · rw [Hop.walkWithin, hrest]
      by_cases hbad : kMaxNameLen < comp.length ∨ kMaxTreeDepth ≤ comps.length
      · rw [if_pos hbad, if_neg]
        rw [mayEnter, Bool.and_eq_true, decide_eq_true_eq, decide_eq_true_eq]
        omega
      · rw [if_neg hbad, if_pos]
        rw [mayEnter, Bool.and_eq_true, decide_eq_true_eq, decide_eq_true_eq]
        omega

/-- With as many rounds as bytes, the loop follows every component. -/
theorem splitLoop_eq {n : Nat} (hn : path.length ≤ n) :
    splitLoop n path comps = Hop.walkWithin mayEnter (hops path) comps := by
  induction n generalizing path comps with
  | zero =>
    obtain rfl := List.eq_nil_of_length_eq_zero (Nat.le_zero.1 hn)
    rfl
  | succ n ih =>
    by_cases hpath : path = []
    · subst hpath
      rfl
    · by_cases hslash : 47 ∈ path
      · obtain ⟨comp, rest, rfl, hcomp⟩ := List.eq_append_cons_of_mem hslash
        rw [hops, List.splitOn_append_cons_self_of_not_mem hcomp, List.map_cons]
        refine splitLoop_succ hpath (nextComp_slash hcomp rest) fun comps => ih ?_
        rw [List.length_append, List.length_cons] at hn
        omega
      · rw [hops, List.splitOn_eq_singleton hslash, List.map_cons]
        exact splitLoop_succ hpath (nextComp_last hslash) fun comps => splitLoop_nil n comps

/-- `split_path` walks along the components. -/
theorem splitPath_eq (path : Bytes) : splitPath path = Hop.walkWithin mayEnter (hops path) [] :=
  splitLoop_eq (Nat.le_refl _)

/-! ## The components -/

/-- A component that names a file. -/
structure Ordinary (comp : Bytes) : Prop where
  ne_nil : comp ≠ []
  no_slash : 47 ∉ comp
  ne_dot : comp ≠ ascii ['.']
  ne_dots : comp ≠ ascii ['.', '.']

/-- What lies between the slashes has none. -/
theorem no_slash_of_mem (h : comp ∈ path.splitOn 47) : 47 ∉ comp := by
  induction hn : path.length using Nat.strong_induction_on generalizing path with
  | _ n ih =>
    by_cases hslash : 47 ∈ path
    · obtain ⟨first, rest, rfl, hfirst⟩ := List.eq_append_cons_of_mem hslash
      rw [List.splitOn_append_cons_self_of_not_mem hfirst] at h
      rcases List.mem_cons.1 h with rfl | h
      · exact hfirst
      · refine ih rest.length ?_ h rfl
        rw [← hn, List.length_append, List.length_cons]
        omega
    · rw [List.splitOn_eq_singleton hslash] at h
      obtain rfl := List.mem_singleton.1 h
      exact hslash

/-- A component goes down exactly if it is ordinary. -/
theorem hop_eq_down {name : Bytes} (hcomp : 47 ∉ comp) :
    hop comp = .down name ↔ comp = name ∧ Ordinary comp := by
  unfold hop
  split
  · next h => exact ⟨nofun, fun ⟨_, ho⟩ => absurd h (not_or.2 ⟨ho.ne_nil, ho.ne_dot⟩)⟩
  · next h =>
    obtain ⟨hne, hdot⟩ := not_or.1 h
    split
    · next hdots => exact ⟨nofun, fun ⟨_, ho⟩ => absurd hdots ho.ne_dots⟩
    · next hdots =>
      constructor
      · intro heq
        cases heq
        exact ⟨rfl, hne, hcomp, hdot, hdots⟩
      · rintro ⟨rfl, -⟩
        rfl

/-- An ordinary component goes down. -/
theorem hop_ordinary (h : Ordinary comp) : hop comp = .down comp := (hop_eq_down h.no_slash).2 ⟨rfl, h⟩

/-- Ordinary components that are joined walk down again. -/
theorem hops_join (h : ∀ comp ∈ comps, Ordinary comp) :
    Hop.walkWithin mayEnter (hops ([47].intercalate comps)) [] =
      Hop.walkWithin mayEnter (comps.map .down) [] := by
  cases comps with
  | nil => rfl
  | cons comp rest =>
    rw [hops, List.splitOn_intercalate 47 (fun c hc => (h c hc).no_slash) (List.cons_ne_nil _ _)]
    exact congrArg (fun hs => Hop.walkWithin mayEnter hs [])
      (List.map_congr_left fun c hc => hop_ordinary (h c hc))

/-- Only what a path goes down to is among the names of where it leads. -/
theorem mem_walk {hs : List (Hop Bytes)} {dirs : List Bytes} {name : Bytes}
    (h : name ∈ Hop.walk hs dirs) : Hop.down name ∈ hs ∨ name ∈ dirs := by
  induction hs generalizing dirs with
  | nil => exact .inr h
  | cons hop hs ih =>
    rcases ih h with h | h
    · exact .inl (.tail _ h)
    · cases hop with
      | stay => exact .inr h
      | up => exact .inr ((List.dropLast_sublist _).mem h)
      | down name' =>
        rcases List.mem_append.1 h with h | h
        · exact .inr h
        · obtain rfl := List.mem_singleton.1 h
          exact .inl (.head _)

/-- The names of where a path leads are ordinary. -/
theorem ordinary_of_mem (h : comp ∈ normalPath path) : Ordinary comp := by
  rcases mem_walk h with h | h
  · obtain ⟨c, hc, hdown⟩ := List.mem_map.1 h
    obtain ⟨rfl, ho⟩ := (hop_eq_down (no_slash_of_mem hc)).1 hdown
    exact ho
  · cases h

/-! ## What is split off -/

/-- The components of a path that is split: the names it leads to, which are the only ones that are
left when moves up are cancelled. -/
structure SplitsInto (path : Bytes) (comps : List Bytes) : Prop where
  depth : comps.length ≤ kMaxTreeDepth
  ordinary : ∀ comp ∈ comps, Ordinary comp
  short : ∀ comp ∈ comps, comp.length ≤ kMaxNameLen
  leads : comps = normalPath path
  normal : ∀ names, Relation.ReflTransGen Hop.Cancels (hops path) (names.map .down) ↔ names = comps
  again : splitPath ([47].intercalate comps) = some comps

/-- What `split_path` returns is what the path splits into. -/
theorem splitsInto_of_splitPath (h : splitPath path = some comps) : SplitsInto path comps := by
  rw [splitPath_eq] at h
  have hadm := Hop.Admitted.nil.walkWithin h
  have hnormal : comps = normalPath path := Hop.walk_of_within h
  have hord : ∀ comp ∈ comps, Ordinary comp := fun comp hc => ordinary_of_mem (hnormal ▸ hc)
  have hmay {pre post : List Bytes} {name : Bytes} (heq : comps = pre ++ name :: post) :
      name.length ≤ kMaxNameLen ∧ pre.length < kMaxTreeDepth := by
    have h := hadm pre name post heq
    rwa [mayEnter, Bool.and_eq_true, decide_eq_true_eq, decide_eq_true_eq] at h
  constructor
  · rcases List.eq_nil_or_concat comps with rfl | ⟨init, last, rfl⟩
    · exact Nat.zero_le _
    · rw [List.concat_eq_append, List.length_append]
      exact (hmay List.concat_eq_append).2
  · exact hord
  · intro comp hc
    obtain ⟨pre, post, heq⟩ := List.append_of_mem hc
    exact (hmay heq).1
  · exact hnormal
  · intro names
    constructor
    · exact fun h => (Hop.walk_unique h).trans hnormal.symm
    · rintro rfl
      rw [hnormal]
      exact Hop.cancels_walk (hops path)
  · rw [splitPath_eq, hops_join hord]
    exact Hop.walkWithin_again h

/-- A path is refused at an ordinary component that is too long or lies too deep. -/
theorem splitPath_eq_none_iff : splitPath path = none ↔
    ∃ pre comp post, path.splitOn 47 = pre ++ comp :: post ∧ Ordinary comp ∧
      (kMaxNameLen < comp.length ∨ kMaxTreeDepth ≤ (Hop.walk (pre.map hop) []).length) := by
  have hbad (dirs : List Bytes) (comp : Bytes) : mayEnter dirs comp = false ↔
      kMaxNameLen < comp.length ∨ kMaxTreeDepth ≤ dirs.length := by
    rw [mayEnter, Bool.and_eq_false_iff, decide_eq_false_iff_not, decide_eq_false_iff_not, not_le,
      not_lt]
  rw [splitPath_eq, Hop.walkWithin_eq_none_iff]
  constructor
  · rintro ⟨hpre, name, hpost, heq, hno⟩
    obtain ⟨pre, rest, hsplit, rfl, hrest⟩ := List.map_eq_append_iff.1 heq
    obtain ⟨comp, post, rfl, hcomp, rfl⟩ := List.map_eq_cons_iff.1 hrest
    have hmem : comp ∈ path.splitOn 47 := hsplit ▸ List.mem_append_right _ (.head _)
    obtain ⟨rfl, ho⟩ := (hop_eq_down (no_slash_of_mem hmem)).1 hcomp
    exact ⟨pre, comp, post, hsplit, ho, (hbad _ _).1 hno⟩
  · rintro ⟨pre, comp, post, hsplit, ho, hno⟩
    refine ⟨pre.map hop, comp, post.map hop, ?_, (hbad _ _).2 hno⟩
    rw [hops, hsplit, List.map_append, List.map_cons, hop_ordinary ho]

/-- The second path is split from where the first one was. -/
theorem splitPath_append (p q : Bytes) :
    splitPath (p ++ 47 :: q) = (splitPath p).bind fun comps => splitFrom comps q := by
  rw [splitPath_eq, splitPath_eq, hops, List.splitOn_append_cons_self, List.map_append,
    Hop.walkWithin_append]
  congr 1
  funext comps
  exact (splitLoop_eq (Nat.le_refl _)).symm

/-- `split_path` ends, each of its rounds consuming a byte. It answers the normal form of the path, a
list of at most `kMaxTreeDepth` ordinary names that are no longer than `kMaxNameLen`, which joined is
split into itself, unless an ordinary component is too long or comes behind `kMaxTreeDepth` others that
are still there. Behind a slash it goes on from where it was. -/
theorem splitPath_normalises (path : Bytes) :
    ((∀ rest, rest ≠ [] → (nextComp rest).2.length < rest.length) ∧
      ∀ n, path.length ≤ n → splitLoop n path [] = splitPath path) ∧
    (∀ comps, splitPath path = some comps → SplitsInto path comps) ∧
    (splitPath path = none ↔ ∃ pre comp post, path.splitOn 47 = pre ++ comp :: post ∧ Ordinary comp ∧
      (kMaxNameLen < comp.length ∨ kMaxTreeDepth ≤ (Hop.walk (pre.map hop) []).length)) ∧
    ∀ q, splitPath (path ++ 47 :: q) = (splitPath path).bind fun comps => splitFrom comps q := by
  refine ⟨⟨fun _ => nextComp_lt, fun n hn => ?_⟩, fun _ => splitsInto_of_splitPath,
    splitPath_eq_none_iff, splitPath_append path⟩
  rw [splitLoop_eq hn, splitPath_eq]

end Tarmac.Tree
