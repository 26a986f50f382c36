import Tarmac.Tree.Gives
import Tarmac.Tree.Records

/-!
# What an expiry deletes

A root record is due when it is as old as the ttl, its age being the difference of two points in time:
a record whose stamp lies in the future is not. `expire_roots` computes the age as a difference of
unsigned integers, which is huge for such a record. It deletes exactly the records that are due if
there is no record that this makes look old (`expires_due_iff`).
-/

namespace Tarmac.Tree

open PackCas

/-- The age of a stamp at the time `now`, in nanoseconds. -/
def trueAge (now stamp : Nat) : Int := (now : Int) - (stamp : Int)

/-- A record that is due: its value is a stamp that is not younger than the ttl. -/
def Due (ttl : Nat) (now : Nat) (val : Bytes) : Prop :=
  isTimestamp val = true ∧ (ttl : Int) ≤ trueAge now (rbe64 val)

instance (ttl now : Nat) (val : Bytes) : Decidable (Due ttl now val) :=
  inferInstanceAs (Decidable (_ ∧ _))

/-- The keys of the records with the prefix that are due. -/
def dueKeys (ttl now : Nat) (pre : Bytes) (st : Store) : List Bytes :=
  ((st.scan pre).filter fun r => decide (Due ttl now r.2)).map Prod.fst

/-- The records that are due were deleted, and no others; the objects are as before. -/
def ExpiresDue (cfg : Config) (pre : Bytes) (now p : Nat) (s : Sys) (n : Nat) (s' : Sys) : Prop :=
  (∀ key, (s'.model p).view.records.find? key =
    if key ∈ dueKeys cfg.ttl now pre (s.model p).view then none
    else (s.model p).view.records.find? key) ∧
  n = (dueKeys cfg.ttl now pre (s.model p).view).length ∧ s'.blobs p = s.blobs p

/-- No record with the prefix has a stamp in the future, unless by more than `2 ^ 64` less the ttl. -/
def NoneAhead (cfg : Config) (pre : Bytes) (now : Nat) (st : Store) : Prop :=
  ∀ key val, st.records.find? key = some val → pre <+: key → isTimestamp val = true →
    now < rbe64 val → now + 2 ^ 64 < rbe64 val + cfg.ttl

/-! ## Ages -/

/-- A stamp is a 64-bit number. -/
theorem rbe64_lt {val : Bytes} (h : isTimestamp val = true) : rbe64 val < 2 ^ 64 := by
  have hlen : val.length = 8 := of_decide_eq_true h
  have hlt := ofLeBytes_lt val.reverse
  rw [List.length_reverse, hlen] at hlt
  exact hlt

/-- It is huge if the stamp lies in the future. -/
theorem age_ahead {now stamp : Nat} (h : now < stamp) :
    age now stamp = now + 2 ^ 64 - stamp := by
  unfold age
  exact Nat.mod_eq_of_lt (by omega)

section

variable {cfg : Config} {pre val : Bytes} {now : Nat} {st : Store}

/-- What `expire_roots` takes for expired is due, or lies in the future. -/
theorem expired_iff (hnow : now < 2 ^ 64) :
    expired cfg now val = true ↔ Due cfg.ttl now val ∨
      isTimestamp val = true ∧ now < rbe64 val ∧ rbe64 val + cfg.ttl ≤ now + 2 ^ 64 := by
  unfold expired Due trueAge
  rw [Bool.and_eq_true, decide_eq_true_iff]
  constructor
  · rintro ⟨hstamp, hage⟩
    have hlt64 := rbe64_lt hstamp
    by_cases hlt : now < rbe64 val
    · rw [age_ahead hlt] at hage
      exact .inr ⟨hstamp, hlt, by omega⟩
    · rw [age_eq (by omega) hnow] at hage
      exact .inl ⟨hstamp, by omega⟩
  · rintro (⟨hstamp, hage⟩ | ⟨hstamp, hlt, hage⟩)
    · refine ⟨hstamp, ?_⟩
      rw [age_eq (by omega) hnow]
      omega
    · refine ⟨hstamp, ?_⟩
      rw [age_ahead hlt]
      omega

/-- The keys `expire_roots` deletes. -/
def expiredKeys (cfg : Config) (now : Nat) (pre : Bytes) (st : Store) : List Bytes :=
  ((st.scan pre).filter fun r => expired cfg now r.2).map Prod.fst

/-- What `expire_roots` deletes are the expired records with the prefix. -/
theorem mem_expiredKeys {key : Bytes} : key ∈ expiredKeys cfg now pre st ↔
    ∃ val, st.records.find? key = some val ∧ pre <+: key ∧ expired cfg now val = true := by
  unfold expiredKeys
  rw [List.mem_map]
  constructor
  · rintro ⟨⟨key, val⟩, hmem, rfl⟩
    obtain ⟨hscan, hexp⟩ := List.mem_filter.1 hmem
    obtain ⟨hfind, hpre⟩ := Store.mem_scan.1 hscan
    exact ⟨val, hfind, hpre, hexp⟩
  · rintro ⟨val, hfind, hpre, hexp⟩
    exact ⟨(key, val), List.mem_filter.2 ⟨Store.mem_scan.2 ⟨hfind, hpre⟩, hexp⟩, rfl⟩

/-- What is due are the records with the prefix that are as old as the ttl. -/
theorem mem_dueKeys {key : Bytes} : key ∈ dueKeys cfg.ttl now pre st ↔
    ∃ val, st.records.find? key = some val ∧ pre <+: key ∧ Due cfg.ttl now val := by
  unfold dueKeys
  rw [List.mem_map]
  constructor
  · rintro ⟨⟨key, val⟩, hmem, rfl⟩
    obtain ⟨hscan, hdue⟩ := List.mem_filter.1 hmem
    obtain ⟨hfind, hpre⟩ := Store.mem_scan.1 hscan
    exact ⟨val, hfind, hpre, of_decide_eq_true hdue⟩
  · rintro ⟨val, hfind, hpre, hdue⟩
    exact ⟨(key, val), List.mem_filter.2 ⟨Store.mem_scan.2 ⟨hfind, hpre⟩, decide_eq_true hdue⟩, rfl⟩

/-- When nothing lies ahead, the expired records are those that are due. -/
theorem NoneAhead.expiredKeys (hnow : now < 2 ^ 64) (h : NoneAhead cfg pre now st) :
    expiredKeys cfg now pre st = dueKeys cfg.ttl now pre st := by
  unfold Tree.expiredKeys dueKeys
  refine congrArg (List.map Prod.fst) (List.filter_congr ?_)
  rintro ⟨key, val⟩ hmem
  obtain ⟨hfind, hpre⟩ := Store.mem_scan.1 hmem
  rw [Bool.eq_iff_iff, decide_eq_true_iff, expired_iff hnow, or_iff_left]
  rintro ⟨hstamp, hlt, hage⟩
  exact Nat.not_le_of_lt (h key val hfind hpre hstamp hlt) hage

end

/-! ## The program -/

section

variable {ext : Ext} {ok : Call → Sys → Choice → Prop} {p : Nat} {s s' : Sys} {σ σ' : Pending}
  {cfg : Config} {pre : Bytes} {now n : Nat} {tr : List (Tarmac.Event sig)}

/-- An expiry that returns has deleted the records it takes for expired. -/
theorem quiet_expireRoots_ok (hs : (solo ext ok p fun _ => True).Inv s) :
    Quiet ext ok p (fun _ => True) (· ∈ expiredKeys cfg now pre (s.model p).view)
      (expireRoots cfg pre now) (fun x _ s' => ∀ n, x = .ok n →
        n = (expiredKeys cfg now pre (s.model p).view).length ∧
        ∀ key ∈ expiredKeys cfg now pre (s.model p).view,
          (s'.model p).view.records.find? key = none) σ s := by
  unfold expireRoots
  refine Quiet.bind (P := fun x _ s' => ReadOutcome ((s.model p).view.scan pre) s x s') hs
    (quiet_metaScan hs fun _ hx => hx) ?_ ?_
  · rintro records σ₁ s₁ hs₁ - ⟨rfl, hx⟩
    obtain rfl : records = (s₁.model p).view.scan pre := by
      rcases hx with hx | ⟨e, hx⟩
      · exact Except.ok.inj hx
      · cases hx
    refine Quiet.bind (P := fun x _ s' => ∀ key val, (s'.model p).view.records.find? key = some val →
        x = .ok () → key ∉ expiredKeys cfg now pre (s₁.model p).view) hs₁ ?_ ?_ ?_
    · refine (quiet_deleteAll unrecorded_true hs₁ fun _ h => h).mono (fun _ h => h) ?_
      rintro x σ₂ s₂ - - ⟨-, -, h⟩
      exact fun key val hfind => (h key val hfind).2
    · intro _ σ₂ s₂ _ _ h
      refine .pure fun n hn => ⟨(Except.ok.inj hn).symm, fun key hkey => ?_⟩
      cases hfind : (s₂.model p).view.records.find? key with
      | none => rfl
      | some val => exact absurd hkey (h key val hfind rfl)
    · exact fun _ _ _ _ _ => nofun
  · exact fun _ _ _ _ _ => nofun

/-- What a run that returns has done. -/
theorem expireRoots_run (hs : s.busy p = false)
    (hr : Prog.Run (sem ext ok p) (expireRoots cfg pre now σ) s tr (.ok n, σ') s') :
    (∀ key, (s'.model p).view.records.find? key =
      if key ∈ expiredKeys cfg now pre (s.model p).view then none
      else (s.model p).view.records.find? key) ∧
    n = (expiredKeys cfg now pre (s.model p).view).length ∧ s'.blobs p = s.blobs p := by
  have hinv : (solo ext ok p fun _ => True).Inv s := ⟨hs, trivial⟩
  obtain ⟨-, hw, hdone⟩ := solo_run hr hinv (quiet_expireRoots_ok hinv)
  obtain ⟨hn, hgone⟩ := hdone n rfl
  refine ⟨fun key => ?_, hn, hw.blobs⟩
  split
  · next hkey => exact hgone key hkey
  · next hkey => exact hw.frame key hkey

/-- Deleting records comes through when no call fails. -/
theorem gives_deleteAll {calm : Prop} {keys : List Bytes} :
    Gives ext calm (fun _ _ => True) (deleteAll keys) := by
  induction keys with
  | nil => exact .pure trivial
  | cons key keys ih =>
    unfold deleteAll
    exact gives_metaDel.bind fun _ _ _ => ih

theorem gives_expireRoots {calm : Prop} : Gives ext calm (fun _ _ => True) (expireRoots cfg pre now) := by
  unfold expireRoots
  refine gives_metaScan.bind fun _ records _ => ?_
  exact gives_deleteAll.bind fun _ _ _ => .pure trivial

/-- A process that is alone gets through an expiry when no call fails. -/
theorem exists_expireRoots_run (ext : Ext) (cfg : Config) (pre : Bytes) (now : Nat) (σ : Pending)
    (hs : s.busy p = false) : ∃ tr n σ' s',
    Prog.Run (sem ext unfailing p) (expireRoots cfg pre now σ) s tr (.ok n, σ') s' := by
  have hinv : (solo ext unfailing p fun _ => True).Inv s := ⟨hs, trivial⟩
  obtain ⟨tr, ⟨x, σ'⟩, s', hr⟩ := Prog.Safe.exists_run (R := solo ext unfailing p fun _ => True)
    (fun _ => rfl) (fun c w _ hwait => hwait {} rfl) hinv (quiet_expireRoots_ok hinv)
  have hamid : Prog.Run (amid ext unfailing p) (expireRoots cfg pre now σ) s tr (x, σ') s' :=
    hr.mono fun c w r w' h => ⟨w, h⟩
  obtain ⟨n, rfl⟩ := (gives_expireRoots.returnsUnfailing p σ s).2 tr x σ' s' hamid
  exact ⟨tr, n, σ', s', hr⟩

/-- What a run that returns has deleted is what is due just when nothing lies ahead. -/
theorem expiresDue_iff_noneAhead (hnow : now < 2 ^ 64) (hs : s.busy p = false)
    (hr : Prog.Run (sem ext ok p) (expireRoots cfg pre now σ) s tr (.ok n, σ') s') :
    ExpiresDue cfg pre now p s n s' ↔ NoneAhead cfg pre now (s.model p).view := by
  obtain ⟨hfind, hn, hblobs⟩ := expireRoots_run hs hr
  constructor
  · rintro ⟨hdue, -, -⟩ key val hval hpre hstamp hlt
    by_contra hold
    have hexp : expired cfg now val = true :=
      (expired_iff hnow).2 (.inr ⟨hstamp, hlt, Nat.le_of_not_lt hold⟩)
    have hgone := hfind key
    rw [if_pos (mem_expiredKeys.2 ⟨val, hval, hpre, hexp⟩), hdue key] at hgone
    split at hgone
    · next hmem =>
      obtain ⟨val', hval', -, -, hage⟩ := mem_dueKeys.1 hmem
      obtain rfl := Option.some.inj (hval.symm.trans hval')
      unfold trueAge at hage
      omega
    · rw [hval] at hgone
      cases hgone
  · intro h
    unfold ExpiresDue
    rw [← h.expiredKeys hnow]
    exact ⟨hfind, hn, hblobs⟩

/-- An expiry deletes exactly the records that are due, and returns their number, if and only if no
record with the prefix has a stamp in the future, where the unsigned difference makes it look old. -/
theorem expires_due_iff (ext : Ext) (cfg : Config) (pre : Bytes) (now : UInt64) (σ : Pending)
    (hs : s.busy p = false) :
    (∃ tr n σ' s', Prog.Run (sem ext unfailing p) (expireRoots cfg pre now.toNat σ) s tr (.ok n, σ')
      s') ∧
    ∀ ok tr n σ' s',
      Prog.Run (sem ext ok p) (expireRoots cfg pre now.toNat σ) s tr (.ok n, σ') s' →
      (ExpiresDue cfg pre now.toNat p s n s' ↔ NoneAhead cfg pre now.toNat (s.model p).view) := by
  refine ⟨exists_expireRoots_run ext cfg pre now.toNat σ hs, ?_⟩
  intro ok tr n σ' s' hr
  exact expiresDue_iff_noneAhead now.toNat_lt hs hr

/-- A root that was registered at the time 5. -/
def rootAtFive : Sys :=
  { Sys.fresh with committed := Sys.fresh.committed.putRecord (rootKey [] true) (be64 5) }

/-- Besides it one that has just reached the ttl at the time 20, one that has not, a record that is no
stamp, and the root of a file. -/
def fiveRoots : Sys :=
  { rootAtFive with
    committed := (((rootAtFive.committed.putRecord (rootKey [1] true) (be64 10)).putRecord
      (rootKey [2] true) (be64 11)).putRecord (rootKey [3] true) [5]).putRecord (rootKey [] false)
      (be64 5) }

/-- At the time 20 the first two are due. -/
theorem expires_due_iff_sample : ∃ tr n σ' s',
    Prog.Run (sem .sample unfailing 0) (expireRoots ⟨10, 0, 0⟩ treePrefix 20 []) fiveRoots tr
      (.ok n, σ') s' ∧ ExpiresDue ⟨10, 0, 0⟩ treePrefix 20 0 fiveRoots n s' ∧ n = 2 ∧
    (s'.model 0).view.records.find? (rootKey [1] true) = none ∧
    (s'.model 0).view.records.find? (rootKey [2] true) = some (be64 11) ∧
    (s'.model 0).view.records.find? (rootKey [] false) = some (be64 5) := by
  have hidle : fiveRoots.busy 0 = false := rfl
  obtain ⟨⟨tr, n, σ', s', hr⟩, hiff⟩ := expires_due_iff .sample ⟨10, 0, 0⟩ treePrefix 20 [] hidle
  have hdue : ExpiresDue ⟨10, 0, 0⟩ treePrefix 20 0 fiveRoots n s' := by
    refine (hiff _ _ _ _ _ hr).2 fun key val hval _ _ hlt => ?_
    have hold : ∀ r ∈ (fiveRoots.model 0).view.records.toList, ¬20 < rbe64 r.2 := by decide
    exact absurd hlt (hold (key, val) (SortedMap.mem_toList.2 hval))
  refine ⟨tr, n, σ', s', hr, hdue, hdue.2.1.trans (by decide), ?_, ?_, ?_⟩ <;> rw [hdue.1] <;>
    decide

/-- At the time 3, by a clock that was stepped back, it is deleted all the same. -/
theorem expires_ahead : ∃ tr n σ' s',
    Prog.Run (sem .sample unfailing 0) (expireRoots ⟨10, 0, 0⟩ treePrefix 3 []) rootAtFive tr
      (.ok n, σ') s' ∧ ¬ExpiresDue ⟨10, 0, 0⟩ treePrefix 3 0 rootAtFive n s' := by
  have hidle : rootAtFive.busy 0 = false := rfl
  obtain ⟨tr, n, σ', s', hr⟩ := exists_expireRoots_run .sample ⟨10, 0, 0⟩ treePrefix 3 [] hidle
  refine ⟨tr, n, σ', s', hr, fun h => ?_⟩
  have hnone := (expiresDue_iff_noneAhead (by decide) hidle hr).1 h
  exact absurd (hnone (rootKey [] true) (be64 5) rfl ⟨[], rfl⟩ rfl (by decide)) (by decide)

end

end Tarmac.Tree
