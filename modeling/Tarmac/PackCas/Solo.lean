import Tarmac.PackCas.Open

/-!
# A process that has the directory to itself

The setting in which no other process moves (`Setting.solo`). Its rules speak about the runs of one
program: what a safe operation establishes holds after every run (`Setting.solo_run`), the invariant
holds wherever the process is stopped (`Setting.solo_visits`), and an operation always returns
(`Setting.solo_exists_run`), because nothing it could wait for is held by anybody else.
-/

namespace Tarmac.PackCas

/-- No call fails, but a `pwrite` if the operation is `faulty`. -/
def faults (faulty : Bool) (c : Call) (ch : Choice) : Prop :=
  ch.fail = true → faulty = true ∧ ∃ i off d, c = .pwrite i off d

/-- The setting of a single process: `choice` are the choices of the environment, `sound` whether
the index is trusted, and `K` how the process may change the committed store. -/
def Setting.solo (ext : Ext) (choice : Call → Choice → Prop) (sound : Prop)
    (K : Store → Store → Prop) (hext : sound → ext.Lawful)
    (hrel : sound → ∀ c n, choice c ⟨true, n⟩ → ∃ i off d, c = .pwrite i off d)
    (hok : ∀ c n, choice c ⟨false, n⟩) (hK : ∀ M, K M M) : Setting where
  ext := ext
  choice := choice
  allow _ _ _ := True
  extra _ := True
  calm := True
  pinned := True
  sound := sound
  Kr := Eq
  Kg := K
  lawful := hext
  reliable := hrel
  choice_ok := hok
  allow_extra _ _ _ _ := trivial
  Kr_refl _ := rfl
  Kr_trans := Eq.trans
  Kg_refl := hK
  Kg_le h := absurd trivial h

/-- The setting of a single process whose index is sound. -/
def Setting.trusted (ext : Ext) (hext : ext.Lawful) (faulty : Bool) (K : Store → Store → Prop)
    (hK : ∀ M, K M M) : Setting :=
  .solo ext (faults faulty) True K (fun _ => hext) (fun _ _ _ h => (h rfl).2)
    (fun _ _ h => absurd h (by simp)) hK

/-- The setting of a single process that trusts nothing in the bytes of index and pack. -/
def Setting.doubtful (ext : Ext) (choice : Call → Choice → Prop)
    (hok : ∀ c n, choice c ⟨false, n⟩) : Setting :=
  .solo ext choice False (fun _ _ => True) False.elim False.elim hok fun _ => trivial

section

variable {ext : Ext} {choice : Call → Choice → Prop} {sound : Prop} {K : Store → Store → Prop}
  {hext : sound → ext.Lawful}
  {hrel : sound → ∀ c n, choice c ⟨true, n⟩ → ∃ i off d, c = .pwrite i off d}
  {hok : ∀ c n, choice c ⟨false, n⟩} {hK : ∀ M, K M M} {p : Nat} {w w' : World} {α : Type}
  {m : CasM α} {i i' : Impl} {tr : List (Event sig)} {x : Except Err α}
  {Q : Except Err α → Impl → World → Prop}

/-- What a safe operation of a single process establishes. -/
theorem Setting.solo_run (hr : Prog.Run (PackCas.sem choice p) (m i) w tr (x, i') w')
    (hI : Inv (.solo ext choice sound K hext hrel hok hK) p w)
    (hm : Eff.Safe ((Setting.solo ext choice sound K hext hrel hok hK).rules p) Q m i w) :
    Inv (.solo ext choice sound K hext hrel hok hK) p w' ∧ Q x i' w' :=
  Prog.Safe.run Rely.refl (hr.mono fun _ _ _ _ h => ⟨h, trivial⟩) hI hm

/-- Wherever a single process is stopped in a safe operation, the invariant holds, and the committed
store has changed in steps the setting allows. -/
theorem Setting.solo_visits (hv : Prog.Visits (PackCas.sem choice p) (m i) w w')
    (hI : Inv (.solo ext choice sound K hext hrel hok hK) p w)
    (hm : Eff.Safe ((Setting.solo ext choice sound K hext hrel hok hK).rules p) Q m i w) :
    Inv (.solo ext choice sound K hext hrel hok hK) p w' ∧
      Relation.ReflTransGen (Guar (.solo ext choice sound K hext hrel hok hK) p) w w' :=
  Prog.Safe.visits Rely.refl (hv.mono fun _ _ _ _ h => ⟨h, trivial⟩) hI hm

/-- A safe operation of a single process returns. -/
theorem Setting.solo_exists_run
    (hI : Inv (.solo ext choice sound K hext hrel hok hK) p w)
    (hm : Eff.Safe ((Setting.solo ext choice sound K hext hrel hok hK).rules p) Q m i w) :
    ∃ tr x i' w', Prog.Run (PackCas.sem choice p) (m i) w tr (x, i') w' := by
  have hwait : ∀ c w, Inv (.solo ext choice sound K hext hrel hok hK) p w →
      ¬Wait (.solo ext choice sound K hext hrel hok hK) p c w := by
    rintro c w hI (⟨-, q, t, hq, hw⟩ | ⟨_, _, _, _, _, hn⟩)
    · exact hq ((hI.solo trivial).writer q t hw)
    · exact hn trivial
  obtain ⟨tr, ⟨x, i'⟩, w', hr⟩ := Prog.Safe.exists_run Rely.refl hwait hI hm
  exact ⟨tr, x, i', w', hr.mono fun _ _ _ _ h => h.1⟩

end

/-! ## The empty directory -/

/-- An empty directory is well formed. -/
theorem Shape.fresh : Shape .fresh where
  wf := ⟨List.nodup_nil, nofun, nofun⟩
  sizes _ := Nat.zero_le _
  gen := ⟨0, rfl⟩
  format := .inr ⟨rfl, rfl⟩
  pack _ _ _ := rfl

/-- It satisfies the invariant of every setting that admits it. -/
theorem Inv.fresh (S : Setting) (p : Nat) (h : S.extra .fresh) : Inv S p .fresh :=
  ⟨.fresh, h, fun _ => .empty, fun _ => ⟨fun _ h => (nomatch h), fun _ _ h => (nomatch h)⟩⟩

/-- Nobody has it open. -/
theorem Closed.fresh (S : Setting) (p : Nat) :
    Closed S p .fresh (World.fresh.store S.ext) .fresh where
  txn := rfl
  unlocked := nofun
  kept := ⟨S.Kr_refl _, fun _ => .of_eq rfl rfl⟩

/-- The database records that generation. -/
def Db.hasGen (db : Db) (g : Nat) : Bool :=
  match db.gen with
  | .ok k => k == g
  | .error _ => false

/-- A generation that was found is read. -/
theorem Db.gen_of_hasGen {db : Db} {g : Nat} (h : db.hasGen g = true) : db.gen = .ok g := by
  unfold Db.hasGen at h
  split at h
  · next k hk => rw [hk, beq_iff_eq.1 h]
  · cases h

/-- What may fail does not have to. -/
theorem faults_free (faulty : Bool) : ∀ c n, faults faulty c ⟨false, n⟩ := fun _ _ h => absurd h (by simp)

/-! ## A stand-in for the libraries -/

/-- The first 32 bytes as the hash, and no compression. -/
def Ext.sample : Ext where
  blake3 d := (d ++ List.replicate kHashLen 0).take kHashLen
  lz4Compress _ _ := none
  lz4Decompress _ _ := none

/-- The sample libraries keep the laws. -/
theorem Ext.lawful_sample : Ext.sample.Lawful where
  length_blake3 d := by
    rw [Ext.sample, List.length_take, List.length_append, List.length_replicate]
    omega
  compress_le _ _ _ h := nomatch h
  roundtrip _ _ _ _ h := nomatch h

end Tarmac.PackCas
