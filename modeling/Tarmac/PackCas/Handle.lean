import Tarmac.PackCas.Calls

/-!
# The mappings of a handle

A handle keeps every pack it ever mapped. `HandleOk` says what may be relied on: a mapping is of a
generation up to the committed one, and the mapping of the committed generation is the file the
directory names. `mapping_for` keeps it, whatever other processes do meanwhile
(`safe_mappingFor`), and so do moves of the environment (`HandleOk.rely`).
-/

namespace Tarmac.PackCas

variable {S : Setting} {p : Nat} {w w' : World} {i i' : Impl} {m : Mapping}

/-- The mappings of a handle. -/
def Impl.mappings (i : Impl) : List Mapping := i.cur.toList ++ i.retired

/-- A mapping of a generation up to the committed one; if it is of the committed one, it is of the
file the directory names. -/
structure MapOk (m : Mapping) (w : World) : Prop where
  le : ∀ g, w.env.db.gen = .ok g → m.gen ≤ g
  ino : w.env.db.gen = .ok m.gen → w.fs.ino m.gen = some m.ino
  lt : m.ino < w.fs.next

/-- The mappings of a handle are in order. -/
structure HandleOk (i : Impl) (w : World) : Prop where
  map : ∀ m ∈ i.mappings, MapOk m w
  max : ∀ c, i.cur = some c → ∀ m ∈ i.retired, m.gen < c.gen
  nil : i.cur = none → i.retired = []

/-- Two handles that differ in their mappings at most. -/
structure Impl.SameBatch (i i' : Impl) : Prop where
  wtxn : i'.wtxn = i.wtxn
  writerThread : i'.writerThread = i.writerThread
  thread : i'.thread = i.thread
  committedEnd : i'.committedEnd = i.committedEnd
  end_ : i'.end_ = i.end_
  batchBytes : i'.batchBytes = i.batchBytes

/-- A handle has its own batch. -/
theorem Impl.SameBatch.refl (i : Impl) : i.SameBatch i := ⟨rfl, rfl, rfl, rfl, rfl, rfl⟩

/-- What a mapping knows of its file is not part of the batch. -/
theorem Impl.SameBatch.setKnown (i : Impl) (g n : Nat) : i.SameBatch (i.setKnown g n) :=
  ⟨rfl, rfl, rfl, rfl, rfl, rfl⟩

theorem Impl.SameBatch.addMapping (i : Impl) (m : Mapping) : i.SameBatch (i.addMapping m) := by
  rw [Impl.addMapping]
  split
  · exact ⟨rfl, rfl, rfl, rfl, rfl, rfl⟩
  · split <;> exact ⟨rfl, rfl, rfl, rfl, rfl, rfl⟩

/-- The batch is kept from step to step. -/
theorem Impl.SameBatch.trans {i'' : Impl} (h : i.SameBatch i') (h' : i'.SameBatch i'') :
    i.SameBatch i'' :=
  ⟨h'.wtxn.trans h.wtxn, h'.writerThread.trans h.writerThread, h'.thread.trans h.thread,
    h'.committedEnd.trans h.committedEnd, h'.end_.trans h.end_, h'.batchBytes.trans h.batchBytes⟩

/-- What is found is a mapping of the generation. -/
theorem Impl.find_some {g : Nat} (h : i.find g = some m) : m ∈ i.mappings ∧ m.gen = g :=
  ⟨List.mem_of_find?_eq_some h, by simpa using List.find?_some h⟩

/-- Where nothing is found no mapping is of the generation. -/
theorem Impl.find_none {g : Nat} (h : i.find g = none) (hm : m ∈ i.mappings) : m.gen ≠ g := by
  simpa using List.find?_eq_none.1 h m hm

/-- A mapping is added to those that were there. -/
theorem Impl.mem_addMapping {m' : Mapping} :
    m' ∈ (i.addMapping m).mappings ↔ m' = m ∨ m' ∈ i.mappings := by
  cases hc : i.cur with
  | none => simp [Impl.addMapping, Impl.mappings, hc]
  | some c =>
    simp only [Impl.addMapping, Impl.mappings, hc]
    split <;> simp <;> tauto

/-! ## What the environment leaves alone -/

/-- A mapping stays good whatever the other processes do. -/
theorem MapOk.rely (hI : Inv S p w) (hR : Rely S p w w') (h : MapOk m w) :
    MapOk m w' := by
  obtain ⟨g, hg⟩ := hI.shape.gen
  have hle := h.le g hg
  refine ⟨fun g' hg' => hle.trans (hR.gen g g' hg hg'), fun hg' => ?_, h.lt.trans_le hR.next⟩
  have heq : g = m.gen := Nat.le_antisymm (hR.gen g m.gen hg hg') hle
  subst heq
  exact (hR.same (hg'.trans hg.symm)).ino _ _ hg (h.ino hg)

theorem HandleOk.rely (hI : Inv S p w) (hR : Rely S p w w') (h : HandleOk i w) : HandleOk i w' :=
  ⟨fun m hm => (h.map m hm).rely hI hR, h.max, h.nil⟩

theorem stable_mapOk : S.Stable p (MapOk m) := fun _ _ hI _ hR h => h.rely hI hR

theorem stable_handleOk : S.Stable p (HandleOk i) := fun _ _ hI _ hR h => h.rely hI hR

/-- Only the generation, the names and the number of inodes matter. -/
theorem MapOk.congr (h : MapOk m w) (hg : w'.env.db.gen = w.env.db.gen)
    (hino : ∀ g i, w.env.db.gen = .ok g → w.fs.ino g = some i → w'.fs.ino g = some i)
    (hn : w.fs.next ≤ w'.fs.next) : MapOk m w' :=
  ⟨fun g h' => h.le g (hg ▸ h'), fun h' => hino _ _ (hg ▸ h') (h.ino (hg ▸ h')), h.lt.trans_le hn⟩

/-- A handle does not depend on other files. -/
theorem HandleOk.congr (h : HandleOk i w) (hg : w'.env.db.gen = w.env.db.gen)
    (hino : ∀ g i, w.env.db.gen = .ok g → w.fs.ino g = some i → w'.fs.ino g = some i)
    (hn : w.fs.next ≤ w'.fs.next) : HandleOk i w' :=
  ⟨fun m hm => (h.map m hm).congr hg hino hn, h.max, h.nil⟩

/-- The fields other than the mappings do not matter. -/
theorem HandleOk.of_mappings (h : HandleOk i w) (hc : i'.cur = i.cur)
    (hr : i'.retired = i.retired) : HandleOk i' w where
  map m hm := h.map m (by rwa [Impl.mappings, hc, hr] at hm)
  max c hcur m hm := h.max c (hc ▸ hcur) m (hr ▸ hm)
  nil hcur := hr.trans (h.nil (hc ▸ hcur))

/-- A new mapping is taken in. -/
theorem HandleOk.addMapping (h : HandleOk i w) (hm : MapOk m w) (hnew : i.find m.gen = none) :
    HandleOk (i.addMapping m) w := by
  refine ⟨fun m' hm' => ?_, ?_, ?_⟩
  · rcases Impl.mem_addMapping.1 hm' with rfl | hm'
    exacts [hm, h.map m' hm']
  · cases hc : i.cur with
    | none =>
      simp only [Impl.addMapping, hc, h.nil hc]
      intro _ _ _ h
      cases h
    | some c =>
      have hne : c.gen ≠ m.gen := Impl.find_none hnew (List.mem_append.2 (.inl (by simp [hc])))
      simp only [Impl.addMapping, hc]
      split
      · next hlt =>
        intro c' hc' m' hm'
        cases hc'
        rcases List.mem_append.1 hm' with hm' | hm'
        · exact (h.max c hc m' hm').trans hlt
        · rw [List.mem_singleton.1 hm']
          exact hlt
      · next hlt =>
        intro c' hc' m' hm'
        cases hc'
        rcases List.mem_append.1 hm' with hm' | hm'
        · exact h.max c hc m' hm'
        · rw [List.mem_singleton.1 hm']
          omega
  · rw [Impl.addMapping]
    split
    · next hc => exact fun h' => by cases h'
    · next c hc =>
      split
      · exact fun h' => by cases h'
      · exact fun h' => by rw [hc] at h'; cases h'

/-- The mapping of the committed generation is the current one. -/
theorem HandleOk.cur_of_mem (h : HandleOk i w) (hm : m ∈ i.mappings)
    (hg : w.env.db.gen = .ok m.gen) : i.cur = some m := by
  cases hc : i.cur with
  | none =>
    rw [Impl.mappings, hc, h.nil hc] at hm
    cases hm
  | some c =>
    rw [Impl.mappings, hc] at hm
    rcases List.mem_cons.1 hm with rfl | hm
    · rfl
    · have h₁ := h.max c hc m hm
      have h₂ := (h.map c (by simp [Impl.mappings, hc])).le _ hg
      omega

/-! ## `mapping_for` -/

/-- The calls of `map_pack` that may fail. -/
def Setting.CanFailMap (S : Setting) : Prop :=
  ∃ c, S.CanFail c ∧ ∀ i off d, c ≠ .pwrite i off d

/-- In a sound setting no mapping is refused. -/
theorem Setting.not_canFailMap (hS : S.sound) : ¬S.CanFailMap :=
  fun ⟨_, hc, hne⟩ => Setting.not_canFail hS hne hc

/-- `map_pack` maps the named file, and creates it if it may. -/
theorem safe_mapPack {g : Nat} {create : Bool} {P : World → Prop} (hI : Inv S p w)
    (hP : S.Stable p P) (hw : P w) (hle : ∀ k, w.env.db.gen = .ok k → g ≤ k)
    (hcreate : create = true → ∀ w, P w → w.fs.ino g = none → Inv S p (w.setFs (w.fs.create g)) →
      (w.setFs (w.fs.create g)).pack = w.pack →
      P (w.setFs (w.fs.create g))) :
    Eff.Safe (S.rules p) (fun x i' w' => P w' ∧ match x with
      | .ok (some m) => m.gen = g ∧ MapOk m w' ∧ ∃ n, i' = i.setKnown g n
      | .ok none => create = false ∧ i' = i ∧ ∃ w₁, Inv S p w₁ ∧ P w₁ ∧ w₁.fs.ino g = none
      | .error e => e.caught ∧ S.CanFailMap ∧ ∃ n, i' = i ∨ i' = i.setKnown g n)
      (mapPack g create) i w := by
  have hle' : S.Stable p fun w => ∀ k, w.env.db.gen = .ok k → g ≤ k := fun w w' hI _ hR h k hk => by
    obtain ⟨k₀, hk₀⟩ := hI.shape.gen
    exact (h k₀ hk₀).trans (hR.gen k₀ k hk₀ hk)
  -- the rest after the file is open
  have hrest : ∀ ino w, Inv S p w → P w → MapOk ⟨g, ino⟩ w →
      Eff.Safe (S.rules p) (fun x i' w' => P w' ∧ match x with
        | .ok (some m) => m.gen = g ∧ MapOk m w' ∧ ∃ n, i' = i.setKnown g n
        | .ok none => create = false ∧ i' = i ∧ ∃ w₁, Inv S p w₁ ∧ P w₁ ∧ w₁.fs.ino g = none
        | .error e => e.caught ∧ S.CanFailMap ∧ ∃ n, i' = i ∨ i' = i.setKnown g n)
        (do
          let size ← fileSize ⟨g, ino⟩
          Eff.modify (·.setKnown g size)
          perform (.mmap ino) >>= sysCheck "mmap pack"
          pure (some ⟨g, ino⟩)) i w := by
    intro ino w hI hPw hm
    refine safe_fileSize (hP.and stable_mapOk) hI ⟨hPw, hm⟩ (fun w₁ hI₁ h₁ => ?_)
      fun hf w₁ _ h₁ => ⟨h₁.1, rfl, ⟨_, hf, by simp⟩, 0, .inl rfl⟩
    refine Eff.Safe.modify ?_
    refine safe_mmap (hP.and stable_mapOk) hI₁ h₁ (fun w₂ hI₂ h₂ => ?_)
      fun hf w₂ _ h₂ => ⟨h₂.1, rfl, ⟨_, hf, by simp⟩, _, .inr rfl⟩
    exact safe_pure (hP.and stable_mapOk) hI₂ h₂ fun w₃ _ h₃ => ⟨h₃.1, rfl, h₃.2, _, rfl⟩
  refine Eff.Safe.perform fun w₁ hI₁ hR => ?_
  obtain ⟨hP₁, hle₁⟩ := (hP.and hle') w w₁ hI hI₁ hR ⟨hw, hle⟩
  refine step_openPack hI₁ (fun ino hino => ?_) (fun hc hnone hI₂ hpk => ?_) (fun hc hnone => ?_)
    fun hf => ?_
  · exact hrest ino w₁ hI₁ hP₁ ⟨hle₁, fun _ => hino, hI₁.shape.wf.lt _ _ hino⟩
  · refine hrest _ _ hI₂ (hcreate hc w₁ hP₁ hnone hI₂ hpk) ⟨hle₁, fun _ => ?_, Nat.lt_succ_self _⟩
    change (w₁.fs.create g).ino g = _
    rw [Fs.ino_create, if_pos rfl]
  · cases hc
    exact safe_pure hP hI₁ hP₁ fun w₃ _ h₃ => ⟨h₃, rfl, rfl, w₁, hI₁, hP₁, hnone⟩
  · exact safe_throw hP hI₁ hP₁ fun w₃ _ h₃ => ⟨h₃, rfl, ⟨_, hf, by simp⟩, 0, .inl rfl⟩

/-- What `mapping_for` leaves of a handle and gives back. -/
def MappingFor (S : Setting) (p : Nat) (g : Nat) (create : Bool) (P : World → Prop) (i : Impl)
    (x : Except Err (Option Mapping)) (i' : Impl) (w' : World) : Prop :=
  P w' ∧ HandleOk i' w' ∧ i.SameBatch i' ∧ match x with
  | .ok (some m) => m.gen = g ∧ m ∈ i'.mappings
  | .ok none => create = false ∧ ∃ w₁, Inv S p w₁ ∧ P w₁ ∧ w₁.fs.ino g = none
  | .error e => e.caught ∧ S.CanFailMap

/-- `mapping_for` takes the mapping of a generation up to the committed one into the handle. -/
theorem safe_mappingFor {g : Nat} {create : Bool} {P : World → Prop} (hI : Inv S p w)
    (hh : HandleOk i w) (hP : S.Stable p P) (hw : P w) (hle : ∀ k, w.env.db.gen = .ok k → g ≤ k)
    (hcreate : create = true → ∀ w, P w → w.fs.ino g = none → Inv S p (w.setFs (w.fs.create g)) →
      (w.setFs (w.fs.create g)).pack = w.pack →
      P (w.setFs (w.fs.create g))) :
    Eff.Safe (S.rules p) (MappingFor S p g create P i) (mappingFor g create) i w := by
  refine Eff.Safe.get ?_
  cases hf : i.find g with
  | some m =>
    exact safe_pure (hP.and stable_handleOk) hI ⟨hw, hh⟩ fun w₁ _ h₁ =>
      ⟨h₁.1, h₁.2, .refl i, (Impl.find_some hf).2, (Impl.find_some hf).1⟩
  | none =>
    have hcreate' : create = true → ∀ w, P w ∧ HandleOk i w → w.fs.ino g = none →
        Inv S p (w.setFs (w.fs.create g)) →
        (w.setFs (w.fs.create g)).pack = w.pack →
        P (w.setFs (w.fs.create g)) ∧ HandleOk i (w.setFs (w.fs.create g)) := by
      intro hc w h hn hI' hpk
      refine ⟨hcreate hc w h.1 hn hI' hpk,
        h.2.congr rfl (fun k j _ hj => ?_) (Nat.le_succ _)⟩
      change (w.fs.create g).ino k = some j
      rw [Fs.ino_create, if_neg]
      · exact hj
      · rintro rfl
        rw [hn] at hj
        cases hj
    refine safe_seq hI (safe_mapPack hI (hP.and stable_handleOk) ⟨hw, hh⟩ hle hcreate') ?_ ?_
    · rintro (_ | m) i' w' hI' ⟨⟨hP', hh'⟩, h⟩
      · obtain ⟨hc, rfl, w₁, hI₁, h₁, hn⟩ := h
        exact safe_pure (hP.and stable_handleOk) hI' ⟨hP', hh'⟩ fun w₂ _ h₂ =>
          ⟨h₂.1, h₂.2, .refl _, hc, w₁, hI₁, h₁.1, hn⟩
      · obtain ⟨rfl, hm, n, rfl⟩ := h
        refine safe_pure (hP.and (stable_handleOk.and stable_mapOk)) hI' ⟨hP', hh', hm⟩
          fun w₂ _ h₂ => ⟨h₂.1, ?_, ?_, rfl, Impl.mem_addMapping.2 (.inl rfl)⟩
        · exact HandleOk.addMapping (i := i.setKnown m.gen n) (h₂.2.1.of_mappings rfl rfl) h₂.2.2 hf
        · exact (Impl.SameBatch.setKnown i _ n).trans (.addMapping _ m)
    · rintro e i' w' _ ⟨⟨hP', hh'⟩, he, hc, n, rfl | rfl⟩
      · exact ⟨hP', hh', .refl _, he, hc⟩
      · exact ⟨hP', hh'.of_mappings rfl rfl, .setKnown _ _ _, he, hc⟩

end Tarmac.PackCas
