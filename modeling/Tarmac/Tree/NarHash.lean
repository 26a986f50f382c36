import Tarmac.Tree.Nar

/-!
# Hashing a dump

`nar_sha256` stages small chunks of the dump in a buffer and hands large ones to SHA-256 as they come.
What was handed over and what the buffer holds is always the chunks so far, in order
(`NarHash.Staged`), so the digest is that of the dump, whichever way its chunks went
(`narSha256_streams`).

OpenSSL is a parameter: a context, and functions on it that can fail (`Evp`).
-/

namespace Tarmac.Tree

open PackCas

def kSha256Len : Nat := 32
def kHashBufSize : Nat := 2 ^ 16
/-- From this size on a chunk is hashed directly. -/
def kHashDirectThreshold : Nat := 256

/-- What the code takes from OpenSSL: `EVP_MD_CTX_new` with `EVP_DigestInit_ex` for SHA-256,
`EVP_DigestUpdate` and `EVP_DigestFinal_ex`. -/
structure Evp where
  Ctx : Type
  init : Option Ctx
  update : Ctx → Bytes → Option Ctx
  final : Ctx → Option Bytes

/-! ## The code -/

/-- The loop of `nar_dump` with its sink: `give` takes a chunk into the state `τ` of the sink. -/
def narLoopTo {τ : Type} (give : τ → Bytes → Except Err τ) (work : List NarWork) (sink : τ) :
    TreeM τ :=
  match work with
  | [] => pure sink
  | .str s :: work => Eff.ofExcept ((narStr s).foldlM give sink) >>= narLoopTo give work
  | .node ⟨⟨_, type, id⟩, depth⟩ :: work =>
    if _h : kMaxTreeDepth < depth then Eff.throw (.runtime "tree too deep")
    else
      Eff.ofExcept ((narStr (ascii ['(']) ++ narStr (ascii ['t', 'y', 'p', 'e'])).foldlM give sink) >>=
        fun sink =>
      match type with
      | .d =>
        Eff.ofExcept ((narStr (ascii ['d', 'i', 'r', 'e', 'c', 't', 'o', 'r', 'y'])).foldlM give sink)
          >>= fun sink => readTree id >>= fun children =>
            narLoopTo give (narDirectory children depth ++ work) sink
      | .leaf type => narLeaf type id >>= fun chunks =>
        Eff.ofExcept (chunks.foldlM give sink) >>= narLoopTo give work
termination_by work
decreasing_by
  · exact ⟨_, work, [], rfl, rfl, nofun⟩
  · exact ⟨_, work, narDirectory children depth, rfl, rfl, rank_narDirectory _h children⟩
  · exact ⟨_, work, [], rfl, rfl, nofun⟩

/-- `nar_dump` with its sink. -/
def narDumpTo {τ : Type} (give : τ → Bytes → Except Err τ) (root : Bytes) (sink : τ) : TreeM τ :=
  Eff.ofExcept ((narStr narMagic).foldlM give sink) >>= narLoopTo give [.node ⟨⟨[], .d, root⟩, 0⟩]

/-- The locals of `nar_sha256`. -/
structure NarHash (Ctx : Type) where
  ctx : Ctx
  buf : Bytes := []
  narSize : UInt64 := 0

namespace NarHash

variable (evp : Evp)

/-- `update` of `nar_sha256`. -/
def update (h : NarHash evp.Ctx) (chunk : Bytes) : Except Err (NarHash evp.Ctx) :=
  match evp.update h.ctx chunk with
  | some ctx => .ok { h with ctx := ctx }
  | none => .error (.runtime "sha256 update failed")

/-- `flush` of `nar_sha256`. -/
def flush (h : NarHash evp.Ctx) : Except Err (NarHash evp.Ctx) :=
  if h.buf ≠ [] then do
    let h ← h.update evp h.buf
    .ok { h with buf := [] }
  else .ok h

/-- The sink `nar_sha256` gives to `nar_dump`. -/
def sink (h : NarHash evp.Ctx) (chunk : Bytes) : Except Err (NarHash evp.Ctx) :=
  let h := { h with narSize := h.narSize + chunk.length.toUInt64 }
  if kHashDirectThreshold ≤ chunk.length then do
    let h ← h.flush evp
    h.update evp chunk
  else do
    let h ← if kHashBufSize < h.buf.length + chunk.length then h.flush evp else .ok h
    .ok { h with buf := h.buf ++ chunk }

/-- The digest, at the end of `nar_sha256`. -/
def digest (h : NarHash evp.Ctx) : Except Err Bytes :=
  match evp.final h.ctx with
  | some digest =>
    if digest.length = kSha256Len then .ok digest else .error (.runtime "sha256 final failed")
  | none => .error (.runtime "sha256 final failed")

end NarHash

/-- `nar_sha256`: the digest and the size. -/
def narSha256 (evp : Evp) (root : Bytes) : TreeM (Bytes × UInt64) :=
  match evp.init with
  | none => Eff.throw (.runtime "sha256 init failed")
  | some ctx => do
    let h ← narDumpTo (NarHash.sink evp) root { ctx := ctx }
    let h ← Eff.ofExcept (h.flush evp)
    let digest ← Eff.ofExcept (h.digest evp)
    pure (digest, h.narSize)

/-! ## The chunks of a dump -/

section

variable {τ α β : Type} {give : τ → Bytes → Except Err τ} {sem : Sem sig Sys} {σ σ' : Pending}
  {s s' : Sys} {tr : List (Tarmac.Event sig)} {end_ : τ}

/-- Runs of both parts are a run. -/
theorem run_bind_intro {m : TreeM β} {f : β → TreeM α} {x : Except Err α} {b : β} {σ₁ : Pending}
    {s₁ : Sys} {tr₁ tr₂ : List (Tarmac.Event sig)} (h₁ : Prog.Run sem (m σ) s tr₁ (.ok b, σ₁) s₁)
    (h₂ : Prog.Run sem (f b σ₁) s₁ tr₂ (x, σ') s') :
    Prog.Run sem ((m >>= f) σ) s (tr₁ ++ tr₂) (x, σ') s' := Prog.Run.bind h₁ h₂

/-- Chunks are given one after the other. -/
theorem foldlM_append_ok {l l' : List Bytes} {sink mid : τ} (h : l.foldlM give sink = .ok mid)
    (h' : l'.foldlM give mid = .ok end_) : (l ++ l').foldlM give sink = .ok end_ := by
  rw [List.foldlM_append, h]
  exact h'

/-- What the sink of a dump that returns was given is what `narLoop` collects. -/
theorem run_narLoopTo {work : List NarWork} {sink : τ} (out : List Bytes)
    (hr : Prog.Run sem (narLoopTo give work sink σ) s tr (.ok end_, σ') s') :
    ∃ chunks, chunks.foldlM give sink = .ok end_ ∧
      Prog.Run sem (narLoop work out σ) s tr (.ok (out ++ chunks), σ') s' := by
  induction work, out using narLoop.induct generalizing sink σ s tr with
  | case1 out =>
    rw [narLoopTo] at hr
    rw [narLoop]
    cases hr
    refine ⟨[], rfl, ?_⟩
    rw [List.append_nil]
    exact .ret
  | case2 out str work ih =>
    rw [narLoopTo] at hr
    rw [narLoop]
    obtain ⟨mid, hmid, hr⟩ := Eff.run_ofExcept_ok hr
    obtain ⟨chunks, hchunks, hrun⟩ := ih hr
    refine ⟨_, foldlM_append_ok hmid hchunks, ?_⟩
    rwa [← List.append_assoc]
  | case3 out name type id depth work hdeep =>
    rw [narLoopTo, dif_pos hdeep] at hr
    cases hr
  | case4 out name id depth work hdeep out₁ =>
    rename_i out₂ ih
    rw [narLoopTo, dif_neg hdeep] at hr
    rw [narLoop, dif_neg hdeep]
    obtain ⟨mid, hmid, hr₁⟩ := Eff.run_ofExcept_ok hr
    dsimp only at hr₁ ⊢
    obtain ⟨mid', hmid', hr₂⟩ := Eff.run_ofExcept_ok hr₁
    obtain ⟨tr₁, children, σ₁, s₁, tr₂, hread, hr₃, htr⟩ := Eff.run_seq_ok hr₂
    obtain ⟨chunks, hchunks, hrun⟩ := ih children hr₃
    refine ⟨_, foldlM_append_ok hmid (foldlM_append_ok hmid' hchunks), ?_⟩
    simp only [out₂, out₁, List.append_assoc] at hrun
    rw [htr]
    simp only [List.append_assoc]
    exact run_bind_intro hread hrun
  | case5 out name id depth work hdeep out₁ type =>
    rename_i ih
    rw [narLoopTo, dif_neg hdeep] at hr
    rw [narLoop, dif_neg hdeep]
    obtain ⟨mid, hmid, hr₁⟩ := Eff.run_ofExcept_ok hr
    dsimp only at hr₁ ⊢
    obtain ⟨tr₁, leaf, σ₁, s₁, tr₂, hread, hr₂, htr⟩ := Eff.run_seq_ok hr₁
    obtain ⟨mid', hmid', hr₃⟩ := Eff.run_ofExcept_ok hr₂
    obtain ⟨chunks, hchunks, hrun⟩ := ih leaf hr₃
    refine ⟨_, foldlM_append_ok hmid (foldlM_append_ok hmid' hchunks), ?_⟩
    simp only [out₁, List.append_assoc] at hrun
    rw [htr]
    simp only [List.append_assoc]
    exact run_bind_intro hread hrun

/-- What the sink of a dump that returns was given is what `narDump` collects. -/
theorem run_narDumpTo {root : Bytes} {sink : τ}
    (hr : Prog.Run sem (narDumpTo give root sink σ) s tr (.ok end_, σ') s') :
    ∃ chunks, chunks.foldlM give sink = .ok end_ ∧
      Prog.Run sem (narDump root σ) s tr (.ok chunks, σ') s' := by
  obtain ⟨mid, hmid, hr⟩ := Eff.run_ofExcept_ok hr
  obtain ⟨chunks, hchunks, hrun⟩ := run_narLoopTo (narStr narMagic) hr
  exact ⟨_, foldlM_append_ok hmid hchunks, hrun⟩

end

/-! ## What is hashed -/

/-- The context after some updates. -/
def Evp.feed (evp : Evp) (ctx : evp.Ctx) (updates : List Bytes) : Option evp.Ctx :=
  updates.foldlM evp.update ctx

/-- The updates of the context so far and what the buffer holds are the chunks so far, in order. -/
structure NarHash.Staged (evp : Evp) (ctx : evp.Ctx) (chunks : List Bytes) (h : NarHash evp.Ctx) :
    Prop where
  fed : ∃ updates, evp.feed ctx updates = some h.ctx ∧ updates.flatten ++ h.buf = chunks.flatten
  room : h.buf.length ≤ kHashBufSize

namespace NarHash

variable {evp : Evp} {ctx : evp.Ctx} {chunks : List Bytes} {h h' : NarHash evp.Ctx} {chunk : Bytes}

/-- An update that returns. -/
theorem update_ok (hu : h.update evp chunk = .ok h') :
    ∃ ctx, evp.update h.ctx chunk = some ctx ∧ h' = { h with ctx := ctx } := by
  unfold update at hu
  split at hu
  · next ctx hctx =>
    cases hu
    exact ⟨ctx, hctx, rfl⟩
  · cases hu

/-- One more chunk is fed. -/
theorem feed_concat {updates : List Bytes} {mid end_ : evp.Ctx}
    (hfed : evp.feed ctx updates = some mid) (hu : evp.update mid chunk = some end_) :
    evp.feed ctx (updates ++ [chunk]) = some end_ := by
  unfold Evp.feed at hfed ⊢
  rw [List.foldlM_append, hfed]
  show [chunk].foldlM evp.update mid = _
  rw [List.foldlM_cons, hu]
  rfl

/-- An update takes a chunk behind an empty buffer. -/
theorem Staged.update (hs : Staged evp ctx chunks h) (hbuf : h.buf = [])
    (hu : h.update evp chunk = .ok h') :
    Staged evp ctx (chunks ++ [chunk]) h' ∧ h'.narSize = h.narSize := by
  obtain ⟨ctx', hctx, rfl⟩ := update_ok hu
  obtain ⟨updates, hfed, hflat⟩ := hs.fed
  refine ⟨⟨⟨updates ++ [chunk], feed_concat hfed hctx, ?_⟩, hs.room⟩, rfl⟩
  rw [hbuf, List.append_nil] at hflat
  show _ ++ h.buf = _
  rw [hbuf, List.append_nil, List.flatten_append, List.flatten_append, hflat]

/-- A flush leaves nothing in the buffer. -/
theorem Staged.flush (hs : Staged evp ctx chunks h) (hf : h.flush evp = .ok h') :
    Staged evp ctx chunks h' ∧ h'.buf = [] ∧ h'.narSize = h.narSize := by
  unfold NarHash.flush at hf
  split at hf
  · obtain ⟨mid, hmid, heq⟩ := except_bind_ok.1 hf
    obtain ⟨ctx', hctx, rfl⟩ := update_ok hmid
    cases heq
    obtain ⟨updates, hfed, hflat⟩ := hs.fed
    refine ⟨⟨⟨updates ++ [h.buf], feed_concat hfed hctx, ?_⟩, Nat.zero_le _⟩, rfl, rfl⟩
    rw [List.flatten_append, List.flatten_singleton, List.append_nil, hflat]
  · next hbuf =>
    cases hf
    exact ⟨hs, not_not.1 hbuf, rfl⟩

/-- The buffer takes a chunk it has room for. -/
theorem Staged.append (hs : Staged evp ctx chunks h)
    (hroom : h.buf.length + chunk.length ≤ kHashBufSize) :
    Staged evp ctx (chunks ++ [chunk]) { h with buf := h.buf ++ chunk } := by
  obtain ⟨updates, hfed, hflat⟩ := hs.fed
  refine ⟨⟨updates, hfed, ?_⟩, ?_⟩
  · rw [← List.append_assoc, hflat, List.flatten_append, List.flatten_singleton]
  · rw [List.length_append]
    exact hroom

/-- The sink takes a chunk behind the others. -/
theorem Staged.sink (hs : Staged evp ctx chunks h) (hg : h.sink evp chunk = .ok h') :
    Staged evp ctx (chunks ++ [chunk]) h' ∧ h'.narSize = h.narSize + chunk.length.toUInt64 := by
  have hcounted : Staged evp ctx chunks { h with narSize := h.narSize + chunk.length.toUInt64 } :=
    ⟨hs.fed, hs.room⟩
  unfold NarHash.sink at hg
  dsimp only at hg
  split at hg
  · obtain ⟨mid, hmid, hu⟩ := except_bind_ok.1 hg
    obtain ⟨hstaged, hbuf, hsize⟩ := hcounted.flush hmid
    obtain ⟨hstaged, hsize'⟩ := hstaged.update hbuf hu
    exact ⟨hstaged, hsize'.trans hsize⟩
  · next hsmall =>
    split at hg
    · obtain ⟨mid, hmid, heq⟩ := except_bind_ok.1 hg
      cases heq
      obtain ⟨hstaged, hbuf, hsize⟩ := hcounted.flush hmid
      refine ⟨hstaged.append ?_, hsize⟩
      -- a small chunk fits into the empty buffer
      have hfits : kHashDirectThreshold ≤ kHashBufSize := by decide
      rw [hbuf, List.length_nil, Nat.zero_add]
      omega
    · next hroom =>
      cases hg
      exact ⟨hcounted.append (not_lt.1 hroom), rfl⟩

/-- What the sink has taken is staged, and counted. -/
theorem staged_foldlM (hs : Staged evp ctx chunks h)
    (hsize : h.narSize = chunks.flatten.length.toUInt64) {more : List Bytes}
    (hg : more.foldlM (NarHash.sink evp) h = .ok h') :
    Staged evp ctx (chunks ++ more) h' ∧
      h'.narSize = (chunks ++ more).flatten.length.toUInt64 := by
  induction more generalizing chunks h with
  | nil =>
    cases hg
    rw [List.append_nil]
    exact ⟨hs, hsize⟩
  | cons chunk more ih =>
    rw [List.foldlM_cons] at hg
    obtain ⟨mid, hmid, hg⟩ := except_bind_ok.1 hg
    obtain ⟨hstaged, hcount⟩ := hs.sink hmid
    have hmore := ih hstaged ?_ hg
    · rwa [List.append_assoc] at hmore
    · rw [hcount, hsize, ← UInt64.ofNat_add, List.flatten_append, List.flatten_singleton,
        List.length_append]

end NarHash

/-- What the sink of `nar_sha256` has taken. -/
theorem NarHash.staged_sink {evp : Evp} {ctx : evp.Ctx} {chunks : List Bytes} {h : NarHash evp.Ctx}
    (hg : chunks.foldlM (NarHash.sink evp) { ctx := ctx } = .ok h) :
    h.Staged evp ctx chunks ∧ h.narSize = chunks.flatten.length.toUInt64 := by
  have hstart : NarHash.Staged evp ctx [] { ctx := ctx } := ⟨⟨[], rfl, rfl⟩, Nat.zero_le _⟩
  exact NarHash.staged_foldlM hstart rfl hg

/-- A run of `nar_sha256` that returns is one of `nar_dump`, and what was hashed is what that dumped. -/
theorem run_narDump_of_narSha256 {evp : Evp} {sem : Sem sig Sys} {root digest : Bytes} {narSize : UInt64}
    {σ σ' : Pending} {s s' : Sys} {tr : List (Tarmac.Event sig)}
    (hr : Prog.Run sem (narSha256 evp root σ) s tr (.ok (digest, narSize), σ') s') :
    ∃ chunks ctx updates end_, Prog.Run sem (narDump root σ) s tr (.ok chunks, σ') s' ∧
      evp.init = some ctx ∧ evp.feed ctx updates = some end_ ∧
      updates.flatten = chunks.flatten ∧ evp.final end_ = some digest ∧
      narSize = chunks.flatten.length.toUInt64 := by
  unfold narSha256 at hr
  cases hctx : evp.init with
  | none =>
    simp only [hctx] at hr
    cases hr
  | some ctx =>
    simp only [hctx] at hr
    obtain ⟨tr₁, h, σ₁, s₁, tr₂, hdump, hr₁, rfl⟩ := Eff.run_seq_ok hr
    obtain ⟨chunks, hchunks, hrun⟩ := run_narDumpTo hdump
    obtain ⟨hstaged, hcount⟩ := NarHash.staged_sink hchunks
    obtain ⟨h', hflush, hr₂⟩ := Eff.run_ofExcept_ok hr₁
    obtain ⟨hstaged, hbuf, hsize⟩ := hstaged.flush hflush
    obtain ⟨digest', hdigest, hr₃⟩ := Eff.run_ofExcept_ok hr₂
    cases hr₃
    obtain ⟨updates, hfed, hflat⟩ := hstaged.fed
    rw [hbuf, List.append_nil] at hflat
    rw [List.append_nil]
    refine ⟨chunks, ctx, updates, h'.ctx, hrun, rfl, hfed, hflat, ?_, hsize.trans hcount⟩
    unfold NarHash.digest at hdigest
    split at hdigest
    · next hfinal =>
      split at hdigest
      · cases hdigest
        exact hfinal
      · cases hdigest
    · cases hdigest

/-- Whatever chunks the sink of `nar_sha256` takes, what was hashed and what the buffer holds are
those chunks, in order, their length is counted, and the buffer has kept to its size. In every run of
`nar_sha256` that returns, what was hashed is what `nar_dump` dumped. -/
theorem narSha256_streams (evp : Evp) :
    (∀ ctx (chunks : List Bytes) (h : NarHash evp.Ctx), chunks.foldlM (NarHash.sink evp) { ctx := ctx } = .ok h →
      h.Staged evp ctx chunks ∧ h.narSize = chunks.flatten.length.toUInt64) ∧
    ∀ (sem : Sem sig Sys) root σ s tr digest narSize σ' s',
      Prog.Run sem (narSha256 evp root σ) s tr (.ok (digest, narSize), σ') s' →
      ∃ chunks ctx updates end_, Prog.Run sem (narDump root σ) s tr (.ok chunks, σ') s' ∧
        evp.init = some ctx ∧ evp.feed ctx updates = some end_ ∧
        updates.flatten = chunks.flatten ∧ evp.final end_ = some digest ∧
        narSize = chunks.flatten.length.toUInt64 :=
  ⟨fun _ _ _ hg => NarHash.staged_sink hg, fun _ _ _ _ _ _ _ _ _ hr => run_narDump_of_narSha256 hr⟩

/-! ## Sinks that take everything -/

section

variable {τ : Type} {give : τ → Bytes → Except Err τ}

/-- A sink that takes every chunk takes any number of them. -/
theorem foldlM_ok (hgive : ∀ sink chunk, ∃ sink', give sink chunk = .ok sink') (sink : τ)
    (chunks : List Bytes) : ∃ sink', chunks.foldlM give sink = .ok sink' := by
  induction chunks generalizing sink with
  | nil => exact ⟨sink, rfl⟩
  | cons chunk chunks ih =>
    obtain ⟨sink', h⟩ := hgive sink chunk
    rw [List.foldlM_cons, h]
    exact ih sink'

/-- A sink that takes every chunk can be given them at the end. -/
theorem narLoopTo_eq (hgive : ∀ sink chunk, ∃ sink', give sink chunk = .ok sink') {start : τ}
    (work : List NarWork) (out : List Bytes) {sink : τ} (h : out.foldlM give start = .ok sink) :
    narLoopTo give work sink = narLoop work out >>= fun chunks => Eff.ofExcept (chunks.foldlM give start) := by
  have htake (sink : τ) (chunks : List Bytes) : ∃ sink', chunks.foldlM give sink = .ok sink' :=
    foldlM_ok hgive sink chunks
  induction work, out using narLoop.induct generalizing sink with
  | case1 out =>
    rw [narLoopTo, narLoop, pure_bind, h]
    rfl
  | case2 out str work ih =>
    obtain ⟨mid, hmid⟩ := htake sink (narStr str)
    rw [narLoopTo, narLoop, hmid, ← ih (foldlM_append_ok h hmid)]
    rfl
  | case3 out name type id depth work hdeep =>
    rw [narLoopTo, narLoop, dif_pos hdeep, dif_pos hdeep]
    rfl
  | case4 out name id depth work hdeep out₁ =>
    rename_i out₂ ih
    obtain ⟨mid, hmid⟩ := htake sink (narStr (ascii ['(']) ++ narStr (ascii ['t', 'y', 'p', 'e']))
    obtain ⟨mid', hmid'⟩ := htake mid (narStr (ascii ['d', 'i', 'r', 'e', 'c', 't', 'o', 'r', 'y']))
    have hout : out₂.foldlM give start = .ok mid' := foldlM_append_ok (foldlM_append_ok h hmid) hmid'
    rw [narLoopTo, narLoop, dif_neg hdeep, dif_neg hdeep, hmid]
    dsimp only
    rw [bind_assoc]
    have hchildren : (fun children => narLoopTo give (narDirectory children depth ++ work) mid') = _ :=
      funext fun children => ih children hout
    rw [← hchildren]
    show (Eff.ofExcept (List.foldlM give mid (narStr (ascii ['d', 'i', 'r', 'e', 'c', 't', 'o', 'r', 'y']))) >>= _) = _
    rw [hmid']
    rfl
  | case5 out name id depth work hdeep out₁ type =>
    rename_i ih
    obtain ⟨mid, hmid⟩ := htake sink (narStr (ascii ['(']) ++ narStr (ascii ['t', 'y', 'p', 'e']))
    have hout : out₁.foldlM give start = .ok mid := foldlM_append_ok h hmid
    rw [narLoopTo, narLoop, dif_neg hdeep, dif_neg hdeep, hmid]
    dsimp only
    rw [bind_assoc]
    show narLeaf type id >>= _ = _
    refine congrArg (narLeaf type id >>= ·) (funext fun chunks => ?_)
    obtain ⟨mid', hmid'⟩ := htake mid chunks
    rw [hmid', ← ih chunks (foldlM_append_ok hout hmid')]
    rfl

/-- OpenSSL does not fail. -/
structure Evp.Unfailing (evp : Evp) : Prop where
  init : ∃ ctx, evp.init = some ctx
  update : ∀ ctx chunk, ∃ ctx', evp.update ctx chunk = some ctx'
  final : ∀ ctx, ∃ digest, evp.final ctx = some digest ∧ digest.length = kSha256Len

namespace Evp.Unfailing

variable {evp : Evp}

/-- Updates come through. -/
theorem hashUpdate (hevp : evp.Unfailing) (h : NarHash evp.Ctx) (chunk : Bytes) :
    ∃ h', h.update evp chunk = .ok h' := by
  obtain ⟨ctx, hctx⟩ := hevp.update h.ctx chunk
  exact ⟨_, by rw [NarHash.update, hctx]⟩

theorem hashFlush (hevp : evp.Unfailing) (h : NarHash evp.Ctx) : ∃ h', h.flush evp = .ok h' := by
  unfold NarHash.flush
  split
  · obtain ⟨h', hh'⟩ := hevp.hashUpdate h h.buf
    exact ⟨_, by rw [hh']; rfl⟩
  · exact ⟨h, rfl⟩

theorem hashSink (hevp : evp.Unfailing) (h : NarHash evp.Ctx) (chunk : Bytes) :
    ∃ h', h.sink evp chunk = .ok h' := by
  unfold NarHash.sink
  dsimp only
  split
  · obtain ⟨h₁, hflush⟩ := hevp.hashFlush { h with narSize := h.narSize + chunk.length.toUInt64 }
    obtain ⟨h₂, hupdate⟩ := hevp.hashUpdate h₁ chunk
    exact ⟨h₂, by rw [hflush]; exact hupdate⟩
  · split
    · obtain ⟨h₁, hflush⟩ := hevp.hashFlush { h with narSize := h.narSize + chunk.length.toUInt64 }
      exact ⟨_, by rw [hflush]; rfl⟩
    · exact ⟨_, rfl⟩

/-- What can be dumped can be hashed. -/
theorem run_narSha256 (hevp : evp.Unfailing) {sem : Sem sig Sys} {root : Bytes} {σ σ' : Pending}
    {s s' : Sys} {tr : List (Tarmac.Event sig)} {chunks : List Bytes}
    (hr : Prog.Run sem (narDump root σ) s tr (.ok chunks, σ') s') :
    ∃ y, Prog.Run sem (narSha256 evp root σ) s tr (.ok y, σ') s' := by
  obtain ⟨ctx, hctx⟩ := hevp.init
  have htake (h : NarHash evp.Ctx) (chunks : List Bytes) :
      ∃ h', chunks.foldlM (NarHash.sink evp) h = .ok h' := foldlM_ok hevp.hashSink h chunks
  obtain ⟨start, hstart⟩ := htake { ctx := ctx } (narStr narMagic)
  obtain ⟨h₁, hfold⟩ := htake { ctx := ctx } chunks
  obtain ⟨h₂, hflush⟩ := hevp.hashFlush h₁
  obtain ⟨digest, hdigest, hlen⟩ := hevp.final h₂.ctx
  have hdump : narDumpTo (NarHash.sink evp) root { ctx := ctx } =
      narDump root >>= fun chunks => Eff.ofExcept (chunks.foldlM (NarHash.sink evp) { ctx := ctx }) := by
    unfold narDumpTo narDump
    rw [hstart, ← narLoopTo_eq hevp.hashSink _ _ hstart]
    rfl
  refine ⟨(digest, h₂.narSize), ?_⟩
  unfold narSha256
  simp only [hctx]
  rw [hdump, bind_assoc, ← List.append_nil tr]
  refine run_bind_intro hr ?_
  rw [hfold]
  show Prog.Run sem ((Eff.ofExcept (h₁.flush evp) >>= _) σ') s' [] _ s'
  rw [hflush]
  show Prog.Run sem ((Eff.ofExcept (h₂.digest evp) >>= _) σ') s' [] _ s'
  have hok : h₂.digest evp = .ok digest := by
    unfold NarHash.digest
    rw [hdigest]
    exact if_pos hlen
  rw [hok]
  exact .ret

end Evp.Unfailing

end

end Tarmac.Tree
