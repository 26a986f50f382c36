import Tarmac.Lib.Upholds
import Tarmac.PackCas.Wipe
import Tarmac.Tree.Canonical
import Tarmac.Tree.NarHash

/-!
# The code of the fetcher

`getAccessor` of `plugin/tarmac.cc`: looks a tarball up in the fetcher's cache, downloads it if it has
to, and returns the root of its tree with a locked input. The calls it makes besides those of
`TreeStore` (`FetchCall`) go to the cache of Nix, which the processes share, and to the network, which
may answer anything.

What Nix computes without side effects is a parameter (`Nix`).
-/

namespace Tarmac.Tree

open PackCas

/-! ## Hexadecimal -/

/-- A digit `std::from_chars` takes. -/
def hexDigit (c : UInt8) : Option Nat :=
  if 48 ≤ c ∧ c ≤ 57 then some (c.toNat - 48)
  else if 97 ≤ c ∧ c ≤ 102 then some (c.toNat - 87)
  else if 65 ≤ c ∧ c ≤ 70 then some (c.toNat - 55)
  else none

/-- `from_hex`. A last character without a second one is passed over. -/
def fromHex : Bytes → Except Err Bytes
  | high :: low :: hex =>
    match hexDigit high, hexDigit low with
    | some m, some n => (fromHex hex).map (UInt8.ofNat (16 * m + n) :: ·)
    | _, _ => .error (.invalidArgument "bad hex string")
  | _ => .ok []

/-- A digit is read back. -/
theorem hexDigit_kHexDigits : ∀ n < 16, hexDigit (kHexDigits.getD n 0) = some n := by decide

/-- Two digits make a byte. -/
theorem fromHex_cons {high low : UInt8} {m n : Nat} {hex : Bytes} (hm : hexDigit high = some m)
    (hn : hexDigit low = some n) :
    fromHex (high :: low :: hex) = (fromHex hex).map (UInt8.ofNat (16 * m + n) :: ·) := by
  rw [fromHex, hm, hn]

/-- A byte makes two digits. -/
theorem toHex_cons (byte : UInt8) (raw : Bytes) : toHex (byte :: raw) =
    kHexDigits.getD (byte.toNat / 16) 0 :: kHexDigits.getD (byte.toNat % 16) 0 :: toHex raw := by
  unfold toHex
  rw [List.flatMap_cons, Nat.shiftRight_eq_div_pow, show 0xf = 2 ^ 4 - 1 from rfl,
    Nat.and_two_pow_sub_one_eq_mod]
  rfl

/-- `from_hex` undoes `to_hex`. -/
theorem fromHex_toHex (raw : Bytes) : fromHex (toHex raw) = .ok raw := by
  induction raw with
  | nil => rfl
  | cons byte raw ih =>
    have hlt := byte.toNat_lt
    have hbyte : UInt8.ofNat (16 * (byte.toNat / 16) + byte.toNat % 16) = byte := by
      rw [Nat.div_add_mod]
      exact UInt8.ofNat_toNat
    rw [toHex_cons, fromHex_cons (hexDigit_kHexDigits _ (by omega)) (hexDigit_kHexDigits _ (by omega)), ih,
      hbyte]
    rfl

/-! ## Attributes -/

/-- `nix::fetchers::Attr`. -/
inductive Attr where
  | str (s : Bytes)
  | int (n : UInt64)
  | bool (b : Bool)
  deriving DecidableEq

/-- `nix::fetchers::Attrs`, as of an input or of a cached result. -/
abbrev Attrs : Type := SortedMap Bytes Attr

def attrUrl : Bytes := ascii ['u', 'r', 'l']
def attrType : Bytes := ascii ['t', 'y', 'p', 'e']
def attrEtag : Bytes := ascii ['e', 't', 'a', 'g']
def attrRoot : Bytes := ascii ['r', 'o', 'o', 't']
def attrNarHash : Bytes := ascii ['n', 'a', 'r', 'H', 'a', 's', 'h']
def attrImmutableUrl : Bytes :=
  ascii ['i', 'm', 'm', 'u', 't', 'a', 'b', 'l', 'e', 'U', 'r', 'l']

/-- `FastTarballInputScheme::schemeName`. -/
def schemeName : Bytes := ascii ['t', 'a', 'r', 'b', 'a', 'l', 'l']

/-- `nix::fetchers::maybeGetStrAttr`. -/
def maybeGetStrAttr (attrs : Attrs) (name : Bytes) : Except Err (Option Bytes) :=
  match attrs.find? name with
  | none => .ok none
  | some (.str s) => .ok (some s)
  | some _ => .error (.runtime ("input attribute '" ++ text name ++ "' is not a string"))

/-- `nix::fetchers::getStrAttr`. -/
def getStrAttr (attrs : Attrs) (name : Bytes) : Except Err Bytes := do
  match ← maybeGetStrAttr attrs name with
  | none => .error (.runtime ("input attribute '" ++ text name ++ "' is missing"))
  | some s => .ok s

/-- An attribute that is a string is read. -/
theorem getStrAttr_eq {attrs : Attrs} {name s : Bytes} (h : attrs.find? name = some (.str s)) :
    getStrAttr attrs name = .ok s := by
  unfold getStrAttr maybeGetStrAttr
  rw [h]
  rfl

/-! ## Calls -/

/-- `nix::fetchers::Cache::Result`, as far as it is used. -/
structure CacheResult where
  value : Attrs
  expired : Bool

/-- What comes of a request: the `FileTransferResult`, and the body as libarchive reads it, or the
message with which it cannot be opened. -/
structure Transfer where
  archive : Except (Option Bytes) Archive
  cached : Bool
  etag : Bytes
  immutableUrl : Option Bytes

/-- The calls of the fetcher that do not go to the store. -/
inductive FetchCall where
  | lookupExpired (url : Bytes)
  | upsert (url : Bytes) (info : Attrs)
  | upsertHash (root hash : Bytes)
  | download (url : Bytes) (expectedETag : Option Bytes)
  | poison

/-- The answers to the calls. -/
def FetchCall.Resp : FetchCall → Type
  | lookupExpired _ => Except Err (Option CacheResult)
  | upsert .. | upsertHash .. => Except Err Unit
  | download .. => Transfer
  | poison => Unit

abbrev fetchSig : Sig := ⟨FetchCall, FetchCall.Resp⟩

/-- The calls of the fetcher and of the store, with their answers. -/
abbrev FetchTrace : Type := List (Tarmac.Event (sig.sum fetchSig))

/-- The programs of the fetcher. -/
abbrev FetchM (α : Type) : Type := Eff (sig.sum fetchSig) Pending Err α

/-- A program of a `TreeStore`. -/
abbrev onStore {α : Type} (m : TreeM α) : FetchM α := m.inl fetchSig

def lookupExpired (url : Bytes) : FetchM (Option CacheResult) := do
  let r ← Eff.perform (S := sig.sum fetchSig) (.inr (.lookupExpired url))
  Eff.ofExcept r

def upsert (url : Bytes) (info : Attrs) : FetchM Unit := do
  let r ← Eff.perform (S := sig.sum fetchSig) (.inr (.upsert url info))
  Eff.ofExcept r

/-- The cache entry that saves Nix from dumping the tree once more. -/
def upsertHash (root hash : Bytes) : FetchM Unit := do
  let r ← Eff.perform (S := sig.sum fetchSig) (.inr (.upsertHash root hash))
  Eff.ofExcept r

def request (url : Bytes) (expectedETag : Option Bytes) : FetchM Transfer :=
  Eff.perform (S := sig.sum fetchSig) (.inr (.download url expectedETag))

/-- `Ctx::poison`. -/
def poison : FetchM Unit := Eff.perform (S := sig.sum fetchSig) (.inr .poison)

/-! ## The code -/

/-- What the code takes from OpenSSL and Nix: SHA-256, the SRI form of a hash given by its digits, and
`Input::fromURL` with the attributes of the input it makes. -/
structure Nix where
  evp : Evp
  sri : Bytes → Bytes
  fromURL : Bytes → Except Err Attrs

/-- `TreeStore::hasTree`. -/
def hasTree (treeId : Bytes) : TreeM Bool := Cas.has treeId

/-- `open_archive`. -/
def openArchive (transfer : Transfer) (url : Bytes) : Except Err Archive :=
  match transfer.archive with
  | .ok arc => .ok arc
  | .error msg =>
    .error (.runtime ("failed to read tarball '" ++ text url ++ "': " ++
      (msg.map text).getD "unknown archive error"))

/-- What `catch (const CorruptError &)` takes. -/
def isCorruptError : Err → Bool
  | .corrupt _ => true
  | _ => false

/-- The cached result, if its tree is in the store. -/
def checkCached (cached : Option CacheResult) : FetchM (Option CacheResult) :=
  match cached with
  | none => pure none
  | some result =>
    Eff.catchIf isCorruptError
      (do
        let hex ← Eff.ofExcept (getStrAttr result.value attrRoot)
        let root ← Eff.ofExcept (fromHex hex)
        let present ← onStore (hasTree root)
        pure (if present then some result else none))
      fun _ => do
        poison
        pure none

/-- The root of an ingested archive: a single directory at the top is stripped. -/
def stripTop (root : Bytes) : TreeM Bytes := do
  match ← readTree root with
  | [⟨_, .d, id⟩] =>
    registerRoot id true
    pure id
  | _ => pure root

/-- The result to be cached. -/
def fetchedInfo (transfer : Transfer) (root narHash : Bytes) : Attrs :=
  let info : Attrs := ((SortedMap.empty.insert attrEtag (.str transfer.etag)).insert attrRoot
    (.str (toHex root))).insert attrNarHash (.str narHash)
  match transfer.immutableUrl with
  | none => info
  | some url => info.insert attrImmutableUrl (.str url)

/-- The attributes of a result have different names. -/
theorem attrRoot_ne_narHash : attrRoot ≠ attrNarHash := by decide

theorem attrImmutableUrl_ne : attrImmutableUrl ≠ attrRoot ∧ attrImmutableUrl ≠ attrNarHash := by decide

/-- The result of a fetch has the root and the hash. -/
theorem fetchedInfo_root {transfer : Transfer} {root narHash : Bytes} :
    (fetchedInfo transfer root narHash).find? attrRoot = some (.str (toHex root)) ∧
      (fetchedInfo transfer root narHash).find? attrNarHash = some (.str narHash) := by
  unfold fetchedInfo
  have hbare : ((((SortedMap.empty : Attrs).insert attrEtag (.str transfer.etag)).insert attrRoot
      (.str (toHex root))).insert attrNarHash (.str narHash)).find? attrRoot = some (.str (toHex root)) := by
    rw [SortedMap.find?_insert_of_ne attrRoot_ne_narHash.symm, SortedMap.find?_insert_self]
  cases transfer.immutableUrl with
  | none => exact ⟨hbare, SortedMap.find?_insert_self⟩
  | some url =>
    dsimp only
    rw [SortedMap.find?_insert_of_ne attrImmutableUrl_ne.1,
      SortedMap.find?_insert_of_ne attrImmutableUrl_ne.2]
    exact ⟨hbare, SortedMap.find?_insert_self⟩

/-- It has an immutable URL only if the transfer gave one. -/
theorem fetchedInfo_immutableUrl {transfer : Transfer} {root hash : Bytes}
    (h : transfer.immutableUrl = none) :
    (fetchedInfo transfer root hash).find? attrImmutableUrl = none := by
  have hne : attrEtag ≠ attrImmutableUrl ∧ attrRoot ≠ attrImmutableUrl ∧
      attrNarHash ≠ attrImmutableUrl := by
    decide
  unfold fetchedInfo
  rw [h]
  dsimp only
  rw [SortedMap.find?_insert_of_ne hne.2.2, SortedMap.find?_insert_of_ne hne.2.1,
    SortedMap.find?_insert_of_ne hne.1]
  rfl

/-- It has the ETag of the transfer. -/
theorem fetchedInfo_etag {transfer : Transfer} {root hash : Bytes} :
    (fetchedInfo transfer root hash).find? attrEtag = some (.str transfer.etag) := by
  have hne : attrRoot ≠ attrEtag ∧ attrNarHash ≠ attrEtag ∧ attrImmutableUrl ≠ attrEtag := by decide
  have hbare : ((((SortedMap.empty : Attrs).insert attrEtag (.str transfer.etag)).insert attrRoot
      (.str (toHex root))).insert attrNarHash (.str hash)).find? attrEtag = some (.str transfer.etag) := by
    rw [SortedMap.find?_insert_of_ne hne.2.1, SortedMap.find?_insert_of_ne hne.1,
      SortedMap.find?_insert_self]
  unfold fetchedInfo
  cases transfer.immutableUrl with
  | none => exact hbare
  | some url =>
    dsimp only
    rw [SortedMap.find?_insert_of_ne hne.2.2]
    exact hbare

/-- `FastTarballInputScheme::download`. -/
def download (nix : Nix) (cfg : Config) (fuel : Nat) (url : Bytes) (cached : Option CacheResult) :
    FetchM Attrs := do
  let expectedETag ← Eff.ofExcept (match cached with
    | none => .ok none
    | some result => (getStrAttr result.value attrEtag).map some)
  let transfer ← request url expectedETag
  let arc ← Eff.ofExcept (openArchive transfer url)
  let ingest ← onStore (ingestArchive cfg fuel arc)
  let root ← onStore (stripTop ingest.1)
  match cached with
  | some result =>
    if transfer.cached then pure result.value
    else hashed nix transfer root
  | none => hashed nix transfer root
where
  hashed (nix : Nix) (transfer : Transfer) (root : Bytes) : FetchM Attrs := do
    let narHash ← onStore (narSha256 nix.evp root)
    let narHashSri := nix.sri (toHex narHash.1)
    upsertHash root narHashSri
    pure (fetchedInfo transfer root narHashSri)

/-- The input the immutable URL of a result stands for, if it has one. -/
def lockedInput (nix : Nix) (info : Attrs) (input : Attrs) : Except Err Attrs := do
  match ← maybeGetStrAttr info attrImmutableUrl with
  | none => .ok input
  | some immutableUrl =>
    let immutable ← nix.fromURL immutableUrl
    let type ← getStrAttr immutable attrType
    if type ≠ schemeName then
      .error (.runtime
        "tarball 'Link' headers that redirect to non-tarball URLs are not supported")
    else .ok immutable

/-- `FastTarballInputScheme::getAccessor`: the root the accessor is for, and the locked input. -/
def getAccessor (nix : Nix) (cfg : Config) (fuel : Nat) (input : Attrs) : FetchM (Bytes × Attrs) := do
  let url ← Eff.ofExcept (getStrAttr input attrUrl)
  let cached ← lookupExpired url
  let cached ← checkCached cached
  let info ← (match cached with
    | some result =>
      if result.expired then refreshed nix cfg fuel url cached else pure result.value
    | none => refreshed nix cfg fuel url none)
  let input ← Eff.ofExcept (lockedInput nix info input)
  let narHash ← Eff.ofExcept (getStrAttr info attrNarHash)
  let hex ← Eff.ofExcept (getStrAttr info attrRoot)
  let root ← Eff.ofExcept (fromHex hex)
  onStore (touchRoot cfg root true)
  pure (root, input.insert attrNarHash (.str narHash))
where
  refreshed (nix : Nix) (cfg : Config) (fuel : Nat) (url : Bytes) (cached : Option CacheResult) :
      FetchM Attrs := do
    let info ← download nix cfg fuel url cached
    upsert url info
    pure info

/-! ## The environment -/

/-- Nix's cache as far as the fetcher uses it, and whether the store's directory is poisoned. -/
structure FetchCache where
  results : SortedMap Bytes Attrs
  hashes : SortedMap Bytes Bytes
  poisoned : Bool

/-- A cache without entries of the fetcher. -/
def FetchCache.empty : FetchCache := ⟨.empty, .empty, false⟩

/-- What the environment decides about a call: of the store; whether an access to the cache fails and
whether an entry is too old; what comes of a request; whether the poison file can be written. -/
structure FetchChoice where
  store : Choice := {}
  fail : Option Err := none
  expired : Bool := false
  transfer : Transfer := ⟨.error none, false, [], none⟩
  poisons : Bool := true

/-- The answer of the cache when it can be accessed, and what becomes of it. -/
def FetchChoice.access {α : Type} (ch : FetchChoice) (a : α) (v v' : FetchCache) :
    Except Err α × FetchCache :=
  match ch.fail with
  | none => (.ok a, v')
  | some e => (.error e, v)

/-- What a call does that does not go to the store. -/
def FetchChoice.run (ch : FetchChoice) (v : FetchCache) : (c : FetchCall) → c.Resp × FetchCache
  | .lookupExpired url =>
    ch.access ((v.results.find? url).map fun value => CacheResult.mk value ch.expired) v v
  | .upsert url info => ch.access () v { v with results := v.results.insert url info }
  | .upsertHash root hash => ch.access () v { v with hashes := v.hashes.insert root hash }
  | .download _ _ => (ch.transfer, v)
  | .poison => ((), if ch.poisons then { v with poisoned := true } else v)

/-- What a call of the process `p` does; `none` when it waits. -/
def fetchExec (ext : Ext) (p : Nat) (ch : FetchChoice) (c : (sig.sum fetchSig).Call)
    (w : Sys × FetchCache) : Option ((sig.sum fetchSig).Resp c × Sys × FetchCache) :=
  match c with
  | .inl c => (exec ext p ch.store c w.1).map fun x => (x.1, x.2, w.2)
  | .inr c => some ((ch.run w.2 c).1, w.1, (ch.run w.2 c).2)

/-- The semantics of the calls of `p` when the environment only makes choices that `ok` admits. -/
def fetchSem (ext : Ext) (ok : (sig.sum fetchSig).Call → Sys × FetchCache → FetchChoice → Prop) (p : Nat) :
    Sem (sig.sum fetchSig) (Sys × FetchCache) :=
  fun c w r w' => ∃ ch, ok c w ch ∧ fetchExec ext p ch c w = some (r, w')

/-- What a process does: it fetches an input, or uses the store in another way. -/
inductive FetchOp where
  | getAccessor (input : Attrs)
  | other (m : TreeM Unit)

/-- The code of an operation. -/
def FetchOp.code (nix : Nix) (cfg : Config) (fuel : Nat) : FetchOp → FetchM (Option (Bytes × Attrs))
  | .getAccessor input => do
    let res ← Tree.getAccessor nix cfg fuel input
    pure (some res)
  | .other m => do
    onStore m
    pure none

/-- The processes that share a store and Nix's cache; each has settings of its own. -/
def fetchMachine (ext : Ext)
    (ok : Nat → (sig.sum fetchSig).Call → Sys × FetchCache → FetchChoice → Prop) (nix : Nix)
    (cfg : Nat → Config) (fuel : Nat) :
    Machine Nat (sig.sum fetchSig) (Sys × FetchCache) FetchOp Pending
      (Except Err (Option (Bytes × Attrs))) where
  sem p := fetchSem ext (ok p) p
  code p op σ := op.code nix (cfg p) fuel σ
  init := []
  kill p w w' := w' = (w.1.drop p, w.2)

end Tarmac.Tree
