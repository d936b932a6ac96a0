/-
`CallLinkMemberResolver::resolve` and `resolve_bytes`
(`src/rust/src/lite/call_links/member_resolver.rs`), with the pipeline they
cache written out beside them.

* `Zkgroup`: the external decryption, `bincode::deserialize`, `decrypt_uid` and
  `service_id_binary`, left abstract;
* `fromHex`: `Vec::from_hex` of the `hex` crate;
* `lockOrReset`: `CallMutex::lock_or_reset`, modelled from the spec;
* `resolveBytes`, `resolve`: the two lookups, each taking its lock, scanning its
  cache, and on a successful miss inserting through `pushBackEvicting`;
* `uncachedResolveBytes`, `uncachedResolve`: what the lookups compute with no
  cache at all, in the spec's words;
* `resolveBytes_cases`, `resolve_cases`: everything one lookup can do, which the
  run-level results are derived from.
-/
import RingRtc.Resolver.Cache

namespace RingRtc

/-! ### The external pieces -/

/-- The zkgroup operations `resolve_bytes` calls, fixed once `zkparams` is
derived from the root key: `bincode::deserialize` into a `UuidCiphertext`,
`CallLinkSecretParams::decrypt_uid`, and `service_id_binary`. -/
structure Zkgroup (UuidCiphertext ServiceId : Type) where
  deserialize : Bytes → Option UuidCiphertext
  decryptUid : UuidCiphertext → Option ServiceId
  serviceIdBinary : ServiceId → UserId

/-- `val` of the `hex` crate: the value of one hex digit, in either case. -/
def hexVal (c : Char) : Option UInt8 :=
  if 'A' ≤ c ∧ c ≤ 'F' then some (c.toNat - 'A'.toNat + 10).toUInt8
  else if 'a' ≤ c ∧ c ≤ 'f' then some (c.toNat - 'a'.toNat + 10).toUInt8
  else if '0' ≤ c ∧ c ≤ '9' then some (c.toNat - '0'.toNat).toUInt8
  else none

/-- Hex digits read two at a time, high half first; an odd count fails. -/
def fromHexDigits : List Char → Option Bytes
  | [] => some []
  | [_] => none
  | hi :: lo :: rest => do
    let high ← hexVal hi
    let low ← hexVal lo
    let bytes ← fromHexDigits rest
    pure ((high <<< 4 ||| low) :: bytes)

/-- `Vec::from_hex(opaque_user_id).ok()`. The crate reads the UTF-8 bytes of the
text; reading characters instead fails on exactly the same texts, since a
character outside ASCII is no hex digit and its bytes are none either. -/
def fromHex (opaqueUserId : String) : Option Bytes :=
  fromHexDigits opaqueUserId.data

/-- Modelled from the spec: `CallMutex::lock_or_reset` (`core/call_mutex.rs`).
If a panic of an earlier holder left the lock poisoned, the caller gets
`reset` of the guarded value instead of the value. -/
def lockOrReset {α : Type} (poisoned : Bool) (value : α) (reset : α → α) : α :=
  if poisoned then reset value else value

/-- A lock hands over its cache, or, reset, none of it. -/
lemma lockOrReset_sublist {α : Type} (poisoned : Bool) (cache : List α) :
    (lockOrReset poisoned cache fun _ => []).Sublist cache := by
  cases poisoned
  · exact List.Sublist.refl cache
  · exact List.nil_sublist cache

lemma mem_lockOrReset {α : Type} {poisoned : Bool} {cache : List α} {x : α}
    (h : x ∈ lockOrReset poisoned cache fun _ => []) : x ∈ cache :=
  (lockOrReset_sublist poisoned cache).subset h

/-! ### The resolver -/

/-- `CallLinkMemberResolver`: its two caches. The third field, `zkparams`, never
changes and is the `Zkgroup` every operation is given. -/
structure CallLinkMemberResolver where
  cache : List OpaqueUserIdMapping
  bytesCache : List BytesCacheMapping
  deriving DecidableEq, Repr

/-- `From<&CallLinkRootKey>`: both caches start empty. -/
def CallLinkMemberResolver.fromRootKey : CallLinkMemberResolver := ⟨[], []⟩

/-- The resolver as `resolve_bytes` sees it once it holds `bytes_cache`:
`lock_or_reset(|_| VecDeque::default())`. -/
def CallLinkMemberResolver.lockBytesCache (r : CallLinkMemberResolver) (poisoned : Bool) :
    CallLinkMemberResolver :=
  { r with bytesCache := lockOrReset poisoned r.bytesCache fun _ => [] }

/-- The resolver as `resolve` sees it once it holds `cache`. -/
def CallLinkMemberResolver.lockCache (r : CallLinkMemberResolver) (poisoned : Bool) :
    CallLinkMemberResolver :=
  { r with cache := lockOrReset poisoned r.cache fun _ => [] }

@[simp] lemma CallLinkMemberResolver.lockBytesCache_false (r : CallLinkMemberResolver) :
    r.lockBytesCache false = r := rfl

@[simp] lemma CallLinkMemberResolver.lockCache_false (r : CallLinkMemberResolver) :
    r.lockCache false = r := rfl

/-- Whether each lock a call takes turns out poisoned: `cache`, taken by
`resolve`, and `bytes_cache`, taken by `resolve_bytes` (also when `resolve`
calls it). -/
structure Poison where
  cache : Bool
  bytesCache : Bool
  deriving DecidableEq, Repr

/-- No lock poisoned. -/
def Poison.none : Poison := ⟨false, false⟩

@[simp] lemma Poison.none_cache : Poison.none.cache = false := rfl

@[simp] lemma Poison.none_bytesCache : Poison.none.bytesCache = false := rfl

variable {C S : Type} (zk : Zkgroup C S)

/-- The miss path of `resolve_bytes`: `bincode::deserialize(..).ok()?`, then
`zkparams.decrypt_uid(ciphertext).ok()?.service_id_binary()`. -/
def decryptOpaqueUserId (opaqueUserId : Bytes) : Option UserId :=
  match zk.deserialize opaqueUserId with
  | none => none
  | some ciphertext =>
    match zk.decryptUid ciphertext with
    | none => none
    | some serviceId => some (zk.serviceIdBinary serviceId)

/-- `resolve_bytes`: scan `bytes_cache`; on a miss deserialize, decrypt and
insert. Returns the result and the resolver after the call. -/
def resolveBytes (poisoned : Bool) (r : CallLinkMemberResolver) (opaqueUserId : Bytes) :
    Option UserId × CallLinkMemberResolver :=
  let r := r.lockBytesCache poisoned
  match find r.bytesCache opaqueUserId with
  | some mapping => (some mapping.userId, r)
  | none =>
    match decryptOpaqueUserId zk opaqueUserId with
    | none => (none, r)
    | some userId =>
      (some userId, { r with bytesCache := pushBackEvicting r.bytesCache ⟨opaqueUserId, userId⟩ })

/-- `resolve`: scan `cache`; on a miss hex-decode and call `resolve_bytes` while
still holding `cache`, then insert. -/
def resolve (poison : Poison) (r : CallLinkMemberResolver) (opaqueUserId : String) :
    Option UserId × CallLinkMemberResolver :=
  let r := r.lockCache poison.cache
  match find r.cache opaqueUserId with
  | some mapping => (some mapping.userId, r)
  | none =>
    match fromHex opaqueUserId with
    | none => (none, r)
    | some ciphertextBytes =>
      match resolveBytes zk poison.bytesCache r ciphertextBytes with
      | (none, r') => (none, r')
      | (some userId, r') =>
        (some userId, { r' with cache := pushBackEvicting r.cache ⟨opaqueUserId, userId⟩ })

/-! ### The uncached pipeline -/

/-- What `resolve_bytes` computes with no cache: deserialize, decrypt, encode. -/
def uncachedResolveBytes (opaqueUserId : Bytes) : Option UserId :=
  ((zk.deserialize opaqueUserId).bind zk.decryptUid).map zk.serviceIdBinary

/-- What `resolve` computes with no cache: hex-decode, then the bytes pipeline. -/
def uncachedResolve (opaqueUserId : String) : Option UserId :=
  (fromHex opaqueUserId).bind (uncachedResolveBytes zk)

/-- The code's decryption is the pipeline. -/
lemma decryptOpaqueUserId_eq (b : Bytes) : decryptOpaqueUserId zk b = uncachedResolveBytes zk b := by
  unfold decryptOpaqueUserId uncachedResolveBytes
  rcases zk.deserialize b with _ | c
  · rfl
  · rcases hu : zk.decryptUid c with _ | sid <;> simp [hu]

/-! ### Everything one lookup can do -/

/-- **`resolve_bytes`, case by case**: a hit returns the cached user; a miss
returns the uncached pipeline and inserts its result when there is one. Either
way the lock may first have reset the cache. -/
lemma resolveBytes_cases (poisoned : Bool) (r : CallLinkMemberResolver) (b : Bytes) :
    (∃ m, find (r.lockBytesCache poisoned).bytesCache b = some m ∧
        resolveBytes zk poisoned r b = (some m.userId, r.lockBytesCache poisoned)) ∨
    (find (r.lockBytesCache poisoned).bytesCache b = none ∧ uncachedResolveBytes zk b = none ∧
        resolveBytes zk poisoned r b = (none, r.lockBytesCache poisoned)) ∨
    (∃ u, find (r.lockBytesCache poisoned).bytesCache b = none ∧
        uncachedResolveBytes zk b = some u ∧
        resolveBytes zk poisoned r b = (some u, { r.lockBytesCache poisoned with
          bytesCache := pushBackEvicting (r.lockBytesCache poisoned).bytesCache ⟨b, u⟩ })) := by
  unfold resolveBytes
  dsimp only
  rw [decryptOpaqueUserId_eq]
  rcases find (r.lockBytesCache poisoned).bytesCache b with _ | m
  · rcases uncachedResolveBytes zk b with _ | u <;> simp
  · simp

/-- A hit returns the cached user whatever the decryption does. -/
lemma resolveBytes_hit (poisoned : Bool) {r : CallLinkMemberResolver} {b : Bytes}
    {m : BytesCacheMapping} (h : find (r.lockBytesCache poisoned).bytesCache b = some m) :
    resolveBytes zk poisoned r b = (some m.userId, r.lockBytesCache poisoned) := by
  unfold resolveBytes
  simp only [h]

/-- `resolve_bytes` touches `bytes_cache` only. -/
@[simp] lemma resolveBytes_cache (poisoned : Bool) (r : CallLinkMemberResolver) (b : Bytes) :
    (resolveBytes zk poisoned r b).2.cache = r.cache := by
  rcases resolveBytes_cases zk poisoned r b with ⟨m, -, he⟩ | ⟨-, -, he⟩ | ⟨u, -, -, he⟩ <;>
    simp [he, CallLinkMemberResolver.lockBytesCache]

/-- **`resolve`, case by case**: a hit, a text that is no hex, or the nested
`resolve_bytes` on the decoded bytes, whose result is inserted when there is
one. -/
lemma resolve_cases (poison : Poison) (r : CallLinkMemberResolver) (s : String) :
    (∃ m, find (r.lockCache poison.cache).cache s = some m ∧
        resolve zk poison r s = (some m.userId, r.lockCache poison.cache)) ∨
    (find (r.lockCache poison.cache).cache s = none ∧ fromHex s = none ∧
        resolve zk poison r s = (none, r.lockCache poison.cache)) ∨
    (∃ b, find (r.lockCache poison.cache).cache s = none ∧ fromHex s = some b ∧
        (resolveBytes zk poison.bytesCache (r.lockCache poison.cache) b).1 = none ∧
        resolve zk poison r s =
          (none, (resolveBytes zk poison.bytesCache (r.lockCache poison.cache) b).2)) ∨
    (∃ b u, find (r.lockCache poison.cache).cache s = none ∧ fromHex s = some b ∧
        (resolveBytes zk poison.bytesCache (r.lockCache poison.cache) b).1 = some u ∧
        resolve zk poison r s =
          (some u, { (resolveBytes zk poison.bytesCache (r.lockCache poison.cache) b).2 with
            cache := pushBackEvicting (r.lockCache poison.cache).cache ⟨s, u⟩ })) := by
  unfold resolve
  dsimp only
  rcases hf : find (r.lockCache poison.cache).cache s with _ | m
  · rcases hx : fromHex s with _ | b
    · simp
    · rcases hb : resolveBytes zk poison.bytesCache (r.lockCache poison.cache) b with ⟨_ | u, r'⟩ <;>
        simp [hb]
  · simp

/-- A hit returns the cached user whatever the decoding and decryption do. -/
lemma resolve_hit (poison : Poison) {r : CallLinkMemberResolver} {s : String}
    {m : OpaqueUserIdMapping} (h : find (r.lockCache poison.cache).cache s = some m) :
    resolve zk poison r s = (some m.userId, r.lockCache poison.cache) := by
  unfold resolve
  simp only [h]

end RingRtc
