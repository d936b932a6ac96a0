/-
Runs of `CallLinkMemberResolver`: any sequence of `resolve` and
`resolve_bytes` calls, each of which may find its locks poisoned.

* `Call`, `Request`, `run`: one call, the call with what its locks turn out to
  be, and a whole run from a resolver;
* `Transparent`: every cached mapping is what the uncached pipeline gives for
  its key; `run_transparent`: along every run, poisoned locks included, the
  invariant holds and every call returns the uncached pipeline's result;
* `bytesCache_exceeds_max`: distinct ciphertexts that decrypt fill
  `bytes_cache` to `MAX_CACHE_ENTRIES + 1` entries;
* `call_effect`: a call whose locks are sound changes nothing when it fails or
  hits, and after a successful miss pushes its mapping onto exactly the caches
  that missed; a lock found poisoned leaves its cache empty or holding the
  call's own mapping alone.
-/
import RingRtc.Resolver.MemberResolver

namespace RingRtc

/-- One call on the resolver. -/
inductive Call where
  | resolve (opaqueUserId : String)
  | resolveBytes (opaqueUserId : Bytes)
  deriving DecidableEq, Repr

/-- A call, and whether each lock it takes turns out poisoned. -/
structure Request where
  call : Call
  poison : Poison
  deriving DecidableEq, Repr

variable {C S : Type} (zk : Zkgroup C S)

/-- Running one call. -/
def Call.run (poison : Poison) (r : CallLinkMemberResolver) :
    Call → Option UserId × CallLinkMemberResolver
  | .resolve s => RingRtc.resolve zk poison r s
  | .resolveBytes b => RingRtc.resolveBytes zk poison.bytesCache r b

/-- The result of one call with no cache. -/
def Call.uncached : Call → Option UserId
  | .resolve s => uncachedResolve zk s
  | .resolveBytes b => uncachedResolveBytes zk b

/-- A run: the result of every call, and the resolver at the end. -/
def run (r : CallLinkMemberResolver) : List Request → List (Option UserId) × CallLinkMemberResolver
  | [] => ([], r)
  | q :: qs =>
    let step := q.call.run zk q.poison r
    let rest := run step.2 qs
    (step.1 :: rest.1, rest.2)

/-! ### Cache transparency -/

/-- Every cached mapping is what the uncached pipeline gives for its key. -/
structure Transparent (r : CallLinkMemberResolver) : Prop where
  cache : ∀ m ∈ r.cache, uncachedResolve zk m.key = some m.userId
  bytesCache : ∀ m ∈ r.bytesCache, uncachedResolveBytes zk m.key = some m.userId

variable {zk}

lemma transparent_fromRootKey : Transparent zk CallLinkMemberResolver.fromRootKey :=
  ⟨by simp [CallLinkMemberResolver.fromRootKey], by simp [CallLinkMemberResolver.fromRootKey]⟩

lemma Transparent.lockBytesCache {r : CallLinkMemberResolver} (h : Transparent zk r)
    (poisoned : Bool) : Transparent zk (r.lockBytesCache poisoned) :=
  ⟨h.cache, fun m hm => h.bytesCache m (mem_lockOrReset hm)⟩

lemma Transparent.lockCache {r : CallLinkMemberResolver} (h : Transparent zk r)
    (poisoned : Bool) : Transparent zk (r.lockCache poisoned) :=
  ⟨fun m hm => h.cache m (mem_lockOrReset hm), h.bytesCache⟩

/-- One `resolve_bytes` returns the uncached result and keeps the invariant. -/
lemma Transparent.resolveBytes {r : CallLinkMemberResolver} (h : Transparent zk r)
    (poisoned : Bool) (b : Bytes) :
    (resolveBytes zk poisoned r b).1 = uncachedResolveBytes zk b ∧
      Transparent zk (resolveBytes zk poisoned r b).2 := by
  have hl := h.lockBytesCache poisoned
  rcases resolveBytes_cases zk poisoned r b with ⟨m, hf, he⟩ | ⟨-, hu, he⟩ | ⟨u, -, hu, he⟩
  · obtain ⟨hm, rfl⟩ := find_eq_some hf
    exact he ▸ ⟨(hl.bytesCache m hm).symm, hl⟩
  · exact he ▸ ⟨hu.symm, hl⟩
  · refine he ▸ ⟨hu.symm, hl.cache, fun m hm => ?_⟩
    rcases mem_pushBackEvicting hm with hm | rfl
    exacts [hl.bytesCache m hm, hu]

/-- One `resolve` returns the uncached result and keeps the invariant. -/
lemma Transparent.resolve {r : CallLinkMemberResolver} (h : Transparent zk r)
    (poison : Poison) (s : String) :
    (resolve zk poison r s).1 = uncachedResolve zk s ∧
      Transparent zk (resolve zk poison r s).2 := by
  have hl := h.lockCache poison.cache
  rcases resolve_cases zk poison r s with
    ⟨m, hf, he⟩ | ⟨-, hx, he⟩ | ⟨b, -, hx, hb, he⟩ | ⟨b, u, -, hx, hb, he⟩
  · obtain ⟨hm, rfl⟩ := find_eq_some hf
    exact he ▸ ⟨(hl.cache m hm).symm, hl⟩
  · exact he ▸ ⟨by simp [uncachedResolve, hx], hl⟩
  · obtain ⟨hr, ht⟩ := hl.resolveBytes poison.bytesCache b
    exact he ▸ ⟨by rw [uncachedResolve, hx, Option.some_bind, ← hr, hb], ht⟩
  · obtain ⟨hr, ht⟩ := hl.resolveBytes poison.bytesCache b
    have hu : uncachedResolve zk s = some u := by
      rw [uncachedResolve, hx, Option.some_bind, ← hr, hb]
    refine he ▸ ⟨hu.symm, fun m hm => ?_, ht.bytesCache⟩
    rcases mem_pushBackEvicting hm with hm | rfl
    exacts [hl.cache m hm, hu]

lemma Transparent.call {r : CallLinkMemberResolver} (h : Transparent zk r)
    (poison : Poison) : ∀ c : Call,
    (c.run zk poison r).1 = c.uncached zk ∧ Transparent zk (c.run zk poison r).2
  | .resolve s => h.resolve poison s
  | .resolveBytes b => h.resolveBytes poison.bytesCache b

/-- **Cache transparency over a run**: from a transparent resolver, every call of
every run returns the uncached pipeline's result, whatever locks were found
poisoned, and the resolver stays transparent. -/
theorem run_transparent {r : CallLinkMemberResolver} (h : Transparent zk r) :
    ∀ qs : List Request,
      (run zk r qs).1 = qs.map (·.call.uncached zk) ∧ Transparent zk (run zk r qs).2
  | [] => ⟨rfl, h⟩
  | q :: qs => by
    obtain ⟨hr, ht⟩ := h.call q.poison q.call
    obtain ⟨hrs, hts⟩ := run_transparent ht qs
    exact ⟨by simp [run, hr, hrs], hts⟩

/-- Cache transparency from the resolver `From<&CallLinkRootKey>` builds. -/
theorem resolver_transparent (qs : List Request) :
    (run zk CallLinkMemberResolver.fromRootKey qs).1 = qs.map (·.call.uncached zk) ∧
      Transparent zk (run zk CallLinkMemberResolver.fromRootKey qs).2 :=
  run_transparent transparent_fromRootKey qs

/-! ### The caches exceed `MAX_CACHE_ENTRIES` -/

/-- From caches with none of the keys, calls of `resolve_bytes` on distinct
ciphertexts that decrypt each add one entry, as long as no front is popped. -/
lemma length_run_fresh (bs : List Bytes) : ∀ {r : CallLinkMemberResolver},
    bs.Nodup → (∀ b ∈ bs, b ∉ r.bytesCache.map (·.key)) →
    (∀ b ∈ bs, (uncachedResolveBytes zk b).isSome) →
    r.bytesCache.length + bs.length ≤ MAX_CACHE_ENTRIES + 1 →
    (run zk r (bs.map fun b => ⟨.resolveBytes b, Poison.none⟩)).2.bytesCache.length =
      r.bytesCache.length + bs.length := by
  induction bs with
  | nil => intros; rfl
  | cons b bs ih =>
    intro r hnd hfresh hok hlen
    rw [List.nodup_cons] at hnd
    obtain ⟨u, hu⟩ := Option.isSome_iff_exists.mp (hok b (List.mem_cons_self _ _))
    have hf : find r.bytesCache b = none := find_eq_none.mpr (hfresh b (List.mem_cons_self _ _))
    rcases resolveBytes_cases zk false r b with ⟨m, hf', -⟩ | ⟨-, hu', -⟩ | ⟨u', -, -, he⟩
    · simp [hf] at hf'
    · simp [hu] at hu'
    have hstep := congrArg (·.2.bytesCache) he
    simp only [CallLinkMemberResolver.lockBytesCache_false] at hstep
    simp only [List.length_cons] at hlen
    have hpush : (resolveBytes zk false r b).2.bytesCache.length = r.bytesCache.length + 1 := by
      rw [hstep, length_pushBackEvicting, if_neg (by omega)]
    simp only [List.map_cons, run, Call.run, Poison.none_bytesCache]
    rw [ih hnd.2 (fun b' hb' hm => ?_) (fun b' hb' => hok b' (List.mem_cons_of_mem _ hb'))
      (by omega), hpush, List.length_cons]
    · omega
    · rw [hstep] at hm
      obtain ⟨x, hx, rfl⟩ := List.mem_map.mp hm
      rcases mem_pushBackEvicting hx with hx | rfl
      · exact hfresh x.key (List.mem_cons_of_mem _ hb') (List.mem_map_of_mem _ hx)
      · exact hnd.1 hb'

/-- **The caches exceed `MAX_CACHE_ENTRIES`**: from the empty caches,
`MAX_CACHE_ENTRIES + 1` calls of `resolve_bytes` on distinct ciphertexts that
decrypt leave `MAX_CACHE_ENTRIES + 1` entries in `bytes_cache`. -/
theorem bytesCache_exceeds_max (bs : List Bytes) (hlen : bs.length = MAX_CACHE_ENTRIES + 1)
    (hnd : bs.Nodup) (hok : ∀ b ∈ bs, (uncachedResolveBytes zk b).isSome) :
    (run zk CallLinkMemberResolver.fromRootKey
      (bs.map fun b => ⟨.resolveBytes b, Poison.none⟩)).2.bytesCache.length =
        MAX_CACHE_ENTRIES + 1 := by
  rw [length_run_fresh bs hnd (by simp [CallLinkMemberResolver.fromRootKey]) hok
    (by simp [CallLinkMemberResolver.fromRootKey, hlen])]
  simp [CallLinkMemberResolver.fromRootKey, hlen]

/-- Seventeen one-byte ciphertexts, each decrypting to itself. -/
theorem seventeen_ciphertexts_fill_bytesCache :
    (run (⟨some, some, id⟩ : Zkgroup Bytes Bytes) CallLinkMemberResolver.fromRootKey
      (((List.range 17).map fun i => [i.toUInt8]).map fun b => ⟨.resolveBytes b, Poison.none⟩)
      ).2.bytesCache.length = 17 :=
  bytesCache_exceeds_max _ (by decide) (by decide) (by decide)

/-! ### What one call does to the caches -/

/-- Whether a call finds its key in its own cache. -/
def Call.hits (r : CallLinkMemberResolver) : Call → Bool
  | .resolve s => (find r.cache s).isSome
  | .resolveBytes b => (find r.bytesCache b).isSome

/-- The ciphertext a call looks up in `bytes_cache`, if it gets that far:
`resolve` decodes its text first. -/
def Call.ciphertext : Call → Option Bytes
  | .resolve s => fromHex s
  | .resolveBytes b => some b

variable (zk) in
/-- An unpoisoned `resolve_bytes` changes nothing when it fails or hits, and when
it returns a user pushes that mapping exactly if its scan missed. -/
lemma resolveBytes_effect (r : CallLinkMemberResolver) (b : Bytes) :
    ((resolveBytes zk false r b).1 = none → (resolveBytes zk false r b).2 = r) ∧
    ((find r.bytesCache b).isSome → (resolveBytes zk false r b).2 = r) ∧
    ∀ u, (resolveBytes zk false r b).1 = some u → (resolveBytes zk false r b).2 =
      { r with bytesCache :=
        if find r.bytesCache b = none then pushBackEvicting r.bytesCache ⟨b, u⟩ else r.bytesCache } := by
  rcases resolveBytes_cases zk false r b with ⟨m, hf, he⟩ | ⟨hf, -, he⟩ | ⟨u, hf, -, he⟩ <;>
    simp_all

variable (zk) in
/-- An unpoisoned `resolve` changes nothing when it fails or hits; when it
returns a user after a miss, it pushes that mapping onto `cache`, and onto
`bytes_cache` exactly if the nested scan missed too. -/
lemma resolve_effect (r : CallLinkMemberResolver) (s : String) :
    ((resolve zk Poison.none r s).1 = none → (resolve zk Poison.none r s).2 = r) ∧
    ((find r.cache s).isSome → (resolve zk Poison.none r s).2 = r) ∧
    ∀ u, (resolve zk Poison.none r s).1 = some u → find r.cache s = none →
      ∃ b, fromHex s = some b ∧ (resolve zk Poison.none r s).2 =
        ⟨pushBackEvicting r.cache ⟨s, u⟩,
          if find r.bytesCache b = none then pushBackEvicting r.bytesCache ⟨b, u⟩ else r.bytesCache⟩ := by
  rcases resolve_cases zk Poison.none r s with
    ⟨m, hf, he⟩ | ⟨hf, -, he⟩ | ⟨b, hf, -, hb, he⟩ | ⟨b, u, hf, hx, hb, he⟩
  · simp_all
  · simp_all
  · simp only [Poison.none_cache, Poison.none_bytesCache,
      CallLinkMemberResolver.lockCache_false] at hb he
    simp [he, (resolveBytes_effect zk r b).1 hb]
  · simp only [Poison.none_cache, Poison.none_bytesCache,
      CallLinkMemberResolver.lockCache_false] at hf hb he
    simp [he, (resolveBytes_effect zk r b).2.2 u hb, hf, hx]

variable (zk) in
/-- A `resolve_bytes` that finds `bytes_cache` poisoned leaves it empty or
holding its own mapping alone. -/
lemma resolveBytes_poisoned (r : CallLinkMemberResolver) (b : Bytes) :
    (resolveBytes zk true r b).2.bytesCache = ((resolveBytes zk true r b).1.map (⟨b, ·⟩)).toList := by
  rcases resolveBytes_cases zk true r b with ⟨m, hf, -⟩ | ⟨-, -, he⟩ | ⟨u, -, -, he⟩
  · simp [CallLinkMemberResolver.lockBytesCache, lockOrReset, find] at hf
  · simp [he, CallLinkMemberResolver.lockBytesCache, lockOrReset]
  · simp [he, CallLinkMemberResolver.lockBytesCache, lockOrReset, pushBackEvicting]

variable (zk) in
/-- A `resolve` that finds `cache` poisoned leaves it empty or holding its own
mapping alone. -/
lemma resolve_poisoned_cache (bytesPoisoned : Bool) (r : CallLinkMemberResolver) (s : String) :
    (resolve zk ⟨true, bytesPoisoned⟩ r s).2.cache =
      ((resolve zk ⟨true, bytesPoisoned⟩ r s).1.map (⟨s, ·⟩)).toList := by
  have hempty : (r.lockCache true).cache = [] := rfl
  rcases resolve_cases zk ⟨true, bytesPoisoned⟩ r s with
    ⟨m, hf, -⟩ | ⟨-, -, he⟩ | ⟨b, -, -, hb, he⟩ | ⟨b, u, -, -, -, he⟩
  · simp [hempty, find] at hf
  · simp [he, hempty]
  · simp [he, hb, hempty]
  · simp [he, hempty, pushBackEvicting]

variable (zk) in
/-- A `resolve` whose nested `resolve_bytes` finds `bytes_cache` poisoned leaves
it empty or holding the mapping of the decoded bytes alone. -/
lemma resolve_poisoned_bytesCache (cachePoisoned : Bool) (r : CallLinkMemberResolver)
    {s : String} {b : Bytes} (hf : find (r.lockCache cachePoisoned).cache s = none)
    (hx : fromHex s = some b) :
    (resolve zk ⟨cachePoisoned, true⟩ r s).2.bytesCache =
      ((resolve zk ⟨cachePoisoned, true⟩ r s).1.map (⟨b, ·⟩)).toList := by
  have key := resolveBytes_poisoned zk (r.lockCache cachePoisoned) b
  rcases resolve_cases zk ⟨cachePoisoned, true⟩ r s with
    ⟨m, hf', -⟩ | ⟨-, hx', -⟩ | ⟨b', -, hx', hb, he⟩ | ⟨b', u, -, hx', hb, he⟩ <;>
    simp_all

/-- **What a call does to the caches.** With no lock poisoned, a call that
fails or hits in its own cache changes nothing; one that returns a user after a
miss pushes its mapping onto `cache` if it is a `resolve`, and onto
`bytes_cache` exactly when the scan of that cache missed too, and leaves every
other cache as it was. A lock the call finds poisoned resets its cache first:
`cache` for a `resolve`, and `bytes_cache` once the call scans it, ends empty
or holding the call's own mapping alone. -/
theorem call_effect (r : CallLinkMemberResolver) (c : Call) (poison : Poison) :
    ((c.run zk Poison.none r).1 = none → (c.run zk Poison.none r).2 = r) ∧
    (c.hits r → (c.run zk Poison.none r).2 = r) ∧
    (∀ u, (c.run zk Poison.none r).1 = some u → c.hits r = false →
      (c.run zk Poison.none r).2.cache =
        (match c with
          | .resolve s => pushBackEvicting r.cache ⟨s, u⟩
          | .resolveBytes _ => r.cache) ∧
      ∃ b, c.ciphertext = some b ∧ (c.run zk Poison.none r).2.bytesCache =
        if find r.bytesCache b = none then pushBackEvicting r.bytesCache ⟨b, u⟩ else r.bytesCache) ∧
    (poison.cache = true → ∀ s, c = .resolve s →
      (c.run zk poison r).2.cache = ((c.run zk poison r).1.map (⟨s, ·⟩)).toList) ∧
    (poison.bytesCache = true → ∀ b, (c = .resolveBytes b ∨ ∃ s, c = .resolve s ∧
        find (r.lockCache poison.cache).cache s = none ∧ fromHex s = some b) →
      (c.run zk poison r).2.bytesCache = ((c.run zk poison r).1.map (⟨b, ·⟩)).toList) := by
  obtain ⟨pc, pb⟩ := poison
  cases c with
  | resolveBytes b =>
    obtain ⟨h1, h2, h3⟩ := resolveBytes_effect zk r b
    refine ⟨h1, h2, fun u hu _ => ?_, fun _ _ h => (nomatch h), fun hp b' hb' => ?_⟩
    · simp only [Call.run, Poison.none_bytesCache] at hu ⊢
      rw [h3 u hu]
      exact ⟨rfl, b, rfl, rfl⟩
    · obtain rfl : pb = true := hp
      obtain h | ⟨_, h, -⟩ := hb' <;> cases h
      exact resolveBytes_poisoned zk r b
  | resolve s =>
    obtain ⟨h1, h2, h3⟩ := resolve_effect zk r s
    refine ⟨h1, h2, fun u hu hmiss => ?_, fun hp s' hs => ?_, fun hp b hb => ?_⟩
    · obtain ⟨b, hx, he⟩ := h3 u hu (by simpa [Call.hits] using hmiss)
      simp only [Call.run, he, true_and]
      exact ⟨b, hx, rfl⟩
    · obtain rfl : pc = true := hp
      obtain rfl := Call.resolve.inj hs
      exact resolve_poisoned_cache zk pb r s
    · obtain rfl : pb = true := hp
      obtain h | ⟨s', h, hf, hx⟩ := hb <;> cases h
      exact resolve_poisoned_bytesCache zk pc r hf hx

/-- A poisoned lock resets its cache whatever the call then returns: a
`resolve_bytes` on bytes that do not deserialize fails and still empties a
poisoned `bytes_cache`. -/
theorem poisoned_failure_resets :
    ((Call.resolveBytes [1]).run (⟨fun _ => none, fun _ => none, fun _ => []⟩ : Zkgroup Unit Unit)
        ⟨false, true⟩
        (⟨[], [⟨[0], [7]⟩]⟩ : CallLinkMemberResolver)) =
      ((none : Option UserId), ⟨[], []⟩) := by
  decide

end RingRtc
