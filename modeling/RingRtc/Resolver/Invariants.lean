/-
Three invariants of the resolver under concurrent callers. Each is kept by
every step of every thread, so it holds in every world some interleaving
reaches, panics and poisoned locks included.

* `KeyInv`, `reachable_keys_nodup`: no cache holds a key twice;
* `CorrectInv`, `reachable_returns_uncached`: the caches hold only what the
  uncached pipeline computes, and every call that returned returned the
  uncached result;
* `HolderInv`, `reachable_progress`: a lock's holder is in the part of its call
  that holds it, so a thread in a call, or a thread holding a lock, can always
  move: the two locks cannot deadlock;
* `reachable_bounded`: no interleaving grows a cache past
  `MAX_CACHE_ENTRIES + 1` entries.
-/
import RingRtc.Resolver.Interleaving

namespace RingRtc

/-- What `World.init` has and every step keeps holds in every reachable world. -/
lemma Reachable.invariant {C S : Type} {zk : Zkgroup C S} {P : World → Prop} {w : World}
    (h0 : P World.init)
    (hs : ∀ {w w' : World} {t : Nat} {a : Action}, P w → w.step zk t a = some w' → P w')
    (h : Reachable zk w) : P w := by
  induction h with
  | init => exact h0
  | step _ _ _ hw ih => exact hs ih hw

namespace World

variable {C S : Type} {zk : Zkgroup C S} {w w' : World} {t : Nat}

lemma release_of_ne {t' : Nat} (h : t' ≠ t) {holder : Option Nat} (hh : holder = some t') :
    release t holder = some t' := by
  subst hh
  simp [release, h]

lemma release_eq_some {t' : Nat} {holder : Option Nat} (h : release t holder = some t') :
    t' ≠ t ∧ holder = some t' := by
  unfold release at h
  split at h
  · cases h
  · exact ⟨by rintro rfl; contradiction, h⟩

/-! ### Distinct keys -/

/-- What thread `t` at `p` needs of the world: a key it missed in a cache is
still missing there, and it still holds that cache. -/
def ThreadOk (w : World) (t : Nat) (p : Pc) : Prop :=
  (∀ s, p.cacheKey = some s → w.cacheHolder = some t ∧ s ∉ w.cache.map (·.key)) ∧
  (∀ b, p.bytesKey = some b → w.bytesCacheHolder = some t ∧ b ∉ w.bytesCache.map (·.key))

/-- The invariant behind key uniqueness. -/
structure KeyInv (w : World) : Prop where
  cache_nodup : (w.cache.map (·.key)).Nodup
  bytesCache_nodup : (w.bytesCache.map (·.key)).Nodup
  threads : ∀ t, w.ThreadOk t (w.pc t)

lemma ThreadOk.of_keys {p : Pc} (hc : p.cacheKey = none) (hb : p.bytesKey = none) :
    w.ThreadOk t p :=
  ⟨by simp [hc], by simp [hb]⟩

/-- What a thread needs of the world survives a step that leaves each cache it
holds, and its holding it, alone. -/
lemma ThreadOk.frame {p : Pc} (h : w.ThreadOk t p)
    (hc : w.cacheHolder = some t → w'.cacheHolder = some t ∧ w'.cache = w.cache)
    (hb : w.bytesCacheHolder = some t →
      w'.bytesCacheHolder = some t ∧ w'.bytesCache = w.bytesCache) :
    w'.ThreadOk t p := by
  refine ⟨fun s hs => ?_, fun b hs => ?_⟩
  · obtain ⟨h1, h2⟩ := h.1 s hs
    obtain ⟨h3, h4⟩ := hc h1
    exact ⟨h3, h4 ▸ h2⟩
  · obtain ⟨h1, h2⟩ := h.2 b hs
    obtain ⟨h3, h4⟩ := hb h1
    exact ⟨h3, h4 ▸ h2⟩

/-- **One step, in general**: thread `t` changes the caches and locks to those
of `w₁` and moves to `p`. The invariant holds after it when the new caches have
distinct keys, `p` has what it needs of them, and no lock another thread holds
was touched. -/
lemma KeyInv.step_of {w₁ : World} {p : Pc} (hi : w.KeyInv) (hpc : w₁.pc = w.pc)
    (hc : (w₁.cache.map (·.key)).Nodup) (hb : (w₁.bytesCache.map (·.key)).Nodup)
    (hself : w₁.ThreadOk t p)
    (hcf : ∀ t', t' ≠ t → w.cacheHolder = some t' →
      w₁.cacheHolder = some t' ∧ w₁.cache = w.cache)
    (hbf : ∀ t', t' ≠ t → w.bytesCacheHolder = some t' →
      w₁.bytesCacheHolder = some t' ∧ w₁.bytesCache = w.bytesCache) :
    (w₁.setPc t p).KeyInv := by
  refine ⟨hc, hb, fun t' => ?_⟩
  by_cases h : t' = t
  · subst h
    simpa [ThreadOk] using hself
  · rw [setPc_pc_ne _ _ h, hpc]
    exact (hi.threads t').frame (hcf t' h) (hbf t' h)

lemma KeyInv.call {c : Call} (hi : w.KeyInv) (h : w.call t c = some w') : w'.KeyInv := by
  obtain ⟨-, rfl⟩ := call_eq_some h
  exact hi.step_of rfl hi.cache_nodup hi.bytesCache_nodup (.of_keys (by simp) (by simp))
    (fun _ _ h => ⟨h, rfl⟩) (fun _ _ h => ⟨h, rfl⟩)

lemma KeyInv.lockCache {poisoned : Bool} (hi : w.KeyInv)
    (h : w.lockCache t poisoned = some w') : w'.KeyInv := by
  obtain ⟨s, -, hfree, holder, p, rfl, hp⟩ := lockCache_eq_some h
  refine hi.step_of rfl (((lockOrReset_sublist poisoned w.cache).map _).nodup hi.cache_nodup)
    hi.bytesCache_nodup ?_ (fun _ _ h' => by simp [hfree] at h') (fun _ _ h => ⟨h, rfl⟩)
  rcases hp with ⟨m, -, rfl, rfl⟩ | ⟨-, -, rfl, rfl⟩ | ⟨b, hf, -, rfl, rfl⟩
  · exact .of_keys rfl rfl
  · exact .of_keys rfl rfl
  · exact ⟨fun s' hs' => by cases hs'; exact ⟨rfl, find_eq_none.mp hf⟩, by simp [Pc.bytesKey]⟩

lemma KeyInv.lockBytesCache {poisoned : Bool} (hi : w.KeyInv)
    (h : w.lockBytesCache zk t poisoned = some w') : w'.KeyInv := by
  obtain ⟨caller, b, hpc, hfree, holder, p, rfl, hp⟩ := lockBytesCache_eq_some h
  have hcaller := (hi.threads t).1
  rw [hpc] at hcaller
  refine hi.step_of rfl hi.cache_nodup
    (((lockOrReset_sublist poisoned w.bytesCache).map _).nodup hi.bytesCache_nodup) ?_
    (fun _ _ h => ⟨h, rfl⟩) (fun _ _ h' => by simp [hfree] at h')
  rcases hp with ⟨m, -, rfl, rfl⟩ | ⟨-, -, rfl, rfl⟩ | ⟨u, hf, -, rfl, rfl⟩
  · exact ⟨fun s hs => hcaller s (by simpa using hs), by simp⟩
  · exact ⟨fun s hs => hcaller s (by simpa using hs), by simp⟩
  · exact ⟨hcaller, fun b' hb' => by cases hb'; exact ⟨rfl, find_eq_none.mp hf⟩⟩

lemma KeyInv.pushBytes (hi : w.KeyInv) (h : w.pushBytes t = some w') : w'.KeyInv := by
  obtain ⟨caller, b, u, hpc, rfl⟩ := pushBytes_eq_some h
  have hown := hi.threads t
  rw [hpc] at hown
  obtain ⟨hheld, hfresh⟩ := hown.2 b rfl
  refine hi.step_of rfl hi.cache_nodup (keys_nodup_pushBackEvicting hi.bytesCache_nodup hfresh)
    ⟨fun s hs => hown.1 s (by simpa using hs), by simp⟩
    (fun _ _ h => ⟨h, rfl⟩) (fun t' ht h' => ?_)
  exact absurd (Option.some_injective _ (h'.symm.trans hheld)) ht

lemma KeyInv.pushCache (hi : w.KeyInv) (h : w.pushCache t = some w') : w'.KeyInv := by
  obtain ⟨s, hp⟩ := pushCache_eq_some h
  have hown : ∀ r, w.pc t = .nestedReturned s r →
      w.cacheHolder = some t ∧ s ∉ w.cache.map (·.key) :=
    fun r hpc => (hi.threads t).1 s (by rw [hpc]; rfl)
  have hcf : ∀ r, w.pc t = .nestedReturned s r → ∀ t', t' ≠ t → w.cacheHolder = some t' → False :=
    fun r hpc t' ht h' => ht (Option.some_injective _ (h'.symm.trans (hown r hpc).1))
  rcases hp with ⟨hpc, rfl⟩ | ⟨u, hpc, rfl⟩
  · exact hi.step_of rfl hi.cache_nodup hi.bytesCache_nodup (.of_keys rfl rfl)
      (fun t' ht h' => (hcf _ hpc t' ht h').elim) (fun _ _ h => ⟨h, rfl⟩)
  · exact hi.step_of rfl (keys_nodup_pushBackEvicting hi.cache_nodup (hown _ hpc).2)
      hi.bytesCache_nodup (.of_keys rfl rfl) (fun t' ht h' => (hcf _ hpc t' ht h').elim)
      (fun _ _ h => ⟨h, rfl⟩)

lemma KeyInv.finish (hi : w.KeyInv) (h : w.finish t = some w') : w'.KeyInv := by
  obtain ⟨-, -, -, rfl⟩ := finish_eq_some h
  exact hi.step_of rfl hi.cache_nodup hi.bytesCache_nodup (.of_keys rfl rfl)
    (fun _ _ h => ⟨h, rfl⟩) (fun _ _ h => ⟨h, rfl⟩)

lemma KeyInv.panic (t : Nat) (hi : w.KeyInv) : (w.panic t).KeyInv :=
  hi.step_of rfl hi.cache_nodup hi.bytesCache_nodup (.of_keys rfl rfl)
    (fun _ ht h => ⟨release_of_ne ht h, rfl⟩) (fun _ ht h => ⟨release_of_ne ht h, rfl⟩)

lemma KeyInv.step {a : Action} (hi : w.KeyInv) (h : w.step zk t a = some w') : w'.KeyInv := by
  cases a with
  | call c => exact hi.call h
  | lockCache poisoned => exact hi.lockCache h
  | lockBytesCache poisoned => exact hi.lockBytesCache h
  | pushBytes => exact hi.pushBytes h
  | pushCache => exact hi.pushCache h
  | finish => exact hi.finish h
  | panic => cases h; exact hi.panic t

lemma keyInv_init : init.KeyInv :=
  ⟨List.nodup_nil, List.nodup_nil, fun _ => .of_keys rfl rfl⟩

end World

/-- **Key uniqueness under concurrency**: in every world that any interleaving of
`resolve` and `resolve_bytes` calls reaches, panics included, no two entries of
`cache` share an opaque id and no two entries of `bytes_cache` share a
ciphertext. -/
theorem reachable_keys_nodup {C S : Type} {zk : Zkgroup C S} {w : World}
    (h : Reachable zk w) :
    (w.cache.map (·.key)).Nodup ∧ (w.bytesCache.map (·.key)).Nodup := by
  have hi : w.KeyInv := h.invariant World.keyInv_init fun hi hs => hi.step hs
  exact ⟨hi.cache_nodup, hi.bytesCache_nodup⟩

/-- Thread `0` resolves the ciphertext `[1]` while thread `1` waits on
`bytes_cache` for the same one and then hits; thread `2` resolves its hex text
`"01"` through both caches. -/
theorem three_callers_keys_nodup :
    let w := (World.init.runSchedule (⟨some, some, id⟩ : Zkgroup Bytes Bytes)
      [(0, .call (.resolveBytes [1])), (1, .call (.resolveBytes [1])),
       (0, .lockBytesCache false), (0, .pushBytes), (1, .lockBytesCache false),
       (2, .call (.resolve "01")), (2, .lockCache false), (2, .lockBytesCache false),
       (2, .pushCache)]).getD World.init
    w.bytesCache = [⟨[1], [1]⟩] ∧ w.cache = [⟨"01", [1]⟩] ∧
      (w.cache.map (·.key)).Nodup ∧ (w.bytesCache.map (·.key)).Nodup :=
  ⟨rfl, rfl, reachable_keys_nodup (Reachable.init.runSchedule_getD _)⟩

/-! ### Every returned call is the uncached one -/

namespace Pc

variable {C S : Type} {zk : Zkgroup C S}

/-- What a thread at this point has computed agrees with the uncached pipeline. -/
def Correct (zk : Zkgroup C S) : Pc → Prop
  | .idle => True
  | .resolve _ => True
  | .resolveBytes caller b => ∀ s, caller = some s → fromHex s = some b
  | .pushBytes caller b u =>
    uncachedResolveBytes zk b = some u ∧ ∀ s, caller = some s → fromHex s = some b
  | .nestedReturned s r => uncachedResolve zk s = r
  | .done c r => c.uncached zk = r

lemma correct_start (c : Call) : (start c).Correct zk := by
  cases c <;> simp [start, Correct]

lemma correct_returnBytes {caller : Option String} {b : Bytes} {r : Option UserId}
    (hcaller : ∀ s, caller = some s → fromHex s = some b) (hr : uncachedResolveBytes zk b = r) :
    (returnBytes caller b r).Correct zk := by
  cases caller with
  | none => exact hr
  | some s =>
    show uncachedResolve zk s = r
    rw [uncachedResolve, hcaller s rfl, Option.some_bind, hr]

end Pc

namespace World

variable {C S : Type} {zk : Zkgroup C S} {w w' : World} {t : Nat}

/-- The caches hold only uncached results, and every thread's work so far
agrees with the uncached pipeline. -/
structure CorrectInv (zk : Zkgroup C S) (w : World) : Prop where
  resolver : Transparent zk ⟨w.cache, w.bytesCache⟩
  threads : ∀ t, (w.pc t).Correct zk

lemma CorrectInv.step_of {w₁ : World} {p : Pc} (hi : w.CorrectInv zk) (hpc : w₁.pc = w.pc)
    (hr : Transparent zk ⟨w₁.cache, w₁.bytesCache⟩) (hp : p.Correct zk) :
    (w₁.setPc t p).CorrectInv zk := by
  refine ⟨hr, fun t' => ?_⟩
  by_cases h : t' = t
  · subst h
    simpa using hp
  · rw [setPc_pc_ne _ _ h, hpc]
    exact hi.threads t'

lemma CorrectInv.lockCache {poisoned : Bool} (hi : w.CorrectInv zk)
    (h : w.lockCache t poisoned = some w') : w'.CorrectInv zk := by
  obtain ⟨s, -, -, holder, p, rfl, hp⟩ := lockCache_eq_some h
  have hr : Transparent zk ⟨lockOrReset poisoned w.cache fun _ => [], w.bytesCache⟩ :=
    hi.resolver.lockCache poisoned
  refine hi.step_of rfl hr ?_
  rcases hp with ⟨m, hf, -, rfl⟩ | ⟨-, hx, -, rfl⟩ | ⟨b, -, hx, -, rfl⟩
  · obtain ⟨hm, rfl⟩ := find_eq_some hf
    exact hr.cache m hm
  · show uncachedResolve zk s = none
    simp [uncachedResolve, hx]
  · rintro s' ⟨⟩
    exact hx

lemma CorrectInv.lockBytesCache {poisoned : Bool} (hi : w.CorrectInv zk)
    (h : w.lockBytesCache zk t poisoned = some w') : w'.CorrectInv zk := by
  obtain ⟨caller, b, hpc, -, holder, p, rfl, hp⟩ := lockBytesCache_eq_some h
  have hcaller : ∀ s, caller = some s → fromHex s = some b := by
    have := hi.threads t
    rwa [hpc] at this
  have hr : Transparent zk ⟨w.cache, lockOrReset poisoned w.bytesCache fun _ => []⟩ :=
    hi.resolver.lockBytesCache poisoned
  refine hi.step_of rfl hr ?_
  rcases hp with ⟨m, hf, -, rfl⟩ | ⟨-, hd, -, rfl⟩ | ⟨u, -, hd, -, rfl⟩
  · obtain ⟨hm, rfl⟩ := find_eq_some hf
    exact Pc.correct_returnBytes hcaller (hr.bytesCache m hm)
  · exact Pc.correct_returnBytes hcaller (decryptOpaqueUserId_eq zk b ▸ hd)
  · exact ⟨decryptOpaqueUserId_eq zk b ▸ hd, hcaller⟩

lemma CorrectInv.pushBytes (hi : w.CorrectInv zk) (h : w.pushBytes t = some w') :
    w'.CorrectInv zk := by
  obtain ⟨caller, b, u, hpc, rfl⟩ := pushBytes_eq_some h
  have hown := hi.threads t
  rw [hpc] at hown
  obtain ⟨hu, hcaller⟩ := hown
  refine hi.step_of rfl ⟨hi.resolver.cache, fun m hm => ?_⟩ (Pc.correct_returnBytes hcaller hu)
  rcases mem_pushBackEvicting hm with hm | rfl
  exacts [hi.resolver.bytesCache m hm, hu]

lemma CorrectInv.pushCache (hi : w.CorrectInv zk) (h : w.pushCache t = some w') :
    w'.CorrectInv zk := by
  obtain ⟨s, ⟨hpc, rfl⟩ | ⟨u, hpc, rfl⟩⟩ := pushCache_eq_some h
  · have hown := hi.threads t
    rw [hpc] at hown
    exact hi.step_of rfl hi.resolver hown
  · have hu := hi.threads t
    rw [hpc] at hu
    refine hi.step_of rfl ⟨fun m hm => ?_, hi.resolver.bytesCache⟩ hu
    rcases mem_pushBackEvicting hm with hm | rfl
    exacts [hi.resolver.cache m hm, hu]

lemma CorrectInv.step {a : Action} (hi : w.CorrectInv zk) (h : w.step zk t a = some w') :
    w'.CorrectInv zk := by
  cases a with
  | call c =>
    obtain ⟨-, rfl⟩ := call_eq_some h
    exact hi.step_of rfl hi.resolver (Pc.correct_start c)
  | lockCache poisoned => exact hi.lockCache h
  | lockBytesCache poisoned => exact hi.lockBytesCache h
  | pushBytes => exact hi.pushBytes h
  | pushCache => exact hi.pushCache h
  | finish =>
    obtain ⟨-, -, -, rfl⟩ := finish_eq_some h
    exact hi.step_of rfl hi.resolver trivial
  | panic => cases h; exact hi.step_of rfl hi.resolver trivial

lemma correctInv_init : init.CorrectInv zk :=
  ⟨transparent_fromRootKey, fun _ => trivial⟩

end World

/-- **Transparency under concurrency**: in every world an interleaving reaches,
panics and poisoned locks included, both caches hold only what the uncached
pipeline computes, and every call that has returned returned the uncached
result. -/
theorem reachable_returns_uncached {C S : Type} {zk : Zkgroup C S} {w : World}
    (h : Reachable zk w) :
    Transparent zk ⟨w.cache, w.bytesCache⟩ ∧
      ∀ t c r, w.pc t = .done c r → r = c.uncached zk := by
  have hi : w.CorrectInv zk := h.invariant World.correctInv_init fun hi hs => hi.step hs
  refine ⟨hi.resolver, fun t c r hpc => ?_⟩
  have hown := hi.threads t
  rw [hpc] at hown
  exact hown.symm

/-- Thread `0` resolves the text `"01"` through both caches and has not yet
taken its result. -/
theorem resolve_returns_uncached :
    let zk : Zkgroup Bytes Bytes := ⟨some, some, id⟩
    let w := (World.init.runSchedule zk
      [(0, .call (.resolve "01")), (0, .lockCache false), (0, .lockBytesCache false),
       (0, .pushBytes), (0, .pushCache)]).getD World.init
    w.pc 0 = .done (.resolve "01") (some [1]) ∧ Reachable zk w ∧
      (Transparent zk ⟨w.cache, w.bytesCache⟩ ∧ ∀ t c r, w.pc t = .done c r → r = c.uncached zk) :=
  ⟨rfl, Reachable.init.runSchedule_getD _, reachable_returns_uncached (Reachable.init.runSchedule_getD _)⟩

/-! ### Lock holders and progress -/

namespace World

variable {C S : Type} {zk : Zkgroup C S} {w w' : World} {t : Nat}

/-- A lock's holder is in the part of its call that holds it. -/
structure HolderInv (w : World) : Prop where
  cache : ∀ t, w.cacheHolder = some t → (w.pc t).cacheKey ≠ none
  bytesCache : ∀ t, w.bytesCacheHolder = some t → (w.pc t).bytesKey ≠ none

/-- A holder other than `t` stays one; `t` holds a lock after its step only
where its new point holds it. -/
lemma HolderInv.step_of {w₁ : World} {p : Pc} (hi : w.HolderInv) (hpc : w₁.pc = w.pc)
    (hc : ∀ t', w₁.cacheHolder = some t' →
      (t' = t ∧ p.cacheKey ≠ none) ∨ (t' ≠ t ∧ w.cacheHolder = some t'))
    (hb : ∀ t', w₁.bytesCacheHolder = some t' →
      (t' = t ∧ p.bytesKey ≠ none) ∨ (t' ≠ t ∧ w.bytesCacheHolder = some t')) :
    (w₁.setPc t p).HolderInv := by
  constructor
  · intro t' h'
    rcases hc t' h' with ⟨rfl, hk⟩ | ⟨hne, hold⟩
    · simpa using hk
    · rw [setPc_pc_ne _ _ hne, hpc]
      exact hi.cache t' hold
  · intro t' h'
    rcases hb t' h' with ⟨rfl, hk⟩ | ⟨hne, hold⟩
    · simpa using hk
    · rw [setPc_pc_ne _ _ hne, hpc]
      exact hi.bytesCache t' hold

/-- A lock whose holder is untouched, when `t`'s key for it (`Pc.cacheKey` or
`Pc.bytesKey`) does not change. -/
lemma keep_holder {κ : Type} {key : Pc → Option κ} {holder : Option Nat} {p : Pc}
    (hi : ∀ t, holder = some t → key (w.pc t) ≠ none) (hk : key p = key (w.pc t))
    (t' : Nat) (h : holder = some t') :
    (t' = t ∧ key p ≠ none) ∨ (t' ≠ t ∧ holder = some t') := by
  by_cases ht : t' = t
  · subst ht
    exact .inl ⟨rfl, hk ▸ hi t' h⟩
  · exact .inr ⟨ht, h⟩

lemma HolderInv.step {a : Action} (hi : w.HolderInv) (h : w.step zk t a = some w') :
    w'.HolderInv := by
  cases a with
  | call c =>
    obtain ⟨hpc, rfl⟩ := call_eq_some h
    exact hi.step_of rfl (keep_holder hi.cache (by rw [hpc, Pc.cacheKey_start]; rfl))
      (keep_holder hi.bytesCache (by rw [hpc, Pc.bytesKey_start]; rfl))
  | lockCache poisoned =>
    obtain ⟨s, hpc, -, holder, p, rfl, hp⟩ := lockCache_eq_some h
    rcases hp with ⟨-, -, rfl, rfl⟩ | ⟨-, -, rfl, rfl⟩ | ⟨b, -, -, rfl, rfl⟩ <;>
      refine hi.step_of rfl (fun t' h' => ?_) (keep_holder hi.bytesCache (by rw [hpc]; rfl)) <;>
      cases h'
    exact .inl ⟨rfl, Option.some_ne_none _⟩
  | lockBytesCache poisoned =>
    obtain ⟨caller, b, hpc, -, holder, p, rfl, hp⟩ := lockBytesCache_eq_some h
    rcases hp with ⟨-, -, rfl, rfl⟩ | ⟨-, -, rfl, rfl⟩ | ⟨u, -, -, rfl, rfl⟩ <;>
      refine hi.step_of rfl (keep_holder hi.cache ?_) (fun t' h' => ?_) <;>
      first | cases h' | (rw [hpc]; (try rw [Pc.cacheKey_returnBytes]); rfl)
    exact .inl ⟨rfl, Option.some_ne_none _⟩
  | pushBytes =>
    obtain ⟨caller, b, u, hpc, rfl⟩ := pushBytes_eq_some h
    exact hi.step_of rfl (keep_holder hi.cache (by rw [hpc, Pc.cacheKey_returnBytes]; rfl))
      (fun _ h' => by cases h')
  | pushCache =>
    obtain ⟨s, ⟨hpc, rfl⟩ | ⟨u, hpc, rfl⟩⟩ := pushCache_eq_some h <;>
      exact hi.step_of rfl (fun _ h' => by cases h') (keep_holder hi.bytesCache (by rw [hpc]; rfl))
  | finish =>
    obtain ⟨c, r, hpc, rfl⟩ := finish_eq_some h
    exact hi.step_of rfl (keep_holder hi.cache (by rw [hpc]; rfl)) (keep_holder hi.bytesCache (by rw [hpc]; rfl))
  | panic =>
    cases h
    exact hi.step_of rfl (fun _ h' => .inr (release_eq_some h'))
      (fun _ h' => .inr (release_eq_some h'))

lemma holderInv_init : init.HolderInv :=
  ⟨fun _ => nofun, fun _ => nofun⟩

/-- Thread `t` can take a step other than panicking. -/
def CanStep (zk : Zkgroup C S) (w : World) (t : Nat) : Prop :=
  ∃ a, a ≠ .panic ∧ (w.step zk t a).isSome

lemma canStep_resolve {s : String} (hpc : w.pc t = .resolve s) (hfree : w.cacheHolder = none) :
    w.CanStep zk t := by
  refine ⟨.lockCache false, nofun, ?_⟩
  simp only [step, World.lockCache, hpc, hfree]
  repeat' split
  all_goals rfl

lemma canStep_resolveBytes {caller : Option String} {b : Bytes}
    (hpc : w.pc t = .resolveBytes caller b) (hfree : w.bytesCacheHolder = none) :
    w.CanStep zk t := by
  refine ⟨.lockBytesCache false, nofun, ?_⟩
  simp only [step, World.lockBytesCache, hpc, hfree]
  repeat' split
  all_goals rfl

/-- A thread past its scans, holding what it needs, can always move. -/
lemma canStep_of_cacheKey_eq_none {p : Pc} (hpc : w.pc t = p)
    (hp : ∀ s, p ≠ .resolve s) (hp' : ∀ caller b, p ≠ .resolveBytes caller b) (hidle : p ≠ .idle) :
    w.CanStep zk t := by
  cases p with
  | idle => exact absurd rfl hidle
  | resolve s => exact absurd rfl (hp s)
  | resolveBytes caller b => exact absurd rfl (hp' caller b)
  | pushBytes => exact ⟨.pushBytes, nofun, by simp [step, World.pushBytes, hpc]⟩
  | nestedReturned s r =>
    exact ⟨.pushCache, nofun, by cases r <;> simp [step, World.pushCache, hpc]⟩
  | done => exact ⟨.finish, nofun, by simp [step, World.finish, hpc]⟩

/-- The holder of `bytes_cache` never waits. -/
lemma HolderInv.canStep_bytesCacheHolder (hi : w.HolderInv) {t' : Nat}
    (h : w.bytesCacheHolder = some t') : w.CanStep zk t' := by
  have hk := hi.bytesCache t' h
  exact canStep_of_cacheKey_eq_none rfl (fun s he => hk (by rw [he]; rfl))
    (fun _ _ he => hk (by rw [he]; rfl)) (fun he => hk (by rw [he]; rfl))

/-- A thread waiting for `bytes_cache` can take it, or its holder can move. -/
lemma HolderInv.progress_resolveBytes (hi : w.HolderInv) {caller : Option String} {b : Bytes}
    (hpc : w.pc t = .resolveBytes caller b) :
    ∃ t', (t' = t ∨ w.bytesCacheHolder = some t') ∧ w.CanStep zk t' := by
  cases hb : w.bytesCacheHolder with
  | none => exact ⟨t, .inl rfl, canStep_resolveBytes hpc hb⟩
  | some t' => exact ⟨t', .inr rfl, hi.canStep_bytesCacheHolder hb⟩

/-- The holder of `cache` can move, or the holder of `bytes_cache` can. -/
lemma HolderInv.progress_cacheHolder (hi : w.HolderInv) {t' : Nat}
    (h : w.cacheHolder = some t') :
    ∃ t'', (t'' = t' ∨ w.bytesCacheHolder = some t'') ∧ w.CanStep zk t'' := by
  have hk := hi.cache t' h
  cases hpc : w.pc t' with
  | resolveBytes caller b => exact hi.progress_resolveBytes hpc
  | idle | resolve _ | done _ _ => rw [hpc] at hk; exact absurd rfl hk
  | pushBytes | nestedReturned =>
    exact ⟨t', .inl rfl, canStep_of_cacheKey_eq_none hpc nofun nofun nofun⟩

end World

/-- **Progress**: in every reachable world a thread in the middle of a call can
take a step, or a thread holding a lock can. The locks are taken in one order,
`cache` before `bytes_cache`, and the holder of `bytes_cache` never waits, so
no set of threads can wait on each other for ever. -/
theorem reachable_progress {C S : Type} {zk : Zkgroup C S} {w : World} (h : Reachable zk w)
    {t : Nat} (ht : w.pc t ≠ .idle) :
    ∃ t', (t' = t ∨ w.cacheHolder = some t' ∨ w.bytesCacheHolder = some t') ∧
      w.CanStep zk t' := by
  have hi : w.HolderInv := h.invariant World.holderInv_init fun hi hs => hi.step hs
  cases hpc : w.pc t with
  | idle => exact absurd hpc ht
  | resolve s =>
    cases hc : w.cacheHolder with
    | none => exact ⟨t, .inl rfl, World.canStep_resolve hpc hc⟩
    | some t' =>
      obtain ⟨t'', rfl | ht'', hs⟩ := hi.progress_cacheHolder hc
      · exact ⟨_, .inr (.inl rfl), hs⟩
      · exact ⟨t'', .inr (.inr ht''), hs⟩
  | resolveBytes caller b =>
    obtain ⟨t', ht' | ht', hs⟩ := hi.progress_resolveBytes hpc
    · exact ⟨t', .inl ht', hs⟩
    · exact ⟨t', .inr (.inr ht'), hs⟩
  | pushBytes | nestedReturned | done =>
    exact ⟨t, .inl rfl, World.canStep_of_cacheKey_eq_none hpc nofun nofun nofun⟩

/-- Thread `2` holds `bytes_cache` to insert; thread `0` holds `cache` and waits
for `bytes_cache`; thread `1` waits for `cache`. -/
theorem waiting_chain_progress :
    let zk : Zkgroup Bytes Bytes := ⟨some, some, id⟩
    let w := (World.init.runSchedule zk
      [(2, .call (.resolveBytes [1])), (2, .lockBytesCache false), (0, .call (.resolve "01")),
       (0, .lockCache false), (1, .call (.resolve "02"))]).getD World.init
    w.cacheHolder = some 0 ∧ w.bytesCacheHolder = some 2 ∧ Reachable zk w ∧ w.pc 1 ≠ .idle ∧
      ∃ t', (t' = 1 ∨ w.cacheHolder = some t' ∨ w.bytesCacheHolder = some t') ∧ w.CanStep zk t' :=
  ⟨rfl, rfl, Reachable.init.runSchedule_getD _, by decide,
    reachable_progress (Reachable.init.runSchedule_getD _) (by decide)⟩

/-! ### The bound under concurrency -/

/-- Both caches hold at most `MAX_CACHE_ENTRIES + 1` entries. -/
def Bounded (r : CallLinkMemberResolver) : Prop :=
  r.cache.length ≤ MAX_CACHE_ENTRIES + 1 ∧ r.bytesCache.length ≤ MAX_CACHE_ENTRIES + 1

namespace World

variable {C S : Type} {zk : Zkgroup C S} {w w' : World} {t : Nat}

lemma bounded_step {a : Action} (hb : Bounded ⟨w.cache, w.bytesCache⟩)
    (hs : w.step zk t a = some w') : Bounded ⟨w'.cache, w'.bytesCache⟩ := by
  cases a with
  | call c =>
    obtain ⟨-, rfl⟩ := call_eq_some hs
    exact hb
  | lockCache poisoned =>
    obtain ⟨_, -, -, _, _, rfl, -⟩ := lockCache_eq_some hs
    exact ⟨(lockOrReset_sublist poisoned w.cache).length_le.trans hb.1, hb.2⟩
  | lockBytesCache poisoned =>
    obtain ⟨_, _, -, -, _, _, rfl, -⟩ := lockBytesCache_eq_some hs
    exact ⟨hb.1, (lockOrReset_sublist poisoned w.bytesCache).length_le.trans hb.2⟩
  | pushBytes =>
    obtain ⟨_, _, _, -, rfl⟩ := pushBytes_eq_some hs
    exact ⟨hb.1, length_pushBackEvicting_le hb.2 _⟩
  | pushCache =>
    obtain ⟨_, ⟨-, rfl⟩ | ⟨_, -, rfl⟩⟩ := pushCache_eq_some hs
    exacts [hb, ⟨length_pushBackEvicting_le hb.1 _, hb.2⟩]
  | finish =>
    obtain ⟨_, _, -, rfl⟩ := finish_eq_some hs
    exact hb
  | panic =>
    cases hs
    exact hb

end World

/-- **The bound under concurrency**: in every world any interleaving of calls
reaches, panics and poisoned locks included, both caches hold at most
`MAX_CACHE_ENTRIES + 1` entries. -/
theorem reachable_bounded {C S : Type} {zk : Zkgroup C S} {w : World} (h : Reachable zk w) :
    Bounded ⟨w.cache, w.bytesCache⟩ :=
  h.invariant ⟨Nat.zero_le _, Nat.zero_le _⟩ fun hb hs => World.bounded_step hb hs

/-- Thread `0` resolves the ciphertext `[1]`, thread `1` then hits it, and
thread `2` resolves its hex text: one entry in each cache. -/
theorem three_callers_bounded :
    let zk : Zkgroup Bytes Bytes := ⟨some, some, id⟩
    let w := (World.init.runSchedule zk
      [(0, .call (.resolveBytes [1])), (1, .call (.resolveBytes [1])),
       (0, .lockBytesCache false), (0, .pushBytes), (1, .lockBytesCache false),
       (2, .call (.resolve "01")), (2, .lockCache false), (2, .lockBytesCache false),
       (2, .pushCache)]).getD World.init
    Reachable zk w ∧ Bounded ⟨w.cache, w.bytesCache⟩ :=
  ⟨Reachable.init.runSchedule_getD _, reachable_bounded (Reachable.init.runSchedule_getD _)⟩

end RingRtc
