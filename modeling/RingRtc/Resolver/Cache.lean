/-
The two identity caches of `CallLinkMemberResolver`
(`src/rust/src/lite/call_links/member_resolver.rs`): a `VecDeque` of mappings
scanned front to back, with one insertion routine shared by `resolve` and
`resolve_bytes`.

* `Mapping`, `OpaqueUserIdMapping`, `BytesCacheMapping`: a cache entry, keyed by
  the textual opaque id or by the raw ciphertext;
* `find`: the linear scan `iter().find(..)`;
* `pushBackEvicting`: `if len() > MAX_CACHE_ENTRIES { pop_front() }` followed by
  `push_back`;
* `length_pushBackEvicting_le`: the bound this insertion keeps, which is
  `MAX_CACHE_ENTRIES + 1`, not `MAX_CACHE_ENTRIES`;
* `keys_nodup_pushBackEvicting`: inserting a key the scan missed keeps the keys
  distinct;
* `window`, `pushBackEvicting_window`: the insertion keeps exactly the last
  `MAX_CACHE_ENTRIES + 1` mappings ever pushed, oldest first.
-/
import Mathlib.Data.List.Basic
import Mathlib.Data.List.Nodup

namespace RingRtc

/-- Raw bytes (`Vec<u8>`, `&[u8]`). -/
abbrev Bytes := List UInt8

/-- `lite::sfu::UserId`, the binary service id a member resolves to. -/
abbrev UserId := List UInt8

/-- A cache entry: the identifier the cache is keyed by and the user it
decrypted to. -/
structure Mapping (K : Type) where
  key : K
  userId : UserId
  deriving DecidableEq, Repr

/-- `OpaqueUserIdMapping` of `lite::sfu`: an entry of `cache`, keyed by the hex
text `opaque_user_id`. -/
abbrev OpaqueUserIdMapping := Mapping String

/-- `BytesCacheMapping`: an entry of `bytes_cache`, keyed by `ciphertext`. -/
abbrev BytesCacheMapping := Mapping Bytes

/-- `MAX_CACHE_ENTRIES`. -/
def MAX_CACHE_ENTRIES : Nat := 16

variable {K α : Type}

section Scan

variable [DecidableEq K]

/-- The lookup of both caches: `iter().find(|mapping| mapping.key == key)`. -/
def find (cache : List (Mapping K)) (key : K) : Option (Mapping K) :=
  cache.find? fun mapping => decide (mapping.key = key)

/-- The insertion of both caches after a successful miss:
`if locked_cache.len() > MAX_CACHE_ENTRIES { pop_front() }`, then `push_back`. -/
def pushBackEvicting (cache : List α) (mapping : α) : List α :=
  (if cache.length > MAX_CACHE_ENTRIES then cache.tail else cache) ++ [mapping]

/-! ### The scan -/

lemma find_eq_none {cache : List (Mapping K)} {key : K} :
    find cache key = none ↔ key ∉ cache.map (·.key) := by
  simp [find]

lemma find_eq_some {cache : List (Mapping K)} {key : K} {m : Mapping K}
    (h : find cache key = some m) : m ∈ cache ∧ m.key = key :=
  ⟨List.mem_of_find?_eq_some h, by simpa using List.find?_some h⟩

end Scan

/-! ### The insertion -/

lemma mem_pushBackEvicting {cache : List α} {mapping x : α}
    (h : x ∈ pushBackEvicting cache mapping) : x ∈ cache ∨ x = mapping := by
  unfold pushBackEvicting at h
  split at h <;> simp only [List.mem_append, List.mem_singleton] at h
  · exact h.imp_left List.mem_of_mem_tail
  · exact h

lemma length_pushBackEvicting (cache : List α) (mapping : α) :
    (pushBackEvicting cache mapping).length =
      if cache.length > MAX_CACHE_ENTRIES then cache.length else cache.length + 1 := by
  unfold pushBackEvicting
  split <;> simp only [List.length_append, List.length_tail, List.length_singleton]
  omega

/-- The insertion keeps a cache at `MAX_CACHE_ENTRIES + 1` entries at most: the
front is popped only once the cache already holds that many. -/
lemma length_pushBackEvicting_le {cache : List α} (h : cache.length ≤ MAX_CACHE_ENTRIES + 1)
    (mapping : α) : (pushBackEvicting cache mapping).length ≤ MAX_CACHE_ENTRIES + 1 := by
  rw [length_pushBackEvicting]
  split <;> omega

lemma keys_nodup_pushBackEvicting {cache : List (Mapping K)} {m : Mapping K}
    (hnd : (cache.map (·.key)).Nodup) (hm : m.key ∉ cache.map (·.key)) :
    ((pushBackEvicting cache m).map (·.key)).Nodup := by
  have hsub : ∀ c' : List (Mapping K), c'.Sublist cache →
      ((c' ++ [m]).map (·.key)).Nodup := fun c' hc' => by
    rw [List.map_append, List.nodup_append]
    refine ⟨(hc'.map _).nodup hnd, List.nodup_singleton _, ?_⟩
    simpa using fun h => hm ((hc'.map _).subset h)
  unfold pushBackEvicting
  split
  · exact hsub _ (List.tail_sublist cache)
  · exact hsub _ (List.Sublist.refl cache)

/-- Right after the insertion of a key the scan missed, the scan finds the new
mapping. -/
lemma find_pushBackEvicting_self [DecidableEq K] {cache : List (Mapping K)} {m : Mapping K}
    (h : find cache m.key = none) : find (pushBackEvicting cache m) m.key = some m := by
  have hm : ∀ x ∈ (if cache.length > MAX_CACHE_ENTRIES then cache.tail else cache), x.key ≠ m.key :=
    fun x hx hk => find_eq_none.mp h (hk ▸ List.mem_map_of_mem _ (by
      split at hx
      exacts [List.mem_of_mem_tail hx, hx]))
  simp only [find, pushBackEvicting, List.find?_append, List.find?_singleton, decide_True,
    cond_true]
  rw [List.find?_eq_none.mpr (by simpa using hm)]
  rfl

/-! ### The insertion as a window on the insertion history -/

/-- The last `MAX_CACHE_ENTRIES + 1` entries of a history, oldest first. -/
def window (log : List α) : List α :=
  log.drop (log.length - (MAX_CACHE_ENTRIES + 1))

lemma length_window (log : List α) : (window log).length = min log.length (MAX_CACHE_ENTRIES + 1) := by
  simp only [window, List.length_drop]
  omega

/-- **The insertion is a sliding window**: pushing onto the window of a history
gives the window of the history one entry longer. -/
theorem pushBackEvicting_window (log : List α) (mapping : α) :
    pushBackEvicting (window log) mapping = window (log ++ [mapping]) := by
  unfold pushBackEvicting
  rw [length_window]
  simp only [window, List.length_append, List.length_singleton]
  split
  · rw [List.tail_drop, List.drop_append_of_le_length (by omega)]
    congr 2
    omega
  · rw [List.drop_append_of_le_length (by omega)]
    congr 2
    omega

end RingRtc
