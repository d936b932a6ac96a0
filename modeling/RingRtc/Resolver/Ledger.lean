/-
The design the caches implement: each cache shows the last
`MAX_CACHE_ENTRIES + 1` mappings inserted into it since it was last reset.

* `Ledger`: the abstract resolver, an unbounded insertion history per cache;
  `Ledger.resolveBytes`, `Ledger.resolve`, `Ledger.run`: lookups against the
  window of each history, appending on a successful miss;
* `Ledger.resolveBytes_window`, `Ledger.resolve_window`, `Ledger.run_window`:
  the code refines the ledger: run on the windows of a ledger, it returns what
  the ledger returns and ends in the windows of the ledger's end;
* `Ledger.run_log_prefix`: without a poisoned lock the histories only grow at
  the back, so a mapping leaves its cache only once
  `MAX_CACHE_ENTRIES + 1` newer ones follow it (`getElem_mem_window`);
* `repeat_call_hits`: right after a call returns a user, the same call hits its
  own cache and returns that user whatever the decryption does;
* `fifo_retention`: the two together.
-/
import RingRtc.Resolver.Runs

namespace RingRtc

/-! ### The window of a history -/

section Window

variable {α : Type}

lemma window_lockOrReset (poisoned : Bool) (log : List α) :
    window (lockOrReset poisoned log fun _ => []) = lockOrReset poisoned (window log) fun _ => [] := by
  cases poisoned <;> rfl

/-- A mapping with at most `MAX_CACHE_ENTRIES` newer ones after it in the history
is in the window. -/
lemma getElem_mem_window {log : List α} {i : Nat} (hi : i < log.length)
    (hnew : log.length ≤ i + MAX_CACHE_ENTRIES + 1) : log[i] ∈ window log := by
  have hlen : log.length - (MAX_CACHE_ENTRIES + 1) ≤ i := by omega
  rw [window, List.mem_iff_getElem]
  refine ⟨i - (log.length - (MAX_CACHE_ENTRIES + 1)), by simp; omega, ?_⟩
  rw [List.getElem_drop]
  congr 1
  omega

end Window

/-! ### The ledger -/

/-- The resolver as its design reads: for each cache, every mapping inserted since
the cache was last reset, oldest first. -/
structure Ledger where
  log : List OpaqueUserIdMapping
  bytesLog : List BytesCacheMapping
  deriving DecidableEq, Repr

namespace Ledger

/-- The caches the ledger stands for: the window of each history. -/
def window (a : Ledger) : CallLinkMemberResolver := ⟨RingRtc.window a.log, RingRtc.window a.bytesLog⟩

/-- Nothing inserted yet. -/
def empty : Ledger := ⟨[], []⟩

lemma window_empty : empty.window = CallLinkMemberResolver.fromRootKey := rfl

variable {C S : Type} (zk : Zkgroup C S)

/-- `resolve_bytes` against the window of the bytes history. -/
def resolveBytes (poisoned : Bool) (a : Ledger) (b : Bytes) : Option UserId × Ledger :=
  let log := lockOrReset poisoned a.bytesLog fun _ => []
  match find (RingRtc.window log) b with
  | some m => (some m.userId, { a with bytesLog := log })
  | none =>
    match uncachedResolveBytes zk b with
    | none => (none, { a with bytesLog := log })
    | some u => (some u, { a with bytesLog := log ++ [⟨b, u⟩] })

/-- `resolve` against the window of the text history. -/
def resolve (poison : Poison) (a : Ledger) (s : String) : Option UserId × Ledger :=
  let log := lockOrReset poison.cache a.log fun _ => []
  let a := { a with log := log }
  match find (RingRtc.window log) s with
  | some m => (some m.userId, a)
  | none =>
    match fromHex s with
    | none => (none, a)
    | some b =>
      match resolveBytes zk poison.bytesCache a b with
      | (none, a') => (none, a')
      | (some u, a') => (some u, { a' with log := log ++ [⟨s, u⟩] })

/-- One call on the ledger. -/
def call (poison : Poison) (a : Ledger) : Call → Option UserId × Ledger
  | .resolve s => resolve zk poison a s
  | .resolveBytes b => resolveBytes zk poison.bytesCache a b

/-- A run on the ledger. -/
def run (a : Ledger) : List Request → List (Option UserId) × Ledger
  | [] => ([], a)
  | q :: qs =>
    let step := call zk q.poison a q.call
    let rest := run step.2 qs
    (step.1 :: rest.1, rest.2)

/-! ### The code refines the ledger -/

variable {zk}

/-- `resolve_bytes` on the windows of a ledger is the ledger's `resolveBytes`. -/
theorem resolveBytes_window (poisoned : Bool) (a : Ledger) (b : Bytes) :
    RingRtc.resolveBytes zk poisoned a.window b =
      ((resolveBytes zk poisoned a b).1, (resolveBytes zk poisoned a b).2.window) := by
  have hl : a.window.lockBytesCache poisoned =
      ⟨RingRtc.window a.log, RingRtc.window (lockOrReset poisoned a.bytesLog fun _ => [])⟩ := by
    rw [window_lockOrReset]; rfl
  unfold resolveBytes
  rcases resolveBytes_cases zk poisoned a.window b with
    ⟨m, hf, he⟩ | ⟨hf, hu, he⟩ | ⟨u, hf, hu, he⟩ <;> rw [hl] at hf he <;> rw [he] <;>
    simp only at hf
  · simp [hf, window]
  · simp [hf, hu, window]
  · simp [hf, hu, window, pushBackEvicting_window]

/-- `resolve` on the windows of a ledger is the ledger's `resolve`. -/
theorem resolve_window (poison : Poison) (a : Ledger) (s : String) :
    RingRtc.resolve zk poison a.window s =
      ((resolve zk poison a s).1, (resolve zk poison a s).2.window) := by
  have hl : a.window.lockCache poison.cache =
      { log := lockOrReset poison.cache a.log fun _ => [], bytesLog := a.bytesLog : Ledger }.window := by
    simp only [window, window_lockOrReset]; rfl
  unfold resolve
  rcases resolve_cases zk poison a.window s with
    ⟨m, hf, he⟩ | ⟨hf, hx, he⟩ | ⟨b, hf, hx, hb, he⟩ | ⟨b, u, hf, hx, hb, he⟩ <;>
    rw [hl] at hf he <;> rw [he] <;> simp only [window] at hf
  · simp [hf]
  · simp [hf, hx]
  all_goals
    rw [hl, resolveBytes_window] at hb
    rw [resolveBytes_window]
    rcases hab : resolveBytes zk poison.bytesCache
      ⟨lockOrReset poison.cache a.log fun _ => [], a.bytesLog⟩ b with ⟨_ | u', a'⟩ <;>
      simp [hab] at hb
  · simp [hf, hx, hab]
  · cases hb
    simp [hf, hx, hab, window, pushBackEvicting_window]

lemma call_window (poison : Poison) (a : Ledger) : ∀ c : Call,
    c.run zk poison a.window = ((call zk poison a c).1, (call zk poison a c).2.window)
  | .resolve s => resolve_window poison a s
  | .resolveBytes b => resolveBytes_window poison.bytesCache a b

/-- **The code refines the ledger**: every run of the code from the windows of a
ledger returns what the ledger's run returns, and ends in the windows of where
the ledger's run ends. -/
theorem run_window (a : Ledger) : ∀ qs : List Request,
    RingRtc.run zk a.window qs = ((run zk a qs).1, (run zk a qs).2.window)
  | [] => rfl
  | q :: qs => by
    simp only [RingRtc.run, run, call_window, run_window _ qs]

/-! ### Without a poisoned lock the histories only grow -/

variable (zk) in
lemma resolveBytes_prefix (a : Ledger) (b : Bytes) :
    (resolveBytes zk false a b).2.log = a.log ∧ a.bytesLog <+: (resolveBytes zk false a b).2.bytesLog := by
  unfold resolveBytes
  simp only [lockOrReset, Bool.false_eq_true, if_false]
  split
  · simp
  · split <;> simp

lemma resolve_prefix (a : Ledger) (s : String) :
    a.log <+: (resolve zk Poison.none a s).2.log ∧
      a.bytesLog <+: (resolve zk Poison.none a s).2.bytesLog := by
  unfold resolve
  simp only [Poison.none_cache, Poison.none_bytesCache, lockOrReset, Bool.false_eq_true, if_false]
  split
  · simp
  · split
    · simp
    · rename_i b _
      obtain ⟨hl, hb⟩ := resolveBytes_prefix zk ⟨a.log, a.bytesLog⟩ b
      rcases hab : resolveBytes zk false ⟨a.log, a.bytesLog⟩ b with ⟨_ | u, a'⟩ <;>
        rw [hab] at hl hb <;> simp_all

/-- Without a poisoned lock, a run only appends to the histories. -/
lemma run_prefix (a : Ledger) (qs : List Request) (hqs : ∀ q ∈ qs, q.poison = Poison.none) :
    a.log <+: (run zk a qs).2.log ∧ a.bytesLog <+: (run zk a qs).2.bytesLog := by
  induction qs generalizing a with
  | nil => exact ⟨List.prefix_refl _, List.prefix_refl _⟩
  | cons q qs ih =>
    have hstep : a.log <+: (call zk q.poison a q.call).2.log ∧
        a.bytesLog <+: (call zk q.poison a q.call).2.bytesLog := by
      rw [hqs q (List.mem_cons_self _ _)]
      cases q.call with
      | resolve s => exact resolve_prefix a s
      | resolveBytes b =>
        obtain ⟨hl, hb⟩ := resolveBytes_prefix zk a b
        exact ⟨hl ▸ List.prefix_refl _, hb⟩
    obtain ⟨hl, hb⟩ := ih _ fun q' hq' => hqs q' (List.mem_cons_of_mem _ hq')
    exact ⟨hstep.1.trans hl, hstep.2.trans hb⟩

end Ledger

/-! ### FIFO retention -/

variable {C S : Type} {zk : Zkgroup C S}

/-- Right after a call without a poisoned lock returns a user, the same call hits
its own cache and returns that user again, leaving the resolver as it is, under
any decryption at all. -/
lemma repeat_call_hits (r : CallLinkMemberResolver) (c : Call) {u : UserId}
    (h : (c.run zk Poison.none r).1 = some u) :
    c.hits (c.run zk Poison.none r).2 ∧
      ∀ {C' S' : Type} (zk' : Zkgroup C' S'),
        c.run zk' Poison.none (c.run zk Poison.none r).2 = (some u, (c.run zk Poison.none r).2) := by
  cases c with
  | resolveBytes b =>
    simp only [Call.run, Call.hits, Poison.none_bytesCache] at h ⊢
    rcases resolveBytes_cases zk false r b with ⟨m, hf, he⟩ | ⟨hf, -, he⟩ | ⟨u', hf, -, he⟩ <;>
      simp only [CallLinkMemberResolver.lockBytesCache_false] at hf he <;>
      rw [he] at h ⊢ <;> simp only [Option.some.injEq, reduceCtorEq] at h
    · subst h
      exact ⟨by simp [hf], fun zk' => resolveBytes_hit zk' false hf⟩
    · subst h
      have hf' := find_pushBackEvicting_self (m := ⟨b, u'⟩) hf
      exact ⟨by simp [hf'], fun zk' => resolveBytes_hit zk' false
        (r := { r with bytesCache := pushBackEvicting r.bytesCache ⟨b, u'⟩ }) hf'⟩
  | resolve s =>
    simp only [Call.run, Call.hits] at h ⊢
    rcases resolve_cases zk Poison.none r s with
      ⟨m, hf, he⟩ | ⟨hf, -, he⟩ | ⟨b, hf, -, -, he⟩ | ⟨b, u', hf, -, -, he⟩ <;>
      simp only [CallLinkMemberResolver.lockCache_false, Poison.none_cache] at hf he <;>
      rw [he] at h ⊢ <;> simp only [Option.some.injEq, reduceCtorEq] at h
    · subst h
      exact ⟨by simp [hf], fun zk' => resolve_hit zk' Poison.none hf⟩
    · subst h
      have hf' := find_pushBackEvicting_self (m := ⟨s, u'⟩) hf
      exact ⟨by simp [hf'], fun zk' => resolve_hit zk' Poison.none
        (r := { (resolveBytes zk false r b).2 with
          cache := pushBackEvicting r.cache ⟨s, u'⟩ }) hf'⟩

/-- **FIFO retention.** Without a poisoned lock: right after a call returns a
user, repeating it is a hit that returns that user without decrypting; and along
every run from the windows of a ledger, the caches stay the windows of histories
that only grow at the back, so a mapping stays in its cache while at most
`MAX_CACHE_ENTRIES` newer mappings have been inserted after it. -/
theorem fifo_retention (a : Ledger) (calls : List Call) :
    (∀ (r : CallLinkMemberResolver) (c : Call) (u : UserId),
      (c.run zk Poison.none r).1 = some u →
      c.hits (c.run zk Poison.none r).2 ∧
        ∀ {C' S' : Type} (zk' : Zkgroup C' S'),
          c.run zk' Poison.none (c.run zk Poison.none r).2 = (some u, (c.run zk Poison.none r).2)) ∧
    let qs := calls.map (⟨·, Poison.none⟩)
    (run zk a.window qs).2 = (Ledger.run zk a qs).2.window ∧
    a.log <+: (Ledger.run zk a qs).2.log ∧ a.bytesLog <+: (Ledger.run zk a qs).2.bytesLog ∧
    (∀ i (hi : i < (Ledger.run zk a qs).2.log.length),
      (Ledger.run zk a qs).2.log.length ≤ i + MAX_CACHE_ENTRIES + 1 →
      (Ledger.run zk a qs).2.log[i] ∈ (run zk a.window qs).2.cache) ∧
    (∀ i (hi : i < (Ledger.run zk a qs).2.bytesLog.length),
      (Ledger.run zk a qs).2.bytesLog.length ≤ i + MAX_CACHE_ENTRIES + 1 →
      (Ledger.run zk a qs).2.bytesLog[i] ∈ (run zk a.window qs).2.bytesCache) := by
  refine ⟨fun r c u h => repeat_call_hits r c h, ?_⟩
  intro qs
  have hw : (run zk a.window qs).2 = (Ledger.run zk a qs).2.window := by
    rw [Ledger.run_window]
  obtain ⟨hl, hb⟩ := Ledger.run_prefix a qs (by simp [qs])
  refine ⟨hw, hl, hb, fun i hi hnew => ?_, fun i hi hnew => ?_⟩ <;> rw [hw]
  exacts [getElem_mem_window hi hnew, getElem_mem_window hi hnew]

end RingRtc
