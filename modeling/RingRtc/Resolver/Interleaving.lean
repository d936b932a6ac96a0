/-
The resolver under concurrent callers. Each `resolve` or `resolve_bytes` call is
a thread; it holds the `CallMutex` of each cache it uses from its scan through
its insertion, and `resolve` keeps `cache` across its nested `resolve_bytes`.
Any interleaving of the threads' atomic steps is a run.

* `Pc`: where a thread is in its call, which fixes the locks it holds;
* `World`: the two caches, the holder of each lock, and every thread;
* `World.step`: one step of one thread: entering a call, taking a free lock and
  scanning (decoding or decrypting on a miss), inserting and releasing,
  returning, or panicking, which releases whatever the thread holds;
* `call_eq_some`, …, `finish_eq_some`: everything one step can do;
* `Reachable`, `World.runSchedule`: every world some interleaving reaches from
  the empty caches, and the run of one given schedule.
-/
import RingRtc.Resolver.Runs

namespace RingRtc

/-- Where a thread is in a call. -/
inductive Pc where
  | idle
  /-- In `resolve`, waiting for `cache`. -/
  | resolve (opaqueUserId : String)
  /-- In `resolve_bytes`, waiting for `bytes_cache`; `caller = some s` when
  `resolve(s)` made the call and holds `cache`. -/
  | resolveBytes (caller : Option String) (opaqueUserId : Bytes)
  /-- Holding `bytes_cache` after a miss that decrypted to `userId`. -/
  | pushBytes (caller : Option String) (opaqueUserId : Bytes) (userId : UserId)
  /-- In `resolve`, holding `cache`, once its `resolve_bytes` returned `result`. -/
  | nestedReturned (opaqueUserId : String) (result : Option UserId)
  /-- The call returned `result`. -/
  | done (call : Call) (result : Option UserId)
  deriving DecidableEq, Repr

namespace Pc

/-- Where a thread starts a call. -/
def start : Call → Pc
  | .resolve s => .resolve s
  | .resolveBytes b => .resolveBytes none b

/-- Where `resolve_bytes` returning `result` leaves its thread: finished, or back
in the `resolve` that called it. -/
def returnBytes (caller : Option String) (b : Bytes) (result : Option UserId) : Pc :=
  match caller with
  | none => .done (.resolveBytes b) result
  | some s => .nestedReturned s result

/-- The key a thread holding `cache` missed there. -/
def cacheKey : Pc → Option String
  | .resolveBytes caller _ => caller
  | .pushBytes caller _ _ => caller
  | .nestedReturned s _ => some s
  | _ => none

/-- The key a thread holding `bytes_cache` missed there. -/
def bytesKey : Pc → Option Bytes
  | .pushBytes _ b _ => some b
  | _ => none

@[simp] lemma cacheKey_start (c : Call) : (start c).cacheKey = none := by cases c <;> rfl

@[simp] lemma bytesKey_start (c : Call) : (start c).bytesKey = none := by cases c <;> rfl

@[simp] lemma cacheKey_returnBytes (caller : Option String) (b : Bytes) (r : Option UserId) :
    (returnBytes caller b r).cacheKey = caller := by cases caller <;> rfl

@[simp] lemma bytesKey_returnBytes (caller : Option String) (b : Bytes) (r : Option UserId) :
    (returnBytes caller b r).bytesKey = none := by cases caller <;> rfl

end Pc

/-- The shared state: both caches, who holds each lock, and every thread. -/
structure World where
  cache : List OpaqueUserIdMapping
  bytesCache : List BytesCacheMapping
  cacheHolder : Option Nat
  bytesCacheHolder : Option Nat
  pc : Nat → Pc

/-- One atomic step of a thread. -/
inductive Action where
  | call (c : Call)
  | lockCache (poisoned : Bool)
  | lockBytesCache (poisoned : Bool)
  | pushBytes
  | pushCache
  | finish
  | panic
  deriving DecidableEq, Repr

namespace World

/-- The resolver `From<&CallLinkRootKey>` builds, with no call in progress. -/
def init : World := ⟨[], [], none, none, fun _ => .idle⟩

/-- Move thread `t` to `p`. -/
def setPc (w : World) (t : Nat) (p : Pc) : World := { w with pc := Function.update w.pc t p }

@[simp] lemma setPc_cache (w : World) (t : Nat) (p : Pc) : (w.setPc t p).cache = w.cache := rfl

@[simp] lemma setPc_bytesCache (w : World) (t : Nat) (p : Pc) :
    (w.setPc t p).bytesCache = w.bytesCache := rfl

@[simp] lemma setPc_cacheHolder (w : World) (t : Nat) (p : Pc) :
    (w.setPc t p).cacheHolder = w.cacheHolder := rfl

@[simp] lemma setPc_bytesCacheHolder (w : World) (t : Nat) (p : Pc) :
    (w.setPc t p).bytesCacheHolder = w.bytesCacheHolder := rfl

@[simp] lemma setPc_pc_self (w : World) (t : Nat) (p : Pc) : (w.setPc t p).pc t = p :=
  Function.update_same _ _ _

lemma setPc_pc_ne (w : World) {t t' : Nat} (p : Pc) (h : t' ≠ t) : (w.setPc t p).pc t' = w.pc t' :=
  Function.update_noteq h _ _

@[simp] lemma setPc_setPc (w : World) (t : Nat) (p q : Pc) :
    (w.setPc t p).setPc t q = w.setPc t q := by
  simp [setPc, Function.update_idem]

variable {C S : Type} (zk : Zkgroup C S)

/-- An idle thread calls `resolve` or `resolve_bytes`. -/
def call (w : World) (t : Nat) (c : Call) : Option World :=
  match w.pc t with
  | .idle => some (w.setPc t (.start c))
  | _ => none

/-- `resolve` takes the free `cache`, scans it and on a miss decodes the text; it
keeps `cache` only to call `resolve_bytes`. -/
def lockCache (w : World) (t : Nat) (poisoned : Bool) : Option World :=
  match w.pc t, w.cacheHolder with
  | .resolve s, none =>
    let cache := lockOrReset poisoned w.cache fun _ => []
    match find cache s with
    | some m => some ({ w with cache := cache }.setPc t (.done (.resolve s) (some m.userId)))
    | none =>
      match fromHex s with
      | none => some ({ w with cache := cache }.setPc t (.done (.resolve s) none))
      | some b =>
        some ({ w with cache := cache, cacheHolder := some t }.setPc t (.resolveBytes (some s) b))
  | _, _ => none

/-- `resolve_bytes` takes the free `bytes_cache`, scans it and on a miss
decrypts; it keeps `bytes_cache` only to insert. -/
def lockBytesCache (w : World) (t : Nat) (poisoned : Bool) : Option World :=
  match w.pc t, w.bytesCacheHolder with
  | .resolveBytes caller b, none =>
    let bytesCache := lockOrReset poisoned w.bytesCache fun _ => []
    match find bytesCache b with
    | some m =>
      some ({ w with bytesCache := bytesCache }.setPc t (.returnBytes caller b (some m.userId)))
    | none =>
      match decryptOpaqueUserId zk b with
      | none => some ({ w with bytesCache := bytesCache }.setPc t (.returnBytes caller b none))
      | some u =>
        some ({ w with bytesCache := bytesCache, bytesCacheHolder := some t }.setPc t
          (.pushBytes caller b u))
  | _, _ => none

/-- `resolve_bytes` inserts its mapping, releases `bytes_cache` and returns. -/
def pushBytes (w : World) (t : Nat) : Option World :=
  match w.pc t with
  | .pushBytes caller b u =>
    some ({ w with bytesCache := pushBackEvicting w.bytesCache ⟨b, u⟩, bytesCacheHolder := none }.setPc
      t (.returnBytes caller b (some u)))
  | _ => none

/-- `resolve`, once its `resolve_bytes` returned, inserts on success, releases
`cache` and returns. -/
def pushCache (w : World) (t : Nat) : Option World :=
  match w.pc t with
  | .nestedReturned s none => some ({ w with cacheHolder := none }.setPc t (.done (.resolve s) none))
  | .nestedReturned s (some u) =>
    some ({ w with cache := pushBackEvicting w.cache ⟨s, u⟩, cacheHolder := none }.setPc t
      (.done (.resolve s) (some u)))
  | _ => none

/-- The caller takes the result; the thread is idle again. -/
def finish (w : World) (t : Nat) : Option World :=
  match w.pc t with
  | .done _ _ => some (w.setPc t .idle)
  | _ => none

/-- A lock released by thread `t` if `t` holds it. -/
def release (t : Nat) (holder : Option Nat) : Option Nat :=
  if holder = some t then none else holder

/-- Thread `t` panics: unwinding drops its guards, which releases (and poisons)
the locks it holds. Poisoning is seen by the next `lockCache` or
`lockBytesCache`, whose flag may always be set. -/
def panic (w : World) (t : Nat) : World :=
  { w with cacheHolder := release t w.cacheHolder,
           bytesCacheHolder := release t w.bytesCacheHolder }.setPc t .idle

/-- One step of thread `t`, or `none` if the step is not enabled. -/
def step (w : World) (t : Nat) : Action → Option World
  | .call c => w.call t c
  | .lockCache poisoned => w.lockCache t poisoned
  | .lockBytesCache poisoned => w.lockBytesCache zk t poisoned
  | .pushBytes => w.pushBytes t
  | .pushCache => w.pushCache t
  | .finish => w.finish t
  | .panic => some (w.panic t)

/-- Run a schedule of steps, `none` once a step is not enabled. -/
def runSchedule (w : World) : List (Nat × Action) → Option World
  | [] => some w
  | (t, a) :: sched => (w.step zk t a).bind fun w' => w'.runSchedule sched

@[simp] lemma runSchedule_nil (w : World) : w.runSchedule zk [] = some w := rfl

@[simp] lemma runSchedule_cons (w : World) (t : Nat) (a : Action) (sched : List (Nat × Action)) :
    w.runSchedule zk ((t, a) :: sched) = (w.step zk t a).bind (·.runSchedule zk sched) := rfl

lemma runSchedule_append (w : World) (s₁ s₂ : List (Nat × Action)) :
    w.runSchedule zk (s₁ ++ s₂) = (w.runSchedule zk s₁).bind (·.runSchedule zk s₂) := by
  induction s₁ generalizing w with
  | nil => rfl
  | cons e s₁ ih =>
    obtain ⟨t, a⟩ := e
    simp only [List.cons_append, runSchedule_cons, Option.bind_assoc, ih]

/-! ### What one step can do -/

variable {zk} {w w' : World} {t : Nat}

lemma call_eq_some {c : Call} (h : w.call t c = some w') :
    w.pc t = .idle ∧ w' = w.setPc t (.start c) := by
  unfold World.call at h
  split at h
  · exact ⟨‹_›, (Option.some.inj h).symm⟩
  · cases h

/-- `lockCache` needs `t` in `resolve` and `cache` free; it hits, fails to
decode, or takes `cache` on to `resolve_bytes`. -/
lemma lockCache_eq_some {poisoned : Bool} (h : w.lockCache t poisoned = some w') :
    ∃ s, w.pc t = .resolve s ∧ w.cacheHolder = none ∧ ∃ holder p,
      w' = { w with cache := lockOrReset poisoned w.cache (fun _ => []),
                    cacheHolder := holder }.setPc t p ∧
      ((∃ m, find (lockOrReset poisoned w.cache fun _ => []) s = some m ∧ holder = none ∧
          p = .done (.resolve s) (some m.userId)) ∨
        (find (lockOrReset poisoned w.cache fun _ => []) s = none ∧ fromHex s = none ∧
          holder = none ∧ p = .done (.resolve s) none) ∨
        (∃ b, find (lockOrReset poisoned w.cache fun _ => []) s = none ∧ fromHex s = some b ∧
          holder = some t ∧ p = .resolveBytes (some s) b)) := by
  unfold World.lockCache at h
  split at h
  · rename_i s hpc hfree
    refine ⟨s, hpc, hfree, ?_⟩
    have hw : { w with cache := lockOrReset poisoned w.cache fun _ => [] } =
        { w with cache := lockOrReset poisoned w.cache (fun _ => []), cacheHolder := none } := by
      rw [← hfree]
    dsimp only at h
    rcases hf : find (lockOrReset poisoned w.cache fun _ => []) s with _ | m <;>
      simp only [hf, Option.some.injEq] at h
    · rcases hx : fromHex s with _ | b <;> simp only [hx, Option.some.injEq] at h <;> subst h
      · exact ⟨none, _, by rw [hw], .inr (.inl ⟨rfl, rfl, rfl, rfl⟩)⟩
      · exact ⟨some t, _, rfl, .inr (.inr ⟨b, rfl, rfl, rfl, rfl⟩)⟩
    · subst h
      exact ⟨none, _, by rw [hw], .inl ⟨m, rfl, rfl, rfl⟩⟩
  · cases h

/-- `lockBytesCache` needs `t` in `resolve_bytes` and `bytes_cache` free; it
hits, fails to decrypt, or keeps `bytes_cache` to insert. -/
lemma lockBytesCache_eq_some {poisoned : Bool} (h : w.lockBytesCache zk t poisoned = some w') :
    ∃ caller b, w.pc t = .resolveBytes caller b ∧ w.bytesCacheHolder = none ∧ ∃ holder p,
      w' = { w with bytesCache := lockOrReset poisoned w.bytesCache (fun _ => []),
                    bytesCacheHolder := holder }.setPc t p ∧
      ((∃ m, find (lockOrReset poisoned w.bytesCache fun _ => []) b = some m ∧ holder = none ∧
          p = .returnBytes caller b (some m.userId)) ∨
        (find (lockOrReset poisoned w.bytesCache fun _ => []) b = none ∧
          decryptOpaqueUserId zk b = none ∧ holder = none ∧ p = .returnBytes caller b none) ∨
        (∃ u, find (lockOrReset poisoned w.bytesCache fun _ => []) b = none ∧
          decryptOpaqueUserId zk b = some u ∧ holder = some t ∧ p = .pushBytes caller b u)) := by
  unfold World.lockBytesCache at h
  split at h
  · rename_i caller b hpc hfree
    refine ⟨caller, b, hpc, hfree, ?_⟩
    have hw : { w with bytesCache := lockOrReset poisoned w.bytesCache fun _ => [] } =
        { w with bytesCache := lockOrReset poisoned w.bytesCache (fun _ => []),
                 bytesCacheHolder := none } := by
      rw [← hfree]
    dsimp only at h
    rcases hf : find (lockOrReset poisoned w.bytesCache fun _ => []) b with _ | m <;>
      simp only [hf, Option.some.injEq] at h
    · rcases hd : decryptOpaqueUserId zk b with _ | u <;>
        simp only [hd, Option.some.injEq] at h <;> subst h
      · exact ⟨none, _, by rw [hw], .inr (.inl ⟨rfl, rfl, rfl, rfl⟩)⟩
      · exact ⟨some t, _, rfl, .inr (.inr ⟨u, rfl, rfl, rfl, rfl⟩)⟩
    · subst h
      exact ⟨none, _, by rw [hw], .inl ⟨m, rfl, rfl, rfl⟩⟩
  · cases h

lemma pushBytes_eq_some (h : w.pushBytes t = some w') :
    ∃ caller b u, w.pc t = .pushBytes caller b u ∧
      w' = { w with bytesCache := pushBackEvicting w.bytesCache ⟨b, u⟩,
                    bytesCacheHolder := none }.setPc t (.returnBytes caller b (some u)) := by
  unfold World.pushBytes at h
  split at h
  · exact ⟨_, _, _, ‹_›, (Option.some.inj h).symm⟩
  · cases h

lemma pushCache_eq_some (h : w.pushCache t = some w') :
    ∃ s, (w.pc t = .nestedReturned s none ∧
        w' = { w with cacheHolder := none }.setPc t (.done (.resolve s) none)) ∨
      ∃ u, w.pc t = .nestedReturned s (some u) ∧
        w' = { w with cache := pushBackEvicting w.cache ⟨s, u⟩,
                      cacheHolder := none }.setPc t (.done (.resolve s) (some u)) := by
  unfold World.pushCache at h
  split at h
  · exact ⟨_, .inl ⟨‹_›, (Option.some.inj h).symm⟩⟩
  · exact ⟨_, .inr ⟨_, ‹_›, (Option.some.inj h).symm⟩⟩
  · cases h

lemma finish_eq_some (h : w.finish t = some w') :
    ∃ c r, w.pc t = .done c r ∧ w' = w.setPc t .idle := by
  unfold World.finish at h
  split at h
  · exact ⟨_, _, ‹_›, (Option.some.inj h).symm⟩
  · cases h

end World

/-- Every world some interleaving of steps reaches from `World.init`. -/
inductive Reachable {C S : Type} (zk : Zkgroup C S) : World → Prop
  | init : Reachable zk World.init
  | step {w w' : World} (t : Nat) (a : Action) :
      Reachable zk w → w.step zk t a = some w' → Reachable zk w'

/-- A schedule that runs to its end reaches its last world. -/
lemma Reachable.runSchedule {C S : Type} {zk : Zkgroup C S} {w : World} (h : Reachable zk w) :
    ∀ {sched : List (Nat × Action)} {w' : World}, w.runSchedule zk sched = some w' → Reachable zk w'
  | [], _, hs => by cases hs; exact h
  | (t, a) :: sched, w', hs => by
    obtain ⟨w₁, h₁, hs⟩ := Option.bind_eq_some.mp hs
    exact (h.step t a h₁).runSchedule hs

/-- The world a schedule ends in, or the start if a step is not enabled, is reachable. -/
lemma Reachable.runSchedule_getD {C S : Type} {zk : Zkgroup C S} {w : World} (h : Reachable zk w)
    (sched : List (Nat × Action)) : Reachable zk ((w.runSchedule zk sched).getD w) := by
  cases hs : w.runSchedule zk sched with
  | none => exact h
  | some w' => exact h.runSchedule hs

end RingRtc
