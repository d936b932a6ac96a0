/-
The resolver under concurrent callers, while no caller panics: each call takes
effect at one step of its own thread, between entering and returning, and at
every moment the caches, with the insertions their lock holders have decided on
made, are those of the sequential run of the calls that took effect, in the
order they did.

* `Action.sound`: a step no panic is behind: not a panic, and no lock found
  poisoned, which only a panic of an earlier holder leaves;
* `Pc.pending`, `Pc.linearized`: the call a thread has entered and that has not
  taken effect, and the call one step of the thread makes take effect: a
  `resolve` at its scan of `cache` when it hits or the text is no hex, every
  other call at its scan of `bytes_cache`;
* `World.abstract`: the caches with the insertion each lock holder has decided
  on made;
* `World.linearize`: the calls a schedule makes take effect, in order;
* `abstract_step`, `abstract_runSchedule`: the step and run lemmas: the
  abstract caches move exactly as the sequential calls move them;
* `entered_runSchedule`: every call a schedule enters has taken effect once or
  is still pending, so none is lost or counted twice;
* `quiescent_serializable`: once every caller of a schedule without panics is
  out of its call, the calls the schedule entered, in some order and run one
  after another from the empty resolver, return the uncached results, as the
  concurrent calls do, and end in exactly the caches of the world.
-/
import RingRtc.Resolver.Invariants
import RingRtc.Resolver.Sequential
import Mathlib.Algebra.BigOperators.Group.Finset
import Mathlib.Data.Multiset.OrderedMonoid

namespace RingRtc

@[simp] lemma lockOrReset_false {α : Type} (value : α) (reset : α → α) :
    lockOrReset false value reset = value := rfl

/-! ### Steps, pending calls and linearization points -/

/-- A step no panic is behind: not a panic, and no lock found poisoned, which
only a panic of an earlier holder leaves. -/
def Action.sound : Action → Bool
  | .lockCache poisoned => !poisoned
  | .lockBytesCache poisoned => !poisoned
  | .panic => false
  | _ => true

/-- The call a step enters. -/
def Action.entered : Action → Option Call
  | .call c => some c
  | _ => none

namespace Pc

/-- The call a thread has entered and that has not taken effect yet. -/
def pending : Pc → Option Call
  | .resolve s => some (.resolve s)
  | .resolveBytes none b => some (.resolveBytes b)
  | .resolveBytes (some s) _ => some (.resolve s)
  | _ => none

/-- The call a thread moving from `p` to `p'` makes take effect: the one it had
entered, once no part of it is left before its linearization point. -/
def linearized (p p' : Pc) : Option Call :=
  match p'.pending with
  | none => p.pending
  | some _ => none

/-- The mapping a thread holding `cache` has decided to insert there. -/
def cacheInsert : Pc → Option OpaqueUserIdMapping
  | .pushBytes (some s) _ u => some ⟨s, u⟩
  | .nestedReturned s (some u) => some ⟨s, u⟩
  | _ => none

/-- The mapping a thread holding `bytes_cache` has decided to insert there. -/
def bytesInsert : Pc → Option BytesCacheMapping
  | .pushBytes _ b u => some ⟨b, u⟩
  | _ => none

/-- Whether a thread is inside a call: neither idle nor done. -/
def inCall : Pc → Bool
  | .idle | .done _ _ => false
  | _ => true

@[simp] lemma pending_start (c : Call) : (start c).pending = some c := by cases c <;> rfl

@[simp] lemma pending_idle : idle.pending = none := rfl

@[simp] lemma pending_resolve (s : String) : (resolve s).pending = some (.resolve s) := rfl

@[simp] lemma pending_pushBytes (caller : Option String) (b : Bytes) (u : UserId) :
    (pushBytes caller b u).pending = none := rfl

@[simp] lemma pending_nestedReturned (s : String) (r : Option UserId) :
    (nestedReturned s r).pending = none := rfl

@[simp] lemma pending_done (c : Call) (r : Option UserId) : (done c r).pending = none := rfl

@[simp] lemma pending_returnBytes (caller : Option String) (b : Bytes) (r : Option UserId) :
    (returnBytes caller b r).pending = none := by cases caller <;> rfl

@[simp] lemma cacheInsert_returnBytes (caller : Option String) (b : Bytes) (u : UserId) :
    (returnBytes caller b (some u)).cacheInsert = caller.map (⟨·, u⟩) := by cases caller <;> rfl

lemma pending_eq_none {p : Pc} (h : p.inCall = false) : p.pending = none := by
  cases p <;> first | rfl | cases h

lemma keys_eq_none {p : Pc} (h : p.inCall = false) : p.cacheKey = none ∧ p.bytesKey = none := by
  cases p <;> first | exact ⟨rfl, rfl⟩ | cases h

end Pc

/-! ### The abstract caches -/

/-- A cache with an insertion decided on, if any, made. -/
def withInsert {K : Type} (cache : List (Mapping K)) : Option (Mapping K) → List (Mapping K)
  | none => cache
  | some m => pushBackEvicting cache m

namespace World

/-- The caches once each lock holder has made the insertion it decided on: what
the calls that took effect have left. -/
def abstract (w : World) : CallLinkMemberResolver :=
  ⟨withInsert w.cache (w.cacheHolder.bind fun t => (w.pc t).cacheInsert),
   withInsert w.bytesCache (w.bytesCacheHolder.bind fun t => (w.pc t).bytesInsert)⟩

lemma abstract_init : init.abstract = CallLinkMemberResolver.fromRootKey := rfl

/-- The insertion a lock's holder decided on, after thread `t` moves to `p`. -/
lemma bind_update {β : Type} (f : Pc → Option β) (pc : Nat → Pc) (holder : Option Nat)
    (t : Nat) (p : Pc) :
    holder.bind (fun t' => f (Function.update pc t p t')) =
      if holder = some t then f p else holder.bind fun t' => f (pc t') := by
  split
  · subst holder
    simp
  · cases holder with
    | none => rfl
    | some t' => simp [Function.update_noteq (fun h => ‹¬_› (congrArg some h))]

lemma abstract_setPc (w : World) (t : Nat) (p : Pc) :
    (w.setPc t p).abstract =
      ⟨withInsert w.cache (if w.cacheHolder = some t then p.cacheInsert
          else w.cacheHolder.bind fun t' => (w.pc t').cacheInsert),
       withInsert w.bytesCache (if w.bytesCacheHolder = some t then p.bytesInsert
          else w.bytesCacheHolder.bind fun t' => (w.pc t').bytesInsert)⟩ := by
  simp only [abstract, setPc, bind_update]

/-- A thread holding no lock moves without changing the abstract caches. -/
lemma abstract_setPc_of_ne {w : World} {t : Nat} (p : Pc) (hc : w.cacheHolder ≠ some t)
    (hb : w.bytesCacheHolder ≠ some t) : (w.setPc t p).abstract = w.abstract := by
  rw [abstract_setPc, if_neg hc, if_neg hb]
  rfl

variable {C S : Type} (zk : Zkgroup C S)

/-- The calls a schedule makes take effect, in the order they do. -/
def linearize (w : World) : List (Nat × Action) → List Call
  | [] => []
  | (t, a) :: sched =>
    match w.step zk t a with
    | none => []
    | some w' => ((w.pc t).linearized (w'.pc t)).toList ++ w'.linearize sched

/-! ### One step -/

variable {zk} {w w' : World} {t : Nat}

lemma HolderInv.cacheHolder_ne (hi : w.HolderInv) (hk : (w.pc t).cacheKey = none) :
    w.cacheHolder ≠ some t :=
  fun h => hi.cache t h hk

lemma HolderInv.bytesCacheHolder_ne (hi : w.HolderInv) (hk : (w.pc t).bytesKey = none) :
    w.bytesCacheHolder ≠ some t :=
  fun h => hi.bytesCache t h hk

/-- With every thread out of its call, nobody holds a lock and the abstract
caches are the caches. -/
lemma HolderInv.abstract_eq (hi : w.HolderInv) (h : ∀ t, (w.pc t).inCall = false) :
    w.abstract = w.resolver := by
  have hc : w.cacheHolder = none := by
    cases hc : w.cacheHolder with
    | none => rfl
    | some t => exact absurd (hc ▸ rfl) (hi.cacheHolder_ne (Pc.keys_eq_none (h t)).1)
  have hb : w.bytesCacheHolder = none := by
    cases hb : w.bytesCacheHolder with
    | none => rfl
    | some t => exact absurd (hb ▸ rfl) (hi.bytesCacheHolder_ne (Pc.keys_eq_none (h t)).2)
  simp [abstract, resolver, hc, hb, withInsert]

end World

/-- The three invariants of every reachable world. -/
lemma Reachable.invariants {C S : Type} {zk : Zkgroup C S} {w : World} (h : Reachable zk w) :
    w.KeyInv ∧ w.CorrectInv zk ∧ w.HolderInv :=
  ⟨h.invariant World.keyInv_init fun hi hs => hi.step hs,
   h.invariant World.correctInv_init fun hi hs => hi.step hs,
   h.invariant World.holderInv_init fun hi hs => hi.step hs⟩

namespace World

variable {C S : Type} {zk : Zkgroup C S} {w w' : World} {t : Nat}

/-- Thread `t` moving `w` to `w'` moves the abstract caches as the call it makes
take effect, if any, moves them, run alone with no lock poisoned. -/
def Linearizes (zk : Zkgroup C S) (w : World) (t : Nat) (w' : World) : Prop :=
  w'.abstract = (run zk w.abstract (((w.pc t).linearized (w'.pc t)).toList.map (⟨·, Poison.none⟩))).2

/-- A thread holding no lock, and taking no call into effect, moves without
changing the abstract caches: entering a call, or taking its result. -/
lemma linearizes_of_free (hh : w.HolderInv) {p : Pc} (hk : (w.pc t).cacheKey = none ∧
    (w.pc t).bytesKey = none) (hp : (w.pc t).pending = none) : w.Linearizes zk t (w.setPc t p) := by
  rw [Linearizes, abstract_setPc_of_ne _ (hh.cacheHolder_ne hk.1) (hh.bytesCacheHolder_ne hk.2)]
  simp only [Pc.linearized, hp]
  split <;> rfl

/-- The scan of `cache` is where a `resolve` that hits, or whose text is no hex,
takes effect; a decoded text leaves the abstract caches to the nested call. -/
lemma linearizes_lockCache (hh : w.HolderInv) (hs : w.lockCache t false = some w') :
    w.Linearizes zk t w' := by
  obtain ⟨s, hpc, hfree, holder, p, rfl, hp⟩ := lockCache_eq_some hs
  have hb := hh.bytesCacheHolder_ne (t := t) (by rw [hpc]; rfl)
  rw [Linearizes, abstract_setPc]
  simp only [lockOrReset_false] at hp
  rcases hp with ⟨m, hf, rfl, rfl⟩ | ⟨hf, hx, rfl, rfl⟩ | ⟨b, hf, hx, rfl, rfl⟩
  · simp [hpc, hfree, hb, Pc.linearized, run, Call.run, abstract, withInsert, resolve, hf,
      CallLinkMemberResolver.lockCache]
  · simp [hpc, hfree, hb, Pc.linearized, run, Call.run, abstract, withInsert, resolve, hf, hx,
      CallLinkMemberResolver.lockCache]
  · simp [hpc, hfree, hb, Pc.linearized, Pc.pending, run, abstract, withInsert, Pc.cacheInsert]

/-- The scan of `bytes_cache` is where a `resolve_bytes` takes effect, and with
it the `resolve` that called it: that `resolve` holds `cache` since its own scan
missed, so run alone it misses again and calls `resolve_bytes` on the same
bytes. -/
lemma linearizes_lockBytesCache (hk : w.KeyInv) (hc : w.CorrectInv zk) (hh : w.HolderInv)
    (hs : w.lockBytesCache zk t false = some w') : w.Linearizes zk t w' := by
  obtain ⟨caller, b, hpc, hfree, holder, p, rfl, hp⟩ := lockBytesCache_eq_some hs
  rw [Linearizes, abstract_setPc]
  simp only [lockOrReset_false] at hp
  cases caller with
  | none =>
    have h1 := hh.cacheHolder_ne (t := t) (by rw [hpc]; rfl)
    rcases hp with ⟨m, hf, rfl, rfl⟩ | ⟨hf, hd, rfl, rfl⟩ | ⟨u, hf, hd, rfl, rfl⟩
    · simp [hpc, hfree, h1, Pc.linearized, Pc.pending, Pc.returnBytes, run, Call.run, abstract,
        withInsert, resolveBytes, hf, CallLinkMemberResolver.lockBytesCache]
    all_goals
      simp [hpc, hfree, h1, Pc.linearized, Pc.pending, Pc.returnBytes, run, Call.run, abstract,
        withInsert, resolveBytes, hf, hd, Pc.bytesInsert, CallLinkMemberResolver.lockBytesCache]
  | some s =>
    obtain ⟨h1, hmiss⟩ := (hk.threads t).1 s (by rw [hpc]; rfl)
    have hx : fromHex s = some b := by
      have := hc.threads t
      rw [hpc] at this
      exact this s rfl
    rcases hp with ⟨m, hf, rfl, rfl⟩ | ⟨hf, hd, rfl, rfl⟩ | ⟨u, hf, hd, rfl, rfl⟩
    · simp [hpc, hfree, h1, find_eq_none.mpr hmiss, hx, Pc.linearized, Pc.pending, Pc.returnBytes,
        run, Call.run, abstract, withInsert, resolve, resolveBytes, hf, Pc.cacheInsert,
        CallLinkMemberResolver.lockBytesCache, CallLinkMemberResolver.lockCache]
    all_goals
      simp [hpc, hfree, h1, find_eq_none.mpr hmiss, hx, Pc.linearized, Pc.pending, Pc.returnBytes,
        run, Call.run, abstract, withInsert, resolve, resolveBytes, hf, hd, Pc.bytesInsert,
        Pc.cacheInsert, CallLinkMemberResolver.lockBytesCache, CallLinkMemberResolver.lockCache]

/-- Making the insertion into `bytes_cache` changes nothing abstract: it was
already counted when decided on. -/
lemma linearizes_pushBytes (hk : w.KeyInv) (hh : w.HolderInv) (hs : w.pushBytes t = some w') :
    w.Linearizes zk t w' := by
  obtain ⟨caller, b, u, hpc, rfl⟩ := pushBytes_eq_some hs
  obtain ⟨hheld, -⟩ := (hk.threads t).2 b (by rw [hpc]; rfl)
  rw [Linearizes, abstract_setPc]
  cases caller with
  | none =>
    have h1 := hh.cacheHolder_ne (t := t) (by rw [hpc]; rfl)
    simp [hpc, hheld, h1, Pc.linearized, run, abstract, withInsert, Pc.bytesInsert]
  | some s =>
    obtain ⟨h1, -⟩ := (hk.threads t).1 s (by rw [hpc]; rfl)
    simp [hpc, hheld, h1, Pc.linearized, Pc.returnBytes, run, abstract, withInsert,
      Pc.bytesInsert, Pc.cacheInsert]

/-- Likewise the insertion into `cache`. -/
lemma linearizes_pushCache (hk : w.KeyInv) (hh : w.HolderInv) (hs : w.pushCache t = some w') :
    w.Linearizes zk t w' := by
  obtain ⟨s, ⟨hpc, rfl⟩ | ⟨u, hpc, rfl⟩⟩ := pushCache_eq_some hs <;>
  obtain ⟨h1, -⟩ := (hk.threads t).1 s (by rw [hpc]; rfl) <;>
  have h2 := hh.bytesCacheHolder_ne (t := t) (by rw [hpc]; rfl) <;>
  rw [Linearizes, abstract_setPc] <;>
  simp [hpc, h1, h2, Pc.linearized, run, abstract, withInsert, Pc.cacheInsert]

/-- **One step**: a sound step moves the abstract caches exactly as the call it
makes take effect, run alone with no lock poisoned, moves them, and otherwise
leaves them. -/
theorem abstract_step (h : Reachable zk w) {a : Action} (ha : a.sound = true)
    (hs : w.step zk t a = some w') :
    w'.abstract = (run zk w.abstract
      (((w.pc t).linearized (w'.pc t)).toList.map (⟨·, Poison.none⟩))).2 := by
  obtain ⟨hk, hc, hh⟩ := h.invariants
  cases a with
  | call c =>
    obtain ⟨hpc, rfl⟩ := call_eq_some hs
    exact linearizes_of_free hh (by rw [hpc]; exact ⟨rfl, rfl⟩) (by rw [hpc]; rfl)
  | lockCache poisoned =>
    obtain rfl : poisoned = false := by simpa [Action.sound] using ha
    exact linearizes_lockCache hh hs
  | lockBytesCache poisoned =>
    obtain rfl : poisoned = false := by simpa [Action.sound] using ha
    exact linearizes_lockBytesCache hk hc hh hs
  | pushBytes => exact linearizes_pushBytes hk hh hs
  | pushCache => exact linearizes_pushCache hk hh hs
  | finish =>
    obtain ⟨c, r, hpc, rfl⟩ := finish_eq_some hs
    exact linearizes_of_free hh (by rw [hpc]; exact ⟨rfl, rfl⟩) (by rw [hpc]; rfl)
  | panic => cases ha

/-! ### Whole runs -/

lemma run_append (r : CallLinkMemberResolver) (qs₁ qs₂ : List Request) :
    (run zk r (qs₁ ++ qs₂)).2 = (run zk (run zk r qs₁).2 qs₂).2 := by
  induction qs₁ generalizing r with
  | nil => rfl
  | cons q qs ih => exact ih _

lemma linearize_cons {a : Action} (sched : List (Nat × Action)) (hs : w.step zk t a = some w') :
    w.linearize zk ((t, a) :: sched) =
      ((w.pc t).linearized (w'.pc t)).toList ++ w'.linearize zk sched := by
  simp [linearize, hs]

/-- **Every sound run**: along a schedule of sound steps from a reachable world,
the abstract caches go where the sequential run of the calls it linearizes,
none finding a lock poisoned, takes them. -/
theorem abstract_runSchedule :
    ∀ {w w' : World} {sched : List (Nat × Action)}, Reachable zk w →
      (∀ e ∈ sched, e.2.sound = true) → w.runSchedule zk sched = some w' →
      w'.abstract = (run zk w.abstract ((w.linearize zk sched).map (⟨·, Poison.none⟩))).2
  | _, _, [], _, _, hs => by cases hs; rfl
  | w, w', (t, a) :: sched, h, hsound, hs => by
    obtain ⟨w₁, h₁, hs⟩ := Option.bind_eq_some.mp hs
    rw [abstract_runSchedule (h.step t a h₁) (fun e he => hsound e (List.mem_cons_of_mem _ he)) hs,
      abstract_step h (hsound _ (List.mem_cons_self _ _)) h₁, linearize_cons sched h₁, List.map_append,
      run_append]

/-! ### No call lost or counted twice -/

/-- A step changes the point of its own thread only. -/
lemma step_pc_ne {a : Action} (hs : w.step zk t a = some w') {t' : Nat} (ht : t' ≠ t) :
    w'.pc t' = w.pc t' := by
  cases a with
  | call c =>
    obtain ⟨-, rfl⟩ := call_eq_some hs
    exact setPc_pc_ne _ _ ht
  | lockCache poisoned =>
    obtain ⟨_, -, -, _, _, rfl, -⟩ := lockCache_eq_some hs
    exact setPc_pc_ne _ _ ht
  | lockBytesCache poisoned =>
    obtain ⟨_, _, -, -, _, _, rfl, -⟩ := lockBytesCache_eq_some hs
    exact setPc_pc_ne _ _ ht
  | pushBytes =>
    obtain ⟨_, _, _, -, rfl⟩ := pushBytes_eq_some hs
    exact setPc_pc_ne _ _ ht
  | pushCache =>
    obtain ⟨_, ⟨-, rfl⟩ | ⟨_, -, rfl⟩⟩ := pushCache_eq_some hs <;> exact setPc_pc_ne _ _ ht
  | finish =>
    obtain ⟨_, _, -, rfl⟩ := finish_eq_some hs
    exact setPc_pc_ne _ _ ht
  | panic =>
    cases hs
    exact setPc_pc_ne _ _ ht

/-- A run leaves the point of every thread it does not schedule. -/
lemma runSchedule_pc_of_not_mem {t' : Nat} :
    ∀ {w w' : World} {sched : List (Nat × Action)}, w.runSchedule zk sched = some w' →
      (∀ e ∈ sched, e.1 ≠ t') → w'.pc t' = w.pc t'
  | _, _, [], hs, _ => by cases hs; rfl
  | _, _, (t, a) :: sched, hs, ht => by
    obtain ⟨w₁, h₁, hs⟩ := Option.bind_eq_some.mp hs
    rw [runSchedule_pc_of_not_mem hs fun e he => ht e (List.mem_cons_of_mem _ he),
      step_pc_ne h₁ (ht _ (List.mem_cons_self _ _)).symm]

/-- **One step of one thread**: the call it enters, if any, and the call it had
pending are the call it makes take effect, if any, and the call it has pending
after. -/
lemma entered_step {a : Action} (hs : w.step zk t a = some w') :
    (a.entered.toList : Multiset Call) + (w.pc t).pending.toList =
      ((w.pc t).linearized (w'.pc t)).toList + (w'.pc t).pending.toList := by
  cases a with
  | call c =>
    obtain ⟨hpc, rfl⟩ := call_eq_some hs
    simp [hpc, Action.entered, Pc.linearized]
  | lockCache poisoned =>
    obtain ⟨s, hpc, -, holder, p, rfl, hp⟩ := lockCache_eq_some hs
    rcases hp with ⟨-, -, -, rfl⟩ | ⟨-, -, -, rfl⟩ | ⟨b, -, -, -, rfl⟩ <;>
      simp [hpc, Action.entered, Pc.linearized, Pc.pending]
  | lockBytesCache poisoned =>
    obtain ⟨caller, b, hpc, -, holder, p, rfl, hp⟩ := lockBytesCache_eq_some hs
    rcases hp with ⟨-, -, -, rfl⟩ | ⟨-, -, -, rfl⟩ | ⟨u, -, -, -, rfl⟩ <;>
      simp [hpc, Action.entered, Pc.linearized]
  | pushBytes =>
    obtain ⟨caller, b, u, hpc, rfl⟩ := pushBytes_eq_some hs
    simp [hpc, Action.entered, Pc.linearized]
  | pushCache =>
    obtain ⟨s, ⟨hpc, rfl⟩ | ⟨u, hpc, rfl⟩⟩ := pushCache_eq_some hs <;>
      simp [hpc, Action.entered, Pc.linearized]
  | finish =>
    obtain ⟨c, r, hpc, rfl⟩ := finish_eq_some hs
    simp [hpc, Action.entered, Pc.linearized]
  | panic =>
    cases hs
    simp [panic, Action.entered, Pc.linearized]

lemma filterMap_cons_toList {α β : Type} (f : α → Option β) (x : α) (l : List α) :
    (x :: l).filterMap f = (f x).toList ++ l.filterMap f := by
  cases h : f x <;> simp [List.filterMap_cons, h]

/-- **No call lost or counted twice**: over a run whose threads are among `T`,
the calls entered, with the calls pending at the start, are the calls
linearized, with the calls pending at the end. -/
theorem entered_runSchedule {T : Finset Nat} :
    ∀ {w w' : World} {sched : List (Nat × Action)}, (∀ e ∈ sched, e.1 ∈ T) →
      w.runSchedule zk sched = some w' →
      ((sched.filterMap (·.2.entered) : List Call) : Multiset Call) +
          ∑ t ∈ T, ((w.pc t).pending.toList : Multiset Call) =
        (w.linearize zk sched : Multiset Call) + ∑ t ∈ T, ((w'.pc t).pending.toList : Multiset Call)
  | w, w', [], _, hs => by cases hs; simp [linearize]
  | w, w', (t, a) :: sched, hT, hs => by
    obtain ⟨w₁, h₁, hs⟩ := Option.bind_eq_some.mp hs
    have ht : t ∈ T := hT _ (List.mem_cons_self _ _)
    have hrest : ∀ w'' : World, (∀ t' ∈ T.erase t, w''.pc t' = w.pc t') →
        ∑ t' ∈ T, ((w''.pc t').pending.toList : Multiset Call) =
          (w''.pc t).pending.toList + ∑ t' ∈ T.erase t, ((w.pc t').pending.toList : Multiset Call) :=
      fun w'' hw'' => by
        rw [← Finset.add_sum_erase T _ ht, Finset.sum_congr rfl fun t' ht' => by rw [hw'' t' ht']]
    have hstep : (a.entered.toList : Multiset Call) + ∑ t' ∈ T, ((w.pc t').pending.toList : Multiset Call) =
        ((w.pc t).linearized (w₁.pc t)).toList + ∑ t' ∈ T, ((w₁.pc t').pending.toList : Multiset Call) := by
      rw [hrest w fun _ _ => rfl, hrest w₁ fun t' ht' => step_pc_ne h₁ (Finset.ne_of_mem_erase ht'),
        ← add_assoc, entered_step h₁, add_assoc]
    have ih := entered_runSchedule (fun e he => hT e (List.mem_cons_of_mem _ he)) hs
    calc (((t, a) :: sched).filterMap (·.2.entered) : Multiset Call) +
            ∑ t' ∈ T, ((w.pc t').pending.toList : Multiset Call)
        = (sched.filterMap (·.2.entered) : Multiset Call) +
            ((a.entered.toList : Multiset Call) + ∑ t' ∈ T, ((w.pc t').pending.toList : Multiset Call)) := by
          rw [filterMap_cons_toList, ← Multiset.coe_add, add_left_comm, add_assoc]
      _ = ((w.pc t).linearized (w₁.pc t)).toList +
            ((sched.filterMap (·.2.entered) : Multiset Call) +
              ∑ t' ∈ T, ((w₁.pc t').pending.toList : Multiset Call)) := by
          rw [hstep, add_left_comm]
      _ = (w.linearize zk ((t, a) :: sched) : Multiset Call) +
            ∑ t' ∈ T, ((w'.pc t').pending.toList : Multiset Call) := by
          rw [ih, linearize_cons sched h₁, ← Multiset.coe_add, add_assoc]

end World

/-! ### Serializability -/

/-- **Concurrent calls are serializable.** Take any schedule of `resolve` and
`resolve_bytes` callers with no panic, run from the empty caches of
`From<&CallLinkRootKey>`, after which each of its threads is out of its call.
Then the calls the schedule entered, in some order, run one after another by
the sequential resolver with no lock poisoned, return the uncached pipeline's
results, which every concurrent call returns too (`reachable_returns_uncached`),
and end in exactly the two caches of the world: no insertion is lost or made
twice. -/
theorem quiescent_serializable {C S : Type} {zk : Zkgroup C S} {sched : List (Nat × Action)}
    {w : World} (hs : World.init.runSchedule zk sched = some w)
    (hsound : ∀ e ∈ sched, e.2.sound = true) (hquiet : ∀ e ∈ sched, (w.pc e.1).inCall = false) :
    ∃ calls : List Call, calls.Perm (sched.filterMap (·.2.entered)) ∧
      run zk CallLinkMemberResolver.fromRootKey (calls.map (⟨·, Poison.none⟩)) =
        (calls.map (·.uncached zk), w.resolver) := by
  have hout : ∀ t, (w.pc t).inCall = false := fun t => by
    by_cases ht : ∃ e ∈ sched, e.1 = t
    · obtain ⟨e, he, rfl⟩ := ht
      exact hquiet e he
    · rw [World.runSchedule_pc_of_not_mem hs fun e he h => ht ⟨e, he, h⟩]
      rfl
  refine ⟨World.init.linearize zk sched, ?_, ?_⟩
  · have hcount := World.entered_runSchedule (T := (sched.map Prod.fst).toFinset)
      (fun e he => List.mem_toFinset.mpr (List.mem_map_of_mem _ he)) hs
    have hnone : ∀ w' : World, (∀ t, (w'.pc t).inCall = false) →
        ∑ t ∈ (sched.map Prod.fst).toFinset, ((w'.pc t).pending.toList : Multiset Call) = 0 :=
      fun w' h' => Finset.sum_eq_zero fun t _ => by rw [Pc.pending_eq_none (h' t)]; rfl
    rw [hnone World.init fun _ => rfl, hnone w hout, add_zero, add_zero] at hcount
    exact (Multiset.coe_eq_coe.mp hcount).symm
  · have hr := World.abstract_runSchedule Reachable.init hsound hs
    rw [World.abstract_init, (Reachable.init.runSchedule hs).invariants.2.2.abstract_eq hout] at hr
    refine Prod.ext ?_ hr.symm
    rw [(run_transparent transparent_fromRootKey _).1, List.map_map]
    rfl

/-- Thread `0` resolves the text `"01"` and, while it holds `cache`, thread `1`
resolves the ciphertext `[1]` and inserts it; thread `0`'s nested
`resolve_bytes` then hits. Both callers take their results. -/
theorem two_callers_serializable :
    let zk : Zkgroup Bytes Bytes := ⟨some, some, id⟩
    let sched : List (Nat × Action) :=
      [(0, .call (.resolve "01")), (1, .call (.resolveBytes [1])), (0, .lockCache false),
       (1, .lockBytesCache false), (1, .pushBytes), (0, .lockBytesCache false), (0, .pushCache),
       (0, .finish), (1, .finish)]
    let w := (World.init.runSchedule zk sched).getD World.init
    w.resolver = ⟨[⟨"01", [1]⟩], [⟨[1], [1]⟩]⟩ ∧ World.init.runSchedule zk sched = some w ∧
      (∀ e ∈ sched, e.2.sound = true) ∧ (∀ e ∈ sched, (w.pc e.1).inCall = false) ∧
      ∃ calls : List Call, calls.Perm (sched.filterMap (·.2.entered)) ∧
        run zk CallLinkMemberResolver.fromRootKey (calls.map (⟨·, Poison.none⟩)) =
          (calls.map (·.uncached zk), w.resolver) :=
  ⟨rfl, rfl, by decide, by decide, quiescent_serializable rfl (by decide) (by decide)⟩

end RingRtc
