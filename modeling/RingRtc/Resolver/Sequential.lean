/-
The sequential resolver of `Runs` inside the concurrent one of `Interleaving`.
A thread that runs a call alone, with both locks free, moves the world exactly
as the sequential `resolve` or `resolve_bytes` moves the resolver.

* `World.resolver`, `World.withResolver`: the caches of a world as the
  resolver record, and back;
* `solo_resolveBytes`, `solo_call`: a call run alone ends with the sequential
  call's result and caches, and nothing else changed;
* `reachable_run`: every resolver a sequential run reaches is the caches of a
  reachable world.
-/
import RingRtc.Resolver.Interleaving

namespace RingRtc

namespace World

/-- The caches of a world, as the resolver record. -/
def resolver (w : World) : CallLinkMemberResolver := ⟨w.cache, w.bytesCache⟩

/-- The world with the caches of `r`. -/
def withResolver (w : World) (r : CallLinkMemberResolver) : World :=
  { w with cache := r.cache, bytesCache := r.bytesCache }

@[simp] lemma resolver_setPc (w : World) (t : Nat) (p : Pc) :
    (w.setPc t p).resolver = w.resolver := rfl

@[simp] lemma withResolver_setPc (w : World) (r : CallLinkMemberResolver) (t : Nat) (p : Pc) :
    (w.setPc t p).withResolver r = (w.withResolver r).setPc t p := rfl

variable {C S : Type} (zk : Zkgroup C S)

/-- **`resolve_bytes` alone is the sequential one**: from `resolveBytes caller
b` with `bytes_cache` free, thread `t` reaches, by its own steps, the
sequential call's caches and result. -/
theorem solo_resolveBytes {w : World} {t : Nat} {caller : Option String} {b : Bytes}
    (poisoned : Bool) (hpc : w.pc t = .resolveBytes caller b) (hb : w.bytesCacheHolder = none) :
    ∃ sched : List Action, w.runSchedule zk (sched.map (t, ·)) =
      some ((w.withResolver (resolveBytes zk poisoned w.resolver b).2).setPc t
        (.returnBytes caller b (resolveBytes zk poisoned w.resolver b).1)) := by
  obtain ⟨cache, bytesCache, ch, bh, pc⟩ := w
  dsimp only at hpc hb
  subst hb
  rcases resolveBytes_cases zk poisoned ⟨cache, bytesCache⟩ b with
    ⟨m, hf, he⟩ | ⟨hf, hu, he⟩ | ⟨u, hf, hu, he⟩ <;>
    simp only [CallLinkMemberResolver.lockBytesCache] at hf <;>
    simp only [resolver, he]
  · exact ⟨[.lockBytesCache poisoned], by
      simp [step, World.lockBytesCache, hpc, hf, withResolver, CallLinkMemberResolver.lockBytesCache]⟩
  · exact ⟨[.lockBytesCache poisoned], by
      simp [step, World.lockBytesCache, hpc, hf, decryptOpaqueUserId_eq, hu, withResolver,
        CallLinkMemberResolver.lockBytesCache]⟩
  · exact ⟨[.lockBytesCache poisoned, .pushBytes], by
      simp [step, World.lockBytesCache, hpc, hf, decryptOpaqueUserId_eq, hu, World.pushBytes, setPc,
        withResolver, CallLinkMemberResolver.lockBytesCache]⟩

/-- The schedule of a call run alone. -/
lemma runSchedule_solo {w : World} {t : Nat} (c : Call) (poison : Poison) (hidle : w.pc t = .idle)
    (hc : w.cacheHolder = none) (hb : w.bytesCacheHolder = none) :
    ∃ sched : List Action, w.runSchedule zk ((t, .call c) :: sched.map (t, ·)) =
      some ((w.withResolver (c.run zk poison w.resolver).2).setPc t
        (.done c (c.run zk poison w.resolver).1)) := by
  have hcall : w.step zk t (.call c) = some (w.setPc t (.start c)) := by
    simp [step, World.call, hidle]
  simp only [runSchedule_cons, hcall, Option.some_bind]
  cases c with
  | resolveBytes b =>
    obtain ⟨sched, hs⟩ := solo_resolveBytes zk poison.bytesCache (setPc_pc_self _ _ _) hb
    refine ⟨sched, hs.trans ?_⟩
    simp only [resolver_setPc, withResolver_setPc, setPc_setPc]
    rfl
  | resolve s =>
    obtain ⟨cache, bytesCache, ch, bh, pc⟩ := w
    dsimp only at hc hb
    subst hc hb
    rcases resolve_cases zk poison ⟨cache, bytesCache⟩ s with
      ⟨m, hf, he⟩ | ⟨hf, hx, he⟩ | ⟨b, hf, hx, hr, he⟩ | ⟨b, u, hf, hx, hr, he⟩ <;>
      simp only [CallLinkMemberResolver.lockCache] at hf <;>
      simp only [Call.run, resolver, he]
    · exact ⟨[.lockCache poison.cache], by
        simp [step, World.lockCache, Pc.start, hf, setPc, withResolver, CallLinkMemberResolver.lockCache]⟩
    · exact ⟨[.lockCache poison.cache], by
        simp [step, World.lockCache, Pc.start, hf, hx, setPc, withResolver,
          CallLinkMemberResolver.lockCache]⟩
    all_goals
      obtain ⟨sched, hs⟩ := solo_resolveBytes zk poison.bytesCache
        (w := (⟨lockOrReset poison.cache cache fun _ => [], bytesCache, some t, none,
          Function.update pc t (.resolve s)⟩ : World).setPc t (.resolveBytes (some s) b))
        (setPc_pc_self _ _ _) rfl
      refine ⟨.lockCache poison.cache :: sched ++ [.pushCache], ?_⟩
      rw [List.map_append, List.map_cons, runSchedule_append, runSchedule_cons]
      simp only [step, World.lockCache, setPc_pc_self, Pc.start, setPc_cacheHolder, setPc_cache, hf, hx,
        Option.some_bind]
      refine (congrArg (fun o => Option.bind o _) hs).trans ?_
      simp only [resolver_setPc, resolver, CallLinkMemberResolver.lockCache] at hr ⊢
      simp [step, World.pushCache, Pc.returnBytes, hr, setPc, withResolver]


/-- **A call run alone is the sequential call**: from a world where thread `t`
is idle and both locks are free, `t` runs `c` by its own steps, its lock steps
finding the flags of `poison`, to the world with the sequential call's caches,
`t` done with the sequential result, and everything else as it was. -/
theorem solo_call {w : World} {t : Nat} (c : Call) (poison : Poison) (hidle : w.pc t = .idle)
    (hc : w.cacheHolder = none) (hb : w.bytesCacheHolder = none) :
    ∃ sched : List Action, w.runSchedule zk ((t, .call c) :: sched.map (t, ·)) =
      some ((w.withResolver (c.run zk poison w.resolver).2).setPc t
        (.done c (c.run zk poison w.resolver).1)) :=
  runSchedule_solo zk c poison hidle hc hb

/-- Thread `0` of a fresh resolver resolves the text `"01"` alone, through both
caches. -/
theorem solo_resolve_from_init :
    let zk : Zkgroup Bytes Bytes := ⟨some, some, id⟩
    (Call.resolve "01").run zk Poison.none init.resolver = (some [1], ⟨[⟨"01", [1]⟩], [⟨[1], [1]⟩]⟩) ∧
      init.pc 0 = .idle ∧ init.cacheHolder = none ∧ init.bytesCacheHolder = none ∧
      ∃ sched : List Action, init.runSchedule zk ((0, .call (.resolve "01")) :: sched.map (0, ·)) =
        some ((init.withResolver ((Call.resolve "01").run zk Poison.none init.resolver).2).setPc 0
          (.done (.resolve "01") ((Call.resolve "01").run zk Poison.none init.resolver).1)) :=
  ⟨rfl, rfl, rfl, rfl, solo_call _ _ _ rfl rfl rfl⟩

end World

/-- From a world with no call in progress and the caches of `r`, the sequential
run of `qs`, each call run alone by thread `0` and taken by its caller, reaches
the world with the run's caches. -/
lemma Reachable.run {C S : Type} {zk : Zkgroup C S} {r : CallLinkMemberResolver}
    (h : Reachable zk (World.init.withResolver r)) :
    ∀ qs : List Request, Reachable zk (World.init.withResolver (run zk r qs).2)
  | [] => h
  | q :: qs => by
    obtain ⟨sched, hs⟩ := World.runSchedule_solo zk (w := World.init.withResolver r) (t := 0)
      q.call q.poison rfl rfl rfl
    have hfin : (((World.init.withResolver r).withResolver (q.call.run zk q.poison r).2).setPc 0
        (.done q.call (q.call.run zk q.poison r).1)).step zk 0 .finish =
          some (World.init.withResolver (q.call.run zk q.poison r).2) := by
      simp only [World.step, World.finish, World.setPc_pc_self, World.setPc_setPc]
      simp only [World.setPc, World.withResolver, World.init, Function.update_eq_self]
    exact Reachable.run ((h.runSchedule hs).step 0 .finish hfin) qs

/-- **Every state of the sequential model is reachable**: the resolver that a
sequential run reaches from `From<&CallLinkRootKey>` is the caches of a world
some interleaving reaches with no call in progress, so every invariant of the
concurrent resolver holds of sequential runs too. -/
theorem reachable_run {C S : Type} (zk : Zkgroup C S) (qs : List Request) :
    Reachable zk (World.init.withResolver (run zk CallLinkMemberResolver.fromRootKey qs).2) :=
  Reachable.run (r := CallLinkMemberResolver.fromRootKey) Reachable.init qs

end RingRtc
