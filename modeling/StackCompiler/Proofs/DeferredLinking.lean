/-
Deferred linking: calls that are left unlinked and linked at the end are linked
as if at once.
-/
import StackCompiler.Proofs.Linking
import StackCompiler.Session

namespace StackCompiler

open List CodeCache Convention Allocation

namespace CodeCache
variable {c : CacheConfig} {s p : CodeCache}

/-! ## The order of linking -/

theorem flatMap_filter_perm : ∀ {keys : List MethodKey} {sites : List CallSite}, keys.Nodup →
    (∀ site ∈ sites, site.callee ∈ keys) → (keys.flatMap fun key => sites.filter (·.callee = key)).Perm sites
  | [], sites, _, hc => by
    have hni : sites = [] :=
      eq_nil_iff_forall_not_mem.mpr fun site h => absurd (hc site h) not_mem_nil
    rw [hni]
    rfl
  | key :: keys, sites, hn, hc => by
    rw [nodup_cons] at hn
    have hr : (keys.flatMap fun k =>
        (sites.filter fun site => !decide (site.callee = key)).filter (·.callee = k)) =
          keys.flatMap fun k => sites.filter (·.callee = k) := by
      refine flatMap_congr fun k hk => ?_
      rw [filter_filter]
      refine filter_congr fun site _ => ?_
      by_cases hs : site.callee = k
      · have hne : site.callee ≠ key := fun h => hn.1 (h ▸ hs ▸ hk)
        simp [hs, hs ▸ hne]
      · simp [hs]
    have hp := @flatMap_filter_perm keys (sites.filter fun site => !decide (site.callee = key)) hn.2 (by
      intro site hs
      rw [mem_filter] at hs
      have hne : site.callee ≠ key := by simpa using hs.2
      exact (mem_cons.mp (hc site hs.1)).resolve_left hne)
    rw [hr] at hp
    rw [flatMap_cons]
    exact (hp.append_left _).trans (filter_append_perm _ _)

theorem length_linkCalls (sites : List CallSite) : (s.linkCalls sites).length +
    (sites.filter fun site => (s.newest? site.callee).isNone).length = sites.length := by
  induction sites with
  | nil => rfl
  | cons site sites ih =>
    cases hn : s.newest? site.callee with
    | none =>
      rw [linkCalls, filterMap_cons_none (by rw [hn]; rfl), filter_cons_of_pos (by rw [hn]; rfl),
        length_cons, length_cons, ← ih, linkCalls]
      omega
    | some m =>
      rw [linkCalls, filterMap_cons_some (by rw [hn]; rfl), filter_cons_of_neg (by simp [hn]),
        length_cons, length_cons, ← ih, linkCalls]
      omega

theorem recorded_deferred (p : CodeCache) :
    p.deferred.recorded = p.linked.overlaid (.bare p.window.toExtent p.installed) fun _ => none := by
  rw [recorded_eq]
  rfl

/-- Linking all calls at the end gives the linked form, in any order. -/
theorem linkIn_deferred (hp : p.Arranged c) {keys} (hk : keys.Perm p.deferred.recorded.calledKeys) :
    p.deferred.recorded.linkIn 0 keys = (.ok (p.linked.linkCalls p.linked.callSites).length, p.linked) := by
  have hl := hp.linked.linkable rfl
  have hn : keys.Nodup := hk.nodup_iff.mpr (nodup_eraseDups _)
  have hs : (keys.flatMap p.linked.callersOf).Perm p.linked.callSites := by
    refine flatMap_filter_perm hn fun site hsi => hk.mem_iff.mpr ?_
    rw [recorded_deferred, calledKeys, mem_eraseDups]
    exact mem_map_of_mem hsi
  have hc : (p.linked.linkCalls (keys.flatMap p.linked.callersOf)).Perm (p.linked.linkCalls p.linked.callSites) :=
    hs.filterMap _
  have hw : patched (fun _ => none) (p.linked.linkCalls (keys.flatMap p.linked.callersOf)) =
      p.linked.linkWord := by
    refine hl.patched_linkCalls (fun site hsi => hs.mem_iff.mp hsi) fun x hx => (linkWord_eq_none ?_).symm
    rwa [(hc.map _).mem_iff] at hx
  rw [recorded_deferred, hl.linkIn_eq (w := Window.bare p.window.toExtent p.installed) ?_, hw, hc.length_eq,
    Nat.zero_add]
  · rfl
  · rfl

theorem linkAll_deferred (hp : p.Arranged c) :
    p.deferred.linkAll = (.ok (p.linked.linkCalls p.linked.callSites).length, p.linked) :=
  linkIn_deferred hp (List.Perm.refl _)

end CodeCache

/-! ## Sessions -/

/-- A configuration with or without deferred linking. -/
def Config.withBootImage (config : Config) (bootImage : Bool) : Config :=
  { config with compiler := { config.compiler with bootImage } }

namespace Session
variable {config : Config} {host : Host} {s : Session} {p : CodeCache}

theorem create_eq_ok (h : create config host = .ok s) :
    config.validate = .ok () ∧ CodeCache.create config.cache host = .ok s.cache ∧ s.config = config := by
  unfold create at h
  split at h
  next => cases h
  next hv =>
    split at h
    next => cases h
    next cache hc =>
      cases h
      exact ⟨hv, hc, rfl⟩

theorem create_of_valid {cache} (hv : config.validate = .ok ())
    (hc : CodeCache.create config.cache host = .ok cache) : create config host = .ok ⟨config, cache⟩ := by
  unfold create
  rw [hv]
  simp only [hc]

theorem compile_of_linear {provider m order code} (hc : linear s.config.compiler.optimizer provider m order = .ok code)
    {result cache}
    (hg : s.cache.generate code (ofMethod allocatable code)
      (!s.config.compiler.bootImage) = (result, cache)) :
    s.compile provider m order = (result.mapError .ofCodegen, { s with cache }) := by
  unfold compile
  rw [hc]
  simp only
  rw [hg]
  cases result <;> rfl

theorem compile_of_rejected {provider m order e} (hc : linear s.config.compiler.optimizer provider m order = .error e) :
    s.compile provider m order = (.error (.bytecode e), s) := by
  unfold compile
  rw [hc]

section
variable {program : Program} {t : Session} {results : List (Except CompileError CompiledMethod)}
  (hrun : compileEach program.find? program.methods s = (results, t))
include hrun

theorem compileAll_direct (hmo : t.config.compiler.bootImage = false) :
    s.compileAll program = (collect results, t) := by
  unfold compileAll
  rw [hrun]
  simp only
  split
  next e he => rw [he]
  next methods hm => rw [hmo, if_neg (by decide), hm]

theorem compileAll_deferred (hmo : t.config.compiler.bootImage = true) {n cache}
    (hl : t.cache.linkAll = (.ok n, cache)) : (s.compileAll program).1 = collect results ∧
      ((collect results).isOk = true → (s.compileAll program).2.cache = cache) := by
  unfold compileAll
  rw [hrun]
  simp only
  split
  next e he =>
    rw [he]
    exact ⟨rfl, fun hok => by cases hok⟩
  next methods hm =>
    rw [hmo, if_pos rfl, hl, hm]
    exact ⟨rfl, fun _ => rfl⟩

end

section
variable (hboot : 4 ∣ config.cache.bootRegionSize) (hregion : 4 ∣ config.cache.regionSize)
include hboot hregion

/-- One method, compiled with linking at once and with linking deferred. -/
theorem compile_forms (hp : p.Arranged config.cache) (provider : MethodProvider) (m : Method) :
    ∃ result, ∃ q : CodeCache, q.Arranged config.cache ∧
      compile ⟨config.withBootImage false, p.linked⟩ provider m =
        (result, ⟨config.withBootImage false, q.linked⟩) ∧
      compile ⟨config.withBootImage true, p.deferred⟩ provider m =
        (result, ⟨config.withBootImage true, q.deferred⟩) := by
  cases hc : linear config.compiler.optimizer provider m with
  | error e =>
    exact ⟨_, p, hp, @compile_of_rejected ⟨config.withBootImage false, p.linked⟩ _ _ _ _ hc,
      @compile_of_rejected ⟨config.withBootImage true, p.deferred⟩ _ _ _ _ hc⟩
  | ok code =>
    have hn := hp.accept hboot hregion code (ofMethod allocatable code)
    have hl := generate_linked hboot hregion hp code (ofMethod allocatable code)
    have hd := generate_deferred hp code (ofMethod allocatable code)
    exact ⟨_, _, hn, @compile_of_linear ⟨config.withBootImage false, p.linked⟩ _ _ _ _ hc _ _ hl,
      @compile_of_linear ⟨config.withBootImage true, p.deferred⟩ _ _ _ _ hc _ _ hd⟩

/-- A session that defers linking has the deferred form of the same arrangement. -/
theorem compileEach_forms (provider : MethodProvider) : ∀ (methods : List Method) {p : CodeCache},
    p.Arranged config.cache → ∃ results, ∃ q : CodeCache, q.Arranged config.cache ∧
      compileEach provider methods ⟨config.withBootImage false, p.linked⟩ =
        (results, ⟨config.withBootImage false, q.linked⟩) ∧
      compileEach provider methods ⟨config.withBootImage true, p.deferred⟩ =
        (results, ⟨config.withBootImage true, q.deferred⟩)
  | [], p, hp => ⟨[], p, hp, rfl, rfl⟩
  | m :: methods, p, hp => by
    obtain ⟨result, q, hq, hl, hd⟩ := compile_forms hboot hregion hp provider m
    obtain ⟨results, r, hr, hl', hd'⟩ := compileEach_forms provider methods hq
    refine ⟨result :: results, r, hr, ?_, ?_⟩
    · simp only [compileEach, hl, hl']
    · simp only [compileEach, hd, hd']

/-- Compiling without linking and then linking all calls gives the same results and the same cache
as linking at once. The number of calls that are linked and the cache do not depend on the order of
the called methods. -/
theorem deferred_linking_agrees {direct : Session} (h : create (config.withBootImage false) host = .ok direct) :
    ∃ deferred, create (config.withBootImage true) host = .ok deferred ∧
    (∀ provider methods, ∃ results linked waiting n, compileEach provider methods direct = (results, linked) ∧
      compileEach provider methods deferred = (results, waiting) ∧
      waiting.cache.linkAll = (.ok n, linked.cache) ∧
      n + linked.cache.pendingCallSites = linked.cache.callSites.length ∧
      ∀ keys : List MethodKey, keys.Perm waiting.cache.recorded.calledKeys →
        waiting.cache.recorded.linkIn 0 keys = (.ok n, linked.cache)) ∧
    ∀ program, (deferred.compileAll program).1 = (direct.compileAll program).1 ∧
      ((direct.compileAll program).1.isOk = true →
        (deferred.compileAll program).2.cache = (direct.compileAll program).2.cache) := by
  obtain ⟨hv, hc, hco⟩ := create_eq_ok h
  obtain ⟨ha, hl, hde⟩ := CodeCache.Arranged.create hc
  have hd : direct = ⟨config.withBootImage false, direct.cache.linked⟩ := by
    rw [hl, ← hco]
  refine ⟨⟨config.withBootImage true, direct.cache.deferred⟩, ?_, ?_, ?_⟩
  · rw [hde]
    exact create_of_valid hv hc
  · intro provider methods
    obtain ⟨results, q, hq, hr, hr'⟩ := compileEach_forms hboot hregion provider methods ha
    rw [← hd] at hr
    exact ⟨results, _, _, _, hr, hr', linkAll_deferred hq, length_linkCalls _,
      fun keys hk => linkIn_deferred hq hk⟩
  · intro program
    obtain ⟨results, q, hq, hr, hr'⟩ := compileEach_forms hboot hregion program.find? program.methods ha
    rw [← hd] at hr
    rw [compileAll_direct hr rfl]
    exact compileAll_deferred hr' rfl (linkAll_deferred hq)

end

def callingOnce (name callee : String) : Method where
  key := ⟨"T", name, "()V"⟩
  locals := []
  code := [.invokeStatic ⟨"T", callee, "()V"⟩, .ret]
  handlers := []

/-- Two methods that call each other, one of them compiled twice: both ways to link give one cache. -/
theorem deferred_linking_agrees_crossing : ∃ direct deferred results linked waiting,
    create (({ cache := ⟨2048, 1, 2048⟩ } : Config).withBootImage false) = .ok direct ∧
    create (({ cache := ⟨2048, 1, 2048⟩ } : Config).withBootImage true) = .ok deferred ∧
    compileEach (fun _ => none) [callingOnce "g" "f", callingOnce "f" "g", callingOnce "f" "g"] direct =
      (results, linked) ∧
    compileEach (fun _ => none) [callingOnce "g" "f", callingOnce "f" "g", callingOnce "f" "g"] deferred =
      (results, waiting) ∧
    linked.cache.installed.length = 3 ∧
    waiting.cache.linkAll = (.ok 3, linked.cache) ∧
    waiting.cache.recorded.linkIn 0 waiting.cache.recorded.calledKeys.reverse = (.ok 3, linked.cache) := by
  have hrun : (create (({ cache := ⟨2048, 1, 2048⟩ } : Config).withBootImage false)).toOption.map (fun s =>
      let t := (compileEach (fun _ => none) [callingOnce "g" "f", callingOnce "f" "g", callingOnce "f" "g"] s).2
      (t.cache.installed.length, t.cache.pendingCallSites, t.cache.callSites.length)) = some (3, 0, 3) := by
    decide +kernel
  obtain ⟨direct, hd, he⟩ := exists_ok_of_map hrun
  obtain ⟨deferred, hde, hea, -⟩ := deferred_linking_agrees (by decide) (by decide) hd
  obtain ⟨results, linked, waiting, n, hl, hw, ha, hc, hk⟩ := hea (fun _ => none)
    [callingOnce "g" "f", callingOnce "f" "g", callingOnce "f" "g"]
  simp only [hl, Prod.mk.injEq] at he
  obtain ⟨hi, hp, hs⟩ := he
  obtain rfl : n = 3 := by omega
  exact ⟨direct, deferred, results, linked, waiting, hd, hde, hl, hw, hi, ha,
    hk _ (reverse_perm _)⟩

end Session
end StackCompiler
