/-
The alignment of bundles. A bundle is aligned from the start of its region, so
what counts is where regions start (`bundles_align_with_regions`). With settings
that are valid too, linking can fail (`bundles_misaligned`).
-/
import StackCompiler.Proofs.AddressLookup
import StackCompiler.Proofs.DeferredLinking

namespace StackCompiler

open Convention List

namespace CodeCache
variable {c : CacheConfig} {s t u : CodeCache}

/-! ## Histories of a cache -/

theorem Later.trans (h : Later s t) (h' : Later t u) : Later s u := by
  induction h' with
  | refl => exact h
  | generate _ m a link ih => exact .generate ih m a link
  | linkAll _ ih => exact .linkAll ih

theorem Indexed.linkAll (hs : s.Indexed) : s.linkAll.2.Indexed := by
  rw [s.linkAll_links.relinked.same, recorded_eq]
  exact hs.vary _ _ _

theorem Later.indexed (h : Later s t) (hk : s.Kept c) (hs : s.Indexed) : t.Indexed := by
  induction h with
  | refl => exact hs
  | generate h m a link ih => exact ih.generate (h.kept hk).1 m a link
  | linkAll _ ih => exact ih.linkAll

/-! ## Links between aligned regions -/

theorem generate_ne_link (haligned : ∀ i ≤ c.regionCount, 4 ∣ c.startOf i) (hs : s.Indexed) (hk : s.Kept c)
    (m : Linear.Method) (a : Allocation) (link : Bool) (e : AssemblyError) :
    (s.generate m a link).1 ≠ .error (.cache (.link e)) := by
  rcases ha : s.accept m a with ⟨err | cm, t⟩
  · rw [generate_of_refused ha]
    exact fun h => (accept_refused hk.regular ha).2 e (Except.error.inj h)
  · rw [(generate_of_aligned haligned hs hk ha link).1]
    exact fun h => by cases h

/-! ## Calls between methods -/

variable {m : CompiledMethod}

theorem Housed.start_mod (hm : s.Housed m) (hr : s.Regular c) : m.bundle.region ≤ c.regionCount ∧
    m.start % bundleAlignment = c.startOf m.bundle.region % bundleAlignment := by
  obtain ⟨r, hre, hle, -, hk⟩ := hm.stands
  have hst := (hr.region hre).1
  have hb := hr.base
  refine ⟨Nat.le_trans (exists_region?.mp ⟨r, hre⟩) hr.opened, ?_⟩
  unfold bundleAlignment at hk ⊢
  omega

theorem codeStart_mod (hm : m.Sited) : m.codeStart % 4 = m.start % 4 := by
  have ho : 8 ∣ m.bundle.ownLayout.offset .code := dvd_alignUp (by decide)
  rw [hm.codeStart_eq]
  omega

theorem site_mod (hm : m.Sited) {site} (hs : site ∈ callSitesOf m) :
    site.address % 4 = m.start % 4 := by
  obtain ⟨k, ha, -, -⟩ := hm.site site hs
  have hc := codeStart_mod hm
  omega

/-- Only the places of their regions can stand in the way of a call from one method to another. -/
theorem encodeCall_between (hsp : s.Spread c) (hs : s.Indexed) {n} (hm : m ∈ s.installed) (hn : n ∈ s.installed)
    {site} (hsi : site ∈ callSitesOf m) :
    if c.startOf m.bundle.region % 4 = c.startOf n.bundle.region % 4 then
      ∃ w, encodeCall site.address n.codeStart = .ok w
    else encodeCall site.address n.codeStart =
      .error (.misaligned "bl" "label" ((n.codeStart : Int) - site.address) 4) := by
  obtain ⟨-, hst⟩ := (hs.housed m hm).start_mod hsp.regular
  obtain ⟨-, hs'⟩ := (hs.housed n hn).start_mod hsp.regular
  rw [bundleAlignment] at hst hs'
  have hso := site_mod (hsp.sited m hm) hsi
  have ht := codeStart_mod (hsp.sited n hn)
  have hwi := (hsp.sited m hm).site_within hsi
  have hc := (hsp.sited n hn).code_within
  have hp := (hsp.sited n hn).code_pos
  obtain ⟨hb, hsto⟩ := hsp.inside m hm
  obtain ⟨hb', hst'⟩ := hsp.inside n hn
  have hr := hsp.regular.reach
  split
  next heq =>
    obtain ⟨w, hw, -⟩ := @encodeCall_isOk site.address n.codeStart (by omega) (by omega) (by omega)
    exact ⟨w, hw⟩
  next hne => exact encodeCall_misaligned (by omega) (by omega) (by omega)

end CodeCache

/-! ## Sessions -/

namespace Session
variable {config : Config} {s : Session}

/-- The sessions that come from a configuration by compiling methods and programs. -/
inductive Reached (config : Config) : Session → Prop
  | create {host : Host} {s : Session} (h : create config host = .ok s) : Reached config s
  | compile {s : Session} (h : Reached config s) (provider : MethodProvider) (m : Method)
    (order : Graph.HandlerOrder m) :
      Reached config (s.compile provider m order).2
  | compileAll {s : Session} (h : Reached config s) (program : Program) : Reached config (s.compileAll program).2

theorem compile_later (s : Session) (provider : MethodProvider) (m : Method) (order : Graph.HandlerOrder m) :
    (s.compile provider m order).2.config = s.config ∧ s.cache.Later (s.compile provider m order).2.cache := by
  cases hc : linear s.config.compiler.optimizer provider m order with
  | error e =>
    rw [compile_of_rejected hc]
    exact ⟨rfl, .refl⟩
  | ok code =>
    rw [compile_of_linear hc rfl]
    exact ⟨rfl, .generate .refl _ _ _⟩

theorem compileEach_later (provider : MethodProvider) : ∀ (methods : List Method) (s : Session),
    (compileEach provider methods s).2.config = s.config ∧ s.cache.Later (compileEach provider methods s).2.cache
  | [], s => ⟨rfl, .refl⟩
  | m :: rest, s => by
    obtain ⟨hc, hl⟩ := s.compile_later provider m (.table m)
    obtain ⟨hc', hl'⟩ := compileEach_later provider rest (s.compile provider m).2
    exact ⟨hc'.trans hc, hl.trans hl'⟩

theorem compileAll_later (s : Session) (program : Program) :
    (s.compileAll program).2.config = s.config ∧ s.cache.Later (s.compileAll program).2.cache := by
  obtain ⟨hc, hla⟩ := compileEach_later program.find? program.methods s
  unfold compileAll
  simp only
  split
  next => exact ⟨hc, hla⟩
  next =>
    split
    next =>
      have hl := hla.linkAll
      split
      next hli =>
        rw [hli] at hl
        exact ⟨hc, hl⟩
      next hli =>
        rw [hli] at hl
        exact ⟨hc, hl⟩
    next => exact ⟨hc, hla⟩

theorem Reached.later (h : Reached config s) : s.config = config ∧
    ∃ host cache, CodeCache.create config.cache host = .ok cache ∧ cache.Later s.cache := by
  induction h with
  | create h =>
    obtain ⟨-, hca, hc⟩ := create_eq_ok h
    exact ⟨hc, _, _, hca, .refl⟩
  | compile _ provider m order ih =>
    obtain ⟨hc, host, cache, hca, hl⟩ := ih
    obtain ⟨hc', hl'⟩ := compile_later _ provider m order
    exact ⟨hc'.trans hc, host, cache, hca, hl.trans hl'⟩
  | compileAll _ program ih =>
    obtain ⟨hc, host, cache, hca, hl⟩ := ih
    obtain ⟨hc', hl'⟩ := compileAll_later _ program
    exact ⟨hc'.trans hc, host, cache, hca, hl.trans hl'⟩

theorem collect_error {e} : ∀ {results : List (Except CompileError CompiledMethod)},
    collect results = .error e → .error e ∈ results
  | [], h => by cases h
  | .ok m :: rest, h => by
    rw [collect] at h
    cases hr : collect rest with
    | ok ms =>
      rw [hr] at h
      cases h
    | error e' =>
      rw [hr] at h
      cases h
      exact mem_cons_of_mem _ (collect_error hr)
  | .error e' :: rest, h => by
    cases h
    exact mem_cons_self

section
variable {c : CacheConfig} (haligned : ∀ i ≤ c.regionCount, 4 ∣ c.startOf i) (e : AssemblyError)
include haligned

theorem compile_ne_link (hs : s.cache.Indexed) (hk : s.cache.Kept c) (provider : MethodProvider) (m : Method)
    (order : Graph.HandlerOrder m) : (s.compile provider m order).1 ≠ .error (.cache (.link e)) := by
  cases hc : linear s.config.compiler.optimizer provider m order with
  | error err =>
    rw [compile_of_rejected hc]
    exact fun h => by cases h
  | ok code =>
    have hl := CodeCache.generate_ne_link haligned hs hk code
      (Allocation.ofMethod allocatable code) (!s.config.compiler.bootImage) e
    rcases hg : s.cache.generate code (Allocation.ofMethod allocatable code)
      (!s.config.compiler.bootImage) with ⟨err | cm, cache⟩
    · rw [hg] at hl
      rw [compile_of_linear hc hg]
      intro h
      cases err <;> cases h
      exact hl rfl
    · rw [compile_of_linear hc hg]
      exact fun h => by cases h

theorem compileEach_ne_link (provider : MethodProvider) : ∀ (methods : List Method) {s : Session},
    s.cache.Indexed → s.cache.Kept c → .error (.cache (.link e)) ∉ (compileEach provider methods s).1
  | [], _, _, _ => not_mem_nil
  | m :: rest, s, hs, hk => by
    have hl := (s.compile_later provider m (.table m)).2
    intro h
    rcases mem_cons.mp h with h | h
    · exact compile_ne_link haligned e hs hk provider m _ h.symm
    · exact compileEach_ne_link provider rest (hl.indexed hk hs) (hl.kept hk).1 h

theorem compileAll_ne_link (hs : s.cache.Indexed) (hk : s.cache.Kept c) (program : Program) :
    (s.compileAll program).1 ≠ .error (.cache (.link e)) := by
  have hl := (compileEach_later program.find? program.methods s).2
  obtain ⟨hk', -⟩ := hl.kept hk
  obtain ⟨n, hok⟩ := hk'.linkAll_ok ((hl.indexed hk hs).dvd_start hk'.regular haligned)
  unfold compileAll
  simp only
  split
  next err he =>
    intro h
    cases h
    exact compileEach_ne_link haligned e program.find? program.methods hs hk (collect_error he)
  next =>
    split
    next =>
      split
      next => exact fun h => by cases h
      next hli =>
        rw [hli] at hok
        cases hok
    next => exact fun h => by cases h

end

/-- However methods are compiled: a bundle is aligned exactly if its region is. A call between
installed methods can be encoded if their regions start a whole number of words apart, and else it
is misaligned. Where all regions are aligned to words, no call fails to be linked. -/
theorem bundles_align_with_regions (h : Reached config s) :
    (∀ m ∈ s.cache.installed, m.bundle.region ≤ config.cache.regionCount ∧
      (bundleAlignment ∣ m.start ↔
        bundleAlignment ∣ config.cache.startOf m.bundle.region)) ∧
    (∀ m ∈ s.cache.installed, ∀ n ∈ s.cache.installed, ∀ site ∈ CodeCache.callSitesOf m,
      if config.cache.startOf m.bundle.region % 4 = config.cache.startOf n.bundle.region % 4 then
        ∃ w, encodeCall site.address n.codeStart = .ok w
      else encodeCall site.address n.codeStart =
        .error (.misaligned "bl" "label" ((n.codeStart : Int) - site.address) 4)) ∧
    ((∀ i ≤ config.cache.regionCount, 4 ∣ config.cache.startOf i) → ∀ e,
      (∀ provider m order, (s.compile provider m order).1 ≠ .error (.cache (.link e))) ∧
      ∀ program, (s.compileAll program).1 ≠ .error (.cache (.link e))) := by
  obtain ⟨-, host, cache, hc, hl⟩ := h.later
  obtain ⟨hk, -⟩ := hl.kept (.create hc)
  have hi := hl.indexed (.create hc) (.create hc)
  refine ⟨fun m hm => ?_, fun m hm n hn site hs => ?_, fun haligned e => ⟨?_, ?_⟩⟩
  · obtain ⟨hle, hst⟩ := (hi.housed m hm).start_mod hk.regular
    refine ⟨hle, ?_⟩
    rw [Nat.dvd_iff_mod_eq_zero, Nat.dvd_iff_mod_eq_zero, hst]
  · exact CodeCache.encodeCall_between hk.toSpread hi hm hn hs
  · exact compile_ne_link haligned e hi hk
  · exact compileAll_ne_link haligned e hi hk

/-- Two methods that call each other, compiled in a cache whose boot region holds one of them. -/
def sideBySide (s : Session) : Session :=
  ((s.compile (fun _ => none) (callingOnce "f" "g")).2.compile (fun _ => none) (callingOnce "g" "f")).2

/-- With a boot region of 32 bytes both are aligned, and each can call the other. -/
theorem bundles_align_with_regions_aligned : ∃ s f g, create { cache := ⟨4096, 1, 32⟩ } = .ok s ∧
    s.sideBySide.cache.installed = [f, g] ∧ g.bundle.region = 1 ∧ bundleAlignment ∣ g.start ∧
    (∀ site ∈ CodeCache.callSitesOf f, ∃ w, encodeCall site.address g.codeStart = .ok w) ∧
    ∀ provider m e, (s.sideBySide.compile provider m).1 ≠ .error (.cache (.link e)) := by
  have hru : (create { cache := ⟨4096, 1, 32⟩ }).toOption.map (fun s =>
      s.sideBySide.cache.installed.map fun m => m.bundle.region) = some [0, 1] := by
    decide +kernel
  obtain ⟨s, hs, hm⟩ := exists_ok_of_map hru
  obtain ⟨hst, hc, hl⟩ := bundles_align_with_regions
    (.compile (.compile (.create hs) (fun _ => none) (callingOnce "f" "g") (.table _)) (fun _ => none)
      (callingOnce "g" "f") (.table _))
  obtain ⟨f, rest, hf, hfr, hr⟩ := map_eq_cons_iff.mp hm
  obtain ⟨g, rest', rfl, hg, hn⟩ := map_eq_cons_iff.mp hr
  rw [map_eq_nil_iff] at hn
  subst hn
  rw [← sideBySide, hf] at hst hc
  refine ⟨s, f, g, hs, hf, hg, ?_, fun site hsi => ?_, fun provider m e => ?_⟩
  · rw [(hst g (by simp)).2, hg]
    decide
  · have hca := hc f (by simp) g (by simp) site hsi
    rw [hfr, hg] at hca
    exact hca
  · exact (hl (fun i hi => CacheConfig.dvd_startOf _ (by decide) (by decide) i) e).1 provider m _

/-- With a boot region of 30 bytes, which is valid too, the second region starts at 30, and a call
from there cannot be linked. -/
theorem bundles_misaligned : ∃ s, create { cache := ⟨4096, 1, 30⟩ } = .ok s ∧
    (s.compile (fun _ => none) (callingOnce "f" "g")).1.isOk = true ∧
    ((s.compile (fun _ => none) (callingOnce "f" "g")).2.compile (fun _ => none) (callingOnce "g" "f")).1 =
      .error (.cache (.link (.misaligned "bl" "label" 22 4))) ∧
    s.sideBySide.cache.installed.map (·.start) = [0, 30] ∧ ¬ bundleAlignment ∣ 30 := by
  have hr : (create { cache := ⟨4096, 1, 30⟩ }).toOption.map (fun s =>
      ((s.compile (fun _ => none) (callingOnce "f" "g")).1.isOk,
        ((s.compile (fun _ => none) (callingOnce "f" "g")).2.compile (fun _ => none) (callingOnce "g" "f")).1,
        s.sideBySide.cache.installed.map (·.start))) =
      some (true, .error (.cache (.link (.misaligned "bl" "label" 22 4))), [0, 30]) := by
    decide +kernel
  obtain ⟨s, hs, he⟩ := exists_ok_of_map hr
  simp only [Prod.mk.injEq] at he
  exact ⟨s, hs, he.1, he.2.1, he.2.2, by decide⟩

end Session
end StackCompiler
