import Bipscript.Removal

/-! The handshake of the script with the engine, which times removals after registrations. -/
namespace Bipscript.Removal

open Transition

variable {P : Type*}

/-- The engine has linked what there was after the script completed, or the script has been told. -/
def Drained (s : State P) : Prop :=
  s.restartFlag = true ∨ s.process = .awaiting ∨ s.process = .ready

/-- No restart is under way while the body runs, and a cache about to be completed has marked what
is not linked. -/
structure Handshake (s : State P) : Prop where
  body : s.script = .body → s.runningFlag = true ∧ s.restartFlag = false ∧ ¬ PastCheck s ∧
    ∀ c, Marked s c
  pushing : s.pushing ≠ none → s.script = .body ∨ s.script = .polling ∨ s.script = .done
  completing : ∀ rest activeObjects, s.script = .completing rest activeObjects →
    rest.Nodup ∧ (∀ c ∈ rest, Marked s c) ∧ (Drained s → s.queue = [])
  polling : s.script = .polling →
    (∀ c, ∀ p ∈ ActiveCache.objects (s.caches c).instanceMap, s.pushing = some p →
      some p ∈ (s.caches c).activeScriptObjects) ∧ (Drained s → ∀ c, Marked s c)
  reloading : s.script = .loaded ∨ s.script = .lowered → ∀ c, Marked s c

theorem handshake_initial : Handshake (P := P) .initial := by
  constructor <;>
    simp [State.initial, PastCheck, Marked, ActiveCache.empty, ActiveCache.objects]

/-- Only the body and the handlers leave something to be pushed, and a script that is done. -/
theorem Handshake.pushing_none {s : State P} {script : ScriptPC} (h : Handshake s)
    (hs : s.script = script) (hne : script ≠ .body ∧ script ≠ .polling ∧ script ≠ .done) :
    s.pushing = none := by
  subst hs
  obtain ⟨hbody, hpolling, hdone⟩ := hne
  by_contra hp
  rcases h.pushing hp with hs | hs | hs
  · exact hbody hs
  · exact hpolling hs
  · exact hdone hs

theorem Marked.mono {s t : State P} {c : CacheId} (h : Marked s c) (hc : t.caches = s.caches)
    (hsub : ∀ p ∈ t.pushing.toList ++ t.queue, p ∈ s.pushing.toList ++ s.queue) : Marked t c := by
  intro p hp hwait
  rw [hc] at hp ⊢
  exact h p hp (hsub p hwait)

/-- The script thread stays where it is, outside its factories. -/
theorem Handshake.engine {s t : State P} (h : Handshake s) (hs : t.script = s.script)
    (hr : t.runningFlag = s.runningFlag) (hc : t.caches = s.caches) (hp : t.pushing = s.pushing)
    (hq : ∀ p ∈ t.queue, p ∈ s.queue)
    (hbody : s.script = .body → s.runningFlag = true → ¬ PastCheck s →
      t.restartFlag = s.restartFlag ∧ ¬ PastCheck t)
    (hdrained : Drained t → Drained s ∨ t.queue = []) : Handshake t := by
  have hmono : ∀ c, Marked s c → Marked t c := by
    intro c hm
    apply hm.mono hc
    intro p hmem
    rw [hp] at hmem
    exact List.mem_append.mpr ((List.mem_append.mp hmem).imp_right (hq p))
  refine ⟨?_, ?_, ?_, ?_, ?_⟩
  · intro hb
    rw [hs] at hb
    obtain ⟨hrun, hflag, hpast, hmarked⟩ := h.body hb
    obtain ⟨hflag', hpast'⟩ := hbody hb hrun hpast
    exact ⟨hr.trans hrun, hflag'.trans hflag, hpast', fun c => hmono c (hmarked c)⟩
  · rw [hp, hs]
    exact h.pushing
  · intro rest activeObjects hcompleting
    rw [hs] at hcompleting
    obtain ⟨hnodup, hmarked, hempty⟩ := h.completing rest activeObjects hcompleting
    refine ⟨hnodup, fun c hmem => hmono c (hmarked c hmem), fun hd => ?_⟩
    rcases hdrained hd with hd | hd
    · exact List.eq_nil_iff_forall_not_mem.mpr fun p hmem => by
        have := hq p hmem
        rw [hempty hd] at this
        cases this
    · exact hd
  · intro hpolling
    rw [hs] at hpolling
    obtain ⟨hpushing, hmarked⟩ := h.polling hpolling
    have hpushing' : ∀ c, ∀ p ∈ ActiveCache.objects (t.caches c).instanceMap,
        t.pushing = some p → some p ∈ (t.caches c).activeScriptObjects := by
      rw [hc, hp]
      exact hpushing
    refine ⟨hpushing', fun hd c => ?_⟩
    rcases hdrained hd with hd | hd
    · exact hmono c (hmarked hd c)
    · intro p hmem hwait
      rw [hd, List.append_nil, Option.mem_toList] at hwait
      exact hpushing' c p hmem hwait
  · intro hreload
    rw [hs] at hreload
    exact fun c => hmono c (h.reloading hreload c)

/-- The process thread moves on. -/
theorem Handshake.move {s : State P} {pc : ProcessPC} (h : Handshake s)
    (hpast : s.script ≠ .body ∨ pc ≠ .fetching .complete ∧ pc ≠ .awaiting ∧ pc ≠ .ready)
    (hdrained : pc = .awaiting ∨ pc = .ready → Drained s ∨ s.queue = []) :
    Handshake { s with process := pc } := by
  refine Handshake.engine (t := { s with process := pc }) h rfl rfl rfl rfl (fun _ hp => hp) ?_ ?_
  · intro hb _ _
    refine ⟨rfl, ?_⟩
    rcases hpast with hpast | ⟨hcomplete, hawaiting, hready⟩
    · exact absurd hb hpast
    · rintro (hp | hp | hp)
      · exact hcomplete hp
      · exact hawaiting hp
      · exact hready hp
  · rintro (hd | hd)
    · exact Or.inl (Or.inl hd)
    · exact hdrained hd

/-- It moves to where it is not past its check. -/
theorem Handshake.move_before {s : State P} {pc : ProcessPC} (h : Handshake s)
    (hpc : pc ≠ .fetching .complete ∧ pc ≠ .awaiting ∧ pc ≠ .ready) :
    Handshake { s with process := pc } := by
  refine h.move (Or.inr hpc) ?_
  rintro (hp | hp)
  · exact absurd hp hpc.2.1
  · exact absurd hp hpc.2.2

/-- A factory is called: what it makes is marked, and it unmarks nothing. -/
theorem Handshake.call {s t : State P} (h : Handshake s) (hcalls : s.Calls)
    (hs : t.script = s.script) (hr : t.runningFlag = s.runningFlag)
    (hf : t.restartFlag = s.restartFlag) (he : t.process = s.process) (hq : t.queue = s.queue)
    (hnew : ∀ c, ∀ x ∈ ActiveCache.objects (t.caches c).instanceMap, t.pushing = some x →
      some x ∈ (t.caches c).activeScriptObjects)
    (hold : ∀ c, ∀ x ∈ ActiveCache.objects (t.caches c).instanceMap, x ∈ s.queue →
      x ∈ ActiveCache.objects (s.caches c).instanceMap)
    (hmarks : ∀ c, (s.caches c).activeScriptObjects ⊆ (t.caches c).activeScriptObjects) :
    Handshake t := by
  have hmono : ∀ c, Marked s c → Marked t c := by
    intro c hm p hp hwait
    rcases List.mem_append.mp hwait with hwait | hwait
    · exact hnew c p hp (Option.mem_toList.mp hwait)
    · rw [hq] at hwait
      exact hmarks c (hm p (hold c p hp hwait) (List.mem_append_right _ hwait))
  have hpast : PastCheck t ↔ PastCheck s := by rw [PastCheck, he, PastCheck]
  have hdrained : Drained t ↔ Drained s := by rw [Drained, he, hf, Drained]
  refine ⟨?_, ?_, ?_, ?_, ?_⟩
  · intro hb
    obtain ⟨hrun, hflag, hp, hmarked⟩ := h.body (hs ▸ hb)
    exact ⟨hr.trans hrun, hf.trans hflag, fun hp' => hp (hpast.mp hp'),
      fun c => hmono c (hmarked c)⟩
  · intro _
    rw [hs]
    exact hcalls.1.imp_right Or.inl
  · intro rest activeObjects hcompleting
    rw [hs] at hcompleting
    rcases hcalls.1 with hb | hb <;> cases hb.symm.trans hcompleting
  · intro hpolling
    exact ⟨hnew, fun hd c => hmono c ((h.polling (hs ▸ hpolling)).2 (hdrained.mp hd) c)⟩
  · intro hreload
    rw [hs] at hreload
    rcases hcalls.1 with hb | hb <;> rcases hreload with hl | hl <;> cases hb.symm.trans hl

theorem Handshake.addProcessor {s : State P} {p : P} (h : Handshake s)
    (hs : s.script = .body ∨ s.script = .polling) (hp : s.pushing = some p) :
    Handshake { s with pushing := none, queue := s.queue ++ [p] } := by
  have hmono : ∀ c, Marked s c → Marked { s with pushing := none, queue := s.queue ++ [p] } c := by
    intro c hm
    refine hm.mono (t := { s with pushing := none, queue := s.queue ++ [p] }) rfl ?_
    intro x hx
    rw [hp]
    simpa [or_comm] using hx
  refine ⟨?_, fun hne => absurd rfl hne, ?_, ?_, ?_⟩
  · intro hb
    obtain ⟨hrun, hflag, hpast, hmarked⟩ := h.body hb
    exact ⟨hrun, hflag, hpast, fun c => hmono c (hmarked c)⟩
  · intro rest activeObjects hcompleting
    rcases hs with hb | hb <;> cases hb.symm.trans hcompleting
  · intro hpolling
    refine ⟨fun c x _ hx => (by cases hx), fun hd c => hmono c ?_⟩
    exact (h.polling hpolling).2 hd c
  · intro hreload
    rcases hs with hb | hb <;> rcases hreload with hl | hl <;> cases hb.symm.trans hl

theorem Handshake.waitForRestart {s : State P} (h : Handshake s) (hs : s.script = .body)
    (hp : s.pushing = none) : Handshake { s with
      script := .completing objectCacheList false, runningFlag := false } := by
  obtain ⟨-, hflag, hpast, hmarked⟩ := h.body hs
  refine ⟨fun hb => (by cases hb), fun hne => absurd hp hne, ?_, fun hb => (by cases hb), ?_⟩
  · intro rest activeObjects hcompleting
    obtain ⟨rfl, -⟩ := ScriptPC.completing.inj hcompleting
    refine ⟨by decide, fun c _ => hmarked c, fun hd => ?_⟩
    rcases hd with hd | hd
    · cases hflag.symm.trans hd
    · exact absurd (Or.inr hd) hpast
  · rintro (hl | hl) <;> cases hl

theorem Handshake.scriptComplete [DecidableEq P] {s : State P} {c : CacheId} {rest : List CacheId}
    {activeObjects : Bool} (h : Handshake s)
    (hs : s.script = .completing (c :: rest) activeObjects) :
    Handshake (State.remove c (s.caches c).scriptComplete.removed { s with
      script := .completing rest (activeObjects || (s.caches c).scriptComplete.activeObjects)
      caches := Function.update s.caches c (s.caches c).scriptComplete.cache }) := by
  obtain ⟨hnodup, hmarked, hempty⟩ := h.completing _ _ hs
  obtain ⟨hc, hrest⟩ := List.nodup_cons.mp hnodup
  have hpushing := h.pushing_none hs ⟨nofun, nofun, nofun⟩
  generalize hcompletion : (s.caches c).scriptComplete = r
  have hstate : Handshake { s with
      script := .completing rest (activeObjects || r.activeObjects)
      caches := Function.update s.caches c r.cache } := by
    refine ⟨fun hb => (by cases hb), fun hne => absurd hpushing hne, ?_,
      fun hb => (by cases hb), ?_⟩
    · intro rest' activeObjects' hcompleting
      obtain ⟨rfl, -⟩ := ScriptPC.completing.inj hcompleting
      refine ⟨hrest, fun c' hc' => ?_, hempty⟩
      have hne : c' ≠ c := fun he => hc (he ▸ hc')
      have hold := hmarked c' (List.mem_cons_of_mem _ hc')
      simpa only [Marked, Function.update_of_ne hne] using hold
    · rintro (hl | hl) <;> cases hl
  unfold State.remove
  split
  · exact ⟨hstate.body, hstate.pushing, hstate.completing, hstate.polling, hstate.reloading⟩
  · exact ⟨hstate.body, hstate.pushing, hstate.completing, hstate.polling, hstate.reloading⟩

theorem Handshake.completed {s : State P} {activeObjects others : Bool} (h : Handshake s)
    (hs : s.script = .completing [] activeObjects) :
    Handshake { s with script := if activeObjects || others then .polling else .done } := by
  obtain ⟨-, -, hempty⟩ := h.completing _ _ hs
  have hpushing := h.pushing_none hs ⟨nofun, nofun, nofun⟩
  refine ⟨?_, fun hne => absurd hpushing hne, ?_, ?_, ?_⟩
  · intro hb
    simp only at hb
    split at hb <;> cases hb
  · intro rest activeObjects' hcompleting
    simp only at hcompleting
    split at hcompleting <;> cases hcompleting
  · intro _
    refine ⟨fun c p _ hp => ?_, fun hd c p _ hwait => ?_⟩
    · cases hpushing.symm.trans hp
    · have hqueue : s.queue = [] := hempty hd
      rw [hpushing, hqueue] at hwait
      cases hwait
  · intro hl
    simp only at hl
    split at hl <;> rcases hl with hl | hl <;> cases hl

/-- The script thread moves on in its loop, or is done. -/
theorem Handshake.quiet {s t : State P} (hp : s.pushing = none) (hps : t.pushing = s.pushing)
    (hs : t.script = .loaded ∨ t.script = .lowered ∨ t.script = .done)
    (hm : t.script = .done ∨ ∀ c, Marked t c) : Handshake t := by
  refine ⟨?_, fun hne => absurd (hps.trans hp) hne, ?_, ?_, ?_⟩
  · intro hb
    rcases hs with hl | hl | hl <;> cases hl.symm.trans hb
  · intro rest activeObjects hb
    rcases hs with hl | hl | hl <;> cases hl.symm.trans hb
  · intro hb
    rcases hs with hl | hl | hl <;> cases hl.symm.trans hb
  · intro hb
    rcases hm with hm | hm
    · rcases hb with hb | hb <;> cases hm.symm.trans hb
    · exact hm

theorem reduceOption_append_singleton (l : List (Pointer P)) (p : Pointer P) :
    (l ++ [p]).reduceOption = l.reduceOption ++ p.toList := by
  rw [List.reduceOption_append]
  cases p <;> rfl

theorem Placed.addProcessor {s : State P} {p : P} (h : Placed s) (hp : s.pushing = some p) :
    Placed { s with pushing := none, queue := s.queue ++ [p] } := by
  refine Placed.moved (t := { s with pushing := none, queue := s.queue ++ [p] }) h h.alone rfl ?_
    (List.Perm.refl _) fun _ hx => hx
  simp only [State.places, hp, Option.toList_none, Option.toList_some, List.nil_append,
    List.singleton_append]
  exact (List.perm_append_singleton p s.queue).append_right _

theorem Placed.fetch {s : State P} {fresh : P} {rest : List P} (h : Placed s)
    (hq : s.queue = fresh :: rest) :
    Placed { s with queue := rest, activeProcessors := fresh :: s.activeProcessors } := by
  refine Placed.moved (t := { s with
    queue := rest, activeProcessors := fresh :: s.activeProcessors }) h h.alone rfl ?_
    (List.Perm.refl _) fun _ hx => List.mem_cons_of_mem _ hx
  simp only [State.places, hq, List.append_assoc, List.cons_append]
  exact List.perm_middle.append_left _

/-- The script thread starts its push, and ends it. -/
theorem Placed.removeProcessor {s : State P} {p : Pointer P} {rest : List (Pointer P)}
    {raced : Bool}
    (h : Placed s) (hr : s.removing = p :: rest ∧ s.storing = none) (hraced : raced = false) :
    Placed { s with removing := rest, storing := some p, raced := raced } := by
  obtain ⟨hremoving, hstoring⟩ := hr
  refine Placed.moved (t := { s with removing := rest, storing := some p, raced := raced }) h hraced
    rfl (List.Perm.refl _) ?_ fun _ hx => hx
  have hpop : s.removing.reduceOption = p.toList ++ rest.reduceOption := by
    rw [hremoving]
    cases p <;> rfl
  have hpush : [p].reduceOption = p.toList := by cases p <;> rfl
  simp only [State.leaving, hpop, hstoring, Option.toList_some, Option.toList_none, hpush,
    List.reduceOption_nil, List.append_nil]
  refine List.Perm.append_right _ (List.Perm.append_right _ (List.Perm.append_right _ ?_))
  exact List.perm_append_comm

theorem Placed.stored {s : State P} {p : Pointer P} (h : Placed s) (hp : s.storing = some p) :
    Placed { s with storing := none, deletedProcessors := s.deletedProcessors ++ [p] } := by
  refine Placed.moved (t := { s with
    storing := none, deletedProcessors := s.deletedProcessors ++ [p] }) h h.alone rfl
    (List.Perm.refl _) ?_ fun _ hx => hx
  have hpush : [p].reduceOption = p.toList := by cases p <;> rfl
  simp only [State.leaving, hp, reduceOption_append_singleton, Option.toList_some, hpush,
    Option.toList_none, List.reduceOption_nil, List.append_nil, List.append_assoc]
  refine List.Perm.append_left _ ?_
  refine List.Perm.trans (List.Perm.of_eq ?_) List.perm_append_comm
  simp only [List.append_assoc]

/-- A push that starts alone does not overlap another. -/
theorem Placed.raced_eq {s : State P} (h : Placed s) (ha : ¬ s.Storing) :
    (s.raced || decide s.Storing) = false := by
  rw [h.alone, decide_eq_false ha]
  rfl

section Invariant

variable [DecidableEq P] {s t : State P} {a : Act P}

/-- The own thread of an OSC output has the engine remove it. -/
theorem Placed.run {output : P} {raced : Bool} (h : Placed s) (hc : output ∈ s.cancelled)
    (hraced : raced = false) :
    Placed { s with
      cancelled := s.cancelled.erase output, outputs := output :: s.outputs, raced := raced } := by
  refine Placed.moved (t := { s with
    cancelled := s.cancelled.erase output, outputs := output :: s.outputs, raced := raced }) h
    hraced rfl (List.Perm.refl _) ?_ fun _ hx => hx
  simp only [State.leaving]
  refine List.Perm.append_right _ ?_
  simp only [List.append_assoc]
  refine List.Perm.append_left _ (List.Perm.append_left _ ?_)
  refine List.perm_middle.trans ?_
  exact ((List.perm_cons_erase hc).append_right s.outputs).symm

theorem Placed.ended {output : P} (h : Placed s) (hp : output ∈ s.outputs) :
    Placed { s with
      outputs := s.outputs.erase output
      deletedProcessors := s.deletedProcessors ++ [some output] } := by
  refine Placed.moved (t := { s with
    outputs := s.outputs.erase output
    deletedProcessors := s.deletedProcessors ++ [some output] }) h h.alone rfl (List.Perm.refl _) ?_
    fun _ hx => hx
  simp only [State.leaving, reduceOption_append_singleton, Option.toList_some]
  rw [List.append_assoc _ (s.outputs.erase output), List.append_assoc _ s.outputs]
  refine List.Perm.append_left _ ?_
  have herase := (List.perm_cons_erase hp).append_right s.deletedProcessors.reduceOption
  refine List.Perm.trans ?_ herase.symm
  rw [← List.append_assoc]
  exact List.perm_append_singleton _ _

theorem placed_step (h : Placed s) (hh : Handshake s) (ha : Settled s a) (hs : Step s a t) :
    Placed t := by
  cases hs with
  | found hcalls hf =>
    exact h.touch (ActiveCache.objects_findObject _ _)
      (ActiveCache.none_notMem_findObject _ (h.used _))
  | created hcalls hf hp => exact h.created hcalls.2 hf hp
  | failed hcalls hf =>
    exact h.touch (ActiveCache.objects_findObject _ _)
      (ActiveCache.none_notMem_findObject _ (h.used _))
  | transport hcalls hp =>
    exact h.create hcalls.2 rfl hp.2 rfl rfl rfl rfl h.nodup h.used h.apart fun x hx => Or.inr hx
  | addProcessor hb hp hroom => exact h.addProcessor hp
  | scriptComplete hc hr hnull =>
    obtain ⟨-, hmarked, -⟩ := hh.completing _ _ hc
    exact h.scriptComplete hr (hmarked _ List.mem_cons_self)
  | removeProcessor hc hr hroom => exact h.removeProcessor hr (h.raced_eq ha)
  | removed hc hp hd =>
    obtain rfl := hd h.alone
    exact h.stored hp
  | shutdown hnull => exact (h.removeAll ha).abandon
  | run hc hroom => exact h.run hc (h.raced_eq ha)
  | ended hp hd =>
    obtain rfl := hd h.alone
    exact h.ended hp
  | pop he hd hmem => exact h.pop hd
  | fetch he hq => exact h.fetch hq
  | _ => exact Placed.moved h h.alone rfl (List.Perm.refl _) (List.Perm.refl _) fun _ hx => hx

/-- Reading a cache unmarks nothing, and a hit marks what it finds. -/
theorem subset_findObject (c : ActiveCache P) (key : ℤ) :
    c.activeScriptObjects ⊆ (c.findObject key).2.activeScriptObjects := by
  simp only [ActiveCache.findObject]
  split
  · exact Finset.subset_insert _ _
  · exact Finset.Subset.refl _

/-- A cache is read while nothing is about to be pushed. -/
theorem Handshake.touch {c : CacheId} {key : ℤ} (h : Handshake s) (hcalls : s.Calls) :
    Handshake { s with caches := Function.update s.caches c ((s.caches c).findObject key).2 } := by
  refine Handshake.call (t := { s with
    caches := Function.update s.caches c ((s.caches c).findObject key).2 }) h hcalls rfl rfl rfl rfl
      rfl ?_ ?_ ?_
  · intro c' x _ hx
    cases hcalls.2.symm.trans hx
  · intro c' x hx _
    rw [World.mem_update] at hx
    split at hx
    · rename_i hc
      rwa [hc, ← ActiveCache.objects_findObject key]
    · exact hx
  · intro c'
    by_cases hc : c' = c
    · subst hc
      simp only [Function.update_self]
      exact subset_findObject _ _
    · simp only [Function.update_of_ne hc]
      exact Finset.Subset.refl _

theorem Handshake.created {c : CacheId} {key : ℤ} {p : P} (h : Handshake s) (hcalls : s.Calls)
    (hf : ((s.caches c).findObject key).1 = none) (hp : s.New p) :
    Handshake { s with
      caches := Function.update s.caches c (((s.caches c).findObject key).2.registerObject key p)
      pushing := some p } := by
  have hobjects := ActiveCache.objects_registerObject p hf
  refine Handshake.call (t := { s with
    caches := Function.update s.caches c (((s.caches c).findObject key).2.registerObject key p)
    pushing := some p }) h hcalls rfl rfl rfl rfl rfl ?_ ?_ ?_
  · intro c' x hx hpushed
    obtain rfl := Option.some.inj hpushed
    rcases (World.mem_created hobjects c' p).mp hx with ⟨-, rfl⟩ | hx
    · simp only [Function.update_self]
      exact Finset.mem_insert_self _ _
    · exact absurd ⟨c', hx⟩ hp.1
  · intro c' x hx hqueue
    rcases (World.mem_created hobjects c' x).mp hx with ⟨rfl, -⟩ | hx
    · refine absurd ?_ hp.2.1
      simp [State.places, hqueue]
    · exact hx
  · intro c'
    by_cases hc : c' = c
    · subst hc
      simp only [Function.update_self]
      exact (subset_findObject _ _).trans (Finset.subset_insert _ _)
    · simp only [Function.update_of_ne hc]
      exact Finset.Subset.refl _

theorem handshake_step (h : Handshake s) (ha : Settled s a) (hs : Step s a t) :
    Handshake t := by
  cases hs with
  | found hcalls hf => exact h.touch hcalls
  | created hcalls hf hp => exact h.created hcalls hf hp
  | failed hcalls hf => exact h.touch hcalls
  | @transport p hcalls hp =>
    refine Handshake.call (t := { s with pushing := some p }) h hcalls rfl rfl rfl rfl rfl ?_
      (fun _ _ hx _ => hx) fun _ => Finset.Subset.refl _
    intro c x hx hpushed
    obtain rfl := Option.some.inj hpushed
    exact absurd ⟨c, hx⟩ hp.1
  | addProcessor hb hp hroom => exact h.addProcessor hb hp
  | waitForRestart hb hp => exact h.waitForRestart hb hp
  | scriptComplete hc hr hnull => exact h.scriptComplete hc
  | completed hc hr => exact h.completed hc
  | load hc hp hf =>
    exact Handshake.quiet hp rfl (Or.inl rfl) (Or.inr ((h.polling hc).2 (Or.inl hf)))
  | lower hl =>
    have hp := h.pushing_none hl ⟨nofun, nofun, nofun⟩
    exact Handshake.quiet hp rfl (Or.inr (Or.inl rfl)) (Or.inr (h.reloading (Or.inl hl)))
  | rerun hl =>
    have hp := h.pushing_none hl ⟨nofun, nofun, nofun⟩
    refine ⟨fun _ => ⟨rfl, ha.1, ha.2, h.reloading (Or.inr hl)⟩, fun hne => absurd hp hne, ?_,
      fun hb => (by cases hb), fun hb => (by rcases hb with hb | hb <;> cases hb)⟩
    intro rest activeObjects hb
    cases hb
  | fail hb hp => exact Handshake.quiet hp rfl (Or.inr (Or.inr rfl)) (Or.inl rfl)
  | shutdown hnull =>
    refine ⟨fun hb => (by cases hb), fun _ => Or.inr (Or.inr rfl), ?_, fun hb => (by cases hb),
      fun hb => (by rcases hb with hb | hb <;> cases hb)⟩
    intro rest activeObjects hb
    cases hb
  | removeProcessor | removed | run | ended =>
    exact ⟨h.body, h.pushing, h.completing, h.polling, h.reloading⟩
  | pop he hd hmem => exact ⟨h.body, h.pushing, h.completing, h.polling, h.reloading⟩
  | process he => exact h.move_before ⟨nofun, nofun, nofun⟩
  | sync he => exact h.move_before ⟨nofun, nofun, nofun⟩
  | @popped callback he hd =>
    cases callback with
    | process => exact h.move_before ⟨nofun, nofun, nofun⟩
    | reposition attempt =>
      by_cases h0 : attempt = 0
      · simp only [if_pos h0]
        exact h.move_before ⟨nofun, nofun, nofun⟩
      · simp only [if_neg h0]
        exact h.move_before ⟨nofun, nofun, nofun⟩
  | @fetch loop fresh rest he hq =>
    refine Handshake.engine (t := { s with
      queue := rest, activeProcessors := fresh :: s.activeProcessors }) h rfl rfl rfl rfl ?_
      (fun _ _ hpast => ⟨rfl, hpast⟩) Or.inl
    intro p hp
    rw [hq]
    exact List.mem_cons_of_mem _ hp
  | @fetched loop he hq =>
    cases loop with
    | process => exact h.move_before ⟨nofun, nofun, nofun⟩
    | notify => exact h.move_before ⟨nofun, nofun, nofun⟩
    | complete => exact h.move (Or.inl fun hb => (h.body hb).2.2.1 (Or.inl he)) fun _ => Or.inr hq
  | checkRunning he =>
    by_cases hr : s.runningFlag = true
    · simp only [if_pos hr]
      exact h.move_before ⟨nofun, nofun, nofun⟩
    · simp only [if_neg hr]
      exact h.move (Or.inl fun hb => hr (h.body hb).1) nofun
  | @repositionComplete all he =>
    have hpast : s.script ≠ .body := fun hb => (h.body hb).2.2.1 (Or.inr (Or.inl he))
    cases all with
    | true => exact h.move (Or.inl hpast) fun _ => Or.inl (Or.inr (Or.inl he))
    | false => exact h.move_before ⟨nofun, nofun, nofun⟩
  | restart he =>
    have hpast : s.script ≠ .body := fun hb => (h.body hb).2.2.1 (Or.inr (Or.inr he))
    exact Handshake.engine (t := { s with process := .idle, restartFlag := true }) h rfl rfl rfl rfl
      (fun _ hp => hp) (fun hb => absurd hb hpast) fun _ => Or.inl (Or.inr (Or.inr he))

theorem invariant_step (h : Placed s ∧ Handshake s) (ha : Settled s a) (hs : Step s a t) :
    Placed t ∧ Handshake t :=
  ⟨placed_step h.1 h.2 ha hs, handshake_step h.2 ha hs⟩

omit [DecidableEq P] in
theorem Placed.search (h : Placed s) : Linked s := by
  intro callback done rest _ hd
  have hleaving : done ∈ s.leaving := by
    refine List.mem_append_right _ ?_
    rw [hd]
    exact List.mem_cons_self
  have hactive := h.linked done hleaving
  refine ⟨hactive, fun hqueue => ?_⟩
  exact (List.nodup_append.mp h.places).2.2 done (List.mem_append_right _ hqueue) done hactive rfl

/-- Each search finds its processor in a run whose shutdowns, reruns and pushes are settled. -/
theorem linked_of_settled {labels : List (Act P)}
    (h : Run (restrict Settled Step) .initial labels s) : Linked s := by
  have hs := h.invariant_restrict (I := fun s => Placed s ∧ Handshake s)
    (fun hi ha hstep => invariant_step hi ha hstep) ⟨placed_initial, handshake_initial⟩
  exact hs.1.search

end Invariant

theorem new_initial (p : ℕ) : State.New .initial p := by
  refine ⟨?_, List.not_mem_nil, List.not_mem_nil⟩
  rintro ⟨c, hc⟩
  cases hc

/-- An OSC output is created, a period links it, the script fails, and the output's own thread has
the engine remove it. -/
theorem linked_shutdown :
    ∃ s : State ℕ, Run (restrict Settled Step) .initial
      [.factory .oscOutput 1 (some 7), .addProcessor, .process, .popped, .fetch, .fetched, .fail,
        .shutdown, .run 7, .ended 7, .process] s ∧ s.deletedProcessors = [some 7] ∧ Linked s := by
  have hrun : Run (restrict Settled Step) .initial
      [.factory .oscOutput 1 (some 7), .addProcessor, .process, .popped, .fetch, .fetched, .fail,
        .shutdown, .run 7, .ended 7, .process] _ :=
    .stepL ⟨trivial, .created ⟨Or.inl rfl, rfl⟩ rfl (new_initial 7)⟩ <|
      .stepL ⟨trivial, .addProcessor (Or.inl rfl) rfl (by decide)⟩ <|
      .stepL ⟨trivial, .process rfl⟩ <|
      .stepL ⟨trivial, .popped rfl rfl⟩ <|
      .stepL ⟨trivial, .fetch rfl rfl⟩ <|
      .stepL ⟨trivial, .fetched rfl rfl⟩ <|
      .stepL ⟨trivial, .fail rfl rfl⟩ <|
      .stepL ⟨by simp only [Settled]; decide, .shutdown (by decide)⟩ <|
      .stepL ⟨by simp only [Settled]; decide, .run (by decide) (by decide)⟩ <|
      .stepL ⟨trivial, .ended (by decide) fun _ => rfl⟩ <|
      .single ⟨trivial, .process rfl⟩
  exact ⟨_, hrun, rfl, linked_of_settled hrun⟩

/-- The script fails before a period has linked its new OSC output: the next period pops it while it
still waits in the queue. -/
theorem not_linked :
    ∃ (labels : List (Act ℕ)) (s : State ℕ), Run Step .initial labels s ∧ ¬ Linked s := by
  have hrun : Run Step .initial
      [.factory .oscOutput 1 (some 7), .addProcessor, .fail, .shutdown, .run 7, .ended 7,
        .process] _ :=
    .stepL (.created ⟨Or.inl rfl, rfl⟩ rfl (new_initial 7)) <|
      .stepL (.addProcessor (Or.inl rfl) rfl (by decide)) <|
      .stepL (.fail rfl rfl) <|
      .stepL (.shutdown (by decide)) <|
      .stepL (.run (by decide) (by decide)) <|
      .stepL (.ended (by decide) fun _ => rfl) <|
      .single (.process rfl)
  refine ⟨_, _, hrun, fun h => ?_⟩
  have hfound := (h .process 7 [] rfl rfl).1
  cases hfound

end Bipscript.Removal
