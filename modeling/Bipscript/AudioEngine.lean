import Bipscript.Graph
import Bipscript.Library.Run

/-! Periods of the audio engine: which processors run in each. -/
namespace Bipscript

variable {P : Type*}

/-- An acyclic arrangement of processors in which no null connector is dereferenced. -/
structure Layout (P : Type*) where
  graph : Graph P
  /-- a bound on the calls of `process` below each processor -/
  rank : P → ℕ
  rank_lt : ∀ p q, graph.Calls p q → rank q < rank p
  defined : ∀ p, (graph p).pulls ≠ none

/-- Every graph in which the chains of `process` calls end has such a bound. -/
theorem exists_layout {g : Graph P} (h : Digraph.Terminating g.Calls)
    (hd : ∀ p, (g p).pulls ≠ none) : ∃ l : Layout P, l.graph = g := by
  obtain ⟨rank, hrank⟩ := h.exists_rank (fun p => ((g p).pulls).getD []) (fun p q hq => by
    obtain ⟨l, hl, hq⟩ := hq
    simpa [hl] using hq)
  exact ⟨⟨g, rank, hrank, hd⟩, rfl⟩

/-- Each processor's `processedUntil`, and those whose `doProcess` has been entered. -/
structure Progress (P : Type*) where
  processedUntil : P → ℕ
  executed : List P

/-- One call of `AudioEngine::process`. -/
structure Period (P : Type*) where
  layout : Layout P
  activeProcessors : List P
  nframes : ℕ
  nframes_pos : 0 < nframes

/-- The engine between periods; `time` is what `jack_last_frame_time` delivers in the next one. -/
structure Engine (P : Type*) where
  processedUntil : P → ℕ
  time : ℕ

variable [DecidableEq P]

/-- `Processor::process`, with the depth of recursion that the stack allows. -/
def process (g : Graph P) (time : ℕ) : ℕ → P → Progress P → Option (Progress P)
  | 0, _, _ => none
  | depth + 1, p, s =>
    if s.processedUntil p ≥ time then some s
    else do
      let sources ← (g p).pulls
      let s ← sources.foldlM (fun s q => process g time depth q s)
        { s with executed := s.executed ++ [p] }
      return { s with processedUntil := Function.update s.processedUntil p time }

namespace Engine

/-- The loop over `activeProcessors`. -/
def run (e : Engine P) (a : Period P) : Option (Progress P) :=
  a.activeProcessors.foldlM
    (fun s p => Bipscript.process a.layout.graph e.time (a.layout.rank p + 1) p s)
    ⟨e.processedUntil, []⟩

/-- A period: the clock moves on by `nframes`. -/
def process (e : Engine P) (a : Period P) : Engine P where
  processedUntil := ((e.run a).map Progress.processedUntil).getD e.processedUntil
  time := (e.time + a.nframes) % 2 ^ 32

/-- The period ends, and each active processor has run once in it. -/
def Once (e : Engine P) (a : Period P) : Prop :=
  ∃ s, e.run a = some s ∧ ∀ p ∈ a.activeProcessors, s.executed.count p = 1

/-- Each active processor last ran before this period, by the clock. -/
def Due (e : Engine P) (a : Period P) : Prop :=
  ∀ p ∈ a.activeProcessors, e.processedUntil p < e.time

end Engine

/-- The processors of `new` run at `time`. -/
def Progress.mark (new : List P) (time : ℕ) (s : Progress P) : Progress P where
  processedUntil := fun p => if p ∈ new then time else s.processedUntil p
  executed := s.executed ++ new

theorem Progress.mark_mark (new new' : List P) (time : ℕ) (s : Progress P) :
    (s.mark new time).mark new' time = s.mark (new ++ new') time := by
  have hmemo : ((s.mark new time).mark new' time).processedUntil =
      (s.mark (new ++ new') time).processedUntil := by
    funext p
    simp only [mark, List.mem_append]
    by_cases h : p ∈ new' <;> by_cases h' : p ∈ new <;> simp [h, h']
  simp only [mark] at hmemo ⊢
  rw [hmemo, List.append_assoc]

/-- What calls of `process` on `sources` do: each processor that had not run yet runs once, and no
processor ranked `bound` or more runs. -/
structure Runs (rank : P → ℕ) (bound time : ℕ) (sources : List P) (s : Progress P)
    (new : List P) : Prop where
  nodup : new.Nodup
  fresh : ∀ p ∈ new, s.processedUntil p < time
  below : ∀ p ∈ new, rank p < bound
  all : ∀ p ∈ sources, s.processedUntil p < time → p ∈ new

omit [DecidableEq P] in
theorem Runs.nil (rank : P → ℕ) (bound time : ℕ) (s : Progress P) :
    Runs rank bound time [] s [] :=
  ⟨.nil, by simp, by simp, by simp⟩

omit [DecidableEq P] in
theorem Runs.mono {rank : P → ℕ} {bound bound' time : ℕ} {sources new : List P} {s : Progress P}
    (h : Runs rank bound time sources s new) (hb : bound ≤ bound') :
    Runs rank bound' time sources s new :=
  ⟨h.nodup, h.fresh, fun p hp => (h.below p hp).trans_le hb, h.all⟩

/-- Two calls in a row: what ran in the first does not run in the second. -/
theorem Runs.append {rank : P → ℕ} {bound time : ℕ} {p : P} {sources new new' : List P}
    {s : Progress P} (h : Runs rank bound time [p] s new)
    (h' : Runs rank bound time sources (s.mark new time) new') :
    Runs rank bound time (p :: sources) s (new ++ new') := by
  have hold : ∀ q, q ∉ new → (s.mark new time).processedUntil q = s.processedUntil q :=
    fun q hq => if_neg hq
  have hnot : ∀ q ∈ new', q ∉ new := by
    intro q hq hn
    have hlt := h'.fresh q hq
    simp [Progress.mark, hn] at hlt
  refine ⟨?_, ?_, ?_, ?_⟩
  · exact h.nodup.append h'.nodup (fun q hq hq' => hnot q hq' hq)
  · intro q hq
    rcases List.mem_append.mp hq with hq | hq
    · exact h.fresh q hq
    · exact hold q (hnot q hq) ▸ h'.fresh q hq
  · intro q hq
    rcases List.mem_append.mp hq with hq | hq
    · exact h.below q hq
    · exact h'.below q hq
  · intro q hq hlt
    by_cases hn : q ∈ new
    · exact List.mem_append_left _ hn
    · rcases List.mem_cons.mp hq with rfl | hq
      · exact absurd (h.all q (List.mem_singleton_self q) hlt) hn
      · exact List.mem_append_right _ (h'.all q hq (by rwa [hold q hn]))

/-- A loop of `process` calls, from what each call does. -/
theorem runs_foldlM {rank : P → ℕ} {bound time : ℕ} {f : Progress P → P → Option (Progress P)}
    {sources : List P}
    (hf : ∀ p ∈ sources, ∀ s, ∃ new, f s p = some (s.mark new time) ∧
      Runs rank bound time [p] s new) (s : Progress P) :
    ∃ new, sources.foldlM f s = some (s.mark new time) ∧ Runs rank bound time sources s new := by
  induction sources generalizing s with
  | nil =>
    refine ⟨[], ?_, .nil rank bound time s⟩
    simp [Progress.mark]
  | cons p rest ih =>
    obtain ⟨hp, hrest⟩ := List.forall_mem_cons.mp hf
    obtain ⟨new, hs, hnew⟩ := hp s
    obtain ⟨new', hs', hnew'⟩ := ih hrest (s.mark new time)
    refine ⟨new ++ new', ?_, hnew.append hnew'⟩
    rw [List.foldlM_cons, hs, ← Progress.mark_mark]
    exact hs'

/-- A call of `process` on `p` runs `p` and what it pulls, each at most once. -/
theorem process_runs (l : Layout P) (time : ℕ) {depth : ℕ} {p : P} (hd : l.rank p < depth)
    (s : Progress P) :
    ∃ new, Bipscript.process l.graph time depth p s = some (s.mark new time) ∧
      Runs l.rank (l.rank p + 1) time [p] s new := by
  induction depth generalizing p s with
  | zero => omega
  | succ depth ih =>
    simp only [Bipscript.process]
    by_cases hp : s.processedUntil p ≥ time
    · refine ⟨[], ?_, .nil, by simp, by simp, ?_⟩
      · simp [hp, Progress.mark]
      · intro q hq hlt
        obtain rfl := List.mem_singleton.mp hq
        omega
    · obtain ⟨sources, hsources⟩ := Option.ne_none_iff_exists'.mp (l.defined p)
      have hcalls : ∀ q ∈ sources, ∀ s, ∃ new,
          Bipscript.process l.graph time depth q s = some (s.mark new time) ∧
            Runs l.rank (l.rank p) time [q] s new := by
        intro q hq s
        have hlt := l.rank_lt p q ⟨sources, hsources, hq⟩
        obtain ⟨new, hs, hnew⟩ := ih (show l.rank q < depth by omega) s
        exact ⟨new, hs, hnew.mono hlt⟩
      obtain ⟨new, hs, hnew⟩ := runs_foldlM hcalls { s with executed := s.executed ++ [p] }
      -- what ran below `p` is ranked below it, so `p` has not run again
      have hpn : p ∉ new := fun h => absurd (hnew.below p h) (lt_irrefl _)
      refine ⟨p :: new, ?_, ?_, ?_, ?_, ?_⟩
      · simp only [if_neg hp, hsources, hs, Option.bind_eq_bind, Option.bind_some, Option.pure_def,
          Progress.mark, List.append_assoc, List.singleton_append, Option.some.injEq,
          Progress.mk.injEq, and_true]
        funext q
        by_cases hq : q = p
        · subst hq
          simp
        · simp [hq]
      · exact List.nodup_cons.mpr ⟨hpn, hnew.nodup⟩
      · exact List.forall_mem_cons.mpr ⟨not_le.mp hp, hnew.fresh⟩
      · exact List.forall_mem_cons.mpr ⟨Nat.lt_succ_self _, fun q hq => (hnew.below q hq).trans
          (Nat.lt_succ_self _)⟩
      · simp

namespace Engine

/-- A period ends, with what ran in it. -/
theorem run_runs (e : Engine P) (a : Period P) :
    ∃ bound new, e.run a = some (Progress.mark new e.time ⟨e.processedUntil, []⟩) ∧
      Runs a.layout.rank bound e.time a.activeProcessors ⟨e.processedUntil, []⟩ new := by
  -- a rank above that of every active processor
  let bound := (a.activeProcessors.map a.layout.rank).sum + 1
  have hbound : ∀ p ∈ a.activeProcessors, a.layout.rank p + 1 ≤ bound := by
    intro p hp
    have := List.single_le_sum (l := a.activeProcessors.map a.layout.rank)
      (fun _ _ => Nat.zero_le _) _ (List.mem_map_of_mem hp)
    omega
  refine ⟨bound, runs_foldlM (fun p hp s => ?_) _⟩
  obtain ⟨new, hs, hnew⟩ := process_runs a.layout e.time (Nat.lt_succ_self (a.layout.rank p)) s
  exact ⟨new, hs, hnew.mono (hbound p hp)⟩

/-- In one period each active processor runs once exactly when each last ran before it. -/
theorem once_iff_due (e : Engine P) (a : Period P) : e.Once a ↔ e.Due a := by
  obtain ⟨bound, new, hrun, hnew⟩ := e.run_runs a
  constructor
  · rintro ⟨s, hs, hcount⟩ p hp
    rw [hrun] at hs
    cases hs
    have hin : p ∈ new := by
      have h := hcount p hp
      simp only [Progress.mark, List.nil_append] at h
      exact List.one_le_count_iff.mp h.ge
    exact hnew.fresh p hin
  · intro hdue
    refine ⟨_, hrun, fun p hp => ?_⟩
    simp only [Progress.mark, List.nil_append]
    exact List.count_eq_one_of_mem hnew.nodup (hnew.all p hp (hdue p hp))

/-- Over every run of periods, each active processor runs once in each period exactly when at each
period the clock is past the time at which it last ran. -/
theorem always_once_iff (time : ℕ) (periods : List (Period P)) :
    Transition.Always process Once ⟨fun _ => 0, time⟩ periods ↔
      Transition.Always process Due ⟨fun _ => 0, time⟩ periods :=
  ⟨Transition.always_mono fun e a => (once_iff_due e a).mp,
    Transition.always_mono fun e a => (once_iff_due e a).mpr⟩

/-- Every processor last ran before the next period, by the clock. -/
def Past (e : Engine P) : Prop := ∀ p, e.processedUntil p < e.time

theorem past_step {e : Engine P} {a : Period P} (hp : e.Past)
    (hw : e.time + a.nframes < 2 ^ 32) : (e.process a).Past := by
  obtain ⟨bound, new, hrun, -⟩ := e.run_runs a
  have hn := a.nframes_pos
  intro p
  have hlt := hp p
  simp only [process, hrun, Option.map_some, Option.getD_some, Progress.mark, Nat.mod_eq_of_lt hw]
  split <;> omega

/-- Until the clock wraps every active processor runs once in every period. -/
theorem always_once_of_no_wrap {time : ℕ} {periods : List (Period P)} (ht : 0 < time)
    (hw : Transition.Always process (fun e a => e.time + a.nframes < 2 ^ 32)
      ⟨fun _ => 0, time⟩ periods) :
    Transition.Always process Once ⟨fun _ => 0, time⟩ periods :=
  Transition.always_of_invariant (I := Past)
    (fun e a hp _ => (once_iff_due e a).mpr fun p _ => hp p)
    (fun _ _ hp hw => past_step hp hw) (fun _ => ht) hw

/-- Processors that read no other. -/
def separate : Layout ℕ where
  graph := fun _ => .endpoint
  rank := fun _ => 0
  rank_lt := by
    rintro p q ⟨l, hl, hq⟩
    cases hl
    cases hq
  defined := by
    intro p h
    cases h

/-- A period of 256 frames with one of them active. -/
def onePort : Period ℕ := ⟨separate, [0], 256, by decide⟩

/-- The clock wraps at the end of the first of two periods, and nothing runs in the second. -/
theorem not_always_once :
    ¬ Transition.Always process Once ⟨fun _ => 0, 2 ^ 32 - 128⟩ [onePort, onePort] := by
  rintro ⟨-, honce, -⟩
  have hdue := (once_iff_due _ _).mp honce 0 (List.mem_singleton_self 0)
  exact absurd hdue (by decide)

end Engine

end Bipscript
