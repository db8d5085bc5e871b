import Bipscript.CountIn
import Bipscript.Library.Machine
import Mathlib.Algebra.Order.Field.Basic
import Mathlib.Algebra.Field.Rat
import Mathlib.Data.List.OfFn
import Mathlib.Data.List.Sort

/-! The onset detector: its rule of threshold and separation, and what the clock and the history
make of it. -/
namespace Bipscript.Audio

open Machine

def ONSET_HOP_SIZE : ℕ := 512

def HISTORY_SIZE : ℕ := 8

/-- Of `buffer` what it holds below `index`. `passed` are the buffers that `odf` was given, which
determine its values. -/
structure OnsetDetector (F K : Type*) where
  buffer : List F
  passed : List (List F)
  history : Fin HISTORY_SIZE → K
  thold : K
  lastOnsetFrame : ℕ

namespace OnsetDetector

variable {F K : Type*}

section Order

variable [LinearOrder K]

def sorted (history : Fin HISTORY_SIZE → K) : List K :=
  (List.ofFn history).insertionSort (· ≤ ·)

theorem length_sorted (history : Fin HISTORY_SIZE → K) : (sorted history).length = 8 := by
  rw [sorted, List.length_insertionSort, List.length_ofFn]
  rfl

def sortedAt (history : Fin HISTORY_SIZE → K) (i : Fin 8) : K :=
  (sorted history).get (i.cast (length_sorted history).symm)

/-- `sorted[(HISTORY_SIZE / 2) + 1]` -/
def codeMedian (history : Fin HISTORY_SIZE → K) : K := sortedAt history 5

theorem sortedAt_mono (history : Fin HISTORY_SIZE → K) {i j : Fin 8} (hij : i < j) :
    sortedAt history i ≤ sortedAt history j :=
  List.pairwise_iff_get.mp (List.pairwise_insertionSort (· ≤ ·) (List.ofFn history)) _ _ hij

end Order

/-- The samples of the history one unit down, and the newest. -/
def shift (history : Fin HISTORY_SIZE → K) (onset : K) : Fin HISTORY_SIZE → K := fun i =>
  if h : i.val + 1 < HISTORY_SIZE then history ⟨i.val + 1, h⟩ else onset

variable [Field K] [LinearOrder K]

/-- More than 0.025 s. -/
def LongEnough (sampleRate frames : ℕ) : Prop := (1 / 40 : ℚ) < (frames : ℚ) / sampleRate

instance (sampleRate frames : ℕ) : Decidable (LongEnough sampleRate frames) :=
  inferInstanceAs (Decidable (_ < _))

/-- `frames / (float)sampleRate` -/
def delta (sampleRate frames : ℕ) : ℚ :=
  Rounding.single (Rounding.single frames / Rounding.single sampleRate)

/-- `delta > 0.025`: a float, and a double. -/
def DeltaExceeds (sampleRate frames : ℕ) : Prop :=
  Rounding.double (1 / 40) < delta sampleRate frames

instance (sampleRate frames : ℕ) : Decidable (DeltaExceeds sampleRate frames) :=
  inferInstanceAs (Decidable (_ < _))

/-- At 48000 frames to the second 1200 frames are 0.025 s, and their float is more. -/
example : ¬ LongEnough 48000 1200 ∧ DeltaExceeds 48000 1200 := by decide +kernel

/-- A full buffer: whether it fires. The handler is not modelled. -/
def processBuffer (odf : List (List F) → K) (sampleRate time : ℕ) (d : OnsetDetector F K)
    (buffer : List F) : OnsetDetector F K × List Bool :=
  let passed := d.passed ++ [buffer]
  let onset := odf passed
  let fire := decide (d.thold * 150 ≤ onset - codeMedian d.history ∧
    DeltaExceeds sampleRate (Midi.sub32 time d.lastOnsetFrame))
  ({ d with
    buffer := []
    passed := passed
    history := shift d.history onset
    lastOnsetFrame := if fire then time else d.lastOnsetFrame }, [fire])

def addSample (odf : List (List F) → K) (sampleRate time : ℕ) (d : OnsetDetector F K) (sample : F) :
    OnsetDetector F K × List Bool :=
  let buffer := d.buffer ++ [sample]
  if buffer.length = ONSET_HOP_SIZE then d.processBuffer odf sampleRate time buffer
  else ({ d with buffer := buffer }, [])

/-- The loop over a period of audio that begins at `time`. -/
def doProcess (odf : List (List F) → K) (sampleRate : ℕ) (d : OnsetDetector F K)
    (period : ℕ × List F) : OnsetDetector F K × List Bool :=
  run (addSample odf sampleRate period.1) d period.2

def new (thold : K) : OnsetDetector F K := ⟨[], [], fun _ => 0, thold, 0⟩

/-- The periods of a cut, each with the time it begins at. -/
def periods (time : ℕ) : List (List F) → List (ℕ × List F)
  | [] => []
  | audio :: rest => (time % 2 ^ 32, audio) :: periods (time + audio.length) rest

/-- Hop by hop, whether a new detector fires. -/
def fired (odf : List (List F) → K) (sampleRate : ℕ) (thold : K) (time : ℕ) (cut : List (List F)) :
    List Bool :=
  (run (doProcess odf sampleRate) (new thold) (periods time cut)).2

/-- Each frame, with the time at which its period begins. -/
def stamped (time : ℕ) (cut : List (List F)) : List (F × ℕ) :=
  (periods time cut).flatMap fun period => period.2.map (·, period.1)

/-- The time at which the period begins in which a hop is full. -/
def clock (time : ℕ) (cut : List (List F)) (k : ℕ) : ℕ :=
  ((stamped time cut)[k * ONSET_HOP_SIZE + (ONSET_HOP_SIZE - 1)]?.map Prod.snd).getD 0

/-- The onset values of a stream. -/
def onset (odf : List (List F) → K) (audio : List F) (k : ℕ) : K :=
  odf ((hops ONSET_HOP_SIZE audio).take (k + 1))

/-- The eight values before the `k`-th, zeros before the first. -/
def historyAt (onset : ℕ → K) (k : ℕ) : Fin HISTORY_SIZE → K := fun i =>
  if k + i.val < HISTORY_SIZE then 0 else onset (k + i.val - HISTORY_SIZE)

/-- The median of eight values. -/
def median (history : Fin HISTORY_SIZE → K) : K := (sortedAt history 3 + sortedAt history 4) / 2

/-- The last hop before the `k`-th that fires, where `P` says of a hop whether it fires after that.
-/
def lastFired (P : ℕ → Option ℕ → Prop) [∀ k last, Decidable (P k last)] : ℕ → Option ℕ
  | 0 => none
  | k + 1 => if P k (lastFired P k) then some k else lastFired P k

section Rules

variable (onset : ℕ → K) (clock : ℕ → ℕ) (sampleRate : ℕ) (thold : K)

/-- The rule: the threshold above the median, and the separation from the last hop that fired. -/
def RuleFires (k : ℕ) (last : Option ℕ) : Prop :=
  thold * 150 ≤ onset k - median (historyAt onset k) ∧
    ∀ j ∈ last, LongEnough sampleRate ((k - j) * ONSET_HOP_SIZE)

/-- The time that has passed by the clock since the last hop that fired, or since frame 0. -/
def elapsed (k : ℕ) (last : Option ℕ) : ℕ := Midi.sub32 (clock k) (last.elim 0 clock)

def CodeFires (k : ℕ) (last : Option ℕ) : Prop :=
  thold * 150 ≤ onset k - codeMedian (historyAt onset k) ∧
    DeltaExceeds sampleRate (elapsed clock k last)

instance (k : ℕ) (last : Option ℕ) : Decidable (RuleFires onset sampleRate thold k last) :=
  inferInstanceAs (Decidable (_ ∧ _))

instance (k : ℕ) (last : Option ℕ) : Decidable (CodeFires onset clock sampleRate thold k last) :=
  inferInstanceAs (Decidable (_ ∧ _))

/-- Each of the `n` hops fires exactly when the rule says so of the hops that fired before. -/
def Obeys (n : ℕ) (fired : List Bool) : Prop :=
  ∀ k < n, (fired[k]? = some true ↔ RuleFires onset sampleRate thold k
    (lastFired (fun j _ => fired[j]? = some true) k))

/-- The last hop before the `k`-th that fires by the rule. -/
def ruleLast (k : ℕ) : Option ℕ := lastFired (RuleFires onset sampleRate thold) k

/-- What the sixth smallest value and the clock must not spoil in the first `n` hops. -/
structure Fair (n : ℕ) : Prop where
  /-- A hop that fires by the rule is that much above the sixth smallest of the eight values too. -/
  loud : ∀ k < n, RuleFires onset sampleRate thold k (ruleLast onset sampleRate thold k) →
    thold * 150 ≤ onset k - codeMedian (historyAt onset k)
  /-- And its period begins that much later, in floats, than that of the last hop that fired, or
  than frame 0. -/
  late : ∀ k < n, RuleFires onset sampleRate thold k (ruleLast onset sampleRate thold k) →
    DeltaExceeds sampleRate (elapsed clock k (ruleLast onset sampleRate thold k))
  /-- No hop too close to the last that fired is so much above the sixth smallest value and so much
  later by the clock. -/
  close : ∀ k < n, ∀ j ∈ ruleLast onset sampleRate thold k,
    ¬ LongEnough sampleRate ((k - j) * ONSET_HOP_SIZE) →
    thold * 150 ≤ onset k - codeMedian (historyAt onset k) →
    ¬ DeltaExceeds sampleRate (elapsed clock k (some j))

end Rules

theorem median_le_codeMedian [IsStrictOrderedRing K] (history : Fin HISTORY_SIZE → K) :
    median history ≤ codeMedian history := by
  have h3 : sortedAt history 3 ≤ sortedAt history 5 := sortedAt_mono history (by decide)
  have h4 : sortedAt history 4 ≤ sortedAt history 5 := sortedAt_mono history (by decide)
  unfold median codeMedian
  rw [div_le_iff₀ two_pos, mul_two]
  exact add_le_add h3 h4

section LastFired

variable {P Q : ℕ → Option ℕ → Prop} [∀ k last, Decidable (P k last)]
  [∀ k last, Decidable (Q k last)] {n : ℕ}

/-- Rules that agree along the run of the first agree on every hop that fires last. -/
theorem lastFired_congr (h : ∀ k < n, (P k (lastFired P k) ↔ Q k (lastFired P k))) :
    ∀ k ≤ n, lastFired P k = lastFired Q k := by
  intro k hk
  induction k with
  | zero => rfl
  | succ k ih =>
    have hlast := ih (Nat.le_of_succ_le hk)
    have hiff := h k hk
    rw [lastFired, lastFired, ← hlast]
    by_cases hP : P k (lastFired P k)
    · rw [if_pos hP, if_pos (hiff.mp hP)]
    · rw [if_neg hP, if_neg (mt hiff.mpr hP)]

/-- Two rules agree along the run of the one exactly when they do along that of the other. -/
theorem agree_iff : (∀ k < n, (P k (lastFired P k) ↔ Q k (lastFired P k))) ↔
    ∀ k < n, (P k (lastFired Q k) ↔ Q k (lastFired Q k)) := by
  constructor
  · intro h k hk
    rw [← lastFired_congr h k hk.le]
    exact h k hk
  · intro h k hk
    rw [← lastFired_congr (P := Q) (Q := P) (fun k hk => (h k hk).symm) k hk.le]
    exact h k hk

end LastFired

section Code

variable {odf : List (List F) → K} {sampleRate time : ℕ} {thold : K} {cut : List (List F)}

omit [LinearOrder K] in
theorem shift_historyAt (onset : ℕ → K) (k : ℕ) :
    shift (historyAt onset k) (onset k) = historyAt onset (k + 1) := by
  funext i
  have hi := i.isLt
  unfold shift historyAt HISTORY_SIZE at *
  split
  · rw [Nat.add_assoc, Nat.add_comm 1]
  · rename_i hlast
    rw [if_neg (by omega)]
    exact congrArg onset (by omega)

/-- The detector with whole hops for its items. -/
def processHop (odf : List (List F) → K) (sampleRate : ℕ) (d : OnsetDetector F K)
    (hop : List (F × ℕ)) : OnsetDetector F K × List Bool :=
  d.processBuffer odf sampleRate ((hop.getLast?.map Prod.snd).getD 0) (hop.map Prod.fst)

/-- The stamped hops of a cut. -/
def stampedHops (time : ℕ) (cut : List (List F)) : List (List (F × ℕ)) :=
  hops ONSET_HOP_SIZE (stamped time cut)

/-- The detector `d` has of the hop at hand the samples, and is otherwise as `s`. -/
def Collecting (d : OnsetDetector F K) (s : List (F × ℕ) × OnsetDetector F K) : Prop :=
  d = { s.2 with buffer := s.1.map Prod.fst } ∧ s.2.buffer = []

theorem addSample_sim (d : OnsetDetector F K) (s : List (F × ℕ) × OnsetDetector F K) (item : F × ℕ)
    (h : Collecting d s) :
    let r := pipe (collect ONSET_HOP_SIZE) (processHop odf sampleRate) s item
    Collecting (addSample odf sampleRate item.2 d item.1).1 r.1 ∧
      (addSample odf sampleRate item.2 d item.1).2 = r.2 := by
  obtain ⟨hop, d⟩ := s
  obtain ⟨rfl, hbuffer⟩ := h
  have hmap : hop.map Prod.fst ++ [item.1] = (hop ++ [item]).map Prod.fst := by
    rw [List.map_append, List.map_singleton]
  have hlength : (hop.map Prod.fst ++ [item.1]).length = hop.length + 1 := by
    rw [hmap, List.length_map, List.length_append, List.length_singleton]
  unfold addSample pipe collect
  dsimp only
  rw [hlength]
  by_cases hfull : hop.length + 1 = ONSET_HOP_SIZE
  · rw [if_pos hfull, if_pos hfull]
    simp only [run, List.append_nil]
    unfold processHop
    rw [List.getLast?_concat, hmap]
    exact ⟨⟨rfl, rfl⟩, rfl⟩
  · rw [if_neg hfull, if_neg hfull, hmap]
    exact ⟨⟨rfl, hbuffer⟩, rfl⟩

theorem fired_eq_run_processHop :
    fired odf sampleRate thold time cut =
      (run (processHop odf sampleRate) (new thold) (stampedHops time cut)).2 := by
  have hperiods : fired odf sampleRate thold time cut = (run
      (fun d item => addSample odf sampleRate item.2 d item.1) (new thold) (stamped time cut)).2 :=
    congrArg Prod.snd (run_blocks (addSample odf sampleRate) (periods time cut))
  have hstart : Collecting (new thold) (([] : List (F × ℕ)), new thold) := ⟨rfl, rfl⟩
  have hsim : (run (fun d item => addSample odf sampleRate item.2 d item.1) (new thold)
      (stamped time cut)).2 = (run (pipe (collect ONSET_HOP_SIZE) (processHop odf sampleRate))
        ([], new thold) (stamped time cut)).2 :=
    run_sim addSample_sim hstart (stamped time cut)
  rw [hperiods, hsim, run_pipe, run_collect (by decide)]
  rfl

omit [Field K] [LinearOrder K] in
theorem map_stamped (time : ℕ) (cut : List (List F)) :
    (stamped time cut).map Prod.fst = cut.flatten := by
  induction cut generalizing time with
  | nil => rfl
  | cons audio cut ih =>
    rw [stamped, periods, List.flatMap_cons, List.map_append, List.flatten_cons, List.map_map]
    exact congrArg₂ (· ++ ·) (List.map_id audio) (ih _)

omit [Field K] [LinearOrder K] in
theorem map_stampedHops (time : ℕ) (cut : List (List F)) :
    (stampedHops time cut).map (List.map Prod.fst) = hops ONSET_HOP_SIZE cut.flatten := by
  rw [stampedHops, map_hops, map_stamped]

omit [Field K] [LinearOrder K] in
theorem length_stampedHops (time : ℕ) (cut : List (List F)) :
    (stampedHops time cut).length = cut.flatten.length / ONSET_HOP_SIZE := by
  rw [← List.length_map (f := List.map Prod.fst), map_stampedHops, length_hops]

omit [Field K] [LinearOrder K] in
/-- The last frame of a hop tells its clock. -/
theorem clock_eq {k : ℕ} {hop : List (F × ℕ)} (h : (stampedHops time cut)[k]? = some hop) :
    (hop.getLast?.map Prod.snd).getD 0 = clock time cut k := by
  have hk : k < (stamped time cut).length / ONSET_HOP_SIZE := by
    rw [← length_hops]
    exact (List.getElem?_eq_some_iff.mp h).1
  have hlen := length_of_mem_hops (List.mem_of_getElem? h)
  rw [stampedHops, getElem?_hops hk] at h
  obtain rfl := Option.some.inj h
  rw [List.getLast?_eq_getElem?, hlen, List.getElem?_take_of_lt (by decide), List.getElem?_drop]
  rfl

/-- What a detector comes to after `n` hops. -/
theorem run_processHop {n : ℕ} (hn : n ≤ (stampedHops time cut).length) :
    let fires := CodeFires (onset odf cut.flatten) (clock time cut) sampleRate thold
    run (processHop odf sampleRate) (new thold) ((stampedHops time cut).take n) =
      (⟨[], (hops ONSET_HOP_SIZE cut.flatten).take n, historyAt (onset odf cut.flatten) n, thold,
          (lastFired fires n).elim 0 (clock time cut)⟩,
        (List.range n).map fun k => decide (fires k (lastFired fires k))) := by
  intro fires
  induction n with
  | zero =>
    have hempty :
        (new thold : OnsetDetector F K).history = historyAt (onset odf cut.flatten) 0 := by
      funext i
      exact (if_pos (by have hi := i.isLt; omega)).symm
    exact Prod.ext (congrArg (OnsetDetector.mk [] [] · thold 0) hempty) rfl
  | succ n ih =>
    have hlt : n < (stampedHops time cut).length := hn
    have hget := List.getElem?_eq_getElem hlt
    have hpassed : (hops ONSET_HOP_SIZE cut.flatten).take n ++
        [(stampedHops time cut)[n].map Prod.fst] =
          (hops ONSET_HOP_SIZE cut.flatten).take (n + 1) := by
      rw [← map_stampedHops time cut, ← List.map_take, ← List.map_take,
        List.take_succ_eq_append_getElem hlt, List.map_append, List.map_singleton]
    rw [List.take_succ_eq_append_getElem hlt, run_concat, ih hlt.le]
    unfold processHop processBuffer
    dsimp only
    rw [clock_eq hget, hpassed, List.range_succ, List.map_append, List.map_singleton]
    have hfires : (thold * 150 ≤ odf ((hops ONSET_HOP_SIZE cut.flatten).take (n + 1)) -
        codeMedian (historyAt (onset odf cut.flatten) n) ∧ DeltaExceeds sampleRate
          (Midi.sub32 (clock time cut n) ((lastFired fires n).elim 0 (clock time cut)))) =
            fires n (lastFired fires n) := rfl
    have hlast : (lastFired fires (n + 1)).elim 0 (clock time cut) =
        if decide (fires n (lastFired fires n)) then clock time cut n
        else (lastFired fires n).elim 0 (clock time cut) := by
      rw [lastFired]
      by_cases h : fires n (lastFired fires n)
      · rw [if_pos h, if_pos (decide_eq_true h)]
        rfl
      · rw [if_neg h, if_neg (by rwa [decide_eq_true_iff])]
    rw [hlast, ← shift_historyAt]
    rfl

theorem fired_eq :
    let fires := CodeFires (onset odf cut.flatten) (clock time cut) sampleRate thold
    fired odf sampleRate thold time cut =
      (List.range (cut.flatten.length / ONSET_HOP_SIZE)).map
        fun k => decide (fires k (lastFired fires k)) := by
  intro fires
  have hrun := @run_processHop F K _ _ odf sampleRate time thold cut _ le_rfl
  rw [List.take_length, length_stampedHops] at hrun
  rw [fired_eq_run_processHop, hrun]

end Code

/-- The list of what a rule says holds the hops that fire last by it. -/
theorem lastFired_map {P : ℕ → Option ℕ → Prop} [∀ k last, Decidable (P k last)] {n k : ℕ}
    (hk : k ≤ n) :
    lastFired (fun j _ =>
      ((List.range n).map fun k => decide (P k (lastFired P k)))[j]? = some true) k =
        lastFired P k := by
  induction k with
  | zero => rfl
  | succ k ih =>
    have hlt : k < n := hk
    rw [lastFired, ih hlt.le, lastFired, List.getElem?_map, List.getElem?_range hlt]
    simp

section Law

variable {onset : ℕ → K} {clock : ℕ → ℕ} {sampleRate : ℕ} {thold : K} {n : ℕ}

theorem codeFires_iff_of_fair (h : Fair onset clock sampleRate thold n) {k : ℕ} (hk : k < n)
    [IsStrictOrderedRing K] :
    CodeFires onset clock sampleRate thold k (ruleLast onset sampleRate thold k) ↔
      RuleFires onset sampleRate thold k (ruleLast onset sampleRate thold k) := by
  constructor
  · rintro ⟨hloud, hlate⟩
    refine ⟨hloud.trans (sub_le_sub_left (median_le_codeMedian _) _), fun j hj => ?_⟩
    by_contra hclose
    have hlast := Option.mem_def.mp hj
    rw [hlast] at hlate
    exact h.close k hk j hj hclose hloud hlate
  · exact fun hrule => ⟨h.loud k hk hrule, h.late k hk hrule⟩

theorem fair_iff [IsStrictOrderedRing K] :
    Fair onset clock sampleRate thold n ↔ ∀ k < n,
      (CodeFires onset clock sampleRate thold k (ruleLast onset sampleRate thold k) ↔
        RuleFires onset sampleRate thold k (ruleLast onset sampleRate thold k)) := by
  constructor
  · exact fun h k hk => codeFires_iff_of_fair h hk
  · refine fun h => ⟨fun k hk hrule => ((h k hk).mpr hrule).1,
      fun k hk hrule => ((h k hk).mpr hrule).2, fun k hk j hj hclose hloud hlate => ?_⟩
    have hlast := Option.mem_def.mp hj
    have hrule := (h k hk).mp ⟨hloud, by rw [hlast]; exact hlate⟩
    exact hclose (hrule.2 j hj)

end Law

/-- The first and the fourth hop are loud. -/
def loudHops (passed : List (List ℕ)) : ℚ :=
  if passed.length = 1 ∨ passed.length = 4 then 300 else 0

/-- Four hops in a period each. -/
def quarters : List (List ℕ) := List.replicate 4 (List.replicate ONSET_HOP_SIZE 0)

/-- The same frames in one period. -/
def whole : List (List ℕ) := [List.replicate (4 * ONSET_HOP_SIZE) 0]

instance (onset : ℕ → K) (sampleRate : ℕ) (thold : K) (n : ℕ) (fired : List Bool) :
    Decidable (Obeys onset sampleRate thold n fired) :=
  inferInstanceAs (Decidable (∀ k < n, (_ ↔ _)))

end OnsetDetector

end Bipscript.Audio
