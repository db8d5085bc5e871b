import Bipscript.CountIn

/-! Four notes of a count-in one beat apart, and the period that starts the transport. -/
namespace Bipscript.Midi

theorem sub32_of_le {a b : ℕ} (h : b ≤ a) (ha : a < 2 ^ 32) : sub32 a b = a - b := by
  unfold sub32
  omega

namespace CountIn

variable {s : CountIn} {pos : Clock} {time t : ℕ} {note : UInt8} {e : Event} {events : List Event}

theorem countInEvents_of_noteTimes_nil (h : noteTimes time note events = []) :
    s.countInEvents pos time note events = some (s, []) := by
  induction events with
  | nil => rfl
  | cons e events ih =>
    by_cases hm : matchesNote e note = true
    · rw [noteTimes_cons hm] at h
      exact absurd h (List.cons_ne_nil _ _)
    · rw [noteTimes_cons_of_not hm] at h
      rw [countInEvents, if_neg hm]
      exact ih h

/-- One note in the period: what the loop makes of it. -/
theorem countInEvents_of_noteTimes_singleton (h : noteTimes time note events = [t]) :
    ∃ e, frameTime time e = t ∧
      s.countInEvents pos time note events = s.countInEvent pos time e := by
  induction events with
  | nil => exact absurd h (List.cons_ne_nil _ _).symm
  | cons e events ih =>
    by_cases hm : matchesNote e note = true
    · rw [noteTimes_cons hm, List.cons.injEq] at h
      refine ⟨e, h.1, ?_⟩
      cases hr : s.countInEvent pos time e with
      | none => exact countInEvents_cons_none hm hr
      | some r =>
        rw [countInEvents_cons hm hr, countInEvents_of_noteTimes_nil h.2]
        exact congrArg (fun calls => some (r.1, calls)) (List.append_nil r.2)
    · rw [noteTimes_cons_of_not hm] at h
      obtain ⟨e', he', heq⟩ := ih h
      refine ⟨e', he', ?_⟩
      rw [countInEvents, if_neg hm, heq]

/-- The transport is neither started nor the count-in abandoned. -/
def Quiet (calls : List Call) : Prop := .transportStart ∉ calls ∧ .abandoning ∉ calls

theorem quiet_nil : Quiet [] := ⟨nofun, nofun⟩

theorem quiet_dispatch (count : ℕ) : Quiet [.dispatchCountInEvent count] := ⟨nofun, nofun⟩

theorem count_quiet (pos : Clock) (t : ℕ) (s : CountIn) : Quiet (s.count pos t).2 := by
  unfold count
  dsimp only
  split
  · exact ⟨nofun, nofun⟩
  · exact ⟨nofun, nofun⟩

theorem count_startTime (pos : Clock) (t : ℕ) (h : s.countInCount = 3) :
    (s.count pos t).1.countStartTime = (t + s.avgBeatPeriod) % 2 ^ 32 := by
  unfold count
  dsimp only
  rw [if_pos (congrArg (· + 1) h)]
  rfl

theorem setCountTime_some {s' : CountIn} {i : ℕ} (h : s.setCountTime i t = some s') :
    s'.countInCount = s.countInCount ∧ s'.countInNote = s.countInNote := by
  unfold setCountTime at h
  split at h
  · obtain rfl := Option.some.inj h
    exact ⟨rfl, rfl⟩
  · cases h

/-- An event counts at most once. -/
theorem countInEvent_spec {r : CountIn × List Call} (h : s.countInEvent pos time e = some r) :
    r.1.countInCount ≤ s.countInCount + 1 ∧ r.1.countInNote = s.countInNote ∧ Quiet r.2 := by
  unfold countInEvent at h
  dsimp only at h
  split at h
  · obtain ⟨last, -, h⟩ := Option.bind_eq_some_iff.mp h
    split at h
    · cases h
    split at h
    · obtain ⟨s', hs', h⟩ := Option.bind_eq_some_iff.mp h
      obtain rfl := Option.some.inj h
      obtain ⟨hcount, hnote⟩ := setCountTime_some hs'
      obtain ⟨hcount', -, hnote'⟩ := count_spec pos (frameTime time e) s'
      exact ⟨(hcount'.trans (congrArg (· + 1) hcount)).le, hnote'.trans hnote, count_quiet _ _ s'⟩
    · obtain rfl := Option.some.inj h
      exact ⟨Nat.le_succ _, rfl, quiet_nil⟩
  · obtain ⟨s', hs', h⟩ := Option.bind_eq_some_iff.mp h
    obtain rfl := Option.some.inj h
    exact ⟨Nat.le_add_left 1 _, (setCountTime_some hs').2, quiet_dispatch 1⟩

/-- Each of the notes counts at most once. -/
theorem countInEvents_spec {r : CountIn × List Call}
    (h : s.countInEvents pos time note events = some r) :
    r.1.countInCount ≤ s.countInCount + (noteTimes time note events).length ∧
      r.1.countInNote = s.countInNote ∧ Quiet r.2 := by
  induction events generalizing s r with
  | nil =>
    obtain rfl := Option.some.inj h
    exact ⟨Nat.le_add_right _ _, rfl, quiet_nil⟩
  | cons e events ih =>
    by_cases hm : matchesNote e note = true
    · cases hr : s.countInEvent pos time e with
      | none =>
        rw [countInEvents_cons_none hm hr] at h
        cases h
      | some r₁ =>
        rw [countInEvents_cons hm hr] at h
        obtain ⟨r₂, hr₂, rfl⟩ := Option.map_eq_some_iff.mp h
        obtain ⟨hle₁, hnote₁, hquiet₁⟩ := countInEvent_spec hr
        obtain ⟨hle₂, hnote₂, hquiet₂⟩ := ih hr₂
        refine ⟨?_, hnote₂.trans hnote₁, fun hmem => ?_, fun hmem => ?_⟩
        · rw [noteTimes_cons hm, List.length_cons]
          show r₂.1.countInCount ≤ _
          omega
        · exact (List.mem_append.mp hmem).elim hquiet₁.1 hquiet₂.1
        · exact (List.mem_append.mp hmem).elim hquiet₁.2 hquiet₂.2
    · rw [countInEvents, if_neg hm] at h
      rw [noteTimes_cons_of_not hm]
      exact ih h

/-- A period that is not due to start: what the notes in it can do. -/
theorem detectCountIn_spec {nframes : ℕ} {r : CountIn × List Call}
    (h : s.detectCountIn pos nframes time events = some r) (hstarts : ¬ s.Starts nframes time) :
    r.1.countInCount ≤ s.countInCount + (noteTimes time s.countInNote events).length ∧
      r.1.countInNote = s.countInNote ∧ .transportStart ∉ r.2 := by
  have hwatch : ∀ r, s.watch pos time events = some r →
      r.1.countInCount ≤ s.countInCount + (noteTimes time s.countInNote events).length ∧
        r.1.countInNote = s.countInNote ∧ .transportStart ∉ r.2 := fun r hr => by
    unfold watch at hr
    split at hr
    · obtain ⟨hle, hnote, hquiet⟩ := countInEvents_spec hr
      exact ⟨hle, hnote, hquiet.1⟩
    · obtain rfl := Option.some.inj hr
      exact ⟨Nat.le_add_right _ _, rfl, quiet_nil.1⟩
  unfold detectCountIn at h
  rw [if_neg hstarts] at h
  split at h
  · obtain ⟨last, -, h⟩ := Option.bind_eq_some_iff.mp h
    split at h
    · obtain rfl := Option.some.inj h
      exact ⟨Nat.zero_le _, rfl, nofun⟩
    · exact hwatch r h
  · exact hwatch r h

end CountIn

/-- Four notes on the count-in note, the periods they fall in, and a tempo of which a beat is longer
than a period. -/
structure FourNotes where
  pos : Clock
  nframes : ℕ
  start : ℕ
  first : ℕ
  countInNote : UInt8
  nframes_pos : 0 < nframes
  nframes_lt32 : nframes < 2 ^ 32
  start_le : start ≤ first
  nframes_lt : (nframes : ℚ) < 60 * pos.frameRate / pos.beatsPerMinute

namespace FourNotes

/-- The beat of the tempo, in whole frames of its double. -/
def beat (n : FourNotes) : ℕ :=
  ⌊Rounding.double (60 * n.pos.frameRate / n.pos.beatsPerMinute)⌋₊

/-- When a period begins. -/
def time (n : FourNotes) (j : ℕ) : ℕ := n.start + j * n.nframes

/-- The first four are the notes, the next is when to start. -/
def note (n : FourNotes) (k : ℕ) : ℕ := n.first + k * n.beat

/-- The notes that fall in a period. -/
def notesIn (n : FourNotes) (j : ℕ) : List ℕ :=
  ((List.range 4).map n.note).filter fun t => n.time j ≤ t ∧ t < n.time (j + 1)

/-- The tracker before a period, while the transport is stopped. -/
def before (n : FourNotes) (events : ℕ → List Event) (s : CountIn) : ℕ → Option CountIn
  | 0 => some s
  | j + 1 => (n.before events s j).bind fun s =>
      (s.detectCountIn n.pos n.nframes (n.time j) (events j)).map Prod.fst

/-- What `detectCountIn` calls in a period. -/
def calls (n : FourNotes) (events : ℕ → List Event) (s : CountIn) (j : ℕ) : Option (List Call) :=
  (n.before events s j).bind fun s =>
    (s.detectCountIn n.pos n.nframes (n.time j) (events j)).map Prod.snd

/-- The first period with `time + nframes >= countStartTime`, for a start one beat after the fourth
note. -/
def Due (n : FourNotes) (p : ℕ) : Prop :=
  n.note 4 ≤ n.time p + n.nframes ∧ ∀ j < p, n.time j + n.nframes < n.note 4

/-- In the first `m` periods the count-in is not abandoned and the transport is started once, in the
period in which the start is due. -/
def CountsIn (n : FourNotes) (calls : ℕ → Option (List Call)) (m : ℕ) : Prop :=
  ∃ p, n.Due p ∧ ∀ j < m, ∃ c, calls j = some c ∧ .abandoning ∉ c ∧
    c.count .transportStart = if j = p then 1 else 0

/-- The code's own beat is not zero, and a beat apart is in its window. -/
def OnBeat (n : FourNotes) : Prop :=
  n.pos.idealBeatPeriod ≠ 0 ∧ InWindow n.pos.idealBeatPeriod 0 n.beat

/-- When the code counts the notes in. -/
structure Steady (n : FourNotes) : Prop where
  /-- Note 0 is no count-in. -/
  countInNote_ne : n.countInNote ≠ 0
  onBeat : n.OnBeat
  /-- A period that begins between two of the notes begins at most a second after the first. -/
  prompt : ∀ j, ∀ k < 3, n.note k < n.time j → n.time j ≤ n.note (k + 1) →
    n.time j ≤ n.note k + n.pos.frameRate
  /-- One that begins after the fourth note and is not due to start begins at most a second after.
  -/
  patient : ∀ j, n.note 3 < n.time j → n.time (j + 1) < n.note 4 →
    n.time j ≤ n.note 3 + n.pos.frameRate
  /-- The fourth note is not in the period that is due to start. -/
  room : ∀ j, n.time j ≤ n.note 3 → n.note 3 < n.time (j + 1) → n.time (j + 1) < n.note 4

variable {n : FourNotes} {events : ℕ → List Event} {s s' : CountIn} {j k p m : ℕ}

theorem time_succ (n : FourNotes) (j : ℕ) : n.time (j + 1) = n.time j + n.nframes := by
  unfold time
  rw [Nat.succ_mul, Nat.add_assoc]

theorem note_succ (n : FourNotes) (k : ℕ) : n.note (k + 1) = n.note k + n.beat := by
  unfold note
  rw [Nat.succ_mul, Nat.add_assoc]

theorem time_mono (h : j ≤ k) : n.time j ≤ n.time k :=
  Nat.add_le_add_left (Nat.mul_le_mul_right _ h) _

theorem note_mono (h : j ≤ k) : n.note j ≤ n.note k :=
  Nat.add_le_add_left (Nat.mul_le_mul_right _ h) _

theorem nframes_le_beat (n : FourNotes) : n.nframes ≤ n.beat := by
  apply Nat.le_floor
  exact Rounding.natCast_le_double (n.nframes_lt32.trans (by decide)) n.nframes_lt.le

theorem time_zero_le (n : FourNotes) : n.time 0 ≤ n.note 0 := by
  unfold time note
  rw [Nat.zero_mul, Nat.zero_mul]
  exact n.start_le

/-- `k` of the notes have passed when the period begins. -/
structure Passed (n : FourNotes) (j k : ℕ) : Prop where
  le_four : k ≤ 4
  before : ∀ i < k, n.note i < n.time j
  after : k < 4 → n.time j ≤ n.note k

theorem passed_zero (n : FourNotes) : n.Passed 0 0 :=
  ⟨Nat.zero_le 4, nofun, fun _ => n.time_zero_le⟩

/-- No note is in the period. -/
theorem Passed.quiet (h : n.Passed j k) (hk : k < 4 → n.time (j + 1) ≤ n.note k) :
    n.Passed (j + 1) k ∧ n.notesIn j = [] := by
  refine ⟨⟨h.le_four, fun i hi => ?_, hk⟩, List.filter_eq_nil_iff.mpr fun t ht => ?_⟩
  · have hlt := h.before i hi
    have hle := n.time_succ j
    omega
  · obtain ⟨i, hi, rfl⟩ := List.mem_map.mp ht
    have hi4 := List.mem_range.mp hi
    rw [decide_eq_true_iff]
    rintro ⟨hle, hlt⟩
    rcases Nat.lt_or_ge i k with hik | hik
    · exact absurd (h.before i hik) (Nat.not_lt.mpr hle)
    · have hmono := note_mono (n := n) hik
      have hnext := hk (by omega)
      omega

/-- The next note is in the period, and no other. -/
theorem Passed.note (h : n.Passed j k) (hk : k < 4) (hlt : n.note k < n.time (j + 1)) :
    n.Passed (j + 1) (k + 1) ∧ n.notesIn j = [n.note k] := by
  have hbeat := n.nframes_le_beat
  have htime := n.time_succ j
  have hnext := n.note_succ k
  have hfrom := h.after hk
  have hin : ∀ i < k, n.note i < n.time j := h.before
  have hout : ∀ i, k < i → n.time (j + 1) ≤ n.note i := fun i hi => by
    have hmono := note_mono (n := n) (show k + 1 ≤ i from hi)
    omega
  refine ⟨⟨hk, fun i hi => ?_, fun _ => hout _ (Nat.lt_succ_self k)⟩, ?_⟩
  · have hmono := note_mono (n := n) (Nat.le_of_lt_succ hi)
    omega
  · have hfilter : (List.range 4).filter
        ((fun t => decide (n.time j ≤ t ∧ t < n.time (j + 1))) ∘ n.note) =
          (List.range 4).filter (· == k) := by
      refine List.filter_congr fun i _ => ?_
      rw [Function.comp_apply, Bool.eq_iff_iff, decide_eq_true_iff, beq_iff_eq]
      rcases Nat.lt_trichotomy i k with hi | rfl | hi
      · exact iff_of_false (fun h => absurd (hin i hi) (Nat.not_lt.mpr h.1)) hi.ne
      · exact iff_of_true ⟨hfrom, hlt⟩ rfl
      · exact iff_of_false (fun h => absurd h.2 (Nat.not_lt.mpr (hout i hi))) hi.ne'
    unfold notesIn
    rw [List.filter_map, hfilter, List.filter_beq,
      List.count_eq_one_of_mem List.nodup_range (List.mem_range.mpr hk)]
    rfl

/-- All notes so far were counted, and the transport is not started. -/
structure InStep (n : FourNotes) (s : CountIn) (j k : ℕ) : Prop where
  passed : n.Passed j k
  countInNote : s.countInNote = n.countInNote
  countInCount : s.countInCount = k
  times : ∀ i (h : i < 4), i < k → s.lastCountTime ⟨i, h⟩ = n.note i
  startTime : k = 4 → s.countStartTime = n.note 4

section Period

variable (h : n.InStep s j k) (hwrap : n.time (j + 1) < 2 ^ 32)

include h

theorem InStep.getCountTime (hk : k ≠ 0) :
    s.getCountTime (s.countInCount - 1) = some (n.note (k - 1)) := by
  have hle := h.passed.le_four
  have hlt : k - 1 < 4 := by omega
  rw [h.countInCount, CountIn.getCountTime_of_lt hlt, h.times _ hlt (by omega)]

include hwrap

theorem InStep.starts_iff :
    s.Starts n.nframes (n.time j) ↔ k = 4 ∧ n.note 4 ≤ n.time (j + 1) := by
  unfold CountIn.Starts
  rw [h.countInCount, ← n.time_succ, Nat.mod_eq_of_lt hwrap]
  exact and_congr_right fun hk => by rw [h.startTime hk]

theorem InStep.sub32_time (hk : k ≠ 0) :
    sub32 (n.time j) (n.note (k - 1)) = n.time j - n.note (k - 1) := by
  have hlt := h.passed.before (k - 1) (by omega)
  have htime := n.time_succ j
  exact sub32_of_le hlt.le (by omega)

theorem InStep.detect_starts (hstarts : k = 4 ∧ n.note 4 ≤ n.time (j + 1)) :
    s.detectCountIn n.pos n.nframes (n.time j) (events j) =
      some ({ s with countInCount := 0, countInNote := 0 }, [.transportStart]) :=
  if_pos ((h.starts_iff hwrap).mpr hstarts)

theorem InStep.detect_abandons (hstarts : ¬ (k = 4 ∧ n.note 4 ≤ n.time (j + 1))) (hk : k ≠ 0)
    (hlate : n.note (k - 1) + n.pos.frameRate < n.time j) :
    s.detectCountIn n.pos n.nframes (n.time j) (events j) =
      some ({ s with countInCount := 0 }, [.abandoning]) := by
  unfold CountIn.detectCountIn
  rw [if_neg (mt (h.starts_iff hwrap).mp hstarts), if_pos (h.countInCount.symm ▸ hk),
    h.getCountTime hk]
  refine if_pos ?_
  rw [h.sub32_time hwrap hk]
  omega

theorem InStep.detect_watches (hstarts : ¬ (k = 4 ∧ n.note 4 ≤ n.time (j + 1)))
    (hprompt : k ≠ 0 → n.time j ≤ n.note (k - 1) + n.pos.frameRate) :
    s.detectCountIn n.pos n.nframes (n.time j) (events j) =
      s.watch n.pos (n.time j) (events j) := by
  unfold CountIn.detectCountIn
  rw [if_neg (mt (h.starts_iff hwrap).mp hstarts)]
  by_cases hk : k = 0
  · rw [if_neg (not_not.mpr (h.countInCount.trans hk))]
  · rw [if_pos (h.countInCount.symm ▸ hk), h.getCountTime hk]
    refine if_neg ?_
    rw [h.sub32_time hwrap hk]
    have hle := hprompt hk
    omega

end Period

theorem note_pred (hk : k ≠ 0) : n.note k = n.note (k - 1) + n.beat := by
  rw [← n.note_succ, Nat.sub_add_cancel (Nat.one_le_iff_ne_zero.mpr hk)]

theorem inWindow_note_iff (hk : k ≠ 0) (hlt : n.note k < 2 ^ 32) :
    InWindow n.pos.idealBeatPeriod (n.note (k - 1)) (n.note k) ↔
      InWindow n.pos.idealBeatPeriod 0 n.beat := by
  have hpred := note_pred (n := n) hk
  have hsub : sub32 (n.note k) (n.note (k - 1)) = n.beat := by
    rw [sub32_of_le (by omega) hlt]
    omega
  have hzero : sub32 n.beat 0 = n.beat := sub32_of_le (Nat.zero_le _) (by omega)
  unfold InWindow
  rw [hsub, hzero]

theorem avgBeatPeriod_eq (hs : ∀ i (h : i < 4), s.lastCountTime ⟨i, h⟩ = n.note i)
    (hlt : n.note 4 < 2 ^ 32) : s.avgBeatPeriod = n.beat := by
  have h0 := hs 0 (by decide)
  have h1 := hs 1 (by decide)
  have h2 := hs 2 (by decide)
  have h3 := hs 3 (by decide)
  have hsub : ∀ k, k < 3 → sub32 (n.note (k + 1)) (n.note k) = n.beat := fun k hk => by
    have hmono := note_mono (n := n) (show k + 1 ≤ 4 by omega)
    have hsucc := n.note_succ k
    rw [sub32_of_le (by omega) (by omega)]
    omega
  have hfour : n.note 4 = n.first + 4 * n.beat := rfl
  unfold CountIn.avgBeatPeriod
  rw [show (0 : Fin 4) = ⟨0, by decide⟩ from rfl, show (1 : Fin 4) = ⟨1, by decide⟩ from rfl,
    show (2 : Fin 4) = ⟨2, by decide⟩ from rfl, show (3 : Fin 4) = ⟨3, by decide⟩ from rfl,
    h0, h1, h2, h3, hsub 0 (by decide), hsub 1 (by decide), hsub 2 (by decide)]
  omega

section Watch

variable (h : n.InStep s j k)
  (hevents : CountIn.noteTimes (n.time j) n.countInNote (events j) = n.notesIn j)

include h hevents

theorem InStep.watch_quiet (hk : k < 4 → n.time (j + 1) ≤ n.note k) :
    s.watch n.pos (n.time j) (events j) = some (s, []) ∧ n.InStep s (j + 1) k := by
  obtain ⟨hpassed, hnone⟩ := h.passed.quiet hk
  refine ⟨?_, hpassed, h.countInNote, h.countInCount, h.times, h.startTime⟩
  unfold CountIn.watch
  split
  · rw [h.countInNote]
    exact CountIn.countInEvents_of_noteTimes_nil (hevents.trans hnone)
  · rfl

theorem InStep.watch_note (hnote : n.countInNote ≠ 0) (hk : k < 4)
    (hlt : n.note k < n.time (j + 1)) :
    ∃ e, frameTime (n.time j) e = n.note k ∧
      s.watch n.pos (n.time j) (events j) = s.countInEvent n.pos (n.time j) e := by
  obtain ⟨e, he, heq⟩ := CountIn.countInEvents_of_noteTimes_singleton (s := s)
    (hevents.trans (h.passed.note hk hlt).2)
  refine ⟨e, he, ?_⟩
  unfold CountIn.watch
  rw [if_pos ⟨h.countInNote.symm ▸ hnote, h.countInCount.symm ▸ hk⟩, h.countInNote]
  exact heq

end Watch

/-- A note a beat after the one before, or the first, is counted. -/
theorem InStep.counted {e : Event} (h : n.InStep s j k) (hk : k < 4)
    (hlt : n.note k < n.time (j + 1)) (he : frameTime (n.time j) e = n.note k)
    (hfour : n.note 4 < 2 ^ 32) (hbeat : k ≠ 0 → n.OnBeat) :
    ∃ r, s.countInEvent n.pos (n.time j) e = some r ∧ CountIn.Quiet r.2 ∧
      n.InStep r.1 (j + 1) (k + 1) := by
  have hpassed := (h.passed.note hk hlt).1
  obtain ⟨s', hset, hcount, hnote, htimes⟩ : ∃ s', s.setCountTime k (n.note k) = some s' ∧
      s'.countInCount = s.countInCount ∧ s'.countInNote = s.countInNote ∧
      ∀ i (hi : i < 4), i < k + 1 → s'.lastCountTime ⟨i, hi⟩ = n.note i := by
    refine ⟨_, dif_pos hk, rfl, rfl, fun i hi hik => ?_⟩
    rcases Nat.lt_succ_iff_lt_or_eq.mp hik with hik | rfl
    · exact (Function.update_of_ne (fun heq => hik.ne (congrArg Fin.val heq)) _ _).trans
        (h.times i hi hik)
    · exact Function.update_self ..
  by_cases hk0 : k = 0
  · subst hk0
    refine ⟨({ s' with countInCount := 1 }, [.dispatchCountInEvent 1]), ?_,
      CountIn.quiet_dispatch 1, hpassed, hnote.trans h.countInNote, rfl, htimes, nofun⟩
    unfold CountIn.countInEvent
    rw [if_neg (not_not.mpr h.countInCount), he, hset]
    rfl
  · obtain ⟨hideal, hwindow⟩ := hbeat hk0
    have hmono := note_mono (n := n) hk.le
    obtain ⟨hcount', htimes', hnote'⟩ := CountIn.count_spec n.pos (n.note k) s'
    refine ⟨s'.count n.pos (n.note k), ?_, CountIn.count_quiet _ _ _, hpassed,
      hnote'.trans (hnote.trans h.countInNote),
      hcount'.trans (congrArg (· + 1) (hcount.trans h.countInCount)), fun i hi hik => ?_,
      fun hlast => ?_⟩
    · rw [CountIn.countInEvent_of_inWindow (h.countInCount.symm ▸ hk0) (h.getCountTime hk0) hideal
        (by rwa [he, inWindow_note_iff hk0 (by omega)]), he, h.countInCount, hset]
      rfl
    · rw [htimes']
      exact htimes i hi hik
    · obtain rfl : k = 3 := Nat.succ.inj hlast
      rw [CountIn.count_startTime n.pos _ (hcount.trans h.countInCount),
        avgBeatPeriod_eq (fun i hi => htimes i hi hi) hfour, ← n.note_succ]
      exact Nat.mod_eq_of_lt hfour

/-- One that the code does not see a beat after is not. -/
theorem InStep.not_counted {e : Event} (h : n.InStep s j k) (hk : k < 4) (hk0 : k ≠ 0)
    (he : frameTime (n.time j) e = n.note k) (hfour : n.note 4 < 2 ^ 32) (hbeat : ¬ n.OnBeat) :
    ∀ r, s.countInEvent n.pos (n.time j) e = some r → r = (s, []) := by
  have hc : s.countInCount ≠ 0 := h.countInCount.symm ▸ hk0
  have hmono := note_mono (n := n) hk.le
  intro r hr
  by_cases hideal : n.pos.idealBeatPeriod = 0
  · rw [CountIn.countInEvent_zero hc (h.getCountTime hk0) hideal] at hr
    cases hr
  · rw [CountIn.countInEvent_of_not_inWindow hc (h.getCountTime hk0) hideal] at hr
    · exact (Option.some.inj hr).symm
    · rw [he, inWindow_note_iff hk0 (by omega)]
      exact fun hw => hbeat ⟨hideal, hw⟩

/-- The notes are the only ones on the count-in note, and the periods reach the start without the
clock wrapping around. -/
structure Played (n : FourNotes) (events : ℕ → List Event) (m : ℕ) : Prop where
  notes : ∀ j < m, CountIn.noteTimes (n.time j) n.countInNote (events j) = n.notesIn j
  reaches : n.note 4 ≤ n.time m
  noWrap : n.time m < 2 ^ 32

theorem Played.time_lt (h : n.Played events m) (hj : j < m) : n.time (j + 1) < 2 ^ 32 :=
  (time_mono hj).trans_lt h.noWrap

theorem Played.note_lt (h : n.Played events m) : n.note 4 < 2 ^ 32 := h.reaches.trans_lt h.noWrap

theorem beat_pos (n : FourNotes) : 0 < n.beat := n.nframes_pos.trans_le n.nframes_le_beat

theorem Due.time_lt (h : n.Due p) (hj : j < p) : n.time (j + 1) < n.note 4 := by
  rw [n.time_succ]
  exact h.2 j hj

theorem Due.le_time (h : n.Due p) (hj : p ≤ j) : n.note 4 ≤ n.time (j + 1) := by
  have hmono := time_mono (n := n) hj
  have hdue := h.1
  rw [n.time_succ]
  omega

theorem Played.ne_zero (h : n.Played events m) : m ≠ 0 := by
  rintro rfl
  have hpos := n.beat_pos
  have hzero := n.time_zero_le
  have hmono := note_mono (n := n) (show 0 ≤ 3 by decide)
  have hnext : n.note 4 = n.note 3 + n.beat := n.note_succ 3
  have hreaches := h.reaches
  omega

theorem Played.exists_due (h : n.Played events m) : ∃ p < m, n.Due p := by
  have hm := h.ne_zero
  have hex : ∃ p, n.note 4 ≤ n.time (p + 1) := ⟨m, h.reaches.trans (time_mono (Nat.le_succ m))⟩
  refine ⟨Nat.find hex, ?_, n.time_succ _ ▸ Nat.find_spec hex, fun j hj => ?_⟩
  · refine (Nat.find_min' hex (m := m - 1) ?_).trans_lt (by omega)
    rw [Nat.sub_add_cancel (Nat.one_le_iff_ne_zero.mpr hm)]
    exact h.reaches
  · have hlt := Nat.not_le.mp (Nat.find_min hex hj)
    rwa [n.time_succ] at hlt

/-- Not armed. -/
def Idle (s : CountIn) : Prop := s.countInCount = 0 ∧ s.countInNote = 0

theorem Idle.detect (h : Idle s) (pos : Clock) (nframes time : ℕ) (events : List Event) :
    s.detectCountIn pos nframes time events = some (s, []) := by
  unfold CountIn.detectCountIn CountIn.watch
  have hstarts : ¬ s.Starts nframes time := fun hs => by
    have hfour := hs.1
    rw [h.1] at hfour
    cases hfour
  rw [if_neg hstarts, if_neg (not_not.mpr h.1), if_neg fun hn => hn.1 h.2]

theorem Idle.before (hs : n.before events s j = some s') (h : Idle s') (hle : j ≤ k) :
    n.before events s k = some s' := by
  induction k, hle using Nat.le_induction with
  | base => exact hs
  | succ k _ ih =>
    rw [FourNotes.before, ih]
    exact congrArg (Option.map Prod.fst) (h.detect _ _ _ _)

theorem Passed.lt (h : n.Passed j k) (hp : p < 4) (hlt : n.note p < n.time j) : p < k := by
  by_contra hk
  have hafter := h.after (by omega)
  have hmono := note_mono (n := n) (Nat.not_lt.mp hk)
  omega

theorem Passed.le (h : n.Passed j k) (hle : n.time j ≤ n.note p) : k ≤ p := by
  by_contra hk
  exact absurd (h.before p (Nat.not_le.mp hk)) (Nat.not_lt.mpr hle)

/-- One period of a steady count-in: the start, when it is due, or one more period in step. -/
theorem InStep.steady (hsteady : n.Steady) (hplayed : n.Played events m) (hj : j < m)
    (h : n.InStep s j k) :
    if n.note 4 ≤ n.time (j + 1) then
      ∃ s', s.detectCountIn n.pos n.nframes (n.time j) (events j) = some (s', [.transportStart]) ∧
        Idle s'
    else ∃ r, s.detectCountIn n.pos n.nframes (n.time j) (events j) = some r ∧
      CountIn.Quiet r.2 ∧ ∃ k', n.InStep r.1 (j + 1) k' := by
  have hwrap := hplayed.time_lt hj
  have hevents := hplayed.notes j hj
  split
  · rename_i hdue
    have hk : k = 4 := by
      by_contra hk
      have hk4 : k < 4 := lt_of_le_of_ne h.passed.le_four hk
      have hafter := h.passed.after hk4
      have hmono := note_mono (n := n) (Nat.le_of_lt_succ hk4)
      have hnext : n.note 4 = n.note 3 + n.beat := n.note_succ 3
      have hpos := n.beat_pos
      have hroom := hsteady.room j (by omega) (by omega)
      omega
    exact ⟨_, h.detect_starts hwrap ⟨hk, hdue⟩, rfl, rfl⟩
  · rename_i hdue
    have hstarts : ¬ (k = 4 ∧ n.note 4 ≤ n.time (j + 1)) := fun hs => hdue hs.2
    have hprompt : k ≠ 0 → n.time j ≤ n.note (k - 1) + n.pos.frameRate := fun hk0 => by
      have hbefore := h.passed.before (k - 1) (by omega)
      have hle := h.passed.le_four
      rcases Nat.lt_or_ge k 4 with hk4 | hk4
      · refine hsteady.prompt j (k - 1) (by omega) hbefore ?_
        rw [Nat.sub_add_cancel (Nat.one_le_iff_ne_zero.mpr hk0)]
        exact h.passed.after hk4
      · obtain rfl : k = 4 := le_antisymm hle hk4
        exact hsteady.patient j hbefore (Nat.not_le.mp hdue)
    rw [h.detect_watches hwrap hstarts hprompt]
    by_cases hnote : k < 4 ∧ n.note k < n.time (j + 1)
    · obtain ⟨e, he, heq⟩ := h.watch_note hevents hsteady.countInNote_ne hnote.1 hnote.2
      obtain ⟨r, hr, hquiet, hnext⟩ :=
        h.counted hnote.1 hnote.2 he hplayed.note_lt fun _ => hsteady.onBeat
      exact ⟨r, heq.trans hr, hquiet, _, hnext⟩
    · obtain ⟨heq, hnext⟩ := h.watch_quiet hevents fun hk4 =>
        Nat.not_lt.mp fun hlt => hnote ⟨hk4, hlt⟩
      exact ⟨_, heq, CountIn.quiet_nil, _, hnext⟩

/-- A tracker that waits for the first note. -/
def armed (n : FourNotes) (lastCountTime : Fin 4 → ℕ) (countStartTime : ℕ) : CountIn :=
  (CountIn.new lastCountTime countStartTime).exec (.countIn n.countInNote)

theorem inStep_armed (n : FourNotes) (lastCountTime : Fin 4 → ℕ) (countStartTime : ℕ) :
    n.InStep (n.armed lastCountTime countStartTime) 0 0 :=
  ⟨n.passed_zero, rfl, rfl, nofun, nofun⟩

theorem before_succ (hs : n.before events s j = some s') :
    n.before events s (j + 1) =
      (s'.detectCountIn n.pos n.nframes (n.time j) (events j)).map Prod.fst := by
  rw [before, hs]
  rfl

theorem calls_eq (hs : n.before events s j = some s') :
    n.calls events s j =
      (s'.detectCountIn n.pos n.nframes (n.time j) (events j)).map Prod.snd := by
  rw [calls, hs]
  rfl

theorem countsIn_of_steady (hsteady : n.Steady) (hplayed : n.Played events m)
    (hs : n.InStep s 0 0) : n.CountsIn (n.calls events s) m := by
  obtain ⟨p, hp, hdue⟩ := hplayed.exists_due
  have hrun : ∀ j ≤ p, ∃ s' k, n.before events s j = some s' ∧ n.InStep s' j k := fun j hj => by
    induction j with
    | zero => exact ⟨s, 0, rfl, hs⟩
    | succ j ih =>
      obtain ⟨s', k, hs', hin⟩ := ih (Nat.le_of_succ_le hj)
      have hstep := hin.steady hsteady hplayed (by omega)
      rw [if_neg (Nat.not_le.mpr (hdue.time_lt hj))] at hstep
      obtain ⟨r, hr, -, k', hnext⟩ := hstep
      exact ⟨r.1, k', by rw [before_succ hs', hr]; rfl, hnext⟩
  refine ⟨p, hdue, fun j hj => ?_⟩
  rcases Nat.lt_trichotomy j p with hlt | rfl | hlt
  · obtain ⟨s', k, hs', hin⟩ := hrun j hlt.le
    have hstep := hin.steady hsteady hplayed hj
    rw [if_neg (Nat.not_le.mpr (hdue.time_lt hlt))] at hstep
    obtain ⟨r, hr, hquiet, -⟩ := hstep
    refine ⟨r.2, by rw [calls_eq hs', hr]; rfl, hquiet.2, ?_⟩
    rw [if_neg hlt.ne]
    exact List.count_eq_zero.mpr hquiet.1
  · obtain ⟨s', k, hs', hin⟩ := hrun j le_rfl
    have hstep := hin.steady hsteady hplayed hj
    rw [if_pos (hdue.le_time le_rfl)] at hstep
    obtain ⟨t, ht, -⟩ := hstep
    refine ⟨[.transportStart], by rw [calls_eq hs', ht]; rfl, by decide, ?_⟩
    rw [if_pos rfl]
    rfl
  · obtain ⟨s', k, hs', hin⟩ := hrun p le_rfl
    have hstep := hin.steady hsteady hplayed hp
    rw [if_pos (hdue.le_time le_rfl)] at hstep
    obtain ⟨t, ht, hidle⟩ := hstep
    have hafter := hidle.before (by rw [before_succ hs', ht]; rfl) hlt
    refine ⟨[], by rw [calls_eq hafter, hidle.detect]; rfl, List.not_mem_nil, ?_⟩
    rw [if_neg hlt.ne']
    rfl

/-- A note has passed that was not counted. -/
def Behind (n : FourNotes) (s : CountIn) (j : ℕ) : Prop :=
  s.countInNote = n.countInNote ∧ ∃ k, n.Passed j k ∧ s.countInCount < k

theorem Passed.next (h : n.Passed j k) :
    ∃ k', n.Passed (j + 1) k' ∧ k' = k + (n.notesIn j).length := by
  by_cases hnote : k < 4 ∧ n.note k < n.time (j + 1)
  · obtain ⟨hnext, heq⟩ := h.note hnote.1 hnote.2
    exact ⟨k + 1, hnext, by rw [heq]; rfl⟩
  · obtain ⟨hnext, heq⟩ := h.quiet fun hk4 => Nat.not_lt.mp fun hlt => hnote ⟨hk4, hlt⟩
    exact ⟨k, hnext, by rw [heq]; rfl⟩

/-- A tracker that is behind stays behind, and does not start. -/
theorem Behind.step (h : n.Behind s j)
    (hevents : CountIn.noteTimes (n.time j) n.countInNote (events j) = n.notesIn j)
    {r : CountIn × List Call}
    (hr : s.detectCountIn n.pos n.nframes (n.time j) (events j) = some r) :
    n.Behind r.1 (j + 1) ∧ .transportStart ∉ r.2 := by
  obtain ⟨hnote, k, hpassed, hlt⟩ := h
  have hstarts : ¬ s.Starts n.nframes (n.time j) := fun hs => by
    have hfour := hs.1
    have hle := hpassed.le_four
    omega
  obtain ⟨hle, hnote', hquiet⟩ := CountIn.detectCountIn_spec hr hstarts
  rw [hnote, hevents] at hle
  obtain ⟨k', hpassed', hk'⟩ := hpassed.next
  exact ⟨⟨hnote'.trans hnote, k', hpassed', by omega⟩, hquiet⟩

/-- What a count-in that starts in its period `p` tells of each call. -/
theorem calls_some {c : List Call} (h : n.calls events s j = some c) :
    ∃ s' r, n.before events s j = some s' ∧ n.before events s (j + 1) = some r ∧
      s'.detectCountIn n.pos n.nframes (n.time j) (events j) = some (r, c) := by
  obtain ⟨s', hs', h⟩ := Option.bind_eq_some_iff.mp h
  obtain ⟨r, hr, rfl⟩ := Option.map_eq_some_iff.mp h
  exact ⟨s', r.1, hs', by rw [before_succ hs', hr]; rfl, hr⟩

section CountsIn

variable (hp : p < m) (hcalls : ∀ j < m, ∃ c, n.calls events s j = some c ∧ .abandoning ∉ c ∧
    c.count .transportStart = if j = p then 1 else 0)
  (hs : n.InStep s 0 0) (hplayed : n.Played events m) (hdue : n.Due p)

include hp hcalls

include hs in
theorem countInNote_ne_zero : n.countInNote ≠ 0 := by
  intro hnote
  have hidle : Idle s := ⟨hs.countInCount, hs.countInNote.trans hnote⟩
  obtain ⟨c, hc, -, hcount⟩ := hcalls p hp
  rw [calls_eq (hidle.before (j := 0) rfl (Nat.zero_le p)), hidle.detect] at hc
  obtain rfl := Option.some.inj hc
  rw [if_pos rfl] at hcount
  cases hcount

include hplayed

/-- The tracker is never behind before the start. -/
theorem not_behind (hj : j ≤ p) (hs : n.before events s j = some s') : ¬ n.Behind s' j := by
  intro hbehind
  have hrun : ∀ i, j ≤ i → i ≤ p → ∃ t, n.before events s i = some t ∧ n.Behind t i := by
    intro i hi
    induction i, hi using Nat.le_induction with
    | base => exact fun _ => ⟨s', hs, hbehind⟩
    | succ i hi ih =>
      intro hip
      obtain ⟨t, ht, hb⟩ := ih (Nat.le_of_succ_le hip)
      obtain ⟨c, hc, -, -⟩ := hcalls i (by omega)
      obtain ⟨t', r, ht', hr, hdetect⟩ := calls_some hc
      obtain rfl := Option.some.inj (ht.symm.trans ht')
      exact ⟨r, hr, (hb.step (hplayed.notes i (by omega)) hdetect).1⟩
  obtain ⟨t, ht, hb⟩ := hrun p hj le_rfl
  obtain ⟨c, hc, -, hcount⟩ := hcalls p hp
  obtain ⟨t', r, ht', -, hdetect⟩ := calls_some hc
  obtain rfl := Option.some.inj (ht.symm.trans ht')
  rw [if_pos rfl, List.count_eq_zero.mpr (hb.step (hplayed.notes p hp) hdetect).2] at hcount
  cases hcount

include hs hdue

/-- It is in step, so that the second note was counted only if it was on the beat. -/
theorem inStep_run (hj : j ≤ p) :
    ∃ s' k, n.before events s j = some s' ∧ n.InStep s' j k ∧ (2 ≤ k → n.OnBeat) := by
  induction j with
  | zero => exact ⟨s, 0, rfl, hs, nofun⟩
  | succ j ih =>
    obtain ⟨s', k, hs', hin, hbeat⟩ := ih (Nat.le_of_succ_le hj)
    have hjm : j < m := by omega
    have hwrap := hplayed.time_lt hjm
    have hevents := hplayed.notes j hjm
    have hstarts : ¬ (k = 4 ∧ n.note 4 ≤ n.time (j + 1)) := fun h =>
      absurd h.2 (Nat.not_le.mpr (hdue.time_lt hj))
    obtain ⟨c, hc, habandon, -⟩ := hcalls j hjm
    obtain ⟨t, r, ht, hr, hdetect⟩ := calls_some hc
    obtain rfl := Option.some.inj (hs'.symm.trans ht)
    have hprompt : k ≠ 0 → n.time j ≤ n.note (k - 1) + n.pos.frameRate := fun hk0 => by
      by_contra hlate
      rw [hin.detect_abandons hwrap hstarts hk0 (Nat.not_le.mp hlate)] at hdetect
      obtain ⟨-, rfl⟩ := Prod.mk.inj (Option.some.inj hdetect)
      exact habandon List.mem_cons_self
    rw [hin.detect_watches hwrap hstarts hprompt] at hdetect
    by_cases hnote : k < 4 ∧ n.note k < n.time (j + 1)
    · obtain ⟨e, he, heq⟩ := hin.watch_note hevents
        (countInNote_ne_zero hp hcalls hs) hnote.1 hnote.2
      rw [heq] at hdetect
      by_cases hk : k ≠ 0 → n.OnBeat
      · obtain ⟨r', hr', -, hnext⟩ := hin.counted hnote.1 hnote.2 he hplayed.note_lt hk
        obtain rfl := Option.some.inj (hdetect.symm.trans hr')
        exact ⟨r, k + 1, hr, hnext, fun h2 => hk (by omega)⟩
      · obtain ⟨hk0, hoff⟩ := Classical.not_imp.mp hk
        obtain ⟨rfl, -⟩ := Prod.mk.inj
          (hin.not_counted hnote.1 hk0 he hplayed.note_lt hoff _ hdetect)
        refine absurd ⟨hin.countInNote, k + 1, (hin.passed.note hnote.1 hnote.2).1, ?_⟩
          (not_behind hp hcalls hplayed hj hr)
        exact hin.countInCount.trans_lt (Nat.lt_succ_self k)
    · obtain ⟨heq, hnext⟩ := hin.watch_quiet hevents fun hk4 =>
        Nat.not_lt.mp fun hlt => hnote ⟨hk4, hlt⟩
      obtain ⟨rfl, -⟩ := Prod.mk.inj (Option.some.inj (hdetect.symm.trans heq))
      exact ⟨r, k, hr, hnext, hbeat⟩

/-- What is in step and would be late is abandoned. -/
theorem not_late (hj : j ≤ p) (hk : k ≠ 0) (hstarts : ¬ (k = 4 ∧ n.note 4 ≤ n.time (j + 1)))
    (hpassed : ∀ k', n.Passed j k' → k' = k) :
    n.time j ≤ n.note (k - 1) + n.pos.frameRate := by
  have hjm : j < m := by omega
  obtain ⟨s', k', hs', hin, -⟩ := inStep_run hp hcalls hs hplayed hdue hj
  obtain rfl := hpassed k' hin.passed
  obtain ⟨c, hc, habandon, -⟩ := hcalls j hjm
  by_contra hlate
  rw [calls_eq hs',
    hin.detect_abandons (hplayed.time_lt hjm) hstarts hk (Nat.not_le.mp hlate)] at hc
  obtain rfl := Option.some.inj hc
  exact habandon List.mem_cons_self

/-- All four notes are counted before the period of the start. -/
theorem inStep_due : ∃ s', n.before events s p = some s' ∧ n.InStep s' p 4 ∧ n.OnBeat := by
  obtain ⟨s', k, hs', hin, hbeat⟩ := inStep_run hp hcalls hs hplayed hdue le_rfl
  obtain ⟨c, hc, -, hcount⟩ := hcalls p hp
  obtain ⟨t, r, ht, -, hdetect⟩ := calls_some hc
  obtain rfl := Option.some.inj (hs'.symm.trans ht)
  have hstarts : s'.Starts n.nframes (n.time p) := by
    by_contra hstarts
    rw [if_pos rfl,
      List.count_eq_zero.mpr (CountIn.detectCountIn_spec hdetect hstarts).2.2] at hcount
    cases hcount
  obtain ⟨rfl, -⟩ := (hin.starts_iff (hplayed.time_lt hp)).mp hstarts
  exact ⟨s', hs', hin, hbeat (by decide)⟩

theorem steady_of_countsIn : n.Steady := by
  have hbeat := n.beat_pos
  have hnext : n.note 4 = n.note 3 + n.beat := n.note_succ 3
  refine ⟨countInNote_ne_zero hp hcalls hs, ?_, fun j k hk hlt hle => ?_,
    fun j hlt hdue4 => ?_, fun j hle hlt => ?_⟩
  · obtain ⟨s', -, -, honBeat⟩ := inStep_due hp hcalls hs hplayed hdue
    exact honBeat
  · have hmono := note_mono (n := n) (show k + 1 ≤ 3 by omega)
    have hj : j ≤ p := Nat.not_lt.mp fun hlt' => by
      have hdue' := hdue.le_time le_rfl
      have hmono' := time_mono (n := n) (show p + 1 ≤ j from hlt')
      omega
    refine not_late (k := k + 1) hp hcalls hs hplayed hdue hj (Nat.succ_ne_zero k) (by omega)
      fun k' hpassed => ?_
    exact le_antisymm (hpassed.le hle) (hpassed.lt (by omega) hlt)
  · have hj : j ≤ p := Nat.not_lt.mp fun hlt' => by
      have hdue' := hdue.le_time hlt'.le
      omega
    refine not_late (k := 4) hp hcalls hs hplayed hdue hj (by decide) (by omega)
      fun k' hpassed => ?_
    exact le_antisymm hpassed.le_four (hpassed.lt (by decide) hlt)
  · by_contra hroom
    obtain ⟨s', -, hin, -⟩ := inStep_due hp hcalls hs hplayed hdue
    have hbefore := hin.passed.before 3 (by decide)
    have hpj : p ≤ j := Nat.not_lt.mp fun hlt' => hroom (hdue.time_lt hlt')
    have hmono := time_mono (n := n) hpj
    omega

end CountsIn

/-- Four notes a beat apart are counted in, and the transport is started once, in the first period
of which the end is not before the start, exactly when they are steady. -/
theorem countsIn_iff (n : FourNotes) (events : ℕ → List Event) (m : ℕ)
    (lastCountTime : Fin 4 → ℕ) (countStartTime : ℕ) (hplayed : n.Played events m) :
    n.CountsIn (n.calls events (n.armed lastCountTime countStartTime)) m ↔ n.Steady := by
  have hs := n.inStep_armed lastCountTime countStartTime
  constructor
  · rintro ⟨p, hdue, hcalls⟩
    have hp : p < m := by
      by_contra hp
      have hlt : m - 1 < p := by
        have hm := hplayed.ne_zero
        omega
      have htime := hdue.time_lt hlt
      rw [Nat.sub_add_cancel (Nat.one_le_iff_ne_zero.mpr hplayed.ne_zero)] at htime
      exact absurd hplayed.reaches (Nat.not_le.mpr htime)
    exact steady_of_countsIn hp hcalls hs hplayed hdue
  · exact fun hsteady => countsIn_of_steady hsteady hplayed hs

/-- In particular from 60 beats a minute on, where a beat is at most a second. -/
theorem steady_of_beat_le (n : FourNotes) (hnote : n.countInNote ≠ 0) (honBeat : n.OnBeat)
    (hle : n.beat ≤ n.pos.frameRate) (hlt : n.nframes < n.beat) : n.Steady := by
  refine ⟨hnote, honBeat, fun j k _ _ hj => ?_, fun j _ hj => ?_, fun j hj _ => ?_⟩
  · rw [n.note_succ] at hj
    exact hj.trans (Nat.add_le_add_left hle _)
  · have hnext : n.note 4 = n.note 3 + n.beat := n.note_succ 3
    rw [n.time_succ] at hj
    omega
  · have hnext : n.note 4 = n.note 3 + n.beat := n.note_succ 3
    rw [n.time_succ]
    omega

/-- One note-on of key 60 for each of the notes. -/
def noteOns (n : FourNotes) (j : ℕ) : List Event :=
  (n.notesIn j).map fun t => CountIn.noteOn (t - n.time j)

/-- 120 beats a minute, of 24000 frames. -/
def andante : FourNotes where
  pos := ⟨48000, 120, CountIn.presto.frameRate_pos, barOne.beatsPerMinute_pos⟩
  nframes := 16384
  start := 0
  first := 100
  countInNote := 60
  nframes_pos := by decide
  nframes_lt32 := by decide
  start_le := by decide
  nframes_lt := by norm_num

theorem countsIn_andante :
    andante.Played andante.noteOns 6 ∧
      andante.CountsIn (andante.calls andante.noteOns (andante.armed (fun _ => 0) 0)) 6 := by
  have hplayed : andante.Played andante.noteOns 6 :=
    ⟨by decide +kernel, by decide +kernel, by decide +kernel⟩
  have hsteady : andante.Steady := andante.steady_of_beat_le (by decide)
    ⟨by decide +kernel, by decide +kernel⟩ (by decide +kernel) (by decide +kernel)
  exact ⟨hplayed, (countsIn_iff andante andante.noteOns 6 (fun _ => 0) 0 hplayed).mpr hsteady⟩

/-- 40 beats a minute, of 72000 frames, one and a half seconds. -/
def lento : FourNotes where
  pos := ⟨48000, 40, CountIn.presto.frameRate_pos, by norm_num⟩
  nframes := 32768
  start := 0
  first := 0
  countInNote := 60
  nframes_pos := by decide
  nframes_lt32 := by decide
  start_le := by decide
  nframes_lt := by norm_num

/-- The third period begins more than a second after the first note. -/
theorem not_countsIn_lento :
    lento.Played lento.noteOns 9 ∧
      ¬ lento.CountsIn (lento.calls lento.noteOns (lento.armed (fun _ => 0) 0)) 9 := by
  refine ⟨⟨by decide +kernel, by decide +kernel, by decide +kernel⟩, ?_⟩
  rintro ⟨p, -, hcalls⟩
  obtain ⟨c, hc, habandon, -⟩ := hcalls 2 (by decide)
  have htwo : lento.calls lento.noteOns (lento.armed (fun _ => 0) 0) 2 = some [.abandoning] := by
    decide +kernel
  obtain rfl := Option.some.inj (htwo.symm.trans hc)
  exact habandon List.mem_cons_self

end FourNotes

end Bipscript.Midi
