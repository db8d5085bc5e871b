import Bipscript.MmlMeaning
import Bipscript.PatternPlayback
import Mathlib.Data.Nat.Cast.Order.Field

/-! From the text of a program to the frames that its notes are handed out for. -/
namespace Bipscript

namespace Duration

/-- A fraction of a bar that is in one part, or in so many. -/
structure OnGrid (perBar : ℕ) (d : Duration) : Prop where
  normal : d.position < d.division
  division : d.division = 1 ∨ d.division = perBar

variable {perBar : ℕ} {p d : Duration}

theorem OnGrid.division_le (h : OnGrid perBar d) (hpos : 0 < perBar) : d.division ≤ perBar := by
  have hdivision := h.division
  omega

/-- Sums need no other parts. -/
theorem OnGrid.fraction (hp : OnGrid perBar p) (hd : OnGrid perBar d) :
    ((p.fraction d).2 = 1 ∨ (p.fraction d).2 = perBar) ∧
      (p.fraction d).1 < 2 * (p.fraction d).2 := by
  have hpn := hp.normal
  have hdn := hd.normal
  unfold Duration.fraction
  split
  · exact ⟨hp.division, by dsimp only; omega⟩
  · rename_i hne
    rcases hp.division with h1 | h1 <;> rcases hd.division with h2 | h2
    · exact absurd (h1.trans h2.symm) hne
    · have hzero : p.position = 0 := by omega
      rw [h1, hzero, Nat.zero_mul, Nat.mul_one, Nat.one_mul, Nat.zero_add]
      exact ⟨Or.inr h2, by dsimp only; omega⟩
    · have hzero : d.position = 0 := by omega
      rw [h2, hzero, Nat.zero_mul, Nat.mul_one, Nat.mul_one, Nat.add_zero]
      exact ⟨Or.inr h1, by dsimp only; omega⟩
    · exact absurd (h1.trans h2.symm) hne

theorem onGrid_normalize {w a q : ℕ} (hw : w < 2 ^ 32) (hpos : 0 < perBar)
    (hmax : perBar ≤ MAX_DENOMINATOR) (hq : q = 1 ∨ q = perBar) :
    OnGrid perBar (normalize ⟨w, a, q⟩) := by
  have hunits : 1 ≤ MAX_DENOMINATOR := by decide
  rw [normalize_eq hw (by omega)]
  exact ⟨Nat.mod_lt _ (by omega), hq⟩

theorem onGrid_elapsed (hpos : 0 < perBar) (hmax : perBar ≤ MAX_DENOMINATOR) (ticks : ℕ) :
    OnGrid perBar (normalize ⟨0, ticks, perBar⟩) :=
  onGrid_normalize (by norm_num) hpos hmax (Or.inr rfl)

theorem onGrid_of_stands {counted : ℕ} (hpos : 0 < perBar) (h : Abc.Stands perBar d counted) :
    OnGrid perBar d := by
  rcases h with ⟨rfl, -⟩ | rfl
  · exact ⟨Nat.zero_lt_one, Or.inl rfl⟩
  · exact ⟨Nat.mod_lt _ hpos, Or.inr rfl⟩

end Duration

namespace Position

variable {perBar : ℕ} {p r : Position} {d : Duration}

theorem onGrid_setBar (bar : ℕ) (h : r.OnGrid perBar) : (r.setBar bar).OnGrid perBar :=
  ⟨h.normal, h.division⟩

theorem onGrid_add (hpos : 0 < perBar) (hmax : perBar ≤ Duration.MAX_DENOMINATOR)
    (hp : p.OnGrid perBar) (hd : d.OnGrid perBar) (h : p.add d = some r) : r.OnGrid perBar := by
  have hlimit : Duration.MAX_DENOMINATOR = 384000 := rfl
  have hle := hp.division_le hpos
  obtain ⟨hq, hlt⟩ := hp.fraction hd
  unfold Position.add at h
  split at h
  · cases h
  · obtain rfl := Option.some_inj.mp h
    show Duration.OnGrid perBar (p.sum d).normalize
    rw [Duration.sum_eq (by omega), Nat.mod_eq_of_lt (by omega : (p.fraction d).2 < 2 ^ 32)]
    exact Duration.onGrid_normalize (Nat.mod_lt _ (by norm_num)) hpos hmax hq

end Position

namespace Midi

open Duration

variable {perBar : ℕ} {position : Position} {note : PatternNote}

theorem Sink.onGrid_newPosition (hpos : 0 < perBar) (hmax : perBar ≤ MAX_DENOMINATOR)
    (hp : position.OnGrid perBar) (hn : note.position.OnGrid perBar) {p : Position}
    (h : Sink.newPosition position note = some p) : p.OnGrid perBar := by
  obtain ⟨r, hr, rfl⟩ := Option.map_eq_some_iff.mp h
  exact Position.onGrid_setBar _ (Position.onGrid_add hpos hmax hp hn hr)

/-- The sums of a note on the grid fit, as far as its bars do. -/
theorem Sink.fits_of_onGrid (hpos : 0 < perBar) (hmax : perBar ≤ MAX_DENOMINATOR)
    (hp : position.OnGrid perBar) (hn : note.position.OnGrid perBar)
    (hd : note.note.duration.OnGrid perBar)
    (hbar : 1 ≤ position.value + note.position.value ∧
      position.value + note.position.value < 2 ^ 32 + 1)
    (hstop : position.value + note.position.value - 1 + note.note.duration.value < 2 ^ 32) :
    Sink.Products position note ∧ Sink.Fits position note := by
  have hlimit : MAX_DENOMINATOR = 384000 := rfl
  obtain ⟨hq, hlt⟩ := hp.fraction hn
  have honset : (Sink.onset position note).OnGrid perBar :=
    onGrid_normalize (Nat.mod_lt _ (by norm_num)) hpos hmax hq
  obtain ⟨hq', hlt'⟩ := honset.fraction hd
  refine ⟨⟨by omega, fun p hp' => ?_⟩, ⟨by omega, hbar, by omega, hstop⟩⟩
  obtain ⟨hq'', -⟩ := (Sink.onGrid_newPosition hpos hmax hp hn hp').fraction hd
  omega

theorem Sink.onGrid_added {unset : ℤ} {channel : UInt8} {pattern : List PatternNote}
    {events : List (Event × Event)} (hpos : 0 < perBar) (hmax : perBar ≤ MAX_DENOMINATOR)
    (hp : position.OnGrid perBar)
    (hn : ∀ note ∈ pattern, note.position.OnGrid perBar ∧ note.note.duration.OnGrid perBar)
    (h : pattern.mapM (Sink.schedulePatternNote unset position channel) = some events) :
    ∀ e ∈ Sink.added events, e.pos.OnGrid perBar := by
  intro e he
  obtain ⟨pair, hpair, he⟩ := List.mem_flatMap.mp he
  obtain ⟨note, hnote, hschedule⟩ := Audio.Mixer.exists_of_mem_mapM h hpair
  obtain ⟨hposition, hduration⟩ := hn note hnote
  obtain ⟨p, hnew, hschedule⟩ := Option.bind_eq_some_iff.mp hschedule
  obtain ⟨q, hadd, rfl⟩ := Option.map_eq_some_iff.mp hschedule
  have hgrid := Sink.onGrid_newPosition hpos hmax hp hposition hnew
  rcases List.mem_pair.mp he with rfl | rfl
  · exact hgrid
  · exact Position.onGrid_add hpos hmax hgrid hduration hadd

namespace MMLReader

open Tinymml Playback PortRuns Transition Transport

/-- What a note's code says, while its bar fits. -/
theorem Coded.spec {added : PatternNote} {n : Sounded} (hpos : 0 < perBar)
    (hmax : perBar ≤ MAX_DENOMINATOR) (h : Coded perBar added n)
    (hfits : 1 + n.start / perBar < 2 ^ 32) :
    added.Stored ∧ (added.position.OnGrid perBar ∧ added.note.duration.OnGrid perBar) ∧
      Right perBar added n := by
  have hlimit : MAX_DENOMINATOR = 384000 := rfl
  have hgrid := onGrid_of_stands hpos h.start
  have hduration : added.note.duration.OnGrid perBar := by
    rw [h.length]
    exact onGrid_elapsed hpos hmax n.length
  have hle := hgrid.division_le hpos
  have hle' := hduration.division_le hpos
  have hnormal := hgrid.normal
  have hnormal' := hduration.normal
  refine ⟨⟨⟨?_, by omega, by omega, by omega⟩, ⟨?_, by omega, by omega, by omega⟩⟩,
    ⟨hgrid, hduration⟩, (right_iff hpos hmax h).mpr hfits⟩
  · rcases h.start with ⟨hfirst, -⟩ | hat
    · rw [hfirst]
      decide
    · rw [hat]
      exact Nat.mod_lt _ (by norm_num)
  · rw [h.length, elapsed_eq hmax h.length_lt]
    exact (Nat.div_le_self _ _).trans_lt h.length_lt

/-- The bars that a note reaches into fit in 32 bits. -/
def Reaches (perBar : ℕ) (position : Position) (x : Sounded) : Prop :=
  position.value + ((x.start : ℚ) + x.length) / perBar < 2 ^ 32

/-- What is coded can be scheduled on the grid. -/
theorem Coded.fits {x : Sounded} (hpos : 0 < perBar) (hmax : perBar ≤ MAX_DENOMINATOR)
    (hp : position.OnGrid perBar) (hwhole : 1 ≤ position.whole) (h : Coded perBar note x)
    (hreach : Reaches perBar position x) :
    note.Stored ∧ (note.position.OnGrid perBar ∧ note.note.duration.OnGrid perBar) ∧
      Right perBar note x ∧ Sink.Products position note ∧ Sink.Fits position note := by
  have hperBar : (0 : ℚ) < perBar := by exact_mod_cast hpos
  have hvalue : (1 : ℚ) ≤ position.value := by
    have hle := position.whole_le_value
    have hone : (1 : ℚ) ≤ position.whole := by exact_mod_cast hwhole
    exact hone.trans hle
  have hlength : (0 : ℚ) ≤ (x.length : ℚ) / perBar := by positivity
  unfold Reaches at hreach
  rw [add_div] at hreach
  have hstart : 1 + x.start / perBar < 2 ^ 32 := by
    have hfloor : ((x.start / perBar : ℕ) : ℚ) ≤ (x.start : ℚ) / perBar := Nat.cast_div_le
    have hlt : ((1 + x.start / perBar : ℕ) : ℚ) < 2 ^ 32 := by
      push_cast
      linarith
    exact_mod_cast hlt
  obtain ⟨hstored, hgrid, hright⟩ := h.spec hpos hmax hstart
  have hnonneg : (0 : ℚ) ≤ (x.start : ℚ) / perBar := by positivity
  have hfits := Sink.fits_of_onGrid hpos hmax hp hgrid.1 hgrid.2
    (by rw [hright.start]; constructor <;> linarith)
    (by rw [hright.start, hright.length]; linarith)
  exact ⟨hstored, hgrid, hright, hfits⟩

theorem exists_of_forall₂ {β γ : Type*} {R : β → γ → Prop} {l : List β} {l' : List γ}
    (h : List.Forall₂ R l l') {x : β} (hx : x ∈ l) : ∃ y ∈ l', R x y := by
  induction h with
  | nil => cases hx
  | @cons z y l l' hzy _ ih =>
    rcases List.mem_cons.mp hx with rfl | hx
    · exact ⟨y, List.mem_cons_self, hzy⟩
    · obtain ⟨y', hy', hxy⟩ := ih hx
      exact ⟨y', List.mem_cons_of_mem _ hy', hxy⟩

theorem getElem?_of_forall₂ {β γ : Type*} {R : β → γ → Prop} {l : List β} {l' : List γ}
    (h : List.Forall₂ R l l') {i : ℕ} {y : γ} (hy : l'[i]? = some y) :
    ∃ x, l[i]? = some x ∧ R x y := by
  induction h generalizing i with
  | nil => simp at hy
  | @cons x z l l' hxz _ ih =>
    cases i with
    | zero =>
      obtain rfl : z = y := Option.some_inj.mp hy
      exact ⟨x, rfl, hxz⟩
    | succ i => exact ih hy

/-- The events of a coded pattern on the grid: they are told apart, and none is before the first
bar. -/
theorem exists_events {pattern : List PatternNote} {l : List Sounded} {unset : ℤ} {channel : UInt8}
    (hpos : 0 < perBar) (hmax : perBar ≤ 2 ^ 16) (hp : position.OnGrid perBar)
    (hwhole : 1 ≤ position.whole) (hchannel : 1 ≤ channel ∧ channel ≤ 16)
    (hcoded : List.Forall₂ (Coded perBar) pattern l) (hreach : ∀ x ∈ l, Reaches perBar position x)
    (k : ℕ) :
    ∃ events, Sink.schedule unset pattern position channel = .ok (some events) ∧
      Comparable (placesOf (tag k events)) ∧ (tag k events).length = 2 * l.length := by
  have hlimit : perBar ≤ MAX_DENOMINATOR := hmax.trans (by decide)
  have hall : ∀ note ∈ pattern, ∃ x, note.Stored ∧
      (note.position.OnGrid perBar ∧ note.note.duration.OnGrid perBar) ∧ Right perBar note x ∧
      Sink.Products position note ∧ Sink.Fits position note := by
    intro note hnote
    obtain ⟨x, hx, h⟩ := exists_of_forall₂ hcoded hnote
    exact ⟨x, h.fits hpos hlimit hp hwhole (hreach x hx)⟩
  have hdivision := hp.division_le hpos
  obtain ⟨events, hevents, hbounded, hiff⟩ := Sink.exists_schedule unset hchannel
    (by omega : position.division < 2 ^ 32) fun note hnote => by
      obtain ⟨x, hstored, -, -, hproducts, -⟩ := hall note hnote
      exact ⟨hstored, hproducts⟩
  have hplaced := hiff.mpr fun note hnote => by
    obtain ⟨x, -, -, -, -, hfits⟩ := hall note hnote
    exact hfits
  have hvalue : (1 : ℚ) ≤ position.value := by
    have hone : (1 : ℚ) ≤ position.whole := by exact_mod_cast hwhole
    exact hone.trans position.whole_le_value
  refine ⟨events, hevents, comparable_tag hbounded (fun e he => ?_) fun x hx y hy => ?_, ?_⟩
  · obtain ⟨pair, hpair, he⟩ := List.mem_flatMap.mp he
    obtain ⟨i, hi⟩ := List.mem_iff_getElem?.mp hpair
    obtain ⟨note, hnote, hplace⟩ := getElem?_of_forall₂ hplaced hi
    obtain ⟨x, -, -, hright, -⟩ := hall note (List.mem_of_getElem? hnote)
    have hstart : (0 : ℚ) ≤ (x.start : ℚ) / perBar := by positivity
    have hduration := note.note.duration.value_nonneg
    rcases List.mem_pair.mp he with rfl | rfl
    · rw [hplace.on, hright.start]
      linarith
    · rw [hplace.off, hright.start]
      linarith
  · have hgrid := Sink.onGrid_added hpos hlimit hp (fun note hnote => by
      obtain ⟨x, -, hgrid, -⟩ := hall note hnote
      exact hgrid) (mapM_of_schedule hevents)
    have hx' := (hgrid x hx).division_le hpos
    have hy' := (hgrid y hy).division_le hpos
    have hproduct := Nat.mul_le_mul (hx'.trans hmax) (hy'.trans hmax)
    exact hproduct.trans (by norm_num)
  · have htag := congrArg List.length (map_tag k events)
    rw [List.length_map, List.length_map, Sink.length_added, ← hplaced.length_eq,
      hcoded.length_eq] at htag
    exact htag

/-- A score from a position on is ahead of one frame by the cycles that empty a full queue, and past
at another. -/
structure Between (m : Master) (rate : ℕ) (n : ℤ) (perBar : ℕ) (position : Position)
    (l : List Sounded) (bufferSize frame frame' : ℕ) : Prop where
  ahead : ∀ x ∈ l, (frame + 64 * bufferSize : ℕ) + framesPerTick m rate ≤
    frameOf m rate n (position.value + (x.start : ℚ) / perBar)
  past : ∀ x ∈ l, frameOf m rate n (position.value + ((x.start : ℚ) + x.length) / perBar) +
    3 / 2 * framesPerTick m rate ≤ frame'

/-- The notes of a score from a position on are handed out, the first as the `k`th. -/
def PlayedOut (m : Master) (rate : ℕ) (n : ℤ) (perBar : ℕ) (position : Position)
    (l : List Sounded) (channel : UInt8) (k : ℕ) (written : List (ℕ × PortRuns.Event)) : Prop :=
  ∀ i x, l[i]? = some x → ∃ note : Note, note.value = x.pitch ∧
    note.duration.value = (x.length : ℚ) / perBar ∧
    Performed m rate n written channel (k + i) note (position.value + (x.start : ℚ) / perBar)

/-- What a run makes of a coded pattern. -/
theorem playedOut_of_run {m : Master} {n : ℤ} {bufferSize first k : ℕ} {pos : TimebasePosition}
    {positions : Set Position} {pattern : List PatternNote} {l : List Sounded} {unset : ℤ}
    {channel : UInt8} {events : List (Event × Event)} {acts acts' : List (Playback.Act Tagged)}
    {u t : Playback.State Tagged} (hset : Settings m pos.frameRate n positions)
    (hslow : framesPerTick m pos.frameRate < 257) (hpos : 0 < perBar)
    (hmax : perBar ≤ MAX_DENOMINATOR) (hp : position.OnGrid perBar) (hwhole : 1 ≤ position.whole)
    (hcoded : List.Forall₂ (Coded perBar) pattern l) (hreach : ∀ x ∈ l, Reaches perBar position x)
    (hevents : Sink.schedule unset pattern position channel = .ok (some events))
    (hrun : Run (restrict (fun _ => Playback.Adds positions) (Step bufferSize)) (.start m pos first)
      acts u)
    (hadds : ∀ e ∈ tag k events, e ∈ adds acts)
    (hrun' : Run (restrict (fun _ => Playback.Adds positions) (Step bufferSize)) u acts' t)
    (hready : t.cycle = .ready)
    (hbetween : Between m pos.frameRate n perBar position l bufferSize u.frame t.frame) :
    PlayedOut m pos.frameRate n perBar position l channel k t.written := by
  intro i x hx
  have hmem := List.mem_of_getElem? hx
  have hlimit : MAX_DENOMINATOR = 384000 := rfl
  have hdivision := hp.division_le hpos
  obtain ⟨note, hnote, hcode⟩ := getElem?_of_forall₂ hcoded hx
  obtain ⟨hstored, -, hright, hproducts, hfits⟩ := hcode.fits hpos hmax hp hwhole (hreach x hmem)
  have hstart : position.value + note.position.value - 1 =
      position.value + (x.start : ℚ) / perBar := by
    rw [hright.start]
    ring
  have hstop : position.value + (x.start : ℚ) / perBar + note.note.duration.value =
      position.value + ((x.start : ℚ) + x.length) / perBar := by
    rw [hright.length]
    ring
  have hperformed := performed_of_run hset hslow (by omega) hevents hrun hadds hrun' hready hnote
    hstored hproducts hfits (by rw [hstart]; exact hbetween.ahead x hmem)
    (by rw [hstart, hstop]; exact hbetween.past x hmem)
  rw [hstart] at hperformed
  exact ⟨note.note, hright.pitch, hright.length, hperformed⟩

/-- From text to frames: a text that spells a program is read as a pattern that can be scheduled
from any position on the grid, and then, among whatever else, every note of what the program means
is handed out near the frames that exact arithmetic gives for its ends. -/
theorem read_performed {r : MMLReader} (hr : r.Idle) (hchord : r.chord = []) {p : Program}
    {text : List Char} (hu : SpelledBy p text) (hdepth : p.depth ≤ 8) {time : TimeSignature}
    {ticksPerBar : UInt32} (hbar : barTicks optionDefault time = some ticksPerBar)
    (hpos : 0 < ticksPerBar.toNat) (hmax : ticksPerBar.toNat ≤ 2 ^ 16)
    (hp : position.OnGrid ticksPerBar.toNat) (hwhole : 1 ≤ position.whole) {channel : UInt8}
    (hchannel : 1 ≤ channel ∧ channel ≤ 16)
    (hreach : ∀ x ∈ score [] (p.meaning .default).1, Reaches ticksPerBar.toNat position x)
    (unset : ℤ) (k : ℕ) :
    ∃ s events, r.read time text = .returned s ∧
      Sink.schedule unset s.pattern position channel = .ok (some events) ∧
      Comparable (placesOf (tag k events)) ∧
      (tag k events).length = 2 * (score [] (p.meaning .default).1).length ∧
      ∀ (m : Master) (n : ℤ) (pos : TimebasePosition) (bufferSize first : ℕ)
        (acts acts' : List (Playback.Act Tagged)) (u t : Playback.State Tagged), m.beatsPerBar = n →
        m.doForceBeat = false → 0 < pos.frameRate → framesPerTick m pos.frameRate < 257 →
        Run (Step bufferSize) (.start m pos first) acts u → (∀ e ∈ tag k events, e ∈ adds acts) →
        Run (Step bufferSize) u acts' t → Comparable (placesOf (adds acts ++ adds acts')) →
        t.cycle = .ready →
        Between m pos.frameRate n ticksPerBar.toNat position (score [] (p.meaning .default).1)
          bufferSize u.frame t.frame →
        PlayedOut m pos.frameRate n ticksPerBar.toNat position (score [] (p.meaning .default).1)
          channel k t.written := by
  have hlimit : ticksPerBar.toNat ≤ MAX_DENOMINATOR := hmax.trans (by decide)
  obtain ⟨s, hread, hcoded⟩ := read_coded hr hchord hu hdepth hbar hpos hlimit
  obtain ⟨events, hevents, hcomparable, hlength⟩ :=
    exists_events hpos hmax hp hwhole hchannel hcoded hreach k
  refine ⟨s, events, hread, hevents, hcomparable, hlength, ?_⟩
  intro m n pos bufferSize first acts acts' u t hmeter hforce hrate hslow hrun hadds hrun' hall
    hready hbetween
  obtain ⟨hrun, hrun'⟩ := restrict_placesOf hrun hrun'
  exact playedOut_of_run ⟨hmeter, hforce, hrate, hall⟩ hslow hpos hlimit hp hwhole hcoded hreach
    hevents hrun hadds hrun' hready hbetween

/-- The second bar. -/
def secondBar : Position := ⟨⟨2, 0, 1⟩, Nat.zero_lt_one⟩

theorem score_riff : ∀ x ∈ score [] (riff.meaning .default).1,
    0 ≤ (x.start : ℚ) / 1920 ∧ ((x.start : ℚ) + x.length) / 1920 ≤ 1 := by
  have hscore : ∀ x ∈ score [] (riff.meaning .default).1, x.start + x.length ≤ 1920 := by
    rw [riff_meaning]
    decide +kernel
  intro x hx
  have hle : ((x.start + x.length : ℕ) : ℚ) ≤ (1920 : ℕ) := by exact_mod_cast hscore x hx
  push_cast at hle
  refine ⟨by positivity, ?_⟩
  rw [div_le_one (by norm_num)]
  exact hle

theorem spelledBy_riff : SpelledBy riff "l4 [c e+8. ]> r ".toList := by
  have hupper : ("l4 [c e+8. ]> r ".toList.takeWhile (· ≠ '\x00')).map Char.toUpper =
      riff.text := by decide
  unfold SpelledBy
  rw [hupper]
  exact spells_text riff_fits

theorem between_riff {frame frame' : ℕ} (hframe : frame = 0) (hframe' : frame' = 204800) :
    Between fourFour origin.frameRate 4 1920 secondBar (score [] (riff.meaning .default).1) 1024
      frame frame' := by
  have hpace := exactFrame_secondBeat.2
  have hrate : 0 < origin.frameRate := by decide
  have hmeter : fourFour.beatsPerBar = ((4 : ℤ) : ℚ) := by norm_num [fourFour, Master.new]
  have hsecond : secondBar.value = 2 := by norm_num [secondBar, Duration.value]
  have hbars : frameOf fourFour origin.frameRate 4 2 = 96000 ∧
      frameOf fourFour origin.frameRate 4 3 = 192000 := by
    unfold frameOf
    rw [hpace]
    norm_num [ticksPerBeat]
  subst hframe hframe'
  refine ⟨fun x hx => ?_, fun x hx => ?_⟩
  · have hle :=
      frameOf_mono hmeter hrate (le_add_of_nonneg_right (a := (2 : ℚ)) (score_riff x hx).1)
    rw [hbars.1] at hle
    rw [hsecond, hpace]
    push_cast
    linarith
  · have hle := frameOf_mono hmeter hrate
      (by linarith [(score_riff x hx).2] : 2 + ((x.start : ℚ) + x.length) / 1920 ≤ 3)
    rw [hbars.2] at hle
    rw [hsecond, hpace]
    push_cast
    linarith

/-- In lower case, at the second bar, with the transport at the first. -/
theorem read_performed_riff :
    ∃ (s : MMLReader) (events : List (Event × Event)) (acts acts' : List (Playback.Act Tagged))
      (u t : Playback.State Tagged),
      (new ⟨optionDefault, [], 0, .init, [], []⟩ [] 0).read ⟨true, 4, 4⟩
        "l4 [c e+8. ]> r ".toList = .returned s ∧
      Sink.schedule 0 s.pattern secondBar 1 = .ok (some events) ∧
      Run (Step 1024) (.start fourFour origin 1024) acts u ∧ Run (Step 1024) u acts' t ∧
      PlayedOut fourFour origin.frameRate 4 1920 secondBar (score [] (riff.meaning .default).1) 1 0
        t.written := by
  have hbar : barTicks optionDefault ⟨true, 4, 4⟩ = some 1920 := by decide
  have hgrid : secondBar.OnGrid (1920 : UInt32).toNat := ⟨by decide, Or.inl rfl⟩
  have hreach : ∀ x ∈ score [] (riff.meaning .default).1,
      Reaches (1920 : UInt32).toNat secondBar x := by
    intro x hx
    have hle := (score_riff x hx).2
    have hsecond : secondBar.value = 2 := by norm_num [secondBar, Duration.value]
    have hbar : ((1920 : UInt32).toNat : ℚ) = 1920 := by exact_mod_cast rfl
    unfold Reaches
    rw [hsecond, hbar]
    linarith
  obtain ⟨s, events, hread, hevents, hcomparable, hlength, hruns⟩ :=
    read_performed (idle_new _ _ _) rfl spelledBy_riff (by decide) hbar (by decide) (by decide)
      hgrid
      (by decide) (show (1 : UInt8) ≤ 1 ∧ (1 : UInt8) ≤ 16 by decide) hreach 0 0
  have hroom : (tag 0 events).length ≤ EventBuffer.CAPACITY := by
    rw [hlength, riff_meaning]
    decide +kernel
  have hmeter : fourFour.beatsPerBar = ((4 : ℤ) : ℚ) := by norm_num [fourFour, Master.new]
  have hslow : framesPerTick fourFour origin.frameRate < 257 := by
    rw [exactFrame_secondBeat.2]
    norm_num
  obtain ⟨u, acts, t, hrun, hframe, hrun', hadds, hready, hframe'⟩ := exists_playback hmeter rfl
    (by decide : 0 < origin.frameRate) (by decide : 0 < 1024) hroom hcomparable 1024 200
  have hplayed := hruns fourFour 4 origin 1024 1024 _ acts u t hmeter rfl (by decide) hslow hrun
    (fun e he => by rwa [adds_map]) hrun' (by rwa [adds_map, hadds, List.append_nil]) hready
    (between_riff hframe hframe')
  exact ⟨s, events, _, acts, u, t, hread, hevents, hrun, hrun', hplayed⟩

end MMLReader

end Midi

end Bipscript
