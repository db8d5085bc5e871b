import Bipscript.EventOrder
import Bipscript.TransportRuns

/-! A buffer of events while the transport rolls on under the master: which frames they are handed
out for. -/
namespace Bipscript.Playback

open Transport Master EventBuffer Transition

/-- `frame_rate * 60 / (ticks_per_beat * beats_per_minute)`. -/
def framesPerTick (m : Master) (frameRate : ℕ) : ℚ := frameRate * 60 / (ticksPerBeat * m.bpm)

/-- Ticks from the first bar to a position, in bars of `n` beats. -/
def exactTick (n : ℤ) (p : Position) : ℚ := (p.value - 1) * n * ticksPerBeat

/-- Frames from the origin of the transport to a position. -/
def exactFrame (m : Master) (frameRate : ℕ) (n : ℤ) (p : Position) : ℚ :=
  exactTick n p * framesPerTick m frameRate

/-- The process thread is before `process`, in the loop over due events, or before the timebase
callback. -/
inductive CyclePC
  | ready
  | delivering (nframes : ℕ)
  | processed (nframes : ℕ)

/-- The last two fields keep account of the events handed out, with the frame of the transport that
each is for, and of those recycled without. -/
structure State (α : Type*) where
  cycle : CyclePC
  timebase : Timebase
  buffer : EventBuffer α
  written : List (ℕ × Event α)
  discarded : List (Event α)

variable {α : Type*}

namespace State

/-- The first frame of the cycle. -/
def frame (s : State α) : ℕ := s.timebase.2.frame

/-- What the process thread does with a fetched event, and when there is none. -/
def fetch (nframes : ℕ) (r : Fetch α) (s : State α) : State α :=
  { s with
    cycle := if r.event.isSome then s.cycle else .processed nframes
    buffer := r.buffer
    written := s.written ++ r.event.toList.map fun e => (s.frame + e.frameOffset.toNat, e)
    discarded := s.discarded ++ r.recycled }

/-- The transport has been moved to a frame, where it starts to roll. -/
def start (m : Master) (pos : TimebasePosition) (nframes : ℕ) : State α :=
  ⟨.ready, m.setTime nframes pos true, .empty, [], []⟩

end State

inductive Act (α : Type*)
  | addEvent (e : Event α)
  | process (nframes : ℕ)
  | getNextEvent
  | setTime

/-- The script adds events at any time; the callbacks take turns. -/
inductive Step (bufferSize : ℕ) : State α → Act α → State α → Prop
  | addEvent {s : State α} {e : Event α} {buffer : EventBuffer α}
      (hb : s.buffer.addEvent e = some buffer) :
      Step bufferSize s (.addEvent e) { s with buffer := buffer }
  | process {s : State α} {nframes : ℕ} (hc : s.cycle = .ready) (hpos : 0 < nframes)
      (hle : nframes ≤ bufferSize) :
      Step bufferSize s (.process nframes) { s with cycle := .delivering nframes }
  | getNextEvent {s : State α} {nframes : ℕ} {r : Fetch α} (hc : s.cycle = .delivering nframes)
      (hr : s.buffer.getNextEvent mul32 true s.timebase.2.toJackPosition nframes = r) :
      Step bufferSize s .getNextEvent (s.fetch nframes r)
  | setTime {s : State α} {nframes : ℕ} (hc : s.cycle = .processed nframes) :
      Step bufferSize s .setTime { s with
        cycle := .ready
        timebase := s.timebase.1.setTime nframes
          { s.timebase.2 with frame := s.timebase.2.frame + nframes } false }

/-- The script adds no event but at these positions. -/
def Adds (positions : Set Position) : Act α → Prop
  | .addEvent e => e.pos ∈ positions
  | _ => True

/-- Positions from the first bar on that compare on the machine as in exact arithmetic. -/
structure Comparable (positions : Set Position) : Prop where
  bar : ∀ p ∈ positions, p.whole ≠ 0
  inOrder : ∀ p ∈ positions, ∀ q ∈ positions, Duration.InOrder p.toDuration q.toDuration

section Tempo

variable {m : Master} {rate : ℕ} {n : ℤ} {lag : ℚ} {s : Timebase} {p : Position}

theorem framesPerTick_pos (hrate : 0 < rate) : 0 < framesPerTick m rate := by
  have hbpm := m.bpm_pos
  have hrate' : (0 : ℚ) < rate := by exact_mod_cast hrate
  unfold framesPerTick ticksPerBeat
  positivity

/-- Frames to ticks and back. -/
theorem ticks_mul_framesPerTick (hrate : 0 < rate) (frames : ℕ) :
    m.ticks rate frames * framesPerTick m rate = frames := by
  have hbpm := m.bpm_pos
  have hrate' : (0 : ℚ) < rate := by exact_mod_cast hrate
  unfold Master.ticks framesPerTick ticksPerBeat
  field_simp

theorem ticks_mono {frames frames' : ℕ} (hrate : 0 < rate) (h : frames ≤ frames') :
    m.ticks rate frames ≤ m.ticks rate frames' := by
  have hf := framesPerTick_pos (m := m) hrate
  rw [← mul_le_mul_iff_of_pos_right hf, ticks_mul_framesPerTick hrate,
    ticks_mul_framesPerTick hrate]
  exact_mod_cast h

/-- The transport rolls on under a master whose tempo and meter stay; `lag` is what a relocation cut
off. -/
structure Rolls (m : Master) (rate : ℕ) (n : ℤ) (lag : ℚ) (s : Timebase) : Prop where
  tracks : Tracks m rate n (m.ticks rate s.2.frame - lag) s
  unit : s.2.ticksPerBeat = ticksPerBeat
  meter : s.2.beatsPerBar = n
  tempo : s.2.beatsPerMinute = m.bpm

theorem Rolls.beats_pos (h : Rolls m rate n lag s) : 1 ≤ n :=
  h.tracks.inBar.beat_pos.trans h.tracks.inBar.beat_le

theorem frame_setTime_true (hf : m.doForceBeat = false) (pos : TimebasePosition) (nframes : ℕ) :
    (m.setTime nframes pos true).2.frame = pos.frame := by
  have heq : m.setTime nframes pos true = m.locate (m.stamp pos) := applyForceBeat_of_not hf
  rw [heq, locate_eq]
  rfl

theorem rolls_setTime_true (hn : m.beatsPerBar = n) (hf : m.doForceBeat = false)
    (pos : TimebasePosition) (nframes : ℕ) :
    Rolls m pos.frameRate n (Int.fract (m.ticks pos.frameRate pos.frame))
      (m.setTime nframes pos true) := by
  have heq : m.setTime nframes pos true = m.locate (m.stamp pos) := applyForceBeat_of_not hf
  have hticks : m.ticks pos.frameRate (m.setTime nframes pos true).2.frame -
      Int.fract (m.ticks pos.frameRate pos.frame) = m.located pos := by
    rw [frame_setTime_true hf]
    exact Int.self_sub_fract _
  refine ⟨?_, ?_, ?_, ?_⟩
  · rw [hticks]
    exact (tracks_setTime hn hf nframes pos).1
  · rw [heq, locate_eq]
    rfl
  · rw [heq, locate_eq]
    exact hn
  · rw [heq, locate_eq]
    rfl

theorem header_carry (s : Timebase) : (carry s).2.header = s.2.header :=
  carry_rule (I := fun t => t.2.header = s.2.header)
    (fun t _ h => (nextBeat_header t.1 { t.2 with tick := t.2.tick - ticksPerBeat }).trans h) s rfl

theorem Rolls.setTime (hn : m.beatsPerBar = n) (hf : m.doForceBeat = false)
    (h : Rolls m rate n lag s) (nframes : ℕ) :
    Rolls m rate n lag (s.1.setTime nframes { s.2 with frame := s.2.frame + nframes } false) ∧
      (s.1.setTime nframes { s.2 with frame := s.2.frame + nframes } false).2.frame =
        s.2.frame + nframes := by
  generalize hp : { s.2 with frame := s.2.frame + nframes } = placed
  have hframe : placed.frame = s.2.frame + nframes := by rw [← hp]
  have hplaced : Tracks m rate n (m.ticks rate s.2.frame - lag) (s.1, s.1.stamp placed) := by
    rw [← hp]
    exact ⟨h.tracks.same, h.tracks.rate, ⟨h.tracks.inBar.beat_pos, h.tracks.inBar.beat_le,
      h.tracks.inBar.start⟩, h.tracks.sum, h.tracks.low, h.tracks.high⟩
  have htracks := hplaced.advance hn nframes
  have hforce : (s.1.advance nframes (s.1.stamp placed)).1.doForceBeat = false := by
    rw [htracks.same]
    exact hf
  have heq : s.1.setTime nframes placed false = s.1.advance nframes (s.1.stamp placed) :=
    applyForceBeat_of_not hforce
  -- the loop over beats leaves what is stamped
  have hheader : (s.1.advance nframes (s.1.stamp placed)).2.header = (s.1.stamp placed).header :=
    header_carry _
  have hmaster : s.1.beatsPerBar = n ∧ s.1.bpm = m.bpm := by
    rw [h.tracks.same]
    exact ⟨hn, rfl⟩
  simp only [TimebasePosition.header, Prod.mk.injEq] at hheader
  obtain ⟨-, hframe', -, htpb, hbpb, -, hbpm⟩ := hheader
  have hlands := hframe'.trans hframe
  rw [heq]
  refine ⟨⟨?_, htpb, hbpb.trans hmaster.1, hbpm.trans hmaster.2⟩, hlands⟩
  rw [hlands, ticks_add, add_sub_right_comm]
  exact htracks

/-- The ticks from a position of the transport to an event's tick, in frames. -/
theorem Rolls.calculateFrameOffset_eq (h : Rolls m rate n lag s) (p : Position) :
    calculateFrameOffset p.toDuration s.2.toJackPosition =
      truncate ((⌊exactTick n p⌋ - Transport.absoluteTick n s.2 : ℤ) * framesPerTick m rate) := by
  have hn := h.beats_pos
  have hn' : (0 : ℚ) < n := by exact_mod_cast hn
  have hevt : evtTick p.toDuration s.2.toJackPosition =
      ⌊(p.position * ticksPerBeat * n / p.division : ℚ)⌋ := by
    unfold evtTick
    rw [h.unit, h.meter]
    apply truncate_of_nonneg
    unfold ticksPerBeat
    positivity
  have hexact : exactTick n p =
      p.position * ticksPerBeat * n / p.division +
        (((p.whole : ℤ) - 1) * n * ticksPerBeat : ℤ) := by
    unfold exactTick Duration.value
    push_cast
    ring
  have htick : tickOffset p.toDuration s.2.toJackPosition =
      ⌊exactTick n p⌋ - Transport.absoluteTick n s.2 := by
    unfold tickOffset
    rw [hevt, h.unit, h.meter, hexact, Int.floor_add_intCast]
    have hint : ∀ k : ℤ, (((p.whole : ℤ) - s.2.bar : ℤ) * (n : ℚ) + 1 - s.2.beat) *
        (ticksPerBeat : ℚ) + k - s.2.tick =
          ((k + ((p.whole : ℤ) - 1) * n * ticksPerBeat - Transport.absoluteTick n s.2 : ℤ) :
            ℚ) := by
      intro k
      unfold Transport.absoluteTick
      push_cast
      ring
    rw [hint, truncate_intCast]
  unfold calculateFrameOffset
  rw [htick, h.unit, h.tempo, h.tracks.rate]
  congr 1
  unfold framesPerTick
  ring

/-- The tick shown is within half a tick of the ticks made since the relocation. -/
theorem Rolls.near (h : Rolls m rate n lag s) :
    m.ticks rate s.2.frame - lag - 1 / 2 ≤ Transport.absoluteTick n s.2 ∧
      Transport.absoluteTick n s.2 ≤ m.ticks rate s.2.frame - lag + 1 / 2 := by
  have hsum := h.tracks.sum
  have hlow := h.tracks.low
  have hhigh := h.tracks.high
  constructor <;> linarith

theorem le_truncate {k : ℤ} {q : ℚ} (hk : k ≤ 0) (h : (k : ℚ) - 1 < q) : k ≤ truncate q := by
  unfold truncate
  split
  · rename_i hq
    exact hk.trans (Int.floor_nonneg.mpr hq)
  · have : k - 1 < ⌈q⌉ := Int.lt_ceil.mpr (by push_cast; exact h)
    omega

theorem le_of_le_truncate {k : ℕ} {q : ℚ} (hk : 0 < k) (h : (k : ℤ) ≤ truncate q) :
    (k : ℚ) ≤ q := by
  unfold truncate at h
  split at h
  · exact_mod_cast Int.le_floor.mp h
  · rename_i hq
    have : ⌈q⌉ ≤ 0 := Int.ceil_le.mpr (by exact_mod_cast (not_le.mp hq).le)
    omega

theorem truncate_toNat (q : ℚ) :
    max 0 (q - 1) ≤ ((truncate q).toNat : ℚ) ∧ ((truncate q).toNat : ℚ) ≤ max 0 q := by
  unfold truncate
  split
  · rename_i hq
    have hfloor := Int.floor_nonneg.mpr hq
    have hcast : ((⌊q⌋.toNat : ℕ) : ℚ) = (⌊q⌋ : ℚ) := by exact_mod_cast Int.toNat_of_nonneg hfloor
    have hle := Int.floor_le q
    have hlt := Int.lt_floor_add_one q
    have hpos : (0 : ℚ) ≤ ⌊q⌋ := by exact_mod_cast hfloor
    rw [hcast, max_eq_right hq]
    exact ⟨max_le hpos (by linarith), hle⟩
  · rename_i hq
    have hceil : ⌈q⌉ ≤ 0 := Int.ceil_le.mpr (by exact_mod_cast (not_le.mp hq).le)
    rw [Int.toNat_of_nonpos hceil, Nat.cast_zero]
    exact ⟨max_le le_rfl (by linarith), le_max_left _ _⟩

/-- An event whose tick lies ahead, or less than a tick behind, is not late. -/
theorem Rolls.notLate (h : Rolls m rate n lag s) (hrate : 0 < rate)
    (hslow : framesPerTick m rate < 257)
    (hp : m.ticks rate s.2.frame - lag - 1 / 2 ≤ ⌊exactTick n p⌋) :
    -256 ≤ calculateFrameOffset p.toDuration s.2.toJackPosition := by
  have hf := framesPerTick_pos (m := m) hrate
  have hticks : (-1 : ℚ) ≤ (⌊exactTick n p⌋ - Transport.absoluteTick n s.2 : ℤ) := by
    have hhigh := h.near.2
    push_cast
    linarith
  have hmul := mul_le_mul_of_nonneg_right hticks hf.le
  rw [h.calculateFrameOffset_eq]
  apply le_truncate (by decide)
  push_cast at hmul ⊢
  linarith

/-- One that is not due in a cycle lies ahead of the next one. -/
theorem Rolls.ahead (h : Rolls m rate n lag s) (hrate : 0 < rate) {nframes : ℕ}
    (hpos : 0 < nframes)
    (hp : (nframes : ℤ) ≤ calculateFrameOffset p.toDuration s.2.toJackPosition) :
    m.ticks rate s.2.frame - lag + m.ticks rate nframes - 1 / 2 ≤ ⌊exactTick n p⌋ := by
  have hf := framesPerTick_pos (m := m) hrate
  rw [h.calculateFrameOffset_eq] at hp
  have hle := le_of_le_truncate hpos hp
  rw [← ticks_mul_framesPerTick (m := m) hrate nframes, mul_le_mul_iff_of_pos_right hf] at hle
  have hlow := h.near.1
  push_cast at hle
  linarith

theorem lt_of_le_truncate {k : ℤ} {q : ℚ} (h : k ≤ truncate q) : (k : ℚ) - 1 < q := by
  unfold truncate at h
  split at h
  · have hle := Int.le_floor.mp h
    linarith
  · have hlt := Int.lt_ceil.mp (Int.sub_one_lt_of_le h)
    push_cast at hlt
    exact hlt

theorem le_of_truncate_lt {k : ℤ} {q : ℚ} (hk : k ≤ 0) (h : truncate q < k) : q ≤ k - 1 := by
  by_contra hq
  have := le_truncate hk (not_le.mp hq)
  omega

/-- The frame that an event is handed out for is not before its place by more than a frame and one
and a half ticks; nor behind it, if it was ahead. -/
theorem Rolls.place (h : Rolls m rate n lag s) (hrate : 0 < rate) (hlag : 0 ≤ lag) (hlag' : lag < 1)
    (p : Position) :
    let frame : ℚ := (s.2.frame +
      (calculateFrameOffset p.toDuration s.2.toJackPosition).toNat : ℕ)
    exactFrame m rate n p - 3 / 2 * framesPerTick m rate - 1 < frame ∧
      (m.ticks rate s.2.frame - lag - 1 / 2 ≤ ⌊exactTick n p⌋ →
        frame < exactFrame m rate n p + 3 / 2 * framesPerTick m rate) := by
  intro frame
  have hf := framesPerTick_pos (m := m) hrate
  obtain ⟨hlow, hhigh⟩ := h.near
  obtain ⟨hge, hle⟩ := truncate_toNat
    ((⌊exactTick n p⌋ - Transport.absoluteTick n s.2 : ℤ) * framesPerTick m rate)
  rw [← h.calculateFrameOffset_eq] at hge hle
  have hfloor := Int.floor_le (exactTick n p)
  have hfloor' := Int.lt_floor_add_one (exactTick n p)
  have hframe : frame = m.ticks rate s.2.frame * framesPerTick m rate +
      (calculateFrameOffset p.toDuration s.2.toJackPosition).toNat := by
    rw [ticks_mul_framesPerTick hrate]
    exact Nat.cast_add _ _
  have hexact : exactFrame m rate n p = exactTick n p * framesPerTick m rate := rfl
  rw [hframe, hexact]
  push_cast at hge hle
  refine ⟨?_, fun hp => ?_⟩
  · have hbefore : 0 < (m.ticks rate s.2.frame + ⌊exactTick n p⌋ - Transport.absoluteTick n s.2 -
        exactTick n p + 3 / 2) * framesPerTick m rate := mul_pos (by linarith) hf
    have hoffset := (le_max_right _ _).trans hge
    linarith
  · rcases le_max_iff.mp hle with hnow | hoffset
    · have hbehind : 0 < (exactTick n p + 3 / 2 - m.ticks rate s.2.frame) *
          framesPerTick m rate := mul_pos (by linarith) hf
      linarith
    · have hbehind : 0 < (exactTick n p + 3 / 2 - m.ticks rate s.2.frame - ⌊exactTick n p⌋ +
          Transport.absoluteTick n s.2) * framesPerTick m rate := mul_pos (by linarith) hf
      linarith

/-- Nor is it behind its place by more than these and the grace period, if it was not late. -/
theorem Rolls.grace (h : Rolls m rate n lag s) (hrate : 0 < rate) (hlag' : lag < 1)
    (hp : -256 ≤ calculateFrameOffset p.toDuration s.2.toJackPosition) :
    ((s.2.frame + (calculateFrameOffset p.toDuration s.2.toJackPosition).toNat : ℕ) : ℚ) <
      exactFrame m rate n p + 3 / 2 * framesPerTick m rate + 257 := by
  have hf := framesPerTick_pos (m := m) hrate
  obtain ⟨hlow, hhigh⟩ := h.near
  have hfloor := Int.floor_le (exactTick n p)
  have hexact : exactFrame m rate n p = exactTick n p * framesPerTick m rate := rfl
  have hle := (truncate_toNat
    ((⌊exactTick n p⌋ - Transport.absoluteTick n s.2 : ℤ) * framesPerTick m rate)).2
  rw [← h.calculateFrameOffset_eq] at hle
  rw [h.calculateFrameOffset_eq] at hp
  have hgrace := lt_of_le_truncate hp
  have hbehind : 0 < (exactTick n p + 3 / 2 - m.ticks rate s.2.frame - ⌊exactTick n p⌋ +
    Transport.absoluteTick n s.2) * framesPerTick m rate := mul_pos (by linarith) hf
  rw [Nat.cast_add, hexact, ← ticks_mul_framesPerTick (m := m) hrate s.2.frame]
  push_cast at hgrace hle
  rcases le_max_iff.mp hle with hnow | hoffset <;> linarith

/-- A late event's place is past. -/
theorem Rolls.past (h : Rolls m rate n lag s) (hrate : 0 < rate) (hlag : 0 ≤ lag)
    (hp : calculateFrameOffset p.toDuration s.2.toJackPosition < -256) :
    exactFrame m rate n p + 257 < s.2.frame + 3 / 2 * framesPerTick m rate := by
  have hf := framesPerTick_pos (m := m) hrate
  obtain ⟨hlow, hhigh⟩ := h.near
  have hfloor' := Int.lt_floor_add_one (exactTick n p)
  have hexact : exactFrame m rate n p = exactTick n p * framesPerTick m rate := rfl
  rw [h.calculateFrameOffset_eq] at hp
  have hlate := le_of_truncate_lt (by decide) hp
  have hbehind : 0 < (m.ticks rate s.2.frame + 3 / 2 - exactTick n p + ⌊exactTick n p⌋ -
    Transport.absoluteTick n s.2) * framesPerTick m rate := mul_pos (by linarith) hf
  rw [hexact, ← ticks_mul_framesPerTick (m := m) hrate s.2.frame]
  push_cast at hlate
  linarith

theorem Rolls.exists_bbt (h : Rolls m rate n lag s) :
    ∃ pos : BBT, pos.toJackPosition = s.2.toJackPosition := by
  have hbeats := h.beats_pos
  refine ⟨⟨s.2.toJackPosition, ?_, ?_, ?_⟩, rfl⟩
  · rw [h.unit]
    norm_num [ticksPerBeat]
  · rw [h.meter]
    exact_mod_cast hbeats
  · rw [h.tempo]
    exact m.bpm_pos

end Tempo

end Bipscript.Playback
