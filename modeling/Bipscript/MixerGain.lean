import Bipscript.Mixer
import Bipscript.PositionOrder

/-! Scheduled gain changes over one period of a mixer. -/
namespace Bipscript.Audio.Mixer

variable {P : Type*} {mul : ℕ → ℕ → ℕ} {pos : BBT} {nframes t : ℕ} {S : Sources P}
  {audio : List (AudioConnection P)}

/-- Each event handed out is written once, at its frame or at frame 0, and recycled once, and no
event that is due is left in the buffer behind one. -/
structure AppliesGains (pos : JackPosition) (nframes : ℕ) (s : MixerPeriod P) : Prop where
  written : s.written.Perm (s.handedOut.map fun e => (e.frameOffset.toNat, e))
  recycled : s.recycled.Perm s.handedOut
  behind : s.handedOut ≠ [] → ∀ e ∈ s.mixer.gainEventBuffer.pending,
    EventBuffer.notLate pos e → (nframes : ℤ) ≤ e.frame pos

/-- An event held over a buffer, with the frames from `t` on to come. -/
structure Ahead (mul : ℕ → ℕ → ℕ) (pos : BBT) (nframes t : ℕ) (e : MixerGainEvent)
    (b : EventBuffer GainChange) : Prop where
  line : EventBuffer.InLine mul b
  ge : (t : ℤ) ≤ e.frameOffset
  lt : e.frameOffset < nframes
  first : ∀ y ∈ b.pending, e.frameOffset ≤ y.frame pos.toJackPosition

/-- Between frames: what has been recycled has been written, and the event held, if any, is the
first of those to come. -/
structure Held (mul : ℕ → ℕ → ℕ) (pos : BBT) (nframes t : ℕ) (s : MixerPeriod P) : Prop where
  written : s.written = s.recycled.map fun e => (e.frameOffset.toNat, e)
  handedOut : s.handedOut = s.recycled ++ s.event.toList
  holds : ∀ e, s.event = some e → Ahead mul pos nframes t e s.mixer.gainEventBuffer
  done : s.event = none → s.handedOut ≠ [] →
    ∀ y ∈ s.mixer.gainEventBuffer.pending, (nframes : ℤ) ≤ y.frame pos.toJackPosition

/-- The event pulled next is held over what remains. -/
theorem ahead_next {b : EventBuffer GainChange} {x : MixerGainEvent}
    (hb : EventBuffer.InLine mul b)
    (hge : ∀ y ∈ b.fetched, EventBuffer.notLate pos.toJackPosition y →
      (t : ℤ) ≤ y.frame pos.toJackPosition)
    (h : (b.getNextEvent mul true pos.toJackPosition nframes).event = some x) :
    Ahead mul pos nframes t x (b.getNextEvent mul true pos.toJackPosition nframes).buffer := by
  obtain ⟨e, hef, rfl, hen, hdue, -, hline, hlater⟩ := EventBuffer.getNextEvent_some hb h
  exact ⟨hline, hge e hef hen, hdue, hlater⟩

/-- The next event is pulled once the one held has been applied in its frame. -/
theorem held_apply {s : MixerPeriod P} {e : MixerGainEvent} (hs : Held mul pos nframes t s)
    (he : s.event = some e) (ht : e.frameOffset = t) :
    Held mul pos nframes t
      (getNextEvent mul true pos.toJackPosition nframes (applyEvent t e s)) := by
  obtain ⟨hline, -, -, hfirst⟩ := hs.holds e he
  refine ⟨?_, ?_, ?_, ?_⟩
  · simp [getNextEvent, applyEvent, hs.written, ht]
  · simp [getNextEvent, applyEvent, hs.handedOut, he]
  · intro x hx
    refine ahead_next hline ?_ hx
    intro y hy _
    exact ht ▸ hfirst y (EventBuffer.mem_fetched hy)
  · intro hn _ y hy
    have hlate : ∀ y ∈ s.mixer.gainEventBuffer.pending,
        EventBuffer.notLate pos.toJackPosition y := by
      intro y hy
      have := hfirst y hy
      exact decide_eq_true (by omega)
    obtain ⟨z, hz, hp, -⟩ := EventBuffer.mem_getNextEvent hy
    have hz' := EventBuffer.getNextEvent_none hline hlate hn z hz
    simpa only [Event.frame, hp] using hz'

/-- After the loop of frame `t` the event held is for a later frame. -/
theorem held_applyEvents (fuel : ℕ) {s : MixerPeriod P} (hs : Held mul pos nframes t s)
    (hfuel : s.event ≠ none → s.mixer.gainEventBuffer.pending.length < fuel) :
    Held mul pos nframes (t + 1)
      (applyEvents mul true pos.toJackPosition nframes t fuel s) := by
  induction fuel generalizing s with
  | zero =>
    have hnone : s.event = none := by
      by_contra hne
      exact absurd (hfuel hne) (by omega)
    exact ⟨hs.written, hs.handedOut, by simp [applyEvents, hnone], hs.done⟩
  | succ fuel ih =>
    simp only [applyEvents]
    cases he : s.event with
    | none => exact ⟨hs.written, hs.handedOut, by simp [he], hs.done⟩
    | some e =>
      have hlen := hfuel (by simp [he])
      by_cases ht : e.frameOffset = t
      · simp only [if_pos ht]
        refine ih (held_apply hs he ht) ?_
        intro hne
        have hlt := EventBuffer.getNextEvent_length mul true pos.toJackPosition nframes
          s.mixer.gainEventBuffer hne
        simp only [getNextEvent, applyEvent]
        omega
      · simp only [if_neg ht]
        refine ⟨hs.written, hs.handedOut, ?_, hs.done⟩
        intro x hx
        obtain rfl : e = x := Option.some.inj (he.symm.trans hx)
        obtain ⟨hline, hge, hlt, hfirst⟩ := hs.holds e he
        refine ⟨hline, ?_, hlt, hfirst⟩
        push_cast
        omega

theorem held_frameStep {s : MixerPeriod P} (hs : Held mul pos nframes t s) :
    Held mul pos nframes (t + 1)
      (frameStep mul true pos.toJackPosition nframes S audio s t) := by
  -- controllers and the mix touch neither the buffer nor the record
  have hcontrols : Held mul pos nframes t
      { s with mixer := { s.mixer with
        controlConnections := (updateGains S t s.mixer.controlConnections s.mixer.gain).1
        gain := (updateGains S t s.mixer.controlConnections s.mixer.gain).2 } } :=
    ⟨hs.written, hs.handedOut, hs.holds, hs.done⟩
  obtain ⟨hw, hh, hholds, hdone⟩ := held_applyEvents
    (s.mixer.gainEventBuffer.pending.length + 2) hcontrols (fun _ => by simp only; omega)
  exact ⟨hw, hh, hholds, hdone⟩

theorem held_frames {s : MixerPeriod P} (hs : Held mul pos nframes 0 s) (n : ℕ) :
    Held mul pos nframes n ((List.range n).foldl
      (frameStep mul true pos.toJackPosition nframes S audio) s) := by
  induction n with
  | zero => exact hs
  | succ n ih =>
    rw [List.range_succ, List.foldl_append]
    exact held_frameStep ih

/-- When every frame has passed nothing is held any more. -/
theorem Held.appliesGains {s : MixerPeriod P} (hs : Held mul pos nframes nframes s) :
    AppliesGains pos.toJackPosition nframes s := by
  have hnone : s.event = none := by
    cases he : s.event with
    | none => rfl
    | some e =>
      obtain ⟨-, hge, hlt, -⟩ := hs.holds e he
      omega
  have hh : s.handedOut = s.recycled := by simp [hs.handedOut, hnone]
  refine ⟨?_, ?_, ?_⟩
  · rw [hh, hs.written]
  · rw [hh]
  · intro hne y hy _
    exact hs.done hnone hne y hy

/-- An event in its grace window: its offset is negative, and it is not late. -/
def InGrace (pos : JackPosition) (e : MixerGainEvent) : Prop := -256 ≤ e.frame pos ∧ e.frame pos < 0

instance (pos : JackPosition) (e : MixerGainEvent) : Decidable (InGrace pos e) :=
  inferInstanceAs (Decidable (_ ∧ _))

theorem held_beginPeriod {m : Mixer P} (hb : EventBuffer.InLine mul m.gainEventBuffer)
    (hg : ∀ e ∈ m.gainEventBuffer.fetched, ¬ InGrace pos.toJackPosition e) :
    Held mul pos nframes 0 (m.beginPeriod mul true pos.toJackPosition nframes S) := by
  refine ⟨rfl, by simp [beginPeriod, getNextEvent], ?_, ?_⟩
  · intro x hx
    refine ahead_next hb ?_ hx
    intro y hy hn
    have hge := of_decide_eq_true hn
    by_contra hlt
    exact hg y hy ⟨hge, not_le.mp hlt⟩
  · intro hnone hne
    simp only [beginPeriod, getNextEvent] at hnone hne
    simp [hnone] at hne

variable (mul) in
/-- An event held whose offset is none of the frames is never applied. -/
theorem stuck_frames (pos : BBT) (nframes : ℕ) (S : Sources P) (audio : List (AudioConnection P))
    (s : MixerPeriod P) {e : MixerGainEvent} (he : s.event = some e) (frames : List ℕ)
    (hne : ∀ t ∈ frames, e.frameOffset ≠ t) :
    let r := frames.foldl (frameStep mul true pos.toJackPosition nframes S audio) s
    r.event = some e ∧ r.handedOut = s.handedOut ∧ r.written = s.written ∧
      r.mixer.gainEventBuffer = s.mixer.gainEventBuffer := by
  induction frames generalizing s with
  | nil => exact ⟨he, rfl, rfl, rfl⟩
  | cons t frames ih =>
    obtain ⟨ht, hrest⟩ := List.forall_mem_cons.mp hne
    simpa [frameStep, applyEvents, mix, he, ht] using
      ih (frameStep mul true pos.toJackPosition nframes S audio s t)
        (by simp [frameStep, applyEvents, he, ht]) hrest

/-- Over a rolling period every gain event of a buffer in line is applied exactly when none of the
events drained by the first call is in its grace window. -/
theorem appliesGains_iff {S : Sources P} {pos : BBT} {nframes : ℕ} {m : Mixer P}
    {r : MixerPeriod P} (hb : EventBuffer.InLine mul m.gainEventBuffer)
    (hr : m.doProcess mul true pos.toJackPosition nframes S = some r) :
    AppliesGains pos.toJackPosition nframes r ↔
      ∀ e ∈ m.gainEventBuffer.fetched, ¬ InGrace pos.toJackPosition e := by
  obtain ⟨audio, -, rfl⟩ := Option.map_eq_some_iff.mp hr
  constructor
  · rintro ⟨hw, -, -⟩ e he ⟨hge, hneg⟩
    cases hx : (m.gainEventBuffer.getNextEvent mul true pos.toJackPosition nframes).event with
    | none =>
      have := EventBuffer.getNextEvent_none_fetched hb hx e he (decide_eq_true hge)
      omega
    | some x =>
      obtain ⟨y, -, rfl, -, -, hmin, -⟩ := EventBuffer.getNextEvent_some hb hx
      have hy := hmin e he (decide_eq_true hge)
      have hbelow : ∀ t ∈ List.range nframes,
          (y.updateFrameOffset pos.toJackPosition).frameOffset ≠ t := by
        intro t _
        rw [Event.updateFrameOffset_frameOffset]
        omega
      obtain ⟨-, hh, hwr, -⟩ := stuck_frames mul pos nframes S audio
        (m.beginPeriod mul true pos.toJackPosition nframes S) hx _ hbelow
      -- the record still shows one event handed out and none written
      rw [hh, hwr] at hw
      simp [beginPeriod, getNextEvent, pullMappings, hx] at hw
  · intro hg
    exact (held_frames (held_beginPeriod hb hg) nframes).appliesGains

/-- On the machine an earlier position, from bar one on, is at or before a later one. -/
def KeepsOrder (positions : Set Position) : Prop :=
  ∀ a ∈ positions, ∀ b ∈ positions, a.whole ≠ 0 → a.value < b.value →
    a.toDuration.le mul32 b.toDuration = true

theorem keepsOrder_of_inOrder {positions : Set Position}
    (h : ∀ a ∈ positions, ∀ b ∈ positions, Duration.InOrder a.toDuration b.toDuration) :
    KeepsOrder positions := by
  intro a ha b hb _ hvalue
  rw [(h a ha b hb).le_eq]
  exact (Position.le_iff_value_le a b).mpr hvalue.le

/-- A buffer sorted by position, its events from bar one on and at the positions given. -/
structure Scheduled (positions : Set Position) (b : EventBuffer GainChange) : Prop where
  sorted : EventList.Sorted b.pending
  bars : ∀ e ∈ b.pending, e.getBar ≠ 0
  mem : ∀ e ∈ b.pending, e.pos ∈ positions

theorem Scheduled.inLine {positions : Set Position} {b : EventBuffer GainChange}
    (h : Scheduled positions b) (horder : KeepsOrder positions) : EventBuffer.InLine mul32 b :=
  ⟨h.sorted, h.bars, fun x hx y hy hlt =>
    horder x.pos (h.mem x hx) y.pos (h.mem y hy) (h.bars x hx) hlt⟩

def gainChangeAt (p : Position) : MixerGainEvent := ⟨p, 0, ⟨0, 0, 1⟩⟩

/-- A mixer with two gain changes: `a` in its list, `b` in its queue. -/
def scheduledTwice (P : Type*) (a b : Position) : Mixer P :=
  { Mixer.new 1 1 with gainEventBuffer := ⟨[gainChangeAt b], [gainChangeAt a]⟩ }

theorem Scheduled.pair {positions : Set Position} {a b : Position} (hvalue : a.value ≤ b.value)
    (hbar : a.whole ≠ 0) (hbar' : b.whole ≠ 0) (ha : a ∈ positions) (hb : b ∈ positions) :
    Scheduled positions (scheduledTwice P a b).gainEventBuffer := by
  refine ⟨List.pairwise_pair.mpr hvalue, ?_, ?_⟩
  · intro e he
    rcases List.mem_pair.mp he with rfl | rfl
    · exact hbar
    · exact hbar'
  · intro e he
    rcases List.mem_pair.mp he with rfl | rfl
    · exact ha
    · exact hb

/-- Put before `a`, `b` is applied in the last frame, and `a`, handed out after it, never. -/
theorem not_appliesGains {a b : Position} {pos : BBT} {nframes : ℕ} (S : Sources P)
    (hwhole : a.whole ≠ 0 ∧ b.whole ≠ 0) (hle : ¬ a.toDuration.le mul b.toDuration = true)
    (hzero : 0 ≤ calculateFrameOffset a.toDuration pos.toJackPosition)
    (hlt : calculateFrameOffset a.toDuration pos.toJackPosition < nframes)
    (heq : calculateFrameOffset b.toDuration pos.toJackPosition = nframes) :
    ∃ r, (scheduledTwice P a b).doProcess mul true pos.toJackPosition (nframes + 1) S = some r ∧
      ¬ AppliesGains pos.toJackPosition (nframes + 1) r := by
  obtain ⟨ha, hb⟩ := hwhole
  let x := gainChangeAt a
  let y := gainChangeAt b
  have hx : x.frame pos.toJackPosition < nframes := hlt
  have hy : y.frame pos.toJackPosition = nframes := heq
  have hlate : ¬ x.frame pos.toJackPosition < -256 := by
    have hx' : 0 ≤ x.frame pos.toJackPosition := hzero
    omega
  have hfirst : (EventBuffer.mk [y] [x]).getNextEvent mul true pos.toJackPosition (nframes + 1) =
      ⟨some (y.updateFrameOffset pos.toJackPosition), ⟨[], [x]⟩, []⟩ := by
    have hupdate : (EventBuffer.mk [y] [x]).update mul = ⟨[], [y, x]⟩ := by
      have hle' : ¬ x.le mul y = true := hle
      have hlt' : y.lt mul x = true := Event.lt_iff_not_le.mpr hle'
      simp [EventBuffer.update, EventList.insert, EventBuffer.UPDATE_MAX_EVENTS, hle', hlt']
    have hbar : y.getBar ≠ 0 := hb
    have hnlate : ¬ (nframes : ℤ) < -256 := by omega
    simp [EventBuffer.getNextEvent, hupdate, hbar, EventBuffer.dropLate, hy, hnlate]
  have hsecond : (EventBuffer.mk [] [x]).getNextEvent mul true pos.toJackPosition (nframes + 1) =
      ⟨some (x.updateFrameOffset pos.toJackPosition), ⟨[], []⟩, []⟩ := by
    have hbar : x.getBar ≠ 0 := ha
    have hdue : x.frame pos.toJackPosition < (nframes : ℤ) + 1 := by omega
    simp [EventBuffer.getNextEvent, EventBuffer.update, hbar, EventBuffer.dropLate, hlate, hdue]
  let s := (scheduledTwice P a b).beginPeriod mul true pos.toJackPosition (nframes + 1) S
  have hheld : s.event = some (y.updateFrameOffset pos.toJackPosition) ∧
      s.handedOut = [y.updateFrameOffset pos.toJackPosition] ∧ s.written = [] ∧
      s.mixer.gainEventBuffer = ⟨[], [x]⟩ := by
    simp [s, beginPeriod, getNextEvent, pullMappings, scheduledTwice, x, y, hfirst]
  obtain ⟨hevent, hhanded, hwritten, hbuffer⟩ := hheld
  have hafter : ∀ t ∈ List.range nframes,
      (y.updateFrameOffset pos.toJackPosition).frameOffset ≠ t := by
    intro t ht
    have htlt := List.mem_range.mp ht
    rw [Event.updateFrameOffset_frameOffset, hy]
    omega
  obtain ⟨he, hh, hw, hbuf⟩ := stuck_frames mul pos (nframes + 1) S [] s hevent _ hafter
  let step := frameStep mul true pos.toJackPosition (nframes + 1) S []
  refine ⟨(List.range (nframes + 1)).foldl step s, rfl, fun happly => ?_⟩
  -- two have been handed out, one has been written
  have hlength := happly.written.length_eq
  rw [List.range_succ, List.foldl_append, List.length_map] at hlength
  have hoff : x.frame pos.toJackPosition ≠ nframes := hx.ne
  simp [step, frameStep, applyEvents, applyEvent, getNextEvent, he, hh, hw, hbuf, hhanded,
    hwritten, hbuffer, hy, hsecond, hoff] at hlength

theorem tick_lt (tick : Fin 7680) : (tick : ℕ) < 7680 := tick.isLt

/-- A tick of the first bar. -/
def onTick (tick : Fin 7680) : Position := ⟨⟨1, tick, 7680⟩, tick_lt tick⟩

/-- A 1 by 1 mixer with a gain change scheduled on it. -/
def scheduledAt (tick : Fin 7680) : Mixer ℕ :=
  { Mixer.new 1 1 with gainEventBuffer := ⟨[], [gainChangeAt (onTick tick)]⟩ }

def noSources : Sources ℕ := ⟨fun _ _ => 0, fun _ => []⟩

end Bipscript.Audio.Mixer
