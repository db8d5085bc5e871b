import Bipscript.PlaybackRuns
import Bipscript.PatternDelivery

/-! What becomes of the notes that a script schedules ahead, while the transport rolls on. -/
namespace Bipscript.Playback

open Transport Master EventBuffer Transition Midi PortRuns

/-- The events that a run adds, in the order added. -/
def adds {α : Type*} : List (Act α) → List (Bipscript.Event α)
  | [] => []
  | .addEvent e :: acts => e :: adds acts
  | _ :: acts => adds acts

/-- Frames from the origin of the transport to so many bars. -/
def frameOf (m : Master) (frameRate : ℕ) (n : ℤ) (bars : ℚ) : ℚ :=
  (bars - 1) * n * ticksPerBeat * framesPerTick m frameRate

/-- Where the script's calls of `addEvent` may be, if it adds these events. -/
def placesOf {α : Type*} (l : List (Bipscript.Event α)) : Set Position := {p | ∃ e ∈ l, e.pos = p}

section Events

variable {α : Type*} {m : Master} {rate : ℕ} {n : ℤ} {lag : ℚ} {bufferSize : ℕ}
  {positions : Set Position} {s t : State α} {acts acts' : List (Act α)} {e : Bipscript.Event α}

theorem mem_adds : e ∈ adds acts ↔ .addEvent e ∈ acts := by
  induction acts with
  | nil => simp [adds]
  | cons a acts ih => cases a <;> simp [adds, ih]

theorem restrict_of_adds (hrun : Run (Step bufferSize) s acts t)
    (h : ∀ e ∈ adds acts, e.pos ∈ positions) :
    Run (restrict (fun _ => Adds positions) (Step bufferSize)) s acts t := by
  induction hrun with
  | refl => exact .refl
  | @stepL s t u a acts hstep _ ih =>
    have htail : ∀ e ∈ adds acts, e.pos ∈ positions := fun e he =>
      h e (mem_adds.mpr (List.mem_cons_of_mem a (mem_adds.mp he)))
    refine .stepL ⟨?_, hstep⟩ (ih htail)
    cases a with
    | addEvent e => exact h e (mem_adds.mpr List.mem_cons_self)
    | process | getNextEvent | setTime => trivial

theorem restrict_placesOf {u : State α} (hrun : Run (Step bufferSize) s acts t)
    (hrun' : Run (Step bufferSize) t acts' u) :
    Run (restrict (fun _ => Adds (placesOf (adds acts ++ adds acts'))) (Step bufferSize)) s acts t ∧
      Run (restrict (fun _ => Adds (placesOf (adds acts ++ adds acts'))) (Step bufferSize)) t acts'
        u := by
  have hplaces : ∀ e ∈ adds acts ++ adds acts', e.pos ∈ placesOf (adds acts ++ adds acts') :=
    fun e he => ⟨e, he, rfl⟩
  exact ⟨restrict_of_adds hrun fun e he => hplaces e (List.mem_append_left _ he),
    restrict_of_adds hrun' fun e he => hplaces e (List.mem_append_right _ he)⟩

/-- The frames of the transport go on. -/
theorem Steady.frame_le (hset : Settings m rate n positions)
    (hrun : Run (restrict (fun _ => Adds positions) (Step bufferSize)) s acts t)
    (h : Steady m rate n lag bufferSize positions s) : s.frame ≤ t.frame := by
  have hinv := hrun.invariant_restrict
    (I := fun t => Steady m rate n lag bufferSize positions t ∧ s.frame ≤ t.frame) ?_ ⟨h, le_rfl⟩
  · exact hinv.2
  · rintro u a v ⟨hu, hle⟩ ha hstep
    refine ⟨hu.step hset.meter hset.unforced hset.comparable ha hstep, hle.trans ?_⟩
    cases hstep with
    | @setTime nframes hcycle =>
      simp only [State.frame, (hu.rolls.setTime hset.meter hset.unforced nframes).2]
      exact Nat.le_add_right _ _
    | addEvent | process | getNextEvent => exact le_rfl

/-- What every event of a call needs: a full queue takes 64 cycles. -/
theorem exists_written {pos : TimebasePosition} (hset : Settings m pos.frameRate n positions)
    (hslow : framesPerTick m pos.frameRate < 257) {first : ℕ}
    (hrun : Run (restrict (fun _ => Adds positions) (Step bufferSize)) (.start m pos first) acts s)
    (he : e ∈ adds acts)
    (hahead : (s.frame + 64 * bufferSize : ℕ) + framesPerTick m pos.frameRate ≤
      exactFrame m pos.frameRate n e.pos)
    (hrun' : Run (restrict (fun _ => Adds positions) (Step bufferSize)) s acts' t)
    (hready : t.cycle = .ready)
    (hpast : exactFrame m pos.frameRate n e.pos + 3 / 2 * framesPerTick m pos.frameRate ≤ t.frame) :
    ∃ w ∈ t.written, key w.2 = key e ∧ |(w.1 : ℚ) - exactFrame m pos.frameRate n e.pos| <
      3 / 2 * framesPerTick m pos.frameRate + 1 := by
  have hlag := Int.fract_nonneg (m.ticks pos.frameRate pos.frame)
  have hlag' := Int.fract_lt_one (m.ticks pos.frameRate pos.frame)
  obtain ⟨before, after, rfl⟩ := List.append_of_mem (mem_adds.mp he)
  obtain ⟨u, hbefore, hrest⟩ := hrun.of_append
  cases hrest with
  | @stepL _ v _ _ _ hadd hafter =>
    have hu := steady_of_run hset hbefore
    have hv := hu.step hset.meter hset.unforced hset.comparable hadd.1 hadd.2
    have hframe : u.frame ≤ s.frame := hu.frame_le hset (.stepL hadd hafter)
    have hblocks : u.buffer.eventQueue.length / UPDATE_MAX_EVENTS + 1 ≤ 64 := by
      have hcapacity : CAPACITY = 2048 := rfl
      have hmax : UPDATE_MAX_EVENTS = 32 := rfl
      rw [hmax]
      cases hadd.2 with
      | addEvent hb =>
        unfold addEvent at hb
        split at hb
        · omega
        · cases hb
    have hsum : u.frame + (u.buffer.eventQueue.length / UPDATE_MAX_EVENTS + 1) * bufferSize ≤
        s.frame + 64 * bufferSize := Nat.add_le_add hframe (Nat.mul_le_mul_right _ hblocks)
    have hsum' :
        ((u.frame + (u.buffer.eventQueue.length / UPDATE_MAX_EVENTS + 1) * bufferSize : ℕ) :
      ℚ) ≤ (s.frame + 64 * bufferSize : ℕ) := by exact_mod_cast hsum
    have hawaits := hu.awaits_add hset.rate_pos hlag hadd.2 (by linarith)
    rcases hv.awaits_run hset hlag hlag' hslow (hafter.append hrun') hawaits with
      hw | ⟨w, hw, hnear⟩
    · exact absurd hw (not_awaits hset.rate_pos hlag' hready hpast)
    · exact ⟨w, List.mem_of_mem_drop hw, hnear⟩

theorem adds_map (l : List (Bipscript.Event α)) : adds (l.map .addEvent) = l := by
  induction l with
  | nil => rfl
  | cons e l ih => exact congrArg _ ih

theorem adds_eq_nil (hrun : Run (restrict (fun _ => Adds ∅) (Step bufferSize)) s acts t) :
    adds acts = [] := by
  induction hrun with
  | refl => rfl
  | @stepL s t u a acts hstep _ ih =>
    cases a with
    | addEvent e => exact hstep.1.elim
    | process | getNextEvent | setTime => exact ih

theorem exists_adds {l : List (Bipscript.Event α)}
    (hroom : s.buffer.eventQueue.length + l.length ≤ CAPACITY) :
    ∃ t, Run (Step bufferSize) s (l.map .addEvent) t ∧ t.cycle = s.cycle ∧ t.frame = s.frame := by
  induction l generalizing s with
  | nil => exact ⟨s, .refl, rfl, rfl⟩
  | cons e l ih =>
    rw [List.length_cons] at hroom
    have hadd : s.buffer.addEvent e = some { s.buffer with
        eventQueue := s.buffer.eventQueue ++ [e] } := if_pos (by omega)
    obtain ⟨t, hrun, hcycle, hframe⟩ := ih (s := { s with buffer := { s.buffer with
      eventQueue := s.buffer.eventQueue ++ [e] } }) (by
        rw [List.length_append, List.length_singleton]
        omega)
    exact ⟨t, .stepL (.addEvent hadd) hrun, hcycle, hframe⟩

/-- A script may add its events before the transport rolls, and leave it to roll. -/
theorem exists_playback {pos : TimebasePosition} (hmeter : m.beatsPerBar = n)
    (hforce : m.doForceBeat = false) (hrate : 0 < pos.frameRate) (hpos : 0 < bufferSize)
    {l : List (Bipscript.Event α)} (hroom : l.length ≤ CAPACITY) (hl : Comparable (placesOf l))
    (first cycles : ℕ) :
    ∃ s acts t, Run (Step bufferSize) (.start m pos first) (l.map .addEvent) s ∧
      s.frame = pos.frame ∧ Run (Step bufferSize) s acts t ∧ adds acts = [] ∧ t.cycle = .ready ∧
      t.frame = pos.frame + cycles * bufferSize := by
  obtain ⟨s, hrun, hcycle, hframe⟩ : ∃ s, Run (Step bufferSize) (.start m pos first)
      (l.map .addEvent) s ∧ s.cycle = .ready ∧ s.frame = (State.start (α := α) m pos first).frame :=
    exists_adds (by simpa [State.start, EventBuffer.empty] using hroom)
  have hset : Settings m pos.frameRate n (placesOf l) := ⟨hmeter, hforce, hrate, hl⟩
  have hs := steady_of_run hset (restrict_of_adds hrun fun e he =>
    ⟨e, by rwa [adds_map] at he, rfl⟩)
  obtain ⟨acts, t, hrun', hready, hframe'⟩ := hs.exists_cycles hset hcycle hpos cycles
  have hzero : (State.start (α := α) m pos first).frame = pos.frame := frame_setTime_true hforce _ _
  rw [hframe, hzero] at hframe'
  exact ⟨s, acts, t, hrun, hframe.trans hzero, hrun'.of_restrict, adds_eq_nil hrun', hready,
    hframe'⟩

end Events

section Patterns

variable {m : Master} {n : ℤ} {bufferSize : ℕ} {unset : ℤ} {pattern : List PatternNote}
  {position : Position} {channel : UInt8} {events : List (Midi.Event × Midi.Event)}

/-- The two events of a note are handed out, for frames near its ends. -/
structure Performed (m : Master) (rate : ℕ) (n : ℤ) (written : List (ℕ × PortRuns.Event))
    (channel : UInt8) (i : ℕ) (note : Note) (start : ℚ) : Prop where
  on : ∃ w ∈ written, w.2.data =
      ⟨⟨TYPE_NOTE_ON, UInt8.ofInt note.value, note.vel, channel - 1⟩, .on i⟩ ∧
    |(w.1 : ℚ) - frameOf m rate n start| < 3 / 2 * framesPerTick m rate + 1
  off : ∃ w ∈ written, w.2.data =
      ⟨⟨TYPE_NOTE_OFF, UInt8.ofInt note.value, 0, channel - 1⟩, .off i⟩ ∧
    |(w.1 : ℚ) - frameOf m rate n (start + note.duration.value)| < 3 / 2 * framesPerTick m rate + 1

theorem getElem?_of_mapM {β γ : Type*} {f : β → Option γ} {l : List β} {l' : List γ}
    (h : l.mapM f = some l') {i : ℕ} {x : β} (hx : l[i]? = some x) :
    ∃ y, l'[i]? = some y ∧ f x = some y := by
  induction l generalizing l' i with
  | nil => simp at hx
  | cons z rest ih =>
    simp only [List.mapM_cons, Option.bind_eq_bind, Option.pure_def, Option.bind_eq_some_iff,
      Option.some.injEq] at h
    obtain ⟨y, hy, ys, hys, rfl⟩ := h
    cases i with
    | zero =>
      obtain rfl : z = x := Option.some_inj.mp hx
      exact ⟨y, rfl, hy⟩
    | succ i => exact ih hys hx

theorem mapM_of_schedule
    (h : Sink.schedule unset pattern position channel = .ok (some events)) :
    pattern.mapM (Sink.schedulePatternNote unset position channel) = some events := by
  unfold Sink.schedule at h
  split at h
  · cases h
  · exact Except.ok.inj h

theorem data_of_schedulePatternNote {note : PatternNote} {e : Midi.Event × Midi.Event}
    (h : Sink.schedulePatternNote unset position channel note = some e) :
    e.1.data = ⟨TYPE_NOTE_ON, UInt8.ofInt note.note.value, note.note.vel, channel - 1⟩ ∧
      e.2.data = ⟨TYPE_NOTE_OFF, UInt8.ofInt note.note.value, 0, channel - 1⟩ := by
  obtain ⟨p, -, h⟩ := Option.bind_eq_some_iff.mp h
  obtain ⟨q, -, rfl⟩ := Option.map_eq_some_iff.mp h
  exact ⟨rfl, rfl⟩

theorem mem_tag_of_getElem? {k i : ℕ} {e : Midi.Event × Midi.Event} (h : events[i]? = some e) :
    tagged (.on (k + i)) e.1 ∈ tag k events ∧ tagged (.off (k + i)) e.2 ∈ tag k events := by
  induction events generalizing k i with
  | nil => simp at h
  | cons note events ih =>
    cases i with
    | zero =>
      obtain rfl : note = e := Option.some_inj.mp h
      exact ⟨List.mem_cons_self, List.mem_cons_of_mem _ List.mem_cons_self⟩
    | succ i =>
      have hrest := ih (k := k + 1) (i := i) h
      rw [Nat.add_right_comm, Nat.add_assoc] at hrest
      exact hrest.imp (fun h => List.mem_cons_of_mem _ (List.mem_cons_of_mem _ h))
        fun h => List.mem_cons_of_mem _ (List.mem_cons_of_mem _ h)

theorem frameOf_mono {rate : ℕ} (hn : m.beatsPerBar = n) (hrate : 0 < rate) {a b : ℚ} (h : a ≤ b) :
    frameOf m rate n a ≤ frameOf m rate n b := by
  have hbeats : (0 : ℚ) ≤ n := by
    have := m.beatsPerBar_pos
    rw [hn] at this
    exact this.le
  have hpace := (framesPerTick_pos (m := m) hrate).le
  have hticks : (0 : ℚ) ≤ ticksPerBeat := by norm_num [ticksPerBeat]
  unfold frameOf
  gcongr

theorem written_of_key {t : State Tagged} {e : Midi.Event} {part : Part} {data : EventData}
    {bars bound : ℚ} {rate : ℕ} (hdata : e.data = data) (hpos : e.pos.value = bars)
    (h : ∃ w ∈ t.written, key w.2 = key (tagged part e) ∧
      |(w.1 : ℚ) - exactFrame m rate n e.pos| < bound) :
    ∃ w ∈ t.written, w.2.data = ⟨data, part⟩ ∧ |(w.1 : ℚ) - frameOf m rate n bars| < bound := by
  obtain ⟨w, hw, hkey, hnear⟩ := h
  refine ⟨w, hw, ?_, ?_⟩
  · rw [← hdata]
    exact (Prod.mk.inj hkey).2
  · rw [← hpos]
    exact hnear

/-- A note's events are handed out near where exact arithmetic puts its ends. -/
theorem performed_of_run {positions : Set Position} {pos : TimebasePosition}
    (hset : Settings m pos.frameRate n positions) (hslow : framesPerTick m pos.frameRate < 257)
    (hposition : position.division < 2 ^ 32)
    (hevents : Sink.schedule unset pattern position channel = .ok (some events)) {k first : ℕ}
    {acts acts' : List (Act Tagged)} {s t : State Tagged}
    (hrun : Run (restrict (fun _ => Adds positions) (Step bufferSize)) (.start m pos first) acts s)
    (hadds : ∀ e ∈ tag k events, e ∈ adds acts)
    (hrun' : Run (restrict (fun _ => Adds positions) (Step bufferSize)) s acts' t)
    (hready : t.cycle = .ready) {i : ℕ} {note : PatternNote} (hnote : pattern[i]? = some note)
    (hstored : note.Stored) (hproducts : Sink.Products position note)
    (hfits : Sink.Fits position note)
    (hahead : (s.frame + 64 * bufferSize : ℕ) + framesPerTick m pos.frameRate ≤
      frameOf m pos.frameRate n (position.value + note.position.value - 1))
    (hpast : frameOf m pos.frameRate n
      (position.value + note.position.value - 1 + note.note.duration.value) +
        3 / 2 * framesPerTick m pos.frameRate ≤ t.frame) :
    Performed m pos.frameRate n t.written channel (k + i) note.note
      (position.value + note.position.value - 1) := by
  obtain ⟨e, he, hschedule⟩ := getElem?_of_mapM (mapM_of_schedule hevents) hnote
  obtain ⟨hon, hoff⟩ := data_of_schedulePatternNote hschedule
  obtain ⟨htagOn, htagOff⟩ := mem_tag_of_getElem? (k := k) he
  obtain ⟨e', he', -, -, hiff⟩ :=
    Sink.exists_schedulePatternNote unset channel hposition hstored hproducts
  obtain rfl : e = e' := Option.some_inj.mp (hschedule.symm.trans he')
  have hplaced := hiff.mpr hfits
  have hlength : position.value + note.position.value - 1 ≤
      position.value + note.position.value - 1 + note.note.duration.value :=
    le_add_of_nonneg_right (Duration.value_nonneg _)
  have hends : frameOf m pos.frameRate n _ ≤ frameOf m pos.frameRate n _ :=
    frameOf_mono hset.meter hset.rate_pos hlength
  refine ⟨written_of_key hon hplaced.on ?_, written_of_key hoff hplaced.off ?_⟩
  · have hexact : exactFrame m pos.frameRate n e.1.pos =
        frameOf m pos.frameRate n (position.value + note.position.value - 1) := by
      rw [← hplaced.on]
      rfl
    refine exists_written hset hslow hrun (hadds _ htagOn) (hahead.trans_eq hexact.symm) hrun'
      hready ?_
    change exactFrame m pos.frameRate n e.1.pos + _ ≤ _
    rw [hexact]
    linarith
  · have hexact : exactFrame m pos.frameRate n e.2.pos = frameOf m pos.frameRate n
        (position.value + note.position.value - 1 + note.note.duration.value) := by
      rw [← hplaced.off]
      rfl
    refine exists_written hset hslow hrun (hadds _ htagOff)
      ((hahead.trans hends).trans_eq hexact.symm) hrun' hready ?_
    change exactFrame m pos.frameRate n e.2.pos + _ ≤ _
    rw [hexact]
    exact hpast

/-- A pattern scheduled ahead, among whatever else, is performed: by the time the transport is past
it, both events of every note were handed out near where exact arithmetic puts the note's ends. -/
theorem run_pattern {pos : TimebasePosition} (hmeter : m.beatsPerBar = n)
    (hforce : m.doForceBeat = false) (hrate : 0 < pos.frameRate)
    (hslow : framesPerTick m pos.frameRate < 257) (hposition : Duration.Words position.toDuration)
    (hnotes : ∀ note ∈ pattern,
      note.Stored ∧ Sink.Products position note ∧ Sink.Fits position note)
    (hevents : Sink.schedule unset pattern position channel = .ok (some events)) {k first : ℕ}
    {acts acts' : List (Act Tagged)} {s t : State Tagged}
    (hrun : Run (Step bufferSize) (.start m pos first) acts s)
    (hadds : ∀ e ∈ tag k events, e ∈ adds acts) (hrun' : Run (Step bufferSize) s acts' t)
    (hcomparable : Comparable (placesOf (adds acts ++ adds acts')))
    (hahead : ∀ note ∈ pattern, (s.frame + 64 * bufferSize : ℕ) + framesPerTick m pos.frameRate ≤
      frameOf m pos.frameRate n (position.value + note.position.value - 1))
    (hready : t.cycle = .ready)
    (hpast : ∀ note ∈ pattern, frameOf m pos.frameRate n
      (position.value + note.position.value - 1 + note.note.duration.value) +
        3 / 2 * framesPerTick m pos.frameRate ≤ t.frame)
    {i : ℕ} {note : PatternNote} (hnote : pattern[i]? = some note) :
    Performed m pos.frameRate n t.written channel (k + i) note.note
      (position.value + note.position.value - 1) := by
  have hset : Settings m pos.frameRate n (placesOf (adds acts ++ adds acts')) :=
    ⟨hmeter, hforce, hrate, hcomparable⟩
  obtain ⟨hrun, hrun'⟩ := restrict_placesOf hrun hrun'
  have hmem := List.mem_of_getElem? hnote
  obtain ⟨hstored, hproducts, hfits⟩ := hnotes note hmem
  exact performed_of_run hset hslow hposition.division hevents hrun hadds hrun' hready hnote hstored
    hproducts hfits (hahead note hmem) (hpast note hmem)

/-- Events whose divisions are small enough are told apart. -/
theorem comparable_tag {k : ℕ}
    (hbounded : ∀ e ∈ Sink.added events, Duration.Bounded e.pos.toDuration)
    (hbar : ∀ e ∈ Sink.added events, 1 ≤ e.pos.value)
    (hproducts : ∀ x ∈ Sink.added events, ∀ y ∈ Sink.added events,
      x.pos.division * y.pos.division ≤ 2 ^ 32) : Comparable (placesOf (tag k events)) := by
  have hplaces : ∀ p ∈ placesOf (tag k events), ∃ e ∈ Sink.added events, e.pos = p := by
    rintro p ⟨e, he, rfl⟩
    have hmem : e.pos ∈ (tag k events).map fun e => e.pos := List.mem_map_of_mem he
    rw [map_tag] at hmem
    exact List.mem_map.mp hmem
  refine ⟨fun p hp => ?_, fun p hp q hq => ?_⟩
  · obtain ⟨e, he, rfl⟩ := hplaces p hp
    have hlt := (hbar e he).trans_lt e.pos.value_lt_succ
    have hpos : (0 : ℚ) < e.pos.whole := by linarith
    exact_mod_cast hpos.ne'
  · obtain ⟨x, hx, rfl⟩ := hplaces p hp
    obtain ⟨y, hy, rfl⟩ := hplaces q hq
    exact Duration.inOrder_of_division (hbounded x hx) (hbounded y hy) (hproducts x hx y hy)

/-- At the second bar, with the transport at the first. -/
theorem run_pattern_short :
    ∃ (acts acts' : List (Act Tagged)) (s t : State Tagged),
      Run (Step 1024) (.start fourFour origin 1024) acts s ∧ Run (Step 1024) s acts' t ∧
      Performed fourFour origin.frameRate 4 t.written 1 1 ⟨62, 100, ⟨0, 1, 4⟩⟩ 2 := by
  have hposition : Duration.Words (Duration.mk 2 0 4) :=
    ⟨by decide, by decide, by decide, by decide⟩
  have hnotes : ∀ note ∈ shortPattern, note.Stored ∧ Sink.Products ⟨⟨2, 0, 4⟩, by decide⟩ note ∧
      Sink.Fits ⟨⟨2, 0, 4⟩, by decide⟩ note := by
    refine List.forall_mem_cons.mpr ⟨⟨?_, ?_, ?_⟩, List.forall_mem_singleton.mpr ⟨?_, ?_, ?_⟩⟩
    · exact ⟨⟨by decide, by decide, by decide, by decide⟩,
        ⟨by decide, by decide, by decide, by decide⟩⟩
    · exact ⟨by decide, by decide +kernel⟩
    · exact ⟨by decide, by norm_num [Duration.value], by decide +kernel,
        by norm_num [Duration.value]⟩
    · exact ⟨⟨by decide, by decide, by decide, by decide⟩,
        ⟨by decide, by decide, by decide, by decide⟩⟩
    · exact ⟨by decide, by decide +kernel⟩
    · exact ⟨by decide, by norm_num [Duration.value], by decide +kernel,
        by norm_num [Duration.value]⟩
  have hsmall :
      (Sink.schedule 0 shortPattern ⟨⟨2, 0, 4⟩, by decide⟩ 1).map (Option.map fun events =>
      (Sink.added events).map fun e => (e.pos.whole, e.pos.division)) =
        .ok (some [(2, 4), (2, 4), (2, 4), (2, 4)]) := by
    decide +kernel
  obtain ⟨events, hevents, hbounded, -⟩ := Sink.exists_schedule 0
    (by decide : (1 : UInt8) ≤ 1 ∧ (1 : UInt8) ≤ 16) hposition.division
    fun note hnote => ⟨(hnotes note hnote).1, (hnotes note hnote).2.1⟩
  rw [hevents] at hsmall
  have hparts : ∀ e ∈ Sink.added events, e.pos.whole = 2 ∧ e.pos.division = 4 := by
    intro e he
    have hmap : (Sink.added events).map (fun e => (e.pos.whole, e.pos.division)) =
        [(2, 4), (2, 4), (2, 4), (2, 4)] := Option.some.inj (Except.ok.inj hsmall)
    have hmem := List.mem_map_of_mem (f := fun e => (e.pos.whole, e.pos.division)) he
    rw [hmap] at hmem
    simpa using hmem
  have hcomparable : Comparable (placesOf (tag 0 events)) := by
    refine comparable_tag hbounded (fun e he => ?_) fun x hx y hy => ?_
    · have hle := e.pos.whole_le_value
      rw [(hparts e he).1] at hle
      push_cast at hle
      linarith
    · rw [(hparts x hx).2, (hparts y hy).2]
      decide
  have hlength : (tag 0 events).length ≤ CAPACITY := by
    have hmap := congrArg List.length (Option.some.inj (Except.ok.inj hsmall))
    have htag := congrArg List.length (map_tag 0 events)
    rw [List.length_map, List.length_map] at htag
    rw [List.length_map] at hmap
    rw [htag, hmap]
    decide
  have hmeter : fourFour.beatsPerBar = ((4 : ℤ) : ℚ) := by norm_num [fourFour, Master.new]
  obtain ⟨s, acts, t, hrun, hframe, hrun', hadds, hready, hframe'⟩ := exists_playback hmeter rfl
    (by decide : 0 < origin.frameRate) (by decide : 0 < 1024) hlength hcomparable 1024 200
  have hpace := exactFrame_secondBeat.2
  have hvalues : ∀ note ∈ shortPattern, (⟨⟨2, 0, 4⟩, by decide⟩ : Position).value +
      note.position.value - 1 = 2 ∧ note.note.duration.value ≤ 1 := by
    refine List.forall_mem_cons.mpr ⟨?_, List.forall_mem_singleton.mpr ?_⟩ <;>
      norm_num [Duration.value]
  have hbars : frameOf fourFour origin.frameRate 4 2 = 96000 ∧
      frameOf fourFour origin.frameRate 4 3 = 192000 := by
    unfold frameOf
    rw [hpace]
    norm_num [ticksPerBeat]
  have hstart : (s.frame : ℚ) = 0 := by
    rw [hframe]
    rfl
  have hend : (t.frame : ℚ) = 204800 := by
    rw [hframe']
    norm_num [origin]
  have hahead : ∀ note ∈ shortPattern, ((s.frame + 64 * 1024 : ℕ) : ℚ) + 25 / 2 ≤
      frameOf fourFour origin.frameRate 4 ((⟨⟨2, 0, 4⟩, by decide⟩ : Position).value +
        note.position.value - 1) := by
    intro note hnote
    rw [(hvalues note hnote).1, hbars.1, Nat.cast_add, hstart]
    norm_num
  have hpast : ∀ note ∈ shortPattern, frameOf fourFour origin.frameRate 4
      ((⟨⟨2, 0, 4⟩, by decide⟩ : Position).value + note.position.value - 1 +
        note.note.duration.value) + 3 / 2 * (25 / 2) ≤ t.frame := by
    intro note hnote
    obtain ⟨hvalue, hquarter⟩ := hvalues note hnote
    have hstop := frameOf_mono hmeter (by decide : 0 < origin.frameRate)
      (by linarith : (2 : ℚ) + note.note.duration.value ≤ 3)
    rw [hbars.2] at hstop
    rw [hvalue, hend]
    linarith
  rw [← hpace] at hahead hpast
  have hperformed := run_pattern hmeter rfl (by decide) (by rw [hpace]; norm_num) hposition hnotes
    hevents hrun (fun e he => by rw [adds_map]; exact he) hrun'
    (by rwa [adds_map, hadds, List.append_nil]) hahead hready hpast
    (show shortPattern[1]? = some _ from rfl)
  rw [(hvalues _ (List.mem_of_getElem? (show shortPattern[1]? = some _ from rfl))).1] at hperformed
  exact ⟨_, acts, s, t, hrun, hrun', hperformed⟩

end Patterns

end Bipscript.Playback
