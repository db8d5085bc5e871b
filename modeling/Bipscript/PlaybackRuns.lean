import Bipscript.Playback
import Bipscript.MidiPort

/-! While the transport rolls on, events are handed out near their places: what every step keeps,
and what becomes of one event. -/
namespace Bipscript.Playback

open Transport Master EventBuffer Transition

variable {α : Type*}

section Runs

variable {m : Master} {rate : ℕ} {n : ℤ} {lag : ℚ} {bufferSize : ℕ} {positions : Set Position}
  {s t : State α} {a : Act α} {k : Position × α}

/-- What every step keeps. -/
structure Steady (m : Master) (rate : ℕ) (n : ℤ) (lag : ℚ) (bufferSize : ℕ)
    (positions : Set Position) (s : State α) : Prop where
  rolls : Rolls m rate n lag s.timebase
  size : ∀ nframes, s.cycle = .delivering nframes ∨ s.cycle = .processed nframes →
    0 < nframes ∧ nframes ≤ bufferSize
  sorted : EventList.Sorted s.buffer.sortedEvents
  positions : ∀ e ∈ s.buffer.pending, e.pos ∈ positions

theorem Steady.getNextEvent_eq (h : Steady m rate n lag bufferSize positions s)
    (hc : Comparable positions) (pos : JackPosition) (nframes : ℕ) :
    s.buffer.getNextEvent mul32 true pos nframes =
      s.buffer.getNextEvent (· * ·) true pos nframes :=
  getNextEvent_mul32 (fun x hx y hy => hc.inOrder _ (h.positions x hx) _ (h.positions y hy)) _ _ _

theorem steady_start (hn : m.beatsPerBar = n) (hf : m.doForceBeat = false) (pos : TimebasePosition)
    (first : ℕ) : Steady m pos.frameRate n (Int.fract (m.ticks pos.frameRate pos.frame)) bufferSize
      positions (State.start (α := α) m pos first) where
  rolls := rolls_setTime_true hn hf pos first
  size := by rintro nframes (hc | hc) <;> cases hc
  sorted := List.Pairwise.nil
  positions := by simp [State.start, EventBuffer.empty, pending]

theorem Steady.step (hn : m.beatsPerBar = n) (hf : m.doForceBeat = false)
    (hc : Comparable positions) (h : Steady m rate n lag bufferSize positions s)
    (ha : Adds positions a) (hs : Step bufferSize s a t) :
    Steady m rate n lag bufferSize positions t := by
  cases hs with
  | addEvent hb =>
    obtain rfl := addEvent_eq hb
    refine ⟨h.rolls, h.size, h.sorted, fun x hx => ?_⟩
    rw [pending, ← List.append_assoc] at hx
    rcases List.mem_append.mp hx with hx | hx
    · exact h.positions x hx
    · rw [List.mem_singleton.mp hx]
      exact ha
  | process hcycle hpos hle =>
    refine ⟨h.rolls, ?_, h.sorted, h.positions⟩
    rintro nframes (he | he) <;> cases he
    exact ⟨hpos, hle⟩
  | @getNextEvent nframes r hcycle hr =>
    have hsize := h.size nframes (Or.inl hcycle)
    refine ⟨h.rolls, ?_, ?_, ?_⟩
    · intro k hk
      simp only [State.fetch] at hk
      split at hk
      · exact h.size k hk
      · rcases hk with hk | hk <;> cases hk
        exact hsize
    · simp only [State.fetch, ← hr]
      rw [h.getNextEvent_eq hc]
      exact getNextEvent_sorted h.sorted true _ nframes
    · intro x hx
      simp only [State.fetch, ← hr] at hx
      obtain ⟨y, hy, hpos, -⟩ := mem_getNextEvent hx
      rw [hpos]
      exact h.positions y hy
  | setTime hcycle =>
    refine ⟨(h.rolls.setTime hn hf _).1, ?_, h.sorted, h.positions⟩
    rintro k (hk | hk) <;> cases hk

namespace State

/-- The ticks made when the events are fetched next. -/
def nextTicks (m : Master) (rate : ℕ) (lag : ℚ) (s : State α) : ℚ :=
  m.ticks rate s.frame - lag +
    match s.cycle with
    | .processed nframes => m.ticks rate nframes
    | _ => 0

/-- An event waits that lies ahead, also after the fetches that its place in the queue may take. -/
def Awaits (m : Master) (rate : ℕ) (n : ℤ) (lag : ℚ) (bufferSize : ℕ) (k : Position × α)
    (s : State α) : Prop :=
  ((∃ e ∈ s.buffer.sortedEvents, key e = k) ∧
    s.nextTicks m rate lag - 1 / 2 ≤ ⌊exactTick n k.1⌋) ∨
  ∃ i, (s.buffer.eventQueue.map key)[i]? = some k ∧
    s.nextTicks m rate lag + m.ticks rate (i / UPDATE_MAX_EVENTS * bufferSize) - 1 / 2 ≤
      ⌊exactTick n k.1⌋

/-- An event was handed out for a frame near its place, after the first `before` ones. -/
def Heard (m : Master) (rate : ℕ) (n : ℤ) (before : ℕ) (k : Position × α) (s : State α) : Prop :=
  ∃ w ∈ s.written.drop before, key w.2 = k ∧
    |(w.1 : ℚ) - exactFrame m rate n k.1| < 3 / 2 * framesPerTick m rate + 1

end State

theorem frame_of_key {e : Event α} (he : key e = k) (pos : JackPosition) :
    e.frame pos = calculateFrameOffset k.1.toDuration pos := by
  rw [← he]
  rfl

/-- A fetched event that lies ahead is handed out for its place, or goes on waiting. -/
theorem Steady.fetch_fetched (hrate : 0 < rate) (hlag : 0 ≤ lag) (hlag' : lag < 1)
    (hslow : framesPerTick m rate < 257) (hc : Comparable positions)
    (h : Steady m rate n lag bufferSize positions s) {nframes : ℕ} {r : Fetch α}
    (hcycle : s.cycle = .delivering nframes)
    (hr : s.buffer.getNextEvent mul32 true s.timebase.2.toJackPosition nframes = r)
    {e : Event α} (he : e ∈ s.buffer.fetched) (hk : key e = k)
    (hahead : m.ticks rate s.frame - lag - 1 / 2 ≤ ⌊exactTick n k.1⌋) :
    (s.fetch nframes r).Awaits m rate n lag bufferSize k ∨
      ∃ x ∈ r.event, key x = k ∧ |((s.frame + x.frameOffset.toNat : ℕ) : ℚ) -
        exactFrame m rate n k.1| < 3 / 2 * framesPerTick m rate + 1 := by
  have hkeys := (map_key_getNextEvent mul32 true s.timebase.2.toJackPosition nframes s.buffer).1
  rw [hr] at hkeys
  have hmem : k ∈ (r.recycled ++ r.event.toList ++ r.buffer.sortedEvents).map key := by
    rw [hkeys, ← hk]
    exact List.mem_map_of_mem ((update_perm mul32 s.buffer).mem_iff.mpr he)
  obtain ⟨x, hx, hxk⟩ := List.mem_map.mp hmem
  rcases List.mem_append.mp hx with hx | hx
  · rcases List.mem_append.mp hx with hx | hx
    · -- it is not late
      exfalso
      rw [← hr] at hx
      obtain ⟨-, y, -, hyk, hlate⟩ := late_of_recycled hx
      have hnot := h.rolls.notLate hrate hslow hahead
      rw [frame_of_key (hyk.trans hxk)] at hlate
      omega
    · refine Or.inr ⟨x, Option.mem_toList.mp hx, hxk, ?_⟩
      have hbar : ∀ e ∈ s.buffer.pending, e.getBar ≠ 0 := fun e he => hc.bar _ (h.positions e he)
      have hevent : (s.buffer.getNextEvent mul32 true s.timebase.2.toJackPosition nframes).event =
          some x := by
        rw [hr]
        exact Option.mem_toList.mp hx
      have hoffset := (due_of_getNextEvent (getBar_of_getNextEvent hbar hevent) hevent).2.1
      rw [frame_of_key hxk] at hoffset
      obtain ⟨hearly, hlate⟩ := h.rolls.place hrate hlag hlag' k.1
      have hlate := hlate hahead
      rw [← hoffset] at hearly hlate
      have hearly : _ < ((s.frame + x.frameOffset.toNat : ℕ) : ℚ) := hearly
      have hlate : ((s.frame + x.frameOffset.toNat : ℕ) : ℚ) < _ := hlate
      rw [abs_lt]
      constructor <;> linarith
  · refine Or.inl (Or.inl ⟨⟨x, hx, hxk⟩, ?_⟩)
    cases hevent : r.event with
    | some y =>
      simp only [State.nextTicks, State.fetch, hevent, Option.isSome_some, if_true, hcycle,
        add_zero]
      exact hahead
    | none =>
      obtain ⟨pos, hpos⟩ := h.rolls.exists_bbt
      have hsorted := update_sorted h.sorted
      rw [← update_mul32 fun x hx y hy => hc.inOrder _ (h.positions x hx) _ (h.positions y hy)]
        at hsorted
      rw [← hpos] at hr
      rw [← hr] at hevent hx
      have hdue := getNextEvent_none_left pos nframes mul32 hsorted hevent x hx
      rw [hpos, frame_of_key hxk] at hdue
      have hnext := h.rolls.ahead hrate (h.size nframes (Or.inl hcycle)).1 hdue
      simp only [State.nextTicks, State.fetch, ← hr, hevent, Option.isSome_none]
      exact hnext

/-- One that is not fetched yet is closer to it, and the cycle is not longer than allowed for. -/
theorem Steady.fetch_queued (hrate : 0 < rate)
    (h : Steady m rate n lag bufferSize positions s) {nframes : ℕ} {r : Fetch α}
    (hcycle : s.cycle = .delivering nframes)
    (hr : s.buffer.getNextEvent mul32 true s.timebase.2.toJackPosition nframes = r) {i : ℕ}
    (hi : (s.buffer.eventQueue.map key)[i + UPDATE_MAX_EVENTS]? = some k)
    (hahead : m.ticks rate s.frame - lag +
      m.ticks rate ((i + UPDATE_MAX_EVENTS) / UPDATE_MAX_EVENTS * bufferSize) - 1 / 2 ≤
        ⌊exactTick n k.1⌋) :
    (s.fetch nframes r).Awaits m rate n lag bufferSize k := by
  have hqueue := (map_key_getNextEvent mul32 true s.timebase.2.toJackPosition nframes s.buffer).2
  rw [hr] at hqueue
  have hdrop : r.buffer.eventQueue = s.buffer.eventQueue.drop UPDATE_MAX_EVENTS := hqueue
  have hblocks : (i + UPDATE_MAX_EVENTS) / UPDATE_MAX_EVENTS * bufferSize =
      bufferSize + i / UPDATE_MAX_EVENTS * bufferSize := by
    rw [Nat.add_div_right i (by decide : 0 < UPDATE_MAX_EVENTS), Nat.succ_mul, Nat.add_comm]
  rw [hblocks, ticks_add] at hahead
  refine Or.inr ⟨i, ?_, ?_⟩
  · simp only [State.fetch, hdrop, List.map_drop, List.getElem?_drop]
    rw [Nat.add_comm]
    exact hi
  · have hle := ticks_mono (m := m) hrate (h.size nframes (Or.inl hcycle)).2
    have hnonneg := m.ticks_nonneg rate bufferSize
    have hframe : (s.fetch nframes r).frame = s.frame := rfl
    unfold State.nextTicks
    rw [hframe]
    cases hevent : r.event with
    | some y =>
      simp only [State.fetch, hevent, Option.isSome_some, if_true, hcycle]
      linarith
    | none =>
      simp only [State.fetch, hevent, Option.isSome_none]
      simp only [Bool.false_eq_true, if_false]
      linarith

theorem awaits_congr (hbuffer : t.buffer = s.buffer)
    (hticks : t.nextTicks m rate lag = s.nextTicks m rate lag)
    (h : s.Awaits m rate n lag bufferSize k) : t.Awaits m rate n lag bufferSize k := by
  unfold State.Awaits at h ⊢
  rw [hbuffer, hticks]
  exact h

theorem Steady.awaits_fetch (hrate : 0 < rate) (hlag : 0 ≤ lag) (hlag' : lag < 1)
    (hslow : framesPerTick m rate < 257) (hc : Comparable positions) {before : ℕ}
    (h : Steady m rate n lag bufferSize positions s) (hbefore : before ≤ s.written.length)
    {nframes : ℕ} {r : Fetch α} (hcycle : s.cycle = .delivering nframes)
    (hr : s.buffer.getNextEvent mul32 true s.timebase.2.toJackPosition nframes = r)
    (hw : s.Awaits m rate n lag bufferSize k) :
    (s.fetch nframes r).Awaits m rate n lag bufferSize k ∨
      (s.fetch nframes r).Heard m rate n before k := by
  have hnext : s.nextTicks m rate lag = m.ticks rate s.frame - lag := by
    simp only [State.nextTicks, hcycle, add_zero]
  have hfetched : ∀ e ∈ s.buffer.fetched, key e = k →
      m.ticks rate s.frame - lag - 1 / 2 ≤ ⌊exactTick n k.1⌋ →
      (s.fetch nframes r).Awaits m rate n lag bufferSize k ∨
        (s.fetch nframes r).Heard m rate n before k := by
    intro e he hk hahead
    rcases h.fetch_fetched hrate hlag hlag' hslow hc hcycle hr he hk hahead with
      hw | ⟨x, hx, hxk, hnear⟩
    · exact Or.inl hw
    · refine Or.inr ⟨(s.frame + x.frameOffset.toNat, x), ?_, hxk, hnear⟩
      simp only [State.fetch, List.drop_append_of_le_length hbefore, Option.mem_def.mp hx,
        Option.toList_some, List.map_singleton]
      exact List.mem_append_right _ (List.mem_singleton_self _)
  rcases hw with ⟨⟨e, he, hk⟩, hahead⟩ | ⟨i, hi, hahead⟩
  · rw [hnext] at hahead
    exact hfetched e (List.mem_append_left _ he) hk hahead
  · rw [hnext] at hahead
    have hnonneg := m.ticks_nonneg rate (i / UPDATE_MAX_EVENTS * bufferSize)
    by_cases hblock : i < UPDATE_MAX_EVENTS
    · rw [List.getElem?_map] at hi
      obtain ⟨e, he, hk⟩ := Option.map_eq_some_iff.mp hi
      refine hfetched e (List.mem_append_right _ ?_) hk (by linarith)
      exact List.mem_of_getElem? ((List.getElem?_take_of_lt hblock).trans he)
    · obtain ⟨j, rfl⟩ := Nat.exists_eq_add_of_le' (Nat.le_of_not_lt hblock)
      exact Or.inl (h.fetch_queued hrate hcycle hr hi hahead)

/-- An event that waits ahead goes on waiting until it is heard near its place. -/
theorem Steady.awaits_step (hn : m.beatsPerBar = n) (hf : m.doForceBeat = false) (hrate : 0 < rate)
    (hlag : 0 ≤ lag) (hlag' : lag < 1) (hslow : framesPerTick m rate < 257)
    (hc : Comparable positions) {before : ℕ} (h : Steady m rate n lag bufferSize positions s)
    (hbefore : before ≤ s.written.length) (hs : Step bufferSize s a t)
    (hw : s.Awaits m rate n lag bufferSize k ∨ s.Heard m rate n before k) :
    t.Awaits m rate n lag bufferSize k ∨ t.Heard m rate n before k := by
  rcases hw with hw | ⟨w, hw, hnear⟩
  · cases hs with
    | addEvent hb =>
      obtain rfl := addEvent_eq hb
      refine Or.inl (hw.imp id ?_)
      rintro ⟨i, hi, hahead⟩
      refine ⟨i, ?_, hahead⟩
      rw [List.map_append, List.getElem?_append_left (List.getElem?_eq_some_iff.mp hi).1]
      exact hi
    | process hcycle hpos hle =>
      refine Or.inl (awaits_congr (s := s) rfl ?_ hw)
      simp only [State.nextTicks, hcycle]
      rfl
    | getNextEvent hcycle hr =>
      exact h.awaits_fetch hrate hlag hlag' hslow hc hbefore hcycle hr hw
    | @setTime nframes hcycle =>
      refine Or.inl (awaits_congr (s := s) rfl ?_ hw)
      have hframe := (h.rolls.setTime hn hf nframes).2
      simp only [State.nextTicks, State.frame, hcycle, hframe, ticks_add]
      ring
  · refine Or.inr ⟨w, ?_, hnear⟩
    cases hs with
    | getNextEvent hcycle hr =>
      simp only [State.fetch, List.drop_append_of_le_length hbefore]
      exact List.mem_append_left _ hw
    | addEvent | process | setTime => exact hw

/-- The tempo, the meter and the positions that a run may count on. -/
structure Settings (m : Master) (rate : ℕ) (n : ℤ) (positions : Set Position) : Prop where
  meter : m.beatsPerBar = n
  unforced : m.doForceBeat = false
  rate_pos : 0 < rate
  comparable : Comparable positions

theorem Steady.run (hset : Settings m rate n positions) {acts : List (Act α)}
    (hrun : Run (restrict (fun _ => Adds positions) (Step bufferSize)) s acts t)
    (h : Steady m rate n lag bufferSize positions s) :
    Steady m rate n lag bufferSize positions t :=
  hrun.invariant_restrict
    (fun h ha hstep => h.step hset.meter hset.unforced hset.comparable ha hstep) h

theorem steady_of_run {pos : TimebasePosition} (hset : Settings m pos.frameRate n positions)
    {first : ℕ} {acts : List (Act α)}
    (hrun :
      Run (restrict (fun _ => Adds positions) (Step bufferSize)) (.start m pos first) acts s) :
    Steady m pos.frameRate n (Int.fract (m.ticks pos.frameRate pos.frame)) bufferSize positions s :=
  (steady_start hset.meter hset.unforced pos first).run hset hrun

theorem Steady.awaits_run (hset : Settings m rate n positions) (hlag : 0 ≤ lag) (hlag' : lag < 1)
    (hslow : framesPerTick m rate < 257) {acts : List (Act α)}
    (hrun : Run (restrict (fun _ => Adds positions) (Step bufferSize)) s acts t)
    (h : Steady m rate n lag bufferSize positions s)
    (hw : s.Awaits m rate n lag bufferSize k) :
    t.Awaits m rate n lag bufferSize k ∨ t.Heard m rate n s.written.length k := by
  have hinv := hrun.invariant_restrict (I := fun t => Steady m rate n lag bufferSize positions t ∧
    s.written.length ≤ t.written.length ∧ (t.Awaits m rate n lag bufferSize k ∨
      t.Heard m rate n s.written.length k)) ?_ ⟨h, le_rfl, Or.inl hw⟩
  · exact hinv.2.2
  · rintro u a v ⟨hu, hlength, hw⟩ ha hstep
    refine ⟨hu.step hset.meter hset.unforced hset.comparable ha hstep, hlength.trans ?_,
      hu.awaits_step hset.meter hset.unforced hset.rate_pos hlag hlag' hslow hset.comparable hlength
        hstep hw⟩
    cases hstep with
    | getNextEvent hcycle hr =>
      rw [State.fetch, List.length_append]
      exact Nat.le_add_right _ _
    | addEvent | process | setTime => exact le_rfl

/-- What is added far enough ahead waits there. -/
theorem Steady.awaits_add (hrate : 0 < rate) (hlag : 0 ≤ lag)
    (h : Steady m rate n lag bufferSize positions s) {e : Event α}
    (hadd : Step bufferSize s (.addEvent e) t)
    (hahead : (s.frame + (s.buffer.eventQueue.length / UPDATE_MAX_EVENTS + 1) * bufferSize : ℕ) +
      framesPerTick m rate ≤ exactFrame m rate n e.pos) :
    t.Awaits m rate n lag bufferSize (key e) := by
  have hpace := framesPerTick_pos (m := m) hrate
  have hexact : exactFrame m rate n e.pos = exactTick n e.pos * framesPerTick m rate := rfl
  rw [hexact, ← ticks_mul_framesPerTick (m := m) hrate, ← add_one_mul,
    mul_le_mul_iff_of_pos_right hpace, ticks_add, Nat.succ_mul, ticks_add] at hahead
  have hfloor := Int.lt_floor_add_one (exactTick n e.pos)
  have hnext : s.nextTicks m rate lag ≤ m.ticks rate s.frame - lag + m.ticks rate bufferSize := by
    unfold State.nextTicks
    have hnonneg := m.ticks_nonneg rate bufferSize
    cases hcycle : s.cycle with
    | ready => exact add_le_add_right hnonneg _
    | delivering nframes => exact add_le_add_right hnonneg _
    | processed nframes =>
      exact add_le_add_right (ticks_mono hrate (h.size nframes (Or.inr hcycle)).2) _
  cases hadd with
  | addEvent hb =>
    obtain rfl := addEvent_eq hb
    refine Or.inr ⟨s.buffer.eventQueue.length, ?_, ?_⟩
    · simp
    · have hsame : State.nextTicks m rate lag { s with
          buffer := ⟨s.buffer.eventQueue ++ [e], s.buffer.sortedEvents⟩ } =
            s.nextTicks m rate lag := rfl
      rw [hsame]
      have hkey : (key e).1 = e.pos := rfl
      rw [hkey]
      linarith

/-- Once the transport is past its place, no event waits ahead. -/
theorem not_awaits (hrate : 0 < rate) (hlag' : lag < 1) (hready : t.cycle = .ready)
    (hpast : exactFrame m rate n k.1 + 3 / 2 * framesPerTick m rate ≤ t.frame) :
    ¬ t.Awaits m rate n lag bufferSize k := by
  have hpace := framesPerTick_pos (m := m) hrate
  have hexact : exactFrame m rate n k.1 = exactTick n k.1 * framesPerTick m rate := rfl
  rw [hexact, ← ticks_mul_framesPerTick (m := m) hrate, ← add_mul,
    mul_le_mul_iff_of_pos_right hpace] at hpast
  have hfloor := Int.floor_le (exactTick n k.1)
  have hnext : t.nextTicks m rate lag = m.ticks rate t.frame - lag := by
    simp only [State.nextTicks, hready, add_zero]
  rintro (⟨-, hahead⟩ | ⟨i, -, hahead⟩)
  · rw [hnext] at hahead
    linarith
  · have hnonneg := m.ticks_nonneg rate (i / UPDATE_MAX_EVENTS * bufferSize)
    rw [hnext] at hahead
    linarith

/-- What was handed out, and what was not, against the places of the events. -/
structure State.Bounded (m : Master) (rate : ℕ) (n : ℤ) (s : State α) : Prop where
  written : ∀ w ∈ s.written, exactFrame m rate n w.2.pos - 3 / 2 * framesPerTick m rate - 1 < w.1 ∧
    w.1 < exactFrame m rate n w.2.pos + 3 / 2 * framesPerTick m rate + 257
  discarded : ∀ e ∈ s.discarded, exactFrame m rate n e.pos + 257 <
    s.frame + 3 / 2 * framesPerTick m rate

theorem Steady.bounded_step (hset : Settings m rate n positions) (hlag : 0 ≤ lag) (hlag' : lag < 1)
    (h : Steady m rate n lag bufferSize positions s) (hb : s.Bounded m rate n)
    (hs : Step bufferSize s a t) : t.Bounded m rate n := by
  cases hs with
  | addEvent | process => exact ⟨hb.written, hb.discarded⟩
  | @setTime nframes hcycle =>
    have hframe := (h.rolls.setTime hset.meter hset.unforced nframes).2
    refine ⟨hb.written, fun e he => ?_⟩
    have hlate := hb.discarded e he
    simp only [State.frame, hframe]
    push_cast
    have hnonneg : (0 : ℚ) ≤ nframes := by positivity
    change _ < (s.timebase.2.frame : ℚ) + _ at hlate
    linarith
  | @getNextEvent nframes r hcycle hr =>
    refine ⟨fun w hw => ?_, fun e he => ?_⟩
    · rcases List.mem_append.mp hw with hw | hw
      · exact hb.written w hw
      · obtain ⟨x, hx, rfl⟩ := List.mem_map.mp hw
        have hbar : ∀ e ∈ s.buffer.pending, e.getBar ≠ 0 :=
          fun e he => hset.comparable.bar _ (h.positions e he)
        rw [← hr] at hx
        have hevent := Option.mem_toList.mp hx
        obtain ⟨-, hoffset, hgrace, -⟩ :=
          due_of_getNextEvent (getBar_of_getNextEvent hbar hevent) hevent
        have hplace := h.rolls.grace hset.rate_pos hlag' hgrace
        have hearly := (h.rolls.place hset.rate_pos hlag hlag' x.pos).1
        have hframe : x.frame s.timebase.2.toJackPosition =
          calculateFrameOffset x.pos.toDuration s.timebase.2.toJackPosition := rfl
        rw [hframe] at hoffset
        rw [← hoffset] at hplace hearly
        exact ⟨hearly, hplace⟩
    · rcases List.mem_append.mp he with he | he
      · exact hb.discarded e he
      · rw [← hr] at he
        obtain ⟨-, y, -, hk, hlate⟩ := late_of_recycled he
        rw [frame_of_key hk] at hlate
        exact h.rolls.past hset.rate_pos hlag hlate

/-- The loop over due events ends: each call that hands one out leaves fewer. -/
theorem exists_processed {nframes fuel : ℕ} (hcycle : s.cycle = .delivering nframes)
    (hfuel : s.buffer.pending.length < fuel) :
    ∃ acts t, Run (restrict (fun _ => Adds ∅) (Step bufferSize)) s acts t ∧
      t.cycle = .processed nframes ∧ t.timebase = s.timebase := by
  induction fuel generalizing s with
  | zero => omega
  | succ fuel ih =>
    generalize hr : s.buffer.getNextEvent mul32 true s.timebase.2.toJackPosition nframes = r
    have hstep : restrict (fun _ => Adds ∅) (Step bufferSize) s .getNextEvent (s.fetch nframes r) :=
      ⟨trivial, .getNextEvent hcycle hr⟩
    cases hevent : r.event with
    | none =>
      refine ⟨_, _, .single hstep, ?_, rfl⟩
      simp only [State.fetch, hevent, Option.isSome_none]
      rfl
    | some e =>
      have hnext : (s.fetch nframes r).cycle = .delivering nframes := by
        simp only [State.fetch, hevent, Option.isSome_some, if_true, hcycle]
      have hlength := getNextEvent_length mul32 true s.timebase.2.toJackPosition nframes s.buffer
        (by rw [hr, hevent]; exact Option.some_ne_none e)
      rw [hr] at hlength
      obtain ⟨acts, t, hrun, hprocessed, htimebase⟩ :=
        ih hnext (show r.buffer.pending.length < fuel by omega)
      exact ⟨_, t, .stepL hstep hrun, hprocessed, htimebase⟩

/-- A cycle can always be gone through, without the script. -/
theorem Steady.exists_cycle (hset : Settings m rate n positions)
    (h : Steady m rate n lag bufferSize positions s) (hcycle : s.cycle = .ready)
    {nframes : ℕ} (hpos : 0 < nframes) (hle : nframes ≤ bufferSize) :
    ∃ acts t, Run (restrict (fun _ => Adds ∅) (Step bufferSize)) s acts t ∧
      t.cycle = .ready ∧ t.frame = s.frame + nframes := by
  obtain ⟨acts, t, hrun, hprocessed, htimebase⟩ : ∃ acts t,
      Run (restrict (fun _ => Adds ∅) (Step bufferSize)) { s with cycle := .delivering nframes }
        acts t ∧ t.cycle = .processed nframes ∧ t.timebase = s.timebase :=
    exists_processed rfl (Nat.lt_succ_self s.buffer.pending.length)
  have hprocess : restrict (fun _ => Adds ∅) (Step bufferSize) s (.process nframes)
      { s with cycle := .delivering nframes } := ⟨trivial, .process hcycle hpos hle⟩
  have hsetTime : restrict (fun _ => Adds ∅) (Step bufferSize) t .setTime _ :=
    ⟨trivial, .setTime hprocessed⟩
  refine ⟨_, _, .stepL hprocess (hrun.append (.single hsetTime)), rfl, ?_⟩
  simp only [State.frame, htimebase]
  exact (h.rolls.setTime hset.meter hset.unforced nframes).2

theorem adds_of_empty {a : Act α} (h : Adds ∅ a) : Adds positions a := by
  cases a with
  | addEvent e => exact h.elim
  | process | getNextEvent | setTime => trivial

theorem Steady.exists_cycles (hset : Settings m rate n positions)
    (h : Steady m rate n lag bufferSize positions s) (hcycle : s.cycle = .ready)
    (hpos : 0 < bufferSize) (cycles : ℕ) :
    ∃ acts t, Run (restrict (fun _ => Adds ∅) (Step bufferSize)) s acts t ∧
      t.cycle = .ready ∧ t.frame = s.frame + cycles * bufferSize := by
  induction cycles with
  | zero => exact ⟨[], s, .refl, hcycle, by rw [Nat.zero_mul, Nat.add_zero]⟩
  | succ cycles ih =>
    obtain ⟨acts, t, hrun, hready, hframe⟩ := ih
    have ht := h.run hset (hrun.mono fun _ _ _ hstep => ⟨adds_of_empty hstep.1, hstep.2⟩)
    obtain ⟨acts', u, hrun', hready', hframe'⟩ := ht.exists_cycle hset hready hpos le_rfl
    refine ⟨acts ++ acts', u, hrun.append hrun', hready', ?_⟩
    rw [hframe', hframe, Nat.succ_mul, Nat.add_assoc]

/-! The MIDI output port. -/

section Port

open Midi

variable {nframes : ℕ} {s : State EventData}

/-- The loop of a MIDI output port runs through these steps: it passes on to JACK what is handed
out, with the frames of the cycle. -/
theorem run_deliver {fuel : ℕ} (hcycle : s.cycle = .delivering nframes)
    (hfuel : s.buffer.pending.length < fuel) :
    let p := MidiOutputPort.deliver mul32 true s.timebase.2.toJackPosition nframes fuel s.buffer
    ∃ acts t w, Run (restrict (fun _ => Adds positions) (Step bufferSize)) s acts t ∧
      t.cycle = .processed nframes ∧ t.timebase = s.timebase ∧ t.buffer = p.buffer ∧
      t.written = s.written ++ w ∧ p.written = w.map fun x => (x.1 - s.frame, pack x.2) := by
  induction fuel generalizing s with
  | zero => omega
  | succ fuel ih =>
    generalize hr : s.buffer.getNextEvent mul32 true s.timebase.2.toJackPosition nframes = r
    have hstep : restrict (fun _ => Adds positions) (Step bufferSize) s .getNextEvent
        (s.fetch nframes r) := ⟨trivial, .getNextEvent hcycle hr⟩
    intro p
    have hp : p = MidiOutputPort.deliver mul32 true s.timebase.2.toJackPosition nframes (fuel + 1)
      s.buffer := rfl
    simp only [MidiOutputPort.deliver, hr] at hp
    cases hevent : r.event with
    | none =>
      rw [hevent] at hp
      refine ⟨_, _, [], .single hstep, ?_, rfl, by rw [hp]; rfl, ?_, by rw [hp]; rfl⟩
      · simp only [State.fetch, hevent, Option.isSome_none]
        rfl
      · simp only [State.fetch, hevent, Option.toList_none, List.map_nil]
    | some e =>
      rw [hevent] at hp
      have hnext : (s.fetch nframes r).cycle = .delivering nframes := by
        simp only [State.fetch, hevent, Option.isSome_some, if_true, hcycle]
      have hlength := getNextEvent_length mul32 true s.timebase.2.toJackPosition nframes s.buffer
        (by rw [hr, hevent]; exact Option.some_ne_none e)
      rw [hr] at hlength
      obtain ⟨acts, t, w, hrun, hcycle', htimebase, hbuffer, hwritten, hcalls⟩ :=
        ih hnext (show r.buffer.pending.length < fuel by omega)
      refine ⟨_, t, (s.frame + e.frameOffset.toNat, e) :: w, .stepL hstep hrun, hcycle', htimebase,
        ?_, ?_, ?_⟩
      · rw [hp]
        exact hbuffer
      · rw [hwritten]
        simp [State.fetch, hevent]
      · rw [hp, List.map_cons, Nat.add_sub_cancel_left]
        exact congrArg _ hcalls

end Port

/-! The statements about runs. -/

/-- Whatever the script adds meanwhile, an event added ahead by a tick and by the cycles that its
place in the queue may take is handed out, within a frame and one and a half ticks of its place, by
the time the transport is past it. -/
theorem run_onTime {pos : TimebasePosition} (hset : Settings m pos.frameRate n positions)
    (hslow : framesPerTick m pos.frameRate < 257) {first : ℕ} {acts acts' : List (Act α)}
    {s s' t : State α} {e : Event α}
    (hrun : Run (restrict (fun _ => Adds positions) (Step bufferSize)) (.start m pos first) acts s)
    (hadd : Step bufferSize s (.addEvent e) s') (he : e.pos ∈ positions)
    (hahead : (s.frame + (s.buffer.eventQueue.length / UPDATE_MAX_EVENTS + 1) * bufferSize : ℕ) +
      framesPerTick m pos.frameRate ≤ exactFrame m pos.frameRate n e.pos)
    (hrun' : Run (restrict (fun _ => Adds positions) (Step bufferSize)) s' acts' t)
    (hready : t.cycle = .ready)
    (hpast : exactFrame m pos.frameRate n e.pos + 3 / 2 * framesPerTick m pos.frameRate ≤ t.frame) :
    ∃ w ∈ t.written.drop s.written.length, key w.2 = key e ∧
      |(w.1 : ℚ) - exactFrame m pos.frameRate n e.pos| <
        3 / 2 * framesPerTick m pos.frameRate + 1 := by
  have hlag := Int.fract_nonneg (m.ticks pos.frameRate pos.frame)
  have hlag' := Int.fract_lt_one (m.ticks pos.frameRate pos.frame)
  have hs := steady_of_run hset hrun
  have hs' := hs.step hset.meter hset.unforced hset.comparable (a := .addEvent e) he hadd
  have hawaits := hs.awaits_add hset.rate_pos hlag hadd hahead
  have hlength : s'.written = s.written := by
    cases hadd
    rfl
  rcases hs'.awaits_run hset hlag hlag' hslow hrun' hawaits with hw | hheard
  · exact absurd hw (not_awaits hset.rate_pos hlag' hready hpast)
  · rw [hlength] at hheard
    exact hheard

/-- The division of the second beat. -/
theorem one_lt_four : 1 < 4 := Nat.one_lt_succ_succ 2

/-- The second beat at 120 bpm. -/
def secondBeat : Midi.Event := ⟨⟨⟨1, 1, 4⟩, one_lt_four⟩, 0, ⟨0x90, 60, 100, 0⟩⟩

theorem settings_secondBeat : Settings fourFour origin.frameRate 4 {secondBeat.pos} where
  meter := by norm_num [fourFour, Master.new]
  unforced := rfl
  rate_pos := by decide
  comparable := by
    refine ⟨?_, ?_⟩
    · rintro p rfl
      decide
    · rintro p rfl q rfl
      decide

theorem exactFrame_secondBeat : exactFrame fourFour origin.frameRate 4 secondBeat.pos = 24000 ∧
    framesPerTick fourFour origin.frameRate = 25 / 2 := by
  norm_num [exactFrame, exactTick, framesPerTick, fourFour, Master.new, origin, secondBeat,
    Duration.value, ticksPerBeat]

/-- The script adds it before the first cycle, and 24 cycles of 1024 frames go by. -/
theorem exists_secondBeat :
    ∃ (s' : State Midi.EventData) (acts : List (Act Midi.EventData)) (t : State Midi.EventData),
      Step 1024 (.start fourFour origin 1024) (.addEvent secondBeat) s' ∧
      Run (restrict (fun _ => Adds {secondBeat.pos}) (Step 1024)) s' acts t ∧
      t.cycle = .ready ∧ t.frame = 24576 := by
  have hstart : Steady fourFour origin.frameRate 4 _ 1024 {secondBeat.pos}
      (State.start (α := Midi.EventData) fourFour origin 1024) :=
    steady_start settings_secondBeat.meter rfl origin 1024
  have hadd : Step 1024 (State.start fourFour origin 1024) (.addEvent secondBeat)
      { State.start fourFour origin 1024 with buffer := ⟨[secondBeat], []⟩ } := .addEvent rfl
  have hs' := hstart.step settings_secondBeat.meter rfl settings_secondBeat.comparable
    (a := .addEvent secondBeat) rfl hadd
  obtain ⟨acts, t, hrun, hready, hframe⟩ :=
    hs'.exists_cycles settings_secondBeat rfl (by decide) 24
  have hzero : State.frame { State.start fourFour origin 1024 with
      buffer := ⟨[secondBeat], []⟩ } = 0 := frame_setTime_true rfl origin 1024
  rw [hzero] at hframe
  refine ⟨_, acts, t, hadd, hrun.mono fun _ _ _ hstep => ?_, hready, hframe⟩
  exact ⟨adds_of_empty hstep.1, hstep.2⟩

theorem run_onTime_secondBeat :
    ∃ (s' : State Midi.EventData) (acts : List (Act Midi.EventData)) (t : State Midi.EventData),
      Step 1024 (.start fourFour origin 1024) (.addEvent secondBeat) s' ∧
      Run (restrict (fun _ => Adds {secondBeat.pos}) (Step 1024)) s' acts t ∧
      ∃ w ∈ t.written, key w.2 = key secondBeat ∧ |(w.1 : ℚ) - 24000| < 20 := by
  obtain ⟨s', acts, t, hadd, hrun, hready, hframe⟩ := exists_secondBeat
  obtain ⟨hexact, hpace⟩ := exactFrame_secondBeat
  have hzero : (State.start (α := Midi.EventData) fourFour origin 1024).frame = 0 :=
    frame_setTime_true rfl origin 1024
  have hempty : (State.start (α := Midi.EventData) fourFour origin 1024).buffer.eventQueue = [] :=
    rfl
  obtain ⟨w, hw, hkey, hnear⟩ := run_onTime settings_secondBeat (by rw [hpace]; norm_num) .refl hadd
    rfl (by rw [hexact, hpace, hzero, hempty]; norm_num [UPDATE_MAX_EVENTS]) hrun hready
    (by rw [hexact, hpace, hframe]; norm_num)
  rw [hexact, hpace] at hnear
  refine ⟨s', acts, t, hadd, hrun, w, List.mem_of_mem_drop hw, hkey, hnear.trans ?_⟩
  norm_num

/-- No event is handed out early by more than a frame and one and a half ticks, or late by more
than these and the grace period; one is recycled only when its place is a grace period ago. -/
theorem run_bounds {pos : TimebasePosition} (hset : Settings m pos.frameRate n positions)
    {first : ℕ} {acts : List (Act α)} {s : State α}
    (hrun :
      Run (restrict (fun _ => Adds positions) (Step bufferSize)) (.start m pos first) acts s) :
    (∀ w ∈ s.written, exactFrame m pos.frameRate n w.2.pos - 3 / 2 * framesPerTick m pos.frameRate -
        1 < w.1 ∧ w.1 < exactFrame m pos.frameRate n w.2.pos +
          3 / 2 * framesPerTick m pos.frameRate + 257) ∧
      ∀ e ∈ s.discarded, exactFrame m pos.frameRate n e.pos + 257 <
        s.frame + 3 / 2 * framesPerTick m pos.frameRate := by
  have hlag := Int.fract_nonneg (m.ticks pos.frameRate pos.frame)
  have hlag' := Int.fract_lt_one (m.ticks pos.frameRate pos.frame)
  have hinv := hrun.invariant_restrict (I := fun s => Steady m pos.frameRate n
    (Int.fract (m.ticks pos.frameRate pos.frame)) bufferSize positions s ∧
      s.Bounded m pos.frameRate n) ?_
        ⟨steady_start hset.meter hset.unforced pos first, by simp [State.start],
          by simp [State.start]⟩
  · exact ⟨hinv.2.written, hinv.2.discarded⟩
  · rintro s a t ⟨h, hbounded⟩ ha hstep
    exact ⟨h.step hset.meter hset.unforced hset.comparable ha hstep,
      h.bounded_step hset hlag hlag' hbounded hstep⟩

theorem run_bounds_secondBeat :
    ∃ (acts : List (Act Midi.EventData)) (t : State Midi.EventData),
      Run (restrict (fun _ => Adds {secondBeat.pos}) (Step 1024)) (.start fourFour origin 1024)
        acts t ∧ t.frame = 24576 ∧
      ∀ w ∈ t.written,
        exactFrame fourFour origin.frameRate 4 w.2.pos - 3 / 2 * (25 / 2) - 1 < w.1 := by
  obtain ⟨s', acts, t, hadd, hrun, -, hframe⟩ := exists_secondBeat
  have hfirst : restrict (fun _ => Adds {secondBeat.pos}) (Step 1024) (.start fourFour origin 1024)
    (.addEvent secondBeat) s' := ⟨rfl, hadd⟩
  have hbounds := (run_bounds settings_secondBeat (.stepL hfirst hrun)).1
  rw [exactFrame_secondBeat.2] at hbounds
  exact ⟨_, t, .stepL hfirst hrun, hframe, fun w hw => (hbounds w hw).1⟩

end Runs

end Bipscript.Playback
