import Bipscript.CountIn
import Bipscript.Library.Machine
import Mathlib.Algebra.Group.Defs
import Mathlib.Data.List.TakeWhile

/-! The hops of the beat trackers: buffers of 512 samples, and the onsets of 512 frames, whatever
the periods that the audio and the notes come in. -/
namespace Bipscript

open Machine

def BT_HOP_SIZE : ℕ := 512

namespace Audio.BeatTracker

variable {F D : Type*}

/-- The state is what `btbuffer` holds below `index`, and what is put out is what goes to
`processAudioFrame`. -/
def addSample (toDouble : F → D) (btbuffer : List D) (sample : F) : List D × List (List D) :=
  let btbuffer := btbuffer ++ [toDouble sample]
  if btbuffer.length = BT_HOP_SIZE then ([], [btbuffer]) else (btbuffer, [])

/-- The loop over a period of audio. -/
def doProcess (toDouble : F → D) (btbuffer : List D) (audio : List F) : List D × List (List D) :=
  run (addSample toDouble) btbuffer audio

/-- The buffers that a new tracker passes on over these periods. -/
def buffers (toDouble : F → D) (periods : List (List F)) : List (List D) :=
  (run (doProcess toDouble) [] periods).2

theorem addSample_eq_collect (toDouble : F → D) (btbuffer : List D) (sample : F) :
    addSample toDouble btbuffer sample = collect BT_HOP_SIZE btbuffer (toDouble sample) := by
  unfold addSample collect
  dsimp only
  rw [List.length_append]
  rfl

theorem buffers_eq_hops (toDouble : F → D) (periods : List (List F)) :
    buffers toDouble periods = hops BT_HOP_SIZE (periods.flatten.map toDouble) := by
  have hstep : addSample toDouble = fun btbuffer sample =>
      collect BT_HOP_SIZE btbuffer (toDouble sample) :=
    funext₂ (addSample_eq_collect toDouble)
  show (run (run (addSample toDouble)) [] periods).2 = _
  rw [run_run, hstep, run_map toDouble, run_collect (by decide)]

end Audio.BeatTracker

namespace Midi

variable {K : Type*}

/-- What `doProcess` calls of the onset tracker and of the engine. -/
inductive TrackerCall (K : Type*)
  | processOnsetDetectionFunctionSample (onset : K)
  | transportStop
  | transportRelocate (frame : ℕ)

def TrackerCall.onset? : TrackerCall K → Option K
  | .processOnsetDetectionFunctionSample onset => some onset
  | _ => none

/-- The fields of a `midi::BeatTracker` that are not for the count-in. -/
structure BeatTracker (K : Type*) where
  frameIndex : ℕ
  currentOnset : K
  noteWeight : UInt8 → K
  stopSeconds : ℕ
  lastEventTime : ℕ

/-- A period, its events in order and inside it. -/
structure Period where
  rolling : Bool
  pos : Clock
  nframes : ℕ
  time : ℕ
  events : List Event
  sorted : events.Pairwise fun e e' => e.frameOffset ≤ e'.frameOffset
  inside : ∀ e ∈ events, 0 ≤ e.frameOffset ∧ e.frameOffset < nframes

/-- A note-on and its frame in the whole stream. -/
structure NoteOn where
  frame : ℕ
  databyte1 : UInt8
  databyte2 : UInt8
deriving DecidableEq

namespace BeatTracker

section Loop

variable [Add K] [Mul K] [Zero K] [NatCast K]

/-- `currentOnset += getDatabyte2() * noteWeight[getDatabyte1()]` -/
def add (noteWeight : UInt8 → K) (currentOnset : K) (databyte1 databyte2 : UInt8) : K :=
  currentOnset + (databyte2.toNat : K) * noteWeight databyte1

/-- The events at a frame, and those left. -/
def addEvents (time : ℕ) (i : ℤ) : BeatTracker K → List Event → BeatTracker K × List Event
  | t, [] => (t, [])
  | t, nextEvent :: events =>
    if nextEvent.frameOffset = i then
      addEvents time i
        (if matchesType nextEvent TYPE_NOTE_ON then
          { t with
            currentOnset :=
              add t.noteWeight t.currentOnset nextEvent.data.databyte1 nextEvent.data.databyte2
            lastEventTime := time }
        else t) events
    else (t, nextEvent :: events)

/-- A full buffer runs the beat tracker; what it makes of the sample is not modelled. -/
def passOnset (t : BeatTracker K) : BeatTracker K × List (TrackerCall K) :=
  if t.frameIndex = BT_HOP_SIZE then
    ({ t with frameIndex := 0, currentOnset := 0 },
      [.processOnsetDetectionFunctionSample t.currentOnset])
  else (t, [])

/-- The loop over the `n` frames from `i` on. -/
def loop (time : ℕ) : (i n : ℕ) → BeatTracker K → List Event →
    BeatTracker K × List (TrackerCall K)
  | _, 0, t, _ => (t, [])
  | i, n + 1, t, events =>
    let added := t.addEvents time i events
    let passed := added.1.passOnset
    let rest := loop time (i + 1) n
      { passed.1 with frameIndex := passed.1.frameIndex + 1 } added.2
    (rest.1, passed.2 ++ rest.2)

end Loop

def stopIfSilent (rolling : Bool) (pos : Clock) (time : ℕ) (t : BeatTracker K) :
    BeatTracker K × List (TrackerCall K) :=
  if !rolling then ({ t with lastEventTime := time }, [])
  else if t.stopSeconds ≠ 0 ∧ t.stopSeconds < sub32 time t.lastEventTime / pos.frameRate then
    (t, [.transportStop, .transportRelocate 0])
  else (t, [])

variable [Add K] [Mul K] [Zero K] [NatCast K]

/-- Less the count-in, which shares none of these fields. -/
def doProcess (t : BeatTracker K) (p : Period) : BeatTracker K × List (TrackerCall K) :=
  let looped := t.loop p.time 0 p.nframes p.events
  let stopped := looped.1.stopIfSilent p.rolling p.pos p.time
  (stopped.1, looped.2 ++ stopped.2)

/-- A new tracker with these weights. -/
def new (noteWeight : UInt8 → K) (stopSeconds : ℕ) : BeatTracker K :=
  ⟨0, 0, noteWeight, stopSeconds, 0⟩

/-- The onset samples that a new tracker passes on over these periods. -/
def onsets (noteWeight : UInt8 → K) (stopSeconds : ℕ) (periods : List Period) : List K :=
  (run doProcess (new noteWeight stopSeconds) periods).2.filterMap TrackerCall.onset?

/-- The frames of a stream. -/
def frames (periods : List Period) : ℕ := (periods.map Period.nframes).sum

/-- The note-ons of a period that begins at frame `start` of the stream. -/
def noteOnsOf (start : ℕ) (events : List Event) : List NoteOn :=
  (events.filter (matchesType · TYPE_NOTE_ON)).map fun e =>
    ⟨start + e.frameOffset.toNat, e.data.databyte1, e.data.databyte2⟩

/-- The note-ons of a stream. -/
def noteOns : ℕ → List Period → List NoteOn
  | _, [] => []
  | start, p :: periods => noteOnsOf start p.events ++ noteOns (start + p.nframes) periods

/-- The hop of a note-on. The first hop has frames 0 to 512, as the buffer is found full before the
frame is counted. -/
def hop (e : NoteOn) : ℕ := (e.frame - 1) / BT_HOP_SIZE

/-- What note-ons add up to. -/
def onset (noteWeight : UInt8 → K) (notes : List NoteOn) : K :=
  notes.foldl (fun currentOnset e => add noteWeight currentOnset e.databyte1 e.databyte2) 0

/-- The events of each of the `n` frames from `i` on. -/
def split (i : ℤ) : ℕ → List Event → List (List Event)
  | 0, _ => []
  | n + 1, events =>
    events.takeWhile (·.frameOffset = i) :: split (i + 1) n (events.dropWhile (·.frameOffset = i))

/-- The note-ons of each frame of a stream. -/
def frameNotes : ℕ → List Period → List (List NoteOn)
  | _, [] => []
  | start, p :: periods =>
    (split 0 p.nframes p.events).map (noteOnsOf start) ++ frameNotes (start + p.nframes) periods

theorem length_split (i : ℤ) (n : ℕ) (events : List Event) : (split i n events).length = n := by
  induction n generalizing i events with
  | zero => rfl
  | succ n ih => rw [split, List.length_cons, ih]

theorem lt_of_mem_dropWhile {i : ℤ} {events : List Event}
    (hsorted : events.Pairwise fun e e' => e.frameOffset ≤ e'.frameOffset)
    (hfrom : ∀ e ∈ events, i ≤ e.frameOffset) :
    ∀ e ∈ events.dropWhile (·.frameOffset = i), i < e.frameOffset := by
  induction events with
  | nil => exact nofun
  | cons e events ih =>
    obtain ⟨hle, hsorted⟩ := List.pairwise_cons.mp hsorted
    by_cases he : e.frameOffset = i
    · rw [List.dropWhile_cons, if_pos (decide_eq_true he)]
      exact ih hsorted fun e' he' => hfrom e' (List.mem_cons_of_mem e he')
    · rw [List.dropWhile_cons, if_neg (by rwa [decide_eq_true_iff])]
      have hlt : i < e.frameOffset := lt_of_le_of_ne (hfrom e List.mem_cons_self) (Ne.symm he)
      intro e' he'
      rcases List.mem_cons.mp he' with rfl | he'
      · exact hlt
      · exact hlt.trans_le (hle e' he')

/-- Events in order inside the frames are all split up. -/
theorem flatten_split {i : ℤ} {n : ℕ} {events : List Event}
    (hsorted : events.Pairwise fun e e' => e.frameOffset ≤ e'.frameOffset)
    (hinside : ∀ e ∈ events, i ≤ e.frameOffset ∧ e.frameOffset < i + n) :
    (split i n events).flatten = events := by
  induction n generalizing i events with
  | zero =>
    cases events with
    | nil => rfl
    | cons e events =>
      have hbounds := hinside e List.mem_cons_self
      omega
  | succ n ih =>
    rw [split, List.flatten_cons, ih]
    · exact List.takeWhile_append_dropWhile
    · exact hsorted.sublist (List.dropWhile_sublist _)
    · intro e he
      have hbounds := hinside e ((List.dropWhile_sublist _).mem he)
      have hlt := lt_of_mem_dropWhile hsorted (fun e he => (hinside e he).1) e he
      omega

theorem noteOnsOf_append (start : ℕ) (events events' : List Event) :
    noteOnsOf start (events ++ events') = noteOnsOf start events ++ noteOnsOf start events' := by
  unfold noteOnsOf
  rw [List.filter_append, List.map_append]

theorem flatten_noteOnsOf (start : ℕ) (split : List (List Event)) :
    (split.map (noteOnsOf start)).flatten = noteOnsOf start split.flatten := by
  induction split with
  | nil => rfl
  | cons events split ih =>
    rw [List.map_cons, List.flatten_cons, List.flatten_cons, ih, noteOnsOf_append]

theorem length_frameNotes (start : ℕ) (periods : List Period) :
    (frameNotes start periods).length = frames periods := by
  induction periods generalizing start with
  | nil => rfl
  | cons p periods ih =>
    rw [frameNotes, List.length_append, List.length_map, length_split, ih]
    rfl

theorem flatten_frameNotes (start : ℕ) (periods : List Period) :
    (frameNotes start periods).flatten = noteOns start periods := by
  induction periods generalizing start with
  | nil => rfl
  | cons p periods ih =>
    rw [frameNotes, List.flatten_append, ih, flatten_noteOnsOf,
      flatten_split p.sorted fun e he => by
      rw [Int.zero_add]
      exact p.inside e he]
    rfl

/-- Each note-on is at its own frame, from frame `start` on. -/
def Stamped : ℕ → List (List NoteOn) → Prop
  | _, [] => True
  | start, notes :: rest => (∀ e ∈ notes, e.frame = start) ∧ Stamped (start + 1) rest

theorem stamped_append {start : ℕ} {notes rest : List (List NoteOn)} :
    Stamped start (notes ++ rest) ↔ Stamped start notes ∧ Stamped (start + notes.length) rest := by
  induction notes generalizing start with
  | nil => exact (and_iff_right trivial).symm
  | cons first notes ih =>
    rw [List.cons_append, Stamped, Stamped, ih, and_assoc, List.length_cons, Nat.add_assoc,
      Nat.add_comm 1]

theorem stamped_split (start i n : ℕ) (events : List Event) :
    Stamped (start + i) ((split i n events).map (noteOnsOf start)) := by
  induction n generalizing i events with
  | zero => trivial
  | succ n ih =>
    refine ⟨fun e he => ?_, ih (i + 1) _⟩
    obtain ⟨event, hevent, rfl⟩ := List.mem_map.mp he
    have hframe := List.mem_takeWhile_imp (List.mem_filter.mp hevent).1
    rw [decide_eq_true_iff] at hframe
    show start + event.frameOffset.toNat = start + i
    rw [hframe, Int.toNat_natCast]

theorem stamped_frameNotes (start : ℕ) (periods : List Period) :
    Stamped start (frameNotes start periods) := by
  induction periods generalizing start with
  | nil => trivial
  | cons p periods ih =>
    refine stamped_append.mpr ⟨stamped_split start 0 p.nframes p.events, ?_⟩
    rw [List.length_map, length_split]
    exact ih _

/-- A frame as it is seen through the notes of it alone. -/
def passFrame (noteWeight : UInt8 → K) (s : ℕ × K) (notes : List NoteOn) : (ℕ × K) × List K :=
  let currentOnset :=
    notes.foldl (fun currentOnset e => add noteWeight currentOnset e.databyte1 e.databyte2) s.2
  if s.1 = BT_HOP_SIZE then ((1, 0), [currentOnset]) else ((s.1 + 1, currentOnset), [])

/-- The tracker that is left counts as `s` does. -/
def Shows (noteWeight : UInt8 → K) (t : BeatTracker K) (s : ℕ × K) : Prop :=
  t.noteWeight = noteWeight ∧ (t.frameIndex, t.currentOnset) = s

variable {noteWeight : UInt8 → K} {t : BeatTracker K} {s : ℕ × K}

omit [Zero K] in
theorem addEvents_spec (time start : ℕ) (i : ℤ) (events : List Event) :
    (t.addEvents time i events).2 = events.dropWhile (·.frameOffset = i) ∧
      Shows t.noteWeight (t.addEvents time i events).1 (t.frameIndex,
        (noteOnsOf start (events.takeWhile (·.frameOffset = i))).foldl
          (fun currentOnset e => add t.noteWeight currentOnset e.databyte1 e.databyte2)
          t.currentOnset) := by
  induction events generalizing t with
  | nil => exact ⟨rfl, rfl, rfl⟩
  | cons e events ih =>
    by_cases he : e.frameOffset = i
    · rw [addEvents, if_pos he, List.dropWhile_cons, if_pos (decide_eq_true he),
        List.takeWhile_cons, if_pos (decide_eq_true he)]
      by_cases hm : matchesType e TYPE_NOTE_ON = true
      · rw [if_pos hm, noteOnsOf, List.filter_cons, if_pos hm, List.map_cons, List.foldl_cons]
        exact ih
      · rw [if_neg hm, noteOnsOf, List.filter_cons, if_neg hm]
        exact ih
    · rw [addEvents, if_neg he, List.dropWhile_cons, if_neg (by rwa [decide_eq_true_iff]),
        List.takeWhile_cons, if_neg (by rwa [decide_eq_true_iff])]
      exact ⟨rfl, rfl, rfl⟩

/-- The end of the loop's body, after the notes of the frame. -/
theorem passOnset_spec (notes : List NoteOn) (ht : Shows noteWeight t (s.1,
      notes.foldl (fun currentOnset e =>
        add noteWeight currentOnset e.databyte1 e.databyte2) s.2)) :
    Shows noteWeight { t.passOnset.1 with frameIndex := t.passOnset.1.frameIndex + 1 }
        (passFrame noteWeight s notes).1 ∧
      t.passOnset.2.filterMap TrackerCall.onset? = (passFrame noteWeight s notes).2 := by
  obtain ⟨hweight, ht⟩ := ht
  obtain ⟨hindex, honset⟩ := Prod.mk.inj ht
  unfold passFrame passOnset
  dsimp only
  rw [← honset, ← hindex]
  split
  · exact ⟨⟨hweight, rfl⟩, rfl⟩
  · exact ⟨⟨hweight, rfl⟩, rfl⟩

/-- The loop over a period, frame by frame. -/
theorem loop_spec (ht : Shows noteWeight t s) (time start i n : ℕ) (events : List Event) :
    let r := run (passFrame noteWeight) s ((split i n events).map (noteOnsOf start))
    Shows noteWeight (t.loop time i n events).1 r.1 ∧
      (t.loop time i n events).2.filterMap TrackerCall.onset? = r.2 := by
  induction n generalizing t s i events with
  | zero => exact ⟨ht, rfl⟩
  | succ n ih =>
    obtain ⟨rfl, rfl⟩ := ht
    obtain ⟨hleft, hadded⟩ := addEvents_spec (t := t) time start i events
    obtain ⟨hpassed, hcalls⟩ :=
      passOnset_spec (s := (t.frameIndex, t.currentOnset)) _ hadded
    obtain ⟨hshows, hrest⟩ := ih hpassed (i + 1) (t.addEvents time i events).2
    rw [hleft] at hshows hrest
    refine ⟨?_, ?_⟩
    · rw [loop]
      dsimp only
      rw [hleft]
      exact hshows
    · rw [loop]
      dsimp only
      rw [List.filterMap_append, hcalls, hleft, hrest]
      rfl

omit [Add K] [Mul K] [Zero K] [NatCast K] in
theorem stopIfSilent_spec (rolling : Bool) (pos : Clock) (time : ℕ) (ht : Shows noteWeight t s) :
    Shows noteWeight (t.stopIfSilent rolling pos time).1 s ∧
      (t.stopIfSilent rolling pos time).2.filterMap TrackerCall.onset? = [] := by
  unfold stopIfSilent
  split
  · exact ⟨ht, rfl⟩
  split
  · exact ⟨ht, rfl⟩
  · exact ⟨ht, rfl⟩

theorem doProcess_spec (ht : Shows noteWeight t s) (start : ℕ) (p : Period) :
    let r := run (passFrame noteWeight) s ((split 0 p.nframes p.events).map (noteOnsOf start))
    Shows noteWeight (t.doProcess p).1 r.1 ∧
      (t.doProcess p).2.filterMap TrackerCall.onset? = r.2 := by
  obtain ⟨hlooped, hcalls⟩ := loop_spec ht p.time start 0 p.nframes p.events
  obtain ⟨hstopped, hnone⟩ := stopIfSilent_spec p.rolling p.pos p.time hlooped
  refine ⟨hstopped, ?_⟩
  rw [doProcess]
  dsimp only
  rw [List.filterMap_append, hnone, List.append_nil]
  exact hcalls

/-- The periods, frame by frame. -/
theorem run_doProcess (ht : Shows noteWeight t s) (start : ℕ) (periods : List Period) :
    (run doProcess t periods).2.filterMap TrackerCall.onset? =
      (run (passFrame noteWeight) s (frameNotes start periods)).2 := by
  induction periods generalizing t s start with
  | nil => rfl
  | cons p periods ih =>
    obtain ⟨hshows, hcalls⟩ := doProcess_spec ht start p
    rw [run, frameNotes, run_append, List.filterMap_append, hcalls,
      ih hshows (start + p.nframes)]

/-- The note-ons of a hop. -/
def window (notes : List NoteOn) (k : ℕ) : List NoteOn := notes.filter (hop · = k)

theorem onset_append (notes notes' : List NoteOn) :
    onset noteWeight (notes ++ notes') = notes'.foldl
      (fun currentOnset e => add noteWeight currentOnset e.databyte1 e.databyte2)
      (onset noteWeight notes) := List.foldl_append

theorem Stamped.lt {start : ℕ} {notes : List (List NoteOn)} (h : Stamped start notes) :
    ∀ e ∈ notes.flatten, e.frame < start + notes.length := by
  induction notes generalizing start with
  | nil => exact nofun
  | cons first notes ih =>
    intro e he
    rw [List.flatten_cons] at he
    rw [List.length_cons]
    rcases List.mem_append.mp he with he | he
    · rw [h.1 e he]
      omega
    · have hlt := ih h.2 e he
      omega

/-- The notes of one more frame belong to its hop. -/
theorem window_append {n : ℕ} {notes last : List NoteOn} (hlast : ∀ e ∈ last, e.frame = n) (k : ℕ) :
    window (notes ++ last) k =
      window notes k ++ if (n - 1) / BT_HOP_SIZE = k then last else [] := by
  unfold window
  rw [List.filter_append]
  refine congrArg (notes.filter (hop · = k) ++ ·) ?_
  split
  · rename_i hk
    exact List.filter_eq_self.mpr fun e he => by
      rw [decide_eq_true_iff, hop, hlast e he]
      exact hk
  · rename_i hk
    exact List.filter_eq_nil_iff.mpr fun e he => by
      rw [decide_eq_true_iff, hop, hlast e he]
      exact hk

/-- `frameIndex` after `n` frames. -/
def frameIndexAfter (n : ℕ) : ℕ := if n = 0 then 0 else (n - 1) % BT_HOP_SIZE + 1

theorem frameIndexAfter_full {n : ℕ} (h : frameIndexAfter n = BT_HOP_SIZE) :
    n / BT_HOP_SIZE = (n - 1) / BT_HOP_SIZE + 1 ∧ frameIndexAfter (n + 1) = 1 := by
  unfold frameIndexAfter BT_HOP_SIZE at *
  split at h
  · omega
  · rw [if_neg (Nat.succ_ne_zero n), Nat.add_sub_cancel]
    omega

theorem frameIndexAfter_not_full {n : ℕ} (h : frameIndexAfter n ≠ BT_HOP_SIZE) :
    n / BT_HOP_SIZE = (n - 1) / BT_HOP_SIZE ∧ frameIndexAfter (n + 1) = frameIndexAfter n + 1 := by
  unfold frameIndexAfter BT_HOP_SIZE at *
  rw [if_neg (Nat.succ_ne_zero n), Nat.add_sub_cancel]
  split at h
  · rename_i hzero
    rw [if_pos hzero]
    omega
  · rename_i hzero
    rw [if_neg hzero]
    omega

theorem window_eq_nil {n k : ℕ} {notes : List NoteOn} (hlt : ∀ e ∈ notes, e.frame ≤ n)
    (hk : (n - 1) / BT_HOP_SIZE < k) : window notes k = [] := by
  refine List.filter_eq_nil_iff.mpr fun e he => ?_
  rw [decide_eq_true_iff]
  have hle : hop e ≤ (n - 1) / BT_HOP_SIZE :=
    Nat.div_le_div_right (Nat.sub_le_sub_right (hlt e he) 1)
  exact (hle.trans_lt hk).ne

/-- What the frames of a stream come to, by induction on their number. -/
theorem run_passFrame {notes : List (List NoteOn)} (h : Stamped 0 notes) :
    run (passFrame noteWeight) (0, 0) notes =
      ((frameIndexAfter notes.length,
          onset noteWeight (window notes.flatten ((notes.length - 1) / BT_HOP_SIZE))),
        (List.range ((notes.length - 1) / BT_HOP_SIZE)).map fun k =>
          onset noteWeight (window notes.flatten k)) := by
  induction notes using List.reverseRecOn with
  | nil => rfl
  | append_singleton notes last ih =>
    obtain ⟨hbefore, hlast, -⟩ := stamped_append.mp h
    rw [Nat.zero_add] at hlast
    have hle : ∀ e ∈ notes.flatten ++ last, e.frame ≤ notes.length := fun e he => by
      rcases List.mem_append.mp he with he | he
      · exact Nat.zero_add notes.length ▸ (hbefore.lt e he).le
      · exact (hlast e he).le
    have hflat : (notes ++ [last]).flatten = notes.flatten ++ last := by
      rw [List.flatten_append, List.flatten_singleton]
    have hmap : (List.range ((notes.length - 1) / BT_HOP_SIZE)).map
        (fun k => onset noteWeight (window (notes.flatten ++ last) k)) =
          (List.range ((notes.length - 1) / BT_HOP_SIZE)).map
            fun k => onset noteWeight (window notes.flatten k) :=
      List.map_congr_left fun k hk => by
        rw [window_append hlast, if_neg (List.mem_range.mp hk).ne', List.append_nil]
    have hcurrent : onset noteWeight (window (notes.flatten ++ last)
        ((notes.length - 1) / BT_HOP_SIZE)) = last.foldl
          (fun currentOnset e => add noteWeight currentOnset e.databyte1 e.databyte2)
          (onset noteWeight (window notes.flatten ((notes.length - 1) / BT_HOP_SIZE))) := by
      rw [window_append hlast, if_pos rfl, onset_append]
    rw [run_concat, ih hbefore, hflat, List.length_append, List.length_singleton,
      Nat.add_sub_cancel]
    unfold passFrame
    dsimp only
    rw [← hcurrent]
    by_cases hfull : frameIndexAfter notes.length = BT_HOP_SIZE
    · obtain ⟨hdiv, hindex⟩ := frameIndexAfter_full hfull
      rw [if_pos hfull, hindex, hdiv, window_eq_nil hle (Nat.lt_succ_self _), List.range_succ,
        List.map_append, hmap]
      rfl
    · obtain ⟨hdiv, hindex⟩ := frameIndexAfter_not_full hfull
      rw [if_neg hfull, hindex, hdiv, hmap, List.append_nil]

/-- Over any cut into periods, an onset sample for each hop that is over, of the note-ons in it. -/
theorem onsets_eq (noteWeight : UInt8 → K) (stopSeconds : ℕ) (periods : List Period) :
    onsets noteWeight stopSeconds periods =
      (List.range ((frames periods - 1) / BT_HOP_SIZE)).map fun k =>
        onset noteWeight (window (noteOns 0 periods) k) := by
  unfold onsets
  rw [run_doProcess (s := (0, 0)) ⟨rfl, rfl⟩ 0, run_passFrame (stamped_frameNotes 0 periods),
    length_frameNotes, flatten_frameNotes]
  rfl

theorem mem_window {notes : List NoteOn} {e : NoteOn} (he : e ∈ notes) (k : ℕ) :
    e ∈ window notes k ↔ k = hop e := by
  unfold window
  rw [List.mem_filter, decide_eq_true_iff]
  exact (and_iff_right he).trans eq_comm

/-- A period that rolls, with note-ons of key 60. -/
def rollingPeriod (nframes : ℕ) (offsets : List ℕ)
    (sorted : (offsets.map CountIn.noteOn).Pairwise fun e e' => e.frameOffset ≤ e'.frameOffset)
    (inside : ∀ e ∈ offsets.map CountIn.noteOn, 0 ≤ e.frameOffset ∧ e.frameOffset < nframes) :
    Period :=
  ⟨true, CountIn.presto, nframes, 0, offsets.map CountIn.noteOn, sorted, inside⟩

end BeatTracker

end Midi

end Bipscript
