import Bipscript.EventBuffer
import Bipscript.Library.Run

/-! The restart of the script after a jump backwards, over the steps of both threads. -/
namespace Bipscript.Restart

/-- The classes of processors that a reposition tells apart. -/
inductive Kind
  | midiOutputPort | mixer | transport
  | plugin (midiInputs : ℕ)
  | oscOutput
  | other
deriving DecidableEq

/-- What the process thread does for one processor in a notification. -/
inductive Notice (P : Type*)
  | recycleRemaining (p : P) (buffer : ℕ)
  | repositionNeeded (p : P)

/-- The event buffers that `reposition` recycles: a plugin has one for each of its MIDI inputs and
then `controlBuffer`. -/
def Kind.eventBuffers : Kind → ℕ
  | midiOutputPort | mixer | transport => 1
  | plugin midiInputs => midiInputs + 1
  | oscOutput | other => 0

variable {P : Type*}

def Kind.reposition (p : P) : Kind → List (Notice P)
  | oscOutput => [.repositionNeeded p]
  | k => (List.range k.eventBuffers).map (.recycleRemaining p)

theorem Kind.mem_reposition {k : Kind} {p : P} {i : ℕ} (hi : i < k.eventBuffers) :
    .recycleRemaining p i ∈ k.reposition p := by
  cases k with
  | oscOutput => cases hi
  | midiOutputPort | mixer | transport | plugin | other =>
    exact List.mem_map.mpr ⟨i, List.mem_range.mpr hi, rfl⟩

/-- Where the script thread is: running the body, in `scriptComplete`, in the loop of
`waitForRestart`, or past its `restartFlag.load()` or `restartFlag.store(false)`. -/
inductive ScriptPC
  | body | completing | polling | loaded | lowered | done
deriving DecidableEq

/-- Where the process thread is: between callbacks, in `process`, or in `reposition` before one of
its notifications, of its checks or of `ScriptHost::restart`. -/
inductive ProcessPC (P : Type*)
  | idle
  | processing
  | notifying (rest : List (Notice P))
  | checking
  | awaiting (rest : List P)
  | ready

/-- `runs` counts the runs of the body that are over. An event's data is the run of the body that
added it, none when a dispatched method did. `cached` has the objects of the caches, and the
transport. -/
structure State (P : Type*) where
  script : ScriptPC
  engine : ProcessPC P
  runs : ℕ
  restartFlag : Bool
  runningFlag : Bool
  multiplePeriodRestart : ℕ
  runningFrame : ℕ
  cached : List P
  activeProcessors : List P
  deletedProcessors : List P
  eventBuffer : P → ℕ → EventBuffer (Option ℕ)
  repositionNeeded : P → Bool

inductive Act (P : Type*)
  | create (p : P)
  | addEvent (p : P) (buffer : ℕ) (pos : Position)
  | dispatched (p : P) (buffer : ℕ) (pos : Position)
  | waitForRestart
  | removeProcessor (p : P)
  | scriptComplete (activeObjects : Bool)
  | load
  | lower
  | rerun
  | sync (frame : ℕ)
  | notify
  | checkRunning
  | repositionComplete
  | restart
  | process (rolling : Bool) (frame : ℕ)
  | getNextEvent (p : P) (buffer : ℕ) (rolling : Bool) (pos : JackPosition) (nframes : ℕ)
  | processed
  | repositioned (p : P)

namespace State

/-- The capacity of `deletedProcessors`. -/
def CAPACITY : ℕ := 16

def initial : State P where
  script := .body
  engine := .idle
  runs := 0
  restartFlag := false
  runningFlag := true
  multiplePeriodRestart := 0
  runningFrame := 0
  cached := []
  activeProcessors := []
  deletedProcessors := []
  eventBuffer := fun _ _ => .empty
  repositionNeeded := fun _ => false

variable [DecidableEq P]

def setBuffer (p : P) (i : ℕ) (b : EventBuffer (Option ℕ)) (s : State P) : State P :=
  { s with eventBuffer := fun q j => if q = p ∧ j = i then b else s.eventBuffer q j }

/-- `addEvent` once the queue has room for the event. -/
def push (p : P) (i : ℕ) (e : Event (Option ℕ)) (s : State P) : State P :=
  s.setBuffer p i
    { s.eventBuffer p i with eventQueue := (s.eventBuffer p i).eventQueue ++ [e] }

/-- Deleted processors are removed from the engine. -/
def drain (s : State P) : State P :=
  { s with
    activeProcessors := s.activeProcessors.diff s.deletedProcessors
    deletedProcessors := [] }

def notices (kind : P → Kind) (s : State P) : List (Notice P) :=
  s.activeProcessors.flatMap fun p => (kind p).reposition p

/-- `reposition` up to its first notification or check. -/
def reposition (kind : P → Kind) (attempt : ℕ) (s : State P) : State P :=
  if attempt = 0 then { s.drain with engine := .notifying (s.drain.notices kind) }
  else { s.drain with engine := .checking }

/-- `reposition` returns false. -/
def retry (s : State P) : State P :=
  { s with engine := .idle, multiplePeriodRestart := (s.multiplePeriodRestart + 1) % 2 ^ 32 }

/-- The steps of the two threads, and of the thread of an OSC output. `getNextEvent` and
`recycleRemaining` are taken whole, at their last look into the queue: pushes before it may have
found the room that their first looks made, so a push is never refused here. Which processors a
`scriptComplete` removes is up to the caches. -/
inductive Step (kind : P → Kind) (s : State P) : Act P → State P → Prop
  | create {p} (hs : s.script = .body ∨ s.script = .polling) (hc : p ∉ s.cached)
      (ha : p ∉ s.activeProcessors) (hd : p ∉ s.deletedProcessors) :
      Step kind s (.create p)
        { s with
          cached := p :: s.cached
          activeProcessors := p :: s.activeProcessors
          eventBuffer := fun q j => if q = p then .empty else s.eventBuffer q j
          repositionNeeded := Function.update s.repositionNeeded p false }
  | addEvent {p i pos} (hs : s.script = .body) (hi : i < (kind p).eventBuffers) :
      Step kind s (.addEvent p i pos) (s.push p i ⟨pos, 0, some s.runs⟩)
  | dispatched {p i pos} (hs : s.script = .polling) (hi : i < (kind p).eventBuffers) :
      Step kind s (.dispatched p i pos) (s.push p i ⟨pos, 0, none⟩)
  | waitForRestart (hs : s.script = .body) :
      Step kind s .waitForRestart { s with script := .completing, runningFlag := false }
  | removeProcessor {p} (hs : s.script = .completing) (hc : p ∈ s.cached)
      (hk : kind p ≠ .transport) (hq : s.deletedProcessors.length < CAPACITY) :
      Step kind s (.removeProcessor p)
        { s with
          cached := s.cached.filter (· ≠ p)
          deletedProcessors := s.deletedProcessors ++ [p] }
  | scriptComplete {activeObjects} (hs : s.script = .completing) :
      Step kind s (.scriptComplete activeObjects)
        { s with script := if activeObjects then .polling else .done }
  | load (hs : s.script = .polling) (hf : s.restartFlag = true) :
      Step kind s .load { s with script := .loaded }
  | lower (hs : s.script = .loaded) :
      Step kind s .lower { s with script := .lowered, restartFlag := false }
  | rerun (hs : s.script = .lowered) :
      Step kind s .rerun { s with script := .body, runningFlag := true, runs := s.runs + 1 }
  | resume {frame} (he : s.engine = .idle) (hm : s.multiplePeriodRestart ≠ 0) :
      Step kind s (.sync frame) (s.reposition kind (s.multiplePeriodRestart % 2 ^ 16))
  | jumpBack {frame} (he : s.engine = .idle) (hm : s.multiplePeriodRestart = 0)
      (hf : frame < s.runningFrame) : Step kind s (.sync frame) (s.reposition kind 0)
  | roll {frame} (he : s.engine = .idle) (hm : s.multiplePeriodRestart = 0)
      (hf : s.runningFrame ≤ frame) : Step kind s (.sync frame) s
  | recycleRemaining {p i rest} (he : s.engine = .notifying (.recycleRemaining p i :: rest)) :
      Step kind s .notify
        { s.setBuffer p i (s.eventBuffer p i).recycleRemaining.1 with engine := .notifying rest }
  | repositionNeeded {p rest} (he : s.engine = .notifying (.repositionNeeded p :: rest)) :
      Step kind s .notify
        { s with
          engine := .notifying rest
          repositionNeeded := Function.update s.repositionNeeded p true }
  | notified (he : s.engine = .notifying []) : Step kind s .notify { s with engine := .checking }
  | running (he : s.engine = .checking) (hr : s.runningFlag = true) :
      Step kind s .checkRunning s.retry
  | finished (he : s.engine = .checking) (hr : s.runningFlag = false) :
      Step kind s .checkRunning { s with engine := .awaiting s.activeProcessors }
  | complete {p rest} (he : s.engine = .awaiting (p :: rest))
      (hc : kind p = .oscOutput → s.repositionNeeded p = false) :
      Step kind s .repositionComplete { s with engine := .awaiting rest }
  | incomplete {p rest} (he : s.engine = .awaiting (p :: rest)) (hk : kind p = .oscOutput)
      (hc : s.repositionNeeded p = true) : Step kind s .repositionComplete s.retry
  | allComplete (he : s.engine = .awaiting []) :
      Step kind s .repositionComplete { s with engine := .ready }
  | restart (he : s.engine = .ready) :
      Step kind s .restart
        { s with
          engine := .idle
          restartFlag := true
          multiplePeriodRestart := 0
          runningFrame := 0 }
  | process {rolling frame} (he : s.engine = .idle) :
      Step kind s (.process rolling frame)
        { s.drain with
          engine := .processing
          runningFrame := if rolling then frame else s.runningFrame }
  | getNextEvent {p i rolling pos nframes} (he : s.engine = .processing) :
      Step kind s (.getNextEvent p i rolling pos nframes)
        (s.setBuffer p i ((s.eventBuffer p i).getNextEvent mul32 rolling pos nframes).buffer)
  | processed (he : s.engine = .processing) : Step kind s .processed { s with engine := .idle }
  | repositioned {p} (hk : kind p = .oscOutput) (hr : s.repositionNeeded p = true) :
      Step kind s (.repositioned p)
        { s with repositionNeeded := Function.update s.repositionNeeded p false }

/-- Run `r` of the body added an event that is still in this buffer. -/
def Leftover (s : State P) (p : P) (i r : ℕ) : Prop :=
  ∃ e ∈ (s.eventBuffer p i).pending, e.data = some r

/-- No event of the body is left in any buffer. -/
def Recycled (s : State P) : Prop := ∀ p i r, ¬ s.Leftover p i r

/-- No restart is under way that has notified already. -/
def Settled (s : State P) : Prop :=
  (s.engine = .idle ∨ s.engine = .processing) ∧ s.multiplePeriodRestart = 0

/-- The notification under way has this buffer still to come. -/
def Unnotified (s : State P) (p : P) (i : ℕ) : Prop :=
  ∃ rest, s.engine = .notifying rest ∧ .recycleRemaining p i ∈ rest

/-- The body adds events to cached processors only, and only while no restart has been asked for
since their last notification; a processor that is removed has no event of the body left. -/
def Timely (s : State P) : Act P → Prop
  | .addEvent p i _ => p ∈ s.cached ∧ s.restartFlag = false ∧ (s.Settled ∨ s.Unnotified p i)
  | .removeProcessor p => ∀ i r, ¬ s.Leftover p i r
  | _ => True

/-- A restart is under way that has notified every processor. -/
def Notified (s : State P) : Prop :=
  s.restartFlag = true ∨ s.script = .loaded ∨ s.script = .lowered ∨
    match s.engine with
    | .idle | .processing => s.multiplePeriodRestart ≠ 0
    | .notifying _ => False
    | .checking | .awaiting _ | .ready => True

/-- An event of the body is left in no buffer once every processor is notified, and during the
notification in none that it has passed. -/
structure Invariant (kind : P → Kind) (s : State P) : Prop where
  earlier : ∀ p i r, s.Leftover p i r → s.runs ≤ r
  owner : ∀ p i r, s.Leftover p i r → p ∈ s.cached ∧ i < (kind p).eventBuffers
  cached : ∀ p ∈ s.cached, p ∈ s.activeProcessors ∧ p ∉ s.deletedProcessors
  notified : s.Notified → s.Recycled
  notifying : ∀ rest, s.engine = .notifying rest →
    ∀ p i r, s.Leftover p i r → .recycleRemaining p i ∈ rest

section Buffers

variable {kind : P → Kind} {s t : State P} {p q : P} {i j r : ℕ} {a : Act P}

omit [DecidableEq P] in
theorem leftover_congr (h : t.eventBuffer q j = s.eventBuffer q j) :
    t.Leftover q j r ↔ s.Leftover q j r := by
  simp only [Leftover, h]

theorem leftover_setBuffer {b : EventBuffer (Option ℕ)} (h : (s.setBuffer p i b).Leftover q j r) :
    s.Leftover q j r ∨ (q = p ∧ j = i ∧ ∃ e ∈ b.pending, e.data = some r) := by
  by_cases hq : q = p ∧ j = i
  · right
    obtain ⟨e, he, hr⟩ := h
    simp only [setBuffer, hq, and_self, if_true] at he
    exact ⟨hq.1, hq.2, e, he, hr⟩
  · left
    simpa only [Leftover, setBuffer, hq, if_false] using h

theorem leftover_push {e : Event (Option ℕ)} (h : (s.push p i e).Leftover q j r) :
    s.Leftover q j r ∨ (q = p ∧ j = i ∧ e.data = some r) := by
  rcases leftover_setBuffer h with h | ⟨rfl, rfl, x, hx, hr⟩
  · exact Or.inl h
  · rw [EventBuffer.pending, ← List.append_assoc] at hx
    rcases List.mem_append.mp hx with hx | hx
    · exact Or.inl ⟨x, hx, hr⟩
    · cases List.mem_singleton.mp hx
      exact Or.inr ⟨rfl, rfl, hr⟩

/-- Only the body's own `addEvent` leaves an event of the body behind. -/
theorem leftover_step (h : Step kind s a t) (hl : t.Leftover q j r) :
    s.Leftover q j r ∨
      (r = s.runs ∧ j < (kind q).eventBuffers ∧ ∃ pos, a = .addEvent q j pos) := by
  cases h with
  | @addEvent p i pos _ hi =>
    rcases leftover_push hl with hl | ⟨rfl, rfl, hr⟩
    · exact Or.inl hl
    · exact Or.inr ⟨(Option.some.inj hr).symm, hi, pos, rfl⟩
  | dispatched =>
    rcases leftover_push hl with hl | ⟨-, -, hr⟩
    · exact Or.inl hl
    · cases hr
  | @create p =>
    left
    obtain ⟨e, he, hr⟩ := hl
    by_cases hq : q = p
    · simp [hq, EventBuffer.empty, EventBuffer.pending] at he
    · simp only [hq, if_false] at he
      exact ⟨e, he, hr⟩
  | recycleRemaining =>
    rcases leftover_setBuffer hl with hl | ⟨-, -, x, hx, -⟩
    · exact Or.inl hl
    · cases hx
  | getNextEvent =>
    rcases leftover_setBuffer hl with hl | ⟨rfl, rfl, x, hx, hr⟩
    · exact Or.inl hl
    · obtain ⟨y, hy, -, he⟩ := EventBuffer.mem_getNextEvent hx
      exact Or.inl ⟨y, hy, he ▸ hr⟩
  | resume | jumpBack =>
    left
    refine (leftover_congr ?_).mp hl
    simp only [reposition]
    split <;> rfl
  | _ => exact Or.inl hl

end Buffers

section Invariant

variable {kind : P → Kind} {s t : State P} {p : P} {i : ℕ} {pos : Position} {a : Act P}

omit [DecidableEq P] in
theorem not_leftover_initial (p : P) (i r : ℕ) : ¬ (initial : State P).Leftover p i r := by
  rintro ⟨e, he, -⟩
  cases he

omit [DecidableEq P] in
theorem invariant_initial : Invariant kind (initial : State P) where
  earlier := fun p i r h => absurd h (not_leftover_initial p i r)
  owner := fun p i r h => absurd h (not_leftover_initial p i r)
  cached := by simp [initial]
  notified := fun _ => not_leftover_initial
  notifying := fun rest h => by cases h

omit [DecidableEq P] in
/-- Where the body may add an event, some notification is still to come. -/
theorem Timely.not_notified (ht : s.Timely (.addEvent p i pos)) (hs : s.script = .body) :
    ¬ s.Notified := by
  obtain ⟨-, hflag, hwhere⟩ := ht
  rintro (h | h | h | h)
  · simp [hflag] at h
  · simp [hs] at h
  · simp [hs] at h
  · rcases hwhere with ⟨he | he, hm⟩ | ⟨rest, he, -⟩ <;> simp [he] at h
    · exact h hm
    · exact h hm

/-- A restart is asked for by the last step of a notification. -/
theorem notified_step (h : Step kind s a t) (hn : t.Notified) :
    s.Notified ∨ s.engine = .notifying [] := by
  cases h with
  | notified he => exact Or.inr he
  | resume he hm => exact Or.inl (Or.inr (Or.inr (Or.inr (by simpa [he] using hm))))
  | jumpBack he hm =>
    left
    simp only [Notified, reposition, if_true, drain] at hn ⊢
    tauto
  | create | removeProcessor | dispatched | addEvent | repositioned | getNextEvent | roll =>
    exact Or.inl hn
  | waitForRestart hs | load hs | lower hs | rerun hs =>
    left
    simp only [Notified, hs] at hn ⊢
    tauto
  | @scriptComplete activeObjects hs =>
    left
    cases activeObjects <;> simpa [Notified, hs] using hn
  | recycleRemaining he | repositionNeeded he =>
    left
    simp only [Notified, he] at hn ⊢
    exact hn
  | running he | finished he | complete he | incomplete he | allComplete he | restart he =>
    left
    simp [Notified, he]
  | process he | processed he =>
    left
    simp only [Notified, he] at hn ⊢
    exact hn

theorem earlier_step (hs : Invariant kind s) (h : Step kind s a t) :
    ∀ p i r, t.Leftover p i r → t.runs ≤ r := by
  intro p i r hl
  have hruns : t.runs = s.runs ∨ s.script = .lowered := by
    cases h with
    | rerun hs => exact Or.inr hs
    | resume | jumpBack =>
      left
      simp only [reposition]
      split <;> rfl
    | _ => exact Or.inl rfl
  rcases leftover_step h hl with hold | ⟨rfl, -, pos, rfl⟩
  · rcases hruns with hruns | hlowered
    · have := hs.earlier p i r hold
      omega
    · exact absurd hold (hs.notified (Or.inr (Or.inr (Or.inl hlowered))) p i r)
  · cases h
    exact le_rfl

theorem cached_step (hs : Invariant kind s) (h : Step kind s a t) :
    ∀ p ∈ t.cached, p ∈ t.activeProcessors ∧ p ∉ t.deletedProcessors := by
  have hdrain : ∀ p ∈ s.cached, p ∈ s.drain.activeProcessors ∧ p ∉ s.drain.deletedProcessors := by
    intro p hp
    obtain ⟨ha, hd⟩ := hs.cached p hp
    refine ⟨?_, List.not_mem_nil⟩
    have hcount : s.deletedProcessors.count p = 0 := List.count_eq_zero.mpr hd
    have hpos : 0 < s.activeProcessors.count p := List.count_pos_iff.mpr ha
    apply List.count_pos_iff.mp
    simp only [drain, List.count_diff]
    omega
  cases h with
  | @create q _ _ _ hd =>
    intro p hp
    rcases List.mem_cons.mp hp with rfl | hp
    · exact ⟨List.mem_cons_self, hd⟩
    · exact ⟨List.mem_cons_of_mem _ (hs.cached p hp).1, (hs.cached p hp).2⟩
  | @removeProcessor q =>
    intro p hp
    obtain ⟨hp, hne⟩ := List.mem_filter.mp hp
    obtain ⟨ha, hd⟩ := hs.cached p hp
    refine ⟨ha, ?_⟩
    simpa [hd] using hne
  | resume | jumpBack =>
    simp only [reposition]
    split <;> exact hdrain
  | process => exact hdrain
  | _ => exact hs.cached

theorem owner_step (hs : Invariant kind s) (ht : s.Timely a) (h : Step kind s a t) :
    ∀ p i r, t.Leftover p i r → p ∈ t.cached ∧ i < (kind p).eventBuffers := by
  intro p i r hl
  rcases leftover_step h hl with hold | ⟨-, hi, pos, rfl⟩
  · obtain ⟨hp, hi⟩ := hs.owner p i r hold
    refine ⟨?_, hi⟩
    cases h with
    | create => exact List.mem_cons_of_mem _ hp
    | @removeProcessor q =>
      refine List.mem_filter.mpr ⟨hp, ?_⟩
      -- what is removed has no event of the body left
      have hne : p ≠ q := by
        rintro rfl
        exact ht i r hold
      simpa using hne
    | resume | jumpBack =>
      simp only [reposition]
      split <;> exact hp
    | _ => exact hp
  · cases h
    exact ⟨ht.1, hi⟩

theorem recycled_step (hs : Invariant kind s) (ht : s.Timely a) (h : Step kind s a t)
    (hn : t.Notified) : t.Recycled := by
  intro p i r hl
  rcases leftover_step h hl with hold | ⟨-, -, pos, rfl⟩
  · rcases notified_step h hn with hn | he
    · exact hs.notified hn p i r hold
    · exact absurd (hs.notifying [] he p i r hold) List.not_mem_nil
  · cases h with
    | addEvent hbody => exact ht.not_notified hbody hn

omit [DecidableEq P] in
/-- A notification that begins has every buffer before it that the body can have added to. -/
theorem mem_notices {l : List P} (hp : p ∈ l) (hi : i < (kind p).eventBuffers) :
    .recycleRemaining p i ∈ l.flatMap fun p => (kind p).reposition p :=
  List.mem_flatMap.mpr ⟨p, hp, Kind.mem_reposition hi⟩

theorem notifying_step (hs : Invariant kind s) (ht : s.Timely a) (h : Step kind s a t) :
    ∀ rest, t.engine = .notifying rest →
      ∀ p i r, t.Leftover p i r → .recycleRemaining p i ∈ rest := by
  intro rest he p i r hl
  have hold := leftover_step h hl
  have howner := owner_step hs ht h p i r hl
  have hcached := cached_step hs h p howner.1
  cases h with
  | resume | jumpBack =>
    have hactive : p ∈ s.drain.activeProcessors := by
      simp only [reposition] at hcached
      split at hcached <;> exact hcached.1
    simp only [reposition] at he
    split at he <;> cases he
    exact mem_notices hactive howner.2
  | @recycleRemaining q j rest' hrest =>
    cases he
    rcases leftover_setBuffer hl with hold | ⟨-, -, e, hmem, -⟩
    · refine (List.mem_cons.mp (hs.notifying _ hrest p i r hold)).resolve_left ?_
      rintro heq
      cases heq
      -- the buffer just emptied
      obtain ⟨e, hmem, -⟩ := hl
      simp [setBuffer, EventBuffer.recycleRemaining, EventBuffer.empty,
        EventBuffer.pending] at hmem
    · cases hmem
  | repositionNeeded hrest =>
    cases he
    refine (List.mem_cons.mp (hs.notifying _ hrest p i r hl)).resolve_left ?_
    rintro ⟨⟩
  | @addEvent q j pos hbody hi =>
    rcases leftover_push hl with hold | ⟨rfl, rfl, -⟩
    · exact hs.notifying rest he p i r hold
    · obtain ⟨-, -, ⟨hsettled | hsettled, -⟩ | ⟨rest', hrest, hmem⟩⟩ := ht
      · cases hsettled.symm.trans he
      · cases hsettled.symm.trans he
      · cases hrest.symm.trans he
        exact hmem
  | create | dispatched =>
    rcases hold with hold | ⟨-, -, pos, heq⟩
    · exact hs.notifying rest he p i r hold
    · cases heq
  | notified | running | finished | complete | incomplete | allComplete | restart | process |
      processed => cases he
  | getNextEvent he' => cases he'.symm.trans he
  | roll he' => cases he'.symm.trans he
  | waitForRestart | removeProcessor | scriptComplete | load | lower | rerun | repositioned =>
    exact hs.notifying rest he p i r hl

theorem invariant_step (hs : Invariant kind s) (ht : s.Timely a) (h : Step kind s a t) :
    Invariant kind t where
  earlier := earlier_step hs h
  owner := owner_step hs ht h
  cached := cached_step hs h
  notified := recycled_step hs ht h
  notifying := notifying_step hs ht h

/-- Along a run in which each step is timely, no event of an earlier run of the body is left, and so
none when `waitForRestart` returns true. -/
theorem no_earlier_leftover {as : List (Act P)}
    (h : Transition.Run (Transition.restrict Timely (Step kind)) initial as t) :
    ∀ p i r, t.Leftover p i r → ¬ r < t.runs := by
  have hinv : Invariant kind t :=
    h.invariant_restrict (I := Invariant kind) invariant_step invariant_initial
  intro p i r hl
  exact not_lt.mpr (hinv.earlier p i r hl)

end Invariant

/-- A MIDI output port, and the engine rolling. -/
def prelude : List (Act Unit) := [.create (), .process true 100, .processed]

def ports (_ : Unit) : Kind := .midiOutputPort

def downbeat : Position := ⟨⟨1, 0, 4⟩, Position.four_pos⟩

/-- The body is over before the transport jumps back, and its event is recycled. -/
theorem no_earlier_leftover_rerun :
    ∃ as t, Transition.Run (Transition.restrict Timely (Step ports)) initial (prelude ++ as) t ∧
      t.runs = 1 ∧ t.Leftover () 0 1 ∧ ∀ p i r, t.Leftover p i r → ¬ r < t.runs := by
  have hrun : ∃ as t,
      Transition.Run (Transition.restrict Timely (Step ports)) initial (prelude ++ as) t ∧
        t.runs = 1 ∧ t.Leftover () 0 1 := by
    refine ⟨[.addEvent () 0 downbeat, .waitForRestart, .scriptComplete true, .sync 0, .notify,
      .notify, .checkRunning, .repositionComplete, .repositionComplete, .restart, .load, .lower,
      .rerun, .addEvent () 0 downbeat], _,
      .stepL ⟨trivial, .create (.inl rfl) nofun nofun nofun⟩
      (.stepL ⟨trivial, .process rfl⟩
      (.stepL ⟨trivial, .processed rfl⟩
      (.stepL ⟨⟨?_, rfl, .inl ⟨.inl rfl, rfl⟩⟩, .addEvent rfl ?_⟩
      (.stepL ⟨trivial, .waitForRestart rfl⟩
      (.stepL ⟨trivial, .scriptComplete rfl⟩
      (.stepL ⟨trivial, .jumpBack rfl rfl ?_⟩
      (.stepL ⟨trivial, .recycleRemaining rfl⟩
      (.stepL ⟨trivial, .notified rfl⟩
      (.stepL ⟨trivial, .finished rfl rfl⟩
      (.stepL ⟨trivial, .complete rfl nofun⟩
      (.stepL ⟨trivial, .allComplete rfl⟩
      (.stepL ⟨trivial, .restart rfl⟩
      (.stepL ⟨trivial, .load rfl rfl⟩
      (.stepL ⟨trivial, .lower rfl⟩
      (.stepL ⟨trivial, .rerun rfl⟩
      (.single ⟨⟨?_, rfl, .inl ⟨.inl rfl, rfl⟩⟩, .addEvent rfl ?_⟩)))))))))))))))),
      rfl, ?_⟩
    · exact List.mem_cons_self
    · decide
    · exact Nat.zero_lt_succ 99
    · exact List.mem_cons_self
    · decide
    · exact ⟨⟨downbeat, 0, some 1⟩, List.mem_cons_self, rfl⟩
  obtain ⟨as, t, hrun, hruns, hleft⟩ := hrun
  exact ⟨as, t, hrun, hruns, hleft, no_earlier_leftover hrun⟩

/-- The transport jumps back while the body runs: the port is notified at once and not again, and an
event added after that is still there when the body runs the next time. -/
theorem earlier_leftover :
    ∃ as t, Transition.Run (Step ports) initial (prelude ++ as ++ [.rerun]) t ∧
      ¬ ∀ p i r, t.Leftover p i r → ¬ r < t.runs := by
  refine ⟨[.sync 0, .notify, .notify, .checkRunning, .addEvent () 0 downbeat, .waitForRestart,
    .scriptComplete true, .sync 0, .checkRunning, .repositionComplete, .repositionComplete,
    .restart, .load, .lower], _,
    .stepL (.create (.inl rfl) nofun nofun nofun)
    (.stepL (.process rfl)
    (.stepL (.processed rfl)
    (.stepL (.jumpBack rfl rfl ?_)
    (.stepL (.recycleRemaining rfl)
    (.stepL (.notified rfl)
    (.stepL (.running rfl rfl)
    (.stepL (.addEvent rfl ?_)
    (.stepL (.waitForRestart rfl)
    (.stepL (.scriptComplete rfl)
    (.stepL (.resume rfl ?_)
    (.stepL (.finished rfl rfl)
    (.stepL (.complete rfl nofun)
    (.stepL (.allComplete rfl)
    (.stepL (.restart rfl)
    (.stepL (.load rfl rfl)
    (.stepL (.lower rfl)
    (.single (.rerun rfl)))))))))))))))))), ?_⟩
  · exact Nat.zero_lt_succ 99
  · decide
  · exact Nat.one_ne_zero
  · intro h
    exact h () 0 0 ⟨⟨downbeat, 0, some 0⟩, List.mem_cons_self, rfl⟩ Nat.zero_lt_one

end State

end Bipscript.Restart
