import Bipscript.MmlLoop
import Bipscript.MmlReader

/-! One MML reader for two texts: what the first leaves behind for the second. -/
namespace Bipscript.Midi.MMLReader

open Tinymml (Info Mml MmlOption)

/-- Both return, with the same pattern, or they throw the same. -/
inductive Alike : Outcome MMLReader → Outcome MMLReader → Prop
  | returned {s s' : MMLReader} (h : s.pattern = s'.pattern) : Alike (.returned s) (.returned s')
  | thrown (s s' : MMLReader) (what : String) : Alike (.thrown s what) (.thrown s' what)

/-- The first reader reads a text; then it sets its parser up for another, and reads it, as the
second does. -/
def Reproduces (first second : MMLReader) (time : Transport.TimeSignature)
    (text text' : List Char) : Prop :=
  ∃ r, (first.read time text).Ends r ∧
    r.mml.setup r.mmlopt text' = second.mml.setup second.mmlopt text' ∧
    Alike (r.read time text') (second.read time text')

/-- The parse of a text, which has nothing of what the parser did before. -/
def parsed (text : List Char) : List (Info × Mml) × Tinymml.Ending :=
  Tinymml.parse (Tinymml.setUp Tinymml.optionDefault text)

def callsOf (text : List Char) : List Info := (parsed text).1.map Prod.fst

/-- The parser stays within the text and its buffers. -/
def Parses (text : List Char) : Prop := (parsed text).2 ≠ .undefined

/-- No sum of the positions divides by zero. -/
def Adds (perBar : ℕ) (cs : List Info) : Prop :=
  (cs.foldlM (advance perBar) Abc.firstBar).isSome

/-- What a text does is defined: where a bar has no ticks, a callback may throw before the parser
goes astray. -/
def Sound (perBar : ℕ) (text : List Char) : Prop :=
  if perBar = 0 then (∃ c ∈ callsOf text, resets c) ∨ Parses text
  else Parses text ∧ Adds perBar (callsOf text)

/-- The notes without length that come before everything else. -/
def leading (cs : List Info) : List UInt8 := (cs.takeWhile fun c => !resets c).filterMap tone

/-- With different chords waiting before them, the callbacks add the same notes. -/
def Apart (chord chord' : List UInt8) (cs : List Info) : Prop :=
  match cs.find? resets with
  | some (.note _ _) =>
    (chord ++ leading cs).take MAX_CHORD_SIZE = (chord' ++ leading cs).take MAX_CHORD_SIZE
  | _ => True

/-- The notes that callbacks add from a position on, with a chord that waits. -/
def addedBy (perBar : ℕ) : Position → List UInt8 → List Info → List PatternNote
  | _, _, [] => []
  | p, chord, c :: cs =>
    added perBar p chord c ++
      match advance perBar p c with
      | none => []
      | some p => addedBy perBar p ((waits chord c).take MAX_CHORD_SIZE) cs

variable {r s : MMLReader} {perBar : ℕ} {p : Position} {c : Info} {mml : Mml}
  {chord chord' : List UInt8} {cs : List Info} {calls : List (Info × Mml)} {text text' : List Char}
  {time : Transport.TimeSignature}

theorem leading_cons (hresets : resets c = false) :
    leading (c :: cs) = (tone c).toList ++ leading cs := by
  rw [leading, List.takeWhile_cons_of_pos (by rw [hresets]; rfl), List.filterMap_cons, leading]
  cases tone c <;> rfl

/-- Different tones that wait are different notes. -/
theorem added_note_eq_iff {number ticks : Int32} (hticks : ticks ≠ 0) :
    added perBar p chord (.note number ticks) = added perBar p chord' (.note number ticks) ↔
      chord = chord' := by
  unfold added
  dsimp only
  rw [if_pos hticks, if_pos hticks, List.append_cancel_right_eq]
  refine List.map_inj_right fun tone tone' he => ?_
  have hvalue := congrArg (fun n : PatternNote => n.note.value) he
  exact UInt8.toNat_inj.mp (Int.ofNat_inj.mp hvalue)

/-- What waits is past the callback, whatever it was. -/
theorem addedBy_of_resets {q : Position} (hresets : resets c = true)
    (hadd : advance perBar p c = some q) :
    addedBy perBar p chord (c :: cs) = added perBar p chord c ++ addedBy perBar q [] cs := by
  rw [addedBy, hadd]
  dsimp only
  rw [waits_of_resets hresets, List.take_nil]

theorem apart_of_not_resets (hresets : resets c = false) :
    Apart chord chord' (c :: cs) ↔
      Apart ((waits chord c).take MAX_CHORD_SIZE) ((waits chord' c).take MAX_CHORD_SIZE) cs := by
  unfold Apart
  rw [List.find?_cons_of_neg (by rw [hresets]; exact Bool.false_ne_true), leading_cons hresets,
    waits_of_not_resets hresets, waits_of_not_resets hresets]
  simp only [take_take_append, List.append_assoc]

theorem addedBy_eq_iff (hsize : chord.length ≤ MAX_CHORD_SIZE)
    (hsize' : chord'.length ≤ MAX_CHORD_SIZE) (hadds : (cs.foldlM (advance perBar) p).isSome) :
    addedBy perBar p chord cs = addedBy perBar p chord' cs ↔ Apart chord chord' cs := by
  induction cs generalizing p chord chord' with
  | nil => exact iff_of_true rfl trivial
  | cons c cs ih =>
    obtain ⟨q, hadd⟩ : ∃ q, advance perBar p c = some q := by
      cases he : advance perBar p c with
      | none =>
        rw [List.foldlM_cons, he] at hadds
        cases hadds
      | some q => exact ⟨q, rfl⟩
    rw [List.foldlM_cons, hadd] at hadds
    by_cases hresets : resets c = true
    · rw [addedBy_of_resets hresets hadd, addedBy_of_resets hresets hadd,
        List.append_cancel_right_eq]
      unfold Apart
      rw [List.find?_cons_of_pos hresets]
      have hleading : leading (c :: cs) = [] := by
        rw [leading, List.takeWhile_cons_of_neg (by rw [hresets]; exact Bool.false_ne_true)]
        rfl
      cases c with
      | note number ticks =>
        dsimp only
        rw [added_note_eq_iff (of_decide_eq_true hresets), hleading, List.append_nil,
          List.append_nil, List.take_of_length_le hsize, List.take_of_length_le hsize']
      | _ => exact iff_of_true rfl trivial
    · rw [Bool.not_eq_true] at hresets
      rw [addedBy, addedBy, added_of_not_resets hresets, added_of_not_resets hresets, hadd,
        apart_of_not_resets hresets]
      exact ih (List.length_take_le _ _) (List.length_take_le _ _) hadds

theorem foldl_waits_take (chord : List UInt8) (cs : List Info) :
    (cs.foldl waits (chord.take MAX_CHORD_SIZE)).take MAX_CHORD_SIZE =
      (cs.foldl waits chord).take MAX_CHORD_SIZE := by
  induction cs generalizing chord with
  | nil => rw [List.foldl_nil, List.foldl_nil, List.take_take, min_self]
  | cons c cs ih =>
    rw [List.foldl_cons, List.foldl_cons, ← ih, waits_take, ih]

theorem process_cons (h : r.ticksPerBar.toNat ≠ 0) :
    r.process ((c, mml) :: calls) =
      match advance r.ticksPerBar.toNat r.currentPosition c with
      | none => .undefined
      | some q => ((r.withParser mml).follow c q).process calls := by
  have hcall : (r.withParser mml).callback c =
      match advance r.ticksPerBar.toNat r.currentPosition c with
      | none => .undefined
      | some q => .returned ((r.withParser mml).follow c q) :=
    callback_eq (r := r.withParser mml) h c
  rw [process, hcall]
  cases advance r.ticksPerBar.toNat r.currentPosition c with
  | none => rfl
  | some q => rfl

/-- Callbacks that can all advance. -/
theorem process_of_isSome (calls : List (Info × Mml)) (h : r.ticksPerBar.toNat ≠ 0)
    (hadds : ((calls.map Prod.fst).foldlM (advance r.ticksPerBar.toNat) r.currentPosition).isSome) :
    ∃ s, r.process calls = .returned s ∧
      s.pattern =
        r.pattern ++ addedBy r.ticksPerBar.toNat r.currentPosition r.chord (calls.map Prod.fst) ∧
      s.chord = ((calls.map Prod.fst).foldl waits r.chord).take MAX_CHORD_SIZE := by
  induction calls generalizing r with
  | nil => exact ⟨r, rfl, (List.append_nil _).symm, (List.take_of_length_le r.chordSize).symm⟩
  | cons call calls ih =>
    obtain ⟨c, mml⟩ := call
    rw [process_cons h]
    rw [List.map_cons, List.foldlM_cons] at hadds
    cases hadd : advance r.ticksPerBar.toNat r.currentPosition c with
    | none =>
      rw [hadd] at hadds
      cases hadds
    | some q =>
      rw [hadd, Option.bind_eq_bind, Option.bind_some] at hadds
      obtain ⟨s, hprocess, hpattern, hchord⟩ :=
        ih (r := (r.withParser mml).follow c q) h hadds
      refine ⟨s, hprocess, ?_, ?_⟩
      · rw [hpattern, List.map_cons, addedBy, follow_pattern, List.append_assoc, hadd]
        rfl
      · rw [hchord, List.map_cons, List.foldl_cons]
        exact foldl_waits_take _ _

theorem process_of_none (calls : List (Info × Mml)) (h : r.ticksPerBar.toNat ≠ 0)
    (hadds :
      ¬ ((calls.map Prod.fst).foldlM (advance r.ticksPerBar.toNat) r.currentPosition).isSome) :
    r.process calls = .undefined := by
  induction calls generalizing r with
  | nil => exact absurd rfl hadds
  | cons call calls ih =>
    obtain ⟨c, mml⟩ := call
    rw [process_cons h]
    rw [List.map_cons, List.foldlM_cons] at hadds
    cases hadd : advance r.ticksPerBar.toNat r.currentPosition c with
    | none => rfl
    | some q =>
      rw [hadd, Option.bind_eq_bind, Option.bind_some] at hadds
      exact ih (r := (r.withParser mml).follow c q) h hadds

/-- Without ticks in a bar, a note with a length or a rest throws. -/
theorem callback_of_zero (h : r.ticksPerBar.toNat = 0) (hresets : resets c = true) :
    r.callback c = .thrown r "division cannot be zero!" := by
  cases c with
  | note number ticks =>
    have hticks : ticks ≠ 0 := of_decide_eq_true hresets
    unfold callback processNote
    dsimp only
    rw [if_pos hticks, Duration.new, if_pos h]
  | rest ticks =>
    unfold callback processRest
    dsimp only
    rw [Duration.new, if_pos h]
  | _ => cases hresets

theorem process_of_zero (calls : List (Info × Mml)) (h : r.ticksPerBar.toNat = 0)
    (hresets : ∃ c ∈ calls.map Prod.fst, resets c) :
    ∃ s, r.process calls = .thrown s "division cannot be zero!" := by
  induction calls generalizing r with
  | nil =>
    obtain ⟨c, hc, -⟩ := hresets
    cases hc
  | cons call calls ih =>
    obtain ⟨c, mml⟩ := call
    unfold process
    by_cases hc : resets c = true
    · rw [callback_of_zero (r := r.withParser mml) h hc]
      exact ⟨_, rfl⟩
    · rw [Bool.not_eq_true] at hc
      rw [callback_of_not_resets hc]
      refine ih (r := (r.withParser mml).follow c _) h ?_
      obtain ⟨d, hd, hresets⟩ := hresets
      rcases List.mem_cons.mp hd with rfl | hd
      · rw [hc] at hresets
        cases hresets
      · exact ⟨d, hd, hresets⟩

theorem process_of_not_resets (calls : List (Info × Mml))
    (hresets : ¬ ∃ c ∈ calls.map Prod.fst, resets c) :
    ∃ s, r.process calls = .returned s ∧ s.pattern = r.pattern := by
  induction calls generalizing r with
  | nil => exact ⟨r, rfl, rfl⟩
  | cons call calls ih =>
    obtain ⟨c, mml⟩ := call
    have hc : resets c = false := by
      by_contra hc
      exact hresets ⟨c, List.mem_cons_self, Bool.not_eq_false _ ▸ hc⟩
    unfold process
    rw [callback_of_not_resets hc]
    have hrest : ¬ ∃ d ∈ calls.map Prod.fst, resets d := by
      rintro ⟨d, hd, hresets'⟩
      exact hresets ⟨d, List.mem_cons_of_mem _ hd, hresets'⟩
    obtain ⟨s, hprocess, hpattern⟩ :=
      ih (r := (r.withParser mml).follow c r.currentPosition) hrest
    refine ⟨s, hprocess, hpattern.trans ?_⟩
    rw [follow_pattern, added_of_not_resets hc, List.append_nil]
    rfl

/-- A callback leaves the parser and its option as they are. -/
theorem ends_callback (h : (r.callback c).Ends s) : s.mml = r.mml ∧ s.mmlopt = r.mmlopt := by
  cases c with
  | note number ticks =>
    unfold callback processNote at h
    dsimp only at h
    split at h
    · split at h
      · cases h
        exact ⟨rfl, rfl⟩
      · split at h
        · cases h
        · cases h
          exact ⟨rfl, rfl⟩
    · split at h
      · cases h
        exact ⟨rfl, rfl⟩
      · cases h
        exact ⟨rfl, rfl⟩
  | rest ticks =>
    unfold callback processRest at h
    dsimp only at h
    split at h
    · cases h
      exact ⟨rfl, rfl⟩
    · split at h
      · cases h
      · cases h
        exact ⟨rfl, rfl⟩
  | _ =>
    cases h
    exact ⟨rfl, rfl⟩

/-- A parser that can be set up, with the options of a new reader. -/
structure Idle (r : MMLReader) : Prop where
  option : r.mmlopt = Tinymml.optionDefault
  state : r.mml.state = .waitSetup ∨ r.mml.state = .fetchReady

theorem idle_new (mml : Mml) (pattern : List PatternNote) (ticksPerBar : UInt32) :
    (new mml pattern ticksPerBar).Idle := ⟨rfl, .inl rfl⟩

theorem Idle.process (hr : r.Idle) (hcalls : ∀ call ∈ calls, call.2.state = .fetchReady)
    (h : (r.process calls).Ends s) : s.Idle := by
  induction calls generalizing r with
  | nil =>
    cases h
    exact hr
  | cons call calls ih =>
    obtain ⟨c, mml⟩ := call
    obtain ⟨hfirst, hrest⟩ := List.forall_mem_cons.mp hcalls
    unfold MMLReader.process at h
    have hidle {t : MMLReader} (ht : ((r.withParser mml).callback c).Ends t) : t.Idle := by
      obtain ⟨hmml, hoption⟩ := ends_callback ht
      exact ⟨hoption.trans hr.option, .inr ((congrArg Mml.state hmml).trans hfirst)⟩
    rcases Outcome.ends_andThen h with hthrown | ⟨t, ht, hlater⟩
    · exact hidle hthrown
    · exact ih (hidle ht) hrest hlater

theorem Idle.setup (hr : r.Idle) (text : List Char) :
    r.mml.setup r.mmlopt text = (.ok, Tinymml.setUp Tinymml.optionDefault text) := by
  rw [hr.option]
  exact Tinymml.setup_eq hr.state _ text

theorem Idle.read_eq (hr : r.Idle) {ticksPerBar : UInt32}
    (hbar : barTicks Tinymml.optionDefault time = some ticksPerBar) :
    r.read time text =
      ((r.start ticksPerBar text).process (parsed text).1).andThen (finish (parsed text).2) := by
  have hmml : (r.start ticksPerBar text).mml = Tinymml.setUp Tinymml.optionDefault text :=
    congrArg Prod.snd (hr.setup text)
  unfold read
  rw [hr.option, hbar]
  dsimp only
  rw [hmml]
  rfl

theorem Idle.read_of_none (hr : r.Idle) (hbar : barTicks Tinymml.optionDefault time = none) :
    r.read time text = .undefined := by
  unfold read
  rw [hr.option, hbar]

theorem Idle.read (hr : r.Idle) (h : (r.read time text).Ends s) : s.Idle := by
  cases hbar : barTicks Tinymml.optionDefault time with
  | none =>
    rw [hr.read_of_none hbar] at h
    cases h
  | some ticksPerBar =>
    rw [hr.read_eq hbar] at h
    obtain ⟨hcalls, hend⟩ :=
      Tinymml.fetchLoop_state (Tinymml.setUp Tinymml.optionDefault text) (Tinymml.fetches _)
    have hstart : (r.start ticksPerBar text).Idle :=
      ⟨hr.option, .inr (congrArg (fun setup => setup.2.state) (hr.setup text))⟩
    rcases Outcome.ends_andThen h with hthrown | ⟨t, ht, hlast⟩
    · exact hstart.process hcalls hthrown
    · have hidle := hstart.process hcalls ht
      unfold finish at hlast
      split at hlast
      · rename_i mr mml he
        cases hlast
        exact ⟨hidle.option, .inr (hend mr mml he)⟩
      · cases hlast
      · cases hlast

theorem finish_of_parses (hparses : Parses text) (s : MMLReader) :
    ∃ mml, finish (parsed text).2 s = .returned (s.withParser mml) := by
  have hcut := Tinymml.parse_ne_cut Tinymml.optionDefault text
  unfold Parses at hparses
  unfold finish parsed
  split
  · exact ⟨_, rfl⟩
  · exact absurd ‹_› hparses
  · exact absurd ‹_› hcut

theorem finish_of_not_parses (hparses : ¬ Parses text) (s : MMLReader) :
    finish (parsed text).2 s = .undefined := by
  have hundefined : (parsed text).2 = .undefined := not_not.mp hparses
  rw [hundefined]
  rfl

section Read

variable (hr : r.Idle) {ticksPerBar : UInt32}
  (hbar : barTicks Tinymml.optionDefault time = some ticksPerBar)

include hr hbar

theorem Idle.read_of_sound (h : ticksPerBar.toNat ≠ 0) (hsound : Sound ticksPerBar.toNat text) :
    ∃ s, r.read time text = .returned s ∧
      s.pattern = addedBy ticksPerBar.toNat Abc.firstBar r.chord (callsOf text) ∧
      s.chord = ((callsOf text).foldl waits r.chord).take MAX_CHORD_SIZE := by
  rw [Sound, if_neg h] at hsound
  obtain ⟨s, hprocess, hpattern, hchord⟩ :=
    process_of_isSome (r := r.start ticksPerBar text) (parsed text).1 h hsound.2
  obtain ⟨mml, hfinish⟩ := finish_of_parses hsound.1 s
  refine ⟨s.withParser mml, ?_, hpattern.trans (List.nil_append _), hchord⟩
  rw [hr.read_eq hbar, hprocess]
  exact hfinish

theorem Idle.read_of_resets (h : ticksPerBar.toNat = 0) (hresets : ∃ c ∈ callsOf text, resets c) :
    ∃ s, r.read time text = .thrown s "division cannot be zero!" := by
  obtain ⟨s, hprocess⟩ :=
    process_of_zero (r := r.start ticksPerBar text) (parsed text).1 h hresets
  refine ⟨s, ?_⟩
  rw [hr.read_eq hbar, hprocess]
  rfl

theorem Idle.read_of_not_resets (hresets : ¬ ∃ c ∈ callsOf text, resets c)
    (hparses : Parses text) : ∃ s, r.read time text = .returned s ∧ s.pattern = [] := by
  obtain ⟨s, hprocess, hpattern⟩ :=
    process_of_not_resets (r := r.start ticksPerBar text) (parsed text).1 hresets
  obtain ⟨mml, hfinish⟩ := finish_of_parses hparses s
  refine ⟨s.withParser mml, ?_, hpattern⟩
  rw [hr.read_eq hbar, hprocess]
  exact hfinish

theorem Idle.read_of_not_sound (hsound : ¬ Sound ticksPerBar.toNat text) :
    r.read time text = .undefined := by
  rw [hr.read_eq hbar]
  by_cases h : ticksPerBar.toNat = 0
  · rw [Sound, if_pos h, not_or] at hsound
    obtain ⟨s, hprocess, -⟩ :=
      process_of_not_resets (r := r.start ticksPerBar text) (parsed text).1 hsound.1
    rw [hprocess]
    exact finish_of_not_parses hsound.2 s
  · rw [Sound, if_neg h] at hsound
    by_cases hadds : Adds ticksPerBar.toNat (callsOf text)
    · obtain ⟨s, hprocess, -⟩ :=
        process_of_isSome (r := r.start ticksPerBar text) (parsed text).1 h hadds
      rw [hprocess]
      exact finish_of_not_parses (fun hparses => hsound ⟨hparses, hadds⟩) s
    · rw [process_of_none (r := r.start ticksPerBar text) (parsed text).1 h hadds]
      rfl

end Read

theorem apart_take (chord : List UInt8) (cs : List Info) :
    Apart (chord.take MAX_CHORD_SIZE) [] cs ↔ Apart chord [] cs := by
  unfold Apart
  rw [take_take_append]

/-- Two idle readers, the first with a chord that waits. -/
theorem alike_iff (hr : r.Idle) (hs : s.Idle) {ticksPerBar : UInt32}
    (hbar : barTicks Tinymml.optionDefault time = some ticksPerBar)
    (hsound : Sound ticksPerBar.toNat text) :
    Alike (r.read time text) (s.read time text) ↔
      ticksPerBar.toNat = 0 ∨ Apart r.chord s.chord (callsOf text) := by
  by_cases h : ticksPerBar.toNat = 0
  · refine iff_of_true ?_ (.inl h)
    by_cases hresets : ∃ c ∈ callsOf text, resets c
    · obtain ⟨r', hr'⟩ := hr.read_of_resets hbar h hresets
      obtain ⟨s', hs'⟩ := hs.read_of_resets hbar h hresets
      rw [hr', hs']
      exact .thrown r' s' _
    · rw [Sound, if_pos h] at hsound
      have hparses := hsound.resolve_left hresets
      obtain ⟨r', hr', hpattern⟩ := hr.read_of_not_resets hbar hresets hparses
      obtain ⟨s', hs', hpattern'⟩ := hs.read_of_not_resets hbar hresets hparses
      rw [hr', hs']
      exact .returned (hpattern.trans hpattern'.symm)
  · obtain ⟨r', hr', hpattern, -⟩ := hr.read_of_sound hbar h hsound
    obtain ⟨s', hs', hpattern', -⟩ := hs.read_of_sound hbar h hsound
    have hadds : Adds ticksPerBar.toNat (callsOf text) := by
      rw [Sound, if_neg h] at hsound
      exact hsound.2
    rw [hr', hs', or_iff_right h, ← addedBy_eq_iff r.chordSize s.chordSize hadds, ← hpattern,
      ← hpattern']
    refine ⟨fun halike => ?_, .returned⟩
    cases halike with
    | returned hsame => exact hsame

/-- What waits after a text that a new reader can read. -/
theorem Idle.exists_ends (hr : r.Idle) (hchord : r.chord = []) {ticksPerBar : UInt32}
    (hbar : barTicks Tinymml.optionDefault time = some ticksPerBar)
    (hsound : Sound ticksPerBar.toNat text) :
    ∃ t, (r.read time text).Ends t ∧
      (ticksPerBar.toNat ≠ 0 → t.chord = (waiting (callsOf text)).take MAX_CHORD_SIZE) := by
  by_cases h : ticksPerBar.toNat = 0
  · by_cases hresets : ∃ c ∈ callsOf text, resets c
    · obtain ⟨t, ht⟩ := hr.read_of_resets hbar h hresets
      exact ⟨t, ht ▸ .thrown t _, fun hne => absurd h hne⟩
    · rw [Sound, if_pos h] at hsound
      obtain ⟨t, ht, -⟩ := hr.read_of_not_resets hbar hresets (hsound.resolve_left hresets)
      exact ⟨t, ht ▸ .returned t, fun hne => absurd h hne⟩
  · obtain ⟨t, ht, -, hwaits⟩ := hr.read_of_sound hbar h hsound
    rw [hchord] at hwaits
    exact ⟨t, ht ▸ .returned t, fun _ => hwaits⟩

theorem reproduces_iff_of_ticks (hr : r.Idle) (hchord : r.chord = []) (hs : s.Idle)
    (hchord' : s.chord = []) {ticksPerBar : UInt32}
    (hbar : barTicks Tinymml.optionDefault time = some ticksPerBar) :
    Reproduces r s time text text' ↔
      Sound ticksPerBar.toNat text ∧ Sound ticksPerBar.toNat text' ∧
        (ticksPerBar.toNat = 0 ∨ Apart (waiting (callsOf text)) [] (callsOf text')) := by
  have happly {t : MMLReader} (ht : t.Idle) (hsound' : Sound ticksPerBar.toNat text')
      (hwaits : ticksPerBar.toNat ≠ 0 →
        t.chord = (waiting (callsOf text)).take MAX_CHORD_SIZE) :
      Alike (t.read time text') (s.read time text') ↔
        ticksPerBar.toNat = 0 ∨ Apart (waiting (callsOf text)) [] (callsOf text') := by
    rw [alike_iff ht hs hbar hsound', hchord']
    refine or_congr_right' fun hne => ?_
    rw [hwaits hne, apart_take]
  constructor
  · rintro ⟨t, hends, -, halike⟩
    have hsound : Sound ticksPerBar.toNat text := by
      by_contra hnot
      rw [hr.read_of_not_sound hbar hnot] at hends
      cases hends
    have hsound' : Sound ticksPerBar.toNat text' := by
      by_contra hnot
      rw [(hr.read hends).read_of_not_sound hbar hnot] at halike
      cases halike
    obtain ⟨t', hends', hwaits⟩ := hr.exists_ends hchord hbar hsound
    obtain rfl := hends.unique hends'
    exact ⟨hsound, hsound', (happly (hr.read hends) hsound' hwaits).mp halike⟩
  · rintro ⟨hsound, hsound', hapart⟩
    obtain ⟨t, hends, hwaits⟩ := hr.exists_ends hchord hbar hsound
    have ht := hr.read hends
    exact ⟨t, hends, (ht.setup text').trans (hs.setup text').symm,
      (happly ht hsound' hwaits).mpr hapart⟩

/-- A reader reads a text after another as a new one does exactly when both reads are defined and
the notes without length at the end of the first are not heard in the second. -/
theorem reproduces_iff (mml mml' : Mml) (pattern pattern' : List PatternNote)
    (ticksPerBar ticksPerBar' : UInt32) (time : Transport.TimeSignature) (text text' : List Char) :
    Reproduces (new mml pattern ticksPerBar) (new mml' pattern' ticksPerBar') time text text' ↔
      ∃ perBar, barTicks Tinymml.optionDefault time = some perBar ∧ Sound perBar.toNat text ∧
        Sound perBar.toNat text' ∧
          (perBar.toNat = 0 ∨ Apart (waiting (callsOf text)) [] (callsOf text')) := by
  have hidle := idle_new mml pattern ticksPerBar
  have hidle' := idle_new mml' pattern' ticksPerBar'
  cases hbar : barTicks Tinymml.optionDefault time with
  | none =>
    refine iff_of_false (fun ⟨t, hends, _⟩ => ?_) nofun
    rw [hidle.read_of_none hbar] at hends
    cases hends
  | some perBar =>
    rw [reproduces_iff_of_ticks hidle rfl hidle' rfl hbar]
    refine ⟨fun h => ⟨perBar, rfl, h⟩, ?_⟩
    rintro ⟨_, hsome, h⟩
    obtain rfl := Option.some.inj hsome
    exact h

/-- A note without length is still there when the next text starts. -/
theorem not_reproduces :
    let mml : Mml := ⟨Tinymml.optionDefault, [], 0, .init, [], []⟩
    ¬ Reproduces (new mml [] 0) (new mml [] 0) ⟨true, 4, 4⟩ "C0".toList "E4".toList := by
  intro mml hreproduces
  have hidle := idle_new mml [] 0
  have hbar : barTicks Tinymml.optionDefault ⟨true, 4, 4⟩ = some 1920 := by decide
  obtain ⟨-, -, hapart⟩ := (reproduces_iff_of_ticks hidle rfl hidle rfl hbar).mp hreproduces
  have hfirst : callsOf "C0".toList = [.note 48 0] := by decide +kernel
  have hsecond : callsOf "E4".toList = [.note 52 480] := by decide +kernel
  rw [hfirst, hsecond] at hapart
  have hsame : ([48] : List UInt8) = [] := hapart.resolve_left (by decide)
  cases hsame

end Bipscript.Midi.MMLReader
