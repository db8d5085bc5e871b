import Bipscript.DrumTab
import Mathlib.Data.List.DropRight

/-! A tab as blocks of lines, and where the reader puts their notes. -/
namespace Bipscript.DrumTab

/-- A character other than `'-'` in a closed bar. -/
structure Strike where
  channel : Channel
  hit : Char
  bar : ℕ
  index : ℕ
  len : ℕ
deriving DecidableEq

def barStrikes (channel : Channel) (bar : ℕ) (line : List Char) : List Strike :=
  line.zipIdx.filterMap fun (c, i) =>
    if c = '-' then none else some ⟨channel, c, bar, i, line.length⟩

/-- The bars that a `'|'` closes. -/
def closedBars (line : List Char) : List (List Char) := (line.splitOn '|').dropLast

def bars (line : List Char) : List (List Char) := closedBars (line.drop 3)

/-- The strikes of a tab line whose first bar is `start`. -/
def lineStrikes (start : ℕ) (line : List Char) : List Strike :=
  ((bars line).zipIdx start).flatMap fun (bar, n) =>
    barStrikes ⟨line.getD 0 ' ', line.getD 1 ' '⟩ n bar

/-- The lines of a text, without their leading space. -/
def lines (tab : List Char) : List (List Char) := (tab.splitOn '\n').map (List.dropWhile isspace)

/-- The groups of lines that blank lines separate. -/
def blocks (tab : List Char) : List (List (List Char)) := (lines tab).splitOnP List.isEmpty

/-- The strikes of a block: its tab lines all start at the same bar. -/
def blockStrikes (start : ℕ) (block : List (List Char)) : List Strike :=
  (block.filter isTabLine).flatMap (lineStrikes start)

/-- The strikes of blocks, each of which moves the bar on by what `advance` makes of it. -/
def strikesFrom (advance : List (List Char) → ℕ) : ℕ → List (List (List Char)) → List Strike
  | _, [] => []
  | start, block :: blocks =>
    blockStrikes start block ++ strikesFrom advance (start + advance block) blocks

/-- The most bars that a tab line of the block has. -/
def mostBars (block : List (List Char)) : ℕ :=
  ((block.filter isTabLine).map fun line => (bars line).length).foldr max 0

/-- The reference parse: a block starts after all bars of every line of those before it. -/
def reference (tab : List Char) : List Strike := strikesFrom mostBars 1 (blocks tab)

/-- The bars of the block's last tab line, or `n` if it has none. -/
def lastBars (n : ℕ) (block : List (List Char)) : ℕ :=
  block.foldl (fun n line => if isTabLine line then (bars line).length else n) n

/-- The calls of `addNote` that a strike makes. -/
structure Adds (r : Reader) (note : Midi.PatternNote) (s : Strike) : Prop where
  index : s.index < s.len
  made : r.newNote s.channel s.hit s.len = some note.note
  start : Position.ofBar s.bar s.index s.len = some note.position

variable {r : Reader}

theorem exists_adds {s : Strike} (hbar : 0 < s.bar) (hlt : s.index < s.len) :
    ∃ note, Adds r note s := by
  have hlen : s.len ≠ 0 := by omega
  obtain ⟨position, hposition⟩ :
      ∃ position, Position.ofBar s.bar s.index s.len = some position := by
    unfold Position.ofBar
    rw [dif_neg hlen, if_neg hbar.ne']
    exact ⟨_, rfl⟩
  exact ⟨⟨_, position⟩, hlt, if_neg hlen, hposition⟩

/-- A loop that adds the strikes of a list adds to the pattern what they add. -/
def Reads (r : Reader) (pattern : List Midi.PatternNote) (strikes : List Strike)
    (result : List Midi.PatternNote) : Prop :=
  ∃ added, result = pattern ++ added ∧ List.Forall₂ (Adds r) added strikes

theorem Reads.refl (pattern : List Midi.PatternNote) : Reads r pattern [] pattern :=
  ⟨[], (List.append_nil pattern).symm, .nil⟩

theorem Reads.trans {pattern pattern' pattern'' : List Midi.PatternNote} {ss ss' : List Strike}
    (h : Reads r pattern ss pattern') (h' : Reads r pattern' ss' pattern'') :
    Reads r pattern (ss ++ ss') pattern'' := by
  obtain ⟨added, rfl, hadded⟩ := h
  obtain ⟨added', rfl, hadded'⟩ := h'
  exact ⟨added ++ added', List.append_assoc .., List.rel_append hadded hadded'⟩

theorem processBar_reads (channel : Channel) {bar : ℕ} (hbar : 0 < bar) (line : List Char)
    (pattern : List Midi.PatternNote) :
    ∃ result, r.processBar bar channel line pattern = some result ∧
      Reads r pattern (barStrikes channel bar line) result := by
  unfold Reader.processBar barStrikes
  have hlt : ∀ p ∈ line.zipIdx, p.2 < line.length := fun p hp => by
    have := List.snd_lt_add_of_mem_zipIdx hp
    omega
  generalize line.zipIdx = l at hlt ⊢
  induction l generalizing pattern with
  | nil => exact ⟨pattern, rfl, Reads.refl pattern⟩
  | cons p l ih =>
    obtain ⟨c, i⟩ := p
    have hi : i < line.length := hlt (c, i) List.mem_cons_self
    have hl : ∀ p ∈ l, p.2 < line.length := fun p hp => hlt p (List.mem_cons_of_mem _ hp)
    rw [List.foldlM_cons, List.filterMap_cons]
    by_cases hc : c = '-'
    · simp only [hc, if_true]
      exact ih pattern hl
    · obtain ⟨note, hnote⟩ := exists_adds (r := r) (s := ⟨channel, c, bar, i, line.length⟩) hbar hi
      obtain ⟨result, he, hreads⟩ := ih (pattern ++ [note]) hl
      simp only [hc, if_false]
      refine ⟨result, ?_, ?_⟩
      · rw [hnote.made, hnote.start]
        exact he
      · have hone : Reads r pattern [⟨channel, c, bar, i, line.length⟩] (pattern ++ [note]) :=
          ⟨[note], rfl, .cons hnote .nil⟩
        exact hone.trans hreads

/-- The rest of a tab line, with a bar begun. -/
theorem processBars_reads (channel : Channel) (line : List Char) {bar : List Char}
    {barCounter : ℕ} (hcounter : 0 < barCounter) (hbar : '|' ∉ bar)
    (pattern : List Midi.PatternNote) :
    ∃ result, r.processBars channel line bar barCounter pattern =
        some (result, barCounter + (closedBars (bar ++ line)).length) ∧
      Reads r pattern (((closedBars (bar ++ line)).zipIdx barCounter).flatMap fun (bar, n) =>
        barStrikes channel n bar) result := by
  induction line generalizing bar barCounter pattern with
  | nil =>
    have hnone : closedBars (bar ++ []) = [] := by
      unfold closedBars
      rw [List.append_nil, List.splitOn_eq_singleton hbar]
      rfl
    rw [hnone]
    exact ⟨pattern, rfl, Reads.refl pattern⟩
  | cons c line ih =>
    unfold Reader.processBars
    by_cases hc : c = '|'
    · subst hc
      have hclosed : closedBars (bar ++ '|' :: line) = bar :: closedBars line := by
        unfold closedBars
        rw [List.splitOn_append_cons_self_of_not_mem hbar,
          List.dropLast_cons_of_ne_nil (List.splitOn_ne_nil _ _)]
      obtain ⟨result, he, hreads⟩ := processBar_reads channel hcounter bar pattern
      obtain ⟨result', he', hreads'⟩ :=
        ih (Nat.succ_pos barCounter) (List.not_mem_nil) result
      rw [if_pos rfl, he, hclosed]
      refine ⟨result', ?_, ?_⟩
      · have hlength : barCounter + (bar :: closedBars line).length =
            barCounter + 1 + (closedBars line).length := by
          rw [List.length_cons]
          omega
        rw [hlength]
        exact he'
      · rw [List.zipIdx_cons, List.flatMap_cons]
        exact hreads.trans hreads'
    · have hbar' : '|' ∉ bar ++ [c] :=
        List.not_mem_append hbar fun h => hc (List.mem_singleton.mp h).symm
      rw [if_neg hc, List.append_cons bar c line]
      exact ih hcounter hbar' pattern

theorem processTabLine_reads {start : ℕ} (hstart : 0 < start) (line : List Char)
    (pattern : List Midi.PatternNote) :
    ∃ result, r.processTabLine start line pattern = some (result, (bars line).length) ∧
      Reads r pattern (lineStrikes start line) result := by
  obtain ⟨result, he, hreads⟩ := processBars_reads (r := r)
    ⟨line.getD 0 ' ', line.getD 1 ' '⟩ (line.drop 3) hstart List.not_mem_nil pattern
  refine ⟨result, ?_, hreads⟩
  unfold Reader.processTabLine
  dsimp only
  rw [he]
  simp only [bars, List.nil_append, Option.bind_eq_bind, Option.bind_some, Nat.add_sub_cancel_left]

/-- What `read` makes of a line without leading space. -/
theorem line_reads {s : Reading} (hstart : 0 < s.startBar) {line : List Char}
    (hline : line.dropWhile isspace = line) :
    ∃ s', s.line r line = some s' ∧
      if line.isEmpty then s' = ⟨s.startBar + s.lineBars, 0, s.pattern⟩
      else s'.startBar = s.startBar ∧
        s'.lineBars = (if isTabLine line then (bars line).length else s.lineBars) ∧
        Reads r s.pattern (if isTabLine line then lineStrikes s.startBar line else [])
          s'.pattern := by
  unfold Reading.line
  rw [hline]
  dsimp only
  by_cases htab : isTabLine line = true
  · obtain ⟨result, he, hreads⟩ := processTabLine_reads (r := r) hstart line s.pattern
    have hempty : ¬ line.isEmpty = true := by
      rw [List.isEmpty_iff]
      rintro rfl
      cases htab
    refine ⟨⟨s.startBar, (bars line).length, result⟩, ?_, ?_⟩
    · rw [if_pos htab, he]
      rfl
    · rw [if_neg hempty, if_pos htab, if_pos htab]
      exact ⟨rfl, rfl, hreads⟩
  · rw [if_neg htab]
    by_cases hempty : line = []
    · refine ⟨_, if_pos hempty, ?_⟩
      rw [if_pos (List.isEmpty_iff.mpr hempty)]
    · refine ⟨s, if_neg hempty, ?_⟩
      rw [if_neg (by rwa [List.isEmpty_iff]), if_neg htab, if_neg htab]
      exact ⟨rfl, rfl, Reads.refl s.pattern⟩

/-- The strikes left where `n` bars of the first block's lines are behind. -/
def resume (start n : ℕ) : List (List (List Char)) → List Strike
  | [] => []
  | block :: blocks =>
    blockStrikes start block ++ strikesFrom (lastBars 0) (start + lastBars n block) blocks

theorem resume_zero (start : ℕ) (blocks : List (List (List Char))) :
    resume start 0 blocks = strikesFrom (lastBars 0) start blocks := by
  cases blocks <;> rfl

theorem blockStrikes_cons (start : ℕ) (line : List Char) (block : List (List Char)) :
    blockStrikes start (line :: block) =
      (if isTabLine line then lineStrikes start line else []) ++ blockStrikes start block := by
  unfold blockStrikes
  by_cases h : isTabLine line = true
  · rw [List.filter_cons_of_pos h, if_pos h, List.flatMap_cons]
  · rw [List.filter_cons_of_neg h, if_neg h, List.nil_append]

/-- Blank lines move the bar on by the bars of the last tab line. -/
theorem lines_read {ls : List (List Char)} (hls : ∀ line ∈ ls, line.dropWhile isspace = line)
    {s : Reading} (hstart : 0 < s.startBar) :
    ∃ s', ls.foldlM (Reading.line r) s = some s' ∧
      Reads r s.pattern (resume s.startBar s.lineBars (ls.splitOnP List.isEmpty)) s'.pattern := by
  induction ls generalizing s with
  | nil =>
    refine ⟨s, rfl, ?_⟩
    exact Reads.refl s.pattern
  | cons line ls ih =>
    obtain ⟨s', he, hs'⟩ := line_reads (r := r) hstart (hls line List.mem_cons_self)
    have hls' : ∀ line ∈ ls, line.dropWhile isspace = line :=
      fun l hl => hls l (List.mem_cons_of_mem line hl)
    rw [List.foldlM_cons, he, List.splitOnP_cons_eq_if_modifyHead]
    by_cases hempty : line.isEmpty = true
    · rw [if_pos hempty] at hs' ⊢
      subst hs'
      obtain ⟨s'', he', hreads⟩ := ih (s := ⟨s.startBar + s.lineBars, 0, s.pattern⟩) hls'
        (Nat.add_pos_left hstart s.lineBars)
      rw [resume_zero] at hreads
      exact ⟨s'', he', hreads⟩
    · rw [if_neg hempty] at hs' ⊢
      obtain ⟨hbar, hbars, hreads⟩ := hs'
      obtain ⟨s'', he', hreads'⟩ := ih hls' (hbar ▸ hstart)
      refine ⟨s'', he', ?_⟩
      have hall := hreads.trans hreads'
      rw [hbar, hbars] at hall
      cases hsplit : ls.splitOnP List.isEmpty with
      | nil => exact absurd hsplit (List.splitOnP_ne_nil _ _)
      | cons block blocks =>
        rw [hsplit] at hall
        rw [List.modifyHead_cons]
        simp only [resume] at hall ⊢
        rw [blockStrikes_cons, List.append_assoc]
        exact hall

/-- The loop over the characters is one over the lines. -/
theorem loop_eq {tab line : List Char} (hline : '\n' ∉ line) (before : List Char)
    (hbefore : before = [] ∨ before = ['\n']) (s : Reading) :
    Reading.loop r tab (before ++ line) s = (lines (line ++ tab)).foldlM (Reading.line r) s := by
  have htrim {before : List Char} (hbefore : before = [] ∨ before = ['\n']) (line : List Char)
      (s : Reading) : s.line r (before ++ line) = s.line r (line.dropWhile isspace) := by
    unfold Reading.line
    rw [List.dropWhile_idempotent]
    rcases hbefore with rfl | rfl <;> rfl
  induction tab generalizing line before s with
  | nil =>
    have hsingle : lines (line ++ []) = [line.dropWhile isspace] := by
      unfold lines
      rw [List.append_nil, List.splitOn_eq_singleton hline]
      rfl
    rw [hsingle]
    unfold Reading.loop
    rw [htrim hbefore, List.foldlM_cons]
    exact (bind_pure _).symm
  | cons c tab ih =>
    unfold Reading.loop
    by_cases hc : c = '\n'
    · subst hc
      have hfirst : lines (line ++ '\n' :: tab) = line.dropWhile isspace :: lines tab := by
        unfold lines
        rw [List.splitOn_append_cons_self_of_not_mem hline]
        rfl
      rw [if_pos rfl, htrim hbefore, hfirst, List.foldlM_cons]
      congr 1
      funext s
      exact ih List.not_mem_nil ['\n'] (Or.inr rfl) s
    · have hline' : '\n' ∉ line ++ [c] :=
        List.not_mem_append hline fun h => hc (List.mem_singleton.mp h).symm
      rw [if_neg hc, List.append_assoc, List.append_cons line c tab]
      exact ih hline' before hbefore s

/-- The pattern read has the strikes of the text, with the bars of a block's last line. -/
theorem read_adds (r : Reader) (tab : List Char) :
    ∃ notes, r.read tab = some notes ∧
      List.Forall₂ (Adds r) notes (strikesFrom (lastBars 0) 1 (blocks tab)) := by
  have htrimmed : ∀ line ∈ lines tab, line.dropWhile isspace = line := by
    intro line hline
    obtain ⟨line, -, rfl⟩ := List.mem_map.mp hline
    exact List.dropWhile_idempotent _ _
  obtain ⟨s, he, added, hpattern, hadds⟩ :=
    lines_read (r := r) htrimmed (s := ⟨1, 0, []⟩) Nat.one_pos
  rw [resume_zero] at hadds
  refine ⟨added, ?_, hadds⟩
  unfold Reader.read
  have hloop : Reading.loop r tab ([] ++ []) ⟨1, 0, []⟩ = _ :=
    loop_eq List.not_mem_nil [] (Or.inl rfl) ⟨1, 0, []⟩
  rw [List.append_nil, List.nil_append] at hloop
  rw [hloop, he, Option.map_some, hpattern]
  rfl

/-- A note stands at its strike's fraction of the bar, for as long as one character of it. -/
structure Placed (note : Midi.PatternNote) (s : Strike) : Prop where
  position : note.position.value = s.bar + (s.index : ℚ) / s.len
  duration : note.note.duration.value = 1 / (s.len : ℚ)

theorem normalize_value_of_lt {bar position division : ℕ} (h : position < division) :
    (Duration.mk bar position division).normalize.value = bar + (position : ℚ) / division := by
  have hnone : ∀ l : List ℕ, ∀ d : Duration,
      (l.foldl (fun d factor => d.reduce factor) d).value = d.value := by
    intro l
    induction l with
    | nil => exact fun _ => rfl
    | cons factor l ih => exact fun d => (ih _).trans (Duration.reduce_value factor d)
  unfold Duration.normalize
  dsimp only
  rw [if_neg (Nat.not_le.mpr h)]
  split
  · exact hnone _ _
  · rfl

theorem Adds.placed {note : Midi.PatternNote} {s : Strike} (h : Adds r note s) : Placed note s := by
  obtain ⟨hlt, hmade, hplaced⟩ := h
  have hlen : 0 < s.len := by omega
  refine ⟨?_, ?_⟩
  · unfold Position.ofBar at hplaced
    rw [dif_neg hlen.ne'] at hplaced
    split at hplaced
    · cases hplaced
    · rw [← Option.some.inj hplaced]
      exact normalize_value_of_lt hlt
  · have hduration : (Duration.mk 0 1 s.len).normalize = note.note.duration := by
      unfold Reader.newNote at hmade
      rw [if_neg hlen.ne'] at hmade
      rw [← Option.some.inj hmade]
    rw [← hduration]
    have hvalue := (Duration.normalized_normalize (d := ⟨0, 1, s.len⟩) (by norm_num) hlen).value
    rw [hvalue]
    rcases Nat.lt_or_ge 1 s.len with hlt | hone
    · rw [Nat.div_eq_of_lt hlt, Nat.mod_eq_of_lt hlt]
      norm_num
    · obtain hs : s.len = 1 := by omega
      rw [hs]
      norm_num

/-- The same strike, at another bar or not. -/
def Alike (s s' : Strike) : Prop :=
  s.channel = s'.channel ∧ s.hit = s'.hit ∧ s.index = s'.index ∧ s.len = s'.len

theorem Adds.placed_iff {note : Midi.PatternNote} {s s' : Strike} (h : Adds r note s)
    (hs : Alike s s') : Placed note s' ↔ s = s' := by
  obtain ⟨channel, hit, bar, index, len⟩ := s
  obtain ⟨channel', hit', bar', index', len'⟩ := s'
  obtain ⟨rfl, rfl, rfl, rfl⟩ := hs
  have hplaced := h.placed
  constructor
  · intro h'
    have hbar : (bar : ℚ) = bar' :=
      add_right_cancel (hplaced.position.symm.trans h'.position)
    rw [Nat.cast_inj.mp hbar]
  · rintro ⟨⟩
    exact hplaced

theorem forall₂_placed_iff {notes : List Midi.PatternNote} {ss ss' : List Strike}
    (h : List.Forall₂ (Adds r) notes ss) (hs : List.Forall₂ Alike ss ss') :
    List.Forall₂ Placed notes ss' ↔ ss = ss' := by
  induction h generalizing ss' with
  | nil =>
    cases hs
    simp
  | cons hnote _ ih =>
    cases hs with
    | cons halike hrest =>
      rw [List.forall₂_cons, List.cons.injEq, hnote.placed_iff halike, ih hrest]

def Strike.shift (n : ℕ) (s : Strike) : Strike := { s with bar := s.bar + n }

theorem barStrikes_shift (bar start : ℕ) (channel : Channel) (line : List Char) :
    barStrikes channel (bar + start) line =
      (barStrikes channel bar line).map (Strike.shift start) := by
  unfold barStrikes
  rw [List.map_filterMap]
  congr 1
  funext ⟨c, i⟩
  by_cases hc : c = '-'
  · simp only [hc, if_true, Option.map_none]
  · simp only [hc, if_false, Option.map_some, Strike.shift]

theorem lineStrikes_shift (start : ℕ) (line : List Char) :
    lineStrikes start line = (lineStrikes 0 line).map (Strike.shift start) := by
  unfold lineStrikes
  generalize Channel.mk _ _ = channel
  have hzip : ∀ (l : List (List Char)) (n : ℕ),
      ((l.zipIdx (n + start)).flatMap fun (bar, n) => barStrikes channel n bar) =
        ((l.zipIdx n).flatMap fun (bar, n) => barStrikes channel n bar).map
          (Strike.shift start) := by
    intro l
    induction l with
    | nil => exact fun _ => rfl
    | cons bar l ih =>
      intro n
      simp only [List.zipIdx_cons, List.flatMap_cons, List.map_append]
      rw [barStrikes_shift, Nat.add_right_comm, ih]
  have h := hzip (bars line) 0
  rwa [Nat.zero_add] at h

theorem blockStrikes_shift (start : ℕ) (block : List (List Char)) :
    blockStrikes start block = (blockStrikes 0 block).map (Strike.shift start) := by
  unfold blockStrikes
  rw [List.map_flatMap]
  congr 1
  funext line
  exact lineStrikes_shift start line

theorem alike_shift (n m : ℕ) (ss : List Strike) :
    List.Forall₂ Alike (ss.map (Strike.shift n)) (ss.map (Strike.shift m)) := by
  rw [List.forall₂_map_left_iff, List.forall₂_map_right_iff, List.forall₂_same]
  exact fun s _ => ⟨rfl, rfl, rfl, rfl⟩

variable {f g : List (List Char) → ℕ}

/-- However blocks move the bar on, they have the same strikes. -/
theorem alike_strikesFrom (n m : ℕ) (bs : List (List (List Char))) :
    List.Forall₂ Alike (strikesFrom f n bs) (strikesFrom g m bs) := by
  induction bs generalizing n m with
  | nil => exact .nil
  | cons block bs ih =>
    unfold strikesFrom
    rw [blockStrikes_shift n, blockStrikes_shift m]
    exact List.rel_append (alike_shift n m _) (ih _ _)

theorem shift_eq_iff {n m : ℕ} {ss : List Strike} :
    ss.map (Strike.shift n) = ss.map (Strike.shift m) ↔ (ss ≠ [] → n = m) := by
  cases ss with
  | nil => exact ⟨fun _ h => absurd rfl h, fun _ => rfl⟩
  | cons s ss =>
    constructor
    · intro h _
      have hs := congrArg Strike.bar (List.cons.inj h).1
      exact Nat.add_left_cancel hs
    · intro h
      rw [h (List.cons_ne_nil s ss)]

/-- Two ways to move the bar on give the same strikes exactly when they agree on the bar of every
block with strikes. -/
theorem strikesFrom_eq_iff {n m : ℕ} {bs : List (List (List Char))} :
    strikesFrom f n bs = strikesFrom g m bs ↔
      ∀ before block after, bs = before ++ block :: after → blockStrikes 0 block ≠ [] →
        n + (before.map f).sum = m + (before.map g).sum := by
  induction bs generalizing n m with
  | nil =>
    refine ⟨fun _ before block after h => ?_, fun _ => rfl⟩
    exact absurd h.symm (by simp)
  | cons b bs ih =>
    have hlength : (blockStrikes n b).length = (blockStrikes m b).length := by
      rw [blockStrikes_shift n, blockStrikes_shift m, List.length_map, List.length_map]
    have hsplit : strikesFrom f n (b :: bs) = strikesFrom g m (b :: bs) ↔
        blockStrikes n b = blockStrikes m b ∧
          strikesFrom f (n + f b) bs = strikesFrom g (m + g b) bs := by
      constructor
      · exact fun h => List.append_inj h hlength
      · rintro ⟨h, h'⟩
        unfold strikesFrom
        rw [h, h']
    rw [hsplit, blockStrikes_shift n, blockStrikes_shift m, shift_eq_iff, ih]
    constructor
    · rintro ⟨hfirst, hrest⟩ before block after h hblock
      cases before with
      | nil =>
        obtain ⟨rfl, rfl⟩ := List.cons.inj h
        exact hfirst hblock
      | cons b' before =>
        obtain ⟨rfl, rfl⟩ := List.cons.inj h
        rw [List.map_cons, List.map_cons, List.sum_cons, List.sum_cons, ← Nat.add_assoc,
          ← Nat.add_assoc]
        exact hrest before block after rfl hblock
    · intro h
      refine ⟨fun hb => h [] b bs rfl hb, fun before block after he hblock => ?_⟩
      have hcons := h (b :: before) block after (by rw [he, List.cons_append]) hblock
      rwa [List.map_cons, List.map_cons, List.sum_cons, List.sum_cons, ← Nat.add_assoc,
        ← Nat.add_assoc] at hcons

theorem sum_eq_iff_of_le {bs : List (List (List Char))} (h : ∀ b ∈ bs, f b ≤ g b) :
    (bs.map f).sum = (bs.map g).sum ↔ ∀ b ∈ bs, f b = g b := by
  induction bs with
  | nil => simp
  | cons b bs ih =>
    have hle : f b ≤ g b := h b List.mem_cons_self
    have hrest : ∀ b ∈ bs, f b ≤ g b := fun c hc => h c (List.mem_cons_of_mem b hc)
    have hsum : (bs.map f).sum ≤ (bs.map g).sum := List.sum_le_sum hrest
    rw [List.map_cons, List.map_cons, List.sum_cons, List.sum_cons, List.forall_mem_cons,
      ← ih hrest]
    omega

theorem lastBars_le (n : ℕ) (block : List (List Char)) :
    lastBars n block ≤ max n (mostBars block) := by
  induction block generalizing n with
  | nil => exact le_max_left _ _
  | cons line block ih =>
    unfold lastBars mostBars at ih ⊢
    rw [List.foldl_cons]
    by_cases htab : isTabLine line = true
    · rw [if_pos htab, List.filter_cons_of_pos htab, List.map_cons, List.foldr_cons]
      exact (ih _).trans (le_max_right _ _)
    · rw [if_neg htab, List.filter_cons_of_neg htab]
      exact ih n

/-- The last tab line of a block that a strike comes after has as many bars as any of the block. -/
def Steady (tab : List Char) : Prop :=
  ∀ before block after, blocks tab = before ++ block :: after → blockStrikes 0 block ≠ [] →
    ∀ b ∈ before, lastBars 0 b = mostBars b

/-- The notes of a text stand where the reference parse has them exactly when every block before a
strike ends with a line of the most bars. -/
theorem read_placed_iff (r : Reader) (tab : List Char) :
    (∃ notes, r.read tab = some notes ∧ List.Forall₂ Placed notes (reference tab)) ↔
      Steady tab := by
  obtain ⟨notes, he, hadds⟩ := read_adds r tab
  have hnotes : (∃ notes, r.read tab = some notes ∧ List.Forall₂ Placed notes (reference tab)) ↔
      List.Forall₂ Placed notes (reference tab) := by
    constructor
    · rintro ⟨notes', he', h⟩
      rwa [Option.some.inj (he.symm.trans he')] at *
    · exact fun h => ⟨notes, he, h⟩
  have hle : ∀ b : List (List Char), lastBars 0 b ≤ mostBars b := fun b =>
    (lastBars_le 0 b).trans (max_le (Nat.zero_le _) le_rfl)
  rw [hnotes]
  unfold reference Steady
  rw [forall₂_placed_iff hadds (alike_strikesFrom 1 1 _), strikesFrom_eq_iff]
  refine forall_congr' fun before => forall_congr' fun block => forall_congr' fun after => ?_
  refine imp_congr_right fun _ => imp_congr_right fun _ => ?_
  rw [Nat.add_left_cancel_iff, sum_eq_iff_of_le fun b _ => hle b]

/-- The second line has one bar and the first two: the next block starts in the second bar, which is
the first line's. -/
theorem not_placed :
    ¬ ∃ notes, Reader.new.read "SD|o|o|\nBD|o|\n\nSD|o|".toList = some notes ∧
      List.Forall₂ Placed notes (reference "SD|o|o|\nBD|o|\n\nSD|o|".toList) := by
  rintro ⟨notes, he, h⟩
  obtain ⟨notes', he', hadds⟩ := read_adds Reader.new "SD|o|o|\nBD|o|\n\nSD|o|".toList
  obtain rfl := Option.some.inj (he.symm.trans he')
  have hsame := (forall₂_placed_iff hadds (alike_strikesFrom 1 1 _)).mp h
  revert hsame
  decide +kernel

end Bipscript.DrumTab
