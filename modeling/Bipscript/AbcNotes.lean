import Bipscript.AbcTimes

/-! Where the notes of a track in one meter stand, against the ticks its callbacks count. -/
namespace Bipscript

/-- Where two lists are related so that `S` depends on the second alone. -/
theorem forall₂_iff_of_forall₂ {α β : Type*} {R S : α → β → Prop} {P : β → Prop} {xs : List α}
    {ys : List β} (h : List.Forall₂ R xs ys) (hiff : ∀ x, ∀ y ∈ ys, R x y → (S x y ↔ P y)) :
    List.Forall₂ S xs ys ↔ ∀ y ∈ ys, P y := by
  induction h with
  | nil => exact iff_of_true .nil nofun
  | @cons x y xs ys hxy _ ih =>
    rw [List.forall₂_cons, hiff x y List.mem_cons_self hxy,
      ih fun x' y' hy => hiff x' y' (List.mem_cons_of_mem y hy), List.forall_mem_cons]

namespace Duration

theorem normalize_eq {w p d : ℕ} (hw : w < 2 ^ 32) (hmax : d ≤ MAX_DENOMINATOR) :
    normalize ⟨w, p, d⟩ = ⟨(w + p / d) % 2 ^ 32, p % d, d⟩ := by
  unfold normalize
  dsimp only
  split
  · exact if_neg (Nat.not_lt.mpr hmax)
  · rename_i h
    have hlt : p < d := by omega
    rw [if_neg (Nat.not_lt.mpr hmax), Nat.div_eq_of_lt hlt, Nat.mod_eq_of_lt hlt, Nat.add_zero,
      Nat.mod_eq_of_lt hw]

theorem sum_division (p d : Duration) :
    (p.sum d).division =
      if p.division = d.division then p.division else mul32 p.division d.division := by
  unfold sum
  by_cases h : p.division = d.division
  · rw [if_pos h, if_pos h]
  · rw [if_neg h, if_neg h]

/-- The position `ticks` after the first bar, among bars of `perBar`. -/
def atTick (perBar ticks : ℕ) : Duration :=
  ⟨(1 + ticks / perBar) % 2 ^ 32, ticks % perBar, perBar⟩

variable {perBar : ℕ}

theorem elapsed_eq (hmax : perBar ≤ MAX_DENOMINATOR) {d : ℕ} (hd : d < 2 ^ 32) :
    normalize ⟨0, d, perBar⟩ = ⟨d / perBar, d % perBar, perBar⟩ := by
  have hlt : d / perBar < 2 ^ 32 := (Nat.div_le_self _ _).trans_lt hd
  rw [normalize_eq (by norm_num) hmax, Nat.zero_add, Nat.mod_eq_of_lt hlt]

/-- Ticks add up, bars modulo `2 ^ 32`. -/
theorem atTick_add (h : 0 < perBar) (hmax : perBar ≤ MAX_DENOMINATOR) (ticks d : ℕ) :
    ((atTick perBar ticks).sum ⟨d / perBar, d % perBar, perBar⟩).normalize =
      atTick perBar (ticks + d) := by
  have hp : ticks % perBar < perBar := Nat.mod_lt _ h
  have hp' : d % perBar < perBar := Nat.mod_lt _ h
  have hmax' : perBar ≤ 384000 := hmax
  have hlow : (ticks % perBar + d % perBar) % 2 ^ 32 = ticks % perBar + d % perBar :=
    Nat.mod_eq_of_lt (by omega)
  unfold sum atTick
  dsimp only
  rw [if_pos rfl, hlow, normalize_eq (Nat.mod_lt _ (by norm_num)) hmax, ← Nat.add_mod]
  have hdiv : (ticks + d) / perBar =
      ticks / perBar + d / perBar + (ticks % perBar + d % perBar) / perBar := by
    have hsplit : ticks + d =
        perBar * (ticks / perBar + d / perBar) + (ticks % perBar + d % perBar) := by
      have ht := Nat.div_add_mod ticks perBar
      have hd := Nat.div_add_mod d perBar
      rw [Nat.mul_add]
      omega
    conv_lhs => rw [hsplit, Nat.mul_add_div h]
  rw [hdiv]
  congr 1
  generalize ticks / perBar = a
  generalize d / perBar = b
  omega

/-- From the very start, whose bar has a single part. -/
theorem firstBar_add (h : 0 < perBar) (hmax : perBar ≤ MAX_DENOMINATOR) (d : ℕ) :
    ((mk 1 0 1).sum ⟨d / perBar, d % perBar, perBar⟩).normalize = atTick perBar d := by
  have hmax' : perBar ≤ 384000 := hmax
  have hp : d % perBar < perBar := Nat.mod_lt _ h
  have hq : d / perBar ≤ d := Nat.div_le_self _ _
  have hsum : (mk 1 0 1).sum ⟨d / perBar, d % perBar, perBar⟩ =
      ⟨(1 + d / perBar) % 2 ^ 32, d % perBar, perBar⟩ := by
    unfold sum mul32
    dsimp only
    split
    · rename_i he
      have hzero : d % perBar = 0 := by omega
      rw [hzero, ← he]
      rfl
    · have h1 : d % perBar * 1 % 2 ^ 32 = d % perBar := by omega
      have h2 : 1 * perBar % 2 ^ 32 = perBar := by omega
      have h3 : d % perBar % 2 ^ 32 = d % perBar := Nat.mod_eq_of_lt (by omega)
      rw [h1, h2, Nat.zero_mul, Nat.zero_mod, Nat.zero_add, h3]
  rw [hsum, normalize_eq (Nat.mod_lt _ (by norm_num)) hmax, Nat.div_eq_of_lt hp, Nat.add_zero,
    Nat.mod_mod, Nat.mod_mod]
  rfl

/-- A counted position is the one at `time` exactly when nothing was left uncounted and the bar
fits. -/
theorem atTick_value_iff (h : 0 < perBar) {ticks time : ℕ} (hle : ticks ≤ time) :
    (atTick perBar ticks).value = 1 + (time : ℚ) / perBar ↔
      ticks = time ∧ 1 + time / perBar < 2 ^ 32 := by
  obtain ⟨-, h0, h1⟩ := mixed ticks h
  obtain ⟨hmix, h0', h1'⟩ := mixed time h
  have hmono : ticks / perBar ≤ time / perBar := Nat.div_le_div_right hle
  have ht := Nat.div_add_mod ticks perBar
  have ht' := Nat.div_add_mod time perBar
  have hq : (perBar : ℚ) ≠ 0 := by exact_mod_cast h.ne'
  unfold atTick value
  dsimp only
  rw [hmix]
  constructor
  · intro he
    rw [← add_assoc] at he
    obtain ⟨hwhole, hrest⟩ := mixed_inj h0 h1 h0' h1' (by exact_mod_cast he)
    have hrest' : ticks % perBar = time % perBar := by exact_mod_cast (div_left_inj' hq).mp hrest
    have hquot : ticks / perBar = time / perBar := by
      generalize ticks / perBar = a at *
      generalize time / perBar = b at *
      omega
    refine ⟨?_, ?_⟩
    · rw [← ht, ← ht', hquot, hrest']
    · have hlt : (1 + ticks / perBar) % 2 ^ 32 < 2 ^ 32 := Nat.mod_lt _ (by norm_num)
      omega
  · rintro ⟨rfl, hlt⟩
    rw [Nat.mod_eq_of_lt hlt]
    push_cast
    ring

/-- A key on from `start` to `stop` of the counted ticks is off after `length`: these fit in 32
bits, and either the last bar does too and all of them were counted, or it does not and the bars
that wrapped leave the same number. -/
def Lasts (perBar start stop length : ℕ) : Prop :=
  length < 2 ^ 32 ∧
    if 1 + stop / perBar < 2 ^ 32 then stop = start + length
    else length + start % perBar = 2 ^ 32 + stop % perBar

/-- The parts that the subtraction leaves. -/
def difference (perBar start stop : ℕ) : ℕ :=
  (stop % perBar + ((1 + stop / perBar) % 2 ^ 32 - (1 + start / perBar) % 2 ^ 32) * perBar +
    (2 ^ 32 - start % perBar)) % 2 ^ 32

variable {start stop length : ℕ}

/-- The bar of the note-off fits. -/
theorem difference_of_lt (h : 0 < perBar) (hmax : perBar ≤ MAX_DENOMINATOR) (hle : start ≤ stop)
    (hfits : 1 + stop / perBar < 2 ^ 32) :
    difference perBar start stop = (stop - start) % 2 ^ 32 := by
  have hmax' : perBar ≤ 384000 := hmax
  have hmono : start / perBar ≤ stop / perBar := Nat.div_le_div_right hle
  have hp : start % perBar < perBar := Nat.mod_lt _ h
  have hbars : (stop / perBar - start / perBar) * perBar + start / perBar * perBar =
      stop / perBar * perBar := by
    rw [← Nat.add_mul, Nat.sub_add_cancel hmono]
  have hstart := Nat.div_add_mod' start perBar
  have hstop := Nat.div_add_mod' stop perBar
  have hfits' : (1 + start / perBar) % 2 ^ 32 = 1 + start / perBar := Nat.mod_eq_of_lt (by omega)
  unfold difference
  rw [Nat.mod_eq_of_lt hfits, hfits', Nat.add_sub_add_left]
  generalize (stop / perBar - start / perBar) * perBar = a at *
  generalize start / perBar * perBar = b at *
  generalize stop / perBar * perBar = c at *
  omega

/-- It does not, though the bar of the note-on did and the key was on for less than `2 ^ 32`
ticks: the loop of the subtraction does not turn. -/
theorem difference_of_le (h : 0 < perBar) (hle : start ≤ stop) (hlt : stop < 2 ^ 32 + start)
    (hfits : 1 + start / perBar < 2 ^ 32) (hwraps : 2 ^ 32 ≤ 1 + stop / perBar) :
    difference perBar start stop = (stop % perBar + (2 ^ 32 - start % perBar)) % 2 ^ 32 ∧
      stop % perBar + perBar + start ≤ stop + start % perBar := by
  have hstep : (stop - start) / perBar < 2 ^ 32 := (Nat.div_le_self _ _).trans_lt (by omega)
  have hsum : stop / perBar ≤ start / perBar + (stop - start) / perBar + 1 := by
    have hdiv := Nat.add_div h (a := start) (b := stop - start)
    rw [Nat.add_sub_cancel' hle] at hdiv
    split at hdiv <;> omega
  have hmod : (1 + stop / perBar) % 2 ^ 32 = 1 + stop / perBar - 2 ^ 32 := by
    generalize stop / perBar = a at *
    generalize start / perBar = b at *
    omega
  refine ⟨?_, ?_⟩
  · unfold difference
    have hzero : (1 + stop / perBar) % 2 ^ 32 - (1 + start / perBar) % 2 ^ 32 = 0 := by
      rw [hmod, Nat.mod_eq_of_lt hfits]
      omega
    rw [hzero, Nat.zero_mul, Nat.add_zero]
  · have hbar : (start / perBar + 1) * perBar ≤ stop / perBar * perBar :=
      Nat.mul_le_mul_right _ (by omega)
    rw [Nat.add_mul, Nat.one_mul] at hbar
    have hstart := Nat.div_add_mod' start perBar
    have hstop := Nat.div_add_mod' stop perBar
    omega

theorem difference_eq_iff (h : 0 < perBar) (hmax : perBar ≤ MAX_DENOMINATOR)
    (hfits : 1 + start / perBar < 2 ^ 32) (hle : start ≤ stop) (hlength : stop - start ≤ length) :
    difference perBar start stop = length ↔ Lasts perBar start stop length := by
  have hlow : difference perBar start stop < 2 ^ 32 := Nat.mod_lt _ (by norm_num)
  unfold Lasts
  by_cases hlong : length < 2 ^ 32
  · rw [iff_true_intro hlong, true_and]
    split
    · rename_i hlast
      rw [difference_of_lt h hmax hle hlast]
      omega
    · rename_i hlast
      obtain ⟨hdiff, hbar⟩ :=
        difference_of_le h hle (by omega) hfits (Nat.not_lt.mp hlast)
      have hp : start % perBar < perBar := Nat.mod_lt _ h
      have hp' : stop % perBar < perBar := Nat.mod_lt _ h
      have hmax' : perBar ≤ 384000 := hmax
      rw [hdiff]
      omega
  · rw [iff_false_intro hlong, false_and, iff_false]
    omega

theorem length_value_iff (h : 0 < perBar) (hmax : perBar ≤ MAX_DENOMINATOR)
    (hfits : 1 + start / perBar < 2 ^ 32) (hle : start ≤ stop) (hlength : stop - start ≤ length) :
    (∃ r, (atTick perBar stop).sub (atTick perBar start) = .ok r ∧
      r.value = (length : ℚ) / perBar) ↔ Lasts perBar start stop length := by
  have hq : (perBar : ℚ) ≠ 0 := by exact_mod_cast h.ne'
  have hvalue : (mk 0 (difference perBar start stop) perBar).value = (length : ℚ) / perBar ↔
      difference perBar start stop = length := by
    rw [value_eq_parts (d := ⟨0, difference perBar start stop, perBar⟩) h, div_left_inj' hq]
    unfold parts
    rw [Nat.zero_mul, Nat.zero_add]
    exact Nat.cast_inj
  rw [← difference_eq_iff h hmax hfits hle hlength, ← hvalue,
    sub_eq (a := atTick perBar stop) (b := atTick perBar start) rfl]
  constructor
  · rintro ⟨r, ⟨⟩, hr⟩
    exact hr
  · exact fun hr => ⟨_, rfl, hr⟩

end Duration

theorem Position.add_of_division {p : Position} {d : Duration} (h : (p.sum d).division ≠ 0) :
    ∃ r, p.add d = some r ∧ r.toDuration = (p.sum d).normalize :=
  ⟨_, dif_neg h, rfl⟩

namespace Abc

/-- A key that is on: the note, the ticks before its note-on, and how many of these MIDI events
carried in 32 bits. -/
structure Sounding where
  note : Note
  start : ℕ
  counted : ℕ

/-- A note of a track, with the ticks before its note-off. -/
structure Sounded extends Sounding where
  stop : ℕ
  countedStop : ℕ

/-- The ticks of a track so far, those that MIDI events carried in 32 bits, and its notes. -/
structure Clock where
  time : ℕ
  counted : ℕ
  on : Int32 → Option Sounding
  notes : List Sounded

namespace Clock

def initial : Clock := ⟨0, 0, fun _ => none, []⟩

def noteOn (k : Clock) (chan : Int32) (data : List Int8) : Clock :=
  { k with
    on := Function.update k.on (key chan data) (some ⟨newNote chan data, k.time, k.counted⟩) }

def noteOff (k : Clock) (chan : Int32) (data : List Int8) : Clock :=
  match k.on (key chan data) with
  | none => k
  | some n =>
    { k with
      on := Function.update k.on (key chan data) none
      notes := k.notes ++ [⟨n, k.time, k.counted⟩] }

/-- What the callbacks of a track say of time: every one of them takes its delta. -/
def tick (k : Clock) : Callback → Clock
  | .writeMetaEvent delta _ _ => { k with time := k.time + delta.toNat }
  | .writeMidiEvent delta type chan data =>
    let k := { k with time := k.time + delta.toNat,
                      counted := k.counted + (delta % 2 ^ 32).toNat }
    if type = 0x90 then k.noteOn chan data
    else if type = 0x80 then k.noteOff chan data
    else k
  | _ => k

/-- The callbacks of a track in one meter: no key goes on while it is, and a time signature leaves
the ticks of a bar as they are. -/
def Valid (ticksPerQuarter perBar : ℕ) (k : Clock) : Callback → Prop
  | .writeMidiEvent delta type chan data => 0 ≤ delta ∧ (type = 0x90 → k.on (key chan data) = none)
  | .writeMetaEvent delta type data =>
    0 ≤ delta ∧ (type = 0x58 → pow2 (data.getD 1 0) ≠ 0 ∧
      mul32 (mul32 ticksPerQuarter 4 / pow2 (data.getD 1 0))
        ((data.getD 0 0).toInt % 2 ^ 32).toNat = perBar)
  | _ => False

end Clock

/-- A note stands at the bar its ticks make, for as long as they make. -/
structure Right (perBar : ℕ) (added : PatternNote) (n : Sounded) : Prop where
  value : added.note.value = n.note.value
  vel : added.note.vel = n.note.vel
  channel : added.note.channel = n.note.channel
  start : added.position.value = 1 + (n.start : ℚ) / perBar
  length : added.note.duration.value = ((n.stop : ℚ) - n.start) / perBar

/-- No ticks were left uncounted before the note, its bar fits, and its ticks last. -/
structure Sounded.Exact (perBar : ℕ) (n : Sounded) : Prop where
  counted : n.counted = n.start
  bar : 1 + n.start / perBar < 2 ^ 32
  lasts : Duration.Lasts perBar n.counted n.countedStop (n.stop - n.start)

/-- The note as the reader adds it. -/
structure Coded (perBar : ℕ) (added : PatternNote) (n : Sounded) : Prop where
  value : added.note.value = n.note.value
  vel : added.note.vel = n.note.vel
  channel : added.note.channel = n.note.channel
  position : added.position.toDuration = Duration.atTick perBar n.counted
  duration : (Duration.atTick perBar n.countedStop).sub (Duration.atTick perBar n.counted) =
    .ok added.note.duration

/-- Counted ticks are ticks. -/
structure Sounding.Within (n : Sounding) (time ticks : ℕ) : Prop where
  start : n.start ≤ time
  counted : n.counted ≤ n.start
  later : n.counted ≤ ticks
  between : ticks + n.start ≤ time + n.counted

theorem right_iff {perBar : ℕ} (h : 0 < perBar) (hmax : perBar ≤ Duration.MAX_DENOMINATOR)
    {added : PatternNote} {n : Sounded} (hcoded : Coded perBar added n)
    (hwithin : n.toSounding.Within n.stop n.countedStop) :
    Right perBar added n ↔ n.Exact perBar := by
  obtain ⟨hstop, hcounted, hlater, hbetween⟩ := hwithin
  have hposition := Duration.atTick_value_iff h hcounted
  rw [← hcoded.position] at hposition
  have hlength : ((n.stop : ℚ) - n.start) / perBar = ((n.stop - n.start : ℕ) : ℚ) / perBar := by
    rw [Nat.cast_sub hstop]
  have hvalue (hbar : 1 + n.counted / perBar < 2 ^ 32) :=
    Duration.length_value_iff h hmax hbar hlater
      (show n.countedStop - n.counted ≤ n.stop - n.start by omega)
  constructor
  · rintro ⟨-, -, -, hstart, hlast⟩
    obtain ⟨he, hbar⟩ := hposition.mp hstart
    refine ⟨he, hbar, (hvalue (he ▸ hbar)).mp ⟨_, hcoded.duration, ?_⟩⟩
    rw [hlast, hlength]
  · rintro ⟨he, hbar, hlasts⟩
    obtain ⟨d, hd, hlast⟩ := (hvalue (he ▸ hbar)).mpr hlasts
    obtain rfl := Except.ok.inj (hcoded.duration.symm.trans hd)
    exact ⟨hcoded.value, hcoded.vel, hcoded.channel, hposition.mpr ⟨he, hbar⟩,
      hlast.trans hlength.symm⟩

/-- The reader is where the clock is: at the start of its first bar, or among parts that are
ticks. -/
def Stands (perBar : ℕ) (position : Duration) (counted : ℕ) : Prop :=
  (position = firstBar.toDuration ∧ counted = 0) ∨ position = Duration.atTick perBar counted

variable {perBar : ℕ} {r : Reader} {k : Clock} {before : List PatternNote}

theorem Stands.exists_add {p : Position} {counted d : ℕ} (h : 0 < perBar)
    (hmax : perBar ≤ Duration.MAX_DENOMINATOR) (hstands : Stands perBar p.toDuration counted)
    (hd : d < 2 ^ 32) :
    ∃ position, p.add (Duration.normalize ⟨0, d, perBar⟩) = some position ∧
      position.toDuration = Duration.atTick perBar (counted + d) := by
  rw [Duration.elapsed_eq hmax hd]
  have hsum : (p.sum ⟨d / perBar, d % perBar, perBar⟩).normalize =
      Duration.atTick perBar (counted + d) := by
    rcases hstands with ⟨hfirst, hzero⟩ | hat
    · rw [hfirst, hzero, Nat.zero_add]
      exact Duration.firstBar_add h hmax _
    · rw [hat]
      exact Duration.atTick_add h hmax _ _
  have hdivision : (p.sum ⟨d / perBar, d % perBar, perBar⟩).division ≠ 0 := by
    have hmax' : perBar ≤ 384000 := hmax
    have hperBar : mul32 1 perBar ≠ 0 := by
      unfold mul32
      omega
    rw [Duration.sum_division]
    rcases hstands with ⟨hfirst, -⟩ | hat
    · rw [hfirst]
      by_cases hone : firstBar.division = perBar
      · rw [if_pos hone]
        exact Nat.one_ne_zero
      · rw [if_neg hone]
        exact hperBar
    · rw [hat, if_pos (show (Duration.atTick perBar counted).division = perBar from rfl)]
      exact h.ne'
  obtain ⟨position, hadd, he⟩ := Position.add_of_division hdivision
  exact ⟨position, hadd, he.trans hsum⟩

theorem exists_add (h : 0 < perBar) (hmax : perBar ≤ Duration.MAX_DENOMINATOR)
    (hticks : r.ticksPerBar = perBar)
    (hstands : Stands perBar r.currentPosition.toDuration k.counted)
    (delta : ℤ) :
    ∃ position, r.currentPosition.add (r.elapsed delta) = some position ∧
      position.toDuration = Duration.atTick perBar (k.counted + (delta % 2 ^ 32).toNat) := by
  have hlow : (delta % 2 ^ 32).toNat < 2 ^ 32 := by omega
  unfold Reader.elapsed
  rw [hticks]
  exact hstands.exists_add h hmax hlow

/-- The reader follows the clock through a track that held the notes `before`. -/
structure Tracks (perBar ticksPerQuarter : ℕ) (before : List PatternNote) (r : Reader) (k : Clock) :
    Prop where
  ticks : r.ticksPerBar = perBar
  quarter : r.ticksPerQuarter = ticksPerQuarter
  stands : Stands perBar r.currentPosition.toDuration k.counted
  active : ∀ i, r.activeNote i = (k.on i).map Sounding.note
  start : ∀ i, ∀ n ∈ k.on i, (r.noteStart i).toDuration = Duration.atTick perBar n.counted
  within : ∀ i, ∀ n ∈ k.on i, n.Within k.time k.counted
  counted : k.counted ≤ k.time
  notes : ∃ added, r.track = some (before ++ added) ∧ List.Forall₂ (Coded perBar) added k.notes
  sounded : ∀ n ∈ k.notes, n.toSounding.Within n.stop n.countedStop

variable {ticksPerQuarter : ℕ}

theorem Sounding.Within.later_of_le {n : Sounding} {time ticks d d' : ℕ} (h : n.Within time ticks)
    (hd : d' ≤ d) : n.Within (time + d) (ticks + d') := by
  obtain ⟨h1, h2, h3, h4⟩ := h
  exact ⟨by omega, h2, by omega, by omega⟩

/-- Time passes, and the position with it. -/
theorem Tracks.move (ht : Tracks perBar ticksPerQuarter before r k) {d e : ℕ} (hd : e ≤ d)
    {position : Position} (hposition : Stands perBar position.toDuration (k.counted + e)) :
    Tracks perBar ticksPerQuarter before { r with currentPosition := position }
      { k with time := k.time + d, counted := k.counted + e } := by
  refine ⟨ht.ticks, ht.quarter, hposition, ht.active, ht.start, ?_, ?_, ht.notes, ht.sounded⟩
  · exact fun i n hn => (ht.within i n hn).later_of_le hd
  · have := ht.counted
    dsimp only
    omega

theorem Tracks.noteOn (ht : Tracks perBar ticksPerQuarter before r k) {chan : Int32}
    {data : List Int8} (hat : r.currentPosition.toDuration = Duration.atTick perBar k.counted)
    (hoff : k.on (key chan data) = none) :
    Tracks perBar ticksPerQuarter before (r.noteOn chan data) (k.noteOn chan data) := by
  have hnote : r.activeNote (key chan data) = none := by
    rw [ht.active, hoff]
    rfl
  refine ⟨ht.ticks, ht.quarter, ht.stands, fun i => ?_, fun i n hn => ?_, fun i n hn => ?_,
    ht.counted, ht.notes, ht.sounded⟩
  · by_cases hi : i = key chan data
    · subst hi
      simp only [Reader.noteOn, Clock.noteOn, Function.update_self, hnote]
      rfl
    · simp only [Reader.noteOn, Clock.noteOn, Function.update_of_ne hi]
      exact ht.active i
  · by_cases hi : i = key chan data
    · subst hi
      simp only [Reader.noteOn, Clock.noteOn, Function.update_self, Option.mem_some_iff] at hn ⊢
      rw [← hn]
      exact hat
    · simp only [Reader.noteOn, Clock.noteOn, Function.update_of_ne hi] at hn ⊢
      exact ht.start i n hn
  · by_cases hi : i = key chan data
    · subst hi
      simp only [Clock.noteOn, Function.update_self, Option.mem_some_iff] at hn
      rw [← hn]
      exact ⟨le_rfl, ht.counted, le_rfl, by dsimp only [Clock.noteOn]; omega⟩
    · simp only [Clock.noteOn, Function.update_of_ne hi] at hn
      exact ht.within i n hn

theorem Tracks.noteOff (ht : Tracks perBar ticksPerQuarter before r k)
    (hat : r.currentPosition.toDuration = Duration.atTick perBar k.counted) (chan : Int32)
    (data : List Int8) :
    ∃ r', r.noteOff chan data = (r', none) ∧
      Tracks perBar ticksPerQuarter before r' (k.noteOff chan data) := by
  have hactive := ht.active (key chan data)
  cases hn : k.on (key chan data) with
  | none =>
    rw [hn, Option.map_none] at hactive
    refine ⟨r, ?_, ?_⟩
    · unfold Reader.noteOff
      rw [hactive]
    · unfold Clock.noteOff
      rw [hn]
      exact ht
  | some n =>
    rw [hn, Option.map_some] at hactive
    obtain ⟨added, htrack, hadded⟩ := ht.notes
    obtain ⟨d, hd⟩ : ∃ d, (Duration.atTick perBar k.counted).sub
        (Duration.atTick perBar n.counted) = .ok d := ⟨_, Duration.sub_eq rfl⟩
    have hstart := ht.start (key chan data) n hn
    have hsub : r.currentPosition.toDuration.sub (r.noteStart (key chan data)).toDuration =
        .ok d := by
      rw [hat, hstart]
      exact hd
    obtain ⟨tunes, he, hnotes⟩ := Reader.noteOff_spec htrack hactive hsub
    refine ⟨_, he, ?_⟩
    have hclock : k.noteOff chan data =
        { k with on := Function.update k.on (key chan data) none,
                 notes := k.notes ++ [⟨n, k.time, k.counted⟩] } := by
      unfold Clock.noteOff
      rw [hn]
    rw [hclock]
    have hstill : ∀ i, ∀ m ∈ Function.update k.on (key chan data) none i,
        i ≠ key chan data ∧ m ∈ k.on i := by
      intro i m hm
      by_cases hi : i = key chan data
      · subst hi
        rw [Function.update_self] at hm
        cases hm
      · rw [Function.update_of_ne hi] at hm
        exact ⟨hi, hm⟩
    refine ⟨ht.ticks, ht.quarter, ht.stands, fun i => ?_, fun i m hm => ?_, fun i m hm => ?_,
      ht.counted, ⟨added ++ [⟨{ n.note with duration := d }, r.noteStart (key chan data)⟩], ?_, ?_⟩,
      ?_⟩
    · by_cases hi : i = key chan data
      · subst hi
        simp only [Function.update_self]
        rfl
      · simp only [Function.update_of_ne hi]
        exact ht.active i
    · exact ht.start i m (hstill i m hm).2
    · exact ht.within i m (hstill i m hm).2
    · rw [← List.append_assoc]
      exact hnotes
    · exact List.rel_append hadded (.cons ⟨rfl, rfl, rfl, hstart, hd⟩ .nil)
    · intro m hm
      rcases List.mem_append.mp hm with hm | hm
      · exact ht.sounded m hm
      · rw [List.mem_singleton] at hm
        subst hm
        exact ht.within (key chan data) n hn

/-- One callback of a track in one meter. -/
theorem Tracks.callback (h : 0 < perBar) (hmax : perBar ≤ Duration.MAX_DENOMINATOR)
    (ht : Tracks perBar ticksPerQuarter before r k) {c : Callback}
    (hv : k.Valid ticksPerQuarter perBar c) :
    ∃ r', r.callback c = (r', none) ∧ Tracks perBar ticksPerQuarter before r' (k.tick c) := by
  cases c with
  | writeMetaEvent delta type data =>
    obtain ⟨hdelta, hmeter⟩ := hv
    obtain ⟨added, htrack, hadded⟩ := ht.notes
    obtain ⟨r', he, htrack', hquarter, hposition, hactive, hstart, hticks⟩ :=
      Reader.writeMetaEvent_spec htrack fun h => (hmeter h).1
    have hsame : r'.ticksPerBar = perBar := by
      rcases hticks with hticks | ⟨htype, hticks⟩
      · exact hticks.trans ht.ticks
      · rw [hticks, ← (hmeter htype).2, ← ht.quarter]
        rfl
    refine ⟨r', he, hsame, hquarter.trans ht.quarter, ?_, ?_, ?_, ?_, ?_, ⟨added, htrack', hadded⟩,
      ht.sounded⟩
    · rw [hposition]
      exact ht.stands
    · rw [hactive]
      exact ht.active
    · rw [hstart]
      exact ht.start
    · exact fun i n hn => (ht.within i n hn).later_of_le (Nat.zero_le _)
    · exact ht.counted.trans (Nat.le_add_right _ _)
  | writeMidiEvent delta type chan data =>
    obtain ⟨hdelta, hoff⟩ := hv
    obtain ⟨position, hadd, hat⟩ := exists_add h hmax ht.ticks ht.stands delta
    have hmove := ht.move (d := delta.toNat) (e := (delta % 2 ^ 32).toNat) (by omega)
      (Or.inr hat)
    have hcall : r.writeMidiEvent delta type chan data = _ :=
      Reader.writeMidiEvent_of_add (ht.ticks ▸ h.ne') hadd
    change ∃ r', r.writeMidiEvent delta type chan data = (r', none) ∧ _
    rw [hcall]
    dsimp only [Clock.tick]
    by_cases hon : type = 0x90
    · rw [if_pos hon, if_pos hon]
      exact ⟨_, rfl, hmove.noteOn hat (hoff hon)⟩
    · rw [if_neg hon, if_neg hon]
      by_cases hend : type = 0x80
      · rw [if_pos hend, if_pos hend]
        exact hmove.noteOff hat chan data
      · rw [if_neg hend, if_neg hend]
        exact ⟨_, rfl, hmove⟩
  | _ => exact hv.elim

/-- The callbacks of a track in one meter. -/
theorem Tracks.parse (h : 0 < perBar) (hmax : perBar ≤ Duration.MAX_DENOMINATOR)
    {cs : List Callback} (ht : Tracks perBar ticksPerQuarter before r k)
    (hv : Transition.Always Clock.tick (Clock.Valid ticksPerQuarter perBar) k cs) :
    ∃ r', r.parse cs = (r', none) ∧
      Tracks perBar ticksPerQuarter before r' (cs.foldl Clock.tick k) := by
  induction cs generalizing r k with
  | nil => exact ⟨r, rfl, ht⟩
  | cons c cs ih =>
    obtain ⟨hc, hcs⟩ := hv
    obtain ⟨r', he, ht'⟩ := ht.callback h hmax hc
    obtain ⟨r'', he', ht''⟩ := ih ht' hcs
    refine ⟨r'', ?_, ht''⟩
    unfold Reader.parse
    rw [he]
    exact he'

theorem forall₂_right_iff (h : 0 < perBar) (hmax : perBar ≤ Duration.MAX_DENOMINATOR)
    {added : List PatternNote} {notes : List Sounded}
    (hcoded : List.Forall₂ (Coded perBar) added notes)
    (hwithin : ∀ n ∈ notes, n.toSounding.Within n.stop n.countedStop) :
    List.Forall₂ (Right perBar) added notes ↔ ∀ n ∈ notes, n.Exact perBar :=
  forall₂_iff_of_forall₂ hcoded fun _ n hn hnote => right_iff h hmax hnote (hwithin n hn)

/-- The notes that the callbacks of a track add stand where their ticks put them. -/
def Plays (perBar : ℕ) (before : List PatternNote) (r : Reader) (cs : List Callback) : Prop :=
  ∃ r' added, r.parse cs = (r', none) ∧ r'.track = some (before ++ added) ∧
    List.Forall₂ (Right perBar) added (cs.foldl Clock.tick Clock.initial).notes

theorem Tracks.plays_iff (h : 0 < perBar) (hmax : perBar ≤ Duration.MAX_DENOMINATOR)
    {cs : List Callback} {r' : Reader} (he : r.parse cs = (r', none))
    (ht : Tracks perBar ticksPerQuarter before r' (cs.foldl Clock.tick Clock.initial)) :
    Plays perBar before r cs ↔
      ∀ n ∈ (cs.foldl Clock.tick Clock.initial).notes, n.Exact perBar := by
  obtain ⟨added, htrack, hcoded⟩ := ht.notes
  rw [← forall₂_right_iff h hmax hcoded ht.sounded]
  constructor
  · rintro ⟨r'', added', he', htrack', hright⟩
    obtain rfl : r' = r'' := congrArg Prod.fst (he.symm.trans he')
    have hsame := List.append_cancel_left (Option.some.inj (htrack.symm.trans htrack'))
    rwa [hsame]
  · exact fun hright => ⟨r', added, he, htrack, hright⟩

theorem tracks_of_started (hr : Playing.Started r) (hbefore : r.track = some before) :
    Tracks r.ticksPerBar r.ticksPerQuarter before r Clock.initial where
  ticks := rfl
  quarter := rfl
  stands := Or.inl ⟨congrArg Position.toDuration hr.position, rfl⟩
  active i := congrFun hr.active i
  start i n hn := by cases hn
  within i n hn := by cases hn
  counted := le_rfl
  notes := ⟨[], by rw [hbefore, List.append_nil], .nil⟩
  sounded n hn := by cases hn

/-- In one meter, the notes of a track stand where the ticks of its callbacks put them exactly when
no ticks are left uncounted before a note, and its bar and its ticks fit. -/
theorem plays_iff_exact {cs : List Callback} (hr : Playing.Started r)
    (hbefore : r.track = some before) (hmax : r.ticksPerBar ≤ 384000)
    (hv : Transition.Always Clock.tick (Clock.Valid r.ticksPerQuarter r.ticksPerBar) Clock.initial
      cs) :
    Plays r.ticksPerBar before r cs ↔
      ∀ n ∈ (cs.foldl Clock.tick Clock.initial).notes, n.Exact r.ticksPerBar := by
  have hpos : 0 < r.ticksPerBar := Nat.pos_of_ne_zero hr.ticks
  obtain ⟨r', he, ht⟩ := (tracks_of_started hr hbefore).parse hpos hmax hv
  exact ht.plays_iff hpos hmax he

/-- A quarter, an eighth's rest, an eighth, at 24 ticks to the quarter. -/
def quarters : List Callback :=
  [.writeMidiEvent 0 0x90 0 [60, 100], .writeMidiEvent 24 0x80 0 [60, 0],
    .writeMidiEvent 12 0x90 0 [62, 100], .writeMidiEvent 12 0x80 0 [62, 0]]

theorem plays_quarters : Plays 96 [] Playing.track quarters := by
  have hv : Transition.Always Clock.tick (Clock.Valid 24 96) Clock.initial quarters :=
    ⟨⟨by decide, fun _ => rfl⟩, ⟨by decide, fun h => absurd h (by decide)⟩,
      ⟨by decide, fun _ => rfl⟩, ⟨by decide, fun h => absurd h (by decide)⟩, trivial⟩
  refine (plays_iff_exact Playing.started_track rfl (by decide) hv).mpr ?_
  have hnotes : (quarters.foldl Clock.tick Clock.initial).notes =
      [⟨⟨newNote 0 [60, 100], 0, 0⟩, 24, 24⟩, ⟨⟨newNote 0 [62, 100], 36, 36⟩, 48, 48⟩] := rfl
  rw [hnotes, List.forall_mem_cons, List.forall_mem_singleton]
  exact ⟨⟨rfl, by decide, by decide, by decide⟩, ⟨rfl, by decide, by decide, by decide⟩⟩

/-- A meta event carries the rest between the two notes, and the second stands where it begins. -/
theorem not_plays :
    let cs : List Callback := [.writeMidiEvent 0 0x90 0 [60, 100],
      .writeMidiEvent 24 0x80 0 [60, 0], .writeMetaEvent 12 0x05 [],
        .writeMidiEvent 0 0x90 0 [62, 100],
      .writeMidiEvent 12 0x80 0 [62, 0]]
    Playing.Started Playing.track ∧
      Transition.Always Clock.tick (Clock.Valid 24 96) Clock.initial cs ∧
      ¬ Plays 96 [] Playing.track cs := by
  intro cs
  have hv : Transition.Always Clock.tick (Clock.Valid 24 96) Clock.initial cs :=
    ⟨⟨by decide, fun _ => rfl⟩, ⟨by decide, fun h => absurd h (by decide)⟩,
      ⟨by decide, fun h => absurd h (by decide)⟩, ⟨by decide, fun _ => rfl⟩,
      ⟨by decide, fun h => absurd h (by decide)⟩, trivial⟩
  refine ⟨Playing.started_track, hv, ?_⟩
  have htracks : Tracks 96 24 [] Playing.track Clock.initial :=
    tracks_of_started Playing.started_track rfl
  obtain ⟨r', he, ht⟩ := htracks.parse (by decide) (by decide) hv
  have hnotes : (cs.foldl Clock.tick Clock.initial).notes =
      [⟨⟨newNote 0 [60, 100], 0, 0⟩, 24, 24⟩, ⟨⟨newNote 0 [62, 100], 36, 24⟩, 48, 36⟩] := rfl
  intro hplays
  have hexact := (ht.plays_iff (by decide) (by decide) he).mp hplays
  rw [hnotes, List.forall_mem_cons, List.forall_mem_singleton] at hexact
  cases hexact.2.counted

end Abc

end Bipscript
