import Bipscript.DrumTabBlocks

/-! The numbers and velocities of the notes of a tab. -/
namespace Bipscript.DrumTab

/-- The readers a script can have: `read` leaves both maps as they are. -/
inductive Made : Reader → Prop
  | new : Made Reader.new
  | setVelocity {r : Reader} (note : ℤ) (hit : String) (velocity : ℤ) (h : Made r) :
      Made (r.setVelocity note hit velocity)

/-- The upper-cased code followed by the hit character. -/
def Strike.key (s : Strike) : String := s.channel.code.push s.hit

/-- The note table lists the hit for the code. -/
def Strike.Listed (s : Strike) : Prop := ∃ value, (s.key, value) ∈ noteTable

/-- The note has the table's number, and the table's velocity or 127. -/
structure Struck (r : Reader) (note : Midi.Note) (s : Strike) : Prop where
  value : note.value = r.noteValue s.key
  vel : note.vel = UInt8.ofInt
    (if r.noteVelocity s.key = 0 then 127 else r.noteVelocity s.key)

variable {r : Reader} {s : Strike}

theorem Made.noteValue (h : Made r) : r.noteValue = Reader.new.noteValue := by
  induction h with
  | new => rfl
  | setVelocity note hit velocity h ih => exact ih

/-- The code alone is no key of the table, whose keys end in a hit. -/
theorem noteValue_code (h : Made r) (channel : Channel) : r.noteValue channel.code = 0 := by
  have hkeys : ∀ p ∈ noteTable, p.1.length = 3 := by decide +kernel
  have hlength : channel.code.length = 2 := by
    unfold Channel.code
    rw [String.length_ofList]
    rfl
  have hnone : noteTable.lookup channel.code = none := by
    rw [List.lookup_eq_none_iff]
    intro p hp
    rw [bne_iff_ne]
    intro he
    have := hkeys p hp
    rw [← he, hlength] at this
    cases this
  rw [h.noteValue]
  change (noteTable.lookup channel.code).getD 0 = 0
  rw [hnone]
  rfl

theorem Strike.Listed.noteValue_ne (hl : s.Listed) (h : Made r) : r.noteValue s.key ≠ 0 := by
  have htable : ∀ p ∈ noteTable, (noteTable.lookup p.1).getD 0 ≠ 0 := by decide +kernel
  obtain ⟨value, hmem⟩ := hl
  rw [h.noteValue]
  change (noteTable.lookup s.key).getD 0 ≠ 0
  exact htable (s.key, value) hmem

/-- The codes of the table begin with letters. -/
theorem Strike.Listed.not_digit (hl : s.Listed) : s.channel.fst.isDigit = false := by
  have htable : ∀ p ∈ noteTable, (p.1.toList.head?.all fun c => !c.isDigit) = true := by
    decide +kernel
  obtain ⟨value, hmem⟩ := hl
  have hhead : s.key.toList.head? = some s.channel.fst.toUpper := by
    unfold Strike.key Channel.code
    rw [String.toList_push, String.toList_ofList]
    rfl
  have hupper := htable _ hmem
  rw [hhead, Option.all_some] at hupper
  by_contra hdigit
  rw [Bool.not_eq_false] at hdigit
  have hsame : s.channel.fst.toUpper = s.channel.fst := by
    unfold Char.isDigit at hdigit
    rw [Bool.and_eq_true, decide_eq_true_iff, decide_eq_true_iff] at hdigit
    exact dif_neg fun h => absurd (UInt32.le_trans h.1 hdigit.2) (by decide)
  rw [hsame, hdigit] at hupper
  cases hupper

/-- The note of a listed hit has the table's velocity, and the number of a code without a hit. -/
theorem Adds.note_of_listed {note : Midi.PatternNote} {s₀ : Strike} (h : Made r)
    (hadds : Adds r note s₀) (halike : Alike s₀ s) (hl : s.Listed) :
    note.note.value = 0 ∧ note.note.vel = UInt8.ofInt
      (if r.noteVelocity s.key = 0 then 127 else r.noteVelocity s.key) := by
  obtain ⟨hchannel, hhit, -, -⟩ := halike
  have hmade := hadds.made
  unfold Reader.newNote at hmade
  rw [if_neg (Nat.ne_of_gt (Nat.zero_lt_of_lt hadds.index)), hchannel, hhit] at hmade
  rw [← Option.some.inj hmade]
  refine ⟨?_, rfl⟩
  change r.notenum s.channel = 0
  unfold Reader.notenum
  rw [hl.not_digit]
  exact noteValue_code h s.channel

/-- Of no reader and no text does a listed hit have the table's number: every note of one misses
it. -/
theorem read_not_struck (h : Made r) (tab : List Char) :
    ∃ notes, r.read tab = some notes ∧ notes.length = (reference tab).length ∧
      ∀ p ∈ notes.zip (reference tab), p.2.Listed → ¬ Struck r p.1.note p.2 := by
  obtain ⟨notes, he, hadds⟩ := read_adds r tab
  have halike : List.Forall₂ Alike (strikesFrom (lastBars 0) 1 (blocks tab)) (reference tab) :=
    alike_strikesFrom 1 1 _
  refine ⟨notes, he, hadds.length_eq.trans halike.length_eq, ?_⟩
  rintro ⟨note, s⟩ hmem hl hstruck
  generalize strikesFrom (lastBars 0) 1 (blocks tab) = ss at hadds halike
  generalize reference tab = ss' at halike hmem
  have hboth : List.Forall₂ (fun note s => ∃ s₀, Adds r note s₀ ∧ Alike s₀ s) notes ss' := by
    clear he hmem
    induction hadds generalizing ss' with
    | nil =>
      cases halike
      exact .nil
    | cons hnote _ ih =>
      cases halike with
      | cons hs hrest => exact .cons ⟨_, hnote, hs⟩ (ih _ hrest)
  obtain ⟨s₀, hnote, hs⟩ := List.forall₂_zip hboth hmem
  have hzero := (hnote.note_of_listed h hs hl).1
  exact hl.noteValue_ne h (hstruck.value.symm.trans hzero)

theorem read_not_struck_new :
    Made Reader.new ∧ ∃ notes, Reader.new.read "SD|o---|".toList = some notes ∧
      notes.length = (reference "SD|o---|".toList).length ∧
      ∀ p ∈ notes.zip (reference "SD|o---|".toList), p.2.Listed →
        ¬ Struck Reader.new p.1.note p.2 :=
  ⟨.new, read_not_struck .new _⟩

/-- A snare hit, which the table lists as 38, is read as note 0. -/
theorem snare_not_struck :
    ∃ notes note s, Reader.new.read "SD|o---|".toList = some notes ∧
      reference "SD|o---|".toList = [s] ∧ s.Listed ∧ notes = [note] ∧
      Reader.new.noteValue s.key = 38 ∧ ¬ Struck Reader.new note.note s := by
  obtain ⟨notes, he, hadds⟩ := read_adds Reader.new "SD|o---|".toList
  have hs : strikesFrom (lastBars 0) 1 (blocks "SD|o---|".toList) =
      [⟨⟨'S', 'D'⟩, 'o', 1, 0, 4⟩] := by decide +kernel
  rw [hs] at hadds
  obtain ⟨note, rest, hnote, hnil, rfl⟩ := List.forall₂_cons_right_iff.mp hadds
  cases hnil
  have hl : Strike.Listed ⟨⟨'S', 'D'⟩, 'o', 1, 0, 4⟩ := ⟨38, by decide +kernel⟩
  refine ⟨[note], note, ⟨⟨'S', 'D'⟩, 'o', 1, 0, 4⟩, he, by decide +kernel, hl, rfl,
    by decide +kernel, fun hstruck => ?_⟩
  have hzero := (hnote.note_of_listed .new ⟨rfl, rfl, rfl, rfl⟩ hl).1
  exact hl.noteValue_ne .new (hstruck.value.symm.trans hzero)

end Bipscript.DrumTab
