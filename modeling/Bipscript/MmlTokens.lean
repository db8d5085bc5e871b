import Bipscript.MmlLoop
import Bipscript.MmlPrograms
import Mathlib.Tactic.IntervalCases
import Mathlib.Tactic.Ring

/-! The tokens of the texts that spell a program, and what a fetch makes of each command. -/
namespace Bipscript.Tinymml

/-- A digit is one of ten. -/
@[elab_as_elim]
theorem digit_cases {motive : Char → Prop} {c : Char} (hc : c.isDigit = true)
    (h : ∀ n < 10, motive (Char.ofNat (48 + n))) : motive c := by
  simp only [Char.isDigit, ge_iff_le, Bool.and_eq_true, decide_eq_true_eq] at hc
  have hlow : 48 ≤ c.toNat := hc.1
  have hhigh : c.toNat ≤ 57 := hc.2
  have hdigit := h (c.toNat - 48) (by omega)
  rwa [Nat.add_sub_cancel' hlow, Char.ofNat_toNat] at hdigit

theorem getCharType_digit {c : Char} (hc : c.isDigit = true) : getCharType c = .number := by
  refine digit_cases hc fun n hn => ?_
  interval_cases n <;> rfl

theorem getCharType_whitespace {c : Char} (hc : isWhitespace c = true) :
    getCharType c = .unknown := by
  unfold isWhitespace at hc
  simp only [Bool.or_eq_true, beq_iff_eq] at hc
  rcases hc with ((rfl | rfl) | rfl) | rfl <;> rfl

/-- A character of another type than the rest is neither space nor a terminator. -/
theorem solid_of_type {c : Char} (hc : getCharType c ≠ .unknown) :
    isWhitespace c = false ∧ c ≠ '\x00' := by
  constructor
  · by_contra hspace
    rw [Bool.not_eq_false] at hspace
    exact hc (getCharType_whitespace hspace)
  · rintro rfl
    exact hc rfl

/-- A token of this type has one character, and the sharps and flats after it. -/
def Single (head : CharType) : Prop :=
  head = .note ∨ head = .repeatLeft ∨ head = .repeatRight

/-- What may stand after a token. -/
structure Stops (t : List Char) : Prop where
  ne_nil : t ≠ []
  sharp : ∀ c ∈ t.head?, isSharpOrFlat c = false

/-- What may stand after a command. -/
structure Opens (t : List Char) : Prop extends Stops t where
  number : ∀ c ∈ t.head?, getCharType c ≠ .number

namespace Mml

variable {h : Mml} {c : Char} {cs t run sharps space u : List Char} {head : CharType}

theorem next_next (h : Mml) (m n : ℕ) : (h.next m).next n = h.next (m + n) := by
  simp only [next, Nat.add_assoc]

theorem rest_append (hrest : h.rest = u ++ t) : (h.next u.length).rest = t := by
  rw [rest_next, hrest, List.drop_left]

theorem takeWhile_append_stop {p : Char → Bool} (hu : ∀ c ∈ u, p c = true)
    (ht : ∀ c ∈ t.head?, p c = false) : (u ++ t).takeWhile p = u := by
  rw [List.takeWhile_append_of_pos hu]
  cases t with
  | nil => simp
  | cons d t => rw [List.takeWhile_cons_of_neg (by simpa using ht d rfl), List.append_nil]

/-- A space at the front makes no difference. -/
theorem getToken_space (hrest : h.rest = c :: cs) (hc : isWhitespace c = true) :
    h.getToken = (h.next 1).getToken := by
  have hcs : (h.next 1).rest = cs := by rw [rest_next, hrest, List.drop_one, List.tail_cons]
  have hskip : h.skipWhitespace = (h.next 1).skipWhitespace := by
    rw [skipWhitespace, skipWhitespace, hrest, hcs, List.takeWhile_cons_of_pos hc,
      List.length_cons, next_next, Nat.add_comm]
  rw [getToken, getToken, hskip]

theorem getToken_spaces (hrest : h.rest = space ++ t)
    (hspace : ∀ c ∈ space, isWhitespace c = true) :
    h.getToken = (h.next space.length).getToken := by
  induction space generalizing h with
  | nil => rfl
  | cons c space ih =>
    obtain ⟨hc, hspace⟩ := List.forall_mem_cons.mp hspace
    have hcs : (h.next 1).rest = space ++ t := by
      rw [rest_next, hrest, List.cons_append, List.drop_one, List.tail_cons]
    rw [getToken_space hrest hc, ih hcs hspace, next_next, List.length_cons, Nat.add_comm]

theorem getToken_of_run (hrest : h.rest = run ++ (sharps ++ t))
    (hrun : readRun head 0 (run ++ (sharps ++ t)) = some (false, run)) (hne : run ≠ [])
    (htypes : ∀ c ∈ run, getCharType c = head) (hhead : head ≠ .unknown)
    (hsharps : ∀ c ∈ sharps, isSharpOrFlat c = true) (ht : Stops t)
    (hlength : run.length + sharps.length < 8) :
    h.getToken = some (.ok, run ++ sharps, h.next (run.length + sharps.length)) := by
  obtain ⟨c, run, rfl⟩ := List.exists_cons_of_ne_nil hne
  obtain rfl := htypes c List.mem_cons_self
  obtain ⟨hspace, hnul⟩ := solid_of_type hhead
  have hskip : h.skipWhitespace = h := by
    rw [skipWhitespace, hrest, List.cons_append, List.takeWhile_cons_of_neg (by simp [hspace])]
    rfl
  have hafter : (h.next (c :: run).length).rest = sharps ++ t := rest_append hrest
  have hwhile : (sharps ++ t).takeWhile isSharpOrFlat = sharps :=
    takeWhile_append_stop hsharps ht.sharp
  unfold getToken
  rw [hskip]
  dsimp only
  rw [hrest, List.cons_append]
  dsimp only
  rw [if_neg hnul, ← List.cons_append, hrun]
  dsimp only
  rw [hafter, hwhile, if_neg, List.length_append]
  rw [List.length_append]
  exact Nat.not_le.mpr hlength

theorem getToken_single (hrest : h.rest = c :: (sharps ++ t)) (hc : Single (getCharType c))
    (hsharps : ∀ c ∈ sharps, isSharpOrFlat c = true) (ht : Stops t) (hlength : sharps.length ≤ 6) :
    h.getToken = some (.ok, c :: sharps, h.next (1 + sharps.length)) := by
  have hrun : readRun (getCharType c) 0 (c :: (sharps ++ t)) = some (false, [c]) := by
    rw [readRun, if_neg (not_not.mpr rfl)]
    exact if_pos hc
  have hrest' : h.rest = [c] ++ (sharps ++ t) := hrest
  refine getToken_of_run hrest' hrun (List.cons_ne_nil _ _) ?_ ?_ hsharps ht ?_
  · intro d hd
    rw [List.mem_singleton.mp hd]
  · rcases hc with hc | hc | hc <;> simp [hc]
  · rw [List.length_singleton]
    omega

theorem getToken_bracket (hrest : h.rest = c :: t) (hc : Single (getCharType c)) (ht : Stops t) :
    h.getToken = some (.ok, [c], h.next 1) :=
  getToken_single hrest hc (fun _ hd => nomatch hd) ht (Nat.zero_le _)

theorem readRun_append (hhead : ¬ Single head) (htypes : ∀ c ∈ run, getCharType c = head)
    (hne : t ≠ []) (ht : ∀ c ∈ t.head?, getCharType c ≠ head) {cnt : ℕ}
    (hcnt : cnt + run.length ≤ 6) : readRun head cnt (run ++ t) = some (false, run) := by
  induction run generalizing cnt with
  | nil =>
    obtain ⟨d, t, rfl⟩ := List.exists_cons_of_ne_nil hne
    rw [List.nil_append, readRun, if_pos (ht d rfl)]
  | cons c run ih =>
    obtain ⟨hc, htypes⟩ := List.forall_mem_cons.mp htypes
    rw [List.length_cons] at hcnt
    have hroom : ¬ MML_WORK_BUFFER_SIZE ≤ cnt + 1 + 1 := by
      unfold MML_WORK_BUFFER_SIZE
      omega
    rw [List.cons_append, readRun, if_neg (not_not.mpr hc)]
    refine (if_neg hhead).trans ?_
    rw [if_neg hroom, ih htypes (by omega)]
    rfl

theorem getToken_run (hrest : h.rest = run ++ t) (hne : run ≠ [])
    (htypes : ∀ c ∈ run, getCharType c = head) (hhead : head ≠ .unknown) (hsingle : ¬ Single head)
    (ht : Stops t) (hapart : ∀ c ∈ t.head?, getCharType c ≠ head) (hlength : run.length ≤ 6) :
    h.getToken = some (.ok, run, h.next run.length) := by
  have hrun : readRun head 0 (run ++ ([] ++ t)) = some (false, run) :=
    readRun_append hsingle htypes ht.ne_nil hapart (by omega)
  have hget := getToken_of_run hrest hrun hne htypes hhead nofun ht (by simp; omega)
  rwa [List.append_nil] at hget

end Mml

/-! Numbers and lengths. -/

section Numbers

variable {n dots : ℕ} {u : List Char} {option : MmlOption}

theorem atoiSigns_plain {cs : List Char} (h : ∀ c ∈ cs, c ≠ ' ' ∧ c ≠ '+' ∧ c ≠ '-')
    (ofs scnt : ℕ) (sign : Bool) : atoiSigns cs ofs scnt sign = some (ofs, sign) := by
  induction cs with
  | nil => rfl
  | cons c cs ih =>
    obtain ⟨⟨hspace, hplus, hminus⟩, h⟩ := List.forall_mem_cons.mp h
    rw [atoiSigns, if_neg hspace, if_neg (not_or.mpr ⟨hplus, hminus⟩), ih h]

theorem foldl_digits {cs : List Char} (h : ∀ c ∈ cs, c.isDigit = true) (init : ℕ) :
    cs.foldl (fun num c => 10 * num + (Int32.ofNat c.toNat - Int32.ofNat '0'.toNat))
      (Int32.ofNat init) = Int32.ofNat (Nat.ofDigitChars 10 cs init) := by
  induction cs generalizing init with
  | nil => rw [List.foldl_nil, Nat.ofDigitChars_nil]
  | cons c cs ih =>
    obtain ⟨hc, h⟩ := List.forall_mem_cons.mp h
    have hlow : '0'.toNat ≤ c.toNat := by
      simp only [Char.isDigit, ge_iff_le, Bool.and_eq_true, decide_eq_true_eq] at hc
      exact hc.1
    have hdigit : 10 * Int32.ofNat init + (Int32.ofNat c.toNat - Int32.ofNat '0'.toNat) =
        Int32.ofNat (10 * init + (c.toNat - '0'.toNat)) := by
      rw [Int32.ofNat_add, Int32.ofNat_mul, Int32.ofNat_sub _ _ hlow]
      rfl
    rw [List.foldl_cons, hdigit, ih h, Nat.ofDigitChars_cons]

theorem atoi_number (hu : IsNumber n dots u) : atoi u = Int32.ofNat n := by
  obtain ⟨hne, hdigits, hvalue, hlength⟩ := hu
  rename_i digits
  have hplain : ∀ c ∈ digits ++ List.replicate dots '.', c ≠ ' ' ∧ c ≠ '+' ∧ c ≠ '-' := by
    intro c hc
    rcases List.mem_append.mp hc with hc | hc
    · have hdigit := hdigits c hc
      refine ⟨?_, ?_, ?_⟩ <;> rintro rfl <;> cases hdigit
    · rw [List.eq_of_mem_replicate hc]
      decide
  have hwhile : (digits ++ List.replicate dots '.').takeWhile Char.isDigit = digits := by
    refine Mml.takeWhile_append_stop hdigits fun c hc => ?_
    rw [List.eq_of_mem_replicate (List.mem_of_mem_head? hc)]
    rfl
  rw [atoi, atoiSigns_plain hplain]
  dsimp only
  rw [List.drop_zero, hwhile, if_neg Bool.false_ne_true, ← hvalue]
  exact foldl_digits hdigits 0

theorem convert_plain (ho : option.bticks = 480) {k : ℕ} (hk : k ≤ 6) :
    convertNoteLengthToTicks option (Int32.ofNat (2 ^ k)) = .ok (Int32.ofNat (WHOLE / 2 ^ k)) := by
  unfold convertNoteLengthToTicks
  rw [ho]
  interval_cases k <;> rfl

theorem convert_length (ho : option.bticks = 480) (length : Length) :
    convertNoteLengthToTicks option (Int32.ofNat length.number) =
      .ok (Int32.ofNat length.undotted.ticks) := by
  cases length with
  | none => rfl
  | plain k dots h =>
    have hsum : (Length.plain k dots h).undotted.ticks = WHOLE / 2 ^ k := by
      simp [Length.undotted, Length.ticks]
    rw [hsum]
    exact convert_plain ho (by omega)
  | triplet k h =>
    unfold convertNoteLengthToTicks
    rw [ho]
    interval_cases k <;> rfl

theorem addDots_digits {digits cs : List Char} (h : ∀ c ∈ digits, c.isDigit = true)
    (noteLength ticks : Int32) :
    addDots option (digits ++ cs) noteLength ticks = addDots option cs noteLength ticks := by
  induction digits with
  | nil => rfl
  | cons c digits ih =>
    obtain ⟨hc, h⟩ := List.forall_mem_cons.mp h
    have hdot : c ≠ '.' := by
      rintro rfl
      cases hc
    rw [List.cons_append, addDots, if_neg hdot, ih h]

theorem addDots_plain (ho : option.bticks = 480) {k : ℕ} (hk : k + dots ≤ 6) (ticks : ℕ) :
    addDots option (List.replicate dots '.') (Int32.ofNat (2 ^ k)) (Int32.ofNat ticks) =
      .ok (Int32.ofNat
        (ticks + ((List.range dots).map fun i => WHOLE / 2 ^ (k + 1 + i)).sum)) := by
  induction dots generalizing k ticks with
  | zero => rfl
  | succ dots ih =>
    have hdouble : Int32.ofNat (2 ^ k) * 2 = Int32.ofNat (2 ^ (k + 1)) := by
      rw [pow_succ, Int32.ofNat_mul]
      rfl
    have hnext := ih (k := k + 1) (by omega) (ticks + WHOLE / 2 ^ (k + 1))
    rw [Int32.ofNat_add] at hnext
    rw [List.replicate_succ, addDots, if_pos rfl, hdouble, convert_plain ho (by omega)]
    refine hnext.trans ?_
    rw [List.range_succ_eq_map, List.map_cons, List.sum_cons, List.map_map, Nat.add_zero,
      Nat.add_assoc]
    simp only [Function.comp_def, Nat.succ_eq_add_one, Nat.add_assoc, Nat.add_comm 1]

theorem getNoteTicks_number (ho : option.bticks = 480) {length : Length}
    (hu : IsNumber length.number length.dots u) :
    getNoteTicks option u = .ok (Int32.ofNat length.ticks) := by
  rw [getNoteTicks, atoi_number hu, convert_length ho]
  obtain ⟨hne, hdigits, hvalue, hlength⟩ := hu
  change addDots option _ _ _ = _
  rw [addDots_digits hdigits]
  cases length with
  | none => rfl
  | triplet k h => rfl
  | plain k dots h =>
    have hsum : (Length.plain k dots h).undotted.ticks = WHOLE / 2 ^ k := by
      simp [Length.undotted, Length.ticks]
    rw [hsum]
    refine (addDots_plain ho h _).trans ?_
    rw [Length.ticks, List.range_succ_eq_map, List.map_cons, List.sum_cons, List.map_map]
    simp only [Function.comp_def, Nat.succ_eq_add_one, Nat.add_assoc, Nat.add_comm 1,
      Nat.add_zero]

end Numbers

/-! Commands. -/

/-- The option of a handle is that of the settings. -/
structure Agrees (s : Settings) (option : MmlOption) : Prop where
  octave : option.octave = Int32.ofNat s.octave
  octave_lt : s.octave < 10 ^ 6
  length : option.length = Int32.ofNat s.length.number
  undotted : s.length.undotted = s.length
  bticks : option.bticks = 480

/-- No number comes next, whatever there is: neither before a token nor at the end. -/
def Looks (left right : List ℕ) (t : List Char) : Prop :=
  ∀ h : Mml, h.rest = t → h.left = left → h.right = right →
    ∃ mr buf n, h.getToken = some (mr, buf, h.next n) ∧ getCharType (buf.headD '\x00') ≠ .number

section Commands

variable {s : Settings} {h : Mml} {c : Command} {n dots : ℕ} {given : Option Length}
  {t u : List Char}

theorem getToken_number (hu : IsNumber n dots u) (hrest : h.rest = u ++ t) (ht : Opens t) :
    h.getToken = some (.ok, u, h.next u.length) := by
  obtain ⟨hne, hdigits, hvalue, hlength⟩ := hu
  rename_i digits
  have htypes : ∀ c ∈ digits ++ List.replicate dots '.', getCharType c = .number := by
    intro c hc
    rcases List.mem_append.mp hc with hc | hc
    · exact getCharType_digit (hdigits c hc)
    · rw [List.eq_of_mem_replicate hc]
      rfl
  have hsingle : ¬ Single .number := by
    rintro (hsingle | hsingle | hsingle) <;> cases hsingle
  refine Mml.getToken_run hrest (List.append_ne_nil_of_left_ne_nil hne _) htypes nofun hsingle
    ht.toStops ht.number ?_
  rwa [List.length_append, List.length_replicate]

theorem getToken_value (hu : IsValue n dots u) (hrest : h.rest = u ++ t) (ht : Opens t) :
    ∃ w, IsNumber n dots w ∧ h.getToken = some (.ok, w, h.next u.length) := by
  obtain ⟨hspace, hw⟩ := hu
  rename_i space w
  rw [List.append_assoc] at hrest
  have hget := getToken_number hw (Mml.rest_append hrest) ht
  rw [Mml.next_next, ← List.length_append] at hget
  exact ⟨w, hw, (Mml.getToken_spaces hrest hspace).trans hget⟩

theorem headD_number {w : List Char} (hw : IsNumber n dots w) :
    getCharType (w.headD '\x00') = .number := by
  obtain ⟨hne, hdigits, hvalue, hlength⟩ := hw
  rename_i digits
  obtain ⟨d, digits, rfl⟩ := List.exists_cons_of_ne_nil hne
  exact getCharType_digit (hdigits d List.mem_cons_self)

/-- A value or a length starts with space or a digit. -/
theorem IsValue.head (hu : IsValue n dots u) :
    ∃ d v, u = d :: v ∧ (getCharType d = .unknown ∨ getCharType d = .number) := by
  obtain ⟨hspace, hw⟩ := hu
  rename_i space w
  cases space with
  | nil =>
    obtain ⟨hne, hdigits, hvalue, hlength⟩ := hw
    rename_i digits
    obtain ⟨d, digits, rfl⟩ := List.exists_cons_of_ne_nil hne
    exact ⟨d, _, rfl, .inr (getCharType_digit (hdigits d List.mem_cons_self))⟩
  | cons d space =>
    exact ⟨d, _, rfl, .inl (getCharType_whitespace (hspace d List.mem_cons_self))⟩

theorem IsValue.stops (hu : IsValue n dots u) (head : CharType) (hunknown : head ≠ .unknown)
    (hnumber : head ≠ .number) :
    Stops (u ++ t) ∧ ∀ c ∈ (u ++ t).head?, getCharType c ≠ head := by
  obtain ⟨d, v, rfl, hd⟩ := hu.head
  refine ⟨⟨List.cons_ne_nil _ _, ?_⟩, ?_⟩
  · rintro c ⟨⟩
    rcases hd with hd | hd <;> simp [isSharpOrFlat, hd]
  · rintro c ⟨⟩
    rcases hd with hd | hd
    · exact hd ▸ hunknown.symm
    · exact hd ▸ hnumber.symm

theorem fetchTicks_given (hu : IsTicks given u) (hrest : h.rest = u ++ t) (ht : Opens t)
    (hlook : Looks h.left h.right t) (hs : Agrees s h.option) (info : Int32 → Info) :
    ∃ call, h.fetchTicks (.ok info) =
      some ⟨some (info (.ofNat (given.getD s.length).ticks), call), .ok, h.next u.length⟩ := by
  cases hu with
  | none =>
    obtain ⟨mr, buf, n, hget, hhead⟩ := hlook h hrest rfl rfl
    have hdefault : getNoteTicksDefault (h.next n).option = .ok (.ofNat s.length.ticks) := by
      show convertNoteLengthToTicks h.option h.option.length = _
      rw [hs.length, convert_length hs.bticks, hs.undotted]
    unfold Mml.fetchTicks
    rw [hget, Option.map_some]
    dsimp only
    rw [if_neg hhead, hdefault]
    exact ⟨h.next n, rfl⟩
  | some hu =>
    obtain ⟨w, hw, hget⟩ := getToken_value hu hrest ht
    have hticks : getNoteTicks (h.next u.length).option w = .ok (Int32.ofNat _) :=
      getNoteTicks_number hs.bticks hw
    unfold Mml.fetchTicks
    rw [hget, Option.map_some]
    dsimp only
    rw [if_pos (headD_number hw), hticks]
    exact ⟨_, rfl⟩

theorem fetchValue_given (hu : IsValue n dots u) (hrest : h.rest = u ++ t) (ht : Opens t)
    (info : Int32 → Info) (set : Int32 → MmlOption → MmlOption) (illegal : Result) :
    ∃ call, h.fetchValue info set illegal = some ⟨some (info (.ofNat n), call), .ok,
      { h.next u.length with option := set (.ofNat n) h.option }⟩ := by
  obtain ⟨w, hw, hget⟩ := getToken_value hu hrest ht
  unfold Mml.fetchValue
  rw [hget, Option.map_some]
  dsimp only
  rw [if_pos (headD_number hw), atoi_number hw]
  exact ⟨_, rfl⟩

theorem ite_ne {α : Type*} {p : Prop} [Decidable p] {a b x : α} (ha : p → a ≠ x) (hb : b ≠ x) :
    (if p then a else b) ≠ x := by
  by_cases hp : p
  · rw [if_pos hp]
    exact ha hp
  · rwa [if_neg hp]

theorem eq_of_rest {d : Char} (hd : getCharType d = .rest) : d = 'R' := by
  by_contra hne
  refine absurd hd ?_
  unfold getCharType
  repeat' apply ite_ne
  all_goals first
    | exact fun _ => CharType.noConfusion
    | exact fun h => absurd h hne
    | exact CharType.noConfusion

theorem eq_of_octaveUp {d : Char} (hd : getCharType d = .octaveUp) : d = '>' := by
  by_contra hne
  refine absurd hd ?_
  unfold getCharType
  repeat' apply ite_ne
  all_goals first
    | exact fun _ => CharType.noConfusion
    | exact fun h => absurd h hne
    | exact CharType.noConfusion

theorem eq_of_octaveDown {d : Char} (hd : getCharType d = .octaveDown) : d = '<' := by
  by_contra hne
  refine absurd hd ?_
  unfold getCharType
  repeat' apply ite_ne
  all_goals first
    | exact fun _ => CharType.noConfusion
    | exact fun h => absurd h hne
    | exact CharType.noConfusion

/-- What would go on with the last token of a command does not follow it. -/
theorem Apart.head {d : Char} {head : CharType} (hapart : Apart u t) (hlast : u.getLast? = some d)
    (hd : d = 'R' ∨ d = '>' ∨ d = '<') (hhead : ∀ e, getCharType e = head → e = d) :
    ∀ e ∈ t.head?, getCharType e ≠ head := by
  intro e he htype
  obtain rfl := hhead e htype
  obtain ⟨hR, hup, hdown⟩ := hapart e hlast he
  rcases hd with hd | hd | hd
  · exact hR hd
  · exact hup hd
  · exact hdown hd

theorem IsTicks.stops (hu : IsTicks given u) (ht : Opens t) : Stops (u ++ t) := by
  cases hu with
  | none => exact ht.toStops
  | some hu =>
    exact (hu.stops .rest nofun nofun).1

/-- The token of a command that has a value. -/
theorem getToken_of_value {d : Char} (hd : getCharType d ∈ [CharType.rest, .tempo, .volume, .length,
      .octave, .userEventMarker]) (hrest : h.rest = d :: t) (ht : Stops t)
    (hapart : ∀ e ∈ t.head?, getCharType e ≠ getCharType d) :
    h.getToken = some (.ok, [d], h.next 1) := by
  have hall : ∀ head ∈ [CharType.rest, .tempo, .volume, .length, .octave, .userEventMarker],
      head ≠ .unknown ∧ ¬ Single head := by
    unfold Single
    decide
  obtain ⟨hunknown, hsingle⟩ := hall _ hd
  have hrest' : h.rest = [d] ++ t := hrest
  refine Mml.getToken_run hrest' (List.cons_ne_nil _ _) ?_ hunknown hsingle ht hapart ?_
  · intro e he
    rw [List.mem_singleton.mp he]
  · exact Nat.le_of_ble_eq_true rfl

/-- A run of steps of the octave. -/
theorem getToken_steps {d : Char} {head : CharType} {steps : ℕ} (hpos : 0 < steps)
    (hsteps : steps ≤ 6) (hd : d = '>' ∨ d = '<') (hhead : getCharType d = head)
    (hrest : h.rest = List.replicate steps d ++ t)
    (hapart : Apart (List.replicate steps d ++ []) t) (ht : Opens t) :
    h.getToken = some (.ok, List.replicate steps d, h.next (List.replicate steps d).length) := by
  have hlast : (List.replicate steps d ++ []).getLast? = some d := by
    rw [List.append_nil, List.getLast?_replicate, if_neg hpos.ne']
  have hne : List.replicate steps d ≠ [] := by
    rw [Ne, List.replicate_eq_nil_iff]
    exact hpos.ne'
  have hunique : ∀ e, getCharType e = head → e = d := by
    intro e he
    rcases hd with rfl | rfl
    · exact eq_of_octaveUp (he.trans hhead.symm)
    · exact eq_of_octaveDown (he.trans hhead.symm)
  have hkind : head ≠ .unknown ∧ ¬ Single head := by
    subst hhead
    unfold Single
    rcases hd with rfl | rfl <;> decide
  refine Mml.getToken_run hrest hne (fun e he => ?_) hkind.1 hkind.2 ht.toStops
    (hapart.head hlast (.inr hd) hunique) ?_
  · rw [List.eq_of_mem_replicate he, hhead]
  · rwa [List.length_replicate]

theorem getToken_command (hu : c.Argument u) (hapart : Apart (c.token ++ u) t)
    (hrest : h.rest = c.token ++ (u ++ t)) (ht : Opens t) :
    h.getToken = some (.ok, c.token, h.next c.token.length) := by
  cases hu with
  | @note letter accidentals _ _ ha hu =>
    have hletter : Single (getCharType letter.char) := by
      cases letter <;> exact .inl rfl
    have hsharps : ∀ d ∈ accidentals.map Accidental.char, isSharpOrFlat d = true := by
      intro d hd
      obtain ⟨a, -, rfl⟩ := List.mem_map.mp hd
      cases a <;> rfl
    have hget := Mml.getToken_single hrest hletter hsharps (hu.stops ht) (by simpa using ha)
    rwa [Nat.add_comm] at hget
  | rest hu =>
    refine getToken_of_value (by decide) hrest (hu.stops ht) ?_
    cases hu with
    | none => exact hapart.head rfl (.inl rfl) fun _ => eq_of_rest
    | some hu =>
      exact (hu.stops .rest nofun nofun).2
  | tempo hu =>
    obtain ⟨hstops, hhead⟩ := hu.stops (t := t) .tempo nofun nofun
    exact getToken_of_value (by decide) hrest hstops hhead
  | volume hu =>
    obtain ⟨hstops, hhead⟩ := hu.stops (t := t) .volume nofun nofun
    exact getToken_of_value (by decide) hrest hstops hhead
  | length hu =>
    obtain ⟨hstops, hhead⟩ := hu.stops (t := t) .length nofun nofun
    exact getToken_of_value (by decide) hrest hstops hhead
  | octave hu =>
    obtain ⟨hstops, hhead⟩ := hu.stops (t := t) .octave nofun nofun
    exact getToken_of_value (by decide) hrest hstops hhead
  | octaveUp hpos hsteps => exact getToken_steps hpos hsteps (.inl rfl) rfl hrest hapart ht
  | octaveDown hpos hsteps => exact getToken_steps hpos hsteps (.inr rfl) rfl hrest hapart ht
  | userEvent hname hlength =>
    refine getToken_of_value (by decide) hrest ⟨List.cons_ne_nil _ _, ?_⟩ ?_
    · rintro e ⟨⟩
      rfl
    · rintro e ⟨⟩
      decide

/-! What a command does. -/

theorem getNoteNumber_note {option : MmlOption} (hs : Agrees s option) (letter : Letter)
    (accidentals : List Accidental) :
    getNoteNumber option (letter.char :: accidentals.map Accidental.char) =
      .ok (.ofInt
        (12 * s.octave + letter.halfTones + (accidentals.map Accidental.halfTones).sum)) := by
  have hfold : ∀ (l : List Accidental) (z : ℤ), (l.map Accidental.char).foldl
      (fun number c => if c = '+' then number + 1 else if c = '-' then number - 1 else number)
      (Int32.ofInt z) = Int32.ofInt (z + (l.map Accidental.halfTones).sum) := by
    intro l
    induction l with
    | nil =>
      intro z
      simp
    | cons a l ih =>
      intro z
      rw [List.map_cons, List.foldl_cons, List.map_cons, List.sum_cons, ← add_assoc, ← ih]
      congr 1
      cases a
      · exact (Int32.ofInt_add z 1).symm
      · exact (Int32.ofInt_sub z 1).symm
  have hletter : "C D EF G A B".toList.idxOf? letter.char = some letter.halfTones := by
    cases letter <;> rfl
  unfold getNoteNumber
  rw [List.headD_cons, hletter]
  dsimp only
  rw [List.tail_cons, ← Int32.ofInt_eq_ofNat, hfold, hs.octave, ← Int32.ofInt_eq_ofNat,
    show (12 : Int32) = Int32.ofInt 12 from rfl, ← Int32.ofInt_mul, ← Int32.ofInt_add]
  congr 2
  ring

theorem foldl_octaveUp (d : Char) (steps : ℕ) {octave : ℕ} (hlt : octave < 10 ^ 6) :
    (List.replicate steps d).foldl (fun octave _ => Mml.octaveUp octave) (Int32.ofNat octave) =
      Int32.ofNat (max octave (min 10 (octave + steps))) := by
  induction steps generalizing octave with
  | zero =>
    rw [List.replicate_zero, List.foldl_nil]
    congr 1
    omega
  | succ steps ih =>
    have hstep : Mml.octaveUp (Int32.ofNat octave) =
        Int32.ofNat (if octave < 10 then octave + 1 else octave) := by
      have hiff : Int32.ofNat octave < MML_OCTAVE_MAX ↔ octave < 10 :=
        Int32.ofNat_lt_iff_lt (by omega) (by decide)
      unfold Mml.octaveUp
      by_cases h : octave < 10
      · rw [if_pos (hiff.mpr h), if_pos h, Int32.ofNat_add]
        rfl
      · rw [if_neg (mt hiff.mp h), if_neg h]
    rw [List.replicate_succ, List.foldl_cons, hstep, ih (by split <;> omega)]
    congr 1
    split <;> omega

theorem foldl_octaveDown (d : Char) (steps : ℕ) {octave : ℕ} (hlt : octave < 10 ^ 6) :
    (List.replicate steps d).foldl (fun octave _ => Mml.octaveDown octave) (Int32.ofNat octave) =
      Int32.ofNat (octave - steps) := by
  induction steps generalizing octave with
  | zero => rfl
  | succ steps ih =>
    have hstep : Mml.octaveDown (Int32.ofNat octave) = Int32.ofNat (octave - 1) := by
      have hiff : MML_OCTAVE_MIN < Int32.ofNat octave ↔ 0 < octave :=
        Int32.ofNat_lt_iff_lt (by decide) (by omega)
      unfold Mml.octaveDown
      by_cases h : 0 < octave
      · rw [if_pos (hiff.mpr h), Int32.ofNat_sub _ _ h]
        rfl
      · rw [if_neg (mt hiff.mp h)]
        congr 1
        omega
    rw [List.replicate_succ, List.foldl_cons, hstep, ih (by omega)]
    congr 1
    omega

theorem readName_name {name : List Char} (hname : ∀ c ∈ name, c ≠ '}' ∧ c ≠ '\x00') {cnt : ℕ}
    (hlength : cnt + name.length ≤ 14) :
    readName cnt (name ++ '}' :: t) = some (.ok, name.length + 1, name) := by
  induction name generalizing cnt with
  | nil =>
    cases t with
    | nil => rfl
    | cons d t => exact if_pos rfl
  | cons c name ih =>
    obtain ⟨⟨hbrace, -⟩, hname⟩ := List.forall_mem_cons.mp hname
    rw [List.length_cons] at hlength
    have hnext : readName (cnt + 1) (name ++ '}' :: t) = _ := ih hname (by omega)
    have hroom : ¬ MML_USER_EVENT_NAME_SIZE ≤ cnt + 1 + 1 := by
      unfold MML_USER_EVENT_NAME_SIZE
      omega
    obtain ⟨d, cs, hcs, hd⟩ : ∃ d cs, name ++ '}' :: t = d :: cs ∧ d ≠ '\x00' := by
      cases name with
      | nil => exact ⟨_, _, rfl, by decide⟩
      | cons d name => exact ⟨d, _, rfl, (hname d List.mem_cons_self).2⟩
    rw [List.cons_append, hcs, readName, if_neg hbrace, if_neg hd, if_neg hroom, ← hcs, hnext]
    rfl

/-- The value of a number in a token. -/
theorem IsNumber.lt (hu : IsNumber n dots u) : n < 10 ^ 6 := by
  obtain ⟨hne, hdigits, rfl, hlength⟩ := hu
  rename_i digits
  have hbound : ∀ (cs : List Char) (init : ℕ), (∀ c ∈ cs, c.isDigit = true) →
      Nat.ofDigitChars 10 cs init < 10 ^ cs.length * (init + 1) := by
    intro cs
    induction cs with
    | nil =>
      intro init _
      simp
    | cons c cs ih =>
      intro init hcs
      obtain ⟨hc, hcs⟩ := List.forall_mem_cons.mp hcs
      have hhigh : c.toNat ≤ 57 := by
        simp only [Char.isDigit, ge_iff_le, Bool.and_eq_true, decide_eq_true_eq] at hc
        exact hc.2
      have hzero : '0'.toNat = 48 := rfl
      rw [Nat.ofDigitChars_cons, List.length_cons, pow_succ, Nat.mul_assoc]
      refine (ih _ hcs).trans_le (Nat.mul_le_mul_left _ ?_)
      omega
  have hlt := hbound digits 0 hdigits
  rw [Nat.zero_add, Nat.mul_one] at hlt
  exact hlt.trans_le (Nat.pow_le_pow_right (by decide) (by omega))

theorem IsValue.lt (hu : IsValue n dots u) : n < 10 ^ 6 := by
  obtain ⟨-, hw⟩ := hu
  exact hw.lt

theorem Length.undotted_number (length : Length) : length.undotted.number = length.number := by
  cases length <;> rfl

theorem Length.undotted_undotted (length : Length) :
    length.undotted.undotted = length.undotted := by
  cases length <;> rfl

/-- A fetch at a command calls back what it means, and leaves the handle behind it. -/
theorem fetch_command (hstate : h.state = .fetchReady) (hu : c.Argument u)
    (hrest : h.rest = c.token ++ (u ++ t)) (hapart : Apart (c.token ++ u) t) (ht : Opens t)
    (hlook : Looks h.left h.right t) (hs : Agrees s h.option) :
    ∃ call option, Agrees (c.meaning s).2 option ∧
      h.fetch = some ⟨some ((c.meaning s).1, call), .ok,
        { h.next (c.token.length + u.length) with option := option }⟩ := by
  have hget := getToken_command hu hapart hrest ht
  have hafter := Mml.rest_append hrest
  cases hu with
  | @note letter accidentals given u ha hu =>
    have hfetch :
        h.fetch = (h.next (letter.char :: accidentals.map Accidental.char).length).fetchTicks
        ((getNoteNumber h.option (letter.char :: accidentals.map Accidental.char)).map
          Info.note) := by
      rw [Mml.fetch, if_neg (not_not.mpr hstate), hget]
      cases letter <;> rfl
    obtain ⟨call, hcall⟩ := fetchTicks_given hu hafter ht hlook hs
      (Info.note (.ofInt
        (12 * s.octave + letter.halfTones + (accidentals.map Accidental.halfTones).sum)))
    refine ⟨call, h.option, hs, ?_⟩
    rw [hfetch, getNoteNumber_note hs]
    refine hcall.trans ?_
    rw [Mml.next_next]
    rfl
  | rest hu =>
    have hfetch : h.fetch = (h.next 1).fetchTicks (.ok .rest) := by
      rw [Mml.fetch, if_neg (not_not.mpr hstate), hget]
      rfl
    obtain ⟨call, hcall⟩ := fetchTicks_given hu hafter ht hlook hs .rest
    refine ⟨call, h.option, hs, ?_⟩
    rw [hfetch]
    refine hcall.trans ?_
    rw [Mml.next_next]
    rfl
  | tempo hu =>
    obtain ⟨call, hcall⟩ := fetchValue_given hu hafter ht .tempo (fun _ option => option)
      .illegalTempoValue
    refine ⟨call, h.option, hs, ?_⟩
    rw [Mml.fetch, if_neg (not_not.mpr hstate), hget]
    refine hcall.trans ?_
    rw [Mml.next_next]
    rfl
  | volume hu =>
    obtain ⟨call, hcall⟩ := fetchValue_given hu hafter ht .volume (fun _ option => option)
      .illegalVolumeValue
    refine ⟨call, h.option, hs, ?_⟩
    rw [Mml.fetch, if_neg (not_not.mpr hstate), hget]
    refine hcall.trans ?_
    rw [Mml.next_next]
    rfl
  | @length value u hu =>
    obtain ⟨call, hcall⟩ := fetchValue_given hu hafter ht .length
      (fun value option => { option with length := value }) .illegalLengthValue
    refine ⟨call, { h.option with length := .ofNat value.number }, ?_, ?_⟩
    · refine ⟨hs.octave, hs.octave_lt, ?_, value.undotted_undotted, hs.bticks⟩
      exact congrArg Int32.ofNat value.undotted_number.symm
    · rw [Mml.fetch, if_neg (not_not.mpr hstate), hget]
      refine hcall.trans ?_
      rw [Mml.next_next]
      rfl
  | @octave value u hu =>
    obtain ⟨call, hcall⟩ := fetchValue_given hu hafter ht .octave
      (fun value option => { option with octave := value }) .illegalOctaveValue
    refine ⟨call, { h.option with octave := .ofNat value }, ?_, ?_⟩
    · exact ⟨rfl, hu.lt, hs.length, hs.undotted, hs.bticks⟩
    · rw [Mml.fetch, if_neg (not_not.mpr hstate), hget]
      refine hcall.trans ?_
      rw [Mml.next_next]
      rfl
  | @octaveUp steps hpos hsteps =>
    let h₁ := Mml.stepOctave Mml.octaveUp (h.next (List.replicate steps '>').length)
      (List.replicate steps '>')
    have hfetch : h.fetch = some (.calls (.octaveUp h₁.option.octave) .ok h₁) := by
      rw [Mml.fetch, if_neg (not_not.mpr hstate), hget]
      cases steps with
      | zero => cases hpos
      | succ steps => rfl
    have hoctave : h₁.option.octave = .ofNat ((Command.octaveUp steps).meaning s).2.octave := by
      show (List.replicate steps '>').foldl _ h.option.octave = _
      rw [hs.octave]
      exact foldl_octaveUp '>' steps hs.octave_lt
    refine ⟨h₁, h₁.option, ⟨hoctave, ?_, hs.length, hs.undotted, hs.bticks⟩, ?_⟩
    · have hlt := hs.octave_lt
      dsimp only [Command.meaning]
      omega
    · rw [hfetch, hoctave]
      rfl
  | @octaveDown steps hpos hsteps =>
    let h₁ := Mml.stepOctave Mml.octaveDown (h.next (List.replicate steps '<').length)
      (List.replicate steps '<')
    have hfetch : h.fetch = some (.calls (.octaveDown h₁.option.octave) .ok h₁) := by
      rw [Mml.fetch, if_neg (not_not.mpr hstate), hget]
      cases steps with
      | zero => cases hpos
      | succ steps => rfl
    have hoctave : h₁.option.octave = .ofNat ((Command.octaveDown steps).meaning s).2.octave := by
      show (List.replicate steps '<').foldl _ h.option.octave = _
      rw [hs.octave]
      exact foldl_octaveDown '<' steps hs.octave_lt
    refine ⟨h₁, h₁.option, ⟨hoctave, ?_, hs.length, hs.undotted, hs.bticks⟩, ?_⟩
    · have hlt := hs.octave_lt
      dsimp only [Command.meaning]
      omega
    · rw [hfetch, hoctave]
      rfl
  | @userEvent name hname hlength =>
    have hname : (h.next 1).getUserEventToken =
        some (.ok, name, (h.next 1).next (1 + (name.length + 1))) := by
      have hcs : (h.next 1).rest = '{' :: (name ++ '}' :: t) := by
        refine hafter.trans ?_
        rw [List.cons_append, List.append_assoc]
        rfl
      rw [Mml.getUserEventToken, hcs]
      dsimp only
      rw [if_neg (not_not.mpr rfl), readName_name hname (by omega)]
      rfl
    refine ⟨h.next (1 + (1 + (name.length + 1))), h.option, hs, ?_⟩
    rw [Mml.fetch, if_neg (not_not.mpr hstate), hget]
    change ((h.next 1).getUserEventToken.bind _) = _
    rw [hname, Mml.next_next]
    have hlength : (1 + (1 + (name.length + 1))) =
        (Command.userEvent name).token.length + ('{' :: (name ++ ['}'])).length := by
      simp [Command.token]
      omega
    rw [hlength]
    rfl

end Commands

end Bipscript.Tinymml
