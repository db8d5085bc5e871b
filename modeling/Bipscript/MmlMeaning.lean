import Bipscript.Library.Run
import Bipscript.MmlReads
import Bipscript.MmlTokens

/-! The parser does what the program means that a text spells: each command once, and what is in
brackets twice. -/
namespace Bipscript.Tinymml

open Transition

/-- A fetch that another one follows. -/
def Fetches (h : Mml) (call : Option (Info × Mml)) (h' : Mml) : Prop :=
  h.fetch = some ⟨call, .ok, h'⟩

/-- What may stand after a program. -/
structure Closes (left right : List ℕ) (t : List Char) : Prop extends Opens t where
  apart : ∀ c ∈ t.head?, c ≠ 'R' ∧ c ≠ '>' ∧ c ≠ '<'
  looks : Looks left right t

section Texts

variable {h : Mml} {c : Command} {p : Program} {left right : List ℕ} {space t u v : List Char}

theorem getToken_end (hrest : h.rest = ['\x00']) (hleft : h.left = []) (hright : h.right = []) :
    h.getToken = some (.eot, [], h) := by
  have hskip : h.skipWhitespace = h := by
    rw [Mml.skipWhitespace, hrest]
    rfl
  have hend : h.endOfText = (.eot, h) := by rw [Mml.endOfText, hleft, hright]
  rw [Mml.getToken, hskip]
  dsimp only
  rw [hrest]
  dsimp only
  rw [if_pos rfl, hend]

theorem closes_end : Closes [] [] ['\x00'] := by
  refine ⟨⟨⟨List.cons_ne_nil _ _, ?_⟩, ?_⟩, ?_, ?_⟩
  · rintro c ⟨⟩
    rfl
  · rintro c ⟨⟩
    decide
  · rintro c ⟨⟩
    decide
  · intro h hrest hleft hright
    exact ⟨.eot, [], 0, getToken_end hrest hleft hright, by decide⟩

theorem closes_bracket (ht : Stops t) (left right : List ℕ) : Closes left right (']' :: t) := by
  refine ⟨⟨⟨List.cons_ne_nil _ _, ?_⟩, ?_⟩, ?_, ?_⟩
  · rintro c ⟨⟩
    rfl
  · rintro c ⟨⟩
    decide
  · rintro c ⟨⟩
    decide
  · intro h hrest hleft hright
    exact ⟨.ok, [']'], 1, Mml.getToken_bracket hrest (.inr (.inr rfl)) ht, by decide⟩

theorem opens_cons {d : Char} (hd : getCharType d ∉ [CharType.sharp, .flat, .number]) :
    Opens (d :: t) := by
  simp only [List.mem_cons, List.not_mem_nil, or_false, not_or] at hd
  refine ⟨⟨List.cons_ne_nil _ _, ?_⟩, ?_⟩
  · rintro e ⟨⟩
    simp [isSharpOrFlat, hd.1, hd.2.1]
  · rintro e ⟨⟩
    exact hd.2.2

/-- The first character of a command. -/
theorem Command.Argument.head (hu : c.Argument u) :
    ∃ d w, c.token = d :: w ∧
      getCharType d ∉ [CharType.sharp, .flat, .number, .repeatRight, .unknown] := by
  cases hu with
  | @note letter accidentals _ _ ha hu =>
    refine ⟨letter.char, _, rfl, ?_⟩
    cases letter <;> decide
  | @octaveUp steps hpos hsteps =>
    obtain ⟨steps, rfl⟩ : ∃ n, steps = n + 1 := ⟨steps - 1, by omega⟩
    exact ⟨'>', List.replicate steps '>', rfl, by decide⟩
  | @octaveDown steps hpos hsteps =>
    obtain ⟨steps, rfl⟩ : ∃ n, steps = n + 1 := ⟨steps - 1, by omega⟩
    exact ⟨'<', List.replicate steps '<', rfl, by decide⟩
  | _ => exact ⟨_, _, rfl, by decide⟩

theorem Spells.opens (hu : Spells p u) (ht : Opens t) : Opens (u ++ t) := by
  cases hu with
  | done => exact ht
  | space hc hu =>
    refine opens_cons ?_
    rw [getCharType_whitespace hc]
    decide
  | command hu hapart hv =>
    obtain ⟨d, w, hd, htype⟩ := hu.head
    rw [hd]
    refine opens_cons fun hmem => htype ?_
    simp only [List.mem_cons, List.not_mem_nil, or_false] at hmem ⊢
    tauto
  | repeats hu hv => exact opens_cons (by decide)

theorem Apart.append (hapart : Apart u v) (ht : Closes left right t) : Apart u (v ++ t) := by
  intro c hlast hc
  cases v with
  | nil => exact ht.apart c hc
  | cons d v => exact hapart c hlast hc

/-- A bracket, with more of the text after it. -/
theorem stops_bracket (hu : Spells p u) (t : List Char) : Stops (u ++ ']' :: t) :=
  (hu.opens (opens_cons (by decide))).toStops

theorem Spells.looks (hu : Spells p u) (ht : Closes left right t) : Looks left right (u ++ t) := by
  induction hu with
  | done => exact ht.looks
  | @space p c u hc hu ih =>
    intro h hrest hleft hright
    have hnext : (h.next 1).rest = u ++ t := by
      rw [Mml.rest_next, hrest]
      rfl
    obtain ⟨mr, buf, n, hget, hhead⟩ := ih (h.next 1) hnext hleft hright
    refine ⟨mr, buf, 1 + n, ?_, hhead⟩
    rw [Mml.getToken_space hrest hc, hget, Mml.next_next]
  | @command c next u v hu hapart hv ih =>
    intro h hrest hleft hright
    rw [List.append_assoc, List.append_assoc] at hrest
    have hget := getToken_command hu (hapart.append ht) hrest (hv.opens ht.toOpens)
    refine ⟨_, _, _, hget, ?_⟩
    obtain ⟨d, w, hd, htype⟩ := hu.head
    rw [hd, List.headD_cons]
    intro hnumber
    exact htype (by rw [hnumber]; decide)
  | @repeats body next u v hu hv ihu ihv =>
    intro h hrest hleft hright
    rw [List.cons_append, List.append_assoc, List.cons_append] at hrest
    exact ⟨.ok, ['['], 1, Mml.getToken_bracket hrest (.inr (.inl rfl)) (stops_bracket hu _),
      by decide⟩

end Texts

namespace Mml

variable {h : Mml} {p : ℕ} {left right : List ℕ} {space t : List Char}

theorem fetch_spaces (hstate : h.state = .fetchReady) (hrest : h.rest = space ++ t)
    (hspace : ∀ c ∈ space, isWhitespace c = true) : h.fetch = (h.next space.length).fetch := by
  have hstate' : (h.next space.length).state = .fetchReady := hstate
  rw [fetch, fetch, getToken_spaces hrest hspace, if_neg (not_not.mpr hstate),
    if_neg (not_not.mpr hstate')]

theorem rest_congr {h' : Mml} (htext : h'.text = h.text) (htp : h'.tp = h.tp) :
    h'.rest = h.rest := by
  rw [rest, rest, cells, cells, htext, htp]

/-- A left bracket is kept. -/
theorem fetch_left (hstate : h.state = .fetchReady) (hrest : h.rest = '[' :: t) (ht : Stops t)
    (hroom : h.left.length < 8) :
    Fetches h none { h.next 1 with left := h.tp :: h.left } := by
  have hget := getToken_bracket hrest (.inr (.inl rfl)) ht
  have hrsp : (h.next 1).tp - 1 = h.tp := Nat.add_sub_cancel ..
  have hpush : stackPush (h.next 1).left h.tp = some (h.tp :: h.left) := if_neg hroom.ne
  have hfetch : h.fetch = some (h.next 1).repeatLeft := by
    rw [fetch, if_neg (not_not.mpr hstate), hget]
    rfl
  rw [Fetches, hfetch, repeatLeft, hrsp, hpush]
  rfl

theorem fetch_bracket (hstate : h.state = .fetchReady) (hrest : h.rest = ']' :: t)
    (ht : Stops t) : h.fetch = some (h.next 1).repeatRight := by
  rw [fetch, if_neg (not_not.mpr hstate), getToken_bracket hrest (.inr (.inr rfl)) ht]
  rfl

/-- The first time at a right bracket. -/
theorem fetch_back (hstate : h.state = .fetchReady) (hrest : h.rest = ']' :: t) (ht : Stops t)
    (hleft : h.left = p :: left) (hright : ∀ r ∈ h.right, h.tp < r) (hroom : h.right.length < 8) :
    Fetches h none { h with tp := p + 1, left := left, right := h.tp :: h.right } := by
  have hrsp : (h.next 1).tp - 1 = h.tp := Nat.add_sub_cancel ..
  have hjump : ∀ right, ({ h.next 1 with right := right }).jumpBack =
      .returns .ok { h with tp := p + 1, left := left, right := right } := by
    intro right
    have hleft' : ({ h.next 1 with right := right } : Mml).left = p :: left := hleft
    rw [jumpBack, hleft']
    rfl
  rw [Fetches, fetch_bracket hstate hrest ht, repeatRight, hrsp]
  cases hr : h.right with
  | nil =>
    have hr' : (h.next 1).right = [] := hr
    rw [hr']
    exact congrArg some (hjump [h.tp])
  | cons q right =>
    have hr' : (h.next 1).right = q :: right := hr
    have hne : h.tp ≠ q := by
      have hlt := hright q (hr ▸ List.mem_cons_self)
      omega
    have hpush : stackPush (q :: right) h.tp = some (h.tp :: q :: right) :=
      if_neg (hr ▸ hroom.ne)
    rw [hr']
    dsimp only
    rw [if_neg hne, hpush]
    exact congrArg some (hjump (h.tp :: q :: right))

/-- The second time at a right bracket. -/
theorem fetch_on (hstate : h.state = .fetchReady) (hrest : h.rest = ']' :: t) (ht : Stops t)
    (hright : h.right = h.tp :: right) : Fetches h none { h.next 1 with right := right } := by
  have hrsp : (h.next 1).tp - 1 = h.tp := Nat.add_sub_cancel ..
  have hright' : (h.next 1).right = h.tp :: right := hright
  rw [Fetches, fetch_bracket hstate hrest ht, repeatRight, hrsp, hright']
  dsimp only
  rw [if_pos rfl]
  rfl

end Mml

/-! Whole programs. -/

/-- From a handle the parser gets to another, at most before some space at the end of a program,
with these callbacks. -/
structure Reaches (h : Mml) (infos : List Info) (s : Settings) (stop : ℕ) (t : List Char)
    (h' : Mml) : Prop where
  run : ∃ calls, Run Fetches h calls h' ∧ calls.reduceOption.map Prod.fst = infos
  agrees : Agrees s h'.option
  handle : h' = { h with tp := h'.tp, option := h'.option }
  space : ∃ space, h'.rest = space ++ t ∧ (∀ c ∈ space, isWhitespace c = true) ∧
    h'.tp + space.length = stop

/-- A handle before a program that ends where `t` starts. -/
structure Before (h : Mml) (p : Program) (s : Settings) (stop : ℕ) (t : List Char) : Prop where
  state : h.state = .fetchReady
  agrees : Agrees s h.option
  closes : Closes h.left h.right t
  left : h.left.length + p.depth ≤ 8
  right : h.right.length + p.depth ≤ 8
  after : ∀ r ∈ h.right, stop ≤ r

/-- Wherever the text is, the parser does what the program means. -/
def Goes (p : Program) (u : List Char) : Prop :=
  ∀ (h : Mml) (s : Settings) (space t : List Char),
    Before h p s (h.tp + space.length + u.length) t → h.rest = space ++ (u ++ t) →
    (∀ c ∈ space, isWhitespace c = true) →
    ∃ h', Reaches h (p.meaning s).1 (p.meaning s).2 (h.tp + space.length + u.length) t h'

section Programs

variable {h h₁ h₂ : Mml} {c : Command} {p body next : Program} {s : Settings} {infos : List Info}
  {stop : ℕ} {t u v : List Char}

/-- The next thing after a program. -/
theorem Reaches.fetches {call : Option (Info × Mml)} (hr : Reaches h infos s stop t h₁)
    (hstate : h.state = .fetchReady) (hf : Fetches { h₁ with tp := stop } call h₂) :
    Fetches h₁ call h₂ := by
  obtain ⟨space, hrest, hspace, hstop⟩ := hr.space
  have hstate₁ : h₁.state = .fetchReady := by
    rw [hr.handle]
    exact hstate
  have hnext : h₁.next space.length = { h₁ with tp := stop } := by rw [Mml.next, hstop]
  unfold Fetches
  rw [Mml.fetch_spaces hstate₁ hrest hspace, hnext]
  exact hf

theorem Reaches.rest (hr : Reaches h infos s stop t h₁) :
    ({ h₁ with tp := stop } : Mml).rest = t := by
  obtain ⟨space, hrest, -, hstop⟩ := hr.space
  rw [← hstop]
  exact Mml.rest_append hrest

/-- A command, then more. -/
theorem Reaches.cons {call : Option (Info × Mml)} (hf : Fetches h call h₁)
    (hsame : h₁ = { h with tp := h₁.tp, option := h₁.option })
    (hr : Reaches h₁ infos s stop t h₂) :
    Reaches h (call.toList.map Prod.fst ++ infos) s stop t h₂ := by
  obtain ⟨calls, hrun, rfl⟩ := hr.run
  refine ⟨⟨call :: calls, .stepL hf hrun, ?_⟩, hr.agrees, ?_, hr.space⟩
  · cases call <;> rfl
  · rw [hr.handle, hsame]

/-- The body of a repeat twice, then more: `e` is where its right bracket is. -/
theorem Reaches.twice {h₃ h₄ h₅ h₆ : Mml} {infos₁ infos₂ : List Info} {s₁ s₂ : Settings} {e : ℕ}
    {t' : List Char} (hleft : Fetches h none h₁) (hbody : Reaches h₁ infos₁ s₁ e t' h₂)
    (hback : Fetches h₂ none h₃) (hagain : Reaches h₃ infos₂ s₂ e t' h₄)
    (hon : Fetches h₄ none h₅) (hr : Reaches h₅ infos s stop t h₆)
    (hsame : h₅ = { h with tp := h₅.tp, option := h₅.option }) :
    Reaches h (infos₁ ++ infos₂ ++ infos) s stop t h₆ := by
  obtain ⟨calls₁, hrun₁, rfl⟩ := hbody.run
  obtain ⟨calls₂, hrun₂, rfl⟩ := hagain.run
  obtain ⟨calls, hrun, rfl⟩ := hr.run
  refine ⟨⟨none :: (calls₁ ++ none :: (calls₂ ++ none :: calls)), ?_, ?_⟩, hr.agrees, ?_, hr.space⟩
  · exact .stepL hleft (hrun₁.append (.stepL hback (hrun₂.append (.stepL hon hrun))))
  · simp [List.reduceOption]
  · rw [hr.handle, hsame]

theorem goes_done : Goes .done [] :=
  fun h _ space _ hb hrest hspace =>
    ⟨h, ⟨[], .refl, rfl⟩, hb.agrees, rfl, space, hrest, hspace, rfl⟩

theorem goes_space {d : Char} (hd : isWhitespace d = true) (hgoes : Goes p u) :
    Goes p (d :: u) := by
  intro h s space t hb hrest hspace
  have hstop : h.tp + space.length + (d :: u).length = h.tp + (space ++ [d]).length + u.length := by
    simp only [List.length_append, List.length_cons, List.length_nil]
    omega
  rw [hstop] at hb ⊢
  refine hgoes h s (space ++ [d]) t hb ?_ ?_
  · rw [hrest, List.append_assoc]
    rfl
  · intro e he
    rcases List.mem_append.mp he with he | he
    · exact hspace e he
    · rwa [List.mem_singleton.mp he]

theorem goes_command (hu : c.Argument u) (hapart : Apart (c.token ++ u) v) (hv : Spells next v)
    (hgoes : Goes next v) : Goes (.command c next) (c.token ++ (u ++ v)) := by
  intro h s space t hb hrest hspace
  have hat : (h.next space.length).rest = c.token ++ (u ++ (v ++ t)) := by
    have hat := Mml.rest_append hrest
    rwa [List.append_assoc, List.append_assoc] at hat
  obtain ⟨call, option, hs, hfetch⟩ := fetch_command (h := h.next space.length) hb.state hu hat
    (hapart.append hb.closes) (hv.opens hb.closes.toOpens) (hv.looks hb.closes) hb.agrees
  rw [← Mml.fetch_spaces hb.state hrest hspace] at hfetch
  let h₁ : Mml :=
    { h with tp := h.tp + space.length + (c.token.length + u.length), option := option }
  have hrest₁ : h₁.rest = [] ++ (v ++ t) := by
    have hsame : h₁.rest = ((h.next space.length).next (c.token.length + u.length)).rest :=
      Mml.rest_congr rfl rfl
    rw [hsame, Mml.rest_next, hat, ← List.length_append, ← List.append_assoc, List.drop_left]
    rfl
  have hstop : h.tp + space.length + (c.token ++ (u ++ v)).length =
      h₁.tp + ([] : List Char).length + v.length := by
    simp only [List.length_append, List.length_nil, h₁]
    omega
  have hafter := hb.after
  rw [hstop] at hafter ⊢
  obtain ⟨h', hreaches⟩ := hgoes h₁ _ [] t ⟨hb.state, hs, hb.closes, hb.left, hb.right, hafter⟩
    hrest₁ (fun _ he => nomatch he)
  exact ⟨h', hreaches.cons hfetch rfl⟩

theorem goes_repeats (hu : Spells body u) (hv : Spells next v) (hbody : Goes body u)
    (hnext : Goes next v) : Goes (.repeats body next) ('[' :: (u ++ ']' :: v)) := by
  intro h s space t hb hrest hspace
  have hat : (h.next space.length).rest = '[' :: (u ++ ']' :: (v ++ t)) := by
    have hat := Mml.rest_append hrest
    rwa [List.cons_append, List.append_assoc, List.cons_append] at hat
  have hstops : Stops (v ++ t) := (hv.opens hb.closes.toOpens).toStops
  have hdepth : body.depth + 1 ≤ (Program.repeats body next).depth := le_max_left ..
  have hdepth' : next.depth ≤ (Program.repeats body next).depth := le_max_right ..
  have hleft := hb.left
  have hright := hb.right
  generalize hstart : h.tp + space.length = b at hb
  have hstop : b + ('[' :: (u ++ ']' :: v)).length = b + 1 + u.length + 1 + 0 + v.length := by
    simp only [List.length_append, List.length_cons]
    omega
  have hafter := hb.after
  rw [hstop] at hafter ⊢
  -- the first time through the body
  let h₁ : Mml := { h with tp := b + 1, left := b :: h.left }
  have hfirst : Fetches h none h₁ := by
    have hfetch := Mml.fetch_left (h := h.next space.length) hb.state hat (stops_bracket hu _)
      (show h.left.length < 8 by omega)
    rw [Fetches, ← Mml.fetch_spaces hb.state hrest hspace] at hfetch
    subst hstart
    exact hfetch
  have hrest₁ : h₁.rest = [] ++ (u ++ ']' :: (v ++ t)) := by
    have hsame : h₁.rest = ((h.next space.length).next 1).rest :=
      Mml.rest_congr rfl (by subst hstart; rfl)
    rw [hsame, Mml.rest_next, hat]
    rfl
  obtain ⟨h₂, hreaches₂⟩ := hbody h₁ s [] (']' :: (v ++ t))
    ⟨hb.state, hb.agrees, closes_bracket hstops _ _, show h.left.length + 1 + _ ≤ 8 by omega,
      show h.right.length + _ ≤ 8 by omega,
      fun r hr => by
        have hle := hafter r hr
        show b + 1 + 0 + u.length ≤ r
        omega⟩ hrest₁ (fun _ he => nomatch he)
  obtain ⟨tp₂, option₂, rfl⟩ : ∃ tp option, h₂ = { h₁ with tp := tp, option := option } :=
    ⟨_, _, hreaches₂.handle⟩
  -- back, and through the body again
  let e := b + 1 + 0 + u.length
  let h₃ : Mml := { h with tp := b + 1, option := option₂, right := e :: h.right }
  have hback : Fetches { h₁ with tp := tp₂, option := option₂ } none h₃ := by
    refine hreaches₂.fetches hb.state ?_
    refine Mml.fetch_back hb.state hreaches₂.rest hstops rfl (fun r hr => ?_)
      (show h.right.length < 8 by omega)
    have hle := hafter r hr
    show b + 1 + 0 + u.length < r
    omega
  have hrest₃ : h₃.rest = [] ++ (u ++ ']' :: (v ++ t)) :=
    (Mml.rest_congr (h := h₁) rfl rfl).trans hrest₁
  obtain ⟨h₄, hreaches₄⟩ := hbody h₃ (body.meaning s).2 [] (']' :: (v ++ t))
    ⟨hb.state, hreaches₂.agrees, closes_bracket hstops _ _, show h.left.length + _ ≤ 8 by omega,
      show h.right.length + 1 + _ ≤ 8 by omega,
      fun r hr => by
        rcases List.mem_cons.mp hr with rfl | hr
        · exact le_refl _
        · have hle := hafter r hr
          show b + 1 + 0 + u.length ≤ r
          omega⟩ hrest₃ (fun _ he => nomatch he)
  obtain ⟨tp₄, option₄, rfl⟩ : ∃ tp option, h₄ = { h₃ with tp := tp, option := option } :=
    ⟨_, _, hreaches₄.handle⟩
  -- on, and through the rest
  let h₅ : Mml := { h with tp := e + 1, option := option₄ }
  have hon : Fetches { h₃ with tp := tp₄, option := option₄ } none h₅ :=
    hreaches₄.fetches hb.state (Mml.fetch_on hb.state hreaches₄.rest hstops rfl)
  have hrest₅ : h₅.rest = [] ++ (v ++ t) := by
    have hsame : h₅.rest = (({ h₃ with tp := e, option := option₄ } : Mml).next 1).rest :=
      Mml.rest_congr rfl rfl
    have hbracket : ({ h₃ with tp := e, option := option₄ } : Mml).rest = ']' :: (v ++ t) :=
      hreaches₄.rest
    rw [hsame, Mml.rest_next, hbracket]
    rfl
  obtain ⟨h₆, hreaches₆⟩ := hnext h₅ _ [] t
    ⟨hb.state, hreaches₄.agrees, hb.closes, show h.left.length + _ ≤ 8 by omega,
      show h.right.length + _ ≤ 8 by omega, fun r hr => by
        have hle := hafter r hr
        show b + 1 + 0 + u.length + 1 + 0 + v.length ≤ r
        omega⟩ hrest₅ (fun _ he => nomatch he)
  refine ⟨h₆, ?_⟩
  have htwice := hreaches₂.twice hfirst hback hreaches₄ hon hreaches₆ rfl
  have hend : b + 1 + u.length + 1 + 0 + v.length = h₅.tp + ([] : List Char).length + v.length := by
    simp only [List.length_nil, h₅, e]
  rw [hend]
  exact htwice

theorem Spells.goes (hu : Spells p u) : Goes p u := by
  induction hu with
  | done => exact goes_done
  | space hc _ ih => exact goes_space hc ih
  | command hu hapart hv ih => exact goes_command hu hapart hv ih
  | repeats hu hv ihu ihv => exact goes_repeats hu hv ihu ihv

/-- The loop over fetches makes the callbacks of a run, if it is not cut off. -/
theorem fetchLoop_of_run {calls : List (Option (Info × Mml))} {mr : Result}
    (hrun : Run Fetches h calls h₁) (hf : h₁.fetch = some (.returns mr h₂)) (hmr : mr ≠ .ok)
    {fuel : ℕ} (hcut : (fetchLoop fuel h).2 ≠ .cut) :
    fetchLoop fuel h = (calls.reduceOption, .result mr h₂) := by
  induction hrun generalizing fuel with
  | refl =>
    cases fuel with
    | zero => exact absurd rfl hcut
    | succ fuel =>
      rw [fetchLoop, hf]
      exact if_neg hmr
  | @stepL h h₃ h₁ call calls hstep _ ih =>
    cases fuel with
    | zero => exact absurd rfl hcut
    | succ fuel =>
      have hloop : fetchLoop (fuel + 1) h =
          (call.toList ++ (fetchLoop fuel h₃).1, (fetchLoop fuel h₃).2) := by
        rw [fetchLoop, hstep]
        exact if_pos rfl
      rw [hloop] at hcut ⊢
      rw [ih hf hcut]
      cases call <;> rfl

/-- The end of the text, with no bracket open. -/
theorem fetch_end {space : List Char} (hstate : h.state = .fetchReady) (hleft : h.left = [])
    (hright : h.right = []) (hrest : h.rest = space ++ ['\x00'])
    (hspace : ∀ c ∈ space, isWhitespace c = true) :
    h.fetch = some (.returns .eot (h.next space.length)) := by
  have hstate' : (h.next space.length).state = .fetchReady := hstate
  rw [Mml.fetch_spaces hstate hrest hspace, Mml.fetch, if_neg (not_not.mpr hstate'),
    getToken_end (Mml.rest_append hrest) hleft hright]
  rfl

theorem parse_eq {text : List Char} (hu : SpelledBy p text) (hdepth : p.depth ≤ 8) :
    ∃ mml, (parse (setUp optionDefault text)).1.map Prod.fst = (p.meaning .default).1 ∧
      (parse (setUp optionDefault text)).2 = .result .eot mml := by
  have hrest : (setUp optionDefault text).rest =
      [] ++ ((text.takeWhile (· ≠ '\x00')).map Char.toUpper ++ ['\x00']) := by
    show List.drop 0 (List.map Char.toUpper (_ ++ ['\x00'])) = _
    rw [List.drop_zero, List.map_append]
    rfl
  have hagrees : Agrees .default optionDefault := ⟨rfl, by decide, rfl, rfl, rfl⟩
  obtain ⟨h', hreaches⟩ := hu.goes (setUp optionDefault text) .default [] ['\x00']
    ⟨rfl, hagrees, closes_end, by simpa [setUp] using hdepth, by simpa [setUp] using hdepth,
      fun _ hr => nomatch hr⟩ hrest (fun _ he => nomatch he)
  obtain ⟨calls, hrun, hcalls⟩ := hreaches.run
  obtain ⟨space, hrest', hspace, -⟩ := hreaches.space
  have hend := fetch_end (h := h') (by rw [hreaches.handle]; rfl) (by rw [hreaches.handle]; rfl)
    (by rw [hreaches.handle]; rfl) hrest' hspace
  refine ⟨h'.next space.length, ?_, ?_⟩
  · rw [parse, fetchLoop_of_run hrun hend nofun (parse_ne_cut optionDefault text)]
    exact hcalls
  · rw [parse, fetchLoop_of_run hrun hend nofun (parse_ne_cut optionDefault text)]

/-! The text of a program. -/

theorem isNumber_toDigits {value : ℕ} (h : value < 10 ^ 6) :
    IsValue value 0 (Nat.toDigits 10 value) := by
  have hlength : (Nat.toDigits 10 value).length ≤ 6 :=
    (Nat.length_toDigits_le_iff (by decide) (by decide)).mpr h
  have hnumber : IsNumber value 0 (Nat.toDigits 10 value ++ List.replicate 0 '.') :=
    ⟨Nat.toDigits_ne_nil, fun _ => Nat.isDigit_of_mem_toDigits (by decide) (by decide),
      Nat.ofDigitChars_toDigits (by decide) (by decide), hlength⟩
  rw [List.replicate_zero, List.append_nil] at hnumber
  exact @IsValue.mk value 0 [] _ (fun _ he => nomatch he) hnumber

theorem isValue_text {length : Length} (h : length.text.length ≤ 6) :
    IsValue length.number length.dots length.text := by
  have hnumber : IsNumber length.number length.dots length.text := by
    refine ⟨Nat.toDigits_ne_nil, fun _ => Nat.isDigit_of_mem_toDigits (by decide) (by decide),
      Nat.ofDigitChars_toDigits (by decide) (by decide), ?_⟩
    rwa [Length.text, List.length_append, List.length_replicate] at h
  exact @IsValue.mk length.number length.dots [] _ (fun _ he => nomatch he) hnumber

theorem isTicks_text {given : Option Length} (h : ∀ length ∈ given, length.text.length ≤ 6) :
    IsTicks given (given.elim [] Length.text) := by
  cases given with
  | none => exact .none
  | some length => exact .some (isValue_text (h length rfl))

theorem Command.Fits.argument (h : c.Fits) : c.Argument c.argument := by
  cases c with
  | note letter accidentals given => exact .note h.1 (isTicks_text h.2)
  | rest given => exact .rest (isTicks_text h)
  | tempo value => exact .tempo (isNumber_toDigits h)
  | volume value => exact .volume (isNumber_toDigits h)
  | length value => exact .length (isValue_text h)
  | octave value => exact .octave (isNumber_toDigits h)
  | octaveUp steps => exact .octaveUp h.1 h.2
  | octaveDown steps => exact .octaveDown h.1 h.2
  | userEvent name => exact .userEvent (fun d hd => (h.2 d hd).1) h.1

theorem spells_text (h : p.Fits) : Spells p p.text := by
  induction p with
  | done => exact .done
  | command c next ih =>
    refine .command h.1.argument ?_ (.space rfl (ih h.2))
    rintro d - ⟨⟩
    decide
  | repeats body next ihbody ihnext => exact .repeats (ihbody h.1) (ihnext h.2)

/-- A character of the text of a program. -/
def Plain (d : Char) : Prop := d.toUpper = d ∧ d ≠ '\x00'

theorem plain_digit {d : Char} (hd : d.isDigit = true) : Plain d := by
  refine digit_cases hd fun n hn => ?_
  interval_cases n <;> exact ⟨rfl, by decide⟩

theorem plain_toDigits {value : ℕ} : ∀ d ∈ Nat.toDigits 10 value, Plain d :=
  fun _ hd => plain_digit (Nat.isDigit_of_mem_toDigits (by decide) (by decide) hd)

theorem plain_length {length : Length} : ∀ d ∈ length.text, Plain d := by
  intro d hd
  rcases List.mem_append.mp hd with hd | hd
  · exact plain_toDigits d hd
  · rw [List.eq_of_mem_replicate hd]
    exact ⟨rfl, by decide⟩

theorem plain_given {given : Option Length} : ∀ d ∈ given.elim [] Length.text, Plain d := by
  cases given with
  | none => exact fun _ hd => nomatch hd
  | some length => exact plain_length

theorem plain_replicate {d : Char} {n : ℕ} (hd : Plain d) : ∀ e ∈ List.replicate n d, Plain e := by
  intro e he
  rwa [List.eq_of_mem_replicate he]

theorem plain_singleton {d : Char} (hd : Plain d) : ∀ e ∈ [d], Plain e := by
  intro e he
  rwa [List.mem_singleton.mp he]

theorem plain_token (c : Command) : ∀ d ∈ c.token, Plain d := by
  cases c with
  | note letter accidentals given =>
    refine List.forall_mem_cons.mpr ⟨?_, fun d hd => ?_⟩
    · cases letter <;> exact ⟨rfl, by decide⟩
    · obtain ⟨a, -, rfl⟩ := List.mem_map.mp hd
      cases a <;> exact ⟨rfl, by decide⟩
  | octaveUp steps => exact plain_replicate ⟨rfl, by decide⟩
  | octaveDown steps => exact plain_replicate ⟨rfl, by decide⟩
  | _ => exact plain_singleton ⟨rfl, by decide⟩

theorem plain_argument (h : c.Fits) : ∀ d ∈ c.argument, Plain d := by
  cases c with
  | note letter accidentals given => exact plain_given
  | rest given => exact plain_given
  | length value => exact plain_length
  | octaveUp steps => exact fun _ hd => nomatch hd
  | octaveDown steps => exact fun _ hd => nomatch hd
  | userEvent name =>
    refine List.forall_mem_cons.mpr ⟨⟨rfl, by decide⟩, fun d hd => ?_⟩
    rcases List.mem_append.mp hd with hd | hd
    · exact ⟨(h.2 d hd).2, (h.2 d hd).1.2⟩
    · rw [List.mem_singleton.mp hd]
      exact ⟨rfl, by decide⟩
  | _ => exact plain_toDigits

theorem plain_text (h : p.Fits) : ∀ d ∈ p.text, Plain d := by
  induction p with
  | done => exact fun _ hd => nomatch hd
  | command c next ih =>
    intro d hd
    rcases List.mem_append.mp hd with hd | hd
    · exact plain_token c d hd
    rcases List.mem_append.mp hd with hd | hd
    · exact plain_argument h.1 d hd
    rcases List.mem_cons.mp hd with rfl | hd
    · exact ⟨rfl, by decide⟩
    · exact ih h.2 d hd
  | repeats body next ihbody ihnext =>
    intro d hd
    rcases List.mem_cons.mp hd with rfl | hd
    · exact ⟨rfl, by decide⟩
    rcases List.mem_append.mp hd with hd | hd
    · exact ihbody h.1 d hd
    rcases List.mem_cons.mp hd with rfl | hd
    · exact ⟨rfl, by decide⟩
    · exact ihnext h.2 d hd

theorem spelledBy_text (h : p.Fits) : SpelledBy p p.text := by
  have hplain := plain_text h
  have hwhile : p.text.takeWhile (· ≠ '\x00') = p.text :=
    List.takeWhile_eq_self_iff.mpr fun d hd => decide_eq_true (hplain d hd).2
  have hupper : p.text.map Char.toUpper = p.text :=
    (List.map_congr_left fun d hd => (hplain d hd).1).trans (List.map_id' _)
  unfold SpelledBy
  rw [hwhile, hupper]
  exact spells_text h

/-- The text of a program is read as what the program means, to its end. -/
theorem parse_text (h : p.Fits) (hdepth : p.depth ≤ 8) :
    (parse (setUp optionDefault p.text)).1.map Prod.fst = (p.meaning .default).1 ∧
      ∃ mml, (parse (setUp optionDefault p.text)).2 = .result .eot mml := by
  obtain ⟨mml, hcalls, hend⟩ := parse_eq (spelledBy_text h) hdepth
  exact ⟨hcalls, mml, hend⟩

/-- Quarters by default; a C and a dotted E sharp, twice; a rest. -/
def riff : Program :=
  .command (.length (.plain 2 0 (by omega)))
    (.repeats
      (.command (.note .C [] none)
        (.command (.note .E [.sharp] (some (.plain 3 1 (by omega)))) .done))
      (.command (.octaveUp 1) (.command (.rest none) .done)))

theorem riff_fits : riff.Fits := by
  have hnone : ∀ length ∈ (none : Option Length), length.text.length ≤ 6 := fun _ he => nomatch he
  have hquarter : (Length.plain 2 0 (by omega)).text.length ≤ 6 := by decide
  have hdotted : (Length.plain 3 1 (by omega)).text.length ≤ 6 := by decide
  refine ⟨hquarter, ⟨⟨by decide, hnone⟩, ⟨by decide, ?_⟩, trivial⟩, ⟨by decide, by decide⟩, hnone,
    trivial⟩
  rintro length ⟨⟩
  exact hdotted

theorem riff_meaning : (riff.meaning .default).1 =
    [.length 4, .note 48 480, .note 53 360, .note 48 480, .note 53 360, .octaveUp 5,
      .rest 480] := by
  decide

theorem parse_riff : (parse (setUp optionDefault "L4 [C E+8. ]> R ".toList)).1.map Prod.fst =
      [.length 4, .note 48 480, .note 53 360, .note 48 480, .note 53 360, .octaveUp 5,
        .rest 480] ∧
    ∃ mml, (parse (setUp optionDefault "L4 [C E+8. ]> R ".toList)).2 = .result .eot mml := by
  have htext : riff.text = "L4 [C E+8. ]> R ".toList := by decide
  have hparse := parse_text riff_fits (by decide)
  rwa [htext, riff_meaning] at hparse

end Programs

end Bipscript.Tinymml

namespace Bipscript.Midi.MMLReader

open Tinymml

theorem ticks_length (length : Tinymml.Length) : 0 ≤ Int32.ofNat length.ticks := by
  have hterm : ∀ k i : ℕ, WHOLE / 2 ^ (k + i) ≤ WHOLE := fun k i => Nat.div_le_self _ _
  have hle : length.ticks < 2 ^ 31 := by
    cases length with
    | none => decide
    | triplet k h => exact (Nat.div_le_self _ _).trans_lt (by decide)
    | plain k dots h =>
      have hsum := List.sum_le_card_nsmul ((List.range (dots + 1)).map fun i => WHOLE / 2 ^ (k + i))
        WHOLE fun n hn => by
          obtain ⟨i, -, rfl⟩ := List.mem_map.mp hn
          exact hterm k i
      rw [List.length_map, List.length_range] at hsum
      have hseven : (dots + 1) * WHOLE ≤ 7 * WHOLE := Nat.mul_le_mul_right _ (by omega)
      exact (hsum.trans hseven).trans_lt (by decide)
  exact (Int32.ofNat_le_iff_le (a := 0) (by decide) hle).mpr (Nat.zero_le _)

theorem ticks_command (c : Command) (s : Settings) : 0 ≤ ticks (c.meaning s).1 := by
  cases c with
  | note letter accidentals given => exact ticks_length _
  | rest given => exact ticks_length _
  | _ => exact Int32.le_refl 0

theorem ticks_meaning (p : Program) (s : Settings) : ∀ c ∈ (p.meaning s).1, 0 ≤ ticks c := by
  induction p generalizing s with
  | done => exact fun _ hc => nomatch hc
  | command c next ih => exact List.forall_mem_cons.mpr ⟨ticks_command c s, ih _⟩
  | repeats body next ihbody ihnext =>
    intro c hc
    rcases List.mem_append.mp hc with hc | hc
    · rcases List.mem_append.mp hc with hc | hc
      · exact ihbody _ c hc
      · exact ihbody _ c hc
    · exact ihnext _ c hc

/-- A text that spells a program is read as the notes that the reader makes of its meaning. -/
theorem read_coded {r : MMLReader} (hr : r.Idle) (hchord : r.chord = []) {p : Program}
    {text : List Char} (hu : SpelledBy p text) (hdepth : p.depth ≤ 8)
    {time : Transport.TimeSignature} {ticksPerBar : UInt32}
    (hbar : barTicks optionDefault time = some ticksPerBar) (hpos : 0 < ticksPerBar.toNat)
    (hmax : ticksPerBar.toNat ≤ Duration.MAX_DENOMINATOR) :
    ∃ s, r.read time text = .returned s ∧
      List.Forall₂ (Coded ticksPerBar.toNat) s.pattern (score [] (p.meaning .default).1) := by
  obtain ⟨mml, hcalls, hend⟩ := parse_eq hu hdepth
  have hticks : ∀ c ∈ (parsed text).1, 0 ≤ ticks c.1 := by
    intro c hc
    refine ticks_meaning p .default c.1 ?_
    rw [← hcalls]
    exact List.mem_map_of_mem hc
  obtain ⟨s, hprocess, added, hpattern, hcoded⟩ :=
    (follows_of_ready (ready_start hchord ticksPerBar text)).process hpos hmax hticks
  rw [parsed, hcalls] at hcoded
  refine ⟨s.withParser mml, ?_, ?_⟩
  · rw [hr.read_eq hbar, hprocess, parsed, hend]
    rfl
  · have hadded : (s.withParser mml).pattern = added := hpattern
    rwa [hadded]

/-- A text that spells a program is read as the score of what the program means, whatever the reader
read before, if no note waits. -/
theorem read_spelled {r : MMLReader} (hr : r.Idle) (hchord : r.chord = []) {p : Program}
    {text : List Char} (hu : SpelledBy p text) (hdepth : p.depth ≤ 8)
    {time : Transport.TimeSignature} {ticksPerBar : UInt32}
    (hbar : barTicks optionDefault time = some ticksPerBar) (hpos : 0 < ticksPerBar.toNat)
    (hmax : ticksPerBar.toNat ≤ Duration.MAX_DENOMINATOR)
    (hfits : Fits ticksPerBar.toNat (p.meaning .default).1) :
    ∃ s, r.read time text = .returned s ∧
      List.Forall₂ (Right ticksPerBar.toNat) s.pattern (score [] (p.meaning .default).1) := by
  obtain ⟨s, hread, hcoded⟩ := read_coded hr hchord hu hdepth hbar hpos hmax
  refine ⟨s, hread, (forall₂_iff_of_forall₂ hcoded fun _ _ _ hnote => ?_).mpr
    (fits_iff_forall_score.mp hfits)⟩
  exact right_iff hpos hmax hnote

/-- In lower case, by a new reader, in bars of four quarters. -/
theorem read_riff : ∃ s,
    (new ⟨optionDefault, [], 0, .init, [], []⟩ [] 0).read ⟨true, 4, 4⟩
      "l4 [c e+8. ]> r ".toList = .returned s ∧
    List.Forall₂ (Right 1920) s.pattern (score [] (riff.meaning .default).1) := by
  have hspelled : SpelledBy riff "l4 [c e+8. ]> r ".toList := by
    have hupper : ("l4 [c e+8. ]> r ".toList.takeWhile (· ≠ '\x00')).map Char.toUpper =
        riff.text := by decide
    unfold SpelledBy
    rw [hupper]
    exact spells_text riff_fits
  have hfits : Fits 1920 (riff.meaning .default).1 := by
    rw [riff_meaning]
    exact fits_iff_forall_score.mpr (by decide +kernel)
  have hbar : barTicks optionDefault ⟨true, 4, 4⟩ = some 1920 := by decide
  exact read_spelled (idle_new _ _ _) rfl hspelled (by decide) hbar (by decide) (by decide) hfits

end Bipscript.Midi.MMLReader
