import Bipscript.MmlParser
import Bipscript.Library.Lexicographic
import Mathlib.Data.List.TakeWhile

/-! Every loop over fetches ends: each goes on in the text or in the repeats it came back from, and
none touches the state of the handle. -/
namespace Bipscript.Tinymml

open Lexicographic

namespace Mml

/-- Where the handle is: at the right brackets that it came back from, the first at first, and in
the text. -/
def digits (h : Mml) : List ℕ := h.right.reverse.map (· + 1) ++ [h.tp + 1]

/-- No terminator, and no space before one. -/
def Solid (h : Mml) (r : ℕ) : Prop :=
  ∃ c, h.cells[r]? = some c ∧ isWhitespace c = false ∧ c ≠ '\x00'

structure Within (h : Mml) : Prop where
  text : '\x00' ∉ h.text
  tp : h.tp ≤ h.text.length + 1
  left : ∀ p ∈ h.left, p ≤ h.text.length
  right : ∀ r ∈ h.right, h.Solid r
  depth : h.right.length ≤ MML_STACK_MAX_DEPTH

/-- The handle goes on. -/
structure Moves (h h' : Mml) : Prop where
  text : h'.text = h.text
  lex : List.Lex (· < ·) h.digits h'.digits
  within : h'.Within

variable {h h' : Mml} {r w : ℕ} {mr : Result} {buf cs run : List Char} {head : CharType} {cnt : ℕ}

theorem length_cells (h : Mml) : h.cells.length = h.text.length + 1 := by
  rw [cells, List.length_map, List.length_append, List.length_singleton]

theorem getElem?_cells_length (h : Mml) : h.cells[h.text.length]? = some '\x00' := by
  rw [cells, List.getElem?_map, List.getElem?_concat_length]
  rfl

theorem toUpper_ne_nul {c : Char} (hc : c ≠ '\x00') : c.toUpper ≠ '\x00' := by
  unfold Char.toUpper
  split
  · rename_i h
    intro he
    have hval := congrArg (fun c : Char => c.val.toNat) he
    dsimp only at hval
    rw [UInt32.toNat_add, show '\x00'.val.toNat = 0 from rfl] at hval
    have hlow : 97 ≤ c.val.toNat := h.1
    have hhigh : c.val.toNat ≤ 122 := h.2
    have hoff : ('A'.val - 'a'.val).toNat = 2 ^ 32 - 32 := by decide
    omega
  · exact hc

/-- A text without terminators has one place for it. -/
theorem eq_length_of_nul (hw : h.Within) (hr : h.cells[r]? = some '\x00') : r = h.text.length := by
  rw [cells, List.getElem?_map] at hr
  obtain ⟨c, hc, hupper⟩ := Option.map_eq_some_iff.mp hr
  rcases Nat.lt_or_ge r h.text.length with hlt | hge
  · rw [List.getElem?_append_left hlt] at hc
    refine absurd hupper (toUpper_ne_nul fun hnul => hw.text ?_)
    exact hnul ▸ List.mem_of_getElem? hc
  · have hlt := (List.getElem?_eq_some_iff.mp hc).1
    rw [List.length_append, List.length_singleton] at hlt
    omega

theorem Solid.lt (hr : h.Solid r) : r < h.text.length := by
  obtain ⟨c, hc, -, hnul⟩ := hr
  have hlt := (List.getElem?_eq_some_iff.mp hc).1
  rw [length_cells] at hlt
  refine lt_of_le_of_ne (Nat.le_of_lt_succ hlt) fun heq => ?_
  rw [heq, getElem?_cells_length] at hc
  exact hnul (Option.some.inj hc).symm

theorem Solid.of_text (htext : h'.text = h.text) (hr : h.Solid r) : h'.Solid r := by
  unfold Solid cells at *
  rwa [htext]

theorem Within.digits (hw : h.Within) : Digits (h.text.length + 3) 9 h.digits := by
  refine ⟨?_, fun d hd => ?_⟩
  · have hdepth := hw.depth
    unfold MML_STACK_MAX_DEPTH at hdepth
    rw [Mml.digits, List.length_append, List.length_map, List.length_reverse,
      List.length_singleton]
    omega
  · rcases List.mem_append.mp hd with hd | hd
    · obtain ⟨r, hr, rfl⟩ := List.mem_map.mp hd
      have hlt := (hw.right r (List.mem_reverse.mp hr)).lt
      omega
    · obtain rfl := List.mem_singleton.mp hd
      have htp := hw.tp
      omega

section Moves

variable (hw : h.Within) (htext : h'.text = h.text) (htp : h'.tp ≤ h.text.length + 1)
  (hleft : ∀ p ∈ h'.left, p ≤ h.text.length)

include hw htext htp hleft

theorem moves_forward (hright : h'.right = h.right) (hlt : h.tp < h'.tp) : Moves h h' := by
  refine ⟨htext, ?_, ⟨htext ▸ hw.text, htext ▸ htp, htext ▸ hleft, ?_, hright ▸ hw.depth⟩⟩
  · rw [digits, digits, hright]
    exact List.Lex.append_left _ (.rel (by omega)) _
  · rw [hright]
    exact fun r hr => (hw.right r hr).of_text htext

/-- Back from a right bracket that was not on top of the stack. -/
theorem moves_back (hright : h'.right = r :: h.right) (hle : h.tp ≤ r) (hr : h.Solid r)
    (hdepth : h'.right.length ≤ MML_STACK_MAX_DEPTH) : Moves h h' := by
  refine ⟨htext, ?_, ⟨htext ▸ hw.text, htext ▸ htp, htext ▸ hleft, ?_, hdepth⟩⟩
  · rw [digits, digits, hright, List.reverse_cons, List.map_append, List.append_assoc]
    refine List.Lex.append_left _ ?_ _
    rcases Nat.eq_or_lt_of_le hle with rfl | hlt
    · exact .cons .nil
    · exact .rel (Nat.succ_lt_succ hlt)
  · rw [hright]
    intro q hq
    rcases List.mem_cons.mp hq with rfl | hq
    · exact hr.of_text htext
    · exact (hw.right q hq).of_text htext

/-- On from the right bracket that was on top. -/
theorem moves_on (hright : h.right = r :: h'.right) (hlt : r < h'.tp) : Moves h h' := by
  have hdepth := hw.depth
  rw [hright, List.length_cons] at hdepth
  refine ⟨htext, ?_, ⟨htext ▸ hw.text, htext ▸ htp, htext ▸ hleft, fun q hq => ?_, by omega⟩⟩
  · rw [digits, digits, hright, List.reverse_cons, List.map_append, List.append_assoc]
    exact List.Lex.append_left _ (.rel (Nat.succ_lt_succ hlt)) _
  · exact (hw.right q (hright ▸ List.mem_cons_of_mem r hq)).of_text htext

end Moves

theorem getElem?_rest (h : Mml) (i : ℕ) : h.rest[i]? = h.cells[h.tp + i]? :=
  List.getElem?_drop

theorem rest_next (h : Mml) (n : ℕ) : (h.next n).rest = h.rest.drop n := by
  rw [rest, rest, List.drop_drop]
  rfl

/-- The characters read are the next ones, of one type, at least one where the first is of it. -/
theorem readRun_spec {b : Bool} (hrun : readRun head cnt cs = some (b, run)) :
    run <+: cs ∧ (∀ c ∈ run, getCharType c = head) ∧
      ∀ c, cs.head? = some c → getCharType c = head → run ≠ [] := by
  induction cs generalizing cnt run b with
  | nil => cases hrun
  | cons c cs ih =>
    unfold readRun at hrun
    split at hrun
    · rename_i hne
      obtain ⟨-, rfl⟩ := Prod.mk.inj (Option.some.inj hrun)
      exact ⟨List.nil_prefix, nofun, fun _ he hhead => absurd (Option.some.inj he ▸ hhead) hne⟩
    · rename_i hhead
      have hone : [c] <+: c :: cs := ⟨cs, rfl⟩
      have htype : ∀ d ∈ [c], getCharType d = head := fun d hd =>
        List.mem_singleton.mp hd ▸ not_not.mp hhead
      split at hrun
      · obtain ⟨-, rfl⟩ := Prod.mk.inj (Option.some.inj hrun)
        exact ⟨hone, htype, fun _ _ _ => List.cons_ne_nil _ _⟩
      split at hrun
      · obtain ⟨-, rfl⟩ := Prod.mk.inj (Option.some.inj hrun)
        exact ⟨hone, htype, fun _ _ _ => List.cons_ne_nil _ _⟩
      · obtain ⟨⟨b', run'⟩, hrest, heq⟩ := Option.map_eq_some_iff.mp hrun
        obtain ⟨-, rfl⟩ := Prod.mk.inj heq
        obtain ⟨hstarts, htypes, -⟩ := ih hrest
        refine ⟨(List.prefix_cons_inj c).mpr hstarts, fun d hd => ?_, fun _ _ _ =>
          List.cons_ne_nil _ _⟩
        rcases List.mem_cons.mp hd with rfl | hd
        · exact not_not.mp hhead
        · exact htypes d hd

/-- A token was read, of characters of one type and the sharps and flats after them. -/
structure Token (h : Mml) (mr : Result) (buf : List Char) (h' : Mml) : Prop where
  handle : h' = { h with tp := h'.tp }
  lt : h.tp < h'.tp
  le : h'.tp ≤ h.text.length + 1
  ne_nil : buf ≠ []
  last : ∃ c ∈ buf, h.cells[h'.tp - 1]? = some c
  types : ∀ c ∈ buf, getCharType c = getCharType (buf.headD '\x00') ∨ isSharpOrFlat c = true

/-- The end of the text was found, after so much space. -/
structure AtEnd (h : Mml) (buf : List Char) (h' : Mml) : Prop where
  handle : ∃ w, h' = (h.next w).endOfText.2 ∧ h.cells[h.tp + w]? = some '\x00' ∧
    ∀ i < w, ∃ c, h.cells[h.tp + i]? = some c ∧ isWhitespace c = true
  nil : buf = []

/-- Space, then some of the characters after it. -/
theorem token_of_starts (htypes : ∀ c ∈ buf,
      getCharType c = getCharType (buf.headD '\x00') ∨ isSharpOrFlat c = true)
    (hne : buf ≠ []) (hstarts : buf <+: (h.next w).rest) :
    Token h mr buf ((h.next w).next buf.length) := by
  have hpos := List.length_pos_iff.mpr hne
  have hle := hstarts.length_le
  have hlen := h.length_cells
  have hrest : (h.next w).rest.length = h.cells.length - (h.tp + w) := List.length_drop
  refine ⟨rfl, ?_, ?_, hne, ⟨buf.getLast hne, List.getLast_mem hne, ?_⟩, htypes⟩
  · show h.tp < h.tp + w + buf.length
    omega
  · show h.tp + w + buf.length ≤ _
    omega
  · obtain ⟨rest, hrest⟩ := hstarts
    have hindex : h.tp + w + buf.length - 1 = (h.next w).tp + (buf.length - 1) :=
      Nat.add_sub_assoc hpos _
    show h.cells[h.tp + w + buf.length - 1]? = _
    rw [hindex]
    refine (getElem?_rest (h.next w) _).symm.trans ?_
    rw [← hrest, List.getElem?_append_left (by omega), List.getElem?_eq_getElem (by omega),
      List.getLast_eq_getElem]

theorem getElem?_of_starts {α : Type*} {xs ys : List α} (hstarts : xs <+: ys) {i : ℕ} {x : α}
    (hx : xs[i]? = some x) : ys[i]? = some x := by
  obtain ⟨zs, rfl⟩ := hstarts
  rw [List.getElem?_append_left (List.getElem?_eq_some_iff.mp hx).1, hx]

theorem skipWhitespace_spec (h : Mml) : ∃ w, h.skipWhitespace = h.next w ∧
    ∀ i < w, ∃ c, h.cells[h.tp + i]? = some c ∧ isWhitespace c = true := by
  refine ⟨_, rfl, fun i hi => ⟨_, ?_, List.mem_takeWhile_imp (List.getElem_mem hi)⟩⟩
  rw [← getElem?_rest]
  exact getElem?_of_starts (List.takeWhile_prefix isWhitespace) (List.getElem?_eq_getElem hi)

/-- The sharps and flats after a run keep its head. -/
theorem types_append {sharps : List Char} (hne : run ≠ [])
    (htypes : ∀ c ∈ run, getCharType c = head) (hsharps : ∀ c ∈ sharps, isSharpOrFlat c = true) :
    ∀ c ∈ run ++ sharps,
      getCharType c = getCharType ((run ++ sharps).headD '\x00') ∨ isSharpOrFlat c = true := by
  intro c hc
  rcases List.mem_append.mp hc with hc | hc
  · refine .inl ((htypes c hc).trans ?_)
    cases run with
    | nil => exact absurd rfl hne
    | cons d run => exact (htypes d List.mem_cons_self).symm
  · exact .inr (hsharps c hc)

theorem getToken_cases (hget : h.getToken = some (mr, buf, h')) :
    Token h mr buf h' ∨ AtEnd h buf h' ∧ mr ≠ .ok := by
  obtain ⟨w, hw, hspace⟩ := h.skipWhitespace_spec
  unfold getToken at hget
  dsimp only at hget
  rw [hw] at hget
  split at hget
  · cases hget
  rename_i c cs hrest
  split at hget
  · rename_i hnul
    simp only [Option.some.injEq, Prod.mk.injEq] at hget
    obtain ⟨rfl, rfl, rfl⟩ := hget
    refine .inr ⟨⟨⟨w, rfl, ?_, hspace⟩, rfl⟩, ?_⟩
    · have hfirst := getElem?_rest (h.next w) 0
      rw [hrest] at hfirst
      rw [← hnul]
      exact hfirst.symm
    · unfold endOfText
      split <;> exact nofun
  split at hget
  · cases hget
  · rename_i run hrun
    simp only [Option.some.injEq, Prod.mk.injEq] at hget
    obtain ⟨rfl, rfl, rfl⟩ := hget
    obtain ⟨hstarts, htypes, hne⟩ := readRun_spec hrun
    have hnone : ∀ d ∈ ([] : List Char), isSharpOrFlat d = true := nofun
    have happend := types_append (hne c rfl rfl) htypes hnone
    rw [List.append_nil] at happend
    exact .inl (token_of_starts happend (hne c rfl rfl) (hrest ▸ hstarts))
  · rename_i run hrun
    split at hget
    · cases hget
    simp only [Option.some.injEq, Prod.mk.injEq] at hget
    obtain ⟨rfl, rfl, rfl⟩ := hget
    obtain ⟨hstarts, htypes, hne⟩ := readRun_spec hrun
    refine .inl (token_of_starts (types_append (hne c rfl rfl) htypes fun d hd =>
      List.mem_takeWhile_imp hd) (fun hnil => hne c rfl rfl (List.append_eq_nil_iff.mp hnil).1) ?_)
    rw [rest_next, hrest]
    obtain ⟨after, hafter⟩ := hstarts
    rw [← hafter, List.drop_left]
    exact (List.prefix_append_right_inj run).mpr (List.takeWhile_prefix _)

theorem endOfText_cases (h : Mml) :
    (∃ p left, h.left = p :: left ∧ h.endOfText.2 = { h with left := left }) ∨
      (∃ r right, h.right = r :: right ∧ h.endOfText.2 = { h with right := right }) ∨
        h.endOfText.2 = h := by
  unfold endOfText
  cases hl : h.left with
  | cons p left => exact .inl ⟨p, left, rfl, rfl⟩
  | nil =>
    cases hr : h.right with
    | cons r right => exact .inr (.inl ⟨r, right, rfl, rfl⟩)
    | nil => exact .inr (.inr rfl)

theorem endOfText_eq (h : Mml) :
    ∃ left right, h.endOfText.2 = { h with left := left, right := right } := by
  rcases h.endOfText_cases with ⟨p, left, -, heq⟩ | ⟨r, right, -, heq⟩ | heq
  · exact ⟨left, h.right, heq⟩
  · exact ⟨h.left, right, heq⟩
  · exact ⟨h.left, h.right, heq⟩

variable {h₁ : Mml} {mr₁ : Result} {buf₁ : List Char} {f : Fetched}

theorem Token.text (ht : Token h mr buf h') : h'.text = h.text := by rw [ht.handle]

theorem Token.left (ht : Token h mr buf h') : h'.left = h.left := by rw [ht.handle]

theorem Token.right (ht : Token h mr buf h') : h'.right = h.right := by rw [ht.handle]

/-- The last character of a right bracket and its sharps and flats. -/
theorem Token.solid (ht : Token h mr buf h')
    (hhead : getCharType (buf.headD '\x00') = .repeatRight) : h.Solid (h'.tp - 1) := by
  obtain ⟨c, hc, hcell⟩ := ht.last
  refine ⟨c, hcell, ?_⟩
  have htype : getCharType c ≠ .unknown := by
    rcases ht.types c hc with heq | hsharp
    · rw [heq, hhead]
      exact nofun
    · intro hunknown
      rw [isSharpOrFlat, hunknown] at hsharp
      cases hsharp
  refine ⟨?_, fun hnul => htype (hnul ▸ rfl)⟩
  by_contra hspace
  rw [Bool.not_eq_false] at hspace
  unfold isWhitespace at hspace
  simp only [Bool.or_eq_true, beq_iff_eq] at hspace
  rcases hspace with ((rfl | rfl) | rfl) | rfl <;> exact htype rfl

/-- A right bracket on the stack is before the space at the end of the text. -/
theorem Solid.lt_of_atEnd (hw : h.Within) (hr : h.Solid r) {t : ℕ}
    (hnul : h.cells[t + w]? = some '\x00')
    (hspace : ∀ i < w, ∃ c, h.cells[t + i]? = some c ∧ isWhitespace c = true) : r < t := by
  have hend := eq_length_of_nul hw hnul
  have hlt := hr.lt
  by_contra hge
  obtain ⟨c, hc, hwhite⟩ := hspace (r - t) (by omega)
  rw [Nat.add_sub_cancel' (Nat.not_lt.mp hge)] at hc
  obtain ⟨d, hd, hnot, -⟩ := hr
  obtain rfl := Option.some.inj (hc.symm.trans hd)
  rw [hnot] at hwhite
  cases hwhite

theorem readName_le {n : ℕ} {name : List Char} (hname : readName cnt cs = some (mr, n, name)) :
    n ≤ cs.length := by
  induction cs generalizing cnt n name with
  | nil => cases hname
  | cons c cs ih =>
    -- every branch but the last passes one character
    have hone {mr' : Result} {name' : List Char} (he : some (mr', 1, name') = some (mr, n, name)) :
        n ≤ cs.length + 1 := by
      obtain ⟨-, hn⟩ := Prod.mk.inj (Option.some.inj he)
      exact (Prod.mk.inj hn).1 ▸ Nat.succ_le_succ (Nat.zero_le _)
    cases cs with
    | nil =>
      rw [readName] at hname
      split at hname
      · exact hone hname
      · cases hname
    | cons d cs =>
      rw [readName] at hname
      split at hname
      · exact hone hname
      split at hname
      · exact hone hname
      split at hname
      · exact hone hname
      · obtain ⟨⟨mr', n', name'⟩, hrest, heq⟩ := Option.map_eq_some_iff.mp hname
        simp only [Prod.mk.injEq] at heq
        obtain ⟨rfl, rfl, -⟩ := heq
        exact Nat.succ_le_succ (ih hrest)

section Branches

variable (hw : h.Within) (ht : Token h mr₁ buf₁ h₁)

include hw ht

theorem moves_token (option : MmlOption) : Moves h { h₁ with option := option } :=
  moves_forward hw ht.text ht.le (ht.left ▸ hw.left) ht.right ht.lt

/-- After a second token, or the end of the text instead of one, wherever the handle is left. -/
theorem moves_second (hget : h₁.getToken = some (mr, buf, h')) {t : ℕ} (hle : h₁.tp ≤ t)
    (ht' : t ≤ h.text.length + 1) (option : MmlOption) :
    Moves h { h' with tp := t, option := option } := by
  have hlt := ht.lt.trans_le hle
  rcases getToken_cases hget with htoken | ⟨⟨⟨w, rfl, hnul, hspace⟩, -⟩, -⟩
  · refine moves_forward hw (htoken.text.trans ht.text) ht' ?_ (htoken.right.trans ht.right) hlt
    show ∀ p ∈ h'.left, _
    rw [htoken.left, ht.left]
    exact hw.left
  · have hcells : h₁.cells = h.cells := by rw [cells, cells, ht.text]
    rw [hcells] at hnul hspace
    have hleft := ht.left ▸ hw.left
    rcases endOfText_cases (h₁.next w) with ⟨p, left, hl, heq⟩ | ⟨r, right, hr, heq⟩ | heq
    · rw [heq]
      refine moves_forward hw ht.text ht' (fun q hq => hleft q ?_) ht.right hlt
      exact (show h₁.left = p :: left from hl) ▸ List.mem_cons_of_mem p hq
    · rw [heq]
      have hright : h.right = r :: right := ht.right.symm.trans hr
      refine moves_on hw ht.text ht' hleft hright ?_
      exact ((hw.right r (hright ▸ List.mem_cons_self)).lt_of_atEnd hw hnul hspace).trans_le hle
    · rw [heq]
      exact moves_forward hw ht.text ht' hleft ht.right hlt

omit hw in
theorem second_le (hget : h₁.getToken = some (mr, buf, h')) :
    h₁.tp ≤ h'.tp ∧ h'.tp ≤ h.text.length + 1 := by
  rcases getToken_cases hget with htoken | ⟨⟨⟨w, rfl, hnul, -⟩, -⟩, -⟩
  · exact ⟨htoken.lt.le, ht.text ▸ htoken.le⟩
  · have hlt := (List.getElem?_eq_some_iff.mp hnul).1
    rw [length_cells, ht.text] at hlt
    have htp : (h₁.next w).endOfText.2.tp = h₁.tp + w := by
      obtain ⟨left, right, heq⟩ := (h₁.next w).endOfText_eq
      rw [heq]
      rfl
    omega

theorem fetchTicks_moves {info : Except Result (Int32 → Info)}
    (hf : h₁.fetchTicks info = some f) : Moves h f.handle := by
  unfold fetchTicks at hf
  obtain ⟨⟨mr, buf, h'⟩, hget, rfl⟩ := Option.map_eq_some_iff.mp hf
  obtain ⟨hle, hle'⟩ := second_le ht hget
  dsimp only
  split
  · split
    · exact moves_second hw ht hget hle hle' h'.option
    · exact moves_second hw ht hget hle hle' h'.option
  · split
    · exact moves_second hw ht hget hle hle' h'.option
    · exact moves_second hw ht hget le_rfl ht.le h'.option

theorem fetchValue_moves {info : Int32 → Info} {set : Int32 → MmlOption → MmlOption}
    {illegal : Result} (hf : h₁.fetchValue info set illegal = some f) : Moves h f.handle := by
  unfold fetchValue at hf
  obtain ⟨⟨mr, buf, h'⟩, hget, rfl⟩ := Option.map_eq_some_iff.mp hf
  obtain ⟨hle, hle'⟩ := second_le ht hget
  dsimp only
  split
  · exact moves_second hw ht hget hle hle' _
  · exact moves_second hw ht hget hle hle' h'.option

theorem repeatLeft_moves : Moves h h₁.repeatLeft.handle := by
  unfold repeatLeft stackPush
  split
  · exact moves_token hw ht h₁.option
  · rename_i left hpush
    split at hpush
    · cases hpush
    obtain rfl := Option.some.inj hpush
    refine moves_forward hw ht.text ht.le (fun p hp => ?_) ht.right ht.lt
    rcases List.mem_cons.mp hp with rfl | hp
    · have hle := ht.le
      show h₁.tp - 1 ≤ _
      omega
    · exact hw.left p (ht.left ▸ hp)

/-- The jump, with a right bracket pushed. -/
theorem jumpBack_moves (hhead : getCharType (buf₁.headD '\x00') = .repeatRight) {right : List ℕ}
    (hright : right = (h₁.tp - 1) :: h.right) (hdepth : right.length ≤ MML_STACK_MAX_DEPTH)
    (hok : ({ h₁ with right := right }.jumpBack).result = .ok) :
    Moves h ({ h₁ with right := right }.jumpBack).handle := by
  have hleft := ht.left ▸ hw.left
  have hlt := ht.lt
  unfold jumpBack at hok ⊢
  split at hok
  · cases hok
  · rename_i p left hl
    have hp : h₁.left = p :: left := hl
    rw [hp] at hleft
    refine moves_back hw ht.text ?_ (fun q hq => hleft q (List.mem_cons_of_mem p hq)) hright ?_
      (ht.solid hhead) hdepth
    · exact Nat.succ_le_succ (hleft p List.mem_cons_self)
    · omega

theorem repeatRight_moves (hhead : getCharType (buf₁.headD '\x00') = .repeatRight)
    (hok : h₁.repeatRight.result = .ok) : Moves h h₁.repeatRight.handle := by
  have hlt := ht.lt
  unfold repeatRight at hok ⊢
  dsimp only at hok ⊢
  split at hok
  · rename_i hnil
    have hright : h.right = [] := ht.right.symm.trans hnil
    exact jumpBack_moves hw ht hhead (by rw [hright]) (Nat.succ_le_succ (Nat.zero_le 7)) hok
  · rename_i p right hcons
    have hright : h.right = p :: right := ht.right.symm.trans hcons
    split at hok
    · rename_i hp
      rw [if_pos hp]
      refine moves_on hw ht.text ht.le (ht.left ▸ hw.left) hright ?_
      show p < h₁.tp
      omega
    · rename_i hp
      rw [if_neg hp]
      split at hok
      · cases hok
      · rename_i pushed hpush
        unfold stackPush at hpush
        split at hpush
        · cases hpush
        rename_i hfull
        obtain rfl := Option.some.inj hpush
        have hdepth := hright ▸ hw.depth
        exact jumpBack_moves hw ht hhead (by rw [hright]) (lt_of_le_of_ne hdepth hfull) hok

theorem getUserEventToken_moves (hget : h₁.getUserEventToken = some (mr, buf, h')) :
    Moves h h' := by
  unfold getUserEventToken at hget
  split at hget
  · cases hget
  rename_i c cs hrest
  split at hget
  · simp only [Option.some.injEq, Prod.mk.injEq] at hget
    obtain ⟨-, -, rfl⟩ := hget
    exact moves_token hw ht h₁.option
  · obtain ⟨⟨mr', n, name⟩, hname, heq⟩ := Option.map_eq_some_iff.mp hget
    simp only [Prod.mk.injEq] at heq
    obtain ⟨-, -, rfl⟩ := heq
    have hle := readName_le hname
    have hlen : (c :: cs).length = h₁.cells.length - h₁.tp := hrest ▸ List.length_drop
    rw [length_cells, ht.text, List.length_cons] at hlen
    have hlt := ht.lt
    refine moves_forward hw ht.text ?_ (ht.left ▸ hw.left) ht.right ?_
    · show h₁.tp + (1 + n) ≤ _
      omega
    · show h.tp < h₁.tp + (1 + n)
      omega

end Branches

/-- What a fetch can do: without a token it returns, and then there is a case for each command. -/
inductive FetchStep (h : Mml) : Fetched → Prop
  | notReady : FetchStep h (.returns .notReadyForFetch h)
  | noToken {mr : Result} {buf : List Char} {h₁ : Mml} (hget : h.getToken = some (mr, buf, h₁))
    (hmr : mr ≠ .ok) : FetchStep h (.returns mr h₁)
  | ticks {buf : List Char} {h₁ : Mml} {info : Except Result (Int32 → Info)} {f : Fetched}
    (hget : h.getToken = some (.ok, buf, h₁)) (hf : h₁.fetchTicks info = some f) : FetchStep h f
  | value {buf : List Char} {h₁ : Mml} {info : Int32 → Info}
    {set : Int32 → MmlOption → MmlOption} {illegal : Result} {f : Fetched}
    (hget : h.getToken = some (.ok, buf, h₁)) (hf : h₁.fetchValue info set illegal = some f) :
    FetchStep h f
  | octave {buf : List Char} {h₁ : Mml} (hget : h.getToken = some (.ok, buf, h₁))
    (step : Int32 → Int32) (info : Info) : FetchStep h (.calls info .ok (stepOctave step h₁ buf))
  | left {buf : List Char} {h₁ : Mml} (hget : h.getToken = some (.ok, buf, h₁)) :
    FetchStep h h₁.repeatLeft
  | right {buf : List Char} {h₁ : Mml} (hget : h.getToken = some (.ok, buf, h₁))
    (hhead : getCharType (buf.headD '\x00') = .repeatRight) : FetchStep h h₁.repeatRight
  | event {mr : Result} {buf name : List Char} {h₁ h₂ : Mml}
    (hget : h.getToken = some (.ok, buf, h₁)) (hname : h₁.getUserEventToken = some (mr, name, h₂)) :
    FetchStep h (if mr = .ok then .calls (.userEvent name) mr h₂ else .returns mr h₂)
  | illegal {buf : List Char} {h₁ : Mml} (hget : h.getToken = some (.ok, buf, h₁)) :
    FetchStep h (.returns .illegalSequenceFound h₁)

theorem fetch_step (hf : h.fetch = some f) : FetchStep h f := by
  unfold fetch at hf
  split at hf
  · obtain rfl := Option.some.inj hf
    exact .notReady
  obtain ⟨⟨mr, buf, h₁⟩, hget, hf⟩ := Option.bind_eq_some_iff.mp hf
  dsimp only at hf
  split at hf
  · rename_i hmr
    obtain rfl := Option.some.inj hf
    exact .noToken hget hmr
  rename_i hmr
  obtain rfl := not_not.mp hmr
  split at hf
  · exact .ticks hget hf
  · exact .ticks hget hf
  · exact .value hget hf
  · exact .value hget hf
  · exact .value hget hf
  · exact .value hget hf
  · obtain rfl := Option.some.inj hf
    exact .octave hget octaveUp _
  · obtain rfl := Option.some.inj hf
    exact .octave hget octaveDown _
  · obtain rfl := Option.some.inj hf
    exact .left hget
  · rename_i hhead
    obtain rfl := Option.some.inj hf
    exact .right hget hhead
  · obtain ⟨⟨mr', name, h₂⟩, hname, hf⟩ := Option.bind_eq_some_iff.mp hf
    obtain rfl := Option.some.inj hf
    exact .event hget hname
  all_goals
    obtain rfl := Option.some.inj hf
    exact .illegal hget

theorem token_of_ok (hget : h.getToken = some (.ok, buf, h₁)) : Token h .ok buf h₁ :=
  (getToken_cases hget).resolve_right fun hend => hend.2 rfl

/-- A fetch that is to be followed by another goes on. -/
theorem fetch_moves (hw : h.Within) (hf : h.fetch = some f) (hok : f.result = .ok) :
    Moves h f.handle := by
  cases fetch_step hf with
  | notReady => cases hok
  | noToken hget hmr => exact absurd hok hmr
  | ticks hget hf => exact fetchTicks_moves hw (token_of_ok hget) hf
  | value hget hf => exact fetchValue_moves hw (token_of_ok hget) hf
  | octave hget step info => exact moves_token hw (token_of_ok hget) _
  | left hget => exact repeatLeft_moves hw (token_of_ok hget)
  | right hget hhead => exact repeatRight_moves hw (token_of_ok hget) hhead hok
  | event hget hname =>
    have hmoves := getUserEventToken_moves hw (token_of_ok hget) hname
    split
    · exact hmoves
    · exact hmoves
  | illegal hget => cases hok

end Mml

/-- A loop with enough fuel is not cut off. -/
theorem fetchLoop_ne_cut {h : Mml} (hw : h.Within) {fuel : ℕ}
    (hfuel : (h.text.length + 3) ^ 9 ≤ fuel + weight (h.text.length + 3) 9 h.digits) :
    (fetchLoop fuel h).2 ≠ .cut := by
  induction fuel generalizing h with
  | zero =>
    have hlt := weight_lt (show 0 < h.text.length + 3 by omega) hw.digits
    omega
  | succ fuel ih =>
    unfold fetchLoop
    split
    · exact nofun
    · rename_i call mr h' hf
      split
      · rename_i hok
        have hmoves := Mml.fetch_moves hw hf hok
        have hdigits := hmoves.within.digits
        rw [hmoves.text] at hdigits
        have hbase : 0 < h.text.length + 3 := Nat.succ_pos _
        have hlt := weight_lt_of_lex hbase hmoves.lex hw.digits hdigits
        refine ih hmoves.within ?_
        rw [hmoves.text]
        dsimp only at hlt
        omega
      · exact nofun

/-- A handle as `mml_setup` leaves it, whatever it was before. -/
def setUp (option : MmlOption) (text : List Char) : Mml :=
  ⟨option, text.takeWhile (· ≠ '\x00'), 0, .fetchReady, [], []⟩

theorem within_setUp (option : MmlOption) (text : List Char) : (setUp option text).Within := by
  refine ⟨fun hnul => ?_, Nat.zero_le _, nofun, nofun, Nat.zero_le _⟩
  have hne := List.mem_takeWhile_imp (show '\x00' ∈ text.takeWhile (· ≠ '\x00') from hnul)
  exact of_decide_eq_true hne rfl

theorem setup_eq {h : Mml} (hstate : h.state = .waitSetup ∨ h.state = .fetchReady)
    (option : MmlOption) (text : List Char) : h.setup option text = (.ok, setUp option text) := by
  refine if_neg fun hnot => ?_
  exact hstate.elim hnot.1 hnot.2

/-- The loop over a text comes to an end. -/
theorem parse_ne_cut (option : MmlOption) (text : List Char) :
    (parse (setUp option text)).2 ≠ .cut :=
  fetchLoop_ne_cut (within_setUp option text) (Nat.le_add_right _ _)

/-- The handles of a fetch are in a state. -/
def Fetched.Keeps (state : State) (f : Fetched) : Prop :=
  f.handle.state = state ∧ ∀ call ∈ f.call, call.2.state = state

section State

variable {h h' : Mml} {mr : Result} {buf : List Char} {f : Fetched} {state : State} {fuel : ℕ}

theorem Fetched.keeps_returns (hstate : h.state = state) : (returns mr h).Keeps state :=
  ⟨hstate, nofun⟩

theorem Fetched.keeps_call {info : Info} (hstate : h.state = state) (hstate' : h'.state = state) :
    Keeps state ⟨some (info, h), mr, h'⟩ :=
  ⟨hstate', fun _ hcall => Option.some.inj hcall ▸ hstate⟩

namespace Mml

theorem getToken_state (hget : h.getToken = some (mr, buf, h')) : h'.state = h.state := by
  rcases getToken_cases hget with htoken | ⟨⟨⟨w, rfl, -⟩, -⟩, -⟩
  · rw [htoken.handle]
  · obtain ⟨left, right, heq⟩ := (h.next w).endOfText_eq
    rw [heq]
    rfl

theorem fetchTicks_keeps {info : Except Result (Int32 → Info)} (hstate : h.state = state)
    (hf : h.fetchTicks info = some f) : f.Keeps state := by
  obtain ⟨⟨mr, buf, h'⟩, hget, rfl⟩ := Option.map_eq_some_iff.mp hf
  have hstate' : h'.state = state := (getToken_state hget).trans hstate
  dsimp only
  split
  · split
    · exact Fetched.keeps_returns hstate'
    · exact Fetched.keeps_call hstate' hstate'
  · split
    · exact Fetched.keeps_returns hstate'
    · exact Fetched.keeps_call hstate' hstate'

theorem fetchValue_keeps {info : Int32 → Info} {set : Int32 → MmlOption → MmlOption}
    {illegal : Result} (hstate : h.state = state)
    (hf : h.fetchValue info set illegal = some f) : f.Keeps state := by
  obtain ⟨⟨mr, buf, h'⟩, hget, rfl⟩ := Option.map_eq_some_iff.mp hf
  have hstate' : h'.state = state := (getToken_state hget).trans hstate
  dsimp only
  split
  · exact Fetched.keeps_call hstate' hstate'
  · exact Fetched.keeps_returns hstate'

theorem repeatLeft_keeps (hstate : h.state = state) : h.repeatLeft.Keeps state := by
  unfold repeatLeft
  split
  · exact Fetched.keeps_returns hstate
  · exact Fetched.keeps_returns hstate

theorem jumpBack_keeps (hstate : h.state = state) : h.jumpBack.Keeps state := by
  unfold jumpBack
  split
  · exact Fetched.keeps_returns hstate
  · exact Fetched.keeps_returns hstate

theorem repeatRight_keeps (hstate : h.state = state) : h.repeatRight.Keeps state := by
  unfold repeatRight
  dsimp only
  split
  · exact jumpBack_keeps hstate
  split
  · exact Fetched.keeps_returns hstate
  split
  · exact Fetched.keeps_returns hstate
  · exact jumpBack_keeps hstate

theorem getUserEventToken_state (hget : h.getUserEventToken = some (mr, buf, h')) :
    h'.state = h.state := by
  unfold getUserEventToken at hget
  split at hget
  · cases hget
  split at hget
  · simp only [Option.some.injEq, Prod.mk.injEq] at hget
    rw [hget.2.2]
  · obtain ⟨r, -, heq⟩ := Option.map_eq_some_iff.mp hget
    simp only [Prod.mk.injEq] at heq
    obtain ⟨-, -, rfl⟩ := heq
    rfl

/-- A fetch leaves the state as it is. -/
theorem fetch_keeps (hf : h.fetch = some f) : f.Keeps h.state := by
  cases fetch_step hf with
  | notReady => exact Fetched.keeps_returns rfl
  | noToken hget hmr => exact Fetched.keeps_returns (getToken_state hget)
  | ticks hget hf => exact fetchTicks_keeps (getToken_state hget) hf
  | value hget hf => exact fetchValue_keeps (getToken_state hget) hf
  | octave hget step info =>
    have hstate := getToken_state hget
    exact Fetched.keeps_call hstate hstate
  | left hget => exact repeatLeft_keeps (getToken_state hget)
  | right hget hhead => exact repeatRight_keeps (getToken_state hget)
  | event hget hname =>
    have hstate := (getUserEventToken_state hname).trans (getToken_state hget)
    split
    · exact Fetched.keeps_call hstate hstate
    · exact Fetched.keeps_returns hstate
  | illegal hget => exact Fetched.keeps_returns (getToken_state hget)

end Mml

/-- The handles of a loop are in the state that it found. -/
theorem fetchLoop_state (h : Mml) (fuel : ℕ) :
    (∀ call ∈ (fetchLoop fuel h).1, call.2.state = h.state) ∧
      ∀ mr mml, (fetchLoop fuel h).2 = .result mr mml → mml.state = h.state := by
  induction fuel generalizing h with
  | zero => exact ⟨nofun, nofun⟩
  | succ fuel ih =>
    unfold fetchLoop
    split
    · exact ⟨nofun, nofun⟩
    · rename_i call mr h' hf
      obtain ⟨hhandle, hcall⟩ := Mml.fetch_keeps hf
      dsimp only at hhandle hcall
      split
      · obtain ⟨hcalls, hend⟩ := ih h'
        rw [hhandle] at hcalls hend
        refine ⟨fun c hc => ?_, hend⟩
        rcases List.mem_append.mp hc with hc | hc
        · exact hcall c (Option.mem_toList.mp hc)
        · exact hcalls c hc
      · refine ⟨fun c hc => hcall c (Option.mem_toList.mp hc), fun mr' mml hmml => ?_⟩
        cases hmml
        exact hhandle

end State

end Bipscript.Tinymml
