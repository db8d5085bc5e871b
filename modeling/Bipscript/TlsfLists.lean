import Bipscript.Library.DoublyLinked
import Bipscript.TlsfBlocks

/-! The lists of free blocks and the bitmaps that tell which of them are empty. -/
namespace Bipscript.Tlsf

variable {s s' : Tlsf} {held nonempty : ℕ → ℕ → Prop} {a n i j x y : ℕ}

/-! Bitmaps on two levels. -/

/-- A bit for every list that is not empty, and a bit for every word of these that is not zero. -/
structure Bitmaps (fl : ℕ) (sl : ℕ → ℕ) (nonempty : ℕ → ℕ → Prop) : Prop where
  sl_iff : ∀ i j, (sl i).testBit j = true ↔ nonempty i j
  fl_iff : ∀ i, fl.testBit i = true ↔ sl i ≠ 0

section Bitmaps

variable {fl k : ℕ} {sl : ℕ → ℕ}

theorem testBit_or_shift : (k ||| 1 <<< i).testBit j = true ↔ k.testBit j = true ∨ j = i := by
  rw [Nat.testBit_or, Nat.one_shiftLeft, Nat.testBit_two_pow, Bool.or_eq_true, decide_eq_true_iff,
    eq_comm (a := i)]

theorem testBit_clear_shift :
    (clearBits k (1 <<< i)).testBit j = true ↔ k.testBit j = true ∧ j ≠ i := by
  rw [testBit_clearBits, Nat.one_shiftLeft, Nat.testBit_two_pow, Bool.and_eq_true,
    Bool.not_eq_true', decide_eq_false_iff_not, eq_comm (a := i)]

theorem ne_zero_of_testBit (h : k.testBit i = true) : k ≠ 0 := by
  rintro rfl
  rw [Nat.zero_testBit] at h
  cases h

theorem Bitmaps.insert (h : Bitmaps fl sl nonempty) (i j : ℕ) :
    Bitmaps (fl ||| 1 <<< i) (Function.update sl i (sl i ||| 1 <<< j))
      fun i' j' => nonempty i' j' ∨ i' = i ∧ j' = j where
  sl_iff := by
    intro i' j'
    by_cases hi : i' = i
    · subst hi
      rw [Function.update_self, testBit_or_shift, h.sl_iff, eq_self, true_and]
    · rw [Function.update_of_ne hi, h.sl_iff]
      exact ⟨.inl, fun hor => hor.resolve_right fun he => hi he.1⟩
  fl_iff := by
    intro i'
    by_cases hi : i' = i
    · subst hi
      have hset : (sl i' ||| 1 <<< j).testBit j = true := testBit_or_shift.mpr (.inr rfl)
      rw [Function.update_self]
      exact iff_of_true (testBit_or_shift.mpr (.inr rfl)) (ne_zero_of_testBit hset)
    · rw [Function.update_of_ne hi, testBit_or_shift, h.fl_iff]
      exact ⟨fun hor => hor.resolve_right hi, .inl⟩

theorem Bitmaps.erase (h : Bitmaps fl sl nonempty) (i j : ℕ) :
    Bitmaps (if clearBits (sl i) (1 <<< j) = 0 then clearBits fl (1 <<< i) else fl)
      (Function.update sl i (clearBits (sl i) (1 <<< j)))
      fun i' j' => nonempty i' j' ∧ ¬ (i' = i ∧ j' = j) where
  sl_iff := by
    intro i' j'
    by_cases hi : i' = i
    · subst hi
      rw [Function.update_self, testBit_clear_shift, h.sl_iff, eq_self, true_and]
    · rw [Function.update_of_ne hi, h.sl_iff]
      exact ⟨fun hn => ⟨hn, fun he => hi he.1⟩, And.left⟩
  fl_iff := by
    intro i'
    by_cases hi : i' = i
    · subst hi
      rw [Function.update_self]
      split
      · rename_i hzero
        refine iff_of_false ?_ (not_not.mpr hzero)
        intro hset
        exact (testBit_clear_shift.mp hset).2 rfl
      · rename_i hne
        refine iff_of_true ((h.fl_iff i').mpr ?_) hne
        intro hzero
        rw [hzero] at hne
        exact hne (by simp [clearBits])
    · rw [Function.update_of_ne hi]
      split
      · rw [testBit_clear_shift, h.fl_iff]
        exact ⟨And.left, fun hn => ⟨hn, hi⟩⟩
      · exact h.fl_iff i'

theorem Bitmaps.congr {nonempty' : ℕ → ℕ → Prop} (h : Bitmaps fl sl nonempty)
    (hiff : ∀ i j, nonempty' i j ↔ nonempty i j) : Bitmaps fl sl nonempty' :=
  ⟨fun i j => (h.sl_iff i j).trans (hiff i j).symm, h.fl_iff⟩

/-- The search ends at the first list in order, from the indexes given on, that is not empty. -/
theorem searchSuitableBlock_spec (h : Bitmaps s.flBitmap s.slBitmap nonempty)
    (hb : ∀ i j, nonempty i j → i < 32 ∧ j < 32) (hj : j < 32) :
    (s.searchSuitableBlock i j = some none ∧
      ∀ i' j', nonempty i' j' → rank (i', j') < rank (i, j)) ∨
    ∃ i' j', s.searchSuitableBlock i j = some (some (s.blocks i' j', i', j')) ∧ nonempty i' j' ∧
      rank (i, j) ≤ rank (i', j') ∧
      ∀ i'' j'', nonempty i'' j'' → rank (i, j) ≤ rank (i'', j'') →
        rank (i', j') ≤ rank (i'', j'') := by
  have hslMap : ∀ k, (s.slBitmap i &&& onesFrom j).testBit k = true ↔
      nonempty i k ∧ j ≤ k := by
    intro k
    rw [Nat.testBit_and, testBit_onesFrom, Bool.and_eq_true_iff, Bool.and_eq_true_iff, h.sl_iff,
      decide_eq_true_iff, decide_eq_true_iff]
    exact ⟨fun hk => ⟨hk.1, hk.2.1⟩, fun hk => ⟨hk.1, hk.2, (hb i k hk.1).2⟩⟩
  have hflMap : ∀ k, (s.flBitmap &&& onesFrom (i + 1)).testBit k = true ↔
      (∃ l, nonempty k l) ∧ i + 1 ≤ k := by
    intro k
    rw [Nat.testBit_and, testBit_onesFrom, Bool.and_eq_true_iff, Bool.and_eq_true_iff, h.fl_iff,
      decide_eq_true_iff, decide_eq_true_iff]
    constructor
    · rintro ⟨hk, hik, -⟩
      obtain ⟨l, hl⟩ := exists_testBit hk
      exact ⟨⟨l, (h.sl_iff k l).mp hl⟩, hik⟩
    · rintro ⟨⟨l, hl⟩, hik⟩
      exact ⟨ne_zero_of_testBit ((h.sl_iff k l).mpr hl), hik, (hb k l hl).1⟩
  unfold searchSuitableBlock
  by_cases hsl : s.slBitmap i &&& onesFrom j ≠ 0
  · right
    obtain ⟨hset, hleast⟩ := tlsfFfs_spec hsl fun k hk => (hb i k ((hslMap k).mp hk).1).2
    obtain ⟨hne, hle⟩ := (hslMap _).mp hset
    refine ⟨i, _, by simp [hsl], hne, ?_, ?_⟩
    · simp only [rank]
      omega
    · intro i'' j'' hne' hrank
      have hbound := hb i'' j'' hne'
      have hbound' := hb i _ hne
      simp only [rank] at hrank ⊢
      rcases Nat.lt_trichotomy i'' i with hlt | heq | hgt
      · omega
      · subst heq
        have := hleast j'' ((hslMap j'').mpr ⟨hne', by omega⟩)
        omega
      · omega
  · rw [not_not] at hsl
    have hnsl : ∀ j', nonempty i j' → ¬ j ≤ j' := by
      intro j' hne hle
      have hset := (hslMap j').mpr ⟨hne, hle⟩
      rw [hsl, Nat.zero_testBit] at hset
      cases hset
    by_cases hfl : s.flBitmap &&& onesFrom (i + 1) = 0
    · left
      refine ⟨by simp [hsl, hfl], ?_⟩
      intro i' j' hne
      have hbound := hb i' j' hne
      have hnfl : ¬ i + 1 ≤ i' := by
        intro hi
        have hset := (hflMap i').mpr ⟨⟨j', hne⟩, hi⟩
        rw [hfl, Nat.zero_testBit] at hset
        cases hset
      simp only [rank]
      rcases Nat.lt_or_eq_of_le (by omega : i' ≤ i) with hlt | heq
      · omega
      · subst heq
        have := hnsl j' hne
        omega
    · right
      obtain ⟨hset, hleast⟩ := tlsfFfs_spec hfl fun k hk => by
        obtain ⟨⟨l, hl⟩, -⟩ := (hflMap k).mp hk
        exact (hb k l hl).1
      obtain ⟨⟨l, hl⟩, hi⟩ := (hflMap _).mp hset
      generalize hk : (tlsfFfs (s.flBitmap &&& onesFrom (i + 1))).toNat = k at *
      have hword : s.slBitmap k ≠ 0 := ne_zero_of_testBit ((h.sl_iff k l).mpr hl)
      obtain ⟨hset', hleast'⟩ := tlsfFfs_spec hword fun m hm => (hb k m ((h.sl_iff k m).mp hm)).2
      have hne := (h.sl_iff k _).mp hset'
      refine ⟨k, _, by simp [hsl, hfl, hk, tlsfAssert, hword], hne, ?_, ?_⟩
      · simp only [rank]
        omega
      · intro i'' j'' hne' hrank
        have hbound := hb i'' j'' hne'
        have hbound' := hb k _ hne
        simp only [rank] at hrank ⊢
        rcases Nat.lt_trichotomy i'' i with hlt | heq | hgt
        · omega
        · subst heq
          have := hnsl j'' hne'
          omega
        · have hk'' := hleast i'' ((hflMap i'').mpr ⟨⟨j'', hne'⟩, hgt⟩)
          rcases Nat.lt_or_eq_of_le hk'' with hlt | heq
          · omega
          · subst heq
            have := hleast' j'' ((h.sl_iff _ _).mpr hne')
            omega

end Bitmaps

/-! Lists of free blocks. -/

/-- Blocks held lie apart from each other and above the null block. -/
structure Spaced (control : ℕ) (held : ℕ → ℕ → Prop) : Prop where
  apart : ∀ {x n y m}, held x n → held y m → (x = y ∧ n = m) ∨ x + 32 ≤ y ∨ y + 32 ≤ x
  above : ∀ {x n}, held x n → control + 32 ≤ x

/-- The null block, or a block held. -/
def Linkable (control : ℕ) (held : ℕ → ℕ → Prop) (x : ℕ) : Prop := x = control ∨ ∃ n, held x n

/-- Each block held, of the size given with it, is in the list for this size and in no other. -/
structure Filed (s : Tlsf) (held : ℕ → ℕ → Prop) : Prop where
  lists : ∃ lists : ℕ → ℕ → List ℕ,
    (∀ i j, DoublyLinked.Linked s.nextFree s.prevFree s.control (s.blocks i j) (lists i j)) ∧
      ∀ i j x, x ∈ lists i j ↔ ∃ n, held x n ∧ mappingInsert n = (i, j)
  bitmaps : Bitmaps s.flBitmap s.slBitmap fun i j => s.blocks i j ≠ s.control

/-- `s'` differs from `s` in links, heads and bitmaps. -/
structure Relinked (s s' : Tlsf) (held : ℕ → ℕ → Prop) : Prop where
  control : s'.control = s.control
  words : ∀ x, (∀ y, Linkable s.control held y → x ≠ y + 16 ∧ x ≠ y + 24) → s'.words x = s.words x

theorem Spaced.links_apart (h : Spaced s.control held) (hx : Linkable s.control held x)
    (hy : Linkable s.control held y) : x + 16 ≠ y + 24 := by
  rcases hx with rfl | ⟨n, hx⟩
  · rcases hy with rfl | ⟨m, hy⟩
    · omega
    · have := h.above hy
      omega
  · rcases hy with rfl | ⟨m, hy⟩
    · have := h.above hx
      omega
    · have := h.apart hx hy
      omega

theorem Spaced.mono {held' : ℕ → ℕ → Prop} {control : ℕ} (h : Spaced control held)
    (hsub : ∀ x n, held' x n → held x n) : Spaced control held' :=
  ⟨fun hx hy => h.apart (hsub _ _ hx) (hsub _ _ hy), fun hx => h.above (hsub _ _ hx)⟩

/-- The links of the blocks held are all that the lists are about. -/
theorem Filed.congr (h : Filed s held) (hcontrol : s'.control = s.control)
    (hfl : s'.flBitmap = s.flBitmap) (hsl : s'.slBitmap = s.slBitmap)
    (hblocks : s'.blocks = s.blocks)
    (hwords : ∀ x n, held x n →
      s'.words (x + 16) = s.words (x + 16) ∧ s'.words (x + 24) = s.words (x + 24)) :
    Filed s' held := by
  obtain ⟨lists, hlinked, hmem⟩ := h.lists
  refine ⟨⟨lists, ?_, hmem⟩, ?_⟩
  · intro i j
    rw [hcontrol, hblocks]
    apply (hlinked i j).congr
    · intro x hx
      obtain ⟨n, hn, -⟩ := (hmem i j x).mp hx
      exact (hwords x n hn).1
    · intro x hx
      obtain ⟨n, hn, -⟩ := (hmem i j x).mp hx
      exact (hwords x n hn).2
  · rw [hcontrol, hblocks, hfl, hsl]
    exact h.bitmaps

/-- What a list is not empty of. -/
theorem Filed.nonempty_iff (h : Filed s held) :
    s.blocks i j ≠ s.control ↔ ∃ x n, held x n ∧ mappingInsert n = (i, j) := by
  obtain ⟨lists, hlinked, hmem⟩ := h.lists
  have hnull := (hlinked i j).start_eq_null_iff
  constructor
  · intro hne
    have hstart := (hlinked i j).start_mem fun he => hne (hnull.mpr he)
    obtain ⟨n, hn, hm⟩ := (hmem i j _).mp hstart
    exact ⟨_, n, hn, hm⟩
  · rintro ⟨x, n, hn, hm⟩ he
    have hx := (hmem i j x).mpr ⟨n, hn, hm⟩
    rw [hnull.mp he] at hx
    cases hx

/-- The head of a list that is not empty is a block held. -/
theorem Filed.head_held (h : Filed s held) (hne : s.blocks i j ≠ s.control) :
    ∃ n, held (s.blocks i j) n ∧ mappingInsert n = (i, j) := by
  obtain ⟨lists, hlinked, hmem⟩ := h.lists
  have hstart := (hlinked i j).start_mem fun he => hne ((hlinked i j).start_eq_null_iff.mpr he)
  exact (hmem i j _).mp hstart

theorem Filed.head_linkable (h : Filed s held) (i j : ℕ) :
    Linkable s.control held (s.blocks i j) := by
  by_cases hne : s.blocks i j = s.control
  · exact .inl hne
  · obtain ⟨n, hn, -⟩ := h.head_held hne
    exact .inr ⟨n, hn⟩

theorem setHead_blocks {b : ℕ} (i' j' : ℕ) :
    (s.setHead i j b).blocks i' j' = if i' = i ∧ j' = j then b else s.blocks i' j' := by
  unfold setHead
  by_cases hi : i' = i
  · subst hi
    by_cases hj : j' = j
    · subst hj
      simp
    · simp [hj]
  · simp [hi]

section Insert

variable (h : Filed s held) (ha : ∀ m, ¬ held a m)
  (hs : Spaced s.control fun x m => held x m ∨ x = a ∧ m = n) (h0 : 0 < s.control)
  (halign : a % 8 = 0)

include h ha hs h0 halign

/-- A free block put in front of the list for its size. -/
theorem insertFreeBlock_spec :
    ∃ s', s.insertFreeBlock a (mappingInsert n).1 (mappingInsert n).2 = some s' ∧
      Filed s' (fun x m => held x m ∨ x = a ∧ m = n) ∧
        Relinked s s' fun x m => held x m ∨ x = a ∧ m = n := by
  obtain ⟨i, hi⟩ : ∃ i, i = (mappingInsert n).1 := ⟨_, rfl⟩
  obtain ⟨j, hj⟩ : ∃ j, j = (mappingInsert n).2 := ⟨_, rfl⟩
  rw [← hi, ← hj]
  obtain ⟨current, hcur⟩ : ∃ c, c = s.blocks i j := ⟨_, rfl⟩
  have hself : Linkable s.control (fun x m => held x m ∨ x = a ∧ m = n) a :=
    .inr ⟨n, .inr ⟨rfl, rfl⟩⟩
  have hcell : Linkable s.control (fun x m => held x m ∨ x = a ∧ m = n) current := by
    rw [hcur]
    exact (h.head_linkable i j).imp_right fun ⟨m, hm⟩ => ⟨m, .inl hm⟩
  have habove : s.control + 32 ≤ a := hs.above (.inr ⟨rfl, rfl⟩ : held a n ∨ a = a ∧ n = n)
  have hne : current ≠ a := by
    rintro he
    rcases hcur ▸ h.head_linkable i j with hc | ⟨m, hm⟩
    · omega
    · exact ha m (he ▸ hm)
  obtain ⟨s₃, hs₃⟩ : ∃ s₃, s₃ = ((s.write (a + 16) current).write (a + 24) s.control).write
    (current + 24) a := ⟨_, rfl⟩
  have hcontrol₃ : s₃.control = s.control := by
    rw [hs₃]
    rfl
  have hblocks₃ : s₃.blocks = s.blocks := by
    rw [hs₃]
    rfl
  have hforth : ∀ y, Linkable s.control (fun x m => held x m ∨ x = a ∧ m = n) y →
      s₃.nextFree y = Function.update s.nextFree a current y := by
    intro y hy
    have hcy := hs.links_apart hy hcell
    have hay := hs.links_apart hy hself
    unfold nextFree
    rw [hs₃, write_words_ne hcy, write_words_ne hay]
    by_cases hya : y = a
    · rw [hya, write_words_self, Function.update_self]
    · rw [write_words_ne (by omega), Function.update_of_ne hya]
  have hback : ∀ y, Linkable s.control (fun x m => held x m ∨ x = a ∧ m = n) y →
      s₃.prevFree y = Function.update (Function.update s.prevFree a s.control) current a y := by
    intro y hy
    have hay := hs.links_apart hself hy
    unfold prevFree
    by_cases hyc : y = current
    · rw [hs₃, hyc, write_words_self, Function.update_self]
    · rw [hs₃, write_words_ne (by omega), Function.update_of_ne hyc]
      by_cases hya : y = a
      · rw [hya, write_words_self, Function.update_self]
      · rw [write_words_ne (by omega), write_words_ne (by omega), Function.update_of_ne hya]
  have hcur0 : current ≠ 0 := by
    rcases hcell with hc | ⟨m, hm⟩
    · omega
    · have := hs.above hm
      omega
  have hblock : blockToPtr a = alignPtr (blockToPtr a) ALIGN_SIZE := by
    refine (alignPtr_eq ?_).symm
    unfold blockToPtr
    rw [blockStartOffset_eq]
    omega
  refine ⟨{ s₃.setHead i j a with
    flBitmap := s.flBitmap ||| (1 <<< i)
    slBitmap := Function.update s.slBitmap i (s.slBitmap i ||| (1 <<< j)) }, ?_, ⟨?_, ?_⟩, ?_, ?_⟩
  · have ha0 : a ≠ 0 := by omega
    simp only [insertFreeBlock, ← hcur, tlsfAssert, if_pos hcur0, if_pos ha0, if_pos hblock,
      setNextFree, setPrevFree, hs₃]
    rfl
  · obtain ⟨lists, hlinked, hmem⟩ := h.lists
    have hlist : ∀ i' j' y, y ∈ lists i' j' → ∃ m, held y m ∧ mappingInsert m = (i', j') :=
      fun i' j' y hy => (hmem i' j' y).mp hy
    refine ⟨fun i' j' => if i' = i ∧ j' = j then a :: lists i j else lists i' j', ?_, ?_⟩
    · intro i' j'
      change DoublyLinked.Linked s₃.nextFree s₃.prevFree s₃.control
        ((s₃.setHead i j a).blocks i' j')
        (if i' = i ∧ j' = j then a :: lists i j else lists i' j')
      rw [setHead_blocks, hcontrol₃, hblocks₃]
      by_cases hij : i' = i ∧ j' = j
      · rw [if_pos hij, if_pos hij]
        have hnew : a ∉ lists i j := by
          intro hmem'
          obtain ⟨m, hm, -⟩ := hlist i j a hmem'
          exact ha m hm
        have hins := (hlinked i j).insert hnew (by omega)
        rw [← hcur] at hins
        have hlink : ∀ y ∈ a :: lists i j,
            Linkable s.control (fun x m => held x m ∨ x = a ∧ m = n) y := by
          intro y hy
          rcases List.mem_cons.mp hy with rfl | hy
          · exact hself
          · obtain ⟨m, hm, -⟩ := hlist i j y hy
            exact .inr ⟨m, .inl hm⟩
        exact hins.congr (fun y hy => hforth y (hlink y hy)) fun y hy => hback y (hlink y hy)
      · rw [if_neg hij, if_neg hij]
        apply (hlinked i' j').congr
        · intro y hy
          obtain ⟨m, hm, -⟩ := hlist i' j' y hy
          have hya : y ≠ a := fun he => ha m (he ▸ hm)
          rw [hforth y (.inr ⟨m, .inl hm⟩), Function.update_of_ne hya]
        · intro y hy
          obtain ⟨m, hm, hmap⟩ := hlist i' j' y hy
          have hya : y ≠ a := fun he => ha m (he ▸ hm)
          -- the head written to is in the other list, or the null block
          have hyc : y ≠ current := by
            rintro rfl
            by_cases hnull : s.blocks i j = s.control
            · exact (hlinked i' j').null_notMem (hnull ▸ hcur ▸ hy)
            · obtain ⟨m', hm', hmap'⟩ := h.head_held hnull
              rw [← hcur] at hm'
              rcases hs.apart (.inl hm) (.inl hm') with ⟨-, he⟩ | hlt | hlt
              · rw [← he, hmap] at hmap'
                exact hij (Prod.ext_iff.mp hmap')
              · omega
              · omega
          rw [hback y (.inr ⟨m, .inl hm⟩), Function.update_of_ne hyc, Function.update_of_ne hya]
    · intro i' j' x
      have hmap : mappingInsert n = (i, j) := Prod.ext hi.symm hj.symm
      simp only
      by_cases hij : i' = i ∧ j' = j
      · obtain ⟨rfl, rfl⟩ := hij
        rw [if_pos ⟨rfl, rfl⟩, List.mem_cons, hmem]
        constructor
        · rintro (rfl | ⟨m, hm, hmap⟩)
          · exact ⟨n, .inr ⟨rfl, rfl⟩, hmap⟩
          · exact ⟨m, .inl hm, hmap⟩
        · rintro ⟨m, hm | ⟨rfl, -⟩, hmap⟩
          · exact .inr ⟨m, hm, hmap⟩
          · exact .inl rfl
      · rw [if_neg hij, hmem]
        constructor
        · rintro ⟨m, hm, hmap⟩
          exact ⟨m, .inl hm, hmap⟩
        · rintro ⟨m, hm | ⟨-, rfl⟩, hmap'⟩
          · exact ⟨m, hm, hmap'⟩
          · rw [hmap] at hmap'
            exact (hij (Prod.ext_iff.mp hmap'.symm)).elim
  · apply (h.bitmaps.insert i j).congr
    intro i' j'
    change (s₃.setHead i j a).blocks i' j' ≠ s₃.control ↔ _
    rw [setHead_blocks, hcontrol₃, hblocks₃]
    by_cases hij : i' = i ∧ j' = j
    · rw [if_pos hij]
      exact iff_of_true (by omega) (.inr hij)
    · rw [if_neg hij]
      exact ⟨.inl, fun hor => hor.resolve_right hij⟩
  · exact hcontrol₃
  · intro x hx
    have hxa := hx a hself
    have hxc := hx current hcell
    change s₃.words x = s.words x
    rw [hs₃, write_words_ne hxc.2, write_words_ne hxa.2, write_words_ne hxa.1]

end Insert

/-- What is done about heads and bitmaps once a block's neighbours are linked with each other. -/
theorem removeFreeBlock_eq {s₂ : Tlsf} (h : Bitmaps s.flBitmap s.slBitmap nonempty)
    (hprev : s.prevFree a ≠ 0) (hnext : s.nextFree a ≠ 0)
    (hs₂ : s₂ = (s.setPrevFree (s.nextFree a) (s.prevFree a)).setNextFree (s.prevFree a)
      (s.nextFree a)) :
    ∃ s', s.removeFreeBlock a i j = some s' ∧ s'.control = s.control ∧ s'.words = s₂.words ∧
      (s'.blocks = if s.blocks i j = a then (s.setHead i j (s.nextFree a)).blocks else s.blocks) ∧
      Bitmaps s'.flBitmap s'.slBitmap fun i' j' => nonempty i' j' ∧
        ¬ (s.blocks i j = a ∧ s.nextFree a = s.control ∧ i' = i ∧ j' = j) := by
  have hexec : s.removeFreeBlock a i j =
      if s.blocks i j = a then
        if s.nextFree a = s.control then
          if clearBits (s.slBitmap i) (1 <<< j) = 0 then
            some { s₂.setHead i j (s.nextFree a) with
              slBitmap := Function.update s.slBitmap i (clearBits (s.slBitmap i) (1 <<< j))
              flBitmap := clearBits s.flBitmap (1 <<< i) }
          else
            some { s₂.setHead i j (s.nextFree a) with
              slBitmap := Function.update s.slBitmap i (clearBits (s.slBitmap i) (1 <<< j)) }
        else some (s₂.setHead i j (s.nextFree a))
      else some s₂ := by
    simp only [removeFreeBlock, tlsfAssert, if_pos hprev, if_pos hnext, hs₂]
    rfl
  rw [hexec]
  have hsame : (s₂.setHead i j (s.nextFree a)).blocks = (s.setHead i j (s.nextFree a)).blocks := by
    rw [hs₂]
    rfl
  by_cases hhead : s.blocks i j = a
  · rw [if_pos hhead, if_pos hhead]
    by_cases hnull : s.nextFree a = s.control
    · rw [if_pos hnull]
      have herase := h.erase i j
      have hiff : ∀ i' j', (nonempty i' j' ∧
          ¬ (s.blocks i j = a ∧ s.nextFree a = s.control ∧ i' = i ∧ j' = j)) ↔
            nonempty i' j' ∧ ¬ (i' = i ∧ j' = j) := fun i' j' =>
        and_congr_right fun _ => not_congr ⟨fun hall => hall.2.2, fun he => ⟨hhead, hnull, he⟩⟩
      by_cases hzero : clearBits (s.slBitmap i) (1 <<< j) = 0
      · rw [if_pos hzero] at herase ⊢
        exact ⟨_, rfl, hs₂ ▸ rfl, rfl, hsame, herase.congr hiff⟩
      · rw [if_neg hzero] at herase ⊢
        refine ⟨_, rfl, hs₂ ▸ rfl, rfl, hsame, ?_⟩
        rw [hs₂]
        exact herase.congr hiff
    · rw [if_neg hnull]
      refine ⟨_, rfl, hs₂ ▸ rfl, rfl, hsame, ?_⟩
      rw [hs₂]
      exact h.congr fun i' j' => and_iff_left fun hall => hnull hall.2.1
  · rw [if_neg hhead, if_neg hhead]
    refine ⟨s₂, rfl, hs₂ ▸ rfl, rfl, hs₂ ▸ rfl, ?_⟩
    rw [hs₂]
    exact h.congr fun i' j' => and_iff_left fun hall => hhead hall.1

section Remove

variable (h : Filed s held) (ha : held a n) (hs : Spaced s.control held) (h0 : 0 < s.control)

include h ha hs h0

/-- A free block taken out of its list. -/
theorem removeFreeBlock_spec :
    ∃ s', s.removeFreeBlock a (mappingInsert n).1 (mappingInsert n).2 = some s' ∧
      Filed s' (fun x m => held x m ∧ x ≠ a) ∧ Relinked s s' held := by
  obtain ⟨i, hi⟩ : ∃ i, i = (mappingInsert n).1 := ⟨_, rfl⟩
  obtain ⟨j, hj⟩ : ∃ j, j = (mappingInsert n).2 := ⟨_, rfl⟩
  rw [← hi, ← hj]
  have hmap : mappingInsert n = (i, j) := Prod.ext hi.symm hj.symm
  obtain ⟨lists, hlinked, hmem⟩ := h.lists
  have hlist : ∀ i' j' y, y ∈ lists i' j' → ∃ m, held y m ∧ mappingInsert m = (i', j') :=
    fun i' j' y hy => (hmem i' j' y).mp hy
  have hself : a ∈ lists i j := (hmem i j a).mpr ⟨n, ha, hmap⟩
  have hlink : ∀ {y}, y = s.control ∨ y ∈ lists i j → Linkable s.control held y := by
    rintro y (rfl | hy)
    · exact .inl rfl
    · obtain ⟨m, hm, -⟩ := hlist i j y hy
      exact .inr ⟨m, hm⟩
  obtain ⟨prev, hp⟩ : ∃ p, p = s.prevFree a := ⟨_, rfl⟩
  obtain ⟨next, hn⟩ : ∃ q, q = s.nextFree a := ⟨_, rfl⟩
  have hprev : prev = s.control ∨ prev ∈ lists i j := hp ▸ (hlinked i j).prev_mem hself
  have hnext : next = s.control ∨ next ∈ lists i j := hn ▸ (hlinked i j).next_mem hself
  have hpos : ∀ {y}, Linkable s.control held y → y ≠ 0 := by
    rintro y (rfl | ⟨m, hm⟩)
    · omega
    · have := hs.above hm
      omega
  obtain ⟨s₂, hs₂⟩ : ∃ s₂, s₂ = (s.setPrevFree next prev).setNextFree prev next := ⟨_, rfl⟩
  have hforth : ∀ y, Linkable s.control held y →
      s₂.nextFree y = Function.update s.nextFree prev next y := by
    intro y hy
    have hyn := hs.links_apart hy (hlink hnext)
    unfold nextFree
    by_cases hyp : y = prev
    · rw [hs₂, hyp, Function.update_self]
      exact write_words_self
    · rw [hs₂, Function.update_of_ne hyp]
      unfold setNextFree setPrevFree
      rw [write_words_ne (by omega), write_words_ne hyn]
  have hback : ∀ y, Linkable s.control held y →
      s₂.prevFree y = Function.update s.prevFree next prev y := by
    intro y hy
    have hpy := hs.links_apart (hlink hprev) hy
    unfold prevFree
    rw [hs₂]
    unfold setNextFree setPrevFree
    rw [write_words_ne (by omega)]
    by_cases hyn : y = next
    · rw [hyn, write_words_self, Function.update_self]
    · rw [write_words_ne (by omega), Function.update_of_ne hyn]
  obtain ⟨s', he, hcontrol, hwords, hblocks, hbits⟩ :=
    removeFreeBlock_eq (i := i) (j := j) h.bitmaps
    (hp ▸ hpos (hlink hprev)) (hn ▸ hpos (hlink hnext)) (hp ▸ hn ▸ hs₂)
  rw [← hn] at hblocks hbits
  have hblock : ∀ i' j', s'.blocks i' j' =
      if i' = i ∧ j' = j ∧ s.blocks i j = a then next else s.blocks i' j' := by
    intro i' j'
    rw [hblocks]
    by_cases hhead : s.blocks i j = a
    · rw [if_pos hhead, setHead_blocks]
      simp [hhead]
    · simp [hhead]
  have hrest := (hlinked i j).remove hself
  rw [← hp, ← hn] at hrest
  have hcut : ∀ {y}, y ∈ (lists i j).erase a ↔ y ∈ lists i j ∧ y ≠ a := by
    intro y
    rw [(hlinked i j).nodup.mem_erase_iff]
    exact and_comm
  have hfield : ∀ y, s'.nextFree y = s₂.nextFree y ∧ s'.prevFree y = s₂.prevFree y := by
    intro y
    unfold nextFree prevFree
    rw [hwords]
    exact ⟨rfl, rfl⟩
  have hlinked' : ∀ i' j', DoublyLinked.Linked s'.nextFree s'.prevFree s'.control (s'.blocks i' j')
      (if i' = i ∧ j' = j then (lists i j).erase a else lists i' j') := by
    intro i' j'
    rw [hcontrol, hblock]
    by_cases hij : i' = i ∧ j' = j
    · obtain ⟨rfl, rfl⟩ := hij
      have hstart : (if i' = i' ∧ j' = j' ∧ s.blocks i' j' = a then next else s.blocks i' j') =
          if s.blocks i' j' = a then next else s.blocks i' j' := by simp
      rw [hstart, if_pos (⟨rfl, rfl⟩ : i' = i' ∧ j' = j')]
      apply hrest.congr
      · intro y hy
        rw [(hfield y).1, hforth y (hlink (.inr (hcut.mp hy).1))]
      · intro y hy
        rw [(hfield y).2, hback y (hlink (.inr (hcut.mp hy).1))]
    · rw [if_neg hij, if_neg fun hall => hij ⟨hall.1, hall.2.1⟩]
      -- what is written to is in the other list, or the null block
      have hother : ∀ {y z}, y ∈ lists i' j' → z = s.control ∨ z ∈ lists i j → y ≠ z := by
        rintro y z hy hz rfl
        rcases hz with rfl | hz
        · exact (hlinked i' j').null_notMem hy
        · obtain ⟨m, hm, hmap⟩ := hlist i' j' y hy
          obtain ⟨m', hm', hmap'⟩ := hlist i j y hz
          rcases hs.apart hm hm' with ⟨-, he⟩ | hlt | hlt
          · rw [he, hmap'] at hmap
            exact hij (Prod.ext_iff.mp hmap.symm)
          · omega
          · omega
      have hyl : ∀ {y}, y ∈ lists i' j' → Linkable s.control held y := by
        intro y hy
        obtain ⟨m, hm, -⟩ := hlist i' j' y hy
        exact .inr ⟨m, hm⟩
      apply (hlinked i' j').congr
      · intro y hy
        rw [(hfield y).1, hforth y (hyl hy), Function.update_of_ne (hother hy hprev)]
      · intro y hy
        rw [(hfield y).2, hback y (hyl hy), Function.update_of_ne (hother hy hnext)]
  refine ⟨s', he, ⟨⟨_, hlinked', ?_⟩, ?_⟩, hcontrol, ?_⟩
  · intro i' j' x
    by_cases hij : i' = i ∧ j' = j
    · obtain ⟨rfl, rfl⟩ := hij
      rw [if_pos ⟨rfl, rfl⟩, hcut, hmem]
      constructor
      · rintro ⟨⟨m, hm, hmap⟩, hxa⟩
        exact ⟨m, ⟨hm, hxa⟩, hmap⟩
      · rintro ⟨m, ⟨hm, hxa⟩, hmap⟩
        exact ⟨⟨m, hm, hmap⟩, hxa⟩
    · rw [if_neg hij, hmem]
      constructor
      · rintro ⟨m, hm, hmap'⟩
        refine ⟨m, ⟨hm, ?_⟩, hmap'⟩
        rintro rfl
        rcases hs.apart hm ha with ⟨-, rfl⟩ | hlt | hlt
        · rw [hmap] at hmap'
          exact hij (Prod.ext_iff.mp hmap'.symm)
        · omega
        · omega
      · rintro ⟨m, ⟨hm, -⟩, hmap⟩
        exact ⟨m, hm, hmap⟩
  · apply hbits.congr
    intro i' j'
    rw [hblock, hcontrol]
    by_cases hall : i' = i ∧ j' = j ∧ s.blocks i j = a
    · obtain ⟨rfl, rfl, hhead⟩ := hall
      have habove := hs.above ha
      rw [if_pos ⟨rfl, rfl, hhead⟩]
      constructor
      · intro hne
        exact ⟨by omega, fun hnone => hne hnone.2.1⟩
      · rintro ⟨-, hnot⟩ he
        exact hnot ⟨hhead, he, rfl, rfl⟩
    · rw [if_neg hall]
      refine (and_iff_left ?_).symm
      rintro ⟨hhead, -, hi', hj'⟩
      exact hall ⟨hi', hj', hhead⟩
  · intro x hx
    have hxp := hx prev (hlink hprev)
    have hxn := hx next (hlink hnext)
    rw [hwords, hs₂]
    unfold setNextFree setPrevFree
    rw [write_words_ne hxp.1, write_words_ne hxn.2]

end Remove

end Bipscript.Tlsf
