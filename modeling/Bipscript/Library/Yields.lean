import Mathlib.Data.Set.Lattice

/-! Computations on a state that may fail: the value that they end with whatever state of a kind
they start in, and the calls that they make. -/
namespace Program

open Set

variable {σ ι κ α β : Type}

/-- From every state of `I` the computation ends, with a value and a state of `J`. -/
def Ends (I : σ → Prop) (x : StateT σ Option α) (J : α → σ → Prop) : Prop :=
  ∀ s, I s → ∃ a t, x s = some (a, t) ∧ J a t

/-- Each computation of the family ends with the value `a`. -/
def Yields (I : ι → σ → Prop) (x : ι → StateT σ Option α) (a : α) (J : ι → σ → Prop) : Prop :=
  ∀ i, Ends (I i) (x i) fun b t => b = a ∧ J i t

theorem Ends.bind {I : σ → Prop} {x : StateT σ Option α} {f : α → StateT σ Option β}
    {J : α → σ → Prop} {K : β → σ → Prop} (hx : Ends I x J) (hf : ∀ a, Ends (J a) (f a) K) :
    Ends I (x >>= f) K := by
  intro s hs
  obtain ⟨a, t, hxs, ht⟩ := hx s hs
  obtain ⟨b, u, hfs, hu⟩ := hf a t ht
  refine ⟨b, u, ?_, hu⟩
  change (x s).bind (fun r => f r.1 r.2) = _
  rw [hxs]
  exact hfs

theorem Ends.discard {I : σ → Prop} {x : StateT σ Option α} {J : α → σ → Prop}
    (hx : Ends I x J) : Ends I (discard x) fun _ t => ∃ a, J a t := by
  intro s hs
  obtain ⟨a, t, hxs, ht⟩ := hx s hs
  refine ⟨⟨⟩, t, ?_, a, ht⟩
  change (x s).bind (fun r => some (_, r.2)) = _
  rw [hxs]
  rfl

section Rules

variable {I I' J J' K : ι → σ → Prop} {a : α} {b : β}

theorem Yields.pure (h : ∀ i s, I i s → J i s) : Yields I (fun _ => Pure.pure a) a J :=
  fun i s hs => ⟨a, s, rfl, rfl, h i s hs⟩

theorem Yields.lift {x : Option α} (hx : x = some a) : Yields I (fun _ => StateT.lift x) a I := by
  subst hx
  exact fun i s hs => ⟨a, s, rfl, rfl, hs⟩

theorem Yields.mono {x : ι → StateT σ Option α} (h : Yields I x a J)
    (hI : ∀ i s, I' i s → I i s) (hJ : ∀ i s, J i s → J' i s) : Yields I' x a J' := by
  intro i s hs
  obtain ⟨b, t, hxs, hb, ht⟩ := h i s (hI i s hs)
  exact ⟨b, t, hxs, hb, hJ i t ht⟩

/-- What comes next may read of a value only a property that it has. -/
theorem Yields.bind_of {Q : α → Prop} {x : ι → StateT σ Option α}
    {f : ι → α → StateT σ Option β} (hx : ∀ i, Ends (I i) (x i) fun a t => Q a ∧ J i t)
    (hf : ∀ a, Q a → Yields J (fun i => f i a) b K) : Yields I (fun i => x i >>= f i) b K := by
  intro i
  refine (hx i).bind fun a => ?_
  rintro t ⟨ha, ht⟩
  exact hf a ha i t ht

theorem Yields.bind {x : ι → StateT σ Option α} {f : ι → α → StateT σ Option β}
    (hx : Yields I x a J) (hf : Yields J (fun i => f i a) b K) :
    Yields I (fun i => x i >>= f i) b K :=
  Yields.bind_of hx fun _ ha => ha ▸ hf

end Rules

/-! Loops over a list, with what is known after each part of it. -/

section Loops

variable {I : Set κ → ι → σ → Prop} {l : List α}

theorem iUnion_mem_cons (T : α → Set κ) (K : Set κ) (x : α) (l : List α) :
    K ∪ ⋃ y ∈ x :: l, T y = K ∪ T x ∪ ⋃ y ∈ l, T y := by
  ext k
  simp only [mem_union, mem_iUnion, List.mem_cons, exists_prop]
  constructor
  · rintro (hk | ⟨y, rfl | hy, hk⟩)
    · exact Or.inl (Or.inl hk)
    · exact Or.inl (Or.inr hk)
    · exact Or.inr ⟨y, hy, hk⟩
  · rintro ((hk | hk) | ⟨y, hy, hk⟩)
    · exact Or.inl hk
    · exact Or.inr ⟨x, Or.inl rfl, hk⟩
    · exact Or.inr ⟨y, Or.inr hy, hk⟩

theorem iUnion_mem_nil (T : α → Set κ) (K : Set κ) : K ∪ ⋃ y ∈ ([] : List α), T y = K := by
  simp

/-- `Q` holds of what is carried from one element to the next. -/
theorem Yields.foldlM {f : ι → β → α → StateT σ Option β} {g : β → α → β} (T : α → Set κ)
    (Q : β → Prop)
    (hf : ∀ x ∈ l, ∀ K b, Q b → Q (g b x) ∧ Yields (I K) (fun i => f i b x) (g b x) (I (K ∪ T x)))
    (K : Set κ) {b : β} (hb : Q b) :
    Yields (I K) (fun i => l.foldlM (f i) b) (l.foldl g b) (I (K ∪ ⋃ x ∈ l, T x)) := by
  induction l generalizing K b with
  | nil =>
    rw [iUnion_mem_nil]
    exact Yields.pure fun _ _ hs => hs
  | cons x l ih =>
    obtain ⟨hx, hl⟩ := List.forall_mem_cons.mp hf
    obtain ⟨hQ, hy⟩ := hx K b hb
    rw [iUnion_mem_cons]
    simp only [List.foldlM_cons, List.foldl_cons]
    exact hy.bind (ih hl (K ∪ T x) hQ)

theorem Yields.mapM {f : ι → α → StateT σ Option β} {g : α → β} (T : α → Set κ)
    (hf : ∀ x ∈ l, ∀ K, Yields (I K) (fun i => f i x) (g x) (I (K ∪ T x))) (K : Set κ) :
    Yields (I K) (fun i => l.mapM (f i)) (l.map g) (I (K ∪ ⋃ x ∈ l, T x)) := by
  induction l generalizing K with
  | nil =>
    rw [iUnion_mem_nil]
    exact Yields.pure fun _ _ hs => hs
  | cons x l ih =>
    obtain ⟨hx, hl⟩ := List.forall_mem_cons.mp hf
    rw [iUnion_mem_cons]
    simp only [List.mapM_cons, List.map_cons]
    exact (hx K).bind ((ih hl (K ∪ T x)).bind (Yields.pure fun _ _ hs => hs))

theorem Yields.forM {f : ι → α → StateT σ Option PUnit} (T : α → Set κ)
    (hf : ∀ x ∈ l, ∀ K, Yields (I K) (fun i => f i x) ⟨⟩ (I (K ∪ T x))) (K : Set κ) :
    Yields (I K) (fun i => l.forM (f i)) ⟨⟩ (I (K ∪ ⋃ x ∈ l, T x)) := by
  induction l generalizing K with
  | nil =>
    rw [iUnion_mem_nil]
    exact Yields.pure fun _ _ hs => hs
  | cons x l ih =>
    obtain ⟨hx, hl⟩ := List.forall_mem_cons.mp hf
    rw [iUnion_mem_cons]
    simp only [List.forM_eq_forM, List.forM_cons]
    exact (hx K).bind (ih hl (K ∪ T x))

end Loops

/-! What is left of a computation where only the calls that it makes count; a quiet one makes
none. -/

section Calls

variable {τ : Type} {R : σ → τ → Prop} {call : κ → τ → Option τ}

/-- From related states the computation and the calls of `l` in turn both fail, or both end in
related states, the computation with a value of `Q`. -/
def Makes (R : σ → τ → Prop) (call : κ → τ → Option τ) (x : StateT σ Option α) (l : List κ)
    (Q : α → Prop) : Prop :=
  ∀ s t, R s t →
    Option.Rel (fun r t' => Q r.1 ∧ R r.2 t') (x s) (l.foldlM (fun t k => call k t) t)

variable {x : StateT σ Option α} {f : α → StateT σ Option β} {l l' : List κ} {Q : α → Prop}
  {Q' : β → Prop}

theorem Makes.of_call {k : κ}
    (h : ∀ s t, R s t → Option.Rel (fun r t' => Q r.1 ∧ R r.2 t') (x s) (call k t)) :
    Makes R call x [k] Q := by
  intro s t hs
  rw [List.foldlM_cons]
  simp only [List.foldlM_nil, bind_pure]
  exact h s t hs

theorem Makes.pure {a : α} (h : Q a) : Makes R call (Pure.pure a) [] Q :=
  fun _ _ hs => .some ⟨h, hs⟩

theorem Makes.get : Makes R call (MonadState.get : StateT σ Option σ) [] fun _ => True :=
  fun _ _ hs => .some ⟨trivial, hs⟩

theorem Makes.lift {y : Option α} {a : α} (hy : y = some a) :
    Makes R call (StateT.lift y) [] fun b => b = a := by
  subst hy
  exact fun _ _ hs => .some ⟨rfl, hs⟩

theorem Makes.mono {P : α → Prop} (hx : Makes R call x l P) (h : ∀ a, P a → Q a) :
    Makes R call x l Q := by
  intro s t hs
  have hxs := hx s t hs
  generalize x s = r, l.foldlM (fun t k => call k t) t = r' at hxs ⊢
  cases hxs with
  | none => exact .none
  | some hr => exact .some ⟨h _ hr.1, hr.2⟩

theorem Makes.bind (hx : Makes R call x l Q) (hf : ∀ a, Q a → Makes R call (f a) l' Q') :
    Makes R call (x >>= f) (l ++ l') Q' := by
  intro s t hs
  have hxs := hx s t hs
  rw [List.foldlM_append]
  change Option.Rel _ ((x s).bind fun r => f r.1 r.2)
    ((l.foldlM (fun t k => call k t) t).bind fun t => l'.foldlM (fun t k => call k t) t)
  generalize x s = r, l.foldlM (fun t k => call k t) t = r' at hxs ⊢
  cases hxs with
  | none => exact .none
  | some hr => exact hf _ hr.1 _ _ hr.2

theorem Makes.discard (hx : Makes R call x l Q) :
    Makes R call (discard x) l fun _ => True := by
  have h := hx.bind fun _ _ =>
    Makes.pure (R := R) (Q := fun _ : PUnit => True) (a := ⟨⟩) trivial
  rwa [List.append_nil] at h

theorem Makes.foldlM {f : β → α → StateT σ Option β} {l : List α} (T : α → List κ)
    (hf : ∀ x ∈ l, ∀ b, Q' b → Makes R call (f b x) (T x) Q') {b : β} (hb : Q' b) :
    Makes R call (l.foldlM f b) (l.flatMap T) Q' := by
  induction l generalizing b with
  | nil => exact Makes.pure hb
  | cons x l ih =>
    obtain ⟨hx, hl⟩ := List.forall_mem_cons.mp hf
    rw [List.foldlM_cons, List.flatMap_cons]
    exact (hx b hb).bind fun b' hb' => ih hl hb'

theorem Makes.forM {f : α → StateT σ Option PUnit} {l : List α} (T : α → List κ)
    (hf : ∀ x ∈ l, Makes R call (f x) (T x) fun _ => True) :
    Makes R call (l.forM f) (l.flatMap T) fun _ => True := by
  induction l with
  | nil => exact Makes.pure trivial
  | cons x l ih =>
    obtain ⟨hx, hl⟩ := List.forall_mem_cons.mp hf
    rw [List.forM_eq_forM, List.forM_cons, List.flatMap_cons]
    exact hx.bind fun _ _ => ih hl

theorem Makes.foldlM_quiet {f : β → α → StateT σ Option β} {l : List α}
    (hf : ∀ x ∈ l, ∀ b, Q' b → Makes R call (f b x) [] Q') {b : β} (hb : Q' b) :
    Makes R call (l.foldlM f b) [] Q' := by
  have h := Makes.foldlM (fun _ => []) hf hb
  rwa [List.flatMap_eq_nil_iff.mpr fun _ _ => rfl] at h

theorem Makes.forM_quiet {f : α → StateT σ Option PUnit} {l : List α}
    (hf : ∀ x ∈ l, Makes R call (f x) [] fun _ => True) :
    Makes R call (l.forM f) [] fun _ => True := by
  have h := Makes.forM (fun _ => []) hf
  rwa [List.flatMap_eq_nil_iff.mpr fun _ _ => rfl] at h

/-- Each value has, of what `v` reads of it, what `w` reads of its element. -/
theorem Makes.mapM {f : α → StateT σ Option β} {l : List α} {γ : Type} {v : β → γ} {w : α → γ}
    (T : α → List κ) (hf : ∀ x ∈ l, Makes R call (f x) (T x) fun b => v b = w x) :
    Makes R call (l.mapM f) (l.flatMap T) fun l' => l'.map v = l.map w := by
  induction l with
  | nil => exact Makes.pure rfl
  | cons x l ih =>
    obtain ⟨hx, hl⟩ := List.forall_mem_cons.mp hf
    rw [List.mapM_cons, List.flatMap_cons, ← List.append_nil (l.flatMap T)]
    refine hx.bind fun b hb => (ih hl).bind fun l' hl' => Makes.pure ?_
    rw [List.map_cons, List.map_cons, hb, hl']

end Calls

end Program
