import Bipscript.PositionOrder

/-! The order in which events leave a buffer: the insert is stable, and the machine's comparisons
are the exact ones where the cross products stay in order. -/
namespace Bipscript

variable {α : Type*}

/-- The positions compare on the machine as in exact arithmetic. -/
def Event.InOrder (a b : Event α) : Prop := Duration.InOrder a.pos.toDuration b.pos.toDuration

instance (a b : Event α) : Decidable (a.InOrder b) :=
  inferInstanceAs (Decidable (Duration.InOrder _ _))

theorem Event.InOrder.le_eq {a b : Event α} (h : a.InOrder b) : a.le mul32 b = a.le (· * ·) b :=
  Duration.InOrder.le_eq h

theorem Event.InOrder.lt_eq {a b : Event α} (h : a.InOrder b) : a.lt mul32 b = a.lt (· * ·) b :=
  Duration.InOrder.lt_eq h

namespace EventList

variable {elem : Event α} {l : List (Event α)}

theorem insertAfter_mul32 (h : ∀ e ∈ l, e.InOrder elem) :
    insertAfter mul32 elem l = insertAfter (· * ·) elem l := by
  induction l with
  | nil => rfl
  | cons e rest ih =>
    obtain ⟨he, hrest⟩ := List.forall_mem_cons.mp h
    simp only [insertAfter, he.le_eq, ih hrest]

theorem insert_mul32 (h : ∀ e ∈ l, e.InOrder elem) :
    insert mul32 elem l = insert (· * ·) elem l := by
  cases l with
  | nil => rfl
  | cons first rest =>
    have hlast := h _ (List.getLast_mem (List.cons_ne_nil first rest))
    obtain ⟨hfirst, hrest⟩ := List.forall_mem_cons.mp h
    have hlt : elem.lt mul32 first = elem.lt (· * ·) first :=
      Event.InOrder.lt_eq (Duration.InOrder.symm hfirst)
    simp only [insert, hlast.le_eq, hlt, insertAfter_mul32 hrest]

/-- A new event goes behind all those that are not later. -/
theorem exists_insertAfter_eq (elem : Event α) (h : Sorted l) :
    ∃ u v, l = u ++ v ∧ insertAfter (· * ·) elem l = u ++ elem :: v ∧
      ∀ x ∈ v, elem.pos.value < x.pos.value := by
  induction l with
  | nil => exact ⟨[], [], rfl, rfl, by simp⟩
  | cons e rest ih =>
    obtain ⟨he, hrest⟩ := List.pairwise_cons.mp h
    by_cases hle : e.le (· * ·) elem = true
    · obtain ⟨u, v, rfl, hins, hv⟩ := ih hrest
      refine ⟨e :: u, v, rfl, ?_, hv⟩
      rw [insertAfter, if_pos hle, hins]
      rfl
    · refine ⟨[], e :: rest, rfl, by rw [insertAfter, if_neg hle]; rfl, ?_⟩
      rw [Event.le_exact, not_le] at hle
      intro x hx
      rcases List.mem_cons.mp hx with rfl | hx
      · exact hle
      · exact hle.trans_le (he x hx)

/-- So the insert is stable. -/
theorem exists_insert_eq (elem : Event α) (h : Sorted l) :
    ∃ u v, l = u ++ v ∧ insert (· * ·) elem l = u ++ elem :: v ∧
      ∀ x ∈ v, elem.pos.value < x.pos.value := by
  cases l with
  | nil => exact ⟨[], [], rfl, rfl, by simp⟩
  | cons first rest =>
    obtain ⟨hf, hrest⟩ := List.pairwise_cons.mp h
    by_cases hlast : ((first :: rest).getLast (by simp)).le (· * ·) elem = true
    · refine ⟨first :: rest, [], by simp, ?_, by simp⟩
      simp only [insert]
      exact if_pos hlast
    · by_cases hlt : elem.lt (· * ·) first = true
      · refine ⟨[], first :: rest, rfl, ?_, ?_⟩
        · simp only [insert]
          exact (if_neg hlast).trans (if_pos hlt)
        · rw [Event.lt_exact] at hlt
          intro x hx
          rcases List.mem_cons.mp hx with rfl | hx
          · exact hlt
          · exact hlt.trans_le (hf x hx)
      · obtain ⟨u, v, hrest', hins, hv⟩ := exists_insertAfter_eq elem hrest
        refine ⟨first :: u, v, by rw [hrest']; rfl, ?_, hv⟩
        simp only [insert]
        refine (if_neg hlast).trans ((if_neg hlt).trans ?_)
        rw [hins]
        rfl

end EventList

namespace EventBuffer

variable {b : EventBuffer α}

theorem foldl_insert_mul32 {fresh l : List (Event α)}
    (h : ∀ x ∈ l ++ fresh, ∀ y ∈ l ++ fresh, x.InOrder y) :
    fresh.foldl (fun l freshEvent => EventList.insert mul32 freshEvent l) l =
      fresh.foldl (fun l freshEvent => EventList.insert (· * ·) freshEvent l) l := by
  induction fresh generalizing l with
  | nil => rfl
  | cons e fresh ih =>
    have he : ∀ x ∈ l, x.InOrder e := fun x hx => h x (by simp [hx]) e (by simp)
    simp only [List.foldl_cons, EventList.insert_mul32 he]
    apply ih
    have hmem : ∀ x, x ∈ EventList.insert (· * ·) e l ++ fresh → x ∈ l ++ e :: fresh := by
      intro x hx
      rcases List.mem_append.mp hx with hx | hx
      · rcases List.mem_cons.mp ((EventList.insert_perm _ e l).mem_iff.mp hx) with rfl | hx
        · simp
        · simp [hx]
      · simp [hx]
    exact fun x hx y hy => h x (hmem x hx) y (hmem y hy)

/-- Where every two events held compare as their positions do, a call does what it would in exact
arithmetic. -/
theorem update_mul32 (h : ∀ x ∈ b.pending, ∀ y ∈ b.pending, x.InOrder y) :
    b.update mul32 = b.update (· * ·) := by
  have hmem : ∀ x, x ∈ b.sortedEvents ++ b.eventQueue.take UPDATE_MAX_EVENTS → x ∈ b.pending :=
    fun x hx => mem_fetched hx
  simp only [update]
  rw [foldl_insert_mul32 fun x hx y hy => h x (hmem x hx) y (hmem y hy)]

theorem getNextEvent_mul32 (h : ∀ x ∈ b.pending, ∀ y ∈ b.pending, x.InOrder y) (rolling : Bool)
    (pos : JackPosition) (nframes : ℕ) :
    b.getNextEvent mul32 rolling pos nframes = b.getNextEvent (· * ·) rolling pos nframes := by
  simp only [getNextEvent, update_mul32 h]

theorem pairwise_middle {β : Type*} {R : β → β → Prop} {l m m' r : List β} (hp : m'.Perm m)
    (hm : m'.Pairwise R) (h : (l ++ m ++ r).Pairwise R) : (l ++ m' ++ r).Pairwise R := by
  obtain ⟨hleft, hr, hlr⟩ := List.pairwise_append.mp h
  obtain ⟨hl, -, hlm⟩ := List.pairwise_append.mp hleft
  refine List.pairwise_append.mpr ⟨List.pairwise_append.mpr ⟨hl, hm, ?_⟩, hr, ?_⟩
  · exact fun a ha b hb => hlm a ha b (hp.mem_iff.mp hb)
  · intro a ha b hb
    apply hlr a _ b hb
    rcases List.mem_append.mp ha with ha | ha
    · exact List.mem_append_left _ ha
    · exact List.mem_append_right _ (hp.mem_iff.mp ha)

/-- An order of the events that allows each earlier one ahead of a later one. -/
def Allows (R : Position × α → Position × α → Prop) (l : List (Event α)) : Prop :=
  ∀ x ∈ l, ∀ y ∈ l, y.pos.value < x.pos.value → R (key x) (key y) → R (key y) (key x)

theorem pairwise_insert {R : Position × α → Position × α → Prop} {elem : Event α}
    {l rest : List (Event α)} (hs : EventList.Sorted l) (hR : Allows R (elem :: l))
    (h : ((l ++ elem :: rest).map key).Pairwise R) :
    ((EventList.insert (· * ·) elem l ++ rest).map key).Pairwise R := by
  obtain ⟨u, v, rfl, hins, hv⟩ := EventList.exists_insert_eq elem hs
  have hsplit : (u.map key ++ (v ++ [elem]).map key ++ rest.map key).Pairwise R := by
    rw [← List.map_append, ← List.map_append]
    simpa only [List.append_assoc, List.singleton_append] using h
  have hmoved : ((elem :: v).map key).Pairwise R := by
    obtain ⟨hleft, -, -⟩ := List.pairwise_append.mp hsplit
    obtain ⟨-, hvelem, -⟩ := List.pairwise_append.mp hleft
    rw [List.map_append] at hvelem
    obtain ⟨hvv, -, hcross⟩ := List.pairwise_append.mp hvelem
    refine List.pairwise_cons.mpr ⟨?_, hvv⟩
    intro k hk
    obtain ⟨x, hx, rfl⟩ := List.mem_map.mp hk
    exact hR x (by simp [hx]) elem List.mem_cons_self (hv x hx)
      (hcross _ (List.mem_map_of_mem hx) _ (List.mem_map_of_mem (List.mem_singleton_self elem)))
  have hperm : ((elem :: v).map key).Perm ((v ++ [elem]).map key) :=
    (List.perm_append_singleton elem v).symm.map key
  have := pairwise_middle hperm hmoved hsplit
  rw [hins]
  simpa only [List.map_append, List.append_assoc] using this

theorem Allows.mono {R : Position × α → Position × α → Prop} {l l' : List (Event α)}
    (h : Allows R l) (hsub : ∀ x ∈ l', x ∈ l) : Allows R l' :=
  fun x hx y hy => h x (hsub x hx) y (hsub y hy)

theorem pairwise_foldl_insert {R : Position × α → Position × α → Prop}
    {fresh l rest : List (Event α)} (hs : EventList.Sorted l) (hR : Allows R (l ++ fresh))
    (h : ((l ++ (fresh ++ rest)).map key).Pairwise R) :
    ((fresh.foldl (fun l freshEvent => EventList.insert (· * ·) freshEvent l) l ++ rest).map
      key).Pairwise R := by
  induction fresh generalizing l with
  | nil => exact h
  | cons e fresh ih =>
    have hperm := EventList.insert_perm (· * ·) e l
    apply ih (EventList.insert_sorted hs)
    · apply hR.mono
      intro x hx
      simp only [List.mem_append, hperm.mem_iff, List.mem_cons] at hx ⊢
      tauto
    · apply pairwise_insert hs _ h
      apply hR.mono
      intro x hx
      simp only [List.mem_append, List.mem_cons] at hx ⊢
      tauto

/-- Draining in exact arithmetic keeps any order that allows earlier events ahead of later ones. -/
theorem pairwise_update {R : Position × α → Position × α → Prop}
    (hs : EventList.Sorted b.sortedEvents) (hR : Allows R b.pending)
    (h : (b.pending.map key).Pairwise R) :
    ((b.update (· * ·)).pending.map key).Pairwise R := by
  apply pairwise_foldl_insert hs
  · exact hR.mono fun x hx => mem_fetched hx
  · have hsplit : b.eventQueue.take UPDATE_MAX_EVENTS ++ (b.update (· * ·)).eventQueue =
        b.eventQueue := List.take_append_drop _ _
    rw [hsplit]
    exact h

theorem getNextEvent_sorted (hs : EventList.Sorted b.sortedEvents) (rolling : Bool)
    (pos : JackPosition) (nframes : ℕ) :
    EventList.Sorted (b.getNextEvent (· * ·) rolling pos nframes).buffer.sortedEvents := by
  have hkeys := (map_key_getNextEvent (· * ·) rolling pos nframes b).1
  have hupdate : ((b.update (· * ·)).sortedEvents.map key).Pairwise
      fun a b => a.1.value ≤ b.1.value := List.pairwise_map.mpr (update_sorted hs)
  rw [← hkeys] at hupdate
  exact (List.pairwise_map.mp hupdate).sublist (List.sublist_append_right _ _)

/-- Nothing but a late event is recycled, and only while the transport rolls. -/
theorem late_of_recycled {mul : ℕ → ℕ → ℕ} {rolling : Bool} {pos : JackPosition} {nframes : ℕ}
    {x : Event α} (h : x ∈ (b.getNextEvent mul rolling pos nframes).recycled) :
    rolling = true ∧ ∃ y ∈ b.fetched, key y = key x ∧ y.frame pos < -256 := by
  have hlate : ∀ l : List (Event α), ∀ x ∈ (dropLate pos l).1,
      ∃ y ∈ l, key y = key x ∧ y.frame pos < -256 := by
    intro l
    induction l with
    | nil => exact fun x hx => absurd hx List.not_mem_nil
    | cons first rest ih =>
      intro x hx
      simp only [dropLate] at hx
      split at hx
      · rename_i hfirst
        rcases List.mem_cons.mp hx with rfl | hx
        · exact ⟨first, List.mem_cons_self, rfl, hfirst⟩
        · obtain ⟨y, hy, hk⟩ := ih x hx
          exact ⟨y, List.mem_cons_of_mem _ hy, hk⟩
      · cases hx
  rcases getNextEvent_cases mul rolling pos nframes b with ⟨first, rest, -, -, hr⟩ | ⟨-, hr⟩
  · rw [hr] at h
    cases h
  · cases rolling with
    | false =>
      rw [hr] at h
      cases h
    | true =>
      rw [hr, if_pos rfl] at h
      refine ⟨rfl, ?_⟩
      have hmem : x ∈ (dropLate pos (b.update mul).sortedEvents).1 := by
        rcases fetchRolling_cases pos nframes (b.update mul) with
          ⟨-, hf⟩ | ⟨first, rest, -, -, hf⟩ | ⟨first, rest, -, -, hf⟩ <;> rwa [hf] at h
      obtain ⟨y, hy, hk⟩ := hlate _ x hmem
      exact ⟨y, (update_perm mul b).mem_iff.mp hy, hk⟩

end EventBuffer

end Bipscript
