import Bipscript.MixerCapacity

/-! How `Mixer::connect` with one gain distributes it: the loop with its two counters. -/
namespace Bipscript

open Audio

variable {P : Type*}

namespace Audio.Mixer

/-- The loop for `fuel` tests of its condition; none, it has not ended. It ends in a remainder by
zero, or with the gains. -/
def distributeLoop (m : Mixer P) (inputOutputCount : ℕ) (initialGain : ℚ) :
    ℕ → ℕ → ℕ → Gains → Option (Outcome Gains)
  | 0, _, _, _ => none
  | fuel + 1, inputCounter, outputCounter, gain =>
    if inputCounter < inputOutputCount ∨ outputCounter < m.audioOutputCount then
      if inputOutputCount = 0 ∨ m.audioOutputCount = 0 then some .undefined
      else
        m.distributeLoop inputOutputCount initialGain fuel (inputCounter + 1) (outputCounter + 1)
          (gain.set (m.connectedInputs + inputCounter % inputOutputCount)
            (outputCounter % m.audioOutputCount) initialGain)
    else some (.returned gain)

/-- The cell of one of the first `rounds`. -/
def Written (m : Mixer P) (inputOutputCount rounds input output : ℕ) : Prop :=
  ∃ counter < rounds, input = m.connectedInputs + counter % inputOutputCount ∧
    output = counter % m.audioOutputCount

/-- The gains after so many rounds. -/
structure Filled (m : Mixer P) (inputOutputCount : ℕ) (initialGain : ℚ) (rounds : ℕ)
    (gain : Gains) : Prop where
  set : ∀ input output, m.Written inputOutputCount rounds input output →
    gain input output = initialGain
  unchanged : ∀ input output, ¬ m.Written inputOutputCount rounds input output →
    gain input output = m.gain input output

/-- Each channel connected feeds an output, and each output is fed by one of them. -/
structure Covered (m : Mixer P) (inputOutputCount rounds : ℕ) : Prop where
  channels : ∀ channel < inputOutputCount, ∃ output < m.audioOutputCount,
    m.Written inputOutputCount rounds (m.connectedInputs + channel) output
  outputs : ∀ output < m.audioOutputCount, ∃ channel < inputOutputCount,
    m.Written inputOutputCount rounds (m.connectedInputs + channel) output

variable {m : Mixer P} {n rounds : ℕ} {x : ℚ} {gain : Gains}

theorem Filled.succ (h : m.Filled n x rounds gain) :
    m.Filled n x (rounds + 1)
      (gain.set (m.connectedInputs + rounds % n) (rounds % m.audioOutputCount) x) := by
  refine ⟨?_, ?_⟩
  · rintro input output ⟨counter, hlt, hi, ho⟩
    by_cases hcell : (input, output) =
        (m.connectedInputs + rounds % n, rounds % m.audioOutputCount)
    · cases hcell
      exact Gains.set_same _ _ _ _
    · rw [Gains.set_other _ _ hcell]
      have hne : counter ≠ rounds := by
        rintro rfl
        exact hcell (Prod.ext hi ho)
      exact h.set _ _ ⟨counter, by omega, hi, ho⟩
  · intro input output hno
    rw [Gains.set_other _ _ fun hcell => hno ⟨rounds, Nat.lt_succ_self _, Prod.mk.inj hcell⟩]
    apply h.unchanged
    rintro ⟨counter, hlt, hcell⟩
    exact hno ⟨counter, by omega, hcell⟩

/-- The first `rounds` of the loop. -/
def distributed (m : Mixer P) (n : ℕ) (x : ℚ) (rounds : ℕ) : Gains :=
  (List.range rounds).foldl (fun gain counter =>
    gain.set (m.connectedInputs + counter % n) (counter % m.audioOutputCount) x) m.gain

theorem distributed_succ (m : Mixer P) (n : ℕ) (x : ℚ) (rounds : ℕ) :
    m.distributed n x (rounds + 1) = (m.distributed n x rounds).set
      (m.connectedInputs + rounds % n) (rounds % m.audioOutputCount) x := by
  unfold distributed
  rw [List.range_succ, List.foldl_append]
  rfl

theorem filled_distributed (m : Mixer P) (n : ℕ) (x : ℚ) (rounds : ℕ) :
    m.Filled n x rounds (m.distributed n x rounds) := by
  induction rounds with
  | zero => exact ⟨by rintro input output ⟨counter, hlt, -⟩; omega, fun _ _ _ => rfl⟩
  | succ rounds ih =>
    rw [distributed_succ]
    exact ih.succ

/-- Both counters count the rounds, and the larger of the two bounds ends them. -/
theorem distributeLoop_eq (hn : n ≠ 0) (hout : m.audioOutputCount ≠ 0) {fuel : ℕ}
    (hrounds : rounds ≤ max n m.audioOutputCount)
    (hfuel : max n m.audioOutputCount - rounds < fuel) :
    m.distributeLoop n x fuel rounds rounds (m.distributed n x rounds) =
      some (.returned (m.distributeGain n x)) := by
  induction fuel generalizing rounds with
  | zero => omega
  | succ fuel ih =>
    unfold distributeLoop
    by_cases hlt : rounds < n ∨ rounds < m.audioOutputCount
    · rw [if_pos hlt, if_neg (by omega), ← distributed_succ]
      exact ih (by omega) (by omega)
    · rw [if_neg hlt]
      obtain rfl : rounds = max n m.audioOutputCount := by omega
      rfl

/-- Without outputs the first round takes a remainder by zero. -/
theorem distributeLoop_undefined (hn : n ≠ 0) (hout : m.audioOutputCount = 0) (fuel : ℕ) :
    m.distributeLoop n x (fuel + 1) 0 0 gain = some .undefined := by
  unfold distributeLoop
  rw [if_pos (Or.inl (Nat.pos_of_ne_zero hn)), if_pos (Or.inr hout)]

/-- The rounds are at least as many as the channels and as the outputs. -/
theorem covered (hn : n ≠ 0) (hout : m.audioOutputCount ≠ 0) :
    m.Covered n (max n m.audioOutputCount) := by
  refine ⟨?_, ?_⟩
  · intro channel hlt
    refine ⟨channel % m.audioOutputCount, Nat.mod_lt _ (Nat.pos_of_ne_zero hout),
      channel, by omega, ?_, rfl⟩
    rw [Nat.mod_eq_of_lt hlt]
  · intro output hlt
    refine ⟨output % n, Nat.mod_lt _ (Nat.pos_of_ne_zero hn), output, by omega, rfl, ?_⟩
    rw [Nat.mod_eq_of_lt hlt]

end Audio.Mixer

/-- `connectsTo` goes on to `q`. -/
def Node.Searches : Node P → P → Prop
  | .mixer m, q => ∃ i < m.connectedInputs, ∃ conn, m.audioInput i = some conn ∧ conn.source = q
  | .plugin pl, q =>
    q ∈ pl.midiInputList.reduceOption.map MidiConnection.source ++ pl.audioSources
  | _, _ => False

/-- Each connector that is counted holds a connection. -/
def Node.Whole : Node P → Prop
  | .mixer m => ∀ i < m.connectedInputs, m.audioInput i ≠ none
  | _ => True

/-- The mixer at the check of the `i`-th connection: its connector is counted, and those before it
are stored. -/
def Audio.Mixer.checking (m : Mixer P) (conns : List (AudioConnection P)) (i : ℕ) : Mixer P :=
  { m with
    connectedInputs := m.connectedInputs + (i + 1)
    audioInput := fun j =>
      if m.connectedInputs ≤ j ∧ j < m.connectedInputs + i then conns[j - m.connectedInputs]?
      else m.audioInput j }

/-- The mixer with the first connection stored. -/
def Audio.Mixer.store (m : Mixer P) (conn : AudioConnection P) : Mixer P :=
  { m with
    connectedInputs := m.connectedInputs + 1
    audioInput := Function.update m.audioInput m.connectedInputs (some conn) }

theorem Audio.Mixer.checking_store (m : Mixer P) (conn : AudioConnection P)
    (conns : List (AudioConnection P)) (i : ℕ) :
    (m.store conn).checking conns i = m.checking (conn :: conns) (i + 1) := by
  unfold checking store
  dsimp only
  congr 1
  · omega
  · funext j
    rcases lt_trichotomy j m.connectedInputs with hlt | rfl | hgt
    · rw [if_neg (by omega), if_neg (by omega), Function.update_of_ne hlt.ne]
    · rw [if_neg (by omega), if_pos (by omega), Function.update_self, Nat.sub_self]
      rfl
    · by_cases hj : j < m.connectedInputs + 1 + i
      · rw [if_pos (by omega), if_pos (by omega),
          show j - m.connectedInputs = (j - (m.connectedInputs + 1)) + 1 by omega]
        rfl
      · rw [if_neg (by omega), if_neg (by omega), Function.update_of_ne hgt.ne']

theorem Audio.Mixer.checking_zero (m : Mixer P) (conns : List (AudioConnection P)) :
    m.checking conns 0 = { m with connectedInputs := m.connectedInputs + 1 } := by
  unfold checking
  congr 1
  funext j
  exact if_neg (by omega)

namespace Graph

def Searches (g : Graph P) (p q : P) : Prop := (g p).Searches q

/-- The search of `connectsTo` from `p` comes to no connector without a connection, and goes no
deeper than the stack allows. -/
structure Searchable (g : Graph P) (depth : ℕ) (p : P) : Prop where
  whole : ∀ q, Relation.ReflTransGen g.Searches p q → (g q).Whole
  short : Digraph.Within g.Searches depth p

theorem not_searchable_zero {g : Graph P} {p : P} : ¬ g.Searchable 0 p :=
  fun h => Digraph.not_within_zero h.short

theorem searchable_succ_iff {g : Graph P} {depth : ℕ} {p : P} :
    g.Searchable (depth + 1) p ↔
      (g p).Whole ∧ ∀ q, g.Searches p q → g.Searchable depth q := by
  constructor
  · intro h
    refine ⟨h.whole p .refl, fun q hq => ⟨fun r hr => h.whole r (.head hq hr), ?_⟩⟩
    exact Digraph.within_succ_iff.mp h.short q hq
  · rintro ⟨hwhole, hrest⟩
    refine ⟨fun r hr => ?_, Digraph.within_succ_iff.mpr fun q hq => (hrest q hq).short⟩
    rcases hr.cases_head with rfl | ⟨q, hq, hr⟩
    · exact hwhole
    · exact (hrest q hq).whole r hr

theorem firstTrue_eq_false_iff {α : Type*} {f : α → Option Bool} {l : List α} :
    firstTrue f l = some false ↔ ∀ x ∈ l, f x = some false := by
  induction l with
  | nil => exact iff_of_true rfl (List.forall_mem_nil _)
  | cons x rest ih =>
    rw [List.forall_mem_cons, ← ih, firstTrue]
    cases f x with
    | none => exact iff_of_false (fun h => by cases h) fun h => by cases h.1
    | some b =>
      cases b with
      | true => exact iff_of_false (fun h => by cases h) fun h => by cases h.1
      | false => exact (and_iff_right rfl).symm

/-- By induction on the depth of the stack. -/
theorem connectsTo_eq_false_iff {g : Graph P} {depth : ℕ} {p : P} (source : P) :
    g.connectsTo depth p source = some false ↔ g.Searchable depth p := by
  induction depth generalizing p with
  | zero => exact iff_of_false (fun h => by cases h) not_searchable_zero
  | succ depth ih =>
    rw [searchable_succ_iff]
    unfold connectsTo Searches
    cases hg : g p with
    | mixer m =>
      refine firstTrue_eq_false_iff.trans ⟨fun h => ⟨fun i hi hnone => ?_, ?_⟩, ?_⟩
      · have hfalse := h i (List.mem_range.mpr hi)
        rw [hnone] at hfalse
        cases hfalse
      · rintro q ⟨i, hi, conn, hconn, rfl⟩
        have hfalse := h i (List.mem_range.mpr hi)
        rw [hconn] at hfalse
        exact ih.mp hfalse
      · rintro ⟨hwhole, hrest⟩ i hi
        obtain ⟨conn, hconn⟩ :=
          Option.ne_none_iff_exists'.mp (hwhole i (List.mem_range.mp hi))
        rw [hconn]
        exact ih.mpr (hrest conn.source ⟨i, List.mem_range.mp hi, conn, hconn, rfl⟩)
    | plugin pl =>
      refine firstTrue_eq_false_iff.trans ⟨fun h => ⟨trivial, fun q hq => ih.mp (h q hq)⟩, ?_⟩
      rintro ⟨-, hrest⟩ q hq
      exact ih.mpr (hrest q hq)
    | audioInputPort | audioStereoInput | midiInputPort | audioListener | midiListener | endpoint =>
      exact iff_of_true rfl ⟨trivial, fun _ hq => hq.elim⟩

variable [DecidableEq P] {g t : Graph P} {p source : P} {m : Mixer P}
  {conns : List (AudioConnection P)} {depth : ℕ}

/-- Each check that is made ends: that of a connection that is the mixer's own, and so refused, is
the last. -/
def ChecksEnd (depth : ℕ) (p : P) (m : Mixer P) (conns : List (AudioConnection P))
    (g : Graph P) : Prop :=
  ∀ i conn, conns[i]? = some conn → (∀ conn' ∈ conns.take (i + 1), conn'.source ≠ p) →
    Searchable (Function.update g p (.mixer (m.checking conns i))) depth conn.source

/-- The first connector counted is met empty on a path back. -/
theorem ChecksEnd.no_path_back {conn : AudioConnection P}
    (h : g.ChecksEnd depth p m (conn :: conns))
    (hempty : m.audioInput m.connectedInputs = none)
    (hne : conn.source ≠ p) : ¬ Relation.ReflTransGen g.Searches conn.source p := by
  intro hpath
  have hsearch := h 0 conn rfl fun conn' hconn' => by
    rw [List.mem_singleton.mp hconn']
    exact hne
  have hagree : ∀ x y, x ≠ p → g.Searches x y →
      Searches (Function.update g p (.mixer (m.checking (conn :: conns) 0))) x y := by
    intro x y hx hxy
    unfold Searches
    rw [Function.update_of_ne hx]
    exact hxy
  have hwhole := hsearch.whole p (Digraph.reaches_of_agree hpath hagree)
  rw [Function.update_self] at hwhole
  refine hwhole m.connectedInputs (Nat.lt_succ_self _) ?_
  show (if _ then _ else _) = none
  rw [if_neg (by omega)]
  exact hempty

/-- A check ends with a refusal of the mixer's own, or else with its search. -/
theorem setConnection_ends_iff {connSource : P} {stored : Graph P}
    {next : Graph P → Outcome (Graph P)} :
    (∃ t, ((setConnection depth g connSource p stored).andThen next).Ends t) ↔
      connSource = p ∨ g.Searchable depth connSource ∧ ∃ t, (next stored).Ends t := by
  unfold setConnection refuses
  by_cases hself : connSource = p
  · rw [if_pos hself]
    exact iff_of_true ⟨g, .thrown _ _⟩ (Or.inl hself)
  · rw [if_neg hself, or_iff_right hself, ← connectsTo_eq_false_iff p]
    cases hc : g.connectsTo depth connSource p with
    | none => exact iff_of_false (by rintro ⟨t, ⟨⟩⟩) nofun
    | some b =>
      cases b with
      | true => exact absurd hc (connectsTo_ne_true g depth connSource p)
      | false => exact (and_iff_right rfl).symm

/-- After the first connection the loop goes on with the rest. -/
theorem checksEnd_cons {conn : AudioConnection P} :
    g.ChecksEnd depth p m (conn :: conns) ↔ conn.source = p ∨
      Searchable (Function.update g p (.mixer (m.checking (conn :: conns) 0))) depth conn.source ∧
        g.ChecksEnd depth p (m.store conn) conns := by
  constructor
  · intro h
    by_cases hself : conn.source = p
    · exact Or.inl hself
    · refine Or.inr ⟨h 0 conn rfl fun conn' hconn' => ?_, fun i conn' hi hne => ?_⟩
      · rw [List.mem_singleton.mp hconn']
        exact hself
      · rw [Mixer.checking_store]
        refine h (i + 1) conn' hi fun conn'' hconn'' => ?_
        rcases List.mem_cons.mp hconn'' with rfl | hconn''
        · exact hself
        · exact hne conn'' hconn''
  · rintro (hself | ⟨hfirst, hrest⟩) i conn' hi hne
    · exact absurd hself (hne conn List.mem_cons_self)
    · cases i with
      | zero =>
        cases hi
        exact hfirst
      | succ i =>
        rw [← Mixer.checking_store]
        exact hrest i conn' hi fun conn'' hconn'' => hne conn'' (List.mem_cons_of_mem _ hconn'')

/-- The gains are not read by a search. -/
theorem searchable_gain {gain : Gains} {q : P} :
    Searchable (Function.update g p (.mixer { m with gain := gain })) depth q ↔
      Searchable (Function.update g p (.mixer m)) depth q := by
  have hsearches : Searches (Function.update g p (.mixer { m with gain := gain })) =
      Searches (Function.update g p (.mixer m)) := by
    funext x
    unfold Searches
    by_cases hx : x = p
    · rw [hx, Function.update_self, Function.update_self]
      rfl
    · rw [Function.update_of_ne hx, Function.update_of_ne hx]
  have hwhole : ∀ x, (Function.update g p (.mixer { m with gain := gain }) x).Whole ↔
      (Function.update g p (.mixer m) x).Whole := by
    intro x
    by_cases hx : x = p
    · rw [hx, Function.update_self, Function.update_self]
      rfl
    · rw [Function.update_of_ne hx, Function.update_of_ne hx]
  constructor
  · rintro ⟨hw, hs⟩
    rw [hsearches] at hw hs
    exact ⟨fun x hx => (hwhole x).mp (hw x hx), hs⟩
  · rintro ⟨hw, hs⟩
    rw [← hsearches] at hw hs
    exact ⟨fun x hx => (hwhole x).mpr (hw x hx), hs⟩

/-- The loop over the connectors ends when its checks do. -/
theorem connectInputs_ends_iff (hm : g p = .mixer m)
    (hfit : m.connectedInputs + conns.length ≤ m.audioInputCount) :
    (∃ t, (connectInputs depth p conns g).Ends t) ↔ g.ChecksEnd depth p m conns := by
  induction conns generalizing g m with
  | nil => exact iff_of_true ⟨g, .returned g⟩ nofun
  | cons conn rest ih =>
    rw [List.length_cons] at hfit
    have hrest := @ih (Function.update g p (.mixer (m.store conn))) (m.store conn)
      (Function.update_self p _ g) (by show m.connectedInputs + 1 + _ ≤ m.audioInputCount; omega)
    unfold ChecksEnd at hrest
    simp only [Function.update_idem] at hrest
    simp only [connectInputs, hm]
    rw [if_pos (by omega), checksEnd_cons, Mixer.checking_zero]
    exact setConnection_ends_iff.trans
      (or_congr_right (and_congr_right fun _ => hrest))

/-- Counted or connected, a mixer has the gains it had. -/
theorem setConnection_gain {m₁ m₂ : Mixer P} {connSource : P} (h₁ : m₁.gain = m.gain)
    (h₂ : m₂.gain = m.gain)
    (h : (setConnection depth (Function.update g p (.mixer m₁)) connSource source
      (Function.update g p (.mixer m₂))).Ends t) :
    ∃ m', t p = .mixer m' ∧ m'.gain = m.gain := by
  unfold setConnection at h
  split at h
  · cases h
  · cases h
    exact ⟨m₁, Function.update_self p _ g, h₁⟩
  · cases h
    exact ⟨m₂, Function.update_self p _ g, h₂⟩

/-- The loop over the connectors leaves the gains alone, also where it throws. -/
theorem connectInputs_gain (hm : g p = .mixer m) (h : (connectInputs depth p conns g).Ends t) :
    ∃ m', t p = .mixer m' ∧ m'.gain = m.gain := by
  induction conns generalizing g m with
  | nil =>
    cases h
    exact ⟨m, hm, rfl⟩
  | cons conn rest ih =>
    simp only [connectInputs, hm] at h
    split at h
    · rcases Outcome.ends_andThen h with h | ⟨s, hs, h⟩
      · exact setConnection_gain (by rfl) (by rfl) h
      · obtain ⟨m', hm', hgain⟩ := setConnection_gain (m := m) (by rfl) (by rfl) hs
        obtain ⟨m'', hm'', hgain'⟩ := ih hm' h
        exact ⟨m'', hm'', hgain'.trans hgain⟩
    · cases h

/-- The loop ends without a remainder by zero, with the gain in just the cells of its rounds, which
cover channels and outputs; and the call ends, and leaves these gains. -/
def Distributes (depth : ℕ) (p source : P) (initialGain : ℚ) (m : Mixer P) (channels : ℕ)
    (g : Graph P) : Prop :=
  ∃ gain : Gains,
    (∃ bound, ∀ fuel, bound ≤ fuel →
      m.distributeLoop channels initialGain fuel 0 0 m.gain = some (.returned gain)) ∧
    m.Filled channels initialGain (max channels m.audioOutputCount) gain ∧
    m.Covered channels (max channels m.audioOutputCount) ∧
    ∃ t m', (g.mixerConnect depth p source initialGain).Ends t ∧ t p = .mixer m' ∧ m'.gain = gain

/-- A mixer with an output ends the call when its checks end. -/
theorem mixerConnect_ends_iff (hm : g p = .mixer m)
    (hc : (g source).audioConnections source = some conns) (hn : conns.length ≠ 0)
    (hfit : m.connectedInputs + conns.length ≤ m.audioInputCount) (hout : m.audioOutputCount ≠ 0)
    (initialGain : ℚ) :
    (∃ t, (g.mixerConnect depth p source initialGain).Ends t) ↔ g.ChecksEnd depth p m conns := by
  rw [mixerConnect_inputs hm hc, Mixer.scalarInputs_of_free hn hout hfit]
  have hstored := Function.update_self p
    (.mixer { m with gain := m.distributeGain conns.length initialGain }) g
  change (∃ t, (connectInputs depth p conns _).Ends t) ↔ _
  refine (connectInputs_ends_iff hstored hfit).trans (forall₄_congr fun i conn _ _ => ?_)
  rw [Function.update_idem]
  exact searchable_gain (m := m.checking conns i)

/-- A source with outputs that fits is distributed iff the mixer has an output and the checks end.
-/
theorem distributes_iff (hm : g p = .mixer m)
    (hc : (g source).audioConnections source = some conns) (hn : 1 ≤ conns.length)
    (hfit : m.connectedInputs + conns.length ≤ m.audioInputCount) (initialGain : ℚ) :
    g.Distributes depth p source initialGain m conns.length ↔
      m.audioOutputCount ≠ 0 ∧ g.ChecksEnd depth p m conns := by
  have hn' : conns.length ≠ 0 := by omega
  constructor
  · rintro ⟨gain, ⟨bound, hloop⟩, -, -, t, m', ht, -⟩
    have hout : m.audioOutputCount ≠ 0 := by
      intro hout
      have hreturned := hloop (bound + 1) (Nat.le_succ bound)
      rw [Mixer.distributeLoop_undefined hn' hout] at hreturned
      cases hreturned
    exact ⟨hout, (mixerConnect_ends_iff hm hc hn' hfit hout initialGain).mp ⟨t, ht⟩⟩
  · rintro ⟨hout, hchecks⟩
    obtain ⟨t, ht⟩ := (mixerConnect_ends_iff hm hc hn' hfit hout initialGain).mpr hchecks
    refine ⟨m.distributeGain conns.length initialGain,
      ⟨max conns.length m.audioOutputCount + 1, fun fuel hfuel => ?_⟩, ?_,
      Mixer.covered hn' hout, t, ?_⟩
    · exact Mixer.distributeLoop_eq hn' hout (Nat.zero_le _) (by omega)
    · exact Mixer.filled_distributed m conns.length initialGain _
    · have hleft := ht
      rw [mixerConnect_inputs hm hc, Mixer.scalarInputs_of_free hn' hout hfit] at hleft
      obtain ⟨m', hm', hgain⟩ := connectInputs_gain (Function.update_self p _ g) hleft
      exact ⟨m', ht, hm', hgain⟩

/-- A mixer with one output, and one with two that reads a port. -/
def stereoMixer : Graph ℕ := fun p =>
  if p = 0 then .mixer (.new 2 1)
  else if p = 1 then .mixer ((Mixer.new 1 2).store ⟨2, 0⟩)
  else .audioInputPort

theorem distributes_stereo : stereoMixer.Distributes 4 0 1 1 (.new 2 1) 2 := by
  have hconns : (stereoMixer 1).audioConnections 1 = some [⟨1, 0⟩, ⟨1, 1⟩] := rfl
  refine (distributes_iff rfl hconns (by decide) (by decide) 1).mpr ⟨by decide, ?_⟩
  intro i conn hi _
  have hlt : i < 2 := (List.getElem?_eq_some_iff.mp hi).1
  apply (connectsTo_eq_false_iff 0).mp
  obtain rfl | rfl : i = 0 ∨ i = 1 := by omega
  · cases hi
    rfl
  · cases hi
    rfl

/-- A port, and a mixer of one input and no output: `getMixer(1, 0)`. -/
def portIntoMixer : Graph ℕ := fun p => if p = 0 then .mixer (.new 1 0) else .audioInputPort

/-- Two mixers, of which the second reads the first. -/
def mixerIntoMixer : Graph ℕ := fun p =>
  if p = 0 then .mixer (.new 1 1)
  else .mixer ((Mixer.new 1 1).store ⟨0, 0⟩)

/-- Without an output there is a remainder by zero. On a path back `connectsTo` dereferences the
null pointer of the connector just counted, however deep the stack. -/
theorem not_distributes :
    (portIntoMixer 0 = .mixer (.new 1 0) ∧
      (portIntoMixer 1).audioConnections 1 = some [⟨1, 0⟩] ∧
      ¬ portIntoMixer.Distributes 4 0 1 1 (.new 1 0) 1) ∧
    mixerIntoMixer 0 = .mixer (.new 1 1) ∧
      (mixerIntoMixer 1).audioConnections 1 = some [⟨1, 0⟩] ∧
      ∀ depth, ¬ mixerIntoMixer.Distributes depth 0 1 1 (.new 1 1) 1 := by
  refine ⟨⟨rfl, rfl, ?_⟩, rfl, rfl, ?_⟩
  · rintro ⟨gain, ⟨bound, hloop⟩, -⟩
    have hreturned := hloop (bound + 1) (Nat.le_succ bound)
    rw [Mixer.distributeLoop_undefined (by decide) (by rfl)] at hreturned
    cases hreturned
  · rintro depth ⟨gain, -, -, -, t, m', ht, -⟩
    have hconns : (mixerIntoMixer 1).audioConnections 1 = some [⟨1, 0⟩] := rfl
    have hchecks := (mixerConnect_ends_iff rfl hconns (by decide) (by decide) (by decide) 1).mp
      ⟨t, ht⟩
    exact hchecks.no_path_back rfl (by decide)
      (.single ⟨0, Nat.zero_lt_one, ⟨0, 0⟩, rfl, rfl⟩)

end Graph

end Bipscript
