import Mathlib.Data.Fintype.Basic
import Mathlib.Logic.Function.Basic
import Mathlib.Logic.Relation

namespace Network

variable {ι σ M R Λ κ : Type*}

/-- `Λ` labels the moves of a component on its own, `κ` the kinds of channel
between two components. -/
structure Net (ι σ M R Λ κ : Type*) where
  act : ι → Λ → σ → Option σ
  out : ι → ι → κ → σ → Option (M × (R → σ))
  inp : ι → ι → κ → M → σ → Option (R × σ)

variable [DecidableEq ι]

/-- One step of the network: a move of one component or a rendezvous of two. -/
inductive Step (N : Net ι σ M R Λ κ) : (ι → σ) → (ι → σ) → Prop
  | act {s : ι → σ} (r : ι) (l : Λ) {t : σ} (h : N.act r l (s r) = some t) :
      Step N s (Function.update s r t)
  | comm {s : ι → σ} (i j : ι) (c : κ) {m : M} {g : R → σ} {a : R} {t : σ} (hij : i ≠ j)
      (ho : N.out i j c (s i) = some (m, g)) (hi : N.inp j i c m (s j) = some (a, t)) :
      Step N s (Function.update (Function.update s i (g a)) j t)

abbrev Reaches (N : Net ι σ M R Λ κ) : (ι → σ) → (ι → σ) → Prop :=
  Relation.ReflTransGen (Step N)

/-- A state from which no step leads on. -/
def Final (N : Net ι σ M R Λ κ) (s : ι → σ) : Prop := ∀ s', ¬ Step N s s'

/-- The invariant of every component is kept by its own moves, and any two
different moves of one component commute while the invariant holds. -/
structure Lawful (N : Net ι σ M R Λ κ) (I : ι → σ → Prop) : Prop where
  act_inv : ∀ {r l s t}, I r s → N.act r l s = some t → I r t
  out_inv : ∀ {i j c s m g}, I i s → N.out i j c s = some (m, g) → ∀ a, I i (g a)
  inp_inv : ∀ {i j c m s a t}, I j s → N.inp j i c m s = some (a, t) → I j t
  act_act : ∀ {r l l' s t t'}, I r s → l ≠ l' → N.act r l s = some t →
    N.act r l' s = some t' → ∃ u, N.act r l' t = some u ∧ N.act r l t' = some u
  act_out : ∀ {r l j c s t m g}, I r s → N.act r l s = some t →
    N.out r j c s = some (m, g) →
    ∃ g', N.out r j c t = some (m, g') ∧ ∀ a, N.act r l (g a) = some (g' a)
  act_inp : ∀ {r l i c m s t a t'}, I r s → N.act r l s = some t →
    N.inp r i c m s = some (a, t') →
    ∃ u, N.inp r i c m t = some (a, u) ∧ N.act r l t' = some u
  out_out : ∀ {r j j' c c' s m m' g g'}, I r s → (j ≠ j' ∨ c ≠ c') →
    N.out r j c s = some (m, g) → N.out r j' c' s = some (m', g') →
    ∃ h : R → R → σ, (∀ a, N.out r j' c' (g a) = some (m', fun b => h a b)) ∧
      ∀ b, N.out r j c (g' b) = some (m, fun a => h a b)
  out_inp : ∀ {r j i c c' m m' s g a t}, I r s → N.out r j c s = some (m, g) →
    N.inp r i c' m' s = some (a, t) →
    ∃ g', N.out r j c t = some (m, g') ∧ ∀ b, N.inp r i c' m' (g b) = some (a, g' b)
  inp_inp : ∀ {r i i' c c' m m' s a a' t t'}, I r s → (i ≠ i' ∨ c ≠ c') →
    N.inp r i c m s = some (a, t) → N.inp r i' c' m' s = some (a', t') →
    ∃ u, N.inp r i' c' m' t = some (a', u) ∧ N.inp r i c m t' = some (a, u)

variable {N : Net ι σ M R Λ κ} {I : ι → σ → Prop}

theorem Step.act_to {s s' : ι → σ} (r : ι) (l : Λ) (h : N.act r l (s r) = some (s' r))
    (hs : ∀ q, q ≠ r → s' q = s q) : Step N s s' := by
  have he : s' = Function.update s r (s' r) := by
    funext q
    by_cases hq : q = r
    · subst q; simp
    · simp [hq, hs q hq]
  rw [he]
  exact Step.act r l h

theorem Step.comm_to {s s' : ι → σ} (i j : ι) (c : κ) {m : M} {g : R → σ} {a : R} (hij : i ≠ j)
    (ho : N.out i j c (s i) = some (m, g)) (hi : N.inp j i c m (s j) = some (a, s' j))
    (hg : s' i = g a) (hs : ∀ q, q ≠ i → q ≠ j → s' q = s q) : Step N s s' := by
  have he : s' = Function.update (Function.update s i (g a)) j (s' j) := by
    funext q
    by_cases hq : q = j
    · subst q; simp
    · by_cases hq' : q = i
      · subst q; simp [hq, hg]
      · simp [hq, hq', hs q hq' hq]
  rw [he]
  exact Step.comm i j c hij ho hi

theorem Lawful.step_inv (hN : Lawful N I) {s s' : ι → σ} (hs : ∀ r, I r (s r))
    (h : Step N s s') : ∀ r, I r (s' r) := by
  cases h with
  | act r l h =>
    intro q
    by_cases hq : q = r
    · subst q; simpa using hN.act_inv (hs r) h
    · simpa [hq] using hs q
  | comm i j c hij ho hi =>
    intro q
    by_cases hq : q = j
    · subst q; simpa using hN.inp_inv (hs j) hi
    · by_cases hq' : q = i
      · subst q; simpa [hq] using hN.out_inv (hs i) ho _
      · simpa [hq, hq'] using hs q

theorem Lawful.reaches_inv (hN : Lawful N I) {s s' : ι → σ} (hs : ∀ r, I r (s r))
    (h : Reaches N s s') : ∀ r, I r (s' r) := by
  induction h with
  | refl => exact hs
  | tail _ hstep ih => exact hN.step_inv ih hstep

/-- Two steps from one state either agree or are closed by one more step each. -/
def Joins (N : Net ι σ M R Λ κ) (a b : ι → σ) : Prop :=
  a = b ∨ ∃ d, Step N a d ∧ Step N b d

theorem Joins.symm {a b : ι → σ} (h : Joins N a b) : Joins N b a := by
  rcases h with h | ⟨d, ha, hb⟩
  · exact Or.inl h.symm
  · exact Or.inr ⟨d, hb, ha⟩

theorem Lawful.joins_act_act (hN : Lawful N I) {s : ι → σ} (hs : ∀ r, I r (s r)) {r r' : ι}
    {l l' : Λ} {t t' : σ} (h : N.act r l (s r) = some t) (h' : N.act r' l' (s r') = some t') :
    Joins N (Function.update s r t) (Function.update s r' t') := by
  classical
  by_cases hr : r = r'
  · subst r'
    by_cases hl : l = l'
    · subst l'
      have ht : t = t' := by simpa [h] using h'
      exact Or.inl (by rw [ht])
    · obtain ⟨u, hu, hu'⟩ := hN.act_act (hs r) hl h h'
      refine Or.inr ⟨Function.update s r u, Step.act_to r l' (by simpa using hu) ?_,
        Step.act_to r l (by simpa using hu') ?_⟩ <;> intro q hq <;> simp [hq]
  · refine Or.inr ⟨Function.update (Function.update s r t) r' t',
      Step.act r' l' (by simpa [Ne.symm hr] using h'), ?_⟩
    rw [Function.update_comm hr]
    exact Step.act r l (by simpa [hr] using h)

theorem Lawful.joins_act_comm (hN : Lawful N I) {s : ι → σ} (hs : ∀ r, I r (s r)) {r i j : ι}
    {l : Λ} {c : κ} {t tj : σ} {m : M} {g : R → σ} {a : R} (h : N.act r l (s r) = some t)
    (hij : i ≠ j) (ho : N.out i j c (s i) = some (m, g))
    (hi : N.inp j i c m (s j) = some (a, tj)) :
    Joins N (Function.update s r t) (Function.update (Function.update s i (g a)) j tj) := by
  have hji : j ≠ i := hij.symm
  by_cases hri : r = i
  · subst r
    -- the component that moves is the sender
    obtain ⟨g', ho', ha⟩ := hN.act_out (hs i) h ho
    refine Or.inr ⟨Function.update (Function.update s i (g' a)) j tj,
      Step.comm_to i j c (g := g') (a := a) hij (by simpa using ho') (by simpa [hji] using hi)
        (by simp [hij]) ?_,
      Step.act_to i l (by simpa [hij] using ha a) ?_⟩
    · intro q hq hq'; simp [hq, hq']
    · intro q hq; by_cases hq' : q = j <;> simp [hq, hq']
  by_cases hrj : r = j
  · subst r
    -- it is the receiver
    obtain ⟨u, hu, hu'⟩ := hN.act_inp (hs j) h hi
    refine Or.inr ⟨Function.update (Function.update s i (g a)) j u,
      Step.comm_to i j c (g := g) (a := a) hij (by simpa [hij] using ho) (by simpa using hu)
        (by simp [hij]) ?_,
      Step.act_to j l (by simpa using hu') ?_⟩
    · intro q hq hq'; simp [hq, hq']
    · intro q hq; simp [hq]
  · refine Or.inr ⟨Function.update (Function.update (Function.update s i (g a)) j tj) r t,
      Step.comm_to i j c (g := g) (a := a) hij (by simpa [Ne.symm hri] using ho)
        (by simpa [Ne.symm hrj] using hi) (by simp [hij, Ne.symm hri]) ?_,
      Step.act r l (by simpa [hri, hrj] using h)⟩
    intro q hq hq'
    simp [Function.update_apply, hq, hq']

section Rendezvous

variable {s : ι → σ} {i j i' j' : ι} {c c' : κ} {t t' : σ} {m m' : M} {g g' : R → σ} {a a' : R}
  (hij : i ≠ j) (ho : N.out i j c (s i) = some (m, g)) (hi : N.inp j i c m (s j) = some (a, t))
  (hij' : i' ≠ j') (ho' : N.out i' j' c' (s i') = some (m', g'))
  (hi' : N.inp j' i' c' m' (s j') = some (a', t'))

include hij ho hi hij' ho' hi'

theorem Lawful.joins_same_sender (hN : Lawful N I) (hs : ∀ r, I r (s r)) (hii : i = i') :
    Joins N (Function.update (Function.update s i (g a)) j t)
      (Function.update (Function.update s i' (g' a')) j' t') := by
  classical
  subst i'
  have hji := hij.symm
  have hji' := hij'.symm
  by_cases hjc : j = j' ∧ c = c'
  · obtain ⟨rfl, rfl⟩ := hjc
    have e : (m, g) = (m', g') := by simpa [ho] using ho'
    obtain ⟨rfl, rfl⟩ := Prod.mk.inj e
    have e' : (a, t) = (a', t') := by simpa [hi] using hi'
    obtain ⟨rfl, rfl⟩ := Prod.mk.inj e'
    exact Or.inl rfl
  have hne : j ≠ j' ∨ c ≠ c' := by tauto
  obtain ⟨f, hf, hf'⟩ := hN.out_out (hs i) hne ho ho'
  by_cases hjj : j = j'
  · -- two channels between the same two components
    subst j'
    obtain ⟨u, hu, hu'⟩ := hN.inp_inp (hs j) (Or.inr (by tauto)) hi hi'
    refine Or.inr ⟨Function.update (Function.update s i (f a a')) j u,
      Step.comm_to i j c' (g := fun b => f a b) (a := a') hij (by simpa [hij] using hf a)
        (by simpa using hu) (by simp [hij]) ?_,
      Step.comm_to i j c (g := fun b => f b a') (a := a) hij (by simpa [hij] using hf' a')
        (by simpa using hu') (by simp [hij]) ?_⟩ <;>
    · intro q hq hq'; simp [hq, hq']
  · have hjj' : j' ≠ j := Ne.symm hjj
    refine Or.inr ⟨Function.update (Function.update (Function.update s i (f a a')) j t) j' t',
      Step.comm_to i j' c' (g := fun b => f a b) (a := a') hij' (by simpa [hij] using hf a)
        (by simpa [hjj', hji'] using hi') (by simp [hij, hij']) ?_,
      Step.comm_to i j c (g := fun b => f b a') (a := a) hij (by simpa [hij'] using hf' a')
        (by simpa [hjj, hji] using hi) (by simp [hij, hij']) ?_⟩ <;>
    · intro q hq hq'; simp [hq, hq', Function.update_apply]

theorem Lawful.joins_same_receiver (hN : Lawful N I) (hs : ∀ r, I r (s r)) (hii : i ≠ i')
    (hjj : j = j') : Joins N (Function.update (Function.update s i (g a)) j t)
      (Function.update (Function.update s i' (g' a')) j' t') := by
  subst j'
  obtain ⟨u, hu, hu'⟩ := hN.inp_inp (hs j) (Or.inl hii) hi hi'
  have hii' : i' ≠ i := Ne.symm hii
  refine Or.inr ⟨Function.update (Function.update (Function.update s i (g a)) i' (g' a')) j u,
    Step.comm_to i' j c' (g := g') (a := a') hij' (by simpa [hij', hii'] using ho')
      (by simpa using hu) (by simp [hij']) ?_,
    Step.comm_to i j c (g := g) (a := a) hij (by simpa [hij, hii] using ho)
      (by simpa using hu') (by simp [hij, hii]) ?_⟩ <;>
  · intro q hq hq'; simp [hq, hq', Function.update_apply]

theorem Lawful.joins_chained (hN : Lawful N I) (hs : ∀ r, I r (s r)) (hii : i ≠ i')
    (hji : j ≠ j') (hch : i = j') : Joins N (Function.update (Function.update s i (g a)) j t)
      (Function.update (Function.update s i' (g' a')) j' t') := by
  subst j'
  have hii' : i' ≠ i := Ne.symm hii
  obtain ⟨f, hf, hf'⟩ := hN.out_inp (hs i) ho hi'
  by_cases hji1 : j = i'
  · -- the two components send to each other
    subst i'
    obtain ⟨f', hfb, hfb'⟩ := hN.out_inp (hs j) ho' hi
    refine Or.inr ⟨Function.update (Function.update s i (f a)) j (f' a'),
      Step.comm_to j i c' (g := f') (a := a') hji (by simpa using hfb)
        (by simpa [hij] using hf' a) (by simp) ?_,
      Step.comm_to i j c (g := f) (a := a) hij (by simpa using hf)
        (by simpa [hji] using hfb' a') (by simp [hij]) ?_⟩ <;>
    · intro q hq hq'; simp [hq, hq']
  · have hji2 : i' ≠ j := Ne.symm hji1
    refine Or.inr
      ⟨Function.update (Function.update (Function.update s i (f a)) j t) i' (g' a'),
      Step.comm_to i' i c' (g := g') (a := a') hij' (by simpa [hji2, hii'] using ho')
        (by simpa [hij, hii] using hf' a) (by simp) ?_,
      Step.comm_to i j c (g := f) (a := a) hij (by simpa using hf)
        (by simpa [hji, hji1] using hi) (by simp [hij, hii]) ?_⟩ <;>
    · intro q hq hq'; simp [hq, hq', Function.update_apply]

theorem joins_disjoint (hii : i' ≠ i) (hjj : j' ≠ j) (hij1 : j' ≠ i) (hji1 : i' ≠ j) :
    Joins N (Function.update (Function.update s i (g a)) j t)
      (Function.update (Function.update s i' (g' a')) j' t') := by
  refine Or.inr ⟨Function.update (Function.update
      (Function.update (Function.update s i (g a)) j t) i' (g' a')) j' t',
    Step.comm i' j' c' hij' (by simpa [hji1, hii] using ho') (by simpa [hij1, hjj] using hi'),
    Step.comm_to i j c (g := g) (a := a) hij (by simpa [hij1.symm, hii.symm] using ho)
      (by simpa [hjj.symm, hji1.symm] using hi) (by simp [hij, hij1.symm, hii.symm]) ?_⟩
  intro q hq hq'; simp [hq, hq', Function.update_apply]

theorem Lawful.joins_comm_comm (hN : Lawful N I) (hs : ∀ r, I r (s r)) :
    Joins N (Function.update (Function.update s i (g a)) j t)
      (Function.update (Function.update s i' (g' a')) j' t') := by
  by_cases hii : i = i'
  · exact hN.joins_same_sender hij ho hi hij' ho' hi' hs hii
  by_cases hjj : j = j'
  · exact hN.joins_same_receiver hij ho hi hij' ho' hi' hs hii hjj
  by_cases hij1 : i = j'
  · exact hN.joins_chained hij ho hi hij' ho' hi' hs hii hjj hij1
  by_cases hji1 : j = i'
  · exact (hN.joins_chained hij' ho' hi' hij ho hi hs (Ne.symm hii) (Ne.symm hjj) hji1.symm).symm
  · exact joins_disjoint hij ho hi hij' ho' hi' (Ne.symm hii) (Ne.symm hjj) (Ne.symm hij1)
      (Ne.symm hji1)

end Rendezvous

theorem Lawful.joins (hN : Lawful N I) {s a b : ι → σ} (hs : ∀ r, I r (s r))
    (ha : Step N s a) (hb : Step N s b) : Joins N a b := by
  cases ha with
  | act r l h =>
    cases hb with
    | act r' l' h' => exact hN.joins_act_act hs h h'
    | comm i j c hij ho hi => exact hN.joins_act_comm hs h hij ho hi
  | comm i j c hij ho hi =>
    cases hb with
    | act r l h => exact (hN.joins_act_comm hs h hij ho hi).symm
    | comm i' j' c' hij' ho' hi' => exact hN.joins_comm_comm hij ho hi hij' ho' hi' hs

theorem Lawful.confluent (hN : Lawful N I) {s a b : ι → σ} (hs : ∀ r, I r (s r))
    (ha : Reaches N s a) (hb : Reaches N s b) : ∃ d, Reaches N a d ∧ Reaches N b d := by
  -- restrict the steps to states that satisfy the invariant, where the diamond holds
  let G : (ι → σ) → (ι → σ) → Prop := fun x y => (∀ r, I r (x r)) ∧ Step N x y
  have lift : ∀ {x}, Reaches N s x → Relation.ReflTransGen G s x := by
    intro x hx
    induction hx with
    | refl => exact .refl
    | tail hy hstep ih => exact ih.tail ⟨hN.reaches_inv hs hy, hstep⟩
  have diamond : ∀ x y z, G x y → G x z →
      ∃ d, Relation.ReflGen G y d ∧ Relation.ReflTransGen G z d := by
    rintro x y z ⟨hx, hy⟩ ⟨-, hz⟩
    rcases hN.joins hx hy hz with rfl | ⟨d, hyd, hzd⟩
    · exact ⟨y, .refl, .refl⟩
    · exact ⟨d, .single ⟨hN.step_inv hx hy, hyd⟩, .single ⟨hN.step_inv hx hz, hzd⟩⟩
  obtain ⟨d, had, hbd⟩ := Relation.church_rosser diamond (lift ha) (lift hb)
  have drop : Relation.ReflTransGen G ≤ Reaches N :=
    Relation.ReflTransGen.mono fun _ _ hg => hg.2
  exact ⟨d, drop _ _ had, drop _ _ hbd⟩

theorem Final.eq_of_reaches {s d : ι → σ} (hs : Final N s) (h : Reaches N s d) : d = s := by
  rcases h.cases_head with h | ⟨t, ht, -⟩
  · exact h.symm
  · exact absurd ht (hs t)

theorem Lawful.reaches_final (hN : Lawful N I) {s a e : ι → σ} (hs : ∀ r, I r (s r))
    (he : Reaches N s e) (hfin : Final N e) (ha : Reaches N s a) : Reaches N a e := by
  obtain ⟨d, had, hed⟩ := hN.confluent hs ha he
  rwa [hfin.eq_of_reaches hed] at had

section Simulation

variable {σ' : Type*} {T : Net ι σ' M R Λ κ} {S : ι → σ → σ' → Prop}

theorem reaches_simulates
    (hact : ∀ {r l s t s'}, S r s s' → N.act r l s = some t →
      ∃ t', T.act r l s' = some t' ∧ S r t t')
    (hout : ∀ {i j c s m g s'}, S i s s' → N.out i j c s = some (m, g) →
      ∃ g', T.out i j c s' = some (m, g') ∧ ∀ a, S i (g a) (g' a))
    (hinp : ∀ {i j c m s a t s'}, S j s s' → N.inp j i c m s = some (a, t) →
      ∃ t', T.inp j i c m s' = some (a, t') ∧ S j t t')
    {s e : ι → σ} {s' : ι → σ'} (hs : ∀ r, S r (s r) (s' r)) (h : Reaches N s e) :
    ∃ e', Reaches T s' e' ∧ ∀ r, S r (e r) (e' r) := by
  induction h with
  | refl => exact ⟨s', .refl, hs⟩
  | tail _ hstep ih =>
    obtain ⟨d', hd', hS⟩ := ih
    cases hstep with
    | act r l h =>
      obtain ⟨t', ht', hr⟩ := hact (hS r) h
      refine ⟨Function.update d' r t', hd'.tail (Step.act r l ht'), fun q => ?_⟩
      by_cases hq : q = r
      · subst q
        simpa using hr
      · simpa [hq] using hS q
    | @comm i j c m g a t hij ho hi =>
      obtain ⟨g', ho', hg⟩ := hout (hS i) ho
      obtain ⟨t', hi', hj⟩ := hinp (hS j) hi
      refine ⟨_, hd'.tail (Step.comm i j c hij ho' hi'), fun q => ?_⟩
      by_cases hqj : q = j
      · subst q
        simpa using hj
      · by_cases hqi : q = i
        · subst q
          simpa [hqj] using hg a
        · simpa [hqj, hqi] using hS q

end Simulation

/-- Moves of one component on its own. -/
abbrev Moves (N : Net ι σ M R Λ κ) (r : ι) : σ → σ → Prop :=
  Relation.ReflTransGen fun t t' => ∃ l, N.act r l t = some t'

omit [DecidableEq ι] in
theorem Moves.one {r : ι} {t t' : σ} (l : Λ) (h : N.act r l t = some t') : Moves N r t t' :=
  .single ⟨l, h⟩

theorem Moves.reaches {r : ι} {s : ι → σ} {t : σ} (h : Moves N r (s r) t) :
    Reaches N s (Function.update s r t) := by
  induction h with
  | refl => rw [Function.update_eq_self]
  | @tail t t' _ hstep ih =>
    obtain ⟨l, hl⟩ := hstep
    refine ih.tail (Step.act_to r l (by simpa using hl) ?_)
    intro q hq
    simp [hq]

theorem reaches_of_moves [Fintype ι] {s s' : ι → σ} (h : ∀ r, Moves N r (s r) (s' r)) :
    Reaches N s s' := by
  have main : ∀ T : Finset ι, Reaches N s (fun q => if q ∈ T then s' q else s q) := by
    intro T
    induction T using Finset.induction_on with
    | empty => simpa using Relation.ReflTransGen.refl
    | insert r T hr ih =>
      apply ih.trans
      have hm : Moves N r ((fun q => if q ∈ T then s' q else s q) r) (s' r) := by
        simpa [hr] using h r
      convert Moves.reaches (s := fun q => if q ∈ T then s' q else s q) hm using 1
      funext q
      by_cases hq : q = r <;> simp [hq]
  simpa using main Finset.univ

theorem reaches_of_comms (c : κ) (mid : ι → Bool → Bool → σ) (S : Finset ι) (dst : ι → ι)
    (hne : ∀ i ∈ S, i ≠ dst i) (hinj : ∀ i ∈ S, ∀ j ∈ S, dst i = dst j → i = j)
    (hcomm : ∀ i ∈ S, ∀ x y, ∃ m g a, N.out i (dst i) c (mid i false y) = some (m, g) ∧
      N.inp (dst i) i c m (mid (dst i) x false) = some (a, mid (dst i) x true) ∧
      g a = mid i true y) :
    Reaches N (fun r => mid r false false)
      (fun r => mid r (decide (r ∈ S)) (decide (r ∈ S.image dst))) := by
  induction S using Finset.induction_on with
  | empty => simpa using Relation.ReflTransGen.refl
  -- the last message to go is that of `i`
  | insert i S hi ih =>
    refine (ih (fun j hj => hne j (by simp [hj]))
      (fun j hj k hk => hinj j (by simp [hj]) k (by simp [hk]))
      (fun j hj => hcomm j (by simp [hj]))).tail ?_
    have hid : i ≠ dst i := hne i (by simp)
    have hfresh : dst i ∉ S.image dst := by
      intro hmem
      obtain ⟨j, hj, he⟩ := Finset.mem_image.mp hmem
      exact hi (hinj j (by simp [hj]) i (by simp) he ▸ hj)
    obtain ⟨m, g, a, ho, hin, hg⟩ :=
      hcomm i (by simp) (decide (dst i ∈ S)) (decide (i ∈ S.image dst))
    refine Step.comm_to i (dst i) c (m := m) (g := g) (a := a) hid ?_ ?_ ?_ ?_
    · simpa only [hi, decide_false] using ho
    · have hins : (dst i ∈ insert i S) = (dst i ∈ S) := by simp [hid.symm]
      simpa only [hfresh, hins, decide_false, Finset.image_insert, Finset.mem_insert_self,
        decide_true] using hin
    · have hins : (i ∈ insert (dst i) (S.image dst)) = (i ∈ S.image dst) := by simp [hid]
      simp only [Finset.mem_insert_self, decide_true, Finset.image_insert, hins, hg]
    · intro q hq hq'
      simp only [Finset.image_insert, Finset.mem_insert, hq, hq', false_or]

/-- A step by name. -/
inductive Move (ι Λ κ : Type*) where
  | act (r : ι) (l : Λ)
  | comm (i j : ι) (c : κ)

def fire (N : Net ι σ M R Λ κ) (s : ι → σ) : Move ι Λ κ → Option (ι → σ)
  | .act r l => (N.act r l (s r)).map (Function.update s r)
  | .comm i j c =>
    if i = j then none
    else (N.out i j c (s i)).bind fun o => (N.inp j i c o.1 (s j)).map fun x =>
      Function.update (Function.update s i (o.2 x.1)) j x.2

def fireAll (N : Net ι σ M R Λ κ) : List (Move ι Λ κ) → (ι → σ) → Option (ι → σ)
  | [], s => some s
  | m :: ms, s => (fire N s m).bind (fireAll N ms)

theorem fire_step {s s' : ι → σ} {m : Move ι Λ κ} (h : fire N s m = some s') : Step N s s' := by
  cases m with
  | act r l =>
    obtain ⟨t, ht, rfl⟩ := Option.map_eq_some_iff.mp h
    exact Step.act r l ht
  | comm i j c =>
    simp only [fire] at h
    split_ifs at h with hij
    obtain ⟨o, ho, h⟩ := Option.bind_eq_some_iff.mp h
    obtain ⟨x, hx, rfl⟩ := Option.map_eq_some_iff.mp h
    exact Step.comm i j c hij ho hx

theorem reaches_of_fireAll {ms : List (Move ι Λ κ)} {s s' : ι → σ}
    (h : fireAll N ms s = some s') : Reaches N s s' := by
  induction ms generalizing s with
  | nil =>
    obtain rfl := Option.some.inj h
    exact .refl
  | cons m ms ih =>
    obtain ⟨t, ht, hrest⟩ := Option.bind_eq_some_iff.mp h
    exact .head (fire_step ht) (ih hrest)

end Network
