import Mathlib.Data.List.Nodup

namespace Handles

variable {ε A B : Type}

structure Grant where
  handle : ℕ
  madeFrom : List ℕ
  deriving DecidableEq

def handles (es : List Grant) : List ℕ := es.map Grant.handle

/-- `live` has the newest first, and no handle is given out twice. -/
structure Driver where
  live : List Grant
  next : ℕ
  faults : List ℕ
  nodup : (handles live).Nodup
  lt_next : ∀ h ∈ handles live, h < next
  closed : ∀ e ∈ live, ∀ p ∈ e.madeFrom, p ∈ handles live

theorem mem_handles {es : List Grant} {h : ℕ} : h ∈ handles es ↔ ∃ e ∈ es, e.handle = h :=
  List.mem_map

@[simp] theorem handles_append (es fs : List Grant) :
    handles (es ++ fs) = handles es ++ handles fs :=
  List.map_append

@[simp] theorem handles_cons (e : Grant) (es : List Grant) :
    handles (e :: es) = e.handle :: handles es := rfl

@[simp] theorem handles_nil : handles [] = [] := rfl

namespace Driver

def add (d : Driver) (madeFrom : List ℕ) : Driver where
  live := ⟨d.next, madeFrom.filter (· ∈ handles d.live)⟩ :: d.live
  next := d.next + 1
  faults := d.faults
  nodup := List.nodup_cons.mpr ⟨fun h => Nat.lt_irrefl _ (d.lt_next _ h), d.nodup⟩
  lt_next := by
    simp only [handles_cons, List.forall_mem_cons]
    exact ⟨Nat.lt_succ_self _, fun h hh => Nat.lt_succ_of_lt (d.lt_next h hh)⟩
  closed := by
    rintro e he p hp
    rcases List.mem_cons.mp he with rfl | he
    · exact List.mem_cons_of_mem _ (of_decide_eq_true (List.mem_filter.mp hp).2)
    · exact List.mem_cons_of_mem _ (d.closed e he p hp)

def empty : Driver where
  live := []
  next := 0
  faults := []
  nodup := List.nodup_nil
  lt_next := by simp
  closed := by simp

def Unused (d : Driver) (h : ℕ) : Prop := ∀ e ∈ d.live, h ∉ e.madeFrom

instance (d : Driver) (h : ℕ) : Decidable (d.Unused h) := inferInstanceAs (Decidable (∀ _ ∈ _, _))

def remove (d : Driver) (h : ℕ) (hunused : d.Unused h) : Driver where
  live := d.live.filter fun e => e.handle ≠ h
  next := d.next
  faults := d.faults
  nodup := d.nodup.sublist (List.filter_sublist.map _)
  lt_next := fun x hx => d.lt_next x ((List.filter_sublist.map _).subset hx)
  closed := by
    intro e he p hp
    have hmem := (List.mem_filter.mp he).1
    obtain ⟨f, hf, rfl⟩ := mem_handles.mp (d.closed e hmem p hp)
    refine mem_handles.mpr ⟨f, List.mem_filter.mpr ⟨hf, ?_⟩, rfl⟩
    have hne : f.handle ≠ h := fun heq => hunused e hmem (heq ▸ hp)
    simpa using hne

def blame (d : Driver) (hs : List ℕ) : Driver := { d with faults := hs ++ d.faults }

structure Grew (d : Driver) (es : List Grant) (d' : Driver) : Prop where
  live : d'.live = es ++ d.live
  faults : d'.faults = d.faults

def Same (d d' : Driver) : Prop := d.Grew [] d'

def Live (d : Driver) (hs : List ℕ) : Prop := ∀ h ∈ hs, h ∈ handles d.live

theorem Same.refl (d : Driver) : d.Same d := ⟨rfl, rfl⟩

theorem Grew.trans {d d' d'' : Driver} {es fs : List Grant} (h : d.Grew es d')
    (h' : d'.Grew fs d'') : d.Grew (fs ++ es) d'' :=
  ⟨by rw [h'.live, h.live, List.append_assoc], h'.faults.trans h.faults⟩

theorem Same.trans_grew {d d' d'' : Driver} {es : List Grant} (h : d.Same d')
    (h' : d'.Grew es d'') : d.Grew es d'' := by
  simpa using Grew.trans h h'

theorem Grew.trans_same {d d' d'' : Driver} {es : List Grant} (h : d.Grew es d')
    (h' : d'.Same d'') : d.Grew es d'' := Grew.trans h h'

/-- What lies below `fs` is as it was, so what is to go is above it. -/
theorem Grew.of_append {d d' d'' : Driver} {es fs : List Grant} (h : d.Grew es d')
    (h' : d.Grew (fs ++ es) d'') : d'.Grew fs d'' :=
  ⟨by rw [h'.live, h.live, List.append_assoc], h'.faults.trans h.faults.symm⟩

theorem Grew.live_append {d d' : Driver} {es : List Grant} {hs : List ℕ} (h : d.Grew es d')
    (hlive : d.Live hs) : d'.Live (handles es ++ hs) := by
  intro x hx
  rw [h.live, handles_append, List.mem_append]
  exact (List.mem_append.mp hx).imp id (hlive x)

def below (d : Driver) {es : List Grant} (base : List Grant) (h : d.live = es ++ base)
    (hclosed : ∀ e ∈ base, e.madeFrom ⊆ handles base) : Driver where
  live := base
  next := d.next
  faults := d.faults
  nodup := by
    have hnodup := d.nodup
    rw [h, handles_append] at hnodup
    exact hnodup.of_append_right
  lt_next x hx := d.lt_next x (by
    rw [h, handles_append]
    exact List.mem_append_right _ hx)
  closed e he p hp := hclosed e he hp

theorem Live.same {d d' : Driver} {hs : List ℕ} (hlive : d.Live hs) (h : d.Same d') :
    d'.Live hs := h.live_append hlive

theorem Grew.not_madeFrom {d d' : Driver} {es : List Grant} (h : d.Grew es d') {x : ℕ}
    (hx : x ∈ handles es) {e : Grant} (he : e ∈ d.live) : x ∉ e.madeFrom := by
  intro hmem
  have hnodup := d'.nodup
  rw [h.live, handles_append] at hnodup
  exact List.disjoint_of_nodup_append hnodup hx (d.closed e he x hmem)

end Driver

abbrev DrvM (ε A : Type) := ExceptT ε (StateM Driver) A

def exec (m : DrvM ε A) (d : Driver) : Except ε A × Driver := m.run.run d

def use (hs : List ℕ) (outcome : Except ε A) : DrvM ε A := do
  modify fun d => d.blame (hs.filter (· ∉ handles d.live))
  MonadExcept.ofExcept outcome

def create (outcome : Except ε Unit) (madeFrom : List ℕ) : DrvM ε ℕ := do
  use madeFrom outcome
  modifyGet fun d => (d.next, d.add madeFrom)

def destroy (h : ℕ) : DrvM ε Unit := modify fun d =>
  if hd : h ∈ handles d.live ∧ d.Unused h then d.remove h hd.2 else d.blame [h]

section Exec

variable {d d' : Driver}

@[simp]
theorem exec_pure (a : A) : exec (pure a : DrvM ε A) d = (.ok a, d) := rfl

@[simp]
theorem exec_throw (e : ε) : exec (throw e : DrvM ε A) d = (.error e, d) := rfl

@[simp]
theorem exec_ofExcept (x : Except ε A) :
    exec (MonadExcept.ofExcept x : DrvM ε A) d = (x, d) := by
  cases x <;> rfl

theorem exec_bind (m : DrvM ε A) (f : A → DrvM ε B) (d : Driver) :
    exec (m >>= f) d =
      match exec m d with
      | (.ok a, d') => exec (f a) d'
      | (.error e, d') => (.error e, d') := by
  simp only [exec, ExceptT.run_bind, StateT.run_bind]
  rcases m.run.run d with ⟨_ | _, _⟩ <;> rfl

theorem exec_bind_ok {m : DrvM ε A} {f : A → DrvM ε B} {a : A} (h : exec m d = (.ok a, d')) :
    exec (m >>= f) d = exec (f a) d' := by
  rw [exec_bind, h]

theorem exec_use {hs : List ℕ} (hlive : d.Live hs) (outcome : Except ε A) :
    exec (use hs outcome) d = (outcome, d) := by
  have hnone : hs.filter (· ∉ handles d.live) = [] := by
    rw [List.filter_eq_nil_iff]
    intro h hh
    simpa using hlive h hh
  have hblame : d.blame (hs.filter (· ∉ handles d.live)) = d := by
    rw [hnone]
    rfl
  change exec (MonadExcept.ofExcept outcome) (d.blame (hs.filter (· ∉ handles d.live))) = _
  rw [hblame, exec_ofExcept]

theorem exec_create_ok {hs : List ℕ} (hlive : d.Live hs) :
    exec (create (.ok ()) hs : DrvM ε ℕ) d = (.ok d.next, d.add hs) :=
  exec_bind_ok (exec_use hlive _)

theorem exec_create_error {hs : List ℕ} (hlive : d.Live hs) (e : ε) :
    exec (create (.error e) hs : DrvM ε ℕ) d = (.error e, d) := by
  rw [create, exec_bind, exec_use hlive]

end Exec

abbrev single (hs : List ℕ) (h : ℕ) : List Grant := [⟨h, hs⟩]

theorem Driver.grew_add {d : Driver} {hs : List ℕ} (hlive : d.Live hs) :
    d.Grew (single hs d.next) (d.add hs) := by
  refine ⟨?_, rfl⟩
  have hall : hs.filter (· ∈ handles d.live) = hs := by
    rw [List.filter_eq_self]
    intro h hh
    simpa using hlive h hh
  change ⟨d.next, hs.filter (· ∈ handles d.live)⟩ :: d.live = _
  rw [hall]
  rfl

theorem exec_destroy {d d' : Driver} {es fs : List Grant} {e : Grant}
    (h : d.Grew (es ++ e :: fs) d') (hes : ∀ f ∈ es ++ e :: fs, e.handle ∉ f.madeFrom) :
    ∃ d'', exec (destroy e.handle : DrvM ε Unit) d' = (.ok (), d'') ∧ d.Grew (es ++ fs) d'' := by
  have hmem : e.handle ∈ handles (es ++ e :: fs) := by simp
  have hunused : d'.Unused e.handle := by
    intro f hf
    rw [h.live] at hf
    rcases List.mem_append.mp hf with hf | hf
    · exact hes f hf
    · exact h.not_madeFrom hmem hf
  have hlive : e.handle ∈ handles d'.live := by
    rw [h.live, handles_append]
    exact List.mem_append_left _ hmem
  refine ⟨d'.remove e.handle hunused, ?_, ?_, h.faults⟩
  · change (_, dite _ _ _) = _
    rw [dif_pos ⟨hlive, hunused⟩]
  · have hnodup := d'.nodup
    rw [h.live] at hnodup
    change d'.live.filter _ = _
    simp only [handles_append, handles_cons, List.append_assoc, List.cons_append,
      List.nodup_append, List.nodup_cons] at hnodup
    obtain ⟨-, ⟨hnot, -⟩, hdisj⟩ := hnodup
    have hkeep : ∀ l : List Grant, e.handle ∉ handles l →
        l.filter (fun f => f.handle ≠ e.handle) = l := by
      intro l hl
      rw [List.filter_eq_self]
      intro f hf
      have hne : f.handle ≠ e.handle := fun heq => hl (mem_handles.mpr ⟨f, hf, heq⟩)
      simpa using hne
    rw [h.live, List.append_assoc, List.filter_append, List.cons_append, List.filter_cons_of_neg
      (by simp), List.filter_append, hkeep es ?_, hkeep fs ?_, hkeep d.live ?_, List.append_assoc]
    · exact fun hin => hnot (List.mem_append_right _ hin)
    · exact fun hin => hnot (List.mem_append_left _ hin)
    · exact fun hin => hdisj _ hin _ List.mem_cons_self rfl

/-- The constructor leaves nothing behind where it throws. The destructor gives back what the object
owns, which was made from `hs` and from itself. -/
structure Raii (hs : List ℕ) (ctor : DrvM ε A) (dtor : A → DrvM ε Unit) (owns : A → List Grant) :
    Prop where
  made_from : ∀ {a}, ∀ e ∈ owns a, e.madeFrom ⊆ handles (owns a) ++ hs
  throws : ∀ {d d' : Driver} {e : ε}, d.Live hs → exec ctor d = (.error e, d') → d.Same d'
  returns : ∀ {d d' : Driver} {a : A}, d.Live hs → exec ctor d = (.ok a, d') → d.Grew (owns a) d'
  gives_back : ∀ {d d' : Driver} {a : A}, d.Live hs → d.Grew (owns a) d' →
    ∃ d'', exec (dtor a) d' = (.ok (), d'') ∧ d.Same d''

def Neutral (hs : List ℕ) (m : DrvM ε A) : Prop :=
  ∀ d : Driver, d.Live hs → d.Same (exec m d).2

def attempt (m : DrvM ε A) : DrvM ε (Except ε A) := ExceptT.lift m.run

@[simp]
theorem exec_attempt (m : DrvM ε A) (d : Driver) :
    exec (attempt m) d = (.ok (exec m d).1, (exec m d).2) := rfl

/-- A member and those that come after it. They go first, and it goes where they throw. -/
def member (ctor : DrvM ε A) (dtor : A → DrvM ε Unit) (rest : A → DrvM ε B) : DrvM ε (A × B) := do
  let a ← ctor
  match ← attempt (rest a) with
  | .ok b => return (a, b)
  | .error e =>
    dtor a
    throw e

/-- An automatic variable and the block in which it lives. -/
def scope (ctor : DrvM ε A) (dtor : A → DrvM ε Unit) (block : A → DrvM ε B) : DrvM ε B := do
  let a ← ctor
  let r ← attempt (block a)
  dtor a
  MonadExcept.ofExcept r

section Rules

variable {hs : List ℕ} {ctor : DrvM ε A} {dtor : A → DrvM ε Unit} {owns : A → List Grant}

theorem neutral_use (outcome : Except ε A) : Neutral hs (use hs outcome) := by
  intro d hlive
  rw [exec_use hlive]
  exact .refl d

theorem Neutral.mono {hs' : List ℕ} {m : DrvM ε A} (h : Neutral hs m) (hsub : hs ⊆ hs') :
    Neutral hs' m := fun d hlive => h d fun x hx => hlive x (hsub hx)

theorem neutral_pure (a : A) : Neutral hs (pure a : DrvM ε A) := fun d _ => .refl d

theorem neutral_throw (e : ε) : Neutral hs (throw e : DrvM ε A) := fun d _ => .refl d

theorem neutral_ofExcept (x : Except ε A) :
    Neutral hs (MonadExcept.ofExcept x : DrvM ε A) := by
  intro d _
  rw [exec_ofExcept]
  exact .refl d

theorem Neutral.bind {m : DrvM ε A} {f : A → DrvM ε B} (hm : Neutral hs m)
    (hf : ∀ a, Neutral hs (f a)) : Neutral hs (m >>= f) := by
  intro d hlive
  have hfirst := hm d hlive
  rw [exec_bind]
  rcases hres : exec m d with ⟨_ | a, d'⟩
  · rwa [hres] at hfirst
  · rw [hres] at hfirst
    exact hfirst.trans_grew (hf a d' (hlive.same hfirst))

/-- How a constructor can end. -/
def Ends (ctor : DrvM ε A) (owns : A → List Grant) (d : Driver) : Prop :=
  (∃ e d', exec ctor d = (.error e, d') ∧ d.Same d') ∨
    ∃ a d', exec ctor d = (.ok a, d') ∧ d.Grew (owns a) d'

theorem Raii.of_ends (made_from : ∀ {a}, ∀ e ∈ owns a, e.madeFrom ⊆ handles (owns a) ++ hs)
    (ends : ∀ {d : Driver}, d.Live hs → Ends ctor owns d)
    (gives_back : ∀ {d d' : Driver} {a : A}, d.Live hs → d.Grew (owns a) d' →
      ∃ d'', exec (dtor a) d' = (.ok (), d'') ∧ d.Same d'') : Raii hs ctor dtor owns where
  made_from := made_from
  gives_back := gives_back
  throws {d d' e} hlive hrun := by
    obtain ⟨e', d₁, h, hsame⟩ | ⟨a, d₁, h, -⟩ := ends hlive
    · rw [h] at hrun
      exact (Prod.mk.inj hrun).2 ▸ hsame
    · simp [h] at hrun
  returns {d d' a} hlive hrun := by
    obtain ⟨e', d₁, h, -⟩ | ⟨a', d₁, h, hgrew⟩ := ends hlive
    · simp [h] at hrun
    · rw [h] at hrun
      obtain ⟨ha, rfl⟩ := Prod.mk.inj hrun
      exact Except.ok.inj ha ▸ hgrew

theorem Raii.mono {hs' : List ℕ} (h : Raii hs ctor dtor owns) (hsub : hs ⊆ hs') :
    Raii hs' ctor dtor owns where
  made_from e he p hp := by
    rw [List.mem_append]
    exact (List.mem_append.mp (h.made_from e he hp)).imp id (hsub ·)
  throws hlive := h.throws fun x hx => hlive x (hsub hx)
  returns hlive := h.returns fun x hx => hlive x (hsub hx)
  gives_back hlive := h.gives_back fun x hx => hlive x (hsub hx)

theorem raii_ofExcept (x : Except ε A) :
    Raii hs (MonadExcept.ofExcept x : DrvM ε A) (fun _ => pure ()) fun _ => [] where
  made_from := by simp
  throws _ h := by
    rw [exec_ofExcept] at h
    exact (Prod.mk.inj h).2 ▸ .refl _
  returns _ h := by
    rw [exec_ofExcept] at h
    exact (Prod.mk.inj h).2 ▸ Driver.Same.refl _
  gives_back _ h := ⟨_, rfl, h⟩

theorem raii_create (outcome : Except ε Unit) :
    Raii hs (create outcome hs) destroy (single hs) := by
  refine .of_ends (by simp) (fun {d} hlive => ?_) fun {d d' a} hlive h => ?_
  · cases outcome with
    | error e => exact Or.inl ⟨e, d, exec_create_error hlive e, .refl d⟩
    | ok u => exact Or.inr ⟨d.next, d.add hs, exec_create_ok hlive, Driver.grew_add hlive⟩
  · have h' : d.Grew ([] ++ ⟨a, hs⟩ :: []) d' := h
    refine exec_destroy h' ?_
    simp only [List.nil_append, List.mem_singleton, forall_eq]
    intro ha
    have hnodup := d'.nodup
    rw [h.live, handles_append] at hnodup
    exact List.disjoint_of_nodup_append hnodup (by simp) (hlive a ha)

theorem Raii.member (h : Raii hs ctor dtor owns) {ctor' : A → DrvM ε B}
    {dtor' : A → B → DrvM ε Unit}
    {owns' : A → B → List Grant}
    (h' : ∀ a, Raii (handles (owns a) ++ hs) (ctor' a) (dtor' a) (owns' a)) :
    Raii hs (member ctor dtor ctor') (fun x => dtor' x.1 x.2 >>= fun _ => dtor x.1)
      (fun x => owns' x.1 x.2 ++ owns x.1) where
  made_from {x} e he := by
    rw [handles_append, List.append_assoc]
    rcases List.mem_append.mp he with he | he
    · exact (h' x.1).made_from e he
    · exact fun p hp => List.mem_append_right _ (h.made_from e he hp)
  throws {d d' e} hlive hrun := by
    rw [Handles.member, exec_bind] at hrun
    rcases hres : exec ctor d with ⟨e₁ | a, d₁⟩
    · rw [hres] at hrun
      exact (Prod.mk.inj hrun).2 ▸ h.throws hlive hres
    have hgrew := h.returns hlive hres
    have hlive₁ := hgrew.live_append hlive
    simp only [hres, exec_bind, exec_attempt] at hrun
    rcases hres' : exec (ctor' a) d₁ with ⟨e₂ | b, d₂⟩
    · rw [hres'] at hrun
      have hsame := (h' a).throws hlive₁ hres'
      obtain ⟨d₃, hd, hback⟩ := h.gives_back hlive (hgrew.trans_same hsame)
      simp only [exec_bind, hd, exec_throw] at hrun
      exact (Prod.mk.inj hrun).2 ▸ hback
    · rw [hres'] at hrun
      simp at hrun
  returns {d d' x} hlive hrun := by
    rw [Handles.member, exec_bind] at hrun
    rcases hres : exec ctor d with ⟨e₁ | a, d₁⟩
    · simp [hres] at hrun
    have hgrew := h.returns hlive hres
    simp only [hres, exec_bind, exec_attempt] at hrun
    rcases hres' : exec (ctor' a) d₁ with ⟨e₂ | b, d₂⟩
    · rw [hres'] at hrun
      obtain ⟨d₃, hd, -⟩ := h.gives_back hlive
        (hgrew.trans_same ((h' a).throws (hgrew.live_append hlive) hres'))
      simp [exec_bind, hd] at hrun
    · rw [hres'] at hrun
      obtain ⟨hx, rfl⟩ := Prod.mk.inj hrun
      obtain rfl := Except.ok.inj hx
      exact hgrew.trans ((h' a).returns (hgrew.live_append hlive) hres')
  gives_back {d d' x} hlive hgrew := by
    -- the driver as it is when the destructor of the member begins
    let d₁ := d'.below (owns x.1 ++ d.live) (by rw [hgrew.live, List.append_assoc]) (by
      intro e he p hp
      rw [handles_append, List.mem_append]
      rcases List.mem_append.mp he with he | he
      · exact (List.mem_append.mp (h.made_from e he hp)).imp id (hlive p)
      · exact Or.inr (d.closed e he p hp))
    have hfirst : d.Grew (owns x.1) d₁ := ⟨rfl, hgrew.faults⟩
    obtain ⟨d₂, hd₂, hsame⟩ := (h' x.1).gives_back (hfirst.live_append hlive)
      (hfirst.of_append hgrew)
    obtain ⟨d₃, hd₃, hback⟩ := h.gives_back hlive (hfirst.trans_same hsame)
    exact ⟨d₃, by rw [exec_bind_ok hd₂, hd₃], hback⟩

theorem Raii.scope (h : Raii hs ctor dtor owns) {block : A → DrvM ε B}
    (hblock : ∀ a, Neutral (handles (owns a) ++ hs) (block a)) :
    Neutral hs (scope ctor dtor block) := by
  intro d hlive
  rw [Handles.scope, exec_bind]
  rcases hres : exec ctor d with ⟨e | a, d₁⟩
  · exact h.throws hlive hres
  · have hgrew := h.returns hlive hres
    have hsame := hblock a d₁ (hgrew.live_append hlive)
    obtain ⟨d₂, hd₂, hback⟩ := h.gives_back hlive (hgrew.trans_same hsame)
    simpa [exec_bind, hd₂] using hback

end Rules

/-- Programs that fill a map while they use the driver. An exception leaves the map as it is. -/
abbrev FillM (K ε A : Type) := ExceptT ε (StateM (List (K × ℕ) × Driver)) A

section Fill

variable {K : Type}

def fill (m : FillM K ε A) (l : List (K × ℕ)) (d : Driver) :
    Except ε A × List (K × ℕ) × Driver := m.run.run (l, d)

def onDriver (m : DrvM ε A) : FillM K ε A :=
  ExceptT.mk fun s => let r := exec m s.2; (r.1, s.1, r.2)

def emplace (key : K) (outcome : Except ε Unit) (madeFrom : List ℕ) : FillM K ε Unit := do
  let h ← onDriver (create outcome madeFrom)
  modify fun s => ((key, h) :: s.1, s.2)

def useAt [DecidableEq K] (key : K) (missing : ε) (outcome : Except ε A) : FillM K ε A := do
  match (← get).1.find? fun x => x.1 = key with
  | some x => onDriver (use [x.2] outcome)
  | none => throw missing

def clear (order : List (K × ℕ) → List (K × ℕ)) (l : List (K × ℕ)) : DrvM ε Unit :=
  (order l).forM fun x => destroy x.2

def filled (order : List (K × ℕ) → List (K × ℕ)) (body : FillM K ε Unit) :
    DrvM ε (List (K × ℕ)) := do
  let r ← modifyGet fun d => let r := fill body [] d; ((r.1, r.2.1), r.2.2)
  match r.1 with
  | .ok _ => return r.2
  | .error e =>
    clear order r.2
    throw e

def entries (hs : List ℕ) (l : List (K × ℕ)) : List Grant := l.map fun x => ⟨x.2, hs⟩

@[simp] theorem handles_entries (hs : List ℕ) (l : List (K × ℕ)) :
    handles (entries hs l) = l.map Prod.snd := List.map_map

@[simp] theorem fill_pure (a : A) (l : List (K × ℕ)) (d : Driver) :
    fill (pure a : FillM K ε A) l d = (.ok a, l, d) := rfl

theorem fill_bind (m : FillM K ε A) (f : A → FillM K ε B) (l : List (K × ℕ)) (d : Driver) :
    fill (m >>= f) l d =
      match fill m l d with
      | (.ok a, l', d') => fill (f a) l' d'
      | (.error e, l', d') => (.error e, l', d') := by
  simp only [fill, ExceptT.run_bind, StateT.run_bind]
  rcases m.run.run (l, d) with ⟨_ | _, _⟩ <;> rfl

theorem fill_onDriver (m : DrvM ε A) (l : List (K × ℕ)) (d : Driver) :
    fill (onDriver m : FillM K ε A) l d = ((exec m d).1, l, (exec m d).2) := rfl

/-- What is live above `d₀` is what the map holds, before and after the program. -/
def Fills (hs : List ℕ) (d₀ : Driver) (m : FillM K ε A) : Prop :=
  ∀ l d, d₀.Grew (entries hs l) d →
    d₀.Grew (entries hs (fill m l d).2.1) (fill m l d).2.2

variable {hs : List ℕ} {d₀ : Driver}

theorem Fills.bind {m : FillM K ε A} {f : A → FillM K ε B} (hm : Fills hs d₀ m)
    (hf : ∀ a, Fills hs d₀ (f a)) : Fills hs d₀ (m >>= f) := by
  intro l d h
  have hfirst := hm l d h
  rw [fill_bind]
  rcases hres : fill m l d with ⟨_ | a, l', d'⟩
  · rwa [hres] at hfirst
  · rw [hres] at hfirst
    exact hf a l' d' hfirst

theorem Fills.forM {S : Type} {f : S → FillM K ε PUnit} (hf : ∀ s, Fills hs d₀ (f s))
    (ss : List S) : Fills hs d₀ (ss.forM f) := by
  induction ss with
  | nil => exact fun l d h => h
  | cons s ss ih => exact (hf s).bind fun _ => ih

theorem Fills.ofExcept (x : Except ε A) : Fills hs d₀ (MonadExcept.ofExcept x : FillM K ε A) := by
  intro l d h
  cases x <;> exact h

theorem Fills.emplace (hlive : d₀.Live hs) (key : K) (outcome : Except ε Unit) :
    Fills hs d₀ (emplace key outcome hs) := by
  intro l d h
  have hlive' : d.Live hs := fun x hx => h.live_append hlive x (List.mem_append_right _ hx)
  cases outcome with
  | error e =>
    have hrun : fill (Handles.emplace key (.error e) hs) l d = (.error e, l, d) := by
      rw [Handles.emplace, fill_bind, fill_onDriver, exec_create_error hlive']
    rw [hrun]
    exact h
  | ok u =>
    have hrun : fill (Handles.emplace key (.ok u) hs : FillM K ε Unit) l d =
        (.ok (), (key, d.next) :: l, d.add hs) := by
      rw [Handles.emplace, fill_bind, fill_onDriver, exec_create_ok hlive']
      rfl
    rw [hrun]
    exact h.trans (Driver.grew_add hlive')

theorem Fills.useAt [DecidableEq K] (key : K) (missing : ε) (outcome : Except ε A) :
    Fills hs d₀ (useAt key missing outcome) := by
  intro l d h
  have hrun : fill (Handles.useAt key missing outcome) l d =
      (fill (match l.find? fun x => x.1 = key with
        | some x => onDriver (use [x.2] outcome)
        | none => throw missing) l d) := rfl
  rw [hrun]
  split
  · next x hx =>
    have hlive : d.Live [x.2] := by
      intro y hy
      obtain rfl := List.mem_singleton.mp hy
      rw [h.live, handles_append, List.mem_append, mem_handles]
      exact Or.inl ⟨⟨x.2, hs⟩, List.mem_map.mpr ⟨x, List.mem_of_find?_eq_some hx, rfl⟩, rfl⟩
    have huse := exec_use hlive outcome
    change d₀.Grew (entries hs l) (exec (use [x.2] outcome) d).2
    rwa [huse]
  · exact h

theorem exec_destroyAll {d : Driver} {l l' : List (K × ℕ)} (hperm : l'.Perm l) (hlive : d₀.Live hs)
    (h : d₀.Grew (entries hs l) d) :
    ∃ d', exec (l'.forM fun x => destroy x.2 : DrvM ε PUnit) d = (.ok (), d') ∧ d₀.Same d' := by
  induction l' generalizing l d with
  | nil =>
    obtain rfl := List.nil_perm.mp hperm
    exact ⟨d, rfl, h⟩
  | cons x l' ih =>
    obtain ⟨s, t, rfl⟩ := List.append_of_mem (hperm.subset (List.mem_cons_self (a := x)))
    have hentries : entries hs (s ++ x :: t) = entries hs s ++ ⟨x.2, hs⟩ :: entries hs t := by
      simp [entries]
    rw [hentries] at h
    -- a handle of the map was made from `hs` and not from another one of the map
    have hnot : x.2 ∉ hs := by
      intro hx
      have hnodup := d.nodup
      rw [h.live, handles_append] at hnodup
      exact List.disjoint_of_nodup_append hnodup (by simp) (hlive _ hx)
    obtain ⟨d₁, hd₁, h₁⟩ := exec_destroy  h (by
      intro f hf
      have hfrom : f.madeFrom = hs := by
        simp only [entries, List.mem_append, List.mem_cons, List.mem_map] at hf
        rcases hf with ⟨y, -, rfl⟩ | rfl | ⟨y, -, rfl⟩ <;> rfl
      rwa [hfrom])
    have hrest : d₀.Grew (entries hs (s ++ t)) d₁ := by
      rw [entries, List.map_append]
      exact h₁
    obtain ⟨d₂, hd₂, h₂⟩ := ih (hperm.trans List.perm_middle).cons_inv hrest
    exact ⟨d₂, (exec_bind_ok hd₁).trans hd₂, h₂⟩

theorem exec_filled (order : List (K × ℕ) → List (K × ℕ)) (body : FillM K ε Unit) (d : Driver) :
    exec (filled order body) d =
      match fill body [] d with
      | (.ok _, l, d') => (.ok l, d')
      | (.error e, l, d') => exec (clear order l >>= fun _ => throw e) d' := by
  have hrun : exec (filled order body) d = exec (match (fill body [] d).1 with
    | .ok _ => return (fill body [] d).2.1
    | .error e => clear order (fill body [] d).2.1 >>= fun _ => throw e) (fill body [] d).2.2 := rfl
  rw [hrun]
  rcases fill body [] d with ⟨_ | _, l, d'⟩ <;> rfl

theorem exec_clear {order : List (K × ℕ) → List (K × ℕ)} (horder : ∀ l, (order l).Perm l)
    {d : Driver} {l : List (K × ℕ)} (hlive : d₀.Live hs) (h : d₀.Grew (entries hs l) d) :
    ∃ d', exec (clear order l : DrvM ε Unit) d = (.ok (), d') ∧ d₀.Same d' :=
  exec_destroyAll (horder l) hlive h

theorem raii_filled {order : List (K × ℕ) → List (K × ℕ)} (horder : ∀ l, (order l).Perm l)
    {body : FillM K ε Unit} (hbody : ∀ d, d.Live hs → Fills hs d body) :
    Raii hs (filled order body) (clear order) (entries hs) := by
  refine .of_ends (fun {l} e he => ?_) (fun {d} hlive => ?_) fun hlive h =>
    exec_clear horder hlive h
  · obtain ⟨x, -, rfl⟩ := List.mem_map.mp he
    exact List.subset_append_right _ _
  · have hgrew := hbody d hlive [] d (Driver.Same.refl d)
    rw [Ends, exec_filled]
    rcases hres : fill body [] d with ⟨e | u, l, d₁⟩
    · rw [hres] at hgrew
      obtain ⟨d₂, hd₂, hback⟩ := exec_clear horder hlive hgrew
      exact Or.inl ⟨e, d₂, exec_bind_ok hd₂, hback⟩
    · rw [hres] at hgrew
      exact Or.inr ⟨l, d₁, rfl, hgrew⟩

end Fill

end Handles
