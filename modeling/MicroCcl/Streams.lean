import MicroCcl.Frame

namespace MicroCcl
open Network

variable {P : ℕ} {α β A B : Type} {cap : Fin P → Fin P → ℕ}

/-- Replace the processes of two ranks. -/
def update₂ (f : Fin P → Proc P α β A) (i j : Fin P) (p q : Proc P α β A) :
    Fin P → Proc P α β A := Function.update (Function.update f i p) j q

/-- Rank `i` at `p` and rank `j` at `q` can get to `p'` and `q'` by themselves. -/
def Handover (cap : Fin P → Fin P → ℕ) (i j : Fin P) (p q p' q' : Proc P α β A) : Prop :=
  ∀ (f : Fin P → Proc P α β A) (l : Fin P → Local α β), f i = p → f j = q →
    Leads cap f l (update₂ f i j p' q') l

theorem Handover.refl {i j : Fin P} (p q : Proc P α β A) : Handover cap i j p q p q := by
  rintro f l rfl rfl
  have : update₂ f i j (f i) (f j) = f := by simp [update₂]
  rw [this]
  exact Leads.refl f l

theorem Handover.trans {i j : Fin P} (hij : i ≠ j) {p q p' q' p'' q'' : Proc P α β A}
    (h : Handover cap i j p q p' q') (h' : Handover cap i j p' q' p'' q'') :
    Handover cap i j p q p'' q'' := by
  intro f l hi hj
  have hrest := h' (update₂ f i j p' q') l (by simp [update₂, hij]) (by simp [update₂])
  have hup : update₂ (update₂ f i j p' q') i j p'' q'' = update₂ f i j p'' q'' := by
    funext r
    by_cases hr : r = j
    · simp [update₂, hr]
    · by_cases hr' : r = i <;> simp [update₂, hr, hr', hij]
  rw [hup] at hrest
  exact (h f l hi hj).trans hrest

/-- One byte goes over. -/
theorem handover_byte {i j : Fin P} (hij : i ≠ j) (hcap : 0 < cap j i) (b : UInt8) (tag : Tag)
    (p : Proc P α β A) (q : UInt8 → Proc P α β A) :
    Handover cap i j (.sendByte j b tag p) (.recvByte i tag q) p (q b) := by
  intro f l hi hj s hs
  -- the byte goes into the buffer (`t`) and is taken out at once (`u`)
  let t : Fin P → RankState P α β A :=
    Function.update (Function.update s i { s i with proc := p }) j
      { s j with inbox := Function.update (s j).inbox i [(b, tag)] }
  let u : Fin P → RankState P α β A := Function.update t j
    { s j with proc := q b, byteLog := (s j).byteLog ++ [(i, tag, tag)] }
  have hst : Step (fabric P α β A cap) s t := by
    refine Step.comm i j Chan.tcp hij (m := Msg.byte b tag) (g := fun _ => { s i with proc := p })
      (a := WcStatus.success) ?_ ?_
    · simp [fabric, outStep, (hs i).proc, hi]
    · simp [fabric, inpStep, (hs j).inbox, hcap]
  have htu : Step (fabric P α β A cap) t u := by
    apply Step.act j Act.op
    have hin : Function.update (Function.update (s j).inbox i [(b, tag)]) i [] = (s j).inbox := by
      rw [(hs j).inbox, update_update_nil]
    simp [fabric, actStep, opStep, t, (hs j).proc, hj, hin]
  refine ⟨u, .tail (.tail .refl hst) htu, fun r => ?_⟩
  by_cases hrj : r = j
  · subst r
    simp only [u, update₂, Function.update_self]
    exact { hs j with
      proc := rfl
      byteTags := by
        intro e he
        rcases List.mem_append.mp he with he | he
        · exact (hs j).byteTags e he
        · obtain rfl := List.mem_singleton.mp he
          rfl }
  · by_cases hri : r = i
    · subst r
      simp only [u, t, update₂, Function.update_of_ne hrj, Function.update_self]
      exact { hs i with proc := rfl }
    · simp only [u, t, update₂, Function.update_of_ne hrj, Function.update_of_ne hri]
      exact hs r

/-- A whole message goes over. -/
theorem handover_exact {i j : Fin P} (hij : i ≠ j) (hcap : 0 < cap j i) (bs : List UInt8)
    (tag : Tag) (p : Unit → Proc P α β A) (q : List UInt8 → Proc P α β A) :
    Handover cap i j (sendExact j bs tag >>= p) (recvExact i tag bs.length >>= q)
      (p ()) (q bs) := by
  induction bs generalizing q with
  | nil => exact Handover.refl _ _
  | cons b bs ih =>
    apply (handover_byte hij hcap b tag _ _).trans hij
    change Handover cap i j (sendExact j bs tag >>= p)
      ((recvExact i tag bs.length >>= fun bs => .pure (b :: bs)) >>= q) _ _
    simpa only [bind_assoc, Proc.pure_bind'] using ih fun bs => q (b :: bs)

/-- The NIC does nothing that the sockets could notice. -/
structure SameSockets (st st' : RankState P α β A) : Prop where
  proc : st'.proc = st.proc
  vars : st'.loc.vars = st.loc.vars
  inbox : st'.inbox = st.inbox
  byteLog : st'.byteLog = st.byteLog

inductive SocketMove (s s' : Fin P → RankState P α β A) : Prop
  | op (r : Fin P) (hm : OpMove (s r) (s' r)) (hrest : ∀ q, q ≠ r → s' q = s q)
  | byte (i j : Fin P) (b : UInt8) (t : Tag) (k : Proc P α β A) (hij : i ≠ j)
      (hp : (s i).proc = .sendByte j b t k) (hi : s' i = { s i with proc := k })
      (hj : s' j = { s j with
        inbox := Function.update (s j).inbox i ((s j).inbox i ++ [(b, t)]) })
      (hrest : ∀ q, q ≠ i → q ≠ j → s' q = s q)
  | nic (hsame : ∀ q, SameSockets (s q) (s' q))

/-- A byte on its way changes no rank's memory or variables. -/
theorem byte_loc {s s' : Fin P → RankState P α β A} {i j : Fin P} {k : Proc P α β A}
    {inbox : Fin P → List (UInt8 × Tag)} (hi : s' i = { s i with proc := k })
    (hj : s' j = { s j with inbox := inbox }) (hrest : ∀ q, q ≠ i → q ≠ j → s' q = s q)
    (x : Fin P) : (s' x).loc = (s x).loc := by
  by_cases hxi : x = i
  · subst x
    rw [hi]
  · by_cases hxj : x = j
    · subst x
      rw [hj]
    · rw [hrest x hxi hxj]

theorem step_sockets {s s' : Fin P → RankState P α β A} (h : Step (fabric P α β A cap) s s') :
    SocketMove s s' := by
  cases h with
  | act r l h =>
    cases l with
    | op =>
      have hm := opStep_cases h
      exact .op r (by simpa using hm) fun q hq => Function.update_of_ne hq _ _
    | complete p =>
      obtain ⟨a, rest, -, rfl⟩ := completeStep_cases h
      refine .nic fun q => ?_
      by_cases hq : q = r
      · subst q
        constructor <;> simp
      · constructor <;> simp [hq]
  | comm i j c hij ho hi =>
    simp only [fabric] at ho hi
    cases c with
    | tcp =>
      obtain ⟨b, t, k, hp, rfl, rfl⟩ := outStep_tcp_cases ho
      obtain ⟨b', t', hm, -, -, rfl⟩ := inpStep_tcp_cases hi
      obtain ⟨rfl, rfl⟩ : b = b' ∧ t = t' := by simpa using hm
      refine .byte i j b t k hij hp (by simp [hij]) (by simp) fun q hqi hqj => ?_
      simp [hqi, hqj]
    | rdma =>
      obtain ⟨wr, rest, -, rfl, rfl⟩ := outStep_rdma_cases ho
      obtain ⟨wr', xs, rwr, rest', -, -, hcase⟩ := inpStep_rdma_cases hi
      refine .nic fun q => ?_
      by_cases hqj : q = j
      · subst q
        obtain ⟨-, -, rfl⟩ | ⟨-, -, rfl⟩ := hcase <;> constructor <;> simp
      · by_cases hqi : q = i
        · subst q
          constructor <;> simp [hqj]
        · constructor <;> simp [hqi, hqj]

inductive SocketOnly : Proc P α β A → Prop
  | pure (a : A) : SocketOnly (.pure a)
  | throw (e : Exn) : SocketOnly (.throw e)
  | sendByte (q : Fin P) (b : UInt8) (t : Tag) {k : Proc P α β A} (hk : SocketOnly k) :
      SocketOnly (.sendByte q b t k)
  | recvByte (q : Fin P) (t : Tag) {k : UInt8 → Proc P α β A} (hk : ∀ b, SocketOnly (k b)) :
      SocketOnly (.recvByte q t k)

theorem SocketOnly.bind {p : Proc P α β A} {f : A → Proc P α β B} (hp : SocketOnly p)
    (hf : ∀ a, SocketOnly (f a)) : SocketOnly (p >>= f) := by
  induction hp with
  | pure a => exact hf a
  | throw e => exact .throw e
  | sendByte q b t _ ih => exact .sendByte q b t ih
  | recvByte q t _ ih => exact .recvByte q t ih

theorem SocketOnly.forM {S : Type} {f : S → Proc P α β Unit} (hf : ∀ s, SocketOnly (f s))
    (ss : List S) : SocketOnly (ss.forM f) := by
  induction ss with
  | nil => exact .pure ()
  | cons s ss ih => exact (hf s).bind fun _ => ih

theorem SocketOnly.foldlM {S : Type} {f : A → S → Proc P α β A} (hf : ∀ a s, SocketOnly (f a s))
    (ss : List S) (a : A) : SocketOnly (ss.foldlM f a) := by
  induction ss generalizing a with
  | nil => exact .pure a
  | cons s ss ih =>
    rw [List.foldlM_cons]
    exact (hf a s).bind ih

theorem SocketOnly.disciplined {p : Proc P α β A} (hp : SocketOnly p) :
    Disciplined none none p := by
  induction hp with
  | pure a => exact ⟨rfl, rfl⟩
  | throw e => trivial
  | sendByte q b t _ ih => exact ih
  | recvByte q t _ ih => exact ih

theorem SocketOnly.all {p : Proc P α β A} (hp : SocketOnly p) {Qr : Wr → Prop}
    {Qu : (Local α β → Local α β) → Prop} : p.All Qr Qu := by
  induction hp with
  | pure a => trivial
  | throw e => trivial
  | sendByte q b t _ ih => exact ih
  | recvByte q t _ ih => exact ih

theorem sendExact_socketOnly (fd : Fin P) (bs : List UInt8) (tag : Tag) :
    SocketOnly (sendExact (α := α) (β := β) fd bs tag) := by
  induction bs with
  | nil => exact .pure ()
  | cons b bs ih => exact .sendByte fd b tag ih

theorem recvExact_socketOnly (fd : Fin P) (tag : Tag) (n : ℕ) :
    SocketOnly (recvExact (α := α) (β := β) fd tag n) := by
  induction n with
  | zero => exact .pure []
  | succ n ih => exact .recvByte fd tag fun b => ih.bind fun bs => .pure (b :: bs)

end MicroCcl
