import MicroCcl.Clocks
import MicroCcl.Communicator

namespace MicroCcl
open Network

variable {P : ℕ} {α A : Type}

def enter (l : Local α (Comm P)) : Local α (Comm P) :=
  { l with vars := { l.vars with entered := l.vars.entered + 1 } }

def leave (l : Local α (Comm P)) : Local α (Comm P) :=
  { l with vars := { l.vars with returned := l.vars.returned + 1 } }

/-- Barriers in a row; `call` numbers the exchanges on the streams. -/
def barriers (R : Fin P) : ℕ → ℕ → Proc P α (Comm P) Unit
  | _, 0 => .pure ()
  | call, n + 1 => .upd enter (barrier R call >>= fun _ => .upd leave (barriers R (call + 1) n))

/-- A rank that makes its communicator and then calls `barrier` `n` times. -/
def lifetime (E : Setup P) (R : Fin P) (n : ℕ) : Proc P α (Comm P) Unit :=
  communicator E R >>= fun _ => barriers R 1 n

def startLifetime (E : Setup P) (n : Fin P → ℕ) (m : Fin P → Mem α) :
    Fin P → RankState P α (Comm P) Unit :=
  start (fun r => lifetime E r (n r)) fun r => ⟨m r, Comm.empty⟩

theorem barriers_add (R : Fin P) (call n m : ℕ) :
    (barriers (α := α) R call n >>= fun _ => barriers R (call + n) m) =
      barriers R call (n + m) := by
  induction n generalizing call with
  | zero => simp [barriers]
  | succ n ih =>
    have hcall : call + (n + 1) = call + 1 + n := by omega
    rw [Nat.add_right_comm n 1 m, hcall]
    simp only [barriers, Proc.upd_bind, bind_assoc, ih]

section Uniform

variable (E : Setup P)

theorem barriers_leads {cap : Fin P → Fin P → ℕ} (hcap : ∀ i j, 0 < cap i j) (call n : ℕ)
    (l : Fin P → Local α (Comm P)) :
    Leads cap (fun r => barriers r call n) l (fun _ => .pure ())
      (fun r => (leave ∘ enter)^[n] (l r)) := by
  induction n generalizing call l with
  | zero => exact Leads.refl _ _
  | succ n ih =>
    have henter : Leads cap _ l _ _ := upd_leads (fun _ => enter)
      (fun r => barrier r call >>= fun _ => .upd leave (barriers r (call + 1) n)) l
    have hmeet := barrier_leads hcap call
      (fun r => Proc.upd leave (barriers (α := α) r (call + 1) n)) fun r => enter (l r)
    have hleave : Leads cap _ (fun r => enter (l r)) _ _ := upd_leads (fun _ => leave)
      (fun r => barriers r (call + 1) n) fun r => enter (l r)
    have hrest := ih (call + 1) fun r => leave (enter (l r))
    exact ((henter.trans hmeet).trans hleave).trans hrest

theorem barriers_disciplined (R : Fin P) (call n : ℕ) :
    Disciplined none none (barriers (α := α) R call n) := by
  induction n generalizing call with
  | zero => exact ⟨rfl, rfl⟩
  | succ n ih =>
    exact ⟨rfl, rfl, (barrier_socketOnly R call).disciplined.bind fun _ =>
      ⟨rfl, rfl, ih (call + 1)⟩⟩

theorem lifetime_disciplined (R : Fin P) (n : ℕ) :
    Disciplined none none (lifetime (α := α) E R n) :=
  (communicator_disciplined E R).bind fun _ => barriers_disciplined R 1 n

theorem lifetime_leads {cap : Fin P → Fin P → ℕ} (hcap : ∀ i j, 0 < cap i j)
    (hlen : P * (P - 1) < 2 ^ 32) (n : ℕ) (l : Fin P → Local α (Comm P)) :
    Leads cap (fun r => lifetime E r n) l (fun _ => .pure ())
      (fun r => (leave ∘ enter)^[n] (wire E r (l r))) :=
  (communicator_leads E hcap hlen (fun r _ => barriers r 1 n) l).trans
    (barriers_leads hcap 1 n _)

end Uniform

section Tables

variable {β : Type} {stamp : Tag → Fin P → ℕ} {clock : β → ℕ} {I : β → (Fin P → ℕ) → Prop}
  {r : Fin P} {c : β} {κ : Fin P → ℕ}

theorem knows_recvEntries {Q : List Entry → β → (Fin P → ℕ) → Prop} {q : Fin P} {t : Tag}
    (hQ : ∀ es κ', κ ≤ κ' → Q es c κ') (n : ℕ) (table : List Entry) :
    Knows stamp clock I r Q (recvEntries (α := α) q t n table) c κ := by
  induction n generalizing κ table with
  | zero => exact hQ table κ le_rfl
  | succ n ih =>
    unfold recvEntries recvEntry
    refine Knows.bind ?_
    refine Knows.bind ?_
    refine knows_recvExact ?_
    intro buf κ' hκ' _
    apply ih
    exact fun es κ'' hκ'' => hQ es κ'' (hκ'.trans hκ'')

theorem knows_recvTable {Q : List Entry → β → (Fin P → ℕ) → Prop} {q : Fin P} {t : Tag}
    (hQ : ∀ es κ', κ ≤ κ' → stamp t ≤ κ' → Q es c κ') (table : List Entry) :
    Knows stamp clock I r Q (recvTable (α := α) q t table) c κ := by
  unfold recvTable recvU32
  apply Knows.bind
  apply Knows.bind
  apply knows_recvExact
  -- the count alone says that the table has come
  intro be κ' hκ' hst
  apply knows_recvEntries
  exact fun es κ'' hκ'' => hQ es κ'' (hκ'.trans hκ'') ((hst (by decide)).trans hκ'')

theorem knows_sendTable {Q : Unit → β → (Fin P → ℕ) → Prop} {q : Fin P} {t : Tag}
    (hst : stamp t ≤ view clock r c κ) (hQ : Q () c κ) (table : List Entry) :
    Knows stamp clock I r Q (sendTable (α := α) q t table) c κ := by
  unfold sendTable sendU32
  apply Knows.bind
  apply knows_sendExact hst
  induction table with
  | nil => exact hQ
  | cons e table ih => exact Knows.bind (knows_sendExact hst ih _)

theorem knows_gather {Q : List Entry → β → (Fin P → ℕ) → Prop} {tag : Fin P → Tag}
    {rs : List (Fin P)} (hQ : ∀ es κ', κ ≤ κ' → (∀ x ∈ rs, stamp (tag x) ≤ κ') → Q es c κ')
    (table : List Entry) :
    Knows stamp clock I r Q
      (rs.foldlM (fun table x => recvTable (α := α) x (tag x) table) table) c κ := by
  induction rs generalizing κ table with
  | nil => exact hQ table κ le_rfl (by simp)
  | cons x rs ih =>
    rw [List.foldlM_cons]
    apply Knows.bind
    apply knows_recvTable
    intro es κ' hκ' hst
    apply ih
    intro es' κ'' hκ'' hrest
    apply hQ es' κ'' (hκ'.trans hκ'')
    intro y hy
    rcases List.mem_cons.mp hy with rfl | hy
    · exact hst.trans hκ''
    · exact hrest y hy

theorem knows_reflect {Q : Unit → β → (Fin P → ℕ) → Prop} {tag : Fin P → Tag} {rs : List (Fin P)}
    (hst : ∀ x ∈ rs, stamp (tag x) ≤ view clock r c κ) (hQ : Q () c κ) (table : List Entry) :
    Knows stamp clock I r Q (rs.forM fun x => sendTable (α := α) x (tag x) table) c κ := by
  induction rs with
  | nil => exact hQ
  | cons x rs ih =>
    apply Knows.bind
    apply knows_sendTable (hst x (by simp))
    exact ih fun y hy => hst y (by simp [hy])

end Tables

/-- What the tags of an exchange stand for: a table on its way to rank 0 says that its sender is in
call number `t.call`, and a table from rank 0 says that all ranks are. -/
def callStamp (t : Tag) (x : Fin P) : ℕ :=
  if t.step < P then (if x.val = t.step then t.call else 0) else t.call

theorem callStamp_up {c : ℕ} {q x : Fin P} : callStamp ⟨c, q⟩ x = if x = q then c else 0 := by
  simp [callStamp, Fin.ext_iff]

theorem callStamp_down {c : ℕ} {q x : Fin P} : callStamp ⟨c, P + q⟩ x = c := by
  simp [callStamp]

section Exchange

variable {β : Type} {clock : β → ℕ} {I : β → (Fin P → ℕ) → Prop} {R : Fin P} {c : β}
  {κ : Fin P → ℕ} {call : ℕ} (hclock : call ≤ clock c)
include hclock

theorem le_view {κ' : Fin P → ℕ} (h : ∀ x, x ≠ R → call ≤ κ' x) (x : Fin P) :
    call ≤ view clock R c κ' x := by
  by_cases hx : x = R
  · subst x
    simpa [view] using hclock
  · simpa [view, hx] using h x hx

theorem knows_exchangeRoot (h0 : R.val = 0) {Q : List Entry → β → (Fin P → ℕ) → Prop}
    (hQ : ∀ table κ', (∀ x, call ≤ view clock R c κ' x) → Q table c κ') (outgoing : List Entry) :
    Knows callStamp clock I R Q (exchangeRoot (α := α) call outgoing) c κ := by
  apply Knows.bind
  apply knows_gather
  intro table κ' _ hheard
  -- rank 0 has heard from everybody before it answers anybody
  have hall : ∀ x, call ≤ view clock R c κ' x := by
    apply le_view hclock
    intro x hx
    have hpeer : x ∈ peers P := mem_peers.mpr fun hx0 => hx (Fin.ext (hx0.trans h0.symm))
    simpa [callStamp_up] using hheard x hpeer x
  apply Knows.bind
  apply knows_reflect
  · intro x _ y
    rw [callStamp_down]
    exact hall y
  · exact hQ table κ' hall

theorem knows_exchangePeer {Q : List Entry → β → (Fin P → ℕ) → Prop}
    (hQ : ∀ table κ', (∀ x, call ≤ view clock R c κ' x) → Q table c κ') (root : Fin P)
    (outgoing : List Entry) :
    Knows callStamp clock I R Q (exchangePeer (α := α) R root call outgoing) c κ := by
  apply Knows.bind
  apply knows_sendTable
  · -- the rank vouches for itself only
    intro x
    rw [callStamp_up]
    split_ifs with hx
    · subst x
      simpa [view] using hclock
    · exact Nat.zero_le _
  · apply knows_recvTable
    intro table κ' _ hst
    apply hQ
    apply le_view hclock
    intro x _
    simpa [callStamp_down] using hst x

theorem knows_exchange {Q : PeerMap → β → (Fin P → ℕ) → Prop}
    (hQ : ∀ m κ', (∀ x, call ≤ view clock R c κ' x) → Q m c κ') (outgoing : List Entry) :
    Knows callStamp clock I R Q (exchange (α := α) R call outgoing) c κ := by
  unfold exchange
  split_ifs with h0
  · apply Knows.bind
    exact knows_exchangeRoot hclock h0 (fun _ κ' hall => hQ _ κ' hall) outgoing
  · apply Knows.bind
    exact knows_exchangePeer hclock (fun _ κ' hall => hQ _ κ' hall) _ outgoing

end Exchange

/-- The queue pair is there and can send. -/
def Rts (x : Option QueuePair) : Prop := ∃ qp, x = some qp ∧ qp.state = .rts

/-- The members of a communicator, against what its rank knows of the barriers entered. -/
structure Sound (R : Fin P) (c : Comm P) (κ : Fin P → ℕ) : Prop where
  returned : ∀ x, c.returned ≤ κ x
  connected : 1 ≤ c.entered → ∀ q, q ≠ R → Rts (c.qps q)

theorem Sound.mono {R : Fin P} {c : Comm P} {κ κ' : Fin P → ℕ} (hκ : κ ≤ κ') (h : Sound R c κ) :
    Sound R c κ' := ⟨fun x => (h.returned x).trans (hκ x), h.connected⟩

/-- No barrier so far. -/
structure Comm.Fresh (c : Comm P) : Prop where
  entered : c.entered = 0
  returned : c.returned = 0

theorem Comm.Fresh.sound {c : Comm P} (h : c.Fresh) (R : Fin P) (κ : Fin P → ℕ) : Sound R c κ where
  returned x := by simp [h.returned]
  connected he := by simp [h.entered] at he

section Rank

variable {R : Fin P} {c : Comm P} {κ : Fin P → ℕ}

theorem knows_updQp {Q : Unit → Comm P → (Fin P → ℕ) → Prop} (hc : c.Fresh) {peer : Fin P}
    {f : Option QueuePair → Option QueuePair}
    (hQ : ∀ c' : Comm P, c'.Fresh → c'.qps peer = f (c.qps peer) →
      (∀ q, q ≠ peer → c'.qps q = c.qps q) → Q () c' κ) :
    Knows callStamp Comm.entered (Sound R) R Q (updQp (α := α) peer f) c κ := by
  let c' : Comm P := { c with qps := Function.update c.qps peer (f (c.qps peer)) }
  have hc' : c'.Fresh := ⟨hc.entered, hc.returned⟩
  refine ⟨c', ?_, le_rfl, hc'.sound R _, ?_⟩
  · rintro l rfl
    rfl
  · exact hQ c' hc' (by simp [c']) fun q hq => by simp [c', hq]

theorem knows_createLoop {Q : Unit → Comm P → (Fin P → ℕ) → Prop} (E : Setup P) (hc : c.Fresh)
    {ss : List (Fin P)}
    (hQ : ∀ c' : Comm P, c'.Fresh → (∀ q, q ∈ ss ∨ c.qps q ≠ none → c'.qps q ≠ none) → Q () c' κ) :
    Knows callStamp Comm.entered (Sound R) R Q (ss.forM (createQp (α := α) E R)) c κ := by
  induction ss generalizing c with
  | nil => exact hQ c hc fun q hq => hq.resolve_left (by simp)
  | cons p ss ih =>
    rw [Proc.forM_cons, createQp]
    refine Knows.bind (Knows.bind (knows_updQp hc fun c₁ hc₁ hp₁ hne₁ => ?_))
    refine knows_updQp hc₁ fun c₂ hc₂ hp₂ hne₂ => ih hc₂ fun c' hc' hsome => ?_
    apply hQ c' hc'
    intro q hq
    apply hsome
    by_cases hqp : q = p
    · subst q
      simp [hp₂, hp₁]
    · rw [hne₂ q hqp, hne₁ q hqp]
      simpa [hqp] using hq

theorem knows_connectLoop {Q : Unit → Comm P → (Fin P → ℕ) → Prop} (E : Setup P)
    (incoming : PeerMap) (hc : c.Fresh) {ss : List (Fin P)} (hsome : ∀ q ∈ ss, c.qps q ≠ none)
    (hQ : ∀ c' : Comm P, c'.Fresh → (∀ q, q ∈ ss ∨ Rts (c.qps q) → Rts (c'.qps q)) → Q () c' κ) :
    Knows callStamp Comm.entered (Sound R) R Q (ss.forM (connectQp (α := α) E R incoming)) c κ := by
  induction ss generalizing c with
  | nil => exact hQ c hc fun q hq => hq.resolve_left (by simp)
  | cons p ss ih =>
    rw [Proc.forM_cons, connectQp]
    split
    · trivial
    · obtain ⟨qp, hqp⟩ := Option.ne_none_iff_exists'.mp (hsome p (by simp))
      refine Knows.bind (Knows.bind (knows_updQp hc fun c₁ hc₁ hp₁ hne₁ => ?_))
      refine knows_updQp hc₁ fun c₂ hc₂ hp₂ hne₂ => ih hc₂ (fun q hq => ?_) fun c' hc' hrts => ?_
      · by_cases hqp' : q = p
        · subst q
          simp [hp₂, hp₁, hqp]
        · rw [hne₂ q hqp', hne₁ q hqp']
          exact hsome q (by simp [hq])
      · apply hQ c' hc'
        intro q hq
        apply hrts
        by_cases hqp' : q = p
        · subst q
          exact Or.inr ⟨_, by rw [hp₂, hp₁, hqp]; rfl, rfl⟩
        · rw [hne₂ q hqp', hne₁ q hqp']
          simpa [hqp'] using hq

theorem knows_communicator {Q : Unit → Comm P → (Fin P → ℕ) → Prop} (E : Setup P) (hc : c.Fresh)
    (hQ : ∀ (c' : Comm P) κ', c'.Fresh → (∀ q, q ≠ R → Rts (c'.qps q)) → Q () c' κ') :
    Knows callStamp Comm.entered (Sound R) R Q (communicator (α := α) E R) c κ := by
  refine Knows.bind (knows_createLoop E hc fun c₁ hc₁ hsome => Knows.bind ?_)
  refine knows_exchange (Nat.zero_le _) (fun incoming κ' _ => ?_) _
  refine knows_connectLoop E incoming hc₁ (fun q hq => hsome q (Or.inl hq)) fun c' hc' hrts => ?_
  exact hQ c' κ' hc' fun q hq => hrts q (Or.inl (mem_otherRanks.mpr hq))

theorem knows_barriers {call : ℕ} (hentered : c.entered + 1 = call)
    (hreturned : c.returned + 1 = call) (hrts : ∀ q, q ≠ R → Rts (c.qps q)) (n : ℕ)
    (hsound : Sound R c (view Comm.entered R c κ)) :
    Knows callStamp Comm.entered (Sound R) R (fun _ _ _ => True)
      (barriers (α := α) R call n) c κ := by
  induction n generalizing c κ call with
  | zero => trivial
  | succ n ih =>
    let c₁ : Comm P := { c with entered := c.entered + 1 }
    let c₂ : Comm P := { c₁ with returned := c.returned + 1 }
    refine ⟨c₁, by rintro l rfl; rfl, Nat.le_succ _, ⟨fun x => ?_, fun _ => hrts⟩, ?_⟩
    · apply (hsound.returned x).trans
      exact update_le_update_iff.mpr ⟨Nat.le_succ _, fun _ _ => le_rfl⟩ x
    · have hcall : call ≤ c₁.entered := Nat.le_of_eq hentered.symm
      refine Knows.bind (Knows.bind (knows_exchange hcall ?_ _))
      -- here all ranks are known to have entered this barrier
      intro _ κ' hall
      have hsound₂ : Sound R c₂ (view Comm.entered R c₂ κ') :=
        ⟨fun x => (Nat.le_of_eq hreturned).trans (hall x), fun _ => hrts⟩
      refine ⟨c₂, by intro l hl; rw [leave, hl], le_rfl, hsound₂, ?_⟩
      exact ih (congrArg (· + 1) hentered) (congrArg (· + 1) hreturned) hrts hsound₂

theorem knows_lifetime (E : Setup P) (hc : c.Fresh) (n : ℕ) :
    Knows callStamp Comm.entered (Sound R) R (fun _ _ _ => True) (lifetime (α := α) E R n) c κ := by
  refine Knows.bind (knows_communicator E hc fun c' κ' hc' hrts => ?_)
  exact knows_barriers (by rw [hc'.entered]) (by rw [hc'.returned]) hrts n (hc'.sound R _)

end Rank

/-- No rank has left more barriers than any rank has entered, and once a rank has left one, all
ranks are connected to all others. -/
structure BarrierSafe (s : Fin P → RankState P α (Comm P) A) : Prop where
  entered : ∀ r x, (s r).loc.vars.returned ≤ (s x).loc.vars.entered
  connected : ∀ r, 1 ≤ (s r).loc.vars.returned → ∀ x q, q ≠ x → Rts ((s x).loc.vars.qps q)

theorem barrierSafe_of_informed {s : Fin P → RankState P α (Comm P) A}
    (h : ∀ r, ∃ κ, Informed callStamp Comm.entered Sound s r κ) : BarrierSafe s := by
  have hle : ∀ r x, (s r).loc.vars.returned ≤ (s x).loc.vars.entered := by
    intro r x
    obtain ⟨κ, hr⟩ := h r
    exact (hr.inv.returned x).trans (view_le hr.heard rfl x)
  refine ⟨hle, fun r hr x => ?_⟩
  obtain ⟨κ, hx⟩ := h x
  exact hx.inv.connected (hr.trans (hle r x))

theorem barrierSafe_of_count_fits {cap : Fin P → Fin P → ℕ} (hcap : ∀ i j, 0 < cap i j)
    (hlen : P * (P - 1) < 2 ^ 32) (E : Setup P) (n : ℕ) (m : Fin P → Mem α)
    {s : Fin P → RankState P α (Comm P) Unit}
    (hs : Reaches (fabric P α (Comm P) Unit cap) (startLifetime E (fun _ => n) m) s) :
    BarrierSafe s := by
  have hfresh : (Comm.empty (P := P)).Fresh := ⟨rfl, rfl⟩
  apply barrierSafe_of_informed
  refine informed_reaches (I := Sound) (fun _ _ _ _ => Sound.mono) (fun r => ⟨fun _ => 0, ?_⟩) ?_ hs
  · exact {
      knows := knows_lifetime E hfresh n
      inv := hfresh.sound r _
      heard := fun x => Nat.zero_le _
      inbox := by simp [startLifetime, start, atRest] }
  · intro s' hs' r
    exact ((lifetime_leads E hcap hlen n _).matched (fun r => lifetime_disciplined E r n) hs' r).2

end MicroCcl
