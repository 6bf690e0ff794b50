import MicroCcl.Streams
import Mathlib.Order.Basic
import Mathlib.Order.Lattice

namespace MicroCcl
open Network

variable {P : ℕ} {α β A B : Type}

section Knowledge

variable (stamp : Tag → Fin P → ℕ) (clock : β → ℕ) (I : β → (Fin P → ℕ) → Prop) (r : Fin P)

/-- What the rank knows: what it heard of the others, and its own clock. -/
def view (c : β) (κ : Fin P → ℕ) : Fin P → ℕ := Function.update κ r (clock c)

/-- From variables `c` and with what was heard in `κ`, the process only says what it knows, keeps
`I` with every update, and gets to `Q` if it returns. -/
def Knows (Q : A → β → (Fin P → ℕ) → Prop) : Proc P α β A → β → (Fin P → ℕ) → Prop
  | .pure a, c, κ => Q a c κ
  | .throw _, _, _ => True
  | .postRecv _ _ k, c, κ => Knows Q k c κ
  | .postSend _ _ k, c, κ => Knows Q k c κ
  | .pollSend k, c, κ => ∀ wc, Knows Q (k wc) c κ
  | .pollRecv k, c, κ => ∀ wc, Knows Q (k wc) c κ
  | .upd f k, c, κ => ∃ c', (∀ l, l.vars = c → (f l).vars = c') ∧ clock c ≤ clock c' ∧
      I c' (view clock r c' κ) ∧ Knows Q k c' κ
  | .sendByte _ _ t k, c, κ => stamp t ≤ view clock r c κ ∧ Knows Q k c κ
  | .recvByte _ t k, c, κ => ∀ b, Knows Q (k b) c (κ ⊔ stamp t)

variable {stamp clock I r}

theorem Knows.bind {Q : B → β → (Fin P → ℕ) → Prop} {p : Proc P α β A} {f : A → Proc P α β B}
    {c : β} {κ : Fin P → ℕ}
    (h : Knows stamp clock I r (fun a c κ => Knows stamp clock I r Q (f a) c κ) p c κ) :
    Knows stamp clock I r Q (p >>= f) c κ := by
  induction p generalizing c κ with
  | pure a => exact h
  | throw e => trivial
  | postRecv q wr k ih => exact ih h
  | postSend q wr k ih => exact ih h
  | pollSend k ih => exact fun wc => ih wc (h wc)
  | pollRecv k ih => exact fun wc => ih wc (h wc)
  | upd g k ih =>
    obtain ⟨c', hf, hc, hI, hk⟩ := h
    exact ⟨c', hf, hc, hI, ih hk⟩
  | sendByte q b t k ih => exact ⟨h.1, ih h.2⟩
  | recvByte q t k ih => exact fun b => ih b (h b)

section Sockets

variable {c : β} {κ : Fin P → ℕ} {q : Fin P} {t : Tag}

theorem knows_sendExact {Q : Unit → β → (Fin P → ℕ) → Prop} (hst : stamp t ≤ view clock r c κ)
    (hQ : Q () c κ) (bs : List UInt8) :
    Knows stamp clock I r Q (sendExact (α := α) q bs t) c κ := by
  induction bs with
  | nil => exact hQ
  | cons b bs ih => exact ⟨hst, ih⟩

theorem knows_recvExact {Q : List UInt8 → β → (Fin P → ℕ) → Prop} {n : ℕ}
    (hQ : ∀ bs κ', κ ≤ κ' → (0 < n → stamp t ≤ κ') → Q bs c κ') :
    Knows stamp clock I r Q (recvExact (α := α) q t n) c κ := by
  induction n generalizing κ Q with
  | zero => exact hQ [] κ le_rfl fun h => absurd h (lt_irrefl 0)
  | succ n ih =>
    intro b
    apply Knows.bind
    apply ih
    intro bs κ' hκ' _
    exact hQ (b :: bs) κ' (le_sup_left.trans hκ') fun _ => le_sup_right.trans hκ'

end Sockets

theorem view_le {clocks : Fin P → ℕ} {c : β} {κ : Fin P → ℕ} (hκ : ∀ x, κ x ≤ clocks x)
    (hc : clock c = clocks r) (x : Fin P) : view clock r c κ x ≤ clocks x := by
  by_cases hx : x = r
  · subst x
    simp [view, hc]
  · simpa [view, hx] using hκ x

/-- A move of the rank's own code. What it learns, if anything, is the tag it waited for. -/
theorem Knows.opMove {st t : RankState P α β A} {κ : Fin P → ℕ} {Q : A → β → (Fin P → ℕ) → Prop}
    (hI : ∀ c κ κ', κ ≤ κ' → I c κ → I c κ')
    (h : Knows stamp clock I r Q st.proc st.loc.vars κ)
    (hinv : I st.loc.vars (view clock r st.loc.vars κ)) (hm : OpMove st t) :
    clock st.loc.vars ≤ clock t.loc.vars ∧ (∀ p, ∀ y ∈ t.inbox p, y ∈ st.inbox p) ∧
      ∃ κ', Knows stamp clock I r Q t.proc t.loc.vars κ' ∧
        I t.loc.vars (view clock r t.loc.vars κ') ∧
        (κ' = κ ∨ ∃ p b t' tg, κ' = κ ⊔ stamp tg ∧ (p, t', tg) ∈ t.byteLog ∧
          (b, t') ∈ st.inbox p) := by
  cases hm with
  | upd f k hp =>
    rw [hp] at h
    obtain ⟨c', hf, hc, hI', hk⟩ := h
    obtain rfl : (f st.loc).vars = c' := hf st.loc rfl
    exact ⟨hc, fun p y hy => hy, κ, hk, hI', Or.inl rfl⟩
  | recvByte p tg t' k b rest hp hc =>
    rw [hp] at h
    refine ⟨le_rfl, fun p' y hy => ?_, κ ⊔ stamp tg, h b, hI _ _ _ ?_ hinv, Or.inr ?_⟩
    · by_cases hpp : p' = p
      · subst p'
        simp only [Function.update_self] at hy
        simp [hc, hy]
      · simpa only [Function.update_of_ne hpp] using hy
    · exact update_le_update_iff.mpr ⟨le_rfl, fun x _ => le_sup_left⟩
    · exact ⟨p, b, t', tg, rfl, by simp, by simp [hc]⟩
  | postRecv q wr k hp =>
    rw [hp] at h
    exact ⟨le_rfl, fun p y hy => hy, κ, h, hinv, Or.inl rfl⟩
  | postSend q wr k hp =>
    rw [hp] at h
    exact ⟨le_rfl, fun p y hy => hy, κ, h, hinv, Or.inl rfl⟩
  | pollSend k wc rest hp hc =>
    rw [hp] at h
    exact ⟨le_rfl, fun p y hy => hy, κ, h wc, hinv, Or.inl rfl⟩
  | pollRecv k wc rest hp hc =>
    rw [hp] at h
    exact ⟨le_rfl, fun p y hy => hy, κ, h wc, hinv, Or.inl rfl⟩

end Knowledge

section Runs

variable (stamp : Tag → Fin P → ℕ) (clock : β → ℕ) (I : Fin P → β → (Fin P → ℕ) → Prop)

def clocks (s : Fin P → RankState P α β A) (x : Fin P) : ℕ := clock (s x).loc.vars

/-- The rank has heard `κ`, all of it true, and what waits for it at its sockets is true as well. -/
structure Informed (s : Fin P → RankState P α β A) (r : Fin P) (κ : Fin P → ℕ) : Prop where
  knows : Knows stamp clock (I r) r (fun _ _ _ => True) (s r).proc (s r).loc.vars κ
  inv : I r (s r).loc.vars (view clock r (s r).loc.vars κ)
  heard : ∀ x, κ x ≤ clocks clock s x
  inbox : ∀ p, ∀ y ∈ (s r).inbox p, ∀ x, stamp y.2 x ≤ clocks clock s x

variable {stamp clock I} {cap : Fin P → Fin P → ℕ}

/-- A rank that does not move stays informed while the clocks go on. -/
theorem Informed.of_eq {s s' : Fin P → RankState P α β A} {r : Fin P} {κ : Fin P → ℕ}
    (h : Informed stamp clock I s r κ) (hproc : (s' r).proc = (s r).proc)
    (hvars : (s' r).loc.vars = (s r).loc.vars)
    (hinbox : ∀ p, ∀ y ∈ (s' r).inbox p, y ∈ (s r).inbox p ∨ ∀ x, stamp y.2 x ≤ clocks clock s x)
    (hclocks : ∀ x, clocks clock s x ≤ clocks clock s' x) : Informed stamp clock I s' r κ where
  knows := by rw [hproc, hvars]; exact h.knows
  inv := by rw [hvars]; exact h.inv
  heard x := (h.heard x).trans (hclocks x)
  inbox p y hy x := by
    rcases hinbox p y hy with hold | hnew
    · exact (h.inbox p y hold x).trans (hclocks x)
    · exact (hnew x).trans (hclocks x)

/-- The sender of a byte vouches for it, so the receiver may have it in its buffer. -/
theorem informed_byte {s s' : Fin P → RankState P α β A}
    (hs : ∀ r, ∃ κ, Informed stamp clock I s r κ) {i j : Fin P} {b : UInt8} {t : Tag}
    {k : Proc P α β A} (hp : (s i).proc = .sendByte j b t k) (hi : s' i = { s i with proc := k })
    (hj : s' j = { s j with inbox := Function.update (s j).inbox i ((s j).inbox i ++ [(b, t)]) })
    (hrest : ∀ q, q ≠ i → q ≠ j → s' q = s q) (r : Fin P) :
    ∃ κ, Informed stamp clock I s' r κ := by
  obtain ⟨κ, hr⟩ := hs r
  obtain ⟨κi, hinf⟩ := hs i
  have hvouch := hinf.knows
  rw [hp] at hvouch
  have hstamp : ∀ x, stamp t x ≤ clocks clock s x := fun x =>
    (hvouch.1 x).trans (view_le hinf.heard rfl x)
  have hloc := byte_loc hi hj hrest
  have hclocks : ∀ x, clocks clock s x ≤ clocks clock s' x := fun x => by
    simp only [clocks, hloc, le_refl]
  by_cases hri : r = i
  · subst r
    refine ⟨κi, ?_, ?_, fun x => (hinf.heard x).trans (hclocks x), fun p y hy x => ?_⟩
    · rw [hi]
      exact hvouch.2
    · rw [hi]
      exact hinf.inv
    · rw [hi] at hy
      exact (hinf.inbox p y hy x).trans (hclocks x)
  · by_cases hrj : r = j
    · subst r
      refine ⟨κ, hr.of_eq (by rw [hj]) (by rw [hloc]) (fun p y hy => ?_) hclocks⟩
      rw [hj] at hy
      by_cases hpi : p = i
      · subst p
        simp only [Function.update_self, List.mem_append, List.mem_singleton] at hy
        rcases hy with hy | rfl
        · exact Or.inl hy
        · exact Or.inr hstamp
      · simp only [Function.update_of_ne hpi] at hy
        exact Or.inl hy
    · refine ⟨κ, hr.of_eq (by rw [hrest r hri hrj]) (by rw [hloc]) (fun p y hy => ?_) hclocks⟩
      rw [hrest r hri hrj] at hy
      exact Or.inl hy

theorem informed_op (hI : ∀ r c κ κ', κ ≤ κ' → I r c κ → I r c κ')
    {s s' : Fin P → RankState P α β A} (hs : ∀ r, ∃ κ, Informed stamp clock I s r κ) {q : Fin P}
    (hm : OpMove (s q) (s' q)) (hrest : ∀ x, x ≠ q → s' x = s x)
    (hmatch : ∀ e ∈ (s' q).byteLog, e.2.1 = e.2.2) (r : Fin P) :
    ∃ κ, Informed stamp clock I s' r κ := by
  obtain ⟨κ, hr⟩ := hs r
  obtain ⟨κq, hinf⟩ := hs q
  obtain ⟨hclock, hinbox, κ', hknows, hinv, hκ'⟩ := hinf.knows.opMove (hI q) hinf.inv hm
  have hclocks : ∀ x, clocks clock s x ≤ clocks clock s' x := by
    intro x
    by_cases hx : x = q
    · subst x; exact hclock
    · simp only [clocks, hrest x hx, le_refl]
  by_cases hrq : r = q
  · subst r
    refine ⟨κ', hknows, hinv, fun x => le_trans ?_ (hclocks x), fun p y hy x =>
      (hinf.inbox p y (hinbox p y hy) x).trans (hclocks x)⟩
    rcases hκ' with rfl | ⟨p, b, t', tg, rfl, hlog, hin⟩
    · exact hinf.heard x
    · -- the byte that was waited for is the byte that came
      obtain rfl : t' = tg := hmatch _ hlog
      exact sup_le (hinf.heard x) (hinf.inbox p _ hin x)
  · refine ⟨κ, hr.of_eq (by rw [hrest r hrq]) (by rw [hrest r hrq]) (fun p y hy => ?_) hclocks⟩
    rw [hrest r hrq] at hy
    exact Or.inl hy

theorem informed_step (hI : ∀ r c κ κ', κ ≤ κ' → I r c κ → I r c κ')
    {s s' : Fin P → RankState P α β A} (hs : ∀ r, ∃ κ, Informed stamp clock I s r κ)
    (hstep : SocketMove s s') (hmatch : ∀ r, ∀ e ∈ (s' r).byteLog, e.2.1 = e.2.2) (r : Fin P) :
    ∃ κ, Informed stamp clock I s' r κ := by
  cases hstep with
  | nic hsame =>
    obtain ⟨κ, hr⟩ := hs r
    refine ⟨κ, hr.of_eq (hsame r).proc (hsame r).vars (fun p y hy => Or.inl ?_) fun x => ?_⟩
    · rwa [(hsame r).inbox] at hy
    · simp only [clocks, (hsame x).vars, le_refl]
  | byte i j b t k hij hp hi hj hrest => exact informed_byte hs hp hi hj hrest r
  | op q hm hrest => exact informed_op hI hs hm hrest (hmatch q) r

/-- In a run in which every byte is taken by the receive it was meant for, all ranks are
informed in every state. -/
theorem informed_reaches (hI : ∀ r c κ κ', κ ≤ κ' → I r c κ → I r c κ')
    {s₀ s : Fin P → RankState P α β A} (h₀ : ∀ r, ∃ κ, Informed stamp clock I s₀ r κ)
    (hmatch : ∀ s, Reaches (fabric P α β A cap) s₀ s →
      ∀ r, ∀ e ∈ (s r).byteLog, e.2.1 = e.2.2)
    (h : Reaches (fabric P α β A cap) s₀ s) (r : Fin P) : ∃ κ, Informed stamp clock I s r κ := by
  induction h generalizing r with
  | refl => exact h₀ r
  | tail hreach hstep ih =>
    exact informed_step hI ih (step_sockets hstep) (hmatch _ (hreach.tail hstep)) r

end Runs

end MicroCcl
