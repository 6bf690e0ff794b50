import MicroCcl.Clocks
import MicroCcl.Rounds

namespace MicroCcl
open Network

variable {P : ℕ} {α β A B : Type} {cap : Fin P → Fin P → ℕ}

def Posts (ok : β → Prop) (Q : A → β → Prop) : Proc P α β A → β → Prop
  | .pure a, c => Q a c
  | .throw _, _ => True
  | .postRecv _ _ k, c => ok c ∧ Posts ok Q k c
  | .postSend _ _ k, c => ok c ∧ Posts ok Q k c
  | .pollSend k, c => ∀ wc, Posts ok Q (k wc) c
  | .pollRecv k, c => ∀ wc, Posts ok Q (k wc) c
  | .upd f k, c => ∀ l, l.vars = c → (ok c → ok (f l).vars) ∧ Posts ok Q k (f l).vars
  | .sendByte _ _ _ k, c => Posts ok Q k c
  | .recvByte _ _ k, c => ∀ b, Posts ok Q (k b) c

variable {ok : β → Prop}

theorem Posts.bind {Q : B → β → Prop} {p : Proc P α β A} {f : A → Proc P α β B} {c : β}
    (h : Posts ok (fun a c => Posts ok Q (f a) c) p c) : Posts ok Q (p >>= f) c := by
  induction p generalizing c with
  | pure a => exact h
  | throw e => trivial
  | postRecv q wr k ih => exact ⟨h.1, ih h.2⟩
  | postSend q wr k ih => exact ⟨h.1, ih h.2⟩
  | pollSend k ih => exact fun wc => ih wc (h wc)
  | pollRecv k ih => exact fun wc => ih wc (h wc)
  | upd g k ih => exact fun l hl => ⟨(h l hl).1, ih (h l hl).2⟩
  | sendByte q b t k ih => exact ih h
  | recvByte q t k ih => exact fun b => ih b (h b)

theorem SocketOnly.posts {p : Proc P α β A} (hp : SocketOnly p) {Q : A → β → Prop} {c : β}
    (hQ : ∀ a, Q a c) : Posts ok Q p c := by
  induction hp with
  | pure a => exact hQ a
  | throw e => trivial
  | sendByte q b t _ ih => exact ih
  | recvByte q t _ ih => exact ih

/-- Some work request of the rank is waiting, under way or done. -/
def RankState.HasPosted (st : RankState P α β A) : Prop :=
  (∃ p, st.sendQ p ≠ []) ∨ (∃ p, st.recvQ p ≠ []) ∨ st.sent ≠ [] ∨ st.log ≠ []

structure PostedUnder (ok : β → Prop) (st : RankState P α β A) : Prop where
  code : Posts ok (fun _ _ => True) st.proc st.loc.vars
  posted : st.HasPosted → ok st.loc.vars

theorem PostedUnder.opStep {st t : RankState P α β A} (hI : PostedUnder ok st)
    (h : opStep st = some t) : PostedUnder ok t := by
  obtain ⟨hcode, hposted⟩ := hI
  cases opStep_cases h with
  | postRecv q wr k hp =>
    rw [hp] at hcode
    exact ⟨hcode.2, fun _ => hcode.1⟩
  | postSend q wr k hp =>
    rw [hp] at hcode
    exact ⟨hcode.2, fun _ => hcode.1⟩
  | pollSend k wc rest hp hc =>
    rw [hp] at hcode
    exact ⟨hcode wc, hposted⟩
  | pollRecv k wc rest hp hc =>
    rw [hp] at hcode
    exact ⟨hcode wc, hposted⟩
  | upd f k hp =>
    rw [hp] at hcode
    obtain ⟨hkeep, hk⟩ := hcode st.loc rfl
    exact ⟨hk, fun ht => hkeep (hposted ht)⟩
  | recvByte q t t' k b rest hp hc =>
    rw [hp] at hcode
    exact ⟨hcode b, hposted⟩

theorem PostedUnder.outStep {st : RankState P α β A} {p : Fin P} {c : Chan} {m : Msg α}
    {g : WcStatus → RankState P α β A} (hI : PostedUnder ok st)
    (h : outStep st p c = some (m, g)) (a : WcStatus) : PostedUnder ok (g a) := by
  obtain ⟨hcode, hposted⟩ := hI
  cases c with
  | rdma =>
    obtain ⟨wr, rest, hq, -, rfl⟩ := outStep_rdma_cases h
    exact ⟨hcode, fun _ => hposted (Or.inl ⟨p, by simp [hq]⟩)⟩
  | tcp =>
    obtain ⟨b, tg, k, hp, -, rfl⟩ := outStep_tcp_cases h
    rw [hp] at hcode
    exact ⟨hcode, hposted⟩

theorem PostedUnder.inpStep {n : ℕ} {st t : RankState P α β A} {p : Fin P} {c : Chan} {m : Msg α}
    {a : WcStatus} (hI : PostedUnder ok st) (h : inpStep n st p c m = some (a, t)) :
    PostedUnder ok t := by
  obtain ⟨hcode, hposted⟩ := hI
  cases c with
  | rdma =>
    obtain ⟨wr, xs, rwr, rest, -, hq, hcase⟩ := inpStep_rdma_cases h
    have hok : ok st.loc.vars := hposted (Or.inr (Or.inl ⟨p, by simp [hq]⟩))
    obtain ⟨-, -, rfl⟩ | ⟨-, -, rfl⟩ := hcase
    · exact ⟨hcode, fun _ => hok⟩
    · exact ⟨hcode, fun _ => hok⟩
  | tcp =>
    obtain ⟨b, tg, -, -, -, rfl⟩ := inpStep_tcp_cases h
    exact ⟨hcode, hposted⟩

theorem PostedUnder.reaches {s e : Fin P → RankState P α β A} {r : Fin P}
    (hs : PostedUnder ok (s r)) (h : Reaches (fabric P α β A cap) s e) : PostedUnder ok (e r) := by
  refine stable_of_moves (Q := PostedUnder ok) ?_ (fun hQ h a => hQ.outStep h a)
    (fun hQ h => hQ.inpStep h) hs h
  intro st t l hQ hm
  cases l with
  | op => exact hQ.opStep hm
  | complete p =>
    obtain ⟨a, rest, -, rfl⟩ := completeStep_cases hm
    exact ⟨hQ.code, hQ.posted⟩

theorem Posts.of_start {p : Fin P → Proc P α β A} {l : Fin P → Local α β}
    {s : Fin P → RankState P α β A} {r : Fin P}
    (hp : Posts ok (fun _ _ => True) (p r) (l r).vars)
    (h : Reaches (fabric P α β A cap) (start p l) s) (hposted : (s r).HasPosted) :
    ok (s r).loc.vars :=
  (PostedUnder.reaches (s := start p l) ⟨hp, by simp [start, atRest, RankState.HasPosted]⟩
    h).posted hposted

/-- The process uses no socket and leaves the variables alone. -/
def Offline : Proc P α β A → Prop
  | .pure _ | .throw _ => True
  | .postRecv _ _ k | .postSend _ _ k => Offline k
  | .pollSend k | .pollRecv k => ∀ wc, Offline (k wc)
  | .upd f k => (∀ l, (f l).vars = l.vars) ∧ Offline k
  | .sendByte _ _ _ _ | .recvByte _ _ _ => False

theorem Offline.bind {p : Proc P α β A} {f : A → Proc P α β B} (hp : Offline p)
    (hf : ∀ a, Offline (f a)) : Offline (p >>= f) := by
  induction p with
  | pure a => exact hf a
  | throw e => trivial
  | postRecv q wr k ih => exact ih hp
  | postSend q wr k ih => exact ih hp
  | pollSend k ih => exact fun wc => ih wc (hp wc)
  | pollRecv k ih => exact fun wc => ih wc (hp wc)
  | upd g k ih => exact ⟨hp.1, ih hp.2⟩
  | sendByte q b t k ih => exact hp.elim
  | recvByte q t k ih => exact hp.elim

/-- It may post at any time if it may post now. -/
theorem Offline.posts {p : Proc P α β A} (hp : Offline p) {Q : A → β → Prop} {c : β} (hok : ok c)
    (hQ : ∀ a, Q a c) : Posts ok Q p c := by
  induction p with
  | pure a => exact hQ a
  | throw e => trivial
  | postRecv q wr k ih => exact ⟨hok, ih hp⟩
  | postSend q wr k ih => exact ⟨hok, ih hp⟩
  | pollSend k ih => exact fun wc => ih wc (hp wc)
  | pollRecv k ih => exact fun wc => ih wc (hp wc)
  | upd f k ih =>
    rintro l rfl
    rw [hp.1 l]
    exact ⟨id, ih hp.2⟩
  | sendByte q b t k ih => exact hp.elim
  | recvByte q t k ih => exact hp.elim

/-- It learns nothing and tells nothing. -/
theorem Offline.knows {stamp : Tag → Fin P → ℕ} {clock : β → ℕ} {I : β → (Fin P → ℕ) → Prop}
    {r : Fin P} {p : Proc P α β A} (hp : Offline p) {Q : A → β → (Fin P → ℕ) → Prop} {c : β}
    {κ : Fin P → ℕ} (hI : I c (view clock r c κ)) (hQ : ∀ a, Q a c κ) :
    Knows stamp clock I r Q p c κ := by
  induction p with
  | pure a => exact hQ a
  | throw e => trivial
  | postRecv q wr k ih => exact ih hp
  | postSend q wr k ih => exact ih hp
  | pollSend k ih => exact fun wc => ih wc (hp wc)
  | pollRecv k ih => exact fun wc => ih wc (hp wc)
  | upd f k ih => exact ⟨c, fun l hl => by rw [hp.1 l, hl], le_rfl, hI, ih hp.2⟩
  | sendByte q b t k ih => exact hp.elim
  | recvByte q t k ih => exact hp.elim

theorem offline_checkWc (wc : Wc) {f : Wc → Proc P α β A} (hf : ∀ w, Offline (f w)) :
    Offline (checkWc wc >>= f) := by
  unfold checkWc
  split_ifs
  · trivial
  · exact hf wc

theorem Xfer.offline {x : Xfer P α β}
    (hred : ∀ z ∈ x.recv, ∀ f ∈ z.2.reduce, ∀ l, (f l).vars = l.vars) : Offline x.proc := by
  refine Offline.bind ?_ fun _ => Offline.bind ?_ fun _ => Offline.bind ?_ fun _ => ?_
  · unfold Xfer.postRecv
    split <;> trivial
  · unfold Xfer.postSend
    split <;> trivial
  · unfold Xfer.waitSend
    split
    · exact fun wc => offline_checkWc wc fun _ => trivial
    · trivial
  · unfold Xfer.waitRecv
    split
    · next q v hv =>
      refine fun wc => offline_checkWc wc fun w => ?_
      unfold RecvPart.finish
      split_ifs
      · trivial
      · split
        · next f hf => exact ⟨hred (q, v) hv f hf, trivial⟩
        · trivial
    · trivial

theorem roundsProc_offline {Gs : List (Round P α β)} {r : Fin P}
    (hred : ∀ G ∈ Gs, ∀ z ∈ (G r).recv, ∀ f ∈ z.2.reduce, ∀ l, (f l).vars = l.vars) :
    Offline (roundsProc Gs r) := by
  induction Gs with
  | nil => trivial
  | cons G Gs ih =>
    rw [roundsProc_cons]
    exact (Xfer.offline (hred G (by simp))).bind fun _ => ih fun G' hG' => hred G' (by simp [hG'])

end MicroCcl
