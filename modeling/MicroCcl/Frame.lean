import MicroCcl.Rounds

namespace MicroCcl
open Network

variable {P : ℕ} {α β A B : Type} {cap : Fin P → Fin P → ℕ}

def Proc.All (Qr : Wr → Prop) (Qu : (Local α β → Local α β) → Prop) : Proc P α β A → Prop
  | .pure _ | .throw _ => True
  | .postRecv _ wr k => Qr wr ∧ Proc.All Qr Qu k
  | .postSend _ _ k => Proc.All Qr Qu k
  | .pollSend k | .pollRecv k => ∀ wc, Proc.All Qr Qu (k wc)
  | .upd f k => Qu f ∧ Proc.All Qr Qu k
  | .sendByte _ _ _ k => Proc.All Qr Qu k
  | .recvByte _ _ k => ∀ b, Proc.All Qr Qu (k b)

variable {Qr : Wr → Prop} {Qu : (Local α β → Local α β) → Prop}

theorem Proc.All.bind {p : Proc P α β A} {f : A → Proc P α β B} (hp : p.All Qr Qu)
    (hf : ∀ a, (f a).All Qr Qu) : (p >>= f).All Qr Qu := by
  induction p with
  | pure a => exact hf a
  | throw e => trivial
  | postRecv q wr k ih => exact ⟨hp.1, ih hp.2⟩
  | postSend q wr k ih => exact ih hp
  | pollSend k ih => exact fun wc => ih wc (hp wc)
  | pollRecv k ih => exact fun wc => ih wc (hp wc)
  | upd g k ih => exact ⟨hp.1, ih hp.2⟩
  | sendByte q b t k ih => exact ih hp
  | recvByte q t k ih => exact fun b => ih b (hp b)

theorem Proc.All.forM {S : Type} {f : S → Proc P α β Unit} (hf : ∀ s, (f s).All Qr Qu)
    (ss : List S) : (ss.forM f).All Qr Qu := by
  induction ss with
  | nil => trivial
  | cons s ss ih => exact (hf s).bind fun _ => ih

/-- What holds of all requests in the queues of a rank holds after one queue has changed. -/
theorem forall_update_queue {Q : Wr → Prop} {queue : Fin P → List Wr}
    (h : ∀ p, ∀ wr ∈ queue p, Q wr) (p : Fin P) {wrs : List Wr} (hwrs : ∀ wr ∈ wrs, Q wr) :
    ∀ q, ∀ wr ∈ Function.update queue p wrs q, Q wr := by
  intro q
  by_cases hq : q = p
  · subst q
    rwa [Function.update_self]
  · rw [Function.update_of_ne hq]
    exact h q

theorem forall_mem_concat {X : Type} {Q : X → Prop} {xs : List X} {x : X} (h : ∀ y ∈ xs, Q y)
    (hx : Q x) : ∀ y ∈ xs ++ [x], Q y :=
  List.forall_mem_append.mpr ⟨h, List.forall_mem_singleton.mpr hx⟩

/-- What holds of the memory, and that nothing under way can change it. -/
structure Guarded (Qr : Wr → Prop) (Qu : (Local α β → Local α β) → Prop)
    (I : Local α β → Prop) (st : RankState P α β A) : Prop where
  proc : st.proc.All Qr Qu
  recvQ : ∀ p, ∀ wr ∈ st.recvQ p, Qr wr
  loc : I st.loc

section Runs

variable {I : Local α β → Prop} (hu : ∀ f l, Qu f → I l → I (f l))
include hu

theorem Guarded.opStep {st t : RankState P α β A} (hk : Guarded Qr Qu I st)
    (h : opStep st = some t) : Guarded Qr Qu I t := by
  obtain ⟨h1, h2, h3⟩ := hk
  cases opStep_cases h with
  | postRecv q wr k hp =>
    rw [hp] at h1
    exact ⟨h1.2, forall_update_queue h2 q (forall_mem_concat (h2 q) h1.1), h3⟩
  | postSend q wr k hp =>
    rw [hp] at h1
    exact ⟨h1, h2, h3⟩
  | pollSend k wc rest hp hc =>
    rw [hp] at h1
    exact ⟨h1 wc, h2, h3⟩
  | pollRecv k wc rest hp hc =>
    rw [hp] at h1
    exact ⟨h1 wc, h2, h3⟩
  | upd f k hp =>
    rw [hp] at h1
    exact ⟨h1.2, h2, hu f _ h1.1 h3⟩
  | recvByte q t t' k b rest hp hc =>
    rw [hp] at h1
    exact ⟨h1 b, h2, h3⟩

variable (hr : ∀ wr l xs, Qr wr → I l → I { l with mem := writeRange l.mem wr xs })
include hr

theorem Guarded.reaches {s e : Fin P → RankState P α β A} {r : Fin P}
    (hs : Guarded Qr Qu I (s r)) (h : Reaches (fabric P α β A cap) s e) :
    Guarded Qr Qu I (e r) := by
  refine stable_of_moves ?_ ?_ ?_ hs h
  · rintro st t (_ | p) hk h
    · exact hk.opStep hu h
    · obtain ⟨a, rest, -, rfl⟩ := completeStep_cases h
      exact ⟨hk.proc, hk.recvQ, hk.loc⟩
  · rintro st p (_ | _) mg g hk h a
    · obtain ⟨wr, rest, -, -, rfl⟩ := outStep_rdma_cases h
      exact ⟨hk.proc, hk.recvQ, hk.loc⟩
    · obtain ⟨b, tg, k, hp, -, rfl⟩ := outStep_tcp_cases h
      have hav := hk.proc
      rw [hp] at hav
      exact ⟨hav, hk.recvQ, hk.loc⟩
  · rintro st n p (_ | _) mg a t hk h
    · obtain ⟨wr, xs, rwr, rest, -, hq, hcase⟩ := inpStep_rdma_cases h
      obtain ⟨hrwr, hmem⟩ := List.forall_mem_cons.mp (hq ▸ hk.recvQ p)
      have hrest := forall_update_queue hk.recvQ p hmem
      rcases hcase with ⟨-, -, rfl⟩ | ⟨-, -, rfl⟩
      · exact ⟨hk.proc, hrest, hr rwr _ xs hrwr hk.loc⟩
      · exact ⟨hk.proc, hrest, hk.loc⟩
    · obtain ⟨b, tg, -, -, -, rfl⟩ := inpStep_tcp_cases h
      exact ⟨hk.proc, hk.recvQ, hk.loc⟩

theorem Guarded.of_start {p : Fin P → Proc P α β A} {l : Fin P → Local α β}
    {s : Fin P → RankState P α β A} {r : Fin P} (hp : (p r).All Qr Qu)
    (h : Reaches (fabric P α β A cap) (start p l) s) (hl : I (l r)) : Guarded Qr Qu I (s r) :=
  Guarded.reaches (s := start p l) hu hr ⟨hp, by simp [start, atRest], hl⟩ h

end Runs

section Cells

variable {W : Buf → ℕ → Prop}

def Wr.Avoids (W : Buf → ℕ → Prop) (wr : Wr) : Prop :=
  ∀ i, wr.off / 4 ≤ i → i < wr.off / 4 + wr.length / 4 → ¬ W wr.buf i

def KeepsCells (W : Buf → ℕ → Prop) (f : Local α β → Local α β) : Prop :=
  ∀ l b i, W b i → (f l).mem b i = l.mem b i

theorem Wr.Avoids.writeRange_eq {wr : Wr} (h : wr.Avoids W) (m : Mem α) (xs : List α) {b : Buf}
    {i : ℕ} (hw : W b i) : writeRange m wr xs b i = m b i := by
  rw [writeRange, if_neg]
  rintro ⟨rfl, h1, h2⟩
  exact h i h1 h2 hw

/-- No receive and no update of the process touches a cell of `W`. -/
def Avoids (W : Buf → ℕ → Prop) (p : Proc P α β A) : Prop := p.All (Wr.Avoids W) (KeepsCells W)

/-- Cells that the process of a rank avoids keep their contents in every run. -/
theorem Avoids.mem_eq {p : Fin P → Proc P α β A} {l : Fin P → Local α β}
    {s : Fin P → RankState P α β A} {r : Fin P} (hp : Avoids W (p r))
    (h : Reaches (fabric P α β A cap) (start p l) s) {b : Buf} {i : ℕ} (hw : W b i) :
    (s r).loc.mem b i = (l r).mem b i := by
  refine (Guarded.of_start (I := fun m => m.mem b i = (l r).mem b i) ?_ ?_ hp h rfl).loc
  · exact fun f m hf hm => (hf m b i hw).trans hm
  · exact fun wr m xs hwr hm => (hwr.writeRange_eq m.mem xs hw).trans hm

end Cells

theorem all_checkWc (wc : Wc) {f : Wc → Proc P α β A} (hf : ∀ w, (f w).All Qr Qu) :
    (checkWc wc >>= f).All Qr Qu := by
  unfold checkWc
  split_ifs
  · trivial
  · exact hf wc

theorem Xfer.all {x : Xfer P α β} (hwr : ∀ z ∈ x.recv, Qr z.2.wr)
    (hred : ∀ z ∈ x.recv, ∀ f ∈ z.2.reduce, Qu f) : x.proc.All Qr Qu := by
  refine Proc.All.bind ?_ fun _ => Proc.All.bind ?_ fun _ => Proc.All.bind ?_ fun _ => ?_
  · unfold Xfer.postRecv
    split
    · next q v hv => exact ⟨hwr (q, v) hv, trivial⟩
    · trivial
  · unfold Xfer.postSend
    split <;> trivial
  · unfold Xfer.waitSend
    split
    · exact fun wc => all_checkWc wc fun _ => trivial
    · trivial
  · unfold Xfer.waitRecv
    split
    · next q v hv =>
      refine fun wc => all_checkWc wc fun w => ?_
      unfold RecvPart.finish
      split_ifs
      · trivial
      · split
        · next f hf => exact ⟨hred (q, v) hv f hf, trivial⟩
        · trivial
    · trivial

theorem roundsProc_all {Gs : List (Round P α β)} {r : Fin P}
    (hwr : ∀ G ∈ Gs, ∀ z ∈ (G r).recv, Qr z.2.wr)
    (hred : ∀ G ∈ Gs, ∀ z ∈ (G r).recv, ∀ f ∈ z.2.reduce, Qu f) :
    (roundsProc Gs r).All Qr Qu := by
  induction Gs with
  | nil => trivial
  | cons G Gs ih =>
    rw [roundsProc_cons]
    exact Proc.All.bind (Xfer.all (hwr G (by simp)) (hred G (by simp))) fun _ =>
      ih (fun G' hG' => hwr G' (by simp [hG'])) fun G' hG' => hred G' (by simp [hG'])

end MicroCcl
