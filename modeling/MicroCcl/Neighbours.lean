import MicroCcl.History
import MicroCcl.RingIndex

namespace MicroCcl
open Network

variable {P : ℕ} {α β : Type}

section Chain

variable {ts : Fin P → List (Turn P α β)} {s : Fin P → RankState P α β Unit}

/-- The first `m` receives of the rank came with the lengths it expected. -/
def Passed (ts : List (Turn P α β)) (m : ℕ) (st : RankState P α β Unit) : Prop :=
  (ts.take m).map Turn.passed <+: st.log.map completionOf

theorem expected_of_passed {ts : List (Turn P α β)} {lg : List (Fin P × Wr × Wr)}
    (h : ts.map Turn.passed <+: lg.map completionOf) :
    (ts.map fun t => t.part.expected) <+: lg.map fun e => e.2.1.length := by
  induction ts generalizing lg with
  | nil => exact List.nil_prefix
  | cons t ts ih =>
    cases lg with
    | nil => simp at h
    | cons e lg =>
      obtain ⟨he, hrest⟩ := List.cons_prefix_cons.mp h
      refine List.cons_prefix_cons.mpr ⟨?_, ih hrest⟩
      exact (length_of_completionOf he.symm).symm

/-- The sizes that the rank expected are those its predecessor posted, turn by turn. -/
theorem expected_eq_length {ts ts' : List (Turn P α β)} {m j : ℕ}
    (h : ((ts.take m).map fun t => t.part.expected) <+: ts'.map fun t => t.wr.length) (hj : j < m)
    {t t' : Turn P α β} (ht : ts[j]? = some t) (ht' : ts'[j]? = some t') :
    t.part.expected = t'.wr.length := by
  have hget := getElem?_of_prefix h (j := j) (x := t.part.expected)
    (by rw [List.getElem?_map, List.getElem?_take_of_lt hj, ht]; rfl)
  rw [List.getElem?_map, ht'] at hget
  exact (Option.some.inj hget).symm

variable (hrec : ∀ q, ∃ ps ws, Recorded (Kept (ts q))
    (fun _ _ ws => (ts q).map Turn.passed <+: ws) (s q) ps ws)
  (hfifo : ∀ i j, sentTo j (s i).sent = receivedFrom i (s j).log)
  (hdst : ∀ q, ∀ t ∈ ts q, t.dst = next q)
include hrec hfifo hdst

/-- What a rank has received is the beginning of what its predecessor has posted. -/
theorem log_prefix_posted (q : Fin P) {ps : List (Fin P × Wr)} {ws : List Wc}
    (hp : Recorded (Kept (ts (prev q))) (fun _ _ ws => (ts (prev q)).map Turn.passed <+: ws)
      (s (prev q)) ps ws) : ((s q).log.map fun e => e.2.1) <+: ps.map Prod.snd := by
  have hposts : ∀ p, ∀ ps ws, Recorded (Kept (ts p)) (fun _ _ ws => (ts p).map Turn.passed <+: ws)
      (s p) ps ws → ∀ x ∈ ps, x.1 = next p := by
    intro p ps ws hr x hx
    obtain ⟨t, ht, rfl⟩ := List.mem_map.mp (hr.inv.1.subset hx)
    exact hdst p t ht
  -- whoever a message came from posted it to its successor
  have hfrom : ∀ e ∈ (s q).log, e.1 = prev q := by
    intro e he
    obtain ⟨ps', ws', hr⟩ := hrec e.1
    have hq : q = next e.1 := hposts e.1 ps' ws' hr _ (hr.posted_of_log hfifo he)
    rw [hq, prev_next]
  have hlog : receivedFrom (prev q) (s q).log = (s q).log.map fun e => e.2.1 := by
    rw [receivedFrom, List.filter_eq_self.mpr]
    exact fun e he => decide_eq_true (hfrom e he)
  have hps : sentTo q ps = ps.map Prod.snd := by
    rw [sentTo, List.filter_eq_self.mpr]
    intro x hx
    rw [hposts (prev q) ps ws hp x hx, next_prev]
    exact decide_eq_true rfl
  rw [← hlog, ← hfifo, ← hps, hp.posted q]
  exact List.prefix_append _ _

/-- A rank that got through `m` turns saw the lengths that its predecessor has in them, and the
predecessor got through all of these turns but the last. -/
theorem passed_prev {q : Fin P} {m : ℕ} (hm : m ≤ (ts q).length) (hq : Passed (ts q) m (s q)) :
    (((ts q).take m).map fun t => t.part.expected) <+: (ts (prev q)).map (fun t => t.wr.length) ∧
      Passed (ts (prev q)) (m - 1) (s (prev q)) := by
  obtain ⟨ps, ws, hp⟩ := hrec (prev q)
  have hlog := log_prefix_posted hrec hfifo hdst q hp
  constructor
  · have hsent : ps.map (fun x => x.2.length) <+: (ts (prev q)).map fun t => t.wr.length := by
      have := hp.inv.1.map fun x => x.2.length
      rwa [List.map_map] at this
    have hlens := hlog.map Wr.length
    rw [List.map_map, List.map_map] at hlens
    exact (expected_of_passed hq).trans (hlens.trans hsent)
  · have hlen : m ≤ ps.length := by
      have h1 := hq.length_le
      have h2 := hlog.length_le
      simp only [List.length_map, List.length_take] at h1 h2
      omega
    have htake : (ts (prev q)).take (m - 1) <+: (ts (prev q)).take (ps.length - 1) :=
      List.take_prefix_take_left (by omega)
    rw [Passed, ← hp.told]
    exact (htake.map _).trans (hp.inv.2.trans (List.prefix_append _ _))

/-- Going back from a rank that got through `m` turns. -/
theorem passed_iterate {r : Fin P} {m : ℕ} (hm : ∀ q, m ≤ (ts q).length)
    (hr : Passed (ts r) m (s r)) (k : ℕ) :
    Passed (ts (prev^[k] r)) (m - k) (s (prev^[k] r)) := by
  induction k with
  | zero => exact hr
  | succ k ih =>
    rw [Function.iterate_succ_apply', Nat.sub_succ]
    exact (passed_prev hrec hfifo hdst ((Nat.sub_le _ _).trans (hm _)) ih).2

/-- What neighbours agree on after `n` turns, all ranks agree on once some rank has got through
`n + P - 2` of them. -/
theorem eq_of_passed {X : Type} {f : Fin P → X} {m n : ℕ} (hm : ∀ q, m ≤ (ts q).length)
    (hn : n + P ≤ m + 2)
    (hf : ∀ q k, n ≤ k → (((ts q).take k).map fun t => t.part.expected) <+:
      ((ts (prev q)).map fun t => t.wr.length) → f q = f (prev q))
    {r : Fin P} (hr : Passed (ts r) m (s r)) (q : Fin P) : f q = f r := by
  have hstep : ∀ k, k + 1 < P → f (prev^[k] r) = f (prev^[k + 1] r) := by
    intro k hk
    have hk' := passed_iterate hrec hfifo hdst hm hr k
    rw [Function.iterate_succ_apply']
    apply hf _ (m - k) (by omega)
    exact (passed_prev hrec hfifo hdst ((Nat.sub_le _ _).trans (hm _)) hk').1
  have hall : ∀ k, k < P → f (prev^[k] r) = f r := by
    intro k hk
    induction k with
    | zero => rfl
    | succ k ih => rw [← hstep k hk, ih (by omega)]
  obtain ⟨k, hk, rfl⟩ := exists_prev_iterate r q
  exact hall k hk

end Chain

section Runs

variable {cap : Fin P → Fin P → ℕ} {p : Fin P → Proc P α β Unit} {ts : Fin P → List (Turn P α β)}
  {l : Fin P → Local α β} {s : Fin P → RankState P α β Unit}
  (hp : ∀ q, Hist (Kept (ts q)) (fun _ _ ws => (ts q).map Turn.passed <+: ws) (p q) [] [])
  (hs : Reaches (fabric P α β Unit cap) (start p l) s)
include hp hs

theorem recorded_turns (q : Fin P) : ∃ ps ws,
    Recorded (Kept (ts q)) (fun _ _ ws => (ts q).map Turn.passed <+: ws) (s q) ps ws := by
  refine recorded_reaches (fun ps ws wc => Kept.concat wc) ⟨[], [], ?_⟩ hs
  apply recorded_start p l q (hp q)
  exact ⟨by simp, by simp⟩

theorem passed_of_returned {r : Fin P} (hr : (s r).proc = .pure ()) :
    Passed (ts r) (ts r).length (s r) := by
  obtain ⟨ps, ws, h⟩ := recorded_turns hp hs r
  have hist := h.hist
  rw [hr] at hist
  rw [Passed, List.take_length, ← h.told]
  exact hist.trans (List.prefix_append _ _)

/-- A rank that has returned settles what neighbours agree on after `n` turns. -/
theorem eq_of_returned (hdst : ∀ q, ∀ t ∈ ts q, t.dst = next q) {X : Type} {f : Fin P → X}
    {m n : ℕ} (hm : ∀ q, (ts q).length = m) (hn : n + P ≤ m + 2)
    (hf : ∀ q k, n ≤ k → (((ts q).take k).map fun t => t.part.expected) <+:
      ((ts (prev q)).map fun t => t.wr.length) → f q = f (prev q))
    {r : Fin P} (hr : (s r).proc = .pure ()) (q : Fin P) : f q = f r := by
  have hpassed := passed_of_returned hp hs hr
  rw [hm] at hpassed
  exact eq_of_passed (recorded_turns hp hs) (fun i j => fifo (fun _ _ => rfl) hs i j) hdst
    (fun q => (hm q).ge) hn hf hpassed q

end Runs

end MicroCcl
