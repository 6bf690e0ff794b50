import MicroCcl.Barrier
import Mathlib.Data.Finset.Lattice.Fold

namespace MicroCcl
open Network

variable {P : ℕ} {α β A : Type}

section Streams

/-- The bytes that the process writes to `r` before it next reads. -/
def toRank (r : Fin P) : Proc P α β A → List (UInt8 × Tag)
  | .sendByte q b t k => if q = r then (b, t) :: toRank r k else toRank r k
  | .upd _ k => toRank r k
  | _ => []

theorem toRank_sendExact (r q : Fin P) (bs : List UInt8) (t : Tag) (k : Unit → Proc P α β A) :
    toRank r (sendExact q bs t >>= k) =
      if q = r then bs.map (fun b => (b, t)) ++ toRank r (k ()) else toRank r (k ()) := by
  induction bs with
  | nil => simp [sendExact]
  | cons b bs ih =>
    rw [sendExact, Proc.sendByte_bind, toRank, ih]
    split_ifs <;> simp

/-- What `sendTable` puts on the wire. -/
def tableBytes (table : List Entry) : List UInt8 :=
  putU32 (UInt32.ofNat table.length) ++ table.flatMap encodeEntry

theorem toRank_sendTable (r q : Fin P) (t : Tag) (table : List Entry) (k : Unit → Proc P α β A) :
    toRank r (sendTable q t table >>= k) =
      if q = r then (tableBytes table).map (fun b => (b, t)) ++ toRank r (k ())
      else toRank r (k ()) := by
  have hentries : ∀ es : List Entry, toRank r (es.forM (sendEntry q t) >>= k) =
      if q = r then (es.flatMap encodeEntry).map (fun b => (b, t)) ++ toRank r (k ())
      else toRank r (k ()) := by
    intro es
    induction es with
    | nil => simp
    | cons e es ih =>
      rw [Proc.forM_cons, bind_assoc, sendEntry, toRank_sendExact, ih]
      split_ifs <;> simp
  rw [sendTable, bind_assoc, sendU32, toRank_sendExact, hentries]
  split_ifs <;> simp [tableBytes]

theorem toRank_reflect {r : Fin P} {rs : List (Fin P)} (hr : r ∈ rs) (tag : Fin P → Tag)
    (table : List Entry) (k : Unit → Proc P α β A) :
    ∃ rest, toRank r ((rs.forM fun q => sendTable q (tag q) table) >>= k) =
      (tableBytes table).map (fun b => (b, tag r)) ++ rest := by
  induction rs with
  | nil => simp at hr
  | cons q rs ih =>
    rw [Proc.forM_cons, bind_assoc, toRank_sendTable]
    by_cases hq : q = r
    · subst q
      exact ⟨_, if_pos rfl⟩
    · rw [if_neg hq]
      exact ih ((List.mem_cons.mp hr).resolve_left (Ne.symm hq))

end Streams

/-- With these bytes to come from `root`, the process throws: before that it writes nothing and
leaves no barrier. -/
inductive Doomed (root : Fin P) : List (UInt8 × Tag) → Proc P α (Comm P) A → Prop
  | throw (bs : List (UInt8 × Tag)) (e : Exn) : Doomed root bs (.throw e)
  | upd {bs : List (UInt8 × Tag)} {f : Local α (Comm P) → Local α (Comm P)}
      {k : Proc P α (Comm P) A} (hf : ∀ l, (f l).vars.returned = l.vars.returned)
      (hk : Doomed root bs k) : Doomed root bs (.upd f k)
  | recv {bs : List (UInt8 × Tag)} {b : UInt8} {t t' : Tag} {k : UInt8 → Proc P α (Comm P) A}
      (hk : Doomed root bs (k b)) : Doomed root ((b, t) :: bs) (.recvByte root t' k)

section Doomed

variable {root : Fin P} {rest : List (UInt8 × Tag)} (t t' : Tag)

theorem doomed_recvExact (bs : List UInt8) {q : List UInt8 → Proc P α (Comm P) A}
    (h : Doomed root rest (q bs)) :
    Doomed root (bs.map (fun b => (b, t)) ++ rest) (recvExact root t' bs.length >>= q) := by
  induction bs generalizing q with
  | nil => exact h
  | cons b bs ih =>
    apply Doomed.recv
    change Doomed root _ ((recvExact root t' bs.length >>= fun bs => .pure (b :: bs)) >>= q)
    rw [bind_assoc]
    exact ih h

theorem doomed_recvEntries (es table : List Entry) {q : List Entry → Proc P α (Comm P) A}
    (h : Doomed root rest (q (table ++ es))) :
    Doomed root ((es.flatMap encodeEntry).map (fun b => (b, t)) ++ rest)
      (recvEntries root t' es.length table >>= q) := by
  induction es generalizing table with
  | nil => simpa [recvEntries] using h
  | cons e es ih =>
    have hrest : Doomed root ((es.flatMap encodeEntry).map (fun b => (b, t)) ++ rest)
        (recvEntries root t' es.length (table ++ [decodeEntry (encodeEntry e)]) >>= q) := by
      rw [decodeEntry_encode]
      exact ih _ (by simpa using h)
    have := doomed_recvExact t t' (encodeEntry e)
      (q := fun buf => recvEntries root t' es.length (table ++ [decodeEntry buf]) >>= q) hrest
    rw [encodeEntry_length] at this
    simpa [recvEntries, recvEntry, bind_assoc] using this

theorem doomed_recvTable {table : List Entry} {q : List Entry → Proc P α (Comm P) A}
    (h : ∀ rest, Doomed root rest (q (table.take (table.length % 2 ^ 32)))) :
    Doomed root ((tableBytes table).map (fun b => (b, t)) ++ rest)
      (recvTable root t' [] >>= q) := by
  let n := table.length % 2 ^ 32
  have hn : (UInt32.ofNat table.length).toNat = (table.take n).length := by
    rw [UInt32.toNat_ofNat', List.length_take, Nat.min_eq_left (Nat.mod_le _ _)]
  have hentries := doomed_recvEntries t t' (table.take n) [] (q := q)
    (h (((table.drop n).flatMap encodeEntry).map (fun b => (b, t)) ++ rest))
  -- what lies beyond the count stays in the stream
  rw [← List.append_assoc, ← List.map_append, ← List.flatMap_append, List.take_append_drop,
    ← hn] at hentries
  have hv := getU32_putU32 (UInt32.ofNat table.length) []
  rw [List.append_nil] at hv
  have hcount := doomed_recvExact t t' (putU32 (UInt32.ofNat table.length))
    (q := fun be => recvEntries root t' (getU32 be).1.toNat [] >>= q) (by rw [hv]; exact hentries)
  simpa [recvTable, recvU32, bind_assoc, tableBytes, putU32] using hcount

/-- The second loop of the constructor throws at the first peer that is missing. -/
theorem doomed_connectLoop {E : Setup P} {R : Fin P} {incoming : PeerMap} {ss : List (Fin P)}
    {k : Unit → Proc P α (Comm P) A} (h : ∃ q ∈ ss, incoming (rankKey q) = none) :
    Doomed root rest (ss.forM (connectQp E R incoming) >>= k) := by
  induction ss with
  | nil => simp at h
  | cons p ss ih =>
    rw [Proc.forM_cons, bind_assoc, connectQp]
    split
    · exact .throw _ _
    · next info hinfo =>
      refine .upd (fun _ => rfl) (.upd (fun _ => rfl) (ih ?_))
      obtain ⟨q, hq, hnone⟩ := h
      rcases List.mem_cons.mp hq with rfl | hq
      · rw [hinfo] at hnone
        cases hnone
      · exact ⟨q, hq, hnone⟩

end Doomed

/-- Until it next reads, the process leaves no barrier. -/
inductive Stalls : Proc P α (Comm P) A → Prop
  | pure (a : A) : Stalls (.pure a)
  | throw (e : Exn) : Stalls (.throw e)
  | upd {f : Local α (Comm P) → Local α (Comm P)} {k : Proc P α (Comm P) A}
      (hf : ∀ l, (f l).vars.returned = l.vars.returned) (hk : Stalls k) : Stalls (.upd f k)
  | sendByte (q : Fin P) (b : UInt8) (t : Tag) {k : Proc P α (Comm P) A} (hk : Stalls k) :
      Stalls (.sendByte q b t k)
  | recvByte (q : Fin P) (t : Tag) (k : UInt8 → Proc P α (Comm P) A) : Stalls (.recvByte q t k)

theorem Stalls.bind {B : Type} {p : Proc P α (Comm P) A} {f : A → Proc P α (Comm P) B}
    (hp : Stalls p) (hf : ∀ a, Stalls (f a)) : Stalls (p >>= f) := by
  induction hp with
  | pure a => exact hf a
  | throw e => exact .throw e
  | upd hg _ ih => exact .upd hg ih
  | sendByte q b t _ ih => exact .sendByte q b t ih
  | recvByte q t k => exact .recvByte q t _

theorem SocketOnly.stalls {p : Proc P α (Comm P) A} (hp : SocketOnly p) : Stalls p := by
  induction hp with
  | pure a => exact .pure a
  | throw e => exact .throw e
  | sendByte q b t _ ih => exact .sendByte q b t ih
  | recvByte q t _ _ => exact .recvByte q t _

theorem connectLoop_stalls (E : Setup P) (R : Fin P) (incoming : PeerMap) (ss : List (Fin P)) :
    Stalls (ss.forM (connectQp (α := α) E R incoming)) := by
  induction ss with
  | nil => exact .pure ()
  | cons p ss ih =>
    rw [Proc.forM_cons, connectQp]
    split
    · exact .throw _
    · exact .upd (fun _ => rfl) (.upd (fun _ => rfl) ih)

theorem barriers_root_stalls {root : Fin P} (hroot : root.val = 0) (hP : 1 < P) (call n : ℕ) :
    Stalls (barriers (α := α) root call n) := by
  cases n with
  | zero => exact .pure ()
  | succ n =>
    have hpeers : peers P ≠ [] := by
      intro h
      have hmem : (⟨1, hP⟩ : Fin P) ∈ peers P := mem_peers.mpr (by simp)
      simp [h] at hmem
    obtain ⟨q, rs, hq⟩ := List.exists_cons_of_ne_nil hpeers
    refine .upd (fun _ => rfl) ?_
    rw [barrier, exchange, if_pos hroot, exchangeRoot, hq]
    exact .recvByte q _ _

theorem Doomed.not_sendByte {root q : Fin P} {bs : List (UInt8 × Tag)} {b : UInt8} {t : Tag}
    {k : Proc P α (Comm P) A} : ¬ Doomed root bs (.sendByte q b t k) := by
  intro h
  cases h

theorem Doomed.opMove {root : Fin P} {st st' : RankState P α (Comm P) A}
    {rest : List (UInt8 × Tag)} (h : Doomed root (st.inbox root ++ rest) st.proc)
    (hm : OpMove st st') : Doomed root (st'.inbox root ++ rest) st'.proc ∧
      st'.loc.vars.returned = st.loc.vars.returned := by
  generalize hbs : st.inbox root ++ rest = bs at h
  cases hm with
  | upd f k hp =>
    rw [hp] at h
    cases h with
    | upd hf hk =>
      subst hbs
      exact ⟨hk, hf st.loc⟩
  | recvByte q t t' k b bs' hp hc =>
    rw [hp] at h
    cases h with
    | recv hk =>
      rw [hc, List.cons_append] at hbs
      obtain ⟨hb, rfl⟩ := List.cons.inj hbs
      obtain ⟨rfl, -⟩ := Prod.mk.inj hb
      exact ⟨by simpa using hk, rfl⟩
  | postRecv q wr k hp => rw [hp] at h; cases h
  | postSend q wr k hp => rw [hp] at h; cases h
  | pollSend k wc bs' hp hc => rw [hp] at h; cases h
  | pollRecv k wc bs' hp hc => rw [hp] at h; cases h

theorem Stalls.opMove {st st' : RankState P α (Comm P) A} (h : Stalls st.proc)
    (hin : ∀ q, st.inbox q = []) (hm : OpMove st st') :
    Stalls st'.proc ∧ st'.loc.vars.returned = st.loc.vars.returned ∧ st'.inbox = st.inbox ∧
      ∀ r, toRank r st'.proc = toRank r st.proc := by
  cases hm with
  | upd f k hp =>
    rw [hp] at h
    cases h with
    | upd hf hk => exact ⟨hk, hf st.loc, rfl, fun r => by rw [hp, toRank]⟩
  | recvByte q t t' k b bs' hp hc => simp [hin q] at hc
  | postRecv q wr k hp => rw [hp] at h; cases h
  | postSend q wr k hp => rw [hp] at h; cases h
  | pollSend k wc bs' hp hc => rw [hp] at h; cases h
  | pollRecv k wc bs' hp hc => rw [hp] at h; cases h

structure Wedged (root : Fin P) (s : Fin P → RankState P α (Comm P) A) : Prop where
  stalls : Stalls (s root).proc
  inbox : ∀ q, (s root).inbox q = []
  doomed : ∀ r, r ≠ root → Doomed root ((s r).inbox root ++ toRank r (s root).proc) (s r).proc
  returned : ∀ r, (s r).loc.vars.returned = 0

theorem Wedged.byte {root : Fin P} {s s' : Fin P → RankState P α (Comm P) A} (h : Wedged root s)
    {i j : Fin P} {b : UInt8} {t : Tag} {k : Proc P α (Comm P) A}
    (hp : (s i).proc = .sendByte j b t k) (hi : s' i = { s i with proc := k })
    (hj : s' j = { s j with inbox := Function.update (s j).inbox i ((s j).inbox i ++ [(b, t)]) })
    (hrest : ∀ q, q ≠ i → q ≠ j → s' q = s q) : Wedged root s' := by
  -- only rank 0 writes
  obtain rfl : i = root := by
    by_contra hne
    have hd := h.doomed i hne
    rw [hp] at hd
    exact hd.not_sendByte
  refine ⟨?_, fun q => ?_, fun r hr => ?_, fun r => ?_⟩
  · have hst := h.stalls
    rw [hp] at hst
    rw [hi]
    cases hst with
    | sendByte q b t hk => exact hk
  · rw [hi]
    exact h.inbox q
  · -- the byte goes from what is still to be written into the buffer of `j`
    have hd := h.doomed r hr
    rw [hp, toRank] at hd
    by_cases hrj : r = j
    · subst r
      rw [hi, hj]
      simpa using hd
    · rw [hi, hrest r hr hrj]
      rwa [if_neg (Ne.symm hrj)] at hd
  · rw [byte_loc hi hj hrest r]
    exact h.returned r

theorem Wedged.op {root : Fin P} {s s' : Fin P → RankState P α (Comm P) A} (h : Wedged root s)
    {q : Fin P} (hm : OpMove (s q) (s' q)) (hrest : ∀ x, x ≠ q → s' x = s x) :
    Wedged root s' := by
  by_cases hq : q = root
  · subst q
    obtain ⟨hst, hret, hin, hsends⟩ := h.stalls.opMove h.inbox hm
    refine ⟨hst, fun p => by rw [hin, h.inbox], fun r hr => ?_, fun r => ?_⟩
    · rw [hsends, hrest r hr]
      exact h.doomed r hr
    · by_cases hr : r = root
      · subst r
        rw [hret, h.returned]
      · rw [hrest r hr, h.returned]
  · have hroot := hrest root (Ne.symm hq)
    obtain ⟨hd, hret⟩ := (h.doomed q hq).opMove hm
    refine ⟨hroot ▸ h.stalls, fun p => by rw [hroot, h.inbox], fun r hr => ?_, fun r => ?_⟩
    · rw [hroot]
      by_cases hrq : r = q
      · subst r
        exact hd
      · rw [hrest r hrq]
        exact h.doomed r hr
    · by_cases hrq : r = q
      · subst r
        rw [hret, h.returned]
      · rw [hrest r hrq, h.returned]

theorem Wedged.step {root : Fin P} {s s' : Fin P → RankState P α (Comm P) A} (h : Wedged root s)
    (hstep : SocketMove s s') : Wedged root s' := by
  cases hstep with
  | nic hsame =>
    refine ⟨?_, fun q => ?_, fun r hr => ?_, fun r => ?_⟩
    · rw [(hsame root).proc]
      exact h.stalls
    · rw [(hsame root).inbox]
      exact h.inbox q
    · rw [(hsame r).inbox, (hsame r).proc, (hsame root).proc]
      exact h.doomed r hr
    · rw [(hsame r).vars]
      exact h.returned r
  | byte i j b t k hij hp hi hj hrest => exact h.byte hp hi hj hrest
  | op q hm hrest => exact h.op hm hrest

theorem Wedged.reaches {cap : Fin P → Fin P → ℕ} {root : Fin P}
    {s s' : Fin P → RankState P α (Comm P) A} (h : Wedged root s)
    (hs : Reaches (fabric P α (Comm P) A cap) s s') : Wedged root s' := by
  induction hs with
  | refl => exact h
  | tail _ hstep ih => exact ih.step (step_sockets hstep)

section Wrap

variable (E : Setup P)

theorem routed_cut {n : ℕ} (hP : P < 2 ^ 31) {q : Fin P} (hq : n ≤ q * (P - 1)) (self : Int32) :
    routed self ((fullTable E.outgoing).take n) (rankKey q) = none := by
  rw [Option.eq_none_iff_forall_ne_some]
  intro o ho
  obtain ⟨hmem, hkey⟩ := mem_of_routed ho
  -- what is left comes from the ranks before `q`
  have hsplit : fullTable E.outgoing = ((List.finRange P).take q).flatMap E.outgoing ++
      ((List.finRange P).drop q).flatMap E.outgoing := by
    rw [← List.flatMap_append, List.take_append_drop, fullTable]
  have hlen : (((List.finRange P).take q).flatMap E.outgoing).length = q * (P - 1) := by
    simp [List.length_flatMap, outgoing_length]
  rw [hsplit, List.take_append_of_le_length (by omega)] at hmem
  obtain ⟨s, hs, hentry⟩ := List.mem_flatMap.mp (List.mem_of_mem_take hmem)
  have hsq : s.val < q := by
    obtain ⟨i, hi, rfl⟩ := List.mem_iff_getElem.mp hs
    simp at hi ⊢
    omega
  have hrank := (outgoing_signed E hP).rank s _ hentry
  have : rankKey s = rankKey q := by rw [← hkey, hrank, rankKey]
  exact absurd (rankKey_injective hP this) (Fin.ne_of_lt hsq)

theorem wrapped_count_le (hP : P < 2 ^ 31) (hlen : 2 ^ 32 ≤ P * (P - 1)) :
    2 ≤ P ∧ P * (P - 1) % 2 ^ 32 ≤ (P - 2) * (P - 1) := by
  have htwo : 2 ≤ P := by
    by_contra hlt
    have : P * (P - 1) ≤ 1 * 0 := Nat.mul_le_mul (by omega) (by omega)
    omega
  have hmul : P * (P - 1) = (P - 2) * (P - 1) + 2 * (P - 1) := by
    rw [← Nat.add_mul, Nat.sub_add_cancel htwo]
  have hmod := Nat.mod_add_div (P * (P - 1)) (2 ^ 32)
  have hdiv : 1 ≤ P * (P - 1) / 2 ^ 32 := Nat.div_pos hlen (by decide)
  refine ⟨htwo, ?_⟩
  omega

theorem exists_cut (hP : P < 2 ^ 31) (hlen : 2 ^ 32 ≤ P * (P - 1)) (R : Fin P) :
    ∃ q ∈ otherRanks R, routed (rankKey R)
      ((fullTable E.outgoing).take ((fullTable E.outgoing).length % 2 ^ 32)) (rankKey q) =
        none := by
  rw [fullTable_outgoing_length]
  obtain ⟨htwo, hcut⟩ := wrapped_count_le hP hlen
  obtain ⟨q, hqR, hq⟩ : ∃ q : Fin P, q ≠ R ∧ P - 2 ≤ q.val := by
    by_cases hR : R.val = P - 1
    · exact ⟨⟨P - 2, by omega⟩, by rw [Ne, Fin.ext_iff]; simp; omega, le_rfl⟩
    · exact ⟨⟨P - 1, by omega⟩, by rw [Ne, Fin.ext_iff]; simp; omega, by simp; omega⟩
  refine ⟨q, mem_otherRanks.mpr hqR, routed_cut E hP ?_ _⟩
  exact hcut.trans (Nat.mul_le_mul_right _ hq)

theorem wedged_of_gathered (hP : P < 2 ^ 31) (hlen : 2 ^ 32 ≤ P * (P - 1)) (root : Fin P)
    (hroot : root.val = 0) (n : ℕ) {l : Fin P → Local α (Comm P)}
    (hl : ∀ r, (l r).vars.returned = 0) {s : Fin P → RankState P α (Comm P) Unit}
    (hs : ∀ r, Quiet (reflecting 0 (fullTable E.outgoing) (fun r incoming =>
      (otherRanks r).forM (connectQp E r incoming) >>= fun _ => barriers r 1 n) r) (l r) (s r)) :
    Wedged root s := by
  have htwo := (wrapped_count_le hP hlen).1
  have hrootProc := (hs root).proc.trans (if_pos hroot)
  refine ⟨?_, fun q => by rw [(hs root).inbox], fun r hr => ?_, fun r => by rw [(hs r).loc, hl]⟩
  · rw [hrootProc]
    refine Stalls.bind (SocketOnly.stalls ?_) fun _ =>
      (connectLoop_stalls E root _ _).bind fun _ => barriers_root_stalls hroot (by omega) 1 n
    exact SocketOnly.forM (fun _ => sendTable_socketOnly _ _ _) _
  · have hr0 : r.val ≠ 0 := fun h => hr (Fin.ext (h.trans hroot.symm))
    have hr' : (⟨0, r.pos⟩ : Fin P) = root := Fin.ext hroot.symm
    obtain ⟨rest, hrest⟩ := toRank_reflect (mem_peers.mpr hr0) (fun q => ⟨0, P + q⟩)
      (fullTable E.outgoing) fun _ => (otherRanks root).forM (connectQp (α := α) E root
        (routed (rankKey root) (fullTable E.outgoing))) >>= fun _ => barriers root 1 n
    rw [hrootProc, hrest, (hs r).inbox, (hs r).proc, reflecting, if_neg hr0, hr']
    exact doomed_recvTable _ _ fun rest => doomed_connectLoop (exists_cut E hP hlen r)

/-- The update leaves no fewer barriers behind. -/
def KeepsReturned (f : Local α (Comm P) → Local α (Comm P)) : Prop :=
  ∀ l, l.vars.returned ≤ (f l).vars.returned

theorem lifetime_all (R : Fin P) (n : ℕ) :
    (lifetime (α := α) E R n).All (fun _ => True) KeepsReturned := by
  have hbarriers : ∀ call, (barriers (α := α) R call n).All (fun _ => True) KeepsReturned := by
    induction n with
    | zero => exact fun _ => trivial
    | succ n ih =>
      intro call
      exact ⟨fun l => le_rfl, (barrier_socketOnly R call).all.bind fun _ =>
        ⟨fun l => Nat.le_succ _, ih (call + 1)⟩⟩
  have hupd : ∀ (peer : Fin P) f, (updQp (α := α) peer f).All (fun _ => True) KeepsReturned :=
    fun _ _ => ⟨fun l => le_rfl, trivial⟩
  refine Proc.All.bind (Proc.All.bind ?_ fun _ => ?_) fun _ => hbarriers 1
  · exact Proc.All.forM (fun q => (hupd q _).bind fun _ => hupd q _) _
  · refine (exchange_socketOnly R 0 _).all.bind fun incoming => Proc.All.forM (fun q => ?_) _
    unfold connectQp
    split
    · trivial
    · exact (hupd q _).bind fun _ => hupd q _

theorem returned_le_of_reaches {cap : Fin P → Fin P → ℕ} {n : ℕ} {m : Fin P → Mem α}
    {s d : Fin P → RankState P α (Comm P) Unit}
    (hs : Reaches (fabric P α (Comm P) Unit cap) (startLifetime E (fun _ => n) m) s)
    (hd : Reaches (fabric P α (Comm P) Unit cap) s d) (r : Fin P) :
    (s r).loc.vars.returned ≤ (d r).loc.vars.returned := by
  have hguard : Guarded (fun _ => True) KeepsReturned (fun _ => True) (s r) :=
    Guarded.of_start (fun _ _ _ _ => trivial) (fun _ _ _ _ _ => trivial) (lifetime_all E r n) hs
      trivial
  refine (Guarded.reaches (I := fun l => (s r).loc.vars.returned ≤ l.vars.returned) ?_ ?_
    { hguard with loc := le_rfl } hd).loc
  · exact fun f l hf hl => hl.trans (hf l)
  · exact fun wr l xs _ hl => hl

theorem barrierSafe_of_count_wraps {cap : Fin P → Fin P → ℕ} (hcap : ∀ i j, 0 < cap i j)
    (hP : P < 2 ^ 31) (hlen : 2 ^ 32 ≤ P * (P - 1)) (n : ℕ) (m : Fin P → Mem α)
    {s : Fin P → RankState P α (Comm P) Unit}
    (hs : Reaches (fabric P α (Comm P) Unit cap) (startLifetime E (fun _ => n) m) s) :
    BarrierSafe s := by
  have htwo := (wrapped_count_le hP hlen).1
  let root : Fin P := ⟨0, by omega⟩
  let l : Fin P → Local α (Comm P) := fun r => ⟨m r, Comm.empty⟩
  obtain ⟨g, hg, hq⟩ := communicator_gather_leads E hcap hP (fun r _ => barriers r 1 n) l _
    (start_quiet (fun r => lifetime E r n) l)
  have hwedged := wedged_of_gathered E hP hlen root rfl n (fun _ => rfl) hq
  -- whatever was done instead can be brought together with the gathered table
  obtain ⟨d, hsd, hgd⟩ := (fabric_lawful cap).confluent
    (start_orderly fun r => lifetime_disciplined E r n) hs hg
  have hzero : ∀ r, (s r).loc.vars.returned = 0 := by
    intro r
    have hle := returned_le_of_reaches E hs hsd r
    rw [(hwedged.reaches hgd).returned r] at hle
    exact Nat.le_zero.mp hle
  refine ⟨fun r x => by rw [hzero r]; exact Nat.zero_le _, fun r hr => ?_⟩
  rw [hzero r] at hr
  exact absurd hr (by decide)

end Wrap

/-- However many barriers each rank calls, no rank leaves its `k`-th one before every rank has
entered its `k`-th one; and once a rank has left one, all queue pairs of all ranks are in RTS. -/
theorem barrier_safe (cap : Fin P → Fin P → ℕ) (hcap : ∀ i j, 0 < cap i j) (hP : P < 2 ^ 31)
    (E : Setup P) (n : Fin P → ℕ) (m : Fin P → Mem α) {s : Fin P → RankState P α (Comm P) Unit}
    (hs : Reaches (fabric P α (Comm P) Unit cap) (startLifetime E n m) s) :
    (∀ k r, k ≤ (s r).loc.vars.returned → ∀ x, k ≤ (s x).loc.vars.entered) ∧
    ∀ r, 1 ≤ (s r).loc.vars.returned → ∀ x q, q ≠ x →
      ∃ qp, (s x).loc.vars.qps q = some qp ∧ qp.state = .rts := by
  -- let all ranks go on to the same number of barriers
  let N := Finset.univ.sup n
  have hN : ∀ r, n r ≤ N := fun r => Finset.le_sup (Finset.mem_univ r)
  have hgo := reaches_bind hs fun r _ => barriers r (1 + n r) (N - n r)
  have hstart : (fun r => (startLifetime E n m r).bind fun _ => barriers r (1 + n r) (N - n r)) =
      startLifetime E (fun _ => N) m := by
    funext r
    simp only [startLifetime, start, atRest, RankState.bind, lifetime, bind_assoc, barriers_add,
      Nat.add_sub_cancel' (hN r)]
  rw [hstart] at hgo
  have hsafe : BarrierSafe fun r => (s r).bind fun _ => barriers r (1 + n r) (N - n r) := by
    by_cases hlen : P * (P - 1) < 2 ^ 32
    · exact barrierSafe_of_count_fits hcap hlen E N m hgo
    · exact barrierSafe_of_count_wraps E hcap hP (Nat.le_of_not_lt hlen) N m hgo
  exact ⟨fun k r hk x => hk.trans (hsafe.entered r x), hsafe.connected⟩

theorem barrier_safe_two_ports :
    ∃ s, Reaches (fabric 2 ℕ (Comm 2) Unit fun _ _ => 1)
        (startLifetime twoPorts (fun _ => 1) fun _ _ _ => 0) s ∧
      (s 0).loc.vars.returned = 1 ∧ 1 ≤ (s 1).loc.vars.entered ∧
      ∃ qp, (s 1).loc.vars.qps 0 = some qp ∧ qp.state = .rts := by
  have hcap : ∀ i j : Fin 2, 0 < (fun _ _ : Fin 2 => 1) i j := fun _ _ => Nat.one_pos
  let l : Fin 2 → Local ℕ (Comm 2) := fun _ => ⟨fun _ _ => 0, Comm.empty⟩
  obtain ⟨s, hs, hq⟩ := lifetime_leads twoPorts hcap (by decide) 1 l
    (startLifetime twoPorts (fun _ => 1) fun _ _ _ => 0) (start_quiet _ l)
  have hone : (s 0).loc.vars.returned = 1 := by rw [(hq 0).loc]; rfl
  obtain ⟨hentered, hrts⟩ :=
    barrier_safe _ hcap (by decide) twoPorts (fun _ => 1) (fun _ _ _ => 0) hs
  exact ⟨s, hs, hone, hentered 1 0 hone.ge 1, hrts 0 hone.ge 1 0 (by decide)⟩

end MicroCcl
