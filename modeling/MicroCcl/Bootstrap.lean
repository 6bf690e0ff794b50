import MicroCcl.Streams
import MicroCcl.Wire
import Mathlib.Data.List.FinRange

namespace MicroCcl
open Network

abbrev Entry := Int32 × QpEndpointInfo

/-- A hash map from ranks, as far as its contents go. -/
abbrev PeerMap := Int32 → Option QpEndpointInfo

variable {P : ℕ} {α β A : Type}

section Code

def sendU32 (fd : Fin P) (v : UInt32) (tag : Tag) : Proc P α β Unit :=
  sendExact fd (putU32 v) tag

def recvU32 (fd : Fin P) (tag : Tag) : Proc P α β UInt32 := do
  let be ← recvExact fd tag 4
  return (getU32 be).1

def entryWireSize : ℕ := 4 + endpointInfoWireSize

def encodeEntry (e : Entry) : List UInt8 := putU32 e.1.toUInt32 ++ encodeEndpointInfo e.2

def decodeEntry (buf : List UInt8) : Entry :=
  let (dst, encoded) := getU32 buf
  (dst.toInt32, decodeEndpointInfo encoded)

def sendEntry (fd : Fin P) (tag : Tag) (e : Entry) : Proc P α β Unit :=
  sendExact fd (encodeEntry e) tag

def recvEntry (fd : Fin P) (tag : Tag) : Proc P α β Entry := do
  let buf ← recvExact fd tag entryWireSize
  return decodeEntry buf

def recvEntries (fd : Fin P) (tag : Tag) : ℕ → List Entry → Proc P α β (List Entry)
  | 0, table => .pure table
  | n + 1, table => do
    let e ← recvEntry fd tag
    recvEntries fd tag n (table ++ [e])

def sendTable (fd : Fin P) (tag : Tag) (table : List Entry) : Proc P α β Unit := do
  sendU32 fd (UInt32.ofNat table.length) tag
  table.forM (sendEntry fd tag)

def recvTable (fd : Fin P) (tag : Tag) (table : List Entry) : Proc P α β (List Entry) := do
  let count ← recvU32 fd tag
  recvEntries fd tag count.toNat table

def peers (P : ℕ) : List (Fin P) := (List.finRange P).drop 1

def exchangeRoot (call : ℕ) (outgoing : List Entry) : Proc P α β (List Entry) := do
  let table ← (peers P).foldlM (fun table r => recvTable r ⟨call, r⟩ table) outgoing
  (peers P).forM fun r => sendTable r ⟨call, P + r⟩ table
  return table

def exchangePeer (R root : Fin P) (call : ℕ) (outgoing : List Entry) :
    Proc P α β (List Entry) := do
  sendTable root ⟨call, R⟩ outgoing
  recvTable root ⟨call, P + R⟩ []

/-- A rank as the `int` it is in the source. -/
def rankKey (r : Fin P) : Int32 := (UInt32.ofNat r).toInt32

def routed (self : Int32) (table : List Entry) : PeerMap :=
  table.foldl (fun result e =>
    if e.1 = self then Function.update result e.2.rank.toInt32 (some e.2) else result) fun _ => none

def exchange (R : Fin P) (call : ℕ) (outgoing : List Entry) : Proc P α β PeerMap := do
  let table ← if R.val = 0 then exchangeRoot call outgoing
    else exchangePeer R ⟨0, R.pos⟩ call outgoing
  return routed (rankKey R) table

end Code

section Tables

variable {cap : Fin P → Fin P → ℕ} {i j : Fin P}

theorem decodeEntry_encode (e : Entry) : decodeEntry (encodeEntry e) = e := by
  simp [decodeEntry, encodeEntry, getU32_putU32, decodeEndpointInfo_encode]

theorem encodeEntry_length (e : Entry) : (encodeEntry e).length = entryWireSize := by
  simp [encodeEntry, putU32, entryWireSize]
  omega

variable (hij : i ≠ j) (hcap : 0 < cap j i)
include hij hcap

theorem handover_u32 (v : UInt32) (tag : Tag) (p : Unit → Proc P α β A)
    (q : UInt32 → Proc P α β A) :
    Handover cap i j (sendU32 j v tag >>= p) (recvU32 i tag >>= q) (p ()) (q v) := by
  have h := handover_exact hij hcap (putU32 v) tag p fun be => q (getU32 be).1
  have hv := getU32_putU32 v []
  rw [List.append_nil] at hv
  rw [hv, show (putU32 v).length = 4 from rfl] at h
  simpa only [sendU32, recvU32, bind_assoc, Proc.pure_eq, Proc.pure_bind'] using h

theorem handover_entry (e : Entry) (tag : Tag) (p : Unit → Proc P α β A)
    (q : Entry → Proc P α β A) :
    Handover cap i j (sendEntry j tag e >>= p) (recvEntry i tag >>= q) (p ()) (q e) := by
  have h := handover_exact hij hcap (encodeEntry e) tag p fun buf => q (decodeEntry buf)
  rw [decodeEntry_encode, encodeEntry_length] at h
  simpa only [sendEntry, recvEntry, bind_assoc, Proc.pure_eq, Proc.pure_bind'] using h

theorem handover_entries (es table : List Entry) (tag : Tag) (p : Unit → Proc P α β A)
    (q : List Entry → Proc P α β A) :
    Handover cap i j (es.forM (sendEntry j tag) >>= p) (recvEntries i tag es.length table >>= q)
      (p ()) (q (table ++ es)) := by
  induction es generalizing table with
  | nil =>
    rw [List.append_nil]
    exact Handover.refl _ _
  | cons e es ih =>
    have hfirst := handover_entry hij hcap e tag (fun _ => es.forM (sendEntry j tag) >>= p)
      fun e => recvEntries i tag es.length (table ++ [e]) >>= q
    have hrest := ih (table ++ [e])
    rw [List.append_assoc] at hrest
    simpa only [List.length_cons, recvEntries, Proc.forM_cons, bind_assoc, List.singleton_append]
      using hfirst.trans hij hrest

theorem handover_table {es : List Entry} (hes : es.length < 2 ^ 32) (table : List Entry) (tag : Tag)
    (p : Unit → Proc P α β A) (q : List Entry → Proc P α β A) :
    Handover cap i j (sendTable j tag es >>= p) (recvTable i tag table >>= q)
      (p ()) (q (table ++ es)) := by
  have hfirst := handover_u32 hij hcap (UInt32.ofNat es.length) tag
    (fun _ => es.forM (sendEntry j tag) >>= p)
    fun count => recvEntries i tag count.toNat table >>= q
  have hrest := handover_entries hij hcap es table tag p q
  rw [UInt32.toNat_ofNat_of_lt' hes] at hfirst
  simpa only [sendTable, recvTable, bind_assoc] using hfirst.trans hij hrest

end Tables

section Star

variable {cap : Fin P → Fin P → ℕ} {root : Fin P} {rs : List (Fin P)}
  {f f' : Fin P → Proc P α β A}

theorem update₂_of_ne {i j r : Fin P} {p q : Proc P α β A} (hi : r ≠ i) (hj : r ≠ j) :
    update₂ f i j p q r = f r := by simp [update₂, hi, hj]

/-- Rank `root` deals with the ranks of `rs` one after the other: with `t` so far and `rs` to go it
is at `c rs t`, and each turn takes one rank `r` from `p r` to `p' r`. -/
theorem star_leads {T : Type} {p : Fin P → Proc P α β A} (p' : Fin P → Proc P α β A)
    (c : List (Fin P) → T → Proc P α β A) (g : T → Fin P → T)
    (hturn : ∀ r ∈ rs, ∀ rest t f (l : Fin P → Local α β), f r = p r → f root = c (r :: rest) t →
      Leads cap f l (update₂ f r root (p' r) (c rest (g t r))) l)
    (hnd : rs.Nodup) (hroot : root ∉ rs) (t : T) (hr : ∀ r ∈ rs, f r = p r)
    (h0 : f root = c rs t) (hr' : ∀ r ∈ rs, f' r = p' r) (h0' : f' root = c [] (rs.foldl g t))
    (hrest : ∀ r, r ≠ root → r ∉ rs → f' r = f r) (l : Fin P → Local α β) :
    Leads cap f l f' l := by
  induction rs generalizing f t with
  | nil =>
    have hf : f' = f := by
      funext r
      by_cases hroot : r = root
      · rw [hroot, h0, h0', List.foldl_nil]
      · exact hrest r hroot (by simp)
    rw [hf]
    exact Leads.refl f l
  | cons r rs ih =>
    obtain ⟨hrrs, hnd⟩ := List.nodup_cons.mp hnd
    have hne : r ≠ root := fun h => hroot (by simp [h])
    have hroot' : root ∉ rs := fun h => hroot (by simp [h])
    apply (hturn r (by simp) rs t f l (hr r (by simp)) h0).trans
    refine ih (fun s hs => hturn s (by simp [hs])) hnd hroot' (g t r) (fun s hs => ?_) ?_
      (fun s hs => hr' s (by simp [hs])) h0' (fun s hs hs' => ?_)
    · rw [update₂_of_ne (ne_of_mem_of_not_mem hs hrrs) (ne_of_mem_of_not_mem hs hroot')]
      exact hr s (by simp [hs])
    · simp [update₂]
    · by_cases hsr : s = r
      · subst s
        simp [update₂, hne, hr' r (by simp)]
      · rw [update₂_of_ne hsr hs]
        exact hrest s hs (by simp [hsr, hs'])

variable (out : Fin P → List Entry) (tag : Fin P → Tag)

theorem gather_leads (hnd : rs.Nodup) (hroot : root ∉ rs) (hcap : ∀ r ∈ rs, 0 < cap root r)
    (hlen : ∀ r ∈ rs, (out r).length < 2 ^ 32) (table : List Entry)
    {k : Fin P → Unit → Proc P α β A} {q : List Entry → Proc P α β A}
    (hr : ∀ r ∈ rs, f r = sendTable root (tag r) (out r) >>= k r)
    (h0 : f root = rs.foldlM (fun table r => recvTable r (tag r) table) table >>= q)
    (hr' : ∀ r ∈ rs, f' r = k r ()) (h0' : f' root = q (table ++ rs.flatMap out))
    (hrest : ∀ r, r ≠ root → r ∉ rs → f' r = f r) (l : Fin P → Local α β) :
    Leads cap f l f' l := by
  refine star_leads (fun r => k r ())
    (fun rs table => rs.foldlM (fun table r => recvTable r (tag r) table) table >>= q)
    (fun table r => table ++ out r) (fun r hmem rest table f l hfr hf0 => ?_)
    hnd hroot table hr h0 hr' ?_ hrest l
  · have hne : r ≠ root := ne_of_mem_of_not_mem hmem hroot
    rw [List.foldlM_cons, bind_assoc] at hf0
    exact handover_table hne (hcap r hmem) (hlen r hmem) table (tag r) (k r) _ f l hfr hf0
  · rw [h0', List.foldl_append_eq_append, ← List.flatMap_def]
    rfl

theorem reflect_leads (hnd : rs.Nodup) (hroot : root ∉ rs) (hcap : ∀ r ∈ rs, 0 < cap r root)
    {table : List Entry} (hlen : table.length < 2 ^ 32)
    {k : Fin P → List Entry → Proc P α β A} {q : Unit → Proc P α β A}
    (hr : ∀ r ∈ rs, f r = recvTable root (tag r) [] >>= k r)
    (h0 : f root = (rs.forM fun r => sendTable r (tag r) table) >>= q)
    (hr' : ∀ r ∈ rs, f' r = k r table) (h0' : f' root = q ())
    (hrest : ∀ r, r ≠ root → r ∉ rs → f' r = f r) (l : Fin P → Local α β) :
    Leads cap f l f' l := by
  refine star_leads (fun r => k r table)
    (fun rs _ => (rs.forM fun r => sendTable r (tag r) table) >>= q)
    (fun u _ => u) (fun r hmem rest _ f l hfr hf0 => ?_) hnd hroot () hr h0 hr' h0' hrest l
  have hne : root ≠ r := fun h => hroot (h ▸ hmem)
  rw [Proc.forM_cons, bind_assoc] at hf0
  -- here `root` is the one that writes
  rw [update₂, Function.update_comm hne.symm]
  exact handover_table hne (hcap r hmem) hlen [] (tag r) _ (k r) f l hf0 hfr

end Star

theorem finRange_eq_peers (hP : 0 < P) : List.finRange P = ⟨0, hP⟩ :: peers P := by
  cases P with
  | zero => omega
  | succ n => rw [peers, List.finRange_succ]; rfl

def fullTable (out : Fin P → List Entry) : List Entry := (List.finRange P).flatMap out

/-- Between the two loops: rank 0 holds the table, everybody else waits for it. -/
def reflecting (call : ℕ) (table : List Entry) (k : Fin P → PeerMap → Proc P α β A) (r : Fin P) :
    Proc P α β A :=
  if r.val = 0 then
    ((peers P).forM fun q => sendTable q ⟨call, P + q⟩ table) >>= fun _ =>
      k r (routed (rankKey r) table)
  else recvTable ⟨0, r.pos⟩ ⟨call, P + r⟩ [] >>= fun table => k r (routed (rankKey r) table)

section Exchange

variable {cap : Fin P → Fin P → ℕ} (hcap : ∀ i j, 0 < cap i j) (call : ℕ)
  {out : Fin P → List Entry}

theorem root_not_mem_peers (hP : 0 < P) : (⟨0, hP⟩ : Fin P) ∉ peers P :=
  (List.nodup_cons.mp (finRange_eq_peers hP ▸ List.nodup_finRange P)).1

theorem peers_nodup : (peers P).Nodup := (List.nodup_finRange P).sublist (List.drop_sublist _ _)

theorem mem_peers {r : Fin P} : r ∈ peers P ↔ r.val ≠ 0 := by
  have hcons := finRange_eq_peers r.pos ▸ List.mem_finRange r
  constructor
  · intro hr h0
    have hroot : r = ⟨0, r.pos⟩ := Fin.ext h0
    exact root_not_mem_peers r.pos (hroot ▸ hr)
  · intro h0
    exact (List.mem_cons.mp hcons).resolve_left fun h => h0 (by rw [h])

include hcap

theorem exchange_gather_leads (hout : ∀ r, (out r).length < 2 ^ 32)
    (k : Fin P → PeerMap → Proc P α β A) (l : Fin P → Local α β) :
    Leads cap (fun r => exchange r call (out r) >>= k r) l
      (reflecting call (fullTable out) k) l := by
  rcases Nat.eq_zero_or_pos P with rfl | hP
  · exact fun s hs => ⟨s, .refl, fun r => r.elim0⟩
  let root : Fin P := ⟨0, hP⟩
  have htable : fullTable out = out root ++ (peers P).flatMap out := by
    rw [fullTable, finRange_eq_peers hP, List.flatMap_cons]
  refine gather_leads out (fun r => ⟨call, r⟩)
    (k := fun r _ => recvTable root ⟨call, P + r⟩ [] >>= fun table =>
      k r (routed (rankKey r) table))
    (q := fun table => ((peers P).forM fun r => sendTable r ⟨call, P + r⟩ table) >>= fun _ =>
      k root (routed (rankKey root) table))
    peers_nodup (root_not_mem_peers hP) (fun r _ => hcap _ _) (fun r _ => hout r) (out root)
    (fun r hr => ?_) ?_ (fun r hr => ?_) ?_ (fun r hr hr' => ?_) l
  · simp only [exchange, if_neg (mem_peers.mp hr), exchangePeer, bind_assoc, Proc.pure_eq,
      Proc.pure_bind']
    rfl
  · simp only [exchange, root, exchangeRoot, bind_assoc, Proc.pure_eq, Proc.pure_bind', if_true]
  · exact if_neg (mem_peers.mp hr)
  · rw [← htable]
    exact if_pos rfl
  · exact absurd (mem_peers.mpr fun h => hr (Fin.ext h)) hr'

theorem exchange_reflect_leads {table : List Entry} (hlen : table.length < 2 ^ 32)
    (k : Fin P → PeerMap → Proc P α β A) (l : Fin P → Local α β) :
    Leads cap (reflecting call table k) l (fun r => k r (routed (rankKey r) table)) l := by
  rcases Nat.eq_zero_or_pos P with rfl | hP
  · exact fun s hs => ⟨s, .refl, fun r => r.elim0⟩
  refine reflect_leads (fun r => ⟨call, P + r⟩)
    (k := fun r table => k r (routed (rankKey r) table))
    (q := fun _ => k ⟨0, hP⟩ (routed (rankKey ⟨0, hP⟩) table))
    peers_nodup (root_not_mem_peers hP) (fun r _ => hcap _ _) hlen
    (fun r hr => ?_) ?_ (fun r _ => rfl) rfl (fun r hr hr' => ?_) l
  · exact if_neg (mem_peers.mp hr)
  · exact if_pos rfl
  · exact absurd (mem_peers.mpr fun h => hr (Fin.ext h)) hr'

theorem exchange_leads (hlen : (fullTable out).length < 2 ^ 32)
    (k : Fin P → PeerMap → Proc P α β A) (l : Fin P → Local α β) :
    Leads cap (fun r => exchange r call (out r) >>= k r) l
      (fun r => k r (routed (rankKey r) (fullTable out))) l := by
  have hout : ∀ r, (out r).length < 2 ^ 32 := by
    intro r
    refine lt_of_le_of_lt ?_ hlen
    obtain ⟨us, vs, huv⟩ := List.append_of_mem (List.mem_finRange r)
    simp only [fullTable, huv, List.flatMap_append, List.flatMap_cons, List.length_append]
    omega
  exact (exchange_gather_leads hcap call hout k l).trans
    (exchange_reflect_leads hcap call hlen k l)

end Exchange

theorem recvEntries_socketOnly (fd : Fin P) (tag : Tag) (n : ℕ) (table : List Entry) :
    SocketOnly (recvEntries (α := α) (β := β) fd tag n table) := by
  induction n generalizing table with
  | zero => exact .pure table
  | succ n ih =>
    refine SocketOnly.bind ?_ fun e => ih (table ++ [e])
    exact SocketOnly.bind (recvExact_socketOnly fd tag _) fun buf => .pure (decodeEntry buf)

theorem recvTable_socketOnly (fd : Fin P) (tag : Tag) (table : List Entry) :
    SocketOnly (recvTable (α := α) (β := β) fd tag table) := by
  refine SocketOnly.bind ?_ fun n => recvEntries_socketOnly fd tag _ table
  exact SocketOnly.bind (recvExact_socketOnly fd tag _) fun be => .pure (getU32 be).1

theorem sendTable_socketOnly (fd : Fin P) (tag : Tag) (table : List Entry) :
    SocketOnly (sendTable (α := α) (β := β) fd tag table) :=
  (sendExact_socketOnly fd _ tag).bind fun _ =>
    SocketOnly.forM (fun _ => sendExact_socketOnly fd _ tag) table

theorem exchange_socketOnly (R : Fin P) (call : ℕ) (outgoing : List Entry) :
    SocketOnly (exchange (α := α) (β := β) R call outgoing) := by
  have hroot : SocketOnly (exchangeRoot (P := P) (α := α) (β := β) call outgoing) := by
    unfold exchangeRoot
    refine SocketOnly.bind (SocketOnly.foldlM (fun _ _ => recvTable_socketOnly _ _ _) _ _)
      fun table => SocketOnly.bind ?_ fun _ => .pure table
    exact SocketOnly.forM (fun _ => sendTable_socketOnly _ _ _) _
  have hpeer : ∀ root, SocketOnly (exchangePeer (α := α) (β := β) R root call outgoing) := by
    intro root
    unfold exchangePeer
    exact SocketOnly.bind (sendTable_socketOnly _ _ _) fun _ => recvTable_socketOnly _ _ _
  unfold exchange
  split_ifs
  · exact SocketOnly.bind hroot fun _ => .pure _
  · exact SocketOnly.bind (hpeer _) fun _ => .pure _

theorem routed_concat (self : Int32) (table : List Entry) (e : Entry) :
    routed self (table ++ [e]) = if e.1 = self then
      Function.update (routed self table) e.2.rank.toInt32 (some e.2) else routed self table := by
  rw [routed, List.foldl_append]
  rfl

theorem mem_of_routed {self key : Int32} {table : List Entry} {o : QpEndpointInfo}
    (h : routed self table key = some o) : (self, o) ∈ table ∧ o.rank.toInt32 = key := by
  induction table using List.reverseRecOn with
  | nil => simp [routed] at h
  | append_singleton table e ih =>
    rw [routed_concat] at h
    split_ifs at h with he
    · by_cases hk : key = e.2.rank.toInt32
      · subst hk
        rw [Function.update_self] at h
        obtain rfl := Option.some.inj h
        exact ⟨by simp [← he], rfl⟩
      · rw [Function.update_of_ne hk] at h
        exact ⟨by simp [(ih h).1], (ih h).2⟩
    · exact ⟨by simp [(ih h).1], (ih h).2⟩

theorem routed_of_mem {self : Int32} {table : List Entry} {o : QpEndpointInfo}
    (ho : (self, o) ∈ table)
    (huniq : ∀ o', (self, o') ∈ table → o'.rank.toInt32 = o.rank.toInt32 → o' = o) :
    routed self table o.rank.toInt32 = some o := by
  induction table using List.reverseRecOn with
  | nil => simp at ho
  | append_singleton table e ih =>
    rw [routed_concat]
    -- the last entry is the one in question or leaves its key alone
    by_cases he : e.1 = self ∧ e.2.rank.toInt32 = o.rank.toInt32
    · have heo : e.2 = o := huniq e.2 (by simp [← he.1]) he.2
      rw [if_pos he.1, heo, Function.update_self]
    · have hmem : (self, o) ∈ table := by
        rcases List.mem_append.mp ho with h | h
        · exact h
        · obtain rfl := List.mem_singleton.mp h
          exact absurd ⟨rfl, rfl⟩ he
      have hrec := ih hmem fun o' ho' => huniq o' (by simp [ho'])
      split_ifs with hs
      · rw [Function.update_of_ne fun hk => he ⟨hs, hk.symm⟩]
        exact hrec
      · exact hrec

theorem rankKey_injective (hP : P < 2 ^ 31) : Function.Injective (rankKey (P := P)) := by
  intro r s h
  have hr := r.isLt
  have hs := s.isLt
  have h' : (UInt32.ofNat r).toNat = (UInt32.ofNat s).toNat := by
    have := congrArg Int32.toUInt32 h
    simpa [rankKey] using congrArg UInt32.toNat this
  rw [UInt32.toNat_ofNat_of_lt' (show r.val < 2 ^ 32 by omega),
    UInt32.toNat_ofNat_of_lt' (show s.val < 2 ^ 32 by omega)] at h'
  exact Fin.ext h'

/-- The outgoing maps of one round, each as the list of its entries in the order in which the
hash map is iterated: keys are distinct, and every rank signs with its own number, as both
callers of `exchange` do. -/
structure Signed (out : Fin P → List Entry) : Prop where
  keys : ∀ s, ((out s).map Prod.fst).Nodup
  rank : ∀ s, ∀ e ∈ out s, e.2.rank = UInt32.ofNat s

theorem routed_fullTable (hP : P < 2 ^ 31) {out : Fin P → List Entry} (hout : Signed out)
    (r : Fin P) (key : Int32) (o : QpEndpointInfo) :
    routed (rankKey r) (fullTable out) key = some o ↔
      ∃ s, key = rankKey s ∧ (rankKey r, o) ∈ out s := by
  have hkey : ∀ {s : Fin P} {o}, (rankKey r, o) ∈ out s → o.rank.toInt32 = rankKey s :=
    fun {s o} h => congrArg UInt32.toInt32 (hout.rank s _ h)
  constructor
  · intro h
    obtain ⟨hmem, rfl⟩ := mem_of_routed h
    obtain ⟨s, -, hs⟩ := List.mem_flatMap.mp hmem
    exact ⟨s, hkey hs, hs⟩
  · rintro ⟨s, rfl, hs⟩
    rw [← hkey hs]
    refine routed_of_mem (List.mem_flatMap.mpr ⟨s, List.mem_finRange s, hs⟩) fun o' ho' heq => ?_
    obtain ⟨s', -, hs'⟩ := List.mem_flatMap.mp ho'
    rw [hkey hs', hkey hs] at heq
    obtain rfl := rankKey_injective hP heq
    have := List.inj_on_of_nodup_map (hout.keys s') hs' hs rfl
    exact (Prod.mk.inj this).2

def logResult (m : PeerMap) (l : Local α (List PeerMap)) : Local α (List PeerMap) :=
  { l with vars := l.vars ++ [m] }

/-- One call of `exchange` after the other, with the outgoing map of each round. -/
def exchanges (R : Fin P) : ℕ → List (Fin P → List Entry) → Proc P α (List PeerMap) Unit
  | _, [] => .pure ()
  | call, out :: rounds =>
    exchange R call (out R) >>= fun m => .upd (logResult m) (exchanges R (call + 1) rounds)

def roundResults (rounds : List (Fin P → List Entry)) (r : Fin P) : List PeerMap :=
  rounds.map fun out => routed (rankKey r) (fullTable out)

theorem exchanges_leads {cap : Fin P → Fin P → ℕ} (hcap : ∀ i j, 0 < cap i j) (call : ℕ)
    {rounds : List (Fin P → List Entry)} (hlen : ∀ out ∈ rounds, (fullTable out).length < 2 ^ 32)
    (l : Fin P → Local α (List PeerMap)) :
    Leads cap (fun r => exchanges r call rounds) l (fun _ => .pure ())
      (fun r => { l r with vars := (l r).vars ++ roundResults rounds r }) := by
  induction rounds generalizing call l with
  | nil =>
    simp only [roundResults, List.map_nil, List.append_nil]
    exact Leads.refl _ _
  | cons out rounds ih =>
    have hex := exchange_leads hcap call (hlen out (by simp))
      (fun r m => .upd (logResult m) (exchanges (α := α) r (call + 1) rounds)) l
    have hlog : Leads cap _ l _ _ :=
      upd_leads (fun r => logResult (routed (rankKey r) (fullTable out)))
        (fun r => exchanges r (call + 1) rounds) l
    have hrest := ih (call + 1) (fun o ho => hlen o (by simp [ho]))
      fun r => logResult (routed (rankKey r) (fullTable out)) (l r)
    simpa only [exchanges, logResult, roundResults, List.map_cons, List.append_assoc,
      List.singleton_append] using hex.trans (hlog.trans hrest)

theorem exchanges_disciplined (R : Fin P) (call : ℕ) (rounds : List (Fin P → List Entry)) :
    Disciplined none none (exchanges (α := α) R call rounds) := by
  induction rounds generalizing call with
  | nil => exact ⟨rfl, rfl⟩
  | cons out rounds ih =>
    exact (exchange_socketOnly R call (out R)).disciplined.bind fun m => ⟨rfl, rfl, ih (call + 1)⟩

theorem exchanges_all (R : Fin P) (call : ℕ) (rounds : List (Fin P → List Entry)) :
    (exchanges (α := α) R call rounds).All (fun _ => True) fun f => ∀ l, l.vars <+: (f l).vars := by
  induction rounds generalizing call with
  | nil => trivial
  | cons out rounds ih =>
    exact (exchange_socketOnly R call (out R)).all.bind fun m =>
      ⟨fun l => List.prefix_append _ _, ih (call + 1)⟩

section Rounds

variable (cap : Fin P → Fin P → ℕ) (hcap : ∀ i j, 0 < cap i j)
  {rounds : List (Fin P → List Entry)} (hlen : ∀ out ∈ rounds, (fullTable out).length < 2 ^ 32)
  (m : Fin P → Mem α) {s : Fin P → RankState P α (List PeerMap) Unit}
  (hs : Reaches (fabric P α (List PeerMap) Unit cap)
    (start (fun r => exchanges r 0 rounds) fun r => ⟨m r, []⟩) s)
include hcap hlen hs

theorem exchanges_results (r : Fin P) : (s r).loc.vars <+: roundResults rounds r := by
  have hleads := exchanges_leads hcap 0 hlen fun r => (⟨m r, []⟩ : Local α (List PeerMap))
  obtain ⟨e, he, hq⟩ := hleads.settles (fun r => exchanges_disciplined r 0 rounds) hs
  have hguard : Guarded (fun _ => True) (fun f => ∀ l, l.vars <+: (f l).vars) (fun _ => True)
      (s r) :=
    Guarded.of_start (fun _ _ _ _ => trivial) (fun _ _ _ _ _ => trivial) (exchanges_all r 0 rounds)
      hs trivial
  -- results are only ever appended, so what is there now is a beginning of the end
  have hpre : (s r).loc.vars <+: (e r).loc.vars := by
    refine (Guarded.reaches (I := fun l => (s r).loc.vars <+: l.vars) ?_ ?_
      { hguard with loc := List.prefix_rfl } he).loc
    · exact fun f l hf hl => hl.trans (hf l)
    · exact fun wr l xs _ hl => hl
  rw [(hq r).loc] at hpre
  simpa using hpre

end Rounds

/-- Every call of `exchange` returns exactly what the ranks addressed to the caller in that
round, no rank throws, and no reachable state is stuck before all ranks are done. -/
theorem exchange_rounds_exact (cap : Fin P → Fin P → ℕ) (hcap : ∀ i j, 0 < cap i j)
    (hP : P < 2 ^ 31) {rounds : List (Fin P → List Entry)} (hsigned : ∀ out ∈ rounds, Signed out)
    (hlen : ∀ out ∈ rounds, (fullTable out).length < 2 ^ 32) (m : Fin P → Mem α)
    {s : Fin P → RankState P α (List PeerMap) Unit}
    (hs : Reaches (fabric P α (List PeerMap) Unit cap)
      (start (fun r => exchanges r 0 rounds) fun r => ⟨m r, []⟩) s) :
    (∀ (r : Fin P) (k : ℕ) (result : PeerMap), (s r).loc.vars[k]? = some result →
      ∃ out : Fin P → List Entry, rounds[k]? = some out ∧
      ∀ key o, result key = some o ↔ ∃ q, key = rankKey q ∧ (rankKey r, o) ∈ out q) ∧
    (∀ r, (s r).proc = .pure () → (s r).loc.vars.length = rounds.length) ∧
    (∀ r e, (s r).proc ≠ .throw e) ∧
    ((∃ r, (s r).proc ≠ .pure ()) → ∃ s', Step (fabric P α (List PeerMap) Unit cap) s s') ∧
    ∃ e, Reaches (fabric P α (List PeerMap) Unit cap) s e ∧ ∀ r, (e r).proc = .pure () := by
  have hleads := exchanges_leads hcap 0 hlen fun r => (⟨m r, []⟩ : Local α (List PeerMap))
  have hd := fun r => exchanges_disciplined (α := α) r 0 rounds
  refine ⟨fun r k result hres => ?_, fun r hr => ?_, hleads.never_throws hd hs, ?_, ?_⟩
  · obtain ⟨rest, hrest⟩ := exchanges_results cap hcap hlen m hs r
    have hk : (roundResults rounds r)[k]? = some result := by
      rw [← hrest, List.getElem?_append_left (List.getElem?_eq_some_iff.mp hres).1, hres]
    obtain ⟨out, hout, rfl⟩ : ∃ out, rounds[k]? = some out ∧
        routed (rankKey r) (fullTable out) = result := by
      simpa [roundResults] using hk
    exact ⟨out, hout, routed_fullTable hP (hsigned out (List.mem_of_getElem? hout)) r⟩
  · rw [(hleads.result hd hs hr).2]
    simp [roundResults]
  · rintro ⟨r, hr⟩
    exact hleads.never_stuck hd hs (r := r) fun _ => hr
  · obtain ⟨e, he, hq⟩ := hleads.settles hd hs
    exact ⟨e, he, fun r => (hq r).proc⟩

def oneEntry : Fin 2 → List Entry := fun r => if r.val = 0 then [(1, { qpNum := 7 })] else []

theorem oneEntry_signed : Signed oneEntry := ⟨by decide, by decide⟩

theorem exchange_rounds_exact_two_ranks :
    ∃ s, Reaches (fabric 2 ℕ (List PeerMap) Unit fun _ _ => 1)
      (start (fun r => exchanges r 0 [oneEntry]) fun _ => ⟨fun _ _ => 0, []⟩) s ∧
      (∀ r, (s r).proc = .pure ()) ∧ ∃ result, (s 1).loc.vars[0]? = some result ∧
        result 0 = some { qpNum := 7 } ∧ result 1 = none := by
  have hall := fun s => exchange_rounds_exact (s := s) (fun _ _ => 1) (fun _ _ => Nat.one_pos)
    (by decide) (show ∀ out ∈ [oneEntry], Signed out by simpa using oneEntry_signed)
    (by decide) fun _ _ _ => 0
  obtain ⟨s, hs, hret⟩ := (hall _ .refl).2.2.2.2
  have hlen := (hall s hs).2.1 1 (hret 1)
  obtain ⟨result, hres⟩ : ∃ result, (s 1).loc.vars[0]? = some result :=
    ⟨_, List.getElem?_eq_getElem (by simp [hlen])⟩
  obtain ⟨out, hout, hexact⟩ := (hall s hs).1 1 0 result hres
  obtain rfl := Option.some.inj hout
  refine ⟨s, hs, hret, result, hres, (hexact 0 _).mpr ⟨0, by decide, by decide⟩, ?_⟩
  rw [Option.eq_none_iff_forall_ne_some]
  intro o ho
  obtain ⟨q, hq, hmem⟩ := (hexact 1 o).mp ho
  obtain rfl : q = 1 := rankKey_injective (by decide) (hq.symm.trans (by decide))
  simp [oneEntry] at hmem

end MicroCcl
