import MicroCcl.RecursiveDoubling

namespace MicroCcl

/-- The ranks met from `R` in steps 0 to `k - 1`, when each step goes to the partner or stays. -/
def reachable (R : ℕ) : ℕ → Finset ℕ
  | 0 => {R}
  | k + 1 => reachable R k ∪ (reachable R k).image fun q => q ^^^ (1 <<< k)

theorem halvings_bounds {p : ℕ} (hp : 1 ≤ p) : 2 ^ halvings p ≤ p ∧ p < 2 ^ (halvings p + 1) := by
  fun_induction halvings p with
  | case1 p h ih =>
    rw [Nat.shiftRight_one] at ih ⊢
    have hih := ih (by omega)
    have h1 : 2 ^ (halvings (p / 2) + 1) = 2 * 2 ^ halvings (p / 2) := Nat.pow_succ'
    have h2 : 2 ^ (halvings (p / 2) + 1 + 1) = 2 * 2 ^ (halvings (p / 2) + 1) := Nat.pow_succ'
    omega
  | case2 p h =>
    have hp : p = 1 := by omega
    rw [hp]
    decide

/-- A number that is not a power of two has a bit below its highest one. -/
theorem exists_low_bit {P : ℕ} (hP : 1 ≤ P) (hne : P ≠ 2 ^ halvings P) :
    ∃ k < halvings P, P.testBit k = true := by
  obtain ⟨hle, hlt⟩ := halvings_bounds hP
  rw [Nat.pow_succ] at hlt
  obtain ⟨k, hk⟩ := Nat.exists_testBit_of_ne_zero (x := P - 2 ^ halvings P) (by omega)
  have hks : k < halvings P := by
    by_contra hks
    have hpow : 2 ^ halvings P ≤ 2 ^ k := Nat.pow_le_pow_right (by omega) (by omega)
    rw [Nat.testBit_lt_two_pow (by omega)] at hk
    cases hk
  rw [← Nat.testBit_two_pow_add_gt hks, Nat.add_sub_cancel' hle] at hk
  exact ⟨k, hks, hk⟩

/-- Clearing a bit that is set. -/
theorem xor_two_pow_lt {P k : ℕ} (hk : P.testBit k = true) : P ^^^ 2 ^ k < P := by
  apply Nat.lt_of_testBit k _ hk
  · intro j hj
    rw [Nat.testBit_xor, Nat.testBit_two_pow, decide_eq_false (by omega), Bool.xor_false]
  · rw [Nat.testBit_xor, Nat.testBit_two_pow_self, hk]
    rfl

theorem eq_two_pow_of_closed {P : ℕ} (hP : 1 ≤ P)
    (h : ∀ k < halvings P, ∀ R < P, R ^^^ (1 <<< k) < P) : P = 2 ^ halvings P := by
  by_contra hne
  obtain ⟨k, hk, hbit⟩ := exists_low_bit hP hne
  -- the partner of `P` without bit `k` would be `P` itself
  have hlt := h k hk (P ^^^ 2 ^ k) (xor_two_pow_lt hbit)
  rw [Nat.one_shiftLeft, Nat.xor_assoc, Nat.xor_self, Nat.xor_zero] at hlt
  exact lt_irrefl P hlt

theorem mem_reachable {R k q : ℕ} :
    q ∈ reachable R k ↔ ∀ j, k ≤ j → q.testBit j = R.testBit j := by
  induction k generalizing q with
  | zero =>
    rw [reachable, Finset.mem_singleton]
    refine ⟨?_, fun h => Nat.eq_of_testBit_eq fun j => h j (Nat.zero_le j)⟩
    rintro rfl j -
    rfl
  | succ k ih =>
    have himage : q ∈ (reachable R k).image (fun q => q ^^^ (1 <<< k)) ↔
        ∀ j, k ≤ j → (q ^^^ 2 ^ k).testBit j = R.testBit j := by
      rw [Finset.mem_image, ← ih, Nat.one_shiftLeft]
      constructor
      · rintro ⟨p, hp, rfl⟩
        rwa [Nat.xor_assoc, Nat.xor_self, Nat.xor_zero]
      · intro hq
        exact ⟨_, hq, by rw [Nat.xor_assoc, Nat.xor_self, Nat.xor_zero]⟩
    rw [reachable, Finset.mem_union, himage, ih]
    exact (agree_succ_iff k q R).symm

theorem reachable_card (R k : ℕ) : (reachable R k).card = 2 ^ k := by
  induction k with
  | zero => rfl
  | succ k ih =>
    have hinj : Function.Injective fun q : ℕ => q ^^^ (1 <<< k) := Nat.xor_left_injective
    have hdisj : Disjoint (reachable R k) ((reachable R k).image fun q => q ^^^ (1 <<< k)) := by
      rw [Finset.disjoint_left]
      intro q hq himage
      obtain ⟨p, hp, rfl⟩ := Finset.mem_image.mp himage
      have h1 := mem_reachable.mp hp k le_rfl
      have h2 := mem_reachable.mp hq k le_rfl
      rw [Nat.one_shiftLeft, Nat.testBit_xor, Nat.testBit_two_pow_self, h1] at h2
      simp at h2
    rw [reachable, Finset.card_union_of_disjoint hdisj, Finset.card_image_of_injective _ hinj, ih,
      Nat.pow_succ, Nat.mul_two]

/-- Ranks of a power of two that agree on the high bits. -/
theorem lt_of_agree {m k R q : ℕ} (hk : k ≤ m) (hR : R < 2 ^ m)
    (h : ∀ j, k ≤ j → q.testBit j = R.testBit j) : q < 2 ^ m := by
  apply Nat.lt_pow_two_of_testBit
  intro j hj
  rw [h j (hk.trans hj)]
  exact Nat.testBit_lt_two_pow (hR.trans_le (Nat.pow_le_pow_right (by omega) hj))

/-- For every world size `is_power_of_two` holds exactly if in every step every rank has a partner.
Then the partners of a step pick each other, and the ranks met in the steps before `k` are the
`2 ^ k` ranks with the same bits from `k` up, in the end all ranks. -/
theorem isPowerOfTwo_iff_partners {P : ℕ} (hP : 1 ≤ P) :
    (isPowerOfTwo P = true ↔ ∀ k < halvings P, ∀ R < P, R ^^^ (1 <<< k) < P) ∧
    (isPowerOfTwo P = true → P = 2 ^ halvings P ∧
      (∀ k < halvings P, ∀ R < P,
        R ^^^ (1 <<< k) ≠ R ∧ (R ^^^ (1 <<< k)) ^^^ (1 <<< k) = R) ∧
      (∀ k ≤ halvings P, ∀ R < P, (reachable R k).card = 2 ^ k ∧
        ∀ q, q ∈ reachable R k ↔ q < P ∧ ∀ j, k ≤ j → q.testBit j = R.testBit j) ∧
      ∀ R < P, reachable R (halvings P) = Finset.range P) := by
  have hpow : isPowerOfTwo P = true → P = 2 ^ halvings P := by
    intro h
    obtain ⟨m, hm⟩ := exists_two_pow_of_isPowerOfTwo h
    rw [hm, halvings_two_pow]
  refine ⟨⟨fun h k hk R hR => ?_, fun h => ?_⟩, fun h => ⟨hpow h, fun k hk R hR => ?_,
    fun k hk R hR => ⟨reachable_card R k, fun q => ?_⟩, fun R hR => ?_⟩⟩
  · rw [hpow h] at hR ⊢
    rw [Nat.one_shiftLeft]
    exact Nat.xor_lt_two_pow hR (Nat.pow_lt_pow_right (by omega) hk)
  · rw [eq_two_pow_of_closed hP h]
    exact isPowerOfTwo_two_pow _
  · rw [Nat.one_shiftLeft, Nat.xor_assoc, Nat.xor_self, Nat.xor_zero]
    refine ⟨fun he => ?_, rfl⟩
    have hbit := congrArg (Nat.testBit · k) he
    simp [Nat.testBit_xor, Nat.testBit_two_pow_self] at hbit
  · rw [mem_reachable]
    refine ⟨fun hq => ⟨?_, hq⟩, fun hq => hq.2⟩
    rw [hpow h] at hR ⊢
    exact lt_of_agree hk hR hq
  · ext q
    rw [mem_reachable, Finset.mem_range]
    rw [hpow h] at hR
    constructor
    · intro hq
      rw [hpow h]
      exact lt_of_agree le_rfl hR hq
    · intro hq j hj
      rw [hpow h] at hq
      have hlt := Nat.pow_le_pow_right (n := 2) (by omega) hj
      rw [Nat.testBit_lt_two_pow (hq.trans_le hlt), Nat.testBit_lt_two_pow (hR.trans_le hlt)]

/-- Eight ranks can be paired in every step; six cannot. -/
theorem isPowerOfTwo_iff_partners_eight_six :
    reachable 5 (halvings 8) = Finset.range 8 ∧
      ¬ ∀ k < halvings 6, ∀ R < 6, R ^^^ (1 <<< k) < 6 := by
  refine ⟨((isPowerOfTwo_iff_partners (P := 8) (by decide)).2 (by decide)).2.2.2 5 (by decide), ?_⟩
  rw [← (isPowerOfTwo_iff_partners (P := 6) (by decide)).1]
  decide

end MicroCcl
