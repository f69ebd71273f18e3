import Mathlib.Data.Nat.Bitwise
import Mathlib.Tactic.Ring
import Mathlib.Tactic.Linarith

/-! # Tilings by dyadic blocks

A block of exponent `e` is an interval of length `2 ^ e` that starts at a multiple
of its length. Two such blocks are disjoint or nested, and each has one buddy, with
which it forms a block of the next exponent. A tiling maps the start of each of its
blocks to the exponent. -/

namespace NoobKernel.Library

open Function

/-- The address `x` lies in the block of exponent `e` at `a`. -/
def InBlock (a e x : ℕ) : Prop := a ≤ x ∧ x < a + 2 ^ e

/-- The other half of the block of exponent `e + 1` around `a`. -/
def buddy (a e : ℕ) : ℕ := a ^^^ 2 ^ e

section Buddy

variable {a b e f x y : ℕ}

theorem inBlock_self (a e : ℕ) : InBlock a e a :=
  ⟨le_rfl, Nat.lt_add_of_pos_right (Nat.two_pow_pos e)⟩

theorem inBlock_iff_div (ha : 2 ^ e ∣ a) : InBlock a e x ↔ x / 2 ^ e = a / 2 ^ e := by
  have hpos := Nat.two_pow_pos e
  obtain ⟨q, rfl⟩ := ha
  rw [Nat.mul_div_cancel_left q hpos, Nat.div_eq_iff hpos, InBlock, Nat.mul_comm]
  omega

/-- Blocks that meet are nested, the one of smaller exponent inside. -/
theorem InBlock.mono (ha : 2 ^ e ∣ a) (hb : 2 ^ f ∣ b) (hef : e ≤ f)
    (hax : InBlock a e x) (hbx : InBlock b f x) (hy : InBlock a e y) : InBlock b f y := by
  rw [inBlock_iff_div ha] at hax hy
  rw [inBlock_iff_div hb] at hbx ⊢
  obtain ⟨d, rfl⟩ := Nat.exists_eq_add_of_le hef
  rw [← hbx, Nat.pow_add, ← Nat.div_div_eq_div_mul, ← Nat.div_div_eq_div_mul, hy, hax]

theorem buddy_mul (q e : ℕ) : buddy (2 ^ e * q) e = 2 ^ e * (q ^^^ 1) := by
  have hdiv : buddy (2 ^ e * q) e / 2 ^ e = q ^^^ 1 := by
    unfold buddy
    rw [Nat.xor_div_two_pow, Nat.mul_div_cancel_left q (Nat.two_pow_pos e),
      Nat.div_self (Nat.two_pow_pos e)]
  have hmod : buddy (2 ^ e * q) e % 2 ^ e = 0 := by
    unfold buddy
    rw [Nat.xor_mod_two_pow, Nat.mul_mod_right, Nat.mod_self, Nat.zero_xor]
  have h := Nat.div_add_mod (buddy (2 ^ e * q) e) (2 ^ e)
  rw [hdiv, hmod, Nat.add_zero] at h
  exact h.symm

theorem buddy_buddy (a e : ℕ) : buddy (buddy a e) e = a := by
  simp [buddy]

/-- The lower half of a block of exponent `e + 1` has the upper half as its buddy. -/
theorem buddy_lower (h : 2 ^ (e + 1) ∣ a) : buddy a e = a + 2 ^ e := by
  obtain ⟨q, rfl⟩ := h
  have hq : 2 ^ (e + 1) * q = 2 ^ e * (2 * q) := by ring
  rw [hq, buddy_mul, Nat.xor_one_of_even (even_two_mul q)]
  ring

theorem lower_or_upper (h : 2 ^ e ∣ a) :
    (2 ^ (e + 1) ∣ a ∧ buddy a e = a + 2 ^ e) ∨
      (2 ^ (e + 1) ∣ buddy a e ∧ buddy a e + 2 ^ e = a) := by
  obtain ⟨q, rfl⟩ := h
  rcases Nat.even_or_odd q with hq | hq
  · left
    obtain ⟨r, rfl⟩ := hq
    have hdvd : 2 ^ (e + 1) ∣ 2 ^ e * (r + r) := ⟨r, by ring⟩
    exact ⟨hdvd, buddy_lower hdvd⟩
  · right
    rw [buddy_mul, Nat.xor_one_of_odd hq]
    obtain ⟨r, rfl⟩ := hq
    refine ⟨⟨r, ?_⟩, ?_⟩
    · rw [Nat.add_sub_cancel]
      ring
    · rw [Nat.add_sub_cancel]
      ring

theorem buddy_dvd (h : 2 ^ e ∣ a) : 2 ^ e ∣ buddy a e := by
  obtain ⟨q, rfl⟩ := h
  rw [buddy_mul]
  exact dvd_mul_right _ _

theorem buddy_ne (a e : ℕ) : buddy a e ≠ a := by
  intro h
  have hx : a ^^^ 2 ^ e ^^^ a = 0 := by
    change buddy a e ^^^ a = 0
    rw [h, Nat.xor_self]
  rw [Nat.xor_comm a, Nat.xor_assoc, Nat.xor_self, Nat.xor_zero] at hx
  exact (Nat.two_pow_pos e).ne' hx

theorem inBlock_halves : InBlock a (e + 1) x ↔ InBlock a e x ∨ InBlock (a + 2 ^ e) e x := by
  unfold InBlock
  omega

end Buddy

/-! ## Tilings -/

/-- The blocks of `size` are aligned and disjoint and cover `[lo, hi)` exactly. -/
structure Tiling (lo hi : ℕ) (size : ℕ → Option ℕ) : Prop where
  aligned : ∀ a e, size a = some e → 2 ^ e ∣ a
  apart : ∀ a e b f x, size a = some e → size b = some f → InBlock a e x → InBlock b f x → a = b
  cover : ∀ x, (lo ≤ x ∧ x < hi) ↔ ∃ a e, size a = some e ∧ InBlock a e x

namespace Tiling

variable {lo hi a e x : ℕ} {size : ℕ → Option ℕ}

section

variable (h : Tiling lo hi size)

include h

theorem inside_none (ha : size a = some e) (hx : InBlock a e x) (hne : x ≠ a) : size x = none := by
  cases hs : size x with
  | none => rfl
  | some f => exact (hne (h.apart x f a e x hs ha (inBlock_self x f) hx)).elim

theorem start_mem (ha : size a = some e) : lo ≤ a ∧ a < hi :=
  (h.cover a).mpr ⟨a, e, ha, inBlock_self a e⟩

/-- Other blocks for the addresses of `U`, where the rest stays as it is. -/
theorem replace {lo' hi' : ℕ} {size' : ℕ → Option ℕ} (U : ℕ → Prop)
    (hrange : ∀ x, (lo' ≤ x ∧ x < hi') ↔ U x ∨ lo ≤ x ∧ x < hi)
    (hout : ∀ x b f, ¬ U x → InBlock b f x → (size' b = some f ↔ size b = some f))
    (hin : ∀ x, U x → ∃ a e, 2 ^ e ∣ a ∧ size' a = some e ∧ InBlock a e x ∧
      ∀ b f, size' b = some f → InBlock b f x → b = a) :
    Tiling lo' hi' size' := by
  refine ⟨?_, ?_, ?_⟩
  · intro b f hb
    by_cases hu : U b
    · obtain ⟨a, e, hdvd, ha, -, honly⟩ := hin b hu
      obtain rfl := honly b f hb (inBlock_self b f)
      rw [ha, Option.some.injEq] at hb
      exact hb ▸ hdvd
    · exact h.aligned b f ((hout b b f hu (inBlock_self b f)).mp hb)
  · intro b f c g x hb hc hbx hcx
    by_cases hu : U x
    · obtain ⟨a, e, -, -, -, honly⟩ := hin x hu
      rw [honly b f hb hbx, honly c g hc hcx]
    · exact h.apart b f c g x ((hout x b f hu hbx).mp hb) ((hout x c g hu hcx).mp hc) hbx hcx
  · intro x
    rw [hrange x]
    by_cases hu : U x
    · obtain ⟨a, e, -, ha, hax, -⟩ := hin x hu
      exact iff_of_true (Or.inl hu) ⟨a, e, ha, hax⟩
    rw [or_iff_right hu, h.cover x]
    refine exists_congr fun b => exists_congr fun f => ?_
    rw [and_congr_left_iff]
    exact fun hbx => (hout x b f hu hbx).symm

theorem range_of_block (ha : size a = some e) :
    (lo ≤ x ∧ x < hi) ↔ InBlock a e x ∨ lo ≤ x ∧ x < hi :=
  ⟨Or.inr, fun hor => hor.elim (fun hx => (h.cover x).mpr ⟨a, e, ha, hx⟩) id⟩

theorem split (ha : size a = some (e + 1)) :
    Tiling lo hi (update (update size a (some e)) (a + 2 ^ e) (some e)) := by
  have hpos := Nat.two_pow_pos e
  have hlow : 2 ^ e ∣ a := (pow_dvd_pow 2 (Nat.le_succ e)).trans (h.aligned a (e + 1) ha)
  have hupper : size (a + 2 ^ e) = none :=
    h.inside_none ha (inBlock_halves.mpr (Or.inr (inBlock_self _ e))) (by omega)
  have hhalf : ∀ b f x, update (update size a (some e)) (a + 2 ^ e) (some e) b = some f →
      InBlock b f x → InBlock a (e + 1) x → (b = a ∨ b = a + 2 ^ e) ∧ f = e := by
    intro b f x hb hbx hx
    by_cases h1 : b = a + 2 ^ e
    · simp_all
    rw [update_of_ne h1] at hb
    by_cases h2 : b = a
    · simp_all
    · rw [update_of_ne h2] at hb
      exact absurd (h.apart b f a _ x hb ha hbx hx) h2
  refine h.replace (InBlock a (e + 1)) (fun x => h.range_of_block ha) (fun x b f hx hbx => ?_)
    fun x hx => ?_
  · rw [inBlock_halves, not_or] at hx
    by_cases h1 : b = a + 2 ^ e
    · subst h1
      rw [update_self, hupper]
      exact iff_of_false (fun he => hx.2 (Option.some.inj he ▸ hbx)) nofun
    rw [update_of_ne h1]
    by_cases h2 : b = a
    · subst h2
      rw [update_self, ha]
      refine iff_of_false (fun he => hx.1 (Option.some.inj he ▸ hbx)) fun he => ?_
      exact not_or.mpr hx (inBlock_halves.mp (Option.some.inj he ▸ hbx))
    · rw [update_of_ne h2]
  · rcases inBlock_halves.mp hx with hhalf' | hhalf'
    · refine ⟨a, e, hlow, by simp, hhalf', fun b f hb hbx => ?_⟩
      obtain ⟨hb' | rfl, rfl⟩ := hhalf b f x hb hbx hx
      · exact hb'
      · unfold InBlock at hbx hhalf'
        omega
    · refine ⟨a + 2 ^ e, e, Nat.dvd_add hlow dvd_rfl, by simp, hhalf', fun b f hb hbx => ?_⟩
      obtain ⟨rfl | hb', rfl⟩ := hhalf b f x hb hbx hx
      · unfold InBlock at hbx hhalf'
        omega
      · exact hb'

theorem merge (hdvd : 2 ^ (e + 1) ∣ a) (ha : size a = some e) (hb : size (a + 2 ^ e) = some e) :
    Tiling lo hi (update (update size (a + 2 ^ e) none) a (some (e + 1))) := by
  have hrange : ∀ x, (lo ≤ x ∧ x < hi) ↔ InBlock a (e + 1) x ∨ lo ≤ x ∧ x < hi := by
    intro x
    rw [inBlock_halves, or_assoc, ← h.range_of_block hb, ← h.range_of_block ha]
  refine h.replace (InBlock a (e + 1)) hrange (fun x c g hx hcx => ?_) fun x hx => ?_
  · by_cases h1 : c = a
    · subst h1
      rw [update_self, ha]
      refine iff_of_false (fun he => hx (Option.some.inj he ▸ hcx)) fun he => hx ?_
      exact inBlock_halves.mpr (Or.inl (Option.some.inj he ▸ hcx))
    · rw [update_of_ne h1]
      by_cases h2 : c = a + 2 ^ e
      · subst h2
        rw [update_self, hb]
        refine iff_of_false nofun fun he => hx ?_
        exact inBlock_halves.mpr (Or.inr (Option.some.inj he ▸ hcx))
      · rw [update_of_ne h2]
  · refine ⟨a, e + 1, hdvd, update_self _ _ _, hx, fun c g hc hcx => ?_⟩
    by_contra h1
    rw [update_of_ne h1] at hc
    by_cases h2 : c = a + 2 ^ e
    · simp [h2] at hc
    rw [update_of_ne h2] at hc
    rcases inBlock_halves.mp hx with hx | hx
    · exact h1 (h.apart c g a e x hc ha hcx hx)
    · exact h2 (h.apart c g _ e x hc hb hcx hx)

theorem grow (hle : lo ≤ hi) (hdvd : 2 ^ e ∣ hi) :
    Tiling lo (hi + 2 ^ e) (update size hi (some e)) := by
  have hbelow : ∀ b f x, size b = some f → InBlock b f x → x < hi :=
    fun b f x hb hx => ((h.cover x).mpr ⟨b, f, hb, hx⟩).2
  refine h.replace (InBlock hi e) (fun x => by unfold InBlock; omega) (fun x b f hx hbx => ?_)
    fun x hx => ?_
  · by_cases hb : b = hi
    · subst hb
      rw [update_self]
      refine iff_of_false (fun he => hx (Option.some.inj he ▸ hbx)) fun he => ?_
      exact absurd (hbelow b f b he (inBlock_self b f)) (lt_irrefl b)
    · rw [update_of_ne hb]
  · refine ⟨hi, e, hdvd, update_self _ _ _, hx, fun b f hb hbx => ?_⟩
    by_contra hne
    rw [update_of_ne hne] at hb
    exact absurd (hbelow b f x hb hbx) (not_lt.mpr hx.1)

/-- When every address of an aligned run lies in a marked block and no two buddies
below the exponent of the run are both marked, one marked block contains the run. -/
theorem exists_of_run (marked : ℕ → Prop) (base : ℕ) (hbase : ∀ b f, size b = some f → base ≤ f) :
    ∀ (k r : ℕ), base ≤ k → 2 ^ k ∣ r →
      (∀ b f, f < k → size b = some f → marked b →
        ¬ (size (buddy b f) = some f ∧ marked (buddy b f))) →
      (∀ y, InBlock r k y → ∃ b f, size b = some f ∧ marked b ∧ InBlock b f y) →
      ∃ b f, size b = some f ∧ marked b ∧ k ≤ f ∧ InBlock b f r := by
  intro k r hk
  induction k, hk using Nat.le_induction generalizing r with
  | base =>
    intro _ _ hrun
    obtain ⟨b, f, hb, hm, hin⟩ := hrun r (inBlock_self r base)
    exact ⟨b, f, hb, hm, hbase b f hb, hin⟩
  | succ k hk ih =>
    intro hr hpairs hrun
    have hlow : 2 ^ k ∣ r := (pow_dvd_pow 2 (Nat.le_succ k)).trans hr
    have hpairs' : ∀ b f, f < k → size b = some f → marked b →
        ¬ (size (buddy b f) = some f ∧ marked (buddy b f)) :=
      fun b f hf => hpairs b f (Nat.lt_succ_of_lt hf)
    obtain ⟨b, f, hb, hbm, hkf, hbr⟩ := ih r hlow hpairs'
      (fun y hy => hrun y (inBlock_halves.mpr (Or.inl hy)))
    obtain ⟨c, g, hc, hcm, hkg, hcr⟩ := ih (r + 2 ^ k) (Nat.dvd_add hlow dvd_rfl) hpairs'
      (fun y hy => hrun y (inBlock_halves.mpr (Or.inr hy)))
    have hstart : ∀ d q, size d = some k → 2 ^ k ∣ q → InBlock d k q → d = q := by
      intro d q hd hq hdq
      have hdvd := h.aligned d k hd
      rw [inBlock_iff_div hdvd] at hdq
      rw [← Nat.div_mul_cancel hdvd, ← hdq, Nat.div_mul_cancel hq]
    by_cases hf : f = k
    · subst hf
      have hbeq := hstart b r hb hlow hbr
      subst hbeq
      by_cases hg : g = f
      · subst hg
        have hceq := hstart c _ hc (Nat.dvd_add hlow dvd_rfl) hcr
        subst hceq
        refine (hpairs b g (Nat.lt_succ_self g) hb hbm ?_).elim
        rw [buddy_lower hr]
        exact ⟨hc, hcm⟩
      · have hin : InBlock c g b :=
          InBlock.mono (x := b + 2 ^ f) hr (h.aligned c g hc) (by omega)
            (inBlock_halves.mpr (Or.inr (inBlock_self _ f))) hcr (inBlock_self b _)
        exact ⟨c, g, hc, hcm, by omega, hin⟩
    · exact ⟨b, f, hb, hbm, by omega, hbr⟩

end

end Tiling

end NoobKernel.Library
