import NoobKernel.Model.UserCopy
import NoobKernel.Verification.Mmap.Break

/-! # `copyin` and `copyout` -/

namespace NoobKernel.Vm

open Library Function Nat List

variable {m m' : Memory} {roots : ℕ → Prop} {pt a x b dst va va' n fuel : ℕ} {src : List ℕ}

/-! ## Bytes -/

theorem byteAt_storeByte_self (hb : b < 256) : byteAt a (storeByte a b m) = b := by
  simp only [byteAt, storeByte, setPte, update_self]
  exact getByte_setByte_self hb

theorem byteAt_storeByte_ne (hb : b < 256) (h : x ≠ a) :
    byteAt x (storeByte a b m) = byteAt x m := by
  by_cases hloc : pageOf x = pageOf a ∧ wordOf x = wordOf a
  · have hbyte : x % 8 ≠ a % 8 := by
      have hword := congrArg Fin.val hloc.2
      have hpage := hloc.1
      simp only [pageOf, wordOf] at hpage hword
      norm_num at hpage hword
      omega
    simp only [byteAt, storeByte, setPte, hloc.1, hloc.2, update_self]
    exact getByte_setByte_ne hb hbyte
  · have hword : (storeByte a b m).word (pageOf x) (wordOf x) = m.word (pageOf x) (wordOf x) := by
      simp only [storeByte, setPte]
      by_cases hpage : pageOf x = pageOf a
      · rw [hpage, update_self, update_of_ne (fun he => hloc ⟨hpage, he⟩)]
      · rw [update_of_ne hpage]
    rw [byteAt, hword, byteAt]

theorem storeByte_byteAt (a : ℕ) (m : Memory) : storeByte a (byteAt a m) m = m := by
  simp only [storeByte, byteAt, setByte_getByte, setPte, update_eq_self]

/-! ## `memcpy` -/

theorem byteAt_memcpy_of_ne (hsrc : ∀ b ∈ src, b < 256) (hx : ∀ i < src.length,
    x ≠ (dst + i) % wordSize) (hdst : dst < wordSize) :
    byteAt x (memcpy dst src m) = byteAt x m := by
  induction src generalizing dst m with
  | nil => rfl
  | cons b src ih =>
    rw [memcpy, ih (fun b' hb' => hsrc b' (mem_cons_of_mem b hb')) ?_
      (mod_lt _ (by decide))]
    · refine byteAt_storeByte_ne (hsrc b mem_cons_self) ?_
      have hfirst := hx 0 (by simp)
      rwa [add_zero, mod_eq_of_lt hdst] at hfirst
    · intro i hi
      have hnext := hx (i + 1) (by simpa using hi)
      rwa [mod_add_mod, Nat.add_assoc, add_comm 1 i]

theorem byteAt_memcpy (hsrc : ∀ b ∈ src, b < 256) (hfit : dst + src.length ≤ wordSize) :
    ∀ i (hi : i < src.length), byteAt (dst + i) (memcpy dst src m) = src.get ⟨i, hi⟩ := by
  induction src generalizing dst m with
  | nil => exact fun i hi => absurd hi (not_lt_zero i)
  | cons b src ih =>
    have hrest : ∀ b' ∈ src, b' < 256 := fun b' hb' => hsrc b' (mem_cons_of_mem b hb')
    rw [length_cons] at hfit
    intro i hi
    rw [memcpy]
    cases i with
    | zero =>
      rw [byteAt_memcpy_of_ne hrest ?_ (mod_lt _ (by decide))]
      · exact byteAt_storeByte_self (hsrc b mem_cons_self)
      · intro i hi' heq
        rw [mod_add_mod] at heq
        have hlt : dst + 1 + i < wordSize := by omega
        rw [mod_eq_of_lt hlt] at heq
        omega
    | succ i =>
      have hi' : i < src.length := by simpa using hi
      have hlt : dst + 1 < wordSize := by omega
      rw [mod_eq_of_lt hlt, show dst + (i + 1) = dst + 1 + i by omega]
      exact ih hrest (by omega) i hi'

theorem memcpy_same (hfit : dst + src.length ≤ wordSize)
    (hsame : ∀ i (hi : i < src.length), src.get ⟨i, hi⟩ = byteAt (dst + i) m) :
    memcpy dst src m = m := by
  induction src generalizing dst with
  | nil => rfl
  | cons b src ih =>
    rw [length_cons] at hfit
    have hfirst : b = byteAt dst m := hsame 0 (by simp)
    rw [memcpy, hfirst, storeByte_byteAt]
    cases src with
    | nil => rfl
    | cons b' src =>
      have hlt : dst + 1 < wordSize := by
        rw [length_cons] at hfit
        omega
      rw [mod_eq_of_lt hlt]
      refine ih (by omega) (fun i hi => ?_)
      have hnext := hsame (i + 1) (by simpa using hi)
      rwa [show dst + (i + 1) = dst + 1 + i by omega] at hnext

/-! ## User addresses -/

/-- Addresses below `USER_TOP` on a page of the user. -/
def UserVa (pt : ℕ) (m : Memory) (va : ℕ) : Prop := va < userTop ∧ walkaddr pt va m ≠ 0

instance (pt : ℕ) (m : Memory) (va : ℕ) : Decidable (UserVa pt m va) :=
  inferInstanceAs (Decidable (_ ∧ _))

/-- A range of such addresses. -/
def Designates (pt : ℕ) (m : Memory) (va n : ℕ) : Prop := ∀ i < n, UserVa pt m (va + i)

instance (pt : ℕ) (m : Memory) (va n : ℕ) : Decidable (Designates pt m va n) :=
  inferInstanceAs (Decidable (∀ i < n, _))

/-- Bytes of the memory on pages of the user below `USER_TOP`. -/
def OnUserPage (pt : ℕ) (m : Memory) (x : ℕ) : Prop :=
  ∃ va, UserVa pt m va ∧ walkaddr pt va m = pageOf x

theorem walkaddr_congr (h : va / pageSize = va' / pageSize) :
    walkaddr pt va m = walkaddr pt va' m := by
  have hend : va < vmEnd ↔ va' < vmEnd := by
    norm_num at h ⊢
    omega
  by_cases hva : va < vmEnd
  · rw [walkaddr_eq hva, walkaddr_eq (hend.mp hva), pteOf_congr (congrArg (· % 2 ^ 27) h)]
  · rw [walkaddr, if_pos (not_lt.mp hva), walkaddr,
      if_pos (not_lt.mp (fun hlt => hva (hend.mpr hlt)))]

theorem userVa_congr (h : va / pageSize = va' / pageSize) : UserVa pt m va ↔ UserVa pt m va' := by
  have hend : va < userTop ↔ va' < userTop := by
    norm_num at h ⊢
    omega
  rw [UserVa, UserVa, hend, walkaddr_congr h]

theorem designates_zero : Designates pt m va 0 := fun _ hi => absurd hi (not_lt_zero _)

theorem designates_split (hn : n ≤ pageSize - va % pageSize) (hpos : 0 < n) (k : ℕ) :
    Designates pt m va (n + k) ↔ UserVa pt m va ∧ Designates pt m (va + n) k := by
  have hpage : ∀ i < n, (va + i) / pageSize = va / pageSize := by
    norm_num at hn ⊢
    omega
  constructor
  · intro h
    refine ⟨h 0 (by omega), fun i hi => ?_⟩
    rw [Nat.add_assoc]
    exact h (n + i) (by omega)
  · rintro ⟨hfirst, hrest⟩ i hi
    by_cases hlt : i < n
    · exact (userVa_congr (hpage i hlt)).mpr hfirst
    · have hlast := hrest (i - n) (by omega)
      rwa [Nat.add_assoc, Nat.add_sub_cancel' (not_lt.mp hlt)] at hlast

theorem designates_page (hn : n ≤ pageSize - va % pageSize) (hpos : 0 < n) :
    Designates pt m va n ↔ UserVa pt m va := by
  have hsplit : Designates pt m va (n + 0) ↔ _ := designates_split hn hpos 0
  rwa [add_zero, and_iff_left designates_zero] at hsplit

theorem designates_succ :
    Designates pt m va (n + 1) ↔ UserVa pt m va ∧ Designates pt m (va + 1) n := by
  have hoff : va % pageSize < pageSize := mod_lt _ (by decide)
  rw [add_comm]
  exact designates_split (by omega) one_pos n

theorem pageOffset_eq (va : ℕ) : va &&& (pageSize - 1) = va % pageSize :=
  and_two_pow_sub_one_eq_mod va pageShift

/-- The place of a user address in the memory. -/
def phys (pt : ℕ) (m : Memory) (va : ℕ) : ℕ := walkaddr pt va m + va % pageSize

theorem phys_add {i : ℕ} (hi : va % pageSize + i < pageSize) :
    phys pt m (va + i) = phys pt m va + i := by
  have hdiv : (va + i) / pageSize = va / pageSize := by
    norm_num at hi ⊢
    omega
  have hmod : (va + i) % pageSize = va % pageSize + i := by
    norm_num at hi ⊢
    omega
  rw [phys, walkaddr_congr hdiv, hmod, phys, Nat.add_assoc]

/-- Bytes stored one after the other at the places of user addresses. -/
def storeAll (pt : ℕ) (m : Memory) : ℕ → List ℕ → Memory → Memory
  | _, [], m' => m'
  | va, b :: src, m' => storeAll pt m (va + 1) src (storeByte (phys pt m va) b m')

theorem storeAll_append (xs ys : List ℕ) (va : ℕ) (m' : Memory) :
    storeAll pt m va (xs ++ ys) m' =
      storeAll pt m (va + xs.length) ys (storeAll pt m va xs m') := by
  induction xs generalizing va m' with
  | nil => rfl
  | cons b xs ih =>
    rw [cons_append, storeAll, ih, storeAll, length_cons, Nat.add_assoc, add_comm 1]

theorem memcpy_eq_storeAll (hlen : va % pageSize + src.length ≤ pageSize)
    (hfit : phys pt m va + src.length ≤ wordSize) :
    memcpy (phys pt m va) src m' = storeAll pt m va src m' := by
  induction src generalizing va m' with
  | nil => rfl
  | cons b src ih =>
    rw [memcpy, storeAll]
    cases src with
    | nil => rfl
    | cons b' src =>
      simp only [length_cons] at hlen hfit ih
      have hnext : phys pt m (va + 1) = phys pt m va + 1 := phys_add (by omega)
      have hmod : (va + 1) % pageSize = va % pageSize + 1 := by
        norm_num at hlen ⊢
        omega
      rw [mod_eq_of_lt (by omega), ← hnext]
      exact ih (by omega) (by omega)

theorem storeAll_used (va : ℕ) (src : List ℕ) (m' : Memory) :
    (storeAll pt m va src m').used = m'.used := by
  induction src generalizing va m' with
  | nil => rfl
  | cons b src ih => exact ih _ _

theorem byteAt_storeAll_ne (hsrc : ∀ b ∈ src, b < 256)
    (hx : ∀ i < src.length, x ≠ phys pt m (va + i)) :
    byteAt x (storeAll pt m va src m') = byteAt x m' := by
  induction src generalizing va m' with
  | nil => rfl
  | cons b src ih =>
    rw [storeAll, ih (fun b' hb' => hsrc b' (mem_cons_of_mem b hb'))]
    · exact byteAt_storeByte_ne (hsrc b mem_cons_self) (hx 0 (by simp))
    · intro i hi
      rw [Nat.add_assoc, add_comm 1]
      exact hx (i + 1) (by simpa using hi)

section Page

variable (h : Spaces m roots) (hpt : roots pt) (hva : UserVa pt m va)

include h hpt hva

theorem UserVa.isFrame : IsFrame m roots (walkaddr pt va m) := by
  rcases h.walkaddr_cases hpt va with hzero | ⟨-, hframe, -, huser⟩
  · exact absurd hzero hva.2
  · rw [hframe]
    exact h.frame pt va hpt huser.1

theorem UserVa.pageOf_phys : pageOf (phys pt m va) = walkaddr pt va m := by
  obtain ⟨k, hk⟩ := (hva.isFrame h hpt).isPage.1
  rw [pageOf, phys, hk]
  norm_num
  omega

theorem UserVa.fits {k : ℕ} (hk : va % pageSize + k ≤ pageSize) :
    walkaddr pt va m + va % pageSize + k ≤ wordSize := by
  have hlt := (hva.isFrame h hpt).isPage.2.2
  norm_num at hk hlt ⊢
  omega

theorem UserVa.storeByte (hsame : Untouched m roots m') :
    Untouched m roots (storeByte (phys pt m va) b m') := by
  have hframe := hva.isFrame h hpt
  have hused : m'.used (walkaddr pt va m) = true := by
    rcases h.walkaddr_cases hpt va with hzero | ⟨-, heq, -, huser⟩
    · exact absurd hzero hva.2
    · rw [heq]
      exact hsame.frame pt va hpt huser.1
  have hwrite : Untouched m' roots (Vm.storeByte (phys pt m va) b m') := by
    rw [Vm.storeByte, hva.pageOf_phys h hpt]
    exact (hsame.spaces h).write (hsame.isFrame hframe hused)
  exact hsame.trans hwrite

end Page

theorem storeAll_untouched (h : Spaces m roots) (hpt : roots pt)
    (hdes : Designates pt m va src.length) (hsame : Untouched m roots m') :
    Untouched m roots (storeAll pt m va src m') := by
  induction src generalizing va m' with
  | nil => exact hsame
  | cons b src ih =>
    obtain ⟨hva, hrest⟩ := designates_succ.mp hdes
    exact ih hrest (hva.storeByte h hpt hsame)

/-! ## Loops -/

section Untouched

variable (hsame : Untouched m roots m') (hpt : roots pt)

include hsame hpt

theorem Untouched.walkaddr_eq (va : ℕ) : walkaddr pt va m' = walkaddr pt va m := by
  by_cases hva : va < vmEnd
  · rw [Vm.walkaddr_eq hva, Vm.walkaddr_eq hva, hsame.pteOf_eq hpt]
  · rw [walkaddr, if_pos (not_lt.mp hva), walkaddr, if_pos (not_lt.mp hva)]

theorem Untouched.userVa (va : ℕ) : UserVa pt m' va ↔ UserVa pt m va := by
  rw [UserVa, hsame.walkaddr_eq hpt, UserVa]

theorem Untouched.designates (va n : ℕ) : Designates pt m' va n ↔ Designates pt m va n := by
  simp only [Designates, hsame.userVa hpt]

end Untouched

theorem copyoutLoop_succ (hva : UserVa pt m va) (hsrc : src ≠ []) :
    copyoutLoop pt (fuel + 1) va src m =
      copyoutLoop pt fuel (va + min (pageSize - va % pageSize) src.length)
        (src.drop (min (pageSize - va % pageSize) src.length))
        (memcpy (phys pt m va) (src.take (min (pageSize - va % pageSize) src.length)) m) := by
  have hlen : src.length ≠ 0 := fun hzero => hsrc (length_eq_zero_iff.mp hzero)
  have hwrap : va + min (pageSize - va % pageSize) src.length < wordSize := by
    have hlt := hva.1
    norm_num at hlt ⊢
    omega
  rw [copyoutLoop, if_neg hlen, if_neg (not_le.mpr hva.1)]
  dsimp only
  rw [if_neg hva.2, pageOffset_eq, mod_eq_of_lt hwrap, phys]

theorem copyoutLoop_fail (hva : ¬ UserVa pt m va) (hsrc : src ≠ []) :
    copyoutLoop pt (fuel + 1) va src m = (-1, m) := by
  have hlen : src.length ≠ 0 := fun hzero => hsrc (length_eq_zero_iff.mp hzero)
  rw [copyoutLoop, if_neg hlen]
  by_cases htop : va ≥ userTop
  · rw [if_pos htop]
  have hzero : walkaddr pt va m = 0 := by
    by_contra hne
    exact hva ⟨not_le.mp htop, hne⟩
  rw [if_neg htop]
  rw [if_pos hzero]

/-- What a copy to the user does: the first `k` bytes are stored, up to the first address that
is not of the user. -/
structure CopiedOut (pt : ℕ) (m : Memory) (va : ℕ) (src : List ℕ) (m' : Memory) (r : ℤ × Memory)
    (k : ℕ) : Prop where
  reached : Designates pt m va k
  memory : r.2 = storeAll pt m va (src.take k) m'
  result : r.1 = 0 ∧ k = src.length ∨ r.1 = -1 ∧ k < src.length ∧ ¬ UserVa pt m (va + k)

theorem CopiedOut.none : CopiedOut pt m va [] m' (0, m') 0 :=
  ⟨designates_zero, rfl, Or.inl ⟨rfl, rfl⟩⟩

theorem copyoutLoop_spec (h : Spaces m roots) (hpt : roots pt) (fuel : ℕ) : ∀ va src m',
    Untouched m roots m' → src.length ≤ fuel →
      ∃ k, CopiedOut pt m va src m' (copyoutLoop pt fuel va src m') k := by
  induction fuel with
  | zero =>
    intro va src m' _ hfuel
    obtain rfl := length_eq_zero_iff.mp (le_zero.mp hfuel)
    exact ⟨0, CopiedOut.none⟩
  | succ fuel ih =>
    intro va src m' hsame hfuel
    by_cases hnil : src = []
    · subst hnil
      exact ⟨0, CopiedOut.none⟩
    have hpos : 0 < src.length := length_pos_iff.mpr hnil
    by_cases hva : UserVa pt m va
    · have hoff : va % pageSize < pageSize := mod_lt _ (by decide)
      rw [copyoutLoop_succ ((hsame.userVa hpt va).mpr hva) hnil, phys,
        hsame.walkaddr_eq hpt, ← phys]
      set n := min (pageSize - va % pageSize) src.length
      have htake : (src.take n).length = n := by rw [List.length_take]; omega
      have hdrop : (src.drop n).length = src.length - n := length_drop
      rw [memcpy_eq_storeAll (by omega) (hva.fits h hpt (by omega))]
      obtain ⟨k, hreached, hmem, hresult⟩ := ih (va + n) (src.drop n) _
        (storeAll_untouched h hpt
          (by rw [htake]; exact (designates_page (by omega) (by omega)).mpr hva)
          hsame) (by omega)
      refine ⟨n + k, (designates_split (by omega) (by omega) k).mpr ⟨hva, hreached⟩, ?_, ?_⟩
      · rw [hmem, take_add, storeAll_append, htake]
      · rw [← Nat.add_assoc]
        exact hresult.imp (And.imp_right (by omega)) (And.imp_right (And.imp_left (by omega)))
    · rw [copyoutLoop_fail (fun hv => hva ((hsame.userVa hpt va).mp hv)) hnil]
      exact ⟨0, designates_zero, rfl, Or.inr ⟨rfl, hpos, hva⟩⟩

theorem copyout_spec (h : Spaces m roots) (hpt : roots pt) (va : ℕ) (src : List ℕ) :
    ∃ k, CopiedOut pt m va src m (copyout pt va src m) k :=
  copyoutLoop_spec h hpt src.length va src m (Untouched.refl h) le_rfl

namespace CopiedOut

variable {k : ℕ} {r : ℤ × Memory} (hk : CopiedOut pt m va src m' r k)

include hk

theorem length_take : (src.take k).length = k := by
  rw [List.length_take]
  rcases hk.result with ⟨-, h⟩ | ⟨-, h, -⟩ <;> omega

theorem designates : r.1 = 0 ∧ Designates pt m va src.length ∨
    r.1 = -1 ∧ ¬ Designates pt m va src.length := by
  rcases hk.result with ⟨hr, hall⟩ | ⟨hr, hlt, hstop⟩
  · exact Or.inl ⟨hr, hall ▸ hk.reached⟩
  · exact Or.inr ⟨hr, fun hdes => hstop (hdes k hlt)⟩

theorem untouched (h : Spaces m roots) (hpt : roots pt) (hsame : Untouched m roots m') :
    Untouched m roots r.2 := by
  rw [hk.memory]
  exact storeAll_untouched h hpt (by rw [hk.length_take]; exact hk.reached) hsame

theorem writes (hsrc : ∀ b ∈ src, b < 256) (hx : byteAt x r.2 ≠ byteAt x m') :
    ∃ i < k, x = phys pt m (va + i) := by
  by_contra hnone
  push Not at hnone
  rw [hk.memory] at hx
  exact hx (byteAt_storeAll_ne (fun b hb => hsrc b (mem_of_mem_take hb))
    (fun i hi => hnone i (hk.length_take ▸ hi)))

end CopiedOut

theorem copyout_result (h : Spaces m roots) (hpt : roots pt) (va : ℕ) (src : List ℕ) :
    (copyout pt va src m).1 = 0 ∧ Designates pt m va src.length ∨
      (copyout pt va src m).1 = -1 ∧ ¬ Designates pt m va src.length := by
  obtain ⟨k, hk⟩ := copyout_spec h hpt va src
  exact hk.designates

theorem copyout_writes (h : Spaces m (· = pt)) (hsrc : ∀ b ∈ src, b < 256) (va : ℕ) :
    ∀ x, byteAt x (copyout pt va src m).2 ≠ byteAt x m → OnUserPage pt m x := by
  intro x hx
  obtain ⟨k, hk⟩ := copyout_spec h rfl va src
  obtain ⟨i, hi, rfl⟩ := hk.writes hsrc hx
  exact ⟨va + i, hk.reached i hi, ((hk.reached i hi).pageOf_phys h rfl).symm⟩

theorem copyout_untouched (h : Spaces m roots) (hpt : roots pt)
    (va : ℕ) (src : List ℕ) : (copyout pt va src m).2.used = m.used ∧
      Untouched m roots (copyout pt va src m).2 := by
  obtain ⟨k, hk⟩ := copyout_spec h hpt va src
  exact ⟨by rw [hk.memory, storeAll_used], hk.untouched h hpt (Untouched.refl h)⟩

section

variable (h : Spaces m (· = pt)) (hnot : ¬ Designates pt m va src.length)

include h hnot

/-- A copy that starts on a page of the user and fails on the next one leaves its first part
behind. -/
theorem copyout_firstPart (hlen : src.length ≤ pageSize) (hva : UserVa pt m va) :
    copyout pt va src m = (-1, memcpy (walkaddr pt va m + va % pageSize)
      (src.take (pageSize - va % pageSize)) m) := by
  have hoff : va % pageSize < pageSize := mod_lt _ (by decide)
  obtain ⟨k, hk⟩ := copyout_spec h rfl va src
  rcases hk.result with ⟨-, rfl⟩ | ⟨hr, hlt, hstop⟩
  · exact absurd hk.reached hnot
  -- the address at which the copy stops is the first one of the second page
  obtain rfl : k = pageSize - va % pageSize := by
    by_contra hne
    rcases lt_or_gt_of_ne hne with hless | hmore
    · refine hstop ((userVa_congr ?_).mp hva)
      norm_num at hless ⊢
      omega
    · refine hstop ((userVa_congr ?_).mp (hk.reached _ hmore))
      norm_num at hmore hlen hlt ⊢
      omega
  have htake := hk.length_take
  exact Prod.ext hr
    (hk.memory.trans (memcpy_eq_storeAll (by omega) (hva.fits h rfl (by omega))).symm)

theorem copyout_neg : (copyout pt va src m).1 < 0 := by
  rcases copyout_result h rfl va src with ⟨-, hall⟩ | ⟨hneg, -⟩
  · exact absurd hall hnot
  · rw [hneg]
    decide

theorem copyout_same_iff (hlen : src.length ≤ pageSize) (hsrc : ∀ b ∈ src, b < 256) :
    (copyout pt va src m).2 = m ↔ (UserVa pt m va → ∀ i < pageSize - va % pageSize,
      src[i]? = some (byteAt (walkaddr pt va m + va % pageSize + i) m)) := by
  have hnil : src ≠ [] := by
    rintro rfl
    exact hnot designates_zero
  by_cases hva : UserVa pt m va
  · have hoff : va % pageSize < pageSize := mod_lt _ (by decide)
    have hlong : pageSize - va % pageSize ≤ src.length := by
      by_contra hshort
      exact hnot ((designates_page (by omega) (length_pos_iff.mpr hnil)).mpr hva)
    have htake := length_take_of_le hlong
    have hfit : walkaddr pt va m + va % pageSize + (src.take (pageSize - va % pageSize)).length ≤
        wordSize := hva.fits h rfl (by omega)
    rw [copyout_firstPart h hnot hlen hva, forall_prop_of_true hva]
    constructor
    · intro hmem i hi
      have hstored := byteAt_memcpy (m := m) (fun b hb => hsrc b (mem_of_mem_take hb)) hfit i
        (by omega)
      change memcpy _ _ m = m at hmem
      rw [hmem, get_eq_getElem, getElem_take] at hstored
      rw [hstored, getElem?_eq_getElem]
    · intro hsame
      refine memcpy_same hfit fun i hi => ?_
      rw [← Option.some_inj, ← hsame i (by omega), get_eq_getElem, getElem_take,
        getElem?_eq_getElem]
  · obtain ⟨k, hk⟩ := copyout_spec h rfl va src
    obtain rfl : k = 0 := by
      by_contra hne
      exact hva (hk.reached 0 (pos_of_ne_zero hne))
    exact iff_of_true hk.memory (fun hv => absurd hv hva)

end

/-- The bytes of the user from an address on. -/
def userBytes (pt : ℕ) (m : Memory) (va n : ℕ) : List ℕ :=
  (List.range n).map (fun i => byteAt (phys pt m (va + i)) m)

theorem userBytes_add (va n k : ℕ) :
    userBytes pt m va (n + k) = userBytes pt m va n ++ userBytes pt m (va + n) k := by
  simp [userBytes, range_add, Nat.add_assoc]

theorem load_phys (hn : n ≤ pageSize - va % pageSize) :
    load (phys pt m va) n m = userBytes pt m va n := by
  refine map_congr_left (fun i hi => ?_)
  rw [phys_add]
  have hlt := mem_range.mp hi
  omega

theorem copyinLoop_result (fuel : ℕ) : ∀ va n, n ≤ fuel →
    (copyinLoop pt m fuel va n).1 = 0 ∧ Designates pt m va n ∧
      (copyinLoop pt m fuel va n).2 = userBytes pt m va n ∨
    (copyinLoop pt m fuel va n).1 = -1 ∧ ¬ Designates pt m va n := by
  induction fuel with
  | zero =>
    intro va n hfuel
    obtain rfl := le_zero.mp hfuel
    exact Or.inl ⟨rfl, designates_zero, rfl⟩
  | succ fuel ih =>
    intro va n hfuel
    by_cases hzero : n = 0
    · subst hzero
      exact Or.inl ⟨rfl, designates_zero, rfl⟩
    rw [copyinLoop, if_neg hzero]
    have hfirst : Designates pt m va n → UserVa pt m va := fun hall => hall 0 (by omega)
    by_cases htop : va ≥ userTop
    · rw [if_pos htop]
      exact Or.inr ⟨rfl, fun hall => absurd (hfirst hall).1 (not_lt.mpr htop)⟩
    rw [if_neg htop]
    dsimp only
    by_cases hpa : walkaddr pt va m = 0
    · rw [if_pos hpa]
      exact Or.inr ⟨rfl, fun hall => (hfirst hall).2 hpa⟩
    rw [if_neg hpa, pageOffset_eq]
    have hva : UserVa pt m va := ⟨not_le.mp htop, hpa⟩
    have hoff : va % pageSize < pageSize := mod_lt _ (by decide)
    have hwrap : va + min (pageSize - va % pageSize) n < wordSize := by
      have hlt := hva.1
      norm_num at hlt ⊢
      omega
    rw [mod_eq_of_lt hwrap]
    obtain ⟨k, hk⟩ := Nat.exists_eq_add_of_le (min_le_right (pageSize - va % pageSize) n)
    rw [← phys, load_phys (min_le_left _ _), Nat.sub_eq_of_eq_add' hk]
    set c := min (pageSize - va % pageSize) n
    rw [hk, designates_split (min_le_left _ _) (by omega), and_iff_right hva, userBytes_add]
    refine (ih (va + c) k (by omega)).imp_left (fun hok => ⟨hok.1, hok.2.1, ?_⟩)
    rw [hok.2.2]

theorem copyin_result (pt va n : ℕ) (m : Memory) :
    (copyin pt va n m).1 = 0 ∧ Designates pt m va n ∧ (copyin pt va n m).2 = userBytes pt m va n ∨
    (copyin pt va n m).1 = -1 ∧ ¬ Designates pt m va n :=
  copyinLoop_result n va n le_rfl

/-! ## Strings -/

variable {c : ℕ}

theorem userBytes_succ : userBytes pt m va (n + 1) =
    byteAt (phys pt m va) m :: userBytes pt m (va + 1) n := by
  rw [add_comm, userBytes_add]
  rfl

/-- `copyinstr` byte by byte. -/
def userString (pt : ℕ) (m : Memory) : ℕ → ℕ → Option (List ℕ)
  | _, 0 => none
  | va, max + 1 =>
    if ¬ UserVa pt m va then none
    else if byteAt (phys pt m va) m = 0 then some []
    else (userString pt m (va + 1) max).map (byteAt (phys pt m va) m :: ·)

theorem userString_eq_some (s : List ℕ) (va max : ℕ) : userString pt m va max = some s ↔
    s.length < max ∧ 0 ∉ s ∧ Designates pt m va (s.length + 1) ∧
      userBytes pt m va (s.length + 1) = s ++ [0] := by
  induction s generalizing va max with
  | nil =>
    cases max with
    | zero => simp [userString]
    | succ max =>
      rw [userString]
      by_cases hva : UserVa pt m va <;> by_cases hb : byteAt (phys pt m va) m = 0 <;>
        simp [hva, hb, designates_succ, designates_zero, userBytes]
  | cons b s ih =>
    cases max with
    | zero => simp [userString]
    | succ max =>
      rw [userString, length_cons, designates_succ, userBytes_succ]
      by_cases hva : UserVa pt m va
      · by_cases hb : byteAt (phys pt m va) m = 0
        · simp only [hva, hb, mem_cons, cons_append, List.cons.injEq]
          grind
        · simp only [hva, hb, not_true, if_false, Option.map_eq_some_iff, cons_append,
            List.cons.injEq, mem_cons]
          grind
      · simp [hva]

theorem userString_page (hva : UserVa pt m va) (hn : n ≤ pageSize - va % pageSize) (k : ℕ) :
    userString pt m va (n + k) = if 0 ∈ userBytes pt m va n
      then some ((userBytes pt m va n).takeWhile (· ≠ 0))
      else (userString pt m (va + n) k).map (userBytes pt m va n ++ ·) := by
  induction n generalizing va with
  | zero => simp [userBytes]
  | succ n ih =>
    rw [add_right_comm, userString, if_neg (not_not.mpr hva), userBytes_succ]
    by_cases hb : byteAt (phys pt m va) m = 0
    · simp [hb]
    rw [if_neg hb]
    rcases n.eq_zero_or_pos with rfl | hpos
    · simp [userBytes, Ne.symm hb]
    have hpage : (va + 1) / pageSize = va / pageSize := by
      norm_num at hn ⊢
      omega
    rw [ih ((userVa_congr hpage).mpr hva) (by norm_num at hn ⊢; omega)]
    by_cases hmem : 0 ∈ userBytes pt m (va + 1) n
    · simp [hmem, hb]
    · simp [hmem, Ne.symm hb, Function.comp_def, add_assoc, add_comm 1]

theorem copyinstrLoop_eq (fuel : ℕ) : ∀ va max, max ≤ fuel →
    copyinstrLoop pt m fuel va max = userString pt m va max := by
  induction fuel with
  | zero =>
    intro va max hfuel
    rw [le_zero.mp hfuel]
    rfl
  | succ fuel ih =>
    intro va max hfuel
    rw [copyinstrLoop]
    cases max with
    | zero => rfl
    | succ max =>
      rw [if_neg (succ_ne_zero max)]
      by_cases hva : UserVa pt m va
      · obtain ⟨k, hk⟩ := Nat.exists_eq_add_of_le (min_le_right (pageSize - va % pageSize) (max + 1))
        have hoff : va % pageSize < pageSize := mod_lt _ (by decide)
        have hwrap : va + min (pageSize - va % pageSize) (max + 1) < wordSize := by
          have hlt := hva.1
          norm_num at hlt ⊢
          omega
        rw [if_neg (not_le.mpr hva.1)]
        dsimp only
        rw [if_neg hva.2, pageOffset_eq, mod_eq_of_lt hwrap, ← phys, load_phys (min_le_left _ _),
          Nat.sub_eq_of_eq_add' hk, ih _ _ (by omega)]
        set n := min (pageSize - va % pageSize) (max + 1)
        rw [hk, userString_page hva (min_le_left _ _)]
      · rw [userString, if_pos hva]
        by_cases htop : va ≥ userTop
        · rw [if_pos htop]
        · rw [if_neg htop]
          exact if_pos (by by_contra hpa; exact hva ⟨not_le.mp htop, hpa⟩)

/-! ## Accesses -/

/-- Copies read and write the bytes of the user, as far as the range is the user's. -/
theorem user_access (pt va : ℕ) (m : Memory) :
    (∀ n, ((copyin pt va n m).1 = 0 ↔ Designates pt m va n) ∧
      (Designates pt m va n → (copyin pt va n m).2 = userBytes pt m va n)) ∧
    (∀ max s, copyinstr pt va max m = some s ↔
      s.length < max ∧ 0 ∉ s ∧ Designates pt m va (s.length + 1) ∧
        userBytes pt m va (s.length + 1) = s ++ [0]) ∧
    (Spaces m (· = pt) → ∀ src, (∀ b ∈ src, b < 256) →
      ((copyout pt va src m).1 = 0 ↔ Designates pt m va src.length) ∧
      ∃ k ≤ src.length, ((copyout pt va src m).1 = 0 → k = src.length) ∧ Designates pt m va k ∧
        (copyout pt va src m).2 = storeAll pt m va (src.take k) m ∧
        ∀ x, (∀ i < k, x ≠ phys pt m (va + i)) →
          byteAt x (copyout pt va src m).2 = byteAt x m) := by
  refine ⟨fun n => ?_, fun max s => ?_, fun h src hsrc => ?_⟩
  · rcases copyin_result pt va n m with ⟨hr, hdes, hbytes⟩ | ⟨hr, hnot⟩
    · exact ⟨iff_of_true hr hdes, fun _ => hbytes⟩
    · exact ⟨iff_of_false (by simp [hr]) hnot, fun hdes => absurd hdes hnot⟩
  · rw [copyinstr, copyinstrLoop_eq _ _ _ le_rfl, userString_eq_some]
  · obtain ⟨k, hk⟩ := copyout_spec h rfl va src
    refine ⟨?_, k, ?_, ?_, hk.reached, hk.memory, fun x hx => ?_⟩
    · rcases hk.designates with ⟨hr, hdes⟩ | ⟨hr, hnot⟩
      · exact iff_of_true hr hdes
      · exact iff_of_false (by simp [hr]) hnot
    · rcases hk.result with ⟨-, hall⟩ | ⟨-, hlt, -⟩ <;> omega
    · rcases hk.result with ⟨-, hall⟩ | ⟨hr, -, -⟩
      · exact fun _ => hall
      · exact fun hzero => absurd (hr.symm.trans hzero) (by decide)
    · by_contra hne
      obtain ⟨i, hi, heq⟩ := hk.writes hsrc hne
      exact hx i hi heq

theorem exists_mapped {prot : ℕ} (P : Memory → Prop) [DecidablePred P]
    (hchecks : (sysMmap 0 pageSize prot 0x22 (-1) 0 1 (emptyProcess 0)).checks
      (fun x => decide (P x.2.mem)) = true) : ∃ m, Spaces m (· = pmStart + pageSize) ∧ P m := by
  obtain ⟨⟨r, s⟩, hr, hx⟩ := Outcome.exists_of_checks hchecks
  obtain ⟨-, hspace⟩ := (emptyProcess_ready 0 (by decide)).space_mmap hr
  exact ⟨s.mem, hspace.spaces, of_decide_eq_true hx⟩

/-- A copy of one byte to a new page. -/
theorem user_access_page : ∃ m, Spaces m (· = pmStart + pageSize) ∧
    (copyout (pmStart + pageSize) 0x10000 [7] m).1 = 0 := by
  obtain ⟨m, h, hva⟩ := exists_mapped (fun m => UserVa (pmStart + pageSize) m 0x10000)
    (show (sysMmap 0 pageSize 3 0x22 (-1) 0 1 (emptyProcess 0)).checks _ = true by decide +kernel)
  obtain ⟨-, -, hout⟩ := user_access (pmStart + pageSize) 0x10000 m
  refine ⟨m, h, ((hout h [7] (by decide)).1).mpr ?_⟩
  exact (designates_page (by decide) (by decide)).mpr hva

/-- A table at `0x3000` that maps itself at `510` and another page at `511`. -/
def selfMapped : Memory where
  word a i :=
    if a = 0x1000 ∧ i = 0 then pa2pte 0x2000 ||| pteV
    else if a = 0x2000 ∧ i = 0 then pa2pte 0x3000 ||| pteV
    else if a = 0x3000 ∧ i = 510 then leafPte 0x3000 (pteU ||| pteR ||| pteW)
    else if a = 0x3000 ∧ i = 511 then leafPte 0x4000 (pteU ||| pteR ||| pteW)
    else 0
  used _ := true
  answers := []

/-- The first bytes of a copy unmap the place of the last one. -/
theorem copyout_unmaps_rest : ∃ pt m va src, (∀ b ∈ src, b < 256) ∧
    Designates pt m va src.length ∧ (copyout pt va src m).1 ≠ 0 := by
  refine ⟨0x1000, selfMapped, 510 * pageSize + 4088, List.replicate 9 0, by decide, ?_, ?_⟩
  · decide +kernel
  · decide +kernel

/-! ## Protection -/

/-- Addresses of the user on a page without `PTE_W`. -/
def ReadOnly (pt : ℕ) (m : Memory) (va : ℕ) : Prop := UserVa pt m va ∧ pteOf pt va m &&& pteW = 0

/-- Every copy to the range fails when a byte of it is read-only, and leaves that byte's page as
it is. -/
def Respects (pt : ℕ) (m : Memory) (va n : ℕ) : Prop :=
  ∀ src : List ℕ, src.length = n → (∀ b ∈ src, b < 256) → ∀ i < n, ReadOnly pt m (va + i) →
    (copyout pt va src m).1 = -1 ∧ ∀ x, pageOf x = walkaddr pt (va + i) m →
      byteAt x (copyout pt va src m).2 = byteAt x m

/-- No byte that the copy reaches is on a read-only page of the range. -/
def StopsBefore (pt : ℕ) (m : Memory) (va n : ℕ) : Prop :=
  ∀ i < n, ReadOnly pt m (va + i) → ∀ j < n, Designates pt m va (j + 1) →
    walkaddr pt (va + j) m ≠ walkaddr pt (va + i) m

theorem byteAt_storeAll_const (hc : c < 256) (hsrc : ∀ b ∈ src, b = c)
    (hx : byteAt x m' = c ∨ ∃ i < src.length, x = phys pt m (va + i)) :
    byteAt x (storeAll pt m va src m') = c := by
  induction src generalizing va m' with
  | nil => simpa [storeAll] using hx
  | cons b src ih =>
    obtain rfl : b = c := hsrc b mem_cons_self
    refine ih (fun b' hb' => hsrc b' (mem_cons_of_mem b hb')) ?_
    by_cases hfirst : x = phys pt m va
    · exact Or.inl (hfirst ▸ byteAt_storeByte_self hc)
    rcases hx with hsame | ⟨i, hi, heq⟩
    · exact Or.inl ((byteAt_storeByte_ne hc hfirst).trans hsame)
    cases i with
    | zero => exact absurd heq hfirst
    | succ i =>
      refine Or.inr ⟨i, by simpa using hi, ?_⟩
      rw [heq, add_assoc, add_comm 1]

theorem copyout_changes (h : Spaces m (· = pt)) {j : ℕ} (hj : j < n)
    (hreach : Designates pt m va (j + 1)) : ∃ src : List ℕ, src.length = n ∧
      (∀ b ∈ src, b < 256) ∧ byteAt (phys pt m (va + j)) (copyout pt va src m).2 ≠
        byteAt (phys pt m (va + j)) m := by
  obtain ⟨c, hc, hne⟩ : ∃ c < 256, c ≠ byteAt (phys pt m (va + j)) m := by
    by_cases hzero : byteAt (phys pt m (va + j)) m = 0
    · exact ⟨1, by decide, by simp [hzero]⟩
    · exact ⟨0, by decide, Ne.symm hzero⟩
  refine ⟨List.replicate n c, length_replicate, fun b hb => ?_, ?_⟩
  · rwa [eq_of_mem_replicate hb]
  · obtain ⟨k, hk⟩ := copyout_spec h rfl va (List.replicate n c)
    have hlt : j < k := by
      rcases hk.result with ⟨-, hall⟩ | ⟨-, -, hstop⟩
      · rwa [hall, length_replicate]
      · by_contra hle
        exact hstop (hreach k (by omega))
    rw [hk.memory, byteAt_storeAll_const hc
      (fun b hb => eq_of_mem_replicate (mem_of_mem_take hb))
      (Or.inr ⟨j, by rwa [hk.length_take], rfl⟩)]
    exact hne

/-- `copyout` respects the protection of pages that it does not reach. -/
theorem copyout_respects_iff (h : Spaces m (· = pt)) (va n : ℕ) :
    Respects pt m va n ↔ StopsBefore pt m va n := by
  constructor
  · intro hresp i hi hro j hj hreach heq
    obtain ⟨src, hlen, hbytes, hne⟩ := copyout_changes h hj hreach
    refine hne ((hresp src hlen hbytes i hi hro).2 _ ?_)
    rw [(hreach j (by omega)).pageOf_phys h rfl, heq]
  · intro hstops src hlen hbytes i hi hro
    obtain ⟨k, hk⟩ := copyout_spec h rfl va src
    refine ⟨?_, fun x hx => ?_⟩
    · rcases hk.designates with ⟨-, hdes⟩ | ⟨hr, -⟩
      · exact absurd rfl (hstops i hi hro i hi (fun i' hi' => hdes i' (by omega)))
      · exact hr
    · by_contra hne
      obtain ⟨j, hj, rfl⟩ := hk.writes hbytes hne
      rw [(hk.reached j hj).pageOf_phys h rfl] at hx
      have hle : k ≤ n := by rcases hk.result with ⟨-, hall⟩ | ⟨-, hlt, -⟩ <;> omega
      exact hstops i hi hro j (by omega) (fun i' hi' => hk.reached i' (by omega)) hx

/-- A page that is mapped for reading, behind one that is not mapped. -/
theorem exists_readOnly : ∃ m, Spaces m (· = pmStart + pageSize) ∧
    ReadOnly (pmStart + pageSize) m 0x10000 ∧ ¬ UserVa (pmStart + pageSize) m 0xffff :=
  exists_mapped (fun m => (UserVa (pmStart + pageSize) m 0x10000 ∧
      pteOf (pmStart + pageSize) 0x10000 m &&& pteW = 0) ∧ ¬ UserVa (pmStart + pageSize) m 0xffff)
    (show (sysMmap 0 pageSize 1 0x22 (-1) 0 1 (emptyProcess 0)).checks _ = true by decide +kernel)

/-- The copy does not come to the page. -/
theorem copyout_respects_behind : ∃ m, Spaces m (· = pmStart + pageSize) ∧
    ReadOnly (pmStart + pageSize) m 0x10000 ∧ Respects (pmStart + pageSize) m 0xffff 2 := by
  obtain ⟨m, h, hro, hnot⟩ := exists_readOnly
  exact ⟨m, h, hro, (copyout_respects_iff h 0xffff 2).mpr fun _ _ _ _ _ hreach =>
    absurd (hreach 0 (Nat.succ_pos _)) hnot⟩

/-- A page that is mapped for reading is written. -/
theorem copyout_writes_readOnly : ∃ m, Spaces m (· = pmStart + pageSize) ∧
    ReadOnly (pmStart + pageSize) m 0x10000 ∧
    (copyout (pmStart + pageSize) 0x10000 [7] m).1 = 0 ∧
    ¬ Respects (pmStart + pageSize) m 0x10000 1 := by
  obtain ⟨m, h, ⟨hva, hw⟩, -⟩ := exists_readOnly
  have hok : (copyout (pmStart + pageSize) 0x10000 [7] m).1 = 0 := by
    rcases copyout_result h rfl 0x10000 [7] with ⟨hr, -⟩ | ⟨-, hnot⟩
    · exact hr
    · exact absurd ((designates_page (by decide) (by decide)).mpr hva) hnot
  refine ⟨m, h, ⟨hva, hw⟩, hok, fun hresp => ?_⟩
  have hfail := (hresp [7] rfl (by decide) 0 (by decide) ⟨hva, hw⟩).1
  rw [hok] at hfail
  exact absurd hfail (by decide)

end NoobKernel.Vm
