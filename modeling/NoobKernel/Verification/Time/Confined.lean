import NoobKernel.Model.Time
import NoobKernel.Verification.UserCopy.Correctness

/-! # What the time system calls write -/

namespace NoobKernel.Time

open Library Vm List Outcome

variable {m m' : Memory} {pt va n req rem tbuf : ℕ} {answer : ℕ → List ℕ} {r : ℤ}

/-- The memory that the arguments of a call name; an address of zero leaves out an optional one. -/
def Call.args : Call → List (ℕ × ℕ)
  | .clockGettime _ tp => [(tp, 16)]
  | .gettimeofday tv _ => [(tv, 16)]
  | .nanosleep req rem => (req, 16) :: if rem ≠ 0 then [(rem, 16)] else []
  | .clockNanosleep _ _ req rem => (req, 16) :: if rem ≠ 0 then [(rem, 16)] else []
  | .times tbuf => if tbuf ≠ 0 then [(tbuf, 32)] else []

/-- A run changes pages of the user only, and fails without a change when an argument names other
memory. -/
structure Keeps (pt : ℕ) (m : Memory) (args : List (ℕ × ℕ))
    (run : List ℕ → Memory → Option (ℤ × Memory)) : Prop where
  writes : ∀ clock r m', run clock m = some (r, m') →
    ∀ x, byteAt x m' ≠ byteAt x m → OnUserPage pt m x
  faults : (∃ arg ∈ args, ¬ Designates pt m arg.1 arg.2) →
    ∀ clock, clock ≠ [] → run clock m = some (-efault, m)

def Confined (pt : ℕ) (m : Memory) (c : Call) : Prop := Keeps pt m c.args (c.run pt)

/-- A range that is of the user as a whole, or not from its first byte on. -/
def Whole (pt : ℕ) (m : Memory) (va n : ℕ) : Prop := Designates pt m va n ∨ ¬ UserVa pt m va

instance (pt : ℕ) (m : Memory) (va n : ℕ) : Decidable (Whole pt m va n) :=
  inferInstanceAs (Decidable (_ ∨ _))

/-! ## Answers -/

/-- A call that copies an answer to the user first is confined if the range is of the user, or if no
answer changes anything. -/
theorem keeps_copyout_iff {run : List ℕ → Memory → Option (ℤ × Memory)} (answer : ℕ → List ℕ)
    (h : Spaces m (· = pt))
    (hlen : ∀ now, (answer now).length = n) (hbytes : ∀ now, ∀ b ∈ answer now, b < 256)
    (hmem : ∀ clock r m', run clock m = some (r, m') → ∃ now, (copyout pt va (answer now) m).2 = m')
    (hfault : ∀ now clock, (copyout pt va (answer now) m).1 < 0 →
      run (now :: clock) m = some (-efault, (copyout pt va (answer now) m).2)) :
    Keeps pt m [(va, n)] run ↔
      Designates pt m va n ∨ ∀ now, (copyout pt va (answer now) m).2 = m := by
  have hneg : ¬ Designates pt m va n → ∀ now, (copyout pt va (answer now) m).1 < 0 :=
    fun hbad now => copyout_neg h (by rwa [hlen])
  constructor
  · refine fun hkeeps => or_iff_not_imp_left.mpr fun hbad now => ?_
    have hrun := hkeeps.faults ⟨(va, n), mem_cons_self, hbad⟩ [now] (by simp)
    rw [hfault now [] (hneg hbad now)] at hrun
    exact (some_mk_inj hrun).2
  · refine fun hsafe => ⟨fun clock r m' hr => ?_, ?_⟩
    · obtain ⟨now, rfl⟩ := hmem clock r m' hr
      exact copyout_writes h (hbytes now) va
    · rintro ⟨arg, harg, hbad⟩ clock hclock
      obtain rfl := mem_singleton.mp harg
      cases clock with
      | nil => exact absurd rfl hclock
      | cons now clock =>
        rw [hfault now clock (hneg hbad now), hsafe.resolve_left hbad now]

/-- A call that copies an answer to the user. -/
def report (va : ℕ) (answer : ℕ → List ℕ) (pt : ℕ) (clock : List ℕ) (m : Memory) :
    Option (ℤ × Memory) :=
  match clock with
  | [] => none
  | now :: _ =>
    let r := copyout pt va (answer now) m
    if r.1 < 0 then some (-efault, r.2) else some (0, r.2)

theorem keeps_report_iff (h : Spaces m (· = pt)) (hn : n ≤ pageSize)
    (hlen : ∀ now, (answer now).length = n) (hbytes : ∀ now, ∀ b ∈ answer now, b < 256)
    {now1 now2 : ℕ} (hdiff : (answer now1).head? ≠ (answer now2).head?) :
    Keeps pt m [(va, n)] (report va answer pt) ↔ Whole pt m va n := by
  rw [keeps_copyout_iff answer h hlen hbytes, Whole]
  · refine or_congr_right' fun hbad => ?_
    have hsame : ∀ now, (copyout pt va (answer now) m).2 = m ↔ _ := fun now =>
      copyout_same_iff h (by rwa [hlen]) ((hlen now).trans_le hn) (hbytes now)
    refine ⟨fun hall hva => hdiff ?_, fun hva now => (hsame now).mpr (fun hva' => absurd hva' hva)⟩
    -- the first byte of each answer is the one in the memory
    have hfirst : ∀ now,
      (answer now).head? = some (byteAt (walkaddr pt va m + va % pageSize) m) := by
      intro now
      rw [head?_eq_getElem?]
      exact (hsame now).mp (hall now) hva 0 (Nat.sub_pos_of_lt (Nat.mod_lt _ (by decide)))
    exact (hfirst now1).trans (hfirst now2).symm
  · intro clock r m' hr
    cases clock with
    | nil => cases hr
    | cons now clock =>
      refine ⟨now, ?_⟩
      rw [report] at hr
      split at hr <;> exact (some_mk_inj hr).2
  · exact fun now clock hneg => if_pos hneg

/-! ## `sys_times` -/

/-- The part of `tbuf` on its first page is zero. -/
def StartsZero (pt : ℕ) (m : Memory) (tbuf : ℕ) : Prop :=
  ∀ i < pageSize - tbuf % pageSize, byteAt (walkaddr pt tbuf m + tbuf % pageSize + i) m = 0

theorem keeps_times_iff (h : Spaces m (· = pt)) (tbuf : ℕ) :
    Keeps pt m (if tbuf ≠ 0 then [(tbuf, 32)] else []) (sysTimes tbuf pt) ↔
      tbuf = 0 ∨ Whole pt m tbuf 32 ∨ StartsZero pt m tbuf := by
  by_cases hnull : tbuf = 0
  · subst hnull
    refine iff_of_true ⟨?_, ?_⟩ (Or.inl rfl)
    · intro clock r m' hr x hx
      cases clock with
      | nil => cases hr
      | cons now clock =>
        obtain rfl := (some_mk_inj hr).2
        exact absurd rfl hx
    · rintro ⟨arg, harg, -⟩
      cases harg
  have hbytes : ∀ b ∈ List.replicate 32 0, b < 256 := by
    intro b hb
    rw [eq_of_mem_replicate hb]
    decide
  rw [if_pos hnull, keeps_copyout_iff (fun _ => List.replicate 32 0) h
    (fun _ => length_replicate) (fun _ => hbytes), or_iff_right hnull, Whole, or_assoc]
  · refine or_congr_right' fun hbad => ?_
    rw [forall_const, copyout_same_iff h (by rwa [length_replicate]) (by decide) hbytes,
      ← imp_iff_not_or]
    refine forall_congr' fun hva => forall₂_congr fun i hi => ?_
    have hshort : i < 32 := by
      by_contra hlong
      exact hbad ((designates_page (by omega) (by decide)).mpr hva)
    rw [getElem?_replicate_of_lt hshort, Option.some_inj, eq_comm]
  · intro clock r m' hr
    refine ⟨0, ?_⟩
    simp only [sysTimes, if_pos hnull] at hr
    split at hr
    · exact (some_mk_inj hr).2
    · cases clock with
      | nil => cases hr
      | cons now clock => exact (some_mk_inj hr).2
  · intro now clock hneg
    simp only [sysTimes, if_pos hnull, if_pos hneg]

/-! ## `sys_nanosleep` -/

theorem waitUntil_self (stop : ℕ) : waitUntil stop [stop] = some [] := by
  rw [waitUntil, if_neg (lt_irrefl stop)]

theorem sysNanosleep_mem {clock : List ℕ} (hreq : Designates pt m req 16)
    (hr : sysNanosleep req rem pt clock m = some (r, m')) :
    m' = if rem ≠ 0 then memset rem 0 16 m else m := by
  unfold sysNanosleep at hr
  dsimp only at hr
  rcases copyin_result pt req 16 m with ⟨hzero, -⟩ | ⟨-, hnot⟩
  · rw [hzero, if_neg (lt_irrefl 0)] at hr
    cases clock with
    | nil => cases hr
    | cons start clock =>
      dsimp only at hr
      split at hr
      · cases hr
      split at hr
      next hrem => rw [if_pos hrem, (some_mk_inj hr).2]
      next hrem => rw [if_neg hrem, (some_mk_inj hr).2]
  · exact absurd hreq hnot

theorem sysNanosleep_wakes (hreq : Designates pt m req 16) (hrem : rem ≠ 0) :
    ∃ clock, clock ≠ [] ∧ sysNanosleep req rem pt clock m = some (0, memset rem 0 16 m) := by
  rcases copyin_result pt req 16 m with ⟨hzero, -⟩ | ⟨-, hnot⟩
  · obtain ⟨stop, hstop⟩ : ∃ stop, ∀ clock rest, waitUntil stop clock = some rest →
        sysNanosleep req rem pt (0 :: clock) m = some (0, memset rem 0 16 m) := by
      refine ⟨(0 + nsToCputime ((ofU64 ((copyin pt req 16 m).2.take 8) * 1000000000 +
        ofU64 ((copyin pt req 16 m).2.drop 8)) % wordSize)) % wordSize, fun clock rest hwait => ?_⟩
      unfold sysNanosleep
      dsimp only
      rw [hzero, if_neg (lt_irrefl 0), hwait]
      exact if_pos hrem
    exact ⟨[0, stop], by simp, hstop [stop] [] (waitUntil_self stop)⟩
  · exact absurd hreq hnot

theorem byteAt_memset (hfit : rem + n ≤ wordSize) {i : ℕ} (hi : i < n) :
    byteAt (rem + i) (memset rem 0 n m) = 0 := by
  have hstored : byteAt (rem + i) (memcpy rem (List.replicate n 0) m) = _ :=
    byteAt_memcpy (fun b hb => by rw [eq_of_mem_replicate hb]; decide)
      (by rwa [length_replicate]) i (by rwa [length_replicate])
  rw [memset, hstored, get_eq_getElem, getElem_replicate]

/-- The bytes at the address `rem` itself are zero or on pages of the user. -/
def ClearsUser (pt : ℕ) (m : Memory) (rem : ℕ) : Prop :=
  ∀ i < 16, byteAt (rem + i) m = 0 ∨ OnUserPage pt m (rem + i)

theorem keeps_nanosleep_iff (req rem : ℕ) :
    Keeps pt m ((req, 16) :: if rem ≠ 0 then [(rem, 16)] else []) (sysNanosleep req rem pt) ↔
      ¬ Designates pt m req 16 ∨ rem = 0 ∨ Designates pt m rem 16 ∧ ClearsUser pt m rem := by
  by_cases hreq : Designates pt m req 16
  swap
  · have hrun : ∀ clock, sysNanosleep req rem pt clock m = some (-efault, m) := by
      intro clock
      rcases copyin_result pt req 16 m with ⟨-, hreq', -⟩ | ⟨hneg, -⟩
      · exact absurd hreq' hreq
      · unfold sysNanosleep
        dsimp only
        rw [hneg, if_pos (by decide)]
    refine iff_of_true ⟨fun clock r m' hr x hx => ?_, fun _ clock _ => hrun clock⟩ (Or.inl hreq)
    obtain rfl := (some_mk_inj ((hrun clock).symm.trans hr)).2
    exact absurd rfl hx
  by_cases hnull : rem = 0
  · refine iff_of_true ⟨fun clock r m' hr x hx => ?_, ?_⟩ (Or.inr (Or.inl hnull))
    · rw [sysNanosleep_mem hreq hr, if_neg (not_not.mpr hnull)] at hx
      exact absurd rfl hx
    · simp [hnull, hreq]
  rw [if_pos hnull, or_iff_right (not_not.mpr hreq), or_iff_right hnull]
  have hfits : Designates pt m rem 16 → rem + 16 ≤ wordSize := by
    intro hall
    have hlt := (hall 0 (by decide)).1
    norm_num at hlt ⊢
    omega
  constructor
  · intro hkeeps
    obtain ⟨clock, hclock, hrun⟩ := sysNanosleep_wakes hreq hnull
    have hdes : Designates pt m rem 16 := by
      by_contra hbad
      have hfault := hkeeps.faults ⟨(rem, 16), by simp, hbad⟩ clock hclock
      rw [hrun] at hfault
      exact absurd (some_mk_inj hfault).1 (by decide)
    refine ⟨hdes, fun i hi => or_iff_not_imp_left.mpr fun hzero => ?_⟩
    refine hkeeps.writes clock 0 _ hrun (rem + i) ?_
    rw [byteAt_memset (hfits hdes) hi]
    exact fun heq => hzero heq.symm
  · rintro ⟨hdes, hclears⟩
    have hfit := hfits hdes
    refine ⟨fun clock r m' hr x hx => ?_, by simp [hreq, hdes]⟩
    rw [sysNanosleep_mem hreq hr, if_pos hnull] at hx
    -- the changed byte is one of the sixteen, and it was not zero
    obtain ⟨i, hi, rfl⟩ : ∃ i < 16, x = rem + i := by
      by_contra hnone
      refine hx (byteAt_memcpy_of_ne (fun b hb => by rw [eq_of_mem_replicate hb]; decide)
        (fun i hi heq => hnone ⟨i, ?_, ?_⟩) (by omega))
      · rwa [length_replicate] at hi
      · rw [length_replicate] at hi
        rw [heq, Nat.mod_eq_of_lt (by omega)]
    rw [byteAt_memset hfit hi] at hx
    exact (hclears i hi).resolve_left (fun hzero => hx hzero.symm)

/-! ## All calls -/

/-- When a call is confined. -/
def Call.Safe (pt : ℕ) (m : Memory) : Call → Prop
  | .clockGettime _ tp => Whole pt m tp 16
  | .gettimeofday tv _ => Whole pt m tv 16
  | .nanosleep req rem =>
    ¬ Designates pt m req 16 ∨ rem = 0 ∨ Designates pt m rem 16 ∧ ClearsUser pt m rem
  | .clockNanosleep _ _ req rem =>
    ¬ Designates pt m req 16 ∨ rem = 0 ∨ Designates pt m rem 16 ∧ ClearsUser pt m rem
  | .times tbuf => tbuf = 0 ∨ Whole pt m tbuf 32 ∨ StartsZero pt m tbuf

theorem lt_of_mem_u64 {b v w : ℕ} (hb : b ∈ u64 v ++ u64 w) : b < 256 := by
  rcases mem_append.mp hb with hb | hb <;> exact lt_of_mem_bytes hb

theorem length_u64 (v w : ℕ) : (u64 v ++ u64 w).length = 16 := by
  rw [length_append, u64, u64, length_bytes, length_bytes]

/-- The time system calls write to pages of the user only, and fail on other memory. -/
theorem time_calls_confined_iff (h : Spaces m (· = pt)) (c : Call) :
    Confined pt m c ↔ c.Safe pt m := by
  cases c with
  | clockGettime clkid tp =>
    have hdiff : (u64 (cputimeToNs 0 / 1000000000) ++ u64 (cputimeToNs 0 % 1000000000)).head? ≠
        (u64 (cputimeToNs 10000000 / 1000000000) ++
          u64 (cputimeToNs 10000000 % 1000000000)).head? := by
      decide
    exact keeps_report_iff h (by decide) (fun _ => length_u64 _ _) (fun _ _ => lt_of_mem_u64) hdiff
  | gettimeofday tv tz =>
    have hdiff : (u64 (0 / timebaseFreq) ++
          u64 (0 % timebaseFreq * 1000000 % wordSize / timebaseFreq)).head? ≠
        (u64 (10000000 / timebaseFreq) ++
          u64 (10000000 % timebaseFreq * 1000000 % wordSize / timebaseFreq)).head? := by
      decide
    exact keeps_report_iff h (by decide) (fun _ => length_u64 _ _) (fun _ _ => lt_of_mem_u64) hdiff
  | nanosleep req rem | clockNanosleep clockid flags req rem => exact keeps_nanosleep_iff req rem
  | times tbuf => exact keeps_times_iff h tbuf

theorem exists_page : ∃ m, Spaces m (· = pmStart + pageSize) ∧
    Designates (pmStart + pageSize) m 0x10000 16 ∧ byteAt (pmStart + pageSize) m ≠ 0 := by
  obtain ⟨m, h, hva, hbyte⟩ := exists_mapped (fun m => UserVa (pmStart + pageSize) m 0x10000 ∧
      byteAt (pmStart + pageSize) m ≠ 0)
    (show (sysMmap 0 pageSize 3 0x22 (-1) 0 1 (emptyProcess 0)).checks _ = true by decide +kernel)
  exact ⟨m, h, (designates_page (by decide) (by decide)).mpr hva, hbyte⟩

/-- A sleep that reports nothing. -/
theorem time_calls_confined_without_rem : ∃ m, Spaces m (· = pmStart + pageSize) ∧
    Designates (pmStart + pageSize) m 0x10000 16 ∧
    Confined (pmStart + pageSize) m (.nanosleep 0x10000 0) := by
  obtain ⟨m, hspaces, hreq, -⟩ := exists_page
  exact ⟨m, hspaces, hreq, (time_calls_confined_iff hspaces _).mpr (Or.inr (Or.inl rfl))⟩

/-- `sys_nanosleep` clears the start of the page table whose address it is given. -/
theorem nanosleep_clears_table : ∃ m clock m', Spaces m (· = pmStart + pageSize) ∧
    ¬ Designates (pmStart + pageSize) m (pmStart + pageSize) 16 ∧
    (Call.nanosleep 0x10000 (pmStart + pageSize)).run (pmStart + pageSize) clock m = some (0, m') ∧
    byteAt (pmStart + pageSize) m' ≠ byteAt (pmStart + pageSize) m ∧
    ¬ Confined (pmStart + pageSize) m (.nanosleep 0x10000 (pmStart + pageSize)) := by
  obtain ⟨m, hspaces, hreq, hbyte⟩ := exists_page
  obtain ⟨clock, hclock, hrun⟩ := sysNanosleep_wakes hreq (show pmStart + pageSize ≠ 0 by decide)
  have hbad : ¬ Designates (pmStart + pageSize) m (pmStart + pageSize) 16 :=
    fun hall => absurd (hall 0 (by decide)).1 (by decide)
  have hzero : byteAt (pmStart + pageSize + 0) (memset (pmStart + pageSize) 0 16 m) = 0 :=
    byteAt_memset (by decide) (by decide)
  refine ⟨m, clock, _, hspaces, hbad, hrun, ?_, fun hconf => ?_⟩
  · rw [Nat.add_zero] at hzero
    rw [hzero]
    exact hbyte.symm
  · have hfault := hconf.faults ⟨(pmStart + pageSize, 16), by decide, hbad⟩ clock hclock
    change sysNanosleep _ _ _ _ _ = _ at hfault
    rw [hrun] at hfault
    exact absurd (some_mk_inj hfault).1 (by decide)

/-! ## Clocks -/

open Nat

variable {t t1 t2 start : ℕ} {clock : List ℕ}

def clockTime (t : ℕ) : ℕ × ℕ := (cputimeToNs t / 1000000000, cputimeToNs t % 1000000000)

def dayTime (t : ℕ) : ℕ × ℕ :=
  (t / timebaseFreq, t % timebaseFreq * 1000000 % wordSize / timebaseFreq)

example (tp now : ℕ) : sysClockGettime tp pt (now :: clock) m = report tp
    (fun t => u64 (clockTime t).1 ++ u64 (clockTime t).2) pt (now :: clock) m := rfl

example (tv now : ℕ) : sysGettimeofday tv pt (now :: clock) m = report tv
    (fun t => u64 (dayTime t).1 ++ u64 (dayTime t).2) pt (now :: clock) m := rfl

def clockNs (t : ℕ) : ℕ := (clockTime t).1 * 1000000000 + (clockTime t).2

def dayNs (t : ℕ) : ℕ := (dayTime t).1 * 1000000000 + (dayTime t).2 * 1000

/-- The clock does not go back between two readings of the timer, and agrees with the time of day
up to a microsecond. -/
structure ClockRight (t1 t2 : ℕ) : Prop where
  mono : clockNs t1 ≤ clockNs t2
  nsec : (clockTime t1).2 < 1000000000 ∧ (clockTime t2).2 < 1000000000
  agree : ∀ t ∈ [t1, t2], clockNs t ≤ dayNs t + 1000 ∧ dayNs t ≤ clockNs t + 1000

theorem clockNs_eq (t : ℕ) : clockNs t = cputimeToNs t := div_add_mod' _ _

theorem cputimeToNs_eq (h : t * 1000000000 < wordSize) : cputimeToNs t = t * 100 := by
  rw [cputimeToNs, mod_eq_of_lt h]
  norm_num
  omega

theorem dayNs_bounds (t : ℕ) : dayNs t ≤ t * 100 ∧ t * 100 < dayNs t + 1000 := by
  unfold dayNs dayTime
  rw [mod_eq_of_lt (by norm_num; omega)]
  norm_num
  omega

theorem cputimeToNs_lt (h : ¬ t * 1000000000 < wordSize) : cputimeToNs t + 2000 < t * 100 := by
  have hmod : t * 1000000000 % wordSize + wordSize ≤ t * 1000000000 := by
    rw [mod_eq_sub_mod (not_lt.mp h)]
    have := mod_le (t * 1000000000 - wordSize) wordSize
    omega
  have hdiv := div_mul_le_self (t * 1000000000 % wordSize) timebaseFreq
  rw [← cputimeToNs] at hdiv
  norm_num at hmod hdiv
  omega

/-! ## `sys_nanosleep` -/

def requested (pt req : ℕ) (m : Memory) : ℕ :=
  ofU64 ((copyin pt req 16 m).2.take 8) * 1000000000 + ofU64 ((copyin pt req 16 m).2.drop 8)

/-- The reading `now` with which a call returns that has started at `start` is late enough. -/
def SleepRight (pt req rem start : ℕ) (m : Memory) : Prop :=
  ∀ waited now, start ≤ now → now < wordSize →
    sysNanosleep req rem pt (start :: waited) m = none →
    sysNanosleep req rem pt (start :: (waited ++ [now])) m ≠ none →
      requested pt req m ≤ (now - start) * 100

theorem waitUntil_eq_none {stop : ℕ} : waitUntil stop clock = none ↔ ∀ now ∈ clock, now < stop := by
  induction clock with
  | nil => simp [waitUntil]
  | cons now clock ih =>
    rw [waitUntil, forall_mem_cons]
    split
    next hlt => rw [ih, and_iff_right hlt]
    next hle => simp [hle]

theorem sysNanosleep_eq_none (hreq : (copyin pt req 16 m).1 = 0) :
    sysNanosleep req rem pt (start :: clock) m = none ↔ ∀ now ∈ clock,
      now < (start + nsToCputime (requested pt req m % wordSize)) % wordSize := by
  rw [← waitUntil_eq_none, requested]
  unfold sysNanosleep
  dsimp only
  rw [hreq, if_neg (lt_irrefl 0)]
  split
  next hnone => simp [hnone]
  next hsome =>
    rw [hsome]
    split <;> simp

theorem nsToCputime_iff (ns : ℕ) : nsToCputime (ns % wordSize) < wordSize ∧
    nsToCputime (ns % wordSize) * 100 ≤ ns ∧ (nsToCputime (ns % wordSize) * 100 = ns ↔
      100 ∣ ns ∧ ns * timebaseFreq < wordSize) := by
  have hle := mod_le ns wordSize
  have hle' := mod_le (ns % wordSize * timebaseFreq) wordSize
  have hdiv := div_mul_le_self (ns % wordSize * timebaseFreq % wordSize) 1000000000
  rw [← nsToCputime] at hdiv
  have hlt : ns % wordSize * timebaseFreq % wordSize < wordSize := mod_lt _ (by decide)
  refine ⟨lt_of_le_of_lt (div_le_self _ _) hlt, by norm_num at hdiv hle' hle ⊢; omega,
    fun heq => ?_, fun ⟨hdvd, hfit⟩ => ?_⟩
  · refine ⟨⟨_, (mul_comm _ _).trans heq |>.symm⟩, ?_⟩
    norm_num at hdiv hle' hle hlt heq ⊢
    omega
  · have hns : ns < wordSize := by norm_num at hfit ⊢; omega
    rw [nsToCputime, mod_eq_of_lt hns, mod_eq_of_lt hfit]
    norm_num
    omega

/-- The clock is right exactly for readings whose nanoseconds fit into a word, and a sleep is long
enough exactly if its interval is a number of ticks that fits into a word, with its end. -/
theorem clock_law_iff (rem : ℕ) (ht : t1 ≤ t2) (hreq : (copyin pt req 16 m).1 = 0)
    (hstart : start < wordSize) :
    (ClockRight t1 t2 ↔ t2 * 1000000000 < wordSize) ∧
      (SleepRight pt req rem start m ↔ 100 ∣ requested pt req m ∧
        requested pt req m * timebaseFreq < wordSize ∧
        start + requested pt req m / 100 < wordSize) := by
  refine ⟨⟨fun h => ?_, fun h => ?_⟩, ?_⟩
  · by_contra hover
    have hagree := (h.agree t2 (by simp)).2
    have hlt := cputimeToNs_lt hover
    have hday := dayNs_bounds t2
    rw [clockNs_eq] at hagree
    omega
  · have hexact : ∀ t ≤ t2, clockNs t = t * 100 := by
      intro t hle
      rw [clockNs_eq, cputimeToNs_eq (lt_of_le_of_lt (mul_le_mul_right _ hle) h)]
    refine ⟨?_, ⟨mod_lt _ (by decide), mod_lt _ (by decide)⟩, fun t hmem => ?_⟩
    · rw [hexact t1 ht, hexact t2 le_rfl]
      omega
    · have hday := dayNs_bounds t
      rw [hexact t (by simp at hmem; omega)]
      omega
  obtain ⟨hlt, hle, hiff⟩ := nsToCputime_iff (requested pt req m)
  simp only [SleepRight, ne_eq, sysNanosleep_eq_none hreq]
  generalize requested pt req m = ns at hlt hle hiff ⊢
  generalize nsToCputime (ns % wordSize) = ticks at hlt hle hiff ⊢
  constructor
  · intro h
    have hwrap : start + ticks < wordSize := by
      by_contra hover
      -- the end lies before the start, at which the call returns
      have hstop : (start + ticks) % wordSize ≤ start := by
        rw [mod_eq_sub_mod (not_lt.mp hover)]
        exact (mod_le _ _).trans (by omega)
      have hends := h [] start le_rfl hstart (by simp) (by simpa using hstop)
      omega
    have hends := h [] (start + ticks) (le_add_right _ _) hwrap (by simp)
      (by simpa using mod_le _ _)
    have heq : ticks * 100 = ns := by omega
    exact ⟨(hiff.mp heq).1, (hiff.mp heq).2, by omega⟩
  · rintro ⟨hdvd, hfit, hend⟩ waited now hnow - hwaited hends
    have heq := hiff.mpr ⟨hdvd, hfit⟩
    have hstop : (start + ticks) % wordSize ≤ now := by
      refine not_lt.mp fun hstop => hends ?_
      simpa [or_imp, forall_and, hstop] using hwaited
    rw [mod_eq_of_lt (by omega)] at hstop
    omega

/-- Readings after one and after three seconds, and a sleep of two seconds and 500 nanoseconds. -/
theorem clock_law_seconds : ∃ m, requested (pmStart + pageSize) 0x10000 m = 2000000500 ∧
    ClockRight 10000000 30000000 ∧ SleepRight (pmStart + pageSize) 0x10000 0 10000000 m := by
  obtain ⟨m, -, hreq, hns⟩ := exists_mapped (fun m =>
      let m' := (copyout (pmStart + pageSize) 0x10000 (u64 2 ++ u64 500) m).2
      (copyin (pmStart + pageSize) 0x10000 16 m').1 = 0 ∧
        requested (pmStart + pageSize) 0x10000 m' = 2000000500)
    (show (sysMmap 0 pageSize 3 0x22 (-1) 0 1 (emptyProcess 0)).checks _ = true by decide +kernel)
  obtain ⟨hclock, hsleep⟩ := clock_law_iff 0 (show 10000000 ≤ 30000000 by decide) hreq
    (show 10000000 < wordSize by decide)
  refine ⟨_, hns, hclock.mpr (by decide), hsleep.mpr ?_⟩
  rw [hns]
  decide

/-- The clock after 30 minutes and 45 seconds. -/
theorem clock_goes_back : ¬ ClockRight 18446744073 18446744074 := by
  intro h
  have hmono := h.mono
  revert hmono
  decide

end NoobKernel.Time
