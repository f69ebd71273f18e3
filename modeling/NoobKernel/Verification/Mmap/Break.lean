import NoobKernel.Verification.Mmap.Calls
import NoobKernel.Verification.Mmap.Child

/-! # The break and mapped ranges

`brk_end` is the program break and the mark up to which `sys_mmap` has placed ranges. The two uses
keep out of each other's way as long as no range is placed above the break and the break does not
go down over one. -/

namespace NoobKernel.Vm

open Library Outcome Nat List

variable {x : ℕ} {c : Call}

/-- What the calls so far have mapped: the pages of `sys_brk`, the pages of `sys_mmap` with their
frames, and the highest end of a range that `sys_mmap` has placed. -/
structure History where
  byBrk : ℕ → Prop
  byMmap : ℕ → Option ℕ
  floor : ℕ

/-- Whether a range of `sys_munmap` covers part of the page of an address. -/
def Covers (addr len va : ℕ) : Prop :=
  va / pageSize * pageSize < addr + pageAlignUp len ∧ addr < (va / pageSize + 1) * pageSize

instance (addr len va : ℕ) : Decidable (Covers addr len va) := inferInstanceAs (Decidable (_ ∧ _))

def Call.isBrk : Call → Bool
  | .brk _ => true
  | _ => false

/-- The end of the range that a call places. -/
def Call.placedEnd (p : ℕ) (s : State) : Call → ℕ
  | .mmap addr len _ flags _ _ =>
    match mmapStart (s.proc p).pagetable addr (pageAlignUp len) flags (s.proc p).brkEnd s.mem with
    | some start => start + pageAlignUp len
    | none => 0
  | _ => 0

def History.after (g : History) (p : ℕ) (call : Call) (r : ℤ) (s s' : State) : History where
  byBrk va := IsMapped (s.proc p).pagetable va s'.mem ∧
    (g.byBrk va ∨ call.isBrk = true ∧ ¬ IsMapped (s.proc p).pagetable va s.mem)
  byMmap va :=
    match call with
    | .mmap .. =>
      if 0 ≤ r ∧ IsMapped (s.proc p).pagetable va s'.mem ∧ ¬ IsMapped (s.proc p).pagetable va s.mem
      then some (frameOf (s.proc p).pagetable va s'.mem)
      else g.byMmap va
    | .munmap addr len => if Covers addr len va then none else g.byMmap va
    | _ => g.byMmap va
  floor := max g.floor (call.placedEnd p s)

/-- Runs of a process whose calls all meet a condition. -/
inductive CallRun (Ok : History → State → Call → Prop) (p : ℕ) (s0 : State) :
    State → History → Prop
  | start : CallRun Ok p s0 s0 ⟨fun _ => False, fun _ => none, brkOf s0 p⟩
  | call {s s' : State} {g : History} (c : Call) (r : ℤ) : CallRun Ok p s0 s g → Ok g s c →
      c.run p s = .ok (r, s') → CallRun Ok p s0 s' (g.after p c r s s')

/-- Calls that keep the break and mapped ranges apart: the break stays between the ranges that
`sys_mmap` has placed and `top`, and `sys_mmap` finds its range below the break. -/
def KeepsApart (p top : ℕ) (g : History) (s : State) : Call → Prop
  | .brk addr => addr = 0 ∨ g.floor ≤ addr ∧ addr ≤ top
  | .mmap addr len prot flags fd offset => flags &&& mapFixed = 0 ∧
      (Call.mmap addr len prot flags fd offset).placedEnd p s ≤ (s.proc p).brkEnd
  | .munmap _ _ => True
  | .mprotect _ _ _ => False

/-- A process that is alone and has no page between its break and `top`. -/
structure HeapReady (s : State) (p top : ℕ) : Prop where
  alone : Alone s p
  space : Space s.mem (s.proc p).pagetable
  aligned : pageSize ∣ top
  below : top ≤ vmEnd
  brk : brkOf s p ≤ top
  empty : ∀ va, pageAlignUp (brkOf s p) ≤ va → va < top → ¬ IsMapped (s.proc p).pagetable va s.mem

variable {s s' s0 : State} {g : History} {p top va : ℕ} {r : ℤ}

theorem HeapReady.space_mmap (h : HeapReady s p top)
    (hr : sysMmap addr len prot flags fd offset p s = .ok (r, s')) :
    SameKin s s' ∧ Space s'.mem (s.proc p).pagetable := by
  have hteam := h.alone.team h.space
  obtain ⟨hkin, heffect⟩ := hteam.sysMmap mem_cons_self (h.alone.supplied _) hr
  refine ⟨hkin, ?_⟩
  cases heffect with
  | failed _ hmem _ => exact hmem ▸ h.space
  | placed _ _ hchanges _ => exact hchanges.mirrored.space (hteam.table_mem mem_cons_self)

/-- What holds in every state of a run that keeps the two apart. -/
structure HeapInv (p top : ℕ) (s : State) (g : History) : Prop where
  alone : Alone s p
  space : Space s.mem (s.proc p).pagetable
  floor : g.floor ≤ brkOf s p
  brk : brkOf s p ≤ top
  heap : ∀ va, IsPageVa va → pageAlignUp g.floor ≤ va → va < top →
    IsMapped (s.proc p).pagetable va s.mem → g.byBrk va
  mapped : ∀ va f, IsPageVa va → g.byMmap va = some f → va < g.floor ∧
    IsMapped (s.proc p).pagetable va s.mem ∧ frameOf (s.proc p).pagetable va s.mem = f

theorem HeapInv.team (h : HeapInv p top s g) : Team s p [p] := h.alone.team h.space

theorem HeapInv.own (h : HeapInv p top s g) : (s.proc p).pagetable ∈ tables s p :=
  h.team.table_mem mem_cons_self

/-! ## Arithmetic of ranges -/

theorem pageAlignUp_eq_of_lt (h : x + (pageSize - 1) < wordSize) :
    pageAlignUp x = (x + 4095) / 4096 * 4096 := by
  unfold pageAlignUp alignUp
  rw [mod_eq_of_lt h, alignDown_two_pow h (by decide)]
  norm_num

theorem pageAlignUp_eq (h : x ≤ vmEnd) : pageAlignUp x = (x + 4095) / 4096 * 4096 := by
  refine pageAlignUp_eq_of_lt ?_
  norm_num at h ⊢
  omega

theorem pageAlignUp_mono {y : ℕ} (h : x ≤ y) (hy : y ≤ vmEnd) : pageAlignUp x ≤ pageAlignUp y := by
  rw [pageAlignUp_eq (le_trans h hy), pageAlignUp_eq hy]
  omega

theorem le_pageAlignUp (h : x ≤ vmEnd) : x ≤ pageAlignUp x := by
  rw [pageAlignUp_eq h]
  omega

theorem pageAlignUp_le (htop : pageSize ∣ top) (hle : top ≤ vmEnd) (h : x ≤ top) :
    pageAlignUp x ≤ top := by
  rw [pageAlignUp_eq (le_trans h hle)]
  norm_num at htop
  omega

theorem IsPageVa.le_of_vpn {a : ℕ} (hva : IsPageVa va) (ha : a < vmEnd) (h : vpn va = vpn a) :
    va / pageSize = a / pageSize ∧ va ≤ a := by
  obtain ⟨hdvd, hlt⟩ := hva
  unfold vpn at h
  norm_num at h hdvd hlt ha ⊢
  omega

theorem IsPageVa.eq_of_vpn {a start stop : ℕ} (hva : IsPageVa va) (hstart : pageSize ∣ start)
    (hmem : a ∈ pages start stop) (ha : a < vmEnd) (h : vpn va = vpn a) : va = a := by
  obtain ⟨k, rfl, -⟩ := mem_pages.mp hmem
  have hdvd : pageSize ∣ start + k * pageSize := Nat.dvd_add hstart (Dvd.intro_left k rfl)
  exact vpn_inj hva.1 hdvd hva.2 (lt_trans ha (by decide)) h

theorem dvd_pageAlignUp (h : x ≤ vmEnd) : pageSize ∣ pageAlignUp x := by
  rw [pageAlignUp_eq h]
  exact Dvd.intro_left _ rfl

/-! ## The calls -/

section Step

variable (hbelow : top ≤ vmEnd) (haligned : pageSize ∣ top) (h : HeapInv p top s g)

theorem brkOf_eq_of_ne {b : ℕ} (hb : b ≠ 0) (h : (s.proc p).brkEnd = b) : brkOf s p = b := by
  rw [brkOf, h, if_neg hb]

include hbelow h

theorem HeapInv.after (hkin : SameKin s s') (hspace : Space s'.mem (s.proc p).pagetable)
    (hfloor : max g.floor (c.placedEnd p s) ≤ brkOf s' p) (hbrk : brkOf s' p ≤ top)
    (hheap : ∀ va, IsPageVa va → pageAlignUp (max g.floor (c.placedEnd p s)) ≤ va →
      IsMapped (s.proc p).pagetable va s'.mem →
      IsMapped (s.proc p).pagetable va s.mem ∨ c.isBrk = true)
    (hmapped : ∀ va f, IsPageVa va → (g.after p c r s s').byMmap va = some f →
      va < max g.floor (c.placedEnd p s) ∧ IsMapped (s.proc p).pagetable va s'.mem ∧
        frameOf (s.proc p).pagetable va s'.mem = f) :
    HeapInv p top s' (g.after p c r s s') := by
  have hroot := hkin.pagetable p
  have hmax := le_trans hfloor (le_trans hbrk hbelow)
  refine ⟨h.alone.of_kin hkin, by rwa [hroot], hfloor, hbrk, ?_, by rwa [hroot]⟩
  intro va hva hlow hhigh hv
  rw [hroot] at hv
  refine ⟨hv, ?_⟩
  by_cases hold : IsMapped (s.proc p).pagetable va s.mem
  · exact Or.inl (h.heap va hva (le_trans (pageAlignUp_mono (le_max_left _ _) hmax) hlow) hhigh hold)
  · exact Or.inr ⟨(hheap va hva hlow hv).resolve_left hold, hold⟩

/-- `sys_mmap` below the break keeps the two apart and the break where it is. -/
theorem HeapInv.sysMmap {addr len prot flags offset : ℕ} {fd : ℤ}
    (hok : KeepsApart p top g s (.mmap addr len prot flags fd offset))
    (hr : sysMmap addr len prot flags fd offset p s = .ok (r, s')) :
    HeapInv p top s' (g.after p (.mmap addr len prot flags fd offset) r s s') ∧
      brkOf s' p = brkOf s p := by
  obtain ⟨hflags, hend⟩ := hok
  obtain ⟨hkin, heffect⟩ := h.team.sysMmap mem_cons_self (h.alone.supplied _) hr
  have hle : (s.proc p).brkEnd ≤ brkOf s p := by
    unfold brkOf
    split
    · omega
    · exact le_rfl
  have hfloor : max g.floor ((Call.mmap addr len prot flags fd offset).placedEnd p s) ≤ brkOf s p :=
    max_le h.floor (le_trans hend hle)
  have hspace : Adds (tables s p)
      (fun va => va < (Call.mmap addr len prot flags fd offset).placedEnd p s ∨ ¬ IsPageVa va)
      s.mem s'.mem ∧ (s'.proc p).brkEnd = (s.proc p).brkEnd := by
    cases heffect with
    | failed _ hmem hbrk =>
      rw [hmem]
      exact ⟨Changes.refl h.team.mirrored, hbrk⟩
    | placed start hstart hadds hres =>
      have hplaced : (Call.mmap addr len prot flags fd offset).placedEnd p s =
          start + pageAlignUp len := by
        rw [Call.placedEnd, hstart]
      rw [hplaced] at hend ⊢
      have hlt : start + pageAlignUp len < vmEnd + 1 := by
        have := h.brk
        omega
      have hstop : (start + pageAlignUp len) % wordSize = start + pageAlignUp len :=
        mod_eq_of_lt (lt_trans hlt (by decide))
      rw [hstop] at hadds hres
      have hnot : ¬ Replaces flags fd := fun hrep => hrep.1 hflags
      rw [decide_eq_true hnot] at hadds
      refine ⟨hadds.mono ?_, ?_⟩
      · rintro va ⟨a, hmem, hvpn⟩
        have ha := (lt_of_mem_pages hmem).2
        by_cases hva : IsPageVa va
        · have hle := (hva.le_of_vpn (by omega) hvpn).2
          exact Or.inl (lt_of_le_of_lt hle ha)
        · exact Or.inr hva
      · rcases hres with ⟨-, hbrk⟩ | ⟨-, hbrk⟩
        · exact hbrk
        · rw [hbrk]
          exact max_eq_left hend
  obtain ⟨hadds, hbrk⟩ := hspace
  have hbrk' : brkOf s' p = brkOf s p := by rw [brkOf, hbrk, brkOf]
  -- new pages are below the end of the range
  have hnew : ∀ va, IsPageVa va → IsMapped (s.proc p).pagetable va s'.mem →
      ¬ IsMapped (s.proc p).pagetable va s.mem →
      va < (Call.mmap addr len prot flags fd offset).placedEnd p s := by
    intro va hva hv hold
    by_contra hge
    have hsame := hadds.outside h.own fun hor => hor.elim hge (fun hnot => hnot hva)
    rw [IsMapped, hsame] at hv
    exact hold hv
  refine ⟨h.after hbelow hkin (hadds.mirrored.space h.own) (by rwa [hbrk'])
    (by rw [hbrk']; exact h.brk) ?_ ?_, hbrk'⟩
  · intro va hva hlow hv
    by_cases hold : IsMapped (s.proc p).pagetable va s.mem
    · exact Or.inl hold
    · have hlt := hnew va hva hv hold
      have hup := le_pageAlignUp (le_trans hfloor (le_trans h.brk hbelow))
      omega
  · intro va f hva hf
    dsimp only [History.after] at hf
    split at hf
    · rename_i hcond
      obtain rfl := Option.some.inj hf
      exact ⟨lt_of_lt_of_le (hnew va hva hcond.2.1 hcond.2.2) (le_max_right _ _), hcond.2.1, rfl⟩
    · obtain ⟨hvalt, hv, hframe⟩ := h.mapped va f hva hf
      rw [IsMapped, frameOf, hadds.valid h.own hv]
      exact ⟨lt_of_lt_of_le hvalt (le_max_left _ _), hv, hframe⟩

theorem HeapInv.sysMunmap {addr len : ℕ} (hr : sysMunmap addr len p s = .ok (r, s')) :
    HeapInv p top s' (g.after p (.munmap addr len) r s s') := by
  obtain ⟨hproc, hdrops⟩ := h.team.sysMunmap mem_cons_self hr
  have hbrk : brkOf s' p = brkOf s p := by rw [brkOf, hproc, brkOf]
  have hmax : max g.floor ((Call.munmap addr len).placedEnd p s) = g.floor :=
    max_eq_left (zero_le _)
  refine h.after hbelow (SameKin.of_proc hproc) (hdrops.mirrored.space h.own)
    (by rw [hmax, hbrk]; exact h.floor) (by rw [hbrk]; exact h.brk) ?_ ?_
  · intro va _ _ hv
    left
    rwa [IsMapped, ← hdrops.of_mapped h.own hv]
  · intro va f hva hf
    dsimp only [History.after] at hf
    split at hf
    · cases hf
    rename_i hcover
    obtain ⟨hvalt, hv, hframe⟩ := h.mapped va f hva hf
    -- a page outside the range keeps its entry
    have hsame : pteOf (s.proc p).pagetable va s'.mem = pteOf (s.proc p).pagetable va s.mem := by
      refine hdrops.same _ h.own va ?_
      rintro ⟨a, hmem, hvpn, huser | hres⟩
      · obtain ⟨hlow, hhigh⟩ := lt_of_mem_pages hmem
        have hpage := (hva.le_of_vpn huser.1 hvpn).1
        have hmod := mod_le (addr + pageAlignUp len) wordSize
        refine hcover ⟨?_, ?_⟩
        · rw [hpage]
          have hdiv := div_mul_le_self a pageSize
          omega
        · rw [hpage, add_mul, one_mul]
          have hdiv := lt_div_mul_add (a := a) (b := pageSize) (by decide)
          omega
      · exact hres (h.space.clean va hv)
    rw [hmax, IsMapped, frameOf, hsame]
    exact ⟨hvalt, hv, hframe⟩

include haligned

theorem HeapInv.down {addr a : ℕ} (hfloor : g.floor ≤ addr) (haddr : addr < brkOf s p)
    (hva : IsPageVa va) (hmem : a ∈ pages (pageAlignUp addr) (pageAlignUp (brkOf s p)))
    (hvpn : vpn va = vpn a) (ha : a < vmEnd) :
    va = a ∧ g.floor ≤ va ∧ pageAlignUp g.floor ≤ va ∧ va < top := by
  have haddr' : addr ≤ vmEnd := le_trans haddr.le (le_trans h.brk hbelow)
  obtain ⟨hlow, hhigh⟩ := lt_of_mem_pages hmem
  have heq := hva.eq_of_vpn (dvd_pageAlignUp haddr') hmem ha hvpn
  have hup := le_pageAlignUp haddr'
  have hmono := pageAlignUp_mono hfloor haddr'
  have htop := pageAlignUp_le haligned hbelow h.brk
  subst heq
  exact ⟨rfl, le_trans hfloor (le_trans hup hlow), le_trans hmono hlow, lt_of_lt_of_le hhigh htop⟩

/-- `sys_brk` keeps the heap and mapped ranges apart, and drops pages of its own only. -/
theorem HeapInv.sysBrk {addr : ℕ} (hok : KeepsApart p top g s (.brk addr))
    (hr : sysBrk addr p s = .ok (r, s')) : HeapInv p top s' (g.after p (.brk addr) r s s') ∧
    (∀ va, IsPageVa va → IsMapped (s.proc p).pagetable va s.mem →
      ¬ IsMapped (s.proc p).pagetable va s'.mem → g.byBrk va) ∧
    ∀ a, s.mem.used a = true → s'.mem.used a = false →
      ∃ va, IsPageVa va ∧ g.byBrk va ∧ frameOf (s.proc p).pagetable va s.mem = a := by
  obtain ⟨hkin, heffect⟩ := h.team.sysBrk mem_cons_self (h.alone.supplied _) hr
  have hmax : max g.floor ((Call.brk addr).placedEnd p s) = g.floor := max_eq_left (zero_le _)
  cases heffect with
  | asked haddr hs =>
    subst hs
    refine ⟨h.after hbelow hkin h.space (by rw [hmax]; exact h.floor) h.brk
      (fun _ _ _ hv => Or.inl hv) (by rw [hmax]; exact h.mapped),
      fun _ _ hv hnot => absurd hv hnot, fun a hu hfree => absurd rfl (ne_of_used hu hfree)⟩
  | down haddr hlt hbrk hdrops =>
    have hfloor := (hok.resolve_left haddr).1
    have hbrk' := brkOf_eq_of_ne haddr hbrk
    -- pages below the new break keep their entries
    have hkeep : ∀ va, IsPageVa va → va < g.floor →
        pteOf (s.proc p).pagetable va s'.mem = pteOf (s.proc p).pagetable va s.mem := by
      intro va hva hvalt
      refine hdrops.same _ h.own va ?_
      rintro ⟨a, hmem, hvpn, huser⟩
      have hle := (h.down hbelow haligned hfloor hlt hva hmem hvpn huser.1).2.1
      omega
    refine ⟨h.after hbelow hkin (hdrops.mirrored.space h.own)
      (by rw [hmax, hbrk']; exact hfloor) (by rw [hbrk']; exact (hok.resolve_left haddr).2) ?_ ?_,
      ?_, ?_⟩
    · intro va _ _ hv
      left
      rwa [IsMapped, ← hdrops.of_mapped h.own hv]
    · intro va f hva hf
      obtain ⟨hvalt, hv, hframe⟩ := h.mapped va f hva hf
      rw [hmax, IsMapped, frameOf, hkeep va hva hvalt]
      exact ⟨hvalt, hv, hframe⟩
    · intro va hva hv hnot
      by_cases hdrop : ∃ a ∈ pages (pageAlignUp addr) (pageAlignUp (brkOf s p)), vpn va = vpn a ∧
          IsUser a (pteOf (s.proc p).pagetable va s.mem)
      · obtain ⟨a, hmem, hvpn, huser⟩ := hdrop
        obtain ⟨-, -, hlow, hhigh⟩ := h.down hbelow haligned hfloor hlt hva hmem hvpn huser.1
        exact h.heap va hva hlow hhigh hv
      · rw [IsMapped, hdrops.same _ h.own va hdrop] at hnot
        exact absurd hv hnot
    · intro a hu hfree
      rcases hdrops.used a hu with hu' | ⟨t, ht, va, ⟨b, hmem, hvpn, huser⟩, hv, hframe⟩
      · exact absurd rfl (ne_of_used hu' hfree)
      rw [h.alone.tables, mem_singleton] at ht
      subst ht
      have hb : IsPageVa b := by
        obtain ⟨k, rfl, -⟩ := mem_pages.mp hmem
        have hle : addr ≤ vmEnd := le_trans hlt.le (le_trans h.brk hbelow)
        exact ⟨Nat.dvd_add (dvd_pageAlignUp hle) (Dvd.intro_left k rfl),
          lt_trans huser.1 (by decide)⟩
      obtain ⟨-, -, hlow, hhigh⟩ := h.down hbelow haligned hfloor hlt hb hmem rfl huser.1
      rw [isMapped_congr hvpn] at hv
      exact ⟨b, hb, h.heap b hb hlow hhigh hv, by rw [← frameOf_congr hvpn, hframe]⟩
  | up haddr hle hbrk hadds =>
    have hbrk' : brkOf s' p = addr ∨ brkOf s' p = brkOf s p := by
      rcases hbrk with hbrk | hbrk
      · exact Or.inl (brkOf_eq_of_ne haddr hbrk)
      have hne : brkOf s p ≠ 0 := by
        unfold brkOf
        split
        · decide
        · assumption
      exact Or.inr (brkOf_eq_of_ne hne hbrk)
    have hok' := hok.resolve_left haddr
    refine ⟨h.after hbelow hkin (hadds.mirrored.space h.own) ?_ ?_ (fun _ _ _ _ => Or.inr rfl) ?_,
      ?_, ?_⟩
    · rw [hmax]
      rcases hbrk' with heq | heq
      · rw [heq]
        exact hok'.1
      · rw [heq]
        exact h.floor
    · rcases hbrk' with heq | heq
      · rw [heq]
        exact hok'.2
      · rw [heq]
        exact h.brk
    · intro va f hva hf
      obtain ⟨hvalt, hv, hframe⟩ := h.mapped va f hva hf
      rw [hmax, IsMapped, frameOf, hadds.valid h.own hv]
      exact ⟨hvalt, hv, hframe⟩
    · intro va _ hv hnot
      exact absurd (hadds.isMapped h.own hv) hnot
    · intro a hu hfree
      exact absurd rfl (ne_of_used (hadds.used rfl a hu) hfree)

end Step

/-! ## Runs -/

theorem HeapInv.step (hready : HeapReady s0 p top) (h : HeapInv p top s g)
    (hok : KeepsApart p top g s c) (hr : c.run p s = .ok (r, s')) :
    HeapInv p top s' (g.after p c r s s') := by
  cases c with
  | brk addr => exact (h.sysBrk hready.below hready.aligned hok hr).1
  | mmap addr len prot flags fd offset => exact (h.sysMmap hready.below hok hr).1
  | munmap addr len => exact h.sysMunmap hready.below hr
  | mprotect addr len prot => exact hok.elim

theorem CallRun.heapInv (hready : HeapReady s0 p top)
    (hrun : CallRun (KeepsApart p top) p s0 s g) : HeapInv p top s g := by
  induction hrun with
  | start =>
    refine ⟨hready.alone, hready.space, le_rfl, hready.brk, ?_, fun va f _ hf => by cases hf⟩
    intro va _ hlow hhigh hv
    exact absurd hv (hready.empty va hlow hhigh)
  | call c r _ hok hr ih => exact ih.step hready hok hr

theorem CallRun.pagetable (hready : HeapReady s0 p top)
    (hrun : CallRun (KeepsApart p top) p s0 s g) :
    (s.proc p).pagetable = (s0.proc p).pagetable := by
  induction hrun with
  | start => rfl
  | call c r hrun hok hr ih =>
    have hinv := hrun.heapInv hready
    rw [← ih]
    have hsupplied := hinv.alone.supplied
    cases c with
    | brk addr => exact (hinv.team.sysBrk mem_cons_self (hsupplied _) hr).1.pagetable p
    | mmap addr len prot flags fd offset =>
      exact (hinv.team.sysMmap mem_cons_self (hsupplied _) hr).1.pagetable p
    | munmap addr len => rw [(hinv.team.sysMunmap mem_cons_self hr).1]
    | mprotect addr len prot => exact hok.elim

/-- In runs that keep the break and mapped ranges apart, pages of `sys_mmap` stay where they are
until `sys_munmap` covers them, `sys_brk` drops pages of its own only, and `sys_mmap` does not
move the break. -/
theorem brk_mmap_apart (hready : HeapReady s0 p top)
    (hrun : CallRun (KeepsApart p top) p s0 s g) :
    (∀ va f, IsPageVa va → g.byMmap va = some f →
      IsMapped (s0.proc p).pagetable va s.mem ∧ frameOf (s0.proc p).pagetable va s.mem = f) ∧
    (∀ addr r s', KeepsApart p top g s (.brk addr) → sysBrk addr p s = .ok (r, s') →
      (∀ va, IsPageVa va → IsMapped (s0.proc p).pagetable va s.mem →
        ¬ IsMapped (s0.proc p).pagetable va s'.mem → g.byBrk va) ∧
      ∀ a, s.mem.used a = true → s'.mem.used a = false →
        ∃ va, IsPageVa va ∧ g.byBrk va ∧ frameOf (s0.proc p).pagetable va s.mem = a) ∧
    ∀ addr len prot flags fd offset r s',
      KeepsApart p top g s (.mmap addr len prot flags fd offset) →
      sysMmap addr len prot flags fd offset p s = .ok (r, s') → brkOf s' p = brkOf s p := by
  have hinv := hrun.heapInv hready
  rw [← hrun.pagetable hready]
  refine ⟨fun va f hva hf => (hinv.mapped va f hva hf).2, ?_, ?_⟩
  · intro addr r s' hok hr
    exact (hinv.sysBrk hready.below hready.aligned hok hr).2
  · intro addr len prot flags fd offset r s' hok hr
    exact (hinv.sysMmap hready.below hok hr).2

def freeMemory : Memory where
  word _ _ := 0
  used a := a = pmStart
  answers := (range 32).map (fun i => pmStart + (i + 1) * pageSize)

def emptyProcess (brkEnd : ℕ) : State where
  mem := (uvmcreate freeMemory).2
  proc _ := ⟨pmStart + pageSize, brkEnd, false, none, [], Spinlock.initializer, fun _ => none⟩

theorem uvmcreate_freeMemory (brkEnd : ℕ) :
    uvmcreate freeMemory = (some (pmStart + pageSize), (emptyProcess brkEnd).mem) := by
  have hroot : (uvmcreate freeMemory).1 = some (pmStart + pageSize) := by decide +kernel
  exact Prod.ext hroot rfl

theorem emptyProcess_space (brkEnd : ℕ) :
    Space (emptyProcess brkEnd).mem (pmStart + pageSize) ∧
      ∀ va, ¬ IsMapped (pmStart + pageSize) va (emptyProcess brkEnd).mem := by
  obtain ⟨hspaces, hempty, -⟩ := Spaces.of_uvmcreate (uvmcreate_freeMemory brkEnd)
  have hnot : ∀ va, ¬ IsMapped (pmStart + pageSize) va (emptyProcess brkEnd).mem :=
    fun va => notMapped_zero (hempty va)
  exact ⟨⟨hspaces, fun va _ hv => absurd hv (hnot va), fun va hv => absurd hv (hnot va)⟩, hnot⟩

theorem emptyProcess_ready (brkEnd : ℕ) (h : brkOf (emptyProcess brkEnd) 1 ≤ userTop) :
    HeapReady (emptyProcess brkEnd) 1 userTop := by
  obtain ⟨hspace, hnot⟩ := emptyProcess_space brkEnd
  exact ⟨⟨rfl, rfl⟩, hspace, by decide, by decide, h, fun va _ _ => hnot va⟩

/-- A range that is placed below the break. -/
theorem brk_mmap_apart_hint : ∃ s g f, CallRun (KeepsApart 1 userTop) 1 (emptyProcess 0x20000) s g ∧
    g.byMmap 0x10000 = some f ∧ IsMapped (pmStart + pageSize) 0x10000 s.mem ∧
      frameOf (pmStart + pageSize) 0x10000 s.mem = f := by
  have hready : HeapReady (emptyProcess 0x20000) 1 userTop := emptyProcess_ready _ (by decide)
  have hchecks : ((Call.mmap 0x10000 pageSize 3 0x22 (-1) 0).run 1 (emptyProcess 0x20000)).checks
      (fun x => 0 ≤ x.1 ∧ IsMapped (pmStart + pageSize) 0x10000 x.2.mem ∧
        ¬ IsMapped (pmStart + pageSize) 0x10000 (emptyProcess 0x20000).mem) = true := by
    decide +kernel
  obtain ⟨⟨r, s⟩, hr, hpos, hv, hnot⟩ := exists_of_decide hchecks
  have hok : KeepsApart 1 userTop ⟨fun _ => False, fun _ => none, brkOf (emptyProcess 0x20000) 1⟩
      (emptyProcess 0x20000) (.mmap 0x10000 pageSize 3 0x22 (-1) 0) :=
    ⟨by decide, by decide +kernel⟩
  have hrun := CallRun.start.call _ r hok hr
  have hf : (History.after ⟨fun _ => False, fun _ => none, brkOf (emptyProcess 0x20000) 1⟩ 1
      (.mmap 0x10000 pageSize 3 0x22 (-1) 0) r (emptyProcess 0x20000) s).byMmap 0x10000 =
      some (frameOf (pmStart + pageSize) 0x10000 s.mem) := if_pos ⟨hpos, hv, hnot⟩
  exact ⟨s, _, _, hrun, hf, (brk_mmap_apart hready hrun).1 0x10000 _ ⟨by decide, by decide⟩ hf⟩

/-- A first range moves the break, and the call that moves it back frees the range. -/
theorem brk_mmap_collide : ∃ s1 s2, HeapReady (emptyProcess 0) 1 userTop ∧
    sysMmap 0 pageSize 3 0x22 (-1) 0 1 (emptyProcess 0) = .ok (0x10000, s1) ∧
    brkOf (emptyProcess 0) 1 = 0x100000 ∧ brkOf s1 1 = 0x11000 ∧
    IsMapped (pmStart + pageSize) 0x10000 s1.mem ∧
    sysBrk 0x10000 1 s1 = .ok (0x10000, s2) ∧
    ¬ IsMapped (pmStart + pageSize) 0x10000 s2.mem ∧
    s1.mem.used (frameOf (pmStart + pageSize) 0x10000 s1.mem) = true ∧
    s2.mem.used (frameOf (pmStart + pageSize) 0x10000 s1.mem) = false := by
  have hready : HeapReady (emptyProcess 0) 1 userTop := emptyProcess_ready _ (by decide)
  have hchecks : (sysMmap 0 pageSize 3 0x22 (-1) 0 1 (emptyProcess 0)).checks (fun x =>
      x.1 = 0x10000 ∧ brkOf x.2 1 = 0x11000 ∧ IsMapped (pmStart + pageSize) 0x10000 x.2.mem ∧
      x.2.mem.used (frameOf (pmStart + pageSize) 0x10000 x.2.mem) = true ∧
      (sysBrk 0x10000 1 x.2).checks (fun y => y.1 = 0x10000 ∧
        ¬ IsMapped (pmStart + pageSize) 0x10000 y.2.mem ∧
        y.2.mem.used (frameOf (pmStart + pageSize) 0x10000 x.2.mem) = false) = true) = true := by
    decide +kernel
  obtain ⟨⟨r1, s1⟩, hr1, rfl, hbrk, hv, hused, hchecks'⟩ := exists_of_decide hchecks
  obtain ⟨⟨r2, s2⟩, hr2, rfl, hnot, hfree⟩ := exists_of_decide hchecks'
  exact ⟨s1, s2, hready, hr1, by decide, hbrk, hv, hr2, hnot, hused, hfree⟩

/-! ## The first free range -/

variable {pt start sz limit c : ℕ} {m : Memory}

/-- No page of the range is valid or reserved. -/
def IsFreeRange (pt sz : ℕ) (m : Memory) (c : ℕ) : Prop :=
  ∀ a, pageSize ∣ a → c ≤ a → a < c + sz → ¬ IsTaken pt a m

/-- An address that `find_free_user_range` may return. -/
structure Fits (pt start sz limit : ℕ) (m : Memory) (c : ℕ) : Prop where
  aligned : pageSize ∣ c
  start_le : start ≤ c
  le_limit : c + sz ≤ limit
  free : IsFreeRange pt sz m c

theorem userRangeHasMapping_eq_false (hc : pageSize ∣ c) (hlt : c + sz < wordSize) :
    userRangeHasMapping pt c sz m = false ↔ IsFreeRange pt sz m c := by
  simp only [userRangeHasMapping, mod_eq_of_lt hlt, any_eq_false, decide_eq_true_eq, mem_pages]
  constructor
  · intro h a ha hlow hhigh
    obtain ⟨k, hk⟩ := Nat.dvd_sub ha hc
    exact h a ⟨k, by rw [mul_comm, ← hk, Nat.add_sub_cancel' hlow], hhigh⟩
  · rintro h _ ⟨k, rfl, hlt⟩
    exact h _ (Nat.dvd_add hc (Dvd.intro_left k rfl)) (le_add_right c _) hlt

theorem findFreeLoop_eq (n cur : ℕ) : findFreeLoop pt sz m n cur =
    ((range n).find? fun k => !userRangeHasMapping pt (cur + k * pageSize) sz m).elim 0
      (cur + · * pageSize) := by
  induction n generalizing cur with
  | zero => rfl
  | succ n ih =>
    rw [findFreeLoop, ih, range_succ_eq_map, find?_cons, find?_map]
    have hnext : ∀ k, cur + (k + 1) * pageSize = cur + pageSize + k * pageSize := by
      intro k
      rw [succ_mul]
      omega
    cases userRangeHasMapping pt cur sz m <;> simp [Function.comp_def, hnext]

theorem fits_iff (hround : start + (pageSize - 1) < wordSize) (hlimit : limit ≤ userTop) :
    Fits pt start sz limit m c ↔ ∃ k, c = pageAlignUp start + k * pageSize ∧ c + sz ≤ limit ∧
      userRangeHasMapping pt c sz m = false := by
  have hup := pageAlignUp_eq_of_lt hround
  have hlt : c + sz ≤ limit → c + sz < wordSize := fun hle =>
    lt_of_le_of_lt (le_trans hle hlimit) (by decide)
  constructor
  · rintro ⟨hdvd, hle, hend, hfree⟩
    refine ⟨(c - pageAlignUp start) / pageSize, ?_, hend,
      (userRangeHasMapping_eq_false hdvd (hlt hend)).mpr hfree⟩
    norm_num at hdvd ⊢
    omega
  · rintro ⟨k, rfl, hend, hfree⟩
    have hdvd : pageSize ∣ pageAlignUp start + k * pageSize := by
      rw [hup]
      exact Nat.dvd_add (Dvd.intro_left _ rfl) (Dvd.intro_left k rfl)
    exact ⟨hdvd, by omega, hend, (userRangeHasMapping_eq_false hdvd (hlt hend)).mp hfree⟩

/-- `find_free_user_range` returns the smallest address that fits, and zero if there is none. -/
theorem findFreeUserRange_firstFit (pt : ℕ) (m : Memory) (hsz : 0 < sz) (hstart : 0 < start)
    (hround : start + (pageSize - 1) < wordSize) (hlimit : limit ≤ userTop) :
    findFreeUserRange pt start sz limit m ≠ 0 ∧
        IsLeast { c | Fits pt start sz limit m c } (findFreeUserRange pt start sz limit m) ∨
      findFreeUserRange pt start sz limit m = 0 ∧ ∀ c, ¬ Fits pt start sz limit m c := by
  have hup : start ≤ pageAlignUp start := by
    rw [pageAlignUp_eq_of_lt hround]
    omega
  simp only [IsLeast, lowerBounds, Set.mem_ofPred_eq, fits_iff hround hlimit]
  unfold findFreeUserRange
  dsimp only
  split
  · refine Or.inr ⟨rfl, ?_⟩
    rintro c ⟨k, rfl, hend, -⟩
    omega
  split
  · refine Or.inr ⟨rfl, ?_⟩
    rintro c ⟨k, rfl, hend, -⟩
    omega
  have hcount : ∀ k, k < (limit - sz - pageAlignUp start) / pageSize + 1 ↔
      pageAlignUp start + k * pageSize + sz ≤ limit := by
    intro k
    rw [Nat.lt_succ_iff, Nat.le_div_iff_mul_le (by decide)]
    omega
  rw [findFreeLoop_eq]
  cases hfind : (range _).find? fun k =>
      !userRangeHasMapping pt (pageAlignUp start + k * pageSize) sz m with
  | none =>
    refine Or.inr ⟨rfl, ?_⟩
    rintro _ ⟨k, rfl, hend, hk⟩
    simpa [hk] using find?_range_eq_none.mp hfind k ((hcount k).mpr hend)
  | some k =>
    obtain ⟨hfree, hk, hbelow⟩ := find?_range_eq_some.mp hfind
    rw [mem_range, hcount] at hk
    refine Or.inl ⟨by simp; omega, ⟨k, rfl, hk, by simpa using hfree⟩, ?_⟩
    rintro _ ⟨j, rfl, -, hj⟩
    have hkj : k ≤ j := by
      by_contra hlt
      simpa [hj] using hbelow j (not_le.mp hlt)
    exact Nat.add_le_add_left (Nat.mul_le_mul_right _ hkj) _

/-- A memory where the table at `pmStart` maps the first page. -/
def oneMapped : Memory := (mappages pmStart pageSize pmStart 1 pteR freeMemory).2

theorem findFreeUserRange_firstFit_second :
    IsLeast { c | Fits pmStart 1 pageSize (4 * pageSize) oneMapped c } (2 * pageSize) := by
  have hspec := findFreeUserRange_firstFit pmStart oneMapped (show 0 < pageSize by decide) one_pos
    (by decide) (show 4 * pageSize ≤ userTop by decide)
  have hrange : findFreeUserRange pmStart 1 pageSize (4 * pageSize) oneMapped = 2 * pageSize := by
    decide +kernel
  rw [hrange] at hspec
  exact (hspec.resolve_right fun hzero => absurd hzero.1 (by decide)).2

end NoobKernel.Vm
