import NoobKernel.Verification.Mmap.Break

/-! # The trap pages -/

namespace NoobKernel.Vm

open Library Outcome

variable {m m' : Memory} {s s' s0 : State} {p parent tp child va : ℕ} {r : ℤ}

/-! ## New processes -/

theorem user_or_trap (va : ℕ) : (∃ va0, IsUserPage va0 ∧ vpn va = vpn va0) ∨
    vpn va = vpn trampoline ∨ vpn va = vpn trapframe := by
  obtain ⟨va0, ⟨hdvd, hlt⟩, hvpn⟩ := exists_pageVa va
  by_cases htrap : IsTrapPage va0
  · rcases htrap with rfl | rfl
    · exact Or.inr (Or.inl hvpn)
    · exact Or.inr (Or.inr hvpn)
  · exact Or.inl ⟨va0, ⟨hdvd, hlt, htrap⟩, hvpn⟩

section Child

variable {share : Bool} (htp : IsFrame m (· = parent) tp)
  (hother : ∀ va, IsUserPage va → IsMapped parent va m → frameOf parent va m ≠ tp)
  (h : IsChild share m (· = parent) parent tp child m')

include htp hother h

theorem IsChild.userPage (hva : IsUserPage va) (hv : IsMapped child va m') :
    IsMapped parent va m ∧ pteFlags (pteOf child va m') = pteFlags (pteOf parent va m) ∧
      frameOf child va m' ≠ tp ∧
      (share = true → frameOf child va m' = frameOf parent va m) := by
  obtain ⟨hmapped, hnot⟩ := h.user va hva
  have hold : IsMapped parent va m := by
    by_contra hne
    exact notMapped_zero (hnot hne) hv
  refine ⟨hold, ?_⟩
  have hpte := hmapped hold
  cases share with
  | true =>
    rw [frameOf, hpte]
    exact ⟨rfl, hother va hva hold, fun _ => rfl⟩
  | false =>
    obtain ⟨page, hpage, hfree, hpte⟩ := hpte
    rw [frameOf, hpte, pteFlags_or hpage.holds (pteFlags_lt _),
      pte2pa_or hpage.holds (pteFlags_lt _)]
    exact ⟨rfl, (ne_of_used htp.used hfree).symm, fun hf => by cases hf⟩

/-- A new process has a well-formed address space of its own. -/
theorem IsChild.space (hparent : Space m parent) : Space m' child := by
  obtain ⟨tf, htf, hfree, hapart, hentry⟩ := h.trapframePte
  have htpf : pte2pa (leafPte tp (pteR ||| pteX)) = tp :=
    (leafPte_frame htp.isPage (by decide) (by decide)).2.2
  have htff : pte2pa (leafPte tf (pteR ||| pteW)) = tf :=
    (leafPte_frame htf (by decide) (by decide)).2.2
  have hne : tp ≠ tf := ne_of_used htp.used hfree
  -- the page of an address: the trampoline, the trap frame, or a user page
  have hcases : ∀ va, IsMapped child va m' →
      (∃ va0, IsUserPage va0 ∧ vpn va = vpn va0 ∧ IsMapped child va0 m' ∧
        frameOf child va m' = frameOf child va0 m') ∨
      vpn va = vpn trampoline ∧ frameOf child va m' = tp ∨
      vpn va = vpn trapframe ∧ frameOf child va m' = tf := by
    intro va hv
    rcases user_or_trap va with ⟨va0, hva0, hvpn⟩ | hvpn | hvpn
    · exact Or.inl ⟨va0, hva0, hvpn, (isMapped_congr hvpn).mp hv, frameOf_congr hvpn⟩
    · exact Or.inr (Or.inl ⟨hvpn, by rw [frameOf_congr hvpn, frameOf, h.trampolinePte, htpf]⟩)
    · exact Or.inr (Or.inr ⟨hvpn, by rw [frameOf_congr hvpn, frameOf, hentry, htff]⟩)
  have huser : ∀ va, IsUserPage va → IsMapped child va m' →
      frameOf child va m' ≠ tp ∧ frameOf child va m' ≠ tf := fun va hva hv =>
    ⟨(h.userPage htp hother hva hv).2.2.1, hapart va hva hv⟩
  refine ⟨h.spaces.mono (fun r hr => Or.inr hr), ?_, ?_⟩
  · intro va va' hv hv' heq
    rcases hcases va hv with ⟨va0, hva0, hvpn, hv0, hf⟩ | ⟨hvpn, hf⟩ | ⟨hvpn, hf⟩ <;>
      rcases hcases va' hv' with ⟨va1, hva1, hvpn', hv1, hf'⟩ | ⟨hvpn', hf'⟩ | ⟨hvpn', hf'⟩ <;>
      rw [hf, hf'] at heq <;> rw [hvpn, hvpn']
    · obtain ⟨hold0, -, -, hshare0⟩ := h.userPage htp hother hva0 hv0
      obtain ⟨hold1, -, -, hshare1⟩ := h.userPage htp hother hva1 hv1
      cases hs : share with
      | true =>
        rw [hshare0 hs, hshare1 hs] at heq
        exact hparent.distinct va0 va1 hold0 hold1 heq
      | false => rw [h.distinct hs va0 va1 hva0 hva1 hv0 hv1 heq]
    · exact absurd heq (huser va0 hva0 hv0).1
    · exact absurd heq (huser va0 hva0 hv0).2
    · exact absurd heq.symm (huser va1 hva1 hv1).1
    · exact absurd heq hne
    · exact absurd heq.symm (huser va1 hva1 hv1).2
    · exact absurd heq.symm hne
  · intro va hv
    rcases user_or_trap va with ⟨va0, hva0, hvpn⟩ | hvpn | hvpn
    · rw [isMapped_congr hvpn] at hv
      obtain ⟨hold, hflags, -⟩ := h.userPage htp hother hva0 hv
      rw [pteOf_congr hvpn, and_eq_flags (by decide), hflags, ← and_eq_flags (by decide)]
      exact hparent.clean va0 hold
    · rw [pteOf_congr hvpn, h.trampolinePte]
      exact leafPte_clean htp.isPage ⟨by decide, by decide⟩
    · rw [pteOf_congr hvpn, hentry]
      exact leafPte_clean htf ⟨by decide, by decide⟩

end Child

/-! ## Calls -/

/-- The trap pages are mapped, and user code cannot reach them. -/
def HasTraps (s : State) (p : ℕ) : Prop :=
  ∀ va, IsTrapPage va → IsMapped (s.proc p).pagetable va s.mem ∧
    pteOf (s.proc p).pagetable va s.mem &&& pteU = 0

theorem HasTraps.at (h : HasTraps s p) (htrap : AtTrap va) :
    IsMapped (s.proc p).pagetable va s.mem ∧ pteOf (s.proc p).pagetable va s.mem &&& pteU = 0 := by
  rcases htrap with hvpn | hvpn
  · rw [isMapped_congr hvpn, pteOf_congr hvpn]
    exact h trampoline (Or.inl rfl)
  · rw [isMapped_congr hvpn, pteOf_congr hvpn]
    exact h trapframe (Or.inr rfl)

/-- Pages none of which selects the entry of a trap page. -/
def AvoidsTraps (vas : List ℕ) : Prop :=
  ∀ a ∈ vas, vpn a ≠ vpn trampoline ∧ vpn a ≠ vpn trapframe

/-- Calls that leave the trap pages alone: anonymous mappings with `MAP_FIXED` have ranges that avoid
them, and changes of protection stop before them. -/
def SparesTraps (s : State) (p : ℕ) : Call → Prop
  | .mmap addr len _ flags fd _ =>
    Replaces flags fd → AvoidsTraps (pages addr ((addr + pageAlignUp len) % wordSize))
  | .mprotect addr len _ => addr < userTop → AvoidsTraps (protectedPages s p addr len)
  | _ => True

theorem AvoidsTraps.not_inPages {vas : List ℕ} (h : AvoidsTraps vas) (htrap : AtTrap va) :
    ¬ InPages vas va := by
  rintro ⟨a, hmem, hvpn⟩
  rcases htrap with htrap | htrap
  · exact (h a hmem).1 (hvpn.symm.trans htrap)
  · exact (h a hmem).2 (hvpn.symm.trans htrap)

theorem IsTrapPage.atTrap (h : IsTrapPage va) : AtTrap va := h.imp (congrArg vpn) (congrArg vpn)

theorem Team.spares {c : Call} {o : ℕ} {group : List ℕ} (h : Team s o group) (hp : p ∈ group)
    (htraps : ∀ t ∈ tables s o, ∀ va, AtTrap va →
      IsMapped t va s.mem ∧ pteOf t va s.mem &&& pteU = 0)
    (hsupplied : Supplied s p c) (hc : SparesTraps s p c) (hr : c.run p s = .ok (r, s')) :
    SameKin s s' ∧ Team s' o group ∧ ∀ t ∈ tables s o, ∀ va, AtTrap va →
      pteOf t va s'.mem = pteOf t va s.mem := by
  have hown := h.table_mem hp
  have hnot : ∀ va, AtTrap va → ¬ UserPte (pteOf (s.proc p).pagetable va s.mem) :=
    fun va htrap huser => huser.2.1 (htraps _ hown va htrap).2
  suffices hmem : SameKin s s' ∧ Mirrored s'.mem (tables s o) ∧ ∀ t ∈ tables s o, ∀ va,
      AtTrap va → pteOf t va s'.mem = pteOf t va s.mem from
    ⟨hmem.1, h.of_kin hmem.1 hmem.2.1, hmem.2.2⟩
  cases c with
  | brk addr =>
    obtain ⟨hkin, heffect⟩ := h.sysBrk hp hsupplied hr
    refine ⟨hkin, ?_⟩
    cases heffect with
    | asked _ hs =>
      subst hs
      exact ⟨h.mirrored, fun _ _ _ _ => rfl⟩
    | down _ _ _ hdrops =>
      refine ⟨hdrops.mirrored, fun t ht va htrap => hdrops.same t ht va ?_⟩
      rintro ⟨a, -, -, huser⟩
      exact hnot va htrap huser.2
    | up _ _ _ hadds =>
      exact ⟨hadds.mirrored, fun t ht va htrap => hadds.valid ht (htraps t ht va htrap).1⟩
  | mmap addr len prot flags fd offset =>
    obtain ⟨hkin, heffect⟩ := h.sysMmap hp hsupplied hr
    refine ⟨hkin, ?_⟩
    cases heffect with
    | failed _ hmem _ =>
      rw [hmem]
      exact ⟨h.mirrored, fun _ _ _ _ => rfl⟩
    | placed start hstart hchanges _ =>
      refine ⟨hchanges.mirrored, fun t ht va htrap => hchanges.same t ht va ?_⟩
      by_cases hrep : Replaces flags fd
      · rw [mmapStart, if_pos hrep.1] at hstart
        obtain rfl := Option.some.inj hstart
        exact Or.inl ((hc hrep).not_inPages htrap)
      · exact Or.inr ⟨decide_eq_true hrep, (htraps t ht va htrap).1⟩
  | munmap addr len =>
    obtain ⟨hproc, hdrops⟩ := h.sysMunmap hp hr
    refine ⟨SameKin.of_proc hproc, hdrops.mirrored, fun t ht va htrap => hdrops.same t ht va ?_⟩
    rintro ⟨a, -, -, huser | hres⟩
    · exact hnot va htrap huser.2
    · exact hres (h.mirrored.clean _ hown va (htraps _ hown va htrap).1)
  | mprotect addr len prot =>
    obtain ⟨hproc, hchanges, hcase⟩ := h.sysMprotect hp hsupplied hr
    refine ⟨SameKin.of_proc hproc, hchanges.mirrored, fun t ht va htrap => ?_⟩
    rcases hcase with haddr | hmem
    · exact hchanges.outside ht ((hc haddr).not_inPages htrap)
    · rw [hmem]

/-- Runs of a process whose calls all spare the trap pages. -/
inductive SparingRun (p : ℕ) (s0 : State) : State → Prop
  | start : SparingRun p s0 s0
  | call {s s' : State} (c : Call) (r : ℤ) : SparingRun p s0 s → SparesTraps s p c →
      c.run p s = .ok (r, s') → SparingRun p s0 s'

/-- In runs whose calls spare the trap pages, these stay as they were installed. -/
theorem trap_pages_kept (ha : Alone s0 p) (h : Space s0.mem (s0.proc p).pagetable)
    (htraps : HasTraps s0 p) (hrun : SparingRun p s0 s) : ∀ va, IsTrapPage va →
    pteOf (s.proc p).pagetable va s.mem = pteOf (s0.proc p).pagetable va s0.mem ∧
      pteOf (s.proc p).pagetable va s.mem &&& pteU = 0 := by
  suffices hinv : SameKin s0 s ∧ Team s p [p] ∧ ∀ va, AtTrap va →
      pteOf (s0.proc p).pagetable va s.mem = pteOf (s0.proc p).pagetable va s0.mem by
    intro va htrap
    rw [hinv.1.pagetable p, hinv.2.2 va htrap.atTrap]
    exact ⟨rfl, (htraps va htrap).2⟩
  induction hrun with
  | start => exact ⟨SameKin.of_proc rfl, ha.team h, fun _ _ => rfl⟩
  | call c r _ hc hr ih =>
    obtain ⟨hkin, hteam, hsame⟩ := ih
    have htables := (hkin.tables p).trans ha.tables
    obtain ⟨hkin', hteam', hsame'⟩ := hteam.spares List.mem_cons_self (by
      simp only [htables, List.mem_singleton, forall_eq]
      intro va htrap
      rw [IsMapped, hsame va htrap]
      exact htraps.at htrap) ((ha.of_kin hkin).supplied c) hc hr
    simp only [htables, List.mem_singleton, forall_eq] at hsame'
    exact ⟨hkin.trans hkin', hteam', fun va htrap => (hsame' va htrap).trans (hsame va htrap)⟩

/-! ## A process with its trap pages -/

@[irreducible] def trapMemory : Memory :=
  (childPagetable false (pmStart + pageSize) pmStart (emptyProcess 0).mem).2

theorem childPagetable_trapMemory :
    childPagetable false (pmStart + pageSize) pmStart (emptyProcess 0).mem =
      (some (pmStart + 2 * pageSize), trapMemory) := by
  have hroot : (childPagetable false (pmStart + pageSize) pmStart (emptyProcess 0).mem).1 =
      some (pmStart + 2 * pageSize) := by decide +kernel
  unfold trapMemory
  generalize childPagetable false (pmStart + pageSize) pmStart (emptyProcess 0).mem = x at hroot ⊢
  exact Prod.ext hroot rfl

/-- The child of a process without pages. -/
def trapProcess : State where
  mem := trapMemory
  proc _ := ⟨pmStart + 2 * pageSize, 0, false, none, [], Spinlock.initializer, fun _ => none⟩

theorem trapProcess_ready : Alone trapProcess 1 ∧ Space trapProcess.mem (pmStart + 2 * pageSize) ∧
    HasTraps trapProcess 1 := by
  obtain ⟨hspace, hnot⟩ := emptyProcess_space 0
  have htp := (Spaces.of_uvmcreate (uvmcreate_freeMemory 0)).2.2 pmStart (by decide) (by decide)
  have hchild := hspace.spaces.childPagetable rfl htp childPagetable_trapMemory
  refine ⟨⟨rfl, rfl⟩, hchild.space htp (fun va _ hv => absurd hv (hnot va)) hspace, ?_⟩
  rintro va (rfl | rfl) <;> decide +kernel

theorem trapProcess_user (hva : IsUserPage va) :
    pteOf (pmStart + 2 * pageSize) va trapProcess.mem = 0 := by
  obtain ⟨hspace, hnot⟩ := emptyProcess_space 0
  have htp := (Spaces.of_uvmcreate (uvmcreate_freeMemory 0)).2.2 pmStart (by decide) (by decide)
  have hchild := hspace.spaces.childPagetable rfl htp childPagetable_trapMemory
  exact (hchild.user va hva).2 (hnot va)

/-- A mapping elsewhere. -/
theorem trap_pages_kept_fixed : ∃ s, SparingRun 1 trapProcess s ∧
    sysMmap 0x10000 pageSize 3 0x32 (-1) 0 1 trapProcess = .ok (0x10000, s) ∧
    pteOf (s.proc 1).pagetable trapframe s.mem =
      pteOf (trapProcess.proc 1).pagetable trapframe trapProcess.mem := by
  obtain ⟨halone, hspace, htraps⟩ := trapProcess_ready
  have hchecks : (sysMmap 0x10000 pageSize 3 0x32 (-1) 0 1 trapProcess).checks
      (fun x => x.1 = 0x10000) = true := by
    decide +kernel
  obtain ⟨⟨r, s⟩, hr, hx⟩ := exists_of_checks hchecks
  obtain rfl : r = 0x10000 := of_decide_eq_true hx
  have hspares : SparesTraps trapProcess 1 (.mmap 0x10000 pageSize 3 0x32 (-1) 0) := by
    intro _ a hmem
    obtain ⟨-, hlt⟩ := lt_of_mem_pages hmem
    have hsmall : (0x10000 + pageAlignUp pageSize) % wordSize = 0x11000 := by decide +kernel
    constructor
    · unfold vpn
      norm_num
      omega
    · unfold vpn
      norm_num
      omega
  have hrun := SparingRun.start.call (.mmap 0x10000 pageSize 3 0x32 (-1) 0) 0x10000 hspares hr
  exact ⟨s, hrun, hr, (trap_pages_kept halone hspace htraps hrun trapframe (Or.inr rfl)).1⟩

/-- An anonymous mapping with `MAP_FIXED` replaces the trap frame by a page of the user. -/
theorem trap_page_replaced : Alone trapProcess 1 ∧
    Space trapProcess.mem (trapProcess.proc 1).pagetable ∧ HasTraps trapProcess 1 ∧
    ∃ s, sysMmap trapframe pageSize 3 0x32 (-1) 0 1 trapProcess = .ok (trapframe, s) ∧
      pteOf (s.proc 1).pagetable trapframe s.mem &&& pteU ≠ 0 ∧
      frameOf (s.proc 1).pagetable trapframe s.mem ≠
        frameOf (trapProcess.proc 1).pagetable trapframe trapProcess.mem := by
  obtain ⟨halone, hspace, htraps⟩ := trapProcess_ready
  have hchecks : (sysMmap trapframe pageSize 3 0x32 (-1) 0 1 trapProcess).checks (fun x =>
      x.1 = trapframe ∧ pteOf (x.2.proc 1).pagetable trapframe x.2.mem &&& pteU ≠ 0 ∧
      frameOf (x.2.proc 1).pagetable trapframe x.2.mem ≠
        frameOf (trapProcess.proc 1).pagetable trapframe trapProcess.mem) = true := by
    decide +kernel
  obtain ⟨⟨r, s⟩, hr, rfl, huser, hframe⟩ := exists_of_decide hchecks
  exact ⟨halone, hspace, htraps, s, hr, huser, hframe⟩

end NoobKernel.Vm
