import NoobKernel.Verification.Mmap.Trap

/-! # Page tables of threads -/

namespace NoobKernel.Vm

open Library List Outcome Function

section

variable {roots : ℕ → Prop}

variable {m m' : Memory} {tables : List ℕ} {tp r va : ℕ}

/-- The page tables of a group of threads: the trap pages are mapped, with the trampoline at `tp`,
and user code cannot reach them. -/
structure Family (m : Memory) (tables : List ℕ) (tp : ℕ) : Prop extends Mirrored m tables where
  traps : ∀ r ∈ tables, ∀ va, AtTrap va → IsMapped r va m ∧ pteOf r va m &&& pteU = 0
  trampolinePa : ∀ r ∈ tables, frameOf r trampoline m = tp

theorem Family.frame (h : Family m tables tp) (hr : r ∈ tables) : IsFrame m (· ∈ tables) tp :=
  h.trampolinePa r hr ▸ h.spaces.frame r trampoline hr (h.traps r hr trampoline (Or.inl rfl)).1

theorem Family.of_traps (h : Family m tables tp) (h' : Mirrored m' tables)
    (hsame : ∀ r ∈ tables, ∀ va, AtTrap va → pteOf r va m' = pteOf r va m) :
    Family m' tables tp := by
  refine ⟨h', fun r hr va htrap => ?_, fun r hr => ?_⟩
  · rw [IsMapped, hsame r hr va htrap]
    exact h.traps r hr va htrap
  · rw [frameOf, hsame r hr trampoline (Or.inl rfl)]
    exact h.trampolinePa r hr

/-! ## A thread is added -/

section Clone

variable {parent child : ℕ}

theorem IsChild.entry (hchild : IsChild true m roots parent tp child m') (htrap : ¬ AtTrap va) :
    (IsMapped child va m' ↔ IsMapped parent va m) ∧
      (IsMapped parent va m → pteOf child va m' = pteOf parent va m) := by
  obtain ⟨va0, hva0, hvpn⟩ := (user_or_trap va).resolve_right htrap
  obtain ⟨hsome, hnone⟩ := hchild.user va0 hva0
  rw [isMapped_congr hvpn, isMapped_congr hvpn, pteOf_congr hvpn, pteOf_congr hvpn]
  refine ⟨⟨fun hv => ?_, fun hv => ?_⟩, hsome⟩
  · by_contra hnot
    exact notMapped_zero (hnone hnot) hv
  · rw [IsMapped, show pteOf child va0 m' = pteOf parent va0 m from hsome hv]
    exact hv

theorem IsChild.trap {share : Bool} (hchild : IsChild share m roots parent tp child m')
    (htp : IsPage tp) (htrap : AtTrap va) :
    IsMapped child va m' ∧ pteOf child va m' &&& pteU = 0 ∧
      pteOf child va m' &&& pteMmapReserved = 0 := by
  have hleaf : ∀ pa perm, IsPage pa → IsPerm perm → leafFlags perm &&& pteU = 0 →
      leafPte pa perm &&& pteV ≠ 0 ∧ leafPte pa perm &&& pteU = 0 ∧
        leafPte pa perm &&& pteMmapReserved = 0 := by
    intro pa perm hpage hperm huser
    refine ⟨leafPte_valid hpage.holds hperm.lt, ?_, leafPte_clean hpage hperm⟩
    rw [leafPte_eq, and_eq_flags (by decide), pteFlags_or hpage.holds (leafFlags_lt hperm.lt)]
    exact huser
  obtain ⟨tf, hpage, -, -, hentry⟩ := hchild.trapframePte
  rcases htrap with hvpn | hvpn
  · rw [IsMapped, pteOf_congr hvpn, hchild.trampolinePte]
    exact hleaf tp _ htp ⟨by decide, by decide⟩ (by decide)
  · rw [IsMapped, pteOf_congr hvpn, hentry]
    exact hleaf tf _ hpage ⟨by decide, by decide⟩ (by decide)

theorem Family.clone (h : Family m tables tp) (hparent : parent ∈ tables)
    (hchild : IsChild true m (· ∈ tables) parent tp child m') :
    Family m' (tables ++ [child]) tp := by
  obtain ⟨tf, htf, hfree, -, hentry⟩ := hchild.trapframePte
  have htp := (h.frame hparent).isPage
  have hnew : ∀ r, r ∈ tables ++ [child] ↔ r ∈ tables ∨ r = child := by simp
  have hold : ∀ r ∈ tables, ∀ va, pteOf r va m' = pteOf r va m := fun r hr va => hchild.same r va hr
  have htpf : frameOf child trampoline m' = tp := by
    rw [frameOf, hchild.trampolinePte]
    exact (leafPte_frame htp (by decide) (by decide)).2.2
  -- each table stands for one of the old ones, apart from the trap pages
  have hrep : ∀ r ∈ tables ++ [child], ∃ r0 ∈ tables, ∀ va, ¬ AtTrap va →
      (IsMapped r va m' ↔ IsMapped r0 va m) ∧
        (IsMapped r0 va m → pteOf r va m' = pteOf r0 va m) := by
    intro r hr
    rcases (hnew r).mp hr with hr | rfl
    · refine ⟨r, hr, fun va _ => ⟨?_, fun _ => hold r hr va⟩⟩
      rw [IsMapped, hold r hr, IsMapped]
    · exact ⟨parent, hparent, fun va htrap => hchild.entry htrap⟩
  have htraps : ∀ r ∈ tables ++ [child], ∀ va, AtTrap va →
      IsMapped r va m' ∧ pteOf r va m' &&& pteU = 0 := by
    intro r hr va htrap
    rcases (hnew r).mp hr with hr | rfl
    · rw [IsMapped, hold r hr]
      exact h.traps r hr va htrap
    · exact ⟨(hchild.trap htp htrap).1, (hchild.trap htp htrap).2.1⟩
  -- a page of the new tables is an old one of the same address, or the new trap frame
  have hpage : ∀ r ∈ tables ++ [child], ∀ va, IsMapped r va m' →
      (∃ r0 ∈ tables, IsMapped r0 va m ∧ frameOf r va m' = frameOf r0 va m) ∨
        vpn va = vpn trapframe ∧ frameOf r va m' = tf := by
    intro r hr va hv
    rcases (hnew r).mp hr with hr | rfl
    · rw [IsMapped, hold r hr] at hv
      exact Or.inl ⟨r, hr, hv, by rw [frameOf, hold r hr, frameOf]⟩
    by_cases htrap : AtTrap va
    · rcases htrap with hvpn | hvpn
      · refine Or.inl ⟨parent, hparent, (h.traps parent hparent va (Or.inl hvpn)).1, ?_⟩
        rw [frameOf_congr hvpn, htpf, frameOf_congr hvpn, h.trampolinePa parent hparent]
      · refine Or.inr ⟨hvpn, ?_⟩
        rw [frameOf_congr hvpn, frameOf, hentry]
        exact (leafPte_frame htf (by decide) (by decide)).2.2
    · obtain ⟨hiff, heq⟩ := hchild.entry htrap
      exact Or.inl ⟨parent, hparent, hiff.mp hv, by rw [frameOf, heq (hiff.mp hv), frameOf]⟩
  have hspaces : Spaces m' (· ∈ tables ++ [child]) :=
    hchild.spaces.mono (fun r hr => (hnew r).mp hr)
  refine ⟨⟨?_, hspaces, ?_, ?_, ?_, ?_⟩, htraps, ?_⟩
  · refine List.nodup_append.mpr ⟨h.nodup, by simp, ?_⟩
    intro r hr r' hr' heq
    obtain rfl := List.mem_singleton.mp hr'
    exact hchild.fresh (heq ▸ hr)
  · intro r hr r' hr' va hv
    by_cases htrap : AtTrap va
    · exact (htraps r' hr' va htrap).1
    obtain ⟨r0, hr0, hr0'⟩ := hrep r hr
    obtain ⟨r1, hr1, hr1'⟩ := hrep r' hr'
    exact (hr1' va htrap).1.mpr (h.valid r0 hr0 r1 hr1 va ((hr0' va htrap).1.mp hv))
  · intro r hr r' hr' va htrap hv
    obtain ⟨r0, hr0, hr0'⟩ := hrep r hr
    obtain ⟨r1, hr1, hr1'⟩ := hrep r' hr'
    have hv0 := (hr0' va htrap).1.mp hv
    rw [(hr0' va htrap).2 hv0, (hr1' va htrap).2 (h.valid r0 hr0 r1 hr1 va hv0)]
    exact h.agree r0 hr0 r1 hr1 va htrap hv0
  · intro r hr r' hr' va va' hv hv' heq
    rcases hpage r hr va hv with ⟨r0, hr0, hv0, hf⟩ | ⟨hvpn, hf⟩ <;>
      rcases hpage r' hr' va' hv' with ⟨r1, hr1, hv1, hf'⟩ | ⟨hvpn', hf'⟩
    · rw [hf, hf'] at heq
      exact h.distinct r0 hr0 r1 hr1 va va' hv0 hv1 heq
    · rw [hf, hf'] at heq
      exact absurd heq (ne_of_used (h.spaces.frame r0 va hr0 hv0).used hfree)
    · rw [hf, hf'] at heq
      exact absurd heq.symm (ne_of_used (h.spaces.frame r1 va' hr1 hv1).used hfree)
    · rw [hvpn, hvpn']
  · intro r hr va hv
    rcases (hnew r).mp hr with hr' | rfl
    · rw [IsMapped, hold r hr'] at hv
      rw [hold r hr']
      exact h.clean r hr' va hv
    by_cases htrap : AtTrap va
    · exact (hchild.trap htp htrap).2.2
    · obtain ⟨hiff, heq⟩ := hchild.entry htrap
      rw [heq (hiff.mp hv)]
      exact h.clean parent hparent va (hiff.mp hv)
  · intro r hr
    rcases (hnew r).mp hr with hr | rfl
    · rw [frameOf, hold r hr]
      exact h.trampolinePa r hr
    · exact htpf

end Clone

end

/-! ## System calls of threads -/

variable {s s' s0 : State} {o p c tp : ℕ} {group : List ℕ} {r : ℤ}

/-- A process and its threads, with their trap pages. -/
structure Threads (s : State) (o : ℕ) (group : List ℕ) (tp : ℕ) : Prop extends
    Team s o group where
  family : Family s.mem (tables s o) tp

section

variable (h : Threads s o group tp) (hp : p ∈ group)

include h hp

theorem Threads.call {c : Call} (hspares : SparesTraps s p c) (hsupplied : Supplied s p c)
    (hr : c.run p s = .ok (r, s')) :
    Threads s' o group tp := by
  obtain ⟨hkin, hteam, hsame⟩ := h.spares hp h.family.traps hsupplied hspares hr
  refine ⟨hteam, ?_⟩
  rw [hkin.tables]
  exact h.family.of_traps (hkin.tables o ▸ hteam.mirrored) hsame

/-! ## `sys_clone` -/

theorem Threads.eq_owner (hlead : (s.proc p).vmShared = false) : p = o := by
  rw [← h.members, Vm.members, mem_cons, mem_filter] at hp
  rcases hp with hp | ⟨-, hshared⟩
  · exact hp
  · rw [hlead] at hshared
    cases hshared

theorem Threads.clone (hlead : (s.proc p).vmShared = false) (hc : c ∉ group)
    (hchildren : c ∉ (s.proc p).children) (hr : sysClone true tp p c s = (↑c, s')) :
    Threads s' o (group ++ [c]) tp := by
  obtain rfl := h.eq_owner hp hlead
  have hpc : p ≠ c := fun he => hc (he ▸ hp)
  obtain ⟨child, htable, hproc⟩ := sysClone_ok hpc hr
  have hfamily := h.family.clone (h.table_mem hp)
    (h.mirrored.spaces.childPagetable (h.table_mem hp) (h.family.frame (h.table_mem hp)) htable)
  -- the records of the processes
  have hparent : s'.proc p = { s.proc p with children := (s.proc p).children ++ [c] } := by
    rw [hproc, update_self]
  have hthread : s'.proc c = cloneProc true p (s.proc p) child := by
    rw [hproc, update_of_ne hpc.symm, update_self]
  have hother : ∀ q, q ≠ p → q ≠ c → s'.proc q = s.proc q := by
    intro q hqp hqc
    rw [hproc, update_of_ne hqp, update_of_ne hqc]
  have hkept : ∀ q, q ≠ c → (s'.proc q).vmShared = (s.proc q).vmShared ∧
      (s'.proc q).parent = (s.proc q).parent ∧
      (s'.proc q).pagetable = (s.proc q).pagetable := by
    intro q hqc
    by_cases hqp : q = p
    · subst hqp
      rw [hparent]
      exact ⟨rfl, rfl, rfl⟩
    · rw [hother q hqp hqc]
      exact ⟨rfl, rfl, rfl⟩
  have hmembers : Vm.members s' p = group ++ [c] := by
    have hfilter : (s.proc p).children.filter (fun q => (s'.proc q).vmShared) =
        (s.proc p).children.filter (fun q => (s.proc q).vmShared) := by
      refine filter_congr (fun q hq => ?_)
      exact (hkept q (fun he => hchildren (he ▸ hq))).1
    have hold : p :: (s.proc p).children.filter (fun q => (s.proc q).vmShared) = group := h.members
    rw [Vm.members, hparent]
    rw [filter_append, hfilter, ← cons_append, hold]
    simp [hthread, cloneProc]
  have hne : ∀ q ∈ group, q ≠ c := fun q hq he => hc (he ▸ hq)
  have htables : tables s' p = tables s p ++ [child] := by
    rw [Vm.tables, hmembers, Vm.tables, h.members, map_append]
    congr 1
    · exact map_congr_left (fun q hq => (hkept q (hne q hq)).2.2)
    · simp [hthread, cloneProc]
  rw [← htables] at hfamily
  refine ⟨⟨hmembers, ?_, hfamily.toMirrored⟩, hfamily⟩
  · intro q hq
    rcases mem_append.mp hq with hq | hq
    · obtain ⟨hshared, hpar, -⟩ := hkept q (hne q hq)
      rw [sharedVmOwner, hshared, hpar]
      exact h.owner q hq
    · rw [mem_singleton.mp hq, sharedVmOwner, hthread]
      rfl

theorem Threads.cloneFailed (hr : sysClone true tp p c s = (-enomem, s')) :
    Threads s' o group tp := by
  obtain ⟨htable, hproc⟩ := sysClone_failed hr
  have hsame := h.mirrored.spaces.childPagetable_none (h.table_mem hp) htable
  have hkin := SameKin.of_proc hproc
  have hmirrored := h.mirrored.untouched hsame
  refine ⟨h.of_kin hkin hmirrored, ?_⟩
  rw [hkin.tables]
  exact h.family.of_traps hmirrored fun _ ht va _ => hsame.pteOf_eq ht va

end

/-! ## Runs -/

/-- Runs of a process and its threads. Threads are created by the process itself, and the other
calls spare the trap pages and do not run out of pages. -/
inductive ThreadRun (o tp : ℕ) (s0 : State) : List ℕ → State → Prop
  | start : ThreadRun o tp s0 [o] s0
  | clone {group : List ℕ} {s s' : State} (p c : ℕ) : ThreadRun o tp s0 group s → p ∈ group →
      (s.proc p).vmShared = false → c ∉ group → c ∉ (s.proc p).children →
      sysClone true tp p c s = (↑c, s') → ThreadRun o tp s0 (group ++ [c]) s'
  | cloneFailed {group : List ℕ} {s s' : State} (p c : ℕ) : ThreadRun o tp s0 group s →
      p ∈ group → sysClone true tp p c s = (-enomem, s') → ThreadRun o tp s0 group s'
  | call {group : List ℕ} {s s' : State} (p : ℕ) (c : Call) (r : ℤ) : ThreadRun o tp s0 group s →
      p ∈ group → SparesTraps s p c → Supplied s p c → c.run p s = .ok (r, s') →
      ThreadRun o tp s0 group s'

structure ThreadReady (s : State) (o tp : ℕ) : Prop where
  lead : (s.proc o).vmShared = false
  members : members s o = [o]
  space : Space s.mem (s.proc o).pagetable
  traps : HasTraps s o
  trampolinePa : frameOf (s.proc o).pagetable trampoline s.mem = tp

theorem ThreadReady.threads (h : ThreadReady s o tp) : Threads s o [o] tp := by
  have howner : sharedVmOwner s o = o := by
    rw [sharedVmOwner]
    split
    · rw [if_neg (by rw [h.lead]; exact Bool.false_ne_true)]
    · rfl
  have halone : Alone s o := ⟨howner, h.members⟩
  refine ⟨halone.team h.space, (halone.team h.space).mirrored, ?_, ?_⟩
  all_goals simp only [halone.tables, mem_singleton, forall_eq]
  · exact fun va htrap => h.traps.at htrap
  · exact h.trampolinePa

theorem ThreadRun.threads (h : ThreadReady s0 o tp) (hrun : ThreadRun o tp s0 group s) :
    Threads s o group tp := by
  induction hrun with
  | start => exact h.threads
  | clone p c _ hp hlead hc hchildren hr ih => exact ih.clone hp hlead hc hchildren hr
  | cloneFailed p c _ hp hr ih => exact ih.cloneFailed hp hr
  | call p c r _ hp hspares hsupplied hr ih => exact ih.call hp hspares hsupplied hr

/-- A page is the same for two processes: both have the same valid entry, or none. -/
def AgreeAt (s : State) (p q va : ℕ) : Prop :=
  (IsMapped (s.proc p).pagetable va s.mem ↔ IsMapped (s.proc q).pagetable va s.mem) ∧
    (IsMapped (s.proc p).pagetable va s.mem →
      pteOf (s.proc p).pagetable va s.mem = pteOf (s.proc q).pagetable va s.mem)

/-- Threads agree on their pages. -/
theorem threads_agree (h : ThreadReady s0 o tp) (hrun : ThreadRun o tp s0 group s) :
    ∀ p ∈ group, ∀ q ∈ group, ∀ va, IsUserPage va → AgreeAt s p q va := by
  intro p hp q hq va hva
  have hthreads := hrun.threads h
  have htrap : ¬ AtTrap va := by
    rintro (hvpn | hvpn)
    · exact hva.vpn_ne (Or.inl rfl) hvpn
    · exact hva.vpn_ne (Or.inr rfl) hvpn
  have hfamily := hthreads.family
  have hp' := hthreads.table_mem hp
  have hq' := hthreads.table_mem hq
  exact ⟨⟨hfamily.valid _ hp' _ hq' va, hfamily.valid _ hq' _ hp' va⟩,
    fun hv => (hfamily.agree _ hp' _ hq' va htrap hv).symm⟩

theorem trapProcess_threadReady : ThreadReady trapProcess 1 pmStart := by
  obtain ⟨halone, hspace, htraps⟩ := trapProcess_ready
  exact ⟨rfl, rfl, hspace, htraps, by decide +kernel⟩

def twoThreads : State := (sysClone true pmStart 1 2 trapProcess).2

theorem twoThreads_run : ThreadRun 1 pmStart trapProcess [1, 2] twoThreads :=
  .clone 1 2 .start mem_cons_self rfl (by decide) (by decide) (Prod.ext (by decide +kernel) rfl)

/-- A thread maps a page. -/
theorem threads_agree_mmap : ∃ s1 s2, sysClone true pmStart 1 2 trapProcess = (2, s1) ∧
    sysMmap 0x10000 pageSize 3 0x22 (-1) 0 2 s1 = .ok (0x10000, s2) ∧
    IsMapped (s2.proc 1).pagetable 0x10000 s2.mem ∧ AgreeAt s2 1 2 0x10000 := by
  have hok : (sysClone true pmStart 1 2 trapProcess).1 = 2 ∧
      Supplied (sysClone true pmStart 1 2 trapProcess).2 2 (.mmap 0x10000 pageSize 3 0x22 (-1) 0) ∧
      (sysMmap 0x10000 pageSize 3 0x22 (-1) 0 2 (sysClone true pmStart 1 2 trapProcess).2).checks
        (fun x => x.1 = 0x10000 ∧ IsMapped (x.2.proc 1).pagetable 0x10000 x.2.mem) = true := by
    decide +kernel
  rcases hclone : sysClone true pmStart 1 2 trapProcess with ⟨r1, s1⟩
  rw [hclone] at hok
  obtain ⟨rfl, hsupplied, hchecks⟩ := hok
  obtain ⟨⟨r, s2⟩, hr, rfl, hv⟩ := exists_of_decide hchecks
  have hrun1 := ThreadRun.start.clone 1 2 mem_cons_self rfl (by decide) (by decide) hclone
  have hrun2 := hrun1.call 2 (.mmap 0x10000 pageSize 3 0x22 (-1) 0) 0x10000 (by simp)
    (fun hrep => absurd hrep (by decide)) hsupplied hr
  exact ⟨s1, s2, rfl, hr, hv, threads_agree trapProcess_threadReady hrun2 1 (by simp) 2 (by simp)
    0x10000 ⟨by decide, by decide, by decide⟩⟩

/-- Threads never reach a page table, or with user code a trap page, and no page is at two
addresses. -/
theorem threads_isolated (h : ThreadReady s0 o tp) (hrun : ThreadRun o tp s0 group s) :
    ∀ p ∈ group, ∀ q ∈ group, ∀ va, IsMapped (s.proc p).pagetable va s.mem →
      ¬ Owns s.mem (s.proc q).pagetable (frameOf (s.proc p).pagetable va s.mem) ∧
      (AtTrap va → pteOf (s.proc p).pagetable va s.mem &&& pteU = 0) ∧
      ∀ va', IsMapped (s.proc q).pagetable va' s.mem →
        frameOf (s.proc p).pagetable va s.mem = frameOf (s.proc q).pagetable va' s.mem →
        vpn va = vpn va' := by
  intro p hp q hq va hv
  have hthreads := hrun.threads h
  have hp' := hthreads.table_mem hp
  have hq' := hthreads.table_mem hq
  have hfamily := hthreads.family
  exact ⟨(hfamily.spaces.frame _ va hp' hv).notOwns _ hq', fun ht => (hfamily.traps _ hp' va ht).2,
    fun va' hv' heq => hfamily.distinct _ hp' _ hq' va va' hv hv' heq⟩

/-- A new thread has the trampoline. -/
theorem threads_isolated_clone : let s := (sysClone true pmStart 1 2 trapProcess).2
    ¬ Owns s.mem (s.proc 1).pagetable (frameOf (s.proc 2).pagetable trampoline s.mem) := by
  exact (threads_isolated trapProcess_threadReady twoThreads_run 2 (by simp) 1 (by simp) trampoline
    (by decide +kernel)).1

/-- A thread of a thread maps a page that the first process does not have. -/
theorem threads_disagree : ThreadReady trapProcess 1 pmStart ∧ ∃ s1 s2 s3,
    sysClone true pmStart 1 2 trapProcess = (2, s1) ∧ sysClone true pmStart 2 3 s1 = (3, s2) ∧
    sysMmap 0x10000 pageSize 3 0x22 (-1) 0 3 s2 = .ok (0x10000, s3) ∧
    IsMapped (s3.proc 3).pagetable 0x10000 s3.mem ∧
    ¬ IsMapped (s3.proc 1).pagetable 0x10000 s3.mem := by
  have hok : (sysClone true pmStart 1 2 trapProcess).1 = 2 ∧
      (sysClone true pmStart 2 3 (sysClone true pmStart 1 2 trapProcess).2).1 = 3 ∧
      (sysMmap 0x10000 pageSize 3 0x22 (-1) 0 3
        (sysClone true pmStart 2 3 (sysClone true pmStart 1 2 trapProcess).2).2).checks
        (fun x => x.1 = 0x10000 ∧ IsMapped (x.2.proc 3).pagetable 0x10000 x.2.mem ∧
          ¬ IsMapped (x.2.proc 1).pagetable 0x10000 x.2.mem) = true := by
    decide +kernel
  rcases hclone1 : sysClone true pmStart 1 2 trapProcess with ⟨r1, s1⟩
  rw [hclone1] at hok
  rcases hclone2 : sysClone true pmStart 2 3 s1 with ⟨r2, s2⟩
  dsimp only at hok
  rw [hclone2] at hok
  obtain ⟨rfl, rfl, hchecks⟩ := hok
  obtain ⟨⟨r, s3⟩, hr, rfl, hv, hnot⟩ := exists_of_decide hchecks
  exact ⟨trapProcess_threadReady, s1, s2, s3, rfl, hclone2, hr, hv, hnot⟩

/-! ## A page for a group -/

/-- A page that some table of a group maps. -/
def Reaches (tables : List ℕ) (m : Memory) (pa : ℕ) : Prop :=
  ∃ r ∈ tables, ∃ va, IsMapped r va m ∧ frameOf r va m = pa

section Failure

variable {m0 m m' : Memory} {tables : List ℕ} {va pa perm : ℕ}

/-- When a new page cannot be mapped in a whole group, none of its tables maps the page exactly if
the first one could not. -/
theorem shared_map_failure_iff (hnodup : tables.Nodup) (h : Spaces m0 (· ∈ tables))
    (hpage : kzalloc m0 = (some pa, m)) (hperm : IsPerm perm)
    (hmap : sharedMapPage tables va pa perm m = (r, m')) (hr : r ≠ 0) :
    ¬ Reaches tables m' pa ↔ Unmappable (tables.headD 0) va m := by
  rcases h.kzalloc with ⟨m1, hnone, -⟩ | ⟨pa', m1, hsome, halloc⟩
  · cases hnone.symm.trans hpage
  cases hsome.symm.trans hpage
  cases tables with
  | nil => exact absurd (Prod.mk.inj hmap).1.symm hr
  | cons t rest =>
    have hacts : Acts (· ∈ t :: rest) va [pa] _ _ (fun pt => mappages pt va pa 1 perm) :=
      acts_mappages hperm
    obtain ⟨res, m1, heq, hw, hres⟩ := hacts t m mem_cons_self halloc.spaces
      (by simpa using halloc.frame)
    dsimp only at heq
    rw [sharedMapPage, forEach, heq] at hmap
    rw [headD_cons, ← (halloc.spaces.table t mem_cons_self).mappages_fails_iff halloc.frame.isPage
      perm, heq]
    rcases hres with ⟨herr, hsame⟩ | ⟨rfl, -, hnew⟩
    · rw [if_pos herr] at hmap
      obtain ⟨-, rfl⟩ := Prod.mk.inj hmap
      refine iff_of_true ?_ herr
      rintro ⟨t', ht', va', hv, hframe⟩
      have hpte := hw.pteOf_eq (by simpa using hsame) ht' va'
      rw [IsMapped, hpte] at hv
      rw [frameOf, hpte] at hframe
      exact halloc.frame_ne h ht' hv hframe
    · rw [if_neg (not_not.mpr rfl)] at hmap
      obtain ⟨hnot, hnodup'⟩ := nodup_cons.mp hnodup
      obtain ⟨res, m2, heq', hw', -⟩ := forEach_group hacts rest m1
        (fun t' ht' => mem_cons_of_mem t ht') hnodup' hw.spaces
        (by simpa using hw.isFrame pa halloc.frame)
      obtain ⟨-, rfl⟩ := Prod.mk.inj (heq'.symm.trans hmap)
      -- the entry of the first table stays
      have hpte : pteOf t va m2 = leafPte pa perm :=
        (hw'.same t va mem_cons_self (Or.inl hnot)).trans hnew
      obtain ⟨hvalid, -, hpa⟩ := leafPte_frame halloc.frame.isPage hperm.lt hperm.access
      refine iff_of_false (not_not.mpr ⟨t, mem_cons_self, va, ?_, ?_⟩) (not_not.mpr rfl)
      · rwa [IsMapped, hpte]
      · rwa [frameOf, hpte]

end Failure

/-- The memory of the two, with `n` pages left. -/
def fewPages (n : ℕ) : Memory :=
  { twoThreads.mem with answers := twoThreads.mem.answers.take n }

theorem fewPages_spaces (n : ℕ) :
    (tables twoThreads 1).Nodup ∧ Spaces (fewPages n) (· ∈ tables twoThreads 1) := by
  have h := (twoThreads_run.threads trapProcess_threadReady).family
  have hsame : Untouched twoThreads.mem (· ∈ tables twoThreads 1) (fewPages n) :=
    h.spaces.untouched (fun _ _ => rfl) (fun _ hu => hu)
  exact ⟨h.nodup, hsame.spaces h.spaces⟩

/-- No page is left for a table of the process. -/
theorem shared_map_failure_first : ∃ pa m m', kzalloc (fewPages 1) = (some pa, m) ∧
    sharedMapPage (tables twoThreads 1) 0x10000 pa pteR m = (-enomem, m') ∧
    ¬ Reaches (tables twoThreads 1) m' pa := by
  obtain ⟨hnodup, hspaces⟩ := fewPages_spaces 1
  set pa := pmStart + 10 * pageSize
  set x := sharedMapPage (tables twoThreads 1) 0x10000 pa pteR (kzalloc (fewPages 1)).2
  have hok : (kzalloc (fewPages 1)).1 = some pa ∧ x.1 = -enomem ∧
      ¬ Plenty (missing 0x10000 2 ((tables twoThreads 1).headD 0) (kzalloc (fewPages 1)).2)
        (kzalloc (fewPages 1)).2 := by
    decide +kernel
  have hmap : x = (-enomem, x.2) := Prod.ext hok.2.1 rfl
  exact ⟨pa, _, x.2, Prod.ext hok.1 rfl, hmap, (shared_map_failure_iff hnodup hspaces
    (Prod.ext hok.1 rfl) ⟨by decide, by decide⟩ hmap (by decide)).mpr
      (Or.inr (Or.inr (Or.inr hok.2.2)))⟩

/-- A process maps a page for which its thread lacks a table. -/
theorem shared_map_failure_dangles : ∃ tables m0 pa m r m', tables.Nodup ∧
    Spaces m0 (· ∈ tables) ∧ kzalloc m0 = (some pa, m) ∧
    sharedMapPage tables 0x10000 pa pteR m = (r, m') ∧ r ≠ 0 ∧ Reaches tables m' pa := by
  obtain ⟨hnodup, hspaces⟩ := fewPages_spaces 3
  set pa := pmStart + 10 * pageSize
  set x := sharedMapPage (tables twoThreads 1) 0x10000 pa pteR (kzalloc (fewPages 3)).2
  have hok : (kzalloc (fewPages 3)).1 = some pa ∧ x.1 ≠ 0 ∧
      IsMapped (twoThreads.proc 1).pagetable 0x10000 x.2 ∧
      frameOf (twoThreads.proc 1).pagetable 0x10000 x.2 = pa := by
    decide +kernel
  exact ⟨tables twoThreads 1, fewPages 3, pa, _, _, _, hnodup, hspaces, Prod.ext hok.1 rfl, rfl,
    hok.2.1, _, mem_cons_self, 0x10000, hok.2.2⟩

end NoobKernel.Vm
