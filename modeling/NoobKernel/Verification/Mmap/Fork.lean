import NoobKernel.Verification.Mmap.Trap

/-! # Memory of new processes -/

namespace NoobKernel.Vm

open Library Outcome

variable {m m' : Memory} {src dst va pt : ℕ} {F : ℕ → Prop}

/-! ## Copies -/

def contents (pt va : ℕ) (m : Memory) : Index → ℕ := m.word (frameOf pt va m)

def store (pt : ℕ) (m : Memory) (w : ℕ × Index × ℕ) : Memory :=
  setPte (frameOf pt w.1 m, w.2.1) w.2.2 m

def stores (pt : ℕ) (ws : List (ℕ × Index × ℕ)) (m : Memory) : Memory := ws.foldl (store pt) m

theorem stores_word (hF : ∀ a, F a → ¬ Owns m pt a) (ws : List (ℕ × Index × ℕ))
    (hws : ∀ w ∈ ws, F (frameOf pt w.1 m)) : ∀ a, ¬ F a → (stores pt ws m).word a = m.word a := by
  induction ws generalizing m with
  | nil => exact fun a _ => rfl
  | cons w ws ih =>
    intro a ha
    have hword : ∀ b, ¬ F b → (store pt m w).word b = m.word b := by
      intro b hb
      refine setPte_word_ne (fun he => hb ?_)
      rw [he]
      exact hws w List.mem_cons_self
    have hown : ∀ b, Owns m pt b → (store pt m w).word b = m.word b :=
      fun b hb => hword b (fun hf => hF b hf hb)
    rw [stores, List.foldl_cons, ← stores, ih ?_ ?_ a ha, hword a ha]
    · intro b hb
      rw [owns_congr hown]
      exact hF b hb
    · intro w' hw'
      rw [frameOf, pteOf_owned hown]
      exact hws w' (List.mem_cons_of_mem w hw')

theorem contents_stores {pt' : ℕ} (hF : ∀ a, F a → ¬ Owns m pt a)
    (hF' : ∀ a, F a → ¬ Owns m pt' a) (hva : ¬ F (frameOf pt' va m)) (ws : List (ℕ × Index × ℕ))
    (hws : ∀ w ∈ ws, F (frameOf pt w.1 m)) :
    contents pt' va (stores pt ws m) = contents pt' va m := by
  have hword := stores_word hF ws hws
  have hframe : frameOf pt' va (stores pt ws m) = frameOf pt' va m := by
    rw [frameOf, pteOf_owned (fun b hb => hword b (fun hf => hF' b hf hb)), frameOf]
  rw [contents, hframe, hword _ hva, contents]

/-- The destination holds a copy of the source that shares no page with it. -/
structure ExactCopy (m : Memory) (src dst : ℕ) (m' : Memory) : Prop where
  mapped : ∀ va, IsUserPage va → (IsMapped dst va m' ↔ IsMapped src va m)
  flags : ∀ va, IsUserPage va → IsMapped src va m →
    pteFlags (pteOf dst va m') = pteFlags (pteOf src va m)
  fresh : ∀ va, IsUserPage va → IsMapped dst va m' →
    m.used (frameOf dst va m') = false ∧ m'.used (frameOf dst va m') = true
  apart : ∀ va va', IsUserPage va → IsMapped dst va m' → IsMapped src va' m →
    frameOf dst va m' ≠ frameOf src va' m
  distinct : ∀ va va', IsUserPage va → IsUserPage va' → IsMapped dst va m' → IsMapped dst va' m' →
    frameOf dst va m' = frameOf dst va' m' → va = va'
  same : ∀ va, IsUserPage va → IsMapped src va m → contents dst va m' = contents src va m
  source : ∀ va, pteOf src va m' = pteOf src va m ∧
    (IsMapped src va m → contents src va m' = contents src va m)
  unseen : ∀ va ws, IsMapped src va m →
    (∀ w ∈ ws, IsUserPage w.1 ∧ IsMapped dst w.1 m') →
    contents src va (stores dst ws m') = contents src va m'
  unseen_back : ∀ va ws, IsUserPage va → IsMapped dst va m' →
    (∀ w ∈ ws, IsMapped src w.1 m) →
    contents dst va (stores src ws m') = contents dst va m'

/-- `uvmcopy_tree` copies memory exactly. -/
theorem uvmcopy_exact (h : ReadyToCopy m src dst) (hr : uvmcopyTree src dst m = (0, m')) :
    ExactCopy m src dst m' := by
  obtain ⟨frame, hcopied⟩ := uvmcopyTree_copied h hr
  have hedit := hcopied.edited
  have hframe : ∀ va, frameOf src va m' = frameOf src va m := fun va => by
    rw [frameOf, h.source_same hedit, frameOf]
  have hown : ∀ a, Owns m' src a ↔ Owns m src a := fun a => owns_congr (h.agree hedit)
  have hapart : ∀ va va', IsUserPage va → IsMapped dst va m' → IsMapped src va' m →
      frameOf dst va m' ≠ frameOf src va' m := fun va va' hva hv hv' =>
    (ne_of_used (h.frames va' hv').1 (hcopied.copyOf_frame h hva hv).free).symm
  refine
    { mapped := fun va hva => hcopied.isMapped_iff h hva
      flags := fun va hva hv => (hcopied.copyOf hva hv).flags
      fresh := fun va hva hv =>
        ⟨(hcopied.copyOf_frame h hva hv).free, (hcopied.copyOf_frame h hva hv).used⟩
      apart := hapart
      distinct := fun va va' hva hva' => hcopied.frame_inj h hva hva'
      same := ?_, source := ?_, unseen := ?_, unseen_back := ?_ }
  · intro va hva hv
    exact (hcopied.copyOf_frame h hva ((hcopied.isMapped_iff h hva).mpr hv)).content
  · intro va
    refine ⟨h.source_same hedit va, fun hv => ?_⟩
    obtain ⟨hu, -, hnot⟩ := h.frames va hv
    rw [contents, hframe, hedit.frame _ hu hnot, contents]
  · intro va ws hv hws
    -- the pages of the copy were free, so the source has no table and no page among them
    refine contents_stores (F := fun a => ∃ va, IsUserPage va ∧ IsMapped dst va m' ∧
      a = frameOf dst va m') ?_ ?_ ?_ ws (fun w hw => ⟨w.1, (hws w hw).1, (hws w hw).2, rfl⟩)
    · rintro a ⟨va', hva', hv', rfl⟩
      exact (hcopied.copyOf_frame h hva' hv').notOwns
    · rintro a ⟨va', hva', hv', rfl⟩
      rw [hown]
      exact h.source.notOwns (hcopied.copyOf_frame h hva' hv').free
    · rintro ⟨va', hva', hv', heq⟩
      rw [hframe] at heq
      exact hapart va' va hva' hv' hv heq.symm
  · intro va ws hva hv hws
    -- no page of the source is a table of either side
    refine contents_stores (F := fun a => ∃ va, IsMapped src va m ∧ a = frameOf src va m)
      ?_ ?_ ?_ ws (fun w hw => ⟨w.1, hws w hw, hframe w.1⟩)
    · rintro a ⟨va', hv', rfl⟩
      rw [hown]
      exact (h.frames va' hv').2.1
    · rintro a ⟨va', hv', rfl⟩
      exact hedit.notOwns (h.frames va' hv').1 (h.frames va' hv').2.2
    · rintro ⟨va', hv', heq⟩
      exact hapart va va' hva hv hv' heq

/-- A process with one page and its copy. -/
theorem uvmcopy_exact_one : ∃ m dst m', ReadyToCopy m (pmStart + pageSize) dst ∧
    uvmcopyTree (pmStart + pageSize) dst m = (0, m') ∧ IsMapped (pmStart + pageSize) 0x10000 m ∧
    ExactCopy m (pmStart + pageSize) dst m' := by
  have hchecks : (sysMmap 0 pageSize 3 0x22 (-1) 0 1 (emptyProcess 0)).checks (fun x =>
      (uvmcreate x.2.mem).1 = some (pmStart + 5 * pageSize) ∧
      (uvmcopyTree (pmStart + pageSize) (pmStart + 5 * pageSize) (uvmcreate x.2.mem).2).1 = 0 ∧
      IsMapped (pmStart + pageSize) 0x10000 (uvmcreate x.2.mem).2) = true := by
    decide +kernel
  obtain ⟨⟨r, s⟩, hr, hroot, hzero, hv⟩ := exists_of_decide hchecks
  rcases hcreate : uvmcreate s.mem with ⟨dst, m⟩
  rw [hcreate] at hroot hzero hv
  obtain rfl : dst = some (pmStart + 5 * pageSize) := hroot
  rcases hwalk : uvmcopyTree (pmStart + pageSize) (pmStart + 5 * pageSize) m with ⟨r', m'⟩
  rw [hwalk] at hzero
  obtain rfl : r' = 0 := hzero
  obtain ⟨-, hspace⟩ := (emptyProcess_ready 0 (by decide)).space_mmap hr
  have hcreated := hspace.spaces.uvmcreate hcreate
  have hcopy := hcreated.spaces.ready (Or.inl rfl) (Or.inr rfl) (by decide) hcreated.empty
  exact ⟨m, _, m', hcopy, hwalk, hv, uvmcopy_exact hcopy hwalk⟩

/-! ## Reservations -/

/-- Pages without access that `sys_mmap` has set aside. -/
def IsReserved (pt va : ℕ) (m : Memory) : Prop :=
  ¬ IsMapped pt va m ∧ pteOf pt va m &&& pteMmapReserved ≠ 0

instance (pt va : ℕ) (m : Memory) : Decidable (IsReserved pt va m) :=
  inferInstanceAs (Decidable (_ ∧ _))

section Reserve

variable {s s' : State} {share : Bool} {p c tp : ℕ}

/-- The reservations of a parent are those of its child: `sys_mmap` places no range over them
and `sys_mprotect` answers as it does in the parent. -/
structure ReservationsSurvive (s s' : State) (p c : ℕ) : Prop where
  reserved : ∀ va, IsUserPage va → IsReserved (s.proc p).pagetable va s.mem →
    IsReserved (s'.proc c).pagetable va s'.mem
  placed : ∀ va, IsUserPage va → IsReserved (s.proc p).pagetable va s.mem →
    ∀ addr len prot flags fd offset start s'', flags &&& mapFixed = 0 →
      sysMmap addr len prot flags fd offset c s' = .ok (↑start, s'') →
      ¬ (start ≤ va ∧ va < start + pageAlignUp len)
  protects : ∀ va, IsUserPage va → IsReserved (s.proc p).pagetable va s.mem →
    ∀ prot, (sysMprotect va pageSize prot c s').map Prod.fst =
      (sysMprotect va pageSize prot p s').map Prod.fst

theorem IsChild.not_reserved {parent child : ℕ} (h : IsChild share m (· = parent) parent tp child m')
    (hva : IsUserPage va) (hres : IsReserved parent va m) : ¬ IsReserved child va m' := by
  intro hchild
  rw [IsReserved, (h.user va hva).2 hres.1] at hchild
  exact hchild.2 rfl

/-- Reservations survive `sys_fork` and `sys_clone` only when there are none. -/
theorem reservations_survive_iff (h : Spaces s.mem (· = (s.proc p).pagetable))
    (htp : IsFrame s.mem (· = (s.proc p).pagetable) tp) (hpc : p ≠ c)
    (hr : sysClone share tp p c s = (↑c, s')) :
    ReservationsSurvive s s' p c ↔
      ∀ va, IsUserPage va → ¬ IsReserved (s.proc p).pagetable va s.mem := by
  obtain ⟨child, htable, hproc⟩ := sysClone_ok hpc hr
  have hroot : (s'.proc c).pagetable = child := by
    rw [hproc, Function.update_of_ne hpc.symm, Function.update_self]
    rfl
  have hchild := h.childPagetable rfl htp htable
  constructor
  · intro hsurvive va hva hres
    exact hchild.not_reserved hva hres (hroot ▸ hsurvive.reserved va hva hres)
  · intro hnone
    exact ⟨fun va hva hres => absurd hres (hnone va hva),
      fun va hva hres => absurd hres (hnone va hva),
      fun va hva hres => absurd hres (hnone va hva)⟩

end Reserve

/-- A process without reservations. -/
theorem reservations_survive_none : ∃ s', sysClone false pmStart 1 2 trapProcess = (2, s') ∧
    ReservationsSurvive trapProcess s' 1 2 := by
  obtain ⟨-, hspace, htraps⟩ := trapProcess_ready
  have hframe : frameOf (pmStart + 2 * pageSize) trampoline trapProcess.mem = pmStart := by
    decide +kernel
  have htp := hspace.spaces.frame _ trampoline rfl (htraps trampoline (Or.inl rfl)).1
  rw [hframe] at htp
  have hok : (sysClone false pmStart 1 2 trapProcess).1 = 2 := by decide +kernel
  rcases hclone : sysClone false pmStart 1 2 trapProcess with ⟨r, s'⟩
  rw [hclone] at hok
  obtain rfl : r = 2 := hok
  refine ⟨s', rfl, (reservations_survive_iff hspace.spaces htp (by decide) hclone).mpr ?_⟩
  intro va hva hres
  have hzero : pteOf (trapProcess.proc 1).pagetable va trapProcess.mem = 0 := trapProcess_user hva
  exact hres.2 (by rw [hzero]; rfl)

/-- The child of a process with a reserved page has it free: `sys_mmap` gives it away, and
`sys_mprotect` fails on it. -/
theorem reservation_lost : ∃ s s', Space s.mem (s.proc 1).pagetable ∧
    sysMmap 0 pageSize 0 0x22 (-1) 0 1 (emptyProcess 0) = .ok (0x10000, s) ∧
    sysFork pmStart 1 2 s = (2, s') ∧
    IsUserPage 0x10000 ∧ IsReserved (s.proc 1).pagetable 0x10000 s.mem ∧
    ¬ IsReserved (s'.proc 2).pagetable 0x10000 s'.mem ∧
    (sysMmap 0x10000 pageSize 3 0x22 (-1) 0 2 s').map Prod.fst = .ok 0x10000 ∧
    (sysMprotect 0x10000 pageSize 0 1 s').map Prod.fst = .ok 0 ∧
    (sysMprotect 0x10000 pageSize 0 2 s').map Prod.fst = .ok (-enomem) := by
  have hchecks : (sysMmap 0 pageSize 0 0x22 (-1) 0 1 (emptyProcess 0)).checks (fun x =>
      x.1 = 0x10000 ∧ (sysFork pmStart 1 2 x.2).1 = 2 ∧
      IsReserved (x.2.proc 1).pagetable 0x10000 x.2.mem ∧
      ¬ IsReserved ((sysFork pmStart 1 2 x.2).2.proc 2).pagetable 0x10000
        (sysFork pmStart 1 2 x.2).2.mem ∧
      (sysMmap 0x10000 pageSize 3 0x22 (-1) 0 2 (sysFork pmStart 1 2 x.2).2).map Prod.fst =
        .ok 0x10000 ∧
      (sysMprotect 0x10000 pageSize 0 1 (sysFork pmStart 1 2 x.2).2).map Prod.fst = .ok 0 ∧
      (sysMprotect 0x10000 pageSize 0 2 (sysFork pmStart 1 2 x.2).2).map Prod.fst =
        .ok (-enomem)) = true := by
    decide +kernel
  obtain ⟨⟨r, s⟩, hr, rfl, hfork, hres, hnot, hmmap, hparent, hchild⟩ := exists_of_decide hchecks
  have hready : HeapReady (emptyProcess 0) 1 userTop := emptyProcess_ready _ (by decide)
  obtain ⟨hkin, hspace⟩ := hready.space_mmap hr
  rw [← hkin.pagetable] at hspace
  rcases hf : sysFork pmStart 1 2 s with ⟨r', s'⟩
  rw [hf] at hfork hnot hmmap hparent hchild
  obtain rfl : r' = 2 := hfork
  exact ⟨s, s', hspace, hr, hf, ⟨by decide, by decide, by decide⟩, hres, hnot, hmmap, hparent,
    hchild⟩

end NoobKernel.Vm
