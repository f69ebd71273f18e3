import NoobKernel.Model.Files
import NoobKernel.Verification.Files.Table

/-! # References along a system call

What each operation requires of the process that performs it, and what it does to the
descriptors and references of that process. Every system call meets the requirements and gives
back what it has taken. -/

namespace NoobKernel.Files

open Library Prog Multiset

variable {fd : ℤ} {σ' : Local}

/-- Tables as they are found in the kernel. -/
abbrev Table := { fdt : FdTable // fdt.Wf }

/-- What a process knows while it runs: its descriptors, those of the child it is making, the
references it holds, processes that it has found, and processes that it has made zombies. -/
structure Local where
  table : Option Table
  child : Option Table
  held : Multiset ℕ
  seen : List ℕ
  dead : List ℕ

namespace Local

variable (σ : Local)

def hold (f : ℕ) : Local := { σ with held := f ::ₘ σ.held }

def put (f : ℕ) : Local := { σ with held := σ.held.erase f }

def setTable (table : Option Table) : Local := { σ with table }

/-- A held reference has moved into a slot. -/
def store (t : Table) (f : ℕ) : Local := (σ.put f).setTable (some t)

@[simp] theorem put_hold (f : ℕ) : (σ.hold f).put f = σ := by simp [hold, put]
@[simp] theorem setTable_hold (f : ℕ) (table : Option Table) :
    (σ.hold f).setTable table = (σ.setTable table).hold f := rfl
@[simp] theorem setTable_setTable (table table' : Option Table) :
    (σ.setTable table).setTable table' = σ.setTable table' := rfl
@[simp] theorem store_hold (t : Table) (f : ℕ) : (σ.hold f).store t f = σ.setTable (some t) := by
  rw [store, put_hold]

theorem hold_comm (f g : ℕ) : (σ.hold f).hold g = (σ.hold g).hold f :=
  congrArg (fun held => ({ σ with held } : Local)) (cons_swap g f σ.held)

end Local

/-- A slot is set aside, or the call fails. -/
def SetsAside (σ : Local) (r : ℤ) (σ' : Local) : Prop :=
  r < 0 ∧ σ' = σ ∨
    ∃ (fd : ℕ) (t t' : Table), r = fd ∧ σ.table = some t ∧ Reserves t.1 fd t'.1 ∧
      σ' = σ.setTable (some t')

/-- A held reference moves into a slot. A slot that was set aside does not refuse it. -/
def Stores (σ : Local) (fd : ℤ) (f : ℕ) (r : ℤ) (σ' : Local) : Prop :=
  (∃ t t' : Table, r = 0 ∧ σ.table = some t ∧ Installs t.1 fd.toNat f t'.1 ∧ σ' = σ.store t' f) ∨
    r < 0 ∧ σ' = σ ∧ ∀ (t : Table) (n : ℕ), σ.table = some t → fd = n → t.1.fds[n]? ≠ some .reserved

/-- The rules for process `self`. Other processes are made zombies only if `kills`, and a zombie
takes no references. -/
def rules (kills : Prop) (self : ℕ) : Rules Op Ans Local where
  ok op σ := match op with
    | .fdGet _ | .vfsOpen | .pipeFiles => self ∉ σ.dead
    | .fileGet f => f ∈ σ.held ∧ self ∉ σ.dead
    | .filePut f | .fdInstall _ f => f ∈ σ.held
    | .dupfdAlloc _ | .dup3Grow _ => σ.table.isSome
    | .allocProc | .childDup => σ.child = none ∧ self ∉ σ.dead
    | .childDrop => ∀ t ∈ σ.child, t.1.files = 0
    | .enqueue => σ.child.isSome
    | .zombie q => (q = self → σ.held = 0 ∧ σ.child = none) ∧ (q ≠ self → kills ∧ q ∈ σ.seen)
    | .fdTableFree q => q = self ∨ q ∈ σ.dead
    | _ => True
  step op σ a σ' := match op, a with
    | .fdGet _, a | .vfsOpen, a => a = none ∧ σ' = σ ∨ ∃ f, a = some f ∧ σ' = σ.hold f
    | .fdAlloc, r | .dupfdAlloc _, r => SetsAside σ r σ'
    | .dup3Grow _, r => r < 0 ∧ σ' = σ ∨ r = 0 ∧ ∃ t, σ' = σ.setTable (some t)
    | .fdInstall fd f, r => Stores σ fd f r σ'
    | .fdFree _, _ => σ' = σ ∨ σ.table.isSome ∧ ∃ t, σ' = σ.setTable (some t)
    | .fileGet f, _ => σ' = σ.hold f
    | .filePut f, _ => σ' = σ.put f
    | .pipeFiles, a =>
      a = none ∧ σ' = σ ∨ ∃ rf wf, a = some (rf, wf) ∧ σ' = (σ.hold wf).hold rf
    | .ask, _ | .reap, _ => σ' = σ
    | .target, a => a = none ∧ σ' = σ ∨ ∃ q, a = some q ∧ σ' = { σ with seen := q :: σ.seen }
    | .allocProc, r => r = false ∧ σ' = σ ∨
        r = true ∧ ∃ t : Table, t.1.files = 0 ∧ σ' = { σ with child := some t }
    | .childFree, _ | .childDrop, _ | .enqueue, _ => σ' = { σ with child := none }
    | .childDup, r => r = false ∧ σ' = σ ∨ r = true ∧ ∃ t, σ' = { σ with child := some t }
    | .fdTableFree q, _ => σ' = if q = self then σ.setTable none else σ
    | .zombie q, _ => σ' = { σ with dead := q :: σ.dead }

/-- What holds when a system call returns. -/
def Returned (self : ℕ) (σ : Local) : Prop :=
  σ.held = 0 ∧ σ.child = none ∧ (σ.table.isSome ∨ self ∈ σ.dead)

/-- The code meets the rules and gives back what it takes. -/
abbrev Balanced {α : Type} (kills : Prop) (self : ℕ) (code : Code α) (σ : Local) : Prop :=
  Wp (rules kills self) code (fun _ => Returned self) σ

/-- What holds when a system call starts. -/
structure Ready (p : ℕ) (σ : Local) : Prop where
  held : σ.held = 0
  child : σ.child = none
  table : σ.table.isSome
  alive : p ∉ σ.dead

theorem Ready.returned {self : ℕ} {σ : Local} (h : Ready self σ) : Returned self σ :=
  ⟨h.held, h.child, Or.inl h.table⟩

theorem Ready.setTable {self : ℕ} {σ : Local} (h : Ready self σ) {table : Option Table}
    (ht : table.isSome) : Ready self (σ.setTable table) := ⟨h.held, h.child, ht, h.alive⟩

/-! ## Rules for single operations -/

section Operations

variable {kills : Prop} {self : ℕ} {α : Type} {Q : α → Local → Prop} {σ : Local} {f : ℕ}

theorem wp_perform {op : Op} {rest : Ans op → Code α} :
    Wp (rules kills self) (perform op >>= rest) Q σ ↔ (rules kills self).ok op σ ∧
      ∀ a σ', (rules kills self).step op σ a σ' → Wp (rules kills self) (rest a) Q σ' := Iff.rfl

theorem wp_last {op : Op} {Q : Ans op → Local → Prop} :
    Wp (rules kills self) (perform op) Q σ ↔ (rules kills self).ok op σ ∧
      ∀ a σ', (rules kills self).step op σ a σ' → Q a σ' := Iff.rfl

theorem wp_ask {rest : ℤ → Code α} (h : ∀ r, Wp (rules kills self) (rest r) Q σ) :
    Wp (rules kills self) (perform .ask >>= rest) Q σ := by
  refine wp_perform.mpr ⟨trivial, fun r σ' hs => ?_⟩
  obtain rfl : σ' = σ := hs
  exact h r

theorem wp_filePut {rest : Unit → Code α} (h : Wp (rules kills self) (rest ()) Q σ) :
    Wp (rules kills self) (perform (.filePut f) >>= rest) Q (σ.hold f) := by
  refine wp_perform.mpr ⟨mem_cons_self f _, ?_⟩
  rintro _ _ rfl
  rwa [Local.put_hold]

section

variable {rest : Option ℕ → Code α} (halive : self ∉ σ.dead)
  (hnone : Wp (rules kills self) (rest none) Q σ)
  (hsome : ∀ f, Wp (rules kills self) (rest (some f)) Q (σ.hold f))

include halive hnone hsome

theorem wp_fdGet : Wp (rules kills self) (perform (.fdGet fd) >>= rest) Q σ := by
  refine wp_perform.mpr ⟨halive, fun r σ' hs => ?_⟩
  rcases hs with ⟨rfl, rfl⟩ | ⟨f, rfl, rfl⟩
  · exact hnone
  · exact hsome f

theorem wp_vfsOpen : Wp (rules kills self) (perform .vfsOpen >>= rest) Q σ :=
  @wp_fdGet 0 _ _ _ _ _ rest halive hnone hsome

end

section

variable {rest : Unit → Code α}
  (h : ∀ table, (σ.table.isSome → table.isSome) →
    Wp (rules kills self) (rest ()) Q (σ.setTable table))

include h

theorem wp_fdFree : Wp (rules kills self) (perform (.fdFree fd) >>= rest) Q σ := by
  refine wp_perform.mpr ⟨trivial, fun _ σ' hs => ?_⟩
  rcases hs with rfl | ⟨-, t, rfl⟩
  · exact h σ'.table id
  · exact h (some t) (fun _ => rfl)

theorem wp_fdFreeIf : Wp (rules kills self) (fdFreeIf fd >>= rest) Q σ := by
  unfold fdFreeIf
  split
  · exact wp_fdFree h
  · exact h σ.table id

end

end Operations

/-! ## The system calls -/

section Calls

variable {kills : Prop} {self : ℕ} {σ : Local} {f : ℕ} (h : Ready self σ)

include h

theorem wp_putReturn (r : ℤ) :
    Balanced kills self (perform (.filePut f) >>= fun _ => (return r : Code ℤ)) (σ.hold f) :=
  wp_filePut h.returned

theorem wp_askReturn : Balanced kills self (perform .ask) σ :=
  wp_last.mpr ⟨trivial, fun _ σ' hs => (show σ' = σ from hs) ▸ h.returned⟩

theorem wp_sysClose (fd : ℤ) : Balanced kills self (sysClose fd) σ := by
  refine wp_perform.mpr ⟨trivial, fun _ σ' hs => ?_⟩
  rcases hs with rfl | ⟨-, t, rfl⟩
  · exact h.returned
  · exact (h.setTable rfl).returned

theorem wp_installDup (newfd : ℤ) :
    Balanced kills self (installDup f newfd) (σ.hold f) := by
  refine wp_perform.mpr ⟨⟨mem_cons_self f _, h.alive⟩, ?_⟩
  rintro _ _ rfl
  refine wp_perform.mpr ⟨mem_cons_self f _, fun r σ2 hs => ?_⟩
  rcases hs with ⟨t, t', rfl, -, -, rfl⟩ | ⟨hneg, rfl, -⟩
  · rw [if_neg (lt_irrefl 0), Local.store_hold, Local.setTable_hold]
    exact wp_putReturn (h.setTable rfl) newfd
  · rw [if_pos hneg]
    exact wp_filePut (wp_putReturn h _)

theorem SetsAside.ready {r : ℤ} (hs : SetsAside (σ.hold f) r σ') :
    ∃ σ1, σ' = σ1.hold f ∧ Ready self σ1 := by
  rcases hs with ⟨-, rfl⟩ | ⟨fd, t, t', -, -, -, rfl⟩
  · exact ⟨σ, rfl, h⟩
  · exact ⟨σ.setTable (some t'), rfl, h.setTable rfl⟩

theorem wp_sysDup (oldfd : ℤ) : Balanced kills self (sysDup oldfd) σ := by
  refine wp_fdGet h.alive h.returned (fun f => ?_)
  refine wp_perform.mpr ⟨trivial, fun newfd σ' hs => ?_⟩
  obtain ⟨σ1, rfl, h1⟩ := SetsAside.ready h hs
  split
  · exact wp_putReturn h1 _
  · exact wp_installDup h1 newfd

theorem wp_sysDup3 (oldfd newfd : ℤ) : Balanced kills self (sysDup3 oldfd newfd) σ := by
  unfold sysDup3
  split
  · exact h.returned
  refine wp_perform.mpr ⟨h.table, fun r σ' hs => ?_⟩
  have h' : Ready self σ' := by
    rcases hs with ⟨-, rfl⟩ | ⟨-, t, rfl⟩
    · exact h
    · exact h.setTable rfl
  split
  · exact h'.returned
  split
  · exact h'.returned
  refine wp_fdGet h'.alive h'.returned (fun f => ?_)
  refine wp_perform.mpr ⟨trivial, fun _ σ'' hs => ?_⟩
  rcases hs with rfl | ⟨-, t, rfl⟩
  · exact wp_installDup h' newfd
  · exact wp_installDup (h'.setTable rfl) newfd

theorem wp_sysFcntl (fd : ℤ) (cmd : ℕ) (arg : ℤ) :
    Balanced kills self (sysFcntl fd cmd arg) σ := by
  refine wp_fdGet h.alive h.returned (fun f => ?_)
  dsimp only
  split
  · refine wp_perform.mpr ⟨h.table, fun newfd σ' hs => ?_⟩
    obtain ⟨σ1, rfl, h1⟩ := SetsAside.ready h hs
    split
    · exact wp_putReturn h1 _
    · exact wp_installDup h1 newfd
  · exact wp_ask (fun flags => wp_putReturn h flags)

omit h in
theorem Stores.of_reserved {fd : ℕ} {r : ℤ} {t : Table} (hs : Stores σ fd f r σ')
    (ht : σ.table = some t) (hslot : t.1.fds[fd]? = some .reserved) :
    r = 0 ∧ ∃ t' : Table, Installs t.1 fd f t'.1 ∧ σ' = σ.store t' f := by
  rcases hs with ⟨t1, t', rfl, ht1, hinst, rfl⟩ | ⟨-, -, hnot⟩
  · obtain rfl : t1 = t := Option.mem_unique ht1 ht
    exact ⟨rfl, t', hinst, rfl⟩
  · exact absurd hslot (hnot t fd ht rfl)

theorem wp_sysPipe2 : Balanced kills self sysPipe2 σ := by
  refine wp_perform.mpr ⟨h.alive, fun files σ' hs => ?_⟩
  rcases hs with ⟨rfl, rfl⟩ | ⟨rf, wf, rfl, rfl⟩
  · exact h.returned
  refine wp_perform.mpr ⟨trivial, fun rfd σ1 hrfd => ?_⟩
  refine wp_perform.mpr ⟨trivial, fun wfd σ2 hwfd => ?_⟩
  -- both allocations keep the references, and the second one keeps the first slot
  have hkeep : ∃ table, σ2 = ((σ.setTable table).hold wf).hold rf ∧
      (σ.table.isSome → table.isSome) := by
    rcases hrfd with ⟨-, rfl⟩ | ⟨fd, t, t', -, -, -, rfl⟩
    · rcases hwfd with ⟨-, rfl⟩ | ⟨fd, t, t', -, -, -, rfl⟩
      · exact ⟨_, rfl, id⟩
      · exact ⟨_, rfl, fun _ => rfl⟩
    · rcases hwfd with ⟨-, rfl⟩ | ⟨fd, t, t', -, -, -, rfl⟩ <;> exact ⟨_, rfl, fun _ => rfl⟩
  by_cases hfail : rfd < 0 ∨ wfd < 0
  · obtain ⟨table, rfl, htable⟩ := hkeep
    rw [if_pos hfail]
    refine wp_fdFreeIf (fun table1 h1 => wp_fdFreeIf (fun table2 h2 => ?_))
    simp only [Local.setTable_hold, Local.setTable_setTable]
    exact wp_filePut (wp_putReturn (h.setTable (h2 (h1 (htable h.table)))) _)
  · rcases hrfd with ⟨hneg, -⟩ | ⟨r, t, t1, rfl, ht, hr, rfl⟩
    · exact absurd (Or.inl hneg) hfail
    rcases hwfd with ⟨hneg, -⟩ | ⟨w, t1', t2, rfl, ht1, hw, rfl⟩
    · exact absurd (Or.inr hneg) hfail
    obtain rfl : t1' = t1 := Option.some.inj ht1.symm
    have hne := hr.ne hw
    refine wp_perform.mpr ⟨mem_cons_self rf _, fun _ σ3 hs => ?_⟩
    obtain ⟨-, t3, hinst, rfl⟩ := Stores.of_reserved hs rfl (hw.others hr.wf hr.slot hne)
    simp only [Local.setTable_hold, Local.setTable_setTable, Local.store_hold]
    refine wp_perform.mpr ⟨mem_cons_self wf _, fun _ σ4 hs => ?_⟩
    obtain ⟨-, t4, -, rfl⟩ := Stores.of_reserved hs rfl (hinst.others hw.wf hw.slot (Ne.symm hne))
    rw [Local.store_hold]
    refine wp_ask (fun r' => ?_)
    split
    · refine wp_fdFree (fun table1 h1 => wp_fdFree (fun table2 h2 => ?_))
      exact (h.setTable (h2 (h1 rfl))).returned
    · exact (h.setTable rfl).returned

omit h in
/-- A file, with its reference, or nothing. -/
def Opened (σ : Local) (file : Option ℕ) (σ' : Local) : Prop :=
  file = none ∧ σ' = σ ∨ ∃ f, file = some f ∧ σ' = σ.hold f

theorem wp_openResult (put : Bool) {file : Option ℕ} (hfile : Opened σ file σ') :
    Balanced kills self (openResult put file) σ' := by
  rcases hfile with ⟨rfl, rfl⟩ | ⟨f, rfl, rfl⟩
  · exact wp_askReturn h
  refine wp_perform.mpr ⟨trivial, fun fd σ1 hs => ?_⟩
  rcases hs with ⟨hneg, rfl⟩ | ⟨n, t, t', rfl, -, hres, rfl⟩
  · rw [if_pos hneg]
    exact wp_putReturn h _
  rw [if_neg (Int.not_lt.mpr (Int.natCast_nonneg n))]
  refine wp_perform.mpr ⟨mem_cons_self f _, fun r σ2 hs => ?_⟩
  obtain ⟨rfl, t'', -, rfl⟩ := Stores.of_reserved hs rfl hres.slot
  rw [if_neg (lt_irrefl 0), Local.setTable_hold, Local.store_hold]
  exact (h.setTable rfl).returned

theorem wp_openPseudo : Balanced kills self openPseudo σ :=
  wp_vfsOpen h.alive (wp_openResult h true (Or.inl ⟨rfl, rfl⟩))
    (fun f => wp_openResult h true (Or.inr ⟨f, rfl, rfl⟩))

theorem wp_resolveDirfdBase (relative : Bool) (dirfd : ℤ) :
    Wp (rules kills self) (resolveDirfdBase relative dirfd) (Opened σ) σ := by
  unfold resolveDirfdBase
  split
  · exact Or.inl ⟨rfl, rfl⟩
  refine wp_fdGet h.alive (Or.inl ⟨rfl, rfl⟩) (fun f => ?_)
  refine wp_ask (fun r => ?_)
  split
  · exact wp_filePut (Or.inl ⟨rfl, rfl⟩)
  · exact Or.inr ⟨f, rfl, rfl⟩

theorem wp_sysOpenat (pseudo relative : Bool) (dirfd : ℤ) :
    Balanced kills self (sysOpenat pseudo relative dirfd) σ := by
  refine wp_ask (fun r => ?_)
  split
  · exact h.returned
  split
  · exact wp_openPseudo h
  refine (wp_resolveDirfdBase h relative dirfd).bind (fun dirFile σ1 hdir => ?_)
  have hnone : Opened σ none σ := Or.inl ⟨rfl, rfl⟩
  have hsome : ∀ f, Opened σ (some f) (σ.hold f) := fun f => Or.inr ⟨f, rfl, rfl⟩
  rcases hdir with ⟨rfl, rfl⟩ | ⟨dir, rfl, rfl⟩
  · exact wp_vfsOpen h.alive (wp_openResult h false hnone) (fun f => wp_openResult h false (hsome f))
  -- the directory is given back before the file gets its descriptor
  refine wp_vfsOpen h.alive (wp_filePut (wp_openResult h false hnone)) (fun f => ?_)
  rw [Local.hold_comm]
  exact wp_filePut (wp_openResult h false (hsome f))

/-- The references of `sys_read` and `sys_write` are the same in all rounds of their loops. -/
theorem wp_readLoop (len fuel done : ℕ) :
    Balanced kills self (readLoop f len fuel done) (σ.hold f) := by
  induction fuel generalizing done with
  | zero => exact wp_putReturn h _
  | succ fuel ih =>
    unfold readLoop
    split
    · exact wp_putReturn h _
    refine wp_ask (fun ret => ?_)
    split
    · exact wp_putReturn h _
    split
    · exact wp_putReturn h _
    refine wp_ask (fun copied => ?_)
    split
    · exact wp_putReturn h _
    split
    · exact wp_putReturn h _
    · exact ih _

theorem wp_writeLoop (len fuel done : ℕ) :
    Balanced kills self (writeLoop f len fuel done) (σ.hold f) := by
  induction fuel generalizing done with
  | zero => exact wp_putReturn h _
  | succ fuel ih =>
    unfold writeLoop
    split
    · exact wp_putReturn h _
    refine wp_ask (fun copied => ?_)
    split
    · exact wp_putReturn h _
    refine wp_ask (fun ret => ?_)
    split
    · exact wp_putReturn h _
    split
    · exact wp_putReturn h _
    · exact ih _

theorem wp_sysRead (fd : ℤ) (len : ℕ) : Balanced kills self (sysRead fd len) σ := by
  unfold sysRead
  split
  · exact h.returned
  · exact wp_fdGet h.alive h.returned (fun f => wp_readLoop h len len 0)

theorem wp_sysWrite (fd : ℤ) (len : ℕ) : Balanced kills self (sysWrite fd len) σ := by
  unfold sysWrite
  split
  · exact h.returned
  refine wp_fdGet h.alive ?_ (fun f => wp_writeLoop h len len 0)
  dsimp only
  split
  · exact wp_askReturn h
  · exact h.returned

/-! ### Processes -/

theorem wp_forkFailed (child : Option Table) : Balanced kills self forkFailed { σ with child } := by
  refine wp_perform.mpr ⟨trivial, ?_⟩
  rintro _ _ rfl
  refine wp_perform.mpr ⟨nofun, ?_⟩
  rintro _ _ rfl
  exact ⟨h.held, rfl, Or.inl h.table⟩

theorem wp_forkRest (t : Table) (asks : ℕ) :
    Balanced kills self (forkRest asks) { σ with child := some t } := by
  induction asks with
  | zero =>
    refine wp_last.mpr ⟨rfl, fun _ σ' hs => ?_⟩
    obtain rfl : σ' = { σ with child := none } := hs
    exact ⟨h.held, rfl, Or.inl h.table⟩
  | succ asks ih =>
    refine wp_ask (fun r => ?_)
    split
    · exact wp_forkFailed h (some t)
    · exact ih

theorem wp_childDrop {t : Table} (ht : t.1.files = 0) :
    Balanced kills self
      (perform .childDrop >>= fun _ => (return -enomem : Code ℤ)) { σ with child := some t } := by
  refine wp_perform.mpr ⟨?_, fun _ σ' hs => ?_⟩
  · rintro t' ht'
    obtain rfl := Option.some.inj ht'
    exact ht
  · obtain rfl : σ' = { σ with child := none } := hs
    exact ⟨h.held, rfl, Or.inl h.table⟩

theorem wp_forkChild (asks : ℕ) : Balanced kills self (forkChild asks) σ := by
  refine wp_perform.mpr ⟨⟨h.child, h.alive⟩, fun r σ1 hs => ?_⟩
  rcases hs with ⟨rfl, rfl⟩ | ⟨rfl, t, ht, rfl⟩
  · exact h.returned
  refine wp_ask (fun r => ?_)
  split
  · exact wp_childDrop h ht
  refine wp_ask (fun r => ?_)
  split
  · exact wp_childDrop h ht
  refine wp_perform.mpr ⟨trivial, ?_⟩
  rintro _ _ rfl
  refine wp_perform.mpr ⟨⟨rfl, h.alive⟩, fun r σ3 hs => ?_⟩
  rcases hs with ⟨rfl, rfl⟩ | ⟨rfl, t, rfl⟩
  · refine wp_perform.mpr ⟨nofun, ?_⟩
    rintro _ _ rfl
    exact ⟨h.held, rfl, Or.inl h.table⟩
  · exact wp_forkRest h t asks

omit h in
theorem wp_reapLoop (n : ℕ) : Wp (rules kills self) (reapLoop n) (fun _ σ' => σ' = σ) σ := by
  induction n with
  | zero => rfl
  | succ n ih =>
    refine wp_perform.mpr ⟨trivial, ?_⟩
    rintro _ _ rfl
    exact ih

theorem wp_sysClone (thread : Bool) (settids : ℕ) :
    Balanced kills self (sysClone thread settids) σ := by
  unfold sysClone
  split
  · refine wp_ask (fun n => ?_)
    refine (wp_reapLoop n.toNat).bind (fun _ σ' hs => ?_)
    subst hs
    exact wp_forkChild h _
  · exact wp_forkChild h _

theorem wp_sysExit : Balanced kills self (sysExit self) σ := by
  refine wp_perform.mpr ⟨Or.inl rfl, fun _ σ1 hs => ?_⟩
  obtain rfl : σ1 = σ.setTable none := hs.trans (if_pos rfl)
  refine wp_perform.mpr ⟨⟨fun _ => ⟨h.held, h.child⟩, fun hne => absurd rfl hne⟩, ?_⟩
  rintro _ _ rfl
  exact ⟨h.held, h.child, Or.inr List.mem_cons_self⟩

theorem wp_execveDie : Balanced kills self (execveDie self) σ := by
  refine wp_perform.mpr ⟨⟨fun _ => ⟨h.held, h.child⟩, fun hne => absurd rfl hne⟩, ?_⟩
  rintro _ _ rfl
  refine wp_perform.mpr ⟨Or.inl rfl, fun _ σ2 hs => ?_⟩
  obtain rfl : σ2 = Local.setTable { σ with dead := self :: σ.dead } none := hs.trans (if_pos rfl)
  exact ⟨h.held, h.child, Or.inr List.mem_cons_self⟩

theorem wp_execveInterp : Balanced kills self (execveInterp self) σ := by
  refine wp_vfsOpen h.alive (wp_execveDie h) (fun f => ?_)
  refine wp_ask (fun r => ?_)
  split
  · exact wp_filePut (wp_execveDie h)
  refine wp_ask (fun rc => ?_)
  refine wp_filePut ?_
  split
  · exact wp_execveDie h
  · exact wp_askReturn h

theorem wp_execveElf : Balanced kills self (execveElf self f) (σ.hold f) := by
  refine wp_ask (fun r => ?_)
  split
  · exact wp_putReturn h _
  refine wp_ask (fun argc => ?_)
  split
  · exact wp_putReturn h _
  refine wp_ask (fun envc => ?_)
  split
  · exact wp_putReturn h _
  refine wp_ask (fun rc => ?_)
  split
  · exact wp_filePut (wp_execveDie h)
  refine wp_filePut (wp_ask (fun r => ?_))
  split
  · exact wp_askReturn h
  · exact wp_execveInterp h

theorem wp_sysExecve (script : Bool) : Balanced kills self (sysExecve self script) σ := by
  have hask : Balanced kills self (perform .ask) σ := wp_askReturn h
  refine wp_ask (fun r => ?_)
  split
  · exact h.returned
  refine wp_vfsOpen h.alive hask (fun f => ?_)
  dsimp only
  split
  · refine wp_filePut (wp_ask (fun r => ?_))
    split
    · exact h.returned
    · exact wp_vfsOpen h.alive hask (fun f => wp_execveElf h)
  · exact wp_execveElf h

theorem wp_sysKill (hkills : kills) (sig : ℤ) : Balanced kills self (sysKill sig) σ := by
  refine wp_perform.mpr ⟨trivial, fun r σ1 hs => ?_⟩
  rcases hs with ⟨rfl, rfl⟩ | ⟨q, rfl, rfl⟩
  · exact h.returned
  dsimp only
  split
  · refine wp_perform.mpr ⟨⟨fun _ => ⟨h.held, h.child⟩, fun _ => ⟨hkills, List.mem_cons_self⟩⟩,
      fun _ σ2 hs => ?_⟩
    obtain rfl : σ2 = { σ with seen := q :: σ.seen, dead := q :: σ.dead } := hs
    refine wp_perform.mpr ⟨Or.inr List.mem_cons_self, fun _ σ3 hs => ?_⟩
    by_cases hq : q = self
    · subst hq
      obtain rfl := hs.trans (if_pos rfl)
      exact ⟨h.held, h.child, Or.inr List.mem_cons_self⟩
    · obtain rfl := hs.trans (if_neg hq)
      exact ⟨h.held, h.child, Or.inl h.table⟩
  · exact ⟨h.held, h.child, Or.inl h.table⟩

/-- Every system call meets the rules. -/
theorem Call.wp (c : Call) (hkills : ∀ sig, c = .kill sig → kills) :
    Balanced kills self (c.code self) σ := by
  cases c with
  | openat pseudo relative dirfd => exact wp_sysOpenat h pseudo relative dirfd
  | close fd => exact wp_sysClose h fd
  | dup oldfd => exact wp_sysDup h oldfd
  | dup3 oldfd newfd => exact wp_sysDup3 h oldfd newfd
  | fcntl fd cmd arg => exact wp_sysFcntl h fd cmd arg
  | pipe2 => exact wp_sysPipe2 h
  | read fd len => exact wp_sysRead h fd len
  | write fd len => exact wp_sysWrite h fd len
  | fork => exact wp_forkChild h 4
  | clone thread settids => exact wp_sysClone h thread settids
  | execve script => exact wp_sysExecve h script
  | exit => exact wp_sysExit h
  | kill sig => exact wp_sysKill h (hkills sig rfl) sig

end Calls

end NoobKernel.Files
