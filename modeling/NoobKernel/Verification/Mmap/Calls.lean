import NoobKernel.Verification.Mmap.Mirrored

/-! # System calls of a process and its threads -/

namespace NoobKernel.Vm

open Library Function Nat

variable {m m' : Memory} {own va pa perm a n start stop : ℕ} {share : Bool}

/-! ## Ranges -/

theorem mem_pagesFrom (n : ℕ) :
    ∀ start, a ∈ pagesFrom n start ↔ ∃ k < n, a = start + k * pageSize := by
  induction n with
  | zero => simp [pagesFrom]
  | succ n ih =>
    intro start
    rw [pagesFrom, List.mem_cons, ih]
    constructor
    · rintro (rfl | ⟨k, hk, rfl⟩)
      · exact ⟨0, succ_pos n, by simp⟩
      · exact ⟨k + 1, succ_lt_succ hk, by rw [succ_mul]; omega⟩
    · rintro ⟨k, hk, rfl⟩
      cases k with
      | zero => exact Or.inl (by simp)
      | succ k => exact Or.inr ⟨k, lt_of_succ_lt_succ hk, by rw [succ_mul]; omega⟩

theorem mem_pages : a ∈ pages start stop ↔ ∃ k, a = start + k * pageSize ∧ a < stop := by
  rw [pages, mem_pagesFrom]
  constructor
  · rintro ⟨k, hk, rfl⟩
    norm_num at hk ⊢
    omega
  · rintro ⟨k, rfl, hlt⟩
    norm_num at hlt ⊢
    omega

theorem lt_of_mem_pages (h : a ∈ pages start stop) : start ≤ a ∧ a < stop := by
  obtain ⟨k, rfl, hlt⟩ := mem_pages.mp h
  exact ⟨le_add_right _ _, hlt⟩

theorem length_pages (start stop : ℕ) :
    (pages start stop).length = (stop - start + (pageSize - 1)) / pageSize := by
  suffices hcount : ∀ n start, (pagesFrom n start).length = n from hcount _ _
  intro n
  induction n with
  | zero => exact fun _ => rfl
  | succ n ih => exact fun start => congrArg succ (ih _)

/-! ## Pages -/

/-- Pages that `walkaddr` finds. -/
def IsUser (a pte : ℕ) : Prop := a < vmEnd ∧ UserPte pte

/-- Pages that `sys_munmap` drops. -/
def IsDropped (a pte : ℕ) : Prop := IsUser a pte ∨ pte &&& pteMmapReserved ≠ 0

theorem not_isUser_zero (a : ℕ) : ¬ IsUser a 0 := fun h => h.2.1 rfl

theorem not_isDropped_zero (a : ℕ) : ¬ IsDropped a 0 := by
  rintro (h | h)
  · exact not_isUser_zero a h
  · exact h rfl

section Pages

variable {tables : List ℕ}

theorem headD_mem (hown : own ∈ tables) : tables.headD 0 ∈ tables := by
  cases tables with
  | nil => cases hown
  | cons r rest => exact List.mem_cons_self

section Page

variable (h : Mirrored m tables) (hown : own ∈ tables)

include h

section

variable (henough : Enough tables (n + 1) m)

include henough

theorem Mirrored.mapNew (hperm : IsPerm perm) (a : ℕ) :
    Round true tables (AtPage a) n m (mapNew tables perm a m) := by
  unfold Vm.mapNew
  rcases h.mapFresh hperm a henough with ⟨m', hnone, hadds⟩ | ⟨pa, m1, r, m', hsome, hmap, hres⟩
  · rw [hnone]
    exact hadds.failed (by decide)
  rw [hsome]
  simp only [hmap]
  rcases hres with ⟨herr, -, hadds⟩ | ⟨rfl, hadds, -, -, hrest⟩
  · rw [if_pos herr]
    exact hadds.failed (by decide)
  · rw [if_neg (not_not.mpr rfl)]
    exact ⟨hadds, fun _ => hrest⟩

theorem Mirrored.idle {fresh : Bool} {P : ℕ → Prop} : Round fresh tables P n m ((0 : ℤ), m) :=
  ⟨Changes.refl h, fun _ => henough.mono (le_succ n)⟩

theorem Mirrored.growPage (own a : ℕ) :
    Round true tables (AtPage a) n m (growPage own tables a m) := by
  rw [growPage_eq]
  split
  · exact h.idle henough
  · exact h.mapNew henough ⟨by decide, by decide⟩ a

include hown

theorem Mirrored.placePage (hperm : IsPerm perm) (protNone : Bool) (hnot : ¬ IsMapped own a m) :
    Round true tables (AtPage a) n m (placePage tables protNone perm a m) := by
  cases protNone with
  | true =>
    obtain ⟨r, m', hreserve, hadds, hrest⟩ := h.reserve hown hnot henough
    simp only [Vm.placePage, hreserve, if_true]
    split
    · exact hadds.failed (by decide)
    · rename_i hzero
      exact ⟨hadds, fun _ => hrest (not_not.mp hzero)⟩
  | false =>
    exact h.mapNew henough hperm a

/-- The anonymous loop adds pages; with `MAP_FIXED` it changes the pages of the range. -/
theorem Mirrored.anonPage (hperm : IsPerm perm) (fixed protNone : Bool)
    (ha : fixed = true → a < wordSize) :
    Round (!fixed) tables (AtPage a) n m (anonPage own tables fixed protNone perm a m) := by
  have hsupply := sharedUnmapPage_supply tables a m
  have hplace : ∀ {fresh m1}, Changes fresh tables (AtPage a) m m1 → Enough tables (n + 1) m1 →
      ¬ IsMapped own a m1 →
      Round fresh tables (AtPage a) n m (Vm.placePage tables protNone perm a m1) := by
    intro fresh m1 h1 henough1 hnot
    have hround := h1.mirrored.placePage hown henough1 hperm protNone hnot
    exact ⟨h1.trans hround.changes.of_adds, hround.enough⟩
  unfold Vm.anonPage
  rcases h.spaces.walkaddr_cases hown a with hzero | ⟨hne, hframe, -, huser⟩
  · rw [if_neg (not_not.mpr hzero)]
    by_cases hv : pteOf own a m &&& pteV ≠ 0
    · rw [if_pos hv]
      cases fixed with
      | false => exact h.idle henough
      | true =>
        obtain ⟨-, hzero', hdrops⟩ := h.unmap (ha rfl)
        exact hplace hdrops.changes
          (henough.of_free hsupply.1 fun b hb => by rwa [hsupply.2])
            (notMapped_zero (hzero' own hown))
    · rw [if_neg hv]
      exact hplace (Changes.refl h) henough hv
  · rw [if_pos hne, hframe]
    cases fixed with
    | false => exact h.idle henough
    | true =>
      obtain ⟨hdrops, hzero'⟩ := h.unmapFree (ha rfl) hown huser.1
      have hfreed : Freed (fun _ => True) (sharedUnmapPage tables a m) _ :=
        Freed.kfree (a := frameOf own a m) trivial
      exact hplace hdrops.changes (henough.of_free (hfreed.answers.trans hsupply.1)
        fun b hb => hfreed.free b (by rwa [hsupply.2])) (notMapped_zero (hzero' own hown))

/-- The first table is that of the owner. -/
theorem Mirrored.protectPage (hperm : IsPerm perm) (a : ℕ) :
    Round false tables (AtPage a) n m (sharedProtectPage tables a perm m) := by
  have hhead := headD_mem hown
  unfold sharedProtectPage
  by_cases hv : pteOf (tables.headD 0) a m &&& pteV = 0
  · rw [if_pos hv]
    by_cases hres : pteOf (tables.headD 0) a m &&& pteMmapReserved = 0
    · rw [if_pos hres]
      exact (Changes.refl h).failed (by decide)
    rw [if_neg hres]
    by_cases hnone : perm &&& pteU = 0
    · rw [if_pos hnone]
      exact h.idle henough
    rw [if_neg hnone]
    rcases h.mapFresh hperm a henough with ⟨m', hkz, hadds⟩ | ⟨pa, m1, r, m', hkz, hmap, hres⟩
    · rw [hkz]
      exact (Changes.of_adds hadds).failed (by decide)
    rw [hkz]
    simp only [hmap]
    rcases hres with ⟨herr, hadds, -⟩ | ⟨-, hadds, -, -, hrest⟩
    · exact (Changes.of_adds hadds).failed herr
    · exact ⟨hadds.of_adds, fun _ => hrest⟩
  · rw [if_neg hv]
    obtain ⟨r, m', heq, hchanges, hrest⟩ := h.protect hperm hhead hv (henough.mono (le_succ n))
    rw [heq]
    exact ⟨hchanges, hrest⟩

omit h henough in
/-- The loop of `sys_mprotect` stops at the first page that is neither mapped nor reserved. A page
that it has passed selects another entry than the pages that were not `taken` at the start. -/
theorem Mirrored.protectPages (hperm : IsPerm perm) {taken : ℕ → Bool}
    (hvpn : ∀ a b, vpn a = vpn b → taken a = taken b) (vas : List ℕ) : ∀ m, Mirrored m tables →
    Enough tables vas.length m → (∀ a, taken a = false → ¬ IsTaken (tables.headD 0) a m) →
    Changes false tables (InPages (vas.takeWhile taken)) m
      (forEach (fun a => sharedProtectPage tables a perm) vas m).2 := by
  induction vas with
  | nil => exact fun m h _ _ => Changes.refl h
  | cons a vas ih =>
    intro m h henough hnot
    rw [Vm.forEach]
    by_cases ha : taken a = true
    · have hround := h.protectPage hown henough hperm a
      have hhead : Changes false tables (InPages (a :: vas.takeWhile taken)) m
          (sharedProtectPage tables a perm m).2 :=
        hround.changes.mono (fun va hva => inPages_cons.mpr (Or.inl hva))
      rw [List.takeWhile_cons_of_pos ha]
      split
      · exact hhead
      rename_i hzero
      refine hhead.trans ((ih _ hhead.mirrored (hround.enough (not_not.mp hzero)) ?_).mono
        (fun va hva => inPages_cons.mpr (Or.inr hva)))
      intro b hb
      have hout : ¬ AtPage a b := fun heq => by simp [hvpn b a heq, ha] at hb
      rw [IsTaken, hround.changes.outside (headD_mem hown) hout]
      exact hnot b hb
    · rw [Bool.not_eq_true] at ha
      obtain ⟨hv, hres⟩ := not_or.mp (hnot a ha)
      have hstop : sharedProtectPage tables a perm m = (-enomem, m) := by
        rw [sharedProtectPage, if_pos (not_not.mp hv), if_pos (not_not.mp hres)]
      rw [hstop, if_pos (show -enomem ≠ 0 by decide)]
      exact Changes.refl h

end

include hown

theorem Mirrored.shrinkPage (ha : a < wordSize) :
    Drops tables (fun va => vpn va = vpn a ∧ IsUser a (pteOf own va m)) m
      (if walkaddr own a m ≠ 0 then kfree (walkaddr own a m) (sharedUnmapPage tables a m)
        else m) := by
  rcases h.spaces.walkaddr_cases hown a with hzero | ⟨hne, hframe, hlt, huser⟩
  · rw [if_neg (not_not.mpr hzero)]
    exact Drops.refl h
  · rw [if_pos hne, hframe]
    refine (h.unmapFree ha hown huser.1).1.mono (fun va hva => ⟨hva, hlt, ?_⟩)
    rwa [pteOf_congr hva]

theorem Mirrored.munmapPage (ha : a < wordSize) :
    Drops tables (fun va => vpn va = vpn a ∧ IsDropped a (pteOf own va m)) m
      (munmapPage own tables m a) := by
  unfold Vm.munmapPage
  rcases h.spaces.walkaddr_cases hown a with hzero | ⟨hne, hframe, hlt, huser⟩
  · rw [if_neg (not_not.mpr hzero)]
    split
    · rename_i hres
      refine (h.unmap ha).2.2.mono (fun va hva => ⟨hva, Or.inr ?_⟩)
      rwa [pteOf_congr hva]
    · exact Drops.refl h
  · rw [if_pos hne, hframe]
    refine (h.unmapFree ha hown huser.1).1.mono (fun va hva => ⟨hva, Or.inl ⟨hlt, ?_⟩⟩)
    rwa [pteOf_congr hva]

end Page

theorem Mirrored.fileMapLoop (f : File) (start len : ℕ) (hperm : IsPerm perm) (vas : List ℕ) :
    ∀ pos m, Mirrored m tables → Enough tables vas.length m →
      Adds tables (InPages vas) m (fileMapLoop tables f start len perm vas pos m).2 := by
  induction vas with
  | nil =>
    intro pos m h _
    exact Changes.refl h
  | cons a vas ih =>
    intro pos m h henough
    have hhead : ∀ m', Adds tables (AtPage a) m m' → Adds tables (InPages (a :: vas)) m m' :=
      fun m' hadds => hadds.mono (fun va hva => inPages_cons.mpr (Or.inl hva))
    rw [Vm.fileMapLoop]
    rcases h.mapFresh hperm a henough with ⟨m', hnone, hadds⟩ | ⟨pa, m1, r, m', hsome, hmap, hres⟩
    · rw [hnone]
      exact hhead _ hadds
    rw [hsome]
    simp only [hmap]
    rcases hres with ⟨herr, -, hadds⟩ | ⟨rfl, hadds, hframe, -, hrest⟩
    · rw [if_pos herr]
      exact hhead _ hadds
    rw [if_neg (not_not.mpr rfl)]
    have htail : ∀ pos m2, Adds tables (InPages (a :: vas)) m m2 → Enough tables vas.length m2 →
        Adds tables (InPages (a :: vas)) m
          (Vm.fileMapLoop tables f start len perm vas pos m2).2 := by
      intro pos m2 h2 henough2
      refine h2.trans ((ih pos m2 h2.mirrored henough2).mono (fun va hva => ?_))
      exact inPages_cons.mpr (Or.inr hva)
    split
    · refine htail _ _ ((hhead _ hadds).trans ?_) (hrest.of_free rfl fun _ hf => hf)
      exact .of_untouched hadds.mirrored (hadds.mirrored.spaces.write hframe) fun _ hu => hu
    · exact htail _ _ (hhead _ hadds) hrest

theorem isPerm_protFlags (prot : ℕ) : IsPerm (protFlags prot) := by
  have hall : prot &&& (protRead ||| protWrite ||| protExec) ≠ 0 →
      ¬ (prot &&& protRead = 0 ∧ prot &&& protWrite = 0 ∧ prot &&& protExec = 0) := by
    rintro hne ⟨hr, hw, hx⟩
    rw [and_or_distrib_left, and_or_distrib_left, hr, hw, hx] at hne
    exact hne rfl
  unfold protFlags
  by_cases hr : prot &&& protRead = 0 <;> by_cases hw : prot &&& protWrite = 0 <;>
    by_cases hx : prot &&& protExec = 0 <;>
    by_cases hnone : prot &&& (protRead ||| protWrite ||| protExec) = 0 <;>
    simp only [hr, hw, hx, hnone, ne_eq, not_true_eq_false, not_false_eq_true, if_true, if_false]
  all_goals first
    | exact ⟨by decide, by decide⟩
    | exact absurd ⟨hr, hw, hx⟩ (hall hnone)

theorem Mirrored.mmapPages {fresh : Bool} (h : Mirrored m tables) (hown : own ∈ tables)
    (file : Option File) (start len prot flags offset : ℕ) (hstop : stop < wordSize)
    (henough : Enough tables (pages start stop).length m)
    (hfresh : fresh = true → ¬ (flags &&& mapFixed ≠ 0 ∧ file = none)) :
    Changes fresh tables (InPages (pages start stop)) m
      (mmapPages own tables file start stop len prot flags offset m).2 := by
  have hperm := isPerm_protFlags prot
  unfold Vm.mmapPages
  cases file with
  | some f => exact (fileMapLoop f start len hperm _ offset m h henough).of_adds
  | none =>
    have hrounds := fun fixed protNone => Round.forEach (pages start stop)
      (fun a hmem m n hm hn => hm.anonPage hown hn hperm fixed protNone
        fun _ => lt_trans (lt_of_mem_pages hmem).2 hstop) m h henough
    dsimp only
    by_cases hfixed : flags &&& mapFixed ≠ 0
    · rw [decide_eq_true hfixed]
      cases fresh with
      | false => exact hrounds true _
      | true => exact absurd ⟨hfixed, rfl⟩ (hfresh rfl)
    · rw [decide_eq_false hfixed]
      exact Changes.of_adds (hrounds false _)

end Pages

/-! ## Calls -/

section Calls

variable {s s' : State} {p o addr len prot flags offset : ℕ} {group : List ℕ} {fd r : ℤ}

/-- A process that shares its pages with no other. -/
structure Alone (s : State) (p : ℕ) : Prop where
  owner : sharedVmOwner s p = p
  members : members s p = [p]

/-- No call but `sys_clone` changes who is who. -/
structure SameKin (s s' : State) : Prop where
  pagetable : ∀ q, (s'.proc q).pagetable = (s.proc q).pagetable
  vmShared : ∀ q, (s'.proc q).vmShared = (s.proc q).vmShared
  parent : ∀ q, (s'.proc q).parent = (s.proc q).parent
  children : ∀ q, (s'.proc q).children = (s.proc q).children

theorem SameKin.of_proc (h : s'.proc = s.proc) : SameKin s s' := by
  refine ⟨?_, ?_, ?_, ?_⟩ <;> intro q <;> rw [h]

theorem SameKin.trans {s'' : State} (h : SameKin s s') (h' : SameKin s' s'') : SameKin s s'' :=
  ⟨fun q => (h'.pagetable q).trans (h.pagetable q), fun q => (h'.vmShared q).trans (h.vmShared q),
    fun q => (h'.parent q).trans (h.parent q), fun q => (h'.children q).trans (h.children q)⟩

theorem SameKin.of_mem {mem : Memory} (h : SameKin { s with mem } s') : SameKin s s' :=
  ⟨h.pagetable, h.vmShared, h.parent, h.children⟩

theorem SameKin.members (h : SameKin s s') (q : ℕ) : members s' q = members s q := by
  rw [Vm.members, Vm.members, h.children]
  simp only [h.vmShared]

theorem SameKin.owner (h : SameKin s s') (q : ℕ) : sharedVmOwner s' q = sharedVmOwner s q := by
  rw [sharedVmOwner, sharedVmOwner, h.parent, h.vmShared]

theorem SameKin.tables (h : SameKin s s') (q : ℕ) : tables s' q = tables s q := by
  rw [Vm.tables, Vm.tables, h.members]
  simp only [h.pagetable]

theorem Alone.of_kin (ha : Alone s p) (h : SameKin s s') : Alone s' p :=
  ⟨(h.owner p).trans ha.owner, (h.members p).trans ha.members⟩

theorem Alone.tables (ha : Alone s p) : tables s p = [(s.proc p).pagetable] := by
  rw [Vm.tables, ha.members]
  rfl

theorem sameKin_setProc {f : Proc → Proc} (q : ℕ) (hf : ∀ pr, (f pr).pagetable = pr.pagetable ∧
    (f pr).vmShared = pr.vmShared ∧ (f pr).parent = pr.parent ∧ (f pr).children = pr.children) :
    SameKin s (setProc q f s) := by
  refine ⟨?_, ?_, ?_, ?_⟩ <;> intro q' <;> by_cases hq : q' = q
  all_goals simp [setProc, hq, hf]

theorem sameKin_syncSharedBrk (owner b : ℕ) : SameKin s (syncSharedBrk owner b s) := by
  refine ⟨?_, ?_, ?_, ?_⟩ <;> intro q <;> simp only [syncSharedBrk] <;> split <;> rfl

theorem syncSharedBrk_brkEnd (owner b : ℕ) : ((syncSharedBrk owner b s).proc owner).brkEnd = b := by
  simp [syncSharedBrk, Vm.members]

theorem sameKin_raiseBrk (owner stop : ℕ) : SameKin s (raiseBrk owner stop s) := by
  unfold raiseBrk
  split
  · exact sameKin_syncSharedBrk owner stop
  · exact SameKin.of_proc rfl

theorem withVmLock_ok {owner : ℕ} {call : State → ℤ × State}
    (h : withVmLock owner s call = .ok (r, s')) : call s = (r, s') := by
  obtain ⟨lock, -, hcall⟩ := Outcome.bind_eq_ok.mp h
  exact Except.ok.inj hcall

theorem startBrk_spec (owner : ℕ) (s : State) :
    SameKin s (startBrk owner s) ∧ (startBrk owner s).mem = s.mem ∧
      ((startBrk owner s).proc owner).brkEnd = brkOf s owner := by
  unfold startBrk brkOf
  split
  · exact ⟨sameKin_setProc owner (fun pr => ⟨rfl, rfl, rfl, rfl⟩), rfl, by simp [setProc]⟩
  · exact ⟨SameKin.of_proc rfl, rfl, rfl⟩

theorem pageAlignUp_lt (a : ℕ) : pageAlignUp a < wordSize :=
  lt_of_le_of_lt and_le_left (mod_lt _ (by decide))

/-! ## A process and its threads -/

/-- The pages that a call may have to map. -/
def Call.rounds (s : State) (p : ℕ) : Call → ℕ
  | .brk addr => (pages (pageAlignUp (brkOf s (sharedVmOwner s p))) (pageAlignUp addr)).length
  | .mmap _ len _ _ _ _ => (pages 0 (pageAlignUp len)).length
  | .munmap _ _ => 0
  | .mprotect addr len _ =>
    (pages (pageAlignDown addr) (pageAlignUp ((addr + len) % wordSize))).length

/-- The allocator does not run out while a call changes the tables of a group: the caller has no
threads, or the next answers are pages, one for each page and two for each of its entries. -/
def Supplied (s : State) (p : ℕ) (c : Call) : Prop :=
  Enough (tables s (sharedVmOwner s p)) (c.rounds s p) s.mem

instance (s : State) (p : ℕ) (c : Call) : Decidable (Supplied s p c) :=
  inferInstanceAs (Decidable (Enough _ _ _))

/-- The pages that a change of protection comes to. -/
def protectedPages (s : State) (p addr len : ℕ) : List ℕ :=
  (pages (pageAlignDown addr) (pageAlignUp ((addr + len) % wordSize))).takeWhile
    fun a => IsTaken (s.proc (sharedVmOwner s p)).pagetable a s.mem

structure Team (s : State) (o : ℕ) (group : List ℕ) : Prop where
  members : members s o = group
  owner : ∀ q ∈ group, sharedVmOwner s q = o
  mirrored : Mirrored s.mem (tables s o)

theorem Alone.team (ha : Alone s p) (h : Space s.mem (s.proc p).pagetable) : Team s p [p] := by
  refine ⟨ha.members, fun q hq => List.mem_singleton.mp hq ▸ ha.owner, ?_⟩
  rw [ha.tables]
  exact h.mirrored

theorem Alone.supplied (ha : Alone s p) (c : Call) : Supplied s p c := by
  rw [Supplied, ha.owner, ha.tables]
  exact Or.inl rfl

/-- What `sys_brk` does to the pages and the break. -/
inductive BrkEffect (o own : ℕ) (tables : List ℕ) (addr : ℕ) (s s' : State) : Prop
  | asked : addr = 0 → s' = s → BrkEffect o own tables addr s s'
  | down : addr ≠ 0 → addr < brkOf s o → (s'.proc o).brkEnd = addr →
      Drops tables (fun va => ∃ a ∈ pages (pageAlignUp addr) (pageAlignUp (brkOf s o)),
        vpn va = vpn a ∧ IsUser a (pteOf own va s.mem)) s.mem s'.mem →
      BrkEffect o own tables addr s s'
  | up : addr ≠ 0 → brkOf s o ≤ addr →
      ((s'.proc o).brkEnd = addr ∨ (s'.proc o).brkEnd = brkOf s o) →
      Adds tables (InPages (pages (pageAlignUp (brkOf s o)) (pageAlignUp addr))) s.mem s'.mem →
      BrkEffect o own tables addr s s'

/-- Whether `sys_mmap` may replace pages: anonymous pages with `MAP_FIXED`. -/
def Replaces (flags : ℕ) (fd : ℤ) : Prop := flags &&& mapFixed ≠ 0 ∧ fd < 0

instance (flags : ℕ) (fd : ℤ) : Decidable (Replaces flags fd) :=
  inferInstanceAs (Decidable (_ ∧ _))

/-- What `sys_mmap` does to the pages and the break. -/
inductive MmapEffect (o own : ℕ) (tables : List ℕ) (addr len flags : ℕ) (fd r : ℤ)
    (s s' : State) : Prop
  | failed : r < 0 → s'.mem = s.mem → (s'.proc o).brkEnd = (s.proc o).brkEnd →
      MmapEffect o own tables addr len flags fd r s s'
  | placed (start : ℕ) :
      mmapStart own addr (pageAlignUp len) flags (s.proc o).brkEnd s.mem = some start →
      Changes (decide (¬ Replaces flags fd)) tables
        (InPages (pages start ((start + pageAlignUp len) % wordSize))) s.mem s'.mem →
      (r < 0 ∧ (s'.proc o).brkEnd = (s.proc o).brkEnd ∨
        r = start ∧
          (s'.proc o).brkEnd = max (s.proc o).brkEnd ((start + pageAlignUp len) % wordSize)) →
      MmapEffect o own tables addr len flags fd r s s'

theorem raiseBrk_brkEnd (owner stop : ℕ) (s : State) :
    ((raiseBrk owner stop s).proc owner).brkEnd = max (s.proc owner).brkEnd stop := by
  unfold raiseBrk
  split
  · rw [syncSharedBrk_brkEnd]
    omega
  · omega

theorem raiseBrk_mem (owner stop : ℕ) (s : State) : (raiseBrk owner stop s).mem = s.mem := by
  unfold raiseBrk
  split <;> rfl

namespace Team

variable (h : Team s o group)

include h

theorem of_kin (hkin : SameKin s s') (h' : Mirrored s'.mem (tables s o)) : Team s' o group := by
  refine ⟨(hkin.members o).trans h.members, fun q hq => ?_, ?_⟩
  · rw [hkin.owner]
    exact h.owner q hq
  · rw [hkin.tables]
    exact h'

variable (hp : p ∈ group)

include hp

theorem table_mem : (s.proc p).pagetable ∈ tables s o := by
  rw [Vm.tables, h.members]
  exact List.mem_map_of_mem hp

/-- The break moves down over pages that are dropped, or up over pages that are added. -/
theorem moveBrk (addr : ℕ) (henough : Enough (tables s o)
      (pages (pageAlignUp (s.proc o).brkEnd) (pageAlignUp addr)).length s.mem) :
    SameKin s (moveBrk addr p o s).2 ∧
    (addr < (s.proc o).brkEnd ∧ ((Vm.moveBrk addr p o s).2.proc o).brkEnd = addr ∧
        Drops (tables s o) (fun va => ∃ a ∈ pages (pageAlignUp addr)
          (pageAlignUp (s.proc o).brkEnd), vpn va = vpn a ∧
            IsUser a (pteOf (s.proc p).pagetable va s.mem)) s.mem (Vm.moveBrk addr p o s).2.mem ∨
      (s.proc o).brkEnd ≤ addr ∧ (((Vm.moveBrk addr p o s).2.proc o).brkEnd = addr ∨
          ((Vm.moveBrk addr p o s).2.proc o).brkEnd = (s.proc o).brkEnd) ∧
        Adds (tables s o) (InPages (pages (pageAlignUp (s.proc o).brkEnd)
          (pageAlignUp addr))) s.mem (Vm.moveBrk addr p o s).2.mem) := by
  have hown := h.table_mem hp
  unfold Vm.moveBrk
  dsimp only
  by_cases hlt : addr < (s.proc o).brkEnd
  · rw [if_pos hlt]
    have hdrops := Drops.foldl not_isUser_zero hown
      (pages (pageAlignUp addr) (pageAlignUp (s.proc o).brkEnd))
      (fun a hmem m hm => hm.shrinkPage hown (lt_trans (lt_of_mem_pages hmem).2 (pageAlignUp_lt _)))
      s.mem h.mirrored
    exact ⟨(sameKin_syncSharedBrk o addr).of_mem, Or.inl ⟨hlt, syncSharedBrk_brkEnd o addr, hdrops⟩⟩
  rw [if_neg hlt]
  have hle := not_lt.mp hlt
  by_cases hgt : (s.proc o).brkEnd < addr
  · rw [if_pos hgt]
    have hadds := Round.forEach (pages (pageAlignUp (s.proc o).brkEnd) (pageAlignUp addr))
      (fun a _ m n hm hn => hm.growPage hn (s.proc p).pagetable a) s.mem h.mirrored henough
    split
    · exact ⟨(sameKin_syncSharedBrk o addr).of_mem,
        Or.inr ⟨hle, Or.inl (syncSharedBrk_brkEnd o addr), hadds⟩⟩
    · exact ⟨SameKin.of_proc rfl, Or.inr ⟨hle, Or.inr rfl, hadds⟩⟩
  · rw [if_neg hgt]
    exact ⟨SameKin.of_proc rfl, Or.inr ⟨hle, Or.inr rfl, Changes.refl h.mirrored⟩⟩

theorem sysBrk (hsupplied : Supplied s p (.brk addr)) (hr : sysBrk addr p s = .ok (r, s')) :
    SameKin s s' ∧ BrkEffect o (s.proc p).pagetable (tables s o) addr s s' := by
  rw [Supplied, Call.rounds, h.owner p hp] at hsupplied
  unfold Vm.sysBrk at hr
  rw [h.owner p hp] at hr
  have hcall := withVmLock_ok hr
  by_cases haddr : addr = 0
  · rw [if_pos haddr] at hcall
    exact ⟨SameKin.of_proc (by rw [(Prod.mk.inj hcall).2]), .asked haddr (Prod.mk.inj hcall).2.symm⟩
  rw [if_neg haddr] at hcall
  obtain ⟨hkin, hmem, hbrk⟩ := startBrk_spec o s
  have hspec := (h.of_kin hkin (by rw [hmem]; exact h.mirrored)).moveBrk hp addr
    (by rwa [hbrk, hmem, hkin.tables])
  rw [hcall, hbrk, hmem, hkin.pagetable, hkin.tables] at hspec
  refine ⟨hkin.trans hspec.1, ?_⟩
  rcases hspec.2 with ⟨hlt, hbrk', hdrops⟩ | ⟨hle, hbrk', hadds⟩
  · exact .down haddr hlt hbrk' hdrops
  · exact .up haddr hle hbrk' hadds

theorem sysMmap (hsupplied : Supplied s p (.mmap addr len prot flags fd offset))
    (hr : sysMmap addr len prot flags fd offset p s = .ok (r, s')) :
    SameKin s s' ∧
      MmapEffect o (s.proc p).pagetable (tables s o) addr len flags fd r s s' := by
  rw [Supplied, Call.rounds, h.owner p hp] at hsupplied
  unfold Vm.sysMmap at hr
  rw [h.owner p hp] at hr
  by_cases hlen : len = 0
  · rw [if_pos hlen] at hr
    obtain ⟨rfl, rfl⟩ := Outcome.ok_mk_inj hr
    exact ⟨SameKin.of_proc rfl, .failed (by decide) rfl rfl⟩
  rw [if_neg hlen] at hr
  have hcall := withVmLock_ok hr
  cases hstart : mmapStart (s.proc p).pagetable addr (pageAlignUp len) flags (s.proc o).brkEnd
      s.mem with
  | none =>
    simp only [hstart] at hcall
    obtain ⟨rfl, rfl⟩ := Prod.mk.inj hcall
    exact ⟨SameKin.of_proc rfl, .failed (by decide) rfl rfl⟩
  | some start =>
    simp only [hstart] at hcall
    set file := if 0 ≤ fd then (s.proc p).fdTable fd.toNat else none with hfile
    by_cases hbad : 0 ≤ fd ∧ file.isNone = true
    · rw [if_pos hbad] at hcall
      obtain ⟨rfl, rfl⟩ := Prod.mk.inj hcall
      refine ⟨sameKin_setProc o (fun pr => ⟨rfl, rfl, rfl, rfl⟩), .failed (by decide) rfl ?_⟩
      simp [setProc]
    rw [if_neg hbad] at hcall
    have hcount : (pages start ((start + pageAlignUp len) % wordSize)).length ≤
        (pages 0 (pageAlignUp len)).length := by
      have hmod := mod_le (start + pageAlignUp len) wordSize
      rw [length_pages, length_pages]
      refine Nat.div_le_div_right ?_
      omega
    -- without a file the call is anonymous
    have hreplace : decide (¬ Replaces flags fd) = true →
        ¬ (flags &&& mapFixed ≠ 0 ∧ file = none) := by
      rintro hnot ⟨hfixed, hnone⟩
      refine of_decide_eq_true hnot ⟨hfixed, not_le.mp fun hfd => hbad ⟨hfd, ?_⟩⟩
      rw [hnone]
      rfl
    have hchanges := h.mirrored.mmapPages (h.table_mem hp) file start len prot flags offset
      (mod_lt _ (by decide)) (hsupplied.mono hcount) hreplace
    split at hcall
    · obtain ⟨rfl, rfl⟩ := Prod.mk.inj hcall
      exact ⟨SameKin.of_proc rfl, .placed start hstart hchanges (Or.inl ⟨by decide, rfl⟩)⟩
    obtain ⟨rfl, rfl⟩ := Prod.mk.inj hcall
    refine ⟨(sameKin_raiseBrk o _).of_mem, .placed start hstart ?_
      (Or.inr ⟨rfl, raiseBrk_brkEnd o _ _⟩)⟩
    rw [raiseBrk_mem]
    exact hchanges

/-- What `sys_munmap` does: it drops pages of its range. -/
theorem sysMunmap (hr : sysMunmap addr len p s = .ok (r, s')) : s'.proc = s.proc ∧
    Drops (tables s o) (fun va => ∃ a ∈ pages addr ((addr + pageAlignUp len) % wordSize),
      vpn va = vpn a ∧ IsDropped a (pteOf (s.proc p).pagetable va s.mem)) s.mem s'.mem := by
  have hown := h.table_mem hp
  unfold Vm.sysMunmap at hr
  rw [h.owner p hp] at hr
  dsimp only at hr
  split at hr
  · obtain ⟨rfl, rfl⟩ := Outcome.ok_mk_inj hr
    exact ⟨rfl, Drops.refl h.mirrored⟩
  have hcall := withVmLock_ok hr
  split at hcall
  · obtain ⟨-, rfl⟩ := Prod.mk.inj hcall
    exact ⟨rfl, Drops.refl h.mirrored⟩
  obtain ⟨-, rfl⟩ := Prod.mk.inj hcall
  refine ⟨rfl, Drops.foldl not_isDropped_zero hown _ (fun a hmem m hm => hm.munmapPage hown ?_)
    s.mem h.mirrored⟩
  exact lt_trans (lt_of_mem_pages hmem).2 (mod_lt _ (by decide))

/-- What `sys_mprotect` does: it changes pages of its range up to the first that is neither mapped
nor reserved. -/
theorem sysMprotect (hsupplied : Supplied s p (.mprotect addr len prot))
    (hr : sysMprotect addr len prot p s = .ok (r, s')) : s'.proc = s.proc ∧
    Changes false (tables s o) (InPages (protectedPages s p addr len)) s.mem s'.mem ∧
    (addr < userTop ∨ s'.mem = s.mem) := by
  unfold protectedPages
  rw [h.owner p hp]
  rw [Supplied, Call.rounds, h.owner p hp] at hsupplied
  unfold Vm.sysMprotect at hr
  rw [h.owner p hp] at hr
  dsimp only at hr
  split at hr
  · obtain ⟨rfl, rfl⟩ := Outcome.ok_mk_inj hr
    exact ⟨rfl, Changes.refl h.mirrored, Or.inr rfl⟩
  split at hr
  · obtain ⟨rfl, rfl⟩ := Outcome.ok_mk_inj hr
    exact ⟨rfl, Changes.refl h.mirrored, Or.inr rfl⟩
  rename_i haddr
  have hcall := withVmLock_ok hr
  have hchanges := Mirrored.protectPages (h.table_mem hp) (isPerm_protFlags prot)
    (fun a b hvpn => decide_eq_decide.mpr (by rw [IsTaken, pteOf_congr hvpn, ← IsTaken]))
    (pages (pageAlignDown addr) (pageAlignUp ((addr + len) % wordSize))) s.mem h.mirrored hsupplied
    (fun a ha => of_decide_eq_false ha)
  split at hcall
  all_goals
    obtain ⟨-, rfl⟩ := Prod.mk.inj hcall
    exact ⟨rfl, hchanges, Or.inl (not_le.mp haddr)⟩

end Team

/-! ## `sys_clone` -/

theorem sysClone_ok {c tp : ℕ} (hpc : p ≠ c) (hr : sysClone share tp p c s = (↑c, s')) :
    ∃ pagetable,
    childPagetable share (s.proc p).pagetable tp s.mem = (some pagetable, s'.mem) ∧
      s'.proc = update (update s.proc c
        (cloneProc share p (s.proc p) pagetable)) p
          { s.proc p with children := (s.proc p).children ++ [c] } := by
  unfold sysClone at hr
  dsimp only at hr
  split at hr
  · have hneg : -12 = (c : ℤ) := (Prod.mk.inj hr).1
    omega
  rename_i pagetable mem hchild
  obtain ⟨-, rfl⟩ := Prod.mk.inj hr
  refine ⟨pagetable, hchild, ?_⟩
  simp [setProc, update_of_ne hpc]

theorem sysClone_failed {c tp : ℕ} (hr : sysClone share tp p c s = (-enomem, s')) :
    childPagetable share (s.proc p).pagetable tp s.mem = (none, s'.mem) ∧ s'.proc = s.proc := by
  unfold sysClone at hr
  dsimp only at hr
  split at hr
  · rename_i mem hchild
    obtain ⟨-, rfl⟩ := Prod.mk.inj hr
    exact ⟨hchild, rfl⟩
  · have hneg : (c : ℤ) = -12 := (Prod.mk.inj hr).1
    omega

end Calls

end NoobKernel.Vm
